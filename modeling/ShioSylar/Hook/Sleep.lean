import ShioSylar.Timer.Arming

/-! The hooked sleeps (`hook.cc`).

`sleep`, `usleep` and `nanosleep` hand the fiber to a timer, which nobody else holds, and yield;
the timer schedules it. What is asked for passes through 32 bits on the way to the period,
differently in each: `sleep` multiplies in `unsigned int`, and `nanosleep` computes in `long` and
keeps an `int`. The fiber sleeps on if and only if its timer has at least the period asked for
and a deadline that does not wrap (`asleep_iff`), which is a bound on the argument
(`sleeps_iff`). -/
namespace ShioSylar.TimerManager
open Lib

/-! ### A timer that nobody holds -/

variable {ι κ : Type} [LinearOrder ι] {t : ι} {s s' : State ι κ}

omit [LinearOrder ι] in
/-- The call is not made on the timer. -/
def Spares (t : ι) : Op ι κ → Prop
  | .cancel u | .refresh u _ | .reset u _ _ _ => u ≠ t
  | _ => True

/-- A one-shot timer that is due at one moment, or has been emitted. -/
structure Sleeping (t : ι) (next : U64) (s : State ι κ) : Prop where
  allocated : (s.objects t).isSome = true
  oneShot : (s.timer t).recurring = false
  due : (s.timer t).cb.isSome = true → (s.timer t).next = next

theorem emit_isSome (now : U64) (es : List ι) (cbs : List (Option κ)) (ht : (s.objects t).isSome = true) :
    ((State.emit now es (cbs, s)).2.objects t).isSome = true := by
  induction es generalizing cbs s with
  | nil => exact ht
  | cons u rest ih =>
    rw [emit_cons]
    refine ih _ ?_
    rw [emitOne_objects]
    by_cases hu : t = u
    · rw [hu, Function.update_self]
      rfl
    · rwa [Function.update_of_ne hu]

variable {next : U64}

theorem Sleeping.write (k : Sleeping t next s) {u : ι} (hu : u ≠ t) {x : Timer κ}
    (hobj : s'.objects = Function.update s.objects u (some x)) : Sleeping t next s' := by
  have hsame : s'.objects t = s.objects t := by rw [hobj, Function.update_of_ne (Ne.symm hu)]
  have htimer : s'.timer t = s.timer t := by rw [State.timer, hsame, State.timer]
  exact ⟨by rw [hsame]; exact k.allocated, by rw [htimer]; exact k.oneShot, by rw [htimer]; exact k.due⟩

omit [LinearOrder ι] in
theorem Sleeping.same (k : Sleeping t next s) (hobj : s'.objects = s.objects) : Sleeping t next s' := by
  have htimer : s'.timer t = s.timer t := by rw [State.timer, hobj, State.timer]
  exact ⟨by rw [hobj]; exact k.allocated, by rw [htimer]; exact k.oneShot, by rw [htimer]; exact k.due⟩

/-- No call but one on the timer itself moves its deadline. -/
theorem Sleeping.call (k : Sleeping t next s) (hc : Container s) {op : Op ι κ} {ev : List (Event ι κ)}
    (hs : Spares t op) (he : exec s op = some (ev, s')) : Sleeping t next s' := by
  cases op with
  | addTimer u ms cb recurring now =>
    simp only [exec, Option.ite_none_right_eq_some, Option.some.injEq, Prod.mk.injEq] at he
    obtain ⟨hu, -, rfl⟩ := he
    have hne : u ≠ t := by
      rintro rfl
      have halloc := k.allocated
      rw [Option.isNone_iff_eq_none.mp hu] at halloc
      cases halloc
    exact k.write hne (addTimer_spec hc u ms cb recurring now (Option.isNone_iff_eq_none.mp hu)).2
  | cancel u =>
    simp only [exec, Option.ite_none_right_eq_some] at he
    obtain ⟨r, hr, heq⟩ := Option.map_eq_some_iff.mp he.2
    cases heq
    rcases cancel_spec hc u with ⟨m, hm, -, -, hobj⟩ | ⟨hm, -⟩ <;> cases hm.symm.trans hr
    · exact k.write hs hobj
    · exact k
  | refresh u now =>
    simp only [exec, Option.ite_none_right_eq_some, Option.some.injEq, Prod.mk.injEq] at he
    obtain ⟨-, -, rfl⟩ := he
    rcases refresh_spec hc u now with ⟨-, hr⟩ | ⟨hr, -⟩ <;> rw [hr]
    · exact k.write hs (rearm_objects ..)
    · exact k
  | reset u ms fromNow now =>
    simp only [exec, Option.ite_none_right_eq_some, Option.some.injEq, Prod.mk.injEq] at he
    obtain ⟨-, -, rfl⟩ := he
    rcases reset_spec hc u ms fromNow now with ⟨-, -, hobj⟩ | hr
    · exact k.write hs hobj
    · rwa [hr]
  | getNextTimer now =>
    cases he
    exact k.same (getNextTimer_spec hc now).2
  | listExpiredCb now tmp =>
    cases he
    have htimer := listExpiredCb_timer hc now tmp t
    have halloc : ((s.listExpiredCb now tmp []).2.objects t).isSome = true := by
      have htaken : ((s.takeExpired now tmp).2.objects t).isSome = true := by
        rw [(takeExpired_spec hc now tmp).2]
        exact k.allocated
      exact emit_isSome now (s.takeExpired now tmp).1 [] htaken
    by_cases hin : t ∈ (s.takeExpired now tmp).1
    · rw [if_pos hin, emitted, if_neg (by simp [k.oneShot])] at htimer
      exact ⟨halloc, by rw [htimer]; exact k.oneShot, by rw [htimer]; simp⟩
    · rw [if_neg hin] at htimer
      exact ⟨halloc, by rw [htimer]; exact k.oneShot, by rw [htimer]; exact k.due⟩

/-- A fiber that has asked for `ms` milliseconds at `now` and whose timer `t` has the period `p`
is not scheduled before they are over, whatever is called meanwhile. -/
def StaysAsleep (d : Dated ι κ) (t : ι) (cb : κ) (now p : U64) (ms : Nat) : Prop :=
  ∀ e, d.step (.addTimer t p cb false now) = some e → ∀ ops f, run Dated.step e ops = some f →
    Meets Dated.step Forward e ops → (∀ op ∈ ops, Spares t op) → ∀ rd tmp, f.clock ≤ rd →
      t ∈ (f.manager.takeExpired rd tmp).1 → now.toNat + ms ≤ rd.toNat

/-- The timer and the clock when the fiber yields. -/
theorem fallAsleep {d e : Dated ι κ} (k : Ahead d) (ht : d.manager.objects t = none) {now : U64}
    (hnow : d.clock ≤ now) {p : U64} {cb : κ} (h : d.step (.addTimer t p cb false now) = some e) :
    Ahead e ∧ e.clock = now ∧ (e.manager.timer t).cb = some cb ∧ Sleeping t (now + p) e.manager := by
  have hahead : Ahead e := k.step (by rintro _ ⟨⟩; exact hnow) h
  obtain ⟨⟨ev, m⟩, he, rfl⟩ := Option.map_eq_some_iff.mp h
  simp only [exec, Option.ite_none_right_eq_some, Option.some.injEq, Prod.mk.injEq] at he
  obtain ⟨-, -, rfl⟩ := he
  have hobj := (addTimer_spec k.since.container t p cb false now ht).2
  have hself : (d.manager.addTimer t p (some cb) false now).2.objects t =
      some (Timer.create p (some cb) false now) := by rw [hobj, Function.update_self]
  have htimer : (d.manager.addTimer t p (some cb) false now).2.timer t =
      Timer.create p (some cb) false now := by rw [State.timer, hself]; rfl
  refine ⟨hahead, rfl, ?_, ?_, ?_, fun _ => ?_⟩
  · exact congrArg Timer.cb htimer
  · exact congrArg Option.isSome hself
  · exact congrArg Timer.recurring htimer
  · exact congrArg Timer.next htimer

theorem run_sleeping {d e : Dated ι κ} (k : Ahead d) (hk : Sleeping t next d.manager) {ops : List (Op ι κ)}
    (hr : run Dated.step d ops = some e) (hf : Meets Dated.step Forward d ops)
    (hs : ∀ op ∈ ops, Spares t op) : Ahead e ∧ Sleeping t next e.manager ∧ d.clock ≤ e.clock := by
  induction ops generalizing d with
  | nil =>
    obtain rfl := Option.some.inj hr
    exact ⟨k, hk, BitVec.le_refl _⟩
  | cons op rest ih =>
    obtain ⟨c, hc, hrest⟩ := run_cons.mp hr
    have hahead := k.step hf.1 hc
    have hfrest := hf.2 c hc
    have hclock := hf.1.clock_le hc
    obtain ⟨⟨ev, m⟩, he, rfl⟩ := Option.map_eq_some_iff.mp hc
    have hsleep := hk.call k.since.container (hs op (List.mem_cons_self ..)) he
    obtain ⟨hlast, hslept, hle⟩ :=
      ih hahead hsleep hrest hfrest fun op hop => hs op (List.mem_cons_of_mem _ hop)
    exact ⟨hlast, hslept, BitVec.le_trans hclock hle⟩

/-- **Asleep.** A fiber sleeps as long as it asked if and only if it asked for nothing, or its
timer has at least that period and its deadline does not wrap. -/
theorem asleep_iff {d : Dated ι κ} (k : Ahead d) (ht : d.manager.objects t = none) {now : U64}
    (hnow : d.clock ≤ now) (cb : κ) (p : U64) (ms : Nat) :
    StaysAsleep d t cb now p ms ↔ ms = 0 ∨ (ms ≤ p.toNat ∧ now.toNat + p.toNat < 2 ^ 64) := by
  have hp := p.isLt
  have hlt := now.isLt
  have hnext : (now + p).toNat = (now.toNat + p.toNat) % 2 ^ 64 := BitVec.toNat_add ..
  constructor
  · intro hstays
    obtain ⟨e, he⟩ : ∃ e, d.step (.addTimer t p cb false now) = some e :=
      ⟨_, by simp only [Dated.step, exec, ht, Option.isNone_none, if_true, Option.map_some]; rfl⟩
    obtain ⟨hahead, hclock, hcb, hsleep⟩ := fallAsleep k ht hnow he
    have hpending : (e.manager.timer t).cb.isSome = true := by rw [hcb]; rfl
    have hin := (hahead.since.container.mem_iff t).mpr hpending
    -- the timer is taken out at its deadline, or at once where that has wrapped
    have hat : ∀ rd, now ≤ rd → now + p ≤ rd → now.toNat + ms ≤ rd.toNat := by
      intro rd hrd hdue
      refine hstays e he [] e rfl trivial (fun _ h => by cases h) rd t (hclock ▸ hrd) ?_
      exact (hahead.takeExpired_mem (hclock ▸ hrd) t t).mpr ⟨hin, hsleep.due hpending ▸ hdue⟩
    by_cases hfit : now.toNat + p.toNat < 2 ^ 64
    · have hms := hat (now + p) (by rw [BitVec.le_def]; omega) (BitVec.le_refl _)
      omega
    · have hms := hat now (BitVec.le_refl _) (by rw [BitVec.le_def]; omega)
      omega
  · intro hwhen e he ops f hr hf hs rd tmp hrd hin
    obtain ⟨hahead, hclock, -, hsleep⟩ := fallAsleep k ht hnow he
    obtain ⟨hlast, hslept, hle⟩ := run_sleeping hahead hsleep hr hf hs
    have hlater : now ≤ rd := hclock ▸ BitVec.le_trans hle hrd
    obtain ⟨htimers, hdue⟩ := (hlast.takeExpired_mem hrd tmp t).mp hin
    rw [hslept.due ((hlast.since.container.mem_iff t).mp htimers), BitVec.le_def, hnext] at hdue
    rw [BitVec.le_def] at hlater
    omega

/-- While it is to stay asleep, the callbacks that are returned are those of other timers. -/
theorem StaysAsleep.cbs {d e f : Dated ι κ} (k : Ahead d) (ht : d.manager.objects t = none) {now p : U64}
    (hnow : d.clock ≤ now) {cb : κ} {ms : Nat} (hstays : StaysAsleep d t cb now p ms)
    (he : d.step (.addTimer t p cb false now) = some e) {ops : List (Op ι κ)} (hr : run Dated.step e ops = some f)
    (hf : Meets Dated.step Forward e ops) (hs : ∀ op ∈ ops, Spares t op) {rd : U64} (hrd : f.clock ≤ rd)
    (hearly : rd.toNat < now.toNat + ms) (tmp : ι) : ∃ ts : List ι, t ∉ ts ∧
      (f.manager.listExpiredCb rd tmp []).1 = ts.map fun u => (f.manager.timer u).cb := by
  obtain ⟨hahead, -, -, hsleep⟩ := fallAsleep k ht hnow he
  obtain ⟨hlast, -, -⟩ := run_sleeping hahead hsleep hr hf hs
  refine ⟨(f.manager.takeExpired rd tmp).1, fun hin => ?_, listExpiredCb_cbs hlast.since.container rd tmp⟩
  exact Nat.not_le.mpr hearly (hstays e he ops f hr hf hs rd tmp hrd hin)

end ShioSylar.TimerManager

namespace ShioSylar.Hook
open TimerManager

/-- A result of `long` arithmetic, undefined where it overflows. -/
def long (n : Int) : Option Int := if -(2 ^ 63) ≤ n ∧ n < 2 ^ 63 then some n else none

structure Timespec where
  sec : Int
  nsec : Int

/-- What a sleep does. -/
inductive Sleep where
  | original
  /-- `addTimer(ms, ..)` for the fiber, and `YieldToHold()`. -/
  | timer (ms : U64)

/-- `sleep`. -/
def sleep (hookEnable : Bool) (seconds : BitVec 32) : Sleep :=
  if !hookEnable then .original else .timer ((seconds * 1000).setWidth 64)

/-- `usleep`. -/
def usleep (hookEnable : Bool) (usec : BitVec 32) : Sleep :=
  if !hookEnable then .original else .timer ((usec / 1000).setWidth 64)

/-- `nanosleep`; `none` is undefined. -/
def nanosleep (hookEnable : Bool) (req : Timespec) : Option Sleep :=
  if !hookEnable then some .original
  else do
    let ms ← long (req.sec * 1000)
    let timeoutMs ← long (ms + (req.nsec.tdiv 1000).tdiv 1000)
    some (.timer ((BitVec.ofInt 32 timeoutMs).signExtend 64))

/-- A call with hooking enabled. -/
inductive SleepCall where
  | sleep (seconds : BitVec 32)
  | usleep (usec : BitVec 32)
  | nanosleep (req : Timespec)

namespace SleepCall

/-- The period of the timer. -/
def period (c : SleepCall) : Option U64 :=
  let does : Option Sleep := match c with
    | .sleep seconds => some (Hook.sleep true seconds)
    | .usleep usec => some (Hook.usleep true usec)
    | .nanosleep req => Hook.nanosleep true req
  does.bind fun
    | .original => none
    | .timer ms => some ms

/-- An argument that the functions are defined for; `tv_sec` is a `long`. -/
def Legal : SleepCall → Prop
  | .nanosleep req => 0 ≤ req.sec ∧ req.sec < 2 ^ 63 ∧ 0 ≤ req.nsec ∧ req.nsec < 10 ^ 9
  | _ => True

/-- The whole milliseconds asked for. -/
def ms : SleepCall → Nat
  | .sleep seconds => seconds.toNat * 1000
  | .usleep usec => usec.toNat / 1000
  | .nanosleep req => (req.sec * 1000 + req.nsec / 1000000).toNat

/-- What is asked for arrives: it is below 2³² milliseconds in `sleep`; in `nanosleep` below 2³¹,
or its `int` is negative and the clock so early that the deadline does not wrap. -/
def Fits (c : SleepCall) (now : U64) : Prop :=
  match c with
  | .sleep seconds => seconds.toNat * 1000 < 2 ^ 32
  | .usleep _ => True
  | .nanosleep _ => c.ms < 2 ^ 31 ∨
      (c.ms < 2 ^ 63 ∧ 2 ^ 31 ≤ c.ms % 2 ^ 32 ∧ now.toNat + c.ms % 2 ^ 32 < 2 ^ 32)

end SleepCall

/-! ### The period -/

theorem long_eq_some {n : Int} (h : -(2 ^ 63) ≤ n ∧ n < 2 ^ 63) : long n = some n := if_pos h

theorem toNat_setWidth (x : BitVec 32) : (x.setWidth 64).toNat = x.toNat := by
  have hx := x.isLt
  rw [BitVec.toNat_setWidth, Nat.mod_eq_of_lt (by omega)]

/-- An `int` taken for a `uint64_t`. -/
theorem toNat_narrowed {n : Int} (hn : 0 ≤ n) : ((BitVec.ofInt 32 n).signExtend 64).toNat =
    if n.toNat % 2 ^ 32 < 2 ^ 31 then n.toNat % 2 ^ 32 else 2 ^ 64 - 2 ^ 32 + n.toNat % 2 ^ 32 := by
  have hbits : (BitVec.ofInt 32 n).toNat = n.toNat % 2 ^ 32 := by
    rw [BitVec.toNat_ofInt, Int.toNat_emod hn (by decide)]
    rfl
  rw [BitVec.toNat_signExtend, toNat_setWidth, BitVec.msb_eq_decide, hbits]
  by_cases hlt : n.toNat % 2 ^ 32 < 2 ^ 31
  · rw [if_pos hlt, if_neg (by simpa using hlt), Nat.add_zero]
  · rw [if_neg hlt, if_pos (by simpa using hlt), Nat.add_comm]

theorem nanosleep_ms {req : Timespec} (hc : (SleepCall.nanosleep req).Legal) :
    req.sec * 1000 + (req.nsec.tdiv 1000).tdiv 1000 = (SleepCall.nanosleep req).ms := by
  obtain ⟨hsec, -, hnsec, -⟩ := hc
  have hdiv : (req.nsec.tdiv 1000).tdiv 1000 = req.nsec / 1000000 := by
    rw [Int.tdiv_eq_ediv_of_nonneg hnsec, Int.tdiv_eq_ediv_of_nonneg (by omega)]
    omega
  rw [hdiv, SleepCall.ms, Int.toNat_of_nonneg (by omega)]

/-- `nanosleep` is defined as long as the milliseconds are a `long`. -/
theorem nanosleep_period {req : Timespec} (hc : (SleepCall.nanosleep req).Legal) :
    (SleepCall.nanosleep req).period =
      if (SleepCall.nanosleep req).ms < 2 ^ 63 then
        some ((BitVec.ofInt 32 (SleepCall.nanosleep req).ms).signExtend 64)
      else none := by
  have hms := nanosleep_ms hc
  obtain ⟨hsec, -, hnsec, -⟩ := hc
  have hle : 0 ≤ (req.nsec.tdiv 1000).tdiv 1000 :=
    Int.tdiv_nonneg (Int.tdiv_nonneg hnsec (by decide)) (by decide)
  generalize (SleepCall.nanosleep req).ms = n at hms ⊢
  simp only [SleepCall.period, nanosleep, Bool.not_true, Bool.false_eq_true, if_false]
  by_cases hlong : n < 2 ^ 63
  · rw [long_eq_some (by omega), Option.bind_eq_bind, Option.bind_some, hms, long_eq_some (by omega),
      if_pos hlong]
    rfl
  · rw [if_neg hlong]
    by_cases hsecs : req.sec * 1000 < 2 ^ 63
    · rw [long_eq_some (by omega), Option.bind_eq_bind, Option.bind_some, hms, long, if_neg (by omega)]
      rfl
    · rw [long, if_neg (by omega)]
      rfl

/-- The period is what was asked for, and the deadline does not wrap. -/
theorem SleepCall.fits_iff {c : SleepCall} (hc : c.Legal) {now : U64} (hnow : now.toNat + c.ms < 2 ^ 64) :
    c.Fits now ↔ ∃ p, c.period = some p ∧ (c.ms = 0 ∨ (c.ms ≤ p.toNat ∧ now.toNat + p.toNat < 2 ^ 64)) := by
  cases c with
  | sleep seconds =>
    have hperiod : (SleepCall.sleep seconds).period = some ((seconds * 1000).setWidth 64) := rfl
    have hp : ((seconds * 1000).setWidth 64).toNat = seconds.toNat * 1000 % 2 ^ 32 := by
      rw [toNat_setWidth, BitVec.toNat_mul]
      rfl
    simp only [SleepCall.Fits, SleepCall.ms, hperiod, Option.some.injEq, exists_eq_left', hp] at hnow ⊢
    omega
  | usleep usec =>
    have hperiod : (SleepCall.usleep usec).period = some ((usec / 1000).setWidth 64) := rfl
    have hp : ((usec / 1000).setWidth 64).toNat = usec.toNat / 1000 := by
      rw [toNat_setWidth, BitVec.toNat_udiv]
      rfl
    simp only [SleepCall.Fits, SleepCall.ms, hperiod, Option.some.injEq, exists_eq_left', hp, true_iff] at hnow ⊢
    omega
  | nanosleep req =>
    rw [nanosleep_period hc, SleepCall.Fits]
    generalize (SleepCall.nanosleep req).ms = n at hnow ⊢
    by_cases hlong : n < 2 ^ 63
    · simp only [if_pos hlong, Option.some.injEq, exists_eq_left', toNat_narrowed (Int.natCast_nonneg n),
        Int.toNat_natCast]
      split <;> omega
    · simp only [if_neg hlong, reduceCtorEq, false_and, exists_false, iff_false]
      omega

section
variable {ι κ : Type} [LinearOrder ι]

/-- **Sleeping as long as asked.** In every state of a run with a clock that does not go back, for
every argument that the functions are defined for and every time at which its deadline fits: the
fiber of a hooked `sleep`, `usleep` or `nanosleep` is not scheduled by its timer before the whole
milliseconds asked for are over, whatever is called meanwhile, if and only if `Fits`. -/
theorem sleeps_iff (start : U64) (ops : List (Op ι κ)) (d : Dated ι κ)
    (h : Lib.run Dated.step (Dated.init start) ops = some d)
    (hf : Lib.Meets Dated.step Forward (Dated.init start) ops) (t : ι) (ht : d.manager.objects t = none)
    (cb : κ) (now : U64) (hnow : d.clock ≤ now) (c : SleepCall) (hc : c.Legal)
    (hfit : now.toNat + c.ms < 2 ^ 64) :
    (∃ p, c.period = some p ∧ StaysAsleep d t cb now p c.ms) ↔ c.Fits now := by
  have k := run_ahead h hf
  simp only [asleep_iff k ht hnow]
  exact (SleepCall.fits_iff hc hfit).symm

/-- 4294968 seconds become 704 milliseconds, and 2147484 seconds in `nanosleep` a deadline in the
past. -/
theorem sleeps_cut :
    ¬ (∃ p, (SleepCall.sleep 4294968).period = some p ∧
      StaysAsleep (Dated.init 1000 : Dated Nat Unit) 1 () 1000 p (SleepCall.sleep 4294968).ms) ∧
    ¬ (∃ p, (SleepCall.nanosleep ⟨2147484, 0⟩).period = some p ∧
      StaysAsleep (Dated.init 5000000000 : Dated Nat Unit) 1 () 5000000000 p
        (SleepCall.nanosleep ⟨2147484, 0⟩).ms) := by
  constructor
  · rintro ⟨p, hp, hstays⟩
    have hms := (asleep_iff (init_ahead 1000) rfl (BitVec.le_refl _) () p _).mp hstays
    cases hp
    revert hms
    decide
  · rintro ⟨p, hp, hstays⟩
    have hms := (asleep_iff (init_ahead 5000000000) rfl (BitVec.le_refl _) () p _).mp hstays
    cases hp
    revert hms
    decide

/-- A tenth of a second, while another timer is added and the callbacks are listed. -/
theorem sleeps_iff_usleep : ∃ p, (SleepCall.usleep 100000).period = some p ∧
    StaysAsleep (Dated.init 1000 : Dated Nat Unit) 1 () 1000 p (SleepCall.usleep 100000).ms :=
  (sleeps_iff 1000 [] _ rfl trivial 1 rfl () 1000 (BitVec.le_refl _) (.usleep 100000) trivial (by decide)).mpr
    trivial

end

end ShioSylar.Hook
