import ShioSylar.Hook.Setters
import ShioSylar.Hook.Slots

/-! The timeouts that `setsockopt` sets, up to the calls they end.

`setsockopt` makes milliseconds of a `timeval` and stores them in the `FdCtx`, `do_io` reads those
of its direction once and arms a timer with them at every wait, and the callback of such a timer
makes the call fail with ETIMEDOUT. An `Account` keeps what was asked for beside the hooks: the
timeval that the kernel accepted last for each direction, the one in force when a call began, and
the reading at which the call first armed a timer. `Kept` says that every number on the way from
the table to a callback stands for at least what was asked for.

Zero is no timeout to the kernel, but a timer of no milliseconds to `do_io` (`timed_out_zero`). -/
namespace ShioSylar.Hook
open Scheduler IOManager Lib
open TimerManager (U64 Container)

/-! ### Timevals -/

namespace Timeval

/-- What the kernel accepts, of those with no negative seconds. -/
def Legal (v : Timeval) : Prop := 0 ≤ v.sec ∧ 0 ≤ v.usec ∧ v.usec < 10 ^ 6

/-- No timeout. -/
def Zero (v : Timeval) : Prop := v.sec = 0 ∧ v.usec = 0

/-- The whole milliseconds asked for. -/
def whole (v : Timeval) : Nat := (v.sec * 1000 + v.usec / 1000).toNat

instance (v : Timeval) : Decidable v.Legal := inferInstanceAs (Decidable (_ ∧ _ ∧ _))

instance (v : Timeval) : Decidable v.Zero := inferInstanceAs (Decidable (_ ∧ _))

/-- The milliseconds stored are those asked for. -/
theorem ms_toNat {v : Timeval} (hv : v.Legal) {ms : U64} (h : v.ms = some ms) : ms.toNat = v.whole := by
  obtain ⟨hsec, husec, -⟩ := hv
  obtain ⟨a, ha, h⟩ := Option.bind_eq_some_iff.mp h
  obtain ⟨b, hb, h⟩ := Option.bind_eq_some_iff.mp h
  obtain ⟨-, ha⟩ := Option.ite_none_right_eq_some.mp ha
  obtain ⟨hfit, hb⟩ := Option.ite_none_right_eq_some.mp hb
  cases ha
  cases hb
  cases h
  rw [Int.tdiv_eq_ediv_of_nonneg husec] at hfit ⊢
  rw [BitVec.toNat_ofInt, whole, Int.emod_eq_of_lt (by omega) (by omega)]

end Timeval

namespace SockTimeout

/-! ### The account -/

structure Account (ι φ : Type) where
  hook : State ι φ
  /-- The latest clock reading. -/
  clock : U64
  /-- What was accepted last for a direction of what the number stands for. -/
  asked : Nat → TimeoutSo → Option Timeval
  /-- The same when a call of `do_io` began. -/
  askedOf : Info → Option Timeval
  /-- The clock reading at the first `addConditionTimer` of a call. -/
  began : Info → Option U64

inductive Act (ι φ : Type) where
  | hook (a : Hook.Act ι φ)
  /-- The hooked `setsockopt`, and whether `setsockopt_f` would succeed on an open number. No call
  comes between its two halves. -/
  | setsockopt (fd : Nat) (level optname : BitVec 32) (v : Timeval) (ok : Bool)

section
variable {ι φ : Type} [LinearOrder ι] [DecidableEq φ]

namespace Account

def start (now : U64) : Account ι φ := ⟨Hook.start now, now, fun _ _ => none, fun _ => none, fun _ => none⟩

/-- What a number stands for has changed: nothing was asked for it yet. -/
def reopened (d : Account ι φ) (a : Hook.Act ι φ) : Nat → TimeoutSo → Option Timeval :=
  match opens d.hook a with
  | some n => Function.update d.asked n fun _ => none
  | none => d.asked

/-- What a step of the hooks reads of the clock, and a call of what was asked for. -/
def note (d : Account ι φ) : Hook.Act ι φ → Account ι φ
  | .idle _ now _ => { d with clock := now }
  | .work f x =>
    match d.hook.doing f with
    | .enter hook fd =>
      { d with askedOf := Function.update d.askedOf ⟨d.hook.infos, fd, hook.event⟩ (d.asked fd hook.timeoutSo) }
    | .io .addTimer c =>
      if c.to_ = BitVec.allOnes 64 then d
      else
        { d with
          clock := x.now
          began := Function.update d.began c.info (some ((d.began c.info).getD x.now)) }
    | _ => d
  | _ => d

def ask (d : Account ι φ) (fd : Nat) (type : TimeoutSo) (v : Option Timeval) : Account ι φ :=
  { d with asked := Function.update d.asked fd (Function.update (d.asked fd) type v) }

/-- `setsockopt_f` succeeds. -/
def accepts (d : Account ι φ) (fd : Nat) (ok : Bool) : Bool := ok && d.hook.isOpen fd

/-- `setsockopt`. -/
def setsockopt (d : Account ι φ) (fd : Nat) (level optname : BitVec 32) (v : Timeval) (ok : Bool) :
    Option (Account ι φ) :=
  match timeoutSo level optname with
  | none => some d
  | some type =>
    let d := if d.accepts fd ok then d.ask fd type (if v.Legal then some v else none) else d
    match d.hook.fds.get fd false none with
    | none => some { d with hook := { d.hook with fault := some .outOfBounds } }
    | some (none, _) => some d
    | some (some _, _) => v.ms.bind fun ms =>
      (Hook.step d.hook (.setTimeout fd type ms)).map fun s => { d with hook := s }

end Account

def step (d : Account ι φ) : Act ι φ → Option (Account ι φ)
  | .hook (.setTimeout _ _ _) => none
  | .hook a => (Hook.step d.hook a).map fun s => { d.note a with hook := s, asked := d.reopened a }
  | .setsockopt fd level optname v ok =>
    if d.hook.fault.isSome then none else d.setsockopt fd level optname v ok

/-- A call that fails with ETIMEDOUT after a wait has waited as long as was asked for, if that is not zero. -/
def Honours (d : Account ι φ) : Act ι φ → Prop
  | .hook (.work f _) =>
    match d.hook.doing f with
    | .io .test c => d.hook.cancelled c.info = true → ∀ v ∈ d.askedOf c.info,
        ¬ v.Zero ∧ ∃ b ∈ d.began c.info, b.toNat + v.whole ≤ d.clock.toNat
    | _ => True
  | _ => True

/-- The clock does not go back, and no deadline wraps; what is accepted for a number in the table is
not zero, and what is refused is no shorter than what was accepted before. -/
def Fair (d : Account ι φ) : Act ι φ → Prop
  | .hook (.idle _ now _) => d.clock ≤ now
  | .hook (.work f x) =>
    match d.hook.doing f with
    | .io .addTimer c =>
      c.to_ ≠ BitVec.allOnes 64 → d.clock ≤ x.now ∧ x.now.toNat + c.to_.toNat < 2 ^ 64
    | _ => True
  | .hook _ => True
  | .setsockopt fd level optname v ok =>
    ∀ type ∈ timeoutSo level optname, (d.hook.fds.ctx fd).isSome = true →
      if d.accepts fd ok then v.Legal → ¬ v.Zero
      else ∀ w ∈ d.asked fd type, ∀ ms ∈ v.ms, ¬ w.Zero ∧ w.whole ≤ ms.toNat

instance (d : Account ι φ) : (a : Act ι φ) → Decidable (Honours d a)
  | .hook (.work f x) =>
    match h : d.hook.doing f with
    | .io .test c => decidable_of_iff (d.hook.cancelled c.info = true → ∀ v ∈ d.askedOf c.info,
        ¬ v.Zero ∧ ∃ b ∈ d.began c.info, b.toNat + v.whole ≤ d.clock.toNat) (by simp only [Honours, h])
    | .io .retry _ | .io .addTimer _ | .io .addEvent _ | .io .failed _ | .io .yield _ | .io .suspended _
    | .io .resumed _ | .user | .enter _ _ | .direct _ _ | .manage _ | .close _ _ | .onTimer _ _
    | .idle _ => isTrue (by simp [Honours, h])
  | .hook (.socket ..) | .hook (.doIo ..) | .hook (.close ..) | .hook (.onTimer ..) | .hook (.idle ..)
  | .hook (.resume _) | .hook (.dispatch ..) | .hook (.setTimeout ..) | .hook (.setUserNonblock ..)
  | .setsockopt .. => isTrue trivial

instance (d : Account ι φ) : (a : Act ι φ) → Decidable (Fair d a)
  | .hook (.idle _ now _) => inferInstanceAs (Decidable (d.clock ≤ now))
  | .hook (.work f x) =>
    match h : d.hook.doing f with
    | .io .addTimer c => decidable_of_iff (c.to_ ≠ BitVec.allOnes 64 →
        d.clock ≤ x.now ∧ x.now.toNat + c.to_.toNat < 2 ^ 64) (by simp only [Fair, h])
    | .io .retry _ | .io .addEvent _ | .io .failed _ | .io .yield _ | .io .suspended _ | .io .resumed _
    | .io .test _ | .user | .enter _ _ | .direct _ _ | .manage _ | .close _ _ | .onTimer _ _
    | .idle _ => isTrue (by simp [Fair, h])
  | .setsockopt fd level optname v ok =>
    inferInstanceAs (Decidable (∀ type ∈ timeoutSo level optname, (d.hook.fds.ctx fd).isSome = true →
      if d.accepts fd ok then v.Legal → ¬ v.Zero
      else ∀ w ∈ d.asked fd type, ∀ ms ∈ v.ms, ¬ w.Zero ∧ w.whole ≤ ms.toNat))
  | .hook (.socket ..) | .hook (.doIo ..) | .hook (.close ..) | .hook (.onTimer ..) | .hook (.resume _)
  | .hook (.dispatch ..) | .hook (.setTimeout ..) | .hook (.setUserNonblock ..) => isTrue trivial

end

/-! ### What is kept -/

section
variable {ι φ : Type}

/-- A stored timeout is none, or as long as was asked for. -/
def Serves (v : Timeval) (ms : U64) : Prop := ms = BitVec.allOnes 64 ∨ (¬ v.Zero ∧ v.whole ≤ ms.toNat)

namespace Account

/-- At `n` a call has waited as long as was asked for. -/
def Over (d : Account ι φ) (i : Info) (n : Nat) : Prop :=
  i.id < d.hook.infos ∧ ∀ v ∈ d.askedOf i, ¬ v.Zero ∧ ∃ b ∈ d.began i, b.toNat + v.whole ≤ n

/-- What a fiber carries. -/
def Fine (d : Account ι φ) : Doing ι → Prop
  | .io _ c => c.info.id < d.hook.infos ∧ ∀ v ∈ d.askedOf c.info, Serves v c.to_
  | .onTimer _ i => d.Over i d.clock.toNat
  | .idle cbs => ∀ i, some i ∈ cbs → d.Over i d.clock.toNat
  | .user | .enter _ _ | .direct _ _ | .manage _ | .close _ _ => True

end Account

/-- The timers that wait are those of calls, and due when these have waited long enough. -/
def Timed (d : Account ι φ) (m : TimerManager.State ι Info) : Prop :=
  ∀ t i, (m.timer t).cb = some i → (m.timer t).recurring = false ∧ d.Over i (m.timer t).next.toNat

/-- What the table has stored serves what was asked for. -/
def Stored (asked : Nat → TimeoutSo → Option Timeval) (m : FdManager) : Prop :=
  ∀ fd ctx type, m.ctx fd = some ctx → ∀ v ∈ asked fd type, Serves v (ctx.getTimeout type)

/-- **What is kept** of every number on the way from `setsockopt` to a callback. -/
structure Kept [LinearOrder ι] (d : Account ι φ) : Prop where
  doing : ∀ f, d.Fine (d.hook.doing f)
  queue : ∀ i, ({ cb := some i } : FiberAndThread φ Info) ∈ d.hook.table.fibers () → d.Over i d.clock.toNat
  cancelled : ∀ i, d.hook.cancelled i = true → d.Over i d.clock.toNat
  timers : Timed d d.hook.timers
  container : Container d.hook.timers
  previouseTime : d.hook.timers.previouseTime ≤ d.clock
  began : ∀ i, ∀ b ∈ d.began i, b ≤ d.clock
  stored : Stored d.asked d.hook.fds
  sized : d.hook.fds.Sized
  table : Bare d.hook.table

/-- Nothing that was noted about a call is lost. -/
structure Grows (d e : Account ι φ) : Prop where
  infos : d.hook.infos ≤ e.hook.infos
  askedOf : ∀ i, i.id < d.hook.infos → e.askedOf i = d.askedOf i
  began : ∀ i, ∀ b ∈ d.began i, b ∈ e.began i
  clock : d.clock ≤ e.clock

variable {d e : Account ι φ}

theorem Grows.refl (d : Account ι φ) : Grows d d :=
  ⟨Nat.le_refl _, fun _ _ => rfl, fun _ _ hb => hb, BitVec.le_refl _⟩

theorem Grows.over (g : Grows d e) {i : Info} {n m : Nat} (h : d.Over i n) (hn : n ≤ m) : e.Over i m := by
  obtain ⟨hid, hover⟩ := h
  refine ⟨Nat.lt_of_lt_of_le hid g.infos, fun v hv => ?_⟩
  rw [g.askedOf i hid] at hv
  obtain ⟨hzero, b, hb, hle⟩ := hover v hv
  exact ⟨hzero, b, g.began i b hb, Nat.le_trans hle hn⟩

theorem Grows.fine (g : Grows d e) {x : Doing ι} (h : d.Fine x) : e.Fine x := by
  have hclock := BitVec.le_def.mp g.clock
  cases x with
  | io st c =>
    refine ⟨Nat.lt_of_lt_of_le h.1 g.infos, ?_⟩
    rw [g.askedOf _ h.1]
    exact h.2
  | onTimer st i => exact g.over h hclock
  | idle cbs => exact fun i hi => g.over (h i hi) hclock
  | user | enter | direct | manage | close => trivial

/-! ### One thing changes -/

variable [LinearOrder ι]

/-- The notes grow, and the hooks change nothing that is kept. -/
theorem Kept.grows (k : Kept d) (g : Grows d e) (hdoing : e.hook.doing = d.hook.doing)
    (htable : e.hook.table = d.hook.table) (htimers : e.hook.timers = d.hook.timers)
    (hfds : e.hook.fds = d.hook.fds) (hcancelled : e.hook.cancelled = d.hook.cancelled)
    (hasked : ∀ fd type, ∀ v ∈ e.asked fd type, v ∈ d.asked fd type)
    (hbegan : ∀ i, ∀ b ∈ e.began i, b ≤ e.clock) : Kept e := by
  have hclock := BitVec.le_def.mp g.clock
  refine ⟨fun f => ?_, fun i hi => ?_, fun i hi => ?_, fun t i hi => ?_, htimers ▸ k.container, ?_, hbegan,
    fun fd ctx type hctx v hv => ?_, hfds ▸ k.sized, htable ▸ k.table⟩
  · rw [hdoing]
    exact g.fine (k.doing f)
  · rw [htable] at hi
    exact g.over (k.queue i hi) hclock
  · rw [hcancelled] at hi
    exact g.over (k.cancelled i hi) hclock
  · rw [htimers] at hi ⊢
    exact ⟨(k.timers t i hi).1, g.over (k.timers t i hi).2 (Nat.le_refl _)⟩
  · rw [htimers]
    exact BitVec.le_trans k.previouseTime g.clock
  · rw [hfds] at hctx
    exact k.stored fd ctx type hctx v (hasked fd type v hv)

/-- The hooks change nothing that is kept. -/
theorem Kept.same (k : Kept d) {s : State ι φ} (hdoing : s.doing = d.hook.doing)
    (htable : s.table = d.hook.table) (htimers : s.timers = d.hook.timers) (hfds : s.fds = d.hook.fds)
    (hcancelled : s.cancelled = d.hook.cancelled) (hinfos : s.infos = d.hook.infos) :
    Kept { d with hook := s } :=
  k.grows ⟨hinfos ▸ Nat.le_refl _, fun _ _ => rfl, fun _ _ hb => hb, BitVec.le_refl _⟩ hdoing htable htimers
    hfds hcancelled (fun _ _ _ hv => hv) k.began

/-- The clock shows a later time. -/
theorem Kept.tick (k : Kept d) {now : U64} (hnow : d.clock ≤ now) : Kept { d with clock := now } :=
  k.grows ⟨Nat.le_refl _, fun _ _ => rfl, fun _ _ hb => hb, hnow⟩ rfl rfl rfl rfl rfl (fun _ _ _ hv => hv)
    fun i b hb => BitVec.le_trans (k.began i b hb) hnow

/-- A call arms a timer now, for the first time or again. -/
theorem Kept.begin (k : Kept d) (i : Info) :
    Kept { d with began := Function.update d.began i (some ((d.began i).getD d.clock)) } := by
  have hfirst : ∀ b ∈ d.began i, (d.began i).getD d.clock = b := fun b hb => by
    rw [Option.mem_def.mp hb, Option.getD_some]
  refine k.grows ⟨Nat.le_refl _, fun _ _ => rfl, fun j b hb => ?_, BitVec.le_refl _⟩ rfl rfl rfl rfl rfl
    (fun _ _ _ hv => hv) fun j b hb => ?_
  · dsimp only
    by_cases hj : j = i
    · subst hj
      rw [Function.update_self, hfirst b hb]
      rfl
    · rwa [Function.update_of_ne hj]
  · dsimp only at hb ⊢
    by_cases hj : j = i
    · subst hj
      rw [Function.update_self, Option.mem_some_iff] at hb
      subst hb
      cases hbegan : d.began j with
      | none => exact BitVec.le_refl _
      | some b => exact k.began j b hbegan
    · rw [Function.update_of_ne hj] at hb
      exact k.began j b hb

/-- A call that begins is told what was asked for. -/
theorem Kept.told (k : Kept d) {i : Info} (hi : d.hook.infos ≤ i.id) (v : Option Timeval) :
    Kept { d with askedOf := Function.update d.askedOf i v } := by
  refine k.grows ⟨Nat.le_refl _, fun j hj => ?_, fun _ _ hb => hb, BitVec.le_refl _⟩ rfl rfl rfl rfl rfl
    (fun _ _ _ hv => hv) k.began
  refine Function.update_of_ne ?_ ..
  rintro rfl
  have hj : j.id < d.hook.infos := hj
  omega

/-- A `timer_info` is allocated. -/
theorem Kept.alloc (k : Kept d) (refs : Info → Nat) :
    Kept { d with hook := { d.hook with infos := d.hook.infos + 1, refs := refs } } :=
  k.grows ⟨Nat.le_succ _, fun _ _ => rfl, fun _ _ hb => hb, BitVec.le_refl _⟩ rfl rfl rfl rfl rfl
    (fun _ _ _ hv => hv) k.began

theorem Kept.withTimers (k : Kept d) {m : TimerManager.State ι Info} (hc : Container m)
    (hp : m.previouseTime ≤ d.clock) (hm : Timed d m) :
    Kept { d with hook := { d.hook with timers := m } } :=
  ⟨k.doing, k.queue, k.cancelled, hm, hc, hp, k.began, k.stored, k.sized, k.table⟩

theorem Kept.withFds (k : Kept d) {m : FdManager} (hm : Stored d.asked m) (hs : m.Sized) :
    Kept { d with hook := { d.hook with fds := m } } :=
  ⟨k.doing, k.queue, k.cancelled, k.timers, k.container, k.previouseTime, k.began, hm, hs, k.table⟩

theorem Kept.withTable (k : Kept d) {u : IOManager.State Unit φ Info} (hu : Bare u)
    (hq : ∀ i, ({ cb := some i } : FiberAndThread φ Info) ∈ u.fibers () → d.Over i d.clock.toNat) :
    Kept { d with hook := { d.hook with table := u } } :=
  ⟨k.doing, hq, k.cancelled, k.timers, k.container, k.previouseTime, k.began, k.stored, k.sized, hu⟩

theorem Kept.cancel (k : Kept d) {i : Info} (hi : d.Over i d.clock.toNat) :
    Kept { d with hook := { d.hook with cancelled := Function.update d.hook.cancelled i true } } := by
  refine ⟨k.doing, k.queue, fun j hj => ?_, k.timers, k.container, k.previouseTime, k.began, k.stored, k.sized,
    k.table⟩
  by_cases hji : j = i
  · exact hji ▸ hi
  · have hj : Function.update d.hook.cancelled i true j = true := hj
    rw [Function.update_of_ne hji] at hj
    exact k.cancelled j hj

variable [DecidableEq φ] {f : φ}

theorem Kept.goto (k : Kept d) {x : Doing ι} (hx : d.Fine x) : Kept { d with hook := d.hook.goto f x } := by
  refine ⟨fun f' => ?_, k.queue, k.cancelled, k.timers, k.container, k.previouseTime, k.began, k.stored, k.sized,
    k.table⟩
  show d.Fine (Function.update d.hook.doing f x f')
  by_cases hf : f' = f
  · rw [hf, Function.update_self]
    exact hx
  · rw [Function.update_of_ne hf]
    exact k.doing f'

end

/-! ### A step of the hooks -/

section
variable {ι φ : Type} [LinearOrder ι] [DecidableEq φ] {d : Account ι φ} {t : State ι φ} {f : φ}

omit [LinearOrder ι] [DecidableEq φ] in
theorem fine_after (hook : IoHook) (ret : Ret) : d.Fine (State.after hook ret) := by
  unfold State.after
  cases ret with
  | ok n =>
    dsimp only
    split <;> trivial
  | fail e => trivial

theorem Kept.leave (k : Kept d) (c : Call ι) (ret : Ret) : Kept { d with hook := d.hook.leave f c ret } :=
  (k.goto (f := f) (fine_after c.hook ret)).same rfl rfl rfl rfl rfl rfl

theorem Kept.drop (k : Kept d) (i : Info) : Kept { d with hook := d.hook.drop f i } :=
  (k.goto (f := f) (x := .user) trivial).same rfl rfl rfl rfl rfl rfl

omit [DecidableEq φ] in
/-- One timer is without its callback, or nothing has changed. -/
theorem Kept.cancelTimer (k : Kept d) (timer : Option ι) :
    Kept { d with hook := d.hook.cancelTimer timer } := by
  unfold State.cancelTimer
  cases timer with
  | none => exact k
  | some u =>
    rcases TimerManager.cancel_spec k.container u with ⟨m, hm, -, hc, hobj⟩ | ⟨hm, -⟩
    · have hprev := (TimerManager.cancel_keeps hm).2
      simp only [hm]
      refine k.withTimers hc (by rw [hprev]; exact k.previouseTime) fun t i hi => ?_
      rw [TimerManager.State.timer, hobj] at hi ⊢
      by_cases ht : t = u
      · rw [ht, Function.update_self] at hi
        cases hi
      · rw [Function.update_of_ne ht] at hi ⊢
        exact k.timers t i hi
    · simp only [hm]
      exact k

omit [DecidableEq φ] in
theorem Kept.onTable (k : Kept d) {op : Op Unit φ Info} (hop : OfFiber op)
    {next : Answer → State ι φ → State ι φ}
    (hnext : ∀ a u, Kept { d with hook := { d.hook with table := u } } →
      Kept { d with hook := next a { d.hook with table := u } }) :
    Kept { d with hook := d.hook.onTable op next } := by
  unfold State.onTable
  split
  · rename_i a u hexec
    obtain ⟨hu, hq⟩ := exec_bare k.table hop hexec
    exact hnext a u (k.withTable hu fun i hi => k.queue i (hq i hi))
  · exact k.same rfl rfl rfl rfl rfl rfl

omit [DecidableEq φ] in
theorem callFun_kept (k : Kept d) {hook : IoHook} {fd : Nat} {r : IoResult}
    (h : d.hook.callFun hook fd r = some t) :
    Kept { d with hook := t } ∧ t.doing = d.hook.doing ∧ t.infos = d.hook.infos := by
  rcases callFun_cases h with ⟨n, -, -, -, hn⟩ | ⟨rfl, -⟩
  · obtain ⟨-, rfl⟩ := openFd_eq hn
    exact ⟨k.same rfl rfl rfl rfl rfl rfl, rfl, rfl⟩
  · exact ⟨k, rfl, rfl⟩

theorem enter_kept (k : Kept d) {x : Choice ι} {hook : IoHook} {fd : Nat}
    (hf : d.hook.doing f = .enter hook fd) :
    Kept { d.note (.work f x) with hook := d.hook.enter f hook fd } := by
  simp only [Account.note, hf, State.enter, FdManager.get_ctx]
  have k' := k.told (i := ⟨d.hook.infos, fd, hook.event⟩) (Nat.le_refl _) (d.asked fd hook.timeoutSo)
  cases hctx : d.hook.fds.ctx fd with
  | none => exact k'.goto (x := .direct hook fd) trivial
  | some ctx =>
    dsimp only
    split
    · exact k'.goto (x := .user) trivial
    · split
      · exact k'.goto (x := .direct hook fd) trivial
      · refine (k'.alloc _).goto (x := .io .retry _) ⟨Nat.lt_succ_self _, fun v hv => ?_⟩
        dsimp only at hv
        rw [Function.update_self] at hv
        exact k.stored fd ctx hook.timeoutSo hctx v hv

theorem direct_kept (k : Kept d) {hook : IoHook} {fd : Nat} {r : IoResult}
    (h : d.hook.direct f hook fd r = some t) : Kept { d with hook := t } := by
  obtain ⟨s, hs, rfl⟩ := Option.map_eq_some_iff.mp h
  obtain ⟨ks, -, -⟩ := callFun_kept k hs
  cases r with
  | ok n => exact ks.goto (fine_after hook _)
  | again | intr | fail => exact ks.goto (x := .user) trivial

/-- The timer of a wait, due when the call has waited as long as it should. -/
theorem addTimer_kept (k : Kept d) {x : Choice ι} {c : Call ι} (hf : d.hook.doing f = .io .addTimer c)
    (hg : Fair d (.hook (.work f x))) (h : d.hook.doIo f x c .addTimer = some t) :
    Kept { d.note (.work f x) with hook := t } := by
  obtain ⟨hid, hserves⟩ : d.Fine (.io .addTimer c) := hf ▸ k.doing f
  simp only [Fair, hf] at hg
  simp only [State.doIo] at h
  simp only [Account.note, hf]
  by_cases hnone : c.to_ = BitVec.allOnes 64
  · rw [if_pos hnone] at h ⊢
    cases h
    exact k.goto (x := .io .addEvent c) ⟨hid, hserves⟩
  · rw [if_neg hnone] at h ⊢
    obtain ⟨hnow, hfit⟩ := hg hnone
    obtain ⟨hfree, h⟩ := Option.ite_none_left_eq_some.mp h
    cases h
    have hfree : d.hook.timers.objects x.timer = none := by simpa using hfree
    have kb := (k.tick hnow).begin c.info
    obtain ⟨hc, hobj⟩ := TimerManager.addTimer_spec k.container x.timer c.to_ c.info false x.now hfree
    have hprev : (d.hook.timers.addTimer x.timer c.to_ (some c.info) false x.now).2.previouseTime =
        d.hook.timers.previouseTime := TimerManager.addTimerLocked_previouseTime ..
    refine (kb.withTimers hc ?_ fun u i hi => ?_).goto (x := .io .addEvent { c with timer := some x.timer })
      ⟨hid, hserves⟩
    · rw [hprev]
      exact kb.previouseTime
    · rw [TimerManager.State.timer, hobj] at hi ⊢
      by_cases hu : u = x.timer
      · rw [hu, Function.update_self] at hi ⊢
        cases hi
        refine ⟨rfl, hid, fun v hv => ?_⟩
        obtain ⟨hzero, hle⟩ := (hserves v hv).resolve_left hnone
        refine ⟨hzero, _, Function.update_self .., ?_⟩
        have hfirst : (d.began c.info).getD x.now ≤ x.now := by
          cases hb : d.began c.info with
          | none => exact BitVec.le_refl _
          | some b => exact BitVec.le_trans (k.began _ b hb) hnow
        show ((d.began c.info).getD x.now).toNat + v.whole ≤ (x.now + c.to_).toNat
        rw [BitVec.le_def] at hfirst
        rw [BitVec.toNat_add, Nat.mod_eq_of_lt hfit]
        omega
      · rw [Function.update_of_ne hu] at hi ⊢
        exact kb.timers u i hi

theorem doIo_kept (k : Kept d) {x : Choice ι} {c : Call ι} {st : Stage} (hf : d.hook.doing f = .io st c)
    (hg : Fair d (.hook (.work f x))) (h : d.hook.doIo f x c st = some t) :
    Kept { d.note (.work f x) with hook := t } := by
  have hfine : d.Fine (.io st c) := hf ▸ k.doing f
  cases st with
  | addTimer => exact addTimer_kept k hf hg h
  | retry =>
    simp only [Account.note, hf]
    obtain ⟨s, hs, rfl⟩ := Option.map_eq_some_iff.mp h
    obtain ⟨ks, -, hinfos⟩ := callFun_kept k hs
    cases x.result with
    | intr => exact ks
    | again =>
      refine ks.goto (x := .io .addTimer { c with timer := none }) ⟨?_, hfine.2⟩
      rw [hinfos]
      exact hfine.1
    | ok n => exact ks.leave c (.ok n)
    | fail e => exact ks.leave c (.fail e)
  | addEvent =>
    simp only [Account.note, hf]
    cases h
    refine k.onTable ?_ fun a u ku => ?_
    · rfl
    split
    · exact ku.goto (x := .io .yield _) hfine
    · exact ku.goto (x := .io .failed c) hfine
  | failed =>
    simp only [Account.note, hf]
    cases h
    exact (k.cancelTimer c.timer).leave c (.fail .other)
  | yield =>
    simp only [Account.note, hf]
    cases h
    exact k.goto (x := .io .suspended c) hfine
  | suspended => cases h
  | resumed =>
    simp only [Account.note, hf]
    cases h
    have kc := k.cancelTimer c.timer
    obtain ⟨timers, fault, heq⟩ := cancelTimer_eq d.hook c.timer
    rw [heq] at kc ⊢
    exact kc.goto (x := .io .test c) hfine
  | test =>
    simp only [Account.note, hf]
    cases h
    split
    · exact k.leave c (.fail .timedout)
    · exact k.goto (x := .io .retry c) hfine

theorem close_kept (k : Kept d) {x : Choice ι} {fd : Nat} {st : CloseStage} :
    Kept { d with hook := d.hook.close f x fd st } := by
  cases st with
  | lookup =>
    simp only [State.close, FdManager.get_ctx]
    cases d.hook.fds.ctx fd with
    | none => exact k.goto (x := .close .closeF fd) trivial
    | some ctx => exact k.goto (x := .close .cancelAll fd) trivial
  | cancelAll =>
    simp only [State.close]
    refine k.onTable ?_ fun a u ku => ?_
    · trivial
    · exact ku.goto (x := .close .del fd) trivial
  | del =>
    obtain ⟨m, hm, hlen, hctx⟩ := d.hook.fds.del_ctx fd
    simp only [State.close, hm]
    refine (k.withFds (fun n ctx type hn => ?_) ?_).goto (x := .close .closeF fd) trivial
    · rw [hctx] at hn
      split at hn
      · cases hn
      · exact k.stored n ctx type hn
    · rw [FdManager.Sized, hlen]
      exact k.sized
  | closeF =>
    have kt := k.withTable (closeFd_bare (s := d.hook) fd k.table) k.queue
    exact (kt.goto (f := f) (x := .user) trivial).same rfl rfl rfl rfl rfl rfl

theorem onTimer_kept (k : Kept d) {x : Choice ι} {i : Info} {st : TimerStage}
    (hf : d.hook.doing f = .onTimer st i) : Kept { d with hook := d.hook.onTimer f x i st } := by
  have hover : d.Over i d.clock.toNat := by
    have hfine := k.doing f
    rwa [hf] at hfine
  cases st with
  | lock =>
    simp only [State.onTimer]
    split
    · exact k.goto (x := .user) trivial
    · exact (k.goto (x := .onTimer .test i) hover).same rfl rfl rfl rfl rfl rfl
  | test =>
    simp only [State.onTimer]
    split
    · exact k.drop i
    · exact k.goto (x := .onTimer .mark i) hover
  | mark => exact (k.goto (x := .onTimer .cancelEvent i) hover).cancel hover
  | cancelEvent =>
    simp only [State.onTimer]
    refine k.onTable ?_ fun a u ku => ?_
    · trivial
    · exact (ku.drop (f := f) i).same rfl rfl rfl rfl rfl rfl

/-- A new entry has no timeout. -/
theorem manage_kept (k : Kept d) {fd : Nat} : Kept { d with hook := d.hook.manage f fd } := by
  unfold State.manage
  generalize (if d.hook.isOpen fd then some true else none) = fstat
  have hne : (fd : Int) ≠ -1 := by omega
  simp only [FdManager.get, if_neg hne, FdManager.find_ctx, Option.map_some]
  cases hctx : d.hook.fds.ctx fd with
  | some ctx => exact (k.goto (x := .user) trivial).same rfl rfl rfl rfl rfl rfl
  | none =>
    refine (k.withFds (fun n ctx type hn => ?_) ?_).goto (x := .user) trivial
    · have hn : (d.hook.fds.create fd fstat).2.ctx n = some ctx := hn
      rw [FdManager.create_ctx _ _ _ k.sized] at hn
      split at hn
      · cases hn
        exact fun v _ => .inl (by cases type <;> rfl)
      · exact k.stored n ctx type hn
    · exact FdManager.create_sized _ _ _ k.sized

/-- The timers taken out are due, and the others as they were. -/
theorem idle_kept (k : Kept d) {now : U64} (hnow : d.clock ≤ now) (tmp : ι) :
    Kept { d with
      clock := now
      hook := { d.hook.goto f (.idle (d.hook.timers.listExpiredCb now tmp []).1) with
        timers := (d.hook.timers.listExpiredCb now tmp []).2 } } := by
  have kt := k.tick hnow
  have hprev := TimerManager.exec_previouseTime
    (show TimerManager.exec d.hook.timers (.listExpiredCb now tmp) = some (_, _) from rfl)
  refine (kt.withTimers (TimerManager.listExpiredCb_container k.container now tmp []) ?_ fun u i hi => ?_).goto
    (x := .idle _) fun i hi => ?_
  · rcases hprev with hprev | hprev
    · exact hprev ▸ kt.previouseTime
    · exact Option.some.inj hprev ▸ BitVec.le_refl _
  · have hsome := Option.isSome_of_eq_some hi
    obtain ⟨-, hsame | ⟨-, hrec, -⟩⟩ := TimerManager.listExpiredCb_written k.container now tmp hsome
    · rw [hsame] at hi ⊢
      exact kt.timers u i hi
    · have hcb := (TimerManager.listExpiredCb_written k.container now tmp hsome).1
      obtain ⟨j, hj⟩ := Option.isSome_iff_exists.mp hcb
      cases hrec.symm.trans (k.timers u j hj).1
  · rw [TimerManager.listExpiredCb_cbs k.container] at hi
    obtain ⟨u, hu, hcb⟩ := List.mem_map.mp hi
    have hle := BitVec.le_trans k.previouseTime hnow
    have hdue := ((TimerManager.takeExpired_mem_forward k.container hle tmp u).mp hu).2
    exact (Grows.refl _).over (kt.timers u i hcb).2 (BitVec.le_def.mp hdue)

/-- The callbacks go into the queue. -/
theorem schedule_kept (k : Kept d) {cbs : List (Option Info)} (hf : d.hook.doing f = .idle cbs) :
    Kept { d with hook := d.hook.schedule f cbs } := by
  have hcbs : ∀ i, some i ∈ cbs → d.Over i d.clock.toNat := by
    have hfine := k.doing f
    rwa [hf] at hfine
  refine (k.goto (f := f) (x := .user) trivial).withTable
    ⟨SameContexts.shaped (s := d.hook.table) ⟨rfl, rfl, rfl⟩ k.table.toShaped, k.table.cb⟩ fun i hi => ?_
  dsimp only at hi
  rw [scheduleAll_eq, List.mem_append] at hi
  rcases hi with hi | hi
  · exact k.queue i hi
  · obtain ⟨cb, hcb, heq⟩ := List.mem_map.mp (List.mem_filter.mp hi).1
    have heq : cb = some i := congrArg FiberAndThread.cb heq
    exact hcbs i (heq ▸ hcb)

/-- A node less in the queue. -/
theorem Kept.erase (k : Kept d) (ft : FiberAndThread φ Info) :
    Kept { d with hook := { d.hook with table := { d.hook.table with
      fibers := fun _ => (d.hook.table.fibers ()).erase ft } } } :=
  k.withTable ⟨SameContexts.shaped (s := d.hook.table) ⟨rfl, rfl, rfl⟩ k.table.toShaped, k.table.cb⟩ fun i hi =>
    k.queue i (List.mem_of_mem_erase hi)

end

/-! ### Every run -/

section
variable {ι φ : Type} [LinearOrder ι] [DecidableEq φ] {d e : Account ι φ} {t : State ι φ}

theorem hook_kept (k : Kept d) {a : Hook.Act ι φ} (hg : Fair d (.hook a))
    (ha : ∀ fd type v, a ≠ .setTimeout fd type v) (h : Hook.step d.hook a = some t) :
    Kept { d.note a with hook := t } := by
  cases step_branch h with
  | @opens f fd u hf hs =>
    obtain ⟨-, rfl⟩ := openFd_eq hs
    exact (k.goto (f := f) (x := .manage fd) trivial).same rfl rfl rfl rfl rfl rfl
  | @calls f hook fd hf => exact k.goto (x := .enter hook fd) trivial
  | @closes f fd hf => exact k.goto (x := .close .lookup fd) trivial
  | @fires f i hf hin => exact (k.goto (f := f) (x := .onTimer .lock i) (k.queue i hin)).erase _
  | @expires f now tmp hf htmp => exact idle_kept k hg tmp
  | enter hf => exact enter_kept k hf
  | direct hf hs =>
    simp only [Account.note, hf]
    exact direct_kept k hs
  | doIo hf hs => exact doIo_kept k hf hg hs
  | manage hf =>
    simp only [Account.note, hf]
    exact manage_kept k
  | close hf =>
    simp only [Account.note, hf]
    exact close_kept k
  | onTimer hf =>
    simp only [Account.note, hf]
    exact onTimer_kept k hf
  | schedule hf =>
    simp only [Account.note, hf]
    exact schedule_kept k hf
  | @resumes f c hf hin =>
    have hfine : d.Fine (.io .suspended c) := hf ▸ k.doing f
    exact (k.goto (f := f) (x := .io .resumed c) hfine).erase _
  | dispatch =>
    refine k.onTable ?_ fun a u ku => ?_
    · trivial
    · exact ku
  | @setTimeout fd type v => exact absurd rfl (ha fd type v)
  | setUserNonblock =>
    refine k.withFds (fun n ctx type hn => ?_) (FdManager.modify_sized _ _ _ k.sized)
    rw [FdManager.modify_ctx] at hn
    split at hn
    · obtain ⟨ctx, hctx, rfl⟩ := Option.map_eq_some_iff.mp hn
      have hstored := k.stored n ctx type hctx
      cases type <;> exact hstored
    · exact k.stored n ctx type hn

omit [LinearOrder ι] [DecidableEq φ] in
theorem note_asked (a : Hook.Act ι φ) : (d.note a).asked = d.asked := by
  cases a with
  | work f x =>
    simp only [Account.note]
    split
    · rfl
    · split <;> rfl
    · rfl
  | _ => rfl

omit [LinearOrder ι] [DecidableEq φ] in
theorem reopened_sub {a : Hook.Act ι φ} {fd : Nat} {type : TimeoutSo} {v : Timeval}
    (h : v ∈ d.reopened a fd type) : v ∈ d.asked fd type := by
  cases hn : opens d.hook a with
  | none => simpa only [Account.reopened, hn] using h
  | some n =>
    simp only [Account.reopened, hn] at h
    by_cases hfd : fd = n
    · rw [hfd, Function.update_self] at h
      cases h
    · rwa [Function.update_of_ne hfd] at h

omit [LinearOrder ι] [DecidableEq φ] in
theorem getTimeout_setTimeout (ctx : FdCtx) (type type' : TimeoutSo) (v : U64) :
    (ctx.setTimeout type v).getTimeout type' = if type' = type then v else ctx.getTimeout type' := by
  cases type <;> cases type' <;> rfl

omit [DecidableEq φ] in
/-- What is stored serves what is asked for now. -/
theorem Kept.store (k : Kept d) {fd : Nat} {type : TimeoutSo} {ms : U64}
    {asked : Nat → TimeoutSo → Option Timeval} (hself : ∀ v ∈ asked fd type, Serves v ms)
    (hother : ∀ n type', ¬(n = fd ∧ type' = type) → asked n type' = d.asked n type') :
    Kept { d with
      asked := asked
      hook := { d.hook with fds := d.hook.fds.modify fd (·.setTimeout type ms) } } := by
  refine ⟨k.doing, k.queue, k.cancelled, k.timers, k.container, k.previouseTime, k.began,
    fun n ctx type' hn v hv => ?_, FdManager.modify_sized _ _ _ k.sized, k.table⟩
  dsimp only at hn hv
  rw [FdManager.modify_ctx] at hn
  by_cases hfd : n = fd
  · subst hfd
    rw [if_pos rfl] at hn
    obtain ⟨ctx, hctx, rfl⟩ := Option.map_eq_some_iff.mp hn
    rw [getTimeout_setTimeout]
    by_cases htype : type' = type
    · subst htype
      rw [if_pos rfl]
      exact hself v hv
    · rw [if_neg htype]
      rw [hother n type' fun h => htype h.2] at hv
      exact k.stored n ctx type' hctx v hv
  · rw [if_neg hfd] at hn
    rw [hother n type' fun h => hfd h.1] at hv
    exact k.stored n ctx type' hn v hv

theorem setsockopt_kept (k : Kept d) {fd : Nat} {level optname : BitVec 32} {v : Timeval} {ok : Bool}
    (hfault : d.hook.fault = none) (hg : Fair d (.setsockopt fd level optname v ok))
    (h : d.setsockopt fd level optname v ok = some e) : Kept e := by
  unfold Account.setsockopt at h
  cases htype : timeoutSo level optname with
  | none =>
    rw [htype] at h
    cases h
    exact k
  | some type =>
    have hstep : ∀ ms, Hook.step d.hook (.setTimeout fd type ms) =
        some { d.hook with fds := d.hook.fds.modify fd (·.setTimeout type ms) } := fun ms => by
      simp [Hook.step, hfault]
    have hg := hg type htype
    rw [htype] at h
    cases hacc : d.accepts fd ok with
    | true =>
      have hother : ∀ n type', ¬(n = fd ∧ type' = type) → Function.update d.asked fd
          (Function.update (d.asked fd) type (if v.Legal then some v else none)) n type' = d.asked n type' := by
        intro n type' hne
        by_cases hfd : n = fd
        · subst hfd
          rw [Function.update_self, Function.update_of_ne fun h => hne ⟨rfl, h⟩]
        · rw [Function.update_of_ne hfd]
      simp only [hacc, if_true, Account.ask, FdManager.get_ctx] at h hg
      cases hctx : d.hook.fds.ctx fd with
      | none =>
        simp only [hctx, Option.some.injEq] at h
        subst h
        refine ⟨k.doing, k.queue, k.cancelled, k.timers, k.container, k.previouseTime, k.began,
          fun n ctx type' hn w hw => ?_, k.sized, k.table⟩
        dsimp only at hw
        rw [hother n type' fun h => ?_] at hw
        · exact k.stored n ctx type' hn w hw
        · have hn : d.hook.fds.ctx n = some ctx := hn
          rw [h.1, hctx] at hn
          cases hn
      | some ctx =>
        simp only [hctx, hstep] at h
        obtain ⟨ms, hms, h⟩ := Option.bind_eq_some_iff.mp h
        cases h
        refine k.store (fun w hw => .inr ?_) hother
        rw [Function.update_self, Function.update_self] at hw
        obtain ⟨hlegal, hw⟩ := Option.ite_none_right_eq_some.mp hw
        cases hw
        exact ⟨hg (by rw [hctx]; rfl) hlegal, Nat.le_of_eq (Timeval.ms_toNat hlegal hms).symm⟩
    | false =>
      simp only [hacc, Bool.false_eq_true, if_false, FdManager.get_ctx] at h hg
      cases hctx : d.hook.fds.ctx fd with
      | none =>
        simp only [hctx, Option.some.injEq] at h
        exact h ▸ k
      | some ctx =>
        simp only [hctx, hstep] at h
        obtain ⟨ms, hms, h⟩ := Option.bind_eq_some_iff.mp h
        cases h
        exact k.store (fun w hw => .inr (hg (by rw [hctx]; rfl) w hw ms hms)) fun _ _ _ => rfl

/-- **One step.** -/
theorem step_kept (k : Kept d) {a : Act ι φ} (hg : Fair d a) (h : step d a = some e) : Kept e := by
  have hhook : ∀ a : Hook.Act ι φ, (∀ fd type v, a ≠ .setTimeout fd type v) → Fair d (.hook a) →
      (Hook.step d.hook a).map (fun s => { d.note a with hook := s, asked := d.reopened a }) = some e →
      Kept e := by
    intro a ha hg h
    obtain ⟨s, hs, rfl⟩ := Option.map_eq_some_iff.mp h
    have ks := hook_kept k hg ha hs
    refine ks.grows ⟨Nat.le_refl _, fun _ _ => rfl, fun _ _ hb => hb, BitVec.le_refl _⟩ rfl rfl rfl rfl rfl
      (fun fd type v hv => ?_) ks.began
    show v ∈ (d.note a).asked fd type
    rw [note_asked]
    exact reopened_sub hv
  cases a with
  | setsockopt fd level optname v ok =>
    simp only [step] at h
    split at h
    · cases h
    · rename_i hfault
      exact setsockopt_kept k (by simpa using hfault) hg h
  | hook a =>
    cases a with
    | setTimeout fd type v => cases h
    | _ => exact hhook _ (by simp) hg h

omit [DecidableEq φ] in
theorem start_kept (now : U64) : Kept (Account.start now : Account ι φ) := by
  refine ⟨fun f => trivial, fun i hi => ?_, fun i hi => ?_, fun t i hi => ?_, TimerManager.init_container now,
    BitVec.le_refl _, fun i b hb => ?_, fun fd ctx type hctx v hv => ?_, FdManager.init_sized, ?_⟩
  · cases hi
  · cases hi
  · simp [Account.start, Hook.start, TimerManager.State.init, TimerManager.State.timer] at hi
  · cases hb
  · cases hv
  · refine ⟨init_consistent.shaped, fun fd e => ?_⟩
    show ((IOManager.State.init.view fd).getContext e).cb = none
    rw [init_view]
    cases e <;> rfl

/-- **The timeouts of `setsockopt` are honoured.** In every run with a clock that does not go back and
no deadline that wraps, in which what is accepted for a number in the table is not zero and what is
refused is no shorter than what was accepted before: a call fails with ETIMEDOUT after a wait only
if the timeval accepted last for its direction when it began is not zero, and as many whole
milliseconds have passed since it began to wait. -/
theorem honoured_reachable (now : U64) (acts : List (Act ι φ))
    (hm : Meets step Fair (Account.start now : Account ι φ) acts) : Meets step Honours (Account.start now) acts := by
  refine meets_of_invariant (fun d a e k hg h => step_kept k hg h) (fun d a k hg => ?_) (start_kept now) hm
  cases a with
  | setsockopt fd level optname v ok => trivial
  | hook a =>
    cases a with
    | work f x =>
      simp only [Honours]
      split
      · intro hcancelled
        exact (k.cancelled _ hcancelled).2
      · trivial
    | socket | doIo | close | onTimer | idle | resume | dispatch | setTimeout | setUserNonblock => trivial

end

/-- The next step of a fiber, where a timer is armed at 100. -/
def next (f : Fin 3) : Act Nat (Fin 3) := .hook (.work f { timer := 0, now := 100 })

/-- Fiber 0 reads from a socket after some calls of `setsockopt`. Fiber 1, an `idle`, takes its timer
out at `now`, the callback runs in fiber 2, and fiber 0 has yet to test `cancelled`. -/
def readActs (sets : List (Act Nat (Fin 3))) (now : U64) : List (Act Nat (Fin 3)) :=
  [.hook (.socket 0 3), next 0] ++ sets ++
    [.hook (.doIo 0 .read 3), next 0, next 0, next 0, next 0, next 0, .hook (.idle 1 now 9), next 1,
      .hook (.onTimer 2 ⟨0, 3, .read⟩), next 2, next 2, next 2, next 2, .hook (.resume 0), next 0]

def rcvtimeo (v : Timeval) (ok : Bool) : Act Nat (Fin 3) := .setsockopt 3 solSocket soRcvtimeo v ok

/-- A timeout of zero ends the call at once, and one that the kernel refuses ends it after two seconds
where five were accepted. -/
theorem timed_out_zero :
    ¬ Meets step Honours (Account.start 100) (readActs [rcvtimeo ⟨0, 0⟩ true] 100 ++ [next 0]) ∧
    ¬ Meets step Honours (Account.start 100)
      (readActs [rcvtimeo ⟨5, 0⟩ true, rcvtimeo ⟨1, 1000000⟩ false] 2100 ++ [next 0]) := by
  constructor
  · intro hm
    have hlast := ((meets_append hm).2 _ rfl).1 rfl ⟨0, 0⟩ rfl
    exact hlast.1 ⟨rfl, rfl⟩
  · intro hm
    obtain ⟨-, b, hb, hle⟩ := ((meets_append hm).2 _ rfl).1 rfl ⟨5, 0⟩ rfl
    cases hb
    revert hle
    decide

/-- Five milliseconds and a half, of which five have passed. -/
theorem honoured_reachable_sample : ∃ d, run step (Account.start 100)
      (readActs [rcvtimeo ⟨0, 5500⟩ true] 105 ++ [next 0]) = some d ∧
    d.hook.log.map Done.ret = [.fail .timedout] ∧
    Meets step Honours (Account.start 100) (readActs [rcvtimeo ⟨0, 5500⟩ true] 105 ++ [next 0]) :=
  ⟨_, rfl, rfl, honoured_reachable 100 _ (by decide)⟩

end SockTimeout
end ShioSylar.Hook
