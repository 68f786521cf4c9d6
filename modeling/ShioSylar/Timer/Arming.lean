import ShioSylar.Timer.Rollback

/-! Since when a timer runs.

A timer is armed when it is made, by `refresh`, by a `reset` that counts from now, and when it
is emitted and recurs. The manager keeps no record of that reading: a `reset` that does not
count from now takes `m_next - m_ms` for it. `Dated` keeps it beside the state, and in every
state of every run a pending deadline is the reading plus the period, modulo `2^64` (`Since`).

So `reset` puts a pending timer where it should be, but its early return answers true for a
timer that is not pending as well (`reset_iff`). And with a clock that does not go back a
timer fires early exactly if its deadline has wrapped (`early_iff`). -/
namespace ShioSylar.TimerManager
open Lib

variable {ι κ : Type}

/-- The manager, the latest clock reading, and the reading at which each timer was last
armed. -/
structure Dated (ι κ : Type) where
  manager : State ι κ
  clock : U64
  start : ι → U64

/-- The callback is not null, and the timer is in the container. -/
def State.Waits (s : State ι κ) (t : ι) : Prop := (s.timer t).cb.isSome = true ∧ t ∈ s.timers

section
variable [LinearOrder ι]

/-- The reading at which a call arms a timer, if it does. -/
def State.arms (s : State ι κ) (op : Op ι κ) (u : ι) : Option U64 :=
  match op with
  | .addTimer t _ _ _ now => if u = t then some now else none
  | .refresh t now => if u = t ∧ (s.refresh t now).1 = true then some now else none
  | .reset t ms fromNow now =>
    if u = t ∧ fromNow = true ∧ (s.reset t ms fromNow now).1.1 = true then some now else none
  | .listExpiredCb now tmp =>
    if u ∈ (s.takeExpired now tmp).1 ∧ (s.timer u).recurring = true then some now else none
  | .cancel _ | .getNextTimer _ => none

namespace Dated

def init (now : U64) : Dated ι κ := ⟨State.init now, now, fun _ => 0⟩

def step (d : Dated ι κ) (op : Op ι κ) : Option (Dated ι κ) :=
  (exec d.manager op).map fun r =>
    ⟨r.2, op.reading.getD d.clock, fun u => (d.manager.arms op u).getD (d.start u)⟩

end Dated

/-- A pending deadline is the reading at which the timer was armed plus the period. -/
structure Since (d : Dated ι κ) : Prop where
  container : Container d.manager
  next : ∀ t, (d.manager.timer t).cb.isSome = true →
    (d.manager.timer t).next = d.start t + (d.manager.timer t).ms

theorem init_since (now : U64) : Since (Dated.init now : Dated ι κ) :=
  ⟨init_container now, fun t ht => by simp [Dated.init, State.init, State.timer] at ht⟩

variable {d e : Dated ι κ}

/-- One timer is written. -/
theorem Since.write (k : Since d) {m : State ι κ} {clock : U64} {start : ι → U64} {t : ι} {x : Timer κ}
    (hc : Container m) (hobj : m.objects = Function.update d.manager.objects t (some x))
    (hx : x.cb.isSome = true → x.next = start t + x.ms) (hstart : ∀ u, u ≠ t → start u = d.start u) :
    Since ⟨m, clock, start⟩ := by
  refine ⟨hc, fun u hu => ?_⟩
  have htimer : m.timer u = if u = t then x else d.manager.timer u := by
    rw [State.timer, hobj]
    by_cases hut : u = t
    · rw [if_pos hut, hut, Function.update_self]
      rfl
    · rw [if_neg hut, Function.update_of_ne hut, State.timer]
  simp only [htimer] at hu ⊢
  by_cases hut : u = t
  · rw [if_pos hut] at hu ⊢
    rw [hut]
    exact hx hu
  · rw [if_neg hut] at hu ⊢
    rw [hstart u hut]
    exact k.next u hu

/-- No timer is written. -/
theorem Since.same (k : Since d) {m : State ι κ} {clock : U64} {start : ι → U64} (hc : Container m)
    (hobj : m.objects = d.manager.objects) (hstart : ∀ u, start u = d.start u) :
    Since ⟨m, clock, start⟩ := by
  refine ⟨hc, fun u hu => ?_⟩
  have htimer : m.timer u = d.manager.timer u := by rw [State.timer, hobj, State.timer]
  simp only [htimer] at hu ⊢
  rw [hstart u]
  exact k.next u hu

/-! ### `reset` -/

section
variable {s : State ι κ} (h : Container s)
include h

/-- A pending timer is taken out, written and put back, unless the early return is taken. -/
theorem reset_pending {t : ι} (ht : (s.timer t).cb.isSome = true) {ms : U64} {fromNow : Bool}
    (hnew : ¬(ms = (s.timer t).ms ∧ fromNow = false)) (now : U64) :
    (s.reset t ms fromNow now).1.1 = true ∧ Container (s.reset t ms fromNow now).2 ∧
      (s.reset t ms fromNow now).2.objects = Function.update s.objects t (some { s.timer t with
        ms := ms, next := s.resetStart t fromNow now + ms }) := by
  have hsome : ¬(s.timer t).cb.isNone = true := by
    rw [Option.isSome_iff_ne_none] at ht
    simpa using ht
  rw [State.reset, if_neg hnew, if_neg hsome, if_neg (h.find_ne_length ht)]
  refine ⟨rfl, ?_, addTimerLocked_objects _ _⟩
  exact addTimerLocked_container (rearm_container h ht { s.timer t with
    ms := ms, next := s.resetStart t fromNow now + ms } ht)

omit h in
/-- Otherwise nothing is written. -/
theorem reset_idle {t : ι} {ms : U64} {fromNow : Bool} (now : U64)
    (hidle : (ms = (s.timer t).ms ∧ fromNow = false) ∨ (s.timer t).cb = none) :
    (s.reset t ms fromNow now).2 = s := by
  unfold State.reset
  split
  · rfl
  · rename_i hnew
    rw [if_pos (Option.isNone_iff_eq_none.mpr (hidle.resolve_left hnew))]

/-- What `reset` answers. -/
theorem reset_answer (t : ι) (ms : U64) (fromNow : Bool) (now : U64) :
    (s.reset t ms fromNow now).1.1 = true ↔
      (s.timer t).cb.isSome = true ∨ (ms = (s.timer t).ms ∧ fromNow = false) := by
  by_cases hsame : ms = (s.timer t).ms ∧ fromNow = false
  · rw [State.reset, if_pos hsame]
    exact ⟨fun _ => .inr hsame, fun _ => rfl⟩
  · cases hcb : (s.timer t).cb with
    | none => simp [State.reset, hsame, hcb]
    | some c =>
      have ht : (s.timer t).cb.isSome = true := by rw [hcb]; rfl
      exact ⟨fun _ => .inl rfl, fun _ => (reset_pending h ht hsame now).1⟩

/-- A pending timer after `reset`. -/
theorem reset_timer {t : ι} (ht : (s.timer t).cb.isSome = true) (ms : U64) (fromNow : Bool) (now : U64) :
    Container (s.reset t ms fromNow now).2 ∧ (s.reset t ms fromNow now).2.timer t = { s.timer t with
      ms := ms
      next := if ms = (s.timer t).ms ∧ fromNow = false then (s.timer t).next
        else s.resetStart t fromNow now + ms } := by
  by_cases hsame : ms = (s.timer t).ms ∧ fromNow = false
  · rw [reset_idle now (.inl hsame), if_pos hsame, hsame.1]
    exact ⟨h, rfl⟩
  · obtain ⟨-, hc, hobj⟩ := reset_pending h ht hsame now
    refine ⟨hc, ?_⟩
    rw [if_neg hsame, State.timer, hobj, Function.update_self]
    rfl

end

/-! ### Every reachable state -/

theorem Since.step (k : Since d) {op : Op ι κ} (h : d.step op = some e) : Since e := by
  obtain ⟨⟨ev, m⟩, he, rfl⟩ := Option.map_eq_some_iff.mp h
  cases op with
  | addTimer t ms cb recurring now =>
    simp only [exec, Option.ite_none_right_eq_some, Option.some.injEq, Prod.mk.injEq] at he
    obtain ⟨ht, -, rfl⟩ := he
    obtain ⟨hc, hobj⟩ := addTimer_spec k.container t ms cb recurring now (Option.isNone_iff_eq_none.mp ht)
    refine k.write hc hobj (fun _ => ?_) fun u hu => ?_
    · simp [State.arms, Timer.create]
    · simp [State.arms, hu]
  | cancel t =>
    simp only [exec, Option.ite_none_right_eq_some] at he
    obtain ⟨-, he⟩ := he
    obtain ⟨r, hr, heq⟩ := Option.map_eq_some_iff.mp he
    cases heq
    rcases cancel_spec k.container t with ⟨u, hu, -, hc, hobj⟩ | ⟨hu, -⟩ <;> cases hu.symm.trans hr
    · exact k.write hc hobj (by simp) fun _ _ => rfl
    · exact k.same k.container rfl fun _ => rfl
  | refresh t now =>
    simp only [exec, Option.ite_none_right_eq_some, Option.some.injEq, Prod.mk.injEq] at he
    obtain ⟨-, -, rfl⟩ := he
    rcases refresh_spec k.container t now with ⟨hcb, hr⟩ | ⟨hr, -⟩ <;> simp only [State.arms, hr]
    · refine k.write (rearm_container k.container hcb _ hcb) (rearm_objects ..) (fun _ => ?_) fun u hu => ?_
      · simp
      · simp [hu]
    · exact k.same k.container rfl fun u => by simp
  | reset t ms fromNow now =>
    simp only [exec, Option.ite_none_right_eq_some, Option.some.injEq, Prod.mk.injEq] at he
    obtain ⟨-, -, rfl⟩ := he
    by_cases hidle : (ms = (d.manager.timer t).ms ∧ fromNow = false) ∨ (d.manager.timer t).cb = none
    · rw [reset_idle now hidle]
      refine k.same k.container rfl fun u => ?_
      -- the answer is true without the call arming the timer only for the early return
      have hunarmed : ¬(u = t ∧ fromNow = true ∧ (d.manager.reset t ms fromNow now).1.1 = true) := by
        rintro ⟨-, hnow, hret⟩
        rcases hidle with ⟨-, hfrom⟩ | hcb
        · rw [hnow] at hfrom
          cases hfrom
        · rcases (reset_answer k.container t ms fromNow now).mp hret with hsome | ⟨-, hfrom⟩
          · rw [hcb] at hsome
            cases hsome
          · rw [hnow] at hfrom
            cases hfrom
      simp only [State.arms, if_neg hunarmed, Option.getD_none]
    · rw [not_or] at hidle
      have hcb := Option.isSome_iff_ne_none.mpr hidle.2
      obtain ⟨hret, hc, hobj⟩ := reset_pending k.container hcb hidle.1 now
      refine k.write hc hobj (fun _ => ?_) fun u hu => ?_
      · cases fromNow with
        | true => simp [State.arms, hret, State.resetStart]
        | false => simp [State.arms, k.next t hcb, State.resetStart]
      · simp [State.arms, hu]
  | getNextTimer now =>
    cases he
    obtain ⟨hc, hobj⟩ := getNextTimer_spec k.container now
    exact k.same hc hobj fun _ => rfl
  | listExpiredCb now tmp =>
    cases he
    refine ⟨listExpiredCb_container k.container now tmp [], fun u hu => ?_⟩
    simp only [listExpiredCb_timer k.container] at hu ⊢
    by_cases hin : u ∈ (d.manager.takeExpired now tmp).1
    · rw [if_pos hin, emitted] at hu ⊢
      cases hrec : (d.manager.timer u).recurring with
      | true => simp [State.arms, hin, hrec]
      | false => simp [hrec] at hu
    · rw [if_neg hin] at hu ⊢
      simp [State.arms, hin, k.next u hu]

theorem run_since {now : U64} {ops : List (Op ι κ)} (h : run Dated.step (Dated.init now) ops = some d) :
    Since d :=
  run_preserves (fun _ _ _ k hs => k.step hs) (init_since now) h

/-- **What `reset` answers.** For every run, whatever the clock: `reset` answers as `cancel` and
`refresh` do, true for a pending timer only, and then leaves it with the period asked for and a
deadline counted from now or from when it was last armed, if and only if the timer is pending
or the early return is not taken. -/
theorem reset_iff (start : U64) (ops : List (Op ι κ)) (d : Dated ι κ)
    (h : run Dated.step (Dated.init start) ops = some d) (t : ι) (ms : U64) (fromNow : Bool) (now : U64) :
    (((d.manager.reset t ms fromNow now).1.1 = true ↔ d.manager.Waits t) ∧
      (d.manager.reset t ms fromNow now).1.1 = (d.manager.refresh t now).1 ∧
      (∃ r, d.manager.cancel t = some r ∧ (d.manager.reset t ms fromNow now).1.1 = r.1) ∧
      ((d.manager.reset t ms fromNow now).1.1 = true →
        t ∈ (d.manager.reset t ms fromNow now).2.timers ∧
        ((d.manager.reset t ms fromNow now).2.timer t).ms = ms ∧
        ((d.manager.reset t ms fromNow now).2.timer t).next =
          (if fromNow then now else d.start t) + ms)) ↔
    (d.manager.Waits t ∨ ¬(ms = (d.manager.timer t).ms ∧ fromNow = false)) := by
  have k := run_since h
  have hc := k.container
  have hwaits : d.manager.Waits t ↔ (d.manager.timer t).cb.isSome = true := by
    rw [State.Waits, hc.mem_iff t, and_self]
  have hanswer := reset_answer hc t ms fromNow now
  rw [hwaits]
  constructor
  · intro hlaw
    by_contra hnot
    rw [not_or, not_not] at hnot
    exact hnot.1 (hlaw.1.mp (hanswer.mpr (.inr hnot.2)))
  · intro hwhen
    have hret : (d.manager.reset t ms fromNow now).1.1 = true ↔ (d.manager.timer t).cb.isSome = true := by
      rw [hanswer, or_iff_left_of_imp fun hsame => hwhen.resolve_right (not_not.mpr hsame)]
    have hrefresh : (d.manager.refresh t now).1 = true ↔ (d.manager.timer t).cb.isSome = true := by
      rcases refresh_spec hc t now with ⟨ht, hr⟩ | ⟨hr, hcb⟩ <;> rw [hr]
      · exact ⟨fun _ => ht, fun _ => rfl⟩
      · simp [hcb]
    refine ⟨hret, ?_, ?_, fun hr => ?_⟩
    · rw [Bool.eq_iff_iff, hret, hrefresh]
    · rcases cancel_spec hc t with ⟨m, hm, ht, -⟩ | ⟨hm, hcb⟩
      · exact ⟨_, hm, hret.mpr ht⟩
      · refine ⟨_, hm, ?_⟩
        rw [← Bool.not_eq_true, hret, hcb]
        exact Bool.false_ne_true
    · have ht := hret.mp hr
      obtain ⟨hafter, htimer⟩ := reset_timer hc ht ms fromNow now
      refine ⟨(hafter.mem_iff t).mpr (by rw [htimer]; exact ht), by rw [htimer], ?_⟩
      rw [htimer]
      show (if _ then _ else _) = _
      split
      · rename_i hsame
        rw [hsame.2, k.next t ht, hsame.1]
        rfl
      · cases fromNow with
        | true => rfl
        | false =>
          simp only [State.resetStart, Bool.false_eq_true, if_false]
          rw [k.next t ht, BitVec.add_sub_cancel]

/-- A timer that was cancelled. -/
def cancelledOps : List (Op Nat Unit) := [.addTimer 1 5 () false 1000, .cancel 1]

/-- Nothing is rescheduled, and the answer is true. -/
theorem reset_cancelled : ∃ d, run Dated.step (Dated.init 1000) cancelledOps = some d ∧
    (d.manager.reset 1 5 false 1001).1.1 = true ∧ ¬ d.manager.Waits 1 ∧
    (d.manager.refresh 1 1001).1 = false ∧
    (d.manager.cancel 1).map Prod.fst = some false ∧
    1 ∉ (d.manager.reset 1 5 false 1001).2.timers :=
  ⟨_, rfl, rfl, fun h => absurd h.1 (by decide), rfl, rfl, by decide⟩

/-- With another period the answer is false, as it should be. -/
theorem reset_iff_cancelled : ∃ d, run Dated.step (Dated.init 1000) cancelledOps = some d ∧
    ((d.manager.reset 1 7 false 1001).1.1 = true ↔ d.manager.Waits 1) :=
  ⟨_, rfl, ((reset_iff 1000 cancelledOps _ rfl 1 7 false 1001).mpr (.inr (by decide))).1⟩

/-! ### Firing early -/

/-- The clock does not go back. -/
def Forward (d : Dated ι κ) (op : Op ι κ) : Prop := ∀ now ∈ op.reading, d.clock ≤ now

/-- No timer is emitted before its period is over, over the integers. -/
def Punctual (d : Dated ι κ) : Op ι κ → Prop
  | .listExpiredCb now tmp => ∀ t ∈ (d.manager.takeExpired now tmp).1,
      (d.start t).toNat + (d.manager.timer t).ms.toNat ≤ now.toNat
  | _ => True

/-- When `listExpiredCb` is called, no timer in the container was armed for `2^64` or later. -/
def Fits (d : Dated ι κ) : Op ι κ → Prop
  | .listExpiredCb _ _ => ∀ t ∈ d.manager.timers,
      (d.start t).toNat + (d.manager.timer t).ms.toNat < 2 ^ 64
  | _ => True

instance (d : Dated ι κ) (op : Op ι κ) : Decidable (Forward d op) :=
  match h : op.reading with
  | none => isTrue (by simp [Forward, h])
  | some now => decidable_of_iff (d.clock ≤ now) (by simp [Forward, h])

instance (d : Dated ι κ) : (op : Op ι κ) → Decidable (Punctual d op)
  | .listExpiredCb now tmp => inferInstanceAs (Decidable (∀ t ∈ (d.manager.takeExpired now tmp).1,
      (d.start t).toNat + (d.manager.timer t).ms.toNat ≤ now.toNat))
  | .addTimer .. | .cancel _ | .refresh .. | .reset .. | .getNextTimer _ => isTrue trivial

instance (d : Dated ι κ) : (op : Op ι κ) → Decidable (Fits d op)
  | .listExpiredCb _ _ => inferInstanceAs (Decidable (∀ t ∈ d.manager.timers,
      (d.start t).toNat + (d.manager.timer t).ms.toNat < 2 ^ 64))
  | .addTimer .. | .cancel _ | .refresh .. | .reset .. | .getNextTimer _ => isTrue trivial

/-- What a clock that does not go back keeps: no reading kept is later than the clock. -/
structure Ahead (d : Dated ι κ) : Prop where
  since : Since d
  start : ∀ t, d.start t ≤ d.clock
  previouseTime : d.manager.previouseTime ≤ d.clock

theorem addTimerLocked_previouseTime (s : State ι κ) (t : ι) :
    (s.addTimerLocked t).2.previouseTime = s.previouseTime := by
  simp only [State.addTimerLocked]
  split <;> rfl

theorem takeExpired_previouseTime (s : State ι κ) (now : U64) (tmp : ι) :
    (s.takeExpired now tmp).2.previouseTime = s.previouseTime ∨
      (s.takeExpired now tmp).2.previouseTime = now := by
  unfold State.takeExpired
  split
  · exact .inl rfl
  · dsimp only
    split <;> exact .inr rfl

/-- `m_previouseTime` is the reading of a call. -/
theorem exec_previouseTime {s s' : State ι κ} {op : Op ι κ} {ev : List (Event ι κ)}
    (he : exec s op = some (ev, s')) :
    s'.previouseTime = s.previouseTime ∨ s'.previouseTime ∈ op.reading := by
  cases op with
  | addTimer t ms cb recurring now =>
    simp only [exec, Option.ite_none_right_eq_some, Option.some.injEq, Prod.mk.injEq] at he
    obtain ⟨-, -, rfl⟩ := he
    exact .inl (addTimerLocked_previouseTime ..)
  | cancel t =>
    simp only [exec, Option.ite_none_right_eq_some] at he
    obtain ⟨r, hr, heq⟩ := Option.map_eq_some_iff.mp he.2
    cases heq
    exact .inl (cancel_keeps hr).2
  | refresh t now =>
    simp only [exec, Option.ite_none_right_eq_some, Option.some.injEq, Prod.mk.injEq] at he
    obtain ⟨-, -, rfl⟩ := he
    left
    unfold State.refresh
    split
    · rfl
    · dsimp only
      split <;> rfl
  | reset t ms fromNow now =>
    simp only [exec, Option.ite_none_right_eq_some, Option.some.injEq, Prod.mk.injEq] at he
    obtain ⟨-, -, rfl⟩ := he
    left
    unfold State.reset
    split
    · rfl
    · split
      · rfl
      · dsimp only
        split
        · rfl
        · exact addTimerLocked_previouseTime ..
  | getNextTimer now =>
    cases he
    left
    unfold State.getNextTimer
    dsimp only
    split
    · rfl
    · split <;> rfl
  | listExpiredCb now tmp =>
    cases he
    have hemit : (s.listExpiredCb now tmp []).2.previouseTime =
        (s.takeExpired now tmp).2.previouseTime := (emit_keeps ..).2
    rw [hemit]
    exact (takeExpired_previouseTime s now tmp).imp id fun h => congrArg some h.symm

/-- A timer is armed at the reading of the call. -/
theorem arms_reading {s : State ι κ} {op : Op ι κ} {u : ι} {now : U64} (h : s.arms op u = some now) :
    now ∈ op.reading := by
  cases op with
  | reset t ms fromNow rd =>
    simp only [State.arms, Option.ite_none_right_eq_some] at h
    rw [Op.reading, if_pos h.1.2.1]
    exact h.2
  | cancel | getNextTimer => cases h
  | addTimer | refresh | listExpiredCb =>
    simp only [State.arms, Option.ite_none_right_eq_some] at h
    exact h.2

theorem Forward.clock_le {op : Op ι κ} (hf : Forward d op) (h : d.step op = some e) : d.clock ≤ e.clock := by
  obtain ⟨r, -, rfl⟩ := Option.map_eq_some_iff.mp h
  show d.clock ≤ op.reading.getD d.clock
  cases hr : op.reading with
  | none => exact BitVec.le_refl _
  | some now => exact hf now hr

theorem Ahead.step (k : Ahead d) {op : Op ι κ} (hf : Forward d op) (h : d.step op = some e) : Ahead e := by
  have hclock := hf.clock_le h
  have hreading : ∀ now ∈ op.reading, now ≤ op.reading.getD d.clock := by
    intro now hnow
    rw [Option.mem_def.mp hnow]
    exact BitVec.le_refl now
  have hsince := k.since.step h
  obtain ⟨⟨ev, m⟩, he, rfl⟩ := Option.map_eq_some_iff.mp h
  refine ⟨hsince, fun u => ?_, ?_⟩
  · show (d.manager.arms op u).getD (d.start u) ≤ op.reading.getD d.clock
    cases harms : d.manager.arms op u with
    | none => exact BitVec.le_trans (k.start u) hclock
    | some now => exact hreading now (arms_reading harms)
  · rcases exec_previouseTime he with heq | hin
    · exact heq ▸ BitVec.le_trans k.previouseTime hclock
    · exact hreading _ hin

/-- At a clock that has not gone back a timer is taken out if its deadline is not after it. -/
theorem Ahead.takeExpired_mem (k : Ahead d) {now : U64} (hnow : d.clock ≤ now) (tmp t : ι) :
    t ∈ (d.manager.takeExpired now tmp).1 ↔ t ∈ d.manager.timers ∧ (d.manager.timer t).next ≤ now := by
  rw [takeExpired_mem_forward k.since.container (BitVec.le_trans k.previouseTime hnow),
    k.since.container.mem_iff]

theorem init_ahead (now : U64) : Ahead (Dated.init now : Dated ι κ) :=
  ⟨init_since now, fun _ => BitVec.le_def.mpr (Nat.zero_le _), BitVec.le_refl _⟩

theorem run_ahead {now : U64} {ops : List (Op ι κ)} (h : run Dated.step (Dated.init now) ops = some d)
    (hf : Meets Dated.step Forward (Dated.init now) ops) : Ahead d :=
  run_invariant (fun _ _ _ k hf hs => k.step hf hs) (init_ahead now) hf h

/-- **No early firing.** For every run with a clock that does not go back: no timer is emitted
before its period is over if and only if, whenever `listExpiredCb` is called, no deadline in the
container has wrapped. -/
theorem early_iff (start : U64) (ops : List (Op ι κ))
    (hm : Meets Dated.step Forward (Dated.init start) ops) :
    Meets Dated.step Punctual (Dated.init start) ops ↔ Meets Dated.step Fits (Dated.init start) ops := by
  refine meets_congr (fun d op e k hf h => k.step hf h) (fun d op k hf => ?_) (init_ahead start) hm
  cases op with
  | listExpiredCb now tmp =>
    have hnow : d.clock ≤ now := hf now rfl
    have hle := BitVec.le_def.mp hnow
    refine forall_congr' fun t => ?_
    rw [k.takeExpired_mem hnow]
    have hstart := BitVec.le_def.mp (k.start t)
    have hms := (d.manager.timer t).ms.isLt
    have hlt := now.isLt
    constructor
    · intro hpunctual ht
      -- a wrapped deadline is before the reading it was counted from, so it is due
      by_contra hwrapped
      have hnext := congrArg BitVec.toNat (k.since.next t ((k.since.container.mem_iff t).mp ht))
      rw [BitVec.toNat_add] at hnext
      have hperiod := hpunctual ⟨ht, by rw [BitVec.le_def]; omega⟩
      omega
    · rintro hfits ⟨ht, hdue⟩
      have hnext := congrArg BitVec.toNat (k.since.next t ((k.since.container.mem_iff t).mp ht))
      rw [BitVec.toNat_add, Nat.mod_eq_of_lt (hfits ht)] at hnext
      rw [BitVec.le_def] at hdue
      omega
  | addTimer | cancel | refresh | reset | getNextTimer => exact Iff.rfl

/-- The timers that `Punctual` asks about are, one for one, those whose callbacks are returned. -/
theorem punctual_cbs {start : U64} {ops : List (Op ι κ)} (h : run Dated.step (Dated.init start) ops = some d)
    (now : U64) (tmp : ι) : (d.manager.listExpiredCb now tmp []).1 =
      (d.manager.takeExpired now tmp).1.map fun t => (d.manager.timer t).cb :=
  listExpiredCb_cbs (run_since h).container now tmp

/-- A timer that is meant never to fire, and the next call of `listExpiredCb`. -/
def neverOps : List (Op Nat Unit) := [.addTimer 1 (BitVec.allOnes 64) () false 1000, .listExpiredCb 1000 2]

/-- It fires at once: its deadline is the millisecond before. -/
theorem early_never : Meets Dated.step Forward (Dated.init 1000) neverOps ∧
    ¬ Meets Dated.step Punctual (Dated.init 1000) neverOps := by decide

/-- A period that does not wrap, cut short by `reset`. -/
def shortenedOps : List (Op Nat Unit) :=
  [.addTimer 1 5000 () true 1000, .reset 1 2000 false 2000, .listExpiredCb 3000 2, .listExpiredCb 5000 2]

theorem early_iff_shortened : Meets Dated.step Punctual (Dated.init 1000) shortenedOps :=
  (early_iff 1000 shortenedOps (by decide)).mpr (by decide)

end

end ShioSylar.TimerManager
