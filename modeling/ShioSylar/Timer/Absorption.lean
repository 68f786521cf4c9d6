import ShioSylar.Timer.Arming

/-! One `reset` after another.

A `reset` that does not count from now takes `m_next - m_ms` for the time at which the timer
was armed, and the early return leaves a timer alone that has the period already. Both come to
one thing (`resetKept`), under which the start is the same before and after, so that of two such
calls the first leaves no trace in the timers. The container is then the same list, since it
is the only one that is sorted and has these members. -/
namespace ShioSylar.TimerManager
open Lib OrderedSet

variable {ι κ : Type}

/-- A timer that has the period `ms` from the same start. -/
def Timer.resetKept (x : Timer κ) (ms : U64) : Timer κ :=
  { x with ms := ms, next := x.next - x.ms + ms }

namespace Timer

@[simp] theorem resetKept_cb (x : Timer κ) (ms : U64) : (x.resetKept ms).cb = x.cb := rfl

/-- The last period counts. -/
@[simp] theorem resetKept_resetKept (x : Timer κ) (a b : U64) :
    (x.resetKept a).resetKept b = x.resetKept b := by
  simp only [resetKept, BitVec.add_sub_cancel]

@[simp] theorem resetKept_self (x : Timer κ) : x.resetKept x.ms = x := by
  simp only [resetKept, BitVec.sub_add_cancel]

end Timer

variable [LinearOrder ι]

/-- Timers that are equal are in the container in the same order. -/
theorem Container.timers_eq {s s' : State ι κ} (h : Container s) (h' : Container s')
    (htimer : ∀ u, s.timer u = s'.timer u) : s.timers = s'.timers := by
  have hless : s.less = s'.less := by
    funext a b
    simp only [State.less, State.ref, htimer]
  have hsorted : Sorted s'.less s.timers := hless ▸ h.sorted
  exact hsorted.unique s'.less_order h'.sorted fun u => by rw [h.mem_iff, h'.mem_iff, htimer]

section
variable {s : State ι κ} (h : Container s)
include h

/-- A `reset` that does not count from now, early return or not: the timer runs from the same
start if it is pending, and no other timer is written. -/
theorem reset_kept (t : ι) (ms now : U64) :
    Container (s.reset t ms false now).2 ∧ ∀ u, (s.reset t ms false now).2.timer u =
      if u = t ∧ (s.timer t).cb.isSome = true then (s.timer t).resetKept ms else s.timer u := by
  by_cases hidle : (ms = (s.timer t).ms ∧ false = false) ∨ (s.timer t).cb = none
  · rw [reset_idle now hidle]
    refine ⟨h, fun u => ?_⟩
    split
    · rename_i hu
      have hms := (hidle.resolve_right (Option.isSome_iff_ne_none.mp hu.2)).1
      rw [hu.1, hms, Timer.resetKept_self]
    · rfl
  · rw [not_or] at hidle
    have ht := Option.isSome_iff_ne_none.mpr hidle.2
    obtain ⟨-, hc, hobj⟩ := reset_pending h ht hidle.1 now
    refine ⟨hc, fun u => ?_⟩
    rw [State.timer, hobj]
    by_cases hu : u = t
    · rw [hu, if_pos ⟨rfl, ht⟩, Function.update_self]
      rfl
    · rw [if_neg fun hut => hu hut.1, Function.update_of_ne hu, State.timer]

/-- Of two of them only the second is seen. -/
theorem reset_reset (t : ι) (a b now now' : U64) (u : ι) :
    ((s.reset t a false now).2.reset t b false now').2.timer u =
      if u = t ∧ (s.timer t).cb.isSome = true then (s.timer t).resetKept b else s.timer u := by
  obtain ⟨hc, hfirst⟩ := reset_kept h t a now
  rw [(reset_kept hc t b now').2 u]
  simp only [hfirst]
  by_cases ht : (s.timer t).cb.isSome = true
  · by_cases hu : u = t
    · simp [hu, ht]
    · simp [hu]
  · simp [ht]

end

/-- **Absorption.** For every run, every timer, pending or not, all periods and all clock
readings: after `reset(a, false)` and `reset(b, false)` every timer and the container are
as after `reset(b, false)` alone, and as they were if `b` is the period the timer had. -/
theorem reset_absorbs (start : U64) (ops : List (Op ι κ)) (l : Life ι κ)
    (h : run step (Life.start start) ops = some l) (t : ι) (a b now now' now'' : U64) :
    ((∀ u, ((l.manager.reset t a false now).2.reset t b false now').2.timer u =
        (l.manager.reset t b false now'').2.timer u) ∧
      ((l.manager.reset t a false now).2.reset t b false now').2.timers =
        (l.manager.reset t b false now'').2.timers) ∧
    (b = (l.manager.timer t).ms →
      (∀ u, ((l.manager.reset t a false now).2.reset t b false now').2.timer u = l.manager.timer u) ∧
      ((l.manager.reset t a false now).2.reset t b false now').2.timers = l.manager.timers) := by
  have hc := run_container h
  have htwice := (reset_kept (reset_kept hc t a now).1 t b now').1
  obtain ⟨honce, halone⟩ := reset_kept hc t b now''
  have htimer : ∀ u, ((l.manager.reset t a false now).2.reset t b false now').2.timer u =
      (l.manager.reset t b false now'').2.timer u := fun u => by rw [reset_reset hc, halone]
  refine ⟨⟨htimer, htwice.timers_eq honce htimer⟩, fun hb => ?_⟩
  have hback : ∀ u, ((l.manager.reset t a false now).2.reset t b false now').2.timer u =
      l.manager.timer u := by
    intro u
    rw [htimer u, reset_idle now'' (.inl ⟨hb, rfl⟩)]
  exact ⟨hback, htwice.timers_eq hc hback⟩

/-- A recurring timer between two others, emitted, refreshed and then given two periods. -/
def periodOps : List (Op Nat Unit) :=
  [.addTimer 1 5 () false 20, .addTimer 2 5 () true 10, .addTimer 3 40 () false 10,
    .listExpiredCb 15 7, .refresh 2 16]

theorem reset_absorbs_period : ∃ l, run step (Life.start 0) periodOps = some l ∧
    l.manager.timers = [2, 1, 3] ∧ (l.manager.reset 2 9 false 17).2.timers = [1, 2, 3] ∧
    ((l.manager.reset 2 9 false 17).2.reset 2 60 false 18).2.timers = (l.manager.reset 2 60 false 19).2.timers ∧
    ((l.manager.reset 2 9 false 17).2.reset 2 5 false 18).2.timers = [2, 1, 3] :=
  ⟨_, rfl, by decide, by decide, (reset_absorbs 0 periodOps _ rfl 2 9 60 17 18 19).1.2,
    ((reset_absorbs 0 periodOps _ rfl 2 9 5 17 18 19).2 (by decide)).2.trans (by decide)⟩

end ShioSylar.TimerManager
