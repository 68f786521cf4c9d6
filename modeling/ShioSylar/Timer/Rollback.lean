import ShioSylar.Timer.Expired

/-! When the clock went back.

`detectClockRollover` subtracts an hour from the previous reading, as unsigned numbers. Where
that reading is within the first hour the difference wraps, and any step back of the clock
empties the container (`flush_early`). Otherwise a timer is taken out before its deadline only
after the clock went back by more than an hour (`flush_iff`). -/
namespace ShioSylar.TimerManager
open Lib

variable {ι κ : Type} [LinearOrder ι]

/-- An hour in milliseconds. -/
def hour : Nat := 60 * 60 * 1000

omit [LinearOrder ι] in
/-- What `detectClockRollover` answers, over the integers. -/
theorem rollover_iff (s : State ι κ) (now : U64) : (s.detectClockRollover now).1 = true ↔
    now.toNat + hour < s.previouseTime.toNat ∨
      (now.toNat < s.previouseTime.toNat ∧ s.previouseTime.toNat < hour) := by
  have hnow := now.isLt
  have hprev := s.previouseTime.isLt
  have hsub : (s.previouseTime - 60 * 60 * 1000).toNat =
      (2 ^ 64 - hour + s.previouseTime.toNat) % 2 ^ 64 := BitVec.toNat_sub ..
  simp only [State.detectClockRollover, Bool.and_eq_true, decide_eq_true_iff, BitVec.lt_def, hsub, hour]
  omega

/-- The timers that `listExpiredCb` takes out. -/
theorem takeExpired_mem {s : State ι κ} (h : Container s) (now : U64) (tmp t : ι) :
    t ∈ (s.takeExpired now tmp).1 ↔ (s.timer t).cb.isSome = true ∧
      ((s.detectClockRollover now).1 = true ∨ (s.timer t).next ≤ now) := by
  obtain ⟨p, hp⟩ := takeExpired_due h now tmp
  rw [hp, List.mem_filter, h.mem_iff, State.due, Bool.or_eq_true, decide_eq_true_iff]

/-- With a clock that has not gone back these are the timers that are due. -/
theorem takeExpired_mem_forward {s : State ι κ} (h : Container s) {now : U64} (hnow : s.previouseTime ≤ now)
    (tmp t : ι) :
    t ∈ (s.takeExpired now tmp).1 ↔ (s.timer t).cb.isSome = true ∧ (s.timer t).next ≤ now := by
  have hroll : ¬ (s.detectClockRollover now).1 = true := by
    rw [BitVec.le_def] at hnow
    rw [rollover_iff]
    omega
  rw [takeExpired_mem h, or_iff_right hroll]

/-- **Flushes.** In every reachable state, for every clock reading and every previous one: the
timers that are taken out before their deadline are so only because the clock went back by
more than an hour, if and only if it did not go back, or the previous reading is past the
first hour, or all pending timers are due. -/
theorem flush_iff (start : U64) (ops : List (Op ι κ)) (l : Life ι κ)
    (h : run step (Life.start start) ops = some l) (previouseTime now : U64) (tmp : ι) :
    (∀ t ∈ (({ l.manager with previouseTime := previouseTime } : State ι κ).takeExpired now tmp).1,
      now < (l.manager.timer t).next → now.toNat + hour < previouseTime.toNat) ↔
    (previouseTime ≤ now ∨ hour ≤ previouseTime.toNat ∨
      ∀ t, (l.manager.timer t).cb.isSome = true → (l.manager.timer t).next ≤ now) := by
  have hc := run_container h
  have hc' : Container ({ l.manager with previouseTime := previouseTime } : State ι κ) :=
    ⟨hc.sorted, hc.mem_iff⟩
  have hroll : (({ l.manager with previouseTime := previouseTime } : State ι κ).detectClockRollover
      now).1 = true ↔ now.toNat + hour < previouseTime.toNat ∨
        (now.toNat < previouseTime.toNat ∧ previouseTime.toNat < hour) := rollover_iff _ now
  constructor
  · intro hall
    by_contra hnot
    simp only [not_or, not_forall, BitVec.not_le] at hnot
    obtain ⟨hback, hhour, t, ht, hlater⟩ := hnot
    rw [BitVec.lt_def] at hback
    have hin := (takeExpired_mem hc' now tmp t).mpr ⟨ht, .inl (hroll.mpr (.inr ⟨hback, by omega⟩))⟩
    have hlt := hall t hin hlater
    omega
  · intro hwhen t ht hlater
    obtain ⟨hcb, hwhy⟩ := (takeExpired_mem hc' now tmp t).mp ht
    have hnot : ¬ (l.manager.timer t).next ≤ now := BitVec.not_le.mpr hlater
    rcases hroll.mp (hwhy.resolve_right hnot) with hback | ⟨hback, hearly⟩
    · exact hback
    · rcases hwhen with hle | hhour | hall
      · rw [BitVec.le_def] at hle
        exact absurd hback (Nat.not_lt.mpr hle)
      · exact absurd hearly (Nat.not_lt.mpr hhour)
      · exact absurd (hall t hcb) hnot

/-- The callbacks that are returned are those of the timers that are taken out, one each. -/
theorem flush_cbs (start : U64) (ops : List (Op ι κ)) (l : Life ι κ)
    (h : run step (Life.start start) ops = some l) (previouseTime now : U64) (tmp : ι) :
    (({ l.manager with previouseTime := previouseTime } : State ι κ).listExpiredCb now tmp []).1 =
      (({ l.manager with previouseTime := previouseTime } : State ι κ).takeExpired now tmp).1.map
        fun t => (l.manager.timer t).cb := by
  have hc := run_container h
  have hc' : Container ({ l.manager with previouseTime := previouseTime } : State ι κ) := ⟨hc.sorted, hc.mem_iff⟩
  exact listExpiredCb_cbs hc' now tmp

/-- One timer, added one second after the epoch for five seconds later. -/
def bootOps : List (Op Nat Unit) := [.addTimer 1 5000 () false 1000]

/-- The clock goes back by a millisecond. -/
theorem flush_early : ∃ l, run step (Life.start 1000) bootOps = some l ∧
    l.manager.previouseTime = 1000 ∧ (l.manager.takeExpired 999 2).1 = [1] ∧
    999 < (l.manager.timer 1).next ∧ ¬ (999 : U64).toNat + hour < (1000 : U64).toNat :=
  ⟨_, rfl, rfl, by decide, by decide, by decide⟩

/-- The same, two hours after the epoch. -/
theorem flush_iff_later : ∃ l, run step (Life.start 1000) bootOps = some l ∧
    ∀ t ∈ (({ l.manager with previouseTime := 7200000 } : State Nat Unit).takeExpired 7199000 2).1,
      7199000 < (l.manager.timer t).next → (7199000 : U64).toNat + hour < (7200000 : U64).toNat :=
  ⟨_, rfl, (flush_iff 1000 bootOps _ rfl 7200000 7199000 2).mpr (.inr (.inl (by decide)))⟩

end ShioSylar.TimerManager
