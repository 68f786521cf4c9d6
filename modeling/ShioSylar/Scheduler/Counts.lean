import ShioSylar.Lib.Count
import ShioSylar.Scheduler.Effects

/-! The counters of a scheduler.

`m_activeThreadCount` is the number of workers from the removal of a node to the decrement
that belongs to it, and `m_idleThreadCount` the number of those from `++m_idleThreadCount` to
the decrement. Nothing is asked of the run. -/
namespace ShioSylar.Scheduler.Workers
open Lib

variable {ω φ κ : Type}

/-- Between taking a node and the matching decrement. -/
def Pc.busy : Pc φ κ → Bool
  | .chosen ft => ft.isSome
  | .inside st k _ => k ≠ .idle ∧ st ≠ .check ∧ st ≠ .hold
  | _ => false

/-- Between `++m_idleThreadCount` and the matching decrement. -/
def Pc.idling : Pc φ κ → Bool
  | .inside st k _ => k = .idle ∧ st ≠ .check ∧ st ≠ .hold
  | _ => false

structure Counted (s : State ω φ κ) : Prop where
  active : Counts (fun w => (s.pc w).busy) s.activeThreadCount
  idle : Counts (fun w => (s.pc w).idling) s.idleThreadCount

theorem start_counted : Counted (start : State ω φ κ) :=
  ⟨counts_none fun _ => rfl, counts_none fun _ => rfl⟩

section
variable [DecidableEq ω] {s t : State ω φ κ} {w : ω}

/-- A worker moves, and the counters with it. -/
theorem Counted.move (k : Counted s) {x : Worker φ κ} (hw : t.worker = Function.update s.worker w x)
    (hactive : t.activeThreadCount + (s.pc w).busy.toNat = s.activeThreadCount + x.pc.busy.toNat)
    (hidle : t.idleThreadCount + (s.pc w).idling.toNat = s.idleThreadCount + x.pc.idling.toNat) :
    Counted t := by
  refine ⟨k.active.move (w := w) (fun w' h => by rw [pc_update_of_ne hw h]) ?_,
    k.idle.move (w := w) (fun w' h => by rw [pc_update_of_ne hw h]) ?_⟩
  · rw [pc_update_self hw]
    exact hactive
  · rw [pc_update_self hw]
    exact hidle

omit [DecidableEq ω] in
theorem Counted.congr (k : Counted s) (hw : t.worker = s.worker)
    (hactive : t.activeThreadCount = s.activeThreadCount)
    (hidle : t.idleThreadCount = s.idleThreadCount) : Counted t := by
  refine ⟨?_, ?_⟩
  · rw [hactive]
    exact k.active.congr fun w => by rw [pc_congr (congrFun hw w)]
  · rw [hidle]
    exact k.idle.congr fun w => by rw [pc_congr (congrFun hw w)]

theorem Counted.step [DecidableEq φ] {thread : ω → Int} {a : Act ω φ κ} (k : Counted s)
    (h : Effect thread s a t) : Counted t := by
  cases h with
  | fails h => exact k.congr rfl rfl rfl
  | enters hpc hi => exact k.move rfl (by simp [hpc, Pc.busy, State.put]) (by simp [hpc, Pc.idling, State.put])
  | creates hf => exact k.congr rfl rfl rfl
  | schedules hok => exact k.congr rfl rfl rfl
  | @scans w g x hpc hx =>
    refine k.move rfl ?_ (by simp [hpc, Pc.idling, State.goto])
    cases htask : x.task <;> simp [hpc, Pc.busy]
  | runs hpc hrun =>
    exact k.move rfl (by simp [hpc, Pc.busy, State.goto]) (by simp [hpc, Pc.idling, State.goto])
  | resets hpc hrun hcb hown hr hreset =>
    exact k.move rfl (by simp [hpc, Pc.busy, State.goto, State.put])
      (by simp [hpc, Pc.idling, State.goto, State.put])
  | makes hpc hrun hcb hown hg =>
    exact k.move rfl (by simp [hpc, Pc.busy, State.put]) (by simp [hpc, Pc.idling, State.put])
  | discards hpc hrun hcb =>
    exact k.move rfl (by simp [hpc, Pc.busy]) (by simp [hpc, Pc.idling, State.goto])
  | exits hpc hown hterm =>
    exact k.move rfl (by simp [hpc, Pc.busy, State.goto]) (by simp [hpc, Pc.idling, State.goto])
  | idles hpc hown hterm =>
    exact k.move rfl (by simp [hpc, Pc.busy, State.goto]) (by simp [hpc, Pc.idling])
  | rewrites hpc hr h hthrew hact =>
    cases h <;> exact k.move rfl (by simp [hpc, Pc.busy, State.goto, State.put])
      (by simp [hpc, Pc.idling, State.goto, State.put])
  | @backs w g kd f hpc =>
    cases kd <;> exact k.move rfl (by simp [hpc, Pc.busy]) (by simp [hpc, Pc.idling])
  | readies hpc hr hready hk =>
    exact k.move rfl (by simp [hpc, Pc.busy, State.leaves, State.schedule])
      (by simp [hpc, Pc.idling, State.leaves, State.schedule])
  | ends hpc hr hend hk =>
    exact k.move rfl (by simp [hpc, Pc.busy, State.goto]) (by simp [hpc, Pc.idling, State.goto])
  | empties hpc hr hend =>
    exact k.move rfl (by simp [hpc, Pc.busy, State.goto, State.put])
      (by simp [hpc, Pc.idling, State.goto, State.put])
  | checks hpc hr hready hend =>
    exact k.move rfl (by simp [hpc, Pc.busy, State.goto]) (by simp [hpc, Pc.idling, State.goto])
  | holds hpc hr =>
    exact k.move rfl (by simp [hpc, Pc.busy, State.leaves, State.put])
      (by simp [hpc, Pc.idling, State.leaves, State.put])

end

end ShioSylar.Scheduler.Workers
