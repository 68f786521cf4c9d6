import ShioSylar.Scheduler.Executing
import ShioSylar.Scheduler.Handshake

/-! A fiber that goes to another thread (`Scheduler::switchTo`).

The fiber schedules itself for the thread, and suspends. While it is still EXEC every scan passes
over its node, so that the worker it leaves has written HOLD before anybody takes it. `Bound` is where
a fiber is between its being scheduled for a thread and its next switch, and only a worker of the
thread makes that switch (`switchTo_lands`). -/
namespace ShioSylar.Scheduler.Workers
open Lib

variable {ω φ κ : Type}

/-- `switchTo` of the fiber that runs on a worker. -/
def switchTo [DecidableEq ω] (thread : ω → Int) (w : ω) (f : φ) (d : Int) : List (Act ω φ κ) :=
  if d = -1 ∨ d = thread w then [] else [.schedule [{ fiber := some f, thread := d }], .yieldToHold w]

/-- The fiber waits to be run on the thread. -/
structure Bound (thread : ω → Int) (f : φ) (d : Int) (s : State ω φ κ) : Prop where
  woken : s.woken f = true
  queued : ∀ it ∈ s.fibers, it.fiber = some f → it.thread = d
  chosen : ∀ v it, s.pc v = .chosen (some it) → it.fiber = some f → thread v = d
  entry : ∀ v, s.pc v = .inside .entry .task f → thread v = d
  away : ∀ v kd, s.pc v ≠ .inside .entered kd f ∧ s.pc v ≠ .inside .running kd f

section
variable [DecidableEq ω] {thread : ω → Int} {s t : State ω φ κ} {w : ω} {f : φ} {d : Int}

/-- A worker moves. -/
theorem Bound.move (k : Bound thread f d s) {x : Worker φ κ} (hw : t.worker = Function.update s.worker w x)
    (hwoken : t.woken f = true) (hqueued : ∀ it ∈ t.fibers, it.fiber = some f → it ∈ s.fibers)
    (hchosen : ∀ it, x.pc = .chosen (some it) → it.fiber = some f → thread w = d)
    (hentry : x.pc = .inside .entry .task f → thread w = d)
    (haway : ∀ kd, x.pc ≠ .inside .entered kd f ∧ x.pc ≠ .inside .running kd f) : Bound thread f d t := by
  have hself := pc_update_self hw
  have hother : ∀ {v}, v ≠ w → t.pc v = s.pc v := pc_update_of_ne hw
  refine ⟨hwoken, fun it hit hf => k.queued it (hqueued it hit hf) hf, fun v it hpc hf => ?_, fun v hpc => ?_,
    fun v kd => ?_⟩
  · by_cases hv : v = w
    · subst hv
      exact hchosen it (hself ▸ hpc) hf
    · exact k.chosen v it (hother hv ▸ hpc) hf
  · by_cases hv : v = w
    · subst hv
      exact hentry (hself ▸ hpc)
    · exact k.entry v (hother hv ▸ hpc)
  · by_cases hv : v = w
    · subst hv
      rw [hself]
      exact haway kd
    · rw [hother hv]
      exact k.away v kd

variable [DecidableEq φ]

/-- A worker of the thread has switched to the fiber. -/
def Lands (thread : ω → Int) (f : φ) (d : Int) (s : State ω φ κ) (a : Act ω φ κ) (t : State ω φ κ) : Prop :=
  ∃ v g, a = .work v g ∧ s.pc v = .inside .entry .task f ∧ t.pc v = .inside .entered .task f ∧ thread v = d

/-- A step of the handshake leaves the fiber bound, or is that of a worker of its thread. -/
theorem Bound.step {a : Act ω φ κ} (k : Bound thread f d s) (hd : d ≠ -1) (hs : Safe s) (ht : Safe t)
    (hg : Handshake s a) (e : Effect thread s a t) : Bound thread f d t ∨ Lands thread f d s a t := by
  cases e with
  | fails => cases ht.fault
  | creates => exact .inl ⟨k.woken, k.queued, k.chosen, k.entry, k.away⟩
  | @schedules nodes hok =>
    have hnot : ∀ it ∈ nodes, it.fiber ≠ some f := by
      intro it hit hf
      have hfree := (hg.2 f (List.mem_filterMap.mpr ⟨it, hit, hf⟩)).1
      cases k.woken.symm.trans hfree
    refine .inl ⟨?_, fun it hit hf => ?_, k.chosen, k.entry, k.away⟩
    · simp [State.schedule, k.woken]
    · rw [State.schedule, scheduleAll_eq, List.mem_append] at hit
      exact k.queued it (hit.resolve_right fun h => hnot it (List.mem_of_mem_filter h) hf) hf
  | @scans v g x hpc hx =>
    obtain ⟨hrest, htask⟩ := fetch_mem hx
    refine .inl (k.move rfl k.woken (fun it hit _ => hrest it hit) (fun it hit hf => ?_) (by simp) (by simp))
    obtain ⟨hin, htake, -⟩ := htask it (Pc.chosen.inj hit)
    rw [k.queued it hin hf] at htake
    exact (htake.resolve_left hd).symm
  | @runs v g ft f' hpc hrun =>
    refine .inl (k.move rfl k.woken (fun it hit _ => hit) (by simp) (fun h => ?_) (by simp))
    cases h
    exact k.chosen v ft hpc (Option.filter_eq_some_iff.mp hrun).1
  | resets | makes | idles =>
    exact .inl (k.move rfl k.woken (fun it hit _ => hit) (by simp) (by simp) (by simp))
  | enters | discards | exits | backs | ends | empties | checks | holds =>
    exact .inl (k.move rfl k.woken (fun it hit _ => hit) (by simp) (by simp) (by simp))
  | @rewrites _ v st st' kd f' r r' hpc hr h hthrew hact =>
    by_cases hf : f' = f
    · subst hf
      cases h with
      | swapIn hne =>
        obtain ⟨-, -, ⟨-, htask, -⟩, -⟩ := hs.here hpc
        cases htask.mp k.woken
        obtain ⟨g, rfl⟩ : ∃ g, a = .work v g := by
          cases hact with
          | work ha => exact ⟨_, ha⟩
        exact .inr ⟨v, g, rfl, hpc,
          pc_update_self (x := { s.worker v with pc := .inside .entered .task f' }) rfl, k.entry v hpc⟩
      | switchTo => exact absurd hpc (k.away v kd).1
      | yieldToHold | yieldToReady | term | except => exact absurd hpc (k.away v kd).2
      | switchFrom => exact .inl (k.move rfl k.woken (fun it hit _ => hit) (by simp) (by simp) (by simp))
    · refine .inl (k.move rfl ?_ (fun it hit _ => hit) (by simp) (by simp [hf]) (by simp [hf]))
      show (if st = .entry then Function.update s.woken f' false else s.woken) f = true
      split
      · rw [Function.update_of_ne (Ne.symm hf)]
        exact k.woken
      · exact k.woken
  | @readies v g kd f' r hpc hr hready hk =>
    -- nothing is READY here
    obtain ⟨r', hr', ⟨-, -, hactive⟩, -⟩ := hs.here hpc
    cases hr.symm.trans hr'
    obtain hexec | ⟨hend, -⟩ := hactive
    · cases hready.symm.trans hexec
    · simp [Fiber.ended, hready] at hend

/-- The fiber leaves, for the thread. -/
theorem Safe.leaves_for (k : Safe s) {kd : Kind} (hpc : s.pc w = .inside .running kd f) (hshared : s.shared f = true)
    (hw : s.woken f = false) (hd : d ≠ -1) (hne : d ≠ thread w) :
    ∃ t, run (step thread) s (Workers.switchTo thread w f d) = some t ∧ Safe t ∧ Bound thread f d t := by
  obtain ⟨r, hr, ⟨hsaved, hexec, hwq⟩, hquiet⟩ := k.here hpc
  have hnq : f ∉ s.queued := fun h => by cases hw.symm.trans (hwq.mpr h)
  have hnone : ∀ it ∈ s.fibers, it.fiber ≠ some f := fun it hit hf => hnq (List.mem_filterMap.mpr ⟨it, hit, hf⟩)
  set node : FiberAndThread φ κ := { fiber := some f, thread := d }
  have hg : Handshake s (.schedule [node]) := by
    refine ⟨by simp [node], fun f' hf' => ?_⟩
    obtain rfl : f = f' := by simpa [node, eq_comm] using hf'
    exact ⟨hw, by simp [State.wakeable, hr, hexec]⟩
  have hstep : step thread s (.schedule [node]) = some (s.schedule [node]) := by
    refine if_pos ⟨k.fault, fun ft hft => ?_⟩
    rw [List.mem_singleton.mp hft]
    exact ⟨hshared, .inr rfl⟩
  have hsafe := step_safe k hg hstep
  set u := s.schedule [node]
  set t := (u.put f r).goto w (.inside .leaving kd f)
  have hyield : step thread u (.yieldToHold w) = some t := by
    have hru : u.fiber f = some r := hr
    have hpcu : u.pc w = .inside .running kd f := hpc
    have hop : r.yieldToHold = .ok r := if_pos hexec
    show (if u.fault = none then u.leave w _ else none) = _
    rw [if_pos hsafe.fault]
    simp only [State.leave, hpcu, State.modify, hru, hop]
    rfl
  have hgy : Handshake u (.yieldToHold w) := trivial
  refine ⟨t, ?_, step_safe hsafe hgy hyield, ?_⟩
  · rw [Workers.switchTo, if_neg (by simp [hd, hne])]
    exact run_cons.mpr ⟨u, hstep, run_cons.mpr ⟨t, hyield, rfl⟩⟩
  · have hself : t.pc w = .inside .leaving kd f := pc_update_self (x := { u.worker w with pc := .inside .leaving kd f }) rfl
    have hother : ∀ {v}, v ≠ w → t.pc v = s.pc v :=
      pc_update_of_ne (x := { u.worker w with pc := .inside .leaving kd f }) rfl
    -- no other worker has to do with the fiber
    have halone : ∀ {v}, v ≠ w → (t.pc v).fiber ≠ some f := by
      intro v hv hf
      rw [hother hv] at hf
      exact hv (k.unique v w f hf (by rw [hpc]; rfl))
    refine ⟨?_, fun it hit hf => ?_, fun v it hv hf => ?_, fun v hv => ?_, fun v kd' => ?_⟩
    · show (s.woken f || _) = true
      simp [node]
    · have hit : it ∈ scheduleAll s.fibers [node] := hit
      rw [scheduleAll_eq, List.mem_append] at hit
      have hin := List.mem_of_mem_filter (hit.resolve_left fun h => hnone it h hf)
      rw [List.mem_singleton.mp hin]
    · by_cases hvw : v = w
      · subst hvw
        cases hself.symm.trans hv
      · exact absurd (by rw [hv]; exact hf) (halone hvw)
    · by_cases hvw : v = w
      · subst hvw
        cases hself.symm.trans hv
      · exact absurd (by rw [hv]; rfl) (halone hvw)
    · by_cases hvw : v = w
      · subst hvw
        rw [hself]
        simp
      · refine ⟨fun hv => ?_, fun hv => ?_⟩
        · exact absurd (by rw [hv]; rfl) (halone hvw)
        · exact absurd (by rw [hv]; rfl) (halone hvw)

/-- **`switchTo` brings a fiber to the thread.** In every run of the handshake a fiber that nobody
has woken yet can call it, and whatever happens then, the fiber does not run until a worker of
that thread switches to it. -/
theorem switchTo_lands (thread : ω → Int) (acts : List (Act ω φ κ)) (s : State ω φ κ)
    (hm : Meets (step thread) Handshake start acts) (h : run (step thread) start acts = some s)
    (w : ω) (kd : Kind) (f : φ) (d : Int) (hpc : s.pc w = .inside .running kd f) (hkd : kd ≠ .idle)
    (hw : s.woken f = false) (hd : d ≠ -1) (hne : d ≠ thread w) :
    ∃ t, run (step thread) s (switchTo thread w f d) = some t ∧
      ∀ rest u, Meets (step thread) Handshake t rest → run (step thread) t rest = some u →
        Bound thread f d u ∨ ∃ xs a ys v v', rest = xs ++ a :: ys ∧ run (step thread) t xs = some v ∧
          Bound thread f d v ∧ step thread v a = some v' ∧ Lands thread f d v a v' := by
  have k : Safe s := run_invariant (fun s a t k hg h => step_safe k hg h) start_safe hm h
  have x : Executing s := run_preserves (fun s a t k h => k.step (step_effect h)) start_executing h
  have hshared : s.shared f = true := x.task w f (by rw [hpc]; exact if_neg hkd)
  obtain ⟨t, ht, hsafe, hbound⟩ := k.leaves_for hpc hshared hw hd hne
  refine ⟨t, ht, fun rest u hrest hu => ?_⟩
  have hstep : ∀ (s : State ω φ κ) a t, Safe s ∧ Bound thread f d s → Handshake s a → step thread s a = some t →
      (Safe t ∧ Bound thread f d t) ∨ Lands thread f d s a t := by
    intro s a t hk hg h
    have hst := step_safe hk.1 hg h
    exact (hk.2.step hd hk.1 hst hg (step_effect h)).imp_left fun hb => ⟨hst, hb⟩
  obtain hp | ⟨xs, a, ys, v, v', rfl, hv, hp, hstep, hl⟩ := run_until hstep ⟨hsafe, hbound⟩ hrest hu
  · exact .inl hp.2
  · exact .inr ⟨xs, a, ys, v, v', rfl, hv, hp.2, hstep, hl⟩

end

/-- Fiber 1 runs on worker 0. -/
def leaverActs : List (Act Nat Nat Nat) :=
  [.enter 0 10, .enter 1 11, .create 1 7, .schedule [{ fiber := some 1 }]] ++ List.replicate 4 (.work 0 20)

/-- Worker 1 idles while the fiber is still EXEC, and takes it when worker 0 has written HOLD. -/
def landerActs : List (Act Nat Nat Nat) :=
  let rounds (w n : Nat) : List (Act Nat Nat Nat) := List.replicate n (.work w 20)
  rounds 1 4 ++ rounds 0 7 ++ [.yieldToHold 1] ++ rounds 1 7

theorem switchTo_lands_sample : ∃ s, run (step fun w : Nat => w) start leaverActs = some s ∧
    ∃ t, run (step fun w : Nat => w) s (Workers.switchTo (fun w : Nat => w) 0 1 1) = some t ∧
      (∃ u, run (step fun w : Nat => w) t landerActs = some u ∧ u.pc 1 = .inside .entered .task 1) ∧
      ∀ rest u, Meets (step fun w : Nat => w) Handshake t rest → run (step fun w : Nat => w) t rest = some u →
        Bound (fun w : Nat => w) 1 1 u ∨ ∃ xs a ys v v', rest = xs ++ a :: ys ∧
          run (step fun w : Nat => w) t xs = some v ∧ Bound (fun w : Nat => w) 1 1 v ∧
          step (fun w : Nat => w) v a = some v' ∧ Lands (fun w : Nat => w) 1 1 v a v' := by
  refine ⟨_, rfl, ?_⟩
  obtain ⟨t, ht, hlands⟩ := switchTo_lands (fun w : Nat => w) leaverActs _ (by decide) rfl 0 .task 1 1 rfl (by decide)
    rfl (by decide) (by decide)
  refine ⟨t, ht, ?_, hlands⟩
  obtain rfl := Option.some.inj ht
  exact ⟨_, rfl, rfl⟩

end ShioSylar.Scheduler.Workers
