import ShioSylar.Scheduler.Effects
import ShioSylar.Scheduler.Steps

/-! Waking a fiber that has not suspended yet.

A fiber that is about to call `YieldToHold` is often queued by another thread while it is
still EXEC. `Handshake` is the discipline: fibers suspend only with `YieldToHold`, and a
fiber is put into `m_fibers` at most once per suspension, for one that it then enters. -/
namespace ShioSylar.Scheduler.Workers
open Lib

variable {ω φ κ : Type}

def Handshake [DecidableEq φ] (s : State ω φ κ) : Act ω φ κ → Prop
  | .schedule nodes => (nodes.filterMap (·.fiber)).Nodup ∧
      ∀ f ∈ nodes.filterMap (·.fiber), s.woken f = false ∧ s.wakeable f = true
  | .yieldToReady _ => False
  | .finish w _ => ∀ f ∈ (s.pc w).fiber, s.woken f = false
  | _ => True

instance [DecidableEq φ] (s : State ω φ κ) : (a : Act ω φ κ) → Decidable (Handshake s a)
  | .schedule nodes => inferInstanceAs (Decidable ((nodes.filterMap (·.fiber)).Nodup ∧
      ∀ f ∈ nodes.filterMap (·.fiber), s.woken f = false ∧ s.wakeable f = true))
  | .yieldToReady _ => isFalse id
  | .finish w _ => inferInstanceAs (Decidable (∀ f ∈ (s.pc w).fiber, s.woken f = false))
  | .enter _ _ => isTrue trivial
  | .create _ _ => isTrue trivial
  | .work _ _ => isTrue trivial
  | .yieldToHold _ => isTrue trivial

section
variable [DecidableEq φ] [DecidableEq ω] {s t : State ω φ κ} {w : ω} {f : φ} {r : Fiber κ}

/-! ### One step -/

theorem Safe.work {thread : ω → Int} {g : φ} (k : Safe s) (h : s.work thread w g = some t) : Safe t := by
  unfold State.work at h
  rcases hpc : s.pc w with _ | _ | ft | ⟨st, kd, f⟩ | _ <;> simp only [hpc] at h
  · cases h
  · obtain ⟨x, hx, -⟩ := @fetch_spec _ _ (thread w) s.isExec _ k.nonempty
    simp only [hx] at h
    cases h
    exact (k.fetch (thread w) hpc hx).counts _ _
  · exact k.choose hpc h
  · cases st with
    | entry => exact k.swapIn hpc h
    | entered => exact k.switchTo hpc h
    | running => cases h
    | leaving => exact k.switchFrom hpc h
    | back =>
      simp only [Option.some.injEq] at h
      subst h
      split
      · exact (k.back hpc).counts _ _
      · exact (k.back hpc).counts _ _
    | check => exact k.settle hpc h
    | hold => exact k.hold hpc h
  · cases h

theorem step_safe {thread : ω → Int} {a : Act ω φ κ} (k : Safe s) (hg : Handshake s a)
    (h : step thread s a = some t) : Safe t := by
  cases a with
  | enter w i =>
    simp only [step, k.fault] at h
    split at h
    · rename_i hpc hi
      cases h
      have hs := k.enter hpc hi
      rwa [k.fault] at hs
    · cases h
  | create f cb =>
    simp only [step, k.fault] at h
    split at h
    · rename_i hf
      cases h
      have hs := k.create hf cb
      rwa [k.fault] at hs
    · cases h
  | schedule nodes =>
    simp only [step, Option.ite_none_right_eq_some] at h
    obtain ⟨⟨-, hnodes⟩, h⟩ := h
    cases h
    refine k.schedule hg.1 hg.2 fun f hf => ?_
    obtain ⟨ft, hft, hfiber⟩ := List.mem_filterMap.mp hf
    have hall := (hnodes ft hft).1
    rwa [hfiber] at hall
  | work w g =>
    simp only [step, if_pos k.fault] at h
    exact k.work h
  | yieldToHold w =>
    simp only [step, if_pos k.fault, State.leave] at h
    split at h
    · rename_i hpc
      exact k.yield hpc h
    · cases h
  | yieldToReady w => exact hg.elim
  | finish w threw =>
    simp only [step, Option.ite_none_right_eq_some, State.leave] at h
    obtain ⟨⟨-, hthrew⟩, h⟩ := h
    split at h
    · rename_i hpc
      simp only [hpc, Pc.fiber, Option.all_some] at hthrew
      exact k.finish hpc (hg _ (by rw [hpc]; rfl)) hthrew h
    · cases h

/-! ### Wake-ups are kept -/

/-- The worker whose step it is. -/
def Act.actor : Act ω φ κ → Option ω
  | .enter w _ => some w
  | .create _ _ => none
  | .schedule _ => none
  | .work w _ => some w
  | .yieldToHold w => some w
  | .yieldToReady w => some w
  | .finish w _ => some w

/-- Other workers stay where they are, and no node is taken out. -/
def Keeps (actor : Option ω) (s t : State ω φ κ) : Prop :=
  (∀ w, actor ≠ some w → t.worker w = s.worker w) ∧ ∀ it ∈ s.fibers, it ∈ t.fibers

omit [DecidableEq φ] in
/-- What one worker does to itself. -/
theorem keeps_update (w : ω) (x : Worker φ κ) (hw : t.worker = Function.update s.worker w x)
    (hq : ∀ it ∈ s.fibers, it ∈ t.fibers) : Keeps (some w) s t := by
  refine ⟨fun w' hne => ?_, hq⟩
  rw [hw]
  apply Function.update_of_ne
  intro heq
  exact hne (congrArg some heq.symm)

omit [DecidableEq φ] [DecidableEq ω] in
theorem actor_eq_mover (a : Act ω φ κ) : a.actor = a.mover := by
  cases a <;> rfl

omit [DecidableEq ω] in
theorem mem_schedule (s : State ω φ κ) (nodes : List (FiberAndThread φ κ)) :
    ∀ it ∈ s.fibers, it ∈ (s.schedule nodes).fibers := by
  intro it hit
  simp only [State.schedule, scheduleAll_eq]
  exact List.mem_append_left _ hit

/-- The scan of a worker. -/
structure Scans (thread : ω → Int) (s t : State ω φ κ) (w : ω) (x : Fetched φ κ) : Prop where
  pc : s.pc w = .top
  fetch : fetch (thread w) s.isExec s.fibers = some x
  fibers : t.fibers = x.fibers
  worker : t.worker = Function.update s.worker w { s.worker w with pc := .chosen x.task }

/-- Every step is a scan or keeps what it is not about. -/
theorem step_keeps {thread : ω → Int} {a : Act ω φ κ} (h : step thread s a = some t) :
    Keeps a.actor s t ∨ ∃ w x, a.actor = some w ∧ Scans thread s t w x := by
  cases step_effect h with
  | fails | creates => exact .inl ⟨fun _ _ => rfl, fun _ hit => hit⟩
  | schedules => exact .inl ⟨fun _ _ => rfl, mem_schedule s _⟩
  | scans hpc hx => exact .inr ⟨_, _, rfl, hpc, hx, rfl, rfl⟩
  | readies => exact .inl (keeps_update _ _ rfl (mem_schedule s _))
  | rewrites hpc hr hrw hthrew hact =>
    rw [actor_eq_mover, hact.mover]
    exact .inl (keeps_update _ _ rfl fun _ hit => hit)
  | enters | runs | resets | makes | discards | exits | idles | backs | ends | empties | checks | holds =>
    exact .inl (keeps_update _ _ rfl fun _ hit => hit)

/-- Only the worker whose step it is moves. -/
theorem step_other {thread : ω → Int} {a : Act ω φ κ} (h : step thread s a = some t) {w : ω}
    (hw : a.actor ≠ some w) : t.worker w = s.worker w := by
  rcases step_keeps h with hkeeps | ⟨w', x, ha, hscan⟩
  · exact hkeeps.1 w hw
  · rw [hscan.worker]
    refine Function.update_of_ne ?_ ..
    intro heq
    exact hw (heq ▸ ha)

/-- A node leaves `m_fibers` only into the hands of a worker. -/
theorem step_queue {thread : ω → Int} {a : Act ω φ κ} (h : step thread s a = some t)
    {it : FiberAndThread φ κ} (hit : it ∈ s.fibers) :
    it ∈ t.fibers ∨ ∃ w, s.pc w = .top ∧ t.pc w = .chosen (some it) := by
  rcases step_keeps h with hkeeps | ⟨w, x, -, hscan⟩
  · exact .inl (hkeeps.2 it hit)
  · rcases List.mem_append.mp ((fetch_perm hscan.fetch).mem_iff.mp hit) with htask | hrest
    · refine .inr ⟨w, hscan.pc, ?_⟩
      rw [State.pc, hscan.worker, Function.update_self, Option.mem_toList.mp htask]
    · rw [hscan.fibers]
      exact .inl hrest

/-- A worker that is past the scan and outside of its fiber takes its own next step, or
stays where it is. -/
theorem step_own {thread : ω → Int} {a : Act ω φ κ} (k : Safe s) (h : step thread s a = some t)
    (hout : s.pc w ≠ .out) (hin : ∀ kd f, s.pc w ≠ .inside .running kd f) :
    t.pc w = s.pc w ∨ ∃ g, s.work thread w g = some t := by
  by_cases hact : a.actor = some w
  · right
    have hleave : ∀ op, s.leave w op ≠ some t := by
      intro op hl
      unfold State.leave at hl
      split at hl
      · rename_i hpc
        exact hin _ _ hpc
      · cases hl
    cases a with
    | enter w' i =>
      cases hact
      simp only [step, k.fault] at h
      split at h
      · rename_i hpc _
        exact absurd hpc hout
      · cases h
    | create f cb => cases hact
    | schedule nodes => cases hact
    | work w' g =>
      cases hact
      simp only [step, if_pos k.fault] at h
      exact ⟨g, h⟩
    | yieldToHold w' =>
      cases hact
      simp only [step, if_pos k.fault] at h
      exact absurd h (hleave _)
    | yieldToReady w' =>
      cases hact
      simp only [step, if_pos k.fault] at h
      exact absurd h (hleave _)
    | finish w' threw =>
      cases hact
      simp only [step, Option.ite_none_right_eq_some] at h
      obtain ⟨-, h⟩ := h
      exact absurd h (hleave _)
  · left
    simp only [State.pc, step_other h hact]

omit [DecidableEq ω] in
/-- A write of a fiber that succeeds brings the worker where it is to go. -/
theorem modify_pc {r : Fiber κ} (hr : s.fiber f = some r) {op : Fiber κ → Except Fault (Fiber κ)}
    {next : State ω φ κ → State ω φ κ} (h : s.modify f op next = some t) (hfault : t.fault = none)
    {pc : Pc φ κ} (hnext : ∀ x, (next x).pc w = pc) : t.pc w = pc := by
  rcases modify_cases h hr with ⟨r', -, rfl⟩ | ⟨e, he⟩
  · exact hnext _
  · simp only [State.modify, hr, he] at h
    cases h
    cases hfault

/-- What a step does to the wake-ups: a node that is put into `m_fibers` stays there until a
worker takes it, and that worker goes on to switch to the fiber. -/
structure WakeKept (s : State ω φ κ) (a : Act ω φ κ) (t : State ω φ κ) : Prop where
  pushed : ∀ nodes, a = .schedule nodes → ∀ it ∈ nodes, it.nonempty = true → it ∈ t.fibers
  queued : ∀ it ∈ s.fibers, it ∈ t.fibers ∨ ∃ w, s.pc w = .top ∧ t.pc w = .chosen (some it)
  chosen : ∀ w it f, s.pc w = .chosen (some it) → it.fiber = some f →
    t.pc w = s.pc w ∨ t.pc w = .inside .entry .task f
  entry : ∀ w f, s.pc w = .inside .entry .task f →
    t.pc w = s.pc w ∨ t.pc w = .inside .entered .task f
  entered : ∀ w f, s.pc w = .inside .entered .task f →
    t.pc w = s.pc w ∨ t.pc w = .inside .running .task f

theorem step_wakeKept {thread : ω → Int} {a : Act ω φ κ} (k : Safe s) (hg : Handshake s a)
    (h : step thread s a = some t) : WakeKept s a t := by
  have hfault := (step_safe k hg h).fault
  refine ⟨fun nodes ha it hit hne => ?_, fun it hit => step_queue h hit, fun w it f hpc hf => ?_,
    fun w f hpc => ?_, fun w f hpc => ?_⟩
  · subst ha
    simp only [step, Option.ite_none_right_eq_some] at h
    obtain ⟨-, h⟩ := h
    cases h
    simp only [State.schedule, scheduleAll_eq]
    exact List.mem_append_right _ (List.mem_filter.mpr ⟨hit, hne⟩)
  · rcases step_own (w := w) k h (by simp [hpc]) (by simp [hpc]) with hsame | ⟨g, hwork⟩
    · exact .inl hsame
    · simp only [State.work, hpc, State.choose, (k.chosen hpc hf).1] at hwork
      cases hwork
      right
      simp [State.pc, State.goto]
  · rcases step_own (w := w) k h (by simp [hpc]) (by simp [hpc]) with hsame | ⟨g, hwork⟩
    · exact .inl hsame
    · obtain ⟨r, hr, -⟩ := k.here hpc
      simp only [State.work, hpc] at hwork
      exact .inr (modify_pc hr hwork hfault fun x => by simp [State.pc, State.goto])
  · rcases step_own (w := w) k h (by simp [hpc]) (by simp [hpc]) with hsame | ⟨g, hwork⟩
    · exact .inl hsame
    · obtain ⟨r, hr, -⟩ := k.here hpc
      simp only [State.work, hpc] at hwork
      exact .inr (modify_pc hr hwork hfault fun x => by simp [State.pc, State.goto])

omit [DecidableEq φ] [DecidableEq ω] in
/-- A wake-up is in `m_fibers` or with a worker that has taken it to switch to the fiber. -/
theorem Safe.woken_iff (k : Safe s) (f : φ) : s.woken f = true ↔ f ∈ s.queued ∨
    ∃ w, (∃ it, s.pc w = .chosen (some it) ∧ it.fiber = some f) ∨ s.pc w = .inside .entry .task f := by
  constructor
  · intro hwoken
    by_contra hnone
    obtain ⟨hnq, htaken⟩ := not_or.mp hnone
    cases hr : s.fiber f with
    | none => cases hwoken.symm.trans (k.absent f hr).1
    | some r =>
      by_cases hfree : ∀ w, (s.pc w).fiber ≠ some f
      · exact hnq ((k.settled f r hr hfree).2.2.2.1.mp hwoken)
      · simp only [not_forall, not_not] at hfree
        obtain ⟨w, hw⟩ := hfree
        obtain ⟨r', hr', he⟩ := k.engaged w f hw
        rcases hpc : s.pc w with _ | _ | ft | ⟨st, kd, f'⟩ | _ <;> rw [hpc] at hw he
        · cases hw
        · cases hw
        · obtain ⟨it, rfl, hit⟩ := Option.bind_eq_some_iff.mp hw
          exact htaken ⟨w, .inl ⟨it, hpc, hit⟩⟩
        · cases hw
          cases st with
          | entry =>
            cases he.2.1.mp hwoken
            exact htaken ⟨w, .inr hpc⟩
          | entered => exact hnq (he.2.2.mp hwoken)
          | running => exact hnq (he.2.2.mp hwoken)
          | leaving => exact hnq (he.2.1.mp hwoken)
          | back => exact hnq (he.2.1.mp hwoken)
          | check => exact hnq (he.2.1.mp hwoken)
          | hold => exact hnq (he.2.2.mp hwoken)
        · cases hw
  · rintro (hq | ⟨w, ⟨it, hpc, hit⟩ | hpc⟩)
    · exact k.queued_woken hq
    · obtain ⟨r, -, he⟩ := k.engaged w f (by rw [hpc]; exact hit)
      rw [hpc] at he
      exact he.2.1
    · obtain ⟨r, -, he, -⟩ := k.here hpc
      exact he.2.1.mpr rfl

/-- What the handshake promises of a state. -/
structure Sound (thread : ω → Int) (s : State ω φ κ) : Prop where
  fault : s.fault = none
  /-- A worker about to switch to a fiber finds its context saved. -/
  saved : ∀ w kd f, s.pc w = .inside .entered kd f → ∃ r, s.fiber f = some r ∧ r.saved = true
  /-- From the scan to the write of HOLD a fiber is with one worker. -/
  exclusive : ∀ w w' f, (s.pc w).fiber = some f → (s.pc w').fiber = some f → w = w'
  woken : ∀ f, s.woken f = true ↔ f ∈ s.queued ∨
    ∃ w, (∃ it, s.pc w = .chosen (some it) ∧ it.fiber = some f) ∨ s.pc w = .inside .entry .task f
  kept : ∀ a t, Handshake s a → step thread s a = some t → WakeKept s a t

/-- **Wake before suspend.** In every run of the handshake no worker switches to a fiber
whose context is not saved, no two workers are in one fiber, and no wake-up is lost. -/
theorem handshake_reachable (thread : ω → Int) (acts : List (Act ω φ κ)) (s : State ω φ κ)
    (hm : Meets (step thread) Handshake start acts) (h : run (step thread) start acts = some s) :
    Sound thread s := by
  have k : Safe s := run_invariant (fun s a t k hg h => step_safe k hg h) start_safe hm h
  refine ⟨k.fault, fun w kd f hpc => ?_, k.unique, k.woken_iff, fun a t hg h => step_wakeKept k hg h⟩
  obtain ⟨r, hr, he, -⟩ := k.here hpc
  exact ⟨r, hr, he.1⟩

end

/-- Fiber 1 is woken on worker 0 before it yields, worker 1 passes it over and idles, and
worker 0 takes it again; then a callback that is woken while it runs. -/
def sampleActs : List (Act Nat Nat Nat) :=
  let rounds (w n : Nat) : List (Act Nat Nat Nat) := List.replicate n (.work w 20)
  [.enter 0 10, .enter 1 11, .create 1 7, .schedule [{ fiber := some 1 }]] ++ rounds 0 4 ++
    [.schedule [{ fiber := some 1 }]] ++ rounds 1 4 ++ [.yieldToHold 0] ++ rounds 0 8 ++
    [.finish 0 false] ++ rounds 0 3 ++ [.schedule [{ cb := some 8, thread := 0 }]] ++ rounds 0 4 ++
    [.schedule [{ fiber := some 20 }], .yieldToHold 0] ++ rounds 0 8

theorem handshake_reachable_sample :
    ∃ s, run (step fun w : Nat => w) start sampleActs = some s ∧ Sound (fun w : Nat => w) s :=
  ⟨_, rfl, handshake_reachable _ sampleActs _ (by decide) rfl⟩

end ShioSylar.Scheduler.Workers
