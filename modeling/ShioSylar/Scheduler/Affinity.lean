import ShioSylar.Scheduler.Executing

/-! The thread a task was scheduled for.

`schedule(fc, thread)` writes the thread into the node, and the node is gone when a worker has
taken it. What `run` puts back for a READY fiber is a node without a thread. `Pinned` keeps
beside the state the thread each task was scheduled with; `KeepsPin` asks that nobody of
another thread reaches such a node, that a task is scheduled with one thread only, and that a
`cb_fiber` is not waited for elsewhere when it gets its next callback. Then every worker that
has to do with a task is the one of its thread (`Affine`). -/
namespace ShioSylar.Scheduler.Workers
open Lib

variable {ω φ κ : Type}

/-- `home f` is the thread of the `schedule` call that brought the task that `f` runs. -/
structure Pinned (ω φ κ : Type) where
  state : State ω φ κ
  home : φ → Option Int

namespace Pinned

def start : Pinned ω φ κ := ⟨Workers.start, fun _ => none⟩

section
variable [DecidableEq ω] [DecidableEq φ]

/-- A worker goes from one point to another: a `cb_fiber` gets its task with the callback of a
node, and loses it where the callback has ended. -/
def handed (s : State ω φ κ) (home : φ → Option Int) : Pc φ κ → Pc φ κ → φ → Option Int
  | .chosen (some ft), .inside .entry .callback h => Function.update home h (some ft.thread)
  | .inside .check .callback f, .top =>
    if (s.fiber f).any (·.ended) then Function.update home f none else home
  | _, _ => home

/-- The tasks that a call of `schedule` brings. -/
def named (home : φ → Option Int) (nodes : List (FiberAndThread φ κ)) (f : φ) : Option Int :=
  (home f).or ((nodes.find? (·.fiber = some f)).map (·.thread))

/-- The threads of the tasks after a step from `s` to `t`. -/
def rehome (s t : State ω φ κ) (home : φ → Option Int) : Act ω φ κ → φ → Option Int
  | .schedule nodes => named home nodes
  | .work w _ => handed s home (s.pc w) (t.pc w)
  | _ => home

def step (thread : ω → Int) (p : Pinned ω φ κ) (a : Act ω φ κ) : Option (Pinned ω φ κ) :=
  (Workers.step thread p.state a).map fun t => ⟨t, rehome p.state t p.home a⟩

/-- A fiber that nobody is to run: no node has it, and no worker. -/
def Idle (s : State ω φ κ) (f : φ) : Prop :=
  (∀ it ∈ s.fibers, it.fiber ≠ some f) ∧ ∀ w, (s.pc w).task ≠ some f

/-- What keeps a task on its thread where a worker goes on. -/
def KeepsAt (thread : ω → Int) (p : Pinned ω φ κ) (w : ω) : Pc φ κ → Prop
  -- a node that `run` has put back is taken on the thread of its task
  | .top => ∀ x ∈ fetch (thread w) p.state.isExec p.state.fibers, ∀ it ∈ x.task, it.thread = -1 →
      ∀ f ∈ it.fiber, ∀ d ∈ p.home f, d = -1 ∨ d = thread w
  -- the `cb_fiber` that gets a callback is nobody else's
  | .chosen (some ft) => ft.cb.isSome → p.state.runnable (some ft) = none →
      ∀ h ∈ (p.state.worker w).cbFiber, Idle p.state h
  | _ => True

/-- What keeps a task on its thread. -/
def KeepsPin (thread : ω → Int) (p : Pinned ω φ κ) : Act ω φ κ → Prop
  -- a task is scheduled with one thread
  | .schedule nodes => ∀ ft ∈ nodes, ∀ f ∈ ft.fiber, p.home f = some ft.thread ∨
      (p.home f = none ∧ Idle p.state f ∧ ∀ it ∈ nodes, it.fiber = some f → it.thread = ft.thread)
  | .work w _ => KeepsAt thread p w (p.state.pc w)
  | _ => True

/-- Every node and every worker of a task is of its thread, as far as a node says one. -/
structure Affine (thread : ω → Int) (s : State ω φ κ) (home : φ → Option Int) : Prop where
  queue : ∀ it ∈ s.fibers, ∀ f d, it.fiber = some f → home f = some d → it.thread = -1 ∨ it.thread = d
  worker : ∀ w f d, (s.pc w).task = some f → home f = some d → d = -1 ∨ d = thread w
  chosen : ∀ w ft, s.pc w = .chosen (some ft) → ft.thread = -1 ∨ ft.thread = thread w

omit [DecidableEq ω] [DecidableEq φ] in
theorem start_affine (thread : ω → Int) :
    Affine thread (Workers.start : State ω φ κ) fun _ => none :=
  ⟨fun _ h => (nomatch h), fun _ _ _ h => (nomatch h), fun _ _ h => (nomatch h)⟩

variable {thread : ω → Int} {s t : State ω φ κ} {home home' : φ → Option Int} {w : ω} {f : φ}

omit [DecidableEq φ] in
/-- A worker moves. -/
theorem Affine.move (k : Affine thread s home) {x : Worker φ κ}
    (hw : t.worker = Function.update s.worker w x)
    (hqueue : ∀ it ∈ t.fibers, ∀ f d, it.fiber = some f → home' f = some d →
      it.thread = -1 ∨ it.thread = d)
    (hhome : ∀ w', w' ≠ w → ∀ f d, (s.pc w').task = some f → home' f = some d → home f = some d)
    (hworker : ∀ f d, x.pc.task = some f → home' f = some d → d = -1 ∨ d = thread w)
    (hchosen : ∀ ft, x.pc = .chosen (some ft) → ft.thread = -1 ∨ ft.thread = thread w) :
    Affine thread t home' := by
  refine ⟨hqueue, fun w' f d hf hd => ?_, fun w' ft hpc => ?_⟩
  · by_cases hww : w' = w
    · subst hww
      rw [pc_update_self hw] at hf
      exact hworker f d hf hd
    · rw [pc_update_of_ne hw hww] at hf
      exact k.worker w' f d hf (hhome w' hww f d hf hd)
  · by_cases hww : w' = w
    · subst hww
      rw [pc_update_self hw] at hpc
      exact hchosen ft hpc
    · rw [pc_update_of_ne hw hww] at hpc
      exact k.chosen w' ft hpc

omit [DecidableEq φ] in
/-- A worker moves and no task changes. -/
theorem Affine.moves (k : Affine thread s home) {x : Worker φ κ}
    (hw : t.worker = Function.update s.worker w x) (hfibers : t.fibers = s.fibers)
    (htask : ∀ f, x.pc.task = some f → (s.pc w).task = some f)
    (hchosen : ∀ ft, x.pc ≠ .chosen ft) : Affine thread t home := by
  refine k.move hw (hfibers ▸ k.queue) (fun _ _ _ _ _ h => h) (fun f d hf hd => ?_) fun ft hpc => ?_
  · exact k.worker w f d (htask f hf) hd
  · exact absurd hpc (hchosen _)

/-! ### `schedule` -/

omit [DecidableEq ω] in
theorem named_cases {nodes : List (FiberAndThread φ κ)} {d : Int}
    (h : named home nodes f = some d) :
    home f = some d ∨ (home f = none ∧ ∃ it ∈ nodes, it.fiber = some f ∧ it.thread = d) := by
  cases hf : home f with
  | some d' =>
    rw [named, hf, Option.some_or] at h
    exact .inl h
  | none =>
    rw [named, hf, Option.none_or, Option.map_eq_some_iff] at h
    obtain ⟨it, hfind, hd⟩ := h
    have hit : it.fiber = some f := by simpa using List.find?_some hfind
    exact .inr ⟨rfl, it, List.mem_of_find?_eq_some hfind, hit, hd⟩

omit [DecidableEq ω] in
/-- The tasks that a call brings get their threads. -/
theorem Affine.brings (k : Affine thread s home) {nodes : List (FiberAndThread φ κ)}
    (hg : KeepsPin thread ⟨s, home⟩ (.schedule nodes)) :
    Affine thread s (named home nodes) := by
  have hidle : ∀ {f d}, named home nodes f = some d →
      home f = some d ∨ Idle s f := by
    intro f d hd
    obtain hd | ⟨hnone, it, hit, hf, -⟩ := named_cases hd
    · exact .inl hd
    · obtain hsome | ⟨-, hidle, -⟩ := hg it hit f hf
      · cases hnone.symm.trans hsome
      · exact .inr hidle
  refine ⟨fun it hit f d hf hd => ?_, fun w f d hf hd => ?_, k.chosen⟩
  · obtain hd | hidle := hidle hd
    · exact k.queue it hit f d hf hd
    · exact absurd hf (hidle.1 it hit)
  · obtain hd | hidle := hidle hd
    · exact k.worker w f d hf hd
    · exact absurd hf (hidle.2 w)

omit [DecidableEq ω] in
/-- A node that a call puts in says the thread of its task. -/
theorem named_thread {nodes : List (FiberAndThread φ κ)}
    (hg : KeepsPin thread ⟨s, home⟩ (.schedule nodes)) {it : FiberAndThread φ κ} (hit : it ∈ nodes)
    (hf : it.fiber = some f) {d : Int}
    (hd : named home nodes f = some d) : it.thread = d := by
  obtain hsome | ⟨hnone, -, hall⟩ := hg it hit f hf
  · have hsome : home f = some it.thread := hsome
    rw [named, hsome, Option.some_or] at hd
    exact Option.some.inj hd
  · obtain hd | ⟨-, it', hit', hf', hd⟩ := named_cases hd
    · cases hnone.symm.trans hd
    · rw [← hd, hall it' hit' hf']

/-! ### The step -/

omit [DecidableEq ω] in
theorem rehome_work {g : φ} {pc pc' : Pc φ κ} (hpc : s.pc w = pc) (hpc' : t.pc w = pc') :
    rehome s t home (.work w g) = handed s home pc pc' := by
  rw [rehome, hpc, hpc']

omit [DecidableEq ω] in
theorem handed_inside (st st' : Stage) (kd kd' : Kind) (f f' : φ) :
    handed s home (.inside st kd f) (.inside st' kd' f') = home := by
  cases st <;> cases kd <;> rfl

omit [DecidableEq ω] in
/-- A worker that does not move hands nothing over. -/
theorem handed_self (pc : Pc φ κ) : handed s home pc pc = home := by
  cases pc with
  | out | top | exited => rfl
  | chosen ft => cases ft <;> rfl
  | inside st kd f => exact handed_inside st st kd kd f f

/-- A step inside a stage, by the worker or by the fiber. -/
theorem rehome_inside {a : Act ω φ κ} {st st' : Stage} {kd : Kind} {x : Worker φ κ}
    (ha : a.mover = some w) (hpc : s.pc w = .inside st kd f)
    (hw : t.worker = Function.update s.worker w x) (hx : x.pc = .inside st' kd f) :
    rehome s t home a = home := by
  cases a with
  | enter | yieldToHold | yieldToReady | finish => rfl
  | create | schedule => cases ha
  | work w' g =>
    cases ha
    rw [rehome_work hpc ((pc_update_self hw).trans hx)]
    exact handed_inside st st' kd kd f f

/-- A `cb_fiber` gets the callback of a node. -/
theorem Affine.hand (k : Affine thread s home) {ft : FiberAndThread φ κ} {x : Worker φ κ}
    (hpc : s.pc w = .chosen (some ft)) (hw : t.worker = Function.update s.worker w x)
    (hx : x.pc = .inside .entry .callback f) (hfibers : t.fibers = s.fibers) (hidle : Idle s f) :
    Affine thread t (Function.update home f (some ft.thread)) := by
  have hother : ∀ f' d, f' ≠ f → Function.update home f (some ft.thread) f' = some d →
      home f' = some d := by
    intro f' d hne hd
    rwa [Function.update_of_ne hne] at hd
  refine k.move hw (fun it hit f' d hf hd => ?_) (fun w' _ f' d hf hd => ?_) (fun f' d hf hd => ?_)
    fun ft' hft => ?_
  · rw [hfibers] at hit
    have hne : f' ≠ f := fun h => hidle.1 it hit (h ▸ hf)
    exact k.queue it hit f' d hf (hother f' d hne hd)
  · have hne : f' ≠ f := fun h => hidle.2 w' (h ▸ hf)
    exact hother f' d hne hd
  · rw [hx] at hf
    cases hf
    rw [Function.update_self] at hd
    cases hd
    exact k.chosen w ft hpc
  · cases hx.symm.trans hft

theorem step_affine {a : Act ω φ κ} (e : Executing s) (k : Affine thread s home)
    (hkeep : KeepsPin thread ⟨s, home⟩ a) (h : Effect thread s a t) :
    Affine thread t (rehome s t home a) := by
  cases h with
  | fails h =>
    cases a with
    | enter | create | yieldToHold | yieldToReady | finish => exact ⟨k.queue, k.worker, k.chosen⟩
    | schedule nodes =>
      have kn := k.brings hkeep
      exact ⟨kn.queue, kn.worker, kn.chosen⟩
    | work w g =>
      rw [rehome_work rfl rfl]
      exact (handed_self (s.pc w)).symm ▸ ⟨k.queue, k.worker, k.chosen⟩
  | enters hpc hi => exact k.moves rfl rfl (fun _ h => by cases h) (by simp)
  | creates hf => exact ⟨k.queue, k.worker, k.chosen⟩
  | @schedules nodes hok =>
    have kn := k.brings hkeep
    refine ⟨fun it hit f d hf hd => ?_, kn.worker, kn.chosen⟩
    simp only [State.schedule, scheduleAll_eq, List.mem_append, List.mem_filter] at hit
    obtain hit | ⟨hit, -⟩ := hit
    · exact kn.queue it hit f d hf hd
    · exact .inr (named_thread hkeep hit hf hd)
  | @scans w g x hpc hx =>
    obtain ⟨hrest, htask⟩ := fetch_mem hx
    rw [rehome_work hpc (pc_update_self rfl)]
    refine k.move rfl (fun it hit => k.queue it (hrest it hit)) (fun _ _ _ _ _ h => h)
      (fun f d hf hd => ?_) fun ft hft => ?_
    · obtain ⟨it, hit, hitf⟩ := Option.bind_eq_some_iff.mp hf
      have hmem := htask it hit
      have hthread : it.thread = -1 ∨ it.thread = thread w := hmem.2.1
      obtain hnone | hpin := k.queue it hmem.1 f d hitf hd
      · simp only [KeepsPin, KeepsAt, hpc] at hkeep
        exact hkeep x hx it hit hnone f hitf d hd
      · exact hpin ▸ hthread
    · exact (htask ft (Pc.chosen.inj hft)).2.1
  | @runs w g ft f hpc hrun =>
    rw [rehome_work hpc (pc_update_self rfl)]
    refine k.moves rfl rfl (fun f' hf' => ?_) (by simp)
    cases hf'
    rw [hpc]
    exact (Option.filter_eq_some_iff.mp hrun).1
  | @resets w g ft cb h r r' hpc hrun hcb hown hr hreset =>
    simp only [KeepsPin, KeepsAt, hpc] at hkeep
    rw [rehome_work hpc (pc_update_self rfl)]
    exact k.hand hpc rfl rfl rfl (hkeep (by rw [hcb]; rfl) hrun h hown)
  | @makes w g ft cb hpc hrun hcb hown hg =>
    have hno : ¬ s.shared g = true := by simp [State.shared, hg]
    rw [rehome_work hpc (pc_update_self rfl)]
    exact k.hand hpc rfl rfl rfl
      ⟨fun it hit hf => hno ((e.queue it hit).2 g hf), fun w hf => hno (e.task w g hf)⟩
  | @discards w g ft hpc hrun hcb =>
    rw [rehome_work hpc (pc_update_self rfl)]
    exact k.moves rfl rfl (fun _ h => by cases h) (by simp)
  | @exits w g i hpc hown hterm =>
    rw [rehome_work hpc (pc_update_self rfl)]
    exact k.moves rfl rfl (fun _ h => by cases h) (by simp)
  | @idles w g i hpc hown hterm =>
    rw [rehome_work hpc (pc_update_self rfl)]
    exact k.moves rfl rfl (fun _ h => by cases h) (by simp)
  | @rewrites _ w st st' kd f r r' hpc hr h hthrew hact =>
    rw [rehome_inside hact.mover hpc rfl rfl]
    exact k.moves rfl rfl (fun f' hf' => by rw [hpc]; exact hf') (by simp)
  | @backs w g kd f hpc =>
    rw [rehome_work hpc (pc_update_self rfl)]
    exact k.moves rfl rfl (fun f' hf' => by rw [hpc]; exact hf') (by simp)
  | @readies w g kd f r hpc hr hready hk =>
    have hsame : rehome s ((s.schedule [{ fiber := some f }]).leaves w kd) home (.work w g) = home := by
      rw [rehome_work hpc (pc_update_self rfl)]
      have hend : (s.fiber f).any (·.ended) = false := by simp [hr, Fiber.ended, hready]
      cases kd with
      | task | idle => rfl
      | callback => simp [handed, hend]
    rw [hsame]
    refine k.move rfl (fun it hit f' d hf hd => ?_) (fun _ _ _ _ _ h => h) (fun _ _ h => by cases h) (by simp)
    simp only [State.leaves, State.schedule, scheduleAll_eq, List.mem_append, List.mem_filter,
      List.mem_singleton] at hit
    obtain hit | ⟨rfl, -⟩ := hit
    · exact k.queue it hit f' d hf hd
    -- the node that `run` puts in has no thread
    · exact .inl rfl
  | @ends w g kd f r hpc hr hend hk =>
    have hsame : rehome s (s.goto w .top) home (.work w g) = home := by
      rw [rehome_work hpc (pc_update_self rfl)]
      cases kd with
      | task | idle => rfl
      | callback => exact absurd rfl hk
    rw [hsame]
    exact k.moves rfl rfl (fun _ h => by cases h) (by simp)
  | @empties w g f r hpc hr hend =>
    have hdone : rehome s ((s.put f { r with cb := none, saved := true, state := .init }).goto w .top) home
        (.work w g) = Function.update home f none := by
      rw [rehome_work hpc (pc_update_self rfl)]
      simp [handed, hr, hend]
    have hold : ∀ f' d, Function.update home f none f' = some d → home f' = some d := by
      intro f' d hd
      by_cases hne : f' = f
      · subst hne
        rw [Function.update_self] at hd
        cases hd
      · rwa [Function.update_of_ne hne] at hd
    rw [hdone]
    exact k.move rfl (fun it hit f' d hf hd => k.queue it hit f' d hf (hold f' d hd))
      (fun _ _ f' d _ hd => hold f' d hd) (fun _ _ h => by cases h) (by simp)
  | @checks w g kd f r hpc hr hready hend =>
    rw [rehome_inside rfl hpc rfl rfl]
    exact k.moves rfl rfl (fun f' hf' => by rw [hpc]; exact hf') (by simp)
  | @holds w g kd f r hpc hr =>
    rw [rehome_work hpc (pc_update_self rfl)]
    exact k.moves rfl rfl (fun _ h => by cases h) (by simp)

theorem pinned_affine (p : Pinned ω φ κ) (a : Act ω φ κ) (q : Pinned ω φ κ)
    (k : Executing p.state ∧ Affine thread p.state p.home) (hg : KeepsPin thread p a)
    (h : step thread p a = some q) : Executing q.state ∧ Affine thread q.state q.home := by
  obtain ⟨t, ht, rfl⟩ := Option.map_eq_some_iff.mp h
  have he := step_effect ht
  exact ⟨k.1.step he, step_affine k.1 k.2 hg he⟩

/-- **Affinity.** In every run that keeps the pins, a worker that is engaged with a task, from
before `swapIn` to the end of the segment, has the thread that the task was scheduled with. -/
theorem affinity_reachable (thread : ω → Int) (acts : List (Act ω φ κ)) (p : Pinned ω φ κ)
    (hm : Meets (step thread) (KeepsPin thread) start acts)
    (h : run (step thread) start acts = some p) (w : ω) (st : Stage) (kd : Kind) (f : φ) (d : Int)
    (hpc : p.state.pc w = .inside st kd f) (hkd : kd ≠ .idle) (hd : p.home f = some d)
    (hpin : d ≠ -1) : thread w = d := by
  obtain ⟨-, k⟩ := run_invariant pinned_affine ⟨start_executing, start_affine thread⟩ hm h
  have htask : (p.state.pc w).task = some f := by
    rw [hpc]
    exact if_neg hkd
  exact ((k.worker w f d htask hd).resolve_left hpin).symm

instance [Fintype ω] (s : State ω φ κ) (f : φ) : Decidable (Idle s f) := by
  unfold Idle
  infer_instance

instance [Fintype ω] (thread : ω → Int) (p : Pinned ω φ κ) (w : ω) :
    (pc : Pc φ κ) → Decidable (KeepsAt thread p w pc)
  | .top => inferInstanceAs (Decidable (∀ x ∈ fetch (thread w) p.state.isExec p.state.fibers,
      ∀ it ∈ x.task, it.thread = -1 → ∀ f ∈ it.fiber, ∀ d ∈ p.home f, d = -1 ∨ d = thread w))
  | .chosen (some ft) => inferInstanceAs (Decidable (ft.cb.isSome → p.state.runnable (some ft) = none →
      ∀ h ∈ (p.state.worker w).cbFiber, Idle p.state h))
  | .out | .chosen none | .inside _ _ _ | .exited => isTrue trivial

instance [Fintype ω] (thread : ω → Int) (p : Pinned ω φ κ) :
    (a : Act ω φ κ) → Decidable (KeepsPin thread p a)
  | .schedule nodes => inferInstanceAs (Decidable (∀ ft ∈ nodes, ∀ f ∈ ft.fiber,
      p.home f = some ft.thread ∨ (p.home f = none ∧ Idle p.state f ∧
        ∀ it ∈ nodes, it.fiber = some f → it.thread = ft.thread)))
  | .work w _ => inferInstanceAs (Decidable (KeepsAt thread p w (p.state.pc w)))
  | .enter _ _ | .create _ _ | .yieldToHold _ | .yieldToReady _ | .finish _ _ => isTrue trivial

end

/-- A callback scheduled for thread 1 runs on the worker of that thread and yields as READY. -/
def yieldedActs : List (Act (Fin 2) Nat Nat) :=
  [.enter 0 10, .enter 1 11, .schedule [{ cb := some 7, thread := 1 }], .work 0 20, .work 0 20,
    .work 0 20, .work 0 20, .yieldToReady 0, .work 0 20, .work 0 20, .work 0 20]

/-- The threads of the two workers. -/
def threadIds (w : Fin 2) : Int := w.val + 1

/-- Its own worker is the one that goes on with it. -/
theorem affinity_reachable_sample : ∃ p,
    run (step threadIds) start (yieldedActs ++ List.replicate 4 (.work 0 21)) = some p ∧
      p.state.pc 0 = .inside .running .task 20 ∧ threadIds 0 = 1 := by
  have hmeets : Meets (step threadIds) (KeepsPin threadIds) start
      (yieldedActs ++ List.replicate 4 (.work 0 21)) := by decide +kernel
  have hrun : ∃ p, run (step threadIds) start (yieldedActs ++ List.replicate 4 (.work 0 21)) = some p ∧
      p.state.pc 0 = .inside .running .task 20 ∧ p.home 20 = some 1 := ⟨_, rfl, rfl, rfl⟩
  obtain ⟨p, hp, hpc, hhome⟩ := hrun
  exact ⟨p, hp, hpc, affinity_reachable threadIds _ p hmeets hp 0 _ _ 20 1 hpc (by decide) hhome
    (by decide)⟩

/-- The other worker goes on with it. -/
theorem ready_moves : ∃ p,
    run (step threadIds) start (yieldedActs ++ List.replicate 4 (.work 1 21)) = some p ∧
      p.home 20 = some 1 ∧ p.state.pc 1 = .inside .running .task 20 ∧ threadIds 1 = 2 :=
  ⟨_, rfl, rfl, rfl, rfl⟩

end Pinned

end ShioSylar.Scheduler.Workers
