import ShioSylar.Lib.Generations
import ShioSylar.Scheduler.Segments

/-! A new fiber for every callback.

`Traced.fresh` is the scheduler with one worker that never finds a `cb_fiber`, so that each
callback task gets a fiber of its own. It follows `Traced.step` step by step: its fibers are
those of the other, each with how often it has been reset for another callback, and what the
callbacks do from one switch to the next is the same. -/
namespace ShioSylar.Scheduler.Workers
open Lib

variable {φ ψ κ : Type}

/-- The worker has no `cb_fiber`. -/
def State.unowned (s : State Unit φ κ) : State Unit φ κ :=
  { s with worker := fun w => { s.worker w with cbFiber := none } }

/-- A step in which a callback gets a new fiber. -/
def Traced.fresh [DecidableEq φ] (thread : Unit → Int) (p : Traced φ κ) (a : Act Unit φ κ) :
    Option (Traced φ κ) :=
  p.stepFrom thread p.state.unowned a

/-- What is seen of a segment: its callback, how it begins and how it ends, and no address. -/
def Event.seen : Event φ κ → Option (Event Unit κ)
  | .invoke n _ k cb => some (.invoke n () k cb)
  | .resume n _ => some (.resume n ())
  | .stop n _ how => some (.stop n () how)
  | .reset _ _ => none

/-- The trace of the segments. -/
def segments (trace : List (Event φ κ)) : List (Event Unit κ) := trace.filterMap (·.seen)

/-! ### Other names -/

def Pc.rename (name : φ → ψ) : Pc φ κ → Pc ψ κ
  | .out => .out
  | .top => .top
  | .chosen ft => .chosen (ft.map (·.rename name))
  | .inside st k f => .inside st k (name f)
  | .exited => .exited

def Act.rename (name : φ → ψ) : Act Unit φ κ → Act Unit ψ κ
  | .enter w i => .enter w (name i)
  | .create f cb => .create (name f) cb
  | .schedule nodes => .schedule (nodes.map (·.rename name))
  | .work w g => .work w (name g)
  | .yieldToHold w => .yieldToHold w
  | .yieldToReady w => .yieldToReady w
  | .finish w threw => .finish w threw

def Event.rename (name : φ → ψ) : Event φ κ → Event ψ κ
  | .invoke n f k cb => .invoke n (name f) k cb
  | .resume n f => .resume n (name f)
  | .stop n f how => .stop n (name f) how
  | .reset f cb => .reset (name f) cb

/-- The same step; a fiber that is made may be at any address. -/
def Act.Alike : Act Unit φ κ → Act Unit (φ × Nat) κ → Prop
  | .work _ _, .work _ _ => True
  | a, a' => a'.rename Prod.fst = a

/-! ### States that go together -/

/-- The second scheduler has a fiber of its own for each use of a fiber of the first. -/
structure Copies (gen : φ → Nat) (s : State Unit φ κ) (t : State Unit (φ × Nat) κ) : Prop where
  fibers : t.fibers = s.fibers.map (·.rename (latest gen))
  pc : t.pc () = (s.pc ()).rename (latest gen)
  idleFiber : (t.worker ()).idleFiber = (s.worker ()).idleFiber.map (latest gen)
  fiber : Follows gen s.fiber t.fiber none
  woken : Follows gen s.woken t.woken false
  active : t.activeThreadCount = s.activeThreadCount
  idle : t.idleThreadCount = s.idleThreadCount
  fault : t.fault = s.fault

theorem start_copies (gen : φ → Nat) : Copies gen (start : State Unit φ κ) start :=
  ⟨rfl, rfl, rfl, follows_const gen none, follows_const gen false, rfl, rfl, rfl⟩

section
variable {gen : φ → Nat} {s s' : State Unit φ κ} {t : State Unit (φ × Nat) κ} {f g : φ} {r : Fiber κ}

theorem Copies.unowned (k : Copies gen s t) : Copies gen s t.unowned :=
  ⟨k.fibers, k.pc, k.idleFiber, k.fiber, k.woken, k.active, k.idle, k.fault⟩

/-- The worker moves; what it has as its `cb_fiber` does not matter. -/
theorem Copies.move (k : Copies gen s t) (pc : Pc φ κ) (cb : Option φ) (cb' : Option (φ × Nat)) :
    Copies gen
      { s with worker := Function.update s.worker () { s.worker () with pc := pc, cbFiber := cb } }
      { t with
        worker := Function.update t.worker () { t.worker () with pc := pc.rename (latest gen), cbFiber := cb' } } := by
  refine ⟨k.fibers, ?_, ?_, k.fiber, k.woken, k.active, k.idle, k.fault⟩
  · simp [State.pc]
  · simpa using k.idleFiber

theorem Copies.goto (k : Copies gen s t) (pc : Pc φ κ) :
    Copies gen (s.goto () pc) (t.goto () (pc.rename (latest gen))) :=
  k.move pc _ _

/-- The worker is done with its fiber. -/
theorem Copies.leaves (k : Copies gen s t) (kd : Kind) : Copies gen (s.leaves () kd) (t.leaves () kd) :=
  k.move .top _ _

variable [DecidableEq φ]

theorem Copies.put (k : Copies gen s t) (f : φ) (r : Fiber κ) :
    Copies gen (s.put f r) (t.put (latest gen f) r) :=
  ⟨k.fibers, k.pc, k.idleFiber, k.fiber.update f (some r), k.woken, k.active, k.idle, k.fault⟩

omit [DecidableEq φ] in
theorem Copies.fiber_eq (k : Copies gen s t) (f : φ) : t.fiber (latest gen f) = s.fiber f := k.fiber.1 f

omit [DecidableEq φ] in
theorem Copies.isExec (k : Copies gen s t) (f : φ) : t.isExec (latest gen f) = s.isExec f := by
  rw [State.isExec, State.isExec, k.fiber_eq]

omit [DecidableEq φ] in
theorem Copies.shared (k : Copies gen s t) (f : φ) : t.shared (latest gen f) = s.shared f := by
  rw [State.shared, State.shared, k.fiber_eq]

omit [DecidableEq φ] in
theorem Copies.all_shared (k : Copies gen s t) (o : Option φ) :
    (o.map (latest gen)).all t.shared = o.all s.shared := by
  cases o with
  | none => rfl
  | some f => exact k.shared f

theorem Copies.schedule (k : Copies gen s t) (nodes : List (FiberAndThread φ κ)) :
    Copies gen (s.schedule nodes) (t.schedule (nodes.map (·.rename (latest gen)))) := by
  refine ⟨?_, k.pc, k.idleFiber, k.fiber, ⟨fun f => ?_, fun f m hm => ?_⟩, k.active, k.idle, k.fault⟩
  · simp only [State.schedule, k.fibers, scheduleAll_rename]
  · simp only [State.schedule, k.woken.1, List.any_map]
    congr 2
    funext it
    cases hf : it.fiber <;> simp [FiberAndThread.rename, hf, (latest_injective gen).eq_iff]
  · simp only [State.schedule, k.woken.2 f m hm, List.any_map, Bool.false_or, List.any_eq_false]
    intro it _
    cases hf : it.fiber with
    | none => simp [FiberAndThread.rename, hf]
    | some f' =>
      simp only [Function.comp, FiberAndThread.rename, hf, Option.map_some, decide_eq_true_eq, Option.some.injEq]
      intro h
      obtain ⟨rfl, rfl⟩ := Prod.mk.inj h
      exact Nat.lt_irrefl _ hm

/-- The same operation on a fiber. -/
theorem Copies.modify (k : Copies gen s t) {op : Fiber κ → Except Fault (Fiber κ)}
    {next : State Unit φ κ → State Unit φ κ} {next' : State Unit (φ × Nat) κ → State Unit (φ × Nat) κ}
    (hnext : ∀ {s t}, Copies gen s t → Copies gen (next s) (next' t)) (h : s.modify f op next = some s') :
    ∃ t', t.modify (latest gen f) op next' = some t' ∧ Copies gen s' t' := by
  unfold State.modify at h ⊢
  rw [k.fiber_eq]
  cases hr : s.fiber f with
  | none =>
    rw [hr] at h
    cases h
  | some r =>
    rw [hr] at h
    cases ho : op r with
    | ok r' =>
      simp only [ho, Option.some.injEq] at h ⊢
      subst h
      exact ⟨_, rfl, hnext (k.put f r')⟩
    | error e =>
      simp only [ho, Option.some.injEq] at h ⊢
      subst h
      exact ⟨_, rfl, k.fibers, k.pc, k.idleFiber, k.fiber, k.woken, k.active, k.idle, rfl⟩

omit [DecidableEq φ] in
theorem Copies.counts (k : Copies gen s t) {a i a' i' : Int} (ha : a' = a) (hi : i' = i) :
    Copies gen { s with activeThreadCount := a, idleThreadCount := i }
      { t with activeThreadCount := a', idleThreadCount := i' } :=
  ⟨k.fibers, k.pc, k.idleFiber, k.fiber, k.woken, ha, hi, k.fault⟩

omit [DecidableEq φ] in
theorem Copies.runnable (k : Copies gen s t) (ft : Option (FiberAndThread φ κ)) :
    t.runnable (ft.map (·.rename (latest gen))) = (s.runnable ft).map (latest gen) := by
  cases ft with
  | none => rfl
  | some ft =>
    cases hf : ft.fiber with
    | none => simp [State.runnable, FiberAndThread.rename, hf]
    | some f =>
      simp only [State.runnable, Option.map_some, Option.bind_some, FiberAndThread.rename, hf, Option.filter_some,
        k.fiber_eq]
      split <;> rfl

/-! ### The same step -/

/-- The `cb_fiber` of the worker is reset for the next callback. -/
def State.Resets (s : State Unit φ κ) : Prop :=
  ∃ ft cb f, s.pc () = .chosen (some ft) ∧ s.runnable (some ft) = none ∧ ft.cb = some cb ∧
    (s.worker ()).cbFiber = some f

theorem Copies.choose (k : Copies gen s t) (ht : (t.worker ()).cbFiber = none) {ft : Option (FiberAndThread φ κ)}
    (hpc : s.pc () = .chosen ft) (hown : ¬ s.Resets) (h : s.choose () ft g = some s') :
    ∃ t', t.choose () (ft.map (·.rename (latest gen))) (latest gen g) = some t' ∧ Copies gen s' t' := by
  have hcb : (ft.map (·.rename (latest gen))).bind (·.cb) = ft.bind (·.cb) := by
    cases ft <;> rfl
  unfold State.choose at h ⊢
  rw [k.runnable, hcb]
  cases hrun : s.runnable ft with
  | some f =>
    rw [hrun] at h
    cases h
    exact ⟨_, rfl, k.goto (.inside .entry .task f)⟩
  | none =>
    rw [hrun] at h
    cases hc : ft.bind (·.cb) with
    | some cb =>
      obtain ⟨ft, rfl⟩ : ∃ ft', ft = some ft' := by
        cases ft with
        | none => cases hc
        | some ft => exact ⟨ft, rfl⟩
      simp only [hc, Option.map_none, ht] at h ⊢
      cases hw : (s.worker ()).cbFiber with
      | some f => exact absurd ⟨ft, cb, f, hpc, hrun, hc, hw⟩ hown
      | none =>
        simp only [hw, k.fiber_eq] at h ⊢
        obtain ⟨hg, h⟩ := Option.ite_none_left_eq_some.mp h
        cases h
        rw [if_neg hg]
        refine ⟨_, rfl, ?_⟩
        exact (k.put g { cb := some cb, origin := .callback }).move (.inside .entry .callback g) _ _
    | none =>
      simp only [hc, Option.map_none] at h ⊢
      cases ft with
      | some ft =>
        cases h
        exact ⟨_, rfl, (k.goto .top).counts (congrArg (· - 1) k.active) k.idle⟩
      | none =>
        simp only [Option.map_none, Option.isSome_none, Bool.false_eq_true, if_false, k.idleFiber] at h ⊢
        cases hi : (s.worker ()).idleFiber with
        | none =>
          rw [hi] at h
          cases h
        | some i =>
          simp only [hi, Option.map_some, k.fiber_eq] at h ⊢
          split at h
          · rename_i hterm
            cases h
            rw [if_pos hterm]
            exact ⟨_, rfl, k.goto .exited⟩
          · rename_i hterm
            cases h
            rw [if_neg hterm]
            exact ⟨_, rfl, (k.goto (.inside .entry .idle i)).counts k.active (congrArg (· + 1) k.idle)⟩

theorem Copies.settle (k : Copies gen s t) {kd : Kind} (h : s.settle () kd f = some s') :
    ∃ t', t.settle () kd (latest gen f) = some t' ∧ Copies gen s' t' := by
  unfold State.settle at h ⊢
  rw [k.fiber_eq]
  cases hr : s.fiber f with
  | none =>
    rw [hr] at h
    cases h
  | some r =>
    simp only [hr, leaves_eq] at h ⊢
    split at h
    · rename_i hready
      cases h
      rw [if_pos hready]
      exact ⟨_, rfl, (k.schedule [{ fiber := some f }]).leaves kd⟩
    · rename_i hready
      rw [if_neg hready]
      split at h
      · rename_i hend
        rw [if_pos hend]
        split at h
        · rename_i hk
          rw [if_pos hk]
          exact k.modify (fun k => k.goto .top) h
        · rename_i hk
          cases h
          rw [if_neg hk]
          exact ⟨_, rfl, k.goto .top⟩
      · rename_i hend
        cases h
        rw [if_neg hend]
        exact ⟨_, rfl, k.goto (.inside .hold kd f)⟩

theorem Copies.work (k : Copies gen s t) {thread : Unit → Int} (ht : (t.worker ()).cbFiber = none)
    (hown : ¬ s.Resets) (h : s.work thread () g = some s') :
    ∃ t', t.work thread () (latest gen g) = some t' ∧ Copies gen s' t' := by
  unfold State.work at h ⊢
  rw [k.pc]
  cases hpc : s.pc () with
  | out =>
    rw [hpc] at h
    cases h
  | exited =>
    rw [hpc] at h
    cases h
  | top =>
    simp only [hpc, Pc.rename, k.fibers, fetch_rename k.isExec] at h ⊢
    cases hx : fetch (thread ()) s.isExec s.fibers with
    | none =>
      rw [hx] at h
      cases h
      exact ⟨_, rfl, rfl, k.pc, k.idleFiber, k.fiber, k.woken, k.active, k.idle, rfl⟩
    | some x =>
      simp only [hx] at h
      cases h
      obtain ⟨-, hpct, hidle, hfiber, hwoken, -, hi, hfault⟩ := k.goto (.chosen x.task)
      refine ⟨_, rfl, rfl, hpct, hidle, hfiber, hwoken, ?_, hi, hfault⟩
      simp [Fetched.rename, k.active]
  | chosen ft =>
    rw [hpc] at h
    exact k.choose ht hpc hown h
  | inside st kd f =>
    rw [hpc] at h
    cases st with
    | entry =>
      refine k.modify (fun {s t} k => ?_) h
      obtain ⟨hfibers, hpct, hidle, hfiber, hwoken, ha, hi, hfault⟩ := k.goto (.inside .entered kd f)
      exact ⟨hfibers, hpct, hidle, hfiber, hwoken.update f false, ha, hi, hfault⟩
    | entered => exact k.modify (fun k => k.goto (.inside .running kd f)) h
    | running => cases h
    | leaving => exact k.modify (fun k => k.goto (.inside .back kd f)) h
    | back =>
      simp only [Option.some.injEq, Pc.rename] at h ⊢
      subst h
      refine ⟨_, rfl, ?_⟩
      split
      · exact (k.goto (.inside .check kd f)).counts k.active (congrArg (· - 1) k.idle)
      · exact (k.goto (.inside .check kd f)).counts (congrArg (· - 1) k.active) k.idle
    | check => exact k.settle h
    | hold =>
      refine k.modify (fun k => ?_) h
      rw [leaves_eq, leaves_eq]
      exact k.leaves kd

theorem Copies.leave (k : Copies gen s t) {op : Fiber κ → Except Fault (Fiber κ)}
    (h : s.leave () op = some s') : ∃ t', t.leave () op = some t' ∧ Copies gen s' t' := by
  unfold State.leave at h ⊢
  rw [k.pc]
  split at h
  · rename_i kd f hpc
    rw [hpc]
    exact k.modify (fun k => k.goto (.inside .leaving kd f)) h
  · cases h

/-- A step that resets no fiber for another callback is the same step with the new names. -/
theorem Copies.step (k : Copies gen s t) {thread : Unit → Int} {a : Act Unit φ κ}
    (ht : (t.worker ()).cbFiber = none) (hown : (∃ g, a = .work () g) → ¬ s.Resets)
    (h : Workers.step thread s a = some s') :
    ∃ t', Workers.step thread t (a.rename (latest gen)) = some t' ∧ Copies gen s' t' := by
  have hleave : ∀ {p : Prop} [Decidable p] {op : Fiber κ → Except Fault (Fiber κ)},
      (if p then s.leave () op else none) = some s' →
      ∃ t', (if p then t.leave () op else none) = some t' ∧ Copies gen s' t' := by
    intro p _ op h
    obtain ⟨hp, h⟩ := Option.ite_none_right_eq_some.mp h
    rw [if_pos hp]
    exact k.leave h
  cases a with
  | enter w i =>
    simp only [Workers.step, Act.rename, k.fault, k.fiber_eq] at h ⊢
    split at h
    · rename_i hfault hpc hi
      have hpct : t.pc () = .out := k.pc.trans (congrArg (Pc.rename (latest gen)) hpc)
      cases h
      rw [hfault, hpct, hi]
      refine ⟨_, rfl, k.fibers, ?_, ?_, k.fiber.update i _, k.woken, k.active, k.idle, rfl⟩
      · simp [State.pc, Pc.rename]
      · simp
    · cases h
  | create f cb =>
    simp only [Workers.step, Act.rename, k.fault, k.fiber_eq] at h ⊢
    split at h
    · rename_i hfault hf
      cases h
      rw [hfault]
      exact ⟨_, rfl, k.fibers, k.pc, k.idleFiber, k.fiber.update f _, k.woken, k.active, k.idle, rfl⟩
    · cases h
  | schedule nodes =>
    simp only [Workers.step, Act.rename] at h ⊢
    obtain ⟨⟨hfault, hok⟩, h⟩ := Option.ite_none_right_eq_some.mp h
    cases h
    rw [if_pos]
    · exact ⟨_, rfl, k.schedule nodes⟩
    · refine ⟨k.fault.trans hfault, fun ft hft => ?_⟩
      obtain ⟨it, hit, rfl⟩ := List.mem_map.mp hft
      obtain ⟨hshared, hone⟩ := hok it hit
      refine ⟨?_, ?_⟩
      · rw [FiberAndThread.rename, k.all_shared]
        exact hshared
      · simpa [FiberAndThread.rename] using hone
  | work w g =>
    simp only [Workers.step, Act.rename, k.fault] at h ⊢
    obtain ⟨hfault, h⟩ := Option.ite_none_right_eq_some.mp h
    rw [if_pos hfault]
    exact k.work ht (hown ⟨g, rfl⟩) h
  | yieldToHold w =>
    simp only [Workers.step, Act.rename, k.fault] at h ⊢
    exact hleave h
  | yieldToReady w =>
    simp only [Workers.step, Act.rename, k.fault] at h ⊢
    exact hleave h
  | finish w threw =>
    have hshared : (t.pc w).fiber.all t.shared = (s.pc w).fiber.all s.shared := by
      rw [← k.all_shared, show t.pc w = (s.pc w).rename (latest gen) from k.pc]
      congr 1
      rcases s.pc w with _ | _ | ft | ⟨st, kd, f⟩ | _ <;> try rfl
      cases ft <;> rfl
    simp only [Workers.step, Act.rename, k.fault, hshared] at h ⊢
    exact hleave h

/-- A fiber that nobody has to do with makes room for another. -/
theorem Copies.renew (k : Copies gen s t) (hq : f ∉ s.queued) (hpc : (s.pc ()).fiber ≠ some f)
    (hidle : (s.worker ()).idleFiber ≠ some f) (hwoken : s.woken f = false) :
    Copies (renew gen f) { s with fiber := Function.update s.fiber f none } t := by
  have hnode : ∀ it : FiberAndThread φ κ, it.fiber ≠ some f →
      it.rename (latest gen) = it.rename (latest (Lib.renew gen f)) := by
    intro it hit
    cases hf : it.fiber with
    | none => simp [FiberAndThread.rename, hf]
    | some f' =>
      have hne : f' ≠ f := fun h => hit (hf.trans (congrArg some h))
      simp [FiberAndThread.rename, hf, latest_renew hne]
  refine ⟨?_, ?_, ?_, k.fiber.renew f, ?_, k.active, k.idle, k.fault⟩
  · rw [k.fibers]
    refine List.map_congr_left fun it hit => hnode it fun hf => ?_
    exact hq (List.mem_filterMap.mpr ⟨it, hit, hf⟩)
  · refine k.pc.trans ?_
    show _ = (s.pc ()).rename _
    rcases hpcs : s.pc () with _ | _ | ft | ⟨st, kd, f'⟩ | _ <;> rw [hpcs] at hpc
    · rfl
    · rfl
    · cases ft with
      | none => rfl
      | some ft => exact congrArg (fun it => Pc.chosen (some it)) (hnode ft hpc)
    · exact congrArg (Pc.inside st kd) (latest_renew fun h => hpc (congrArg some h)).symm
    · rfl
  · refine k.idleFiber.trans ?_
    show _ = (s.worker ()).idleFiber.map _
    cases hi : (s.worker ()).idleFiber with
    | none => rfl
    | some i => exact congrArg some (latest_renew fun h => hidle (hi.trans (congrArg some h))).symm
  · have hfollows := k.woken.renew f
    rwa [← hwoken, Function.update_eq_self, hwoken] at hfollows

/-- The first scheduler resets its `cb_fiber`, the second makes a fiber. -/
theorem Copies.resets (k : Copies gen s t) (o : Orderly s) {thread : Unit → Int} (ht : (t.worker ()).cbFiber = none)
    (hres : s.Resets) (h : Workers.step thread s (.work () g) = some s') :
    ∃ f cb t', (∀ p : Traced φ κ, p.event s (.work () g) = some (.reset f (some cb))) ∧
      Workers.step thread t (.work () (latest (Lib.renew gen f) f)) = some t' ∧ Copies (Lib.renew gen f) s' t' := by
  obtain ⟨ft, cb, f, hpc, hrun, hcb, hown⟩ := hres
  have hout : ∀ st kd f, s.pc () ≠ .inside st kd f := fun st kd f h => nomatch hpc.symm.trans h
  obtain ⟨horigin, -⟩ := o.owned.cbFiber () f hown
  obtain ⟨r, hr, horig⟩ := Option.map_eq_some_iff.mp horigin
  have hinit := o.sole.callback () f r hown hr fun w' hat => by
    obtain ⟨-, st, hin⟩ := o.owned.cb_engaged hown hat
    exact hout st _ f hin
  have hwoken := o.waking.resting_not_woken o.sole o.owned hown hr fun st => hout st _ f
  have hq : f ∉ s.queued := fun hq => nomatch hwoken.symm.trans (o.waking.queued f hq)
  have hidle : (s.worker ()).idleFiber ≠ some f := fun hi =>
    nomatch horigin.symm.trans (o.owned.idleFiber () f hi).1
  have hat : (s.pc ()).fiber ≠ some f := by
    rw [hpc]
    exact fun hf => (o.owned.chosen () ft f hpc hf).2 () hown
  have hcopies := (k.renew hq hat hidle hwoken).put f { cb := some cb, origin := .callback }
  -- the reset fiber is as a new one
  have hreset : r.reset (some cb) = .ok { cb := some cb, origin := .callback } := by
    rw [Fiber.reset, if_pos (.inr (.inr hinit)), ← horig]
  have hs : Workers.step thread s (.work () g) =
      some ((s.put f { cb := some cb, origin := .callback }).goto () (.inside .entry .callback f)) := by
    rw [Workers.step, if_pos o.sole.fault, State.work, hpc]
    simp only [State.choose, hrun, Option.bind_some, hcb, hown, State.modify, hr, hreset]
    rfl
  cases hs.symm.trans h
  have hnew : t.fiber (latest (Lib.renew gen f) f) = none := by
    refine k.fiber.2 f _ ?_
    simp [Lib.renew]
  have hrunt : t.runnable (some (ft.rename (latest gen))) = none := by
    have h := k.runnable (some ft)
    rwa [hrun] at h
  have hpct : t.pc () = .chosen (some (ft.rename (latest gen))) := by
    rw [k.pc, hpc]
    rfl
  have hcbt : (ft.rename (latest gen)).cb = some cb := hcb
  refine ⟨f, cb, { t.put (latest (Lib.renew gen f) f) { cb := some cb, origin := .callback } with
    worker := Function.update t.worker () { t.worker () with
      pc := .inside .entry .callback (latest (Lib.renew gen f) f)
      cbFiber := some (latest (Lib.renew gen f) f) } },
    fun p => by simp [Traced.event, hpc, hrun, hcb, hown], ?_, ?_⟩
  · rw [Workers.step, if_pos (k.fault.trans o.sole.fault), State.work, hpct]
    simp only [State.choose, hrunt, Option.bind_some, hcbt, ht, hnew]
    rfl
  · rw [State.put, Function.update_idem] at hcopies
    exact hcopies.move (.inside .entry .callback f) (s.worker ()).cbFiber (some (latest (Lib.renew gen f) f))

/-! ### The same segments -/

omit [DecidableEq φ] in
theorem countP_segments (trace : List (Event φ κ)) :
    (segments trace).countP (·.isInvoke) = trace.countP (·.isInvoke) := by
  rw [segments, List.countP_filterMap]
  refine List.countP_congr fun ev _ => ?_
  cases ev <;> simp [Event.seen, Event.isInvoke]

omit [DecidableEq φ] in
theorem segments_append (trace : List (Event φ κ)) (ev : Event φ κ) :
    segments (trace ++ [ev]) = segments trace ++ ev.seen.toList := by
  rw [segments, segments, List.filterMap_append]
  cases h : ev.seen <;> simp [h]

/-- The two schedulers, and what runs on their fibers. -/
structure Mirrors (gen : φ → Nat) (p : Traced φ κ) (q : Traced (φ × Nat) κ) : Prop where
  copies : Copies gen p.state q.state
  stack : Follows gen p.stack q.stack none
  segments : segments q.trace = segments p.trace

omit [DecidableEq φ] in
theorem start_mirrors (gen : φ → Nat) : Mirrors gen (Traced.start : Traced φ κ) Traced.start :=
  ⟨start_copies gen, follows_const gen none, rfl⟩

variable {p : Traced φ κ} {q : Traced (φ × Nat) κ}

omit [DecidableEq φ] in
/-- What happens at the same step is the same. -/
theorem Mirrors.event (m : Mirrors gen p q) {a : Act Unit φ κ} (k : Copies gen s t)
    (ht : (t.worker ()).cbFiber = none) (hown : (∃ g, a = .work () g) → ¬ s.Resets) :
    q.event t (a.rename (latest gen)) = (p.event s a).map (·.rename (latest gen)) := by
  have hstops : ∀ how, q.stops t how = (p.stops s how).map (·.rename (latest gen)) := by
    intro how
    unfold Traced.stops
    rw [k.pc]
    rcases s.pc () with _ | _ | ft | ⟨st, kd, f⟩ | _ <;> try rfl
    cases st <;> try rfl
    simp only [Pc.rename, m.stack.1]
    cases p.stack f <;> rfl
  have hcount : q.trace.countP (·.isInvoke) = p.trace.countP (·.isInvoke) := by
    rw [← countP_segments, m.segments, countP_segments]
  cases a with
  | enter | create | schedule => rfl
  | yieldToHold w => exact hstops .hold
  | yieldToReady w => exact hstops .ready
  | finish w threw => exact hstops _
  | work w g =>
    have hown := hown ⟨g, rfl⟩
    simp only [Traced.event, Act.rename, k.pc]
    cases hpc : s.pc () with
    | out | top | exited => rfl
    | chosen ft =>
      -- neither finds a `cb_fiber` to reset
      have hnone : ∀ {f}, s.runnable ft = none → (∃ cb, ft.bind (·.cb) = some cb) →
          (s.worker ()).cbFiber ≠ some f := by
        rintro f hrun ⟨cb, hcb⟩ hw
        cases ft with
        | none => cases hcb
        | some ft => exact hown ⟨ft, cb, f, hpc, hrun, hcb, hw⟩
      simp only [Pc.rename, ht]
      split
      · rename_i heq
        cases heq
      · split
        · rename_i cb f hrun hcb hw
          exact absurd hw (hnone hrun ⟨cb, hcb⟩)
        · rfl
    | inside st kd f =>
      cases st with
      | entry | running | leaving | back | hold => rfl
      | entered =>
        simp only [Pc.rename, m.stack.1, k.fiber_eq, hcount]
        cases p.stack f <;> rfl
      | check =>
        cases kd with
        | task | idle => rfl
        | callback =>
          have hended : t.ended (latest gen f) = s.ended f := by rw [State.ended, State.ended, k.fiber_eq]
          simp only [Pc.rename, hended]
          cases s.ended f <;> rfl

/-- Both record what happens. -/
theorem Mirrors.add (m : Mirrors gen p q) {t' : State Unit (φ × Nat) κ} (k : Copies gen s' t')
    (e : Option (Event φ κ)) (cbs cbs' : List κ) :
    Mirrors gen (p.add s' e cbs) (q.add t' (e.map (·.rename (latest gen))) cbs') := by
  cases e with
  | none => exact ⟨k, m.stack, by simpa [Traced.add] using m.segments⟩
  | some ev =>
    refine ⟨k, ?_, ?_⟩
    · cases ev with
      | invoke n f kd cb => exact m.stack.update f (some n)
      | reset f cb => exact m.stack.update f none
      | resume n f => exact m.stack
      | stop n f how => exact m.stack
    · have hseen : (ev.rename (latest gen)).seen = ev.seen := by cases ev <;> rfl
      rw [Traced.add, Traced.add, Option.map_some, Option.toList_some, Option.toList_some, segments_append,
        segments_append, hseen, m.segments]

omit [DecidableEq φ] in
theorem alike_rename (gen : φ → Nat) (a : Act Unit φ κ) : a.Alike (a.rename (latest gen)) := by
  cases a with
  | schedule nodes =>
    have hnode : ∀ it : FiberAndThread φ κ, (it.rename (latest gen)).rename Prod.fst = it := by
      rintro ⟨_ | f, cb, thr⟩
      · rfl
      · rfl
    show Act.schedule ((nodes.map _).map _) = Act.schedule nodes
    rw [List.map_map, show _ ∘ _ = id from funext hnode, List.map_id]
  | work w g => trivial
  | enter | create | yieldToHold | yieldToReady | finish => rfl

/-- Each step has one that makes a fiber where it resets one. -/
theorem Mirrors.step {thread : Unit → Int} {a : Act Unit φ κ} {p' : Traced φ κ} (m : Mirrors gen p q)
    (k : Recorded p) (hg : Once p.state a) (h : p.step thread a = some p') :
    ∃ a' q' gen', a.Alike a' ∧ q.fresh thread a' = some q' ∧ Mirrors gen' p' q' := by
  obtain ⟨s', hs, hfault, rfl⟩ := k.step_eq hg h
  have hcopies := m.copies.unowned
  have hfresh : ∀ {a' t'}, Workers.step thread q.state.unowned a' = some t' → t'.fault = none →
      q.fresh thread a' = some (q.add t' (q.event q.state.unowned a') a'.callbacks) := by
    intro a' t' ht hf
    rw [Traced.fresh, Traced.stepFrom, ht, Option.map_some, hf]
    rfl
  by_cases hres : (∃ g, a = .work () g) ∧ p.state.Resets
  · obtain ⟨⟨g, rfl⟩, hres⟩ := hres
    obtain ⟨f, cb, t', hev, ht, hc⟩ := hcopies.resets k.orderly rfl hres hs
    have hnone : q.event q.state.unowned (.work () (latest (renew gen f) f)) = none := by
      obtain ⟨ft, cb, f, hpc, -⟩ := hres
      have hpct : q.state.unowned.pc () = .chosen (some (ft.rename (latest gen))) :=
        hcopies.pc.trans (congrArg (Pc.rename (latest gen)) hpc)
      have hown : (q.state.unowned.worker ()).cbFiber = none := rfl
      simp [Traced.event, hpct, hown]
    refine ⟨.work () (latest (renew gen f) f), _, renew gen f, trivial, hfresh ht (hc.fault.trans hfault), hc, ?_, ?_⟩
    · rw [hev p, hnone]
      exact m.stack.renew f
    · rw [hev p, hnone]
      rw [Traced.add, Traced.add, Option.toList_none, List.append_nil, Option.toList_some, segments_append]
      exact m.segments.trans (List.append_nil _).symm
  · have hown : (∃ g, a = .work () g) → ¬ p.state.Resets := fun hw hr => hres ⟨hw, hr⟩
    obtain ⟨t', ht, hc⟩ := hcopies.step rfl hown hs
    refine ⟨_, _, gen, alike_rename gen a, hfresh ht (hc.fault.trans hfault), ?_⟩
    rw [m.event hcopies rfl hown]
    exact m.add hc _ _ _

/-! ### Every run -/

omit [DecidableEq φ] in
theorem event_reset {a : Act Unit φ κ} {cb : κ} (h : p.event s a = some (.reset f (some cb))) :
    (s.worker ()).cbFiber = some f := by
  have hstops : ∀ how, p.stops s how ≠ some (.reset f (some cb)) := by
    intro how hs
    unfold Traced.stops at hs
    split at hs
    · obtain ⟨n, -, heq⟩ := Option.map_eq_some_iff.mp hs
      cases heq
    · cases hs
  unfold Traced.event at h
  split at h
  · split at h
    · split at h
      · rename_i hw
        cases h
        exact hw
      · cases h
    · split at h <;> cases h
    · split at h <;> cases h
    · cases h
  · exact absurd h (hstops _)
  · exact absurd h (hstops _)
  · exact absurd h (hstops _)
  · cases h

/-- No fiber is reset for another callback where each gets a new one. -/
theorem fresh_resets {thread : Unit → Int} {acts : List (Act Unit φ κ)}
    (h : run (Traced.fresh thread) Traced.start acts = some p) (f : φ) (cb : κ) :
    .reset f (some cb) ∉ p.trace := by
  have hstep : ∀ (p : Traced φ κ) (a : Act Unit φ κ) (q : Traced φ κ), (∀ f cb, .reset f (some cb) ∉ p.trace) →
      p.fresh thread a = some q → ∀ f cb, .reset f (some cb) ∉ q.trace := by
    intro p a q hp hq f cb
    obtain ⟨t, -, rfl⟩ := Option.map_eq_some_iff.mp hq
    split
    · exact hp f cb
    · rw [Traced.add, List.mem_append, not_or]
      refine ⟨hp f cb, fun hmem => ?_⟩
      have hown := event_reset (Option.mem_toList.mp hmem)
      cases hown
  exact run_preserves hstep (fun _ _ => List.not_mem_nil) h f cb

/-- **Nobody sees that a `cb_fiber` is used again.** With one worker and one wake-up for each
suspension no assertion fails, a fiber is reset only when its last callback has ended, an
invocation goes on only in the fiber where it was suspended, each callback that was scheduled
is invoked once or waits, and the segments are those of the scheduler that makes a fiber for
every callback. -/
theorem reuse_unobservable (thread : Unit → Int) (acts : List (Act Unit φ κ)) (p : Traced φ κ)
    (hm : Meets (Traced.step thread) Traced.Once Traced.start acts)
    (h : run (Traced.step thread) Traced.start acts = some p) :
    p.state.fault = none ∧
    (∀ f, (life p.trace f).isSome) ∧
    (∀ xs f cb ys, p.trace = xs ++ .reset f cb :: ys → ∃ n, life xs f = some (.ended n)) ∧
    (∀ xs n f ys, p.trace = xs ++ .resume n f :: ys → life xs f = some (.suspended n)) ∧
    p.scheduled.Perm (invoked p.trace ++ p.state.pending) ∧
    ∃ acts' q, List.Forall₂ Act.Alike acts acts' ∧ run (Traced.fresh thread) Traced.start acts' = some q ∧
      segments q.trace = segments p.trace := by
  have k := recorded_reachable hm h
  have hlife : ∀ f, (life p.trace f).isSome := fun f => by
    obtain ⟨l, hl, -⟩ := k.living.lives f
    rw [hl]
    rfl
  refine ⟨k.orderly.sole.fault, hlife, fun xs f cb ys heq => ?_, fun xs n f ys heq => ?_, k.handed.kept, ?_⟩
  · obtain ⟨l, hl, hnext⟩ := life_before (hlife f) heq
    cases l with
    | ended n => exact ⟨n, hl⟩
    | fresh | running | suspended => cases hnext
  · obtain ⟨l, hl, hnext⟩ := life_before (hlife f) heq
    cases l with
    | suspended m =>
      simp only [Life.next] at hnext
      split at hnext
      · rename_i hnm
        exact hnm ▸ hl
      · cases hnext
    | fresh | running | ended => cases hnext
  · have hsim : ∀ (p : Traced φ κ) (a : Act Unit φ κ) (p' : Traced φ κ) (q : Traced (φ × Nat) κ),
        (Recorded p ∧ ∃ gen, Mirrors gen p q) → p.Once a → p.step thread a = some p' →
        ∃ a' q', a.Alike a' ∧ q.fresh thread a' = some q' ∧ Recorded p' ∧ ∃ gen, Mirrors gen p' q' := by
      rintro p a p' q ⟨k, gen, m⟩ hg hp
      obtain ⟨a', q', gen', halike, hq, m'⟩ := m.step k hg hp
      exact ⟨a', q', halike, hq, k.step hg hp, gen', m'⟩
    obtain ⟨acts', q, halike, hq, -, gen, m⟩ := run_simulates hsim ⟨start_recorded, _, start_mirrors fun _ => 0⟩ hm h
    exact ⟨acts', q, halike, hq, m.segments⟩

end

/-- Steps of the worker, with the address for a new fiber. -/
def works (n g : Nat) : List (Act Unit Nat Nat) := List.replicate n (.work () g)

/-- Callbacks 7, 8 and 9: the first suspends and throws, the second returns and leaves its fiber
to the third, which yields as READY and returns. -/
def reuseActs : List (Act Unit Nat Nat) :=
  [.enter () 10, .schedule [{ cb := some 7 }, { cb := some 8 }, { cb := some 9 }]] ++ works 4 20 ++
    [.yieldToHold ()] ++ works 4 20 ++ [.schedule [{ fiber := some 20 }]] ++ works 4 21 ++
    [.finish () false] ++ works 7 21 ++ [.yieldToReady ()] ++ works 7 21 ++ [.finish () true] ++
    works 7 21 ++ [.finish () false] ++ works 3 21

theorem reuse_unobservable_sample : ∃ p, run (Traced.step fun _ => 1) Traced.start reuseActs = some p ∧
    p.state.fault = none ∧
    (∀ f, (life p.trace f).isSome) ∧
    (∀ xs f cb ys, p.trace = xs ++ .reset f cb :: ys → ∃ n, life xs f = some (.ended n)) ∧
    (∀ xs n f ys, p.trace = xs ++ .resume n f :: ys → life xs f = some (.suspended n)) ∧
    p.scheduled.Perm (invoked p.trace ++ p.state.pending) ∧
    ∃ acts' q, List.Forall₂ Act.Alike reuseActs acts' ∧
      run (Traced.fresh fun _ => 1) Traced.start acts' = some q ∧ segments q.trace = segments p.trace :=
  ⟨_, rfl, reuse_unobservable (fun _ => 1) reuseActs _ (by decide) rfl⟩

end ShioSylar.Scheduler.Workers
