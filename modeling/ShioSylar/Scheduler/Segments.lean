import ShioSylar.Scheduler.Once

/-! What runs on the fibers of one worker.

`MainFunc` calls the callback of its fiber, and what the callback does from one switch to the
next is a segment. A context made by `makecontext` starts `MainFunc`, any other goes on in the
invocation whose frames are on the fiber's stack: `Traced.stack` says which one that is, and
`Traced.trace` records each start, switch and end, and each `reset`. -/
namespace ShioSylar.Scheduler.Workers
open Lib

variable {φ κ : Type}

/-- A callback is numbered by its invocation. -/
inductive Event (φ κ : Type) where
  | invoke (n : Nat) (f : φ) (k : Kind) (cb : Option κ)
  | resume (n : Nat) (f : φ)
  | stop (n : Nat) (f : φ) (how : Ending)
  | reset (f : φ) (cb : Option κ)
  deriving DecidableEq

namespace Event

def fiber : Event φ κ → φ
  | invoke _ f _ _ | resume _ f | stop _ f _ | reset f _ => f

/-- The stacks after it. -/
def stack [DecidableEq φ] (stack : φ → Option Nat) : Event φ κ → φ → Option Nat
  | invoke n f _ _ => Function.update stack f (some n)
  | reset f _ => Function.update stack f none
  | resume _ _ | stop _ _ _ => stack

/-- The callback task that is invoked. -/
def task : Event φ κ → Option κ
  | invoke _ _ .callback cb => cb
  | _ => none

def isInvoke : Event φ κ → Bool
  | invoke _ _ _ _ => true
  | _ => false

end Event

/-- The scheduler with one worker, and what runs on its fibers. -/
structure Traced (φ κ : Type) where
  state : State Unit φ κ
  /-- The invocation on a fiber's stack; `none` where `MainFunc` has not begun. -/
  stack : φ → Option Nat
  trace : List (Event φ κ)
  /-- The callbacks that were put into `m_fibers`. -/
  scheduled : List κ

/-- The callbacks that a step puts into `m_fibers`. -/
def Act.callbacks {ω : Type} : Act ω φ κ → List κ
  | .schedule nodes => nodes.filterMap (·.cb)
  | _ => []

namespace Traced

def start : Traced φ κ := ⟨Workers.start, fun _ => none, [], []⟩

variable [DecidableEq φ]

/-- The segment of the fiber that runs is over. -/
def stops (p : Traced φ κ) (s : State Unit φ κ) (how : Ending) : Option (Event φ κ) :=
  match s.pc () with
  | .inside .running _ f => (p.stack f).map fun n => .stop n f how
  | _ => none

/-- What happens at a step from the state. -/
def event (p : Traced φ κ) (s : State Unit φ κ) : Act Unit φ κ → Option (Event φ κ)
  | .work _ _ =>
    match s.pc () with
    | .chosen ft =>
      match s.runnable ft, ft.bind (·.cb), (s.worker ()).cbFiber with
      | none, some cb, some f => some (.reset f (some cb))
      | _, _, _ => none
    | .inside .entered k f =>
      match p.stack f with
      | none => some (.invoke (p.trace.countP (·.isInvoke)) f k ((s.fiber f).bind (·.cb)))
      | some n => some (.resume n f)
    | .inside .check .callback f => if s.ended f then some (.reset f none) else none
    | _ => none
  | .yieldToHold _ => p.stops s .hold
  | .yieldToReady _ => p.stops s .ready
  | .finish _ threw => p.stops s (if threw then .threw else .returned)
  | _ => none

/-- What happened is recorded. -/
def add (p : Traced φ κ) (t : State Unit φ κ) (e : Option (Event φ κ)) (cbs : List κ) : Traced φ κ where
  state := t
  stack := e.elim p.stack (Event.stack p.stack)
  trace := p.trace ++ e.toList
  scheduled := p.scheduled ++ cbs

/-- A step from the state, recorded unless it failed. -/
def stepFrom (thread : Unit → Int) (p : Traced φ κ) (s : State Unit φ κ) (a : Act Unit φ κ) :
    Option (Traced φ κ) :=
  (Workers.step thread s a).map fun t =>
    if t.fault.isSome then { p with state := t } else p.add t (p.event s a) a.callbacks

def step (thread : Unit → Int) (p : Traced φ κ) (a : Act Unit φ κ) : Option (Traced φ κ) :=
  p.stepFrom thread p.state a

end Traced

/-! ### The life of a fiber -/

/-- What a fiber has come to with its callback. -/
inductive Life where
  | fresh | running (n : Nat) | suspended (n : Nat) | ended (n : Nat)
  deriving DecidableEq

/-- A callback is invoked once, goes on only where it was suspended, and ends before the fiber
is reset for the next one. -/
def Life.next : Life → Event φ κ → Option Life
  | .fresh, .invoke n _ _ _ => some (.running n)
  | .running n, .stop m _ how => if m = n then some (if how.ends then .ended n else .suspended n) else none
  | .suspended n, .resume m _ => if m = n then some (.running n) else none
  | .ended n, .reset _ cb => some (if cb.isSome then .fresh else .ended n)
  | _, _ => none

def life [DecidableEq φ] (trace : List (Event φ κ)) (f : φ) : Option Life :=
  (trace.filter (·.fiber = f)).foldlM Life.next .fresh

/-- The callback tasks that were invoked. -/
def invoked (trace : List (Event φ κ)) : List κ := trace.filterMap (·.task)

/-- The callback that a worker at this point has taken and not invoked. -/
def Pc.hand (fiber : φ → Option (Fiber κ)) : Pc φ κ → Option κ
  | .chosen ft => ft.bind (·.cb)
  | .inside .entry .callback f | .inside .entered .callback f => (fiber f).bind (·.cb)
  | _ => none

def State.inHand (s : State Unit φ κ) : Option κ := (s.pc ()).hand s.fiber

/-- The callbacks that wait to be invoked. -/
def State.pending (s : State Unit φ κ) : List κ := s.inHand.toList ++ s.fibers.filterMap (·.cb)

/-! ### Where a life is -/

section
variable [DecidableEq φ] {p : Traced φ κ} {s t : State Unit φ κ} {f : φ} {r : Fiber κ} {e : Option (Event φ κ)}
  {cbs : List κ}

theorem life_append (trace : List (Event φ κ)) (e : Event φ κ) (f : φ) :
    life (trace ++ [e]) f = if e.fiber = f then (life trace f).bind (·.next e) else life trace f := by
  unfold life
  rw [List.filter_append]
  split
  · rename_i h
    simp [h, List.foldlM_append]
  · rename_i h
    simp [h]

theorem stack_other (e : Event φ κ) (stack : φ → Option Nat) {f' : φ} (hf : f' ≠ e.fiber) :
    e.stack stack f' = stack f' := by
  cases e with
  | invoke n g k cb => exact Function.update_of_ne hf ..
  | reset g cb => exact Function.update_of_ne hf ..
  | resume n g => rfl
  | stop n g how => rfl

theorem add_other (he : ∀ ev ∈ e, ev.fiber = f) {f' : φ} (hf : f' ≠ f) :
    (p.add t e cbs).stack f' = p.stack f' ∧ life (p.add t e cbs).trace f' = life p.trace f' := by
  cases e with
  | none => exact ⟨rfl, by simp [Traced.add]⟩
  | some ev =>
    have hev : ev.fiber = f := he ev rfl
    refine ⟨stack_other ev p.stack fun h => hf (h.trans hev), ?_⟩
    rw [Traced.add, Option.toList_some, life_append, if_neg fun h => hf (h.symm.trans hev)]

/-- How far the worker is with the fiber. -/
def State.stage (s : State Unit φ κ) (f : φ) : Option Stage :=
  match s.pc () with
  | .inside st _ g => if g = f then some st else none
  | _ => none

/-- A fiber that was switched to and is no longer running. -/
def Stopped (x : FiberState) (stack : Option Nat) (l : Life) : Prop :=
  ∃ n, stack = some n ∧ l = if x = .term ∨ x = .except then .ended n else .suspended n

/-- What is on a fiber's stack, and its life. -/
def Lived : Option Stage → FiberState → Option Nat → Life → Prop
  | none, x, stack, l | some .entry, x, stack, l =>
    (x = .init ∧ stack = none ∧ l = .fresh) ∨ (x ≠ .init ∧ Stopped x stack l)
  | some .entered, _, stack, l => (stack = none ∧ l = .fresh) ∨ ∃ n, stack = some n ∧ l = .suspended n
  | some .running, _, stack, l => ∃ n, stack = some n ∧ l = .running n
  | some .leaving, x, stack, l | some .back, x, stack, l | some .check, x, stack, l
  | some .hold, x, stack, l => Stopped x stack l

/-- A `cb_fiber` at rest was reset when its last callback had ended. -/
def Rested (stack : Option Nat) (l : Life) : Prop := stack = none ∧ ∃ n, l = .ended n

/-- The fiber is a `cb_fiber` at rest. -/
def State.resting (s : State Unit φ κ) (f : φ) : Bool :=
  (s.worker ()).cbFiber = some f ∧ s.stage f = none

/-- What is on the stack of a fiber, and its life, from its record. -/
def Lives (st : Option Stage) (resting : Bool) (stack : Option Nat) (l : Life) : Option (Fiber κ) → Prop
  | none => stack = none ∧ l = .fresh
  | some r => if resting then Rested stack l else Lived st r.state stack l

def Traced.Lives (p : Traced φ κ) (f : φ) : Prop :=
  ∃ l, life p.trace f = some l ∧
    Workers.Lives (p.state.stage f) (p.state.resting f) (p.stack f) l (p.state.fiber f)

structure Living (p : Traced φ κ) : Prop where
  out : p.state.pc () = .out → (p.state.worker ()).cbFiber = none
  made : ∀ st f, p.state.pc () = .inside st .callback f → st = .entry ∨ st = .entered → p.stack f = none
  lives : ∀ f, p.Lives f

theorem start_living : Living (Traced.start : Traced φ κ) := by
  exact ⟨fun _ => rfl, nofun, fun f => ⟨.fresh, rfl, rfl, rfl⟩⟩

/-! ### One step -/

theorem stage_inside {st : Stage} {kd : Kind} (hpc : s.pc () = .inside st kd f) (f' : φ) :
    s.stage f' = if f = f' then some st else none := by
  unfold State.stage
  rw [hpc]

theorem stage_outside (hpc : ∀ st kd f, s.pc () ≠ .inside st kd f) (f' : φ) : s.stage f' = none := by
  unfold State.stage
  split
  · rename_i st kd g h
    exact absurd h (hpc st kd g)
  · rfl

theorem resting_inside {st : Stage} (hstage : s.stage f = some st) : s.resting f = false := by
  simp [State.resting, hstage]

theorem resting_not_own (hcb : (s.worker ()).cbFiber ≠ some f) : s.resting f = false := by
  simp [State.resting, hcb]

theorem resting_own (hstage : s.stage f = none) (hcb : (s.worker ()).cbFiber = some f) : s.resting f = true := by
  simp [State.resting, hstage, hcb]

/-- A fiber that is no `cb_fiber` at rest. -/
theorem Living.lived (k : Living p) (hrest : p.state.resting f = false) (hr : p.state.fiber f = some r) :
    ∃ l, life p.trace f = some l ∧ Lived (p.state.stage f) r.state (p.stack f) l := by
  obtain ⟨l, hl, h⟩ := k.lives f
  rw [hr, hrest] at h
  exact ⟨l, hl, h⟩

/-- A fiber that the worker is inside with. -/
theorem Living.inside (k : Living p) {st : Stage} {kd : Kind} (hpc : p.state.pc () = .inside st kd f)
    (hr : p.state.fiber f = some r) :
    ∃ l, life p.trace f = some l ∧ Lived (some st) r.state (p.stack f) l := by
  have hstage : p.state.stage f = some st := (stage_inside hpc f).trans (if_pos rfl)
  obtain ⟨l, hl, h⟩ := k.lived (resting_inside hstage) hr
  rw [hstage] at h
  exact ⟨l, hl, h⟩

theorem Living.rested (k : Living p) (hrest : p.state.resting f = true) (hr : p.state.fiber f = some r) :
    ∃ l, life p.trace f = some l ∧ Rested (p.stack f) l := by
  obtain ⟨l, hl, h⟩ := k.lives f
  rw [hr, hrest] at h
  exact ⟨l, hl, h⟩

theorem Living.absent (k : Living p) (hf : p.state.fiber f = none) :
    life p.trace f = some .fresh ∧ p.stack f = none := by
  obtain ⟨l, hl, h⟩ := k.lives f
  rw [hf] at h
  obtain ⟨hstack, rfl⟩ := h
  exact ⟨hl, hstack⟩

/-- One record is replaced. -/
theorem Living.update (k : Living p) (hfiber : t.fiber = Function.update p.state.fiber f (some r))
    (he : ∀ ev ∈ e, ev.fiber = f)
    (hplace : ∀ f', f' ≠ f → t.stage f' = p.state.stage f' ∧ t.resting f' = p.state.resting f')
    (hself : ∃ l, life (p.add t e cbs).trace f = some l ∧
      Lives (t.stage f) (t.resting f) ((p.add t e cbs).stack f) l (some r)) (f' : φ) :
    (p.add t e cbs).Lives f' := by
  by_cases hf : f' = f
  · subst hf
    obtain ⟨l, hl, h⟩ := hself
    refine ⟨l, hl, ?_⟩
    rw [show (p.add t e cbs).state.fiber f' = some r by rw [Traced.add, hfiber, Function.update_self]]
    exact h
  · obtain ⟨l, hl, h⟩ := k.lives f'
    have hsame : (p.add t e cbs).stack f' = p.stack f' ∧ life (p.add t e cbs).trace f' = life p.trace f' :=
      add_other he hf
    obtain ⟨hstack, hlife⟩ := hsame
    obtain ⟨hstage, hrest⟩ := hplace f' hf
    refine ⟨l, hlife.trans hl, ?_⟩
    rw [show (p.add t e cbs).state.fiber f' = p.state.fiber f' by
      rw [Traced.add, hfiber, Function.update_of_ne hf], hstack]
    rw [← hstage, ← hrest] at h
    exact h

/-- The worker is inside with one fiber at most, before and after. -/
theorem place_other (hs : ∀ st kd g, s.pc () = .inside st kd g → g = f)
    (ht : ∀ st kd g, t.pc () = .inside st kd g → g = f)
    (hcb : ∀ f', f' ≠ f → ((t.worker ()).cbFiber = some f' ↔ (s.worker ()).cbFiber = some f')) (f' : φ)
    (hf : f' ≠ f) : t.stage f' = s.stage f' ∧ t.resting f' = s.resting f' := by
  have hnone : ∀ {u : State Unit φ κ}, (∀ st kd g, u.pc () = .inside st kd g → g = f) → u.stage f' = none := by
    intro u hu
    unfold State.stage
    split
    · rename_i st kd g hpc
      rw [if_neg fun h => hf (h.symm.trans (hu st kd g hpc))]
    · rfl
  refine ⟨(hnone ht).trans (hnone hs).symm, ?_⟩
  rw [State.resting, State.resting, hnone ht, hnone hs, decide_eq_decide, hcb f' hf]

/-- The worker goes on with its fiber. -/
theorem Living.goes (k : Living p) {st : Stage} {kd : Kind}
    (hs : ∀ st kd g, p.state.pc () = .inside st kd g → g = f) (hpc : t.pc () = .inside st kd f)
    (hfiber : t.fiber = Function.update p.state.fiber f (some r)) (he : ∀ ev ∈ e, ev.fiber = f)
    (hcb : ∀ f', f' ≠ f → ((t.worker ()).cbFiber = some f' ↔ (p.state.worker ()).cbFiber = some f'))
    (hmade : kd = .callback → st = .entry ∨ st = .entered → (p.add t e cbs).stack f = none)
    (hself : ∃ l, life (p.add t e cbs).trace f = some l ∧
      Lived (some st) r.state ((p.add t e cbs).stack f) l) : Living (p.add t e cbs) := by
  have hstage : t.stage f = some st := (stage_inside hpc f).trans (if_pos rfl)
  have ht : ∀ st kd g, t.pc () = .inside st kd g → g = f := by
    intro st' kd' g h
    cases hpc.symm.trans h
    rfl
  refine ⟨fun hout => ?_, fun st' g h hst => ?_, k.update hfiber he (place_other hs ht hcb) ?_⟩
  · cases hpc.symm.trans hout
  · cases hpc.symm.trans h
    exact hmade rfl hst
  · rw [hstage, resting_inside hstage]
    exact hself

/-- The worker is done with its fiber, which is no longer its own. -/
theorem Living.leaves (k : Living p) {st : Stage} {kd : Kind} (hs : p.state.pc () = .inside st kd f)
    (hpc : t.pc () = .top) (hfiber : t.fiber = Function.update p.state.fiber f (some r))
    (hcb : ∀ f', f' ≠ f → ((t.worker ()).cbFiber = some f' ↔ (p.state.worker ()).cbFiber = some f'))
    (hown : (t.worker ()).cbFiber ≠ some f) (hnot : r.state ≠ .init)
    (hself : ∃ l, life p.trace f = some l ∧ Stopped r.state (p.stack f) l) :
    Living (p.add t none cbs) := by
  have hstage : t.stage f = none := stage_outside (fun st kd g h => nomatch hpc.symm.trans h) f
  refine ⟨fun hout => ?_, fun st' g h => ?_, k.update hfiber (by simp) (place_other (fun st' kd' g h => ?_)
    (fun st' kd' g h => ?_) hcb) ?_⟩
  · cases hpc.symm.trans hout
  · cases hpc.symm.trans h
  · cases hs.symm.trans h
    rfl
  · cases hpc.symm.trans h
  · obtain ⟨l, hl, h⟩ := hself
    rw [hstage, resting_not_own hown]
    exact ⟨l, by rwa [Traced.add, Option.toList_none, List.append_nil], .inr ⟨hnot, h⟩⟩

/-- The worker goes between two points where it is with no fiber. -/
theorem Living.wander (k : Living p) (hs : ∀ st kd f, p.state.pc () ≠ .inside st kd f)
    (ht : ∀ st kd f, t.pc () ≠ .inside st kd f) (hout : t.pc () ≠ .out) (hfiber : t.fiber = p.state.fiber)
    (hcb : (t.worker ()).cbFiber = (p.state.worker ()).cbFiber) : Living (p.add t none cbs) := by
  refine ⟨fun h => absurd h hout, fun st f h => absurd h (ht st _ f), fun f => ?_⟩
  obtain ⟨l, hl, h⟩ := k.lives f
  refine ⟨l, by rwa [Traced.add, Option.toList_none, List.append_nil], ?_⟩
  have hstage : t.stage f = p.state.stage f := (stage_outside ht f).trans (stage_outside hs f).symm
  have hrest : t.resting f = p.state.resting f := by
    rw [State.resting, State.resting, hstage, hcb]
  rw [← hstage, ← hrest, ← hfiber] at h
  exact h

/-- Nothing is known of the fiber but that it is new. -/
theorem Living.creates (k : Living p) (hf : p.state.fiber f = none) (r : Fiber κ) (hr : r.state = .init)
    (hfiber : t.fiber = Function.update p.state.fiber f (some r))
    (hplace : ∀ f', t.stage f' = p.state.stage f' ∧ t.resting f' = p.state.resting f')
    (hnot : p.state.stage f = none) (hown : (p.state.worker ()).cbFiber ≠ some f) (f' : φ) :
    (p.add t none cbs).Lives f' := by
  obtain ⟨hl, hstack⟩ := k.absent hf
  refine k.update hfiber (by simp) (fun f' _ => hplace f') ⟨.fresh, ?_, ?_⟩ f'
  · rwa [Traced.add, Option.toList_none, List.append_nil]
  · rw [(hplace f).1, (hplace f).2, hnot, resting_not_own hown]
    exact .inl ⟨hr, hstack, rfl⟩

theorem life_add {ev : Event φ κ} {l l' : Life} (hl : life p.trace f = some l) (hev : ev.fiber = f)
    (hnext : l.next ev = some l') : life (p.add t (some ev) cbs).trace f = some l' := by
  rw [Traced.add, Option.toList_some, life_append, if_pos hev, hl]
  exact hnext

theorem life_add_none {l : Life} (hl : life p.trace f = some l) :
    life (p.add t none cbs).trace f = some l := by
  rwa [Traced.add, Option.toList_none, List.append_nil]

omit [DecidableEq φ] in
theorem goto_cb (s : State Unit φ κ) (pc : Pc φ κ) (f' : φ) :
    ((s.goto () pc).worker ()).cbFiber = some f' ↔ (s.worker ()).cbFiber = some f' := by
  simp [State.goto]

/-- A segment ends. -/
theorem Living.stops (k : Living p) {kd : Kind} {how : Ending} (hpc : p.state.pc () = .inside .running kd f)
    (hr : p.state.fiber f = some r) (hexec : r.state = .exec) :
    Living (p.add ((p.state.put f (how.record r)).goto () (.inside .leaving kd f)) (p.stops p.state how) []) := by
  obtain ⟨l, hl, n, hstack, rfl⟩ := k.inside hpc hr
  have he : p.stops p.state how = some (.stop n f how) := by
    simp [Traced.stops, hpc, hstack]
  rw [he]
  refine k.goes (fun st kd g h => ?_) (goto_pc ..) rfl (fun ev hev => ?_) (fun f' _ => goto_cb ..)
    (fun _ h => ?_) ?_
  · cases hpc.symm.trans h
    rfl
  · cases hev
    rfl
  · obtain h | h := h <;> cases h
  · refine ⟨_, life_add hl rfl (if_pos rfl), n, hstack, ?_⟩
    cases how <;> simp [Ending.record, Ending.ends, hexec]

/-- The worker switches to the fiber: it begins, or goes on where it was suspended. -/
theorem Living.switches (k : Living p) {kd : Kind} {g : φ} (hpc : p.state.pc () = .inside .entered kd f)
    (hr : p.state.fiber f = some r) {r' : Fiber κ} (hpct : t.pc () = .inside .running kd f)
    (hfiber : t.fiber = Function.update p.state.fiber f (some r'))
    (hcb : ∀ f', (t.worker ()).cbFiber = some f' ↔ (p.state.worker ()).cbFiber = some f') :
    Living (p.add t (p.event p.state (.work () g)) []) := by
  have hruns : ∀ {ev : Event φ κ}, ev.fiber = f → (∃ l, life (p.add t (some ev) []).trace f = some l ∧
      Lived (some .running) r'.state ((p.add t (some ev) []).stack f) l) → Living (p.add t (some ev) []) := by
    intro ev hev hself
    refine k.goes (fun st kd g h => ?_) hpct hfiber (fun ev' hev' => ?_) (fun f' _ => hcb f') (fun _ h => ?_) hself
    · cases hpc.symm.trans h
      rfl
    · cases hev'
      exact hev
    · obtain h | h := h <;> cases h
  obtain ⟨l, hl, ⟨hstack, rfl⟩ | ⟨n, hstack, rfl⟩⟩ := k.inside hpc hr
  · have he : p.event p.state (.work () g) =
        some (.invoke (p.trace.countP (·.isInvoke)) f kd ((p.state.fiber f).bind (·.cb))) := by
      simp [Traced.event, hpc, hstack]
    rw [he]
    exact hruns rfl ⟨_, life_add hl rfl rfl, _, Function.update_self .., rfl⟩
  · have he : p.event p.state (.work () g) = some (.resume n f) := by
      simp [Traced.event, hpc, hstack]
    rw [he]
    exact hruns rfl ⟨_, life_add hl rfl (if_pos rfl), n, hstack, rfl⟩

/-- The next callback goes into the `cb_fiber`. -/
theorem Living.resets (k : Living p) {ft : FiberAndThread φ κ} {cb : κ} {r' : Fiber κ} {g : φ}
    (hpc : p.state.pc () = .chosen (some ft)) (hrun : p.state.runnable (some ft) = none)
    (hcb : ft.cb = some cb) (hown : (p.state.worker ()).cbFiber = some f) (hr : p.state.fiber f = some r)
    (hinit : r'.state = .init) :
    Living (p.add ((p.state.put f r').goto () (.inside .entry .callback f)) (p.event p.state (.work () g)) []) := by
  have hstage : p.state.stage f = none := stage_outside (fun st kd g h => nomatch hpc.symm.trans h) f
  obtain ⟨l, hl, hstack, n, rfl⟩ := k.rested (resting_own hstage hown) hr
  have he : p.event p.state (.work () g) = some (.reset f (some cb)) := by
    simp [Traced.event, hpc, hrun, hcb, hown]
  rw [he]
  refine k.goes (fun st kd g h => nomatch hpc.symm.trans h) (goto_pc ..) rfl (fun ev hev => ?_)
    (fun f' _ => goto_cb ..) (fun _ _ => Function.update_self ..) ⟨_, life_add hl rfl rfl, .inl ⟨hinit, ?_, rfl⟩⟩
  · cases hev
    rfl
  · exact Function.update_self ..

/-- A step at which nothing is recorded takes the worker on with its fiber. -/
theorem Living.passes (k : Living p) {st st' : Stage} {kd : Kind} (hpc : p.state.pc () = .inside st kd f)
    (hpct : t.pc () = .inside st' kd f) (hfiber : t.fiber = Function.update p.state.fiber f (some r))
    (hcb : ∀ f', (t.worker ()).cbFiber = some f' ↔ (p.state.worker ()).cbFiber = some f')
    (hmade : kd = .callback → st' = .entry ∨ st' = .entered → p.stack f = none)
    (hself : ∃ l, life p.trace f = some l ∧ Lived (some st') r.state (p.stack f) l) :
    Living (p.add t none []) := by
  refine k.goes (fun st kd g h => ?_) hpct hfiber (by simp) (fun f' _ => hcb f') hmade ?_
  · cases hpc.symm.trans h
    rfl
  · obtain ⟨l, hl, h⟩ := hself
    exact ⟨l, life_add_none hl, h⟩

/-- The worker turns to a fiber that is not its `cb_fiber`. -/
theorem Living.turns (k : Living p) {kd : Kind} (hout : ∀ st kd f, p.state.pc () ≠ .inside st kd f)
    (hr : p.state.fiber f = some r) (hown : (p.state.worker ()).cbFiber ≠ some f)
    (hpct : t.pc () = .inside .entry kd f) (hkd : kd ≠ .callback) (hfiber : t.fiber = p.state.fiber)
    (hcb : ∀ f', (t.worker ()).cbFiber = some f' ↔ (p.state.worker ()).cbFiber = some f') :
    Living (p.add t none []) := by
  obtain ⟨l, hl, h⟩ := k.lived (resting_not_own hown) hr
  rw [stage_outside hout] at h
  refine k.goes (fun st kd g h => absurd h (hout st kd g)) hpct ?_ (by simp) (fun f' _ => hcb f')
    (fun h => absurd h hkd) ⟨l, life_add_none hl, h⟩
  rw [hfiber]
  exact (Function.update_eq_self_iff.mpr hr.symm).symm

/-- The worker makes a `cb_fiber`. -/
theorem Living.makes (k : Living p) (hout : ∀ st kd f, p.state.pc () ≠ .inside st kd f)
    (hf : p.state.fiber f = none) (hr : r.state = .init) (hown : (p.state.worker ()).cbFiber = none)
    (hpct : t.pc () = .inside .entry .callback f) (hfiber : t.fiber = Function.update p.state.fiber f (some r))
    (hcb : (t.worker ()).cbFiber = some f) : Living (p.add t none []) := by
  obtain ⟨hl, hstack⟩ := k.absent hf
  refine k.goes (fun st kd g h => absurd h (hout st kd g)) hpct hfiber (by simp) (fun f' hf' => ?_)
    (fun _ _ => hstack) ⟨_, life_add_none hl, .inl ⟨hr, hstack, rfl⟩⟩
  rw [hcb, hown]
  exact iff_of_false (fun h => hf' (Option.some.inj h).symm) nofun

/-- The callback of the `cb_fiber` has ended, and the fiber is reset. -/
theorem Living.empties (k : Living p) (o : Owned p.state) {g : φ} (hpc : p.state.pc () = .inside .check .callback f)
    (hr : p.state.fiber f = some r) (hend : r.ended = true) {r' : Fiber κ} :
    Living (p.add ((p.state.put f r').goto () .top) (p.event p.state (.work () g)) []) := by
  obtain ⟨l, hl, n, hstack, rfl⟩ := k.inside hpc hr
  have hover : r.state = .term ∨ r.state = .except := by simpa [Fiber.ended] using hend
  rw [if_pos hover] at hl
  have he : p.event p.state (.work () g) = some (.reset f none) := by
    simp [Traced.event, hpc, State.ended, hr, hend]
  rw [he]
  set t := (p.state.put f r').goto () .top
  have hpct : t.pc () = .top := goto_pc ..
  have hstage : t.stage f = none := stage_outside (fun st kd g h => by cases hpct.symm.trans h) f
  have hown : (t.worker ()).cbFiber = some f := (goto_cb ..).mpr (o.callback () .check f hpc)
  refine ⟨fun hout => ?_, fun st' g h => ?_, k.update (f := f) (r := r') rfl (fun ev hev => ?_)
    (place_other (fun st' kd' g h => ?_) (fun st' kd' g h => ?_) fun f' _ => goto_cb ..) ?_⟩
  · cases hpct.symm.trans hout
  · cases hpct.symm.trans h
  · cases hev
    rfl
  · cases hpc.symm.trans h
    rfl
  · cases hpct.symm.trans h
  · rw [resting_own hstage hown]
    exact ⟨_, life_add hl rfl rfl, Function.update_self .., n, rfl⟩

/-- Neither the worker nor a fiber moves. -/
theorem Living.frame (k : Living p) (hworker : t.worker = p.state.worker) (hfiber : t.fiber = p.state.fiber) :
    Living (p.add t none cbs) := by
  have hpc : t.pc () = p.state.pc () := pc_congr (congrFun hworker ())
  have hstage : ∀ f, t.stage f = p.state.stage f := fun f => by rw [State.stage, hpc, State.stage]
  refine ⟨fun h => ?_, fun st f h => k.made st f (hpc ▸ h), fun f => ?_⟩
  · rw [Traced.add, hworker]
    exact k.out (hpc ▸ h)
  · obtain ⟨l, hl, h⟩ := k.lives f
    refine ⟨l, life_add_none hl, ?_⟩
    have hrest : t.resting f = p.state.resting f := by
      rw [State.resting, State.resting, hstage, hworker]
    rw [← hstage, ← hrest, ← hfiber] at h
    exact h

omit [DecidableEq φ] in
/-- Who has to do with the `cb_fiber` when the worker is done with its fiber. -/
theorem leaves_cb_iff (o : Owned s) {st : Stage} {kd : Kind} (hpc : s.pc () = .inside st kd f) {f' : φ}
    (hf : f' ≠ f) : ((s.leaves () kd).worker ()).cbFiber = some f' ↔ (s.worker ()).cbFiber = some f' := by
  by_cases hk : kd = .callback
  · subst hk
    rw [o.callback () st f hpc]
    refine iff_of_false (fun h => ?_) fun h => hf (Option.some.inj h).symm
    exact (leaves_own _ _ _ h).1 rfl
  · simp [State.leaves, hk]

omit [DecidableEq φ] in
theorem leaves_not_own (o : Owned s) {st : Stage} {kd : Kind} (hpc : s.pc () = .inside st kd f) :
    ((s.leaves () kd).worker ()).cbFiber ≠ some f := by
  intro h
  obtain ⟨hk, hown⟩ := leaves_own _ _ _ h
  exact o.not_cb hpc hk hown

omit [DecidableEq φ] in
@[simp] theorem leaves_pc (s : State Unit φ κ) (kd : Kind) : (s.leaves () kd).pc () = .top := by
  simp [State.pc, State.leaves]

theorem Stopped.congr {x y : FiberState} {stack : Option Nat} {l : Life} (h : Stopped x stack l)
    (hx : x ≠ .term ∧ x ≠ .except) (hy : y ≠ .term ∧ y ≠ .except) : Stopped y stack l := by
  obtain ⟨n, hstack, rfl⟩ := h
  refine ⟨n, hstack, ?_⟩
  simp [hx, hy]

theorem not_ended (h : r.ended = false) : ¬ (r.state = .term ∨ r.state = .except) := by
  simpa [Fiber.ended] using h

theorem Living.step {thread : Unit → Int} {a : Act Unit φ κ} (k : Living p) (o : Orderly p.state)
    (h : Workers.step thread p.state a = some t) : Living (p.add t (p.event p.state a) a.callbacks) := by
  by_cases hstop : ∃ how : Ending, a = how.act ()
  · obtain ⟨how, rfl⟩ := hstop
    have he : p.event p.state (how.act ()) = p.stops p.state how := by cases how <;> rfl
    have hcbs : (how.act () : Act Unit φ κ).callbacks = [] := by cases how <;> rfl
    obtain ⟨kd, f, r, hpc, hr, heq⟩ := stop_spec h
    have hexec := o.sole.stands_here hpc hr
    obtain rfl | hne := heq
    · rw [he, hcbs]
      exact k.stops hpc hr hexec
    · exact absurd hexec hne
  cases step_effect h with
  | fails hfails => exact absurd hfails (o.sole.not_fails o.owned)
  | @enters w i hpc hi =>
    cases w
    set t : State Unit φ κ := { p.state.put i { cb := none, origin := .idle } with
      worker := Function.update p.state.worker () { pc := .top, idleFiber := some i } }
    have hpct : t.pc () = .top := by simp [t, State.pc]
    have hcb : (t.worker ()).cbFiber = none := by simp [t]
    have hstage : ∀ f, p.state.stage f = none := stage_outside fun st kd f h => by cases hpc.symm.trans h
    have hstaget : ∀ f, t.stage f = none := stage_outside fun st kd f h => by cases hpct.symm.trans h
    refine ⟨fun hout => (by cases hpct.symm.trans hout), fun st f hin => (by cases hpct.symm.trans hin),
      k.creates (t := t) hi { cb := none, origin := .idle } rfl rfl (fun f => ?_) (hstage i) ?_⟩
    · rw [hstage, hstaget, State.resting, State.resting, hcb, k.out hpc, hstage, hstaget]
      exact ⟨rfl, rfl⟩
    · rw [k.out hpc]
      simp
  | @creates f cb hf =>
    have hplace := o.owned.nobody hf ()
    refine ⟨k.out, k.made, k.creates hf { cb := some cb, origin := .user } rfl rfl (fun _ => ⟨rfl, rfl⟩) ?_
      hplace.2.1⟩
    unfold State.stage
    split
    · rename_i st kd g hpc
      refine if_neg fun heq => hplace.1 ?_
      rw [hpc, ← heq]
      rfl
    · rfl
  | schedules hok => exact k.frame rfl rfl
  | @scans w g x hpc hx =>
    cases w
    have he : p.event p.state (.work () g) = none := by simp [Traced.event, hpc]
    rw [he]
    refine k.wander (fun st kd f h => by cases hpc.symm.trans h) (fun st kd f => ?_) ?_ rfl ?_ <;>
      simp [State.pc, State.goto]
  | @runs w g ft f hpc hrun =>
    cases w
    have hf : ft.fiber = some f := (Option.filter_eq_some_iff.mp hrun).1
    obtain ⟨r, hr, -⟩ := o.sole.stands () f ⟨by rw [hpc]; exact hf, fun _ _ => by
      simpa [State.ended] using (Option.filter_eq_some_iff.mp hrun).2⟩
    have he : p.event p.state (.work () g) = none := by simp [Traced.event, hpc, hrun]
    rw [he]
    exact k.turns (fun st kd f h => by cases hpc.symm.trans h) hr ((o.owned.chosen () ft f hpc hf).2 ())
      (goto_pc ..) (by simp) rfl fun f' => goto_cb ..
  | @resets w g ft cb f r r' hpc hrun hcb hown hr hreset =>
    cases w
    exact k.resets hpc hrun hcb hown hr (reset_origin hreset).2.1
  | @makes w g ft cb hpc hrun hcb hown hnew =>
    cases w
    have he : p.event p.state (.work () g) = none := by simp [Traced.event, hpc, hrun, hown]
    rw [he]
    exact k.makes (r := { cb := some cb, origin := .callback }) (fun st kd f h => by cases hpc.symm.trans h)
      hnew rfl hown (by simp [State.pc]) rfl (by simp)
  | @discards w g ft hpc hrun hcb =>
    cases w
    have he : p.event p.state (.work () g) = none := by simp [Traced.event, hpc, hcb]
    rw [he]
    refine k.wander (fun st kd f h => by cases hpc.symm.trans h) (fun st kd f => ?_) ?_ rfl ?_ <;>
      simp [State.pc, State.goto]
  | @exits w g i hpc hown hterm =>
    cases w
    have he : p.event p.state (.work () g) = none := by simp [Traced.event, hpc]
    rw [he]
    refine k.wander (fun st kd f h => by cases hpc.symm.trans h) (fun st kd f => ?_) ?_ rfl ?_ <;>
      simp [State.pc, State.goto]
  | @idles w g i hpc hown hterm =>
    cases w
    have he : p.event p.state (.work () g) = none := by simp [Traced.event, hpc]
    rw [he]
    obtain ⟨r, hr, -⟩ := Option.map_eq_some_iff.mp (o.owned.idleFiber () i hown).1
    refine k.turns (fun st kd f h => by cases hpc.symm.trans h) hr (fun hcb => ?_) (goto_pc ..) (by simp) rfl
      fun f' => goto_cb ..
    cases (o.owned.cbFiber () i hcb).1.symm.trans (o.owned.idleFiber () i hown).1
  | @rewrites a w st st' kd f r r' hpc hr hrw hthrew hact =>
    cases w
    obtain ⟨⟨g, rfl⟩, hst⟩ := hact.own fun how ha => hstop ⟨how, ha⟩
    cases hrw with
    | swapIn hne =>
      have he : p.event p.state (.work () g) = none := by simp [Traced.event, hpc]
      rw [he]
      obtain ⟨-, -, hlive⟩ := o.sole.stands_here hpc hr
      refine k.passes hpc (goto_pc ..) rfl (fun f' => goto_cb ..) (fun hk _ => ?_) ?_
      · subst hk
        exact k.made .entry f hpc (.inl rfl)
      · obtain ⟨l, hl, ⟨-, hfresh⟩ | ⟨-, n, hstack, heq⟩⟩ := k.inside hpc hr
        · exact ⟨l, hl, .inl hfresh⟩
        · rw [if_neg (not_ended hlive)] at heq
          exact ⟨l, hl, .inr ⟨n, hstack, heq⟩⟩
    | switchTo hsaved => exact k.switches hpc hr (goto_pc ..) rfl fun f' => goto_cb ..
    | switchFrom =>
      have he : p.event p.state (.work () g) = none := by simp [Traced.event, hpc]
      rw [he]
      obtain ⟨l, hl, hstopped⟩ := k.inside hpc hr
      exact k.passes hpc (goto_pc ..) rfl (fun f' => goto_cb ..) (by simp) ⟨l, hl, hstopped⟩
    | yieldToHold | yieldToReady | term | except => exact absurd rfl hst
  | @backs w g kd f hpc =>
    cases w
    have he : p.event p.state (.work () g) = none := by simp [Traced.event, hpc]
    rw [he]
    obtain ⟨r, hr, -⟩ := o.sole.here hpc
    obtain ⟨l, hl, hstopped⟩ := k.inside hpc hr
    exact k.passes hpc (goto_pc ..) (update_put hr) (fun f' => goto_cb ..) (by simp) ⟨l, hl, hstopped⟩
  | @readies w g kd f r hpc hr hready hk =>
    cases w
    have hlive : r.ended = false := by simp [Fiber.ended, hready]
    have he : p.event p.state (.work () g) = none := by
      cases kd <;> simp [Traced.event, hpc, State.ended, hr, hlive]
    rw [he]
    exact k.leaves hpc (leaves_pc ..) (update_put hr)
      (fun f' hf' => leaves_cb_iff o.owned hpc hf') (leaves_not_own o.owned hpc) (by simp [hready]) (k.inside hpc hr)
  | @ends w g kd f r hpc hr hend hk =>
    cases w
    have he : p.event p.state (.work () g) = none := by
      cases kd with
      | callback => exact absurd rfl hk
      | task | idle => simp [Traced.event, hpc]
    rw [he]
    refine k.leaves hpc (goto_pc ..) (update_put hr) (fun f' _ => goto_cb ..) (fun h => ?_) (fun hinit => ?_)
      (k.inside hpc hr)
    · exact o.owned.not_cb hpc hk ((goto_cb ..).mp h)
    · simp [Fiber.ended, hinit] at hend
  | @empties w g f r hpc hr hend =>
    cases w
    exact k.empties o.owned hpc hr hend
  | @checks w g kd f r hpc hr hready hend =>
    cases w
    have he : p.event p.state (.work () g) = none := by
      cases kd <;> simp [Traced.event, hpc, State.ended, hr, hend]
    rw [he]
    obtain ⟨l, hl, hstopped⟩ := k.inside hpc hr
    exact k.passes hpc (goto_pc ..) (update_put hr) (fun f' => goto_cb ..) (by simp) ⟨l, hl, hstopped⟩
  | @holds w g kd f r hpc hr =>
    cases w
    have he : p.event p.state (.work () g) = none := by simp [Traced.event, hpc]
    rw [he]
    obtain ⟨-, hlive⟩ := o.sole.stands_here hpc hr
    obtain ⟨l, hl, hstopped⟩ := k.inside hpc hr
    refine k.leaves (r := { r with state := .hold }) hpc (leaves_pc ..) rfl
      (fun f' hf' => leaves_cb_iff o.owned hpc hf') (leaves_not_own o.owned hpc) (by simp) ⟨l, hl, ?_⟩
    exact hstopped.congr (not_or.mp (not_ended hlive)) (by simp)

/-! ### Every callback task -/

structure Handed (p : Traced φ κ) : Prop where
  nodes : ∀ it ∈ p.state.fibers, it.fiber = none ∨ it.cb = none
  chosen : ∀ ft, p.state.pc () = .chosen (some ft) → ft.fiber = none ∨ ft.cb = none
  kept : p.scheduled.Perm (invoked p.trace ++ p.state.pending)

omit [DecidableEq φ] in
theorem start_handed : Handed (Traced.start : Traced φ κ) :=
  ⟨nofun, nofun, .nil⟩

theorem invoked_add (p : Traced φ κ) (t : State Unit φ κ) (e : Option (Event φ κ)) (cbs : List κ) :
    invoked (p.add t e cbs).trace = invoked p.trace ++ (e.bind (·.task)).toList := by
  rw [invoked, invoked, Traced.add, List.filterMap_append]
  cases e with
  | none => rfl
  | some ev => cases h : ev.task <;> simp [h]

omit [DecidableEq φ] in
/-- A callback is invoked where the worker switches to a fiber, and only there. -/
theorem event_task {a : Act Unit φ κ} (h : ∀ kd f, s.pc () ≠ .inside .entered kd f) :
    (p.event s a).bind (·.task) = none := by
  have hstops : ∀ how, (p.stops s how).bind (·.task) = none := by
    intro how
    unfold Traced.stops
    split
    · rename_i f _
      cases p.stack f <;> rfl
    · rfl
  unfold Traced.event
  split
  · split
    · split <;> rfl
    · rename_i kd f hpc
      exact absurd hpc (h kd f)
    · split <;> rfl
    · rfl
  · exact hstops _
  · exact hstops _
  · exact hstops _
  · rfl

/-- Nothing is invoked, and the callbacks that wait are the same. -/
theorem Handed.keeps (k : Handed p) (htask : e.bind (·.task) = none)
    (hnodes : ∀ it ∈ t.fibers, it ∈ p.state.fibers ∨ it.cb = none)
    (hcbs : t.fibers.filterMap (·.cb) = p.state.fibers.filterMap (·.cb)) (hhand : t.inHand = p.state.inHand)
    (hchosen : ∀ ft, t.pc () = .chosen (some ft) → p.state.pc () = .chosen (some ft)) :
    Handed (p.add t e []) := by
  refine ⟨fun it hit => ?_, fun ft hft => k.chosen ft (hchosen ft hft), ?_⟩
  · exact (hnodes it hit).elim (k.nodes it) .inr
  · rw [invoked_add, htask]
    simpa [Traced.add, State.pending, hcbs, hhand] using k.kept

omit [DecidableEq φ] in
theorem inHand_eq {pc : Pc φ κ} (hpc : s.pc () = pc) : s.inHand = pc.hand s.fiber := by
  rw [State.inHand, hpc]

omit [DecidableEq φ] in
theorem hand_entry {fiber : φ → Option (Fiber κ)} (hr : fiber f = some r) :
    (Pc.inside .entry .callback f).hand fiber = r.cb := by
  rw [Pc.hand, hr]
  rfl

/-- The worker is done with a task, or goes on with it. -/
theorem Handed.moves (k : Handed p) {a : Act Unit φ κ} {pc pc' : Pc φ κ} (hpc : p.state.pc () = pc)
    (hpct : t.pc () = pc') (hfibers : t.fibers = p.state.fibers)
    (hhand : pc'.hand t.fiber = pc.hand p.state.fiber) (hnot : ∀ kd f, pc ≠ .inside .entered kd f)
    (hout : ∀ ft, pc' ≠ .chosen (some ft)) : Handed (p.add t (p.event p.state a) []) := by
  refine k.keeps (event_task fun kd f h => hnot kd f (hpc.symm.trans h)) (fun it hit => .inl (hfibers ▸ hit))
    (by rw [hfibers]) ?_ fun ft hft => absurd (hpct.symm.trans hft) (hout ft)
  rw [inHand_eq hpct, inHand_eq hpc, hhand]

theorem Handed.schedules (k : Handed p) {nodes : List (FiberAndThread φ κ)}
    (hok : ∀ ft ∈ nodes, ft.fiber.isNone ∨ ft.cb.isNone) :
    Handed (p.add (p.state.schedule nodes) none (nodes.filterMap (·.cb))) := by
  have hfibers : (p.state.schedule nodes).fibers = p.state.fibers ++ nodes.filter (·.nonempty) :=
    scheduleAll_eq ..
  have hcbs : (nodes.filter (·.nonempty)).filterMap (·.cb) = nodes.filterMap (·.cb) := by
    rw [List.filterMap_filter]
    refine List.filterMap_congr fun it _ => ?_
    cases hcb : it.cb <;> simp [FiberAndThread.nonempty, hcb]
  refine ⟨fun it hit => ?_, k.chosen, ?_⟩
  · rw [Traced.add, hfibers] at hit
    obtain hit | hit := List.mem_append.mp hit
    · exact k.nodes it hit
    · simpa using hok it (List.mem_filter.mp hit).1
  · have hpend : (p.state.schedule nodes).pending = p.state.pending ++ nodes.filterMap (·.cb) := by
      rw [State.pending, State.pending, hfibers, List.filterMap_append, hcbs, List.append_assoc]
      rfl
    rw [invoked_add]
    simp only [Traced.add, Option.bind_none, Option.toList_none, List.append_nil, hpend, ← List.append_assoc]
    exact k.kept.append_right _

/-- The node that is taken is in the worker's hand. -/
theorem Handed.scans (k : Handed p) {thread : Int} {x : Fetched φ κ} {c : Int} (hpc : p.state.pc () = .top)
    (hx : fetch thread p.state.isExec p.state.fibers = some x) :
    Handed (p.add { p.state.goto () (.chosen x.task) with fibers := x.fibers, activeThreadCount := c } none []) := by
  have hperm := fetch_perm hx
  set t : State Unit φ κ := { p.state.goto () (.chosen x.task) with fibers := x.fibers, activeThreadCount := c }
  have hpct : t.pc () = .chosen x.task := goto_pc ..
  refine ⟨fun it hit => k.nodes it (hperm.mem_iff.mpr (List.mem_append_right _ hit)), fun ft hft => ?_, ?_⟩
  · have htask : x.task = some ft := Pc.chosen.inj (hpct.symm.trans hft)
    exact k.nodes ft (hperm.mem_iff.mpr (by simp [htask]))
  · have hpend : p.state.pending.Perm t.pending := by
      have hhand : t.inHand = x.task.bind (·.cb) := inHand_eq hpct
      have hnone : p.state.inHand = none := inHand_eq hpc
      rw [State.pending, State.pending, hhand, hnone]
      have hmap := hperm.filterMap (·.cb)
      rw [List.filterMap_append] at hmap
      cases htask : x.task with
      | none => simpa [htask] using hmap
      | some it => cases hcb : it.cb <;> simpa [htask, hcb] using hmap
    rw [invoked_add]
    simp only [Traced.add, Option.bind_none, Option.toList_none, List.append_nil]
    exact k.kept.trans (hpend.append_left _)

/-- The worker invokes what it has in its hand, or goes on with something else. -/
theorem Handed.switches (k : Handed p) (l : Living p) {kd : Kind} {g : φ} {r' : Fiber κ}
    (hpc : p.state.pc () = .inside .entered kd f) {b : φ → Bool} :
    Handed (p.add { (p.state.put f r').goto () (.inside .running kd f) with woken := b }
      (p.event p.state (.work () g)) []) := by
  set t : State Unit φ κ := { (p.state.put f r').goto () (.inside .running kd f) with woken := b }
  have hpct : t.pc () = .inside .running kd f := goto_pc ..
  have htask : ((p.event p.state (.work () g)).bind (·.task)) = p.state.inHand := by
    cases kd with
    | callback =>
      have hstack := l.made .entered f hpc (.inr rfl)
      simp [Traced.event, State.inHand, Pc.hand, hpc, hstack, Event.task]
    | task | idle =>
      cases hstack : p.stack f <;> simp [Traced.event, State.inHand, Pc.hand, hpc, hstack, Event.task]
  refine ⟨k.nodes, fun ft hft => (nomatch hpct.symm.trans hft), ?_⟩
  rw [invoked_add, htask]
  have hpend : p.state.pending = p.state.inHand.toList ++ t.pending := by
    rw [State.pending, State.pending, inHand_eq hpct]
    rfl
  simp only [Traced.add, List.append_nil, List.append_assoc, ← hpend]
  exact k.kept

theorem Handed.step {thread : Unit → Int} {a : Act Unit φ κ} (k : Handed p) (l : Living p)
    (o : Orderly p.state) (h : Workers.step thread p.state a = some t) :
    Handed (p.add t (p.event p.state a) a.callbacks) := by
  by_cases hstop : ∃ how : Ending, a = how.act ()
  · obtain ⟨how, rfl⟩ := hstop
    have hcbs : (how.act () : Act Unit φ κ).callbacks = [] := by cases how <;> rfl
    obtain ⟨kd, f, r, hpc, hr, rfl | hne⟩ := stop_spec h
    · have hpct := goto_pc (p.state.put f (how.record r)) () (.inside .leaving kd f)
      rw [hcbs]
      exact k.moves hpc hpct rfl rfl (by simp) (by simp)
    · exact absurd (o.sole.stands_here hpc hr) hne
  cases step_effect h with
  | fails hfails => exact absurd hfails (o.sole.not_fails o.owned)
  | @enters w i hpc hi =>
    cases w
    have hpct : State.pc { p.state.put i { cb := none, origin := .idle } with
        worker := Function.update p.state.worker () { pc := .top, idleFiber := some i } } () = .top := by
      simp [State.pc]
    exact k.moves hpc hpct rfl rfl (by simp) (by simp)
  | @creates f cb hf =>
    refine k.keeps rfl (fun it hit => .inl hit) rfl ?_ fun ft hft => hft
    have hother : ∀ {st kd g}, p.state.pc () = .inside st kd g → g ≠ f := by
      rintro st kd g hpc rfl
      exact (o.owned.nobody hf ()).1 (by rw [hpc]; rfl)
    show (p.state.pc ()).hand (Function.update p.state.fiber f _) = (p.state.pc ()).hand p.state.fiber
    unfold Pc.hand
    split
    · rfl
    · rename_i hpc
      rw [Function.update_of_ne (hother hpc)]
    · rename_i hpc
      rw [Function.update_of_ne (hother hpc)]
    · rfl
  | schedules hok => exact k.schedules fun ft hft => (hok ft hft).2
  | @scans w g x hpc hx =>
    cases w
    have he : p.event p.state (.work () g) = none := by simp [Traced.event, hpc]
    rw [he]
    exact k.scans hpc hx
  | @runs w g ft f hpc hrun =>
    cases w
    have hf : ft.fiber = some f := (Option.filter_eq_some_iff.mp hrun).1
    have hpct := goto_pc p.state () (.inside .entry .task f)
    refine k.moves hpc hpct rfl ?_ (by simp) (by simp)
    obtain h | h := k.chosen ft hpc
    · cases hf.symm.trans h
    · exact h.symm
  | @resets w g ft cb f r r' hpc hrun hcb hown hr hreset =>
    cases w
    have hpct := goto_pc (p.state.put f r') () (.inside .entry .callback f)
    refine k.moves hpc hpct rfl ?_ (by simp) (by simp)
    have hf : ((p.state.put f r').goto () (.inside .entry .callback f)).fiber f = some r' := Function.update_self ..
    exact (hand_entry hf).trans ((reset_cb hreset).trans hcb.symm)
  | @makes w g ft cb hpc hrun hcb hown hnew =>
    cases w
    set t : State Unit φ κ := { p.state.put g { cb := some cb, origin := .callback } with
      worker := Function.update p.state.worker ()
        { p.state.worker () with pc := .inside .entry .callback g, cbFiber := some g } }
    have hpct : t.pc () = .inside .entry .callback g := by simp [t, State.pc]
    have hg : t.fiber g = some { cb := some cb, origin := .callback } := Function.update_self ..
    refine k.moves hpc hpct rfl ?_ (by simp) (by simp)
    exact (hand_entry hg).trans hcb.symm
  | @discards w g ft hpc hrun hcb =>
    cases w
    have hpct := goto_pc p.state () .top
    exact k.moves hpc hpct rfl hcb.symm (by simp) (by simp)
  | @exits w g i hpc hown hterm =>
    cases w
    have hpct := goto_pc p.state () .exited
    exact k.moves hpc hpct rfl rfl (by simp) (by simp)
  | @idles w g i hpc hown hterm =>
    cases w
    have hpct := goto_pc p.state () (.inside .entry .idle i)
    exact k.moves hpc hpct rfl rfl (by simp) (by simp)
  | @rewrites a w st st' kd f r r' hpc hr hrw hthrew hact =>
    cases w
    obtain ⟨⟨g, rfl⟩, hst⟩ := hact.own fun how ha => hstop ⟨how, ha⟩
    have hpct := goto_pc (p.state.put f r') () (.inside st' kd f)
    cases hrw with
    | swapIn hne =>
      refine k.moves hpc hpct rfl ?_ (by simp) (by simp)
      cases kd with
      | callback =>
        have hf : (p.state.put f { r with state := .exec }).fiber f = some { r with state := .exec } :=
          Function.update_self ..
        exact (hand_entry hf).trans (hand_entry hr).symm
      | task | idle => rfl
    | switchTo hsaved => exact k.switches l hpc
    | switchFrom =>
      exact k.moves hpc hpct rfl rfl (by simp) (by simp)
    | yieldToHold | yieldToReady | term | except => exact absurd rfl hst
  | @backs w g kd f hpc =>
    cases w
    have hpct := goto_pc p.state () (.inside .check kd f)
    exact k.moves hpc hpct rfl rfl (by simp) (by simp)
  | @readies w g kd f r hpc hr hready hk =>
    cases w
    have hpct := leaves_pc (p.state.schedule [{ fiber := some f }]) kd
    have hfibers : (p.state.schedule [{ fiber := some f }]).fibers = p.state.fibers ++ [{ fiber := some f }] :=
      scheduleAll_eq ..
    refine k.keeps (event_task fun kd f h => by cases hpc.symm.trans h) (fun it hit => ?_) ?_
      ((inHand_eq hpct).trans (inHand_eq hpc).symm) fun ft hft => by cases hpct.symm.trans hft
    · obtain hit | hit := List.mem_append.mp (hfibers ▸ hit)
      · exact .inl hit
      · rw [List.mem_singleton.mp hit]
        exact .inr rfl
    · exact (congrArg _ hfibers).trans (by simp)
  | @ends w g kd f r hpc hr hend hk =>
    cases w
    have hpct := goto_pc p.state () .top
    exact k.moves hpc hpct rfl rfl (by simp) (by simp)
  | @empties w g f r hpc hr hend =>
    cases w
    have hpct := goto_pc (p.state.put f { r with cb := none, saved := true, state := .init }) () .top
    exact k.moves hpc hpct rfl rfl (by simp) (by simp)
  | @checks w g kd f r hpc hr hready hend =>
    cases w
    have hpct := goto_pc p.state () (.inside .hold kd f)
    exact k.moves hpc hpct rfl rfl (by simp) (by simp)
  | @holds w g kd f r hpc hr =>
    cases w
    have hpct := leaves_pc (p.state.put f { r with state := .hold }) kd
    exact k.moves hpc hpct rfl rfl (by simp) (by simp)

/-! ### Every reachable state -/

structure Recorded (p : Traced φ κ) : Prop where
  orderly : Orderly p.state
  living : Living p
  handed : Handed p

theorem start_recorded : Recorded (Traced.start : Traced φ κ) :=
  ⟨start_orderly, start_living, start_handed⟩

theorem stepFrom_eq {thread : Unit → Int} {a : Act Unit φ κ} {q : Traced φ κ}
    (h : p.stepFrom thread s a = some q) : ∃ t, Workers.step thread s a = some t ∧
      (t.fault = none → q = p.add t (p.event s a) a.callbacks) := by
  obtain ⟨t, ht, rfl⟩ := Option.map_eq_some_iff.mp h
  refine ⟨t, ht, fun hfault => ?_⟩
  rw [hfault]
  exact if_neg Bool.false_ne_true

/-- A step from a recorded state does not fail. -/
theorem Recorded.step_eq {thread : Unit → Int} {a : Act Unit φ κ} {q : Traced φ κ} (k : Recorded p)
    (hg : Once p.state a) (h : p.step thread a = some q) : ∃ t, Workers.step thread p.state a = some t ∧
      t.fault = none ∧ q = p.add t (p.event p.state a) a.callbacks := by
  obtain ⟨t, ht, hq⟩ := stepFrom_eq h
  have hfault := (k.orderly.step hg ht).sole.fault
  exact ⟨t, ht, hfault, hq hfault⟩

theorem Recorded.step {thread : Unit → Int} {a : Act Unit φ κ} {q : Traced φ κ} (k : Recorded p)
    (hg : Once p.state a) (h : p.step thread a = some q) : Recorded q := by
  obtain ⟨t, ht, -, rfl⟩ := k.step_eq hg h
  exact ⟨k.orderly.step hg ht, k.living.step k.orderly ht, k.handed.step k.living k.orderly ht⟩

/-- One wake-up for each suspension, as for the scheduler alone. -/
def Traced.Once (p : Traced φ κ) (a : Act Unit φ κ) : Prop := Workers.Once p.state a

instance (p : Traced φ κ) (a : Act Unit φ κ) : Decidable (p.Once a) :=
  inferInstanceAs (Decidable (Workers.Once p.state a))

theorem recorded_reachable {thread : Unit → Int} {acts : List (Act Unit φ κ)}
    (hm : Meets (Traced.step thread) Traced.Once Traced.start acts)
    (h : run (Traced.step thread) Traced.start acts = some p) : Recorded p :=
  run_invariant (fun _ _ _ k hg h => k.step hg h) start_recorded hm h

/-- What a fiber has come to before each event of its trace. -/
theorem life_before {trace xs ys : List (Event φ κ)} {ev : Event φ κ} (h : (life trace ev.fiber).isSome)
    (heq : trace = xs ++ ev :: ys) : ∃ l, life xs ev.fiber = some l ∧ (l.next ev).isSome := by
  subst heq
  rw [List.append_cons] at h
  have hprefix : ∀ {xs ys : List (Event φ κ)}, (life (xs ++ ys) ev.fiber).isSome → (life xs ev.fiber).isSome := by
    intro xs ys h
    rw [life, List.filter_append, List.foldlM_append] at h
    rw [life]
    cases hx : (xs.filter (·.fiber = ev.fiber)).foldlM Life.next .fresh with
    | none =>
      rw [hx] at h
      cases h
    | some l => rfl
  have hlast := hprefix h
  rw [life_append, if_pos rfl] at hlast
  cases hl : life xs ev.fiber with
  | none =>
    rw [hl] at hlast
    cases hlast
  | some l =>
    rw [hl] at hlast
    exact ⟨l, rfl, hlast⟩

end

end ShioSylar.Scheduler.Workers
