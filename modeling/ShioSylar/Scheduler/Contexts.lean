import ShioSylar.Scheduler.Workers

/-! The contexts behind the workers (`fiber.cc`, `Scheduler::run`, `Scheduler::stop`).

`Workers` says of each thread how far it is and with which fiber. The code itself keeps that in
three `thread_local` pointers and in the `ucontext_t` of each fiber: `swapcontext` goes on with
whatever stack the second context was saved from, and `GetThis` answers with whatever `SetThis`
wrote last on the thread. Here a step of `Workers` is taken with the pointers and the contexts
that the code uses for it. A context is good for one switch, and a switch that does not end where
the code goes on is a fault of its own.

With `use_caller` one thread is the caller: its scheduler fiber is `m_rootFiber`, which runs
`run` from `stop` on, and not the main fiber of the thread. -/
namespace ShioSylar.Scheduler.Contexts
open Lib Workers

/-- A `Fiber` and its stack: the main fiber of a thread with the thread's own stack,
`m_rootFiber`, or a fiber of `Workers`. -/
inductive Ref (ω φ : Type) where
  | main (w : ω)
  | root
  | task (f : φ)
  deriving DecidableEq

/-- Where the code on a stack is; `cur` is the variable of `MainFunc`. -/
inductive Frame (ω φ : Type) where
  /-- Made by `makecontext`. -/
  | start
  /-- In the callback of `MainFunc` or `CallerMainFunc`. -/
  | callback (cur : Ref ω φ)
  /-- In the `swapOut` of a yield, called on the second fiber. -/
  | swapOut (cur this : Ref ω φ)
  /-- In the `swapOut` or `back` at the end of `MainFunc` or `CallerMainFunc`. -/
  | last (this : Ref ω φ)

/-- `t_fiber`, `t_threadFiber` and `t_scheduler_fiber`. -/
structure Local (ω φ : Type) where
  fiber : Option (Ref ω φ) := none
  threadFiber : Option (Ref ω φ) := none
  schedulerFiber : Option (Ref ω φ) := none

inductive Fault where
  /-- A null pointer is dereferenced. -/
  | null
  /-- `swapcontext` to a context that is not saved. -/
  | unsaved
  /-- A thread goes on with another code than the one it switched to. -/
  | astray
  /-- The `ASSERT2` after the last `swapOut`. -/
  | reached
  deriving DecidableEq

structure State (ω φ κ : Type) where
  sched : Workers.State ω φ κ
  locals : ω → Local ω φ
  /-- The stack a thread executes. -/
  stack : ω → Ref ω φ
  /-- The stack whose latest suspension `m_ctx` holds. -/
  ctx : Ref ω φ → Option (Ref ω φ)
  frame : Ref ω φ → Frame ω φ
  /-- `m_rootThread`. -/
  rootThread : Option ω
  fault : Option Fault

def start {ω φ κ : Type} : State ω φ κ :=
  ⟨Workers.start, fun _ => {}, .main, fun _ => none, fun _ => .start, none, none⟩

inductive Act (ω φ κ : Type) where
  | sched (a : Workers.Act ω φ κ)
  /-- The beginning of `MainFunc`. -/
  | begin (w : ω)
  /-- The constructor with `use_caller`. -/
  | construct (w : ω)
  /-- `m_rootFiber->call()` of `stop`. -/
  | call (w : ω)
  /-- The end of `CallerMainFunc`. -/
  | back (w : ω)

/-- The step of `Workers` it is. -/
def Act.sched? {ω φ κ : Type} : Act ω φ κ → Option (Workers.Act ω φ κ)
  | .sched a => some a
  | _ => none

namespace State

section
variable {ω φ κ : Type} [DecidableEq ω] [DecidableEq φ]

/-- The fiber that executes `run` on a thread. -/
def loop (s : State ω φ κ) (w : ω) : Ref ω φ := if s.rootThread = some w then .root else .main w

def setLocal (s : State ω φ κ) (w : ω) (l : Local ω φ) : State ω φ κ :=
  { s with locals := Function.update s.locals w l }

/-- `Fiber::SetThis`. -/
def setThis (s : State ω φ κ) (w : ω) (f : Option (Ref ω φ)) : State ω φ κ :=
  s.setLocal w { s.locals w with fiber := f }

/-- `Fiber::GetThis`, which makes the main fiber of a thread without a fiber. -/
def getThis (s : State ω φ κ) (w : ω) : Ref ω φ × State ω φ κ :=
  match (s.locals w).fiber with
  | some f => (f, s)
  | none => (.main w, s.setLocal w { s.locals w with fiber := some (.main w), threadFiber := some (.main w) })

def setFrame (s : State ω φ κ) (f : Ref ω φ) (p : Frame ω φ) : State ω φ κ :=
  { s with frame := Function.update s.frame f p }

/-- `getcontext` and `makecontext` with `MainFunc` or `CallerMainFunc`. -/
def makecontext (s : State ω φ κ) (f : Ref ω φ) : State ω φ κ :=
  { s.setFrame f .start with ctx := Function.update s.ctx f (some f) }

/-- The code on the stack goes on after its `swapcontext`. -/
def resume (s : State ω φ κ) (w : ω) : Except Fault (State ω φ κ) :=
  match s.frame (s.stack w) with
  | .start | .callback _ => .ok s
  | .swapOut cur _ => .ok (s.setFrame (s.stack w) (.callback cur))
  | .last _ => .error .reached

/-- `swapcontext(&save->m_ctx, &load->m_ctx)`. -/
def swapcontext (s : State ω φ κ) (w : ω) (save load : Ref ω φ) : Except Fault (State ω φ κ) :=
  let ctx := Function.update s.ctx save (some (s.stack w))
  match ctx load with
  | none => .error .unsaved
  | some st =>
    { s with ctx := Function.update ctx load none, stack := Function.update s.stack w st }.resume w

def fail (s : State ω φ κ) (e : Fault) : State ω φ κ := { s with fault := some e }

/-- A switch, after which the thread is to execute the code that `next` is about. -/
def switch (s : State ω φ κ) (w : ω) (save load : Option (Ref ω φ)) (dest : Ref ω φ)
    (next : State ω φ κ → Option (State ω φ κ)) : Option (State ω φ κ) :=
  match save, load with
  | some save, some load =>
    match s.swapcontext w save load with
    | .error e => some (s.fail e)
    | .ok t => if t.stack w = dest then next t else some (t.fail .astray)
  | _, _ => some (s.fail .null)

def withSched (s : State ω φ κ) (t : Option (Workers.State ω φ κ)) : Option (State ω φ κ) :=
  t.map fun t => { s with sched := t }

/-- The fiber that `run` makes a context for, with `reset` or `new Fiber`. -/
def remakes (s : Workers.State ω φ κ) (w : ω) (g : φ) : Option φ :=
  match s.pc w with
  | .chosen ft =>
    match s.runnable ft, ft.bind (·.cb) with
    | none, some _ => some ((s.worker w).cbFiber.getD g)
    | _, _ => none
  | .inside .check .callback f => if (s.fiber f).any (·.ended) then some f else none
  | _ => none

def remade (s : State ω φ κ) (w : ω) (g : φ) : State ω φ κ :=
  match remakes s.sched w g with
  | some f => s.makecontext (.task f)
  | none => s

/-- The next step of `run`, or of `swapOut` where a fiber is left. -/
def work (thread : ω → Int) (s : State ω φ κ) (w : ω) (g : φ) : Option (State ω φ κ) :=
  let next := s.sched.work thread w g
  match s.sched.pc w with
  | .inside .leaving k f =>
    match s.frame (s.stack w) with
    | .swapOut _ (.task x) | .last (.task x) =>
      s.switch w (some (.task x)) (s.locals w).schedulerFiber (s.loop w) fun t =>
        t.withSched (t.sched.modify x (·.switchFrom) fun t => t.goto w (.inside .back k f))
    | _ => some (s.fail .astray)
  | pc =>
    if s.stack w ≠ s.loop w then none
    else
      match pc with
      | .inside .entry _ f => (s.setThis w (some (.task f))).withSched next
      | .inside .entered _ f =>
        s.switch w (s.locals w).schedulerFiber (some (.task f)) (.task f) fun t => t.withSched next
      | _ => (s.remade w g).withSched next

/-- A yield, or the end of `MainFunc`, of the code that a thread executes, up to the
`swapcontext` of its `swapOut`. -/
def leave (s : State ω φ κ) (w : ω) (ends : Bool) (op : Fiber κ → Except Workers.Fault (Fiber κ)) :
    Option (State ω φ κ) :=
  match s.frame (s.stack w), s.sched.pc w with
  | .callback cur, .inside .running k f =>
    let (this, s) := if ends then (cur, s) else s.getThis w
    match this with
    | .task x =>
      let s := s.setFrame (s.stack w) (if ends then .last this else .swapOut cur this)
      let s := s.setThis w (s.locals w).schedulerFiber
      s.withSched (s.sched.modify x op fun t => t.goto w (.inside .leaving k f))
    | _ => some (s.fail .astray)
  | _, _ => none

/-- A thread enters `run`: of the pool, on its own stack, or the caller, on that of `m_rootFiber`. -/
def enter (s : State ω φ κ) (w : ω) : Option (State ω φ κ) :=
  if s.rootThread = some w then
    match s.stack w, s.frame .root with
    | .root, .start =>
      let (cur, s) := s.getThis w
      some (s.setFrame .root (.callback cur))
    | _, _ => none
  else
    let (cur, s) := s.getThis w
    some (s.setLocal w { s.locals w with schedulerFiber := some cur })

/-- A step of `Workers`, with the pointers and contexts that it uses. -/
def follow (thread : ω → Int) (s : State ω φ κ) : Workers.Act ω φ κ → Option (State ω φ κ)
  | .enter w i =>
    (s.enter w).bind fun t => (t.makecontext (.task i)).withSched (Workers.step thread s.sched (.enter w i))
  | .create f cb => (s.makecontext (.task f)).withSched (Workers.step thread s.sched (.create f cb))
  | .schedule nodes => s.withSched (Workers.step thread s.sched (.schedule nodes))
  | .work w g => s.work thread w g
  | .yieldToHold w => s.leave w false (·.yieldToHold)
  | .yieldToReady w => s.leave w false (·.yieldToReady)
  | .finish w threw =>
    if threw → (s.sched.pc w).fiber.all s.sched.shared then s.leave w true (·.finish threw) else none

/-- The beginning of `MainFunc`. -/
def mainFunc (s : State ω φ κ) (w : ω) : Option (State ω φ κ) :=
  match s.stack w, s.frame (s.stack w) with
  | .task f, .start =>
    let (cur, s) := s.getThis w
    some (s.setFrame (.task f) (.callback cur))
  | _, _ => none

/-- The constructor with `use_caller`. -/
def construct (s : State ω φ κ) (w : ω) : Option (State ω φ κ) :=
  match s.rootThread, s.sched.pc w with
  | none, .out =>
    let (_, s) := s.getThis w
    let s := s.makecontext .root
    some { s.setLocal w { s.locals w with schedulerFiber := some .root } with rootThread := some w }
  | _, _ => none

/-- `m_rootFiber->call()` in `stop`, which is called once. -/
def call (s : State ω φ κ) (w : ω) : Option (State ω φ κ) :=
  match s.stack w, s.frame .root with
  | .main _, .start =>
    if s.rootThread = some w then
      let s := s.setThis w (some .root)
      s.switch w (s.locals w).threadFiber (some .root) .root some
    else none
  | _, _ => none

/-- The end of `CallerMainFunc`, where `run` has returned. -/
def back (s : State ω φ κ) (w : ω) : Option (State ω φ κ) :=
  match s.sched.pc w, s.stack w, s.frame (s.stack w) with
  | .exited, .root, .callback cur =>
    let s := (s.setFrame .root (.last cur)).setThis w (s.locals w).threadFiber
    s.switch w (some cur) (s.locals w).threadFiber (.main w) some
  | _, _, _ => none

end

end State

/-- One step. -/
def step {ω φ κ : Type} [DecidableEq ω] [DecidableEq φ] (thread : ω → Int) (s : State ω φ κ)
    (a : Act ω φ κ) : Option (State ω φ κ) :=
  if s.fault ≠ none ∨ s.sched.fault ≠ none then none
  else
    match a with
    | .sched b => s.follow thread b
    | .begin w => s.mainFunc w
    | .construct w => s.construct w
    | .call w => s.call w
    | .back w => s.back w

end ShioSylar.Scheduler.Contexts
