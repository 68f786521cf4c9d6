import ShioSylar.Scheduler.Queue
import Mathlib.Logic.Function.Basic

/-! The event table of an IOManager (`iomanager.h`, `iomanager.cc`).

`m_fdContexts` is a vector of pointers; a pointer is the number of its allocation, and
`contexts` is the heap they point into. The kernel's interest set is part of the state:
`epollCtl` follows the documented results of `epoll_ctl`, and an `ok` argument lets
each call fail for any other reason. Of a mask only the bits READ (0x1) and WRITE (0x4)
are kept; EPOLLET is in every mask the code passes.

The public functions are compositions of their critical sections: the lookup under the
table's lock (`fetchContext`, or a read of `fdContexts`) and the `…Locked` half under the
mutex of the context. A failed `ASSERT`, a call through a null scheduler and an access
beyond the vector end the process: they are a `Fault`. Descriptors are natural numbers, the counter is an integer
so that a decrement below zero shows, and `(int)size` is the size, as it is while every
`fd * 1.5` stays below 2^31. -/
namespace ShioSylar.IOManager
open Scheduler

/-- `IOManager::Event`, the two directions. -/
inductive Event where
  | read | write
  deriving DecidableEq

instance (P : Event → Prop) [DecidablePred P] : Decidable (∀ e, P e) :=
  decidable_of_iff (P .read ∧ P .write) ⟨fun h e => by cases e <;> simp [h], fun h => ⟨h _, h _⟩⟩

/-- A set of directions. -/
structure Mask where
  read : Bool := false
  write : Bool := false
  deriving DecidableEq

namespace Mask

/-- `mask & event`. -/
def has (m : Mask) : Event → Bool
  | .read => m.read
  | .write => m.write

/-- `mask | event`. -/
def add (m : Mask) : Event → Mask
  | .read => { m with read := true }
  | .write => { m with write := true }

/-- `mask & ~event`. -/
def remove (m : Mask) : Event → Mask
  | .read => { m with read := false }
  | .write => { m with write := false }

/-- `mask & other`. -/
def inter (m k : Mask) : Mask := ⟨m.read && k.read, m.write && k.write⟩

/-- `mask & ~other`. -/
def diff (m k : Mask) : Mask := ⟨m.read && !k.read, m.write && !k.write⟩

/-- `NONE`. -/
def none : Mask := {}

/-- The number of bits set. -/
def count (m : Mask) : Nat := m.read.toNat + m.write.toNat

end Mask

/-- `FdContext::EventContext`; `none` is a null pointer or an empty function. -/
structure EventContext (σ φ κ : Type) where
  scheduler : Option σ := none
  fiber : Option φ := none
  cb : Option κ := none

structure FdContext (σ φ κ : Type) where
  read : EventContext σ φ κ := {}
  write : EventContext σ φ κ := {}
  fd : Nat := 0
  events : Mask := Mask.none

namespace FdContext
variable {σ φ κ : Type}

/-- `getContext`. -/
def getContext (ctx : FdContext σ φ κ) : Event → EventContext σ φ κ
  | .read => ctx.read
  | .write => ctx.write

def setContext (ctx : FdContext σ φ κ) (e : Event) (c : EventContext σ φ κ) : FdContext σ φ κ :=
  match e with
  | .read => { ctx with read := c }
  | .write => { ctx with write := c }

end FdContext

inductive CtlOp where
  | add | mod | del
  deriving DecidableEq

/-- What ends the process. -/
inductive Fault where
  | assertion | nullScheduler | outOfBounds
  deriving DecidableEq

/-- A thread that calls `addEvent`: `Scheduler::GetThis()` and `Fiber::GetThis()`. The
fiber is the one running, so its state is `EXEC`. -/
structure Caller (σ φ : Type) where
  scheduler : Option σ
  fiber : φ

/-- The slot `addEvent` writes: the scheduler of the caller, and the callback or the
running fiber. -/
def EventContext.fill {σ φ κ : Type} (c : EventContext σ φ κ) (who : Caller σ φ) (cb : Option κ) :
    EventContext σ φ κ :=
  match cb with
  | some cb => { c with scheduler := who.scheduler, cb := some cb }
  | none => { c with scheduler := who.scheduler, fiber := some who.fiber }

/-- The bits of an epoll report. -/
structure Report where
  epollin : Bool := false
  epollout : Bool := false
  epollerr : Bool := false
  epollhup : Bool := false
  deriving DecidableEq

structure State (σ φ κ : Type) where
  /-- The heap of contexts and the number allocated. -/
  contexts : Nat → FdContext σ φ κ
  allocated : Nat
  fdContexts : List Nat
  pendingEventCount : Int
  /-- The kernel's set: the mask and the pointer registered for a descriptor. -/
  interest : Nat → Option (Mask × Nat)
  /-- `m_fibers` of each scheduler. -/
  fibers : σ → List (FiberAndThread φ κ)

variable {σ φ κ : Type}

/-! ### The kernel -/

/-- Whether `epoll_ctl` accepts the operation: ADD of an absent descriptor, MOD or DEL
of a present one. -/
def Legal (registered : Option (Mask × Nat)) : CtlOp → Bool
  | .add => registered.isNone
  | .mod => registered.isSome
  | .del => registered.isSome

/-- `epoll_ctl`: whether it returned 0, and the interest set after it. -/
def epollCtl (interest : Nat → Option (Mask × Nat)) (op : CtlOp) (fd : Nat) (mask : Mask) (ptr : Nat)
    (ok : Bool) : Bool × (Nat → Option (Mask × Nat)) :=
  if ok && Legal (interest fd) op then
    (true, Function.update interest fd (if op = .del then none else some (mask, ptr)))
  else (false, interest)

/-- `events ? EPOLL_CTL_MOD : EPOLL_CTL_ADD` of `addEvent`. -/
def addOp (events : Mask) : CtlOp := if events = Mask.none then .add else .mod

/-- `new_events ? EPOLL_CTL_MOD : EPOLL_CTL_DEL` of the others. -/
def leaveOp (left : Mask) : CtlOp := if left = Mask.none then .del else .mod

namespace State

/-! ### The vector of contexts -/

/-- `contextResize`: cut or extended to `size`, new places with new contexts. -/
def contextResize (s : State σ φ κ) (size : Nat) : State σ φ κ :=
  let old := s.fdContexts.length
  { s with
    contexts := fun p =>
      if s.allocated ≤ p ∧ p < s.allocated + (size - old) then { fd := old + (p - s.allocated) }
      else s.contexts p
    allocated := s.allocated + (size - old)
    fdContexts := s.fdContexts.take size ++ (List.range (size - old)).map (s.allocated + ·) }

/-- The section of `addEvent` under the write lock: `contextResize(fd * 1.5)` and the
context of `fd`, if that is within the vector. -/
def grow (s : State σ φ κ) (fd : Nat) : Option (Nat × State σ φ κ) :=
  let s := s.contextResize (fd * 3 / 2)
  s.fdContexts[fd]?.map fun p => (p, s)

/-- The first half of `addEvent`. -/
def fetchContext (s : State σ φ κ) (fd : Nat) : Option (Nat × State σ φ κ) :=
  match s.fdContexts[fd]? with
  | some p => some (p, s)
  | none => s.grow fd

def setContext (s : State σ φ κ) (p : Nat) (ctx : FdContext σ φ κ) : State σ φ κ :=
  { s with contexts := Function.update s.contexts p ctx }

/-! ### One context, under its mutex -/

/-- The second half of `addEvent`; the flag says that it returns 0. -/
def addEventLocked (s : State σ φ κ) (p fd : Nat) (event : Event) (who : Caller σ φ) (cb : Option κ)
    (ok : Bool) : Except Fault (Bool × State σ φ κ) :=
  let ctx := s.contexts p
  if ctx.events.has event then .error .assertion
  else
    let rt := epollCtl s.interest (addOp ctx.events) fd (ctx.events.add event) p ok
    if rt.1 = false then .ok (false, s)
    else
      let c := ctx.getContext event
      if c.scheduler.isSome || c.fiber.isSome || c.cb.isSome then .error .assertion
      else
        let ctx := { ctx with events := ctx.events.add event }
        .ok (true, { s with
          contexts := Function.update s.contexts p (ctx.setContext event (c.fill who cb))
          pendingEventCount := s.pendingEventCount + 1
          interest := rt.2 })

/-- The second half of `delEvent`. -/
def delEventLocked (s : State σ φ κ) (p fd : Nat) (event : Event) (ok : Bool) : Bool × State σ φ κ :=
  let ctx := s.contexts p
  if ctx.events.has event = false then (false, s)
  else
    let left := ctx.events.remove event
    let rt := epollCtl s.interest (leaveOp left) fd left p ok
    if rt.1 = false then (false, s)
    else
      let ctx := { ctx with events := left }
      (true, { s with
        contexts := Function.update s.contexts p (ctx.setContext event {})
        pendingEventCount := s.pendingEventCount - 1
        interest := rt.2 })

/-- `Scheduler::schedule` of a node. -/
def schedule [DecidableEq σ] (s : State σ φ κ) (sched : σ) (ft : FiberAndThread φ κ) : State σ φ κ :=
  { s with fibers := Function.update s.fibers sched (scheduleNoLock (s.fibers sched) ft).2 }

/-- `FdContext::triggerEvent`. -/
def triggerEvent [DecidableEq σ] (s : State σ φ κ) (p : Nat) (event : Event) :
    Except Fault (State σ φ κ) :=
  let ctx := s.contexts p
  if ctx.events.has event = false then .error .assertion
  else
    let c := ctx.getContext event
    match c.scheduler with
    | none => .error .nullScheduler
    | some sched =>
      let ctx := { ctx with events := ctx.events.remove event }
      if c.cb.isSome then
        let (ft, cb) := FiberAndThread.ofCbPtr c.cb (-1)
        .ok ((s.setContext p (ctx.setContext event { c with cb := cb, scheduler := none })).schedule sched ft)
      else
        let (ft, fiber) := FiberAndThread.ofFiberPtr c.fiber (-1)
        .ok ((s.setContext p
          (ctx.setContext event { c with fiber := fiber, scheduler := none })).schedule sched ft)

/-- `triggerEvent` and `--m_pendingEventCount`. -/
def triggerOne [DecidableEq σ] (s : State σ φ κ) (p : Nat) (event : Event) :
    Except Fault (State σ φ κ) :=
  (s.triggerEvent p event).map fun s => { s with pendingEventCount := s.pendingEventCount - 1 }

/-- `if(mask & event)` and then the trigger. -/
def triggerIf [DecidableEq σ] (s : State σ φ κ) (p : Nat) (mask : Mask) (event : Event) :
    Except Fault (State σ φ κ) :=
  if mask.has event then s.triggerOne p event else .ok s

/-- The second half of `cancelEvent`. -/
def cancelEventLocked [DecidableEq σ] (s : State σ φ κ) (p fd : Nat) (event : Event) (ok : Bool) :
    Except Fault (Bool × State σ φ κ) :=
  let ctx := s.contexts p
  if ctx.events.has event = false then .ok (false, s)
  else
    let left := ctx.events.remove event
    let rt := epollCtl s.interest (leaveOp left) fd left p ok
    if rt.1 = false then .ok (false, s)
    else ({ s with interest := rt.2 }.triggerOne p event).map fun s => (true, s)

/-- The second half of `cancelAll`. -/
def cancelAllLocked [DecidableEq σ] (s : State σ φ κ) (p fd : Nat) (ok : Bool) :
    Except Fault (Bool × State σ φ κ) :=
  let ctx := s.contexts p
  if ctx.events = Mask.none then .ok (false, s)
  else
    let rt := epollCtl s.interest .del fd Mask.none p ok
    if rt.1 = false then .ok (false, s)
    else
      ({ s with interest := rt.2 }.triggerIf p ctx.events .read).bind fun s =>
      (s.triggerIf p (s.contexts p).events .write).bind fun s =>
      if (s.contexts p).events = Mask.none then .ok (true, s) else .error .assertion

/-! ### The public functions -/

/-- `addEvent`. -/
def addEvent (s : State σ φ κ) (fd : Nat) (event : Event) (who : Caller σ φ) (cb : Option κ) (ok : Bool) :
    Except Fault (Bool × State σ φ κ) :=
  match s.fetchContext fd with
  | some (p, s) => s.addEventLocked p fd event who cb ok
  | none => .error .outOfBounds

/-- `delEvent`. -/
def delEvent (s : State σ φ κ) (fd : Nat) (event : Event) (ok : Bool) : Bool × State σ φ κ :=
  match s.fdContexts[fd]? with
  | none => (false, s)
  | some p => s.delEventLocked p fd event ok

variable [DecidableEq σ]

/-- `cancelEvent`. -/
def cancelEvent (s : State σ φ κ) (fd : Nat) (event : Event) (ok : Bool) :
    Except Fault (Bool × State σ φ κ) :=
  match s.fdContexts[fd]? with
  | none => .ok (false, s)
  | some p => s.cancelEventLocked p fd event ok

/-- `cancelAll`. -/
def cancelAll (s : State σ φ κ) (fd : Nat) (ok : Bool) : Except Fault (Bool × State σ φ κ) :=
  match s.fdContexts[fd]? with
  | none => .ok (false, s)
  | some p => s.cancelAllLocked p fd ok

end State

/-- The directions of a report, after the EPOLLERR/EPOLLHUP widening. -/
def Report.realEvents (r : Report) (events : Mask) : Mask :=
  let wide := r.epollerr || r.epollhup
  ⟨r.epollin || (wide && events.read), r.epollout || (wide && events.write)⟩

/-- The body of the dispatch loop of `idle` for a report that carries `p`; the mask is
what it triggered. -/
def State.dispatch [DecidableEq σ] (s : State σ φ κ) (p : Nat) (r : Report) (ok : Bool) :
    Except Fault (Mask × State σ φ κ) :=
  let ctx := s.contexts p
  let real := r.realEvents ctx.events
  if ctx.events.inter real = Mask.none then .ok (Mask.none, s)
  else
    let left := ctx.events.diff real
    let rt := epollCtl s.interest (leaveOp left) ctx.fd left p ok
    if rt.1 = false then .ok (Mask.none, s)
    else
      ({ s with interest := rt.2 }.triggerIf p real .read).bind fun s =>
      (s.triggerIf p real .write).bind fun s =>
      .ok (real, s)

/-- `IOManager()`: 32 contexts, nothing registered. -/
def State.init : State σ φ κ :=
  State.contextResize
    { contexts := fun _ => {}, allocated := 0, fdContexts := [], pendingEventCount := 0,
      interest := fun _ => none, fibers := fun _ => [] } 32

end ShioSylar.IOManager
