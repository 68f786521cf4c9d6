import ShioSylar.Lib.OrderedSet
import Mathlib.Data.BitVec
import Mathlib.Logic.Function.Basic
import Mathlib.Order.Defs.LinearOrder

/-! Timers and their manager (`timer.h`, `timer.cc`).

A timer is known by its address, a member of any linear order `ι`; callbacks are any
type `κ`, and `none` is the empty `std::function`. The manager owns the heap of timer
objects and `m_timers`, the `std::set` ordered by `Timer::Comparator`, whose key
`m_next` is a field of the objects: the set is the list of the addresses in iteration
order, and every lookup compares with the deadlines the objects have at that moment.

Each function takes its clock reading as an argument and is one critical section.
Two timers whose lives do not overlap may share an address in the program; they are
never compared with each other, so giving them two names loses nothing. -/
namespace ShioSylar.TimerManager
open Lib

/-- `uint64_t`. -/
abbrev U64 := BitVec 64

structure Timer (κ : Type) where
  recurring : Bool := false
  ms : U64 := 0
  next : U64 := 0
  cb : Option κ := none

variable {ι κ : Type}

/-- `Timer(ms, cb, recurring, manager)`. -/
def Timer.create (ms : U64) (cb : Option κ) (recurring : Bool) (now : U64) : Timer κ :=
  { recurring := recurring, ms := ms, next := now + ms, cb := cb }

/-- What the comparison reads of a timer: its deadline and its address. -/
structure Ref (ι : Type) where
  next : U64
  addr : ι

/-- `Timer::Comparator`; `none` is a null pointer. -/
def comparator [LinearOrder ι] : Option (Ref ι) → Option (Ref ι) → Bool
  | none, none => false
  | none, some _ => true
  | some _, none => false
  | some lhs, some rhs =>
    if lhs.next < rhs.next then true
    else if rhs.next < lhs.next then false
    else decide (lhs.addr < rhs.addr)

structure State (ι κ : Type) where
  /-- The timer objects; `none` where nothing was allocated. -/
  objects : ι → Option (Timer κ)
  timers : List ι
  tickled : Bool
  previouseTime : U64

namespace State
variable [LinearOrder ι]

/-- `TimerManager()`. -/
def init (now : U64) : State ι κ :=
  { objects := fun _ => none, timers := [], tickled := false, previouseTime := now }

def timer (s : State ι κ) (t : ι) : Timer κ := (s.objects t).getD {}

def set (s : State ι κ) (t : ι) (x : Timer κ) : State ι κ :=
  { s with objects := Function.update s.objects t (some x) }

def ref (s : State ι κ) (t : ι) : Option (Ref ι) := some ⟨(s.timer t).next, t⟩

def less (s : State ι κ) (a b : ι) : Bool := comparator (s.ref a) (s.ref b)

/-! ### The container -/

/-- `m_timers.find(t)`. -/
def find (s : State ι κ) (t : ι) : Nat := OrderedSet.find s.less t s.timers

/-- `m_timers.insert(t)`: the position and the container after it. -/
def insert (s : State ι κ) (t : ι) : Nat × State ι κ :=
  let r := OrderedSet.insert s.less t s.timers
  (r.2, { s with timers := r.1 })

/-- `m_timers.erase(it)`, undefined at the end. -/
def erase (s : State ι κ) (it : Nat) : Option (State ι κ) :=
  if it < s.timers.length then some { s with timers := s.timers.eraseIdx it } else none

/-! ### Operations on a timer -/

/-- `Timer::cancel`; `none` if it erases the end iterator. -/
def cancel (s : State ι κ) (t : ι) : Option (Bool × State ι κ) :=
  if (s.timer t).cb.isSome then
    let s := s.set t { s.timer t with cb := none }
    (s.erase (s.find t)).map fun s => (true, s)
  else some (false, s)

/-- `Timer::refresh`. -/
def refresh (s : State ι κ) (t : ι) (now : U64) : Bool × State ι κ :=
  if (s.timer t).cb.isNone then (false, s)
  else
    let it := s.find t
    if it = s.timers.length then (false, s)
    else
      let s := { s with timers := s.timers.eraseIdx it }
      let s := s.set t { s.timer t with next := now + (s.timer t).ms }
      (true, (s.insert t).2)

/-- `TimerManager::addTimer(val, lock)`; the flag says that `onTimerInsertedAtFront` is
called. -/
def addTimerLocked (s : State ι κ) (t : ι) : Bool × State ι κ :=
  let r := s.insert t
  let atFront := decide (r.1 = 0) && !r.2.tickled
  (atFront, if atFront then { r.2 with tickled := true } else r.2)

/-- `Timer::reset`; the first flag is the result, the second says that
`onTimerInsertedAtFront` is called. -/
def reset (s : State ι κ) (t : ι) (ms : U64) (fromNow : Bool) (now : U64) :
    (Bool × Bool) × State ι κ :=
  if ms = (s.timer t).ms ∧ fromNow = false then ((true, false), s)
  else if (s.timer t).cb.isNone then ((false, false), s)
  else
    let it := s.find t
    if it = s.timers.length then ((false, false), s)
    else
      let s := { s with timers := s.timers.eraseIdx it }
      let start := if fromNow then now else (s.timer t).next - (s.timer t).ms
      let s := s.set t { s.timer t with ms := ms, next := start + ms }
      let r := s.addTimerLocked t
      ((true, r.1), r.2)

/-! ### Operations of the manager -/

/-- `TimerManager::addTimer(ms, cb, recurring)`; `t` is the address the new timer gets. -/
def addTimer (s : State ι κ) (t : ι) (ms : U64) (cb : Option κ) (recurring : Bool) (now : U64) :
    Bool × State ι κ :=
  (s.set t (Timer.create ms cb recurring now)).addTimerLocked t

/-- `TimerManager::getNextTimer`. -/
def getNextTimer (s : State ι κ) (now : U64) : U64 × State ι κ :=
  let s := { s with tickled := false }
  match s.timers with
  | [] => (BitVec.allOnes 64, s)
  | next :: _ =>
    if (s.timer next).next ≤ now then (0, s) else ((s.timer next).next - now, s)

/-- `TimerManager::detectClockRollover`. -/
def detectClockRollover (s : State ι κ) (now : U64) : Bool × State ι κ :=
  (decide (now < s.previouseTime) && decide (now < s.previouseTime - 60 * 60 * 1000),
    { s with previouseTime := now })

/-- The end of the timers to take out: all of them after a rollover, else those before
the temporary timer `⟨now, tmp⟩`, and then those due exactly now. -/
def expiredEnd (s : State ι κ) (rollover : Bool) (now : U64) (tmp : ι) : Nat :=
  let it := if rollover then s.timers.length
    else OrderedSet.lowerBound (fun t => comparator (s.ref t) (some ⟨now, tmp⟩)) s.timers
  it + ((s.timers.drop it).takeWhile fun t => (s.timer t).next == now).length

/-- The first half of `listExpiredCb`: the expired timers, out of the container. -/
def takeExpired (s : State ι κ) (now : U64) (tmp : ι) : List ι × State ι κ :=
  match s.timers with
  | [] => ([], s)
  | first :: _ =>
    let (rollover, s) := s.detectClockRollover now
    if !rollover && decide (now < (s.timer first).next) then ([], s)
    else
      let it := s.expiredEnd rollover now tmp
      (s.timers.take it, { s with timers := s.timers.drop it })

/-- The second half of `listExpiredCb`: the callbacks, in order, with the recurring
timers put back and the others emptied. -/
def emit (now : U64) : List ι → List (Option κ) × State ι κ → List (Option κ) × State ι κ
  | [], out => out
  | t :: rest, (cbs, s) =>
    let x := s.timer t
    emit now rest (cbs ++ [x.cb],
      if x.recurring then ((s.set t { x with next := now + x.ms }).insert t).2
      else s.set t { x with cb := none })

/-- `TimerManager::listExpiredCb`; `tmp` is the address of the temporary `now_timer`. -/
def listExpiredCb (s : State ι κ) (now : U64) (tmp : ι) (cbs : List (Option κ)) :
    List (Option κ) × State ι κ :=
  let (expired, s) := s.takeExpired now tmp
  emit now expired (cbs, s)

end State

end ShioSylar.TimerManager
