import ShioSylar.IOManager.Calls
import ShioSylar.Hook.FdManager

/-! Hooked I/O (`do_io`, `close`, `socket` and `accept` of `hook.cc`).

Any number of fibers are in hooked functions on the workers of one IOManager, and `step`
interleaves them at every access to what they share: the event table, the timers, the
descriptors, a call's `timer_info`, and the kernel. A fiber that is not in a hooked
function may enter any, run a timer's callback from the task queue, or be an `idle` that
takes the expired timers out. Workers take tasks from the queue in any order.

The kernel gives each opening of a number an index of its own. An I/O function and
`epoll_ctl` fail on a closed number, and closing a number takes it out of the epoll set;
apart from that their results are free. Some history is kept beside the source's data:
the openings a call has waited on, whether a callback has cancelled the call's event, and
what each call returned. -/
namespace ShioSylar.Hook
open Scheduler IOManager
open TimerManager (U64)

inductive Errno where
  | badf | timedout
  /-- Any other, or one that an earlier call has left. -/
  | other
  deriving DecidableEq

/-- What a hooked function returns: a result, or -1. -/
inductive Ret where
  | ok (n : Nat)
  | fail (errno : Errno)
  deriving DecidableEq

/-- What an I/O function of the system returns: a result, or -1 with EAGAIN, EINTR or
another error. -/
inductive IoResult where
  | ok (n : Nat)
  | again
  | intr
  | fail (errno : Errno)
  deriving DecidableEq

/-- The hooked functions that are calls of `do_io`. -/
inductive IoHook where
  | accept | read | readv | recv | recvfrom | recvmsg
  | write | writev | send | sendto | sendmsg
  deriving DecidableEq

/-- The `event` argument of `do_io`. -/
def IoHook.event : IoHook → Event
  | .accept | .read | .readv | .recv | .recvfrom | .recvmsg => .read
  | .write | .writev | .send | .sendto | .sendmsg => .write

/-- The `timeout_so` argument of `do_io`. -/
def IoHook.timeoutSo : IoHook → TimeoutSo
  | .accept | .read | .readv | .recv | .recvfrom | .recvmsg => .rcvtimeo
  | .write | .writev | .send | .sendto | .sendmsg => .sndtimeo

/-- A `timer_info`, known by its allocation and the arguments of the `do_io` that made it.
It is also the timer's callback, the lambda that captures these in its `OnTimer`. -/
structure Info where
  id : Nat
  fd : Nat
  event : Event
  deriving DecidableEq

/-- The locals of `do_io`. -/
structure Call (ι : Type) where
  hook : IoHook
  info : Info
  to_ : U64
  timer : Option ι := none
  /-- The openings that its `addEvent`s were for, the latest first. -/
  on : List Nat := []

/-- Where a fiber is in `do_io`. -/
inductive Stage where
  /-- Before a call of `fun`. -/
  | retry
  /-- Before `addConditionTimer`. -/
  | addTimer
  /-- Before `addEvent`. -/
  | addEvent
  /-- Before `timer->cancel()`, after `addEvent` failed. -/
  | failed
  /-- Before `YieldToHold`. -/
  | yield
  | suspended
  /-- Before `timer->cancel()`, back from `YieldToHold`. -/
  | resumed
  /-- Before `if(tinfo->cancelled)`. -/
  | test
  deriving DecidableEq

/-- Where a fiber is in `close`: before the lookup, `cancelAll`, `del` or `close_f`. -/
inductive CloseStage where
  | lookup | cancelAll | del | closeF
  deriving DecidableEq

/-- Where a timer's callback is: before the lock of `OnTimer`, before it reads or writes
`cancelled`, or before `cancelEvent`. -/
inductive TimerStage where
  | lock | test | mark | cancelEvent
  deriving DecidableEq

inductive Doing (ι : Type) where
  | user
  /-- In `do_io`, before the lookup. -/
  | enter (hook : IoHook) (fd : Nat)
  /-- In `do_io`, before `return fun(..)`. -/
  | direct (hook : IoHook) (fd : Nat)
  | io (st : Stage) (c : Call ι)
  /-- In `socket` or `accept`, before `get(fd, true)`. -/
  | manage (fd : Nat)
  | close (st : CloseStage) (fd : Nat)
  | onTimer (st : TimerStage) (i : Info)
  /-- In `idle`, before `schedule` of the expired callbacks. -/
  | idle (cbs : List (Option Info))

/-- A call of `do_io` that is over: what it waited on, what the number stood for when it
returned, and its result. -/
structure Done where
  info : Info
  on : List Nat
  at_ : Option Nat
  ret : Ret

structure State (ι φ : Type) where
  table : IOManager.State Unit φ Info
  timers : TimerManager.State ι Info
  fds : FdManager
  /-- The kernel: the opening a number stands for, `none` where it is closed. -/
  opened : Nat → Option Nat
  openings : Nat
  /-- The number of `timer_info`s allocated, their strong references and contents. -/
  infos : Nat
  refs : Info → Nat
  cancelled : Info → Bool
  doing : φ → Doing ι
  /-- A callback of the call has come back from its `cancelEvent`. -/
  fired : Info → Bool
  log : List Done
  fault : Option Fault

/-- The results that a step is free to have. -/
structure Choice (ι : Type) where
  result : IoResult := .again
  ok : Bool := true
  /-- The address of a new timer, and the clock. -/
  timer : ι
  now : U64 := 0

inductive Act (ι φ : Type) where
  /-- `socket_f` has returned `fd`. -/
  | socket (f : φ) (fd : Nat)
  | doIo (f : φ) (hook : IoHook) (fd : Nat)
  | close (f : φ) (fd : Nat)
  /-- A worker takes the callback out of the queue, for its `cb_fiber`. -/
  | onTimer (f : φ) (i : Info)
  /-- `listExpiredCb` of `idle`, with the address of its temporary timer. -/
  | idle (f : φ) (now : U64) (tmp : ι)
  /-- The next step of a fiber in a hooked function. -/
  | work (f : φ) (x : Choice ι)
  /-- A worker takes the fiber out of the queue. -/
  | resume (f : φ)
  | dispatch (fd : Nat) (r : Report) (ok : Bool)
  /-- `setsockopt` of a timeout. -/
  | setTimeout (fd : Nat) (type : TimeoutSo) (v : U64)
  /-- `fcntl` or `ioctl` of the user's O_NONBLOCK. -/
  | setUserNonblock (fd : Nat) (v : Bool)

section
variable {ι φ : Type} [LinearOrder ι] [DecidableEq φ]

def start (now : U64) : State ι φ where
  table := IOManager.State.init
  timers := TimerManager.State.init now
  fds := FdManager.init
  opened := fun _ => none
  openings := 0
  infos := 0
  refs := fun _ => 0
  cancelled := fun _ => false
  doing := fun _ => .user
  fired := fun _ => false
  log := []
  fault := none

namespace State

def goto (s : State ι φ) (f : φ) (d : Doing ι) : State ι φ :=
  { s with doing := Function.update s.doing f d }

/-- A call on the event table. -/
def onTable (s : State ι φ) (op : Op Unit φ Info) (next : Answer → State ι φ → State ι φ) : State ι φ :=
  match exec s.table op with
  | .ok (a, table) => next a { s with table := table }
  | .error e => { s with fault := some e }

def isOpen (s : State ι φ) (fd : Nat) : Bool := (s.opened fd).isSome

/-! ### The kernel -/

/-- A number that is closed is handed out. -/
def openFd (s : State ι φ) (fd : Nat) : Option (State ι φ) :=
  if s.isOpen fd then none
  else some { s with opened := Function.update s.opened fd (some s.openings), openings := s.openings + 1 }

/-- `close_f`: the number is closed, and out of the epoll set. -/
def closeFd (s : State ι φ) (fd : Nat) : State ι φ :=
  { s with
    opened := Function.update s.opened fd none
    table := { s.table with interest := Function.update s.table.interest fd none } }

/-- `fun`, where it can have that result. -/
def callFun (s : State ι φ) (hook : IoHook) (fd : Nat) (r : IoResult) : Option (State ι φ) :=
  if s.isOpen fd then
    match hook, r with
    | .accept, .ok n => s.openFd n
    | _, _ => some s
  else if r = .fail .badf then some s else none

/-! ### do_io -/

/-- What a fiber does when its `do_io` has returned. -/
def after (hook : IoHook) : Ret → Doing ι
  | .ok n => if hook = .accept then .manage n else .user
  | .fail _ => .user

/-- `do_io` returns, and with it goes `tinfo`. -/
def leave (s : State ι φ) (f : φ) (c : Call ι) (ret : Ret) : State ι φ :=
  { s with
    refs := Function.update s.refs c.info (s.refs c.info - 1)
    log := s.log ++ [⟨c.info, c.on, s.opened c.info.fd, ret⟩]
    doing := Function.update s.doing f (after c.hook ret) }

/-- `if(timer) timer->cancel()`. -/
def cancelTimer (s : State ι φ) (timer : Option ι) : State ι φ :=
  match timer with
  | none => s
  | some t =>
    match s.timers.cancel t with
    | some r => { s with timers := r.2 }
    | none => { s with fault := some .outOfBounds }

/-- `do_io` up to the first call of `fun`. -/
def enter (s : State ι φ) (f : φ) (hook : IoHook) (fd : Nat) : State ι φ :=
  match s.fds.get fd false none with
  | none => { s with fault := some .outOfBounds }
  | some (none, _) => s.goto f (.direct hook fd)
  | some (some ctx, _) =>
    if ctx.isClosed then s.goto f .user
    else if !ctx.isSocket || ctx.userNonblock then s.goto f (.direct hook fd)
    else
      let tinfo : Info := ⟨s.infos, fd, hook.event⟩
      { s.goto f (.io .retry { hook := hook, info := tinfo, to_ := ctx.getTimeout hook.timeoutSo }) with
        infos := s.infos + 1, refs := Function.update s.refs tinfo 1 }

/-- `return fun(..)`. -/
def direct (s : State ι φ) (f : φ) (hook : IoHook) (fd : Nat) (r : IoResult) : Option (State ι φ) :=
  (s.callFun hook fd r).map fun s =>
    match r with
    | .ok n => s.goto f (after hook (.ok n))
    | _ => s.goto f .user

/-- `do_io` from `retry` on. -/
def doIo (s : State ι φ) (f : φ) (x : Choice ι) (c : Call ι) : Stage → Option (State ι φ)
  | .retry =>
    (s.callFun c.hook c.info.fd x.result).map fun s =>
      match x.result with
      | .intr => s
      | .again => s.goto f (.io .addTimer { c with timer := none })
      | .ok n => s.leave f c (.ok n)
      | .fail e => s.leave f c (.fail e)
  | .addTimer =>
    if c.to_ = BitVec.allOnes 64 then some (s.goto f (.io .addEvent c))
    else if (s.timers.objects x.timer).isSome then none
    else
      some { s.goto f (.io .addEvent { c with timer := some x.timer }) with
        timers := (s.timers.addTimer x.timer c.to_ (some c.info) false x.now).2 }
  | .addEvent =>
    some (s.onTable (.addEvent c.info.fd c.info.event ⟨some (), f⟩ none (x.ok && s.isOpen c.info.fd))
      fun rt s =>
        if rt = .returned true then
          s.goto f (.io .yield { c with on := (s.opened c.info.fd).toList ++ c.on })
        else s.goto f (.io .failed c))
  | .failed => some ((s.cancelTimer c.timer).leave f c (.fail .other))
  | .yield => some (s.goto f (.io .suspended c))
  | .suspended => none
  | .resumed => some ((s.cancelTimer c.timer).goto f (.io .test c))
  | .test =>
    some (if s.cancelled c.info then s.leave f c (.fail .timedout) else s.goto f (.io .retry c))

/-! ### close -/

/-- `close`. -/
def close (s : State ι φ) (f : φ) (x : Choice ι) (fd : Nat) : CloseStage → State ι φ
  | .lookup =>
    match s.fds.get fd false none with
    | none => { s with fault := some .outOfBounds }
    | some (none, _) => s.goto f (.close .closeF fd)
    | some (some _, _) => s.goto f (.close .cancelAll fd)
  | .cancelAll =>
    s.onTable (.cancelAll fd (x.ok && s.isOpen fd)) fun _ s => s.goto f (.close .del fd)
  | .del =>
    match s.fds.del fd with
    | none => { s with fault := some .outOfBounds }
    | some fds => { s.goto f (.close .closeF fd) with fds := fds }
  | .closeF => (s.closeFd fd).goto f .user

/-! ### The timer's callback -/

/-- The callback gives up its reference and ends. -/
def drop (s : State ι φ) (f : φ) (i : Info) : State ι φ :=
  { s.goto f .user with refs := Function.update s.refs i (s.refs i - 1) }

/-- `OnTimer` and the lambda of `do_io`, whose own lock succeeds while `OnTimer` has one. -/
def onTimer (s : State ι φ) (f : φ) (x : Choice ι) (i : Info) : TimerStage → State ι φ
  | .lock =>
    if s.refs i = 0 then s.goto f .user
    else { s.goto f (.onTimer .test i) with refs := Function.update s.refs i (s.refs i + 1) }
  | .test => if s.cancelled i then s.drop f i else s.goto f (.onTimer .mark i)
  | .mark => { s.goto f (.onTimer .cancelEvent i) with cancelled := Function.update s.cancelled i true }
  | .cancelEvent =>
    s.onTable (.cancelEvent i.fd i.event (x.ok && s.isOpen i.fd)) fun _ s =>
      { s.drop f i with fired := Function.update s.fired i true }

/-- `get(fd, true)` of `socket` and `accept`; whatever is open here is a socket. -/
def manage (s : State ι φ) (f : φ) (fd : Nat) : State ι φ :=
  match s.fds.get fd true (if s.isOpen fd then some true else none) with
  | none => { s with fault := some .outOfBounds }
  | some (_, fds) => { s.goto f .user with fds := fds }

/-- `schedule(cbs.begin(), cbs.end())` of `idle`. -/
def schedule (s : State ι φ) (f : φ) (cbs : List (Option Info)) : State ι φ :=
  { s.goto f .user with
    table := { s.table with
      fibers := fun _ => scheduleAll (s.table.fibers ()) (cbs.map fun cb => (FiberAndThread.ofCbPtr cb (-1)).1) } }

/-- A node is taken out of the queue. -/
def take (s : State ι φ) (ft : FiberAndThread φ Info) (f : φ) (d : Doing ι) : Option (State ι φ) :=
  if ft ∈ s.table.fibers () then
    some { s.goto f d with table := { s.table with fibers := fun _ => (s.table.fibers ()).erase ft } }
  else none

end State

def step (s : State ι φ) (a : Act ι φ) : Option (State ι φ) :=
  if s.fault.isSome then none
  else match a with
    | .socket f fd =>
      match s.doing f with
      | .user => (s.openFd fd).map fun s => s.goto f (.manage fd)
      | _ => none
    | .doIo f hook fd =>
      match s.doing f with
      | .user => some (s.goto f (.enter hook fd))
      | _ => none
    | .close f fd =>
      match s.doing f with
      | .user => some (s.goto f (.close .lookup fd))
      | _ => none
    | .onTimer f i =>
      match s.doing f with
      | .user => s.take { cb := some i } f (.onTimer .lock i)
      | _ => none
    | .idle f now tmp =>
      match s.doing f, s.timers.objects tmp with
      | .user, none =>
        let r := s.timers.listExpiredCb now tmp []
        some { s.goto f (.idle r.1) with timers := r.2 }
      | _, _ => none
    | .work f x =>
      match s.doing f with
      | .user => none
      | .enter hook fd => some (s.enter f hook fd)
      | .direct hook fd => s.direct f hook fd x.result
      | .io st c => s.doIo f x c st
      | .manage fd => some (s.manage f fd)
      | .close st fd => some (s.close f x fd st)
      | .onTimer st i => some (s.onTimer f x i st)
      | .idle cbs => some (s.schedule f cbs)
    | .resume f =>
      match s.doing f with
      | .io .suspended c => s.take { fiber := some f } f (.io .resumed c)
      | _ => none
    | .dispatch fd r ok => some (s.onTable (.dispatch fd r (ok && s.isOpen fd)) fun _ s => s)
    | .setTimeout fd type v => some { s with fds := s.fds.modify fd (·.setTimeout type v) }
    | .setUserNonblock fd v => some { s with fds := s.fds.modify fd (·.setUserNonblock v) }

end

end ShioSylar.Hook
