import ShioSylar.Hook.DoIo
import ShioSylar.Hook.Nonblock

/-! What the hooks ask of the system (`hook.cc`).

A hooked function is a program over the original functions and over what the hooks keep about
descriptors. `run` collects the calls of the system that it makes, given their results: those of the
original functions, and the `fstat` of `FdCtx::init`; `wait` stands for the loops of `do_io` and
`connect_with_timeout`, which a managed socket goes on to. On a descriptor without an entry a hook is
to make the one call it stands for (`transparent_iff`). `accept` goes on with `get(fd, true)` for the
descriptor that it returns, and makes more calls where that has no entry.

An argument behind `...` is there or not and has a type, and `va_arg` of another type is
undefined. An `int` that `ioctl` reads through its argument is in `readable`. -/
namespace ShioSylar.Hook.Passthrough
open TimerManager (U64)

abbrev Ptr := BitVec 64

/-- `int`. -/
abbrev CInt := BitVec 32

/-- An argument behind `...`. -/
inductive VarArg where
  | none
  | int (arg : CInt)
  | ptr (arg : Ptr)
  deriving DecidableEq

/-- A call of an original function. -/
inductive Call where
  | connect (fd : Int) (addr : Ptr) (addrlen : CInt)
  | accept (s : Int) (addr addrlen : Ptr)
  | read (fd : Int) (buf : Ptr) (count : U64)
  | readv (fd : Int) (iov : Ptr) (iovcnt : CInt)
  | recv (sockfd : Int) (buf : Ptr) (len : U64) (flags : CInt)
  | recvfrom (sockfd : Int) (buf : Ptr) (len : U64) (flags : CInt) (srcAddr addrlen : Ptr)
  | recvmsg (sockfd : Int) (msg : Ptr) (flags : CInt)
  | write (fd : Int) (buf : Ptr) (count : U64)
  | writev (fd : Int) (iov : Ptr) (iovcnt : CInt)
  | send (s : Int) (msg : Ptr) (len : U64) (flags : CInt)
  | sendto (s : Int) (msg : Ptr) (len : U64) (flags : CInt) (to_ : Ptr) (tolen : CInt)
  | sendmsg (s : Int) (msg : Ptr) (flags : CInt)
  | close (fd : Int)
  | fcntl (fd : Int) (cmd : CInt) (arg : VarArg)
  | ioctl (d : Int) (request : U64) (arg : Ptr)
  | getsockopt (sockfd : Int) (level optname : CInt) (optval optlen : Ptr)
  | setsockopt (sockfd : Int) (level optname : CInt) (optval : Ptr) (optlen : CInt)
  deriving DecidableEq

/-- A call of the system. -/
inductive SysCall where
  | original (c : Call)
  | fstat (fd : Int)
  deriving DecidableEq

/-- The descriptor a call is about. -/
def Call.fd : Call → Int
  | .connect fd .. | .accept fd .. | .read fd .. | .readv fd .. | .recv fd .. | .recvfrom fd ..
  | .recvmsg fd .. | .write fd .. | .writev fd .. | .send fd .. | .sendto fd .. | .sendmsg fd ..
  | .close fd | .fcntl fd .. | .ioctl fd .. | .getsockopt fd .. | .setsockopt fd .. => fd

/-- What a hooked function does. -/
inductive Prog where
  | ret (n : Int)
  /-- `errno = ..; return -1`. -/
  | fail (errno : Errno)
  | call (c : Call) (next : Int → Prog)
  /-- `fstat`, which fails or tells whether it is a socket. -/
  | fstat (fd : Int) (next : Option Bool → Prog)
  /-- `m_datas[fd] = ctx`, after `resize`. -/
  | store (fd : Int) (next : Prog)
  | cancelAll (fd : Int) (next : Prog)
  | del (fd : Int) (next : Prog)
  | setUserNonblock (fd : Int) (v : Bool) (next : Prog)
  | setTimeout (fd : Int) (type : TimeoutSo) (v : U64) (next : Prog)
  /-- The loop of a managed socket that blocks. -/
  | wait (c : Call) (next : Int → Prog)
  | undefined

/-- How a hooked function ends. -/
inductive Outcome where
  | ret (n : Int)
  | fail (errno : Errno)
  | waits (c : Call)
  | undefined
  deriving DecidableEq

/-- The calls of the system, and how it ends. -/
def Prog.run (answer : Call → Int) (stat : Int → Option Bool) : Prog → List SysCall × Outcome
  | .ret n => ([], .ret n)
  | .fail errno => ([], .fail errno)
  | .call c next =>
    let r := (next (answer c)).run answer stat
    (.original c :: r.1, r.2)
  | .fstat fd next =>
    let r := (next (stat fd)).run answer stat
    (.fstat fd :: r.1, r.2)
  | .store _ next | .cancelAll _ next | .del _ next | .setUserNonblock _ _ next
  | .setTimeout _ _ _ next => next.run answer stat
  | .wait c _ => ([], .waits c)
  | .undefined => ([], .undefined)

/-- What a hooked function reads. -/
structure Env where
  hookEnable : Bool
  fds : FdManager
  /-- `IOManager::GetThis()` is not null. -/
  iom : Bool
  /-- The `int` at an address. -/
  readable : Ptr → Option CInt
  /-- `tv_sec` and `tv_usec` at an address. -/
  timeval : Ptr → Option (U64 × U64)

def solSocket : CInt := 1

def soRcvtimeo : CInt := 20

def soSndtimeo : CInt := 21

def fionbio : U64 := 0x5421

/-- `F_SETFL`. -/
def fSetfl : CInt := 4

/-- `F_GETFL`. -/
def fGetfl : CInt := 3

/-- `F_DUPFD`, `F_DUPFD_CLOEXEC`, `F_SETFD`, `F_SETOWN`, `F_SETSIG`, `F_SETLEASE`, `F_NOTIFY`
and `F_SETPIPE_SZ`. -/
def fInt : List CInt := [0, 1030, 2, 8, 10, 1024, 1026, 1031]

/-- `F_GETFD`, `F_GETOWN`, `F_GETSIG`, `F_GETLEASE` and `F_GETPIPE_SZ`. -/
def fNone : List CInt := [1, 9, 11, 1025, 1032]

/-- `F_SETLK`, `F_SETLKW` and `F_GETLK`. -/
def fLock : List CInt := [6, 7, 5]

/-- `F_GETOWN_EX` and `F_SETOWN_EX`. -/
def fOwnerEx : List CInt := [16, 15]

namespace Env

/-- `get(fd)`; `none` is an access before the vector. -/
def lookup (e : Env) (fd : Int) : Option (Option FdCtx) := (e.fds.get fd false none).map (·.1)

/-- `FdCtx::init`. -/
def init (fd : Int) (next : Prog) : Prog :=
  .fstat fd fun stat =>
    if stat.getD false then
      .call (.fcntl fd fGetfl (.int 0)) fun flags =>
        let flags := BitVec.ofInt 32 flags
        if !hasNonblock flags then .call (.fcntl fd fSetfl (.int (flags ||| oNonblock))) fun _ => next
        else next
    else next

/-- `get(fd, true)`. -/
def getCreate (e : Env) (fd : Int) (next : Prog) : Prog :=
  if fd = -1 then next
  else
    match e.fds.find fd true with
    | none => .undefined
    | some r => if r.2 then next else init fd (.store fd next)

/-- `va_arg(va, int)`. -/
def vaInt (arg : VarArg) (next : CInt → Prog) : Prog :=
  match arg with
  | .int arg => next arg
  | _ => .undefined

/-- `va_arg` of a pointer. -/
def vaPtr (arg : VarArg) (next : Ptr → Prog) : Prog :=
  match arg with
  | .ptr arg => next arg
  | _ => .undefined

/-- `!ctx || ctx->isClose() || !ctx->isSocket()` is false. -/
def managed (ctx : Option FdCtx) : Option FdCtx := ctx.filter fun ctx => !ctx.isClosed && ctx.isSocket

/-- `do_io`, for the call that `fun` and its arguments make. -/
def doIo (e : Env) (c : Call) (next : Int → Prog) : Prog :=
  if !e.hookEnable then .call c next
  else
    match e.lookup c.fd with
    | none => .undefined
    | some none => .call c next
    | some (some ctx) =>
      if ctx.isClosed then .fail .badf
      else if !ctx.isSocket || ctx.userNonblock then .call c next
      else .wait c next

def connect (e : Env) (fd : Int) (addr : Ptr) (addrlen : CInt) : Prog :=
  let c : Call := .connect fd addr addrlen
  if !e.hookEnable then .call c .ret
  else
    match e.lookup fd with
    | none => .undefined
    | some none => .fail .badf
    | some (some ctx) =>
      if ctx.isClosed then .fail .badf
      else if !ctx.isSocket then .call c .ret
      else if ctx.userNonblock then .call c .ret
      else .wait c .ret

def accept (e : Env) (s : Int) (addr addrlen : Ptr) : Prog :=
  e.doIo (.accept s addr addrlen) fun fd => if fd ≥ 0 then e.getCreate fd (.ret fd) else .ret fd

def read (e : Env) (fd : Int) (buf : Ptr) (count : U64) : Prog := e.doIo (.read fd buf count) .ret

def readv (e : Env) (fd : Int) (iov : Ptr) (iovcnt : CInt) : Prog := e.doIo (.readv fd iov iovcnt) .ret

def recv (e : Env) (sockfd : Int) (buf : Ptr) (len : U64) (flags : CInt) : Prog :=
  e.doIo (.recv sockfd buf len flags) .ret

def recvfrom (e : Env) (sockfd : Int) (buf : Ptr) (len : U64) (flags : CInt) (srcAddr addrlen : Ptr) : Prog :=
  e.doIo (.recvfrom sockfd buf len flags srcAddr addrlen) .ret

def recvmsg (e : Env) (sockfd : Int) (msg : Ptr) (flags : CInt) : Prog :=
  e.doIo (.recvmsg sockfd msg flags) .ret

def write (e : Env) (fd : Int) (buf : Ptr) (count : U64) : Prog := e.doIo (.write fd buf count) .ret

def writev (e : Env) (fd : Int) (iov : Ptr) (iovcnt : CInt) : Prog := e.doIo (.writev fd iov iovcnt) .ret

def send (e : Env) (s : Int) (msg : Ptr) (len : U64) (flags : CInt) : Prog :=
  e.doIo (.send s msg len flags) .ret

def sendto (e : Env) (s : Int) (msg : Ptr) (len : U64) (flags : CInt) (to_ : Ptr) (tolen : CInt) : Prog :=
  e.doIo (.sendto s msg len flags to_ tolen) .ret

def sendmsg (e : Env) (s : Int) (msg : Ptr) (flags : CInt) : Prog := e.doIo (.sendmsg s msg flags) .ret

def close (e : Env) (fd : Int) : Prog :=
  if !e.hookEnable then .call (.close fd) .ret
  else
    match e.lookup fd with
    | none => .undefined
    | some none => .call (.close fd) .ret
    | some (some _) =>
      if e.iom then .cancelAll fd (.del fd (.call (.close fd) .ret))
      else .del fd (.call (.close fd) .ret)

def fcntl (e : Env) (fd : Int) (cmd : CInt) (arg : VarArg) : Prog :=
  if cmd = fSetfl then
    vaInt arg fun arg =>
      match e.lookup fd with
      | none => .undefined
      | some ctx =>
        match managed ctx with
        | none => .call (.fcntl fd cmd (.int arg)) .ret
        | some ctx =>
          let flags := if ctx.sysNonblock then arg ||| oNonblock else arg &&& ~~~oNonblock
          .setUserNonblock fd (hasNonblock arg) (.call (.fcntl fd cmd (.int flags)) .ret)
  else if cmd = fGetfl then
    .call (.fcntl fd cmd .none) fun arg =>
      match e.lookup fd with
      | none => .undefined
      | some ctx =>
        match managed ctx with
        | none => .ret arg
        | some ctx =>
          let flags := BitVec.ofInt 32 arg
          .ret (if ctx.userNonblock then flags ||| oNonblock else flags &&& ~~~oNonblock).toInt
  else if cmd ∈ fInt then vaInt arg fun arg => .call (.fcntl fd cmd (.int arg)) .ret
  else if cmd ∈ fNone then .call (.fcntl fd cmd .none) .ret
  else if cmd ∈ fLock then vaPtr arg fun arg => .call (.fcntl fd cmd (.ptr arg)) .ret
  else if cmd ∈ fOwnerEx then vaPtr arg fun arg => .call (.fcntl fd cmd (.ptr arg)) .ret
  else .call (.fcntl fd cmd .none) .ret

def ioctl (e : Env) (d : Int) (request : U64) (arg : Ptr) : Prog :=
  if request = fionbio then
    match e.readable arg, e.lookup d with
    | none, _ => .undefined
    | _, none => .undefined
    | some value, some ctx =>
      match managed ctx with
      | none => .call (.ioctl d request arg) .ret
      | some _ => .setUserNonblock d (value != 0) (.call (.ioctl d request arg) .ret)
  else .call (.ioctl d request arg) .ret

def getsockopt (_ : Env) (sockfd : Int) (level optname : CInt) (optval optlen : Ptr) : Prog :=
  .call (.getsockopt sockfd level optname optval optlen) .ret

def setsockopt (e : Env) (sockfd : Int) (level optname : CInt) (optval : Ptr) (optlen : CInt) : Prog :=
  let c : Call := .setsockopt sockfd level optname optval optlen
  if !e.hookEnable then .call c .ret
  else if level = solSocket then
    if optname = soRcvtimeo ∨ optname = soSndtimeo then
      match e.lookup sockfd with
      | none => .undefined
      | some none => .call c .ret
      | some (some _) =>
        match e.timeval optval with
        | none => .undefined
        | some v =>
          .setTimeout sockfd (if optname = soRcvtimeo then .rcvtimeo else .sndtimeo)
            (v.1 * 1000 + v.2.sdiv 1000) (.call c .ret)
    else .call c .ret
  else .call c .ret

/-- The hook that is called in place of the original function. -/
def hook (e : Env) : Call → Prog
  | .connect fd addr addrlen => e.connect fd addr addrlen
  | .accept s addr addrlen => e.accept s addr addrlen
  | .read fd buf count => e.read fd buf count
  | .readv fd iov iovcnt => e.readv fd iov iovcnt
  | .recv sockfd buf len flags => e.recv sockfd buf len flags
  | .recvfrom sockfd buf len flags srcAddr addrlen => e.recvfrom sockfd buf len flags srcAddr addrlen
  | .recvmsg sockfd msg flags => e.recvmsg sockfd msg flags
  | .write fd buf count => e.write fd buf count
  | .writev fd iov iovcnt => e.writev fd iov iovcnt
  | .send s msg len flags => e.send s msg len flags
  | .sendto s msg len flags to_ tolen => e.sendto s msg len flags to_ tolen
  | .sendmsg s msg flags => e.sendmsg s msg flags
  | .close fd => e.close fd
  | .fcntl fd cmd arg => e.fcntl fd cmd arg
  | .ioctl d request arg => e.ioctl d request arg
  | .getsockopt sockfd level optname optval optlen => e.getsockopt sockfd level optname optval optlen
  | .setsockopt sockfd level optname optval optlen => e.setsockopt sockfd level optname optval optlen

end Env

/-! ### Without an entry -/

/-- The arguments that a hook hands on as they are, or can be called with at all, and for `accept` the
descriptors that are kept already. -/
def PassesOn (e : Env) (answer : Call → Int) : Call → Prop
  | .connect .. => False
  | .accept s addr addrlen => answer (.accept s addr addrlen) < 0 ∨
    ∃ ctx, e.lookup (answer (.accept s addr addrlen)) = some (some ctx)
  | .fcntl _ cmd arg =>
    if cmd = fSetfl ∨ cmd ∈ fInt then ∃ v, arg = .int v
    else if cmd ∈ fLock ∨ cmd ∈ fOwnerEx then ∃ p, arg = .ptr p
    else arg = .none
  | .ioctl _ request arg => request = fionbio → (e.readable arg).isSome = true
  | _ => True

section
variable (fd : Int) (cmd : CInt) (arg : VarArg) (answer : Call → Int) (stat : Int → Option Bool)

/-- A call is made with one argument behind `...` and not with another. -/
theorem run_fcntl (arg' : VarArg) :
    (Prog.call (.fcntl fd cmd arg') .ret).run answer stat =
      ([.original (.fcntl fd cmd arg)], .ret (answer (.fcntl fd cmd arg))) ↔ arg = arg' := by
  constructor
  · intro h
    have hcall := SysCall.original.inj (List.cons.inj (Prod.mk.inj h).1).1
    exact (Call.fcntl.inj hcall).2.2.symm
  · rintro rfl
    rfl

theorem run_vaInt : (Env.vaInt arg fun arg => .call (.fcntl fd cmd (.int arg)) .ret).run answer stat =
    ([.original (.fcntl fd cmd arg)], .ret (answer (.fcntl fd cmd arg))) ↔ ∃ v, arg = .int v := by
  cases arg with
  | int v => exact ⟨fun _ => ⟨v, rfl⟩, fun _ => rfl⟩
  | none | ptr p =>
    refine ⟨fun h => ?_, nofun⟩
    cases (Prod.mk.inj h).1

theorem run_vaPtr : (Env.vaPtr arg fun arg => .call (.fcntl fd cmd (.ptr arg)) .ret).run answer stat =
    ([.original (.fcntl fd cmd arg)], .ret (answer (.fcntl fd cmd arg))) ↔ ∃ p, arg = .ptr p := by
  cases arg with
  | ptr p => exact ⟨fun _ => ⟨p, rfl⟩, fun _ => rfl⟩
  | none | int v =>
    refine ⟨fun h => ?_, nofun⟩
    cases (Prod.mk.inj h).1

end

/-- The commands whose argument is neither an `int` nor a pointer to the hook. -/
theorem passesOn_none {e : Env} {answer : Call → Int} {fd : Int} {cmd : CInt} {arg : VarArg} (hset : cmd ≠ fSetfl)
    (hint : cmd ∉ fInt) (hlock : cmd ∉ fLock) (hown : cmd ∉ fOwnerEx) :
    PassesOn e answer (.fcntl fd cmd arg) ↔ arg = .none := by
  rw [PassesOn, if_neg (not_or.mpr ⟨hset, hint⟩), if_neg (not_or.mpr ⟨hlock, hown⟩)]

section
variable {e : Env} {fd : Int} (hnull : e.lookup fd = some none) (answer : Call → Int) (stat : Int → Option Bool)
include hnull

theorem fcntl_null (cmd : CInt) (arg : VarArg) :
    (e.fcntl fd cmd arg).run answer stat = ([.original (.fcntl fd cmd arg)], .ret (answer (.fcntl fd cmd arg))) ↔
      PassesOn e answer (.fcntl fd cmd arg) := by
  have hmanaged : Env.managed none = none := rfl
  unfold Env.fcntl
  by_cases hset : cmd = fSetfl
  · simp only [if_pos hset, hnull, hmanaged]
    rw [run_vaInt, PassesOn, if_pos (.inl hset)]
  · rw [if_neg hset]
    by_cases hget : cmd = fGetfl
    · have hall : fGetfl ≠ fSetfl ∧ fGetfl ∉ fInt ∧ fGetfl ∉ fLock ∧ fGetfl ∉ fOwnerEx := by decide
      simp only [if_pos hget, hnull, hmanaged]
      rw [run_fcntl, hget, passesOn_none hall.1 hall.2.1 hall.2.2.1 hall.2.2.2]
    · rw [if_neg hget]
      by_cases hint : cmd ∈ fInt
      · rw [if_pos hint, run_vaInt, PassesOn, if_pos (.inr hint)]
      · rw [if_neg hint]
        have hneither : ¬(cmd = fSetfl ∨ cmd ∈ fInt) := not_or.mpr ⟨hset, hint⟩
        by_cases hnone : cmd ∈ fNone
        · have hall : (fNone.all fun cmd => cmd ∉ fLock ∧ cmd ∉ fOwnerEx) = true := by decide
          obtain ⟨hlock, hown⟩ := of_decide_eq_true (List.all_eq_true.mp hall cmd hnone)
          rw [if_pos hnone, run_fcntl, passesOn_none hset hint hlock hown]
        · rw [if_neg hnone]
          by_cases hlock : cmd ∈ fLock
          · rw [if_pos hlock, run_vaPtr, PassesOn, if_neg hneither, if_pos (.inl hlock)]
          · rw [if_neg hlock]
            by_cases hown : cmd ∈ fOwnerEx
            · rw [if_pos hown, run_vaPtr, PassesOn, if_neg hneither, if_pos (.inr hown)]
            · rw [if_neg hown, run_fcntl, passesOn_none hset hint hlock hown]

theorem ioctl_null (request : U64) (arg : Ptr) :
    (e.ioctl fd request arg).run answer stat =
      ([.original (.ioctl fd request arg)], .ret (answer (.ioctl fd request arg))) ↔
      PassesOn e answer (.ioctl fd request arg) := by
  unfold Env.ioctl
  by_cases hreq : request = fionbio
  · rw [if_pos hreq, hnull]
    cases hread : e.readable arg with
    | none =>
      refine ⟨fun h => ?_, fun h => ?_⟩
      · cases (Prod.mk.inj h).1
      · have hsome := h hreq
        rw [hread] at hsome
        cases hsome
    | some value => exact ⟨fun _ _ => by rw [hread]; rfl, fun _ => rfl⟩
  · rw [if_neg hreq]
    exact ⟨fun _ h => absurd h hreq, fun _ => rfl⟩

end

/-- What `get(fd, true)` does before an entry is stored. -/
theorem getCreate_run (e : Env) (fd : Nat) (n : Int) (answer : Call → Int) (stat : Int → Option Bool) :
    (e.getCreate fd (.ret n)).run answer stat = ([], .ret n) ↔ ∃ ctx, e.lookup fd = some (some ctx) := by
  have hlookup : e.lookup fd = some (e.fds.ctx fd) := by
    unfold Env.lookup
    rw [FdManager.get_ctx]
    rfl
  have hne : (fd : Int) ≠ -1 := by omega
  unfold Env.getCreate
  rw [if_neg hne, FdManager.find_ctx, hlookup]
  cases e.fds.ctx fd with
  | some ctx => exact ⟨fun _ => ⟨ctx, rfl⟩, fun _ => rfl⟩
  | none =>
    refine ⟨fun h => ?_, fun h => ?_⟩
    · cases (Prod.mk.inj h).1
    · obtain ⟨ctx, hctx⟩ := h
      cases hctx

/-- **Transparency.** With hooking enabled, a hooked call on a descriptor without an entry makes
that call of the original function and no other call of the system, and returns its result, if and
only if it is not `connect`, it is no `accept` that returns a descriptor without an entry, it is no
`fcntl` whose argument the hook drops or takes for something else, and it is no FIONBIO whose argument
cannot be read. -/
theorem transparent_iff (e : Env) (c : Call) (answer : Call → Int) (stat : Int → Option Bool)
    (hhook : e.hookEnable = true) (hnull : e.lookup c.fd = some none) :
    (e.hook c).run answer stat = ([.original c], .ret (answer c)) ↔ PassesOn e answer c := by
  have hdoIo : ∀ next, (e.doIo c next).run answer stat =
      (.original c :: ((next (answer c)).run answer stat).1, ((next (answer c)).run answer stat).2) := by
    intro next
    simp only [Env.doIo, hhook, hnull, Bool.not_true, Bool.false_eq_true, if_false]
    rfl
  cases c with
  | connect fd addr addrlen =>
    refine ⟨fun h => ?_, fun h => h.elim⟩
    have hfail : (e.hook (.connect fd addr addrlen)).run answer stat = ([], .fail .badf) := by
      have hnull : e.lookup fd = some none := hnull
      simp only [Env.hook, Env.connect, hhook, hnull, Bool.not_true, Bool.false_eq_true, if_false]
      rfl
    cases hfail.symm.trans h
  | fcntl fd cmd arg => exact fcntl_null hnull answer stat cmd arg
  | ioctl d request arg => exact ioctl_null hnull answer stat request arg
  | accept s addr addrlen =>
    have hrun := hdoIo fun fd => if fd ≥ 0 then e.getCreate fd (.ret fd) else .ret fd
    show (e.doIo _ _).run answer stat = _ ↔ _ < 0 ∨ _
    rw [hrun]
    by_cases hneg : answer (.accept s addr addrlen) < 0
    · rw [if_neg (by omega)]
      exact ⟨fun _ => .inl hneg, fun _ => rfl⟩
    · obtain ⟨fd, hfd⟩ := Int.eq_ofNat_of_zero_le (Int.not_lt.mp hneg)
      rw [or_iff_right hneg, if_pos (Int.not_lt.mp hneg), hfd, ← getCreate_run e fd fd answer stat]
      refine ⟨fun h => ?_, fun h => by rw [h]⟩
      obtain ⟨hcalls, hend⟩ := Prod.mk.inj h
      exact Prod.ext (List.cons.inj hcalls).2 hend
  | close fd =>
    have hnull : e.lookup fd = some none := hnull
    refine ⟨fun _ => trivial, fun _ => ?_⟩
    simp only [Env.hook, Env.close, hhook, hnull, Bool.not_true, Bool.false_eq_true, if_false]
    rfl
  | getsockopt sockfd level optname optval optlen => exact ⟨fun _ => trivial, fun _ => rfl⟩
  | setsockopt sockfd level optname optval optlen =>
    have hnull : e.lookup sockfd = some none := hnull
    refine ⟨fun _ => trivial, fun _ => ?_⟩
    simp only [Env.hook, Env.setsockopt, hhook, hnull, Bool.not_true, Bool.false_eq_true, if_false]
    split
    · split <;> rfl
    · rfl
  | read | readv | recv | recvfrom | recvmsg | write | writev | send | sendto | sendmsg =>
    exact ⟨fun _ => trivial, fun _ => hdoIo _⟩

/-- No descriptor has an entry, and nothing can be read at address 0. -/
def bare : Env :=
  { hookEnable := true, fds := .init, iom := false, readable := fun p => if p = 0 then none else some 1
    timeval := fun _ => none }

theorem bare_lookup (fd : Nat) : bare.lookup fd = some none := by
  show (FdManager.init.get fd false none).map (·.1) = some none
  rw [FdManager.get_ctx, FdManager.init_ctx]
  rfl

/-- `fcntl(5, F_SETFD, FD_CLOEXEC)`. -/
theorem transparent_iff_setfd : (bare.hook (.fcntl 5 2 (.int 1))).run (fun _ => 0) (fun _ => none) =
    ([.original (.fcntl 5 2 (.int 1))], .ret 0) :=
  (transparent_iff bare (.fcntl 5 2 (.int 1)) (fun _ => 0) (fun _ => none) rfl (bare_lookup 5)).mpr
    (by rw [PassesOn, if_pos (by decide +kernel)]; exact ⟨1, rfl⟩)

/-- `connect` fails without a call, `fcntl(5, F_ADD_SEALS, F_SEAL_SHRINK)` loses its argument,
`ioctl(5, FIONBIO, nullptr)` reads through the null pointer, and `accept` makes the new descriptor
non-blocking. -/
theorem not_transparent :
    bare.lookup 5 = some none ∧
    (bare.hook (.connect 5 64 16)).run (fun _ => 0) (fun _ => some true) = ([], .fail .badf) ∧
    (bare.hook (.fcntl 5 1033 (.int 2))).run (fun _ => 0) (fun _ => some true) =
      ([.original (.fcntl 5 1033 .none)], .ret 0) ∧
    (bare.hook (.ioctl 5 fionbio 0)).run (fun _ => 0) (fun _ => some true) = ([], .undefined) ∧
    (bare.hook (.accept 5 0 0)).run (fun c => if c = .accept 5 0 0 then 9 else 2) (fun _ => some true) =
      ([.original (.accept 5 0 0), .fstat 9, .original (.fcntl 9 fGetfl (.int 0)),
        .original (.fcntl 9 fSetfl (.int 0x802))], .ret 9) :=
  ⟨bare_lookup 5, by decide +kernel, by decide +kernel, by decide +kernel, by decide +kernel⟩

end ShioSylar.Hook.Passthrough
