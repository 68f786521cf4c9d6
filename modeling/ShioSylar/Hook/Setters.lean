import ShioSylar.Hook.Nonblock
import ShioSylar.Hook.Sleep

/-! The hooked setters (`setsockopt`, `fcntl` and `ioctl` of `hook.cc`).

Three functions keep `FdCtx` in step with the kernel: `setsockopt` the timeouts, F_SETFL and
FIONBIO the user's O_NONBLOCK. Each writes the table first and asks the kernel then, and none
takes the write back when the kernel refuses, where `socket` and `accept` look at the result
before they touch the table. So a refused call leaves the table alone only where it writes what
is there (`refused_iff`). -/
namespace ShioSylar.Hook
open TimerManager (U64)

structure Timeval where
  sec : Int
  usec : Int

/-- `v->tv_sec * 1000 + v->tv_usec / 1000`, as a `uint64_t`; `none` is undefined. -/
def Timeval.ms (v : Timeval) : Option U64 := do
  let ms ← long (v.sec * 1000)
  let ms ← long (ms + v.usec.tdiv 1000)
  some (BitVec.ofInt 64 ms)

def solSocket : BitVec 32 := 1

def soRcvtimeo : BitVec 32 := 20

def soSndtimeo : BitVec 32 := 21

/-- The option names a timeout. -/
def timeoutSo (level optname : BitVec 32) : Option TimeoutSo :=
  if level = solSocket then
    if optname = soRcvtimeo then some .rcvtimeo
    else if optname = soSndtimeo then some .sndtimeo
    else none
  else none

namespace Process

/-- `setsockopt_f`; the table of files has no timeouts. -/
def setsockoptF (s : Process) (sockfd : Nat) (ok : Bool) : Returned × Process :=
  s.system sockfd ok fun x => (0, x)

/-- `setTimeout` through the pointer. -/
def setTimeout (s : Process) (fd : Nat) (type : TimeoutSo) (v : U64) : Process :=
  { s with fds := s.fds.modify fd (·.setTimeout type v) }

/-- `setsockopt`; `v` is what `optval` points to, and is read for a timeout only. -/
def setsockopt (s : Process) (hookEnable : Bool) (sockfd : Nat) (level optname : BitVec 32) (v : Timeval)
    (ok : Bool) : Option (Returned × Process) :=
  if !hookEnable then some (s.setsockoptF sockfd ok)
  else
    match timeoutSo level optname with
    | none => some (s.setsockoptF sockfd ok)
    | some type =>
      (s.fds.get sockfd false none).bind fun r =>
        match r.1 with
        | none => some (s.setsockoptF sockfd ok)
        | some _ => v.ms.map fun ms => (s.setTimeout sockfd type ms).setsockoptF sockfd ok

end Process

/-- A setter and its argument. -/
inductive Setter where
  | setsockopt (hookEnable : Bool) (level optname : BitVec 32) (v : Timeval)
  | setfl (arg : Flags)
  | fionbio (value : BitVec 32)

def Process.set (s : Process) (fd : Nat) (ok : Bool) : Setter → Option (Returned × Process)
  | .setsockopt hookEnable level optname v => s.setsockopt hookEnable fd level optname v ok
  | .setfl arg => s.setfl fd arg ok
  | .fionbio value => s.fionbio fd value ok

/-- The call writes what `ctx` holds, or nothing. -/
def Setter.Idle (ctx : FdCtx) : Setter → Prop
  | .setsockopt hookEnable level optname v =>
    hookEnable = false ∨ ∀ type ∈ timeoutSo level optname, v.ms = some (ctx.getTimeout type)
  | .setfl arg => hasNonblock arg = ctx.userNonblock
  | .fionbio value => (value != 0) = ctx.userNonblock

/-! ### A refused call -/

section
variable {s t : Process} {fd : Nat} {ctx : FdCtx} {ok : Bool} {r : Returned}

/-- The kernel refuses exactly the calls that return -1. -/
theorem Process.system_refused {next : File → Returned × File} (hnext : ∀ x, (next x).1 = 0) :
    (s.system fd ok next).1 = -1 ↔ ¬((s.files fd).isSome = true ∧ ok = true) := by
  cases hx : s.files fd with
  | none => simp [Process.system, hx]
  | some x => cases ok <;> simp [Process.system, hx, hnext]

@[simp] theorem Process.system_fds (next : File → Returned × File) : (s.system fd ok next).2.fds = s.fds := by
  unfold Process.system
  split <;> rfl

theorem setUserNonblock_eq_self {v : Bool} : ctx.setUserNonblock v = ctx ↔ v = ctx.userNonblock := by
  constructor
  · intro h
    exact congrArg FdCtx.userNonblock h
  · rintro rfl
    rfl

theorem setTimeout_eq_self {type : TimeoutSo} {v : U64} :
    ctx.setTimeout type v = ctx ↔ v = ctx.getTimeout type := by
  cases type with
  | rcvtimeo => exact ⟨congrArg FdCtx.recvTimeout, by rintro rfl; rfl⟩
  | sndtimeo => exact ⟨congrArg FdCtx.sendTimeout, by rintro rfl; rfl⟩

/-- A write of what the entry holds, and no other, leaves the table as it was. -/
theorem FdManager.modify_eq_self {m : FdManager} (hctx : m.ctx fd = some ctx) (op : FdCtx → FdCtx) :
    m.modify fd op = m ↔ op ctx = ctx := by
  constructor
  · intro h
    have hself := m.modify_ctx fd op fd
    rw [h, if_pos rfl, hctx] at hself
    exact (Option.some.inj hself).symm
  · intro h
    refine congrArg FdManager.mk (List.ext_getElem? fun n => ?_)
    rw [List.getElem?_modify]
    by_cases hn : fd = n
    · subst hn
      rw [FdManager.ctx, List.getD_eq_getElem?_getD] at hctx
      cases hp : m.datas[fd]? with
      | none => rfl
      | some p =>
        rw [hp, Option.getD_some] at hctx
        simp [hctx, h]
    · simp [hn]

/-- The table is written, and the kernel asked. -/
theorem refused_write (hctx : s.fds.ctx fd = some ctx) (op : FdCtx → FdCtx) (ok : Bool)
    (next : File → Returned × File) (hnext : ∀ x, (next x).1 = 0) :
    ((({ s with fds := s.fds.modify fd op } : Process).system fd ok next).1 = -1 →
      (({ s with fds := s.fds.modify fd op } : Process).system fd ok next).2.fds = s.fds) ↔
    (((s.files fd).isSome = true ∧ ok = true) ∨ op ctx = ctx) := by
  rw [Process.system_refused hnext, Process.system_fds, FdManager.modify_eq_self hctx, ← or_iff_not_imp_left]

/-- The kernel is asked, and nothing is written. -/
theorem refused_idle (next : File → Returned × File) :
    ((s.system fd ok next).1 = -1 → (s.system fd ok next).2.fds = s.fds) :=
  fun _ => Process.system_fds next

/-- **Refused calls.** For every managed socket and every argument: a call that returns -1 leaves
the table as it was if and only if the kernel does not refuse it, or it writes what the entry
holds already. -/
theorem refused_iff (s t : Process) (fd : Nat) (ctx : FdCtx) (hm : s.managed fd = some (some ctx)) (c : Setter)
    (ok : Bool) (r : Returned) (h : s.set fd ok c = some (r, t)) :
    (r = -1 → t.fds = s.fds) ↔ (((s.files fd).isSome = true ∧ ok = true) ∨ c.Idle ctx) := by
  have hctx : s.fds.ctx fd = some ctx := by
    rw [Process.managed_eq, Option.some.injEq, Option.filter_eq_some_iff] at hm
    exact hm.1
  cases c with
  | setfl arg =>
    simp only [Process.set, Process.setfl, hm, Option.map_some, Option.some.injEq] at h
    have hwrite := refused_write hctx (·.setUserNonblock (hasNonblock arg)) ok
      (fun x => (0, x.setfl (if ctx.sysNonblock then arg ||| oNonblock else arg &&& ~~~oNonblock)))
      fun _ => rfl
    rw [setUserNonblock_eq_self] at hwrite
    obtain ⟨rfl, rfl⟩ := Prod.mk.inj h
    exact hwrite
  | fionbio value =>
    simp only [Process.set, Process.fionbio, hm, Option.map_some, Option.some.injEq] at h
    have hwrite := refused_write hctx (·.setUserNonblock (value != 0)) ok
      (fun x => (0, x.fionbio value)) fun _ => rfl
    rw [setUserNonblock_eq_self] at hwrite
    obtain ⟨rfl, rfl⟩ := Prod.mk.inj h
    exact hwrite
  | setsockopt hookEnable level optname v =>
    simp only [Process.set, Process.setsockopt, FdManager.get_ctx, hctx, Option.bind_some] at h
    cases hookEnable with
    | false =>
      obtain ⟨rfl, rfl⟩ := Prod.mk.inj (Option.some.inj h)
      exact iff_of_true (refused_idle _) (.inr (.inl rfl))
    | true =>
      cases htype : timeoutSo level optname with
      | none =>
        rw [htype] at h
        obtain ⟨rfl, rfl⟩ := Prod.mk.inj (Option.some.inj h)
        exact iff_of_true (refused_idle _) (.inr (.inr (by simp [htype])))
      | some type =>
        rw [htype] at h
        obtain ⟨ms, hms, h⟩ := Option.map_eq_some_iff.mp h
        have hwrite := refused_write hctx (·.setTimeout type ms) ok (fun x => (0, x)) fun _ => rfl
        rw [setTimeout_eq_self] at hwrite
        have hidle : (Setter.setsockopt true level optname v).Idle ctx ↔ ms = ctx.getTimeout type := by
          simp [Setter.Idle, htype, hms]
        rw [hidle]
        obtain ⟨rfl, rfl⟩ := Prod.mk.inj h
        exact hwrite

/-- A socket with a timeout of five seconds, and one that the kernel refuses: its microseconds are
a second. -/
theorem setsockopt_refused : ∃ s t ctx ctx', Lib.run Process.step (Process.start fun _ => none)
      [.socket 1 3] = some s ∧
    (s.set 3 true (.setsockopt true solSocket soRcvtimeo ⟨5, 0⟩)).map Prod.snd = some t ∧
    t.managed 3 = some (some ctx) ∧ ctx.recvTimeout = 5000 ∧
    ∃ u, t.set 3 false (.setsockopt true solSocket soRcvtimeo ⟨1, 1000000⟩) = some (-1, u) ∧
      u.fds.ctx 3 = some ctx' ∧ ctx'.recvTimeout = 2000 :=
  ⟨_, _, _, _, rfl, rfl, rfl, rfl, _, rfl, rfl, rfl⟩

/-- A FIONBIO of 0 that the kernel refuses, on a socket that is a blocking one to the user. -/
theorem refused_iff_fionbio : ∃ s ctx t, Lib.run Process.step (Process.start fun _ => none)
      [.socket 1 3] = some s ∧ s.managed 3 = some (some ctx) ∧ s.set 3 false (.fionbio 0) = some (-1, t) ∧
    t.fds = s.fds :=
  ⟨_, _, _, rfl, rfl, rfl, (refused_iff _ _ 3 _ rfl (.fionbio 0) false (-1) rfl).mpr (.inr (by exact rfl)) rfl⟩

end

end ShioSylar.Hook
