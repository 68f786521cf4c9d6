import ShioSylar.Hook.FdManager
import ShioSylar.Lib.Run

/-! The two views of O_NONBLOCK (`fcntl` and `ioctl` of `hook.cc`, `FdCtx::init`).

A socket that the hooks manage is non-blocking in the kernel, and `FdCtx` keeps what the
user has asked for. `fcntl(F_SETFL)` notes the user's bit and forces the kernel's, but
`ioctl(FIONBIO)` hands the user's value on (`fionbio_blocks`): the kernel's flags stay
non-blocking exactly as long as nobody passes it 0 (`nonblocking_iff`). What
`fcntl(F_GETFL)` shows of the user's bit is compared with a plain descriptor
(`plain_view_iff`): it drifts from a socket that was created non-blocking, from a call
that failed after its bit was noted, and in the bit that is cleared of a -1.

The kernel hands out any number that is closed. -/
namespace ShioSylar.Hook
open Lib

/-- An `int` of file status flags. -/
abbrev Flags := BitVec 32

def oNonblock : Flags := 0x800

def sockNonblock : Flags := 0x800

def oRdwr : Flags := 2

/-- O_APPEND, O_NONBLOCK, O_ASYNC, O_DIRECT and O_NOATIME: what F_SETFL can change. -/
def setflMask : Flags := 0x46c00

/-- `flags & O_NONBLOCK`, as a truth value. -/
def hasNonblock (flags : Flags) : Bool := flags &&& oNonblock != 0

/-- An open descriptor in the kernel. -/
structure File where
  isSocket : Bool
  flags : Flags
  deriving DecidableEq

namespace File

/-- What `socket(domain, type, protocol)` makes. -/
def socket (type : Flags) : File :=
  ⟨true, oRdwr ||| if type &&& sockNonblock != 0 then oNonblock else 0⟩

/-- What `accept` makes. -/
def accepted : File := ⟨true, oRdwr⟩

/-- F_SETFL. -/
def setfl (x : File) (arg : Flags) : File :=
  { x with flags := (x.flags &&& ~~~setflMask) ||| (arg &&& setflMask) }

/-- FIONBIO. -/
def fionbio (x : File) (value : BitVec 32) : File :=
  { x with flags := if value != 0 then x.flags ||| oNonblock else x.flags &&& ~~~oNonblock }

/-- What `FdCtx::init` does to the flags. -/
def manage (x : File) : File :=
  if x.isSocket && !hasNonblock x.flags then x.setfl (x.flags ||| oNonblock) else x

end File

/-- The hooks' table and the kernel's. -/
structure Process where
  fds : FdManager
  files : Nat → Option File

/-- What a hooked call returns, where it is a number of its own. -/
abbrev Returned := BitVec 32

namespace Process

def start (files : Nat → Option File) : Process := ⟨FdManager.init, files⟩

/-- A call on an open descriptor that can fail; `ok` is free. -/
def system (s : Process) (fd : Nat) (ok : Bool) (next : File → Returned × File) : Returned × Process :=
  match s.files fd, ok with
  | some x, true => ((next x).1, { s with files := Function.update s.files fd (some (next x).2) })
  | _, _ => (-1, s)

/-- `fcntl_f(fd, F_SETFL, arg)`. -/
def setflF (s : Process) (fd : Nat) (arg : Flags) (ok : Bool) : Returned × Process :=
  s.system fd ok fun x => (0, x.setfl arg)

/-- `fcntl_f(fd, F_GETFL)`. -/
def getflF (s : Process) (fd : Nat) (ok : Bool) : Returned × Process :=
  s.system fd ok fun x => (x.flags, x)

/-- `ioctl_f(d, FIONBIO, arg)`. -/
def fionbioF (s : Process) (d : Nat) (value : BitVec 32) (ok : Bool) : Returned × Process :=
  s.system d ok fun x => (0, x.fionbio value)

/-- `FdCtx(fd)`, with its calls on the kernel, put into the table. -/
def create (s : Process) (fd : Nat) : Process :=
  { fds := (s.fds.create fd ((s.files fd).map File.isSocket)).2
    files := Function.update s.files fd ((s.files fd).map File.manage) }

/-- `get(fd, true)`. -/
def manage (s : Process) (fd : Nat) : Option Process :=
  (s.fds.find fd true).map fun r => if r.2 then s else s.create fd

/-- `socket`. -/
def socket (s : Process) (type : Flags) (fd : Nat) : Option Process :=
  if (s.files fd).isSome then none
  else ({ s with files := Function.update s.files fd (some (.socket type)) } : Process).manage fd

/-- `accept` on an open descriptor, where it returns. -/
def accept (s : Process) (listener fd : Nat) : Option Process :=
  if (s.files listener).isNone || (s.files fd).isSome then none
  else ({ s with files := Function.update s.files fd (some .accepted) } : Process).manage fd

/-- `get(fd)`, and `!ctx || ctx->isClose() || !ctx->isSocket()` is false. -/
def managed (s : Process) (fd : Nat) : Option (Option FdCtx) :=
  (s.fds.get fd false none).map fun r => r.1.filter fun ctx => !ctx.isClosed && ctx.isSocket

/-- `setUserNonblock` through the pointer. -/
def setUserNonblock (s : Process) (fd : Nat) (v : Bool) : Process :=
  { s with fds := s.fds.modify fd (·.setUserNonblock v) }

/-- `fcntl(fd, F_SETFL, arg)`. -/
def setfl (s : Process) (fd : Nat) (arg : Flags) (ok : Bool) : Option (Returned × Process) :=
  (s.managed fd).map fun
    | none => s.setflF fd arg ok
    | some ctx =>
      (s.setUserNonblock fd (hasNonblock arg)).setflF fd
        (if ctx.sysNonblock then arg ||| oNonblock else arg &&& ~~~oNonblock) ok

/-- `fcntl(fd, F_GETFL)`. -/
def getfl (s : Process) (fd : Nat) (ok : Bool) : Option (Returned × Process) :=
  let arg := s.getflF fd ok
  (s.managed fd).map fun
    | none => arg
    | some ctx =>
      (if ctx.userNonblock then arg.1 ||| oNonblock else arg.1 &&& ~~~oNonblock, arg.2)

/-- `ioctl(d, FIONBIO, &value)`. -/
def fionbio (s : Process) (d : Nat) (value : BitVec 32) (ok : Bool) : Option (Returned × Process) :=
  (s.managed d).map fun
    | none => s.fionbioF d value ok
    | some _ => (s.setUserNonblock d (value != 0)).fionbioF d value ok

/-- `close`; `cancelAll` is not about flags. -/
def close (s : Process) (fd : Nat) : Option Process :=
  (s.fds.get fd false none).bind fun r =>
    (if r.1.isSome then s.fds.del fd else some s.fds).map fun fds =>
      { fds := fds, files := Function.update s.files fd none }

end Process

/-- A hooked call. -/
inductive FdCall where
  | socket (type : Flags) (fd : Nat)
  | accept (listener fd : Nat)
  | setfl (fd : Nat) (arg : Flags) (ok : Bool)
  | getfl (fd : Nat) (ok : Bool)
  | fionbio (d : Nat) (value : BitVec 32) (ok : Bool)
  | close (fd : Nat)

def Process.step (s : Process) : FdCall → Option Process
  | .socket type fd => s.socket type fd
  | .accept listener fd => s.accept listener fd
  | .setfl fd arg ok => (s.setfl fd arg ok).map (·.2)
  | .getfl fd ok => (s.getfl fd ok).map (·.2)
  | .fionbio d value ok => (s.fionbio d value ok).map (·.2)
  | .close fd => s.close fd

/-! ### The bit -/

section
variable (flags : Flags)

theorem hasNonblock_eq : hasNonblock flags = flags[11] := by
  have hbit : flags &&& oNonblock = if flags[11] then oNonblock else 0 :=
    BitVec.and_twoPow flags 11
  rw [hasNonblock, hbit]
  cases flags[11] <;> decide

@[simp] theorem hasNonblock_or : hasNonblock (flags ||| oNonblock) = true := by
  simp [hasNonblock_eq, oNonblock]

@[simp] theorem hasNonblock_andNot : hasNonblock (flags &&& ~~~oNonblock) = false := by
  simp [hasNonblock_eq, oNonblock]

end

/-- The flags differ in O_NONBLOCK only. -/
def SameRest (a b : Flags) : Prop := a &&& ~~~oNonblock = b &&& ~~~oNonblock

section
variable {a b : Flags}

theorem oNonblock_getElem {i : Nat} (hi : i < 32) : oNonblock[i] = decide (i = 11) := by
  have hbit : oNonblock = BitVec.twoPow 32 11 := by decide
  rw [getElem_congr_coll hbit, BitVec.getElem_twoPow]

theorem sameRest_iff : SameRest a b ↔ ∀ i (hi : i < 32), i ≠ 11 → a[i] = b[i] := by
  unfold SameRest
  constructor
  · intro h i hi hne
    have hbit := congrArg (·.getLsbD i) h
    simpa [BitVec.getLsbD_eq_getElem hi, oNonblock_getElem hi, hne] using hbit
  · intro h
    ext i hi
    by_cases hne : i = 11
    · subst hne
      simp [oNonblock_getElem hi]
    · simp [h i hi hne]

theorem SameRest.or (h : SameRest a b) : SameRest (a ||| oNonblock) b := by
  rw [sameRest_iff] at h ⊢
  intro i hi hne
  simp [oNonblock_getElem hi, hne, h i hi hne]

theorem SameRest.andNot (h : SameRest a b) : SameRest (a &&& ~~~oNonblock) b := by
  rw [sameRest_iff] at h ⊢
  intro i hi hne
  simp [oNonblock_getElem hi, hne, h i hi hne]

theorem SameRest.symm (h : SameRest a b) : SameRest b a := Eq.symm h

/-- The bit put back as it is in `b`. -/
theorem SameRest.restore (h : SameRest a b) :
    (if hasNonblock b then a ||| oNonblock else a &&& ~~~oNonblock) = b := by
  rw [hasNonblock_eq]
  rw [sameRest_iff] at h
  ext i hi
  by_cases hne : i = 11
  · subst hne
    cases b[11] <;> simp [oNonblock_getElem hi]
  · cases b[11] <;> simp [oNonblock_getElem hi, hne, h i hi hne]

end

section
variable (x : File)

@[simp] theorem File.setfl_nonblock (arg : Flags) :
    hasNonblock (x.setfl arg).flags = hasNonblock arg := by
  have hmask : setflMask[11] = true := by decide
  simp [File.setfl, hasNonblock_eq, hmask]

@[simp] theorem File.fionbio_nonblock (value : BitVec 32) :
    hasNonblock (x.fionbio value).flags = (value != 0) := by
  unfold File.fionbio
  cases value != 0 <;> simp

theorem File.manage_nonblock (hx : x.isSocket = true) : hasNonblock x.manage.flags = true := by
  unfold File.manage
  split
  · rw [File.setfl_nonblock, hasNonblock_or]
  · rename_i h
    simpa [hx] using h

theorem SameRest.setfl {x y : File} {arg arg' : Flags} (h : SameRest x.flags y.flags)
    (harg : SameRest arg arg') : SameRest (x.setfl arg).flags (y.setfl arg').flags := by
  rw [sameRest_iff] at h harg ⊢
  intro i hi hne
  simp [File.setfl, h i hi hne, harg i hi hne]

theorem SameRest.fionbio {x y : File} (h : SameRest x.flags y.flags) (value : BitVec 32) :
    SameRest (x.fionbio value).flags (y.fionbio value).flags := by
  unfold File.fionbio
  cases value != 0
  · exact h.andNot.symm.andNot.symm
  · exact h.or.symm.or.symm

@[simp] theorem File.manage_isSocket : x.manage.isSocket = x.isSocket := by
  unfold File.manage
  split <;> rfl

end

/-! ### Managed sockets -/

/-- An entry of the table is about the file that is open. -/
def Fits (ctx : Option FdCtx) (file : Option File) : Prop :=
  ∀ c ∈ ctx, c.isClosed = false ∧ c.sysNonblock = c.isSocket ∧ ∃ x ∈ file, x.isSocket = c.isSocket

/-- A socket that the hooks take for non-blocking is non-blocking in the kernel. -/
def Forced (ctx : Option FdCtx) (file : Option File) : Prop :=
  ∀ c ∈ ctx, c.isSocket = true → c.sysNonblock = true → ∃ x ∈ file, hasNonblock x.flags = true

theorem Fits.setUserNonblock {ctx : Option FdCtx} {file : Option File} (h : Fits ctx file) (v : Bool) :
    Fits (ctx.map (·.setUserNonblock v)) file := by
  intro c hc
  obtain ⟨d, hd, rfl⟩ := Option.map_eq_some_iff.mp hc
  exact h d hd

namespace Process

/-- What the table keeps. -/
structure Kept (s : Process) : Prop where
  sized : s.fds.Sized
  fits : ∀ fd, Fits (s.fds.ctx fd) (s.files fd)

/-- Every managed socket is non-blocking in the kernel. -/
def Nonblocking (s : Process) : Prop := ∀ fd, Forced (s.fds.ctx fd) (s.files fd)

/-- One number has changed. -/
structure Changed (s t : Process) (fd : Nat) (ctx : Option FdCtx) (file : Option File) : Prop where
  sized : t.fds.Sized
  ctx : ∀ n, t.fds.ctx n = if n = fd then ctx else s.fds.ctx n
  files : t.files = Function.update s.files fd file

section
variable {s t : Process} {fd : Nat} {ctx : Option FdCtx} {file : Option File}

theorem Changed.forall_iff (h : Changed s t fd ctx file) {P : Option FdCtx → Option File → Prop}
    (hs : ∀ n, P (s.fds.ctx n) (s.files n)) :
    (∀ n, P (t.fds.ctx n) (t.files n)) ↔ P ctx file := by
  constructor
  · intro ht
    simpa [h.ctx, h.files] using ht fd
  · intro hp n
    rw [h.ctx, h.files]
    by_cases hn : n = fd
    · rwa [if_pos hn, hn, Function.update_self]
    · rw [if_neg hn, Function.update_of_ne hn]
      exact hs n

theorem Changed.kept (h : Changed s t fd ctx file) (k : Kept s) (hfits : Fits ctx file) : Kept t :=
  ⟨h.sized, (h.forall_iff k.fits).mpr hfits⟩

theorem Changed.same (hs : s.fds.Sized) : Changed s s fd (s.fds.ctx fd) (s.files fd) :=
  ⟨hs, fun n => by split <;> simp_all, (Function.update_eq_self ..).symm⟩

theorem managed_eq (s : Process) (fd : Nat) : s.managed fd =
    some ((s.fds.ctx fd).filter fun ctx => !ctx.isClosed && ctx.isSocket) := by
  rw [managed, FdManager.get_ctx]
  rfl

/-- A call that may fail. -/
theorem system_changed (hs : s.fds.Sized) (ok : Bool) (next : File → Returned × File) :
    Changed s (s.system fd ok next).2 fd (s.fds.ctx fd)
      ((s.files fd).map fun x => if ok then (next x).2 else x) := by
  have hsame : Changed s s fd (s.fds.ctx fd) (s.files fd) := .same hs
  cases hx : s.files fd with
  | none => simpa [system, hx] using hsame
  | some x =>
    cases ok with
    | false => simpa [system, hx] using hsame
    | true =>
      simp only [system, hx]
      exact ⟨hs, hsame.ctx, rfl⟩

/-- The same, after `setUserNonblock`. -/
theorem setUserNonblock_changed (hs : s.fds.Sized) (v ok : Bool) (next : File → Returned × File) :
    Changed s ((s.setUserNonblock fd v).system fd ok next).2 fd
      ((s.fds.ctx fd).map (·.setUserNonblock v))
      ((s.files fd).map fun x => if ok then (next x).2 else x) := by
  have hc : Changed (s.setUserNonblock fd v) _ fd _ _ :=
    system_changed (s.fds.modify_sized fd (·.setUserNonblock v) hs) ok next
  refine ⟨hc.sized, fun n => ?_, hc.files⟩
  have hctx : ∀ n, (s.setUserNonblock fd v).fds.ctx n = _ :=
    s.fds.modify_ctx fd (·.setUserNonblock v)
  rw [hc.ctx, hctx, hctx, if_pos rfl]
  split <;> rfl

/-- A new socket gets an entry of its own, or the one that is there. -/
theorem manage_changed (hs : s.fds.Sized) (x : File)
    (h : ({ s with files := Function.update s.files fd (some x) } : Process).manage fd = some t) :
    Changed s t fd (some ((s.fds.ctx fd).getD (.create fd (some x.isSocket))))
      (some (if (s.fds.ctx fd).isSome then x else x.manage)) := by
  rw [manage, FdManager.find_ctx] at h
  obtain rfl := Option.some.inj h
  cases hc : s.fds.ctx fd with
  | some c =>
    simp only [Option.isSome_some, Bool.true_or, if_true, Option.getD_some]
    exact ⟨hs, fun n => by split <;> simp_all, rfl⟩
  | none =>
    simp only [Option.isSome_none, Bool.not_true, Bool.or_self, Bool.false_eq_true, if_false,
      Option.getD_none, create, Function.update_self, Option.map_some, Function.update_idem]
    exact ⟨s.fds.create_sized fd _ hs, s.fds.create_ctx fd _ hs, rfl⟩

/-! ### The calls -/

/-- No `ioctl(FIONBIO)` of 0 succeeds on a managed socket. -/
def SetsOnly (s : Process) : FdCall → Prop
  | .fionbio d value ok => (∃ ctx, s.managed d = some (some ctx)) → ok = true → value ≠ 0
  | _ => True

theorem Kept.fits_new (k : Kept s) (hfd : s.files fd = none) : s.fds.ctx fd = none := by
  cases hc : s.fds.ctx fd with
  | none => rfl
  | some c =>
    obtain ⟨-, -, x, hx, -⟩ := k.fits fd c hc
    rw [hfd] at hx
    cases hx

/-- `socket` and `accept`. -/
theorem opens_changed (k : Kept s) {x : File} (hx : x.isSocket = true) (hfd : s.files fd = none)
    (h : ({ s with files := Function.update s.files fd (some x) } : Process).manage fd = some t) :
    Changed s t fd (some (.create fd (some true))) (some x.manage) ∧
      Fits (some (.create fd (some true))) (some x.manage) ∧
      Forced (some (.create fd (some true))) (some x.manage) := by
  have hc := manage_changed k.sized x h
  rw [k.fits_new hfd, hx] at hc
  refine ⟨hc, ?_, ?_⟩
  · rintro c ⟨⟩
    exact ⟨rfl, rfl, x.manage, rfl, x.manage_isSocket.trans hx⟩
  · rintro c ⟨⟩ - -
    exact ⟨x.manage, rfl, x.manage_nonblock hx⟩

/-- A call that hands its argument on to the kernel. -/
theorem system_spec (k : Kept s) (ok : Bool) (next : File → Returned × File)
    (hnext : ∀ x, (next x).2.isSocket = x.isSocket) :
    Fits (s.fds.ctx fd) ((s.files fd).map fun x => if ok then (next x).2 else x) := by
  intro c hc
  obtain ⟨hclosed, hsys, x, hx, hsocket⟩ := k.fits fd c hc
  refine ⟨hclosed, hsys, _, Option.mem_map_of_mem _ hx, ?_⟩
  cases ok
  · exact hsocket
  · exact (hnext x).trans hsocket

/-- A call that a managed socket is given leaves it as its new flags are. -/
theorem forced_managed {c : FdCtx} (hc : s.managed fd = some (some c)) (k : Kept s) (v ok : Bool)
    (next : File → Returned × File) {b : Bool} (hb : ∀ x, hasNonblock (next x).2.flags = b)
    (hforced : Forced (s.fds.ctx fd) (s.files fd)) :
    Forced ((s.fds.ctx fd).map (·.setUserNonblock v))
      ((s.files fd).map fun x => if ok then (next x).2 else x) ↔ (ok = true → b = true) := by
  rw [managed_eq, Option.some.injEq, Option.filter_eq_some_iff] at hc
  obtain ⟨hc, hopen⟩ := hc
  simp only [Bool.and_eq_true, Bool.not_eq_true'] at hopen
  obtain ⟨-, hsys, -⟩ := k.fits fd c hc
  obtain ⟨x, hx, hset⟩ := hforced c hc hopen.2 (hsys.trans hopen.2)
  rw [Option.mem_def] at hx
  rw [hc, hx]
  constructor
  · intro h hok
    obtain ⟨y, hy, hset⟩ := h _ rfl hopen.2 (hsys.trans hopen.2)
    cases hy
    simp only [if_pos hok, hb] at hset
    exact hset
  · rintro h d ⟨⟩ - -
    refine ⟨_, rfl, ?_⟩
    cases ok with
    | false => exact hset
    | true => exact (hb x).trans (h rfl)

/-- No flags of a managed socket are touched by a call that finds none. -/
theorem forced_unmanaged (hc : s.managed fd = some none) (k : Kept s) (file : Option File) :
    Forced (s.fds.ctx fd) file := by
  intro c hctx hsocket
  rw [managed_eq, Option.some.injEq, hctx] at hc
  obtain ⟨hclosed, -⟩ := k.fits fd c hctx
  simp [Option.filter, hclosed, hsocket] at hc

/-- What one call does. -/
theorem step_changed (k : Kept s) {a : FdCall} (h : s.step a = some t) :
    ∃ fd ctx file, Changed s t fd ctx file ∧ Fits ctx file ∧
      (Forced (s.fds.ctx fd) (s.files fd) → (Forced ctx file ↔ s.SetsOnly a)) := by
  cases a with
  | socket type fd =>
    obtain ⟨hfd, h⟩ := Option.ite_none_left_eq_some.mp h
    obtain ⟨hc, hfits, hforced⟩ := opens_changed k rfl (by simpa using hfd) h
    exact ⟨fd, _, _, hc, hfits, fun _ => iff_of_true hforced trivial⟩
  | accept listener fd =>
    obtain ⟨hfd, h⟩ := Option.ite_none_left_eq_some.mp h
    have hfd : s.files fd = none := by
      simp only [Bool.or_eq_true, not_or] at hfd
      simpa using hfd.2
    obtain ⟨hc, hfits, hforced⟩ := opens_changed k rfl hfd h
    exact ⟨fd, _, _, hc, hfits, fun _ => iff_of_true hforced trivial⟩
  | setfl fd arg ok =>
    obtain ⟨r, hr, rfl⟩ := Option.map_eq_some_iff.mp h
    obtain ⟨found, hfound, rfl⟩ := Option.map_eq_some_iff.mp hr
    cases found with
    | none =>
      exact ⟨fd, _, _, system_changed k.sized ok _, system_spec k ok _ fun _ => rfl,
        fun _ => iff_of_true (forced_unmanaged hfound k _) trivial⟩
    | some c =>
      refine ⟨fd, _, _, setUserNonblock_changed k.sized (hasNonblock arg) ok _,
        .setUserNonblock (system_spec k ok _ ?_) _, fun hforced => ?_⟩
      · exact fun _ => rfl
      have hsys : c.sysNonblock = true := by
        have hc := hfound
        rw [managed_eq, Option.some.injEq, Option.filter_eq_some_iff] at hc
        obtain ⟨-, hsys, -⟩ := k.fits fd c hc.1
        simp only [Bool.and_eq_true] at hc
        exact hsys.trans hc.2.2
      have hbit : ∀ x : File, hasNonblock
          (x.setfl (if c.sysNonblock then arg ||| oNonblock else arg &&& ~~~oNonblock)).flags = true := by
        simp [hsys]
      refine iff_of_true ((forced_managed hfound k _ ok _ hbit hforced).mpr fun _ => rfl) trivial
  | getfl fd ok =>
    obtain ⟨r, hr, rfl⟩ := Option.map_eq_some_iff.mp h
    obtain ⟨found, hfound, rfl⟩ := Option.map_eq_some_iff.mp hr
    have hc : Changed s _ fd _ _ := system_changed k.sized ok fun x => (x.flags, x)
    have hsame : ((s.files fd).map fun x => if ok = true then x else x) = s.files fd := by simp
    rw [hsame] at hc
    refine ⟨fd, _, _, ?_, k.fits fd, fun hforced => iff_of_true hforced trivial⟩
    cases found <;> exact hc
  | fionbio d value ok =>
    obtain ⟨r, hr, rfl⟩ := Option.map_eq_some_iff.mp h
    obtain ⟨found, hfound, rfl⟩ := Option.map_eq_some_iff.mp hr
    cases found with
    | none =>
      refine ⟨d, _, _, system_changed k.sized ok _, system_spec k ok _ fun _ => rfl,
        fun _ => iff_of_true (forced_unmanaged hfound k _) ?_⟩
      rintro ⟨c, hc⟩
      cases hfound.symm.trans hc
    | some c =>
      refine ⟨d, _, _, setUserNonblock_changed k.sized (value != 0) ok _,
        .setUserNonblock (system_spec k ok _ ?_) _, fun hforced => ?_⟩
      · exact fun _ => rfl
      refine (forced_managed hfound k _ ok _ (fun x => x.fionbio_nonblock value) hforced).trans ?_
      rw [bne_iff_ne]
      exact ⟨fun h _ => h, fun h => h ⟨c, hfound⟩⟩
  | close fd =>
    rw [step, close, FdManager.get_ctx, Option.bind_some] at h
    obtain ⟨m, hdel, hlen, hctx⟩ := s.fds.del_ctx fd
    refine ⟨fd, none, none, ?_, fun c hc => (nomatch hc), fun _ => iff_of_true (fun c hc => nomatch hc) trivial⟩
    cases hc : s.fds.ctx fd with
    | none =>
      simp only [hc, Option.isSome_none, Bool.false_eq_true, if_false, Option.map_some,
        Option.some.injEq] at h
      subst h
      exact ⟨k.sized, fun n => by split <;> simp_all, rfl⟩
    | some c =>
      simp only [hc, Option.isSome_some, if_true, hdel, Option.map_some, Option.some.injEq] at h
      subst h
      exact ⟨Nat.le_trans k.sized hlen.ge, hctx, rfl⟩

end

theorem step_kept {s t : Process} (k : Kept s) {a : FdCall} (h : s.step a = some t) : Kept t := by
  obtain ⟨fd, ctx, file, hc, hfits, -⟩ := step_changed k h
  exact hc.kept k hfits

theorem start_kept (files : Nat → Option File) : Kept (start files) :=
  ⟨FdManager.init_sized, fun fd c hc => by simp [start, FdManager.init_ctx] at hc⟩

/-- A socket is opened, and made blocking. -/
def blockingCalls : List FdCall := [.socket 1 3, .fionbio 3 0 true]

/-- The hooks take it for a non-blocking one, and the kernel does not. -/
theorem fionbio_blocks : ∃ s ctx x, run step (start fun _ => none) blockingCalls = some s ∧
    s.fds.ctx 3 = some ctx ∧ ctx.isSocket = true ∧ ctx.sysNonblock = true ∧
    s.files 3 = some x ∧ hasNonblock x.flags = false :=
  ⟨_, _, _, rfl, rfl, rfl, rfl, rfl, rfl⟩

/-- **Managed sockets stay non-blocking in the kernel** exactly as long as no
`ioctl(FIONBIO)` of 0 succeeds on one. -/
theorem nonblocking_iff (files : Nat → Option File) (acts : List FdCall) (s : Process)
    (h : run step (start files) acts = some s) :
    (∀ xs ys u, acts = xs ++ ys → run step (start files) xs = some u → u.Nonblocking) ↔
      Meets step SetsOnly (start files) acts := by
  refine passes_iff_meets (I := Kept) (fun s a t k h => step_kept k h) (fun s a t k hp h => ?_)
    (start_kept files) (fun fd c hc => ?_) h
  · obtain ⟨fd, ctx, file, hc, -, hiff⟩ := step_changed k h
    exact (hc.forall_iff hp).trans (hiff (hp fd))
  · simp [start, FdManager.init_ctx] at hc

/-- With F_SETFL for FIONBIO. -/
theorem nonblocking_iff_sample : ∃ s, run step (start fun _ => none)
    [.socket 1 3, .setfl 3 0 true, .getfl 3 true, .close 3] = some s ∧
    ((∀ xs ys u, [.socket 1 3, .setfl 3 0 true, .getfl 3 true, .close 3] = xs ++ ys →
      run step (start fun _ => none) xs = some u → u.Nonblocking) ↔
      Meets step SetsOnly (start fun _ => none)
        [.socket 1 3, .setfl 3 0 true, .getfl 3 true, .close 3]) :=
  ⟨_, rfl, nonblocking_iff _ _ _ rfl⟩

end Process

/-! ### A plain descriptor beside it -/

/-- A call on a descriptor's flags. -/
inductive FlagCall where
  | setfl (arg : Flags) (ok : Bool)
  | getfl (ok : Bool)
  | fionbio (value : BitVec 32) (ok : Bool)

/-- The call without hooks. -/
def File.call (x : File) : FlagCall → Returned × File
  | .setfl arg ok => if ok then (0, x.setfl arg) else (-1, x)
  | .getfl ok => if ok then (x.flags, x) else (-1, x)
  | .fionbio value ok => if ok then (0, x.fionbio value) else (-1, x)

/-- The hooked call. -/
def Process.call (s : Process) (fd : Nat) : FlagCall → Option (Returned × Process)
  | .setfl arg ok => s.setfl fd arg ok
  | .getfl ok => s.getfl fd ok
  | .fionbio value ok => s.fionbio fd value ok

/-- A managed socket and a plain descriptor that are given the same calls. -/
structure Twin where
  process : Process
  plain : File
  /-- What each `fcntl(F_GETFL)` has returned, hooked and plain. -/
  answers : List (Returned × Returned)

namespace Twin

def step (fd : Nat) (w : Twin) (c : FlagCall) : Option Twin :=
  (w.process.call fd c).map fun r =>
    { process := r.2
      plain := (w.plain.call c).2
      answers := match c with
        | .getfl _ => (r.1, (w.plain.call c).1) :: w.answers
        | _ => w.answers }

/-- The user sees the plain descriptor. -/
structure Agrees (fd : Nat) (w : Twin) : Prop where
  user : ∃ ctx, w.process.fds.ctx fd = some ctx ∧ ctx.userNonblock = hasNonblock w.plain.flags
  answers : ∀ a ∈ w.answers, a.1 = a.2

/-- A call that fails would not have changed O_NONBLOCK, and a failing F_GETFL is made on a
non-blocking descriptor. -/
def FailsAlike (w : Twin) : FlagCall → Prop
  | .setfl arg ok => ok = false → hasNonblock arg = hasNonblock w.plain.flags
  | .getfl ok => ok = false → hasNonblock w.plain.flags = true
  | .fionbio value ok => ok = false → (value != 0) = hasNonblock w.plain.flags

/-- The two have been given the same calls. -/
structure Paired (fd : Nat) (w : Twin) : Prop where
  kept : w.process.Kept
  rest : ∃ x, w.process.files fd = some x ∧ SameRest x.flags w.plain.flags
  managed : ∃ ctx, w.process.managed fd = some (some ctx)

section
variable {fd : Nat} {w v : Twin}

theorem Paired.ctx (p : Paired fd w) : ∃ ctx, w.process.managed fd = some (some ctx) ∧
    w.process.fds.ctx fd = some ctx ∧ ctx.isClosed = false ∧ ctx.isSocket = true ∧
    ctx.sysNonblock = true := by
  obtain ⟨ctx, hm⟩ := p.managed
  have hctx := hm
  rw [Process.managed_eq, Option.some.injEq, Option.filter_eq_some_iff] at hctx
  simp only [Bool.and_eq_true, Bool.not_eq_true'] at hctx
  obtain ⟨hctx, hopen, hsocket⟩ := hctx
  obtain ⟨-, hsys, -⟩ := p.kept.fits fd ctx hctx
  exact ⟨ctx, hm, hctx, hopen, hsocket, hsys.trans hsocket⟩

/-- `fcntl(F_SETFL)` and `ioctl(FIONBIO)`: the user's bit is noted before the call of the
kernel. -/
theorem writes_spec (p : Paired fd w) (b ok : Bool) (next plainNext : File → Returned × File)
    (hsocket : ∀ x, (next x).2.isSocket = x.isSocket)
    (hrest : ∀ x, SameRest x.flags w.plain.flags → SameRest (next x).2.flags (plainNext w.plain).2.flags)
    (hbit : hasNonblock (plainNext w.plain).2.flags = b)
    (hprocess : v.process = ((w.process.setUserNonblock fd b).system fd ok next).2)
    (hplain : v.plain = if ok then (plainNext w.plain).2 else w.plain)
    (hanswers : v.answers = w.answers) :
    Paired fd v ∧ (Agrees fd w → (Agrees fd v ↔ (ok = false → b = hasNonblock w.plain.flags))) := by
  obtain ⟨ctx, hm, hctx, hopen, hsock, hsys⟩ := p.ctx
  obtain ⟨x, hx, hsame⟩ := p.rest
  have hc : w.process.Changed v.process fd _ _ :=
    hprocess ▸ Process.setUserNonblock_changed p.kept.sized b ok next
  have hctx' : v.process.fds.ctx fd = some (ctx.setUserNonblock b) := by
    rw [hc.ctx, if_pos rfl, hctx]
    rfl
  have hfile : v.process.files fd = some (if ok then (next x).2 else x) := by
    rw [hc.files, Function.update_self, hx]
    rfl
  refine ⟨⟨?_, ?_, ?_⟩, fun hagrees => ?_⟩
  · exact hc.kept p.kept (.setUserNonblock (Process.system_spec p.kept ok next hsocket) b)
  · refine ⟨_, hfile, ?_⟩
    cases ok with
    | false => rwa [hplain]
    | true =>
      rw [hplain]
      exact hrest x hsame
  · refine ⟨ctx.setUserNonblock b, ?_⟩
    rw [Process.managed_eq, hctx']
    simp [FdCtx.setUserNonblock, hopen, hsock]
  · have huser : Agrees fd v ↔ b = hasNonblock v.plain.flags := by
      constructor
      · rintro ⟨⟨c, hctx, hb⟩, -⟩
        cases hctx'.symm.trans hctx
        exact hb
      · exact fun hb => ⟨⟨_, hctx', hb⟩, fun a ha => hagrees.answers a (hanswers ▸ ha)⟩
    rw [huser, hplain]
    cases ok with
    | false => exact ⟨fun h _ => h, fun h => h rfl⟩
    | true => exact iff_of_true hbit.symm fun h => nomatch h

theorem agrees_cons {process : Process} {plain : File} {a : Returned × Returned}
    {answers : List (Returned × Returned)} : Agrees fd ⟨process, plain, a :: answers⟩ ↔
      a.1 = a.2 ∧ Agrees fd ⟨process, plain, answers⟩ := by
  constructor
  · rintro ⟨huser, h⟩
    obtain ⟨ha, h⟩ := List.forall_mem_cons.mp h
    exact ⟨ha, huser, h⟩
  · rintro ⟨ha, huser, h⟩
    exact ⟨huser, List.forall_mem_cons.mpr ⟨ha, h⟩⟩

/-- `fcntl(F_GETFL)` changes nothing. -/
theorem getfl_spec {s : Process} {ctx : FdCtx} {x : File} (hm : s.managed fd = some (some ctx))
    (hx : s.files fd = some x) (ok : Bool) : s.getfl fd ok =
      let arg := if ok then x.flags else -1
      some (if ctx.userNonblock then arg ||| oNonblock else arg &&& ~~~oNonblock, s) := by
  simp only [Process.getfl, Process.getflF, Process.system, hm, hx, Option.map_some]
  cases ok with
  | false => rfl
  | true =>
    have hsame : Function.update s.files fd (some x) = s.files := by
      rw [← hx, Function.update_eq_self]
    simp only [hsame, if_true]

theorem step_spec (p : Paired fd w) {c : FlagCall} (h : step fd w c = some v) :
    Paired fd v ∧ (Agrees fd w → (Agrees fd v ↔ FailsAlike w c)) := by
  obtain ⟨ctx, hm, hctx, hopen, hsocket, hsys⟩ := p.ctx
  obtain ⟨r, hr, rfl⟩ := Option.map_eq_some_iff.mp h
  cases c with
  | setfl arg ok =>
    simp only [Process.call, Process.setfl, hm, hsys, if_true, Option.map_some, Option.some.injEq] at hr
    subst hr
    refine (writes_spec p (hasNonblock arg) ok (fun x => (0, x.setfl (arg ||| oNonblock)))
      (fun x => (0, x.setfl arg)) (fun _ => rfl) (fun x hrest => ?_) ?_ rfl ?_ rfl)
    · exact hrest.setfl (SameRest.or rfl)
    · exact File.setfl_nonblock _ _
    · cases ok <;> rfl
  | fionbio value ok =>
    simp only [Process.call, Process.fionbio, hm, Option.map_some, Option.some.injEq] at hr
    subst hr
    refine (writes_spec p (value != 0) ok (fun x => (0, x.fionbio value))
      (fun x => (0, x.fionbio value)) (fun _ => ?_) (fun x hrest => hrest.fionbio value) ?_ rfl ?_ rfl)
    · rfl
    · exact File.fionbio_nonblock _ _
    · cases ok <;> rfl
  | getfl ok =>
    obtain ⟨x, hx, hrest⟩ := p.rest
    have hcall := getfl_spec hm hx ok
    cases hr.symm.trans hcall
    have hplain : w.plain.call (.getfl ok) = (if ok then w.plain.flags else -1, w.plain) := by
      cases ok <;> rfl
    rw [hplain]
    refine ⟨⟨p.kept, p.rest, p.managed⟩, fun hagrees => ?_⟩
    obtain ⟨c, hc, huser⟩ := hagrees.user
    cases hctx.symm.trans hc
    refine agrees_cons.trans ((and_iff_left hagrees).trans ?_)
    rw [huser]
    cases ok with
    | true => exact iff_of_true hrest.restore fun h => nomatch h
    | false =>
      cases hb : hasNonblock w.plain.flags with
      | true =>
        have hset : (-1 : Flags) ||| oNonblock = -1 := by decide
        exact iff_of_true hset fun _ => hb
      | false =>
        have hcleared : (-1 : Flags) &&& ~~~oNonblock ≠ -1 := by decide
        exact iff_of_false hcleared fun h => Bool.false_ne_true (hb.symm.trans (h rfl))

end

/-- A socket and a plain descriptor made with the same arguments. -/
def start (s : Process) (type : Flags) : Twin := ⟨s, .socket type, []⟩

theorem manage_rest (x : File) : SameRest x.manage.flags x.flags := by
  unfold File.manage
  split
  · rw [sameRest_iff]
    intro i hi hne
    simp only [File.setfl, BitVec.getElem_or, BitVec.getElem_and, BitVec.getElem_not,
      oNonblock_getElem hi, hne, decide_false, Bool.or_false]
    cases x.flags[i] <;> simp
  · rfl

theorem socket_nonblock (type : Flags) :
    hasNonblock (File.socket type).flags = (type &&& sockNonblock != 0) := by
  unfold File.socket
  cases type &&& sockNonblock != 0 <;> decide

/-- Right after `socket`. -/
theorem start_spec {s t : Process} (k : s.Kept) {type : Flags} {fd : Nat}
    (h : s.socket type fd = some t) :
    Paired fd (start t type) ∧ (Agrees fd (start t type) ↔ type &&& sockNonblock = 0) := by
  obtain ⟨hfd, h⟩ := Option.ite_none_left_eq_some.mp h
  obtain ⟨hc, hfits, -⟩ := Process.opens_changed k rfl (by simpa using hfd) h
  have hctx : t.fds.ctx fd = some (FdCtx.create fd (some true)) := by rw [hc.ctx, if_pos rfl]
  have hfile : t.files fd = some (File.socket type).manage := by rw [hc.files, Function.update_self]
  refine ⟨⟨hc.kept k hfits, ⟨_, hfile, manage_rest _⟩, FdCtx.create fd (some true), ?_⟩, ?_⟩
  · rw [start, Process.managed_eq, hctx]
    rfl
  · have hbit := socket_nonblock type
    constructor
    · rintro ⟨⟨c, hc, huser⟩, -⟩
      cases hctx.symm.trans hc
      have hnot : (type &&& sockNonblock != 0) = false := hbit.symm.trans huser.symm
      simpa using hnot
    · intro hzero
      refine ⟨⟨_, hctx, ?_⟩, fun a ha => nomatch ha⟩
      rw [start, hbit, hzero]
      rfl

/-- A socket that is created non-blocking looks blocking, and a failing F_GETFL does not
return -1. -/
theorem plain_view_drifts :
    (∃ s w, (Process.start fun _ => none).socket 0x801 3 = some s ∧
      run (step 3) (start s 0x801) [.getfl true] = some w ∧ w.answers = [(2, 0x802)]) ∧
    ∃ s w, (Process.start fun _ => none).socket 1 3 = some s ∧
      run (step 3) (start s 1) [.getfl false] = some w ∧ w.answers = [(-2049, -1)] :=
  ⟨⟨_, _, rfl, rfl, rfl⟩, _, _, rfl, rfl, rfl⟩

/-- **The user's view of O_NONBLOCK** is that of a plain descriptor made with the same
arguments and given the same calls, exactly if the socket was not created non-blocking and
every call that fails would have changed nothing. -/
theorem plain_view_iff (files : Nat → Option File) (acts : List FdCall) (s t : Process)
    (hs : run Process.step (.start files) acts = some s) (type : Flags) (fd : Nat)
    (hsocket : s.socket type fd = some t) (calls : List FlagCall) (w : Twin)
    (h : run (step fd) (start t type) calls = some w) :
    (∀ xs ys v, calls = xs ++ ys → run (step fd) (start t type) xs = some v → Agrees fd v) ↔
      type &&& sockNonblock = 0 ∧ Meets (step fd) FailsAlike (start t type) calls := by
  have k : s.Kept := run_preserves (fun _ _ _ k h => Process.step_kept k h) (Process.start_kept files) hs
  obtain ⟨hp, hagrees⟩ := start_spec k hsocket
  have hiff : Agrees fd (start t type) → ((∀ xs ys v, calls = xs ++ ys →
      run (step fd) (start t type) xs = some v → Agrees fd v) ↔
        Meets (step fd) FailsAlike (start t type) calls) := fun hagrees =>
    passes_iff_meets (I := Paired fd) (fun _ _ _ p h => (step_spec p h).1)
      (fun _ _ _ p ha h => (step_spec p h).2 ha) hp hagrees h
  constructor
  · intro hall
    have hfirst := hall [] calls _ rfl rfl
    exact ⟨hagrees.mp hfirst, (hiff hfirst).mp hall⟩
  · rintro ⟨hzero, hm⟩
    exact (hiff (hagrees.mpr hzero)).mpr hm

/-- O_NONBLOCK is set and cleared again, and a call that would set it fails. -/
def flagCalls : List FlagCall :=
  [.setfl 0x800 true, .getfl true, .getfl false, .fionbio 0 true, .fionbio 1 false]

theorem plain_view_iff_sample : ∃ s w, (Process.start fun _ => none).socket 1 3 = some s ∧
    run (step 3) (start s 1) flagCalls = some w ∧
    ((∀ xs ys v, flagCalls = xs ++ ys → run (step 3) (start s 1) xs = some v → Agrees 3 v) ↔
      (1 : Flags) &&& sockNonblock = 0 ∧ Meets (step 3) FailsAlike (start s 1) flagCalls) :=
  ⟨_, _, rfl, rfl, plain_view_iff (fun _ => none) [] _ _ rfl 1 3 rfl flagCalls _ rfl⟩

end Twin

end ShioSylar.Hook
