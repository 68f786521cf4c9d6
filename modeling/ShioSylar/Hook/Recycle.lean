import Mathlib.Data.Fintype.Basic
import ShioSylar.Hook.Nonblock
import ShioSylar.IOManager.Calls

/-! What is kept of a number that is closed (`socket`, `accept` and `close` of `hook.cc`).

`FdMgr` and the event table of every IOManager are keyed by a number that the kernel hands
out again. `get(fd, true)` takes an entry that it finds for what has just been opened, so
everything rests on `close`: it clears neither on a thread without hooking, the events not
where there is no entry, and only those of the current IOManager (`stale_entry`). Whenever
both are clear as `close_f` closes a number, and no event is armed and no number closed
between `socket_f` and the return of `get`, a new descriptor starts with a new entry and
without events (`recycle_reachable`).

Any threads are in hooked functions, and any calls are made on the tables and on the flags
in between. A call that fails an assertion ends the process. -/
namespace ShioSylar.Hook.Recycle
open Lib IOManager
open TimerManager (U64)

variable {μ θ φ κ : Type}

/-- Where a thread is in a hooked function. -/
inductive Doing (μ : Type) where
  | user
  /-- In `get(fd, true)` of `socket` or `accept`, before the read lock or the write lock. -/
  | find (fd : Nat)
  | create (fd : Nat)
  /-- In `close`, before `cancelAll`, `del` or `close_f`. -/
  | cancelAll (iom : μ) (fd : Nat)
  | del (fd : Nat)
  | closeF (fd : Nat)
  deriving DecidableEq

/-- In `socket` or `accept`, with `fd` open and not returned. -/
def Doing.Opening (d : Doing μ) (fd : Nat) : Prop := d = .find fd ∨ d = .create fd

instance [DecidableEq μ] (d : Doing μ) (fd : Nat) : Decidable (d.Opening fd) :=
  inferInstanceAs (Decidable (_ ∨ _))

structure State (μ θ φ κ : Type) where
  process : Hook.Process
  tables : μ → IOManager.State Unit φ κ
  doing : θ → Doing μ
  /-- The entry of the number was made after the number was handed out. -/
  own : Nat → Bool

inductive Act (μ θ φ κ : Type) where
  /-- `socket_f` has returned `fd`, with or without hooking. -/
  | socket (th : θ) (hook : Bool) (type : Flags) (fd : Nat)
  /-- `accept_f` has returned `fd`. -/
  | accept (th : θ) (fd : Nat)
  /-- `close`, with or without hooking, up to its branch on the IOManager of the thread. -/
  | close (th : θ) (hook : Bool) (iom : Option μ) (fd : Nat)
  /-- The next step of a thread in one of the three; `ok` is the result of `epoll_ctl`. -/
  | work (th : θ) (ok : Bool)
  | table (m : μ) (op : Op Unit φ κ)
  | flags (fd : Nat) (call : FlagCall)
  /-- `setsockopt` of a timeout. -/
  | setTimeout (fd : Nat) (type : TimeoutSo) (v : U64)

/-- `epoll_ctl` fails on a closed number. -/
def onOpen (isOpen : Nat → Bool) : Op Unit φ κ → Op Unit φ κ
  | .addEvent fd e who cb ok => .addEvent fd e who cb (ok && isOpen fd)
  | .delEvent fd e ok => .delEvent fd e (ok && isOpen fd)
  | .cancelEvent fd e ok => .cancelEvent fd e (ok && isOpen fd)
  | .cancelAll fd ok => .cancelAll fd (ok && isOpen fd)
  | .dispatch fd r ok => .dispatch fd r (ok && isOpen fd)

def start (files : Nat → Option File) : State μ θ φ κ :=
  ⟨.start files, fun _ => .init, fun _ => .user, fun _ => false⟩

section
variable [DecidableEq μ] [DecidableEq θ]

namespace State

def goto (s : State μ θ φ κ) (th : θ) (d : Doing μ) : State μ θ φ κ :=
  { s with doing := Function.update s.doing th d }

def isOpen (s : State μ θ φ κ) (fd : Nat) : Bool := (s.process.files fd).isSome

/-- The kernel hands out a closed number. -/
def openFd (s : State μ θ φ κ) (fd : Nat) (x : File) : Option (State μ θ φ κ) :=
  if s.isOpen fd then none
  else some { s with
    process := { s.process with files := Function.update s.process.files fd (some x) }
    own := Function.update s.own fd false }

/-- `close_f`. -/
def closeFd (s : State μ θ φ κ) (fd : Nat) : State μ θ φ κ :=
  { s with
    process := { s.process with files := Function.update s.process.files fd none }
    tables := fun m => { s.tables m with interest := Function.update (s.tables m).interest fd none } }

/-- A call on a table. -/
def onTable (s : State μ θ φ κ) (m : μ) (op : Op Unit φ κ) : Option (State μ θ φ κ) :=
  match exec (s.tables m) (onOpen s.isOpen op) with
  | .ok r => some { s with tables := Function.update s.tables m r.2 }
  | .error _ => none

/-- `close` up to `if(iom)`. -/
def close (s : State μ θ φ κ) (th : θ) (hook : Bool) (iom : Option μ) (fd : Nat) :
    Option (State μ θ φ κ) :=
  if hook then
    (s.process.fds.get fd false none).map fun r =>
      match r.1, iom with
      | none, _ => s.goto th (.closeF fd)
      | some _, some m => s.goto th (.cancelAll m fd)
      | some _, none => s.goto th (.del fd)
  else some (s.goto th (.closeF fd))

/-- A section of `get(fd, true)` or of `close`. -/
def work (s : State μ θ φ κ) (th : θ) (ok : Bool) : Option (State μ θ φ κ) :=
  match s.doing th with
  | .user => none
  | .find fd =>
    (s.process.fds.find fd true).map fun r => s.goto th (if r.2 then .user else .create fd)
  | .create fd =>
    some { s.goto th .user with process := s.process.create fd, own := Function.update s.own fd true }
  | .cancelAll m fd => (s.onTable m (.cancelAll fd ok)).map fun s => s.goto th (.del fd)
  | .del fd =>
    (s.process.fds.del fd).map fun fds =>
      { s.goto th (.closeF fd) with process := { s.process with fds := fds } }
  | .closeF fd => some ((s.closeFd fd).goto th .user)

end State

def step (s : State μ θ φ κ) : Act μ θ φ κ → Option (State μ θ φ κ)
  | .socket th hook type fd =>
    match s.doing th with
    | .user => (s.openFd fd (.socket type)).map fun s => if hook then s.goto th (.find fd) else s
    | _ => none
  | .accept th fd =>
    match s.doing th with
    | .user => (s.openFd fd .accepted).map fun s => s.goto th (.find fd)
    | _ => none
  | .close th hook iom fd =>
    match s.doing th with
    | .user => s.close th hook iom fd
    | _ => none
  | .work th ok => s.work th ok
  | .table m op => s.onTable m op
  | .flags fd call => (s.process.call fd call).map fun r => { s with process := r.2 }
  | .setTimeout fd type v =>
    some { s with process := { s.process with fds := s.process.fds.modify fd (·.setTimeout type v) } }

/-- The descriptor that `socket` or `accept` returns at the end of the step. -/
def returned (s : State μ θ φ κ) : Act μ θ φ κ → Option Nat
  | .work th _ =>
    match s.doing th with
    | .find fd => if (s.process.fds.ctx fd).isSome then some fd else none
    | .create fd => some fd
    | _ => none
  | _ => none

end

/-- Neither table has anything on the number. -/
structure Blank (s : State μ θ φ κ) (fd : Nat) : Prop where
  ctx : s.process.fds.ctx fd = none
  events : ∀ m, ((s.tables m).view fd).events = Mask.none

/-- What a descriptor has when it is returned. -/
structure Fresh (s : State μ θ φ κ) (fd : Nat) : Prop where
  ctx : s.process.fds.ctx fd = some (FdCtx.create fd (some true))
  own : s.own fd = true
  nonblock : ∃ x, s.process.files fd = some x ∧ hasNonblock x.flags = true
  events : ∀ m, ((s.tables m).view fd).events = Mask.none

/-- `close_f` closes a number that neither table has anything on and that no thread is
opening, and no event is armed on a number that a thread is opening. -/
def Cleared (s : State μ θ φ κ) : Act μ θ φ κ → Prop
  | .work th _ => ∀ fd, s.doing th = .closeF fd → s.isOpen fd = true →
      Blank s fd ∧ ∀ u, ¬ (s.doing u).Opening fd
  | .table _ (.addEvent fd _ _ _ ok) => ok = true → ∀ u, ¬ (s.doing u).Opening fd
  | _ => True

section
variable [DecidableEq μ] [Fintype μ] [Fintype θ]

instance (s : State μ θ φ κ) (fd : Nat) : Decidable (Blank s fd) :=
  decidable_of_iff ((s.process.fds.ctx fd).isNone = true ∧ ∀ m, ((s.tables m).view fd).events = Mask.none)
    (by rw [Option.isNone_iff_eq_none]; exact ⟨fun h => ⟨h.1, h.2⟩, fun h => ⟨h.ctx, h.events⟩⟩)

instance (s : State μ θ φ κ) : (a : Act μ θ φ κ) → Decidable (Cleared s a)
  | .work th _ =>
    match hth : s.doing th with
    | .closeF fd => decidable_of_iff
        (s.isOpen fd = true → Blank s fd ∧ ∀ u, ¬ (s.doing u).Opening fd) (by simp [Cleared, hth])
    | .user | .find _ | .create _ | .cancelAll _ _ | .del _ => isTrue (by simp [Cleared, hth])
  | .table _ (.addEvent fd _ _ _ ok) =>
    inferInstanceAs (Decidable (ok = true → ∀ u, ¬ (s.doing u).Opening fd))
  | .table _ (.delEvent ..) | .table _ (.cancelEvent ..) | .table _ (.cancelAll ..)
  | .table _ (.dispatch ..) => isTrue trivial
  | .socket .. | .accept .. | .close .. | .flags .. | .setTimeout .. => isTrue trivial

end

/-! ### What a step leaves alone -/

/-- No entry is new, and the same sockets are open. -/
structure Calm (p q : Hook.Process) : Prop where
  sized : q.fds.Sized
  ctx : ∀ n, p.fds.ctx n = none → q.fds.ctx n = none
  files : ∀ n, (q.files n).map File.isSocket = (p.files n).map File.isSocket

theorem Calm.of_changed {p q : Hook.Process} {fd : Nat} {ctx : Option FdCtx} {file : Option File}
    (h : p.Changed q fd ctx file) (hctx : p.fds.ctx fd = none → ctx = none)
    (hfile : file.map File.isSocket = (p.files fd).map File.isSocket) : Calm p q := by
  refine ⟨h.sized, fun n hn => ?_, fun n => ?_⟩
  · rw [h.ctx]
    split
    · rename_i heq
      exact hctx (heq ▸ hn)
    · exact hn
  · rw [h.files]
    by_cases heq : n = fd
    · rw [heq, Function.update_self, hfile]
    · rw [Function.update_of_ne heq]

/-- A call of the kernel that does not change what is open. -/
theorem system_isSocket {x : Option File} {ok : Bool} {next : File → Returned × File}
    (hnext : ∀ x, (next x).2.isSocket = x.isSocket) :
    (x.map fun x => if ok then (next x).2 else x).map File.isSocket = x.map File.isSocket := by
  rw [Option.map_map]
  refine Option.map_congr fun x _ => ?_
  cases ok
  · rfl
  · exact hnext x

theorem call_calm {p : Hook.Process} (hp : p.fds.Sized) {fd : Nat} {c : FlagCall}
    {r : Returned × Hook.Process} (h : p.call fd c = some r) : Calm p r.2 := by
  cases c with
  | setfl arg ok =>
    obtain ⟨found, -, rfl⟩ := Option.map_eq_some_iff.mp h
    cases found with
    | none =>
      exact .of_changed (Process.system_changed hp ok _) id (system_isSocket fun _ => rfl)
    | some ctx =>
      exact .of_changed (Process.setUserNonblock_changed hp _ ok _) (fun h => by rw [h]; rfl)
        (system_isSocket fun _ => rfl)
  | getfl ok =>
    obtain ⟨found, -, rfl⟩ := Option.map_eq_some_iff.mp h
    have hcalm : Calm p (p.getflF fd ok).2 :=
      .of_changed (Process.system_changed hp ok _) id (system_isSocket fun _ => rfl)
    cases found <;> exact hcalm
  | fionbio value ok =>
    obtain ⟨found, -, rfl⟩ := Option.map_eq_some_iff.mp h
    cases found with
    | none =>
      exact .of_changed (Process.system_changed hp ok _) id (system_isSocket fun _ => rfl)
    | some ctx =>
      exact .of_changed (Process.setUserNonblock_changed hp _ ok _) (fun h => by rw [h]; rfl)
        (system_isSocket fun _ => rfl)

/-- A call on a table arms a descriptor without events only if it is that `addEvent`. -/
theorem exec_events {t : IOManager.State Unit φ κ} (h : Consistent t) {op : Op Unit φ κ}
    {r : Answer × IOManager.State Unit φ κ} (he : exec t op = .ok r) {fd : Nat}
    (hnone : (t.view fd).events = Mask.none) :
    (r.2.view fd).events = Mask.none ∨ ∃ e who cb, op = .addEvent fd e who cb true := by
  have hout : Outcome t op (.ok r) := he ▸ exec_outcome h op
  cases hout with
  | skipped ha hu hs =>
    left
    rw [hs.view]
    exact hnone
  | @armed fd' e who cb u hfree hu hs hfd =>
    by_cases heq : fd = fd'
    · exact .inr ⟨e, who, cb, by rw [heq]⟩
    · left
      rw [put_view hu hfd, Function.update_of_ne heq, hs.view]
      exact hnone
  | @dropped fd' e hhas =>
    have hne : fd ≠ fd' := by
      rintro rfl
      exact Mask.ne_none_of_has hhas hnone
    left
    rw [put_view h (lt_of_armed hhas), Function.update_of_ne hne]
    exact hnone
  | @took _ fd' m a hop hm =>
    obtain ⟨hlt, hevents⟩ := Op.takes_lt hop
    have hne : fd ≠ fd' := by
      rintro rfl
      exact hevents hnone
    left
    rw [take_view h hlt, Function.update_of_ne hne]
    exact hnone

/-! ### Every reachable state -/

/-- Closed numbers, and those that a thread is opening, have nothing in either table. -/
structure Kept (s : State μ θ φ κ) : Prop where
  sized : s.process.fds.Sized
  consistent : ∀ m, Consistent (s.tables m)
  closed : ∀ fd, s.process.files fd = none → Blank s fd
  opening : ∀ th fd, (s.doing th).Opening fd →
    Blank s fd ∧ (s.process.files fd).map File.isSocket = some true
  alone : ∀ th u fd, (s.doing th).Opening fd → (s.doing u).Opening fd → th = u

theorem start_kept (files : Nat → Option File) : Kept (start files : State μ θ φ κ) := by
  refine ⟨FdManager.init_sized, fun _ => init_consistent, fun fd _ => ?_, fun th fd h => ?_,
    fun th u fd h => ?_⟩
  · exact ⟨FdManager.init_ctx fd, fun m => by rw [start, init_view]⟩
  · rcases h with h | h <;> cases h
  · rcases h with h | h <;> cases h

section
variable {s t : State μ θ φ κ} {fd : Nat}

theorem Kept.calm (k : Kept s) {p : Hook.Process} (h : Calm s.process p) :
    Kept { s with process := p } := by
  have hblank : ∀ fd, Blank s fd → Blank { s with process := p } fd :=
    fun fd hb => ⟨h.ctx fd hb.ctx, hb.events⟩
  refine ⟨h.sized, k.consistent, fun fd hfd => hblank fd (k.closed fd ?_), fun th fd ho => ?_, k.alone⟩
  · have hmap := h.files fd
    rw [hfd] at hmap
    exact Option.map_eq_none_iff.mp hmap.symm
  · obtain ⟨hb, hx⟩ := k.opening th fd ho
    exact ⟨hblank fd hb, (h.files fd).trans hx⟩

variable [DecidableEq μ]

theorem onOpen_addEvent {isOpen : Nat → Bool} {op : Op Unit φ κ} {e : Event} {who : Caller Unit φ}
    {cb : Option κ} (h : onOpen isOpen op = .addEvent fd e who cb true) :
    isOpen fd = true ∧ op = .addEvent fd e who cb true := by
  cases op with
  | addEvent fd' e' who' cb' ok =>
    rw [onOpen, Op.addEvent.injEq, Bool.and_eq_true] at h
    obtain ⟨rfl, rfl, rfl, rfl, rfl, hopen⟩ := h
    exact ⟨hopen, rfl⟩
  | delEvent fd' e' ok => cases h
  | cancelEvent fd' e' ok => cases h
  | cancelAll fd' ok => cases h
  | dispatch fd' r ok => cases h

/-- A call on a table, where no event is armed on a number that a thread is opening. -/
theorem Kept.table (k : Kept s) {m : μ} {op : Op Unit φ κ} (h : s.onTable m op = some t)
    (hadd : ∀ fd e who cb, op = .addEvent fd e who cb true → ∀ u, ¬ (s.doing u).Opening fd) :
    Kept t ∧ t.doing = s.doing ∧ t.process = s.process := by
  unfold State.onTable at h
  split at h
  case h_2 => cases h
  case h_1 r he =>
    cases h
    have hout : Outcome _ _ (.ok r) := he ▸ exec_outcome (k.consistent m) (onOpen s.isOpen op)
    have hblank : ∀ fd, (s.process.files fd = none ∨ ∃ u, (s.doing u).Opening fd) → Blank s fd →
        Blank { s with tables := Function.update s.tables m r.2 } fd := by
      intro fd hfd hb
      refine ⟨hb.ctx, fun n => ?_⟩
      by_cases hn : n = m
      · subst hn
        simp only [Function.update_self]
        refine (exec_events (k.consistent n) he (hb.events n)).resolve_right ?_
        rintro ⟨e, who, cb, harm⟩
        obtain ⟨hopen, hop⟩ := onOpen_addEvent harm
        rcases hfd with hfd | ⟨u, hu⟩
        · rw [State.isOpen, hfd] at hopen
          cases hopen
        · exact hadd fd e who cb hop u hu
      · simp only [Function.update_of_ne hn]
        exact hb.events n
    refine ⟨⟨k.sized, fun n => ?_, fun fd hfd => hblank fd (.inl hfd) (k.closed fd hfd),
      fun th fd ho => ?_, k.alone⟩, rfl, rfl⟩
    · by_cases hn : n = m
      · subst hn
        simp only [Function.update_self]
        exact (hout.consistent (k.consistent n)).1
      · simp only [Function.update_of_ne hn]
        exact k.consistent n
    · obtain ⟨hb, hx⟩ := k.opening th fd ho
      exact ⟨hblank fd (.inr ⟨th, ho⟩) hb, hx⟩

variable [DecidableEq θ]

omit [DecidableEq μ] in
@[simp] theorem goto_doing (th : θ) (d : Doing μ) :
    (s.goto th d).doing = Function.update s.doing th d := rfl

omit [DecidableEq μ] in
theorem Blank.goto (h : Blank s fd) (th : θ) (d : Doing μ) : Blank (s.goto th d) fd :=
  ⟨h.ctx, h.events⟩

omit [DecidableEq μ] in
/-- A thread goes on, and begins to open nothing. -/
theorem Kept.goto (k : Kept s) (th : θ) (d : Doing μ)
    (hd : ∀ fd, d.Opening fd → (s.doing th).Opening fd) : Kept (s.goto th d) := by
  have hdoing : ∀ u fd, ((s.goto th d).doing u).Opening fd → (s.doing u).Opening fd := by
    intro u fd h
    rw [goto_doing] at h
    by_cases hu : u = th
    · subst hu
      rw [Function.update_self] at h
      exact hd fd h
    · rwa [Function.update_of_ne hu] at h
  refine ⟨k.sized, k.consistent, fun fd hfd => (k.closed fd hfd).goto th d, fun u fd h => ?_,
    fun u v fd hu hv => k.alone u v fd (hdoing u fd hu) (hdoing v fd hv)⟩
  obtain ⟨hb, hx⟩ := k.opening u fd (hdoing u fd h)
  exact ⟨hb.goto th d, hx⟩

omit [DecidableEq μ] in
/-- A number is handed out, to a thread that goes on with `get(fd, true)` or without. -/
theorem Kept.opens (k : Kept s) {x : File} (hx : x.isSocket = true) (h : s.openFd fd x = some t)
    (th : θ) (hook : Bool) (hth : ∀ n, ¬ (s.doing th).Opening n) :
    Kept (if hook then t.goto th (.find fd) else t) := by
  obtain ⟨hclosed, h⟩ := Option.ite_none_left_eq_some.mp h
  cases h
  have hclosed : s.process.files fd = none := by simpa [State.isOpen] using hclosed
  have hblank := k.closed fd hclosed
  have hother : ∀ u, ¬ (s.doing u).Opening fd := by
    intro u ho
    obtain ⟨-, hsocket⟩ := k.opening u fd ho
    rw [hclosed] at hsocket
    cases hsocket
  set t : State μ θ φ κ := { s with
    process := { s.process with files := Function.update s.process.files fd (some x) }
    own := Function.update s.own fd false }
  have ht : Kept t := by
    refine ⟨k.sized, k.consistent, fun n hn => ?_, fun u n ho => ?_, k.alone⟩
    · have hne : n ≠ fd := by
        rintro rfl
        simp [t] at hn
      have hb := k.closed n ((Function.update_of_ne hne ..).symm.trans hn)
      exact ⟨hb.ctx, hb.events⟩
    · have hne : n ≠ fd := by
        rintro rfl
        exact hother u ho
      obtain ⟨hb, hsocket⟩ := k.opening u n ho
      refine ⟨⟨hb.ctx, hb.events⟩, ?_⟩
      simp only [t, Function.update_of_ne hne]
      exact hsocket
  cases hook with
  | false => exact ht
  | true =>
    have hopening : ∀ u n, ((t.goto th (.find fd)).doing u).Opening n →
        (u = th ∧ n = fd) ∨ (s.doing u).Opening n := by
      intro u n ho
      rw [goto_doing] at ho
      by_cases hu : u = th
      · rw [hu, Function.update_self] at ho
        rcases ho with ho | ho <;> cases ho
        exact .inl ⟨hu, rfl⟩
      · rw [Function.update_of_ne hu] at ho
        exact .inr ho
    refine ⟨ht.sized, ht.consistent, fun n hn => (ht.closed n hn).goto th _, fun u n ho => ?_,
      fun u v n hu hv => ?_⟩
    · rcases hopening u n ho with ⟨rfl, rfl⟩ | ho
      · refine ⟨⟨hblank.ctx, hblank.events⟩, ?_⟩
        simp [State.goto, t, hx]
      · obtain ⟨hb, hsocket⟩ := ht.opening u n ho
        exact ⟨hb.goto th _, hsocket⟩
    · rcases hopening u n hu with ⟨hu, hn⟩ | hu'
      · rcases hopening v n hv with ⟨hv, -⟩ | hv'
        · exact hu.trans hv.symm
        · exact (hother v (hn ▸ hv')).elim
      · rcases hopening v n hv with ⟨-, hn⟩ | hv'
        · exact (hother u (hn ▸ hu')).elim
        · exact k.alone u v n hu' hv'

omit [DecidableEq μ] in
/-- The end of `get(fd, true)`. -/
theorem Kept.create (k : Kept s) {th : θ} (hth : s.doing th = .create fd) :
    Kept { s.goto th .user with process := s.process.create fd, own := Function.update s.own fd true } ∧
      Fresh { s.goto th .user with
        process := s.process.create fd, own := Function.update s.own fd true } fd := by
  obtain ⟨hb, hsocket⟩ := k.opening th fd (.inr hth)
  obtain ⟨x, hx, hsock⟩ := Option.map_eq_some_iff.mp hsocket
  have hctx : ∀ n, (s.process.create fd).fds.ctx n =
      if n = fd then some (.create fd (some true)) else s.process.fds.ctx n := by
    intro n
    rw [Process.create, hsocket]
    exact s.process.fds.create_ctx fd _ k.sized n
  have hfile : (s.process.create fd).files fd = some x.manage := by simp [Process.create, hx]
  have hfiles : ∀ n, n ≠ fd → (s.process.create fd).files n = s.process.files n :=
    fun n hn => Function.update_of_ne hn ..
  have hopening : ∀ u n, ((s.goto th .user).doing u).Opening n →
      n ≠ fd ∧ (s.doing u).Opening n := by
    intro u n ho
    rw [goto_doing] at ho
    by_cases hu : u = th
    · rw [hu, Function.update_self] at ho
      rcases ho with ho | ho <;> cases ho
    · rw [Function.update_of_ne hu] at ho
      refine ⟨?_, ho⟩
      rintro rfl
      exact hu (k.alone u th n ho (.inr hth))
  have hkeep : ∀ n, n ≠ fd → Blank s n → Blank { s.goto th .user with
      process := s.process.create fd, own := Function.update s.own fd true } n := by
    intro n hn hb
    refine ⟨?_, hb.events⟩
    rw [hctx, if_neg hn]
    exact hb.ctx
  refine ⟨⟨s.process.fds.create_sized fd _ k.sized, k.consistent, fun n hn => ?_, fun u n ho => ?_,
    fun u v n hu hv => k.alone u v n (hopening u n hu).2 (hopening v n hv).2⟩, ?_, ?_, ?_, hb.events⟩
  · have hne : n ≠ fd := by
      rintro rfl
      cases hfile.symm.trans hn
    exact hkeep n hne (k.closed n ((hfiles n hne).symm.trans hn))
  · obtain ⟨hne, ho⟩ := hopening u n ho
    obtain ⟨hb, hsocket⟩ := k.opening u n ho
    refine ⟨hkeep n hne hb, ?_⟩
    simp only [hfiles n hne]
    exact hsocket
  · rw [hctx, if_pos rfl]
  · exact Function.update_self ..
  · exact ⟨x.manage, hfile, x.manage_nonblock hsock⟩

omit [DecidableEq μ] [DecidableEq θ] in
/-- `close_f` of a number that nothing is left of. -/
theorem Kept.closes (k : Kept s) (hcleared : s.isOpen fd = true →
    Blank s fd ∧ ∀ u, ¬ (s.doing u).Opening fd) : Kept (s.closeFd fd) := by
  have hblank : Blank s fd ∧ ∀ u, ¬ (s.doing u).Opening fd := by
    cases hopen : s.isOpen fd with
    | true => exact hcleared hopen
    | false =>
      have hclosed : s.process.files fd = none := by simpa [State.isOpen] using hopen
      refine ⟨k.closed fd hclosed, fun u ho => ?_⟩
      obtain ⟨-, hsocket⟩ := k.opening u fd ho
      rw [hclosed] at hsocket
      cases hsocket
  have htables : (s.closeFd fd).tables = s.tables := by
    funext m
    have hreg : (s.tables m).interest fd = none := by
      rw [(k.consistent m).kernel, registered, if_pos (hblank.1.events m)]
    simp only [State.closeFd]
    rw [← hreg, Function.update_eq_self]
  have hfiles : (s.closeFd fd).process.files = Function.update s.process.files fd none := rfl
  have hkeep : ∀ n, Blank s n → Blank (s.closeFd fd) n :=
    fun n hb => ⟨hb.ctx, htables ▸ hb.events⟩
  refine ⟨k.sized, htables ▸ k.consistent, fun n hn => hkeep n ?_, fun u n ho => ?_, k.alone⟩
  · by_cases hne : n = fd
    · exact hne ▸ hblank.1
    · rw [hfiles, Function.update_of_ne hne] at hn
      exact k.closed n hn
  · have hne : n ≠ fd := by
      rintro rfl
      exact hblank.2 u ho
    obtain ⟨hb, hsocket⟩ := k.opening u n ho
    refine ⟨hkeep n hb, ?_⟩
    rw [hfiles, Function.update_of_ne hne]
    exact hsocket

/-- A step of a thread in one of the three. -/
theorem work_kept (k : Kept s) {th : θ} {ok : Bool} (hg : Cleared s (.work th ok))
    (h : s.work th ok = some t) :
    Kept t ∧ ∀ fd, returned s (.work th ok) = some fd → Fresh t fd := by
  unfold State.work at h
  cases hth : s.doing th with
  | user =>
    rw [hth] at h
    cases h
  | find fd =>
    obtain ⟨hb, -⟩ := k.opening th fd (.inl hth)
    simp only [hth, FdManager.find_ctx, hb.ctx, Option.map_some, Option.some.injEq] at h
    subst h
    refine ⟨k.goto th _ fun n ho => ?_, fun n hn => ?_⟩
    · rcases ho with ho | ho <;> cases ho
      exact .inl hth
    · simp [returned, hth, hb.ctx] at hn
  | create fd =>
    simp only [hth, Option.some.injEq] at h
    subst h
    obtain ⟨hk, hfresh⟩ := k.create hth
    refine ⟨hk, fun n hn => ?_⟩
    simp only [returned, hth, Option.some.injEq] at hn
    exact hn ▸ hfresh
  | cancelAll m fd =>
    simp only [hth] at h
    obtain ⟨u, hu, rfl⟩ := Option.map_eq_some_iff.mp h
    obtain ⟨hk, -, -⟩ := k.table hu fun n e who cb hop => nomatch hop
    refine ⟨hk.goto th _ fun n ho => ?_, fun n hn => ?_⟩
    · rcases ho with ho | ho <;> cases ho
    · simp [returned, hth] at hn
  | del fd =>
    simp only [hth] at h
    obtain ⟨m, hm, rfl⟩ := Option.map_eq_some_iff.mp h
    obtain ⟨m', hdel, hlen, hctx⟩ := s.process.fds.del_ctx fd
    cases hdel.symm.trans hm
    have hcalm : Calm s.process { s.process with fds := m } := by
      refine ⟨Nat.le_trans k.sized hlen.ge, fun n hn => ?_, fun n => rfl⟩
      rw [hctx]
      split
      · rfl
      · exact hn
    refine ⟨(k.calm hcalm).goto th (.closeF fd) fun n ho => ?_, fun n hn => ?_⟩
    · rcases ho with ho | ho <;> cases ho
    · simp [returned, hth] at hn
  | closeF fd =>
    simp only [hth, Option.some.injEq] at h
    subst h
    refine ⟨(k.closes (hg fd hth)).goto th _ fun n ho => ?_, fun n hn => ?_⟩
    · rcases ho with ho | ho <;> cases ho
    · simp [returned, hth] at hn

theorem step_kept (k : Kept s) {a : Act μ θ φ κ} (hg : Cleared s a) (h : step s a = some t) :
    Kept t ∧ ∀ fd, returned s a = some fd → Fresh t fd := by
  have hidle : ∀ th, s.doing th = .user → ∀ n, ¬ (s.doing th).Opening n := by
    intro th hth n ho
    rw [hth] at ho
    rcases ho with ho | ho <;> cases ho
  cases a with
  | work th ok => exact work_kept k hg h
  | socket th hook type fd =>
    refine ⟨?_, fun n hn => nomatch hn⟩
    simp only [step] at h
    split at h
    · rename_i hth
      obtain ⟨u, hu, rfl⟩ := Option.map_eq_some_iff.mp h
      exact k.opens rfl hu th hook (hidle th hth)
    · cases h
  | accept th fd =>
    refine ⟨?_, fun n hn => nomatch hn⟩
    simp only [step] at h
    split at h
    · rename_i hth
      obtain ⟨u, hu, rfl⟩ := Option.map_eq_some_iff.mp h
      exact k.opens rfl hu th true (hidle th hth)
    · cases h
  | close th hook iom fd =>
    refine ⟨?_, fun n hn => nomatch hn⟩
    simp only [step] at h
    split at h
    · rename_i hth
      unfold State.close at h
      have hgoto : ∀ d : Doing μ, (∀ n, ¬ d.Opening n) → Kept (s.goto th d) :=
        fun d hd => k.goto th d fun n ho => (hd n ho).elim
      cases hook with
      | false =>
        cases h
        refine hgoto _ fun n ho => ?_
        rcases ho with ho | ho <;> cases ho
      | true =>
        rw [if_pos rfl, FdManager.get_ctx, Option.map_some, Option.some.injEq] at h
        subst h
        split <;> refine hgoto _ fun n ho => ?_ <;> rcases ho with ho | ho <;> cases ho
    · cases h
  | table m op =>
    refine ⟨(k.table h fun n e who cb hop => ?_).1, fun n hn => nomatch hn⟩
    subst hop
    exact hg rfl
  | flags fd call =>
    obtain ⟨r, hr, rfl⟩ := Option.map_eq_some_iff.mp h
    exact ⟨k.calm (call_calm k.sized hr), fun n hn => nomatch hn⟩
  | setTimeout fd type v =>
    cases h
    refine ⟨k.calm ⟨s.process.fds.modify_sized fd _ k.sized, fun n hn => ?_, fun n => rfl⟩,
      fun n hn => nomatch hn⟩
    rw [FdManager.modify_ctx, hn]
    split <;> rfl

omit [DecidableEq μ] [DecidableEq θ] in
/-- The last step of `socket` or `accept` closes nothing. -/
theorem cleared_of_returned {a : Act μ θ φ κ} (h : returned s a = some fd) : Cleared s a := by
  cases a with
  | work th ok =>
    intro n hn
    simp [returned, hn] at h
  | _ => cases h

/-- **Per-fd state does not outlive its descriptor** where every number is cleared before
it is closed: what `socket` and `accept` return has an entry of its own and no events. -/
theorem recycle_reachable (files : Nat → Option File) (acts : List (Act μ θ φ κ)) (s : State μ θ φ κ)
    (hm : Meets step Cleared (start files) acts) (h : run step (start files) acts = some s)
    (a : Act μ θ φ κ) (t : State μ θ φ κ) (ht : step s a = some t) (fd : Nat)
    (hreturned : returned s a = some fd) : Fresh t fd := by
  have k : Kept s := run_invariant (fun _ _ _ k hg h => (step_kept k hg h).1) (start_kept files) hm h
  exact (step_kept k (cleared_of_returned hreturned) ht).2 fd hreturned

end

/-! ### Runs -/

/-- A socket is opened by one thread and closed by another, without hooking. The first
thread opens a socket again and gets the number. -/
def staleActs : List (Act Unit (Fin 2) Nat Unit) :=
  [.socket 0 true 1 3, .work 0 true, .work 0 true, .close 1 false none 3, .work 1 true,
    .socket 0 true 1 3]

/-- A socket with an armed event is closed by a thread that has no IOManager. -/
def armedActs : List (Act Unit (Fin 2) Nat Unit) :=
  [.socket 0 true 1 3, .work 0 true, .work 0 true,
    .table () (.addEvent 3 .read ⟨some (), 7⟩ none true), .close 1 true none 3, .work 1 true,
    .work 1 true, .socket 0 true 1 3, .work 0 true]

/-- The socket that is returned has the entry of the first and blocks, or its event. -/
theorem stale_entry :
    (∃ s t x, run step (start fun _ => none) staleActs = some s ∧ step s (.work 0 true) = some t ∧
      returned s (.work 0 true) = some 3 ∧ t.own 3 = false ∧ t.process.files 3 = some x ∧
      hasNonblock x.flags = false) ∧
    ∃ s t, run step (start fun _ => none) armedActs = some s ∧ step s (.work 0 true) = some t ∧
      returned s (.work 0 true) = some 3 ∧ ((t.tables ()).view 3).events = Mask.only .read :=
  ⟨⟨_, _, _, rfl, rfl, rfl, rfl, rfl, rfl⟩, _, _, rfl, rfl, rfl, rfl⟩

/-- The same with hooking, on a thread of the IOManager that the event is armed in. -/
def recycleActs : List (Act Unit (Fin 2) Nat Unit) :=
  [.socket 0 true 1 3, .work 0 true, .work 0 true,
    .table () (.addEvent 3 .read ⟨some (), 7⟩ none true), .close 1 true (some ()) 3, .work 1 true,
    .work 1 true, .work 1 true, .socket 0 true 1 3, .work 0 true]

theorem recycle_reachable_sample : ∃ s t, run step (start fun _ => none) recycleActs = some s ∧
    step s (.work 0 true) = some t ∧ Fresh t 3 :=
  ⟨_, _, rfl, rfl, recycle_reachable (fun _ => none) recycleActs _ (by decide) rfl (.work 0 true) _ rfl 3 rfl⟩

end ShioSylar.Hook.Recycle
