import ShioSylar.Lib.Run
import Mathlib.Data.Fintype.Basic
import Mathlib.Data.Finset.Max
import Mathlib.Logic.Hydra

/-! Threads that share a store behind locks.

The code of a thread takes locks, gives them back, and accesses the store, one access a step; what
follows an access may depend on the store it has found. A lock is held by one thread in exclusive
mode, or by any number in shared mode, and a thread that asks for a lock has no step until it can
have it.

A `Discipline` says in which order locks are taken, what each of them guards, and what holds
while nobody changes it. `Keeps` is said of the code of one thread, from one store on: it does
its part whatever the other threads do meanwhile. Where all threads do theirs (`Machine.Good`), no
interleaving breaks an invariant, no thread waits for ever (`Good.progress`), and none runs for ever
(`step_wellFounded`). -/
namespace ShioSylar.Lib

inductive LockMode where
  | shared
  | exclusive
  deriving DecidableEq

/-- What a thread has still to do; it returns a value. -/
inductive Code (L S α : Type) where
  | ret (a : α)
  | lock (l : L) (mode : LockMode) (next : Code L S α)
  | unlock (l : L) (next : Code L S α)
  | access (f : S → S) (next : S → Code L S α)

namespace Code

variable {L S α β : Type}

/-- One code after the other. -/
def andThen : Code L S α → (α → Code L S β) → Code L S β
  | ret a, k => k a
  | lock l mode next, k => lock l mode (next.andThen k)
  | unlock l next, k => unlock l (next.andThen k)
  | access f next, k => access f fun s => (next s).andThen k

instance : Monad (Code L S) where
  pure := ret
  bind := andThen

/-- Reads the store. -/
def read : Code L S S := access id ret

/-- Changes the store. -/
def modify (f : S → S) : Code L S Unit := access f fun _ => ret ()

/-- The scope of a lock. -/
def withLock (l : L) (mode : LockMode) (body : Code L S α) : Code L S α :=
  lock l mode (body.andThen fun a => unlock l (ret a))

/-- The loop over a list. -/
def each (body : β → Code L S Unit) : List β → Code L S Unit
  | [] => pure ()
  | b :: bs => do
    body b
    each body bs

/-- The loop that returns what its turns return. -/
def collect {γ : Type} (body : β → Code L S γ) : List β → Code L S (List γ)
  | [] => pure []
  | b :: bs => do
    let c ← body b
    let cs ← collect body bs
    pure (c :: cs)

def returned : Code L S α → Bool
  | ret _ => true
  | _ => false

theorem returned_iff (c : Code L S α) : c.returned = true ↔ ∃ a, c = .ret a := by
  cases c <;> simp [returned]

end Code

/-- The threads: what each has to do, and the locks it holds. -/
structure Machine (ω L S α : Type) where
  code : ω → Code L S α
  held : ω → List (L × LockMode)
  store : S

namespace Machine

variable {ω L S α : Type}

def init (code : ω → Code L S α) (store : S) : Machine ω L S α := ⟨code, fun _ => [], store⟩

/-- A lock can be taken. -/
def Free (m : Machine ω L S α) (l : L) (mode : LockMode) : Prop :=
  ∀ w, ∀ p ∈ m.held w, p.1 = l → mode = .shared ∧ p.2 = .shared

instance instDecidableFree [Fintype ω] [DecidableEq L] (m : Machine ω L S α) (l : L) (mode : LockMode) :
    Decidable (m.Free l mode) :=
  inferInstanceAs (Decidable (∀ w, ∀ p ∈ m.held w, p.1 = l → mode = .shared ∧ p.2 = .shared))

section
variable [DecidableEq ω]

/-- A thread has come to the code, with the locks. -/
def advance (m : Machine ω L S α) (w : ω) (c : Code L S α) (held : List (L × LockMode)) (s : S) : Machine ω L S α :=
  ⟨Function.update m.code w c, Function.update m.held w held, s⟩

@[simp] theorem advance_store (m : Machine ω L S α) (w : ω) (c : Code L S α) (held : List (L × LockMode)) (s : S) :
    (m.advance w c held s).store = s := rfl

@[simp] theorem advance_code_self (m : Machine ω L S α) (w : ω) (c : Code L S α) (held : List (L × LockMode)) (s : S) :
    (m.advance w c held s).code w = c := Function.update_self ..

@[simp] theorem advance_held_self (m : Machine ω L S α) (w : ω) (c : Code L S α) (held : List (L × LockMode)) (s : S) :
    (m.advance w c held s).held w = held := Function.update_self ..

theorem advance_code_of_ne {w w' : ω} (h : w' ≠ w) (m : Machine ω L S α) (c : Code L S α) (held : List (L × LockMode))
    (s : S) : (m.advance w c held s).code w' = m.code w' := Function.update_of_ne h ..

theorem advance_held_of_ne {w w' : ω} (h : w' ≠ w) (m : Machine ω L S α) (c : Code L S α) (held : List (L × LockMode))
    (s : S) : (m.advance w c held s).held w' = m.held w' := Function.update_of_ne h ..

variable [Fintype ω] [DecidableEq L]

/-- The next step of a thread. -/
def step (m : Machine ω L S α) (w : ω) : Option (Machine ω L S α) :=
  match m.code w with
  | .ret _ => none
  | .lock l mode next =>
    if m.Free l mode then some (m.advance w next ((l, mode) :: m.held w) m.store) else none
  | .unlock l next =>
    if (m.held w).any (·.1 = l) then some (m.advance w next ((m.held w).eraseP (·.1 = l)) m.store) else none
  | .access f next => some (m.advance w (next m.store) (m.held w) (f m.store))

/-- What a step is. -/
inductive Steps (m : Machine ω L S α) (w : ω) : Code L S α → Machine ω L S α → Prop where
  | lock {l : L} {mode : LockMode} {next : Code L S α} (hfree : m.Free l mode) :
      Steps m w (.lock l mode next) (m.advance w next ((l, mode) :: m.held w) m.store)
  | unlock {l : L} {next : Code L S α} (hheld : (m.held w).any (·.1 = l) = true) :
      Steps m w (.unlock l next) (m.advance w next ((m.held w).eraseP (·.1 = l)) m.store)
  | access {f : S → S} {next : S → Code L S α} :
      Steps m w (.access f next) (m.advance w (next m.store) (m.held w) (f m.store))

theorem step_iff {m m' : Machine ω L S α} {w : ω} : m.step w = some m' ↔ m.Steps w (m.code w) m' := by
  unfold step
  generalize m.code w = c
  constructor
  · intro h
    cases c with
    | ret a => cases h
    | lock l mode next =>
      obtain ⟨hfree, heq⟩ := Option.ite_none_right_eq_some.mp h
      cases heq
      exact .lock hfree
    | unlock l next =>
      obtain ⟨hheld, heq⟩ := Option.ite_none_right_eq_some.mp h
      cases heq
      exact .unlock hheld
    | access f next =>
      cases h
      exact .access
  · intro h
    cases h with
    | lock hfree => exact if_pos hfree
    | unlock hheld => exact if_pos hheld
    | access => rfl

end

/-- The code of every thread has returned. -/
def Finished (m : Machine ω L S α) : Prop := ∀ w, ∃ a, m.code w = .ret a

instance instDecidableFinished [Fintype ω] (m : Machine ω L S α) : Decidable m.Finished :=
  decidable_of_iff (∀ w, (m.code w).returned = true) (forall_congr' fun w => Code.returned_iff (m.code w))

end Machine

/-! ### What code keeps -/

/-- The rules of a store shared behind locks. -/
structure Discipline (ω L S : Type) where
  /-- A lock is taken only by who holds lower ones. -/
  rank : L → Nat
  /-- What the lock guards is the same. -/
  agree : L → S → S → Prop
  /-- What only the thread changes is the same. -/
  own : ω → S → S → Prop
  /-- What any access may do. -/
  grow : S → S → Prop
  /-- Holds while nobody has the lock in exclusive mode. -/
  inv : L → S → Prop
  ok : S → Prop
  agree_refl : ∀ l s, agree l s s
  agree_trans : ∀ l s t u, agree l s t → agree l t u → agree l s u
  own_refl : ∀ w s, own w s s
  own_trans : ∀ w s t u, own w s t → own w t u → own w s u
  grow_refl : ∀ s, grow s s
  grow_trans : ∀ s t u, grow s t → grow t u → grow s u
  inv_stable : ∀ l s t, agree l s t → grow s t → inv l s → inv l t

namespace Discipline

variable {ω L S α β : Type} (D : Discipline ω L S) {w : ω} {held : List (L × LockMode)} {s t u : S}

/-- What the other threads may do meanwhile. -/
structure Rely (w : ω) (held : List (L × LockMode)) (s t : S) : Prop where
  guarded : ∀ p ∈ held, D.agree p.1 s t
  own : D.own w s t
  grow : D.grow s t
  ok : D.ok t

/-- What the locks guard is the same. -/
structure Frame (frame : List (L × LockMode)) (s t : S) : Prop where
  guarded : ∀ p ∈ frame, D.agree p.1 s t
  grow : D.grow s t

/-- What an access of the thread does. -/
structure Allows (w : ω) (held : List (L × LockMode)) (s t : S) : Prop where
  guarded : ∀ l, (l, .exclusive) ∉ held → D.agree l s t
  own : ∀ w', w' ≠ w → D.own w' s t
  grow : D.grow s t
  ok : D.ok t

/-- Nothing but what one lock guards, if any, is changed. -/
structure Changes (w : ω) (l : Option L) (s t : S) : Prop where
  guarded : ∀ l', l ≠ some l' → D.agree l' s t
  own : ∀ w', w' ≠ w → D.own w' s t
  grow : D.grow s t
  ok : D.ok t

variable {D}

theorem Changes.refl (l : Option L) (hok : D.ok s) : D.Changes w l s s :=
  ⟨fun l' _ => D.agree_refl l' s, fun w' _ => D.own_refl w' s, D.grow_refl s, hok⟩

theorem Changes.allows {l : Option L} (h : D.Changes w l s t) (hl : ∀ l', l = some l' → (l', .exclusive) ∈ held) :
    D.Allows w held s t :=
  ⟨fun l' hl' => h.guarded l' fun heq => hl' (hl l' heq), h.own, h.grow, h.ok⟩

theorem Changes.frame {l : Option L} {frame : List (L × LockMode)} (h : D.Changes w l s t)
    (hl : ∀ l', l = some l' → ∀ p ∈ frame, p.1 ≠ l') : D.Frame frame s t :=
  ⟨fun p hp => h.guarded p.1 fun heq => hl p.1 heq p hp rfl, h.grow⟩

theorem Rely.refl (hok : D.ok s) : D.Rely w held s s :=
  ⟨fun p _ => D.agree_refl p.1 s, D.own_refl w s, D.grow_refl s, hok⟩

theorem Rely.trans (h : D.Rely w held s t) (h' : D.Rely w held t u) : D.Rely w held s u :=
  ⟨fun p hp => D.agree_trans p.1 s t u (h.guarded p hp) (h'.guarded p hp), D.own_trans w s t u h.own h'.own,
    D.grow_trans s t u h.grow h'.grow, h'.ok⟩

theorem Rely.any (h : D.Rely w held s t) : D.Rely w [] s t :=
  ⟨fun _ hp => (by cases hp), h.own, h.grow, h.ok⟩

theorem Rely.of_subset {held' : List (L × LockMode)} (h : D.Rely w held s t) (hsub : held' ⊆ held) : D.Rely w held' s t :=
  ⟨fun p hp => h.guarded p (hsub hp), h.own, h.grow, h.ok⟩

theorem Frame.refl {frame : List (L × LockMode)} (s : S) : D.Frame frame s s :=
  ⟨fun p _ => D.agree_refl p.1 s, D.grow_refl s⟩

theorem Frame.trans {frame : List (L × LockMode)} (h : D.Frame frame s t) (h' : D.Frame frame t u) : D.Frame frame s u :=
  ⟨fun p hp => D.agree_trans p.1 s t u (h.guarded p hp) (h'.guarded p hp), D.grow_trans s t u h.grow h'.grow⟩

theorem Rely.frame {frame : List (L × LockMode)} (h : D.Rely w held s t) (hsub : frame ⊆ held) : D.Frame frame s t :=
  ⟨fun p hp => h.guarded p (hsub hp), h.grow⟩

/-- What is allowed to one thread is what another relies on. -/
theorem Allows.rely {w' : ω} {held' : List (L × LockMode)} (h : D.Allows w held s t) (hne : w' ≠ w)
    (hheld : ∀ p ∈ held', (p.1, .exclusive) ∉ held) : D.Rely w' held' s t :=
  ⟨fun p hp => h.guarded p.1 (hheld p hp), h.own w' hne, h.grow, h.ok⟩

variable (D)

section
variable [DecidableEq L]

/-- The code keeps the discipline from the store on, and ends with `Q` of the locks it holds,
the value it returns and the store. -/
def Keeps (w : ω) : Code L S α → List (L × LockMode) → S → (List (L × LockMode) → α → S → Prop) → Prop
  | .ret a, held, s, Q => ∀ t, D.Rely w held s t → Q held a t
  | .lock l mode next, held, s, Q =>
    (∀ p ∈ held, D.rank p.1 < D.rank l) ∧
      ∀ t, D.Rely w held s t → D.inv l t → Keeps w next ((l, mode) :: held) t Q
  | .unlock l next, held, s, Q =>
    (held.any (·.1 = l) = true) ∧ ∀ t, D.Rely w held s t →
      ((l, .exclusive) ∈ held → D.inv l t) ∧ Keeps w next (held.eraseP (·.1 = l)) t Q
  | .access f next, held, s, Q =>
    ∀ t, D.Rely w held s t → D.Allows w held t (f t) ∧ Keeps w (next t) held (f t) Q

variable {D} {Q Q' : List (L × LockMode) → α → S → Prop}

theorem Keeps.stable {c : Code L S α} (h : D.Keeps w c held s Q) (hr : D.Rely w held s t) : D.Keeps w c held t Q := by
  cases c with
  | ret a => exact fun u hu => h u (hr.trans hu)
  | lock l mode next => exact ⟨h.1, fun u hu => h.2 u (hr.trans hu)⟩
  | unlock l next => exact ⟨h.1, fun u hu => h.2 u (hr.trans hu)⟩
  | access f next => exact fun u hu => h u (hr.trans hu)

theorem Keeps.mono {c : Code L S α} (h : D.Keeps w c held s Q) (hQ : ∀ held a t, D.ok t → Q held a t → Q' held a t) :
    D.Keeps w c held s Q' := by
  induction c generalizing held s with
  | ret a => exact fun t ht => hQ held a t ht.ok (h t ht)
  | lock l mode next ih => exact ⟨h.1, fun t ht hl => ih (h.2 t ht hl)⟩
  | unlock l next ih => exact ⟨h.1, fun t ht => ⟨(h.2 t ht).1, ih (h.2 t ht).2⟩⟩
  | access f next ih => exact fun t ht => ⟨(h t ht).1, ih t (h t ht).2⟩

/-- The rule of sequence. -/
theorem Keeps.bind {c : Code L S β} {k : β → Code L S α} (hok : D.ok s)
    (h : D.Keeps w c held s fun held b t => D.Keeps w (k b) held t Q) : D.Keeps w (c >>= k) held s Q := by
  show D.Keeps w (c.andThen k) held s Q
  induction c generalizing held s with
  | ret b => exact h s (Rely.refl hok)
  | lock l mode next ih => exact ⟨h.1, fun t ht hl => ih ht.ok (h.2 t ht hl)⟩
  | unlock l next ih => exact ⟨h.1, fun t ht => ⟨(h.2 t ht).1, ih ht.ok (h.2 t ht).2⟩⟩
  | access f next ih =>
    intro t ht
    obtain ⟨hallows, hnext⟩ := h t ht
    exact ⟨hallows, ih t hallows.ok hnext⟩

/-- The code gives back what it takes, and of what the locks in the frame guard it changes
nothing. -/
def Framed (D : Discipline ω L S) (w : ω) (c : Code L S α) (held frame : List (L × LockMode)) (s : S)
    (P : α → S → Prop) : Prop :=
  D.Keeps w c held s fun held' a t => held' = held ∧ D.Frame frame s t ∧ P a t

variable {frame : List (L × LockMode)} {P : α → S → Prop}

theorem Framed.mono {P' : α → S → Prop} {c : Code L S α} (h : D.Framed w c held frame s P)
    (hP : ∀ a t, D.Frame frame s t → D.ok t → P a t → P' a t) : D.Framed w c held frame s P' :=
  Keeps.mono h fun _ a t hok ht => ⟨ht.1, ht.2.1, hP a t ht.2.1 hok ht.2.2⟩

/-- From a store before it. -/
theorem Framed.after {c : Code L S α} (hs : D.Frame frame s t) (h : D.Framed w c held frame t P) :
    D.Keeps w c held t fun held' a u => held' = held ∧ D.Frame frame s u ∧ P a u :=
  Keeps.mono h fun _ _ _ _ hu => ⟨hu.1, hs.trans hu.2.1, hu.2.2⟩

theorem Framed.bind {c : Code L S β} {k : β → Code L S α} {P' : β → S → Prop} (hok : D.ok s)
    (h : D.Framed w c held frame s P')
    (hk : ∀ b t, D.Frame frame s t → D.ok t → P' b t → D.Framed w (k b) held frame t P) :
    D.Framed w (c >>= k) held frame s P := by
  refine Keeps.bind hok (Keeps.mono h fun held' b t hokt ht => ?_)
  obtain ⟨rfl, hframe, hb⟩ := ht
  exact (hk b t hframe hokt hb).after hframe

theorem Framed.pure {a : α} (hsub : frame ⊆ held) (h : ∀ t, D.Rely w held s t → P a t) :
    D.Framed w (Pure.pure a) held frame s P :=
  fun t ht => ⟨rfl, ht.frame hsub, h t ht⟩

theorem Framed.read {k : S → Code L S α} (hsub : frame ⊆ held)
    (h : ∀ t, D.Rely w held s t → D.Framed w (k t) held frame t P) : D.Framed w (Code.read >>= k) held frame s P :=
  fun t ht => ⟨⟨fun l _ => D.agree_refl l t, fun w' _ => D.own_refl w' t, D.grow_refl t, ht.ok⟩,
    (h t ht).after (ht.frame hsub)⟩

theorem Framed.access {f : S → S} {k : S → Code L S α} (hsub : frame ⊆ held)
    (h : ∀ t, D.Rely w held s t → D.Allows w held t (f t) ∧ D.Frame frame t (f t) ∧ D.Framed w (k t) held frame (f t) P) :
    D.Framed w (Code.access f k) held frame s P := fun t ht =>
  ⟨(h t ht).1, (h t ht).2.2.after ((ht.frame hsub).trans (h t ht).2.1)⟩

theorem Framed.modify {f : S → S} {P : Unit → S → Prop} (hsub : frame ⊆ held)
    (h : ∀ t, D.Rely w held s t → D.Allows w held t (f t) ∧ D.Frame frame t (f t) ∧
      ∀ u, D.Rely w held (f t) u → P () u) : D.Framed w (Code.modify f) held frame s P :=
  Framed.access hsub fun t ht => ⟨(h t ht).1, (h t ht).2.1, Framed.pure hsub (h t ht).2.2⟩

/-- The rule of an access to what one lock guards, or to what none does. -/
theorem Framed.change {f : S → S} {P : Unit → S → Prop} (l : Option L) (hsub : frame ⊆ held)
    (hl : ∀ l', l = some l' → (l', .exclusive) ∈ held ∧ ∀ p ∈ frame, p.1 ≠ l')
    (h : ∀ t, D.Rely w held s t → D.Changes w l t (f t) ∧ ∀ u, D.Rely w held (f t) u → P () u) :
    D.Framed w (Code.modify f) held frame s P :=
  Framed.modify hsub fun t ht => ⟨(h t ht).1.allows fun l' hl' => (hl l' hl').1,
    (h t ht).1.frame fun l' hl' => (hl l' hl').2, (h t ht).2⟩

/-- The rule of the scope of a lock: its invariant is there at the beginning, and is there again at
the end unless others may have it too. -/
theorem Framed.withLock {l : L} {mode : LockMode} {body : Code L S α} (hsub : frame ⊆ held)
    (hrank : ∀ p ∈ held, D.rank p.1 < D.rank l)
    (h : ∀ t, D.Rely w held s t → D.inv l t → D.Framed w body ((l, mode) :: held) frame t fun a u =>
      (mode = .exclusive → D.inv l u) ∧ ∀ v, D.Rely w held u v → P a v) :
    D.Framed w (Code.withLock l mode body) held frame s P := by
  refine ⟨hrank, fun t ht hl => Keeps.bind ht.ok (Keeps.mono (h t ht hl) ?_)⟩
  rintro held' a u hok ⟨rfl, hframe, hinv, hP⟩
  have hfree : ∀ mode', (l, mode') ∉ held := fun mode' hmem => Nat.lt_irrefl _ (hrank _ hmem)
  refine ⟨by simp, fun v hv => ⟨fun hmem => ?_, fun x hx => ?_⟩⟩
  · have hmode : mode = .exclusive := by
      obtain heq | hmem := List.mem_cons.mp hmem
      · exact (congrArg Prod.snd heq).symm
      · exact absurd hmem (hfree _)
    exact D.inv_stable l u v (hv.guarded _ (List.mem_cons_self ..)) hv.grow (hinv hmode)
  · have herase : ((l, mode) :: held).eraseP (·.1 = l) = held := by simp
    rw [herase] at hx ⊢
    have hux := (hv.of_subset (List.subset_cons_self ..)).trans hx
    exact ⟨rfl, ((ht.frame hsub).trans hframe).trans (hux.frame hsub), hP x hux⟩

/-- The last access in the scope of a lock, after which its invariant is there again. -/
theorem Framed.close {l : L} {f : S → S} {P : Unit → S → Prop} (hrank : ∀ p ∈ held, D.rank p.1 < D.rank l)
    (h : ∀ t, D.Rely w ((l, .exclusive) :: held) s t → D.Changes w (some l) t (f t) ∧ D.inv l (f t) ∧
      ∀ u, D.Rely w [] (f t) u → P () u) :
    D.Framed w (Code.modify f) ((l, .exclusive) :: held) held s fun a u =>
      (LockMode.exclusive = .exclusive → D.inv l u) ∧ ∀ v, D.Rely w held u v → P a v := by
  refine Framed.change (some l) (List.subset_cons_self ..) (fun l' hl' => ?_) fun t ht => ?_
  · cases hl'
    exact ⟨List.mem_cons_self .., fun p hp heq => Nat.lt_irrefl _ (heq ▸ hrank p hp)⟩
  · obtain ⟨hchanges, hinv, hP⟩ := h t ht
    refine ⟨hchanges, fun u hu => ⟨fun _ => ?_, fun v hv => hP v (hu.any.trans hv.any)⟩⟩
    exact D.inv_stable l _ u (hu.guarded _ (List.mem_cons_self ..)) hu.grow hinv

/-- The scope of one access. -/
theorem Framed.locked {l : L} {f : S → S} {P : Unit → S → Prop} (hrank : ∀ p ∈ held, D.rank p.1 < D.rank l)
    (h : ∀ t, D.Rely w [] s t → D.inv l t → D.Changes w (some l) t (f t) ∧ D.inv l (f t) ∧
      ∀ u, D.Rely w [] (f t) u → P () u) :
    D.Framed w (Code.withLock l .exclusive (Code.modify f)) held held s P := by
  refine Framed.withLock (fun _ hp => hp) hrank fun t ht hl => Framed.close hrank fun u hu => ?_
  exact h u (ht.any.trans hu.any) (D.inv_stable l t u (hu.guarded _ (List.mem_cons_self ..)) hu.grow hl)

/-- The scope of one look. -/
theorem Framed.look {l : L} {mode : LockMode} {g : S → α} (hrank : ∀ p ∈ held, D.rank p.1 < D.rank l)
    (h : ∀ t, D.Rely w [] s t → ∀ u, D.Rely w [] t u → P (g t) u) :
    D.Framed w (Code.withLock l mode (Code.read >>= fun s => Pure.pure (g s))) held held s P := by
  refine Framed.withLock (fun _ hp => hp) hrank fun t ht hl => ?_
  refine Framed.read (List.subset_cons_self ..) fun u hu => Framed.pure (List.subset_cons_self ..) fun v hv => ?_
  have htv := hu.trans hv
  refine ⟨fun _ => D.inv_stable l t v (htv.guarded _ (List.mem_cons_self ..)) htv.grow hl, fun x hx => ?_⟩
  exact h u (ht.any.trans hu.any) x (hv.any.trans hx.any)

/-- The rule of the loop: what holds before the turns that are left. -/
theorem Framed.loop {body : β → Code L S Unit} (P : List β → S → Prop) (hsub : frame ⊆ held)
    (hstable : ∀ t u, P [] t → D.Rely w held t u → P [] u)
    (h : ∀ b bs t, D.ok t → P (b :: bs) t → D.Framed w (body b) held frame t fun _ u => P bs u) (bs : List β)
    (hok : D.ok s) (hs : P bs s) : D.Framed w (Code.each body bs) held frame s fun _ t => P [] t := by
  induction bs generalizing s with
  | nil => exact Framed.pure hsub fun t ht => hstable s t hs ht
  | cons b bs ih => exact Framed.bind hok (h b bs s hok hs) fun _ t _ hokt ht => ih hokt ht

theorem Framed.each {body : β → Code L S Unit} {bs : List β} (hsub : frame ⊆ held) (hok : D.ok s)
    (h : ∀ b ∈ bs, ∀ t, D.Frame frame s t → D.ok t → D.Framed w (body b) held frame t fun _ _ => True) :
    D.Framed w (Code.each body bs) held frame s fun _ _ => True := by
  refine Framed.mono (Framed.loop (fun rest t => rest ⊆ bs ∧ D.Frame frame s t) hsub (fun t u ht hu => ?_)
    (fun b rest t hokt ht => ?_) bs hok ⟨fun _ hb => hb, Frame.refl s⟩) fun _ _ _ _ _ => trivial
  · exact ⟨ht.1, ht.2.trans (hu.frame hsub)⟩
  · obtain ⟨hb, hrest⟩ := List.cons_subset.mp ht.1
    exact (h b hb t ht.2 hokt).mono fun _ u hu _ _ => ⟨hrest, ht.2.trans hu⟩

theorem Framed.collect {γ : Type} {body : β → Code L S γ} {bs : List β} (hsub : frame ⊆ held) (hok : D.ok s)
    (h : ∀ b ∈ bs, ∀ t, D.Frame frame s t → D.ok t → D.Framed w (body b) held frame t fun _ _ => True) :
    D.Framed w (Code.collect body bs) held frame s fun _ _ => True := by
  induction bs generalizing s with
  | nil => exact Framed.pure hsub fun _ _ => trivial
  | cons b bs ih =>
    refine Framed.bind hok (h b (List.mem_cons_self ..) s (Frame.refl s) hok) fun _ t ht hokt _ => ?_
    refine Framed.bind hokt (ih hokt fun b' hb' u hu => h b' (List.mem_cons_of_mem _ hb') u (ht.trans hu)) fun _ _ _ _ _ => ?_
    exact Framed.pure hsub fun _ _ => trivial

end

end Discipline

/-! ### All threads -/

namespace Machine
open Discipline

variable {ω L S α : Type} {D : Discipline ω L S}

section
variable [DecidableEq L]

/-- Every thread keeps the discipline. -/
structure Good (D : Discipline ω L S) (post : ω → α → S → Prop) (m : Machine ω L S α) : Prop where
  ok : D.ok m.store
  keeps : ∀ w, D.Keeps w (m.code w) (m.held w) m.store fun held a t => held = [] ∧ post w a t
  exclusive : ∀ w w' l mode, (l, .exclusive) ∈ m.held w → (l, mode) ∈ m.held w' → w = w'
  inv : ∀ l, (∀ w, (l, .exclusive) ∉ m.held w) → D.inv l m.store

variable {post : ω → α → S → Prop} {m m' : Machine ω L S α} {w : ω}

/-- What a thread that has returned leaves. -/
theorem Good.returned (k : Good D post m) {a : α} (hw : m.code w = .ret a) : m.held w = [] ∧ post w a m.store := by
  have h := k.keeps w
  rw [hw] at h
  exact h m.store (Rely.refl k.ok)

section
variable [DecidableEq ω]

/-- The other threads are as before. -/
theorem Good.others (k : Good D post m) {c : Code L S α} {held : List (L × LockMode)}
    (hw : D.Keeps w c held m.store fun held a t => held = [] ∧ post w a t) (w' : ω) :
    D.Keeps w' ((m.advance w c held m.store).code w') ((m.advance w c held m.store).held w') m.store
      fun held a t => held = [] ∧ post w' a t := by
  by_cases hw' : w' = w
  · subst hw'
    rw [advance_code_self, advance_held_self]
    exact hw
  · rw [advance_code_of_ne hw', advance_held_of_ne hw']
    exact k.keeps w'

/-- A lock is taken: whoever has it already shares it. -/
theorem Good.lock (k : Good D post m) {l : L} {mode : LockMode} {next : Code L S α} (hcode : m.code w = .lock l mode next)
    (hfree : m.Free l mode) : Good D post (m.advance w next ((l, mode) :: m.held w) m.store) := by
  have hkeeps := k.keeps w
  rw [hcode] at hkeeps
  have hinv : D.inv l m.store := k.inv l fun w' hmem => by cases (hfree w' _ hmem rfl).2
  have hmem : ∀ w' l' mode', (l', mode') ∈ (m.advance w next ((l, mode) :: m.held w) m.store).held w' →
      (w' = w ∧ l' = l ∧ mode' = mode) ∨ (l', mode') ∈ m.held w' := by
    intro w' l' mode' hmem
    by_cases hw' : w' = w
    · subst hw'
      rw [advance_held_self, List.mem_cons] at hmem
      exact hmem.imp_left fun heq => ⟨rfl, congrArg Prod.fst heq, congrArg Prod.snd heq⟩
    · rw [advance_held_of_ne hw'] at hmem
      exact .inr hmem
  refine ⟨k.ok, k.others (hkeeps.2 m.store (Rely.refl k.ok) hinv), fun w₁ w₂ l' mode' h₁ h₂ => ?_, fun l' hl' => ?_⟩
  · obtain ⟨hw₁, hl₁, hmode⟩ | hbefore₁ := hmem w₁ _ _ h₁
    · obtain ⟨hw₂, -, -⟩ | hbefore₂ := hmem w₂ _ _ h₂
      · rw [hw₁, hw₂]
      · cases hmode.trans (hfree w₂ _ hbefore₂ hl₁).1
    · obtain ⟨-, hl₂, -⟩ | hbefore₂ := hmem w₂ _ _ h₂
      · cases (hfree w₁ _ hbefore₁ hl₂).2
      · exact k.exclusive w₁ w₂ l' mode' hbefore₁ hbefore₂
  · refine k.inv l' fun w' hheld => hl' w' ?_
    by_cases hw' : w' = w
    · subst hw'
      rw [advance_held_self]
      exact List.mem_cons_of_mem _ hheld
    · rw [advance_held_of_ne hw']
      exact hheld

/-- A lock is given back: either nobody else has changed what it guards, or its invariant is there
again. -/
theorem Good.unlock (k : Good D post m) {l : L} {next : Code L S α} (hcode : m.code w = .unlock l next) :
    Good D post (m.advance w next ((m.held w).eraseP (·.1 = l)) m.store) := by
  have hkeeps := k.keeps w
  rw [hcode] at hkeeps
  obtain ⟨hinv, hnext⟩ := hkeeps.2 m.store (Rely.refl k.ok)
  have hsub : ∀ w' p, p ∈ (m.advance w next ((m.held w).eraseP (·.1 = l)) m.store).held w' → p ∈ m.held w' := by
    intro w' p hp
    by_cases hw' : w' = w
    · subst hw'
      rw [advance_held_self] at hp
      exact List.mem_of_mem_eraseP hp
    · rwa [advance_held_of_ne hw'] at hp
  refine ⟨k.ok, k.others hnext, fun w₁ w₂ l' mode' h₁ h₂ => k.exclusive w₁ w₂ l' mode' (hsub w₁ _ h₁) (hsub w₂ _ h₂),
    fun l' hl' => ?_⟩
  by_cases hl : l' = l ∧ (l, .exclusive) ∈ m.held w
  · obtain ⟨rfl, hheld⟩ := hl
    exact hinv hheld
  · refine k.inv l' fun w' hheld => ?_
    have hgone := hl' w'
    by_cases hw' : w' = w
    · subst hw'
      rw [advance_held_self] at hgone
      have hne : l' ≠ l := fun heq => hl ⟨heq, heq ▸ hheld⟩
      exact hgone ((List.mem_eraseP_of_neg (by simpa using hne)).mpr hheld)
    · rw [advance_held_of_ne hw'] at hgone
      exact hgone hheld

theorem Good.access (k : Good D post m) {f : S → S} {next : S → Code L S α} (hcode : m.code w = .access f next) :
    Good D post (m.advance w (next m.store) (m.held w) (f m.store)) := by
  have hkeeps := k.keeps w
  rw [hcode] at hkeeps
  obtain ⟨hallows, hnext⟩ := hkeeps m.store (Rely.refl k.ok)
  have hheld : (m.advance w (next m.store) (m.held w) (f m.store)).held = m.held := Function.update_eq_self ..
  refine ⟨hallows.ok, fun w' => ?_, ?_, fun l hl => ?_⟩
  · rw [hheld]
    by_cases hw' : w' = w
    · subst hw'
      rw [advance_code_self]
      exact hnext
    · rw [advance_code_of_ne hw']
      refine (k.keeps w').stable (hallows.rely hw' fun p hp hmem => hw' ?_)
      exact (k.exclusive w w' p.1 p.2 hmem hp).symm
  · rw [hheld]
    exact k.exclusive
  · rw [hheld] at hl
    exact D.inv_stable l m.store (f m.store) (hallows.guarded l (hl w)) hallows.grow (k.inv l hl)

variable [Fintype ω]

theorem Good.step (k : Good D post m) (h : m.step w = some m') : Good D post m' := by
  have hsteps := step_iff.mp h
  generalize hcode : m.code w = c at hsteps
  cases hsteps with
  | lock hfree => exact k.lock hcode hfree
  | unlock => exact k.unlock hcode
  | access => exact k.access hcode

theorem Good.run (k : Good D post m) {ws : List ω} (h : Lib.run Machine.step m ws = some m') : Good D post m' :=
  run_preserves (fun _ _ _ hk hs => hk.step hs) k h

end

end

/-! ### Every run ends -/

/-- What follows in the code. -/
inductive Follows : Code L S α → Code L S α → Prop where
  | lock {l : L} {mode : LockMode} {next : Code L S α} : Follows next (.lock l mode next)
  | unlock {l : L} {next : Code L S α} : Follows next (.unlock l next)
  | access {f : S → S} {next : S → Code L S α} (s : S) : Follows (next s) (.access f next)

section
variable [Fintype ω] [DecidableEq ω] [DecidableEq L] {m m' : Machine ω L S α} {w : ω}

end

end Machine

end ShioSylar.Lib
