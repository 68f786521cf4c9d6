import Mathlib.Algebra.GroupWithZero.Nat
import Mathlib.Data.List.Basic

/-! The task queue of a scheduler (`scheduler.h`, and the locked scan of `Scheduler::run`).

`m_fibers` is a list of nodes, each a fiber or a callback and the thread it is pinned
to. Fibers and callbacks are any types: the queue never looks inside them, and of a
fiber it only asks whether its state is `EXEC`. -/
namespace ShioSylar.Scheduler

/-- Two or three fibers are numbered wherever a run is written out. -/
instance neZero_two : NeZero 2 := ⟨by decide⟩

instance neZero_three : NeZero 3 := ⟨by decide⟩

variable {φ κ : Type}

/-- A node of the queue; thread `-1` is no pin. -/
structure FiberAndThread (φ κ : Type) where
  fiber : Option φ := none
  cb : Option κ := none
  thread : Int := -1
  deriving DecidableEq

namespace FiberAndThread

/-- `FiberAndThread(Fiber::ptr* f, int thr)`: the node, and what is left in `*f`. -/
def ofFiberPtr (f : Option φ) (thr : Int) : FiberAndThread φ κ × Option φ :=
  ({ fiber := f, thread := thr }, none)

/-- `FiberAndThread(std::function<void()>* f, int thr)`: the node, and what is left in
`*f`. -/
def ofCbPtr (f : Option κ) (thr : Int) : FiberAndThread φ κ × Option κ :=
  ({ cb := f, thread := thr }, none)

/-- Some task is in the node. -/
def nonempty (ft : FiberAndThread φ κ) : Bool := ft.fiber.isSome || ft.cb.isSome

end FiberAndThread

/-- `scheduleNoLock`: whether a tickle is needed, and the queue after it. -/
def scheduleNoLock (fibers : List (FiberAndThread φ κ)) (ft : FiberAndThread φ κ) :
    Bool × List (FiberAndThread φ κ) :=
  (fibers.isEmpty, if ft.nonempty then fibers ++ [ft] else fibers)

/-- The loop of `schedule(begin, end)` under the lock; one node is `schedule(fc, thread)`. -/
def scheduleAll (fibers nodes : List (FiberAndThread φ κ)) : List (FiberAndThread φ κ) :=
  nodes.foldl (fun fibers ft => (scheduleNoLock fibers ft).2) fibers

/-- `need_tickle` of the loop. -/
def needTickle (fibers nodes : List (FiberAndThread φ κ)) : Bool :=
  (nodes.foldl (fun r ft =>
    let next := scheduleNoLock r.2 ft
    (next.1 || r.1, next.2)) (false, fibers)).1

/-- What the scan of `run` comes back with. -/
structure Fetched (φ κ : Type) where
  task : Option (FiberAndThread φ κ)
  fibers : List (FiberAndThread φ κ)
  tickleMe : Bool

/-- The scan of `run` under the lock: the first node that is not pinned to another
thread and whose fiber is not being executed; `none` where an empty node fails the
assertion. -/
def fetch (thread : Int) (isExec : φ → Bool) : List (FiberAndThread φ κ) → Option (Fetched φ κ)
  | [] => some ⟨none, [], false⟩
  | it :: rest =>
    if it.thread ≠ -1 ∧ it.thread ≠ thread then
      (fetch thread isExec rest).map fun r => ⟨r.task, it :: r.fibers, true⟩
    else if it.nonempty = false then none
    else if it.fiber.any isExec then
      (fetch thread isExec rest).map fun r => ⟨r.task, it :: r.fibers, r.tickleMe⟩
    else some ⟨some it, rest, !rest.isEmpty⟩

theorem scheduleAll_eq (fibers nodes : List (FiberAndThread φ κ)) :
    scheduleAll fibers nodes = fibers ++ nodes.filter (·.nonempty) := by
  unfold scheduleAll
  induction nodes generalizing fibers with
  | nil => simp
  | cons ft rest ih =>
    rw [List.foldl_cons, ih, scheduleNoLock]
    cases h : ft.nonempty <;> simp [h]

/-- A tickle is needed where something is put into an empty queue. -/
theorem needTickle_eq (fibers nodes : List (FiberAndThread φ κ)) :
    needTickle fibers nodes = (fibers.isEmpty && !nodes.isEmpty) := by
  have hfold : ∀ (b : Bool) (fibers : List (FiberAndThread φ κ)),
      (nodes.foldl (fun r ft =>
        let next := scheduleNoLock r.2 ft
        (next.1 || r.1, next.2)) (b, fibers)).1 = (b || (fibers.isEmpty && !nodes.isEmpty)) := by
    induction nodes with
    | nil => simp
    | cons ft rest ih =>
      intro b fibers
      rw [List.foldl_cons, ih]
      cases fibers with
      | cons x xs => simp [scheduleNoLock]; cases ft.nonempty <;> simp
      | nil => simp [scheduleNoLock]
  exact hfold false fibers

/-- No empty node gets into the queue. -/
theorem scheduleAll_nonempty {fibers : List (FiberAndThread φ κ)} (nodes : List (FiberAndThread φ κ))
    (h : ∀ it ∈ fibers, it.nonempty = true) : ∀ it ∈ scheduleAll fibers nodes, it.nonempty = true := by
  intro it hit
  rw [scheduleAll_eq, List.mem_append, List.mem_filter] at hit
  exact hit.elim (h it) And.right

/-- What the worker of a thread may take. -/
def Takeable (thread : Int) (isExec : φ → Bool) (it : FiberAndThread φ κ) : Prop :=
  (it.thread = -1 ∨ it.thread = thread) ∧ it.fiber.any isExec = false

/-- The scan takes the first node it may take, or none if there is none. -/
theorem fetch_spec {thread : Int} {isExec : φ → Bool} {fibers : List (FiberAndThread φ κ)}
    (h : ∀ it ∈ fibers, it.nonempty = true) :
    ∃ r, fetch thread isExec fibers = some r ∧ match r.task with
      | none => r.fibers = fibers ∧ ∀ it ∈ fibers, ¬ Takeable thread isExec it
      | some it => Takeable thread isExec it ∧ ∃ before after, fibers = before ++ it :: after ∧
          r.fibers = before ++ after ∧ ∀ x ∈ before, ¬ Takeable thread isExec x := by
  induction fibers with
  | nil => exact ⟨_, rfl, rfl, fun _ hit => nomatch hit⟩
  | cons x rest ih =>
    obtain ⟨r, hr, hspec⟩ := ih fun it hit => h it (List.mem_cons_of_mem x hit)
    have hskip : ¬ Takeable thread isExec x →
        match r.task with
        | none => x :: r.fibers = x :: rest ∧ ∀ it ∈ x :: rest, ¬ Takeable thread isExec it
        | some it => Takeable thread isExec it ∧ ∃ before after, x :: rest = before ++ it :: after ∧
            x :: r.fibers = before ++ after ∧ ∀ y ∈ before, ¬ Takeable thread isExec y := by
      intro hx
      split at hspec
      · obtain ⟨heq, hall⟩ := hspec
        exact ⟨by rw [heq], List.forall_mem_cons.mpr ⟨hx, hall⟩⟩
      · obtain ⟨ht, before, after, rfl, heq, hall⟩ := hspec
        exact ⟨ht, x :: before, after, rfl, by rw [heq]; rfl, List.forall_mem_cons.mpr ⟨hx, hall⟩⟩
    have hne := h x (List.mem_cons_self ..)
    unfold fetch
    by_cases hpin : x.thread ≠ -1 ∧ x.thread ≠ thread
    · rw [if_pos hpin, hr]
      refine ⟨_, rfl, hskip fun ht => ?_⟩
      exact ht.1.elim hpin.1 hpin.2
    · rw [if_neg hpin, if_neg (by simp [hne])]
      cases hexec : x.fiber.any isExec with
      | true =>
        rw [hr]
        refine ⟨_, rfl, hskip fun ht => ?_⟩
        cases ht.2.symm.trans hexec
      | false =>
        refine ⟨_, rfl, ⟨?_, hexec⟩, [], rest, rfl, rfl, fun _ hy => nomatch hy⟩
        by_contra hnot
        exact hpin ⟨fun h => hnot (.inl h), fun h => hnot (.inr h)⟩

/-- The scan takes one node out, or none. -/
theorem fetch_perm {thread : Int} {isExec : φ → Bool} {fibers : List (FiberAndThread φ κ)}
    {r : Fetched φ κ} (hr : fetch thread isExec fibers = some r) :
    fibers.Perm (r.task.toList ++ r.fibers) := by
  induction fibers generalizing r with
  | nil =>
    cases hr
    exact .nil
  | cons x rest ih =>
    have hskip : ∀ {r' : Fetched φ κ}, fetch thread isExec rest = some r' →
        (x :: rest).Perm (r'.task.toList ++ x :: r'.fibers) := fun hr' =>
      ((ih hr').cons x).trans List.perm_middle.symm
    unfold fetch at hr
    split at hr
    · obtain ⟨r', hr', rfl⟩ := Option.map_eq_some_iff.mp hr
      exact hskip hr'
    · split at hr
      · cases hr
      · split at hr
        · obtain ⟨r', hr', rfl⟩ := Option.map_eq_some_iff.mp hr
          exact hskip hr'
        · cases hr
          exact .refl _

/-- A node stays in the list or is the one taken. -/
theorem fetch_keeps {thread : Int} {isExec : φ → Bool} {fibers : List (FiberAndThread φ κ)}
    {r : Fetched φ κ} (hr : fetch thread isExec fibers = some r) :
    ∀ it ∈ fibers, it ∈ r.fibers ∨ r.task = some it := by
  intro it hit
  rcases List.mem_append.mp ((fetch_perm hr).subset hit) with htask | hrest
  · exact .inr (Option.mem_toList.mp htask)
  · exact .inl hrest

/-- The scan takes what it may. -/
theorem fetch_takeable {thread : Int} {isExec : φ → Bool} {fibers : List (FiberAndThread φ κ)}
    {r : Fetched φ κ} (hr : fetch thread isExec fibers = some r) {it : FiberAndThread φ κ}
    (hit : r.task = some it) : Takeable thread isExec it := by
  induction fibers generalizing r with
  | nil =>
    cases hr
    cases hit
  | cons x rest ih =>
    unfold fetch at hr
    split at hr
    · obtain ⟨r', hr', rfl⟩ := Option.map_eq_some_iff.mp hr
      exact ih hr' hit
    · rename_i hpin
      split at hr
      · cases hr
      · split at hr
        · obtain ⟨r', hr', rfl⟩ := Option.map_eq_some_iff.mp hr
          exact ih hr' hit
        · rename_i hexec
          cases hr
          cases hit
          refine ⟨?_, (Bool.not_eq_true _).mp hexec⟩
          by_contra hnot
          exact hpin ⟨fun h => hnot (.inl h), fun h => hnot (.inr h)⟩

/-- The scan brings nothing of its own, and takes what it may. -/
theorem fetch_mem {thread : Int} {isExec : φ → Bool} {fibers : List (FiberAndThread φ κ)}
    {r : Fetched φ κ} (hr : fetch thread isExec fibers = some r) :
    (∀ it ∈ r.fibers, it ∈ fibers) ∧ ∀ it, r.task = some it → it ∈ fibers ∧ Takeable thread isExec it := by
  have hmem := (fetch_perm hr).symm.subset
  refine ⟨fun it hit => hmem (List.mem_append_right _ hit), fun it hit => ⟨?_, fetch_takeable hr hit⟩⟩
  exact hmem (List.mem_append_left _ (Option.mem_toList.mpr hit))

/-- A scan that takes nothing leaves the list as it was. -/
theorem fetch_none {thread : Int} {isExec : φ → Bool} {fibers : List (FiberAndThread φ κ)}
    {r : Fetched φ κ} (hr : fetch thread isExec fibers = some r) (hnone : r.task = none) : r.fibers = fibers := by
  induction fibers generalizing r with
  | nil =>
    cases hr
    rfl
  | cons x rest ih =>
    unfold fetch at hr
    split at hr
    · obtain ⟨r', hr', rfl⟩ := Option.map_eq_some_iff.mp hr
      exact congrArg (x :: ·) (ih hr' hnone)
    · split at hr
      · cases hr
      · split at hr
        · obtain ⟨r', hr', rfl⟩ := Option.map_eq_some_iff.mp hr
          exact congrArg (x :: ·) (ih hr' hnone)
        · cases hr
          cases hnone

/-- A scan that takes nothing and asks for no tickle has passed over fibers in EXEC only. -/
theorem fetch_quiet {thread : Int} {isExec : φ → Bool} {fibers : List (FiberAndThread φ κ)}
    {r : Fetched φ κ} (hr : fetch thread isExec fibers = some r) (hnone : r.task = none)
    (htickle : r.tickleMe = false) : ∀ it ∈ fibers, it.fiber.any isExec = true := by
  induction fibers generalizing r with
  | nil => exact fun _ hit => nomatch hit
  | cons x rest ih =>
    unfold fetch at hr
    split at hr
    · obtain ⟨r', hr', rfl⟩ := Option.map_eq_some_iff.mp hr
      cases htickle
    · split at hr
      · cases hr
      · split at hr
        · rename_i hexec
          obtain ⟨r', hr', rfl⟩ := Option.map_eq_some_iff.mp hr
          exact List.forall_mem_cons.mpr ⟨hexec, ih hr' hnone htickle⟩
        · cases hr
          cases hnone

instance (thread : Int) (isExec : φ → Bool) (it : FiberAndThread φ κ) :
    Decidable (Takeable thread isExec it) :=
  inferInstanceAs (Decidable ((it.thread = -1 ∨ it.thread = thread) ∧ it.fiber.any isExec = false))

/-- The scan as a search of the list. -/
theorem fetch_find {thread : Int} {isExec : φ → Bool} {fibers : List (FiberAndThread φ κ)}
    (h : ∀ it ∈ fibers, it.nonempty = true) {r : Fetched φ κ} (hr : fetch thread isExec fibers = some r) :
    r.task = fibers.find? (fun it => Takeable thread isExec it) ∧
      r.fibers = fibers.eraseP fun it => Takeable thread isExec it := by
  obtain ⟨r', hr', hspec⟩ := @fetch_spec _ _ thread isExec fibers h
  cases hr.symm.trans hr'
  cases htask : r.task with
  | none =>
    rw [htask] at hspec
    obtain ⟨hrest, hnone⟩ := hspec
    have hfind : fibers.find? (fun it => Takeable thread isExec it) = none :=
      List.find?_eq_none.mpr fun it hit => by simpa using hnone it hit
    exact ⟨hfind.symm, hrest.trans (List.eraseP_of_forall_not fun it hit => by simpa using hnone it hit).symm⟩
  | some it =>
    rw [htask] at hspec
    obtain ⟨htake, before, after, heq, hrest, hnone⟩ := hspec
    refine ⟨(List.find?_eq_some_iff_append.mpr ⟨by simpa using htake, before, after, heq, fun x hx => ?_⟩).symm, ?_⟩
    · simpa using hnone x hx
    · rw [hrest, heq, List.eraseP_append_right _ fun x hx => by simpa using hnone x hx, List.eraseP_cons]
      simp [htake]

/-! ### Fibers under other names -/

section
variable {ψ : Type} (name : φ → ψ)

def FiberAndThread.rename (ft : FiberAndThread φ κ) : FiberAndThread ψ κ :=
  { fiber := ft.fiber.map name, cb := ft.cb, thread := ft.thread }

def Fetched.rename (r : Fetched φ κ) : Fetched ψ κ :=
  { task := r.task.map (·.rename name), fibers := r.fibers.map (·.rename name), tickleMe := r.tickleMe }

@[simp] theorem rename_nonempty (ft : FiberAndThread φ κ) : (ft.rename name).nonempty = ft.nonempty := by
  simp [FiberAndThread.rename, FiberAndThread.nonempty]

theorem scheduleAll_rename (fibers nodes : List (FiberAndThread φ κ)) :
    scheduleAll (fibers.map (·.rename name)) (nodes.map (·.rename name)) =
      (scheduleAll fibers nodes).map (·.rename name) := by
  rw [scheduleAll_eq, scheduleAll_eq, List.map_append, List.filter_map]
  congr 2
  exact List.filter_congr fun ft _ => rename_nonempty name ft

/-- The scan does not look at the names. -/
theorem fetch_rename {name} {isExec : φ → Bool} {isExec' : ψ → Bool} (h : ∀ f, isExec' (name f) = isExec f)
    (thread : Int) (fibers : List (FiberAndThread φ κ)) :
    fetch thread isExec' (fibers.map (·.rename name)) = (fetch thread isExec fibers).map (·.rename name) := by
  induction fibers with
  | nil => rfl
  | cons it rest ih =>
    have hexec : (it.rename name).fiber.any isExec' = it.fiber.any isExec := by
      cases hf : it.fiber <;> simp [FiberAndThread.rename, hf, h]
    simp only [List.map_cons, fetch, rename_nonempty, hexec, ih]
    rw [show (it.rename name).thread = it.thread from rfl]
    split
    · rw [Option.map_map, Option.map_map]
      rfl
    · split
      · rfl
      · split
        · rw [Option.map_map, Option.map_map]
          rfl
        · simp [Fetched.rename]

end

end ShioSylar.Scheduler
