import ShioSylar.Config.Codec
import ShioSylar.Config.Var

/-! `fromString` with listeners that may throw (`ConfigVar` of `config.h`).

`setValue` tells the listeners before it stores, so an exception of one of them leaves the value
as it was after the listeners before it have been told of another one. `fromString` catches it, and
what it answers does not depend on it: the last statement is `return false`, and there is no other
one. It is all or nothing only where there is nothing to do (`allOrNothing_iff`). -/
namespace ShioSylar.Config

variable {ι α : Type}

/-- What a call leaves: the value, and the calls of listeners with the old and the new one. -/
structure Observed (ι α : Type) where
  var : ConfigVar ι α
  calls : List (ι × α × α)

namespace Observed

section
variable (throws : ι → α → α → Bool)

/-- The loop of `setValue`: the calls, and whether the last one has thrown. -/
def notify (old new : α) : List ι → List (ι × α × α) × Bool
  | [] => ([], false)
  | i :: rest =>
    if throws i old new then ([(i, old, new)], true)
    else ((i, old, new) :: (notify old new rest).1, (notify old new rest).2)

variable [BEq α]

/-- `ConfigVar::setValue`; the flag says that an exception leaves it. -/
def setValue (c : ConfigVar ι α) (v : α) : Observed ι α × Bool :=
  if v == c.val then (⟨c, []⟩, false)
  else
    let (calls, thrown) := notify throws c.val v c.cbs
    (⟨if thrown then c else c.store v, calls⟩, thrown)

/-- `ConfigVar::fromString`; `ofText` is the cast `FromStr`, and `none` an exception of it. -/
def fromString (ofText : String → Option α) (c : ConfigVar ι α) (val : String) : Bool × Observed ι α :=
  match ofText val with
  | none => (false, ⟨c, []⟩)
  | some v => (false, (setValue throws c v).1)

end

/-! ### The listeners -/

section
variable {throws : ι → α → α → Bool} (old new : α)

/-- They are called in order, up to one that throws. -/
theorem notify_calls (l : List ι) :
    (notify throws old new l).1 <+: l.map fun i => (i, old, new) := by
  induction l with
  | nil => exact List.prefix_rfl
  | cons i rest ih =>
    unfold notify
    split
    · exact ⟨rest.map fun i => (i, old, new), rfl⟩
    · exact List.cons_prefix_cons.mpr ⟨rfl, ih⟩

/-- All of them have the new value. -/
theorem notify_new {l : List ι} {call : ι × α × α} (h : call ∈ (notify throws old new l).1) :
    call.2.2 = new := by
  obtain ⟨i, -, rfl⟩ := List.mem_map.mp ((notify_calls old new l).subset h)
  rfl

/-- An exception is that of a call. -/
theorem notify_ne_nil {l : List ι} (h : (notify throws old new l).2 = true) :
    (notify throws old new l).1 ≠ [] := by
  cases l with
  | nil => cases h
  | cons i rest =>
    unfold notify
    split <;> exact List.cons_ne_nil _ _

/-- Where none throws, all are called. -/
theorem notify_quiet {l : List ι} (h : ∀ i ∈ l, throws i old new = false) :
    notify throws old new l = (l.map fun i => (i, old, new), false) := by
  induction l with
  | nil => rfl
  | cons i rest ih =>
    rw [List.forall_mem_cons] at h
    simp [notify, h.1, ih h.2]

end

section
variable [BEq α] {throws : ι → α → α → Bool} {ofText : String → Option α} {c : ConfigVar ι α}

/-- Where no listener throws, `setValue` is the two sections, one after the other. -/
theorem setValue_sections {v : α} (hquiet : ∀ i ∈ c.cbs, throws i c.val v = false) :
    setValue throws c v =
      ((c.announce v).elim ⟨c, []⟩ fun calls => ⟨c.store v, calls⟩, false) := by
  unfold setValue ConfigVar.announce
  split
  · rfl
  · rw [notify_quiet _ _ hquiet]
    rfl

/-- And `fromString` stores what its text says. -/
theorem fromString_val [LawfulBEq α] {d : Codec α} {val : String}
    (hquiet : ∀ v, ∀ i ∈ c.cbs, throws i c.val v = false) :
    (fromString throws d.ofText c val).2.var.val = ConfigVar.fromString d c.val val := by
  unfold fromString ConfigVar.fromString
  cases d.ofText val with
  | none => rfl
  | some v =>
    simp only [setValue_sections (hquiet v), ConfigVar.announce, Option.getD_some]
    split
    · rename_i heq
      exact (eq_of_beq heq).symm
    · rfl

/-! ### All or nothing -/

/-- The text was converted, the result is stored, and each listener was told once unless it is
the old value; or the value is the old one, and no listener was told another one. -/
def AllOrNothing (c : ConfigVar ι α) (text : Option α) (r : Bool × Observed ι α) : Prop :=
  (r.1 = true ∧ ∃ v, text = some v ∧ r.2.var.val = v ∧
    ((v == c.val) = false → r.2.calls.Perm (c.cbs.map fun i => (i, c.val, v)))) ∨
  (r.1 = false ∧ r.2.var.val = c.val ∧ ∀ call ∈ r.2.calls, call.2.2 = r.2.var.val)

/-- An answer of `false` can be right for the value in use only. -/
theorem setValue_unchanged {v : α} :
    ((setValue throws c v).1.var.val = c.val ∧
      ∀ call ∈ (setValue throws c v).1.calls, call.2.2 = (setValue throws c v).1.var.val) ↔
    ((v == c.val) = true ∨ v = c.val) := by
  cases heq : v == c.val with
  | true => simp [setValue, heq]
  | false =>
    have hset : setValue throws c v = (⟨if (notify throws c.val v c.cbs).2 then c else c.store v,
        (notify throws c.val v c.cbs).1⟩, (notify throws c.val v c.cbs).2) := by
      rw [setValue, if_neg (by simp [heq])]
    rw [hset, or_iff_right Bool.false_ne_true]
    constructor
    · rintro ⟨hval, hcalls⟩
      cases hthrown : (notify throws c.val v c.cbs).2 with
      | false =>
        simp only [hthrown, Bool.false_eq_true, if_false] at hval
        exact hval
      | true =>
        -- the listener that has thrown was told
        obtain ⟨call, hcall⟩ := List.exists_mem_of_ne_nil _ (notify_ne_nil c.val v hthrown)
        rw [← notify_new c.val v hcall, hcalls call hcall, hval]
    · intro hv
      have hval : (if (notify throws c.val v c.cbs).2 then c else c.store v).val = c.val := by
        split
        · rfl
        · exact hv
      refine ⟨hval, fun call hcall => ?_⟩
      rw [notify_new c.val v hcall, hval, hv]

/-- **All or nothing.** For every type, value, listeners and text, `fromString` is all or nothing if
and only if the text is not converted, or to the value in use. -/
theorem allOrNothing_iff (throws : ι → α → α → Bool) (ofText : String → Option α) (c : ConfigVar ι α)
    (val : String) : AllOrNothing c (ofText val) (fromString throws ofText c val) ↔
      ∀ v, ofText val = some v → (v == c.val) = true ∨ v = c.val := by
  unfold AllOrNothing fromString
  cases ofText val with
  | none => simp
  | some v =>
    simp only [Bool.false_eq_true, false_and, false_or, true_and, Option.some.injEq, forall_eq']
    exact setValue_unchanged

end

/-- An `int` that is 1, with no listener. -/
def oneVar : ConfigVar Nat CInt := ⟨⟨1, by decide⟩, [], List.nodup_nil⟩

/-- `"2"` is stored, and the answer is false. -/
theorem fromString_stored :
    (fromString (fun _ _ _ => false) readInt oneVar "2").1 = false ∧
    (fromString (fun _ _ _ => false) readInt oneVar "2").2.var.val.val = 2 ∧
    ¬ AllOrNothing oneVar (readInt "2") (fromString (fun _ _ _ => false) readInt oneVar "2") := by
  refine ⟨by decide, by decide, fun h => ?_⟩
  obtain ⟨hret, -⟩ | ⟨-, hval, -⟩ := h
  · exact absurd hret (by decide)
  · exact absurd hval (by decide)

end Observed

end ShioSylar.Config
