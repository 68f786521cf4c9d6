import Mathlib.Data.Set.Card

/-! A counter of those who have a property.

`Counts P n` says that finitely many have the property and `n` is their number. When only
one party moves, the counter moves by what the property says of it before and after. -/
namespace ShioSylar.Lib

variable {ω : Type*} {P Q : ω → Bool} {n : Int} {w : ω}

def Counts (P : ω → Bool) (n : Int) : Prop :=
  {w | P w = true}.Finite ∧ ({w | P w = true}.ncard : Int) = n

theorem counts_none (h : ∀ w, P w = false) : Counts P 0 := by
  have hempty : {w | P w = true} = ∅ := by
    ext w
    simp [h w]
  unfold Counts
  rw [hempty]
  exact ⟨Set.finite_empty, by simp⟩

theorem Counts.congr (k : Counts P n) (h : ∀ w, Q w = P w) : Counts Q n := by
  rwa [show Q = P from funext h]

/-- A counter at zero counts nobody. -/
theorem Counts.none (k : Counts P 0) (w : ω) : P w = false := by
  obtain ⟨hfin, hcard⟩ := k
  have hempty := (Set.ncard_eq_zero hfin).mp (by omega)
  have hw : w ∉ {w | P w = true} := by
    rw [hempty]
    exact Set.notMem_empty w
  simpa using hw

theorem Counts.unique {m : Int} (k : Counts P n) (h : Counts P m) : n = m :=
  k.2.symm.trans h.2

theorem Counts.nonneg (k : Counts P n) : 0 ≤ n := by
  have hcard := k.2
  omega

/-- One more has the property. -/
theorem Counts.join (k : Counts P n) (hp : P w = false) (hq : Q w = true)
    (hother : ∀ w', w' ≠ w → Q w' = P w') : Counts Q (n + 1) := by
  obtain ⟨hfin, hcard⟩ := k
  have heq : {w | Q w = true} = insert w {w | P w = true} := by
    ext w'
    by_cases hw : w' = w
    · simp [hw, hq]
    · simp [hw, hother w' hw]
  unfold Counts
  rw [heq, Set.ncard_insert_of_notMem (by simp [hp]) hfin]
  exact ⟨hfin.insert w, by omega⟩

/-- One less has the property. -/
theorem Counts.part (k : Counts P n) (hp : P w = true) (hq : Q w = false)
    (hother : ∀ w', w' ≠ w → Q w' = P w') : Counts Q (n - 1) := by
  obtain ⟨hfin, hcard⟩ := k
  have heq : {w | Q w = true} = {w | P w = true} \ {w} := by
    ext w'
    by_cases hw : w' = w
    · simp [hw, hq]
    · simp [hw, hother w' hw]
  have hone := Set.ncard_sdiff_singleton_add_one (show w ∈ {w | P w = true} from hp) hfin
  unfold Counts
  rw [heq]
  exact ⟨hfin.sdiff, by omega⟩

/-- One party moves. -/
theorem Counts.move (k : Counts P n) (hother : ∀ w', w' ≠ w → Q w' = P w') {m : Int}
    (hm : m + (P w).toNat = n + (Q w).toNat) : Counts Q m := by
  have hsame : Q w = P w → Counts Q n := fun heq => k.congr fun w' => by
    by_cases hw : w' = w
    · rw [hw, heq]
    · exact hother w' hw
  cases hp : P w <;> cases hq : Q w <;> rw [hp, hq] at hm
  · rw [show m = n by simpa using hm]
    exact hsame (hq.trans hp.symm)
  · rw [show m = n + 1 by simpa using hm]
    exact k.join hp hq hother
  · rw [show m = n - 1 by simp at hm; omega]
    exact k.part hp hq hother
  · rw [show m = n by simpa using hm]
    exact hsame (hq.trans hp.symm)

end ShioSylar.Lib
