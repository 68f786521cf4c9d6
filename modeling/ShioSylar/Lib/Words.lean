import Mathlib.Data.List.TakeWhile

/-! Words.

A word is cut at the first of its letters that is a separator, in one way only (`before_unique`).
A word that commutes with repetitions of another one is itself a repetition of it, provided that
the other one does not overlap itself (`power_of_comm`). -/
namespace ShioSylar.Lib

/-! ### Before a separator -/

section
variable {α : Type*} [BEq α] [LawfulBEq α] {a : α} {l l' m m' : List α}

theorem takeWhile_before (h : a ∉ l) (m : List α) : (l ++ a :: m).takeWhile (· != a) = l := by
  have hbefore : ∀ b ∈ l, (b != a) = true := by
    intro b hb
    simpa using ne_of_mem_of_not_mem hb h
  rw [List.takeWhile_append_of_pos hbefore, List.takeWhile_cons_of_neg (by simp), List.append_nil]

theorem before_unique (hl : a ∉ l) (hl' : a ∉ l') (h : l ++ a :: m = l' ++ a :: m') : l = l' := by
  rw [← takeWhile_before hl m, h, takeWhile_before hl' m']

end

/-! ### Repetitions -/

variable {α : Type*}

/-- `u`, `n` times. -/
def power (u : List α) (n : Nat) : List α := (List.replicate n u).flatten

@[simp] theorem power_zero (u : List α) : power u 0 = [] := rfl

theorem power_succ (u : List α) (n : Nat) : power u (n + 1) = u ++ power u n := rfl

theorem power_comm (u : List α) (n : Nat) : power u n ++ u = u ++ power u n := by
  induction n with
  | zero => simp
  | succ n ih => rw [power_succ, List.append_assoc, ih]

theorem power_power (u : List α) (n m : Nat) : power u n ++ power u m = power u m ++ power u n := by
  induction n with
  | zero => simp
  | succ n ih => rw [power_succ, List.append_assoc, ih, ← List.append_assoc, ← List.append_assoc, power_comm]

theorem mem_power {u : List α} {n : Nat} {a : α} (h : a ∈ power u n) : a ∈ u := by
  obtain ⟨l, hl, ha⟩ := List.mem_flatten.mp h
  rwa [(List.mem_replicate.mp hl).2] at ha

theorem length_power (u : List α) (n : Nat) : (power u n).length = n * u.length := by
  induction n with
  | zero => simp
  | succ n ih => rw [power_succ, List.length_append, ih, Nat.succ_mul, Nat.add_comm]

/-- No end of `u` is a beginning of it. -/
def Unbordered (u : List α) : Prop :=
  ∀ n < u.length, 0 < n → u.drop n ≠ u.take (u.length - n)

instance [DecidableEq α] (u : List α) : Decidable (Unbordered u) :=
  inferInstanceAs (Decidable (∀ n < u.length, 0 < n → u.drop n ≠ u.take (u.length - n)))

theorem power_of_comm {u s : List α} (hu : u ≠ []) (hborder : Unbordered u) {k : Nat}
    (h : power u (k + 1) ++ s = s ++ power u (k + 1)) : ∃ n, s = power u n := by
  induction hn : s.length using Nat.strongRecOn generalizing s with
  | _ n ih =>
    have hlen := List.length_pos_iff.mpr hu
    by_cases hshort : s.length < u.length
    · by_cases hs : s = []
      · exact ⟨0, hs⟩
      · -- `u` would overlap itself
        have hdrop := congrArg (List.drop s.length) h
        rw [List.drop_left, power_succ, List.append_assoc, List.drop_append_of_le_length (Nat.le_of_lt hshort)]
          at hdrop
        have htake := congrArg (List.take (u.length - s.length)) hdrop
        rw [List.take_append_of_le_length (by simp), List.take_append_of_le_length (by omega),
          List.take_of_length_le (by simp)] at htake
        exact absurd htake (hborder s.length hshort (List.length_pos_iff.mpr hs))
    · have hfirst := congrArg (List.take u.length) h
      rw [power_succ, List.append_assoc, List.take_left, List.take_append_of_le_length (by omega)] at hfirst
      obtain ⟨s', rfl⟩ := List.prefix_iff_eq_take.mpr hfirst
      rw [← List.append_assoc, power_comm, List.append_assoc, List.append_assoc, List.append_cancel_left_eq] at h
      rw [List.length_append] at hn
      obtain ⟨m, rfl⟩ := ih s'.length (by omega) h rfl
      exact ⟨m + 1, (power_succ u m).symm⟩

end ShioSylar.Lib
