import Mathlib.Logic.Function.Basic
import Mathlib.Data.Nat.Init

/-! Names that are used anew.

One memory uses a name for one thing after another and clears it in between. In another each
use has a name of its own, the old name and how often it had been used before. `Follows` says
that the second reads under the latest names what the first reads, and nothing under those to
come: it is kept where both write, and where the first clears a name. -/
namespace ShioSylar.Lib

variable {φ α : Type*} {gen : φ → Nat} {a : φ → α} {b : φ × Nat → α} {d : α}

def latest (gen : φ → Nat) (f : φ) : φ × Nat := (f, gen f)

theorem latest_injective (gen : φ → Nat) : Function.Injective (latest gen) :=
  fun _ _ h => congrArg Prod.fst h

def Follows (gen : φ → Nat) (a : φ → α) (b : φ × Nat → α) (d : α) : Prop :=
  (∀ f, b (latest gen f) = a f) ∧ ∀ f m, gen f < m → b (f, m) = d

theorem follows_const (gen : φ → Nat) (d : α) : Follows gen (fun _ => d) (fun _ => d) d :=
  ⟨fun _ => rfl, fun _ _ _ => rfl⟩

variable [DecidableEq φ]

theorem Follows.update (k : Follows gen a b d) (f : φ) (x : α) :
    Follows gen (Function.update a f x) (Function.update b (latest gen f) x) d := by
  refine ⟨fun g => ?_, fun g m hm => ?_⟩
  · by_cases hg : g = f
    · subst hg
      rw [Function.update_self, Function.update_self]
    · rw [Function.update_of_ne hg, Function.update_of_ne fun h => hg (latest_injective gen h), k.1]
  · rw [Function.update_of_ne, k.2 g m hm]
    intro h
    obtain ⟨rfl, rfl⟩ := Prod.mk.inj h
    exact Nat.lt_irrefl _ hm

/-- The name is cleared, and has a new use. -/
def renew (gen : φ → Nat) (f : φ) : φ → Nat := Function.update gen f (gen f + 1)

theorem Follows.renew (k : Follows gen a b d) (f : φ) :
    Follows (renew gen f) (Function.update a f d) b d := by
  refine ⟨fun g => ?_, fun g m hm => ?_⟩
  · by_cases hg : g = f
    · subst hg
      rw [latest, Lib.renew, Function.update_self, Function.update_self]
      exact k.2 g _ (Nat.lt_succ_self _)
    · rw [latest, Lib.renew, Function.update_of_ne hg, Function.update_of_ne hg]
      exact k.1 g
  · refine k.2 g m ?_
    by_cases hg : g = f
    · subst hg
      rw [Lib.renew, Function.update_self] at hm
      exact Nat.lt_of_succ_lt hm
    · rwa [Lib.renew, Function.update_of_ne hg] at hm

theorem latest_renew {f g : φ} (hg : g ≠ f) : latest (renew gen f) g = latest gen g := by
  rw [latest, latest, Lib.renew, Function.update_of_ne hg]

end ShioSylar.Lib
