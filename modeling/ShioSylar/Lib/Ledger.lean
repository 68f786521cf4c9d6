import Mathlib.Data.List.Basic
import Mathlib.Data.List.Nodup
import Mathlib.Data.List.Range
import Mathlib.Logic.Function.Basic

/-! An account of the items that go through a queue.

Every item put into the queue gets the next number. A party takes the earliest waiting
item it may take, holds it in its hand and then uses it or drops it; who did so is
entered under the number. `Kept` says that each number has one fate: it waits with
nothing entered, it is in the hand of the one who took it, or it was used or dropped
once by the one who took it. -/
namespace ShioSylar.Lib

/-- What has been entered under a number. -/
structure Entry (ω : Type*) where
  taken : List ω := []
  used : List ω := []
  dropped : List ω := []

structure Ledger (ω α : Type*) where
  items : List α := []
  /-- The items in the queue, with their numbers. -/
  waiting : List (α × Nat) := []
  hand : ω → Option (α × Nat) := fun _ => none
  entry : Nat → Entry ω := fun _ => {}

namespace Ledger
variable {ω α : Type*}

/-- The queue. -/
def contents (l : Ledger ω α) : List α := l.waiting.map (·.1)

def put (l : Ledger ω α) (xs : List α) : Ledger ω α :=
  { l with items := l.items ++ xs, waiting := l.waiting ++ xs.zipIdx l.items.length }

/-- Where each number is. -/
structure Kept (l : Ledger ω α) : Prop where
  waits : ∀ p ∈ l.waiting, l.items[p.2]? = some p.1 ∧ l.entry p.2 = {}
  sorted : (l.waiting.map (·.2)).Pairwise (· < ·)
  hands : ∀ w p, l.hand w = some p → l.items[p.2]? = some p.1 ∧ l.entry p.2 = { taken := [w] }
  fate : ∀ n x, l.items[n]? = some x → (x, n) ∈ l.waiting ∨ (∃ w, l.hand w = some (x, n)) ∨
    ∃ w, l.entry n = { taken := [w], used := [w] } ∨ l.entry n = { taken := [w], dropped := [w] }
  fresh : ∀ n, l.items[n]? = none → l.entry n = {}

theorem kept_empty : Kept ({} : Ledger ω α) :=
  ⟨fun _ hp => (nomatch hp), .nil, fun _ _ h => (nomatch h), fun _ _ h => (nomatch h), fun _ _ => rfl⟩

@[simp] theorem put_contents (l : Ledger ω α) (xs : List α) : (l.put xs).contents = l.contents ++ xs := by
  simp [contents, put]

section
variable {l : Ledger ω α} {w : ω} {p : α × Nat}

theorem lt_length {n : Nat} {x : α} (h : l.items[n]? = some x) : n < l.items.length := by
  obtain ⟨hn, -⟩ := List.getElem?_eq_some_iff.mp h
  exact hn

theorem Kept.put (k : Kept l) (xs : List α) : Kept (l.put xs) := by
  have hold : ∀ {n : Nat} {x}, l.items[n]? = some x → (l.items ++ xs)[n]? = some x := by
    intro n x h
    rw [List.getElem?_append_left (lt_length h), h]
  have hnone : ∀ {n : Nat}, (l.items ++ xs)[n]? = none → l.items[n]? = none := by
    intro n h
    have hlen := List.getElem?_eq_none_iff.mp h
    rw [List.length_append] at hlen
    exact List.getElem?_eq_none_iff.mpr (by omega)
  refine ⟨fun p hp => ?_, ?_, fun w p hw => ?_, fun n x hn => ?_, fun n hn => k.fresh n (hnone hn)⟩
  · rcases List.mem_append.mp hp with hp | hp
    · exact (k.waits p hp).imp_left hold
    · obtain ⟨hle, -, hx⟩ := List.mem_zipIdx hp
      have hat : (l.items ++ xs)[p.2]? = some p.1 := by
        rw [List.getElem?_append_right hle, hx]
        simp
      exact ⟨hat, k.fresh p.2 (List.getElem?_eq_none_iff.mpr hle)⟩
  · show ((l.waiting ++ xs.zipIdx l.items.length).map (·.2)).Pairwise (· < ·)
    rw [List.map_append, List.zipIdx_map_snd, List.pairwise_append]
    refine ⟨k.sorted, List.pairwise_lt_range', fun a ha b hb => ?_⟩
    obtain ⟨p, hp, rfl⟩ := List.mem_map.mp ha
    have hlt := lt_length (k.waits p hp).1
    have hle := (List.mem_range'_1.mp hb).1
    omega
  · exact (k.hands w p hw).imp_left hold
  · by_cases hlt : n < l.items.length
    · have hn' : l.items[n]? = some x := by
        rwa [show (l.put xs).items = l.items ++ xs from rfl, List.getElem?_append_left hlt] at hn
      exact (k.fate n x hn').imp_left (List.mem_append_left _)
    · left
      refine List.mem_append_right _ ?_
      rw [show (l.put xs).items = l.items ++ xs from rfl, List.getElem?_append_right (by omega)] at hn
      exact List.mem_zipIdx_iff_le_and_getElem?_sub.mpr ⟨by omega, hn⟩

/-- Only one has the number in its hand, and it does not wait. -/
theorem Kept.alone (k : Kept l) (hw : l.hand w = some p) :
    (∀ w' q, l.hand w' = some q → q.2 = p.2 → w' = w) ∧ ∀ q ∈ l.waiting, q.2 ≠ p.2 := by
  have hp := (k.hands w p hw).2
  refine ⟨fun w' q hq heq => ?_, fun q hq heq => ?_⟩
  · have hq := (k.hands w' q hq).2
    rw [heq, hp] at hq
    cases hq
    rfl
  · have hq := (k.waits q hq).2
    rw [heq, hp] at hq
    cases hq

variable [DecidableEq ω]

/-- A party with an empty hand takes the earliest item it may take. -/
def take (l : Ledger ω α) (w : ω) (may : α → Bool) : Ledger ω α :=
  match l.waiting.find? (may ·.1) with
  | none => l
  | some p => { l with
      waiting := l.waiting.eraseP (may ·.1)
      hand := Function.update l.hand w (some p)
      entry := Function.update l.entry p.2 { l.entry p.2 with taken := w :: (l.entry p.2).taken } }

/-- The item in the hand is used. -/
def use (l : Ledger ω α) (w : ω) : Ledger ω α :=
  match l.hand w with
  | none => l
  | some p => { l with
      hand := Function.update l.hand w none
      entry := Function.update l.entry p.2 { l.entry p.2 with used := w :: (l.entry p.2).used } }

/-- The item in the hand is dropped. -/
def drop (l : Ledger ω α) (w : ω) : Ledger ω α :=
  match l.hand w with
  | none => l
  | some p => { l with
      hand := Function.update l.hand w none
      entry := Function.update l.entry p.2 { l.entry p.2 with dropped := w :: (l.entry p.2).dropped } }

theorem take_spec {may : α → Bool} (h : l.waiting.find? (may ·.1) = some p) :
    may p.1 = true ∧ ∃ before after, l.waiting = before ++ p :: after ∧
      (l.take w may).waiting = before ++ after ∧ ∀ q ∈ before, may q.1 = false := by
  obtain ⟨hp, before, after, heq, hall⟩ := List.find?_eq_some_iff_append.mp h
  have hall : ∀ q ∈ before, may q.1 = false := fun q hq => by simpa using hall q hq
  refine ⟨hp, before, after, heq, ?_, hall⟩
  have hw : (l.take w may).waiting = l.waiting.eraseP (may ·.1) := by
    unfold take
    rw [h]
  rw [hw, heq, List.eraseP_append_right _ fun q hq => by simp [hall q hq], List.eraseP_cons, hp]
  rfl

theorem take_hand {may : α → Bool} (h : l.waiting.find? (may ·.1) = some p) :
    (l.take w may).hand = Function.update l.hand w (some p) := by
  unfold take
  rw [h]

theorem take_contents {may : α → Bool} : (l.take w may).contents = l.contents.eraseP may := by
  unfold contents
  rw [List.eraseP_map]
  cases h : l.waiting.find? (may ·.1) with
  | none =>
    have hnone := List.find?_eq_none.mp h
    rw [take, h]
    exact congrArg _ (List.eraseP_of_forall_not hnone).symm
  | some p =>
    rw [take, h]
    rfl

/-- The item taken is the first that may be taken. -/
theorem take_hand_self {may : α → Bool} (hw : l.hand w = none) :
    ((l.take w may).hand w).map (·.1) = l.contents.find? may := by
  unfold contents
  rw [List.find?_map]
  cases h : l.waiting.find? (may ·.1) with
  | none =>
    rw [take, h]
    show (l.hand w).map _ = Option.map _ (l.waiting.find? (may ·.1))
    rw [hw, h]
  | some p =>
    rw [take_hand h, Function.update_self]
    exact congrArg _ h.symm

theorem take_hand_of_ne {may : α → Bool} {w' : ω} (hw : w' ≠ w) : (l.take w may).hand w' = l.hand w' := by
  unfold take
  split
  · rfl
  · exact Function.update_of_ne hw ..

theorem use_hand_of_ne {w' : ω} (hw : w' ≠ w) : (l.use w).hand w' = l.hand w' := by
  unfold use
  split
  · rfl
  · exact Function.update_of_ne hw ..

theorem drop_hand_of_ne {w' : ω} (hw : w' ≠ w) : (l.drop w).hand w' = l.hand w' := by
  unfold drop
  split
  · rfl
  · exact Function.update_of_ne hw ..

theorem use_hand_self : (l.use w).hand w = none := by
  unfold use
  split
  · assumption
  · exact Function.update_self ..

theorem drop_hand_self : (l.drop w).hand w = none := by
  unfold drop
  split
  · assumption
  · exact Function.update_self ..

@[simp] theorem take_items {may : α → Bool} : (l.take w may).items = l.items := by
  unfold take
  split <;> rfl

@[simp] theorem use_items : (l.use w).items = l.items := by
  unfold use
  split <;> rfl

@[simp] theorem drop_items : (l.drop w).items = l.items := by
  unfold drop
  split <;> rfl

@[simp] theorem use_contents : (l.use w).contents = l.contents := by
  unfold use
  split <;> rfl

@[simp] theorem drop_contents : (l.drop w).contents = l.contents := by
  unfold drop
  split <;> rfl

theorem Kept.take (k : Kept l) {may : α → Bool} (hw : l.hand w = none) : Kept (l.take w may) := by
  cases h : l.waiting.find? (may ·.1) with
  | none =>
    rw [Ledger.take, h]
    exact k
  | some p =>
    obtain ⟨-, before, after, heq, hrest, -⟩ := take_spec (w := w) h
    have hmem : p ∈ l.waiting := heq ▸ List.mem_append_right _ (List.mem_cons_self ..)
    have hsub : ∀ q ∈ (l.take w may).waiting, q ∈ l.waiting ∧ q.2 ≠ p.2 := by
      intro q hq
      have hs := k.sorted
      rw [heq, List.map_append, List.map_cons, List.pairwise_append] at hs
      obtain ⟨-, hcons, hcross⟩ := hs
      rw [hrest] at hq
      rcases List.mem_append.mp hq with hq | hq
      · have hlt := hcross q.2 (List.mem_map_of_mem hq) p.2 (List.mem_cons_self ..)
        exact ⟨heq ▸ List.mem_append_left _ hq, by omega⟩
      · have hlt := List.rel_of_pairwise_cons hcons (List.mem_map_of_mem hq)
        exact ⟨heq ▸ List.mem_append_right _ (List.mem_cons_of_mem _ hq), by omega⟩
    have hentry : (l.take w may).entry = Function.update l.entry p.2 { taken := [w] } := by
      unfold Ledger.take
      rw [h]
      show Function.update _ _ _ = _
      rw [(k.waits p hmem).2]
    have hitems : (l.take w may).items = l.items := take_items
    have hother : ∀ {n}, n ≠ p.2 → (l.take w may).entry n = l.entry n := by
      intro n hn
      rw [hentry, Function.update_of_ne hn]
    refine ⟨fun q hq => ?_, ?_, fun w' q hq => ?_, fun n x hn => ?_, fun n hn => ?_⟩
    · obtain ⟨hq, hne⟩ := hsub q hq
      rw [hitems, hother hne]
      exact k.waits q hq
    · rw [hrest]
      have hs := k.sorted
      rw [heq, List.map_append, List.map_cons] at hs
      rw [List.map_append]
      exact hs.sublist ((List.Sublist.refl _).append (List.sublist_cons_self ..))
    · rw [take_hand h] at hq
      rw [hitems]
      by_cases hww : w' = w
      · subst hww
        rw [Function.update_self] at hq
        cases hq
        rw [hentry, Function.update_self]
        exact ⟨(k.waits p hmem).1, rfl⟩
      · rw [Function.update_of_ne hww] at hq
        rw [hother fun heq => (k.alone hq).2 p hmem heq.symm]
        exact k.hands w' q hq
    · rw [hitems] at hn
      by_cases hnp : n = p.2
      · subst hnp
        have hx := (k.waits p hmem).1
        rw [hn] at hx
        cases hx
        refine .inr (.inl ⟨w, ?_⟩)
        rw [take_hand h, Function.update_self]
      · rw [hother hnp]
        rcases k.fate n x hn with hwait | ⟨w', hw'⟩ | hdone
        · left
          rw [hrest]
          rw [heq] at hwait
          rcases List.mem_append.mp hwait with hq | hq
          · exact List.mem_append_left _ hq
          · rcases List.mem_cons.mp hq with rfl | hq
            · exact absurd rfl hnp
            · exact List.mem_append_right _ hq
        · refine .inr (.inl ⟨w', ?_⟩)
          rw [take_hand h, Function.update_of_ne, hw']
          rintro rfl
          cases hw.symm.trans hw'
        · exact .inr (.inr hdone)
    · rw [hitems] at hn
      have hne : n ≠ p.2 := by
        rintro rfl
        cases hn.symm.trans (k.waits p hmem).1
      rw [hother hne]
      exact k.fresh n hn

/-- The hand is emptied, and a use or a drop is entered. -/
theorem Kept.empty (k : Kept l) (hw : l.hand w = some p) {e : Entry ω} {l' : Ledger ω α}
    (he : e = { taken := [w], used := [w] } ∨ e = { taken := [w], dropped := [w] })
    (hl : l' = { l with hand := Function.update l.hand w none, entry := Function.update l.entry p.2 e }) :
    Kept l' := by
  subst hl
  obtain ⟨honly, hout⟩ := k.alone hw
  refine ⟨fun q hq => ?_, k.sorted, fun w' q hq => ?_, fun n x hn => ?_, fun n hn => ?_⟩
  · show _ ∧ Function.update l.entry p.2 e q.2 = _
    rw [Function.update_of_ne (hout q hq)]
    exact k.waits q hq
  · have hq : Function.update l.hand w none w' = some q := hq
    by_cases hww : w' = w
    · subst hww
      rw [Function.update_self] at hq
      cases hq
    · rw [Function.update_of_ne hww] at hq
      show _ ∧ Function.update l.entry p.2 e q.2 = _
      rw [Function.update_of_ne fun heq => hww (honly w' q hq heq)]
      exact k.hands w' q hq
  · show _ ∨ (∃ w', Function.update l.hand w none w' = _) ∨ ∃ w',
      Function.update l.entry p.2 e n = _ ∨ Function.update l.entry p.2 e n = _
    by_cases hnp : n = p.2
    · subst hnp
      refine .inr (.inr ⟨w, ?_⟩)
      rw [Function.update_self]
      exact he
    · rw [Function.update_of_ne hnp]
      rcases k.fate n x hn with hwait | ⟨w', hw'⟩ | hdone
      · exact .inl hwait
      · refine .inr (.inl ⟨w', ?_⟩)
        rw [Function.update_of_ne, hw']
        rintro rfl
        cases hw.symm.trans hw'
        exact hnp rfl
      · exact .inr (.inr hdone)
  · show Function.update l.entry p.2 e n = _
    rw [Function.update_of_ne]
    · exact k.fresh n hn
    · rintro rfl
      cases hn.symm.trans (k.hands w p hw).1

theorem use_eq (k : Kept l) (hw : l.hand w = some p) :
    l.use w = { l with
      hand := Function.update l.hand w none
      entry := Function.update l.entry p.2 { taken := [w], used := [w] } } := by
  rw [use, hw]
  simp only [(k.hands w p hw).2]

theorem drop_eq (k : Kept l) (hw : l.hand w = some p) :
    l.drop w = { l with
      hand := Function.update l.hand w none
      entry := Function.update l.entry p.2 { taken := [w], dropped := [w] } } := by
  rw [drop, hw]
  simp only [(k.hands w p hw).2]

theorem Kept.use (k : Kept l) (hw : l.hand w = some p) : Kept (l.use w) :=
  k.empty hw (.inl rfl) (use_eq k hw)

theorem Kept.drop (k : Kept l) (hw : l.hand w = some p) : Kept (l.drop w) :=
  k.empty hw (.inr rfl) (drop_eq k hw)

end

end Ledger

end ShioSylar.Lib
