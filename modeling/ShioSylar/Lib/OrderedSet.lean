import Mathlib.Data.List.Basic
import Mathlib.Data.List.TakeWhile

/-! A set ordered by a comparison, as the list of its elements in iteration order.

An iterator is a position, and `length` is the end. Lookups go by the comparison
alone, so they find an element that is there only as long as the list is sorted
under the comparison as it evaluates *now* (`Sorted`): a key that is changed while
its element is inside breaks them. `find_mem` and `insert_sorted` say that on a sorted
list the operations are those of a set. -/
namespace ShioSylar.Lib.OrderedSet

variable {α : Type*}

/-- The first position whose element is not before the key. -/
def lowerBound (before : α → Bool) (l : List α) : Nat := (l.takeWhile before).length

/-- The position of the element equivalent to `x`, or the end. -/
def find (less : α → α → Bool) (x : α) (l : List α) : Nat :=
  match l.dropWhile (less · x) with
  | y :: _ => if less x y then l.length else lowerBound (less · x) l
  | [] => l.length

/-- The list with `x` in its place, unless an equivalent element is there, and the
position of `x` or of that element. -/
def insert (less : α → α → Bool) (x : α) (l : List α) : List α × Nat :=
  match l.dropWhile (less · x) with
  | y :: rest =>
    if less x y then (l.takeWhile (less · x) ++ x :: y :: rest, lowerBound (less · x) l)
    else (l, lowerBound (less · x) l)
  | [] => (l ++ [x], l.length)

/-- A strict total order. -/
structure StrictOrder (less : α → α → Bool) : Prop where
  irrefl : ∀ a, less a a = false
  trans : ∀ a b c, less a b = true → less b c = true → less a c = true
  total : ∀ a b, less a b = false → less b a = false → a = b

/-- Strictly increasing. -/
def Sorted (less : α → α → Bool) (l : List α) : Prop := l.Pairwise fun a b => less a b = true

section
variable {less : α → α → Bool} (ho : StrictOrder less)
include ho

theorem Sorted.nodup {l : List α} (hs : Sorted less l) : l.Nodup := by
  refine List.Pairwise.imp ?_ hs
  intro a b hab heq
  rw [heq, ho.irrefl b] at hab
  cases hab

/-- A set has one list. -/
theorem Sorted.unique {l l' : List α} (hs : Sorted less l) (hs' : Sorted less l')
    (hmem : ∀ x, x ∈ l ↔ x ∈ l') : l = l' := by
  have hperm := (List.perm_ext_iff_of_nodup (hs.nodup ho) (hs'.nodup ho)).mpr hmem
  refine hperm.eq_of_pairwise (fun a b _ _ hab hba => ?_) hs hs'
  have haa := ho.trans a b a hab hba
  rw [ho.irrefl a] at haa
  cases haa

/-- On a sorted list everything from the lower bound on is not before the key. -/
theorem Sorted.not_before {l : List α} (hs : Sorted less l) (x : α) :
    ∀ b ∈ l.dropWhile (less · x), less b x = false := by
  induction l with
  | nil => intro b hb; cases hb
  | cons a rest ih =>
    intro b hb
    rw [Sorted, List.pairwise_cons] at hs
    cases ha : less a x
    · rw [List.dropWhile_cons_of_neg (by simp [ha])] at hb
      rcases List.mem_cons.mp hb with rfl | hrest
      · exact ha
      · cases hbx : less b x
        · rfl
        · have := ho.trans a b x (hs.1 b hrest) hbx
          rw [ha] at this
          cases this
    · rw [List.dropWhile_cons_of_pos (by simpa using ha)] at hb
      exact ih hs.2 b hb

/-- An element of a sorted list stands at its own lower bound. -/
theorem Sorted.dropWhile_of_mem {l : List α} (hs : Sorted less l) {x : α} (hx : x ∈ l) :
    ∃ rest, l.dropWhile (less · x) = x :: rest := by
  have hx' : x ∈ l.dropWhile (less · x) := by
    rw [← List.takeWhile_append_dropWhile (p := (less · x)) (l := l), List.mem_append] at hx
    rcases hx with hx | hx
    · have := List.mem_takeWhile_imp hx
      rw [ho.irrefl x] at this
      cases this
    · exact hx
  have hdrop : Sorted less (l.dropWhile (less · x)) :=
    List.Pairwise.sublist (List.dropWhile_sublist _) hs
  have hnot := hs.not_before ho x
  cases hl : l.dropWhile (less · x) with
  | nil => rw [hl] at hx'; cases hx'
  | cons y rest =>
    rw [hl] at hx' hdrop hnot
    rw [Sorted, List.pairwise_cons] at hdrop
    rcases List.mem_cons.mp hx' with rfl | hrest
    · exact ⟨rest, rfl⟩
    · have hyx := hdrop.1 x hrest
      rw [hnot y (List.mem_cons_self ..)] at hyx
      cases hyx

/-- An element that is in a sorted list is found, at the split around it. -/
theorem find_split {l : List α} (hs : Sorted less l) {x : α} (hx : x ∈ l) :
    ∃ p q, l = p ++ x :: q ∧ find less x l = p.length := by
  obtain ⟨q, hq⟩ := hs.dropWhile_of_mem ho hx
  refine ⟨l.takeWhile (less · x), q, ?_, ?_⟩
  · rw [← hq, List.takeWhile_append_dropWhile]
  · simp [find, hq, ho.irrefl x, lowerBound]

theorem find_mem {l : List α} (hs : Sorted less l) {x : α} (hx : x ∈ l) :
    l[find less x l]? = some x := by
  obtain ⟨p, q, hl, hf⟩ := find_split ho hs hx
  rw [hf, hl]
  simp

/-- Erasing what was found takes that element out and nothing else. -/
theorem eraseIdx_find {l : List α} (hs : Sorted less l) {x : α} (hx : x ∈ l) :
    ∃ p q, l = p ++ x :: q ∧ l.eraseIdx (find less x l) = p ++ q := by
  obtain ⟨p, q, hl, hf⟩ := find_split ho hs hx
  refine ⟨p, q, hl, ?_⟩
  rw [hf, hl, List.eraseIdx_append_of_length_le (Nat.le_refl _)]
  simp

/-- A new element is put between those before it and those after it. -/
theorem insert_split {l : List α} (hs : Sorted less l) {x : α} (hx : x ∉ l) :
    insert less x l =
      (l.takeWhile (less · x) ++ x :: l.dropWhile (less · x), lowerBound (less · x) l) := by
  have hnot := hs.not_before ho x
  cases hl : l.dropWhile (less · x) with
  | nil =>
    have htake : l.takeWhile (less · x) = l := by
      have := List.takeWhile_append_dropWhile (p := (less · x)) (l := l)
      rwa [hl, List.append_nil] at this
    simp [insert, hl, lowerBound, htake]
  | cons y rest =>
    have hy : y ∈ l := (List.dropWhile_sublist _).subset (hl ▸ List.mem_cons_self ..)
    cases hxy : less x y
    · rw [hl] at hnot
      exact absurd (ho.total x y hxy (hnot y (List.mem_cons_self ..)) ▸ hy) hx
    · simp [insert, hl, hxy]

/-- A new element that is not put at the beginning stands after an old one. -/
theorem insert_pos {l : List α} (hs : Sorted less l) {x : α} (hx : x ∉ l)
    (hpos : (insert less x l).2 ≠ 0) : ∃ y ∈ l, less y x = true := by
  rw [insert_split ho hs hx] at hpos
  obtain ⟨y, hy⟩ := List.exists_mem_of_length_pos (Nat.pos_of_ne_zero hpos)
  exact ⟨y, (List.takeWhile_sublist _).subset hy, List.mem_takeWhile_imp (p := (less · x)) hy⟩

theorem mem_insert {l : List α} (hs : Sorted less l) {x : α} (hx : x ∉ l) (y : α) :
    y ∈ (insert less x l).1 ↔ y = x ∨ y ∈ l := by
  rw [insert_split ho hs hx]
  conv_rhs => rw [← List.takeWhile_append_dropWhile (p := (less · x)) (l := l)]
  simp only [List.mem_append, List.mem_cons]
  tauto

/-- An element that is there already is left where it is. -/
theorem insert_of_mem {l : List α} (hs : Sorted less l) {x : α} (hx : x ∈ l) : (insert less x l).1 = l := by
  obtain ⟨rest, hrest⟩ := hs.dropWhile_of_mem ho hx
  simp [insert, hrest, ho.irrefl x]

theorem mem_insert_iff {l : List α} (hs : Sorted less l) {x : α} (y : α) :
    y ∈ (insert less x l).1 ↔ y = x ∨ y ∈ l := by
  by_cases hx : x ∈ l
  · rw [insert_of_mem ho hs hx]
    exact ⟨.inr, fun h => h.elim (fun heq => heq ▸ hx) id⟩
  · exact mem_insert ho hs hx y

theorem insert_sorted {l : List α} (hs : Sorted less l) {x : α} (hx : x ∉ l) :
    Sorted less (insert less x l).1 := by
  have hnot := hs.not_before ho x
  have hafter : ∀ b ∈ l.dropWhile (less · x), less x b = true := by
    intro b hb
    cases hxb : less x b
    · exact absurd (ho.total x b hxb (hnot b hb) ▸ (List.dropWhile_sublist _).subset hb) hx
    · rfl
  have hsplit := hs
  rw [Sorted, ← List.takeWhile_append_dropWhile (p := (less · x)) (l := l),
    List.pairwise_append] at hsplit
  rw [insert_split ho hs hx]
  refine List.pairwise_append.mpr ⟨hsplit.1, List.pairwise_cons.mpr ⟨hafter, hsplit.2.1⟩, ?_⟩
  intro a ha b hb
  rcases List.mem_cons.mp hb with rfl | hb
  · exact List.mem_takeWhile_imp (p := (less · b)) ha
  · exact hsplit.2.2 a ha b hb

end

/-- What is put in is not seen by who does not look at it. -/
theorem filter_insert (less : α → α → Bool) (p : α → Bool) {x : α} (hx : p x = false) (l : List α) :
    (insert less x l).1.filter p = l.filter p := by
  have hl := List.takeWhile_append_dropWhile (p := (less · x)) (l := l)
  cases hd : l.dropWhile (less · x) with
  | nil => simp [insert, hd, hx]
  | cons y rest =>
    rw [hd] at hl
    conv_rhs => rw [← hl]
    cases hxy : less x y
    · simp [insert, hd, hxy, hl]
    · simp [insert, hd, hxy, hx]

/-- Where everything before a chosen element is chosen too, the chosen ones are a prefix. -/
theorem takeWhile_eq_filter {p : α → Bool} {l : List α}
    (hl : l.Pairwise fun a b => p b = true → p a = true) : l.takeWhile p = l.filter p := by
  induction l with
  | nil => rfl
  | cons a rest ih =>
    rw [List.pairwise_cons] at hl
    cases ha : p a
    · have hrest : rest.filter p = [] := by
        rw [List.filter_eq_nil_iff]
        intro b hb hpb
        rw [hl.1 b hb hpb] at ha
        cases ha
      rw [List.takeWhile_cons_of_neg (by simp [ha]), List.filter_cons_of_neg (by simp [ha]), hrest]
    · rw [List.takeWhile_cons_of_pos ha, List.filter_cons_of_pos ha, ih hl.2]

/-- And the others are what is left. -/
theorem dropWhile_eq_filter {p : α → Bool} {l : List α}
    (hl : l.Pairwise fun a b => p b = true → p a = true) :
    l.dropWhile p = l.filter fun a => !p a := by
  induction l with
  | nil => rfl
  | cons a rest ih =>
    rw [List.pairwise_cons] at hl
    cases ha : p a
    · have hrest : rest.filter (fun b => !p b) = rest := by
        rw [List.filter_eq_self]
        intro b hb
        cases hpb : p b
        · rfl
        · rw [hl.1 b hb hpb] at ha
          cases ha
      rw [List.dropWhile_cons_of_neg (by simp [ha]), List.filter_cons_of_pos (by simp [ha]), hrest]
    · rw [List.dropWhile_cons_of_pos ha, List.filter_cons_of_neg (by simp [ha]), ih hl.2]

theorem drop_takeWhile (p : α → Bool) (l : List α) :
    l.drop (l.takeWhile p).length = l.dropWhile p := by
  conv_lhs => rw [← List.takeWhile_append_dropWhile (p := p) (l := l)]
  exact List.drop_left' (by rw [List.takeWhile_append_dropWhile])

theorem take_takeWhile (p : α → Bool) (l : List α) :
    l.take (l.takeWhile p).length = l.takeWhile p := by
  conv_lhs => rw [← List.takeWhile_append_dropWhile (p := p) (l := l)]
  exact List.take_left' (by rw [List.takeWhile_append_dropWhile])

theorem takeWhile_congr {p q : α → Bool} {l : List α} (h : ∀ a ∈ l, p a = q a) :
    l.takeWhile p = l.takeWhile q := by
  induction l with
  | nil => rfl
  | cons a rest ih =>
    have ha := h a (List.mem_cons_self ..)
    rw [List.takeWhile_cons, List.takeWhile_cons, ha, ih fun b hb => h b (List.mem_cons_of_mem a hb)]

/-- Sortedness only reads the comparison on the elements. -/
theorem Sorted.congr {less less' : α → α → Bool} {l : List α} (hs : Sorted less l)
    (h : ∀ a ∈ l, ∀ b ∈ l, less a b = less' a b) : Sorted less' l :=
  List.Pairwise.imp_of_mem (fun ha hb hab => by rw [← h _ ha _ hb]; exact hab) hs

/-! ### Inserting one after the other -/

/-- The set that the elements of a list are put into, in the order of the list. -/
def insertAll (less : α → α → Bool) (l : List α) : List α := l.foldl (fun s x => (insert less x s).1) []

/-- Elements may be equivalent and not equal. -/
theorem sorted_insert {less : α → α → Bool}
    (htrans : ∀ a b c, less a b = true → less b c = true → less a c = true) {l : List α}
    (hs : Sorted less l) (x : α) : Sorted less (insert less x l).1 := by
  have hbefore : ∀ a ∈ l.takeWhile (less · x), less a x = true :=
    fun a ha => List.mem_takeWhile_imp (p := (less · x)) ha
  have hsplit := hs
  rw [Sorted, ← List.takeWhile_append_dropWhile (p := (less · x)) (l := l), List.pairwise_append] at hsplit
  unfold insert
  cases hd : l.dropWhile (less · x) with
  | nil =>
    have hall := List.dropWhile_eq_nil_iff.mp hd
    refine List.pairwise_append.mpr ⟨hs, List.pairwise_singleton .., ?_⟩
    intro a ha b hb
    rw [List.mem_singleton.mp hb]
    exact hall a ha
  | cons y rest =>
    rw [hd] at hsplit
    cases hxy : less x y with
    | false => simpa [hxy] using hs
    | true =>
      have hafter : ∀ b ∈ y :: rest, less x b = true := by
        intro b hb
        rcases List.mem_cons.mp hb with rfl | hb
        · exact hxy
        · exact htrans x y b hxy ((List.pairwise_cons.mp hsplit.2.1).1 b hb)
      simp only [hxy, if_true]
      refine List.pairwise_append.mpr ⟨hsplit.1, List.pairwise_cons.mpr ⟨hafter, hsplit.2.1⟩, ?_⟩
      intro a ha b hb
      rcases List.mem_cons.mp hb with rfl | hb
      · exact hbefore a ha
      · exact hsplit.2.2 a ha b hb

theorem insertAll_sorted {less : α → α → Bool}
    (htrans : ∀ a b c, less a b = true → less b c = true → less a c = true) (l : List α) :
    Sorted less (insertAll less l) := by
  have hfold : ∀ s : List α, Sorted less s → Sorted less (l.foldl (fun s x => (insert less x s).1) s) := by
    induction l with
    | nil => exact fun s hs => hs
    | cons x rest ih => exact fun s hs => ih _ (sorted_insert htrans hs x)
  exact hfold [] List.Pairwise.nil

/-- The elements of a set, in its order, are put into the same set. -/
theorem insertAll_of_sorted {less : α → α → Bool} {l : List α} (hs : Sorted less l) :
    insertAll less l = l := by
  have hlast : ∀ s x, (∀ a ∈ s, less a x = true) → (insert less x s).1 = s ++ [x] := by
    intro s x hall
    have hd : s.dropWhile (less · x) = [] := List.dropWhile_eq_nil_iff.mpr hall
    simp [insert, hd]
  have hfold : ∀ s : List α, Sorted less (s ++ l) →
      l.foldl (fun s x => (insert less x s).1) s = s ++ l := by
    clear hs
    induction l with
    | nil => exact fun s _ => (List.append_nil s).symm
    | cons x rest ih =>
      intro s hs
      have hx : ∀ a ∈ s, less a x = true := fun a ha =>
        (List.pairwise_append.mp hs).2.2 a ha x (List.mem_cons_self ..)
      rw [List.foldl_cons, hlast s x hx, ih (s ++ [x]) (by simpa using hs), List.append_assoc]
      rfl
  exact hfold [] hs

theorem mem_of_mem_insertAll {less : α → α → Bool} {l : List α} {x : α} (hx : x ∈ insertAll less l) : x ∈ l := by
  have hinsert : ∀ (s : List α) (y : α), x ∈ (insert less y s).1 → x = y ∨ x ∈ s := by
    intro s y hmem
    have hs := List.takeWhile_append_dropWhile (p := (less · y)) (l := s)
    unfold insert at hmem
    cases hd : s.dropWhile (less · y) with
    | nil =>
      rw [hd] at hmem
      rcases List.mem_append.mp hmem with hmem | hmem
      · exact .inr hmem
      · exact .inl (List.mem_singleton.mp hmem)
    | cons z rest =>
      rw [hd] at hmem hs
      have hback : x ∈ s.takeWhile (less · y) ++ z :: rest → x ∈ s := fun h => hs ▸ h
      cases hyz : less y z with
      | false =>
        simp only [hyz, Bool.false_eq_true, if_false] at hmem
        exact .inr hmem
      | true =>
        simp only [hyz, if_true, List.mem_append, List.mem_cons] at hmem hback
        tauto
  have hfold : ∀ s : List α, x ∈ l.foldl (fun s x => (insert less x s).1) s → x ∈ s ∨ x ∈ l := by
    clear hx
    induction l with
    | nil => exact fun s hmem => .inl hmem
    | cons y rest ih =>
      intro s hmem
      rcases ih _ hmem with hmem | hmem
      · rcases hinsert s y hmem with rfl | hmem
        · exact .inr (List.mem_cons_self ..)
        · exact .inl hmem
      · exact .inr (List.mem_cons_of_mem y hmem)
  exact (hfold [] hx).resolve_left List.not_mem_nil

end ShioSylar.Lib.OrderedSet
