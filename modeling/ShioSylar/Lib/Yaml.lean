import Mathlib.Logic.Equiv.List
import Mathlib.Tactic.DeriveEncodable

/-! A YAML library, as far as its users can tell.

What a text means is left to the library: `load` reads a text into a node, `emit` writes a node,
and `view` shows what kind of node it is. `Lawful` says what is relied on. Loading an emitted
node gives back the same node: one that looks the same and is written the same way (`Same`), as a
node also remembers whether it was read in block or in flow style.

A program that loads, looks and writes cannot tell `Same` nodes apart (`load_emit_bind`), so what
it makes of an emitted node is what it makes of the node. -/
namespace ShioSylar.Lib

/-- The kinds of nodes. Keys are given by the text of the key's node. -/
inductive Shape (N : Type) where
  | null
  | scalar (s : String)
  | seq (items : List N)
  | map (entries : List (String × N))

namespace Shape

variable {N M : Type}

def mapNodes (f : N → M) : Shape N → Shape M
  | null => null
  | scalar s => scalar s
  | seq items => seq (items.map f)
  | map entries => map (entries.map fun p => (p.1, f p.2))

/-- Keys are used once. -/
def Distinct : Shape N → Prop
  | map entries => (entries.map Prod.fst).Nodup
  | _ => True

/-- The text of a scalar, or the one given for null. -/
def string? (nullText : Option String) : Shape N → Option String
  | scalar s => some s
  | null => nullText
  | _ => none

/-- The value of a key, where the inner `none` is an undefined node, and a scalar throws. -/
def field (key : String) : Shape N → Option (Option N)
  | scalar _ => none
  | map entries => some (entries.lookup key)
  | _ => some none

/-- The values of a map with their keys. A sequence that is not empty throws. -/
def pairs : Shape N → Option (List (String × N))
  | map entries => some entries
  | seq (_ :: _) => none
  | _ => some []

theorem string?_mapNodes (f : N → M) (nullText : Option String) (sh : Shape N) :
    (sh.mapNodes f).string? nullText = sh.string? nullText := by
  cases sh <;> rfl

theorem lookup_map (f : N → M) (key : String) (entries : List (String × N)) :
    (entries.map fun p => (p.1, f p.2)).lookup key = (entries.lookup key).map f := by
  induction entries with
  | nil => rfl
  | cons p rest ih =>
    rw [List.map_cons, List.lookup_cons, List.lookup_cons, ih]
    cases key == p.1 <;> rfl

theorem field_mapNodes (f : N → M) (key : String) (sh : Shape N) :
    (sh.mapNodes f).field key = (sh.field key).map (Option.map f) := by
  cases sh with
  | null => rfl
  | scalar s => rfl
  | seq items => rfl
  | map entries => exact congrArg some (lookup_map f key entries)

theorem pairs_mapNodes (f : N → M) (sh : Shape N) :
    (sh.mapNodes f).pairs = sh.pairs.map (List.map fun p => (p.1, f p.2)) := by
  cases sh with
  | null => rfl
  | scalar s => rfl
  | seq items => cases items <;> rfl
  | map entries => rfl

end Shape

structure Yaml where
  Node : Type
  /-- `none` where an exception is thrown. -/
  load : String → Option Node
  emit : Node → String
  build : Shape Node → Node
  view : Node → Shape Node
  /-- A map's element at a number. -/
  index : List (String × Node) → Nat → Option Node
  /-- `as<std::string>` of a null node, which not every version gives. -/
  nullText : Option String

namespace Yaml

variable (y : Yaml)

/-- The library cannot be seen to treat the two nodes differently. -/
def Same (a b : y.Node) : Prop := y.emit a = y.emit b

/-- A text that is written back as it is read. -/
def Stable (s : String) : Prop := ∃ n, y.load s = some n ∧ y.emit n = s

structure Lawful : Prop where
  view_build : ∀ sh, sh.Distinct → y.view (y.build sh) = sh
  load_emit : ∀ n, ∃ m, y.load (y.emit n) = some m ∧ y.Same m n ∧
    (y.view m).mapNodes y.emit = (y.view n).mapNodes y.emit
  load_empty : ∃ n, y.load "" = some n ∧ y.view n = .null
  emit_null : ∀ n, y.view n = .null → y.emit n = "~"
  load_int : ∀ i : Int, y.Stable (toString i)

/-! ### Reading nodes -/

/-- `n.as<std::string>()`. -/
def asString (n : y.Node) : Option String := (y.view n).string? y.nullText

/-- `n[key]`. -/
def field (n : y.Node) (key : String) : Option (Option y.Node) := (y.view n).field key

/-- `n[key].as<std::string>()`, if the node is defined. -/
def fieldText (n : y.Node) (key : String) : Option (Option String) :=
  (y.field n key).bind fun
    | none => some none
    | some c => (y.asString c).map some

/-- `n[0]`, .., `n[n.size() - 1]`. -/
def items (n : y.Node) : List (Option y.Node) :=
  match y.view n with
  | .seq items => items.map some
  | .map entries => (List.range entries.length).map (y.index entries)
  | _ => []

/-- What writing a node that may be undefined gives. -/
def text (n : Option y.Node) : String := (n.map y.emit).getD ""

variable {y} (h : y.Lawful)
include h

/-- Nodes that are written the same way look the same. -/
theorem Lawful.view_same {a b : y.Node} (hab : y.Same a b) :
    (y.view a).mapNodes y.emit = (y.view b).mapNodes y.emit := by
  obtain ⟨m, hm, -, hma⟩ := h.load_emit a
  obtain ⟨m', hm', -, hmb⟩ := h.load_emit b
  have hmm : m = m' := by
    rw [hab, hm'] at hm
    exact (Option.some.inj hm).symm
  rw [← hma, hmm, hmb]

/-- What cannot tell a node from those that are the `Same` makes of its text what it makes of
the node. -/
theorem Lawful.load_emit_bind {β : Type} {f : y.Node → Option β} {n : y.Node}
    (hf : ∀ m, y.Same m n → f m = f n) : (y.load (y.emit n)).bind f = f n := by
  obtain ⟨m, hm, hsame, -⟩ := h.load_emit n
  rw [hm]
  exact hf m hsame

/-- A text that comes from the emitter is written back as it is. -/
theorem Lawful.stable_emit (n : y.Node) : y.Stable (y.emit n) := by
  obtain ⟨m, hm, hsame, -⟩ := h.load_emit n
  exact ⟨m, hm, hsame⟩

/-- The empty text is null, and null is not written as the empty text. -/
theorem Lawful.not_stable_empty : ¬ y.Stable "" := by
  intro hs
  obtain ⟨n, hn, hemit⟩ := hs
  obtain ⟨m, hm, hnull⟩ := h.load_empty
  cases hn.symm.trans hm
  rw [h.emit_null n hnull] at hemit
  exact absurd hemit (by decide)

/-! ### What is read of nodes that are the same -/

theorem Lawful.asString_same {a b : y.Node} (hab : y.Same a b) : y.asString a = y.asString b := by
  unfold asString
  rw [← Shape.string?_mapNodes y.emit, h.view_same hab, Shape.string?_mapNodes]

theorem Lawful.field_same {a b : y.Node} (hab : y.Same a b) (key : String) :
    (y.field a key).map (Option.map y.emit) = (y.field b key).map (Option.map y.emit) := by
  unfold field
  rw [← Shape.field_mapNodes, h.view_same hab, Shape.field_mapNodes]

theorem Lawful.fieldText_same {a b : y.Node} (hab : y.Same a b) (key : String) :
    y.fieldText a key = y.fieldText b key := by
  have hf := h.field_same hab key
  have hread : ∀ c d : Option y.Node, c.map y.emit = d.map y.emit →
      (match c with | none => some none | some c => (y.asString c).map some) =
        match d with | none => some none | some d => (y.asString d).map some := by
    intro c d hcd
    cases c with
    | none => rw [Option.map_eq_none_iff.mp hcd.symm]
    | some c =>
      obtain ⟨d, rfl, hd⟩ := Option.map_eq_some_iff.mp hcd.symm
      simp only [h.asString_same hd]
  unfold fieldText
  cases ha : y.field a key with
  | none =>
    rw [ha] at hf
    rw [Option.map_eq_none_iff.mp hf.symm]
  | some c =>
    rw [ha] at hf
    obtain ⟨d, hd, hcd⟩ := Option.map_eq_some_iff.mp hf.symm
    rw [hd]
    exact hread c d hcd.symm

/-- A node that is written as a sequence is one, with elements that are written the same way. -/
theorem Lawful.view_seq {a b : y.Node} {bs : List y.Node} (hab : y.Same a b) (hb : y.view b = .seq bs) :
    ∃ as, y.view a = .seq as ∧ as.map y.emit = bs.map y.emit := by
  have hv := h.view_same hab
  rw [hb] at hv
  cases ha : y.view a with
  | seq as =>
    rw [ha] at hv
    exact ⟨as, rfl, Shape.seq.inj hv⟩
  | _ =>
    rw [ha] at hv
    cases hv

omit h in
theorem mapM_same {β : Type} {f : y.Node → Option β} (hf : ∀ a b, y.Same a b → f a = f b)
    {as bs : List y.Node} (hab : as.map y.emit = bs.map y.emit) : as.mapM f = bs.mapM f := by
  induction as generalizing bs with
  | nil => rw [List.map_eq_nil_iff.mp hab.symm]
  | cons a rest ih =>
    cases bs with
    | nil => cases hab
    | cons b bs =>
      obtain ⟨hhead, htail⟩ := List.cons.inj hab
      rw [List.mapM_cons, List.mapM_cons, hf a b hhead, ih htail]

/-! ### What is read of nodes that were built -/

theorem Lawful.asString_scalar (s : String) : y.asString (y.build (.scalar s)) = some s := by
  rw [asString, h.view_build (.scalar s) trivial]
  rfl

end Yaml

/-! ### A library with given texts -/

instance Encodable.char : Encodable Char := Encodable.ofLeftInjection Char.toNat (fun n => some (Char.ofNat n))
  fun c => by simp

instance Encodable.string : Encodable String := Encodable.ofLeftInjection String.toList (fun l => some (String.ofList l))
  fun s => by simp

/-- Nodes as trees. -/
inductive Tree where
  | null
  | scalar (s : String)
  | nil
  | cons (head tail : Tree)
  | empty
  | entry (key : String) (value rest : Tree)
  deriving DecidableEq, Encodable

namespace Tree

def items : Tree → List Tree
  | cons head tail => head :: tail.items
  | _ => []

def pairs : Tree → List (String × Tree)
  | entry key value rest => (key, value) :: rest.pairs
  | _ => []

def view : Tree → Shape Tree
  | null => .null
  | scalar s => .scalar s
  | nil => .seq []
  | cons head tail => .seq (head :: tail.items)
  | empty => .map []
  | entry key value rest => .map ((key, value) :: rest.pairs)

def build : Shape Tree → Tree
  | .null => null
  | .scalar s => scalar s
  | .seq items => items.foldr cons nil
  | .map entries => entries.foldr (fun p rest => entry p.1 p.2 rest) empty

theorem view_build (sh : Shape Tree) : (build sh).view = sh := by
  cases sh with
  | null => rfl
  | scalar s => rfl
  | seq items =>
    have hitems : ∀ l : List Tree, (l.foldr cons nil).items = l := by
      intro l
      induction l with
      | nil => rfl
      | cons a rest ih => exact congrArg (a :: ·) ih
    cases items with
    | nil => rfl
    | cons a rest => exact congrArg (fun l => Shape.seq (a :: l)) (hitems rest)
  | map entries =>
    have hpairs : ∀ l : List (String × Tree),
        (l.foldr (fun p rest => entry p.1 p.2 rest) empty).pairs = l := by
      intro l
      induction l with
      | nil => rfl
      | cons p rest ih => exact congrArg (p :: ·) ih
    cases entries with
    | nil => rfl
    | cons p rest => exact congrArg (fun l => Shape.map (p :: l)) (hpairs rest)

/-- The text of a number. -/
def Numeric (s : String) : Prop := s ≠ "" ∧ s.toList.all (fun c => c.isDigit || c == '-') = true

instance (s : String) : Decidable (Numeric s) := inferInstanceAs (Decidable (_ ∧ _))

theorem numeric_int (i : Int) : Numeric (toString i) := by
  have hnat : ∀ n : Nat, n.repr.toList.all (fun c => c.isDigit || c == '-') = true := by
    intro n
    rw [List.all_eq_true, Nat.toList_repr]
    intro c hc
    rw [Nat.isDigit_of_mem_toDigits (b := 10) (by decide) (by decide) hc]
    rfl
  rw [Int.toString_eq_repr, Int.repr_eq_if]
  split
  · exact ⟨Nat.repr_ne_empty, hnat _⟩
  · refine ⟨?_, ?_⟩
    · simp [← String.toList_inj]
    · rw [String.toList_append, List.all_append, hnat]
      rfl

/-- The text of a node that has no other. -/
def code (n : Tree) : String := "%" ++ toString (Encodable.encode n)

/-- Null and numbers as they are, other nodes by a table or by their code. -/
def emit (texts : List (Tree × String)) : Tree → String
  | null => "~"
  | scalar s => if Numeric s then s else (texts.lookup (scalar s)).getD (code (scalar s))
  | n => (texts.lookup n).getD (code n)

/-- The texts are told apart from each other and from all that are not in the table. -/
def Clean (texts : List (Tree × String)) : Prop :=
  (texts.map Prod.snd).Nodup ∧
    ∀ t ∈ texts.map Prod.snd, ¬ Numeric t ∧ t ≠ "" ∧ t ≠ "~" ∧ t.toList.head? ≠ some '%'

instance (texts : List (Tree × String)) : Decidable (Clean texts) := inferInstanceAs (Decidable (_ ∧ _))

variable {texts : List (Tree × String)}

/-- Which of the four kinds of texts. -/
def form (t : String) : Nat :=
  if t = "~" then 0 else if Numeric t then 1 else if t.toList.head? = some '%' then 3 else 2

theorem form_code (n : Tree) : form (code n) = 3 := by
  have hhead : (code n).toList.head? = some '%' := by
    rw [code, String.toList_append]
    rfl
  have hnot : ¬ Numeric (code n) := by
    intro hs
    have hall := hs.2
    obtain ⟨rest, hrest⟩ := List.head?_eq_some_iff.mp hhead
    rw [hrest, List.all_cons] at hall
    exact absurd (Bool.and_eq_true_iff.mp hall).1 (by decide)
  have hnull : code n ≠ "~" := by
    intro heq
    rw [heq] at hhead
    exact absurd hhead (by decide)
  rw [form, if_neg hnull, if_neg hnot, if_pos hhead]

theorem code_injective {n m : Tree} (h : code n = code m) : n = m := by
  have hdigits : Nat.toDigits 10 (Encodable.encode n) = Nat.toDigits 10 (Encodable.encode m) := by
    simpa [code, ← String.toList_inj] using h
  have hnat := congrArg (Nat.ofDigitChars 10 · 0) hdigits
  simp only [Nat.ofDigitChars_ten_toDigits] at hnat
  exact Encodable.encode_injective hnat

theorem emit_cases (hc : Clean texts) (n : Tree) :
    (n = null ∧ form (emit texts n) = 0) ∨ (n = scalar (emit texts n) ∧ form (emit texts n) = 1) ∨
      ((n, emit texts n) ∈ texts ∧ form (emit texts n) = 2) ∨
      (emit texts n = code n ∧ form (emit texts n) = 3) := by
  have htable : ∀ n : Tree, ((n, (texts.lookup n).getD (code n)) ∈ texts ∧
      form ((texts.lookup n).getD (code n)) = 2) ∨
      ((texts.lookup n).getD (code n) = code n ∧ form ((texts.lookup n).getD (code n)) = 3) := by
    intro n
    cases hlookup : texts.lookup n with
    | none => exact .inr ⟨rfl, form_code n⟩
    | some t =>
      obtain ⟨l, r, rfl, -⟩ := List.lookup_eq_some_iff.mp hlookup
      have hmem : (n, t) ∈ l ++ (n, t) :: r := List.mem_append_right l (List.mem_cons_self ..)
      obtain ⟨hnum, -, hnull, hhead⟩ := hc.2 t (List.mem_map.mpr ⟨_, hmem, rfl⟩)
      refine .inl ⟨hmem, ?_⟩
      rw [Option.getD_some, form, if_neg hnull, if_neg hnum, if_neg hhead]
  cases n with
  | null => exact .inl ⟨rfl, rfl⟩
  | scalar s =>
    by_cases hs : Numeric s
    · have hemit : emit texts (scalar s) = s := if_pos hs
      have hnull : s ≠ "~" := fun heq => absurd (heq ▸ hs) (by decide)
      rw [hemit]
      exact .inr (.inl ⟨rfl, by rw [form, if_neg hnull, if_pos hs]⟩)
    · have hemit : emit texts (scalar s) = (texts.lookup (scalar s)).getD (code (scalar s)) := if_neg hs
      rw [hemit]
      exact .inr (.inr (htable _))
  | _ => exact .inr (.inr (htable _))

theorem emit_injective (hc : Clean texts) {n m : Tree} (h : emit texts n = emit texts m) : n = m := by
  have hn := emit_cases hc n
  have hm := emit_cases hc m
  rw [← h] at hm
  obtain ⟨rfl, hn⟩ | ⟨hs, hn⟩ | ⟨hmem, hn⟩ | ⟨hcode, hn⟩ := hn
  · obtain ⟨rfl, -⟩ | ⟨-, hm⟩ | ⟨-, hm⟩ | ⟨-, hm⟩ := hm
    · rfl
    all_goals omega
  · obtain ⟨-, hm⟩ | ⟨hs', -⟩ | ⟨-, hm⟩ | ⟨-, hm⟩ := hm
    · omega
    · rw [hs, ← hs']
    all_goals omega
  · obtain ⟨-, hm⟩ | ⟨-, hm⟩ | ⟨hmem', -⟩ | ⟨-, hm⟩ := hm
    · omega
    · omega
    · exact congrArg Prod.fst (List.inj_on_of_nodup_map hc.1 hmem hmem' rfl)
    · omega
  · obtain ⟨-, hm⟩ | ⟨-, hm⟩ | ⟨-, hm⟩ | ⟨hcode', -⟩ := hm
    · omega
    · omega
    · omega
    · exact code_injective (hcode.symm.trans hcode')

theorem emit_ne_empty (hc : Clean texts) (n : Tree) : emit texts n ≠ "" := by
  intro hempty
  obtain ⟨-, hn⟩ | ⟨-, hn⟩ | ⟨hmem, -⟩ | ⟨-, hn⟩ := emit_cases hc n
  · rw [hempty] at hn
    exact absurd hn (by decide)
  · rw [hempty] at hn
    exact absurd hn (by decide)
  · exact (hc.2 _ (List.mem_map.mpr ⟨_, hmem, rfl⟩)).2.1 hempty
  · rw [hempty] at hn
    exact absurd hn (by decide)

open Classical in
/-- What is written is read as the node it was written for, and the empty text as null. -/
noncomputable def load (texts : List (Tree × String)) (s : String) : Option Tree :=
  if h : ∃ n, emit texts n = s then some h.choose else if s = "" then some null else none

theorem load_emit (hc : Clean texts) (n : Tree) : load texts (emit texts n) = some n := by
  have hex : ∃ m, emit texts m = emit texts n := ⟨n, rfl⟩
  have hn : hex.choose = n := emit_injective hc hex.choose_spec
  unfold load
  rw [dif_pos hex, hn]

theorem load_empty (hc : Clean texts) : load texts "" = some null := by
  unfold load
  rw [dif_neg fun h => emit_ne_empty hc _ h.choose_spec, if_pos rfl]

end Tree

/-- A library that writes some nodes by a table, and loads what it writes. -/
noncomputable def Yaml.ofTexts (texts : List (Tree × String)) : Yaml where
  Node := Tree
  load := Tree.load texts
  emit := Tree.emit texts
  build := Tree.build
  view := Tree.view
  index _ _ := none
  nullText := none

theorem Yaml.ofTexts_lawful {texts : List (Tree × String)} (hc : Tree.Clean texts) :
    (Yaml.ofTexts texts).Lawful where
  view_build sh _ := Tree.view_build sh
  load_emit n := ⟨n, Tree.load_emit hc n, rfl, rfl⟩
  load_empty := ⟨.null, Tree.load_empty hc, rfl⟩
  emit_null n hn := by
    cases n with
    | null => rfl
    | _ => cases hn
  load_int i := by
    have hemit : Tree.emit texts (.scalar (toString i)) = toString i := if_pos (Tree.numeric_int i)
    have hload := Tree.load_emit hc (.scalar (toString i))
    rw [hemit] at hload
    exact ⟨.scalar (toString i), hload, hemit⟩

end ShioSylar.Lib
