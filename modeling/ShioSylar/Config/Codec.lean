import ShioSylar.Lib.OrderedSet
import ShioSylar.Lib.Yaml
import Mathlib.Algebra.Group.Int.Defs
import Mathlib.Data.List.Lex
import Mathlib.Data.Prod.Lex
import Mathlib.Data.String.Basic

/-! The texts of configuration values (`LexicalCast` of `config.h`).

The text of a container is that of a node whose elements are loaded from the texts of the
elements. So the text of an element is read as YAML before it is written, and a string inside a
container comes back as what the emitter makes of it (`pass`). Only a text that the emitter
writes back as it is comes back as itself. -/
namespace ShioSylar.Config
open Lib

/-- A `LexicalCast` to a string and the one from a string. `none` is an exception. -/
structure Codec (V : Type) where
  toText : V → Option String
  ofText : String → Option V

/-- The values of a type with `operator<`. -/
structure Carrier where
  Val : Type
  order : LinearOrder Val

instance (c : Carrier) : LinearOrder c.Val := c.order

/-- The types built from `std::string` and `int`. -/
inductive Ty where
  | string | int
  | vector (t : Ty)
  | list (t : Ty)
  | set (t : Ty)
  | map (t : Ty)

/-- `int`. -/
abbrev CInt := { n : Int // -2 ^ 31 ≤ n ∧ n < 2 ^ 31 }

namespace Carrier

variable (c : Carrier)

def less (a b : c.Val) : Bool := a < b

def lessKey (p q : String ×ₗ c.Val) : Bool := (ofLex p).1 < (ofLex q).1

theorem less_trans (a b d : c.Val) (hab : c.less a b = true) (hbd : c.less b d = true) : c.less a d = true :=
  decide_eq_true (lt_trans (of_decide_eq_true hab) (of_decide_eq_true hbd))

theorem lessKey_trans (p q r : String ×ₗ c.Val) (hpq : c.lessKey p q = true) (hqr : c.lessKey q r = true) :
    c.lessKey p r = true :=
  decide_eq_true (lt_trans (of_decide_eq_true hpq) (of_decide_eq_true hqr))

def sequence : Carrier := ⟨List c.Val, inferInstance⟩

/-- `std::set`. -/
def set : Carrier := ⟨{ l : List c.Val // OrderedSet.Sorted c.less l }, inferInstance⟩

/-- `std::map` with strings for keys. -/
def map : Carrier := ⟨{ l : List (String ×ₗ c.Val) // OrderedSet.Sorted c.lessKey l }, inferInstance⟩

end Carrier

def Ty.sem : Ty → Carrier
  | string => ⟨String, inferInstance⟩
  | int => ⟨CInt, inferInstance⟩
  | vector t => t.sem.sequence
  | list t => t.sem.sequence
  | set t => t.sem.set
  | map t => t.sem.map

/-- A sign, if there is one, and what follows it. -/
def sign : List Char → Bool × List Char
  | '-' :: digits => (true, digits)
  | '+' :: digits => (false, digits)
  | digits => (false, digits)

/-- `boost::lexical_cast<int>`. -/
def readInt (s : String) : Option CInt :=
  let (neg, digits) := sign s.toList
  if digits.isEmpty || !digits.all Char.isDigit then none
  else
    let m : Int := Nat.ofDigitChars 10 digits 0
    let n := if neg then -m else m
    if h : -2 ^ 31 ≤ n ∧ n < 2 ^ 31 then some ⟨n, h⟩ else none

namespace Codec

variable (y : Yaml) {c : Carrier}

def string : Codec String := ⟨some, some⟩

def int : Codec CInt := ⟨fun n => some (toString n.val), readInt⟩

/-- `YAML::Load` of the text of an element. -/
def load {V : Type} (d : Codec V) (v : V) : Option y.Node := (d.toText v).bind y.load

/-- The text of a sequence. -/
def writeSeq {V : Type} (d : Codec V) (l : List V) : Option String :=
  (l.mapM (d.load y)).map fun ns => y.emit (y.build (.seq ns))

/-- The elements of a sequence's text. -/
def readSeq {V : Type} (d : Codec V) (s : String) : Option (List V) :=
  (y.load s).bind fun n => (y.items n).mapM fun i => d.ofText (y.text i)

def vector {V : Type} (d : Codec V) : Codec (List V) := ⟨d.writeSeq y, d.readSeq y⟩

def list {V : Type} (d : Codec V) : Codec (List V) := ⟨d.writeSeq y, d.readSeq y⟩

/-- The set that elements are inserted into. -/
def setOf (l : List c.Val) : c.set.Val :=
  ⟨OrderedSet.insertAll c.less l, OrderedSet.insertAll_sorted c.less_trans l⟩

def set (d : Codec c.Val) : Codec c.set.Val :=
  ⟨fun v => d.writeSeq y v.val, fun s => (d.readSeq y s).map setOf⟩

def mapOf (l : List (String ×ₗ c.Val)) : c.map.Val :=
  ⟨OrderedSet.insertAll c.lessKey l, OrderedSet.insertAll_sorted c.lessKey_trans l⟩

/-- The entry that is set in a map's node. -/
def loadEntry (d : Codec c.Val) (p : String ×ₗ c.Val) : Option (String × y.Node) :=
  (d.load y (ofLex p).2).map fun n => ((ofLex p).1, n)

/-- The entry that is inserted for one of a map's node, of which the text is given. -/
def ofEntry (d : Codec c.Val) (e : String × String) : Option (String ×ₗ c.Val) :=
  (d.ofText e.2).map fun v => toLex (e.1, v)

def map (d : Codec c.Val) : Codec c.map.Val where
  toText v := (v.val.mapM (d.loadEntry y)).map fun es => y.emit (y.build (.map es))
  ofText s := (y.load s).bind fun n => (y.view n).pairs.bind fun es =>
    (es.mapM fun e => d.ofEntry (e.1, y.emit e.2)).map mapOf

end Codec

/-- The two casts of a type. -/
def Ty.codec (y : Yaml) : (t : Ty) → Codec t.sem.Val
  | string => Codec.string
  | int => Codec.int
  | vector t => (t.codec y).vector y
  | list t => (t.codec y).list y
  | set t => (t.codec y).set y
  | map t => (t.codec y).map y

/-! ### One round -/

variable (y : Yaml)

namespace Codec

variable {V : Type}

/-- What comes back of a value. -/
def trip (d : Codec V) (v : V) : Option V := (d.toText v).bind d.ofText

/-- What comes back of an element of a container. -/
def pass (d : Codec V) (v : V) : Option V := (d.load y v).bind fun n => d.ofText (y.emit n)

end Codec

namespace ConfigVar

variable {V : Type} (d : Codec V) (val : V)

/-- `toString`, which catches exceptions. -/
def toString : String := (d.toText val).getD ""

/-- The value after `fromString`, which catches exceptions too. -/
def fromString (s : String) : V := (d.ofText s).getD val

end ConfigVar

/-- Every string in the value is written back as it is read. -/
def Canon : (t : Ty) → t.sem.Val → Prop
  | .string, s => y.Stable s
  | .int, _ => True
  | .vector t, l => ∀ v ∈ (show List t.sem.Val from l), Canon t v
  | .list t, l => ∀ v ∈ (show List t.sem.Val from l), Canon t v
  | .set t, l => ∀ v ∈ (show t.sem.set.Val from l).val, Canon t v
  | .map t, l => ∀ p ∈ (show t.sem.map.Val from l).val, Canon t (ofLex p).2

/-- Every string that is inside a container is. A string by itself does not pass through YAML. -/
def Survives (t : Ty) (v : t.sem.Val) : Prop := t = .string ∨ Canon y t v

section
variable {V W X : Type}

theorem mapM_bind (f : V → Option W) (g : W → Option X) (l : List V) :
    (l.mapM f).bind (fun ws => ws.mapM g) = l.mapM fun v => (f v).bind g := by
  induction l with
  | nil => rfl
  | cons v rest ih =>
    rw [List.mapM_cons, List.mapM_cons, ← ih]
    cases f v with
    | none => rfl
    | some w =>
      cases rest.mapM f with
      | none => cases hg : g w <;> simp [hg]
      | some ws => exact List.mapM_cons

theorem mapM_self {f : V → Option V} {l : List V} (hl : ∀ v ∈ l, f v = some v) : l.mapM f = some l := by
  induction l with
  | nil => rfl
  | cons v rest ih =>
    rw [List.mapM_cons, hl v (List.mem_cons_self ..), ih fun w hw => hl w (List.mem_cons_of_mem v hw)]
    rfl

theorem mapM_isSome {f : V → Option W} {l : List V} (hl : ∀ v ∈ l, (f v).isSome = true) :
    (l.mapM f).isSome = true := by
  induction l with
  | nil => rfl
  | cons v rest ih =>
    obtain ⟨w, hw⟩ := Option.isSome_iff_exists.mp (hl v (List.mem_cons_self ..))
    obtain ⟨ws, hws⟩ := Option.isSome_iff_exists.mp (ih fun u hu => hl u (List.mem_cons_of_mem v hu))
    rw [List.mapM_cons, hw, hws]
    rfl

/-- What is computed along keeps what it does not touch. -/
theorem map_mapM {K : Type} {f : V → Option W} {k : V → K} {k' : W → K}
    (hf : ∀ v w, f v = some w → k' w = k v) {l : List V} {ws : List W} (hl : l.mapM f = some ws) :
    ws.map k' = l.map k := by
  induction l generalizing ws with
  | nil =>
    cases hl
    rfl
  | cons v rest ih =>
    rw [List.mapM_cons] at hl
    obtain ⟨u, hu, hl⟩ := Option.bind_eq_some_iff.mp hl
    obtain ⟨us, hus, hl⟩ := Option.bind_eq_some_iff.mp hl
    cases hl
    rw [List.map_cons, List.map_cons, hf v u hu, ih hus]

theorem isSome_of_mapM {f : V → Option W} {l : List V} (hl : (l.mapM f).isSome = true) :
    ∀ v ∈ l, (f v).isSome = true := by
  induction l with
  | nil => exact fun v hv => nomatch hv
  | cons v rest ih =>
    rw [List.mapM_cons] at hl
    obtain ⟨ws, hws⟩ := Option.isSome_iff_exists.mp hl
    obtain ⟨u, hu, hws⟩ := Option.bind_eq_some_iff.mp hws
    obtain ⟨us, hus, -⟩ := Option.bind_eq_some_iff.mp hws
    intro w hw
    obtain rfl | hw := List.mem_cons.mp hw
    · rw [hu]
      rfl
    · exact ih (by rw [hus]; rfl) w hw

theorem exists_of_mem_mapM {f : V → Option W} {l : List V} {ws : List W} (h : l.mapM f = some ws) :
    ∀ w ∈ ws, ∃ v ∈ l, f v = some w := by
  induction l generalizing ws with
  | nil =>
    cases h
    exact fun w hw => nomatch hw
  | cons v rest ih =>
    rw [List.mapM_cons] at h
    obtain ⟨u, hu, h⟩ := Option.bind_eq_some_iff.mp h
    obtain ⟨us, hus, h⟩ := Option.bind_eq_some_iff.mp h
    cases h
    intro w hw
    obtain rfl | hw := List.mem_cons.mp hw
    · exact ⟨v, List.mem_cons_self .., hu⟩
    · obtain ⟨x, hx, hfx⟩ := ih hus w hw
      exact ⟨x, List.mem_cons_of_mem v hx, hfx⟩

end

/-! ### What comes back of a container -/

theorem sign_digits {ds : List Char} (hds : ds.all Char.isDigit = true) : sign ds = (false, ds) := by
  unfold sign
  split
  · rw [List.all_cons] at hds
    exact absurd (Bool.and_eq_true_iff.mp hds).1 (by decide)
  · rw [List.all_cons] at hds
    exact absurd (Bool.and_eq_true_iff.mp hds).1 (by decide)
  · rfl

theorem toDigits_digits (n : Nat) :
    (Nat.toDigits 10 n).isEmpty = false ∧ (Nat.toDigits 10 n).all Char.isDigit = true := by
  constructor
  · rw [List.isEmpty_eq_false_iff]
    exact Nat.toDigits_ne_nil
  · rw [List.all_eq_true]
    intro c hc
    exact Nat.isDigit_of_mem_toDigits (b := 10) (by decide) (by decide) hc

theorem readInt_toString (n : CInt) : readInt (toString n.val) = some n := by
  have hsign : sign (toString n.val).toList =
      (decide (n.val < 0), Nat.toDigits 10 n.val.natAbs) := by
    rw [Int.toString_eq_repr, Int.repr_eq_if]
    by_cases hn : 0 ≤ n.val
    · have habs : n.val.toNat = n.val.natAbs := by omega
      rw [if_pos hn, Nat.toList_repr, sign_digits (toDigits_digits _).2, habs, decide_eq_false (by omega)]
    · have habs : (-n.val).toNat = n.val.natAbs := by omega
      rw [if_neg hn, String.toList_append, Nat.toList_repr, habs, decide_eq_true (by omega)]
      rfl
  have hvalue : (if decide (n.val < 0) = true then -(n.val.natAbs : Int) else n.val.natAbs) = n.val := by
    by_cases hn : n.val < 0
    · rw [if_pos (decide_eq_true hn)]
      omega
    · rw [if_neg fun hd => hn (of_decide_eq_true hd)]
      omega
  unfold readInt
  simp only [hsign, (toDigits_digits n.val.natAbs).1, (toDigits_digits n.val.natAbs).2,
    Nat.ofDigitChars_ten_toDigits, Bool.not_true, Bool.or_false, Bool.false_eq_true, if_false, hvalue]
  rw [dif_pos n.property]

namespace Codec

variable {y} {c : Carrier} (h : y.Lawful)
include h

/-- The elements of a sequence that has just been written. -/
theorem readSeq_emit {V : Type} (d : Codec V) (ns : List y.Node) :
    d.readSeq y (y.emit (y.build (.seq ns))) = ns.mapM fun n => d.ofText (y.emit n) := by
  have hview : y.view (y.build (.seq ns)) = .seq ns := h.view_build (.seq ns) trivial
  have hread : ∀ m ms, y.view m = .seq ms →
      ((y.items m).mapM fun i => d.ofText (y.text i)) = ms.mapM fun n => d.ofText (y.emit n) := by
    intro m ms hm
    rw [Yaml.items, hm, List.mapM_map]
    rfl
  unfold readSeq
  rw [h.load_emit_bind, hread _ ns hview]
  intro m hm
  obtain ⟨ms, hms, hemit⟩ := h.view_seq hm hview
  rw [hread m ms hms, hread _ ns hview]
  exact Yaml.mapM_same (fun a b hab => congrArg d.ofText hab) hemit

/-- What comes back of a sequence are its elements, each after a round of its own. -/
theorem trip_seq {V : Type} (d : Codec V) (l : List V) :
    (d.writeSeq y l).bind (d.readSeq y) = l.mapM (d.pass y) := by
  unfold writeSeq
  rw [Option.bind_map]
  simp only [Function.comp_def, readSeq_emit h d]
  exact mapM_bind _ _ l

/-- The entries of a map that has just been written. -/
theorem ofText_emit_map (d : Codec c.Val) {es : List (String × y.Node)} (hd : (es.map Prod.fst).Nodup) :
    (d.map y).ofText (y.emit (y.build (.map es))) =
      (es.mapM fun e => d.ofEntry (e.1, y.emit e.2)).map mapOf := by
  have hview : y.view (y.build (.map es)) = .map es := h.view_build (.map es) hd
  have hread : ∀ ms : List (String × y.Node), (ms.mapM fun e => d.ofEntry (e.1, y.emit e.2)) =
      (ms.map fun e => (e.1, y.emit e.2)).mapM d.ofEntry := by
    intro ms
    rw [List.mapM_map]
    rfl
  show (y.load _).bind _ = _
  rw [h.load_emit_bind, hview]
  · rfl
  · intro m hm
    have hpairs := congrArg Shape.pairs (h.view_same hm)
    rw [Shape.pairs_mapNodes, Shape.pairs_mapNodes, hview] at hpairs
    obtain ⟨ms, hms, hemit⟩ := Option.map_eq_some_iff.mp hpairs
    rw [hms, hview]
    show Option.map mapOf (ms.mapM _) = Option.map mapOf (es.mapM _)
    rw [hread ms, hread es, hemit]

omit h in
theorem loadEntry_keys (d : Codec c.Val) (v : c.map.Val) {es : List (String × y.Node)}
    (hes : v.val.mapM (d.loadEntry y) = some es) : (es.map Prod.fst).Nodup := by
  have hkeys : es.map Prod.fst = v.val.map fun p => (ofLex p).1 := by
    refine map_mapM ?_ hes
    intro p e he
    obtain ⟨n, -, rfl⟩ := Option.map_eq_some_iff.mp he
    rfl
  rw [hkeys]
  refine List.Pairwise.map _ ?_ v.property
  intro p q hpq heq
  have hlt := of_decide_eq_true hpq
  rw [heq] at hlt
  exact lt_irrefl _ hlt

omit h in
/-- One entry of a map after a round. -/
theorem pass_entry (d : Codec c.Val) (p : String ×ₗ c.Val) :
    ((d.loadEntry y p).bind fun e => d.ofEntry (e.1, y.emit e.2)) =
      (d.pass y (ofLex p).2).map fun v => toLex ((ofLex p).1, v) := by
  unfold loadEntry ofEntry pass
  cases d.load y (ofLex p).2 <;> rfl

/-- What comes back of a map are its entries, each value after a round of its own. -/
theorem trip_map (d : Codec c.Val) (v : c.map.Val) : (d.map y).trip v =
    (v.val.mapM fun p => (d.pass y (ofLex p).2).map fun w => toLex ((ofLex p).1, w)).map mapOf := by
  have hfuse := mapM_bind (d.loadEntry y) (fun e => d.ofEntry (e.1, y.emit e.2)) v.val
  simp only [pass_entry] at hfuse
  show ((v.val.mapM (d.loadEntry y)).map fun es => y.emit (y.build (.map es))).bind (d.map y).ofText = _
  rw [← hfuse]
  cases hes : v.val.mapM (d.loadEntry y) with
  | none => rfl
  | some es =>
    exact ofText_emit_map h d (loadEntry_keys d v hes)

/-- A container is inside another one what it is by itself. -/
theorem pass_eq_trip {V : Type} {d : Codec V} {v : V}
    (hemit : ∀ text, d.toText v = some text → ∃ n, text = y.emit n) : d.pass y v = d.trip v := by
  unfold pass load trip
  cases htext : d.toText v with
  | none => rfl
  | some text =>
    obtain ⟨n, rfl⟩ := hemit text htext
    obtain ⟨m, hm, hsame, -⟩ := h.load_emit n
    show (y.load (y.emit n)).bind (fun n => d.ofText (y.emit n)) = d.ofText (y.emit n)
    rw [hm]
    exact congrArg d.ofText hsame

omit h in
theorem emit_writeSeq {V : Type} {d : Codec V} {l : List V} {text : String}
    (htext : d.writeSeq y l = some text) : ∃ n, text = y.emit n := by
  obtain ⟨ns, -, rfl⟩ := Option.map_eq_some_iff.mp htext
  exact ⟨_, rfl⟩

theorem pass_vector {V : Type} (d : Codec V) (l : List V) : (d.vector y).pass y l = l.mapM (d.pass y) :=
  (pass_eq_trip h fun _ => emit_writeSeq).trans (trip_seq h d l)

theorem pass_list {V : Type} (d : Codec V) (l : List V) : (d.list y).pass y l = l.mapM (d.pass y) :=
  (pass_eq_trip h fun _ => emit_writeSeq).trans (trip_seq h d l)

theorem trip_set (d : Codec c.Val) (v : c.set.Val) :
    (d.set y).trip v = (v.val.mapM (d.pass y)).map setOf := by
  rw [← trip_seq h d v.val]
  show (d.writeSeq y v.val).bind (fun s => (d.readSeq y s).map setOf) = _
  cases d.writeSeq y v.val <;> rfl

theorem pass_set (d : Codec c.Val) (v : c.set.Val) :
    (d.set y).pass y v = (v.val.mapM (d.pass y)).map setOf :=
  (pass_eq_trip h fun _ => emit_writeSeq).trans (trip_set h d v)

theorem pass_map (d : Codec c.Val) (v : c.map.Val) : (d.map y).pass y v =
    (v.val.mapM fun p => (d.pass y (ofLex p).2).map fun w => toLex ((ofLex p).1, w)).map mapOf := by
  refine (pass_eq_trip h fun text htext => ?_).trans (trip_map h d v)
  obtain ⟨es, -, rfl⟩ := Option.map_eq_some_iff.mp htext
  exact ⟨_, rfl⟩

theorem pass_int (n : CInt) : int.pass y n = some n := by
  obtain ⟨m, hm, hemit⟩ := h.load_int n.val
  show (y.load (toString n.val)).bind (fun n => readInt (y.emit n)) = some n
  rw [hm]
  exact (congrArg readInt hemit).trans (readInt_toString n)

end Codec

/-! ### Which values come back -/

theorem setOf_val {c : Carrier} (v : c.set.Val) : Codec.setOf v.val = v :=
  Subtype.ext (OrderedSet.insertAll_of_sorted v.property)

theorem mapOf_val {c : Carrier} (v : c.map.Val) : Codec.mapOf v.val = v :=
  Subtype.ext (OrderedSet.insertAll_of_sorted v.property)

section
variable {y} (h : y.Lawful)
include h

theorem pass_of_canon (t : Ty) (v : t.sem.Val) (hv : Canon y t v) : (t.codec y).pass y v = some v := by
  induction t with
  | string =>
    obtain ⟨n, hn, hemit⟩ := hv
    show (y.load v).bind (fun n => some (y.emit n)) = some v
    rw [hn]
    exact congrArg some hemit
  | int => exact Codec.pass_int h v
  | vector t ih => exact (Codec.pass_vector h _ v).trans (mapM_self fun w hw => ih w (hv w hw))
  | list t ih => exact (Codec.pass_list h _ v).trans (mapM_self fun w hw => ih w (hv w hw))
  | set t ih =>
    refine (Codec.pass_set h _ v).trans ?_
    rw [mapM_self fun w hw => ih w (hv w hw)]
    exact congrArg some (setOf_val v)
  | map t ih =>
    refine (Codec.pass_map h _ v).trans ?_
    rw [mapM_self fun p hp => by rw [ih _ (hv p hp)]; rfl]
    exact congrArg some (mapOf_val v)

/-- Whatever comes back, its strings are written back as they are read. -/
theorem canon_of_pass (t : Ty) (v w : t.sem.Val) (hp : (t.codec y).pass y v = some w) : Canon y t w := by
  induction t with
  | string =>
    obtain ⟨n, -, hn⟩ := Option.bind_eq_some_iff.mp hp
    obtain rfl : y.emit n = w := Option.some.inj hn
    exact h.stable_emit n
  | int => trivial
  | vector t ih =>
    intro x hx
    obtain ⟨x', -, hx'⟩ := exists_of_mem_mapM ((Codec.pass_vector h _ v).symm.trans hp) x hx
    exact ih x' x hx'
  | list t ih =>
    intro x hx
    obtain ⟨x', -, hx'⟩ := exists_of_mem_mapM ((Codec.pass_list h _ v).symm.trans hp) x hx
    exact ih x' x hx'
  | set t ih =>
    intro x hx
    obtain ⟨l, hl, rfl⟩ := Option.map_eq_some_iff.mp ((Codec.pass_set h _ v).symm.trans hp)
    obtain ⟨x', -, hx'⟩ := exists_of_mem_mapM hl x (OrderedSet.mem_of_mem_insertAll hx)
    exact ih x' x hx'
  | map t ih =>
    intro p hmem
    obtain ⟨l, hl, rfl⟩ := Option.map_eq_some_iff.mp ((Codec.pass_map h _ v).symm.trans hp)
    obtain ⟨q, -, hq⟩ := exists_of_mem_mapM hl p (OrderedSet.mem_of_mem_insertAll hmem)
    obtain ⟨x, hx, rfl⟩ := Option.map_eq_some_iff.mp hq
    exact ih _ x hx

omit h in
/-- The elements of what could be written could be loaded. -/
theorem isSome_of_writeSeq {V : Type} {d : Codec V} {l : List V} (hl : (d.writeSeq y l).isSome = true) :
    ∀ v ∈ l, (d.load y v).isSome = true := by
  unfold Codec.writeSeq at hl
  rw [Option.isSome_map] at hl
  exact isSome_of_mapM hl

/-- What could be written and loaded can be read. -/
theorem pass_isSome (t : Ty) (v : t.sem.Val) (hv : ((t.codec y).load y v).isSome = true) :
    ((t.codec y).pass y v).isSome = true := by
  induction t with
  | string =>
    obtain ⟨n, hn⟩ := Option.isSome_iff_exists.mp hv
    show ((Codec.string.load y v).bind fun n => some (y.emit n)).isSome = true
    rw [show Codec.string.load y v = some n from hn]
    rfl
  | int =>
    exact congrArg Option.isSome (Codec.pass_int h v)
  | vector t ih =>
    have hload := isSome_of_writeSeq (Option.isSome_of_isSome_bind hv)
    refine (congrArg Option.isSome (Codec.pass_vector h _ v)).trans ?_
    exact mapM_isSome fun w hw => ih w (hload w hw)
  | list t ih =>
    have hload := isSome_of_writeSeq (Option.isSome_of_isSome_bind hv)
    refine (congrArg Option.isSome (Codec.pass_list h _ v)).trans ?_
    exact mapM_isSome fun w hw => ih w (hload w hw)
  | set t ih =>
    have hload := isSome_of_writeSeq (Option.isSome_of_isSome_bind hv)
    refine ((congrArg Option.isSome (Codec.pass_set h _ v)).trans Option.isSome_map).trans ?_
    exact mapM_isSome fun w hw => ih w (hload w hw)
  | map t ih =>
    have hwrite : ((v.val.mapM ((t.codec y).loadEntry y)).map fun es => y.emit (y.build (.map es))).isSome =
        true := Option.isSome_of_isSome_bind hv
    rw [Option.isSome_map] at hwrite
    have hload := isSome_of_mapM hwrite
    refine ((congrArg Option.isSome (Codec.pass_map h _ v)).trans Option.isSome_map).trans ?_
    refine mapM_isSome fun p hp => ?_
    have hentry := hload p hp
    unfold Codec.loadEntry at hentry
    rw [Option.isSome_map] at hentry ⊢
    exact ih _ hentry

/-- All but a string by itself is the same inside a container and outside. -/
theorem trip_eq_pass (t : Ty) (ht : t ≠ .string) (v : t.sem.Val) :
    (t.codec y).trip v = (t.codec y).pass y v := by
  cases t with
  | string => exact absurd rfl ht
  | int => exact (readInt_toString v).trans (Codec.pass_int h v).symm
  | vector t => exact (Codec.trip_seq h _ v).trans (Codec.pass_vector h _ v).symm
  | list t => exact (Codec.trip_seq h _ v).trans (Codec.pass_list h _ v).symm
  | set t => exact (Codec.trip_set h _ v).trans (Codec.pass_set h _ v).symm
  | map t => exact (Codec.trip_map h _ v).trans (Codec.pass_map h _ v).symm

theorem trip_iff (t : Ty) (v : t.sem.Val) : (t.codec y).trip v = some v ↔ Survives y t v := by
  by_cases ht : t = .string
  · subst ht
    exact iff_of_true rfl (.inl rfl)
  · rw [trip_eq_pass h t ht v, Survives]
    constructor
    · intro hp
      exact .inr (canon_of_pass h t v v hp)
    · intro hs
      exact pass_of_canon h t v (hs.resolve_left ht)

/-- What could be written can be loaded, but for a string. -/
theorem load_isSome (t : Ty) (ht : t ≠ .string) (v : t.sem.Val)
    (hv : ((t.codec y).toText v).isSome = true) : ((t.codec y).load y v).isSome = true := by
  obtain ⟨text, htext⟩ := Option.isSome_iff_exists.mp hv
  have hload : ∃ n, y.load text = some n := by
    have hemit : ∀ n, y.emit n = text → ∃ n, y.load text = some n := by
      rintro n rfl
      obtain ⟨m, hm, -⟩ := h.load_emit n
      exact ⟨m, hm⟩
    cases t with
    | string => exact absurd rfl ht
    | int =>
      obtain ⟨n, hn, -⟩ := h.load_int v.val
      obtain rfl : toString v.val = text := Option.some.inj htext
      exact ⟨n, hn⟩
    | map t =>
      obtain ⟨es, -, hes⟩ := Option.map_eq_some_iff.mp htext
      exact hemit _ hes
    | _ =>
      obtain ⟨n, rfl⟩ := Codec.emit_writeSeq htext
      exact hemit n rfl
  obtain ⟨n, hn⟩ := hload
  unfold Codec.load
  rw [htext, Option.bind_some, hn]
  rfl

/-- What could be written can be read. -/
theorem trip_isSome (t : Ty) (v : t.sem.Val) (hv : ((t.codec y).toText v).isSome = true) :
    ((t.codec y).trip v).isSome = true := by
  by_cases ht : t = .string
  · subst ht
    rfl
  · rw [trip_eq_pass h t ht v]
    exact pass_isSome h t v (load_isSome h t ht v hv)

omit h in
theorem toText_isSome (t : Ty) (ht : t = .string ∨ t = .int) (v : t.sem.Val) :
    ((t.codec y).toText v).isSome = true := by
  obtain rfl | rfl := ht
  · rfl
  · rfl

/-- The empty text is an empty container. -/
theorem ofText_empty (t : Ty) (ht : ¬ (t = .string ∨ t = .int)) :
    ∃ e, (t.codec y).ofText "" = some e ∧ ((t.codec y).toText e).isSome = true := by
  obtain ⟨n, hn, hnull⟩ := h.load_empty
  have hseq : ∀ {V : Type} (d : Codec V), d.readSeq y "" = some [] := by
    intro V d
    unfold Codec.readSeq Yaml.items
    rw [hn, Option.bind_some, hnull]
    rfl
  cases t with
  | string => exact absurd (.inl rfl) ht
  | int => exact absurd (.inr rfl) ht
  | vector t => exact ⟨[], hseq _, rfl⟩
  | list t => exact ⟨[], hseq _, rfl⟩
  | set t => exact ⟨Codec.setOf [], congrArg (Option.map Codec.setOf) (hseq _), rfl⟩
  | map t =>
    refine ⟨Codec.mapOf [], ?_, rfl⟩
    show (y.load "").bind _ = _
    rw [hn, Option.bind_some, hnull]
    rfl

/-- `fromString` of `toString` gives the value back exactly if the casts do. -/
theorem fromString_iff (t : Ty) (v : t.sem.Val) :
    ConfigVar.fromString (t.codec y) v (ConfigVar.toString (t.codec y) v) = v ↔
      (t.codec y).trip v = some v := by
  unfold ConfigVar.fromString ConfigVar.toString Codec.trip
  cases htext : (t.codec y).toText v with
  | none =>
    have ht : ¬ (t = .string ∨ t = .int) := by
      intro ht
      have hsome := toText_isSome (y := y) t ht v
      rw [htext] at hsome
      cases hsome
    obtain ⟨e, he, hsome⟩ := ofText_empty h t ht
    refine iff_of_false (fun heq => ?_) (fun heq => nomatch heq)
    rw [Option.getD_none, he, Option.getD_some] at heq
    rw [heq, htext] at hsome
    cases hsome
  | some text =>
    have hread := trip_isSome h t v (by rw [htext]; rfl)
    rw [Codec.trip, htext, Option.bind_some] at hread
    obtain ⟨w, hw⟩ := Option.isSome_iff_exists.mp hread
    rw [Option.getD_some, Option.bind_some, hw, Option.getD_some]
    exact ⟨congrArg some, Option.some.inj⟩

/-- **Round trip.** The text of a value is read as the value, and a variable that is set to its
own text stays as it is, if and only if every string inside a container is one that is written
back as it is read. -/
theorem roundTrip_iff (t : Ty) (v : t.sem.Val) :
    ((t.codec y).trip v = some v ↔ Survives y t v) ∧
      (ConfigVar.fromString (t.codec y) v (ConfigVar.toString (t.codec y) v) = v ↔ Survives y t v) :=
  ⟨trip_iff h t v, (fromString_iff h t v).trans (trip_iff h t v)⟩

/-- An empty string in a sequence is lost with every library. -/
theorem not_survives_empty : ¬ Survives y (.vector .string) [""] := by
  intro hs
  have hcanon := hs.resolve_left (by simp)
  exact h.not_stable_empty (hcanon "" (List.mem_cons_self ..))

end

/-- The texts of some strings and containers. -/
def texts : List (Tree × String) := [
  (.scalar "a", "a"), (.scalar "b", "b"),
  (.cons (.scalar "a") (.cons (.scalar "b") .nil), "- a\n- b"),
  (.entry "k" (.cons (.scalar "a") (.cons (.scalar "b") .nil)) .empty, "k:\n  - a\n  - b"),
  (.cons .null .nil, "- ~")]

/-- A map of sequences of words. -/
def words : (Ty.map (.vector .string)).sem.Val :=
  ⟨[toLex ("k", ["a", "b"])], List.pairwise_singleton ..⟩

theorem roundTrip_iff_words :
    (Ty.codec (.ofTexts texts) (.map (.vector .string))).trip words = some words := by
  have hc : Tree.Clean texts := by decide
  have ha : (Yaml.ofTexts texts).Stable "a" := ⟨Tree.scalar "a", Tree.load_emit hc (.scalar "a"), rfl⟩
  have hb : (Yaml.ofTexts texts).Stable "b" := ⟨Tree.scalar "b", Tree.load_emit hc (.scalar "b"), rfl⟩
  refine (roundTrip_iff (Yaml.ofTexts_lawful hc) _ words).1.mpr (.inr ?_)
  intro p hp
  obtain rfl := List.mem_singleton.mp hp
  intro s hs
  obtain rfl | hs := List.mem_cons.mp hs
  · exact ha
  · obtain rfl := List.mem_singleton.mp hs
    exact hb

/-- The empty string in a sequence comes back as the text of null. -/
theorem empty_lost :
    (Yaml.ofTexts texts).Lawful ∧
      (Ty.codec (.ofTexts texts) (.vector .string)).toText [""] = some "- ~" ∧
      (Ty.codec (.ofTexts texts) (.vector .string)).trip [""] = some ["~"] := by
  have hc : Tree.Clean texts := by decide
  have h := Yaml.ofTexts_lawful hc
  have hload : Codec.string.load (.ofTexts texts) "" = some Tree.null := Tree.load_empty hc
  have hpass : Codec.string.pass (.ofTexts texts) "" = some "~" := by
    unfold Codec.pass
    rw [hload]
    rfl
  refine ⟨h, ?_, ?_⟩
  · show Codec.string.writeSeq (.ofTexts texts) [""] = some "- ~"
    unfold Codec.writeSeq
    rw [List.mapM_cons, hload]
    rfl
  · refine (Codec.trip_seq h _ [""]).trans ?_
    show List.mapM (Codec.string.pass (.ofTexts texts)) [""] = some ["~"]
    rw [List.mapM_cons, hpass]
    rfl

end ShioSylar.Config
