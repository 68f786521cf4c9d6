import Mathlib.Data.String.Basic
import Mathlib.Logic.Function.Basic

/-! Loading a document into the configuration (`config.cc`).

`ListAllMember` lists the nodes of a document under their dotted paths and leaves a node out, with
all that is below it, if its path has a character that is not in a list. `LoadFromYaml` then makes
the paths lower-case and looks them up. The list has no upper-case letters, so the paths are
lower-case already where it lets them pass, and a setting that is written with another letter is
skipped (`loadFromYaml_iff`).

Documents are trees; how a node that is no scalar is written is left to the library. -/
namespace ShioSylar.Config

/-- `find_first_not_of` finds nothing. -/
def validName (name : String) : Bool :=
  name.toList.all fun c => "abcdefghikjlmnopqrstuvwxyz._012345678".toList.contains c

/-- `std::transform` with `tolower`. -/
def lower (name : String) : String := String.ofList (name.toList.map Char.toLower)

/-! ### The variables -/

/-- `ConfigVarBase`, and the type of the value. -/
structure ConfigVarBase (κ : Type) where
  name : String
  description : String
  type : κ

def ConfigVarBase.create {κ : Type} (name : String) (description : String) (type : κ) : ConfigVarBase κ :=
  ⟨lower name, description, type⟩

theorem not_isUpper_of_valid {name : String} (h : validName name = true) :
    ∀ c ∈ name.toList, c.isUpper = false := by
  have hall : ∀ c ∈ "abcdefghikjlmnopqrstuvwxyz._012345678".toList, c.isUpper = false := by simp
  exact fun c hc => hall c (List.contains_iff_mem.mp (List.all_eq_true.mp h c hc))

theorem toLower_of_not_isUpper {c : Char} (h : c.isUpper = false) : c.toLower = c :=
  dif_neg (of_decide_eq_false h)

theorem lower_of_not_isUpper {name : String} (h : ∀ c ∈ name.toList, c.isUpper = false) :
    lower name = name := by
  have hmap : name.toList.map Char.toLower = name.toList :=
    (List.map_congr_left fun c hc => toLower_of_not_isUpper (h c hc)).trans (List.map_id _)
  rw [lower, hmap, String.ofList_toList]

theorem lower_of_valid {name : String} (h : validName name = true) : lower name = name :=
  lower_of_not_isUpper (not_isUpper_of_valid h)

/-- What `GetDatas` holds: a variable under its own name, which the list lets pass. -/
structure Datas (κ : Type) where
  find : String → Option (ConfigVarBase κ)
  named : ∀ name v, find name = some v → v.name = name
  valid : ∀ name v, find name = some v → validName name = true

namespace Datas
variable {κ : Type}

def empty : Datas κ := ⟨fun _ => none, nofun, nofun⟩

def insert (d : Datas κ) (name description : String) (type : κ) (h : validName name = true) : Datas κ where
  find := Function.update d.find name (some (ConfigVarBase.create name description type))
  named key v hv := by
    by_cases hkey : key = name
    · rw [hkey, Function.update_self] at hv
      rw [← Option.some.inj hv, hkey]
      exact lower_of_valid h
    · rw [Function.update_of_ne hkey] at hv
      exact d.named key v hv
  valid key v hv := by
    by_cases hkey : key = name
    · rw [hkey]
      exact h
    · rw [Function.update_of_ne hkey] at hv
      exact d.valid key v hv

/-- `Config::Lookup<T>`: the variable, unless it has another type, or `none` where
`std::invalid_argument` is thrown. -/
def lookup [DecidableEq κ] (d : Datas κ) (name description : String) (type : κ) :
    Option (Option (ConfigVarBase κ) × Datas κ) :=
  match d.find name with
  | some v => some (if v.type = type then some v else none, d)
  | none =>
    if h : validName name = true then
      some (some (ConfigVarBase.create name description type), d.insert name description type h)
    else none

/-- `Config::LookupBase`. -/
def lookupBase (d : Datas κ) (name : String) : Option (ConfigVarBase κ) := d.find name

/-- An exception is thrown for the names that do not pass, and no other ones. -/
theorem lookup_isSome [DecidableEq κ] (d : Datas κ) (name description : String) (type : κ) :
    (d.lookup name description type).isSome = true ↔ validName name = true := by
  unfold lookup
  cases hfind : d.find name with
  | some v => simp [d.valid name v hfind]
  | none => simp

end Datas

/-! ### The document -/

/-- A node of a document. The key of an entry is a scalar. -/
inductive Node where
  | null
  | scalar (text : String)
  | seq (items : List Node)
  | map (entries : List (String × Node))

/-- What `LoadFromYaml` hands over for a node. -/
def Node.text (emit : Node → String) : Node → String
  | .scalar text => text
  | node => emit node

mutual

/-- `ListAllMember`. -/
def listAllMember (pre : String) (node : Node) : List (String × Node) :=
  if !validName pre then []
  else
    (pre, node) :: match node with
      | .map entries => listEntries pre entries
      | _ => []

/-- Its loop over the entries of a map. -/
def listEntries (pre : String) : List (String × Node) → List (String × Node)
  | [] => []
  | (key, child) :: rest =>
    listAllMember (if pre.isEmpty then key else pre ++ "." ++ key) child ++ listEntries pre rest

end

/-- `Config::LoadFromYaml`: the calls of `fromString`. -/
def loadFromYaml {κ : Type} (emit : Node → String) (d : Datas κ) (root : Node) :
    List (ConfigVarBase κ × String) :=
  (listAllMember "" root).filterMap fun (key, node) =>
    if key.isEmpty then none else (d.lookupBase (lower key)).map fun var => (var, node.text emit)

/-! ### Paths -/

mutual

/-- The nodes below a node, each before those below it, with the keys that lead to them. -/
def Node.descendants (path : List String) : Node → List (List String × Node)
  | .map entries => entryDescendants path entries
  | _ => []

def entryDescendants (path : List String) : List (String × Node) → List (List String × Node)
  | [] => []
  | (key, child) :: rest =>
    (path ++ [key], child) :: (child.descendants (path ++ [key]) ++ entryDescendants path rest)

end

def dotted (path : List String) : String := ".".intercalate path

/-- No key is empty. -/
def Keyed (path : List String) : Prop := ∀ key ∈ path, key ≠ ""

theorem dotted_snoc {path : List String} (hpath : path ≠ []) (key : String) :
    dotted (path ++ [key]) = dotted path ++ "." ++ key := by
  rw [dotted, String.intercalate_append_of_ne_nil hpath (List.cons_ne_nil _ _), String.intercalate_singleton]
  rfl

theorem dotted_ne_empty {path : List String} (hpath : path ≠ []) (hkeys : Keyed path) : dotted path ≠ "" := by
  obtain ⟨key, rest, rfl⟩ := List.exists_cons_of_ne_nil hpath
  have hkey := hkeys key (List.mem_cons_self ..)
  cases rest with
  | nil => rwa [dotted, String.intercalate_singleton]
  | cons next rest =>
    rw [dotted, String.intercalate_cons_cons]
    simp [hkey]

/-- How `ListAllMember` joins a path and a key. -/
theorem dotted_child {path : List String} (hkeys : Keyed path) (key : String) :
    (if (dotted path).isEmpty then key else dotted path ++ "." ++ key) = dotted (path ++ [key]) := by
  by_cases hpath : path = []
  · rw [hpath]
    simp [dotted]
  · rw [dotted_snoc hpath, if_neg]
    rw [String.isEmpty_iff]
    exact dotted_ne_empty hpath hkeys

/-- A path that passes passes up to any of its keys. -/
theorem valid_of_append {path rest : List String} (h : validName (dotted (path ++ rest)) = true) :
    validName (dotted path) = true := by
  by_cases hpath : path = []
  · rw [hpath]
    rfl
  · by_cases hrest : rest = []
    · rwa [hrest, List.append_nil] at h
    · rw [dotted, String.intercalate_append_of_ne_nil hpath hrest] at h
      simp only [validName, String.toList_append, List.all_append, Bool.and_eq_true] at h
      exact h.1.1

mutual

/-- The keys that lead to a node come first, and others follow. -/
theorem path_descendants (path : List String) (node : Node) :
    ∀ m ∈ node.descendants path, ∃ key rest, m.1 = path ++ key :: rest := by
  cases node with
  | map entries => exact path_entryDescendants path entries
  | _ => nofun

theorem path_entryDescendants (path : List String) (entries : List (String × Node)) :
    ∀ m ∈ entryDescendants path entries, ∃ key rest, m.1 = path ++ key :: rest := by
  cases entries with
  | nil => nofun
  | cons entry rest =>
    intro m hm
    rcases List.mem_cons.mp hm with rfl | hm
    · exact ⟨entry.1, [], rfl⟩
    · rcases List.mem_append.mp hm with hm | hm
      · obtain ⟨key, below, hbelow⟩ := path_descendants (path ++ [entry.1]) entry.2 m hm
        exact ⟨entry.1, key :: below, by rw [hbelow, List.append_assoc]; rfl⟩
      · exact path_entryDescendants path rest m hm

end

/-! ### What is listed -/

mutual

/-- `ListAllMember` lists the nodes whose paths pass. -/
theorem listAllMember_eq {path : List String} (hpath : Keyed path) (node : Node)
    (hkeys : ∀ m ∈ node.descendants path, Keyed m.1) :
    listAllMember (dotted path) node = (((path, node) :: node.descendants path).filter fun m =>
      validName (dotted m.1)).map fun m => (dotted m.1, m.2) := by
  unfold listAllMember
  cases hvalid : validName (dotted path) with
  | false =>
    have hnone : (node.descendants path).filter (fun m => validName (dotted m.1)) = [] := by
      refine List.filter_eq_nil_iff.mpr fun m hm hpass => ?_
      obtain ⟨key, rest, hrest⟩ := path_descendants path node m hm
      rw [hrest] at hpass
      rw [valid_of_append hpass] at hvalid
      cases hvalid
    simp [hvalid, hnone]
  | true =>
    cases node with
    | map entries =>
      rw [Node.descendants, List.filter_cons_of_pos (by exact hvalid), List.map_cons,
        ← listEntries_eq hpath entries hkeys]
      rfl
    | _ => simp [hvalid, Node.descendants]

theorem listEntries_eq {path : List String} (hpath : Keyed path) (entries : List (String × Node))
    (hkeys : ∀ m ∈ entryDescendants path entries, Keyed m.1) :
    listEntries (dotted path) entries = ((entryDescendants path entries).filter fun m =>
      validName (dotted m.1)).map fun m => (dotted m.1, m.2) := by
  cases entries with
  | nil => rfl
  | cons entry rest =>
    obtain ⟨key, child⟩ := entry
    rw [entryDescendants, List.forall_mem_cons, List.forall_mem_append] at hkeys
    obtain ⟨hchild, hbelow, hrest⟩ := hkeys
    rw [listEntries, dotted_child hpath, listAllMember_eq hchild child hbelow,
      listEntries_eq hpath rest hrest, entryDescendants, ← List.map_append, ← List.filter_append]
    rfl

end

/-- What is left out of a list is missed unless it counts for nothing. -/
theorem filterMap_filter_iff {α β : Type} {p : α → Bool} {f : α → Option β} {l : List α} :
    (l.filter p).filterMap f = l.filterMap f ↔ ∀ a ∈ l, (f a).isSome = true → p a = true := by
  induction l with
  | nil => exact iff_of_true rfl nofun
  | cons a rest ih =>
    rw [List.forall_mem_cons, ← ih]
    cases hp : p a with
    | true =>
      rw [List.filter_cons_of_pos hp]
      cases hf : f a <;> simp [hf]
    | false =>
      rw [List.filter_cons_of_neg (by simp [hp])]
      cases hf : f a with
      | none => simp [hf]
      | some b =>
        have hshort := (List.filter_sublist (p := p) (l := rest)).filterMap f |>.length_le
        refine iff_of_false (fun heq => ?_) (by simp)
        rw [heq, List.filterMap_cons_some hf, List.length_cons] at hshort
        omega

variable {κ : Type} (emit : Node → String) (d : Datas κ)

/-- The text for the variable that a node is for, if there is one: its name is the path in lower
case. -/
def setting (m : List String × Node) : Option (String × String) :=
  if (d.find (lower (dotted m.1))).isSome then some (lower (dotted m.1), m.2.text emit) else none

/-- Each node that is not the root is delivered to the variable it is for, in the order of the
document, and nothing else is. -/
def Delivers (root : Node) : Prop :=
  (loadFromYaml emit d root).map (fun call => (call.1.name, call.2)) =
    (root.descendants []).filterMap (setting emit d)

/-- What `LoadFromYaml` delivers. -/
theorem loadFromYaml_eq {root : Node} (hkeys : ∀ m ∈ root.descendants [], Keyed m.1) :
    (loadFromYaml emit d root).map (fun call => (call.1.name, call.2)) =
      ((root.descendants []).filter fun m => validName (dotted m.1)).filterMap (setting emit d) := by
  have hroot : dotted [] = "" := String.intercalate_nil
  have hnil : Keyed [] := nofun
  have hlist := listAllMember_eq hnil root hkeys
  rw [List.filter_cons_of_pos (by rw [hroot]; rfl), List.map_cons, hroot] at hlist
  rw [loadFromYaml, hlist, List.map_filterMap, List.filterMap_cons, List.filterMap_map]
  refine List.filterMap_congr fun m hm => ?_
  have hm := (List.mem_filter.mp hm).1
  obtain ⟨key, rest, hpath⟩ := path_descendants [] root m hm
  have hkey : dotted m.1 ≠ "" := dotted_ne_empty (by rw [hpath]; exact List.cons_ne_nil _ _) (hkeys m hm)
  cases hfind : d.find (lower (dotted m.1)) with
  | none => simp [setting, Datas.lookupBase, hkey, hfind]
  | some var => simp [setting, Datas.lookupBase, hkey, hfind, d.named _ _ hfind]

/-- No letter of a path that is for a variable is in upper case. -/
def LowerCase (root : Node) : Prop :=
  ∀ m ∈ root.descendants [], (d.find (lower (dotted m.1))).isSome = true →
    ∀ c ∈ (dotted m.1).toList, c.isUpper = false

/-- A path that is for a variable passes if no letter is in upper case, and only then. -/
theorem valid_iff {path : List String} (h : (d.find (lower (dotted path))).isSome = true) :
    validName (dotted path) = true ↔ ∀ c ∈ (dotted path).toList, c.isUpper = false := by
  constructor
  · exact not_isUpper_of_valid
  · intro hcase
    obtain ⟨var, hvar⟩ := Option.isSome_iff_exists.mp h
    rw [← lower_of_not_isUpper hcase]
    exact d.valid _ _ hvar

/-- **Loading a document.** For every tree of maps whose keys are not empty, and all registered
variables, `LoadFromYaml` delivers exactly the values of the document if and only if no path
of a value that is for a variable has an upper-case letter. -/
theorem loadFromYaml_iff (root : Node) (hkeys : ∀ m ∈ root.descendants [], Keyed m.1) :
    Delivers emit d root ↔ LowerCase d root := by
  rw [Delivers, loadFromYaml_eq emit d hkeys, filterMap_filter_iff]
  refine forall_congr' fun m => forall_congr' fun _ => ?_
  have hsome : (setting emit d m).isSome = (d.find (lower (dotted m.1))).isSome := by
    unfold setting
    split <;> simp_all
  rw [hsome]
  exact forall_congr' fun h => valid_iff d h

instance (path : List String) : Decidable (Keyed path) :=
  inferInstanceAs (Decidable (∀ key ∈ path, key ≠ ""))

instance (root : Node) : Decidable (Delivers emit d root) :=
  inferInstanceAs (Decidable ((loadFromYaml emit d root).map (fun call => (call.1.name, call.2)) =
    (root.descendants []).filterMap (setting emit d)))

/-- `server.port` and `server.log`. -/
def serverDatas : Datas Unit :=
  (Datas.empty.insert "server.port" "" () (by decide)).insert "server.log" "" () (by decide)

/-- A name, which is no variable, and a map with a port and a log. -/
def serverRoot (server : String) : Node :=
  .map [("name", .null), (server, .map [("port", .scalar "80"), ("log", .seq [.scalar "a"])])]

theorem loadFromYaml_iff_server :
    Delivers (fun _ => "- a") serverDatas (serverRoot "server") ∧
    ((loadFromYaml (fun _ => "- a") serverDatas (serverRoot "server")).map fun call =>
      (call.1.name, call.2)) = [("server.port", "80"), ("server.log", "- a")] := by
  have hvalid : ∀ m ∈ (serverRoot "server").descendants [], validName (dotted m.1) = true := by decide
  exact ⟨(loadFromYaml_iff _ _ _ (by decide)).mpr fun m hm _ => not_isUpper_of_valid (hvalid m hm),
    by decide⟩

/-- With a capital the port is skipped. -/
theorem loadFromYaml_capital :
    (loadFromYaml (fun _ => "- a") serverDatas (serverRoot "Server")).map Prod.snd = [] ∧
    ¬ Delivers (fun _ => "- a") serverDatas (serverRoot "Server") :=
  ⟨rfl, by decide⟩

end ShioSylar.Config
