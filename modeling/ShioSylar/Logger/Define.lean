import ShioSylar.Lib.Yaml
import ShioSylar.Logger.Pattern

/-! Definitions of loggers, and their texts (`LogDefine` of `logger.cc`).

`encode` leaves out what has its default, and `decode` gives the default to what is not there.
An appender's level is written and never read. -/
namespace ShioSylar.Log
open Lib

structure LogAppenderDefine where
  /-- 1 is `FileLogAppender`, 2 is `StdOutLogAppender`. -/
  type : Int := 0
  level : LogLevel := .unknow
  formatter : String := ""
  file : String := ""
  deriving DecidableEq

structure LogDefine where
  name : String := ""
  level : LogLevel := .unknow
  formatter : String := ""
  appenders : List LogAppenderDefine := []
  deriving DecidableEq

namespace LogDefine

variable (y : Yaml)

/-! ### The text of a definition -/

/-- The fields that are set, each with the condition it is set under. -/
def entries (fs : List (Bool × String × y.Node)) : List (String × y.Node) :=
  (fs.filter (·.1)).map (·.2)

/-- The node that fields have been set in. -/
def fields (fs : List (Bool × String × y.Node)) : y.Node :=
  y.build (if (entries y fs).isEmpty then .null else .map (entries y fs))

def str (s : String) : y.Node := y.build (.scalar s)

def appenderFields (a : LogAppenderDefine) : List (Bool × String × y.Node) := [
  (a.type == 1 || a.type == 2, "type", str y (if a.type = 1 then "FileLogAppender" else "StdoutLogAppender")),
  (a.type == 1, "file", str y a.file),
  (a.level != .unknow, "level", str y a.level.toString),
  (a.formatter != "", "formatter", str y a.formatter)]

def appenderNode (a : LogAppenderDefine) : y.Node := fields y (appenderFields y a)

def defineFields (i : LogDefine) : List (Bool × String × y.Node) := [
  (true, "name", str y i.name),
  (i.level != .unknow, "level", str y i.level.toString),
  (i.formatter != "", "formatter", str y i.formatter),
  (!i.appenders.isEmpty, "appenders", y.build (.seq (i.appenders.map (appenderNode y))))]

def node (i : LogDefine) : y.Node := fields y (defineFields y i)

/-- `LexicalCast<LogDefine, std::string>`. -/
def encode (i : LogDefine) : String := y.emit (node y i)

/-! ### The definition in a text -/

/-- The body of the loop over the appenders, where the inner `none` is `continue`. -/
def appender (a : y.Node) : Option (Option LogAppenderDefine) := do
  let some type ← y.fieldText a "type" | return none
  if type = "FileLogAppender" then
    let some file ← y.fieldText a "file" | return none
    let formatter ← y.fieldText a "formatter"
    return some { type := 1, file := file, formatter := formatter.getD "" }
  else if type = "StdoutLogAppender" then
    let formatter ← y.fieldText a "formatter"
    return some { type := 2, formatter := formatter.getD "" }
  else return none

def ofNode (n : y.Node) : Option LogDefine := do
  let some name ← y.fieldText n "name" | none
  let level ← y.fieldText n "level"
  let formatter ← y.fieldText n "formatter"
  let appenders ← y.field n "appenders"
  -- an undefined element has no type
  let nodes := ((appenders.map y.items).getD []).filterMap id
  let appenders ← nodes.mapM (appender y)
  return ⟨name, .fromString (level.getD ""), formatter.getD "", appenders.filterMap id⟩

/-- `LexicalCast<std::string, LogDefine>`. -/
def decode (v : String) : Option LogDefine := (y.load v).bind (ofNode y)

/-! ### What a definition's node says -/

variable {y}

/-- A field is there if its condition holds. -/
theorem lookup_entries {fs : List (Bool × String × y.Node)} (hd : (fs.map (·.2.1)).Nodup) {c : Bool}
    {key : String} {n : y.Node} (hmem : (c, key, n) ∈ fs) :
    (entries y fs).lookup key = if c = true then some n else none := by
  induction fs with
  | nil => cases hmem
  | cons f rest ih =>
    rw [List.map_cons, List.nodup_cons] at hd
    obtain ⟨d, k, m⟩ := f
    have hcons : (entries y ((d, k, m) :: rest)).lookup key =
        if (d && key == k) = true then some m else (entries y rest).lookup key := by
      cases d with
      | false => rfl
      | true =>
        show List.lookup key ((k, m) :: entries y rest) = _
        rw [List.lookup_cons]
        cases key == k <;> rfl
    rw [hcons]
    obtain heq | hrest := List.mem_cons.mp hmem
    · cases heq
      cases c with
      | true => simp
      | false =>
        have hnone : (entries y rest).lookup key = none := by
          rw [List.lookup_eq_none_iff]
          intro p hp
          obtain ⟨g, hg, rfl⟩ := List.mem_map.mp hp
          have hne : key ≠ g.2.1 := fun heq =>
            hd.1 (List.mem_map.mpr ⟨g, List.mem_of_mem_filter hg, heq.symm⟩)
          simpa using hne
        simp [hnone]
    · have hne : key ≠ k := fun heq => hd.1 (List.mem_map.mpr ⟨_, hrest, heq⟩)
      rw [ih hd.2 hrest]
      simp [hne]

theorem entries_nodup {fs : List (Bool × String × y.Node)} (hd : (fs.map (·.2.1)).Nodup) :
    ((entries y fs).map Prod.fst).Nodup := by
  have hsub : ((entries y fs).map Prod.fst).Sublist (fs.map (·.2.1)) := by
    rw [entries, List.map_map]
    exact List.Sublist.map _ List.filter_sublist
  exact hsub.nodup hd

section
variable (h : y.Lawful)
include h

theorem field_fields {fs : List (Bool × String × y.Node)} (hd : (fs.map (·.2.1)).Nodup) {c : Bool}
    {key : String} {n : y.Node} (hmem : (c, key, n) ∈ fs) :
    y.field (fields y fs) key = some (if c = true then some n else none) := by
  rw [← lookup_entries hd hmem, fields, Yaml.field]
  cases hes : entries y fs with
  | nil =>
    rw [if_pos List.isEmpty_nil, h.view_build .null trivial]
    rfl
  | cons p rest =>
    have hkeys := entries_nodup hd
    rw [hes] at hkeys
    rw [if_neg (by simp), h.view_build (.map (p :: rest)) hkeys]
    rfl

theorem fieldText_fields {fs : List (Bool × String × y.Node)} (hd : (fs.map (·.2.1)).Nodup) {c : Bool}
    {key s : String} (hmem : (c, key, str y s) ∈ fs) :
    y.fieldText (fields y fs) key = some (if c = true then some s else none) := by
  rw [Yaml.fieldText, field_fields h hd hmem]
  cases c with
  | false => rfl
  | true =>
    show (y.asString (y.build (.scalar s))).map some = _
    rw [h.asString_scalar]
    rfl

omit h in
/-- What is left out when it is empty is read as empty. -/
@[simp] theorem getD_nonempty (s : String) : (if s = "" then none else some s).getD "" = s := by
  by_cases hs : s = ""
  · rw [if_pos hs, hs]
    rfl
  · rw [if_neg hs]
    rfl

omit h in
/-- A level that is left out is read as the one it was left out for. -/
@[simp] theorem fromString_getD (level : LogLevel) :
    LogLevel.fromString ((if level = .unknow then none else some level.toString).getD "") = level := by
  by_cases hl : level = .unknow
  · rw [if_pos hl, hl]
    rfl
  · rw [if_neg hl]
    exact level.fromString_toString

/-- What `decode` makes of the node of an appender: the level is lost. -/
theorem appender_node (a : LogAppenderDefine) (ha : a.type = 1 ∨ a.type = 2 ∧ a.file = "") :
    appender y (appenderNode y a) = some (some { a with level := .unknow }) := by
  have hread : ∀ {c key s}, (c, key, str y s) ∈ appenderFields y a →
      y.fieldText (fields y (appenderFields y a)) key = some (if c = true then some s else none) :=
    fun hmem => fieldText_fields h (by simp [appenderFields]) hmem
  have htype := hread (List.mem_cons_self ..)
  have hfile := hread (List.mem_cons_of_mem _ (List.mem_cons_self ..))
  have hformatter := hread (List.mem_cons_of_mem _ (List.mem_cons_of_mem _
    (List.mem_cons_of_mem _ (List.mem_cons_self ..))))
  obtain ⟨type, level, formatter, file⟩ := a
  unfold appender appenderNode
  rw [htype, hfile, hformatter]
  obtain h1 | ⟨h2, hnofile⟩ := ha
  · cases h1
    simp [getD_nonempty]
  · cases h2
    cases hnofile
    simp [getD_nonempty]

/-- `decode` cannot tell the node of an appender from one that is written the same way. -/
theorem appender_same {a b : y.Node} (hab : y.Same a b) : appender y a = appender y b := by
  unfold appender
  rw [h.fieldText_same hab, h.fieldText_same hab, h.fieldText_same hab]

theorem mapM_appenderNode (as : List LogAppenderDefine)
    (has : ∀ a ∈ as, a.type = 1 ∨ a.type = 2 ∧ a.file = "") :
    (as.map (appenderNode y)).mapM (appender y) = some (as.map fun a => some { a with level := .unknow }) := by
  induction as with
  | nil => rfl
  | cons a rest ih =>
    rw [List.map_cons, List.mapM_cons, appender_node h a (has a (List.mem_cons_self ..)),
      ih fun b hb => has b (List.mem_cons_of_mem a hb)]
    rfl

theorem view_appenders (i : LogDefine) : y.view (y.build (.seq (i.appenders.map (appenderNode y)))) =
    .seq (i.appenders.map (appenderNode y)) :=
  h.view_build (.seq _) trivial

/-- The loop over the appenders, on a node that is written as the definition's. -/
theorem appenders_node (i : LogDefine) (hi : ∀ a ∈ i.appenders, a.type = 1 ∨ a.type = 2 ∧ a.file = "")
    {m : y.Node} (hm : y.Same m (node y i)) : ∃ c?, y.field m "appenders" = some c? ∧
      (((c?.map y.items).getD []).filterMap id).mapM (appender y) =
        some (i.appenders.map fun a => some { a with level := .unknow }) := by
  have hfield := h.field_same hm "appenders"
  have hd : ((defineFields y i).map (·.2.1)).Nodup := by simp [defineFields]
  rw [node, field_fields h hd (List.mem_cons_of_mem _
    (List.mem_cons_of_mem _ (List.mem_cons_of_mem _ (List.mem_cons_self ..))))] at hfield
  obtain ⟨c?, hc, hsame⟩ := Option.map_eq_some_iff.mp hfield
  refine ⟨c?, hc, ?_⟩
  cases happ : i.appenders with
  | nil =>
    rw [happ] at hsame
    rw [Option.map_eq_none_iff.mp hsame]
    rfl
  | cons a rest =>
    rw [← happ]
    rw [if_pos (by rw [happ]; rfl)] at hsame
    obtain ⟨c, rfl, hcs⟩ := Option.map_eq_some_iff.mp hsame
    obtain ⟨as, hview, hemit⟩ := h.view_seq hcs (view_appenders h i)
    have hitems : (((some c).map y.items).getD []).filterMap id = as := by
      show (y.items c).filterMap id = as
      rw [Yaml.items, hview]
      simp
    rw [hitems, Yaml.mapM_same (fun a b hab => appender_same h hab) hemit]
    exact mapM_appenderNode h i.appenders hi

/-- What `decode` makes of the node of a definition, and of one that is written the same way. -/
theorem ofNode_node (i : LogDefine) (hi : ∀ a ∈ i.appenders, a.type = 1 ∨ a.type = 2 ∧ a.file = "")
    {m : y.Node} (hm : y.Same m (node y i)) : ofNode y m =
      some { i with appenders := i.appenders.map fun a => { a with level := .unknow } } := by
  have hread : ∀ {c key s}, (c, key, str y s) ∈ defineFields y i →
      y.fieldText (fields y (defineFields y i)) key = some (if c = true then some s else none) :=
    fun hmem => fieldText_fields h (by simp [defineFields]) hmem
  have hname := hread (List.mem_cons_self ..)
  have hlevel := hread (List.mem_cons_of_mem _ (List.mem_cons_self ..))
  have hformatter := hread (List.mem_cons_of_mem _ (List.mem_cons_of_mem _ (List.mem_cons_self ..)))
  obtain ⟨c?, hfield, hloop⟩ := appenders_node h i hi hm
  unfold ofNode
  rw [h.fieldText_same hm, h.fieldText_same hm, h.fieldText_same hm, node, hname, hlevel, hformatter, hfield]
  simp only [if_true, Option.bind_eq_bind, Option.bind_some, hloop]
  simp

/-- A definition comes back without the levels of its appenders. -/
theorem decode_encode (i : LogDefine) (hi : ∀ a ∈ i.appenders, a.type = 1 ∨ a.type = 2 ∧ a.file = "") :
    decode y (encode y i) =
      some { i with appenders := i.appenders.map fun a => { a with level := .unknow } } := by
  have hnode := ofNode_node h i hi (m := node y i) rfl
  rw [decode, encode, h.load_emit_bind fun m hm => (ofNode_node h i hi hm).trans hnode.symm, hnode]

/-- **Round trip.** Of a definition whose appenders are of the two types, and only files have a
file name, everything comes back if and only if no appender has a level. -/
theorem decode_encode_iff (i : LogDefine) (hi : ∀ a ∈ i.appenders, a.type = 1 ∨ a.type = 2 ∧ a.file = "") :
    decode y (encode y i) = some i ↔ ∀ a ∈ i.appenders, a.level = .unknow := by
  rw [decode_encode h i hi]
  constructor
  · intro heq a ha
    have happ : (i.appenders.map fun a => { a with level := .unknow }) = i.appenders :=
      congrArg LogDefine.appenders (Option.some.inj heq)
    obtain ⟨k, hk, rfl⟩ := List.getElem_of_mem ha
    have hget := List.getElem_of_eq happ (by simpa using hk)
    rw [List.getElem_map] at hget
    rw [← hget]
  · intro hall
    have happ : (i.appenders.map fun a => { a with level := .unknow }) = i.appenders := by
      conv_rhs => rw [← List.map_id i.appenders]
      apply List.map_congr_left
      intro a ha
      show { a with level := .unknow } = a
      rw [← hall a ha]
    rw [happ]

end

/-- The texts of two definitions. -/
def texts : List (Tree × String) := [
  (.entry "name" (.scalar "system") (.entry "level" (.scalar "INFO") (.entry "appenders"
    (.cons (.entry "type" (.scalar "StdoutLogAppender") (.entry "formatter" (.scalar "%m%n") .empty)) .nil)
    .empty)),
    "name: system\nlevel: INFO\nappenders:\n  - type: StdoutLogAppender\n    formatter: \"%m%n\""),
  (.entry "name" (.scalar "system") (.entry "appenders"
    (.cons (.entry "type" (.scalar "StdoutLogAppender") (.entry "level" (.scalar "INFO") .empty)) .nil)
    .empty),
    "name: system\nappenders:\n  - type: StdoutLogAppender\n    level: INFO")]

/-- A definition whose appender has a formatter. -/
theorem decode_encode_iff_system :
    decode (.ofTexts texts) (encode (.ofTexts texts) ⟨"system", .info, "", [⟨2, .unknow, "%m%n", ""⟩]⟩) =
      some ⟨"system", .info, "", [⟨2, .unknow, "%m%n", ""⟩]⟩ :=
  (decode_encode_iff (Yaml.ofTexts_lawful (by decide)) _ (by decide)).mpr (by decide)

/-- The level of an appender is in the text and does not come back. -/
theorem level_lost :
    (Yaml.ofTexts texts).Lawful ∧
      encode (.ofTexts texts) ⟨"system", .unknow, "", [⟨2, .info, "", ""⟩]⟩ =
        "name: system\nappenders:\n  - type: StdoutLogAppender\n    level: INFO" ∧
      decode (.ofTexts texts) (encode (.ofTexts texts) ⟨"system", .unknow, "", [⟨2, .info, "", ""⟩]⟩) =
        some ⟨"system", .unknow, "", [⟨2, .unknow, "", ""⟩]⟩ :=
  have h := Yaml.ofTexts_lawful (by decide)
  ⟨h, rfl, decode_encode h _ (by decide)⟩

end LogDefine

end ShioSylar.Log
