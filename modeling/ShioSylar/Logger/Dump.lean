import ShioSylar.Config.Codec
import ShioSylar.Logger.Reload

/-! The text of all loggers, and what a program makes of it that reads it as its `logs`
(`toYamlString` of `logger.cc`).

What `LoggerManager::toYamlString` writes can be read by the `LexicalCast` of `g_log_defines`.
Reading it gives back every logger but for the levels of the appenders, which are written and never
read, and for empty patterns, which count as none (`dump_load`). -/
namespace ShioSylar.Log
open Lib LogDefine

/-! ### What is written -/

def AppenderKind.typeName : AppenderKind → String
  | .stdout => "StdoutLogAppender"
  | .file _ => "FileLogAppender"

def AppenderKind.filename : AppenderKind → Option String
  | .stdout => none
  | .file filename => some filename

namespace AppenderConfig

variable (y : Yaml)

def yamlFields (c : AppenderConfig) : List (Bool × String × y.Node) := [
  (true, "type", str y c.kind.typeName),
  (c.kind.filename.isSome, "file", str y (c.kind.filename.getD "")),
  (c.level != .unknow, "level", str y c.level.toString),
  (c.formatter.isSome, "formatter", str y (c.formatter.getD ""))]

/-- `toYamlString` of the two appenders. -/
def toYamlString (c : AppenderConfig) : String := y.emit (fields y (yamlFields y c))

/-- What its text is read as. -/
def define (c : AppenderConfig) : LogAppenderDefine where
  type := if c.kind.filename.isSome then 1 else 2
  level := .unknow
  formatter := c.formatter.getD ""
  file := c.kind.filename.getD ""

end AppenderConfig

namespace LoggerConfig

variable (y : Yaml)

def yamlFields (c : LoggerConfig) (name : String) (nodes : List y.Node) : List (Bool × String × y.Node) := [
  (true, "name", str y name),
  (c.level != .unknow, "level", str y c.level.toString),
  (c.formatter.isSome, "formatter", str y (c.formatter.getD "")),
  (!nodes.isEmpty, "appenders", y.build (.seq nodes))]

/-- `Logger::toYamlString`. -/
def toYamlString (c : LoggerConfig) (name : String) : Option String :=
  (c.appenders.mapM fun a => y.load (a.toYamlString y)).map fun nodes =>
    y.emit (fields y (yamlFields y c name nodes))

def define (c : LoggerConfig) (name : String) : LogDefine where
  name := name
  level := c.level
  formatter := c.formatter.getD ""
  appenders := c.appenders.map AppenderConfig.define

end LoggerConfig

/-! ### The loggers that are there -/

/-- `LoggerManager`, and `g_log_defines`. -/
structure LoggerManager where
  /-- The keys of `l_loggers`. -/
  names : List String
  defines : Defines

namespace LoggerManager

def less (a b : String) : Bool := a < b

def init : LoggerManager := ⟨["root"], initial⟩

def config (m : LoggerManager) : String → LoggerConfig := m.defines.manager.log.config

def getLogger (m : LoggerManager) (name : String) : LoggerManager :=
  { m with names := (OrderedSet.insert less name m.names).1 }

def setManager (m : LoggerManager) (manager : Manager) : LoggerManager :=
  { m with defines := { m.defines with manager := manager } }

/-- The loggers that the listener of `LogIniter` gets. -/
def visited (old new : LogDefines) : List String :=
  ((new.elems.filter fun i => !(old.find i).any i.eq) ++
    old.elems.filter fun i => (new.find i).isNone).map LogDefine.name

inductive Act where
  | getLogger (name : String)
  /-- `g_log_defines->setValue`. -/
  | setValue (v : LogDefines)
  | setLevel (name : String) (level : LogLevel)
  | setFormatter (name val : String)
  | clearAppenders (name : String)
  /-- `addAppender` with a new appender, set up as the listener does it. -/
  | addAppender (name : String) (a : LogAppenderDefine)

/-- One call; that of a logger's function is of a logger that is there. -/
def step (m : LoggerManager) : Act → Option LoggerManager
  | .getLogger name => some (m.getLogger name)
  | .setValue v => (Log.setValue m.defines v).map fun defines =>
    let names := if v.eq m.defines.value then [] else visited m.defines.value v
    { names.foldl getLogger m with defines := defines }
  | .setLevel name level =>
    let manager := m.defines.manager
    if name ∈ m.names then some (m.setManager { manager with log := manager.log.setLevel name level }) else none
  | .setFormatter name val =>
    let manager := m.defines.manager
    if name ∈ m.names then some (m.setManager { manager with log := manager.log.setPattern name val }) else none
  | .clearAppenders name =>
    let manager := m.defines.manager
    if name ∈ m.names then some (m.setManager { manager with log := manager.log.clearAppenders name }) else none
  | .addAppender name a =>
    if name ∈ m.names then (m.defines.manager.attach name a).map m.setManager else none

/-- `LoggerManager::toYamlString`. -/
def toYamlString (y : Yaml) (m : LoggerManager) : Option String :=
  (m.names.mapM fun name => ((m.config name).toYamlString y name).bind y.load).map fun nodes =>
    y.emit (y.build (if nodes.isEmpty then .null else .seq nodes))

/-- `LexicalCast<std::string, std::set<LogDefine> >`. -/
def readDefines (y : Yaml) (s : String) : Option (List LogDefine) :=
  (Config.Codec.readSeq y ⟨fun i => some (encode y i), decode y⟩ s).map (OrderedSet.insertAll LogDefine.less)

end LoggerManager

/-! ### What is read -/

section
variable {y : Yaml} (h : y.Lawful)
include h

theorem appender_yaml (c : AppenderConfig) :
    appender y (fields y (c.yamlFields y)) = some (some c.define) := by
  have hread : ∀ {d key s}, (d, key, str y s) ∈ c.yamlFields y →
      y.fieldText (fields y (c.yamlFields y)) key = some (if d = true then some s else none) :=
    fun hmem => fieldText_fields h (by simp [AppenderConfig.yamlFields]) hmem
  have htype := hread (List.mem_cons_self ..)
  have hfile := hread (List.mem_cons_of_mem _ (List.mem_cons_self ..))
  have hformatter := hread (List.mem_cons_of_mem _ (List.mem_cons_of_mem _
    (List.mem_cons_of_mem _ (List.mem_cons_self ..))))
  obtain ⟨kind, level, formatter⟩ := c
  unfold appender
  rw [htype, hfile, hformatter]
  cases kind with
  | stdout => cases formatter <;> simp [AppenderKind.typeName, AppenderKind.filename, AppenderConfig.define]
  | file filename => cases formatter <;> simp [AppenderKind.typeName, AppenderKind.filename, AppenderConfig.define]

/-- The nodes of the appenders are loaded, and read as what the appenders are. -/
theorem appenders_yaml (cs : List AppenderConfig) : ∃ nodes,
    (cs.mapM fun a => y.load (a.toYamlString y)) = some nodes ∧
      nodes.mapM (appender y) = some (cs.map fun c => some c.define) := by
  induction cs with
  | nil => exact ⟨[], rfl, rfl⟩
  | cons c rest ih =>
    obtain ⟨nodes, hnodes, hread⟩ := ih
    obtain ⟨n, hn, hsame, -⟩ := h.load_emit (fields y (c.yamlFields y))
    refine ⟨n :: nodes, ?_, ?_⟩
    · rw [List.mapM_cons, show y.load (c.toYamlString y) = some n from hn, hnodes]
      rfl
    · rw [List.mapM_cons, appender_same h hsame, appender_yaml h c, hread]
      rfl

/-- The node of a logger, and one that is written the same way, is read as what the logger is. -/
theorem ofNode_yaml (c : LoggerConfig) (name : String) {nodes : List y.Node}
    (hnodes : nodes.mapM (appender y) = some (c.appenders.map fun c => some c.define)) {m : y.Node}
    (hm : y.Same m (fields y (c.yamlFields y name nodes))) : ofNode y m = some (c.define name) := by
  have hd : ((c.yamlFields y name nodes).map (·.2.1)).Nodup := by simp [LoggerConfig.yamlFields]
  have hread : ∀ {d key s}, (d, key, str y s) ∈ c.yamlFields y name nodes →
      y.fieldText (fields y (c.yamlFields y name nodes)) key = some (if d = true then some s else none) :=
    fun hmem => fieldText_fields h hd hmem
  have hname := hread (List.mem_cons_self ..)
  have hlevel := hread (List.mem_cons_of_mem _ (List.mem_cons_self ..))
  have hformatter := hread (List.mem_cons_of_mem _ (List.mem_cons_of_mem _ (List.mem_cons_self ..)))
  -- the loop over the appenders
  obtain ⟨c?, hfield, hloop⟩ : ∃ c?, y.field m "appenders" = some c? ∧
      (((c?.map y.items).getD []).filterMap id).mapM (appender y) =
        some (c.appenders.map fun c => some c.define) := by
    have hfield := h.field_same hm "appenders"
    rw [field_fields h hd (List.mem_cons_of_mem _
      (List.mem_cons_of_mem _ (List.mem_cons_of_mem _ (List.mem_cons_self ..))))] at hfield
    obtain ⟨c?, hc, hsame⟩ := Option.map_eq_some_iff.mp hfield
    refine ⟨c?, hc, ?_⟩
    cases hempty : nodes with
    | nil =>
      rw [hempty] at hsame hnodes
      rw [Option.map_eq_none_iff.mp hsame]
      exact hnodes
    | cons n rest =>
      rw [if_pos (by rw [hempty]; rfl)] at hsame
      obtain ⟨c, rfl, hcs⟩ := Option.map_eq_some_iff.mp hsame
      obtain ⟨as, hview, hemit⟩ := h.view_seq hcs (h.view_build (.seq nodes) trivial)
      have hitems : (((some c).map y.items).getD []).filterMap id = as := by
        show (y.items c).filterMap id = as
        rw [Yaml.items, hview]
        simp
      rw [hitems, Yaml.mapM_same (fun a b hab => appender_same h hab) hemit]
      exact hnodes
  unfold ofNode
  rw [h.fieldText_same hm, h.fieldText_same hm, h.fieldText_same hm, hname, hlevel, hformatter, hfield]
  simp only [if_true, Option.bind_eq_bind, Option.bind_some, hloop]
  cases hf : c.formatter <;> simp [LoggerConfig.define, hf]

/-- A logger's text is loaded, written back as it is, and read as what the logger is. -/
theorem logger_yaml (c : LoggerConfig) (name : String) : ∃ n,
    (c.toYamlString y name).bind y.load = some n ∧ decode y (y.emit n) = some (c.define name) := by
  obtain ⟨nodes, hnodes, hread⟩ := appenders_yaml h c.appenders
  obtain ⟨n, hn, hsame, -⟩ := h.load_emit (fields y (c.yamlFields y name nodes))
  have htext : c.toYamlString y name = some (y.emit (fields y (c.yamlFields y name nodes))) := by
    unfold LoggerConfig.toYamlString
    rw [hnodes]
    rfl
  refine ⟨n, by rw [htext]; exact hn, ?_⟩
  rw [show y.emit n = _ from hsame, decode, hn]
  exact ofNode_yaml h c name hread hsame

/-- The text of all loggers is read as what they are. -/
theorem read_yaml (m : LoggerManager) (hs : OrderedSet.Sorted LoggerManager.less m.names) (hne : m.names ≠ []) :
    ∃ text, m.toYamlString y = some text ∧
      LoggerManager.readDefines y text = some (m.names.map fun name => (m.config name).define name) := by
  have hnodes : ∀ names : List String, ∃ nodes,
      (names.mapM fun name => ((m.config name).toYamlString y name).bind y.load) = some nodes ∧
        nodes.length = names.length ∧
        (nodes.mapM fun n => decode y (y.emit n)) = some (names.map fun name => (m.config name).define name) := by
    intro names
    induction names with
    | nil => exact ⟨[], rfl, rfl, rfl⟩
    | cons name rest ih =>
      obtain ⟨nodes, hnodes, hlen, hread⟩ := ih
      obtain ⟨n, hn, hdecode⟩ := logger_yaml h (m.config name) name
      refine ⟨n :: nodes, ?_, by simp [hlen], ?_⟩
      · rw [List.mapM_cons, hn, hnodes]
        rfl
      · rw [List.mapM_cons, hdecode, hread]
        rfl
  obtain ⟨nodes, hnodes, hlen, hread⟩ := hnodes m.names
  have hnonempty : nodes.isEmpty = false := by
    cases hn : nodes with
    | nil =>
      rw [hn] at hlen
      exact absurd (List.eq_nil_of_length_eq_zero hlen.symm) hne
    | cons n rest => rfl
  refine ⟨y.emit (y.build (.seq nodes)), ?_, ?_⟩
  · unfold LoggerManager.toYamlString
    rw [hnodes, Option.map_some, if_neg (by simp [hnonempty])]
  · unfold LoggerManager.readDefines
    rw [Config.Codec.readSeq_emit h, hread]
    refine congrArg some (OrderedSet.insertAll_of_sorted ?_)
    exact List.Pairwise.map _ (fun a b hab => hab) hs

end

/-! ### Every reachable state -/

/-- No formatter has an error. -/
structure LoggerConfig.Usable (c : LoggerConfig) : Prop where
  formatter : ∃ p, c.formatter = some p ∧ (LogFormatter.mk p).isError = false
  appender : ∀ a ∈ c.appenders, ∀ p, a.formatter = some p → (LogFormatter.mk p).isError = false

namespace LoggerManager

theorem less_strict : OrderedSet.StrictOrder less where
  irrefl a := decide_eq_false (lt_irrefl a)
  trans _ _ _ hab hbc := decide_eq_true (lt_trans (of_decide_eq_true hab) (of_decide_eq_true hbc))
  total _ _ hab hba := le_antisymm (not_lt.mp (of_decide_eq_false hba)) (not_lt.mp (of_decide_eq_false hab))

structure Registered (m : LoggerManager) : Prop where
  sorted : OrderedSet.Sorted less m.names
  root : "root" ∈ m.names
  good : m.defines.manager.Good
  usable : ∀ name, (m.config name).Usable
  /-- A logger that is not there is as `getLogger` would make it. -/
  fresh : ∀ name, name ∉ m.names → m.config name = init.config name
  value : ∀ d ∈ m.defines.value.elems, d.name ∈ m.names

/-- What changes one logger that is there keeps the rest. -/
theorem Registered.update {m t : LoggerManager} (k : Registered m) {name : String} {c : LoggerConfig}
    (hnames : t.names = m.names) (hvalue : t.defines.value = m.defines.value) (hin : name ∈ m.names)
    (hgood : t.defines.manager.Good) (hconfig : t.config = Function.update m.config name c) (hc : c.Usable) :
    Registered t := by
  refine ⟨hnames ▸ k.sorted, hnames ▸ k.root, hgood, fun name' => ?_, fun name' hout => ?_, ?_⟩
  · rw [hconfig]
    by_cases hn : name' = name
    · rw [hn, Function.update_self]
      exact hc
    · rw [Function.update_of_ne hn]
      exact k.usable name'
  · rw [hnames] at hout
    have hn : name' ≠ name := by
      rintro rfl
      exact hout hin
    rw [hconfig, Function.update_of_ne hn]
    exact k.fresh name' hout
  · rw [hvalue, hnames]
    exact k.value

theorem getLogger_names {m : LoggerManager} (hs : OrderedSet.Sorted less m.names) (name name' : String) :
    name' ∈ (m.getLogger name).names ↔ name' = name ∨ name' ∈ m.names :=
  OrderedSet.mem_insert_iff less_strict hs name'

theorem Registered.getLogger {m : LoggerManager} (k : Registered m) (name : String) : Registered (m.getLogger name) := by
  have hmem := getLogger_names k.sorted name
  refine ⟨OrderedSet.sorted_insert less_strict.trans k.sorted name, (hmem _).mpr (.inr k.root), k.good, k.usable,
    fun name' hout => k.fresh name' fun hin => hout ((hmem _).mpr (.inr hin)), fun d hd => (hmem _).mpr (.inr (k.value d hd))⟩

theorem Registered.getLoggers {m : LoggerManager} (k : Registered m) (names : List String) :
    Registered (names.foldl LoggerManager.getLogger m) ∧
      (names.foldl LoggerManager.getLogger m).defines = m.defines ∧
      ∀ name, name ∈ (names.foldl LoggerManager.getLogger m).names ↔ name ∈ names ∨ name ∈ m.names := by
  induction names generalizing m with
  | nil => exact ⟨k, rfl, fun name => by simp⟩
  | cons name rest ih =>
    obtain ⟨k', hdefines, hmem⟩ := ih (k.getLogger name)
    refine ⟨k', hdefines, fun name' => ?_⟩
    rw [List.foldl_cons, hmem, getLogger_names k.sorted, List.mem_cons]
    tauto

end LoggerManager

/-! ### A reload keeps formatters usable -/

theorem LogAppenderDefine.config_usable {a : LogAppenderDefine} (hvalid : Valid a.formatter) (p : String)
    (hp : a.config.formatter = some p) : (LogFormatter.mk p).isError = false := by
  have hp : (if a.formatter = "" then none else some a.formatter) = some p := hp
  split at hp
  · cases hp
  · cases hp
    exact hvalid.resolve_left ‹_›

theorem LogDefine.apply_usable {i : LogDefine} {c : LoggerConfig} (k : c.Usable) (hvalid : Valid i.formatter)
    (has : ∀ a ∈ i.appenders, Valid a.formatter) : (i.apply c).Usable := by
  refine ⟨?_, fun a ha => ?_⟩
  · show ∃ p, (if i.formatter = "" then c.formatter else some i.formatter) = some p ∧ _
    split
    · exact k.formatter
    · exact ⟨_, rfl, hvalid.resolve_left ‹_›⟩
  · obtain ⟨b, hb, rfl⟩ := List.mem_map.mp ha
    exact LogAppenderDefine.config_usable (has b hb)

theorem LoggerConfig.Usable.removed {c : LoggerConfig} (k : c.Usable) :
    LoggerConfig.Usable { c with level := .unknow, appenders := [] } :=
  ⟨k.formatter, fun _ ha => (by cases ha)⟩

namespace Manager

theorem visit_usable {m : Manager} (k : Good m) (old : LogDefines) {ds : List LogDefine}
    (hds : ∀ d ∈ ds, Valid d.formatter ∧ ∀ a ∈ d.appenders, (a.type = 1 ∨ a.type = 2) ∧ Valid a.formatter)
    (hu : ∀ name, (m.log.config name).Usable) {t : Manager} (ht : ds.foldlM (visit old) m = some t) :
    ∀ name, (t.log.config name).Usable := by
  induction ds generalizing m with
  | nil =>
    cases ht
    exact hu
  | cons i rest ih =>
    obtain ⟨hvalid, has⟩ := hds i (List.mem_cons_self ..)
    obtain ⟨u, hvisit, hgood, hconfig⟩ := visit_spec k old hvalid has
    rw [List.foldlM_cons, hvisit] at ht
    refine ih hgood (fun d hd => hds d (List.mem_cons_of_mem i hd)) (fun name => ?_) ht
    rw [hconfig]
    by_cases hn : name = i.name
    · rw [hn, Function.update_self]
      have happly := LogDefine.apply_usable (hu i.name) hvalid fun a ha => (has a ha).2
      unfold LogDefine.wanted
      split
      · exact happly
      · split
        · exact hu i.name
        · exact happly
    · rw [Function.update_of_ne hn]
      exact hu name

/-- The loop over the old set. -/
theorem remove_config (m : Manager) (new : LogDefines) (ds : List LogDefine) (name : String) :
    (ds.foldl (fun m i => if (new.find i).isNone then m.remove i else m) m).log.config name =
      if name ∈ (ds.filter fun i => (new.find i).isNone).map LogDefine.name then
        { m.log.config name with level := .unknow, appenders := [] }
      else m.log.config name := by
  induction ds generalizing m with
  | nil => rfl
  | cons i rest ih =>
    rw [List.foldl_cons, ih]
    by_cases hfind : (new.find i).isNone = true
    · have hremove : (m.remove i).log.config = Function.update m.log.config i.name
          { m.log.config i.name with level := .unknow, appenders := [] } := by
        show ((m.log.setLevel i.name .unknow).clearAppenders i.name).config = _
        rw [State.config_clearAppenders, State.config_setLevel]
        simp
      have hfilter : (i :: rest).filter (fun i => (new.find i).isNone) =
          i :: rest.filter fun i => (new.find i).isNone := List.filter_cons_of_pos hfind
      rw [if_pos hfind, hremove, hfilter, List.map_cons]
      by_cases hn : name = i.name
      · subst hn
        simp
      · rw [Function.update_of_ne hn]
        simp only [List.mem_cons, hn, false_or]
    · have hfilter : (i :: rest).filter (fun i => (new.find i).isNone) =
          rest.filter fun i => (new.find i).isNone := List.filter_cons_of_neg hfind
      rw [if_neg hfind, hfilter]

end Manager

namespace LoggerManager

theorem Registered.setValue {m : LoggerManager} (k : Registered m) {v : LogDefines} {defines : Defines}
    (hset : Log.setValue m.defines v = some defines) :
    Registered { (if v.eq m.defines.value then [] else visited m.defines.value v).foldl LoggerManager.getLogger m with
      defines := defines } := by
  obtain ⟨hnames, -, hmem⟩ := k.getLoggers (if v.eq m.defines.value then [] else visited m.defines.value v)
  unfold Log.setValue at hset
  by_cases heq : v.eq m.defines.value = true
  · rw [if_pos heq] at hset
    cases hset
    simp only [if_pos heq, List.foldl_nil]
    exact ⟨k.sorted, k.root, k.good, k.usable, k.fresh, k.value⟩
  · rw [if_neg heq] at hset hmem
    obtain ⟨manager, hreload, rfl⟩ := Option.map_eq_some_iff.mp hset
    simp only [if_neg heq] at hnames ⊢
    -- a definition that is not visited counts as equal to one that is there
    have hin : ∀ d ∈ v.elems, d.name ∈ visited m.defines.value v ∨ d.name ∈ m.names := by
      intro d hd
      cases hfind : (m.defines.value.find d).any d.eq with
      | false =>
        refine .inl (List.mem_map_of_mem (List.mem_append_left _ (List.mem_filter.mpr ⟨hd, ?_⟩)))
        rw [hfind]
        rfl
      | true =>
        obtain ⟨d', hd', -⟩ := (Option.any_eq_true _ _).mp hfind
        obtain ⟨hold, hname⟩ := (m.defines.value.find_eq_some_iff d d').mp hd'
        exact .inr (hname ▸ k.value d' hold)
    have hds : ∀ d ∈ v.elems, Valid d.formatter ∧ ∀ a ∈ d.appenders, (a.type = 1 ∨ a.type = 2) ∧ Valid a.formatter :=
      fun d hd => ⟨(v.valid d hd).1, fun a ha => ⟨v.types d hd a ha, (v.valid d hd).2 a ha⟩⟩
    obtain ⟨u, hvisit, hgood, -, hout⟩ := Manager.visit_all k.good m.defines.value v.names_nodup hds
    have hreload' := hreload
    unfold Manager.reload at hreload
    rw [hvisit] at hreload
    cases hreload
    have husable := Manager.visit_usable k.good m.defines.value hds k.usable hvisit
    refine ⟨hnames.sorted, hnames.root, (Manager.remove_all hgood v _).1, fun name => ?_, fun name hno => ?_,
      fun d hd => (hmem _).mpr (hin d hd)⟩
    · show LoggerConfig.Usable (State.config _ name)
      rw [Manager.remove_config]
      split
      · exact (husable name).removed
      · exact husable name
    · have hno : name ∉ visited m.defines.value v ∧ name ∉ m.names := by
        rw [← not_or, ← hmem]
        exact hno
      show State.config _ name = _
      rw [Manager.remove_config, if_neg, hout name]
      · exact k.fresh name hno.2
      · intro hname
        obtain ⟨d, hd, rfl⟩ := List.mem_map.mp hname
        exact (hin d hd).elim hno.1 hno.2
      · intro hname
        refine hno.1 ?_
        rw [visited, List.map_append]
        exact List.mem_append_right _ hname

/-- The configuration of the main logger, and of every other one that is made. -/
theorem init_config (name : String) : init.config name =
    ⟨.debug, some defaultPattern, if name = "root" then [⟨.stdout, .debug, none⟩] else []⟩ := by
  by_cases hn : name = "root"
  · rw [hn]
    rfl
  · have hlogger : init.defines.manager.log.loggers name = ⟨.debug, [], .initial name, some "root"⟩ := if_neg hn
    show LoggerConfig.mk _ _ _ = _
    rw [hlogger, if_neg hn]
    rfl

theorem init_registered : Registered init where
  sorted := List.pairwise_singleton ..
  root := List.mem_singleton.mpr rfl
  good := initial_good
  usable name := by
    rw [init_config]
    refine ⟨⟨defaultPattern, rfl, by decide⟩, fun a ha p hp => ?_⟩
    split at ha
    · rw [List.mem_singleton.mp ha] at hp
      cases hp
    · cases ha
  fresh _ _ := rfl
  value _ hd := by cases hd

/-- What a call is made with. -/
def Proper : Act → Prop
  | .addAppender _ a => (a.type = 1 ∨ a.type = 2) ∧ Valid a.formatter
  | _ => True

instance decidableProper (a : Act) : Decidable (Proper a) := by
  unfold Proper
  split <;> infer_instance

theorem Registered.step {m t : LoggerManager} (k : Registered m) {a : Act} (ha : Proper a)
    (h : m.step a = some t) : Registered t := by
  cases a with
  | getLogger name =>
    cases h
    exact k.getLogger name
  | setValue v =>
    obtain ⟨defines, hset, rfl⟩ := Option.map_eq_some_iff.mp h
    exact k.setValue hset
  | setLevel name level =>
    obtain ⟨hin, h⟩ := Option.ite_none_right_eq_some.mp h
    cases h
    refine k.update rfl rfl hin ?_ (State.config_setLevel ..) ⟨(k.usable name).formatter, (k.usable name).appender⟩
    exact Manager.Good.setLogger k.good (k.good.sound.logger name) (k.good.fresh name)
  | setFormatter name val =>
    obtain ⟨hin, h⟩ := Option.ite_none_right_eq_some.mp h
    cases h
    have hgood : Manager.Good ⟨m.defines.manager.log.setPattern name val, m.defines.manager.next⟩ :=
      Manager.Good.setPattern k.good name val
    cases herror : (LogFormatter.mk val).isError with
    | true =>
      have hsame : m.defines.manager.log.setPattern name val = m.defines.manager.log := if_pos herror
      simp only [hsame]
      exact k
    | false =>
      exact k.update rfl rfl hin hgood (State.config_setPattern k.good.sound name herror)
        ⟨⟨val, rfl, herror⟩, (k.usable name).appender⟩
  | clearAppenders name =>
    obtain ⟨hin, h⟩ := Option.ite_none_right_eq_some.mp h
    cases h
    refine k.update rfl rfl hin ?_ (State.config_clearAppenders ..)
      ⟨(k.usable name).formatter, fun _ ha => (by cases ha)⟩
    exact Manager.Good.setLogger k.good (k.good.sound.logger name) fun _ ha => by cases ha
  | addAppender name a =>
    obtain ⟨hin, h⟩ := Option.ite_none_right_eq_some.mp h
    obtain ⟨u, hu, hgood, hconfig⟩ := Manager.attach_spec k.good name ha.1 ha.2
    rw [hu] at h
    cases h
    refine k.update rfl rfl hin hgood hconfig ⟨(k.usable name).formatter, fun b hb => ?_⟩
    obtain hb | hb := List.mem_append.mp hb
    · exact (k.usable name).appender b hb
    · rw [List.mem_singleton.mp hb]
      exact LogAppenderDefine.config_usable ha.2

end LoggerManager

/-! ### Reading it back -/

/-- An empty pattern counts as none. -/
def nonempty (p : Option String) : Option String := if p = some "" then none else p

/-- What is left of an appender. -/
def AppenderConfig.restored (c : AppenderConfig) : AppenderConfig :=
  { c with level := .unknow, formatter := nonempty c.formatter }

/-- What is left of a logger. -/
def LoggerConfig.restored (c : LoggerConfig) : LoggerConfig :=
  { c with
    formatter := some ((nonempty c.formatter).getD defaultPattern)
    appenders := c.appenders.map AppenderConfig.restored }

/-- Nothing is lost of a logger. -/
def LoggerConfig.Kept (c : LoggerConfig) : Prop :=
  c.formatter ≠ some "" ∧ ∀ a ∈ c.appenders, a.level = .unknow ∧ a.formatter ≠ some ""

theorem AppenderConfig.restored_eq_iff (c : AppenderConfig) :
    c.restored = c ↔ c.level = .unknow ∧ c.formatter ≠ some "" := by
  obtain ⟨kind, level, formatter⟩ := c
  have hfilter : nonempty formatter = formatter ↔ formatter ≠ some "" := by
    by_cases hf : formatter = some ""
    · simp [nonempty, hf]
    · simp [nonempty, hf]
  simp only [AppenderConfig.restored, AppenderConfig.mk.injEq, true_and, hfilter]
  exact and_congr_left fun _ => eq_comm

theorem LoggerConfig.restored_eq_iff {c : LoggerConfig} (k : c.Usable) : c.restored = c ↔ c.Kept := by
  obtain ⟨p, hp, -⟩ := k.formatter
  obtain ⟨level, formatter, appenders⟩ := c
  cases hp
  have happ : appenders.map AppenderConfig.restored = appenders ↔
      ∀ a ∈ appenders, a.level = .unknow ∧ a.formatter ≠ some "" := by
    conv_lhs =>
      rhs
      rw [← List.map_id appenders]
    rw [List.map_inj_left]
    exact forall_congr' fun a => imp_congr_right fun _ => a.restored_eq_iff
  have hpattern : some ((nonempty (some p)).getD defaultPattern) = some p ↔ some p ≠ some "" := by
    by_cases hp : p = ""
    · simp [nonempty, hp, defaultPattern]
    · simp [nonempty, hp]
  simp only [LoggerConfig.restored, LoggerConfig.Kept, LoggerConfig.mk.injEq, true_and, hpattern, happ]

theorem LoggerConfig.restored_unmade (name : String) (hn : name ≠ "root") :
    (LoggerManager.init.config name).restored = LoggerManager.init.config name := by
  rw [LoggerManager.init_config, if_neg hn]
  rfl

namespace LoggerManager

/-- What the text of all loggers is read as, as a set. -/
def toDefines (m : LoggerManager) (k : Registered m) : LogDefines where
  elems := m.names.map fun name => (m.config name).define name
  sorted := List.Pairwise.map _ (fun _ _ hab => hab) k.sorted
  types d hd a ha := by
    obtain ⟨name, -, rfl⟩ := List.mem_map.mp hd
    obtain ⟨b, -, rfl⟩ := List.mem_map.mp ha
    show (if _ then (1 : Int) else 2) = 1 ∨ (if _ then (1 : Int) else 2) = 2
    split
    · exact .inl rfl
    · exact .inr rfl
  valid d hd := by
    obtain ⟨name, -, rfl⟩ := List.mem_map.mp hd
    have hu := k.usable name
    obtain ⟨p, hp, herror⟩ := hu.formatter
    refine ⟨.inr ?_, fun a ha => ?_⟩
    · show (LogFormatter.mk ((m.config name).formatter.getD "")).isError = false
      rw [hp]
      exact herror
    · obtain ⟨b, hb, rfl⟩ := List.mem_map.mp ha
      show Valid (b.formatter.getD "")
      cases hf : b.formatter with
      | none => exact .inl rfl
      | some p => exact .inr (hu.appender b hb p hf)

theorem define_config (c : AppenderConfig) : c.define.config = c.restored := by
  obtain ⟨kind, level, formatter⟩ := c
  have hformatter : (if formatter.getD "" = "" then none else some (formatter.getD "")) = nonempty formatter := by
    cases formatter with
    | none => rfl
    | some p => simp [nonempty]
  show AppenderConfig.mk _ _ (if formatter.getD "" = "" then none else some (formatter.getD "")) = _
  rw [hformatter]
  cases kind <;> rfl

/-- A fresh logger is set up to what is read. -/
theorem apply_define {c : LoggerConfig} (k : c.Usable) (name : String) {c' : LoggerConfig}
    (hc' : c'.formatter = some defaultPattern) : (c.define name).apply c' = c.restored := by
  obtain ⟨p, hp, -⟩ := k.formatter
  obtain ⟨level, formatter, appenders⟩ := c
  cases hp
  have happ : (appenders.map AppenderConfig.define).map LogAppenderDefine.config =
      appenders.map AppenderConfig.restored := by
    rw [List.map_map]
    exact List.map_congr_left fun a _ => define_config a
  have hformatter : (if p = "" then c'.formatter else some p) =
      some ((nonempty (some p)).getD defaultPattern) := by
    by_cases hp : p = ""
    · simp [nonempty, hp, hc']
    · simp [nonempty, hp]
  show LoggerConfig.mk level (if p = "" then c'.formatter else some p) _ = LoggerConfig.mk level _ _
  rw [hformatter, ← happ]
  rfl

/-- A program that has no loggers but the main one, and reads the text as its `logs`. -/
theorem load_config {m : LoggerManager} (k : Registered m) : ∃ t, Log.setValue initial (m.toDefines k) = some t ∧
    t.manager.log.config = fun name => (m.config name).restored := by
  set v := m.toDefines k
  have hds : ∀ d ∈ v.elems, Valid d.formatter ∧ ∀ a ∈ d.appenders, (a.type = 1 ∨ a.type = 2) ∧ Valid a.formatter :=
    fun d hd => ⟨(v.valid d hd).1, fun a ha => ⟨v.types d hd a ha, (v.valid d hd).2 a ha⟩⟩
  obtain ⟨u, hvisit, -, hin, hout⟩ := Manager.visit_all initial_good initial.value v.names_nodup hds
  have hne : v.eq initial.value = false := by
    have hlen : v.elems ≠ [] := fun h => List.ne_nil_of_mem k.root (List.map_eq_nil_iff.mp h)
    cases he : v.elems with
    | nil => exact absurd he hlen
    | cons d rest =>
      show v.elems.isEqv [] LogDefine.eq = false
      rw [he]
      rfl
  refine ⟨⟨v, v, u⟩, ?_, ?_⟩
  · unfold Log.setValue Manager.reload
    rw [hvisit, hne]
    rfl
  · funext name
    show u.log.config name = _
    by_cases hn : name ∈ m.names
    · have hd : (m.config name).define name ∈ v.elems := List.mem_map_of_mem hn
      rw [show u.log.config name = _ from hin _ hd]
      exact apply_define (k.usable name) name (congrArg LoggerConfig.formatter (init_config name))
    · have hroot : name ≠ "root" := fun h => hn (h ▸ k.root)
      rw [hout name, k.fresh name hn, LoggerConfig.restored_unmade name hroot]
      · rfl
      · intro hmem
        obtain ⟨d, hd, rfl⟩ := List.mem_map.mp hmem
        obtain ⟨name', hn', rfl⟩ := List.mem_map.mp hd
        exact hn hn'

/-- **What is written of all loggers can be read.** Whatever has been done to them, a fresh
program that reads the text as its `logs` has every logger back but for what `restored` leaves
out, and all of it if and only if no appender has a level and no pattern is empty. -/
theorem dump_load {y : Yaml} (h : y.Lawful) (acts : List Act) (m : LoggerManager)
    (hm : Meets step (fun _ a => Proper a) init acts) (hrun : run step init acts = some m) :
    ∃ text v t, m.toYamlString y = some text ∧ readDefines y text = some (LogDefines.elems v) ∧
      Log.setValue initial v = some t ∧ t.manager.log.config = (fun name => (m.config name).restored) ∧
      (t.manager.log.config = m.config ↔ ∀ name ∈ m.names, (m.config name).Kept) := by
  have k : Registered m := run_invariant (fun _ _ _ k ha h => k.step ha h) init_registered hm hrun
  obtain ⟨text, htext, hread⟩ := read_yaml h m k.sorted (List.ne_nil_of_mem k.root)
  obtain ⟨t, ht, hconfig⟩ := load_config k
  refine ⟨text, m.toDefines k, t, htext, hread, ht, hconfig, ?_⟩
  rw [hconfig, funext_iff]
  constructor
  · exact fun hall name _ => (LoggerConfig.restored_eq_iff (k.usable name)).mp (hall name)
  · intro hall name
    by_cases hn : name ∈ m.names
    · exact (LoggerConfig.restored_eq_iff (k.usable name)).mpr (hall name hn)
    · rw [k.fresh name hn]
      exact LoggerConfig.restored_unmade name fun h => hn (h ▸ k.root)

/-- A logger with a level, a pattern and an appender, beside the main one. -/
theorem dump_load_sample : ∃ m text v t,
    run step init [.getLogger "system", .setLevel "system" .info, .setFormatter "system" "%m%n",
      .addAppender "system" ⟨1, .unknow, "", "log.txt"⟩] = some m ∧
    m.toYamlString (.ofTexts texts) = some text ∧ readDefines (.ofTexts texts) text = some (LogDefines.elems v) ∧
      Log.setValue initial v = some t ∧
      t.manager.log.config "system" = ⟨.info, some "%m%n", [⟨.file "log.txt", .unknow, none⟩]⟩ := by
  have hclean : Tree.Clean texts := by decide
  obtain ⟨text, v, t, htext, hread, ht, hconfig, -⟩ := dump_load (Yaml.ofTexts_lawful hclean)
    [.getLogger "system", .setLevel "system" .info, .setFormatter "system" "%m%n",
      .addAppender "system" ⟨1, .unknow, "", "log.txt"⟩] _ (by decide) rfl
  exact ⟨_, text, v, t, rfl, htext, hread, ht, (congrFun hconfig "system").trans rfl⟩

end LoggerManager

end ShioSylar.Log
