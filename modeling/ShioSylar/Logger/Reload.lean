import ShioSylar.Lib.OrderedSet
import ShioSylar.Lib.Run
import ShioSylar.Logger.Config
import ShioSylar.Logger.Define
import Mathlib.Data.String.Basic

/-! Reloading the definitions of loggers (`g_log_defines` and `LogIniter` of `logger.cc`).

A reload compares the old and the new set, and sets up the loggers whose definition is new or
not equal to the old one. `operator==` compares the list of appenders with itself, so a
definition that differs in its appenders alone counts as equal; and a definition without a
formatter leaves the logger the formatter it has (`Noticed`).

The calls are made one after the other, and the listener of `LogIniter` is the only one. -/
namespace ShioSylar.Log
open Lib

namespace LogDefine

/-- `operator==`, which compares `appenders` with itself. -/
def eq (i oth : LogDefine) : Bool :=
  i.name == oth.name && i.level == oth.level && i.formatter == oth.formatter && i.appenders == i.appenders

/-- `operator<`. -/
def less (i oth : LogDefine) : Bool := i.name < oth.name

end LogDefine

/-- A pattern that is valid or empty. -/
def Valid (pattern : String) : Prop := pattern = "" ∨ (LogFormatter.mk pattern).isError = false

instance (pattern : String) : Decidable (Valid pattern) := inferInstanceAs (Decidable (_ ∨ _))

/-- A `std::set<LogDefine>`, with appenders of the two types and no invalid patterns. -/
structure LogDefines where
  elems : List LogDefine
  sorted : OrderedSet.Sorted LogDefine.less elems
  types : ∀ d ∈ elems, ∀ a ∈ d.appenders, a.type = 1 ∨ a.type = 2
  valid : ∀ d ∈ elems, Valid d.formatter ∧ ∀ a ∈ d.appenders, Valid a.formatter

namespace LogDefines

/-- `operator==` of the sets. -/
def eq (v w : LogDefines) : Bool := v.elems.isEqv w.elems LogDefine.eq

def find (v : LogDefines) (i : LogDefine) : Option LogDefine :=
  v.elems.find? fun d => !d.less i && !i.less d

end LogDefines

/-- What is made for an appender, if anything. -/
def LogAppenderDefine.kind (a : LogAppenderDefine) : Option AppenderKind :=
  if a.type = 1 then some (.file a.file) else if a.type = 2 then some .stdout else none

/-- The loggers by name, where one that is not there yet is as `getLogger` would make it, and
how many appenders have been made. -/
structure Manager where
  log : State String Nat
  next : Nat

namespace Manager

/-- A new appender at the end of a logger's list. -/
def add (log : State String Nat) (next : Nat) (name : String) (ap : LogAppender String) : Manager :=
  ⟨(log.setAppender next ap).addAppender name next, next + 1⟩

/-- The body of the loop over the appenders, which follows a null pointer where the type is
neither of the two. -/
def attach (m : Manager) (name : String) (a : LogAppenderDefine) : Option Manager :=
  a.kind.map fun kind =>
    let ap := LogAppender.new kind a.level
    if a.formatter = "" ∨ (LogFormatter.mk a.formatter).isError then add m.log m.next name ap
    else
      add (m.log.newFormatter a.formatter) m.next name
        (ap.setFormatter (some (.made m.log.formatters.length)))

/-- The body of the loop over the new set, from `setLevel` on. -/
def configure (m : Manager) (i : LogDefine) : Option Manager :=
  let log := m.log.setLevel i.name i.level
  let log := if i.formatter = "" then log else log.setPattern i.name i.formatter
  i.appenders.foldlM (fun m a => m.attach i.name a) ⟨log.clearAppenders i.name, m.next⟩

/-- A logger whose definition is gone. -/
def remove (m : Manager) (i : LogDefine) : Manager :=
  { m with log := (m.log.setLevel i.name .unknow).clearAppenders i.name }

/-- The body of the loop over the new set. -/
def visit (old : LogDefines) (m : Manager) (i : LogDefine) : Option Manager :=
  match old.find i with
  | none => m.configure i
  | some d => if i.eq d then some m else m.configure i

/-- The listener. -/
def reload (m : Manager) (old new : LogDefines) : Option Manager := do
  let m ← new.elems.foldlM (visit old) m
  return old.elems.foldl (fun m i => if (new.find i).isNone then m.remove i else m) m

end Manager

/-- `g_log_defines` and the loggers. -/
structure Defines where
  value : LogDefines
  /-- What `setValue` was last called with. -/
  asked : LogDefines
  manager : Manager

/-- `setValue`. -/
def setValue (s : Defines) (v : LogDefines) : Option Defines :=
  if v.eq s.value then some { s with asked := v }
  else (s.manager.reload s.value v).map fun m => ⟨v, v, m⟩

/-- The main logger writes to the standard output, and no other one is there yet. -/
def initial : Defines where
  value := ⟨[], .nil, nofun, nofun⟩
  asked := ⟨[], .nil, nofun, nofun⟩
  manager :=
    { log :=
        { formatters := []
          loggers := fun name =>
            if name = "root" then ⟨.debug, [0], .initial name, none⟩
            else ⟨.debug, [], .initial name, some "root"⟩
          appenders := fun _ => ⟨.stdout, .debug, false, some (.initial "root")⟩ }
      next := 1 }

/-! ### What a definition asks for -/

def LogAppenderDefine.config (a : LogAppenderDefine) : AppenderConfig where
  kind := if a.type = 1 then .file a.file else .stdout
  level := a.level
  formatter := if a.formatter = "" then none else some a.formatter

def LogDefine.config (i : LogDefine) : LoggerConfig where
  level := i.level
  formatter := some (if i.formatter = "" then defaultPattern else i.formatter)
  appenders := i.appenders.map LogAppenderDefine.config

/-- The value is what was last asked for, and so is every logger it names. -/
def Current (s : Defines) : Prop :=
  s.value.elems = s.asked.elems ∧ ∀ d ∈ s.asked.elems, s.manager.log.config d.name = d.config

/-- A definition that counts as equal to the present one has its appenders, and one that is set
up without a formatter is of a logger that still has the default one. -/
def Noticed (s : Defines) (v : LogDefines) : Prop :=
  (v.eq s.value = true → v.elems = s.value.elems) ∧
    ∀ d ∈ v.elems,
      (∀ d', s.value.find d = some d' → d.eq d' = true →
        d.appenders.map LogAppenderDefine.config = d'.appenders.map LogAppenderDefine.config) ∧
      ((∀ d', s.value.find d = some d' → d.eq d' = false) → d.formatter = "" →
        (s.manager.log.config d.name).formatter = some defaultPattern)

/-! ### Sets of definitions -/

namespace LogDefine

theorem eq_iff (i oth : LogDefine) :
    i.eq oth = true ↔ i.name = oth.name ∧ i.level = oth.level ∧ i.formatter = oth.formatter := by
  simp [eq, and_assoc]

end LogDefine

namespace LogDefines

theorem names_nodup (v : LogDefines) : (v.elems.map LogDefine.name).Nodup := by
  refine List.Pairwise.map _ ?_ v.sorted
  intro a b hab heq
  rw [LogDefine.less, decide_eq_true_eq, heq] at hab
  exact lt_irrefl _ hab

/-- Definitions are told apart by their names. -/
theorem find_eq_some_iff (v : LogDefines) (i d : LogDefine) :
    v.find i = some d ↔ d ∈ v.elems ∧ d.name = i.name := by
  have hname : ∀ d : LogDefine, (!d.less i && !i.less d) = true ↔ d.name = i.name := by
    intro d
    simp only [LogDefine.less, Bool.and_eq_true, Bool.not_eq_true', decide_eq_false_iff_not, not_lt]
    exact ⟨fun h => le_antisymm h.2 h.1, fun h => ⟨h.ge, h.le⟩⟩
  have hsome : ∀ d, v.find i = some d → d ∈ v.elems ∧ d.name = i.name := by
    intro d hfind
    have hp := List.find?_some (p := fun d : LogDefine => !d.less i && !i.less d) hfind
    exact ⟨List.mem_of_find?_eq_some hfind, (hname d).mp hp⟩
  constructor
  · exact hsome d
  · intro hmem
    cases hfind : v.find i with
    | none => exact absurd ((hname d).mpr hmem.2) (List.find?_eq_none.mp hfind d hmem.1)
    | some d' =>
      obtain ⟨hd', hn'⟩ := hsome d' hfind
      rw [List.inj_on_of_nodup_map v.names_nodup hd' hmem.1 (hn'.trans hmem.2.symm)]

theorem find_self (v : LogDefines) {d : LogDefine} (hd : d ∈ v.elems) : v.find d = some d :=
  (v.find_eq_some_iff d d).mpr ⟨hd, rfl⟩

end LogDefines

/-! ### What a reload does -/

/-- What a logger is set up to by a definition. -/
def LogDefine.apply (i : LogDefine) (c : LoggerConfig) : LoggerConfig where
  level := i.level
  formatter := if i.formatter = "" then c.formatter else some i.formatter
  appenders := i.appenders.map LogAppenderDefine.config

/-- What the loop over the new set leaves a logger at. -/
def LogDefine.wanted (old : LogDefines) (i : LogDefine) (c : LoggerConfig) : LoggerConfig :=
  match old.find i with
  | none => i.apply c
  | some d => if i.eq d then c else i.apply c

namespace Manager

/-- The appenders that are attached have been made, and no pointer dangles. -/
structure Good (m : Manager) : Prop where
  sound : m.log.Sound
  fresh : ∀ l, ∀ a ∈ (m.log.loggers l).appenders, a < m.next

/-- A new appender is attached. -/
theorem Good.add {log : State String Nat} {next : Nat} (k : Good ⟨log, next⟩) (name : String)
    {ap : LogAppender String} (hap : log.Allows ap) :
    Good (add log next name ap) ∧
      (add log next name ap).log.config = Function.update log.config name
        { log.config name with appenders := (log.config name).appenders ++
          [⟨ap.kind, ap.level, if ap.hasFormatter then ap.formatter.bind log.pattern else none⟩] } := by
  have hnew : ∀ l, next ∉ (log.loggers l).appenders := fun l hl => Nat.lt_irrefl _ (k.fresh l next hl)
  have hsound := k.sound.setAppender (a := next) hap
  refine ⟨⟨hsound.addAppender name next, ?_⟩, ?_⟩
  · intro l a ha
    have ha : a ∈ (((log.setAppender next ap).setLogger name { log.loggers name with
        appenders := (log.loggers name).appenders ++ [next] }).loggers l).appenders := ha
    by_cases hl : l = name
    · subst hl
      rw [State.setLogger_self, List.mem_append, List.mem_singleton] at ha
      obtain ha | rfl := ha
      · exact Nat.lt_succ_of_lt (k.fresh l a ha)
      · exact Nat.lt_succ_self _
    · rw [State.setLogger_other _ hl] at ha
      exact Nat.lt_succ_of_lt (k.fresh l a ha)
  · show ((log.setAppender next ap).addAppender name next).config = _
    rw [State.config_addAppender hsound, State.config_setAppender hnew]
    unfold State.appenderConfig
    rw [State.setAppender_self]
    rfl

theorem Good.newFormatter {log : State String Nat} {next : Nat} (k : Good ⟨log, next⟩) (p : String) :
    Good ⟨log.newFormatter p, next⟩ :=
  ⟨k.sound.newFormatter p, k.fresh⟩

theorem attach_spec {m : Manager} (k : Good m) (name : String) {a : LogAppenderDefine}
    (htype : a.type = 1 ∨ a.type = 2) (hvalid : Valid a.formatter) :
    ∃ t, m.attach name a = some t ∧ Good t ∧ t.log.config = Function.update m.log.config name
      { m.log.config name with appenders := (m.log.config name).appenders ++ [a.config] } := by
  have hkind : a.kind = some a.config.kind := by
    obtain h1 | h2 := htype
    · simp [h1, LogAppenderDefine.kind, LogAppenderDefine.config]
    · simp [h2, LogAppenderDefine.kind, LogAppenderDefine.config]
  unfold Manager.attach
  rw [hkind]
  by_cases hempty : a.formatter = ""
  · have hallows : m.log.Allows (LogAppender.new a.config.kind a.level) :=
      ⟨fun f hf => (nomatch hf), fun hf => (nomatch hf)⟩
    have hadd := k.add name hallows
    refine ⟨_, congrArg some (if_pos (Or.inl hempty)), hadd.1, hadd.2.trans ?_⟩
    simp [LogAppender.new, LogAppenderDefine.config, hempty]
  · have herror := hvalid.resolve_left hempty
    have hmade := State.formatter_made m.log a.formatter
    have hallows : (m.log.newFormatter a.formatter).Allows
        ((LogAppender.new a.config.kind a.level).setFormatter (some (.made m.log.formatters.length))) := by
      refine ⟨fun f hf => ?_, fun _ => Option.some_ne_none _⟩
      obtain rfl := Option.some.inj hf
      rw [hmade]
      rfl
    have hadd := (k.newFormatter a.formatter).add name hallows
    have hnot : ¬ (a.formatter = "" ∨ (LogFormatter.mk a.formatter).isError = true) := by
      simp [hempty, herror]
    refine ⟨_, congrArg some (if_neg hnot), hadd.1, hadd.2.trans ?_⟩
    rw [State.config_newFormatter k.sound]
    simp [LogAppender.new, LogAppender.setFormatter, LogAppenderDefine.config, hempty, State.pattern, hmade]

theorem Good.setLogger {log : State String Nat} {next : Nat} (k : Good ⟨log, next⟩) {name : String}
    {lg : Logger String Nat} (hf : (log.formatter lg.formatter).isSome = true)
    (ha : ∀ a ∈ lg.appenders, a < next) : Good ⟨log.setLogger name lg, next⟩ := by
  refine ⟨k.sound.setLogger hf, fun l a hmem => ?_⟩
  by_cases hl : l = name
  · have hmem : a ∈ ((log.setLogger name lg).loggers l).appenders := hmem
    rw [hl, State.setLogger_self] at hmem
    exact ha a hmem
  · have hmem : a ∈ ((log.setLogger name lg).loggers l).appenders := hmem
    rw [State.setLogger_other _ hl] at hmem
    exact k.fresh l a hmem

theorem Good.setPattern {log : State String Nat} {next : Nat} (k : Good ⟨log, next⟩) (name val : String) :
    Good ⟨log.setPattern name val, next⟩ := by
  refine ⟨k.sound.setPattern name val, fun l a hmem => ?_⟩
  have hlist : ((log.setPattern name val).loggers l).appenders = (log.loggers l).appenders := by
    unfold State.setPattern
    split
    · rfl
    · show (Function.update log.loggers name { log.loggers name with formatter := _ } l).appenders = _
      by_cases hl : l = name
      · rw [hl, Function.update_self]
      · rw [Function.update_of_ne hl]
  exact k.fresh l a (hlist ▸ hmem)

/-- The loop over the appenders. -/
theorem attach_all {m : Manager} (k : Good m) (name : String) {as : List LogAppenderDefine}
    (has : ∀ a ∈ as, (a.type = 1 ∨ a.type = 2) ∧ Valid a.formatter) :
    ∃ t, as.foldlM (fun m a => m.attach name a) m = some t ∧ Good t ∧
      t.log.config = Function.update m.log.config name { m.log.config name with
        appenders := (m.log.config name).appenders ++ as.map LogAppenderDefine.config } := by
  induction as generalizing m with
  | nil => exact ⟨m, rfl, k, by simp⟩
  | cons a rest ih =>
    obtain ⟨htype, hvalid⟩ := has a (List.mem_cons_self ..)
    obtain ⟨u, hu, hgood, hconfig⟩ := attach_spec k name htype hvalid
    obtain ⟨t, ht, hgood', hconfig'⟩ := ih hgood fun b hb => has b (List.mem_cons_of_mem a hb)
    refine ⟨t, ?_, hgood', ?_⟩
    · rw [List.foldlM_cons, hu]
      exact ht
    · rw [hconfig', hconfig]
      simp

theorem configure_spec {m : Manager} (k : Good m) {i : LogDefine} (hvalid : Valid i.formatter)
    (has : ∀ a ∈ i.appenders, (a.type = 1 ∨ a.type = 2) ∧ Valid a.formatter) :
    ∃ t, m.configure i = some t ∧ Good t ∧
      t.log.config = Function.update m.log.config i.name (i.apply (m.log.config i.name)) := by
  have hlevel : Good ⟨m.log.setLevel i.name i.level, m.next⟩ :=
    Good.setLogger k (k.sound.logger i.name) (k.fresh i.name)
  have hset : ∃ log, (if i.formatter = "" then m.log.setLevel i.name i.level
      else (m.log.setLevel i.name i.level).setPattern i.name i.formatter) = log ∧ Good ⟨log, m.next⟩ ∧
      log.config = Function.update m.log.config i.name ⟨i.level,
        if i.formatter = "" then (m.log.config i.name).formatter else some i.formatter,
        (m.log.config i.name).appenders⟩ := by
    by_cases hempty : i.formatter = ""
    · refine ⟨_, if_pos hempty, hlevel, ?_⟩
      rw [State.config_setLevel, if_pos hempty]
    · refine ⟨_, if_neg hempty, hlevel.setPattern i.name i.formatter, ?_⟩
      rw [State.config_setPattern hlevel.sound _ (hvalid.resolve_left hempty), State.config_setLevel,
        if_neg hempty]
      simp
  obtain ⟨_, rfl, hgood, hconfig⟩ := hset
  have hclear : Good ⟨State.clearAppenders _ i.name, m.next⟩ :=
    hgood.setLogger (hgood.sound.logger i.name) fun a ha => nomatch ha
  obtain ⟨t, ht, hgood', hconfig'⟩ := attach_all hclear i.name has
  refine ⟨t, ht, hgood', ?_⟩
  rw [hconfig', State.config_clearAppenders, hconfig]
  simp [LogDefine.apply]

theorem visit_spec {m : Manager} (k : Good m) (old : LogDefines) {i : LogDefine} (hvalid : Valid i.formatter)
    (has : ∀ a ∈ i.appenders, (a.type = 1 ∨ a.type = 2) ∧ Valid a.formatter) :
    ∃ t, visit old m i = some t ∧ Good t ∧
      t.log.config = Function.update m.log.config i.name (i.wanted old (m.log.config i.name)) := by
  have hconfigure := configure_spec k hvalid has
  unfold visit LogDefine.wanted
  cases old.find i with
  | none => exact hconfigure
  | some d =>
    cases heq : i.eq d with
    | true => exact ⟨m, if_pos heq, k, by simp [heq]⟩
    | false => simpa [heq] using hconfigure

/-- The loop over the new set, whose names are all different. -/
theorem visit_all {m : Manager} (k : Good m) (old : LogDefines) {ds : List LogDefine}
    (hnames : (ds.map LogDefine.name).Nodup) (hds : ∀ d ∈ ds, Valid d.formatter ∧
      ∀ a ∈ d.appenders, (a.type = 1 ∨ a.type = 2) ∧ Valid a.formatter) :
    ∃ t, ds.foldlM (visit old) m = some t ∧ Good t ∧
      (∀ d ∈ ds, t.log.config d.name = d.wanted old (m.log.config d.name)) ∧
      ∀ name, name ∉ ds.map LogDefine.name → t.log.config name = m.log.config name := by
  induction ds generalizing m with
  | nil => exact ⟨m, rfl, k, fun _ hd => (nomatch hd), fun name _ => rfl⟩
  | cons i rest ih =>
    rw [List.map_cons, List.nodup_cons] at hnames
    obtain ⟨hvalid, has⟩ := hds i (List.mem_cons_self ..)
    obtain ⟨u, hu, hgood, hconfig⟩ := visit_spec k old hvalid has
    obtain ⟨t, ht, hgood', hin, hout⟩ := ih hgood hnames.2 fun d hd => hds d (List.mem_cons_of_mem i hd)
    refine ⟨t, ?_, hgood', fun d hd => ?_, fun name hname => ?_⟩
    · rw [List.foldlM_cons, hu]
      exact ht
    · obtain rfl | hd := List.mem_cons.mp hd
      · rw [hout d.name hnames.1, hconfig, Function.update_self]
      · have hne : d.name ≠ i.name := fun heq => hnames.1 (heq ▸ List.mem_map_of_mem hd)
        rw [hin d hd, hconfig, Function.update_of_ne hne]
    · rw [List.map_cons, List.mem_cons, not_or] at hname
      rw [hout name hname.2, hconfig, Function.update_of_ne hname.1]

/-- The loop over the old set leaves the loggers of the new one alone. -/
theorem remove_all {m : Manager} (k : Good m) (new : LogDefines) (ds : List LogDefine) :
    Good (ds.foldl (fun m i => if (new.find i).isNone then m.remove i else m) m) ∧
      ∀ d ∈ new.elems, (ds.foldl (fun m i => if (new.find i).isNone then m.remove i else m) m).log.config
        d.name = m.log.config d.name := by
  induction ds generalizing m with
  | nil => exact ⟨k, fun d _ => rfl⟩
  | cons i rest ih =>
    rw [List.foldl_cons]
    by_cases hfind : (new.find i).isNone = true
    · rw [if_pos hfind]
      have hlevel : Good ⟨m.log.setLevel i.name .unknow, m.next⟩ :=
        Good.setLogger k (k.sound.logger i.name) (k.fresh i.name)
      have hremove : Good (m.remove i) :=
        hlevel.setLogger (hlevel.sound.logger i.name) fun a ha => nomatch ha
      obtain ⟨hgood, hconfig⟩ := ih hremove
      refine ⟨hgood, fun d hd => ?_⟩
      have hne : d.name ≠ i.name := by
        intro heq
        rw [(new.find_eq_some_iff i d).mpr ⟨hd, heq⟩] at hfind
        cases hfind
      rw [hconfig d hd]
      show ((m.log.setLevel i.name .unknow).clearAppenders i.name).config d.name = _
      rw [State.config_clearAppenders, State.config_setLevel, Function.update_of_ne hne,
        Function.update_of_ne hne]
    · rw [if_neg hfind]
      exact ih k

theorem reload_spec {m : Manager} (k : Good m) (old new : LogDefines) :
    ∃ t, m.reload old new = some t ∧ Good t ∧
      ∀ d ∈ new.elems, t.log.config d.name = d.wanted old (m.log.config d.name) := by
  obtain ⟨u, hu, hgood, hin, -⟩ := visit_all k old new.names_nodup fun d hd =>
    ⟨(new.valid d hd).1, fun a ha => ⟨new.types d hd a ha, (new.valid d hd).2 a ha⟩⟩
  obtain ⟨hgood', hkept⟩ := remove_all hgood new old.elems
  refine ⟨_, ?_, hgood', fun d hd => (hkept d hd).trans (hin d hd)⟩
  unfold Manager.reload
  rw [hu]
  rfl

end Manager

/-! ### Runs of `setValue` -/

theorem initial_good : initial.manager.Good where
  sound :=
    { logger := fun l => by
        show (initial.manager.log.formatter (initial.manager.log.loggers l).formatter).isSome = true
        unfold initial
        dsimp only
        split <;> rfl
      appender := fun a => ⟨fun f hf => by
        obtain rfl := Option.some.inj hf
        rfl, fun hf => nomatch hf⟩ }
  fresh l a ha := by
    have ha : a ∈ (if l = "root" then (⟨.debug, [0], .initial l, none⟩ : Logger String Nat)
      else ⟨.debug, [], .initial l, some "root"⟩).appenders := ha
    split at ha
    · rw [List.mem_singleton] at ha
      rw [ha]
      exact Nat.one_pos
    · cases ha

theorem initial_current : Current initial := ⟨rfl, fun _ hd => nomatch hd⟩

/-- A call of `setValue` always returns. -/
theorem setValue_good {s : Defines} (k : s.manager.Good) (v : LogDefines) :
    ∃ t, setValue s v = some t ∧ t.manager.Good := by
  unfold setValue
  split
  · exact ⟨_, rfl, k⟩
  · obtain ⟨m, hm, hgood, -⟩ := Manager.reload_spec k s.value v
    rw [hm]
    exact ⟨_, rfl, hgood⟩

/-- A logger is set up to what is wanted only with the default formatter where there is none. -/
theorem apply_eq_config_iff (i : LogDefine) (c : LoggerConfig) :
    i.apply c = i.config ↔ (i.formatter = "" → c.formatter = some defaultPattern) := by
  by_cases hempty : i.formatter = ""
  · simp [LogDefine.apply, LogDefine.config, hempty]
  · simp [LogDefine.apply, LogDefine.config, hempty]

/-- A definition is met after a call exactly if it has the appenders of the one it counts as equal
to, or was set up where its formatter was. -/
theorem wanted_eq_config_iff {s : Defines} (hc : Current s) (d : LogDefine) :
    d.wanted s.value (s.manager.log.config d.name) = d.config ↔
      (∀ d', s.value.find d = some d' → d.eq d' = true →
        d.appenders.map LogAppenderDefine.config = d'.appenders.map LogAppenderDefine.config) ∧
      ((∀ d', s.value.find d = some d' → d.eq d' = false) → d.formatter = "" →
        (s.manager.log.config d.name).formatter = some defaultPattern) := by
  cases hfind : s.value.find d with
  | none =>
    rw [LogDefine.wanted, hfind, apply_eq_config_iff]
    exact ⟨fun h => ⟨fun d' h' => (nomatch h'), fun _ => h⟩, fun h => h.2 fun d' h' => nomatch h'⟩
  | some d' =>
    cases heq : d.eq d' with
    | false =>
      have hwanted : d.wanted s.value (s.manager.log.config d.name) =
          d.apply (s.manager.log.config d.name) := by
        simp [LogDefine.wanted, hfind, heq]
      rw [hwanted, apply_eq_config_iff]
      constructor
      · intro h
        refine ⟨fun e he hee => ?_, fun _ => h⟩
        cases he
        rw [heq] at hee
        cases hee
      · intro h
        apply h.2
        intro e he
        cases he
        exact heq
    | true =>
      obtain ⟨hmem, hname⟩ := (s.value.find_eq_some_iff d d').mp hfind
      obtain ⟨-, hlevel, hformatter⟩ := (d.eq_iff d').mp heq
      have hconfig : s.manager.log.config d.name = d'.config := by
        rw [← hname]
        exact hc.2 d' (hc.1 ▸ hmem)
      have hsame : d'.config = d.config ↔
          d.appenders.map LogAppenderDefine.config = d'.appenders.map LogAppenderDefine.config := by
        simp only [LogDefine.config, ← hlevel, ← hformatter, LoggerConfig.mk.injEq, true_and]
        exact eq_comm
      have hwanted : d.wanted s.value (s.manager.log.config d.name) = s.manager.log.config d.name := by
        simp [LogDefine.wanted, hfind, heq]
      rw [hwanted, hconfig, hsame]
      constructor
      · intro h
        refine ⟨fun e he _ => ?_, fun hne => ?_⟩
        · cases he
          exact h
        · have hne' := hne d' rfl
          rw [heq] at hne'
          cases hne'
      · intro h
        exact h.1 d' rfl heq

theorem setValue_current (s : Defines) (v : LogDefines) (t : Defines) (k : s.manager.Good) (hc : Current s)
    (h : setValue s v = some t) : Current t ↔ Noticed s v := by
  unfold setValue at h
  cases heq : v.eq s.value with
  | true =>
    rw [if_pos heq] at h
    obtain rfl := Option.some.inj h
    constructor
    · intro hct
      have helems : v.elems = s.value.elems := hct.1.symm
      refine ⟨fun _ => helems, fun d hd => ?_⟩
      have hfind : s.value.find d = some d := s.value.find_self (helems ▸ hd)
      refine ⟨fun d' hd' _ => ?_, fun hne => ?_⟩
      · cases hfind.symm.trans hd'
        rfl
      · have hself := hne d hfind
        rw [(d.eq_iff d).mpr ⟨rfl, rfl, rfl⟩] at hself
        cases hself
    · intro hk
      have helems := hk.1 heq
      exact ⟨helems.symm, fun d hd => hc.2 d (hc.1 ▸ helems ▸ hd)⟩
  | false =>
    rw [if_neg (by simp [heq])] at h
    obtain ⟨m, hm, -, hconfig⟩ := Manager.reload_spec k s.value v
    rw [hm] at h
    obtain rfl := Option.some.inj h
    constructor
    · intro hct
      refine ⟨fun heq' => ?_, fun d hd => ?_⟩
      · rw [heq] at heq'
        cases heq'
      · apply (wanted_eq_config_iff hc d).mp
        rw [← hconfig d hd]
        exact hct.2 d hd
    · intro hk
      refine ⟨rfl, fun d hd => ?_⟩
      show m.log.config d.name = d.config
      rw [hconfig d hd]
      exact (wanted_eq_config_iff hc d).mpr (hk.2 d hd)

/-- **History of reloads.** Any calls of `setValue` return. After each of them the value and the
loggers it names are as it says, whatever came before, if and only if each call is `Noticed`. -/
theorem reload_iff (vs : List LogDefines) : ∃ t, run setValue initial vs = some t ∧
    ((∀ xs ys u, vs = xs ++ ys → run setValue initial xs = some u → Current u) ↔
      Meets setValue Noticed initial vs) := by
  have hgood : ∀ s v t, s.manager.Good → setValue s v = some t → t.manager.Good := by
    intro s v t k h
    obtain ⟨t', ht', hgood⟩ := setValue_good k v
    cases h.symm.trans ht'
    exact hgood
  have htotal : ∀ (s : Defines), s.manager.Good → ∃ t, run setValue s vs = some t := by
    induction vs with
    | nil => exact fun s _ => ⟨s, rfl⟩
    | cons v rest ih =>
      intro s k
      obtain ⟨u, hu, hgood⟩ := setValue_good k v
      obtain ⟨t, ht⟩ := ih u hgood
      exact ⟨t, run_cons.mpr ⟨u, hu, ht⟩⟩
  obtain ⟨t, ht⟩ := htotal initial initial_good
  exact ⟨t, ht, passes_iff_meets (I := fun s => s.manager.Good) hgood setValue_current initial_good
    initial_current ht⟩

/-- A set of one definition. -/
def LogDefines.one (d : LogDefine) (types : ∀ a ∈ d.appenders, a.type = 1 ∨ a.type = 2)
    (valid : Valid d.formatter ∧ ∀ a ∈ d.appenders, Valid a.formatter) : LogDefines where
  elems := [d]
  sorted := List.pairwise_singleton ..
  types _ hi := List.mem_singleton.mp hi ▸ types
  valid _ hi := List.mem_singleton.mp hi ▸ valid

/-- The appender of a logger is to become a file, and stays what it was, in the value too. -/
theorem reload_stale : ∃ t, run setValue initial
      [.one ⟨"system", .info, "", [⟨2, .debug, "", ""⟩]⟩ (by decide) (by decide),
        .one ⟨"system", .info, "", [⟨1, .debug, "", "log.txt"⟩]⟩ (by decide) (by decide)] = some t ∧
    t.asked.elems = [⟨"system", .info, "", [⟨1, .debug, "", "log.txt"⟩]⟩] ∧
    t.value.elems = [⟨"system", .info, "", [⟨2, .debug, "", ""⟩]⟩] ∧
    t.manager.log.config "system" = ⟨.info, some defaultPattern, [⟨.stdout, .debug, none⟩]⟩ ∧
    ¬ Current t := by
  refine ⟨_, rfl, rfl, rfl, rfl, fun h => ?_⟩
  have helems := h.1
  revert helems
  decide

/-- A formatter that is taken out of a definition stays in the logger. -/
example : (run setValue initial
      [.one ⟨"system", .info, "%m%n", []⟩ (by decide) (by decide),
        .one ⟨"system", .warn, "", []⟩ (by decide) (by decide)]).map (·.manager.log.config "system") =
    some ⟨.warn, some "%m%n", []⟩ := by decide

end ShioSylar.Log
