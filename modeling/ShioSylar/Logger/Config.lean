import ShioSylar.Logger.Appenders

/-! What loggers are set up to.

The level, the pattern and the appenders of a logger are read off the objects its pointers lead
to. Every operation on loggers is described by what it does to that, so that what a logger is set
up to can be followed without the objects. -/
namespace ShioSylar.Log

structure AppenderConfig where
  kind : AppenderKind
  level : LogLevel
  /-- The pattern of its own formatter. -/
  formatter : Option String
  deriving DecidableEq

structure LoggerConfig where
  level : LogLevel
  formatter : Option String
  appenders : List AppenderConfig
  deriving DecidableEq

namespace State

variable {ℓ α : Type}

def pattern (s : State ℓ α) (f : FormatterPtr ℓ) : Option String := (s.formatter f).map (·.pattern)

def appenderConfig (s : State ℓ α) (a : α) : AppenderConfig where
  kind := (s.appenders a).kind
  level := (s.appenders a).level
  formatter := if (s.appenders a).hasFormatter then (s.appenders a).formatter.bind s.pattern else none

def config (s : State ℓ α) (l : ℓ) : LoggerConfig where
  level := (s.loggers l).level
  formatter := s.pattern (s.loggers l).formatter
  appenders := (s.loggers l).appenders.map s.appenderConfig

/-- `Logger::setLevel`. -/
def setLevel [DecidableEq ℓ] (s : State ℓ α) (l : ℓ) (level : LogLevel) : State ℓ α :=
  s.setLogger l { s.loggers l with level := level }

/-- What an appender's pointer may be. -/
def Allows (s : State ℓ α) (ap : LogAppender ℓ) : Prop :=
  (∀ f, ap.formatter = some f → (s.formatter f).isSome = true) ∧
    (ap.hasFormatter = true → ap.formatter ≠ none)

/-- No pointer dangles. -/
structure Sound (s : State ℓ α) : Prop where
  logger : ∀ l, (s.formatter (s.loggers l).formatter).isSome = true
  appender : ∀ a, s.Allows (s.appenders a)

theorem formatter_newFormatter {s : State ℓ α} {f : FormatterPtr ℓ} (p : String)
    (hf : (s.formatter f).isSome = true) : (s.newFormatter p).formatter f = s.formatter f := by
  cases f with
  | initial l => rfl
  | made n =>
    have hn : n < s.formatters.length := by
      obtain ⟨x, hx⟩ := Option.isSome_iff_exists.mp hf
      exact (List.getElem?_eq_some_iff.mp hx).1
    exact List.getElem?_append_left hn

theorem formatter_made (s : State ℓ α) (p : String) :
    (s.newFormatter p).formatter (.made s.formatters.length) = some ⟨p⟩ := by
  show (s.formatters ++ [⟨p⟩])[s.formatters.length]? = _
  rw [List.getElem?_append_right (Nat.le_refl _), Nat.sub_self]
  rfl

theorem Sound.newFormatter {s : State ℓ α} (k : Sound s) (p : String) : Sound (s.newFormatter p) where
  logger l := by
    show ((s.newFormatter p).formatter (s.loggers l).formatter).isSome = true
    rw [formatter_newFormatter p (k.logger l)]
    exact k.logger l
  appender a := by
    refine ⟨fun f hf => ?_, (k.appender a).2⟩
    have hf' := (k.appender a).1 f hf
    rw [formatter_newFormatter p hf']
    exact hf'

theorem config_newFormatter {s : State ℓ α} (k : Sound s) (p : String) :
    (s.newFormatter p).config = s.config := by
  have happ : (s.newFormatter p).appenderConfig = s.appenderConfig := by
    funext a
    have hbind : (s.appenders a).formatter.bind (s.newFormatter p).pattern =
        (s.appenders a).formatter.bind s.pattern := by
      cases hf : (s.appenders a).formatter with
      | none => rfl
      | some f => exact congrArg (Option.map (·.pattern)) (formatter_newFormatter p ((k.appender a).1 f hf))
    show AppenderConfig.mk _ _ (if _ then (s.appenders a).formatter.bind (s.newFormatter p).pattern else none) = _
    rw [hbind]
    rfl
  funext l
  show LoggerConfig.mk _ ((s.newFormatter p).pattern (s.loggers l).formatter)
    ((s.loggers l).appenders.map (s.newFormatter p).appenderConfig) = _
  rw [happ, pattern, formatter_newFormatter p (k.logger l)]
  rfl

variable [DecidableEq ℓ]

/-- What setting a logger does to what the loggers are set up to. -/
theorem config_setLogger (s : State ℓ α) (l : ℓ) (lg : Logger ℓ α) : (s.setLogger l lg).config =
    Function.update s.config l ⟨lg.level, s.pattern lg.formatter, lg.appenders.map s.appenderConfig⟩ := by
  funext l'
  by_cases hl : l' = l
  · subst hl
    rw [Function.update_self]
    show LoggerConfig.mk ((s.setLogger l' lg).loggers l').level _ _ = _
    rw [setLogger_self]
    rfl
  · rw [Function.update_of_ne hl]
    show LoggerConfig.mk ((s.setLogger l lg).loggers l').level _ _ = _
    rw [setLogger_other _ hl]
    rfl

theorem config_setLevel (s : State ℓ α) (l : ℓ) (level : LogLevel) : (s.setLevel l level).config =
    Function.update s.config l { s.config l with level := level } :=
  config_setLogger ..

theorem config_clearAppenders (s : State ℓ α) (l : ℓ) : (s.clearAppenders l).config =
    Function.update s.config l { s.config l with appenders := [] } :=
  config_setLogger ..

theorem Sound.setLogger {s : State ℓ α} (k : Sound s) {l : ℓ} {lg : Logger ℓ α}
    (hlg : (s.formatter lg.formatter).isSome = true) : Sound (s.setLogger l lg) where
  logger l' := by
    show (s.formatter ((s.setLogger l lg).loggers l').formatter).isSome = true
    by_cases hl : l' = l
    · rw [hl, setLogger_self]
      exact hlg
    · rw [setLogger_other _ hl]
      exact k.logger l'
  appender := k.appender

section
variable [DecidableEq α]

omit [DecidableEq ℓ] in
theorem Sound.setAppender {s : State ℓ α} (k : Sound s) {a : α} {ap : LogAppender ℓ}
    (hap : s.Allows ap) : Sound (s.setAppender a ap) where
  logger := k.logger
  appender b := by
    show s.Allows ((s.setAppender a ap).appenders b)
    by_cases hb : b = a
    · rw [hb, setAppender_self]
      exact hap
    · rw [setAppender_other _ hb]
      exact k.appender b

omit [DecidableEq ℓ] in
theorem appenderConfig_setAppender {s : State ℓ α} {a b : α} (hb : b ≠ a) (ap : LogAppender ℓ) :
    (s.setAppender a ap).appenderConfig b = s.appenderConfig b := by
  unfold appenderConfig
  rw [setAppender_other _ hb]
  rfl

omit [DecidableEq ℓ] in
/-- An appender that is not attached can be set to anything. -/
theorem config_setAppender {s : State ℓ α} {a : α} (ha : ∀ l, a ∉ (s.loggers l).appenders)
    (ap : LogAppender ℓ) : (s.setAppender a ap).config = s.config := by
  funext l
  have happ : (s.loggers l).appenders.map (s.setAppender a ap).appenderConfig =
      (s.loggers l).appenders.map s.appenderConfig := by
    apply List.map_congr_left
    intro b hb
    have hne : b ≠ a := fun heq => ha l (heq ▸ hb)
    exact appenderConfig_setAppender hne ap
  show LoggerConfig.mk _ _ ((s.loggers l).appenders.map (s.setAppender a ap).appenderConfig) = _
  rw [happ]
  rfl

omit [DecidableEq ℓ] in
/-- What an appender inherits is not its own. -/
theorem appenderConfig_inherit {s : State ℓ α} (k : Sound s) (a : α) (f : FormatterPtr ℓ) :
    (s.setAppender a (if (s.appenders a).formatter.isNone then
      { s.appenders a with formatter := some f } else s.appenders a)).appenderConfig = s.appenderConfig := by
  funext b
  by_cases hb : b = a
  · subst hb
    unfold appenderConfig
    rw [setAppender_self]
    split
    · rename_i hnone
      have hhas : (s.appenders b).hasFormatter = false := by
        cases hhas : (s.appenders b).hasFormatter with
        | false => rfl
        | true => exact absurd (Option.isNone_iff_eq_none.mp hnone) ((k.appender b).2 hhas)
      simp [hhas]
    · rfl
  · exact appenderConfig_setAppender hb _

theorem config_addAppender {s : State ℓ α} (k : Sound s) (l : ℓ) (a : α) :
    (s.addAppender l a).config = Function.update s.config l
      { s.config l with appenders := (s.config l).appenders ++ [s.appenderConfig a] } := by
  have happ := appenderConfig_inherit k a (s.loggers l).formatter
  unfold State.addAppender
  rw [config_setLogger]
  congr 1
  · funext l'
    show LoggerConfig.mk _ _ ((s.loggers l').appenders.map (State.appenderConfig _)) = _
    rw [happ]
    rfl
  · show LoggerConfig.mk _ _ (((s.loggers l).appenders ++ [a]).map (State.appenderConfig _)) = _
    rw [happ, List.map_append]
    rfl

theorem Sound.addAppender {s : State ℓ α} (k : Sound s) (l : ℓ) (a : α) : Sound (s.addAppender l a) := by
  have hap : s.Allows (if (s.appenders a).formatter.isNone then
      { s.appenders a with formatter := some (s.loggers l).formatter } else s.appenders a) := by
    split
    · refine ⟨fun f hf => ?_, fun _ => Option.some_ne_none _⟩
      obtain rfl : (s.loggers l).formatter = f := Option.some.inj hf
      exact k.logger l
    · exact k.appender a
  exact (k.setAppender hap).setLogger (k.logger l)

/-- The appenders that are given the formatter inherit it. -/
theorem config_setFormatter (s : State ℓ α) (l : ℓ) (val : FormatterPtr ℓ) : (s.setFormatter l val).config =
    Function.update s.config l { s.config l with formatter := s.pattern val } := by
  have happ : (s.setFormatter l val).appenderConfig = s.appenderConfig := by
    funext a
    unfold appenderConfig State.setFormatter
    dsimp only
    split
    · rename_i hin
      simp [hin.2]
    · rfl
  have hset := config_setLogger s l { s.loggers l with formatter := val }
  refine Eq.trans ?_ hset
  funext l'
  show LoggerConfig.mk _ _ (((s.setFormatter l val).loggers l').appenders.map
    (s.setFormatter l val).appenderConfig) = _
  rw [happ]
  rfl

theorem Sound.setFormatter {s : State ℓ α} (k : Sound s) (l : ℓ) {val : FormatterPtr ℓ}
    (hval : (s.formatter val).isSome = true) : Sound (s.setFormatter l val) where
  logger := by
    have hset : Sound (s.setLogger l { s.loggers l with formatter := val }) := k.setLogger hval
    exact hset.logger
  appender a := by
    show s.Allows (if _ then _ else _)
    split
    · refine ⟨fun f hf => ?_, fun _ => Option.some_ne_none _⟩
      obtain rfl : val = f := Option.some.inj hf
      exact hval
    · exact k.appender a

theorem config_setPattern {s : State ℓ α} (k : Sound s) (l : ℓ) {val : String}
    (hval : (LogFormatter.mk val).isError = false) : (s.setPattern l val).config =
      Function.update s.config l { s.config l with formatter := some val } := by
  have hmade : (s.newFormatter val).pattern (.made s.formatters.length) = some val := by
    rw [pattern, formatter_made]
    rfl
  unfold State.setPattern
  rw [if_neg (by simp [hval]), config_setFormatter, config_newFormatter k, hmade]

theorem Sound.setPattern {s : State ℓ α} (k : Sound s) (l : ℓ) (val : String) :
    Sound (s.setPattern l val) := by
  unfold State.setPattern
  split
  · exact k
  · apply (k.newFormatter val).setFormatter
    rw [formatter_made]
    rfl

end

end State

end ShioSylar.Log
