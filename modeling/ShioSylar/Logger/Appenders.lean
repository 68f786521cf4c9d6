import ShioSylar.Logger.Pattern
import Mathlib.Data.List.Basic
import Mathlib.Logic.Function.Basic

/-! Loggers and their appenders (`Logger` and `LogAppender` of `logger.cc`).

Appenders and formatters are shared objects: a logger holds a list of appenders by pointer, and
who is set a formatter holds a pointer to it. Formatters are never changed, so what has been
made stays. An appender without a formatter of its own keeps a copy of its logger's pointer in
the same field, and `hasFormatter` alone tells the two apart. -/
namespace ShioSylar.Log

/-- A formatter: the one a logger is constructed with, or one made later. -/
inductive FormatterPtr (ℓ : Type) where
  | initial (l : ℓ)
  | made (n : Nat)
  deriving DecidableEq

/-- The subclasses of `LogAppender`. -/
inductive AppenderKind where
  | stdout
  | file (filename : String)
  deriving DecidableEq

structure LogAppender (ℓ : Type) where
  kind : AppenderKind
  level : LogLevel
  hasFormatter : Bool
  formatter : Option (FormatterPtr ℓ)
  deriving DecidableEq

structure Logger (ℓ α : Type) where
  level : LogLevel
  appenders : List α
  formatter : FormatterPtr ℓ
  /-- `l_root`. -/
  root : Option ℓ

structure State (ℓ α : Type) where
  /-- What `new LogFormatter` has made. -/
  formatters : List LogFormatter
  loggers : ℓ → Logger ℓ α
  appenders : α → LogAppender ℓ

def LogAppender.new {ℓ : Type} (kind : AppenderKind) (level : LogLevel) : LogAppender ℓ :=
  ⟨kind, level, false, none⟩

/-- `LogAppender::setFormatter`. -/
def LogAppender.setFormatter {ℓ : Type} (ap : LogAppender ℓ) (val : Option (FormatterPtr ℓ)) :
    LogAppender ℓ :=
  { ap with formatter := val, hasFormatter := val.isSome }

namespace State

variable {ℓ α : Type}

/-- What a pointer points to. -/
def formatter (s : State ℓ α) : FormatterPtr ℓ → Option LogFormatter
  | .initial _ => some ⟨defaultPattern⟩
  | .made n => s.formatters[n]?

/-- `new LogFormatter`. -/
def newFormatter (s : State ℓ α) (pattern : String) : State ℓ α :=
  { s with formatters := s.formatters ++ [⟨pattern⟩] }

/-- `l_formatter->format` of each of the appenders whose level allows it, or `none` where one of
these has no formatter. -/
def write (s : State ℓ α) (level : LogLevel) (appenders : List α) : Option (List (α × FormatterPtr ℓ)) :=
  (appenders.filter fun a => (s.appenders a).level.toNat ≤ level.toNat).mapM fun a =>
    (s.appenders a).formatter.map fun f => (a, f)

/-- `Logger::log`: who writes, and with which formatter. The main logger has no `l_root`. -/
def log (s : State ℓ α) (l : ℓ) (level : LogLevel) : Option (List (α × FormatterPtr ℓ)) :=
  if level.toNat < (s.loggers l).level.toNat then some []
  else if (s.loggers l).appenders ≠ [] then s.write level (s.loggers l).appenders
  else
    match (s.loggers l).root with
    | none => some []
    | some root =>
      if level.toNat < (s.loggers root).level.toNat then some []
      else s.write level (s.loggers root).appenders

section
variable [DecidableEq ℓ]

def setLogger (s : State ℓ α) (l : ℓ) (lg : Logger ℓ α) : State ℓ α :=
  { s with loggers := Function.update s.loggers l lg }

theorem setLogger_self {s : State ℓ α} {l : ℓ} (lg : Logger ℓ α) : (s.setLogger l lg).loggers l = lg :=
  Function.update_self ..

theorem setLogger_other {s : State ℓ α} {l l' : ℓ} (lg : Logger ℓ α) (h : l' ≠ l) :
    (s.setLogger l lg).loggers l' = s.loggers l' :=
  Function.update_of_ne h ..

def delAppender [DecidableEq α] (s : State ℓ α) (l : ℓ) (a : α) : State ℓ α :=
  s.setLogger l { s.loggers l with appenders := (s.loggers l).appenders.erase a }

def clearAppenders (s : State ℓ α) (l : ℓ) : State ℓ α :=
  s.setLogger l { s.loggers l with appenders := [] }

variable [DecidableEq α]

def setAppender (s : State ℓ α) (a : α) (ap : LogAppender ℓ) : State ℓ α :=
  { s with appenders := Function.update s.appenders a ap }

omit [DecidableEq ℓ] in
theorem setAppender_self {s : State ℓ α} {a : α} (ap : LogAppender ℓ) :
    (s.setAppender a ap).appenders a = ap :=
  Function.update_self ..

omit [DecidableEq ℓ] in
theorem setAppender_other {s : State ℓ α} {a b : α} (ap : LogAppender ℓ) (h : b ≠ a) :
    (s.setAppender a ap).appenders b = s.appenders b :=
  Function.update_of_ne h ..

def addAppender (s : State ℓ α) (l : ℓ) (a : α) : State ℓ α :=
  let ap := s.appenders a
  (s.setAppender a (if ap.formatter.isNone then { ap with formatter := some (s.loggers l).formatter } else ap))
    |>.setLogger l { s.loggers l with appenders := (s.loggers l).appenders ++ [a] }

/-- `Logger::setFormatter` with a pointer. -/
def setFormatter (s : State ℓ α) (l : ℓ) (val : FormatterPtr ℓ) : State ℓ α :=
  { s.setLogger l { s.loggers l with formatter := val } with
    appenders := fun a =>
      if a ∈ (s.loggers l).appenders ∧ (s.appenders a).hasFormatter = false then
        { s.appenders a with formatter := some val }
      else s.appenders a }

/-- `Logger::setFormatter` with a pattern. -/
def setPattern (s : State ℓ α) (l : ℓ) (val : String) : State ℓ α :=
  if (LogFormatter.mk val).isError then s
  else (s.newFormatter val).setFormatter l (.made s.formatters.length)

end

end State

end ShioSylar.Log
