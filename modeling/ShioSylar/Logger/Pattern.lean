/-! Log levels, and the parser of log patterns (`LogLevel` and `LogFormatter::init` of
`logger.cc`).

`init` walks over the pattern with an index that a directive moves past its end. Here the walk
is over the characters, and `skip` counts those that a directive has taken. -/
namespace ShioSylar.Log

inductive LogLevel where
  | unknow | debug | info | warn | error | fatal
  deriving DecidableEq

namespace LogLevel

def toNat : LogLevel → Nat
  | unknow => 0
  | debug => 1
  | info => 2
  | warn => 3
  | error => 4
  | fatal => 5

def toString : LogLevel → String
  | debug => "DEBUG"
  | info => "INFO"
  | warn => "WARN"
  | error => "ERROR"
  | fatal => "FATAL"
  | unknow => "UNKNOW"

def fromString (str : String) : LogLevel :=
  if str = "debug" then debug
  else if str = "info" then info
  else if str = "warn" then warn
  else if str = "error" then error
  else if str = "fatal" then fatal
  else if str = "DEBUG" then debug
  else if str = "INFO" then info
  else if str = "WARN" then warn
  else if str = "ERROR" then error
  else if str = "FATAL" then fatal
  else unknow

@[simp] theorem fromString_toString (level : LogLevel) : fromString level.toString = level := by
  cases level <;> decide

end LogLevel

/-- The subclasses of `FormatItem`. -/
inductive FormatItem where
  | message | level | elapse | name | threadId | newLine
  | dateTime (format : List Char)
  | filename | line | tab | fiberId | threadName
  | string (s : List Char)
  deriving DecidableEq

/-- `l_format_item`. -/
def formatItem (str fmt : List Char) : Option FormatItem :=
  match str with
  | ['m'] => some .message
  | ['p'] => some .level
  | ['r'] => some .elapse
  | ['c'] => some .name
  | ['t'] => some .threadId
  | ['n'] => some .newLine
  | ['d'] => some (.dateTime (if fmt.isEmpty then "%Y-%m-%d %H:%M:%S".toList else fmt))
  | ['f'] => some .filename
  | ['l'] => some .line
  | ['T'] => some .tab
  | ['F'] => some .fiberId
  | ['N'] => some .threadName
  | _ => none

/-- How the scan for a directive's name and braces ends. -/
inductive Directive where
  | plain (str : List Char)
  | unclosed
  | braced (str fmt : List Char)

/-- The inner loop of `init`, on what follows the '%'. -/
def directive (cs : List Char) : Directive :=
  let str := cs.takeWhile fun c => c.isAlpha || c == '}'
  match cs.dropWhile fun c => c.isAlpha || c == '}' with
  | '{' :: tail =>
    if '}' ∈ tail then .braced str (tail.takeWhile (· != '}')) else .unclosed
  | _ => .plain str

/-- An entry of `vec`. -/
inductive Piece where
  | text (s : List Char)
  | item (str fmt : List Char)
  deriving DecidableEq

/-- `nstr` is pushed unless it is empty. -/
def flush (nstr : List Char) : List Piece := if nstr.isEmpty then [] else [.text nstr]

/-- The outer loop of `init`. -/
def pieces (nstr : List Char) : Nat → List Char → List Piece
  | _, [] => flush nstr
  | skip + 1, _ :: cs => pieces nstr skip cs
  | 0, c :: cs =>
    if c ≠ '%' then pieces (nstr ++ [c]) 0 cs
    else if cs.head? = some '%' then pieces (nstr ++ ['%']) 0 cs
    else
      match directive cs with
      | .plain str => flush nstr ++ .item str [] :: pieces [] str.length cs
      | .unclosed => .text "<<pattern_error>>".toList :: pieces nstr 0 cs
      | .braced str fmt => flush nstr ++ .item str fmt :: pieces [] (str.length + fmt.length + 2) cs

/-- The last loop of `init`, on one entry. -/
def Piece.formatItem : Piece → FormatItem
  | .text s => .string s
  | .item str fmt => (Log.formatItem str fmt).getD (.string ("<<error_format %".toList ++ str ++ ">>".toList))

def Piece.isError : Piece → Bool
  | .text _ => false
  | .item str fmt => (Log.formatItem str fmt).isNone

/-- A formatter is its pattern: the items and the flag are computed from it once. -/
structure LogFormatter where
  pattern : String
  deriving DecidableEq

namespace LogFormatter

def items (f : LogFormatter) : List FormatItem := (pieces [] 0 f.pattern.toList).map Piece.formatItem

def isError (f : LogFormatter) : Bool := (pieces [] 0 f.pattern.toList).any Piece.isError

end LogFormatter

/-- The pattern that `Logger` is constructed with. -/
def defaultPattern : String := "%d{%Y-%m-%d %H:%M:%S}%T%t%T%N%T%m%n"

example : (LogFormatter.mk defaultPattern).isError = false := by decide

example : (LogFormatter.mk "%m%x").isError = true := by decide

end ShioSylar.Log
