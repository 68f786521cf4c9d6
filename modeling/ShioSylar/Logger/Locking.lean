import ShioSylar.Lib.Locks
import ShioSylar.Config.Load
import ShioSylar.Logger.Dump
import ShioSylar.Logger.Format

/-! The loggers with their mutexes (`logger.cc`, and what of `config.h` logs or is logged for).

Every function is the code that a thread runs, with a step for each lock, each access to what the
threads share and each turn of a loop. A `LogAppender`, a `Logger`, the `LoggerManager`, a `ConfigVar`
and `Config` have a mutex each, and calls are made with mutexes held: `LoggerManager::toYamlString`
asks the loggers, `Logger::log` the appenders and then `l_root`, the listener of `LogIniter` runs under
the read lock of its variable, and `Config::Lookup` logs under its write lock. Levels, the
formatter of a logger and `l_lastTime` are read without the mutex that they have.

A loop over a list asks after each turn whether the list is still the one it began with. An
`ofstream` is open or not, and failed or not; what the file system does for it may change at any
time. -/
namespace ShioSylar.Log.Locked
open Lib

inductive Lock where
  /-- `Config::GetMutex()`. -/
  | config
  | var (name : String)
  | manager
  | logger (name : String)
  | appender (a : Nat)
  deriving DecidableEq

inductive Fault where
  /-- A list has changed under a loop. -/
  | iterator
  /-- `l_formatter` is null. -/
  | formatter
  /-- An `l_root` has an `l_root`. -/
  | root
  /-- No appender is made for the type. -/
  | appender
  deriving DecidableEq

/-- What an `open` and a write would get from the file system now: whether the file can be opened,
whether it can be after `Mkdir`, and whether it takes what is written. -/
structure Disk where
  opens : Bool
  opensMade : Bool
  writes : Bool
  deriving DecidableEq

/-- `l_filestream`. -/
structure Stream where
  isOpen : Bool
  failed : Bool
  deriving DecidableEq

namespace Stream

def close (s : Stream) : Stream := { s with isOpen := false }

/-- `open`, which fails on an open stream. -/
def openFile (opens : Bool) (s : Stream) : Stream :=
  if s.isOpen || !opens then { s with failed := true } else ⟨true, false⟩

/-- `FSUtil::OpenForWrite`. -/
def openForWrite (disk : Disk) (s : Stream) : Stream :=
  let s := s.openFile disk.opens
  if s.isOpen then s else s.openFile disk.opensMade

/-- The body of `FileLogAppender::reopen`. -/
def reopen (disk : Disk) (s : Stream) : Stream :=
  (if s.failed then s else s.close).openForWrite disk

end Stream

structure Store (ω : Type) where
  manager : Manager
  /-- The keys of `l_loggers`. -/
  names : List String
  /-- The value of `g_log_defines`. -/
  value : LogDefines
  datas : Config.Datas String
  stream : Nat → Stream
  lastTime : Nat → BitVec 64
  disk : Nat → Disk
  /-- What the stream of an appender has taken, and from whom. -/
  text : Nat → List (ω × Option (List Char))
  cout : List (Option (List Char))
  fault : Option Fault

namespace Store
variable {ω : Type}

def log (s : Store ω) : State String Nat := s.manager.log

def setLog (s : Store ω) (log : State String Nat) : Store ω := { s with manager := { s.manager with log := log } }

def fail (s : Store ω) (f : Fault) : Store ω := { s with fault := some f }

def print (s : Store ω) (text : Option (List Char)) : Store ω := { s with cout := s.cout ++ [text] }

def setStream (s : Store ω) (a : Nat) (st : Stream) : Store ω := { s with stream := Function.update s.stream a st }

/-- `operator<<` on the stream of an appender. -/
def write (s : Store ω) (w : ω) (a : Nat) (text : Option (List Char)) : Store ω :=
  if (s.stream a).failed then s
  else if (s.stream a).isOpen && (s.disk a).writes then { s with text := Function.update s.text a (s.text a ++ [(w, text)]) }
  else s.setStream a { s.stream a with failed := true }

end Store

variable {ω : Type}

/-! ### Appenders -/

def setAppenderFormatter (a : Nat) (val : Option (FormatterPtr String)) : Code Lock (Store ω) Unit :=
  .withLock (.appender a) .exclusive <|
    .modify fun s => s.setLog (s.log.setAppender a ((s.log.appenders a).setFormatter val))

def getAppenderFormatter (a : Nat) : Code Lock (Store ω) (Option (FormatterPtr String)) :=
  .withLock (.appender a) .exclusive do
    let s ← .read
    pure (s.log.appenders a).formatter

/-- `LogAppender::setLevel`. -/
def setAppenderLevel (a : Nat) (level : LogLevel) : Code Lock (Store ω) Unit :=
  .modify fun s => s.setLog (s.log.setAppender a { s.log.appenders a with level := level })

def reopen (a : Nat) : Code Lock (Store ω) Unit :=
  .withLock (.appender a) .exclusive <| .modify fun s => s.setStream a ((s.stream a).reopen (s.disk a))

/-- `new StdOutLogAppender` or `new FileLogAppender`. -/
def newAppender (kind : AppenderKind) : Code Lock (Store ω) Nat := do
  let a ← .access
    (fun s => { s with manager := ⟨s.log.setAppender s.manager.next (.new kind .debug), s.manager.next + 1⟩ })
    fun s => pure s.manager.next
  match kind with
  | .stdout => pure a
  | .file _ => do
    reopen a
    pure a

section
variable (strftime : List Char → BitVec 64 → Option (List Char)) (w : ω) (level : LogLevel) (event : LogEvent)

/-- What `log` of the two appenders does with the formatter. -/
def format (a : Nat) (print : LogFormatter → Code Lock (Store ω) Unit) : Code Lock (Store ω) Unit :=
  .withLock (.appender a) .exclusive do
    let s ← .read
    match (s.log.appenders a).formatter.bind s.log.formatter with
    | none => .modify fun s => s.fail .formatter
    | some f => print f

/-- `StdOutLogAppender::log`. -/
def stdOutLog (a : Nat) : Code Lock (Store ω) Unit := do
  let s ← .read
  if (s.log.appenders a).level.toNat ≤ level.toNat then
    format a fun f => .modify fun s => s.print (f.format strftime level event)
  else pure ()

/-- `reopen` every three seconds. -/
def reopenLate (a : Nat) : Code Lock (Store ω) Unit := do
  let s ← .read
  if s.lastTime a + 3 ≤ event.time then do
    reopen a
    .modify fun s => { s with lastTime := Function.update s.lastTime a event.time }
  else pure ()

/-- The items of a formatter on the stream of an appender. -/
def writeItems (a : Nat) (f : LogFormatter) : Code Lock (Store ω) Unit := do
  Code.each (fun item => .modify fun s => s.write w a (item.format strftime level event)) f.items
  let s ← .read
  if (s.stream a).failed then .modify fun s => s.print (some "error\n".toList) else pure ()

/-- `FileLogAppender::log`. -/
def fileLog (a : Nat) : Code Lock (Store ω) Unit := do
  let s ← .read
  if (s.log.appenders a).level.toNat ≤ level.toNat then do
    reopenLate event a
    format a (writeItems strftime w level event a)
  else pure ()

def appenderLog (a : Nat) : Code Lock (Store ω) Unit := do
  let s ← .read
  match (s.log.appenders a).kind with
  | .stdout => stdOutLog strftime level event a
  | .file _ => fileLog strftime w level event a

/-! ### Loggers -/

/-- A loop over `l_appenders`. -/
def forAppenders (name : String) (body : Nat → Code Lock (Store ω) Unit) : Code Lock (Store ω) Unit := do
  let s ← .read
  Code.each (fun a => do
    body a
    .modify fun t => if (t.log.loggers name).appenders = (s.log.loggers name).appenders then t else t.fail .iterator)
    (s.log.loggers name).appenders

/-- `Logger::log` with what it does where there is an `l_root`. -/
def logOr (root : String → Code Lock (Store ω) Unit) (name : String) : Code Lock (Store ω) Unit := do
  let s ← .read
  if (s.log.loggers name).level.toNat ≤ level.toNat then
    .withLock (.logger name) .exclusive do
      let s ← .read
      if (s.log.loggers name).appenders ≠ [] then forAppenders name (appenderLog strftime w level event)
      else
        match (s.log.loggers name).root with
        | none => pure ()
        | some r => root r
  else pure ()

/-- `Logger::log`. -/
def log (name : String) : Code Lock (Store ω) Unit :=
  logOr strftime w level event (logOr strftime w level event fun _ => .modify fun s => s.fail .root) name

/-- The macros, which look at the level first, with what the operands of `<<` call. -/
def logMacroOf (operands : Code Lock (Store ω) Unit) (name : String) : Code Lock (Store ω) Unit := do
  let s ← .read
  if (s.log.loggers name).level.toNat ≤ level.toNat then do
    operands
    log strftime w level event name
  else pure ()

def logMacro (name : String) : Code Lock (Store ω) Unit := logMacroOf strftime w level event (pure ()) name

end

/-- The first half of `Logger::addAppender`. -/
def giveFormatter (name : String) (a : Nat) : Code Lock (Store ω) Unit := do
  let f ← getAppenderFormatter a
  if f.isNone then
    .withLock (.appender a) .exclusive <| .modify fun s =>
      s.setLog (s.log.setAppender a { s.log.appenders a with formatter := some (s.log.loggers name).formatter })
  else pure ()

def addAppender (name : String) (a : Nat) : Code Lock (Store ω) Unit :=
  .withLock (.logger name) .exclusive do
    giveFormatter name a
    .modify fun s =>
      s.setLog (s.log.setLogger name { s.log.loggers name with appenders := (s.log.loggers name).appenders ++ [a] })

def delAppender (name : String) (a : Nat) : Code Lock (Store ω) Unit :=
  .withLock (.logger name) .exclusive <| .modify fun s => s.setLog (s.log.delAppender name a)

def clearAppenders (name : String) : Code Lock (Store ω) Unit :=
  .withLock (.logger name) .exclusive <| .modify fun s => s.setLog (s.log.clearAppenders name)

/-- `Logger::setLevel`. -/
def setLevel (name : String) (level : LogLevel) : Code Lock (Store ω) Unit :=
  .modify fun s => s.setLog (s.log.setLevel name level)

/-- `l_formatter` of a logger is assigned. -/
def assignFormatter (name : String) (val : FormatterPtr String) : Code Lock (Store ω) Unit :=
  .modify fun s => s.setLog (s.log.setLogger name { s.log.loggers name with formatter := val })

/-- The body of the loop of `Logger::setFormatter`. -/
def inherit (name : String) (a : Nat) : Code Lock (Store ω) Unit :=
  .withLock (.appender a) .exclusive <| .modify fun s =>
    if (s.log.appenders a).hasFormatter then s
    else s.setLog (s.log.setAppender a { s.log.appenders a with formatter := some (s.log.loggers name).formatter })

def setFormatter (name : String) (val : FormatterPtr String) : Code Lock (Store ω) Unit :=
  .withLock (.logger name) .exclusive do
    assignFormatter name val
    forAppenders name (inherit name)

/-- `new LogFormatter`. -/
def newFormatter (pattern : String) : Code Lock (Store ω) (FormatterPtr String) :=
  .access (fun s => s.setLog (s.log.newFormatter pattern)) fun s => pure (.made s.log.formatters.length)

/-- `Logger::setFormatter` with a pattern, which also assigns without the mutex. -/
def setPattern (name val : String) : Code Lock (Store ω) Unit :=
  if (LogFormatter.mk val).isError then
    .modify fun s => s.print (some s!"Logger setFormatter name={name} value={val} invalid formatter\n".toList)
  else do
    let p ← newFormatter val
    assignFormatter name p
    setFormatter name p

/-- `Logger::getFormatter`. -/
def getFormatter (name : String) : Code Lock (Store ω) (FormatterPtr String) :=
  .withLock (.logger name) .exclusive do
    let s ← .read
    pure (s.log.loggers name).formatter

/-- `LogAppender::toYamlString`: what is written of it. -/
def appenderYaml (a : Nat) : Code Lock (Store ω) AppenderConfig :=
  .withLock (.appender a) .exclusive do
    let s ← .read
    pure (s.log.appenderConfig a)

/-- `Logger::toYamlString`. -/
def loggerYaml (name : String) : Code Lock (Store ω) LoggerConfig :=
  .withLock (.logger name) .exclusive do
    let s ← .read
    let appenders ← Code.collect appenderYaml (s.log.loggers name).appenders
    pure ⟨(s.log.loggers name).level, s.log.pattern (s.log.loggers name).formatter, appenders⟩

/-! ### The manager -/

def getLogger (name : String) : Code Lock (Store ω) Unit :=
  .withLock .manager .exclusive <|
    .modify fun s => { s with names := (OrderedSet.insert LoggerManager.less name s.names).1 }

/-- `LoggerManager::toYamlString`. -/
def managerYaml : Code Lock (Store ω) (List LoggerConfig) :=
  .withLock .manager .exclusive do
    let s ← .read
    Code.collect loggerYaml s.names

/-! ### The configuration -/

section
variable (strftime : List Char → BitVec 64 → Option (List Char)) (w : ω)

/-- The formatter of the definition of an appender. -/
def ownFormatter (name : String) (a : Nat) (d : LogAppenderDefine) : Code Lock (Store ω) Unit :=
  if d.formatter = "" then pure ()
  else if (LogFormatter.mk d.formatter).isError then
    .modify fun s => s.print (some s!"log.name={name} appender type={d.type} formatter={d.formatter} is invalid\n".toList)
  else do
    let p ← newFormatter d.formatter
    setAppenderFormatter a (some p)

/-- The body of the loop of the listener over the appenders. -/
def attach (name : String) (d : LogAppenderDefine) : Code Lock (Store ω) Unit :=
  match d.kind with
  | none => .modify fun s => s.fail .appender
  | some kind => do
    let a ← newAppender kind
    setAppenderLevel a d.level
    ownFormatter name a d
    addAppender name a

/-- The formatter of the definition of a logger. -/
def ownPattern (i : LogDefine) : Code Lock (Store ω) Unit :=
  if i.formatter = "" then pure () else setPattern i.name i.formatter

/-- The body of its loop over the new set, from `LOG_NAME` on. -/
def configure (i : LogDefine) : Code Lock (Store ω) Unit := do
  getLogger i.name
  setLevel i.name i.level
  ownPattern i
  clearAppenders i.name
  Code.each (attach i.name) i.appenders

def visit (old : LogDefines) (i : LogDefine) : Code Lock (Store ω) Unit :=
  match old.find i with
  | none => configure i
  | some d => if i.eq d then pure () else configure i

/-- The body of its loop over the old set. -/
def leave (new : LogDefines) (i : LogDefine) : Code Lock (Store ω) Unit :=
  if (new.find i).isNone then do
    getLogger i.name
    setLevel i.name .unknow
    clearAppenders i.name
  else pure ()

/-- The listener of `LogIniter`, with the event that it logs. -/
def listener (event : LogEvent) (old new : LogDefines) : Code Lock (Store ω) Unit := do
  logMacro strftime w .info event "root"
  Code.each (visit old) new.elems
  Code.each (leave new) old.elems

/-- `g_log_defines->setValue`. -/
def setValue (event : LogEvent) (v : LogDefines) : Code Lock (Store ω) Unit := do
  let returns ← Code.withLock (.var "logs") .shared do
    let s ← .read
    if v.eq s.value then pure true
    else do
      listener strftime w event s.value v
      pure false
  if returns then pure ()
  else .withLock (.var "logs") .exclusive <| .modify fun s => { s with value := v }

/-- `getValue` or `toString` of a variable. -/
def readVar (name : String) : Code Lock (Store ω) Unit :=
  .withLock (.var name) .shared do
    let _ ← .read
    pure ()

/-- `Config::Lookup<T>`, with the event that it logs; what it returns is read off the variables. -/
def lookup (event : LogEvent) (name description type : String) : Code Lock (Store ω) Unit :=
  .withLock .config .exclusive do
    let s ← .read
    match s.datas.find name with
    | some v =>
      if v.type = type then logMacro strftime w .info event "root"
      else logMacroOf strftime w .error event (readVar name) "root"
    | none =>
      if h : Config.validName name = true then
        .modify fun s => { s with datas := s.datas.insert name description type h }
      else logMacro strftime w .error event "root"

/-- `Config::LookupBase`. -/
def lookupBase (name : String) : Code Lock (Store ω) (Option (Config.ConfigVarBase String)) :=
  .withLock .config .shared do
    let s ← .read
    pure (s.datas.find name)

end

/-! ### What a thread may call -/

/-- A call, or a change of what the file system does. -/
inductive Call where
  | getLogger (name : String)
  | log (level : LogLevel) (event : LogEvent) (name : String)
  | addAppender (name : String) (a : Nat)
  | delAppender (name : String) (a : Nat)
  | clearAppenders (name : String)
  | setLevel (name : String) (level : LogLevel)
  | setPattern (name val : String)
  | getFormatter (name : String)
  | setAppenderLevel (a : Nat) (level : LogLevel)
  | setAppenderPattern (a : Nat) (pattern : String)
  | reopen (a : Nat)
  | loggerYaml (name : String)
  | managerYaml
  | setValue (event : LogEvent) (v : LogDefines)
  | readVar (name : String)
  | lookup (event : LogEvent) (name description type : String)
  | lookupBase (name : String)
  | disk (a : Nat) (disk : Disk)

/-- The appenders of a call, which are there. -/
def Call.appenders : Call → List Nat
  | addAppender _ a | delAppender _ a | setAppenderLevel a _ | setAppenderPattern a _ | reopen a => [a]
  | _ => []

section
variable (strftime : List Char → BitVec 64 → Option (List Char)) (w : ω)

def Call.code : Call → Code Lock (Store ω) Unit
  | getLogger name => Locked.getLogger name
  | log level event name => logMacro strftime w level event name
  | addAppender name a => Locked.addAppender name a
  | delAppender name a => Locked.delAppender name a
  | clearAppenders name => Locked.clearAppenders name
  | setLevel name level => Locked.setLevel name level
  | setPattern name val => Locked.setPattern name val
  | getFormatter name => Locked.getFormatter name >>= fun _ => pure ()
  | setAppenderLevel a level => Locked.setAppenderLevel a level
  | setAppenderPattern a pattern => newFormatter pattern >>= fun p => setAppenderFormatter a (some p)
  | reopen a => Locked.reopen a
  | loggerYaml name => Locked.loggerYaml name >>= fun _ => pure ()
  | managerYaml => Locked.managerYaml >>= fun _ => pure ()
  | setValue event v => Locked.setValue strftime w event v
  | readVar name => Locked.readVar name
  | lookup event name description type => Locked.lookup strftime w event name description type
  | lookupBase name => Locked.lookupBase name >>= fun _ => pure ()
  | disk a d => .modify fun s => { s with disk := Function.update s.disk a d }

/-- What a thread does: calls, with appenders that it makes itself. -/
inductive Client where
  | done
  | call (c : Call) (next : Client)
  | newAppender (kind : AppenderKind) (next : Nat → Client)

namespace Client

def code : Client → Code Lock (Store ω) Unit
  | done => pure ()
  | call c next => c.code strftime w >>= fun _ => code next
  | newAppender kind next => Locked.newAppender kind >>= fun a => code (next a)

/-- It has no appenders but those that it has made. -/
def Valid : List Nat → Client → Prop
  | _, done => True
  | known, call c next => (∀ a ∈ c.appenders, a ∈ known) ∧ next.Valid known
  | known, newAppender _ next => ∀ a, (next a).Valid (a :: known)

end Client

end

/-- The main logger with an appender for the standard output, and the variable `logs`. -/
def Store.init (disk : Nat → Disk) : Store ω where
  manager := initial.manager
  names := ["root"]
  value := initial.value
  datas := Config.Datas.empty.insert "logs" "logs config" "set<LogDefine>" (by decide)
  stream _ := ⟨false, false⟩
  lastTime _ := 0
  disk := disk
  text _ := []
  cout := []
  fault := none

end ShioSylar.Log.Locked
