import ShioSylar.Lib.Run
import ShioSylar.Hook.FdManager

/-! `connect` with a timeout (`connect_with_timeout` of `hook.cc`).

One call, with what happens around it at any time: the kernel settles the connection and then
reports WRITE, the timer expires and its callback runs on another thread, and other parts of
the program cancel the event (`cancelEvent`, `cancelAll` of `close`). The results of
`connect_f`, `addEvent` and `getsockopt` are free, except that SO_ERROR is 0 as long as the
connection is in progress.

The three ways to the SO_ERROR test are told apart by `addFailed` and `woken`. The timer's
callback marks `tinfo` before it wakes the fiber, so it never leads there (`Waiting`); the
failed `addEvent` and a foreign cancellation do, and then 0 says nothing. -/
namespace ShioSylar.Hook.Connect
open Lib
open TimerManager (U64)

/-- What a function of the system returns, with `errno`. -/
structure Result where
  n : Int
  errno : Int
  deriving DecidableEq

def ebadf : Int := 9

def etimedout : Int := 110

def einprogress : Int := 115

/-- An error number. -/
abbrev Error := { error : Int // error ≠ 0 }

/-- The connection in the kernel. -/
inductive Conn where
  | none | inProgress | established
  | failed (error : Error)
  deriving DecidableEq

/-- SO_ERROR. -/
def Conn.soError : Conn → Int
  | .failed error => error.val
  | _ => 0

/-- How a connection that is in progress ends. -/
def Conn.settled : Option Error → Conn
  | .none => .established
  | .some error => .failed error

/-- Where the fiber is. -/
inductive Stage where
  | lookup
  /-- Before `return connect_f(..)`. -/
  | direct
  | connect
  /-- Before `addConditionTimer`. -/
  | addTimer
  | addEvent
  | suspended
  /-- Before `timer->cancel()`, back from `YieldToHold`. -/
  | resumed
  /-- Before `if(tinfo->cancelled)`. -/
  | test
  /-- Before `timer->cancel()`, after `addEvent` failed. -/
  | failed
  /-- Before `getsockopt`. -/
  | soError
  | done (r : Result)
  deriving DecidableEq

/-- Where the timer is: in the container, or with its callback before the lock of the weak
pointer, the test of `cancelled`, its write, or `cancelEvent`. -/
inductive TimerStage where
  | off | pending | lock | test | mark | cancelEvent
  deriving DecidableEq

/-- Who put the fiber back into the queue. -/
inductive Wake where
  | ready | timer | other
  deriving DecidableEq

structure State where
  hookEnable : Bool
  /-- What `get(fd)` returns. -/
  ctx : Option FdCtx
  timeoutMs : U64
  conn : Conn
  stage : Stage := .lookup
  /-- WRITE is armed for the fiber. -/
  armed : Bool := false
  timer : TimerStage := .off
  /-- `tinfo->cancelled`. -/
  cancelled : Int := 0
  /-- What `connect_f` has returned. -/
  connected : Option Result := none
  addFailed : Bool := false
  woken : Option Wake := none

/-- The results that a step of the fiber is free to have. -/
structure Choice where
  connect : Result := ⟨0, 0⟩
  addEvent : Int := 0
  /-- `getsockopt` fails with this `errno`. -/
  getsockopt : Option Int := none

inductive Act where
  /-- The next step of the fiber. -/
  | work (x : Choice)
  /-- A worker takes the fiber out of the queue. -/
  | resume
  /-- The connection is established, or not. -/
  | settle (error : Option Error)
  /-- WRITE is reported. -/
  | ready
  /-- `listExpiredCb` takes the timer out. -/
  | expire
  /-- The next step of the timer's callback. -/
  | onTimer
  /-- A `cancelEvent` or `cancelAll` of another caller. -/
  | cancel

namespace State

/-- A call from another thread, before anything has happened. -/
def start (hookEnable : Bool) (ctx : Option FdCtx) (timeoutMs : U64) (conn : Conn) : State :=
  { hookEnable := hookEnable, ctx := ctx, timeoutMs := timeoutMs, conn := conn }

/-- `connect_f`; a connection that is in progress already, or is established, stays so. -/
def connectF (s : State) (r : Result) : State :=
  { s with
    connected := some r
    conn := if r.n = 0 then .established
      else if r.n = -1 ∧ r.errno = einprogress then .inProgress else s.conn }

/-- `if(timer) timer->cancel()`. -/
def cancelTimer (s : State) : State :=
  { s with timer := if s.timer = .pending then .off else s.timer }

/-- The event is triggered, if it is armed. -/
def trigger (s : State) (by_ : Wake) : State :=
  if s.armed then { s with armed := false, woken := some by_ } else s

/-- `connect_with_timeout` up to its next access to what it shares. -/
def work (s : State) (x : Choice) : Option State :=
  match s.stage with
  | .lookup =>
    let stage : Stage :=
      if !s.hookEnable then .direct
      else match s.ctx with
        | none => .done ⟨-1, ebadf⟩
        | some ctx =>
          if ctx.isClosed then .done ⟨-1, ebadf⟩
          else if !ctx.isSocket then .direct
          else if ctx.userNonblock then .direct
          else .connect
    some { s with stage := stage }
  | .direct => some { s.connectF x.connect with stage := .done x.connect }
  | .connect =>
    let stage : Stage :=
      if x.connect.n = 0 then .done ⟨0, x.connect.errno⟩
      else if x.connect.n ≠ -1 ∨ x.connect.errno ≠ einprogress then .done x.connect
      else if s.timeoutMs ≠ BitVec.allOnes 64 then .addTimer else .addEvent
    some { s.connectF x.connect with stage := stage }
  | .addTimer => some { s with timer := .pending, stage := .addEvent }
  | .addEvent =>
    if x.addEvent = 0 then some { s with armed := true, stage := .suspended }
    else some { s with addFailed := true, stage := .failed }
  | .suspended => none
  | .resumed => some { s.cancelTimer with stage := .test }
  | .test => some { s with stage := if s.cancelled ≠ 0 then .done ⟨-1, s.cancelled⟩ else .soError }
  | .failed => some { s.cancelTimer with stage := .soError }
  | .soError =>
    let r : Result :=
      match x.getsockopt with
      | some errno => ⟨-1, errno⟩
      | none => if s.conn.soError = 0 then ⟨0, 0⟩ else ⟨-1, s.conn.soError⟩
    some { s with stage := .done r }
  | .done _ => none

/-- The callback of `addConditionTimer`: it does nothing when `tinfo` is gone or marked. -/
def onTimer (s : State) : Option State :=
  match s.timer with
  | .off => none
  | .pending => none
  | .lock => some { s with timer := match s.stage with
      | .done _ => .off
      | _ => .test }
  | .test => some { s with timer := if s.cancelled ≠ 0 then .off else .mark }
  | .mark => some { s with cancelled := etimedout, timer := .cancelEvent }
  | .cancelEvent => some { s.trigger .timer with timer := .off }

end State

def step (s : State) : Act → Option State
  | .work x => s.work x
  | .resume => if s.stage = .suspended ∧ s.woken.isSome then some { s with stage := .resumed } else none
  | .settle error =>
    if s.conn = .inProgress then some { s with conn := .settled error } else none
  | .ready => if s.armed = true ∧ s.conn ≠ .inProgress then some (s.trigger .ready) else none
  | .expire => if s.timer = .pending then some { s with timer := .lock } else none
  | .onTimer => s.onTimer
  | .cancel => some (s.trigger .other)

/-- What a call that has returned 0 promises. -/
def Honest (s : State) : Prop :=
  ∀ r, s.stage = .done r → r.n = 0 → s.conn = .established ∧
    ((∃ c, s.connected = some c ∧ c.n = 0) ∨ (s.woken = some .ready ∧ s.conn.soError = 0))

/-- Where the SO_ERROR test is reached without a report, the connection has failed by then, or
`getsockopt` fails. -/
def Decided (s : State) : Act → Prop
  | .work x => s.stage = .soError → s.addFailed = true ∨ s.woken = some .other →
      x.getsockopt.isSome = true ∨ ∃ e, s.conn = .failed e
  | _ => True

/-- The connection was in progress when `connect_f` returned. -/
def State.Begun (s : State) : Prop := s.conn ≠ .none ∧ ∃ c, s.connected = some c ∧ c.n ≠ 0

/-- The call has not come to `addEvent` yet. -/
def State.Early (s : State) : Prop := s.armed = false ∧ s.woken = none ∧ s.addFailed = false

/-- What holds of a call at each of its stages. -/
def State.At (s : State) : Stage → Prop
  | .lookup | .direct | .connect => s.Early
  | .addTimer | .addEvent => s.Early ∧ s.Begun
  | .suspended => s.addFailed = false ∧ s.Begun ∧ (s.armed = true → s.woken = none)
  | .resumed | .test => s.armed = false ∧ s.addFailed = false ∧ s.woken.isSome = true ∧ s.Begun
  | .failed => s.armed = false ∧ s.addFailed = true ∧ s.woken = none ∧ s.Begun
  -- the timer's callback has not led here
  | .soError => s.armed = false ∧ s.Begun ∧ ((s.addFailed = true ∧ s.woken = none) ∨
      (s.addFailed = false ∧ (s.woken = some .ready ∨ s.woken = some .other)))
  | .done _ => s.armed = false

structure Waiting (s : State) : Prop where
  stage : s.At s.stage
  /-- The timer's callback marks `tinfo` before it wakes the fiber. -/
  marked : s.timer = .cancelEvent ∨ s.woken = some .timer → s.cancelled ≠ 0
  ready : s.woken = some .ready → s.conn ≠ .inProgress

theorem start_waiting (hookEnable : Bool) (ctx : Option FdCtx) (timeoutMs : U64) (conn : Conn) :
    Waiting (State.start hookEnable ctx timeoutMs conn) :=
  ⟨⟨rfl, rfl, rfl⟩, by simp [State.start], nofun⟩

theorem Conn.soError_eq_zero {conn : Conn} : conn.soError = 0 ↔ ∀ e, conn ≠ .failed e := by
  cases conn with
  | none | inProgress | established => simp [Conn.soError]
  | failed error => simpa [Conn.soError] using error.property

section
variable {s t : State}

/-- Nothing is armed but while the fiber waits. -/
theorem Waiting.armed (k : Waiting s) (h : s.armed = true) : s.stage = .suspended := by
  have hat := k.stage
  cases hst : s.stage with
  | suspended => rfl
  | lookup | direct | connect =>
    rw [hst] at hat
    cases h.symm.trans hat.1
  | addTimer | addEvent =>
    rw [hst] at hat
    cases h.symm.trans hat.1.1
  | resumed | test | failed | soError =>
    rw [hst] at hat
    cases h.symm.trans hat.1
  | done r =>
    rw [hst] at hat
    cases h.symm.trans hat

theorem State.At.congr {st : Stage} (h : s.At st) (harmed : t.armed = s.armed) (hwoken : t.woken = s.woken)
    (hadd : t.addFailed = s.addFailed) (hbegun : s.Begun → t.Begun) : t.At st := by
  cases st <;> simp only [State.At, State.Early, harmed, hwoken, hadd] at h ⊢
  case addTimer | addEvent => exact ⟨h.1, hbegun h.2⟩
  case suspended => exact ⟨h.1, hbegun h.2.1, h.2.2⟩
  case resumed | test => exact ⟨h.1, h.2.1, h.2.2.1, hbegun h.2.2.2⟩
  case failed => exact ⟨h.1, h.2.1, h.2.2.1, hbegun h.2.2.2⟩
  case soError => exact ⟨h.1, hbegun h.2.1, h.2.2⟩
  all_goals exact h

/-- A trigger of an armed event wakes the fiber. -/
theorem Waiting.trigger (k : Waiting s) {by_ : Wake} (hready : by_ = .ready → s.conn ≠ .inProgress)
    (htimer : by_ = .timer → s.cancelled ≠ 0) : Waiting (s.trigger by_) := by
  unfold State.trigger
  split
  · rename_i harmed
    have hst := k.armed harmed
    have hat := k.stage
    rw [hst] at hat
    refine ⟨?_, ?_, fun h => hready (Option.some.inj h)⟩
    · show State.At _ s.stage
      rw [hst]
      exact ⟨hat.1, hat.2.1, nofun⟩
    · rintro (h | h)
      · exact k.marked (.inl h)
      · exact htimer (Option.some.inj h)
  · exact k

/-- A step of the fiber that leaves the timer's callback and the reports alone. -/
theorem Waiting.goes (k : Waiting s) (hat : t.At t.stage) (htimer : t.timer = .cancelEvent → s.timer = .cancelEvent)
    (hcancelled : t.cancelled = s.cancelled) (hwoken : t.woken = s.woken)
    (hconn : s.woken = some .ready → t.conn = .inProgress → s.conn = .inProgress) : Waiting t := by
  refine ⟨hat, fun h => ?_, fun h hc => ?_⟩
  · rw [hcancelled]
    rw [hwoken] at h
    exact k.marked (h.imp_left htimer)
  · rw [hwoken] at h
    exact k.ready h (hconn h hc)

theorem cancelTimer_cancelEvent : s.cancelTimer.timer = .cancelEvent → s.timer = .cancelEvent := by
  unfold State.cancelTimer
  intro h
  simp only at h
  split at h
  · cases h
  · exact h

/-- What `connect_f` leaves where the call goes on. -/
theorem connectF_begun {r : Result} (hn : r.n ≠ 0) (hp : ¬(r.n ≠ -1 ∨ r.errno ≠ einprogress)) :
    (s.connectF r).Begun := by
  rw [not_or, not_not, not_not] at hp
  refine ⟨?_, r, rfl, hn⟩
  simp [State.connectF, hp]

/-- Where the lookup leads. -/
theorem lookup_cases {x : Choice} (hst : s.stage = .lookup) (h : s.work x = some t) :
    ∃ stage, t = { s with stage := stage } ∧
      (stage = .direct ∨ stage = .connect ∨ stage = .done ⟨-1, ebadf⟩) := by
  simp only [State.work, hst, Option.some.injEq] at h
  refine ⟨_, h.symm, ?_⟩
  split
  · exact .inl rfl
  · split
    · exact .inr (.inr rfl)
    · split
      · exact .inr (.inr rfl)
      · split
        · exact .inl rfl
        · split
          · exact .inl rfl
          · exact .inr (.inl rfl)

/-- Where the call of `connect_f` leads. -/
theorem connect_cases {x : Choice} (hst : s.stage = .connect) (h : s.work x = some t) :
    ∃ stage, t = { s.connectF x.connect with stage := stage } ∧
      ((∃ r : Result, stage = .done r ∧ r.n = x.connect.n) ∨
        ((stage = .addTimer ∨ stage = .addEvent) ∧ (s.connectF x.connect).Begun)) := by
  simp only [State.work, hst, Option.some.injEq] at h
  refine ⟨_, h.symm, ?_⟩
  split
  · rename_i hn
    exact .inl ⟨_, rfl, hn.symm⟩
  · rename_i hn
    split
    · exact .inl ⟨_, rfl, rfl⟩
    · rename_i hp
      have hbegun := connectF_begun (s := s) hn hp
      split
      · exact .inr ⟨.inl rfl, hbegun⟩
      · exact .inr ⟨.inr rfl, hbegun⟩

theorem work_waiting (k : Waiting s) {x : Choice} (h : s.work x = some t) : Waiting t := by
  have hat := k.stage
  have hsame : s.woken = some .ready → s.conn = .inProgress → s.conn = .inProgress := fun _ h => h
  cases hst : s.stage with
  | lookup =>
    rw [hst] at hat
    obtain ⟨stage, rfl, hstage⟩ := lookup_cases hst h
    refine k.goes ?_ id rfl rfl hsame
    rcases hstage with rfl | rfl | rfl
    · exact hat
    · exact hat
    · exact hat.1
  | direct =>
    rw [hst] at hat
    simp only [State.work, hst, Option.some.injEq] at h
    subst h
    refine k.goes hat.1 id rfl rfl fun hw => ?_
    rw [hat.2.1] at hw
    cases hw
  | connect =>
    rw [hst] at hat
    obtain ⟨stage, rfl, hstage⟩ := connect_cases hst h
    refine k.goes ?_ id rfl rfl fun hw => ?_
    · rcases hstage with ⟨r, rfl, -⟩ | ⟨rfl | rfl, hbegun⟩
      · exact hat.1
      · exact ⟨hat, hbegun⟩
      · exact ⟨hat, hbegun⟩
    · rw [hat.2.1] at hw
      cases hw
  | addTimer =>
    rw [hst] at hat
    simp only [State.work, hst, Option.some.injEq] at h
    subst h
    exact k.goes hat nofun rfl rfl hsame
  | addEvent =>
    rw [hst] at hat
    obtain ⟨⟨harmed, hw, hadd⟩, hbegun⟩ := hat
    simp only [State.work, hst] at h
    split at h
    · cases h
      exact k.goes ⟨hadd, hbegun, fun _ => hw⟩ id rfl rfl hsame
    · cases h
      exact k.goes ⟨harmed, rfl, hw, hbegun⟩ id rfl rfl hsame
  | suspended =>
    simp only [State.work, hst] at h
    cases h
  | resumed =>
    rw [hst] at hat
    simp only [State.work, hst, Option.some.injEq] at h
    subst h
    exact k.goes hat cancelTimer_cancelEvent rfl rfl hsame
  | test =>
    rw [hst] at hat
    obtain ⟨harmed, hadd, hw, hbegun⟩ := hat
    simp only [State.work, hst, Option.some.injEq] at h
    subst h
    refine k.goes ?_ id rfl rfl hsame
    show State.At _ _
    split
    · exact harmed
    · rename_i hzero
      refine ⟨harmed, hbegun, .inr ⟨hadd, ?_⟩⟩
      obtain ⟨by_, hby⟩ := Option.isSome_iff_exists.mp hw
      cases by_ with
      | ready => exact .inl hby
      | other => exact .inr hby
      | timer => exact absurd (k.marked (.inr hby)) hzero
  | failed =>
    rw [hst] at hat
    obtain ⟨harmed, hadd, hw, hbegun⟩ := hat
    simp only [State.work, hst, Option.some.injEq] at h
    subst h
    exact k.goes ⟨harmed, hbegun, .inl ⟨hadd, hw⟩⟩ cancelTimer_cancelEvent rfl rfl hsame
  | soError =>
    rw [hst] at hat
    simp only [State.work, hst, Option.some.injEq] at h
    subst h
    exact k.goes hat.1 id rfl rfl hsame
  | done r =>
    simp only [State.work, hst] at h
    cases h

theorem onTimer_waiting (k : Waiting s) (h : s.onTimer = some t) : Waiting t := by
  have hsame : s.woken = some .ready → s.conn = .inProgress → s.conn = .inProgress := fun _ h => h
  cases htimer : s.timer with
  | off | pending =>
    simp only [State.onTimer, htimer] at h
    cases h
  | lock =>
    simp only [State.onTimer, htimer, Option.some.injEq] at h
    subst h
    refine k.goes k.stage (fun h => ?_) rfl rfl hsame
    revert h
    show (match s.stage with
      | .done _ => TimerStage.off
      | _ => .test) = .cancelEvent → _
    split <;> exact nofun
  | test =>
    simp only [State.onTimer, htimer, Option.some.injEq] at h
    subst h
    refine k.goes k.stage (fun h => ?_) rfl rfl hsame
    revert h
    show (if s.cancelled ≠ 0 then TimerStage.off else .mark) = .cancelEvent → _
    split <;> exact nofun
  | mark =>
    simp only [State.onTimer, htimer, Option.some.injEq] at h
    subst h
    exact ⟨k.stage, fun _ => (by decide : etimedout ≠ 0), k.ready⟩
  | cancelEvent =>
    simp only [State.onTimer, htimer, Option.some.injEq] at h
    subst h
    have hmarked := k.marked (.inl htimer)
    have kt : Waiting (s.trigger .timer) := k.trigger nofun fun _ => hmarked
    exact kt.goes kt.stage nofun rfl rfl fun _ h => h

theorem step_waiting (s : State) (a : Act) (t : State) (k : Waiting s) (h : step s a = some t) :
    Waiting t := by
  cases a with
  | work x => exact work_waiting k h
  | resume =>
    obtain ⟨⟨hst, hw⟩, h⟩ := Option.ite_none_right_eq_some.mp h
    cases h
    have hat := k.stage
    rw [hst] at hat
    have harmed : s.armed = false := by
      cases harmed : s.armed with
      | false => rfl
      | true =>
        rw [hat.2.2 harmed] at hw
        cases hw
    exact k.goes ⟨harmed, hat.1, hw, hat.2.1⟩ id rfl rfl fun _ h => h
  | settle error =>
    obtain ⟨hprog, h⟩ := Option.ite_none_right_eq_some.mp h
    cases h
    have hsettled : Conn.settled error ≠ .none ∧ Conn.settled error ≠ .inProgress := by
      cases error <;> exact ⟨nofun, nofun⟩
    refine k.goes (k.stage.congr rfl rfl rfl fun hb => ⟨hsettled.1, hb.2⟩) id rfl rfl fun _ hc => ?_
    exact absurd hc hsettled.2
  | ready =>
    obtain ⟨⟨-, hconn⟩, h⟩ := Option.ite_none_right_eq_some.mp h
    cases h
    exact k.trigger (fun _ => hconn) nofun
  | expire =>
    obtain ⟨-, h⟩ := Option.ite_none_right_eq_some.mp h
    cases h
    exact k.goes k.stage nofun rfl rfl fun _ h => h
  | onTimer => exact onTimer_waiting k h
  | cancel =>
    cases h
    exact k.trigger nofun nofun

theorem trigger_unarmed (h : s.armed = false) (by_ : Wake) : s.trigger by_ = s := by
  simp [State.trigger, h]

/-- A call that has returned stays as it is. -/
theorem done_kept {r : Result} (k : Waiting s) (hst : s.stage = .done r) {a : Act}
    (h : step s a = some t) : t.stage = s.stage ∧ t.connected = s.connected ∧ t.woken = s.woken ∧
      (t.conn = s.conn ∨ s.conn = .inProgress) := by
  have harmed : s.armed = false := by
    have hat := k.stage
    rwa [hst] at hat
  cases a with
  | work x =>
    simp only [step, State.work, hst] at h
    cases h
  | resume =>
    obtain ⟨⟨hsusp, -⟩, -⟩ := Option.ite_none_right_eq_some.mp h
    cases hst.symm.trans hsusp
  | settle error =>
    obtain ⟨hprog, h⟩ := Option.ite_none_right_eq_some.mp h
    cases h
    exact ⟨rfl, rfl, rfl, .inr hprog⟩
  | ready =>
    obtain ⟨⟨harmed', -⟩, -⟩ := Option.ite_none_right_eq_some.mp h
    cases harmed.symm.trans harmed'
  | expire =>
    obtain ⟨-, h⟩ := Option.ite_none_right_eq_some.mp h
    cases h
    exact ⟨rfl, rfl, rfl, .inl rfl⟩
  | onTimer =>
    simp only [step, State.onTimer] at h
    split at h <;> cases h
    all_goals try rw [trigger_unarmed harmed]
    all_goals exact ⟨rfl, rfl, rfl, .inl rfl⟩
  | cancel =>
    cases h
    rw [trigger_unarmed harmed]
    exact ⟨rfl, rfl, rfl, .inl rfl⟩

theorem Honest.kept {r : Result} (hs : Honest s) (k : Waiting s) (hst : s.stage = .done r) {a : Act}
    (h : step s a = some t) : Honest t := by
  obtain ⟨hstage, hconnected, hwoken, hconn⟩ := done_kept k hst h
  intro r' hr' hn
  rw [hstage] at hr'
  obtain ⟨hest, hwhy⟩ := hs r' hr' hn
  have hsame : t.conn = s.conn := by
    rcases hconn with hsame | hprog
    · exact hsame
    · cases hest.symm.trans hprog
  rw [hsame, hconnected, hwoken]
  exact ⟨hest, hwhy⟩

/-- A call that has not returned promises nothing. -/
theorem honest_of_stage (h : ∀ r, s.stage = .done r → r.n ≠ 0) : Honest s :=
  fun r hr hn => absurd hn (h r hr)

/-- The SO_ERROR test. -/
theorem soError_honest {x : Choice} (k : Waiting s) (hst : s.stage = .soError)
    (h : s.work x = some t) : Honest t ↔ Decided s (.work x) := by
  have hat := k.stage
  rw [hst] at hat
  obtain ⟨-, ⟨hnone, c, hc, hn⟩, hpath⟩ := hat
  simp only [State.work, hst, Option.some.injEq] at h
  subst h
  cases hg : x.getsockopt with
  | some errno =>
    refine ⟨fun _ _ _ => .inl (by rw [hg]; rfl), fun _ => honest_of_stage fun r hr => ?_⟩
    cases hr
    exact (by decide : (-1 : Int) ≠ 0)
  | none =>
    by_cases hfailed : ∃ e, s.conn = .failed e
    · obtain ⟨e, he⟩ := hfailed
      refine ⟨fun _ _ _ => .inr ⟨e, he⟩, fun _ => honest_of_stage fun r hr => ?_⟩
      have hne : s.conn.soError ≠ 0 := by rw [he]; exact e.property
      simp only [if_neg hne, Stage.done.injEq] at hr
      rw [← hr]
      exact (by decide : (-1 : Int) ≠ 0)
    · have hzero : s.conn.soError = 0 := Conn.soError_eq_zero.mpr (not_exists.mp hfailed)
      constructor
      · intro hhonest _ hway
        obtain ⟨-, hwhy⟩ := hhonest ⟨0, 0⟩ (by simp [hzero]) rfl
        obtain ⟨c', hc', hn'⟩ | ⟨hready, -⟩ := hwhy
        · cases hc.symm.trans hc'
          exact absurd hn' hn
        · have hready : s.woken = some .ready := hready
          obtain ⟨-, hw⟩ | ⟨hadd, -⟩ := hpath
          · cases hw.symm.trans hready
          · obtain hadd' | hother := hway
            · cases hadd.symm.trans hadd'
            · cases hready.symm.trans hother
      · intro hdecided r _ _
        have hready : s.woken = some .ready := by
          obtain ⟨hadd, -⟩ | ⟨-, hready | hother⟩ := hpath
          · obtain hsome | hfail := hdecided hst (.inl hadd)
            · rw [hg] at hsome
              cases hsome
            · exact absurd hfail hfailed
          · exact hready
          · obtain hsome | hfail := hdecided hst (.inr hother)
            · rw [hg] at hsome
              cases hsome
            · exact absurd hfail hfailed
        have hest : s.conn = .established := by
          cases hconn : s.conn with
          | established => rfl
          | none => exact absurd hconn hnone
          | inProgress => exact absurd hconn (k.ready hready)
          | failed e => exact absurd ⟨e, hconn⟩ hfailed
        exact ⟨hest, .inr ⟨hready, hzero⟩⟩

/-- A call of `connect_f` that returns 0. -/
theorem connectF_honest {r : Result} {st : Stage} (hst : ∀ r', st = .done r' → r'.n = r.n) :
    Honest { s.connectF r with stage := st } := by
  intro r' hr' hn
  have hr : r.n = 0 := (hst r' hr').symm.trans hn
  exact ⟨if_pos hr, .inl ⟨r, rfl, hr⟩⟩

/-- The other ways out of the call. -/
theorem work_honest {x : Choice} (hst : s.stage ≠ .soError) (h : s.work x = some t) : Honest t := by
  have hminus : (-1 : Int) ≠ 0 := by decide
  cases hs : s.stage with
  | lookup =>
    obtain ⟨stage, rfl, hstage⟩ := lookup_cases hs h
    refine honest_of_stage fun r hr => ?_
    rcases hstage with rfl | rfl | rfl
    · cases hr
    · cases hr
    · cases hr
      exact hminus
  | direct =>
    simp only [State.work, hs, Option.some.injEq] at h
    subst h
    refine connectF_honest fun r' hr' => ?_
    cases hr'
    rfl
  | connect =>
    obtain ⟨stage, rfl, hstage⟩ := connect_cases hs h
    refine connectF_honest fun r' hr' => ?_
    rcases hstage with ⟨r, rfl, hn⟩ | ⟨rfl | rfl, -⟩
    · cases hr'
      exact hn
    · cases hr'
    · cases hr'
  | test =>
    simp only [State.work, hs, Option.some.injEq] at h
    subst h
    refine honest_of_stage fun r hr => ?_
    revert hr
    show (if _ then _ else _ : Stage) = _ → _
    split
    · rintro ⟨⟩
      exact hminus
    · exact nofun
  | addTimer | resumed | failed =>
    simp only [State.work, hs, Option.some.injEq] at h
    subst h
    exact honest_of_stage nofun
  | addEvent =>
    simp only [State.work, hs] at h
    split at h <;> cases h <;> exact honest_of_stage nofun
  | soError => exact absurd hs hst
  | suspended | done r =>
    simp only [State.work, hs] at h
    cases h

theorem trigger_stage (s : State) (by_ : Wake) : (s.trigger by_).stage = s.stage := by
  unfold State.trigger
  split <;> rfl

/-- What others do never makes a call return. -/
theorem stage_kept {a : Act} (ha : ∀ x, a ≠ .work x) (h : step s a = some t) :
    t.stage = s.stage ∨ t.stage = .resumed := by
  cases a with
  | work x => exact absurd rfl (ha x)
  | resume =>
    obtain ⟨-, h⟩ := Option.ite_none_right_eq_some.mp h
    cases h
    exact .inr rfl
  | settle | expire =>
    obtain ⟨-, h⟩ := Option.ite_none_right_eq_some.mp h
    cases h
    exact .inl rfl
  | ready =>
    obtain ⟨-, h⟩ := Option.ite_none_right_eq_some.mp h
    cases h
    exact .inl (trigger_stage ..)
  | onTimer =>
    simp only [step, State.onTimer] at h
    split at h <;> cases h <;> first | exact .inl rfl | exact .inl (trigger_stage ..)
  | cancel =>
    cases h
    exact .inl (trigger_stage ..)

/-- The SO_ERROR test decides. -/
theorem honest_iff (s : State) (a : Act) (t : State) (k : Waiting s) (hs : Honest s)
    (h : step s a = some t) : Honest t ↔ Decided s a := by
  have hother : (∀ x, a ≠ .work x) → Honest t := by
    intro ha r hr
    rcases stage_kept ha h with hsame | hres
    · exact hs.kept k (hsame ▸ hr) h r hr
    · cases hres.symm.trans hr
  cases a with
  | work x =>
    by_cases hst : s.stage = .soError
    · exact soError_honest k hst h
    · exact ⟨fun _ hso => absurd hso hst, fun _ => work_honest hst h⟩
  | resume | settle | ready | expire | onTimer | cancel =>
    exact ⟨fun _ => trivial, fun _ => hother nofun⟩

/-- **Success.** A call of `connect` that returns 0 has an established connection, either from
`connect_f` or reported by WRITE with SO_ERROR 0, in every run in which, and only in which,
each SO_ERROR test that was reached without a report finds an error. -/
theorem connect_reachable (hookEnable : Bool) (ctx : Option FdCtx) (timeoutMs : U64) (conn : Conn)
    (acts : List Act) (s : State)
    (h : run step (State.start hookEnable ctx timeoutMs conn) acts = some s) :
    (∀ xs ys u, acts = xs ++ ys → run step (State.start hookEnable ctx timeoutMs conn) xs = some u →
      Honest u) ↔ Meets step Decided (State.start hookEnable ctx timeoutMs conn) acts :=
  passes_iff_meets step_waiting honest_iff (start_waiting ..) nofun h

end

instance (s : State) : (a : Act) → Decidable (Decided s a)
  | .work x => decidable_of_iff (s.stage = .soError → s.addFailed = true ∨ s.woken = some .other →
      x.getsockopt.isSome = true ∨ s.conn.soError ≠ 0) (by
        simp only [Decided, ne_eq, Conn.soError_eq_zero, not_forall, not_not])
  | .resume | .settle _ | .ready | .expire | .onTimer | .cancel => isTrue trivial

/-- A managed socket that blocks. -/
def blocking : Option FdCtx := some { isInit := true, isSocket := true, sysNonblock := true, fd := 3 }

/-- `connect_f` says EINPROGRESS. -/
def pending : Choice := { connect := ⟨-1, einprogress⟩ }

/-- The timer expires after the report, and its callback comes before the fiber. -/
def reportedActs : List Act :=
  [.work pending, .work pending, .work pending, .work pending, .settle none, .ready, .expire, .resume,
    .work pending, .work pending, .work pending, .onTimer]

theorem connect_reachable_sample : ∃ s, run step (State.start true blocking 1000 .none) reportedActs = some s ∧
    s.stage = .done ⟨0, 0⟩ ∧ s.conn = .established := by
  have hrun : ∃ s, run step (State.start true blocking 1000 .none) reportedActs = some s ∧
      s.stage = .done ⟨0, 0⟩ := ⟨_, rfl, rfl⟩
  obtain ⟨s, hs, hst⟩ := hrun
  have hhonest := (connect_reachable true blocking 1000 .none reportedActs s hs).mpr (by decide)
    reportedActs [] s (List.append_nil _).symm hs
  exact ⟨s, hs, hst, (hhonest _ hst rfl).1⟩

/-- `addEvent` fails, and the call returns 0 with the connection in progress. So does one whose
event another caller has cancelled. -/
theorem connect_in_progress :
    (∃ s, run step (State.start true blocking (BitVec.allOnes 64) .none)
        [.work pending, .work pending, .work { addEvent := -1 }, .work pending, .work pending] = some s ∧
      s.stage = .done ⟨0, 0⟩ ∧ s.conn = .inProgress) ∧
    ∃ s, run step (State.start true blocking (BitVec.allOnes 64) .none)
        [.work pending, .work pending, .work pending, .cancel, .resume, .work pending, .work pending,
          .work pending] = some s ∧
      s.stage = .done ⟨0, 0⟩ ∧ s.conn = .inProgress :=
  ⟨⟨_, rfl, rfl, rfl⟩, _, rfl, rfl, rfl⟩

end ShioSylar.Hook.Connect
