import ShioSylar.Hook.Slots
import ShioSylar.Timer.Deadline

/-! What a call of `do_io` returns, and what it leaves behind.

A `Recorded` keeps what each call has done so far: the results of `fun`, the timers and the
`addEvent`s, and what it found in `cancelled` at the end of a wait. A call goes in rounds, each with
one `addEvent` and at most one timer, and its last round says what it returns (`Lawful`). The timer
of a round is out of the container before the next begins, and the table holds a fiber only while
it waits, so nothing of a call is left when it returns. -/
namespace ShioSylar.Hook.Law
open Scheduler IOManager Lib
open TimerManager (U64 Container)

inductive Entry where
  /-- `fun` has returned. -/
  | call (r : IoResult)
  /-- `addConditionTimer`. -/
  | timer
  /-- `addEvent`, and whether it returned 0. -/
  | addEvent (added : Bool)
  /-- A wait is over, with what `cancelled` was. -/
  | woken (cancelled : Bool)
  deriving DecidableEq

/-- A call that is over. -/
structure Returned where
  info : Info
  to_ : U64
  trace : List Entry
  ret : Ret

/-! ### The law -/

/-- A round up to its `addEvent`: EAGAIN, and a timer if there is a timeout. -/
def begun (ms : U64) : List Entry := .call .again :: if ms = BitVec.allOnes 64 then [] else [.timer]

/-- A round after which the call tries again. -/
def round (ms : U64) : List Entry := begun ms ++ [.addEvent true, .woken false]

/-- The last round, and what it returns. -/
inductive Ends (ms : U64) : List Entry → Ret → Prop
  | ok (n) : Ends ms [.call (.ok n)] (.ok n)
  | fail (e) : Ends ms [.call (.fail e)] (.fail e)
  | refused : Ends ms (begun ms ++ [.addEvent false]) (.fail .other)
  | timedOut : Ends ms (begun ms ++ [.addEvent true, .woken true]) (.fail .timedout)

/-- What the results with EINTR leave. -/
def clean (trace : List Entry) : List Entry := trace.filter (· ≠ .call .intr)

/-- Any number of rounds and a last one. -/
def Returned.Lawful (r : Returned) : Prop :=
  ∃ k last, clean r.trace = (List.replicate k (round r.to_)).flatten ++ last ∧ Ends r.to_ last r.ret

/-! ### Recording -/

/-- What a step of a fiber adds to its trace. -/
def entries {ι φ : Type} [LinearOrder ι] [DecidableEq φ] (s : State ι φ) (f : φ) (x : Choice ι) : List Entry :=
  match s.doing f with
  | .io .retry _ => [.call x.result]
  | .io .addTimer c => if c.to_ = BitVec.allOnes 64 then [] else [.timer]
  | .io .addEvent c =>
    match exec s.table (.addEvent c.info.fd c.info.event ⟨some (), f⟩ none (x.ok && s.isOpen c.info.fd)) with
    | .ok (r, _) => [.addEvent (decide (r = .returned true))]
    | .error _ => []
  | .io .test c => [.woken (s.cancelled c.info)]
  | _ => []

structure Recorded (ι φ : Type) where
  hook : State ι φ
  /-- What the call that a fiber is in has done. -/
  trace : φ → List Entry
  returned : List Returned

inductive Act (ι φ : Type) where
  | hook (a : Hook.Act ι φ)
  /-- `cancelEvent` and `cancelAll` of the program. -/
  | cancelEvent (fd : Nat) (event : Event) (ok : Bool)
  | cancelAll (fd : Nat) (ok : Bool)

section
variable {ι φ : Type} [LinearOrder ι] [DecidableEq φ]

namespace Recorded

def start (now : U64) : Recorded ι φ := ⟨Hook.start now, fun _ => [], []⟩

/-- The step `a` of the hooks has come to `t`. -/
def record (p : Recorded ι φ) (a : Hook.Act ι φ) (t : State ι φ) : Recorded ι φ :=
  match a with
  | .work f x =>
    match p.hook.doing f with
    | .enter _ _ => { p with hook := t, trace := Function.update p.trace f [] }
    | .io _ c =>
      let trace := p.trace f ++ entries p.hook f x
      { hook := t
        trace := Function.update p.trace f trace
        returned := p.returned ++
          (t.log.drop p.hook.log.length).map fun d => ⟨d.info, c.to_, trace, d.ret⟩ }
    | _ => { p with hook := t }
  | _ => { p with hook := t }

/-- A call of the program on the event table. -/
def onTable (p : Recorded ι φ) (op : Op Unit φ Info) : Option (Recorded ι φ) :=
  if p.hook.fault.isSome then none else some { p with hook := p.hook.onTable op fun _ s => s }

end Recorded

def step (p : Recorded ι φ) : Act ι φ → Option (Recorded ι φ)
  | .hook a => (Hook.step p.hook a).map (p.record a)
  | .cancelEvent fd e ok => p.onTable (.cancelEvent fd e (ok && p.hook.isOpen fd))
  | .cancelAll fd ok => p.onTable (.cancelAll fd (ok && p.hook.isOpen fd))

end

/-! ### The trace of a call -/

/-- The round that a call is in, up to its stage. -/
def sofar (ms : U64) : Stage → List Entry
  | .retry => []
  | .addTimer => [.call .again]
  | .addEvent => begun ms
  | .failed => begun ms ++ [.addEvent false]
  | .yield | .suspended | .resumed | .test => begun ms ++ [.addEvent true]

def Along (ms : U64) (st : Stage) (trace : List Entry) : Prop :=
  ∃ k, clean trace = (List.replicate k (round ms)).flatten ++ sofar ms st

section
variable {ι φ : Type} [LinearOrder ι] [DecidableEq φ] {s : State ι φ} {f : φ} {x : Choice ι} {st st' : Stage}
  {c c' : Call ι} {m : TimerManager.State ι Info} {ret : Ret} {trace : List Entry}

theorem clean_append (trace more : List Entry) : clean (trace ++ more) = clean trace ++ clean more :=
  List.filter_append ..

/-- A step further in the same round. -/
theorem Along.further {ms : U64} {more : List Entry} (h : Along ms st trace)
    (hmore : sofar ms st' = sofar ms st ++ clean more) : Along ms st' (trace ++ more) := by
  obtain ⟨k, hk⟩ := h
  exact ⟨k, by rw [clean_append, hk, hmore, List.append_assoc]⟩

/-- Each way on adds what is done there. -/
theorem along_onward (hf : s.doing f = .io st c) (h : Onward s f x st c st' c' m) (k : Along c.to_ st trace) :
    Along c'.to_ st' (trace ++ entries s f x) := by
  cases h with
  | interrupted hr => exact k.further (by simp [entries, hf, hr, clean, sofar])
  | again hr => exact k.further (by simp [entries, hf, hr, clean, sofar])
  | untimed hto =>
    have hentries : entries s f x = [] := by simp only [entries, hf, if_pos hto]
    have hbegun : begun c.to_ = [.call .again] := by rw [begun, if_pos hto]
    exact k.further (by rw [sofar, sofar, hbegun, hentries]; rfl)
  | timed hto =>
    have hentries : entries s f x = [.timer] := by simp only [entries, hf, if_neg hto]
    have hbegun : begun c.to_ = [.call .again, .timer] := by rw [begun, if_neg hto]
    exact k.further (by rw [sofar, sofar, hbegun, hentries]; rfl)
  | added hexec => exact k.further (by simp [entries, hf, hexec, clean, sofar])
  | refused hexec hr => exact k.further (by simp [entries, hf, hexec, hr, clean, sofar])
  | yields => exact k.further (by simp [entries, hf, clean, sofar])
  | disarms => exact k.further (by simp [entries, hf, clean, sofar])
  | retries hc =>
    obtain ⟨n, hn⟩ := k
    refine ⟨n + 1, ?_⟩
    have hentries : clean (entries s f x) = [.woken false] := by simp [entries, hf, hc, clean]
    rw [clean_append, hn, hentries, List.replicate_succ', List.flatten_append, List.flatten_singleton, sofar,
      sofar, round]
    simp only [List.append_assoc, List.append_nil, List.cons_append, List.nil_append]

/-- Each way out ends the last round. -/
theorem lawful_comes (hf : s.doing f = .io st c) (h : Comes s x st c ret m) (k : Along c.to_ st trace) :
    (⟨c.info, c.to_, trace ++ entries s f x, ret⟩ : Returned).Lawful := by
  obtain ⟨n, hn⟩ := k
  refine ⟨n, sofar c.to_ st ++ clean (entries s f x), ?_, ?_⟩
  · rw [clean_append, hn, List.append_assoc]
  · cases h with
    | result hr =>
      cases hx : x.result with
      | ok r =>
        rw [hx] at hr
        cases hr
        simpa [entries, hf, hx, clean, sofar] using Ends.ok r
      | fail e =>
        rw [hx] at hr
        cases hr
        simpa [entries, hf, hx, clean, sofar] using Ends.fail e
      | again | intr =>
        rw [hx] at hr
        cases hr
    | refused => simpa [entries, hf, clean, sofar] using Ends.refused
    | timedOut hc => simpa [entries, hf, hc, clean, sofar] using Ends.timedOut

end

/-! ### The timers of the calls -/

/-- A timer of the round may be in the container. -/
def timed : Stage → Bool
  | .addEvent | .failed | .yield | .suspended | .resumed => true
  | .retry | .addTimer | .test => false

section
variable {ι φ : Type} [LinearOrder ι]

/-- Every call has a `timer_info` of its own, and every timer in the container is that of the round of
a call. -/
structure Timers (s : State ι φ) : Prop where
  container : Container s.timers
  pending : ∀ t i, (s.timers.timer t).cb = some i →
    ∃ f st c, s.doing f = .io st c ∧ timed st = true ∧ c.info = i ∧ c.timer = some t
  live : ∀ f st c, s.doing f = .io st c → c.info.id < s.infos
  unique : ∀ f f' st st' c c', s.doing f = .io st c → s.doing f' = .io st' c' → c.info = c'.info → f = f'

variable {s t : State ι φ}

theorem start_timers (now : U64) : Timers (start now : State ι φ) := by
  refine ⟨TimerManager.init_container now, fun t i hi => ?_, fun f st c hf => ?_, fun f f' st st' c c' hf => ?_⟩
  · simp [start, TimerManager.State.init, TimerManager.State.timer] at hi
  · cases hf
  · cases hf

/-- A cancelled timer is not in the container. -/
theorem cancelTimer_pending (hc : Container s.timers) (timer : Option ι) :
    Container (s.cancelTimer timer).timers ∧ ∀ t i, ((s.cancelTimer timer).timers.timer t).cb = some i →
      (s.timers.timer t).cb = some i ∧ timer ≠ some t := by
  unfold State.cancelTimer
  cases timer with
  | none => exact ⟨hc, fun t i hi => ⟨hi, nofun⟩⟩
  | some u =>
    rcases TimerManager.cancel_spec hc u with ⟨m, hm, -, hc', hobj⟩ | ⟨hm, hnone⟩
    · simp only [hm]
      refine ⟨hc', fun t i hi => ?_⟩
      rw [TimerManager.State.timer, hobj] at hi
      by_cases ht : t = u
      · rw [ht, Function.update_self] at hi
        cases hi
      · rw [Function.update_of_ne ht] at hi
        exact ⟨hi, fun heq => ht (Option.some.inj heq).symm⟩
    · simp only [hm]
      refine ⟨hc, fun t i hi => ⟨hi, ?_⟩⟩
      rintro ⟨⟩
      rw [hnone] at hi
      cases hi

variable [DecidableEq φ] {f : φ} {x : Choice ι} {st st' : Stage} {c c' : Call ι}
  {m : TimerManager.State ι Info} {ret : Ret}

theorem onward_same (h : Onward s f x st c st' c' m) : c'.info = c.info ∧ c'.to_ = c.to_ := by
  cases h <;> exact ⟨rfl, rfl⟩

/-- On the way the timer of a round stays that of its call, and a new one is. -/
theorem onward_pending (hc : Container s.timers) (h : Onward s f x st c st' c' m) :
    Container m ∧ ∀ t i, (m.timer t).cb = some i → (i = c.info ∧ timed st' = true ∧ c'.timer = some t) ∨
      ((s.timers.timer t).cb = some i ∧
        (timed st = true → c.timer = some t → timed st' = true ∧ c'.timer = some t)) := by
  cases h with
  | interrupted | again | retries => exact ⟨hc, fun t i hi => .inr ⟨hi, nofun⟩⟩
  | untimed => exact ⟨hc, fun t i hi => .inr ⟨hi, nofun⟩⟩
  | added | refused | yields => exact ⟨hc, fun t i hi => .inr ⟨hi, fun _ ht => ⟨rfl, ht⟩⟩⟩
  | disarms =>
    obtain ⟨hc', hpending⟩ := cancelTimer_pending hc c.timer
    refine ⟨hc', fun t i hi => .inr ?_⟩
    obtain ⟨hbefore, hne⟩ := hpending t i hi
    exact ⟨hbefore, fun _ ht => absurd ht hne⟩
  | timed hto hnew =>
    obtain ⟨hc', hobj⟩ := TimerManager.addTimer_spec hc x.timer c.to_ c.info false x.now hnew
    refine ⟨hc', fun t i hi => ?_⟩
    rw [TimerManager.State.timer, hobj] at hi
    by_cases ht : t = x.timer
    · rw [ht, Function.update_self] at hi
      cases hi
      exact .inl ⟨rfl, rfl, by rw [ht]⟩
    · rw [Function.update_of_ne ht] at hi
      exact .inr ⟨hi, nofun⟩

omit [DecidableEq φ] in
/-- On the way out no timer is left. -/
theorem comes_pending (hc : Container s.timers) (h : Comes s x st c ret m) :
    Container m ∧ ∀ t i, (m.timer t).cb = some i →
      (s.timers.timer t).cb = some i ∧ ¬(timed st = true ∧ c.timer = some t) := by
  cases h with
  | result | timedOut => exact ⟨hc, fun t i hi => ⟨hi, nofun⟩⟩
  | refused =>
    obtain ⟨hc', hpending⟩ := cancelTimer_pending hc c.timer
    refine ⟨hc', fun t i hi => ?_⟩
    obtain ⟨hbefore, hne⟩ := hpending t i hi
    exact ⟨hbefore, fun h => hne h.2⟩

/-- `listExpiredCb` brings no timer into the container. -/
theorem listExpiredCb_pending {m : TimerManager.State ι Info} (hc : Container m) {now : U64} {tmp t : ι} {i : Info}
    (h : ((m.listExpiredCb now tmp []).2.timer t).cb = some i) : (m.timer t).cb = some i := by
  obtain ⟨-, hsame | ⟨-, -, hsame⟩⟩ := TimerManager.listExpiredCb_written hc now tmp (Option.isSome_of_eq_some h)
  · rwa [hsame] at h
  · rwa [hsame] at h

/-- A fiber moves on in its call. -/
theorem Timers.goes (k : Timers s) (hf : s.doing f = .io st c) {log : List Done}
    (h : Goes s t f (.io st' c') m log) (hinfo : c'.info = c.info) (hc : Container m)
    (hm : ∀ t i, (m.timer t).cb = some i → (i = c.info ∧ timed st' = true ∧ c'.timer = some t) ∨
      ((s.timers.timer t).cb = some i ∧
        (timed st = true → c.timer = some t → timed st' = true ∧ c'.timer = some t))) : Timers t := by
  have hself : t.doing f = .io st' c' := by rw [h.doing, Function.update_self]
  have hother : ∀ f', f' ≠ f → t.doing f' = s.doing f' := fun f' hne => by
    rw [h.doing, Function.update_of_ne hne]
  -- a call after the step was there before, at the stage it has or at the one `f` was at
  have hback : ∀ {f' st₁ c₁}, t.doing f' = .io st₁ c₁ →
      ∃ st₀ c₀, s.doing f' = .io st₀ c₀ ∧ c₀.info = c₁.info := by
    intro f' st₁ c₁ hdoing
    by_cases hne : f' = f
    · subst hne
      rw [hself] at hdoing
      cases hdoing
      exact ⟨st, c, hf, hinfo.symm⟩
    · exact ⟨st₁, c₁, hother f' hne ▸ hdoing, rfl⟩
  refine ⟨h.timers ▸ hc, fun u i hi => ?_, fun f' st₁ c₁ hdoing => ?_, fun f' f'' st₁ st₂ c₁ c₂ h₁ h₂ heq => ?_⟩
  · rw [h.timers] at hi
    rcases hm u i hi with ⟨rfl, htimed, htimer⟩ | ⟨hi, hkeep⟩
    · exact ⟨f, st', c', hself, htimed, hinfo, htimer⟩
    · obtain ⟨f₀, st₀, c₀, hdoing, htimed, hc₀, htimer⟩ := k.pending u i hi
      by_cases hne : f₀ = f
      · subst hne
        cases hf.symm.trans hdoing
        obtain ⟨htimed, htimer⟩ := hkeep htimed htimer
        exact ⟨f₀, st', c', hself, htimed, hinfo.trans hc₀, htimer⟩
      · exact ⟨f₀, st₀, c₀, (hother f₀ hne).trans hdoing, htimed, hc₀, htimer⟩
  · obtain ⟨st₀, c₀, hbefore, heq⟩ := hback hdoing
    rw [h.infos, ← heq]
    exact k.live f' st₀ c₀ hbefore
  · obtain ⟨st₀, c₀, hbefore, hsame⟩ := hback h₁
    obtain ⟨st₀', c₀', hbefore', hsame'⟩ := hback h₂
    exact k.unique f' f'' st₀ st₀' c₀ c₀' hbefore hbefore' (hsame.trans (heq.trans hsame'.symm))

/-- A fiber leaves its call. -/
theorem Timers.leaves (k : Timers s) (hf : s.doing f = .io st c) {log : List Done} {d : Doing ι}
    (hd : d.call = none) (h : Goes s t f d m log) (hc : Container m)
    (hm : ∀ t i, (m.timer t).cb = some i →
      (s.timers.timer t).cb = some i ∧ ¬(timed st = true ∧ c.timer = some t)) : Timers t := by
  have hback : ∀ {f' st₁ c₁}, t.doing f' = .io st₁ c₁ → s.doing f' = .io st₁ c₁ := by
    intro f' st₁ c₁ hdoing
    rw [h.doing] at hdoing
    rcases doing_update (· = .io st₁ c₁) hdoing with ⟨-, hself⟩ | ⟨-, hother⟩
    · rw [hself] at hd
      cases hd
    · exact hother
  refine ⟨h.timers ▸ hc, fun u i hi => ?_, fun f' st₁ c₁ hdoing => ?_, fun f' f'' st₁ st₂ c₁ c₂ h₁ h₂ heq => ?_⟩
  · rw [h.timers] at hi
    obtain ⟨hi, hout⟩ := hm u i hi
    obtain ⟨f₀, st₀, c₀, hdoing, htimed, hc₀, htimer⟩ := k.pending u i hi
    have hne : f₀ ≠ f := by
      rintro rfl
      cases hf.symm.trans hdoing
      exact hout ⟨htimed, htimer⟩
    refine ⟨f₀, st₀, c₀, ?_, htimed, hc₀, htimer⟩
    rw [h.doing, Function.update_of_ne hne]
    exact hdoing
  · rw [h.infos]
    exact k.live f' st₁ c₁ (hback hdoing)
  · exact k.unique f' f'' st₁ st₂ c₁ c₂ (hback h₁) (hback h₂) heq

theorem timers_step (k : Timers s) {a : Hook.Act ι φ} (h : CallStep s a t) : Timers t := by
  cases h with
  | aside hwork hcall htimers hinfos hlog =>
    have hdoing : ∀ {f st c}, t.doing f = .io st c ↔ s.doing f = .io st c := fun {f st c} => by
      rw [← Doing.call_eq, hcall, Doing.call_eq]
    have hm : Container t.timers ∧ ∀ u i, (t.timers.timer u).cb = some i → (s.timers.timer u).cb = some i := by
      rcases htimers with heq | ⟨now, tmp, heq⟩
      · rw [heq]
        exact ⟨k.container, fun u i hi => hi⟩
      · rw [heq]
        exact ⟨TimerManager.listExpiredCb_container k.container now tmp [],
          fun u i hi => listExpiredCb_pending k.container hi⟩
    refine ⟨hm.1, fun u i hi => ?_, fun f st c hf => ?_, fun f f' st st' c c' hf hf' => ?_⟩
    · obtain ⟨f, st, c, hf, hrest⟩ := k.pending u i (hm.2 u i hi)
      exact ⟨f, st, c, hdoing.mpr hf, hrest⟩
    · rw [hinfos]
      exact k.live f st c (hdoing.mp hf)
    · exact k.unique f f' st st' c c' (hdoing.mp hf) (hdoing.mp hf')
  | faults ha hf hexec ht =>
    subst ht
    exact ⟨k.container, k.pending, k.live, k.unique⟩
  | @begins f x hook fd ms ha hf hdoing htimers hinfos hlog =>
    have hback : ∀ {f' st₁ c₁}, t.doing f' = .io st₁ c₁ →
        (f' = f ∧ c₁.info.id = s.infos) ∨ (f' ≠ f ∧ s.doing f' = .io st₁ c₁ ∧ c₁.info.id < s.infos) := by
      intro f' st₁ c₁ h₁
      rw [hdoing] at h₁
      rcases doing_update (· = .io st₁ c₁) h₁ with ⟨rfl, hself⟩ | ⟨hne, hother⟩
      · cases hself
        exact .inl ⟨rfl, rfl⟩
      · exact .inr ⟨hne, hother, k.live f' st₁ c₁ hother⟩
    refine ⟨htimers ▸ k.container, fun u i hi => ?_, fun f' st₁ c₁ h₁ => ?_,
      fun f' f'' st₁ st₂ c₁ c₂ h₁ h₂ heq => ?_⟩
    · rw [htimers] at hi
      obtain ⟨f₀, st₀, c₀, hf₀, hrest⟩ := k.pending u i hi
      have hne : f₀ ≠ f := by
        rintro rfl
        cases hf.symm.trans hf₀
      refine ⟨f₀, st₀, c₀, ?_, hrest⟩
      rw [hdoing, Function.update_of_ne hne]
      exact hf₀
    · rw [hinfos]
      rcases hback h₁ with ⟨-, hid⟩ | ⟨-, -, hid⟩ <;> omega
    · have hid := congrArg Info.id heq
      rcases hback h₁ with ⟨rfl, h₁⟩ | ⟨-, hd₁, h₁⟩ <;> rcases hback h₂ with ⟨rfl, h₂⟩ | ⟨-, hd₂, h₂⟩
      · rfl
      · omega
      · omega
      · exact k.unique f' f'' st₁ st₂ c₁ c₂ hd₁ hd₂ heq
  | onward ha hf hnext hgoes =>
    obtain ⟨hc, hm⟩ := onward_pending k.container hnext
    exact k.goes hf hgoes (onward_same hnext).1 hc hm
  | resumes ha hf hgoes => exact k.goes hf hgoes rfl k.container fun t i hi => .inr ⟨hi, fun _ ht => ⟨rfl, ht⟩⟩
  | returns ha hf hret hgoes =>
    obtain ⟨hc, hm⟩ := comes_pending k.container hret
    exact k.leaves hf (after_call _ _) hgoes hc hm

end

/-! ### Every run -/

section
variable {ι φ : Type} [LinearOrder ι]

structure Ruled [DecidableEq φ] (p : Recorded ι φ) : Prop where
  held : Held p.hook
  timers : Timers p.hook
  along : ∀ f st c, p.hook.doing f = .io st c → Along c.to_ st (p.trace f)
  lawful : ∀ r ∈ p.returned, r.Lawful
  ended : ∀ r ∈ p.returned, r.info.id < p.hook.infos ∧
    ∀ f st c, p.hook.doing f = .io st c → c.info ≠ r.info
  log : p.returned.map (fun r => (r.info, r.ret)) = p.hook.log.map fun d => (d.info, d.ret)

variable [DecidableEq φ] {p q : Recorded ι φ} {t : State ι φ}

theorem start_ruled (now : U64) : Ruled (Recorded.start now : Recorded ι φ) := by
  refine ⟨start_held now, start_timers now, fun f st c hf => ?_, fun r hr => ?_, fun r hr => ?_, rfl⟩
  · cases hf
  · cases hr
  · cases hr

/-- The traces that matter and the returned calls stay as they are. -/
theorem record_aside {a : Hook.Act ι φ} (ha : ∀ f x, a = .work f x → (p.hook.doing f).call = none) :
    (p.record a t).hook = t ∧ (p.record a t).returned = p.returned ∧
      ∀ f, (p.hook.doing f).call ≠ none → (p.record a t).trace f = p.trace f := by
  cases a with
  | work f x =>
    have hnone := ha f x rfl
    simp only [Recorded.record]
    cases hf : p.hook.doing f with
    | io st c =>
      rw [hf] at hnone
      cases hnone
    | enter hook fd =>
      refine ⟨rfl, rfl, fun f' hf' => Function.update_of_ne ?_ ..⟩
      rintro rfl
      exact hf' hnone
    | _ => exact ⟨rfl, rfl, fun _ _ => rfl⟩
  | _ => exact ⟨rfl, rfl, fun _ _ => rfl⟩

/-- Nothing that is kept about the calls changes. -/
theorem Ruled.aside (k : Ruled p) (hheld : Held q.hook) (htimers : Timers q.hook)
    (hcall : ∀ f, (q.hook.doing f).call = (p.hook.doing f).call) (hinfos : q.hook.infos = p.hook.infos)
    (hlog : q.hook.log = p.hook.log) (hreturned : q.returned = p.returned)
    (htrace : ∀ f, (p.hook.doing f).call ≠ none → q.trace f = p.trace f) : Ruled q := by
  have hdoing : ∀ {f st c}, q.hook.doing f = .io st c → p.hook.doing f = .io st c := fun {f st c} hf => by
    rwa [← Doing.call_eq, hcall, Doing.call_eq] at hf
  refine ⟨hheld, htimers, fun f st c hf => ?_, hreturned ▸ k.lawful, fun r hr => ?_, ?_⟩
  · rw [htrace f (by rw [hdoing hf]; exact nofun)]
    exact k.along f st c (hdoing hf)
  · rw [hreturned] at hr
    rw [hinfos]
    exact ⟨(k.ended r hr).1, fun f st c hf => (k.ended r hr).2 f st c (hdoing hf)⟩
  · rw [hreturned, hlog]
    exact k.log

/-- A fiber moves on in its call. -/
theorem Ruled.goes (k : Ruled p) {f : φ} {st st' : Stage} {c c' : Call ι} {m : TimerManager.State ι Info}
    (hf : p.hook.doing f = .io st c) (h : Goes p.hook q.hook f (.io st' c') m []) (hinfo : c'.info = c.info)
    (hheld : Held q.hook) (htimers : Timers q.hook) (hreturned : q.returned = p.returned)
    (htrace : ∀ f', f' ≠ f → q.trace f' = p.trace f') (halong : Along c'.to_ st' (q.trace f)) : Ruled q := by
  have hback : ∀ {f' st₁ c₁}, q.hook.doing f' = .io st₁ c₁ →
      (f' = f ∧ st₁ = st' ∧ c₁ = c') ∨ (f' ≠ f ∧ p.hook.doing f' = .io st₁ c₁) := by
    intro f' st₁ c₁ h₁
    rw [h.doing] at h₁
    rcases doing_update (· = .io st₁ c₁) h₁ with ⟨rfl, hself⟩ | hother
    · cases hself
      exact .inl ⟨rfl, rfl, rfl⟩
    · exact .inr hother
  refine ⟨hheld, htimers, fun f' st₁ c₁ h₁ => ?_, hreturned ▸ k.lawful, fun r hr => ?_, ?_⟩
  · rcases hback h₁ with ⟨rfl, rfl, rfl⟩ | ⟨hne, h₁⟩
    · exact halong
    · rw [htrace f' hne]
      exact k.along f' st₁ c₁ h₁
  · rw [hreturned] at hr
    obtain ⟨hid, hended⟩ := k.ended r hr
    rw [h.infos]
    refine ⟨hid, fun f' st₁ c₁ h₁ => ?_⟩
    rcases hback h₁ with ⟨rfl, rfl, rfl⟩ | ⟨-, h₁⟩
    · rw [hinfo]
      exact hended _ st c hf
    · exact hended f' st₁ c₁ h₁
  · rw [hreturned, h.log, List.append_nil]
    exact k.log

/-- A fiber leaves its call. -/
theorem Ruled.leaves (k : Ruled p) {f : φ} {st : Stage} {c : Call ι} {ret : Ret} {on : List Nat} {at_ : Option Nat}
    {m : TimerManager.State ι Info} {trace : List Entry} (hf : p.hook.doing f = .io st c)
    (h : Goes p.hook q.hook f (State.after c.hook ret) m [⟨c.info, on, at_, ret⟩]) (hheld : Held q.hook)
    (htimers : Timers q.hook) (hreturned : q.returned = p.returned ++ [⟨c.info, c.to_, trace, ret⟩])
    (htrace : ∀ f', f' ≠ f → q.trace f' = p.trace f')
    (hlawful : (⟨c.info, c.to_, trace, ret⟩ : Returned).Lawful) : Ruled q := by
  have hback : ∀ {f' st₁ c₁}, q.hook.doing f' = .io st₁ c₁ → f' ≠ f ∧ p.hook.doing f' = .io st₁ c₁ := by
    intro f' st₁ c₁ h₁
    rw [h.doing] at h₁
    rcases doing_update (· = .io st₁ c₁) h₁ with ⟨-, hself⟩ | hother
    · have hnone := after_call (ι := ι) c.hook ret
      rw [hself] at hnone
      cases hnone
    · exact hother
  refine ⟨hheld, htimers, fun f' st₁ c₁ h₁ => ?_, fun r hr => ?_, fun r hr => ?_, ?_⟩
  · obtain ⟨hne, h₁⟩ := hback h₁
    rw [htrace f' hne]
    exact k.along f' st₁ c₁ h₁
  · rw [hreturned] at hr
    rcases List.mem_append.mp hr with hr | hr
    · exact k.lawful r hr
    · cases List.mem_singleton.mp hr
      exact hlawful
  · rw [hreturned] at hr
    rw [h.infos]
    rcases List.mem_append.mp hr with hr | hr
    · obtain ⟨hid, hended⟩ := k.ended r hr
      exact ⟨hid, fun f' st₁ c₁ h₁ => hended f' st₁ c₁ (hback h₁).2⟩
    · cases List.mem_singleton.mp hr
      refine ⟨k.timers.live f st c hf, fun f' st₁ c₁ h₁ heq => ?_⟩
      obtain ⟨hne, h₁⟩ := hback h₁
      exact hne (k.timers.unique f' f st₁ st c₁ c h₁ hf heq)
  · rw [hreturned, h.log, List.map_append, List.map_append, k.log]
    rfl

theorem hook_ruled (k : Ruled p) {a : Hook.Act ι φ} (h : Hook.step p.hook a = some t) : Ruled (p.record a t) := by
  have hheld := step_held k.held h
  have hcall := step_call h
  have htimers := timers_step k.timers hcall
  cases hcall with
  | aside hwork hcall _ hinfos hlog =>
    obtain ⟨hhook, hreturned, htrace⟩ := record_aside (t := t) hwork
    exact k.aside (by rwa [hhook]) (by rwa [hhook]) (by rwa [hhook]) (by rw [hhook, hinfos])
      (by rw [hhook, hlog]) hreturned htrace
  | @faults f x c e ha hf hexec ht =>
    subst ha ht
    have hentries : entries p.hook f x = [] := by simp only [entries, hf, hexec]
    simp only [Recorded.record, hf, hentries, List.drop_length, List.map_nil, List.append_nil,
      Function.update_eq_self]
    exact k.aside hheld htimers (fun _ => rfl) rfl rfl rfl fun _ _ => rfl
  | @begins f x hook fd ms ha hf hdoing _ hinfos hlog =>
    subst ha
    simp only [Recorded.record, hf]
    have hback : ∀ {f' st₁ c₁}, t.doing f' = .io st₁ c₁ →
        (f' = f ∧ st₁ = .retry ∧ c₁.info.id = p.hook.infos) ∨ (f' ≠ f ∧ p.hook.doing f' = .io st₁ c₁) := by
      intro f' st₁ c₁ h₁
      rw [hdoing] at h₁
      rcases doing_update (· = .io st₁ c₁) h₁ with ⟨rfl, hself⟩ | hother
      · cases hself
        exact .inl ⟨rfl, rfl, rfl⟩
      · exact .inr hother
    refine ⟨hheld, htimers, fun f' st₁ c₁ h₁ => ?_, k.lawful, fun r hr => ?_, ?_⟩
    · dsimp only at h₁ ⊢
      rcases hback h₁ with ⟨rfl, rfl, -⟩ | ⟨hne, h₁⟩
      · rw [Function.update_self]
        exact ⟨0, rfl⟩
      · rw [Function.update_of_ne hne]
        exact k.along f' st₁ c₁ h₁
    · obtain ⟨hid, hended⟩ := k.ended r hr
      refine ⟨by rw [hinfos]; omega, fun f' st₁ c₁ h₁ => ?_⟩
      rcases hback h₁ with ⟨-, -, hnew⟩ | ⟨-, h₁⟩
      · intro heq
        rw [heq] at hnew
        omega
      · exact hended f' st₁ c₁ h₁
    · rw [hlog]
      exact k.log
  | @onward f x st c st' c' m ha hf hnext hgoes =>
    subst ha
    have hlog : t.log.drop p.hook.log.length = [] := by rw [hgoes.log, List.append_nil, List.drop_length]
    simp only [Recorded.record, hf, hlog, List.map_nil, List.append_nil]
    refine k.goes hf hgoes (onward_same hnext).1 hheld htimers rfl (fun f' hne => Function.update_of_ne hne ..) ?_
    dsimp only
    rw [Function.update_self]
    exact along_onward hf hnext (k.along f st c hf)
  | @resumes f c ha hf hgoes =>
    subst ha
    exact k.goes (q := { p with hook := t }) hf hgoes rfl hheld htimers rfl (fun _ _ => rfl)
      (k.along f .suspended c hf)
  | @returns f x st c ret at_ m ha hf hret hgoes =>
    subst ha
    have hlog : t.log.drop p.hook.log.length = [⟨c.info, c.on, at_, ret⟩] := by
      rw [hgoes.log, List.drop_left]
    simp only [Recorded.record, hf, hlog, List.map_cons, List.map_nil]
    exact k.leaves hf hgoes hheld htimers rfl (fun f' hne => Function.update_of_ne hne ..)
      (lawful_comes hf hret (k.along f st c hf))

/-- A call of the program on the event table. -/
theorem onTable_ruled (k : Ruled p) {op : Op Unit φ Info} (hop : ∀ fd e who cb ok, op ≠ .addEvent fd e who cb ok)
    (h : p.onTable op = some q) : Ruled q := by
  obtain ⟨-, h⟩ := Option.ite_none_left_eq_some.mp h
  cases h
  have hheld : Held (p.hook.onTable op fun _ s => s) := k.held.onTable hop fun _ _ k' => k'
  have hsame : (p.hook.onTable op fun _ s => s).doing = p.hook.doing ∧
      (p.hook.onTable op fun _ s => s).timers = p.hook.timers ∧
      (p.hook.onTable op fun _ s => s).infos = p.hook.infos ∧
      (p.hook.onTable op fun _ s => s).log = p.hook.log := by
    unfold State.onTable
    split <;> exact ⟨rfl, rfl, rfl, rfl⟩
  obtain ⟨hdoing, htimers, hinfos, hlog⟩ := hsame
  refine k.aside hheld ⟨?_, ?_, ?_, ?_⟩ (fun f => by rw [hdoing]) hinfos hlog rfl fun _ _ => rfl
  · rw [htimers]
    exact k.timers.container
  · rw [htimers, hdoing]
    exact k.timers.pending
  · rw [hdoing, hinfos]
    exact k.timers.live
  · rw [hdoing]
    exact k.timers.unique

theorem step_ruled (k : Ruled p) {a : Act ι φ} (h : step p a = some q) : Ruled q := by
  cases a with
  | hook a =>
    obtain ⟨t, ht, rfl⟩ := Option.map_eq_some_iff.mp h
    exact hook_ruled k ht
  | cancelEvent fd e ok => exact onTable_ruled k (by simp) h
  | cancelAll fd ok => exact onTable_ruled k (by simp) h

/-- **The law of `do_io`.** In every run, of any number of fibers whose calls are woken only by the
table: every call that has returned went in rounds, each of which has the EAGAIN of `fun`, a timer
if there is a timeout, and one `addEvent`; it returned the first result that is neither EAGAIN nor
EINTR, or -1 after an `addEvent` that failed, or ETIMEDOUT after a wait that found `cancelled`. No
timer in the container is of such a call, and an armed event is that of a fiber that waits, in a
call that has not returned. -/
theorem law_reachable (now : U64) (acts : List (Act ι φ)) (p : Recorded ι φ)
    (h : run step (Recorded.start now) acts = some p) :
    (p.returned.map (fun r => (r.info, r.ret)) = p.hook.log.map fun d => (d.info, d.ret)) ∧
    (∀ r ∈ p.returned, r.Lawful) ∧
    (∀ r ∈ p.returned, ∀ t ∈ p.hook.timers.timers, (p.hook.timers.timer t).cb ≠ some r.info) ∧
    (∀ fd e f, Armed p.hook.table fd e f → ∃ c, (p.hook.doing f).waiting = some c ∧ c.info.fd = fd ∧
      c.info.event = e ∧ ∀ r ∈ p.returned, r.info ≠ c.info) := by
  have k : Ruled p := run_preserves (fun _ _ _ k h => step_ruled k h) (start_ruled now) h
  refine ⟨k.log, k.lawful, fun r hr t _ hcb => ?_, fun fd e f ha => ?_⟩
  · obtain ⟨f, st, c, hf, -, hinfo, -⟩ := k.timers.pending t r.info hcb
    exact (k.ended r hr).2 f st c hf hinfo
  · obtain ⟨c, hwait, hfd, hevent⟩ := k.held.armed fd e f ha
    refine ⟨c, hwait, hfd, hevent, fun r hr heq => ?_⟩
    obtain ⟨st, hf⟩ : ∃ st, p.hook.doing f = .io st c := by
      cases hd : p.hook.doing f with
      | io st c' =>
        rw [hd] at hwait
        cases st <;> cases hwait <;> exact ⟨_, rfl⟩
      | _ =>
        rw [hd] at hwait
        cases hwait
    exact (k.ended r hr).2 f st c hf heq.symm

end

/-- A read with a timeout: nothing is there at first, and a signal comes before the second result. -/
def readActs : List (Act Nat (Fin 2)) :=
  let next (r : IoResult) : Act Nat (Fin 2) := .hook (.work 0 { timer := 0, now := 100, result := r })
  [.hook (.socket 0 3), next .again, .hook (.setTimeout 3 .rcvtimeo 5), .hook (.doIo 0 .read 3), next .again,
    next .again, next .again, next .again, next .again, .hook (.dispatch 3 { epollin := true } true),
    .hook (.resume 0), next .again, next .again, next .intr, next (.ok 7)]

theorem law_reachable_sample : ∃ p, run step (Recorded.start 100) readActs = some p ∧
    p.returned.map Returned.ret = [.ok 7] ∧ ∀ r ∈ p.returned, r.Lawful :=
  ⟨_, rfl, rfl, (law_reachable 100 readActs _ rfl).2.1⟩

end ShioSylar.Hook.Law
