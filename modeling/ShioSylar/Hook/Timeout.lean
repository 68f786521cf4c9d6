import ShioSylar.Hook.Waiters

/-! The timeout of a hooked call.

`do_io` arms its timer before the event that the timer is to cancel. The timer's callback
may run anywhere in between: it sets `cancelled` and calls `cancelEvent`, which finds
nothing armed and returns false. `addEvent` then arms the event of a call whose timeout is
over (`timeout_lost`). A callback of an earlier round of the same call, which
`timer->cancel()` came too late for, does the same. As long as no callback of a call has
come back from its `cancelEvent` when the call arms its event, no timeout is lost
(`timeout_reachable`). -/
namespace ShioSylar.Hook
open Scheduler IOManager Lib

variable {ι φ : Type}

/-- A call arms its event only if no callback of it has been through its `cancelEvent`, and
the `epoll_ctl` of the callbacks does not fail. -/
def InTime (s : State ι φ) : Act ι φ → Prop
  | .work f x =>
    match s.doing f with
    | .io .addEvent c => x.ok = true → s.fired c.info = false
    | .onTimer .cancelEvent _ => x.ok = true
    | _ => True
  | _ => True

instance (s : State ι φ) : (a : Act ι φ) → Decidable (InTime s a)
  | .work f x =>
    match h : s.doing f with
    | .io .addEvent c => decidable_of_iff (x.ok = true → s.fired c.info = false) (by simp only [InTime, h])
    | .onTimer .cancelEvent _ => decidable_of_iff (x.ok = true) (by simp only [InTime, h])
    | .io .retry _ | .io .addTimer _ | .io .failed _ | .io .yield _ | .io .suspended _
    | .io .resumed _ | .io .test _ | .onTimer .lock _ | .onTimer .test _ | .onTimer .mark _ | .user
    | .enter _ _ | .direct _ _ | .manage _ | .close _ _ | .idle _ => isTrue (by simp [InTime, h])
  | .socket _ _ | .doIo _ _ _ | .close _ _ | .onTimer _ _ | .idle _ _ _ | .resume _ | .dispatch _ _ _
  | .setTimeout _ _ _ | .setUserNonblock _ _ => isTrue trivial

/-- Fiber 0 reads from descriptor 3 with a timeout of 5 ms and has armed its timer. Fiber 1,
an `idle`, takes the timer out, and its callback runs in fiber 2, before fiber 0 goes on. -/
def lateActs : List (Act Nat (Fin 3)) :=
  let next (f : Fin 3) : Act Nat (Fin 3) := .work f { timer := 0, now := 100 }
  [.socket 0 3, next 0, .setTimeout 3 .rcvtimeo 5, .doIo 0 .read 3, next 0, next 0, next 0,
    .idle 1 105 9, next 1, .onTimer 2 ⟨0, 3, .read⟩, next 2, next 2, next 2, next 2, next 0, next 0]

/-- The callback has run, and fiber 0 is suspended with its event armed. -/
theorem timeout_lost : ∃ s c, run step (start 100) lateActs = some s ∧ s.doing 0 = .io .suspended c ∧
    c.to_ = 5 ∧ s.cancelled c.info = true ∧ s.fired c.info = true ∧ s.doing 2 = .user ∧
    Armed s.table c.info.fd c.info.event 0 ∧ s.table.fibers () = [] :=
  ⟨_, _, rfl, rfl, rfl, rfl, rfl, rfl, ⟨rfl, rfl⟩, rfl⟩

/-- A waiter whose timeout is over is not armed. -/
structure Timely (s : State ι φ) : Prop extends Sound s where
  timely : ∀ f c, (s.doing f).waiting = some c → Armed s.table c.info.fd c.info.event f →
    s.fired c.info = false

section
variable [DecidableEq φ] {s t : State ι φ}

/-- What a step does to the table and the kernel arms nobody. -/
theorem Sound.effect_back (k : Sound s) {a : Act ι φ} (he : Effect s a t) :
    t.doing = s.doing ∧ t.fired = s.fired ∧
      ∀ fd e f, Armed t.table fd e f → Armed s.table fd e f := by
  cases he with
  | none => exact ⟨rfl, rfl, fun _ _ _ ha => ha⟩
  | opens ha hs =>
    obtain ⟨-, rfl⟩ := openFd_eq hs
    exact ⟨rfl, rfl, fun _ _ _ ha => ha⟩
  | closes ha hf => exact ⟨rfl, rfl, fun _ _ _ ha => ha⟩
  | serves hop hexec => exact ⟨rfl, rfl, (exec_served k.table hop hexec).back⟩
  | refuses hexec hr => exact ⟨rfl, rfl, (addEvent_refused k.table hexec hr).back⟩
  | pushes hsub => exact ⟨rfl, rfl, fun _ _ _ ha => ha⟩
  | takes => exact ⟨rfl, rfl, fun _ _ _ ha => ha⟩

variable [LinearOrder ι]

theorem step_timely (k : Timely s) {a : Act ι φ} (hd : Drained s a) (hg : InTime s a)
    (h : step s a = some t) : Timely t := by
  refine ⟨step_sound k.toSound hd h, ?_⟩
  cases step_move h with
  | local_ he hp =>
    obtain ⟨hdoing, hfired, hback⟩ := k.effect_back he
    intro f c hw ha
    have hw := hp.waiting f c hw
    rw [hdoing] at hw
    rw [hp.table] at ha
    rw [hp.fired, hfired]
    exact k.timely f c hw (hback _ _ _ ha)
  | @begins f x c u ha hf hexec ht =>
    subst ha ht
    obtain ⟨hok, hu⟩ := addEvent_added k.table hexec
    simp only [InTime, hf] at hg
    intro f' c' hw harmed
    rcases doing_update (·.waiting = some c') hw with ⟨rfl, hwait⟩ | ⟨hne, hwait⟩
    · cases hwait
      exact hg (Bool.and_eq_true_iff.mp hok).1
    · rcases hu.back _ _ _ harmed with harmed | ⟨-, -, heq⟩
      · exact k.timely f' c' hwait harmed
      · exact absurd heq hne
  | @resumes f c hf ht =>
    subst ht
    intro f' c' hw harmed
    rcases doing_update (·.waiting = some c') hw with ⟨rfl, hwait⟩ | ⟨-, hwait⟩
    · cases hwait
    · exact k.timely f' c' hwait harmed
  | @fires f x i r u ha hf hexec ht =>
    subst ha ht
    have hserved := exec_served k.table rfl hexec
    simp only [InTime, hf] at hg
    intro f' c hw harmed
    have hw : (s.doing f').waiting = some c := by
      rcases doing_update (·.waiting = some c) hw with ⟨-, hwait⟩ | ⟨-, hwait⟩
      · cases hwait
      · exact hwait
    have hbefore := hserved.back _ _ _ harmed
    have hother : c.info ≠ i := by
      intro heq
      subst heq
      -- the event was armed, so its descriptor is open and `cancelEvent` has taken it off
      have hopen := k.opened _ (Mask.ne_none_of_has hbefore.1)
      rw [hg, hopen] at hexec
      cases (cancelEvent_unarmed k.table hexec).symm.trans harmed.1
    exact (Function.update_of_ne hother ..).trans (k.timely f' c hw hbefore)

/-- **No timeout is lost** in a run that is in time: a suspended call whose callback has run
is not armed, and it is queued. -/
theorem timeout_reachable (now : TimerManager.U64) (acts : List (Act ι φ)) (s : State ι φ)
    (hm : Meets step (fun s a => Drained s a ∧ InTime s a) (start now) acts)
    (h : run step (start now) acts = some s) (f : φ) (c : Call ι)
    (hf : s.doing f = .io .suspended c) (hfired : s.fired c.info = true) :
    ¬ Armed s.table c.info.fd c.info.event f ∧ Queued s.table f := by
  have hstart : Timely (start now : State ι φ) := ⟨start_sound now, fun _ _ h => nomatch h⟩
  have k : Timely s := run_invariant (fun _ _ _ k hg h => step_timely k hg.1 hg.2 h) hstart hm h
  have hw : (s.doing f).waiting = some c := by rw [hf]; rfl
  have hne : ¬ Armed s.table c.info.fd c.info.event f := by
    intro ha
    cases hfired.symm.trans (k.timely f c hw ha)
  exact ⟨hne, (k.waiting f c hw).resolve_left hne⟩

end

/-- The same fibers, but fiber 0 is suspended when its timer expires. -/
def timeoutActs : List (Act Nat (Fin 3)) :=
  let next (f : Fin 3) : Act Nat (Fin 3) := .work f { timer := 0, now := 100 }
  [.socket 0 3, next 0, .setTimeout 3 .rcvtimeo 5, .doIo 0 .read 3, next 0, next 0, next 0, next 0,
    next 0, .idle 1 105 9, next 1, .onTimer 2 ⟨0, 3, .read⟩, next 2, next 2, next 2, next 2]

theorem timeout_reachable_sample : ∃ s c, run step (start 100) timeoutActs = some s ∧
    s.doing 0 = .io .suspended c ∧ s.fired c.info = true ∧
    ¬ Armed s.table c.info.fd c.info.event 0 ∧ Queued s.table 0 :=
  ⟨_, _, rfl, rfl, rfl, timeout_reachable 100 timeoutActs _ (by decide) rfl 0 _ rfl rfl⟩

end ShioSylar.Hook
