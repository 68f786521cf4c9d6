import ShioSylar.Hook.Moves
import ShioSylar.IOManager.Views

/-! Who waits, and what wakes them.

A fiber waits from the return of its `addEvent` until it is taken out of the queue. `Served`
says what a call that wakes does to the waiters: it leaves them armed or puts them into the
queue, and arms nobody. `Sound` is what holds of every state as long as `close_f` is only
called on descriptors without armed events: the event table is consistent, an armed
descriptor is open, and whoever waits is armed for the opening it asked for, or queued. -/
namespace ShioSylar.Hook
open Scheduler IOManager Lib

/-! ### Armed and queued -/

section
variable {φ κ : Type}

/-- A fiber is armed for a direction. -/
def Armed (s : IOManager.State Unit φ κ) (fd : Nat) (e : Event) (f : φ) : Prop :=
  (s.view fd).events.has e = true ∧ ((s.view fd).getContext e).fiber = some f

def Queued (s : IOManager.State Unit φ κ) (f : φ) : Prop :=
  ({ fiber := some f } : FiberAndThread φ κ) ∈ s.fibers ()

/-- What waking calls do to waiters. -/
structure Served (s u : IOManager.State Unit φ κ) : Prop where
  consistent : Consistent u
  kept : ∀ fd e f, Armed s fd e f → Armed u fd e f ∨ Queued u f
  queued : ∀ f, Queued s f → Queued u f
  back : ∀ fd e f, Armed u fd e f → Armed s fd e f
  events : ∀ fd, (u.view fd).events ≠ Mask.none → (s.view fd).events ≠ Mask.none

variable {s u : IOManager.State Unit φ κ}

theorem Served.of_same (hu : Consistent u) (hs : Same s u) : Served s u := by
  refine ⟨hu, fun fd e f ha => .inl ?_, fun f hq => ?_, fun fd e f ha => ?_, fun fd he => ?_⟩
  · rwa [Armed, hs.view]
  · rwa [Queued, hs.fibers]
  · rwa [Armed, hs.view] at ha
  · rwa [hs.view] at he

theorem Served.of_take (h : Consistent s) {fd : Nat} (hfd : fd < s.fdContexts.length) {m : Mask}
    (hm : (s.view fd).faultMask m = none) : Served s (s.take fd m) := by
  have hview := take_view h hfd m
  have hqueue : ∀ ft, ft ∈ s.fibers () → ft ∈ (s.take fd m).fibers () := fun ft hft =>
    mem_pushMask.mpr (.inl hft)
  refine ⟨take_consistent h hfd m, fun fd' e f ha => ?_, fun f => hqueue _, fun fd' e f ha => ?_,
    fun fd' he => ?_⟩
  · by_cases hne : fd' = fd
    · subst hne
      cases hme : m.has e with
      | true =>
        right
        obtain ⟨hhas, hfiber⟩ := ha
        have hslot := h.slots fd' e
        rw [if_pos hhas, EventContext.Used, hfiber] at hslot
        refine mem_pushMask.mpr (.inr ⟨e, hme, (FdContext.faultMask_none.mp hm e hme).2, ?_⟩)
        simp [EventContext.task, hslot, hfiber]
      | false =>
        left
        rw [Armed, hview, Function.update_self, events_disarmMask, Mask.has_diff, getContext_disarmMask, hme]
        simpa [Armed] using ha
    · left
      rwa [Armed, hview, Function.update_of_ne hne]
  · rw [Armed, hview] at ha
    by_cases hne : fd' = fd
    · subst hne
      rw [Function.update_self, events_disarmMask, Mask.has_diff, getContext_disarmMask] at ha
      cases hme : m.has e with
      | true => simp [hme] at ha
      | false => simpa [Armed, hme] using ha
    · rwa [Function.update_of_ne hne] at ha
  · rw [hview] at he
    by_cases hne : fd' = fd
    · subst hne
      rw [Function.update_self, events_disarmMask] at he
      intro hnone
      rw [hnone] at he
      exact he (Mask.ext_has fun e => by simp [Mask.has_diff])
    · rwa [Function.update_of_ne hne] at he

theorem exec_served (h : Consistent s) {op : Op Unit φ κ} (hop : Wakes op = true) {a : Answer}
    (hexec : exec s op = .ok (a, u)) : Served s u := by
  have hout := exec_outcome h op
  rw [hexec] at hout
  cases hout with
  | skipped ha hu hs => exact .of_same hu hs
  | armed he hu hs hfd => cases hop
  | dropped he => cases hop
  | took htakes hm => exact .of_take h (Op.takes_lt htakes).1 hm

/-- A `cancelEvent` whose `epoll_ctl` does not fail leaves the direction unarmed. -/
theorem cancelEvent_unarmed (h : Consistent s) {fd : Nat} {e : Event} {a : Answer}
    (hexec : exec s (.cancelEvent fd e true) = .ok (a, u)) : (u.view fd).events.has e = false := by
  simp only [exec, cancelEvent_spec h] at hexec
  cases he : (s.view fd).events.has e with
  | false =>
    rw [if_pos (.inl he)] at hexec
    cases hexec
    exact he
  | true =>
    rw [if_neg (by simp [he])] at hexec
    cases hm : (s.view fd).faultMask (Mask.only e) with
    | some f =>
      simp only [hm, Except.map] at hexec
      cases hexec
    | none =>
      simp only [hm, Except.map] at hexec
      cases hexec
      rw [take_view h (lt_of_armed he), Function.update_self, events_disarmMask, Mask.has_diff,
        only_has.mpr rfl]
      simp

/-- An `addEvent` that does not return 0. -/
theorem addEvent_refused (h : Consistent s) {fd : Nat} {e : Event} {who : Caller Unit φ} {ok : Bool}
    {a : Answer} (hexec : exec s (.addEvent fd e who none ok) = .ok (a, u)) (ha : a ≠ .returned true) :
    Served s u := by
  have hout := exec_outcome h (.addEvent fd e who none ok)
  rw [hexec] at hout
  cases hout with
  | skipped hfail hu hs => exact .of_same hu hs
  | armed he hu hs hfd => exact absurd rfl ha
  | took htakes hm => cases htakes

/-- What an `addEvent` of a fiber that returns 0 has done. -/
structure Added (s u : IOManager.State Unit φ κ) (fd : Nat) (e : Event) (f : φ) : Prop where
  consistent : Consistent u
  armed : Armed u fd e f
  fibers : u.fibers = s.fibers
  kept : ∀ fd' e' f', Armed s fd' e' f' → Armed u fd' e' f'
  back : ∀ fd' e' f', Armed u fd' e' f' → Armed s fd' e' f' ∨ (fd' = fd ∧ e' = e ∧ f' = f)
  events : ∀ fd', (u.view fd').events ≠ Mask.none → fd' = fd ∨ (s.view fd').events ≠ Mask.none

theorem addEvent_added (h : Consistent s) {fd : Nat} {e : Event} {f : φ} {ok : Bool}
    (hexec : exec s (.addEvent fd e ⟨some (), f⟩ none ok) = .ok (.returned true, u)) :
    ok = true ∧ Added s u fd e f := by
  have hout := exec_outcome h (.addEvent fd e ⟨some (), f⟩ none ok)
  rw [hexec] at hout
  cases hout with
  | skipped ha hu hs => cases ha
  | took htakes hm => cases htakes
  | @armed _ _ _ _ u' he hu hs hfd =>
    have hcons := put_consistent hu hfd (fd_arm (u'.view fd) e (slotOf ⟨some (), f⟩ none))
      (FdContext.slots_arm (hu.slots fd) e (slotOf_used _ _)) s.fibers
    have hview := put_view hu hfd ((s.view fd).arm e (slotOf ⟨some (), f⟩ none)) s.fibers
    rw [hs.view] at hcons hview
    have hself : ∀ e', (((s.view fd).arm e (slotOf ⟨some (), f⟩ none)).events.has e' =
        (decide (e' = e) || (s.view fd).events.has e')) ∧
        ((s.view fd).arm e (slotOf ⟨some (), f⟩ none)).getContext e' =
          if e' = e then slotOf ⟨some (), f⟩ none else (s.view fd).getContext e' := fun e' => by
      simp [FdContext.arm]
    refine ⟨rfl, hcons, ?_, rfl, fun fd' e' f' ha => ?_, fun fd' e' f' ha => ?_, fun fd' hne => ?_⟩
    · rw [Armed, hview, Function.update_self, (hself e).1, (hself e).2]
      simp [slotOf, EventContext.fill]
    · rw [Armed, hview]
      by_cases hfd' : fd' = fd
      · subst hfd'
        have hne : e' ≠ e := by
          intro heq
          subst heq
          cases he.symm.trans ha.1
        rw [Function.update_self, (hself e').1, (hself e').2, if_neg hne, ha.1, Bool.or_true]
        exact ⟨rfl, ha.2⟩
      · rwa [Function.update_of_ne hfd']
    · rw [Armed, hview] at ha
      by_cases hfd' : fd' = fd
      · subst hfd'
        rw [Function.update_self, (hself e').1, (hself e').2] at ha
        by_cases hne : e' = e
        · subst hne
          right
          simpa [slotOf, EventContext.fill, eq_comm] using ha
        · rw [if_neg hne] at ha
          exact .inl ⟨by simpa [hne] using ha.1, ha.2⟩
      · rw [Function.update_of_ne hfd'] at ha
        exact .inl ha
    · rw [hview] at hne
      by_cases hfd' : fd' = fd
      · exact .inl hfd'
      · rw [Function.update_of_ne hfd'] at hne
        exact .inr hne

end

/-! ### States -/

section
variable {ι φ : Type}

/-- `close_f` is called on a descriptor only when none of its events is armed. -/
def Drained (s : State ι φ) : Act ι φ → Prop
  | .work f _ =>
    match s.doing f with
    | .close .closeF fd => (s.table.view fd).events = Mask.none
    | _ => True
  | _ => True

instance (s : State ι φ) : (a : Act ι φ) → Decidable (Drained s a)
  | .work f _ =>
    match h : s.doing f with
    | .close .closeF fd => decidable_of_iff ((s.table.view fd).events = Mask.none) (by simp only [Drained, h])
    | .close .lookup _ | .close .cancelAll _ | .close .del _ | .user | .enter _ _ | .direct _ _
    | .io _ _ | .manage _ | .onTimer _ _ | .idle _ => isTrue (by simp [Drained, h])
  | .socket _ _ | .doIo _ _ _ | .close _ _ | .onTimer _ _ | .idle _ _ _ | .resume _ | .dispatch _ _ _
  | .setTimeout _ _ _ | .setUserNonblock _ _ => isTrue trivial

structure Sound (s : State ι φ) : Prop where
  table : Consistent s.table
  opened : ∀ fd, (s.table.view fd).events ≠ Mask.none → s.isOpen fd = true
  waiting : ∀ f c, (s.doing f).waiting = some c →
    Armed s.table c.info.fd c.info.event f ∨ Queued s.table f
  on : ∀ f c, (s.doing f).waiting = some c → Armed s.table c.info.fd c.info.event f →
    c.on.head? = s.opened c.info.fd

theorem start_sound (now : TimerManager.U64) : Sound (start now : State ι φ) := by
  refine ⟨init_consistent, fun fd he => ?_, fun f c h => (nomatch h), fun f c h => (nomatch h)⟩
  have hview : ((start now : State ι φ).table.view fd).events = Mask.none := by
    show (IOManager.State.init.view fd).events = Mask.none
    rw [init_view]
  exact absurd hview he

variable {s t : State ι φ}

theorem Sound.plain (k : Sound s) (p : Plain s t) : Sound t := by
  refine ⟨p.table ▸ k.table, fun fd he => ?_, fun f c h => ?_, fun f c h ha => ?_⟩
  · rw [p.table] at he
    rw [State.isOpen, p.opened]
    exact k.opened fd he
  · rw [p.table]
    exact k.waiting f c (p.waiting f c h)
  · rw [p.table] at ha
    rw [p.opened]
    exact k.on f c (p.waiting f c h) ha

/-- The table serves waiters, and who waits and what is open stays as it is. -/
theorem Sound.served (k : Sound s) {u : IOManager.State Unit φ Info} (hu : Served s.table u) :
    Sound { s with table := u } := by
  refine ⟨hu.consistent, fun fd he => k.opened fd (hu.events fd he), fun f c h => ?_,
    fun f c h ha => k.on f c h (hu.back _ _ _ ha)⟩
  rcases k.waiting f c h with ha | hq
  · exact hu.kept _ _ _ ha
  · exact .inr (hu.queued f hq)

/-- The queue is of no concern to the rest of the table. -/
theorem consistent_fibers (h : Consistent s.table) (fibers : Unit → List (FiberAndThread φ Info)) :
    Consistent { s.table with fibers := fibers } :=
  ⟨⟨h.size, h.place⟩, h.slots, h.kernel, h.count⟩

/-- Another queue in which the waiters still are. -/
theorem Sound.queue (k : Sound s) {fibers : List (FiberAndThread φ Info)}
    (hq : ∀ f, Queued s.table f → ({ fiber := some f } : FiberAndThread φ Info) ∈ fibers) :
    Sound { s with table := { s.table with fibers := fun _ => fibers } } :=
  k.served ⟨consistent_fibers k.table _, fun _ _ _ ha => .inl ha, hq, fun _ _ _ ha => ha,
    fun _ he => he⟩

theorem Sound.openFd (k : Sound s) {n : Nat} (h : s.openFd n = some t) : Sound t := by
  obtain ⟨hn, rfl⟩ := openFd_eq h
  have hsame : ∀ fd, s.isOpen fd = true →
      Function.update s.opened n (some s.openings) fd = s.opened fd := fun fd hopen => by
    refine Function.update_of_ne ?_ ..
    intro heq
    subst heq
    cases hopen.symm.trans hn
  refine ⟨k.table, fun fd he => ?_, k.waiting, fun f c h ha => ?_⟩
  · have hopen := k.opened fd he
    simp only [State.isOpen, hsame fd hopen]
    exact hopen
  · exact (k.on f c h ha).trans (hsame _ (k.opened _ (Mask.ne_none_of_has ha.1))).symm

/-- Nothing is armed for the descriptor that is closed, and the kernel has no entry. -/
theorem Sound.closeFd (k : Sound s) {fd : Nat} (hnone : (s.table.view fd).events = Mask.none) :
    Sound (s.closeFd fd) := by
  have hentry : Function.update s.table.interest fd none = s.table.interest := by
    rw [← Function.update_eq_self fd s.table.interest, Function.update_idem, k.table.kernel fd, registered,
      if_pos hnone]
  have hother : ∀ fd', (s.table.view fd').events ≠ Mask.none →
      Function.update s.opened fd none fd' = s.opened fd' := fun fd' he => by
    refine Function.update_of_ne ?_ ..
    intro heq
    subst heq
    exact he hnone
  have htable : (s.closeFd fd).table = s.table := by simp only [State.closeFd, hentry]
  refine ⟨htable ▸ k.table, fun fd' he => ?_, fun f c h => ?_, fun f c h ha => ?_⟩
  · rw [htable] at he
    have hopen := k.opened fd' he
    simp only [State.isOpen, State.closeFd, hother fd' he]
    exact hopen
  · rw [htable]
    exact k.waiting f c h
  · rw [htable] at ha
    exact (k.on f c h ha).trans (hother _ (Mask.ne_none_of_has ha.1)).symm

variable [DecidableEq φ]

theorem Sound.effect (k : Sound s) {a : Act ι φ} (hg : Drained s a) (he : Effect s a t) : Sound t := by
  cases he with
  | none => exact k
  | opens ha hs => exact k.openFd hs
  | closes ha hf =>
    subst ha
    simp only [Drained, hf] at hg
    exact k.closeFd hg
  | serves hop hexec => exact k.served (exec_served k.table hop hexec)
  | refuses hexec hr => exact k.served (addEvent_refused k.table hexec hr)
  | pushes hsub => exact k.queue fun f hq => hsub _ hq
  | takes =>
    refine k.queue fun f hq => ?_
    exact (List.mem_erase_of_ne (by simp)).mpr hq

/-- A fiber has armed its event. -/
theorem Sound.begins (k : Sound s) {f : φ} {c : Call ι} {u : IOManager.State Unit φ Info}
    (hf : s.doing f = .io .addEvent c) (hopen : s.isOpen c.info.fd = true)
    (hu : Added s.table u c.info.fd c.info.event f) :
    Sound (({ s with table := u } : State ι φ).goto f
      (.io .yield { c with on := (s.opened c.info.fd).toList ++ c.on })) := by
  refine ⟨hu.consistent, fun fd he => ?_, fun f' c' h => ?_, fun f' c' h ha => ?_⟩
  · rcases hu.events fd he with rfl | he
    · exact hopen
    · exact k.opened fd he
  · rcases doing_update (·.waiting = some c') h with ⟨rfl, hw⟩ | ⟨-, hw⟩
    · cases hw
      exact .inl hu.armed
    · refine (k.waiting f' c' hw).imp (hu.kept _ _ _) fun hq => ?_
      show _ ∈ u.fibers ()
      rw [hu.fibers]
      exact hq
  · rcases doing_update (·.waiting = some c') h with ⟨rfl, hw⟩ | ⟨hne, hw⟩
    · cases hw
      obtain ⟨g, hg⟩ := Option.isSome_iff_exists.mp hopen
      show ((s.opened c.info.fd).toList ++ c.on).head? = s.opened c.info.fd
      rw [hg]
      rfl
    · rcases hu.back _ _ _ ha with ha | ⟨-, -, heq⟩
      · exact k.on f' c' hw ha
      · exact absurd heq hne

/-- A worker has taken a fiber out of the queue. -/
theorem Sound.resumes (k : Sound s) {f : φ} (c : Call ι) :
    Sound (({ s with table := { s.table with
      fibers := fun _ => (s.table.fibers ()).erase { fiber := some f } } } : State ι φ).goto f
        (.io .resumed c)) := by
  have hcases : ∀ {f' c'}, (Function.update s.doing f (.io .resumed c) f').waiting = some c' →
      f' ≠ f ∧ (s.doing f').waiting = some c' :=
    fun h => (doing_update (·.waiting = some _) h).resolve_left fun hself => nomatch hself.2
  refine ⟨consistent_fibers k.table _, k.opened, fun f' c' h => ?_, fun f' c' h ha =>
    k.on f' c' (hcases h).2 ha⟩
  obtain ⟨hne, h⟩ := hcases h
  refine (k.waiting f' c' h).imp_right fun hq => ?_
  exact (List.mem_erase_of_ne (by simpa using hne)).mpr hq

variable [LinearOrder ι]

theorem step_sound (k : Sound s) {a : Act ι φ} (hg : Drained s a) (h : step s a = some t) : Sound t := by
  cases step_move h with
  | local_ he hp => exact (k.effect hg he).plain hp
  | begins ha hf hexec ht =>
    subst ht
    obtain ⟨hok, hu⟩ := addEvent_added k.table hexec
    exact k.begins hf (Bool.and_eq_true_iff.mp hok).2 hu
  | @resumes f c hf ht =>
    subst ht
    exact k.resumes c
  | @fires f x i r u ha hf hexec ht =>
    subst ht
    have hs := k.served (exec_served k.table rfl hexec)
    have hp : Plain ({ s with table := u } : State ι φ) (({ s with table := u } : State ι φ).goto f .user) :=
      goto_out ⟨rfl, fun _ => rfl⟩
    have hs := hs.plain hp
    exact ⟨hs.table, hs.opened, hs.waiting, hs.on⟩

end

end ShioSylar.Hook
