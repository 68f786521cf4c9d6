import ShioSylar.IOManager.Idle

/-! What `IOManager::stopping` says.

The three reads of `stopping(timeout)` are of three moments. What `getNextTimer` and
`m_pendingEventCount` said may be out of date at the last one (`stops_behind`): a worker may have
had expired callbacks in its hands all along, or a timer or an event has come since. If none of
this happened, the answer is right at that moment (`stopping_reachable`). `Seen` is what a
thread on its way knows. -/
namespace ShioSylar.IOManager.Idle
open Scheduler Lib
open TimerManager (U64)

section
variable {ω τ φ ι κ : Type}

/-- Nothing is left to do, and nothing can come but from user code. -/
structure Finished (s : State ω τ φ ι κ) : Prop where
  timers : s.life.manager.timers = []
  events : ∀ fd e, (s.table.view fd).events.has e = false
  queued : s.run.fibers = []
  executing : ∀ w, (s.run.pc w).busy = false
  held : ∀ w b cbs, s.idle w ≠ .expired b cbs

/-- What holds in every run of who has callbacks in hand, and of who asks. -/
structure Seen (s : State ω τ φ ι κ) : Prop where
  held : ∀ w b cbs, s.idle w = .expired b cbs → w ∈ s.holders
  timers : ∀ x q, s.place x = some q → q ≠ .timers → s.timerSince x = false →
    s.life.manager.timers = [] ∧ s.holders = []
  events : ∀ x, s.place x = some .tasks → s.eventSince x = false → s.table.pendingEventCount = 0

theorem init_seen [LinearOrder ι] (now : U64) : Seen (State.init now : State ω τ φ ι κ) := by
  refine ⟨fun _ _ _ h => (nomatch h), fun x q h hq => ?_, fun x h => ?_⟩
  · cases x <;> cases h
    exact absurd rfl hq
  · cases x <;> cases h

section
variable {s t : State ω τ φ ι κ} {w : ω}

/-- The timers, the events and those who hold callbacks are left alone. -/
theorem Seen.frame (k : Seen s) (hplace : ∀ x q, t.place x = some q → q ≠ .timers → s.place x = some q)
    (hheld : ∀ w b cbs, t.idle w = .expired b cbs → s.idle w = .expired b cbs)
    (htimers : t.life.manager.timers = s.life.manager.timers) (hholders : t.holders = s.holders)
    (hcount : t.table.pendingEventCount = s.table.pendingEventCount)
    (htimer : t.timerSince = s.timerSince) (hevent : t.eventSince = s.eventSince) : Seen t := by
  refine ⟨fun w b cbs h => ?_, fun x q h hq hx => ?_, fun x h hx => ?_⟩
  · rw [hholders]
    exact k.held w b cbs (hheld w b cbs h)
  · rw [htimers, hholders]
    exact k.timers x q (hplace x q h hq) hq (htimer ▸ hx)
  · rw [hcount]
    exact k.events x (hplace x .tasks h nofun) (hevent ▸ hx)

/-- A worker goes somewhere else in `idle`. -/
theorem place_update [DecidableEq ω] {u : Stage φ ι κ} {x : ω ⊕ τ} {q : Asking} (h : t.place x = some q)
    (hidle : t.idle = Function.update s.idle w u) (hasking : t.asking = s.asking)
    (hu : ∀ q, u ≠ .asking q) : s.place x = some q := by
  cases x with
  | inr y => rwa [State.place, hasking] at h
  | inl v =>
    simp only [State.place, hidle] at h ⊢
    by_cases hv : v = w
    · subst hv
      rw [Function.update_self] at h
      cases u <;> simp_all
    · rwa [Function.update_of_ne hv] at h

theorem place_begins [DecidableEq ω] {b : Workers.Act ω φ (Job ι κ)} {x : ω ⊕ τ} {q : Asking}
    (h : t.place x = some q) (hidle : t.idle = s.begins b) (hasking : t.asking = s.asking)
    (hq : q ≠ .timers) : s.place x = some q := by
  cases x with
  | inr y => rwa [State.place, hasking] at h
  | inl v =>
    simp only [State.place, hidle] at h ⊢
    obtain heq | ⟨-, heq⟩ := begins_spec s b v
    · rwa [heq] at h
    · rw [heq] at h
      cases h
      exact absurd rfl hq

theorem asks_place {x : ω ⊕ τ} {q : Asking} (hq : s.asks x = some q) : s.place x = some q := by
  cases x with
  | inl v => rw [State.place, (asks_inIdle hq).2]
  | inr y => exact hq

/-- A thread reads, and goes on to what it reads next if there is anything. -/
theorem Seen.reads [DecidableEq ω] [DecidableEq τ] {x : ω ⊕ τ} {now : U64} {q : Asking} {q' : Option Asking}
    (k : Seen s) (hq : s.asks x = some q) (hres : ∀ q'', q' = some q'' → (s.look x now q).1 = .inl q'') :
    Seen ((s.look x now q).2.setAsk x q') := by
  have r : Reads s x q' ((s.look x now q).2.setAsk x q') := look_reads hq q'
  have hset : ((s.look x now q).2.setAsk x q').timerSince = (s.look x now q).2.timerSince ∧
      ((s.look x now q).2.setAsk x q').eventSince = (s.look x now q).2.eventSince := by
    cases x <;> cases q' <;> exact ⟨rfl, rfl⟩
  refine ⟨fun w b cbs h => ?_, fun y q'' h hne hy => ?_, fun y h hy => ?_⟩
  · rw [r.holders]
    exact k.held w b cbs (r.expired w b cbs h)
  · rw [r.timers, r.holders]
    rw [hset.1] at hy
    by_cases hyx : y = x
    · subst hyx
      have hnext := hres q'' (r.self.symm.trans h)
      cases q with
      | timers => simpa [State.look] using hy
      | events => exact k.timers y .events (asks_place hq) (by simp) hy
      | tasks => cases hnext
    · refine k.timers y q'' (r.place y hyx ▸ h) hne ?_
      cases q with
      | timers => simpa only [State.look, Function.update_of_ne hyx] using hy
      | events => exact hy
      | tasks => exact hy
  · rw [r.table]
    rw [hset.2] at hy
    by_cases hyx : y = x
    · subst hyx
      have hnext := hres .tasks (r.self.symm.trans h)
      cases q with
      | timers =>
        simp only [State.look] at hnext
        split at hnext <;> cases hnext
      | events =>
        simp only [State.look] at hnext
        split at hnext
        · assumption
        · cases hnext
      | tasks => cases hnext
    · refine k.events y (r.place y hyx ▸ h) ?_
      cases q with
      | timers => exact hy
      | events => simpa only [State.look, Function.update_of_ne hyx] using hy
      | tasks => exact hy

end

section
variable [DecidableEq ω] [DecidableEq τ] [DecidableEq φ] [LinearOrder ι] {thread : ω → Int} {s t : State ω τ φ ι κ}

omit [DecidableEq ω] [DecidableEq τ] [DecidableEq φ] in
theorem copies_nil {now : U64} {tmp : ι} (h : s.life.manager.timers = []) : s.copies now tmp = [] := by
  simp [State.copies, TimerManager.State.takeExpired, h]

omit [DecidableEq τ] [DecidableEq φ] in
/-- A worker comes back from `listExpiredCb`, with callbacks or without. -/
theorem Seen.expires (k : Seen s) {w : ω} {now : U64} {tmp : ι} {tickled : Bool} {l : TimerManager.Life ι κ} :
    Seen (State.note { s with
      life := l
      idle := Function.update s.idle w
        (if (s.copies now tmp).isEmpty then .reports tickled else .expired tickled (s.copies now tmp))
      holders := if (s.copies now tmp).isEmpty then s.holders else w :: s.holders }) := by
  set t : State ω τ φ ι κ := State.note { s with
    life := l
    idle := Function.update s.idle w
      (if (s.copies now tmp).isEmpty then .reports tickled else .expired tickled (s.copies now tmp))
    holders := if (s.copies now tmp).isEmpty then s.holders else w :: s.holders } with ht
  have hplace : ∀ {y q}, t.place y = some q → s.place y = some q := by
    intro y q h
    refine place_update h rfl rfl fun q => ?_
    split <;> nofun
  refine ⟨fun v b cbs hv => ?_, fun y q h hq hy => ?_, fun y h hy => ?_⟩
  · simp only [ht, State.note] at hv ⊢
    by_cases hvw : v = w
    · subst hvw
      rw [Function.update_self] at hv
      split at hv
      · cases hv
      · rename_i hsome
        rw [if_neg hsome]
        exact List.mem_cons_self
    · rw [Function.update_of_ne hvw] at hv
      have hold := k.held v b cbs hv
      split
      · exact hold
      · exact List.mem_cons_of_mem _ hold
  · simp only [ht, State.note, Bool.or_eq_false_iff, Bool.not_eq_false', List.isEmpty_iff] at hy
    obtain ⟨htimers, hholders⟩ := k.timers y q (hplace h) hq hy.1
    refine ⟨hy.2, ?_⟩
    simp only [ht, State.note, copies_nil htimers]
    exact hholders
  · simp only [ht, State.note, Bool.or_eq_false_iff] at hy
    exact k.events y (hplace h) hy.1

omit [DecidableEq τ] [DecidableEq φ] [LinearOrder ι] in
/-- A worker has put its callbacks into `m_fibers`. -/
theorem Seen.puts (k : Seen s) {w : ω} {tickled : Bool} {r : Workers.State ω φ (Job ι κ)} {calls : ω ⊕ τ → Tickle} :
    Seen { s with
      run := r
      calls := calls
      idle := Function.update s.idle w (.reports tickled)
      holders := s.holders.filter (· ≠ w) } := by
  refine ⟨fun v b cbs hv => ?_, fun y q h hq hy => ?_, fun y h hy => ?_⟩
  · have hvw : v ≠ w := by
      rintro rfl
      simp at hv
    simp only [Function.update_of_ne hvw] at hv
    simpa [hvw] using k.held v b cbs hv
  · obtain ⟨htimers, hholders⟩ := k.timers y q (place_update h rfl rfl nofun) hq hy
    exact ⟨htimers, by simp [hholders]⟩
  · exact k.events y (place_update h rfl rfl nofun) hy

theorem Seen.step {a : Act ω τ φ ι κ} (k : Seen s) (h : Effect thread s a t) : Seen t := by
  cases h with
  | works hb hok he =>
    exact k.frame (fun _ _ h hq => place_begins h rfl rfl hq) (fun _ _ _ => begins_expired) rfl rfl rfl rfl rfl
  | leaves hidle hmover hnot he hread => exact k.frame (fun _ _ h _ => h) (fun _ _ _ h => h) rfl rfl rfl rfl rfl
  | pushes hn he => exact k.frame (fun _ _ h _ => h) (fun _ _ _ h => h) rfl rfl rfl rfl rfl
  | checks hx => exact k.frame (fun _ _ h _ => h) (fun _ _ _ h => h) rfl rfl rfl rfl rfl
  | writes hx => exact k.frame (fun _ _ h _ => h) (fun _ _ _ h => h) rfl rfl rfl rfl rfl
  | @times x op l hop hl =>
    refine ⟨k.held, fun y q h hq hy => ?_, fun y h hy => ?_⟩
    · simp only [State.note, Bool.or_eq_false_iff, Bool.not_eq_false', List.isEmpty_iff] at hy
      exact ⟨hy.2, (k.timers y q h hq hy.1).2⟩
    · simp only [State.note, Bool.or_eq_false_iff] at hy
      exact k.events y h hy.1
  | @touches _ x op ans u nodes hop hn he ha =>
    refine ⟨k.held, fun y q h hq hy => ?_, fun y h hy => ?_⟩
    · simp only [State.note, Bool.or_eq_false_iff] at hy
      exact k.timers y q h hq hy.1
    · simp only [State.note, Bool.or_eq_false_iff, decide_eq_false_iff_not, not_not] at hy
      exact hy.2
  | flags ha => exact k.frame (fun _ _ h _ => h) (fun _ _ _ h => h) rfl rfl rfl rfl rfl
  | @asks y hy =>
    refine k.frame (fun x q h hq => ?_) (fun _ _ _ h => h) rfl rfl rfl rfl rfl
    cases x with
    | inl v => exact h
    | inr z =>
      by_cases hz : z = y
      · subst hz
        cases (Function.update_self (f := s.asking) ..).symm.trans h
        exact absurd rfl hq
      · exact (Function.update_of_ne hz ..).symm.trans h
  | reads hq hres =>
    refine k.reads hq fun q'' heq => ?_
    cases heq
    exact hres
  | answers hq hres hb => exact k.reads hq (by simp)
  | wakes hidle hw hpipe =>
    exact k.frame (fun _ _ h _ => place_update h rfl rfl (by simp)) (fun _ _ _ h => update_expired h (by simp))
      rfl rfl rfl rfl rfl
  | expires hidle hw hl => exact k.expires
  | puts hidle hw he => exact k.puts
  | drains hidle hw =>
    exact k.frame (fun _ _ h _ => place_update h rfl rfl (by simp)) (fun _ _ _ h => update_expired h (by simp))
      rfl rfl rfl rfl rfl

/-- The table stays consistent. -/
theorem step_consistent {a : Act ω τ φ ι κ} (k : Consistent s.table) (h : Effect thread s a t) :
    Consistent t.table := by
  cases h with
  | @touches _ x op ans u nodes hop hn he ha =>
    have hout := exec_outcome k op
    rw [hop] at hout
    obtain ⟨c, -⟩ := hout.consistent k
    exact ⟨⟨c.size, c.place⟩, c.slots, c.kernel, c.count⟩
  | reads hq hres => rwa [(look_reads hq _).table]
  | answers hq hres hb => rwa [(look_reads hq _).table]
  | works | leaves | pushes | checks | writes | times | flags | asks | wakes | expires | puts | drains => exact k

theorem stopping_invariant {now : U64} {acts : List (Act ω τ φ ι κ)}
    (h : run (step thread) (State.init now) acts = some s) :
    Seen s ∧ Consistent s.table ∧ Workers.Counted s.run := by
  refine run_preserves (P := fun s => Seen s ∧ Consistent s.table ∧ Workers.Counted s.run)
    (fun s a t k h => ?_) ⟨init_seen now, init_consistent, Workers.start_counted⟩ h
  obtain ⟨k, c, n⟩ := k
  refine ⟨k.step (step_effect h), step_consistent c (step_effect h), ?_⟩
  obtain heq | ⟨b, he⟩ := (step_effect h).run
  · exact heq ▸ n
  · exact n.step he

/-- **When `stopping(timeout)` is true, nothing is left**, if no worker had callbacks in hand when
`getNextTimer` was read, `m_timers` has been empty since, and no event has been armed since
`m_pendingEventCount` was read. -/
theorem stopping_reachable (thread : ω → Int) (now : U64) (acts : List (Act ω τ φ ι κ)) (s : State ω τ φ ι κ)
    (h : run (step thread) (State.init now) acts = some s) (x : ω ⊕ τ) (q : Asking) (hq : s.asks x = some q)
    (later : U64) (hres : (s.look x later q).1 = .inr true) (htimer : s.timerSince x = false)
    (hevent : s.eventSince x = false) : Finished s := by
  obtain ⟨k, c, n⟩ := stopping_invariant h
  obtain ⟨rfl, hstop⟩ := look_true hres
  obtain ⟨htimers, hholders⟩ := k.timers x .tasks (asks_place hq) nofun htimer
  have hcount := k.events x (asks_place hq) hevent
  simp only [State.stopping, Bool.and_eq_true, List.isEmpty_iff, decide_eq_true_eq] at hstop
  obtain ⟨⟨-, hqueue⟩, hactive⟩ := hstop
  have hbusy := n.active
  rw [hactive] at hbusy
  refine ⟨htimers, fun fd e => State.armed_zero (c.count ▸ hcount) fd e, hqueue, hbusy.none, fun w b cbs hw => ?_⟩
  have hmem := k.held w b cbs hw
  rw [hholders] at hmem
  cases hmem

end
end

/-- A worker comes to `idle`. -/
def idlesActs (w : Bool) (i : Nat) : List (Act Bool Unit Nat Nat Nat) :=
  .worker (.enter w i) :: List.replicate 4 (.worker (.work w 20))

/-- Worker `false` has the callback of an expired timer in hand while worker `true` asks. -/
def heldActs : List (Act Bool Unit Nat Nat Nat) :=
  [.start, .timer (.inr ()) (.addTimer 1 5 7 false 0), .tickle (.inr ())] ++ idlesActs false 10 ++
    idlesActs true 11 ++ [.autoStop, .stop, .read (.inl false) 5, .wake false false, .expire false 5 2,
      .read (.inl true) 5, .read (.inl true) 5]

/-- Worker `true` is in `idle`, and `false` runs the only task. -/
def runsActs : List (Act Bool Unit Nat Nat Nat) :=
  .start :: idlesActs true 11 ++ [.schedule (.inr ()) [{ cb := some 7 }], .tickle (.inr ()), .tickle (.inr ()),
    .worker (.enter false 10), .worker (.work false 20), .worker (.work false 20), .worker (.work false 20),
    .worker (.work false 20), .autoStop, .stop, .read (.inl true) 5]

/-- The task ends, and its worker lowers `m_activeThreadCount`. -/
def endsActs : List (Act Bool Unit Nat Nat Nat) :=
  [.worker (.finish false false), .worker (.work false 20), .worker (.work false 20)]

/-- The task adds a timer after worker `true` has read `getNextTimer`. -/
def timerActs : List (Act Bool Unit Nat Nat Nat) :=
  runsActs ++ [.timer (.inl false) (.addTimer 1 5 7 false 0), .tickle (.inl false), .tickle (.inl false),
    .read (.inl true) 5] ++ endsActs

/-- The task adds an event after worker `true` has read `m_pendingEventCount`. -/
def eventActs : List (Act Bool Unit Nat Nat Nat) :=
  runsActs ++ [.read (.inl true) 5,
    .table (.inl false) (.addEvent 3 .read { scheduler := some (), fiber := 20 } (some 8) true)] ++ endsActs

/-- Worker `true` is told that nothing is left, and something is. -/
def Misled (acts : List (Act Bool Unit Nat Nat Nat)) : Prop :=
  ∃ s, run (step fun w : Bool => w.toNat) (State.init 0) acts = some s ∧ s.asks (.inl true) = some .tasks ∧
    (s.look (.inl true) 5 .tasks).1 = .inr true ∧ ¬ Finished s

theorem misled_of {acts : List (Act Bool Unit Nat Nat Nat)}
    (h : (run (step fun w : Bool => w.toNat) (State.init 0) acts).any (fun s =>
      s.asks (.inl true) = some .tasks && s.stopping && (!s.life.manager.timers.isEmpty ||
        (s.table.view 3).events.has .read || (match s.idle false with | .expired _ _ => true | _ => false))) = true) :
    Misled acts := by
  obtain ⟨s, hs, hcheck⟩ := Option.any_eq_true .. |>.mp h
  simp only [Bool.and_eq_true, decide_eq_true_eq] at hcheck
  obtain ⟨⟨hasks, hstop⟩, hleft⟩ := hcheck
  refine ⟨s, hs, hasks, congrArg Sum.inr hstop, fun hdone => ?_⟩
  rw [hdone.timers, hdone.events] at hleft
  split at hleft
  · exact hdone.held _ _ _ ‹_›
  · cases hleft

/-- A callback in another worker's hands, a timer, an event. -/
theorem stops_behind : Misled heldActs ∧ Misled timerActs ∧ Misled eventActs :=
  ⟨misled_of (by decide +kernel), misled_of (by decide +kernel), misled_of (by decide +kernel)⟩

/-- The task ends, and nothing has come. -/
def restActs : List (Act Bool Unit Nat Nat Nat) := runsActs ++ [.read (.inl true) 5] ++ endsActs

theorem stopping_reachable_sample : ∃ s,
    run (step fun w : Bool => w.toNat) (State.init 0) restActs = some s ∧
      (s.look (.inl true) 5 .tasks).1 = .inr true ∧ Finished s := by
  have hrun : (run (step fun w : Bool => w.toNat) (State.init 0) restActs).any (fun s =>
      s.asks (.inl true) = some .tasks && s.stopping && !s.timerSince (.inl true) &&
        !s.eventSince (.inl true)) = true := by decide +kernel
  obtain ⟨s, hs, hcheck⟩ := Option.any_eq_true .. |>.mp hrun
  simp only [Bool.and_eq_true, decide_eq_true_eq, Bool.not_eq_true'] at hcheck
  obtain ⟨⟨⟨hasks, hstop⟩, htimer⟩, hevent⟩ := hcheck
  have hres : (s.look (.inl true) 5 .tasks).1 = .inr true := congrArg Sum.inr hstop
  exact ⟨s, hs, hres,
    stopping_reachable (fun w : Bool => w.toNat) 0 restActs s hs (.inl true) .tasks hasks 5 hres htimer hevent⟩

end ShioSylar.IOManager.Idle
