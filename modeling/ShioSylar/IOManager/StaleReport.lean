import ShioSylar.IOManager.Calls

/-! Reports that are dispatched after the table has changed.

One worker is in `idle`: `epoll_wait` hands it a batch of reports, and it dispatches them
one at a time under the mutex of their context. Between any two of its steps other
threads make calls. A report is of the interest the kernel held when it was taken, so at
its dispatch one of its directions may be gone while the other is still armed; then the
assertion of `triggerEvent` fails (`stale_report_asserts`). `stale_report_iff` says that
nothing else makes it fail. -/
namespace ShioSylar.IOManager.StaleReport
open Scheduler Lib

variable {σ φ κ : Type}

/-- The table and the worker in `idle`. -/
structure Idle (σ φ κ : Type) where
  table : State σ φ κ
  /-- The reports not dispatched yet: the context each carries and its bits. -/
  reports : List (Nat × Report)
  fault : Option Fault

inductive Act (σ φ κ : Type) where
  | epollWait (events : List (Nat × Report))
  | dispatch (ok : Bool)
  | call (op : Op σ φ κ)

/-- The kernel reports EPOLLIN and EPOLLOUT only where it was asked to. -/
def Reportable (registered : Option (Mask × Nat)) (r : Report) : Prop :=
  ∃ x ∈ registered, (r.epollin = true → x.1.read = true) ∧ (r.epollout = true → x.1.write = true)

instance (registered : Option (Mask × Nat)) (r : Report) : Decidable (Reportable registered r) :=
  match registered with
  | none => isFalse fun h => h.elim fun _ hx => nomatch hx.1
  | some x => decidable_of_iff
      ((r.epollin = true → x.1.read = true) ∧ (r.epollout = true → x.1.write = true))
      (by simp [Reportable])

/-- Dispatches are steps of the worker, not calls of other threads. -/
def IsCall : Op σ φ κ → Bool
  | .dispatch _ _ _ => false
  | _ => true

def start : Idle σ φ κ := ⟨State.init, [], none⟩

/-- One step: `epoll_wait` when the last batch is done, the dispatch of the next report,
or a call of another thread. -/
def step [DecidableEq σ] (l : Idle σ φ κ) : Act σ φ κ → Option (Idle σ φ κ)
  | .epollWait events =>
    if l.fault = none ∧ l.reports = [] ∧ (events.map Prod.fst).Nodup ∧
        ∀ x ∈ events, Reportable (l.table.interest x.1) x.2 then
      some { l with
        reports := events.filterMap fun x => (l.table.interest x.1).map fun y => (y.2, x.2) }
    else none
  | .dispatch ok =>
    match l.fault, l.reports with
    | none, (p, r) :: rest =>
      match l.table.dispatch p r ok with
      | .ok (_, s) => some { l with table := s, reports := rest }
      | .error f => some { l with fault := some f }
    | _, _ => none
  | .call op =>
    if l.fault = none ∧ IsCall op = true then
      match exec l.table op with
      | .ok (_, s) => some { l with table := s }
      | .error f => some { l with fault := some f }
    else none

/-- A waiter arms a direction that is not armed. -/
def OneWaiter (l : Idle σ φ κ) : Act σ φ κ → Prop
  | .call op => op.Fresh l.table
  | _ => True

/-- Every caller has a scheduler. -/
def Scheduled (_ : Idle σ φ κ) : Act σ φ κ → Prop
  | .call op => op.Scheduled
  | _ => True

/-- At a dispatch that the kernel accepts, the reported directions are all still armed, or
none is. -/
def StillArmed (l : Idle σ φ κ) : Act σ φ κ → Prop
  | .dispatch true => ∀ x ∈ l.reports.head?,
      let events := (l.table.contexts x.1).events
      let real := x.2.realEvents events
      events.inter real = Mask.none ∨ ∀ e, real.has e = true → events.has e = true
  | _ => True

instance (l : Idle σ φ κ) : (a : Act σ φ κ) → Decidable (OneWaiter l a)
  | .call op => inferInstanceAs (Decidable (op.Fresh l.table))
  | .epollWait _ => isTrue trivial
  | .dispatch _ => isTrue trivial

/-- Both directions of a descriptor are reported; before the dispatch a timeout cancels one
of them. -/
def staleActs : List (Act Nat Nat Nat) :=
  [.call (.addEvent 3 .read ⟨some 0, 7⟩ none true), .call (.addEvent 3 .write ⟨some 0, 8⟩ none true),
    .epollWait [(3, { epollin := true, epollout := true })], .call (.cancelEvent 3 .write true),
    .dispatch true]

/-- The assertion fails on a stale report. -/
theorem stale_report_asserts : Meets step OneWaiter start staleActs ∧
    ∃ l, run step start staleActs = some l ∧ l.fault = some .assertion :=
  ⟨by decide, _, rfl, rfl⟩

/-! ### What keeps the assertion -/

theorem faultMask_assertion {ctx : FdContext σ φ κ} {m : Mask} (h : ctx.faultMask m = some .assertion) :
    ∃ e, m.has e = true ∧ ctx.events.has e = false := by
  by_contra hall
  have hhas : ∀ e, m.has e = true → ctx.events.has e = true := fun e he => by
    by_contra hne
    exact hall ⟨e, he, by simpa using hne⟩
  have hfault : ∀ e, m.has e = true → ctx.fault e ≠ some .assertion := by
    intro e he
    simp [FdContext.fault, hhas e he]
  unfold FdContext.faultMask at h
  have hr := hfault .read
  have hw := hfault .write
  cases hmr : m.has .read <;> cases hmw : m.has .write <;> simp_all

section
variable [DecidableEq σ]

/-- The table is consistent and the pending reports are of its contexts. -/
structure Kept (l : Idle σ φ κ) : Prop where
  consistent : Consistent l.table
  known : ∀ x ∈ l.reports, x.1 ∈ l.table.fdContexts

omit [DecidableEq σ] in
theorem start_kept : Kept (start : Idle σ φ κ) := ⟨start_sound.consistent, fun _ hx => nomatch hx⟩

theorem exec_of_dispatch {s u : State σ φ κ} {fd p : Nat} (hp : s.fdContexts[fd]? = some p) {r : Report}
    {ok : Bool} {m : Mask} (hd : s.dispatch p r ok = .ok (m, u)) :
    exec s (.dispatch fd r ok) = .ok (.triggered m, u) := by
  simp only [exec, hp, hd]
  rfl

/-- A call other than a dispatch fails its assertions only by arming twice. -/
theorem exec_assertion {s : State σ φ κ} (h : Consistent s) {op : Op σ φ κ} (hfresh : op.Fresh s)
    (hop : IsCall op = true) : exec s op ≠ .error .assertion := by
  intro he
  have hout := he ▸ exec_outcome h op
  cases hout with
  | armedTwice harmed => exact absurd (hfresh.symm.trans harmed) (by simp)
  | @crashed op fd m a f htakes hm =>
    obtain ⟨e, he, hne⟩ := faultMask_assertion hm
    cases op with
    | addEvent fd' e' who cb ok => cases htakes
    | delEvent fd' e' ok => cases htakes
    | cancelEvent fd' e' ok =>
      obtain ⟨⟨harmed, -⟩, heq⟩ := Option.ite_none_right_eq_some.mp htakes
      cases heq
      rw [only_has.mp he] at hne
      cases hne.symm.trans harmed
    | cancelAll fd' ok =>
      obtain ⟨-, heq⟩ := Option.ite_none_right_eq_some.mp htakes
      cases heq
      cases hne.symm.trans he
    | dispatch fd' r ok => cases hop

/-- What a step does. -/
theorem step_cases {l l' : Idle σ φ κ} {a : Act σ φ κ} (h : step l a = some l') :
    l.fault = none ∧
      ((∃ events, a = .epollWait events ∧
        l' = { l with
          reports := events.filterMap fun x => (l.table.interest x.1).map fun y => (y.2, x.2) }) ∨
      (∃ ok p r rest, a = .dispatch ok ∧ l.reports = (p, r) :: rest ∧
        ((∃ m s, l.table.dispatch p r ok = .ok (m, s) ∧ l' = { l with table := s, reports := rest }) ∨
          ∃ f, l.table.dispatch p r ok = .error f ∧ l' = { l with fault := some f })) ∨
      (∃ op, a = .call op ∧ IsCall op = true ∧
        ((∃ b s, exec l.table op = .ok (b, s) ∧ l' = { l with table := s }) ∨
          ∃ f, exec l.table op = .error f ∧ l' = { l with fault := some f }))) := by
  rcases l with ⟨table, reports, fault⟩
  cases a with
  | epollWait events =>
    simp only [step, Option.ite_none_right_eq_some, Option.some.injEq] at h
    obtain ⟨⟨hf, -⟩, rfl⟩ := h
    exact ⟨hf, .inl ⟨events, rfl, rfl⟩⟩
  | dispatch ok =>
    cases fault with
    | some f => cases h
    | none =>
      cases reports with
      | nil => cases h
      | cons x rest =>
        refine ⟨rfl, .inr (.inl ⟨ok, x.1, x.2, rest, rfl, rfl, ?_⟩)⟩
        simp only [step] at h
        cases hd : table.dispatch x.1 x.2 ok with
        | ok r =>
          rw [hd] at h
          exact .inl ⟨r.1, r.2, rfl, (Option.some.inj h).symm⟩
        | error f =>
          rw [hd] at h
          exact .inr ⟨f, rfl, (Option.some.inj h).symm⟩
  | call op =>
    simp only [step, Option.ite_none_right_eq_some] at h
    obtain ⟨⟨hf, hop⟩, h⟩ := h
    refine ⟨hf, .inr (.inr ⟨op, rfl, hop, ?_⟩)⟩
    cases he : exec table op with
    | ok r =>
      rw [he] at h
      exact .inl ⟨r.1, r.2, rfl, (Option.some.inj h).symm⟩
    | error f =>
      rw [he] at h
      exact .inr ⟨f, rfl, (Option.some.inj h).symm⟩

theorem step_kept {l l' : Idle σ φ κ} {a : Act σ φ κ} (k : Kept l) (h : step l a = some l') : Kept l' := by
  obtain ⟨-, ⟨events, -, rfl⟩ | ⟨ok, p, r, rest, -, hr, hd⟩ | ⟨op, -, -, hd⟩⟩ := step_cases h
  · refine ⟨k.consistent, fun x hx => ?_⟩
    obtain ⟨y, -, hy⟩ := List.mem_filterMap.mp hx
    obtain ⟨⟨m, q⟩, hq, rfl⟩ := Option.map_eq_some_iff.mp hy
    rw [k.consistent.kernel, registered] at hq
    obtain ⟨-, hq⟩ := Option.ite_none_left_eq_some.mp hq
    obtain ⟨q', hq', heq⟩ := Option.map_eq_some_iff.mp hq
    cases heq
    exact List.mem_of_getElem? hq'
  · obtain ⟨m, s, hs, rfl⟩ | ⟨f, -, rfl⟩ := hd
    · obtain ⟨fd, hp⟩ := List.mem_iff_getElem?.mp (k.known (p, r) (hr ▸ List.mem_cons_self ..))
      have hout := exec_outcome k.consistent (.dispatch fd r ok)
      rw [exec_of_dispatch hp hs] at hout
      obtain ⟨hc, hext⟩ := hout.consistent k.consistent
      exact ⟨hc, fun x hx => hext.subset (k.known x (hr ▸ List.mem_cons_of_mem _ hx))⟩
    · exact ⟨k.consistent, k.known⟩
  · obtain ⟨b, s, hs, rfl⟩ | ⟨f, -, rfl⟩ := hd
    · obtain ⟨hc, hext⟩ := (hs ▸ exec_outcome k.consistent op).consistent k.consistent
      exact ⟨hc, fun x hx => hext.subset (k.known x hx)⟩
    · exact ⟨k.consistent, k.known⟩

/-- A step from a state that meets the conditions fails no assertion. -/
theorem step_safe {l l' : Idle σ φ κ} {a : Act σ φ κ} (k : Kept l) (hone : OneWaiter l a)
    (hstill : StillArmed l a) (h : step l a = some l') : l'.fault ≠ some .assertion := by
  obtain ⟨hf, ⟨events, -, rfl⟩ | ⟨ok, p, r, rest, rfl, hr, hd⟩ | ⟨op, rfl, hop, hd⟩⟩ := step_cases h
  · simp [hf]
  · obtain ⟨m, s, -, rfl⟩ | ⟨f, hs, rfl⟩ := hd
    · simp [hf]
    · intro heq
      cases heq
      obtain ⟨fd, hp⟩ := List.mem_iff_getElem?.mp (k.known (p, r) (hr ▸ List.mem_cons_self ..))
      have hview := State.view_of_get hp
      rw [dispatch_spec k.consistent hp] at hs
      split at hs
      · cases hs
      · rename_i hskip
        cases ok with
        | false => exact hskip (.inr rfl)
        | true =>
          have hhead := hstill (p, r) (by simp [hr])
          rw [← hview] at hhead
          rcases hhead with hnone | hall
          · exact hskip (.inl hnone)
          · split at hs
            · rename_i f hm
              cases hs
              obtain ⟨e, he, hne⟩ := faultMask_assertion hm
              cases hne.symm.trans (hall e he)
            · cases hs
  · obtain ⟨b, s, -, rfl⟩ | ⟨f, hs, rfl⟩ := hd
    · simp [hf]
    · intro heq
      cases heq
      exact exec_assertion k.consistent hone hop hs

omit [DecidableEq σ] in
/-- In a context whose slots have schedulers, a trigger of what is not armed is the assertion. -/
theorem owned_assertion {s : State σ φ κ} (ho : Owned s) {fd : Nat} {m : Mask} {e : Event}
    (he : m.has e = true) (hne : (s.view fd).events.has e = false) :
    (s.view fd).faultMask m = some .assertion := by
  have hfault : ∀ e, (s.view fd).fault e =
      if (s.view fd).events.has e = false then some .assertion else none := by
    intro e
    unfold FdContext.fault
    split
    · rfl
    · rename_i harmed
      have hsched := ho fd e (by simpa using harmed)
      rw [if_neg (by simpa using Option.isSome_iff_ne_none.mp hsched)]
  unfold FdContext.faultMask
  rw [hfault, hfault]
  cases e with
  | read =>
    rw [if_pos he, if_pos hne]
    rfl
  | write =>
    rw [if_pos he, if_pos hne]
    split <;> first | rfl | (split <;> rfl)

theorem step_owned {l l' : Idle σ φ κ} {a : Act σ φ κ} (k : Kept l) (ho : Owned l.table)
    (hsched : Scheduled l a) (h : step l a = some l') : Owned l'.table := by
  obtain ⟨-, ⟨events, -, rfl⟩ | ⟨ok, p, r, rest, -, hr, hd⟩ | ⟨op, rfl, hop, hd⟩⟩ := step_cases h
  · exact ho
  · obtain ⟨m, s, hs, rfl⟩ | ⟨f, -, rfl⟩ := hd
    · obtain ⟨fd, hp⟩ := List.mem_iff_getElem?.mp (k.known (p, r) (hr ▸ List.mem_cons_self ..))
      have hout := exec_outcome k.consistent (.dispatch fd r ok)
      rw [exec_of_dispatch hp hs] at hout
      refine hout.owned k.consistent ho ?_
      trivial
    · exact ho
  · obtain ⟨b, s, hs, rfl⟩ | ⟨f, -, rfl⟩ := hd
    · exact (hs ▸ exec_outcome k.consistent op).owned k.consistent ho hsched
    · exact ho

/-- Where schedulers are set, a dispatch that does not meet the condition fails the
assertion. -/
theorem step_asserts {l l' : Idle σ φ κ} {a : Act σ φ κ} (k : Kept l) (ho : Owned l.table)
    (hstill : ¬ StillArmed l a) (h : step l a = some l') : l'.fault = some .assertion := by
  obtain ⟨-, ⟨events, rfl, -⟩ | ⟨ok, p, r, rest, rfl, hr, hd⟩ | ⟨op, rfl, -, -⟩⟩ := step_cases h
  · exact absurd trivial hstill
  · cases ok with
    | false => exact absurd trivial hstill
    | true =>
      obtain ⟨fd, hp⟩ := List.mem_iff_getElem?.mp (k.known (p, r) (hr ▸ List.mem_cons_self ..))
      have hview := State.view_of_get hp
      simp only [StillArmed, hr, List.head?_cons, Option.mem_some_iff, forall_eq', not_or,
        not_forall, ← hview] at hstill
      obtain ⟨hne, e, he, hnot⟩ := hstill
      have hfault := owned_assertion ho he (by simpa using hnot)
      have hspec := dispatch_spec k.consistent hp r true
      simp only [hne, or_self, Bool.true_eq_false, if_false, hfault] at hspec
      obtain ⟨m, s, hs, -⟩ | ⟨f, hs, rfl⟩ := hd
      · cases hs.symm.trans hspec
      · cases hs.symm.trans hspec
        rfl
  · exact absurd trivial hstill

/-- **The assertion and stale reports.** In a run in which at most one waiter arms a
direction: if at every dispatch that the kernel accepts the reported directions are all
still armed or none is, the assertion never fails and the counter is the number of armed
directions; and where the callers have schedulers, it never fails only then. -/
theorem stale_report_iff (acts : List (Act σ φ κ)) (l : Idle σ φ κ)
    (hone : Meets step OneWaiter start acts) (h : run step start acts = some l) :
    (Meets step StillArmed start acts →
      l.fault ≠ some .assertion ∧ l.table.pendingEventCount = l.table.armed) ∧
    (Meets step Scheduled start acts → l.fault ≠ some .assertion →
      Meets step StillArmed start acts) := by
  constructor
  · intro hstill
    obtain ⟨hk, hf⟩ := run_invariant (P := fun l => Kept l ∧ l.fault ≠ some .assertion)
      (fun l a l' hl hg hs => ⟨step_kept hl.1 hs, step_safe hl.1 hg.1 hg.2 hs⟩)
      ⟨start_kept, by simp [start]⟩ (meets_and hone hstill) h
    exact ⟨hf, hk.consistent.count⟩
  · intro hsched hf
    refine meets_of_good (P := fun l => Kept l ∧ Owned l.table) (B := fun l => l.fault = some .assertion)
      (fun l a l' hl hg _ hs => ⟨step_kept hl.1 hs, step_owned hl.1 hl.2 hg hs⟩)
      (fun l a l' hl _ hn hs => step_asserts hl.1 hl.2 hn hs) (fun l a l' hl hs => ?_)
      ⟨start_kept, start_sound.owned⟩ hsched h hf
    cases hl.symm.trans (step_cases hs).1

end

/-- The same descriptor, with the timeout after the dispatch. -/
theorem stale_report_iff_sample :
    ∃ acts : List (Act Nat Nat Nat), ∃ l, run step start acts = some l ∧
      (Meets step StillArmed start acts →
        l.fault ≠ some .assertion ∧ l.table.pendingEventCount = l.table.armed) ∧
      (Meets step Scheduled start acts → l.fault ≠ some .assertion →
        Meets step StillArmed start acts) :=
  ⟨[.call (.addEvent 3 .read ⟨some 0, 7⟩ none true), .call (.addEvent 3 .write ⟨some 0, 8⟩ none true),
    .epollWait [(3, { epollin := true })], .dispatch true, .call (.cancelEvent 3 .write true)],
    _, rfl, stale_report_iff _ _ (by decide) rfl⟩

end ShioSylar.IOManager.StaleReport
