import ShioSylar.IOManager.Calls

/-! What becomes of each registration.

The ledger is read off the calls and their answers alone: every successful `addEvent`
is a registration, numbered in order, and a successful call on an armed direction drops
or delivers the registration that is armed there. `Tracks` says that the slots of the
table are those of the armed registrations, and that the queues hold the tasks of the
delivered ones in the order of delivery; each call keeps it. -/
namespace ShioSylar.IOManager
open Scheduler Lib

variable {σ φ κ : Type}

/-- What a successful `addEvent` registered: where, with which scheduler, and the
callback or the running fiber as a task. -/
structure Registration (σ φ κ : Type) where
  fd : Nat
  event : Event
  scheduler : Option σ
  task : FiberAndThread φ κ

def Registration.of (fd : Nat) (e : Event) (who : Caller σ φ) : Option κ → Registration σ φ κ
  | some cb => ⟨fd, e, who.scheduler, { cb := some cb }⟩
  | none => ⟨fd, e, who.scheduler, { fiber := some who.fiber }⟩

structure Ledger (σ φ κ : Type) where
  registrations : List (Registration σ φ κ) := []
  /-- The number of the registration armed in a direction. -/
  armed : Nat → Event → Option Nat := fun _ _ => none
  dropped : List Nat := []
  /-- The numbers delivered, in order. -/
  delivered : List Nat := []

namespace Ledger

def set (l : Ledger σ φ κ) (fd : Nat) (e : Event) (i : Option Nat) : Nat → Event → Option Nat :=
  Function.update l.armed fd (Function.update (l.armed fd) e i)

def register (l : Ledger σ φ κ) (r : Registration σ φ κ) : Ledger σ φ κ :=
  { l with
    registrations := l.registrations ++ [r]
    armed := l.set r.fd r.event (some l.registrations.length) }

def drop (l : Ledger σ φ κ) (fd : Nat) (e : Event) : Ledger σ φ κ :=
  match l.armed fd e with
  | none => l
  | some i => { l with armed := l.set fd e none, dropped := l.dropped ++ [i] }

def deliver (l : Ledger σ φ κ) (fd : Nat) (e : Event) : Ledger σ φ κ :=
  match l.armed fd e with
  | none => l
  | some i => { l with armed := l.set fd e none, delivered := l.delivered ++ [i] }

def deliverMask (l : Ledger σ φ κ) (fd : Nat) (m : Mask) : Ledger σ φ κ :=
  let l := if m.has .read then l.deliver fd .read else l
  if m.has .write then l.deliver fd .write else l

/-- One call and its answer. -/
def record (l : Ledger σ φ κ) : Op σ φ κ × Answer → Ledger σ φ κ
  | (.addEvent fd e who cb _, .returned true) => l.register (.of fd e who cb)
  | (.delEvent fd e _, .returned true) => l.drop fd e
  | (.cancelEvent fd e _, .returned true) => l.deliverMask fd (Mask.only e)
  | (.cancelAll fd _, .returned true) => l.deliverMask fd ⟨true, true⟩
  | (.dispatch fd _ _, .triggered m) => l.deliverMask fd m
  | _ => l

def IsArmed (l : Ledger σ φ κ) (i : Nat) : Prop := ∃ fd e, l.armed fd e = some i

/-- What a delivered registration puts on the queue of a scheduler. -/
def sent [DecidableEq σ] (l : Ledger σ φ κ) (sched : σ) (i : Nat) : Option (FiberAndThread φ κ) :=
  (l.registrations[i]?).bind fun r => if r.scheduler = some sched then some r.task else none

end Ledger

def ledger (log : List (Op σ φ κ × Answer)) : Ledger σ φ κ := log.foldl Ledger.record {}

/-- The slot of a direction holds a registration of that direction. -/
def Holds (l : Ledger σ φ κ) (ctx : FdContext σ φ κ) (fd : Nat) (e : Event) (i : Nat) : Prop :=
  ctx.events.has e = true ∧ ∃ r, l.registrations[i]? = some r ∧ r.fd = fd ∧ r.event = e ∧
    (ctx.getContext e).scheduler = r.scheduler ∧ (ctx.getContext e).task = r.task

/-- Contexts and queues are where the ledger says. -/
structure Tracks [DecidableEq σ] (view : Nat → FdContext σ φ κ) (fibers : σ → List (FiberAndThread φ κ))
    (l : Ledger σ φ κ) : Prop where
  armed : ∀ fd e i, l.armed fd e = some i → Holds l (view fd) fd e i
  unarmed : ∀ fd e, l.armed fd e = none →
    (view fd).events.has e = false ∧ (view fd).getContext e = {}
  queue : ∀ sched, fibers sched = l.delivered.filterMap (l.sent sched)
  /-- The numbers given out are the armed, the dropped and the delivered ones. -/
  known : ∀ i, i < l.registrations.length ↔ l.IsArmed i ∨ i ∈ l.dropped ∨ i ∈ l.delivered
  not_armed : ∀ i, l.IsArmed i → i ∉ l.dropped ∧ i ∉ l.delivered
  once : (l.dropped ++ l.delivered).Nodup

/-! ### One direction -/

theorem slotOf_task (fd : Nat) (e : Event) (who : Caller σ φ) (cb : Option κ) :
    (slotOf who cb).scheduler = (Registration.of fd e who cb).scheduler ∧
      (slotOf who cb).task = (Registration.of fd e who cb).task := by
  cases cb <;> exact ⟨rfl, rfl⟩

theorem Registration.of_place (fd : Nat) (e : Event) (who : Caller σ φ) (cb : Option κ) :
    (Registration.of fd e who cb).fd = fd ∧ (Registration.of fd e who cb).event = e := by
  cases cb <;> exact ⟨rfl, rfl⟩

theorem Ledger.set_iff (l : Ledger σ φ κ) {fd fd' : Nat} {e e' : Event} {i : Option Nat} :
    l.set fd e i fd' e' = if fd' = fd ∧ e' = e then i else l.armed fd' e' := by
  unfold Ledger.set
  by_cases hfd : fd' = fd
  · subst hfd
    by_cases he : e' = e <;> simp [he]
  · simp [hfd]

theorem disarm_unarmed {ctx : FdContext σ φ κ} {e : Event} (he : ctx.events.has e = false)
    (hslot : ctx.getContext e = {}) : ctx.disarm e = ctx := by
  rcases ctx with ⟨r, w, fd, ⟨er, ew⟩⟩
  cases e <;> simp only [Mask.has, FdContext.getContext] at he hslot <;> subst he hslot <;> rfl

section
variable [DecidableEq σ] {view : Nat → FdContext σ φ κ} {fibers : σ → List (FiberAndThread φ κ)}
  {l : Ledger σ φ κ} (k : Tracks view fibers l)
include k

namespace Tracks

theorem armed_iff (fd : Nat) (e : Event) :
    (view fd).events.has e = true ↔ ∃ i, l.armed fd e = some i := by
  cases h : l.armed fd e with
  | none => simp [(k.unarmed fd e h).1]
  | some i => simp [(k.armed fd e i h).1]

/-- A number is armed in one direction only. -/
theorem armed_inj {fd fd' : Nat} {e e' : Event} {i : Nat} (h : l.armed fd e = some i)
    (h' : l.armed fd' e' = some i) : fd' = fd ∧ e' = e := by
  obtain ⟨-, r, hr, rfl, rfl, -⟩ := k.armed fd e i h
  obtain ⟨-, r', hr', hfd, he, -⟩ := k.armed fd' e' i h'
  cases hr.symm.trans hr'
  exact ⟨hfd.symm, he.symm⟩

/-- The contexts after a direction was taken off, for any ledger that has cleared it. -/
theorem disarm_slots {fd : Nat} {e : Event} {l' : Ledger σ φ κ} (harmed : l'.armed = l.set fd e none)
    (hreg : l'.registrations = l.registrations) :
    (∀ fd' e' i, l'.armed fd' e' = some i →
      Holds l' (Function.update view fd ((view fd).disarm e) fd') fd' e' i) ∧
    (∀ fd' e', l'.armed fd' e' = none →
      (Function.update view fd ((view fd).disarm e) fd').events.has e' = false ∧
        (Function.update view fd ((view fd).disarm e) fd').getContext e' = {}) := by
  refine ⟨fun fd' e' i hi => ?_, fun fd' e' hi => ?_⟩
  · rw [harmed, l.set_iff] at hi
    split at hi
    · cases hi
    · rename_i hne
      obtain ⟨hhas, r, hr⟩ := k.armed fd' e' i hi
      rw [Holds, hreg]
      by_cases hfd : fd' = fd
      · subst hfd
        have he : e' ≠ e := fun he => hne ⟨rfl, he⟩
        rw [Function.update_self, events_disarm, Mask.has_remove, (fault_disarm _ he).2]
        exact ⟨by simp [he, hhas], r, hr⟩
      · rw [Function.update_of_ne hfd]
        exact ⟨hhas, r, hr⟩
  · rw [harmed, l.set_iff] at hi
    by_cases hfd : fd' = fd
    · subst hfd
      rw [Function.update_self, events_disarm, Mask.has_remove]
      by_cases he : e' = e
      · subst he
        simp [FdContext.disarm]
      · rw [if_neg (by simp [he])] at hi
        rw [(fault_disarm _ he).2]
        obtain ⟨hhas, hslot⟩ := k.unarmed fd' e' hi
        simp [hhas, hslot]
    · rw [if_neg (by simp [hfd])] at hi
      rw [Function.update_of_ne hfd]
      exact k.unarmed fd' e' hi

theorem isArmed_clear {fd : Nat} {e : Event} {i : Nat} (hi : l.armed fd e = some i) {l' : Ledger σ φ κ}
    (harmed : l'.armed = l.set fd e none) (j : Nat) : l'.IsArmed j ↔ l.IsArmed j ∧ j ≠ i := by
  unfold Ledger.IsArmed
  simp only [harmed, l.set_iff]
  constructor
  · intro hj
    obtain ⟨fd', e', hj⟩ := hj
    split at hj
    · cases hj
    · rename_i hne
      refine ⟨⟨fd', e', hj⟩, ?_⟩
      intro heq
      subst heq
      exact hne (k.armed_inj hi hj)
  · intro hj
    obtain ⟨⟨fd', e', hj⟩, hne⟩ := hj
    refine ⟨fd', e', ?_⟩
    rw [if_neg ?_]
    · exact hj
    · intro hplace
      obtain ⟨rfl, rfl⟩ := hplace
      exact hne (Option.some.inj (hj.symm.trans hi))

theorem drop {fd : Nat} {e : Event} (he : (view fd).events.has e = true) :
    Tracks (Function.update view fd ((view fd).disarm e)) fibers (l.drop fd e) := by
  obtain ⟨i, hi⟩ := (k.armed_iff fd e).mp he
  have hdrop : l.drop fd e = { l with armed := l.set fd e none, dropped := l.dropped ++ [i] } := by
    simp only [Ledger.drop, hi]
  have harmed : (l.drop fd e).armed = l.set fd e none := by rw [hdrop]
  have hslots := k.disarm_slots harmed (by rw [hdrop])
  have hclear := k.isArmed_clear hi harmed
  have hfresh := k.not_armed i ⟨fd, e, hi⟩
  refine ⟨hslots.1, hslots.2, ?_, fun j => ?_, fun j hj => ?_, ?_⟩
  · rw [hdrop]
    exact k.queue
  · rw [hclear j, hdrop]
    have := k.known j
    have : j = i → l.IsArmed j := fun h => h ▸ ⟨fd, e, hi⟩
    simp only [List.mem_append, List.mem_singleton]
    tauto
  · obtain ⟨harmed, hne⟩ := (hclear j).mp hj
    have := k.not_armed j harmed
    rw [hdrop]
    simpa [hne] using this
  · rw [hdrop]
    show ((l.dropped ++ [i]) ++ l.delivered).Nodup
    rw [List.append_assoc, List.singleton_append, List.perm_middle.nodup_iff]
    exact List.nodup_cons.mpr ⟨by simpa using hfresh, k.once⟩

theorem deliver (fd : Nat) (e : Event) :
    Tracks (Function.update view fd ((view fd).disarm e)) (pushSlot fibers ((view fd).getContext e))
      (l.deliver fd e) := by
  cases hi : l.armed fd e with
  | none =>
    obtain ⟨hhas, hslot⟩ := k.unarmed fd e hi
    rw [disarm_unarmed hhas hslot, hslot, Function.update_eq_self]
    simp only [Ledger.deliver, hi]
    exact k
  | some i =>
    have hdel : l.deliver fd e =
        { l with armed := l.set fd e none, delivered := l.delivered ++ [i] } := by
      simp only [Ledger.deliver, hi]
    have harmed : (l.deliver fd e).armed = l.set fd e none := by rw [hdel]
    have hslots := k.disarm_slots harmed (by rw [hdel])
    have hclear := k.isArmed_clear hi harmed
    have hfresh := k.not_armed i ⟨fd, e, hi⟩
    refine ⟨hslots.1, hslots.2, fun sched => ?_, fun j => ?_, fun j hj => ?_, ?_⟩
    · obtain ⟨-, r, hr, -, -, hsched, htask⟩ := k.armed fd e i hi
      have hq := k.queue sched
      rw [hdel]
      show _ = (l.delivered ++ [i]).filterMap (l.sent sched)
      rw [List.filterMap_append, ← hq, pushSlot, hsched, htask]
      cases hrs : r.scheduler with
      | none => simp [Ledger.sent, hr, hrs]
      | some sched' =>
        by_cases hs : sched = sched'
        · simp [Ledger.sent, hr, hrs, hs]
        · have hs' : ¬ sched' = sched := fun h => hs h.symm
          simp [Ledger.sent, hr, hrs, hs, hs']
    · rw [hclear j, hdel]
      have := k.known j
      have : j = i → l.IsArmed j := fun h => h ▸ ⟨fd, e, hi⟩
      simp only [List.mem_append, List.mem_singleton]
      tauto
    · obtain ⟨harmed, hne⟩ := (hclear j).mp hj
      have := k.not_armed j harmed
      rw [hdel]
      simpa [hne] using this
    · rw [hdel]
      show (l.dropped ++ (l.delivered ++ [i])).Nodup
      rw [← List.append_assoc, List.perm_append_comm.nodup_iff, List.singleton_append]
      exact List.nodup_cons.mpr ⟨by simpa using hfresh, k.once⟩

theorem register {fd : Nat} {e : Event} (he : (view fd).events.has e = false) (who : Caller σ φ)
    (cb : Option κ) :
    Tracks (Function.update view fd ((view fd).arm e (slotOf who cb))) fibers
      (l.register (.of fd e who cb)) := by
  obtain ⟨hrfd, hre⟩ := Registration.of_place (σ := σ) fd e who cb
  obtain ⟨hsched, htask⟩ := slotOf_task fd e who cb
  generalize Registration.of fd e who cb = r at *
  have hset : ∀ fd' e', (l.register r).armed fd' e' =
      if fd' = fd ∧ e' = e then some l.registrations.length else l.armed fd' e' := fun fd' e' => by
    simp only [Ledger.register, hrfd, hre, l.set_iff]
  have hget : ∀ i, i < l.registrations.length →
      (l.register r).registrations[i]? = l.registrations[i]? := fun i hi =>
    List.getElem?_append_left hi
  have hold : ∀ i r', l.registrations[i]? = some r' → (l.register r).registrations[i]? = some r' :=
    fun i r' hr' => (hget i (List.getElem?_eq_some_iff.mp hr').1).trans hr'
  have hnone : l.armed fd e = none := by
    cases hi : l.armed fd e with
    | none => rfl
    | some i => exact absurd ((k.armed_iff fd e).mpr ⟨i, hi⟩) (by simp [he])
  have hnew : ∀ i, (l.register r).IsArmed i ↔ l.IsArmed i ∨ i = l.registrations.length := by
    intro i
    unfold Ledger.IsArmed
    simp only [hset]
    constructor
    · intro hi
      obtain ⟨fd', e', hi⟩ := hi
      split at hi
      · exact .inr (Option.some.inj hi).symm
      · exact .inl ⟨fd', e', hi⟩
    · rintro (⟨fd', e', hi⟩ | rfl)
      · refine ⟨fd', e', ?_⟩
        rw [if_neg, hi]
        intro hplace
        obtain ⟨rfl, rfl⟩ := hplace
        cases hnone.symm.trans hi
      · exact ⟨fd, e, by simp⟩
  refine ⟨fun fd' e' i hi => ?_, fun fd' e' hi => ?_, fun sched => ?_, fun i => ?_, fun i hi => ?_, k.once⟩
  · rw [hset] at hi
    by_cases hd : fd' = fd ∧ e' = e
    · obtain ⟨rfl, rfl⟩ := hd
      cases (Option.some.inj ((if_pos ⟨rfl, rfl⟩).symm.trans hi))
      rw [Function.update_self]
      refine ⟨by simp [events_arm], r, by simp [Ledger.register], hrfd, hre, ?_, ?_⟩ <;>
        simp [FdContext.arm, ← hsched, htask]
    · rw [if_neg hd] at hi
      obtain ⟨hhas, r', hr', hr⟩ := k.armed fd' e' i hi
      by_cases hfd : fd' = fd
      · subst hfd
        have hne : e' ≠ e := fun h => hd ⟨rfl, h⟩
        rw [Function.update_self]
        refine ⟨by simp [events_arm, hhas], r', hold i r' hr', ?_⟩
        simpa [FdContext.arm, hne] using hr
      · rw [Function.update_of_ne hfd]
        exact ⟨hhas, r', hold i r' hr', hr⟩
  · rw [hset] at hi
    split at hi
    · cases hi
    · rename_i hd
      obtain ⟨hhas, hslot⟩ := k.unarmed fd' e' hi
      by_cases hfd : fd' = fd
      · subst hfd
        have hne : e' ≠ e := fun h => hd ⟨rfl, h⟩
        rw [Function.update_self]
        simp [FdContext.arm, hne, hhas, hslot]
      · rw [Function.update_of_ne hfd]
        exact ⟨hhas, hslot⟩
  · rw [k.queue sched]
    refine List.filterMap_congr fun i hi => ?_
    unfold Ledger.sent
    rw [hget i ((k.known i).mpr (.inr (.inr hi)))]
  · have hknown := k.known i
    rw [hnew i]
    show i < (l.registrations ++ [r]).length ↔ _
    rw [List.length_append, List.length_singleton, Nat.lt_succ_iff_lt_or_eq, hknown]
    show _ ↔ _ ∨ i ∈ l.dropped ∨ i ∈ l.delivered
    tauto
  · rcases (hnew i).mp hi with hi | rfl
    · exact k.not_armed i hi
    · exact ⟨fun h => Nat.lt_irrefl _ ((k.known _).mpr (.inr (.inl h))),
        fun h => Nat.lt_irrefl _ ((k.known _).mpr (.inr (.inr h)))⟩

/-! ### One call -/

theorem deliverMask (fd : Nat) (m : Mask) :
    Tracks (Function.update view fd ((view fd).disarmMask m)) (pushMask fibers (view fd) m)
      (l.deliverMask fd m) := by
  have hread : Tracks
      (Function.update view fd (if m.has .read then (view fd).disarm .read else view fd))
      (if m.has .read then pushSlot fibers ((view fd).getContext .read) else fibers)
      (if m.has .read then l.deliver fd .read else l) := by
    split
    · exact k.deliver fd .read
    · rw [Function.update_eq_self]
      exact k
  unfold FdContext.disarmMask pushMask Ledger.deliverMask
  cases m.has .write with
  | false => exact hread
  | true =>
    have hwrite := hread.deliver fd .write
    have hother : (if m.has .read then (view fd).disarm .read else view fd).getContext .write =
        (view fd).getContext .write := by
      split
      · exact (fault_disarm _ (by simp)).2
      · rfl
    rw [Function.update_self, Function.update_idem, hother] at hwrite
    exact hwrite

/-- `cancelAll` triggers what is armed: to ask for both directions comes to the same. -/
theorem events_all (fd : Nat) :
    (view fd).disarmMask (view fd).events = (view fd).disarmMask ⟨true, true⟩ ∧
      pushMask fibers (view fd) (view fd).events = pushMask fibers (view fd) ⟨true, true⟩ := by
  have hslot : ∀ e, (view fd).events.has e = false → (view fd).getContext e = {} := by
    intro e he
    cases hi : l.armed fd e with
    | none => exact (k.unarmed fd e hi).2
    | some i => exact absurd ((k.armed_iff fd e).mpr ⟨i, hi⟩) (by simp [he])
  generalize view fd = ctx at hslot
  have hread : (if ctx.events.has .read then ctx.disarm .read else ctx) = ctx.disarm .read := by
    cases hr : ctx.events.has .read with
    | true => rfl
    | false => exact (disarm_unarmed hr (hslot .read hr)).symm
  have hwrite : (if ctx.events.has .write then (ctx.disarm .read).disarm .write else ctx.disarm .read) =
      (ctx.disarm .read).disarm .write := by
    cases hw : ctx.events.has .write with
    | true => rfl
    | false =>
      refine (@disarm_unarmed _ _ _ (ctx.disarm .read) .write ?_ ?_).symm
      · rw [events_disarm, Mask.has_remove, hw, Bool.and_false]
      · rw [(fault_disarm ctx (by simp)).2, hslot .write hw]
  have hpush : ∀ (q : σ → List (FiberAndThread φ κ)) e,
      (if ctx.events.has e then pushSlot q (ctx.getContext e) else q) = pushSlot q (ctx.getContext e) := by
    intro q e
    cases he : ctx.events.has e with
    | true => rfl
    | false =>
      rw [hslot e he]
      rfl
  constructor
  · unfold FdContext.disarmMask
    rw [hread, hwrite]
    rfl
  · unfold pushMask
    rw [hpush, hpush]
    rfl

end Tracks

end

/-- A call that fails is no entry of the ledger. -/
theorem record_failed (l : Ledger σ φ κ) (op : Op σ φ κ) {a : Answer} (ha : a.failed) :
    l.record (op, a) = l := by
  cases a with
  | returned b =>
    cases (ha : b = false)
    cases op <;> rfl
  | triggered m =>
    cases (ha : m = Mask.none)
    cases op <;> rfl

section
variable [DecidableEq σ]

/-- Every call and its answer keep the ledger true. -/
theorem Outcome.tracks {s : State σ φ κ} (h : Consistent s) {l : Ledger σ φ κ}
    (k : Tracks s.view s.fibers l) {op : Op σ φ κ} {a : Answer} {u : State σ φ κ}
    (hout : Outcome s op (.ok (a, u))) : Tracks u.view u.fibers (l.record (op, a)) := by
  cases hout with
  | skipped ha hu hs =>
    rw [record_failed l op ha, hs.view, hs.fibers]
    exact k
  | @armed fd e who cb u he hu hs hfd =>
    rw [put_view hu hfd, hs.view]
    exact k.register he who cb
  | @dropped fd e he =>
    rw [put_view h (lt_of_armed he)]
    exact k.drop he
  | @took op fd m a hop hm =>
    rw [take_view h (Op.takes_lt hop).1]
    cases op with
    | addEvent fd' e who cb ok => cases hop
    | delEvent fd' e ok => cases hop
    | cancelEvent fd' e ok =>
      obtain ⟨-, heq⟩ := Option.ite_none_right_eq_some.mp hop
      cases heq
      exact k.deliverMask fd (Mask.only e)
    | cancelAll fd' ok =>
      obtain ⟨-, heq⟩ := Option.ite_none_right_eq_some.mp hop
      cases heq
      obtain ⟨hctx, hpush⟩ := k.events_all fd
      show Tracks _ (pushMask s.fibers (s.view fd) (s.view fd).events) _
      rw [hctx, hpush]
      exact k.deliverMask fd ⟨true, true⟩
    | dispatch fd' r ok =>
      obtain ⟨-, heq⟩ := Option.ite_none_right_eq_some.mp hop
      cases heq
      exact k.deliverMask fd _

/-! ### Every registration of a run -/

/-- The table of a process and its ledger. -/
structure Accounted (p : Process σ φ κ) : Prop where
  /-- Each registration is armed, dropped or delivered, and only one of these. -/
  fate : ∀ i < (ledger p.log).registrations.length,
    ((ledger p.log).IsArmed i ∧ i ∉ (ledger p.log).dropped ∧ i ∉ (ledger p.log).delivered) ∨
    (¬ (ledger p.log).IsArmed i ∧ i ∈ (ledger p.log).dropped ∧ i ∉ (ledger p.log).delivered) ∨
    (¬ (ledger p.log).IsArmed i ∧ i ∉ (ledger p.log).dropped ∧ i ∈ (ledger p.log).delivered)
  /-- No registration is dropped twice or delivered twice. -/
  dropped_once : (ledger p.log).dropped.Nodup
  delivered_once : (ledger p.log).delivered.Nodup
  /-- The slot of a direction is in use by the registration armed there, or empty. -/
  armed : ∀ fd e i, (ledger p.log).armed fd e = some i →
    Holds (ledger p.log) (p.table.view fd) fd e i
  unarmed : ∀ fd e, (ledger p.log).armed fd e = none →
    (p.table.view fd).events.has e = false ∧ (p.table.view fd).getContext e = {}
  /-- Each queue is the tasks of the registrations delivered with its scheduler. -/
  queue : ∀ sched, p.table.fibers sched =
    (ledger p.log).delivered.filterMap ((ledger p.log).sent sched)

theorem start_tracks : Tracks (Process.start : Process σ φ κ).table.view Process.start.table.fibers
    (ledger (Process.start : Process σ φ κ).log) := by
  refine ⟨fun fd e i hi => (by cases hi), fun fd e _ => ?_, fun sched => rfl, fun i => ?_,
    fun i hi => ?_, List.nodup_nil⟩
  · show ((State.init : State σ φ κ).view fd).events.has e = false ∧
      ((State.init : State σ φ κ).view fd).getContext e = {}
    rw [init_view]
    cases e <;> exact ⟨rfl, rfl⟩
  · simp [Process.start, ledger, Ledger.IsArmed]
  · obtain ⟨fd, e, hi⟩ := hi
    cases hi

theorem step_tracks {p q : Process σ φ κ} {op : Op σ φ κ} (hp : Consistent p.table)
    (k : Tracks p.table.view p.table.fibers (ledger p.log)) (h : step p op = some q) :
    Consistent q.table ∧ Tracks q.table.view q.table.fibers (ledger q.log) := by
  obtain ⟨-, ⟨a, u, he, rfl⟩ | ⟨f, -, rfl⟩⟩ := step_cases h
  · have hout := he ▸ exec_outcome hp op
    refine ⟨(hout.consistent hp).1, ?_⟩
    show Tracks u.view u.fibers (ledger (p.log ++ [(op, a)]))
    rw [ledger, List.foldl_concat]
    exact hout.tracks hp k
  · exact ⟨hp, k⟩

/-- **Delivery exactly once.** After any run, each `epoll_ctl` free to fail, every
registration is armed in its slot, was dropped by one `delEvent`, or was delivered once to
the scheduler of its registration; the queues hold nothing else. -/
theorem delivery_reachable (ops : List (Op σ φ κ)) (p : Process σ φ κ)
    (h : run step Process.start ops = some p) : Accounted p := by
  obtain ⟨-, k⟩ := run_preserves
    (P := fun p => Consistent p.table ∧ Tracks p.table.view p.table.fibers (ledger p.log))
    (fun p op q hp hs => step_tracks hp.1 hp.2 hs) ⟨start_sound.consistent, start_tracks⟩ h
  have honce := List.nodup_append.mp k.once
  refine ⟨fun i hi => ?_, honce.1, honce.2.1, k.armed, k.unarmed, k.queue⟩
  rcases (k.known i).mp hi with ha | hd | hd
  · exact .inl ⟨ha, k.not_armed i ha⟩
  · exact .inr (.inl ⟨fun ha => (k.not_armed i ha).1 hd, hd, fun hq => honce.2.2 i hd i hq rfl⟩)
  · exact .inr (.inr ⟨fun ha => (k.not_armed i ha).2 hd, fun hq => honce.2.2 i hq i hd rfl, hd⟩)

end

theorem delivery_reachable_sample :
    ∃ p, run step Process.start sampleCalls = some p ∧ Accounted p :=
  ⟨_, rfl, delivery_reachable sampleCalls _ rfl⟩

end ShioSylar.IOManager
