import ShioSylar.Timer.Manager

/-! The timer container.

The key of the set is a field of its elements, so the set stays a set only because
every operation takes a timer out before it writes the timer's deadline. `Container`
is that law: sorted under the comparison as it evaluates now, and holding exactly the
timers whose callback is not null. Each operation is one of three moves — write a
timer that is outside, take one out, put one in — and `Emitting` is the law in the
middle of `listExpiredCb`, when the expired timers are outside and not yet done. -/
namespace ShioSylar.TimerManager
open Lib OrderedSet

variable {ι κ : Type} [LinearOrder ι]

/-! ### The comparison is a strict total order -/

theorem comparator_some (a b : Ref ι) : comparator (some a) (some b) = true ↔
    a.next < b.next ∨ (a.next = b.next ∧ a.addr < b.addr) := by
  simp only [comparator]
  by_cases hab : a.next < b.next
  · simp [hab]
  · by_cases hba : b.next < a.next
    · have hne : a.next ≠ b.next := fun h => BitVec.lt_irrefl _ (h ▸ hba)
      simp [hab, hba, hne]
    · have heq : a.next = b.next :=
        (BitVec.lt_trichotomy a.next b.next).elim (absurd · hab) (·.elim id (absurd · hba))
      simp [heq]

namespace State

theorem less_iff (s : State ι κ) (a b : ι) : s.less a b = true ↔
    (s.timer a).next < (s.timer b).next ∨ ((s.timer a).next = (s.timer b).next ∧ a < b) :=
  comparator_some _ _

theorem less_order (s : State ι κ) : StrictOrder s.less where
  irrefl := fun a => by
    rw [← Bool.not_eq_true, less_iff]
    simp
  trans := fun a b c hab hbc => by
    rw [less_iff] at *
    rcases hab with hab | ⟨hab, hab'⟩ <;> rcases hbc with hbc | ⟨hbc, hbc'⟩
    · exact .inl (BitVec.lt_trans hab hbc)
    · exact .inl (hbc ▸ hab)
    · exact .inl (hab ▸ hbc)
    · exact .inr ⟨hab.trans hbc, lt_trans hab' hbc'⟩
  total := fun a b hab hba => by
    rw [← Bool.not_eq_true, less_iff] at hab hba
    rcases BitVec.lt_trichotomy (s.timer a).next (s.timer b).next with h | h | h
    · exact absurd (.inl h) hab
    · rcases lt_trichotomy a b with h' | h' | h'
      · exact absurd (.inr ⟨h, h'⟩) hab
      · exact h'
      · exact absurd (.inr ⟨h.symm, h'⟩) hba
    · exact absurd (.inl h) hba

/-! ### Writing a timer -/

@[simp] theorem timer_set (s : State ι κ) (t u : ι) (x : Timer κ) :
    (s.set t x).timer u = if u = t then x else s.timer u := by
  by_cases h : u = t
  · subst h
    simp [timer, set]
  · simp [timer, set, h]

@[simp] theorem timers_set (s : State ι κ) (t : ι) (x : Timer κ) :
    (s.set t x).timers = s.timers := rfl

theorem less_set_of_ne (s : State ι κ) {t a b : ι} (x : Timer κ) (ha : a ≠ t) (hb : b ≠ t) :
    (s.set t x).less a b = s.less a b := by
  simp [less, ref, ha, hb]

/-- A write that keeps the deadline keeps the comparison. -/
theorem less_set_next (s : State ι κ) (t : ι) (x : Timer κ) (hx : x.next = (s.timer t).next) :
    (s.set t x).less = s.less := by
  have hnext : ∀ u, ((s.set t x).timer u).next = (s.timer u).next := by
    intro u
    by_cases hu : u = t
    · subst hu
      simp [hx]
    · simp [hu]
  funext a b
  simp only [less, ref, hnext]

/-- A timer that is outside can be written. -/
theorem sorted_set (s : State ι κ) {t : ι} (x : Timer κ) (ht : t ∉ s.timers)
    (hs : Sorted s.less s.timers) : Sorted (s.set t x).less (s.set t x).timers :=
  hs.congr fun _ ha _ hb =>
    (less_set_of_ne s x (ne_of_mem_of_not_mem ha ht) (ne_of_mem_of_not_mem hb ht)).symm

omit [LinearOrder ι] in
@[simp] theorem timer_timers (s : State ι κ) (l : List ι) (u : ι) :
    ({ s with timers := l } : State ι κ).timer u = s.timer u := rfl

@[simp] theorem timer_insert (s : State ι κ) (t u : ι) : (s.insert t).2.timer u = s.timer u := rfl

theorem timers_insert (s : State ι κ) {t : ι} (ht : t ∉ s.timers) (hs : Sorted s.less s.timers)
    (u : ι) : u ∈ (s.insert t).2.timers ↔ u = t ∨ u ∈ s.timers :=
  mem_insert s.less_order hs ht u

theorem sorted_insert (s : State ι κ) {t : ι} (ht : t ∉ s.timers) (hs : Sorted s.less s.timers) :
    Sorted (s.insert t).2.less (s.insert t).2.timers :=
  insert_sorted s.less_order hs ht

/-- Taking out what was found: the rest is sorted and is everything else. -/
theorem sorted_erase (s : State ι κ) {t : ι} (ht : t ∈ s.timers) (hs : Sorted s.less s.timers) :
    Sorted s.less (s.timers.eraseIdx (s.find t)) ∧
      ∀ u, u ∈ s.timers.eraseIdx (s.find t) ↔ u ∈ s.timers ∧ u ≠ t := by
  obtain ⟨p, q, hl, he⟩ := eraseIdx_find s.less_order hs ht
  refine ⟨List.Pairwise.sublist (List.eraseIdx_sublist _ _) hs, fun u => ?_⟩
  have hnd := hs.nodup s.less_order
  rw [hl, List.nodup_middle, List.nodup_cons] at hnd
  show u ∈ s.timers.eraseIdx (OrderedSet.find s.less t s.timers) ↔ _
  rw [he, hl]
  constructor
  · intro hu
    refine ⟨?_, fun h => hnd.1 (h ▸ hu)⟩
    rw [List.mem_append, List.mem_cons]
    exact (List.mem_append.mp hu).imp id .inr
  · intro hmem
    obtain ⟨hu, hne⟩ := hmem
    rw [List.mem_append, List.mem_cons] at hu
    rw [List.mem_append]
    exact hu.imp id (·.resolve_left hne)

theorem find_lt (s : State ι κ) {t : ι} (ht : t ∈ s.timers) (hs : Sorted s.less s.timers) :
    s.find t < s.timers.length := by
  have hget := find_mem s.less_order hs ht
  exact (List.getElem?_eq_some_iff.mp hget).1

end State

/-! ### The law -/

/-- The container is a set under the comparison, and holds exactly the timers with a
callback. -/
structure Container (s : State ι κ) : Prop where
  sorted : Sorted s.less s.timers
  mem_iff : ∀ t, t ∈ s.timers ↔ (s.timer t).cb.isSome = true

/-- The same with the timers `es` taken out and not yet dealt with. -/
structure Emitting (es : List ι) (s : State ι κ) : Prop where
  sorted : Sorted s.less s.timers
  nodup : es.Nodup
  outside : ∀ t ∈ es, t ∉ s.timers
  mem_iff : ∀ t, (t ∈ s.timers ∨ t ∈ es) ↔ (s.timer t).cb.isSome = true

theorem emitting_nil {s : State ι κ} : Emitting [] s ↔ Container s := by
  constructor
  · intro h
    exact ⟨h.sorted, fun t => by rw [← h.mem_iff t]; simp⟩
  · intro h
    exact ⟨h.sorted, List.nodup_nil, by simp, fun t => by rw [← h.mem_iff t]; simp⟩

namespace Container
variable {s : State ι κ} (h : Container s)
include h

/-- `find` reaches every timer with a callback. -/
theorem find_get {t : ι} (ht : (s.timer t).cb.isSome = true) : s.timers[s.find t]? = some t :=
  find_mem s.less_order h.sorted ((h.mem_iff t).mpr ht)

theorem find_ne_length {t : ι} (ht : (s.timer t).cb.isSome = true) :
    s.find t ≠ s.timers.length :=
  Nat.ne_of_lt (s.find_lt ((h.mem_iff t).mpr ht) h.sorted)

/-- Taking one timer out. -/
theorem takeOut {t : ι} (ht : (s.timer t).cb.isSome = true) :
    Emitting [t] { s with timers := s.timers.eraseIdx (s.find t) } := by
  have hmem := (h.mem_iff t).mpr ht
  obtain ⟨hsorted, herase⟩ := s.sorted_erase hmem h.sorted
  refine ⟨hsorted, List.nodup_singleton t, ?_, ?_⟩
  · intro u hu
    rw [List.mem_singleton.mp hu]
    exact fun hin => ((herase t).mp hin).2 rfl
  · intro u
    show u ∈ s.timers.eraseIdx (s.find t) ∨ u ∈ [t] ↔ _
    rw [herase u, List.mem_singleton, State.timer_timers, ← h.mem_iff u]
    by_cases hu : u = t
    · subst hu
      simp [hmem]
    · simp [hu]

end Container

namespace Emitting
variable {s : State ι κ} {t : ι} {es : List ι} (h : Emitting (t :: es) s)
include h

theorem not_mem : t ∉ s.timers := h.outside t (List.mem_cons_self ..)

/-- A timer that is outside gets new times and goes back in. -/
theorem putBack (x : Timer κ) (hx : x.cb.isSome = true) : Emitting es ((s.set t x).insert t).2 := by
  have ht := h.not_mem
  have hsorted := s.sorted_set x ht h.sorted
  have hmem := fun u => (s.set t x).timers_insert (t := t) ht hsorted u
  have hnd := List.nodup_cons.mp h.nodup
  refine ⟨(s.set t x).sorted_insert ht hsorted, hnd.2, fun u hu hin => ?_, fun u => ?_⟩
  · rcases (hmem u).mp hin with rfl | hin
    · exact hnd.1 hu
    · exact h.outside u (List.mem_cons_of_mem t hu) hin
  · rw [hmem u, State.timer_insert, State.timer_set]
    by_cases hu : u = t
    · subst hu
      simp [hx]
    · rw [if_neg hu, ← h.mem_iff u, State.timers_set, List.mem_cons]
      simp [hu]

/-- A timer that is outside loses its callback and stays there. -/
theorem drop (x : Timer κ) (hx : x.cb = none) : Emitting es (s.set t x) := by
  have hnd := List.nodup_cons.mp h.nodup
  refine ⟨s.sorted_set x h.not_mem h.sorted, hnd.2,
    fun u hu => h.outside u (List.mem_cons_of_mem t hu), fun u => ?_⟩
  rw [State.timer_set]
  by_cases hu : u = t
  · subst hu
    simp [hx, h.not_mem, hnd.1]
  · rw [if_neg hu, ← h.mem_iff u, State.timers_set, List.mem_cons]
    simp [hu]

end Emitting

/-- Out of the container, written, and in again. -/
def State.rearm (s : State ι κ) (t : ι) (x : Timer κ) : State ι κ :=
  ((({ s with timers := s.timers.eraseIdx (s.find t) } : State ι κ).set t x).insert t).2

theorem rearm_container {s : State ι κ} (h : Container s) {t : ι}
    (ht : (s.timer t).cb.isSome = true) (x : Timer κ) (hx : x.cb.isSome = true) :
    Container (s.rearm t x) :=
  emitting_nil.mp ((h.takeOut ht).putBack x hx)

@[simp] theorem rearm_objects (s : State ι κ) (t : ι) (x : Timer κ) :
    (s.rearm t x).objects = Function.update s.objects t (some x) := rfl

/-! ### The operations keep it -/

theorem init_container (now : U64) : Container (State.init now : State ι κ) :=
  ⟨List.Pairwise.nil, fun t => by simp [State.init, State.timer]⟩

section
variable {s : State ι κ} (h : Container s)
include h

/-- What `cancel` does: it never erases the end, and either takes the timer out or
finds it without a callback. -/
theorem cancel_spec (t : ι) :
    (∃ s', s.cancel t = some (true, s') ∧ (s.timer t).cb.isSome = true ∧ Container s' ∧
      s'.objects = Function.update s.objects t (some { s.timer t with cb := none })) ∨
    (s.cancel t = some (false, s) ∧ (s.timer t).cb = none) := by
  cases hcb : (s.timer t).cb with
  | none => exact .inr ⟨by simp [State.cancel, hcb], rfl⟩
  | some c =>
    have ht : (s.timer t).cb.isSome = true := by simp [hcb]
    have hless := s.less_set_next t { s.timer t with cb := none } rfl
    have hfind : (s.set t { s.timer t with cb := none }).find t = s.find t := by
      simp only [State.find, hless, State.timers_set]
    have hlt := s.find_lt ((h.mem_iff t).mpr ht) h.sorted
    refine .inl ⟨_, by simp [State.cancel, ht, hfind, State.erase, hlt]; rfl, rfl, ?_, rfl⟩
    exact emitting_nil.mp ((h.takeOut ht).drop { s.timer t with cb := none } rfl)

/-- What `refresh` does. -/
theorem refresh_spec (t : ι) (now : U64) :
    ((s.timer t).cb.isSome = true ∧ s.refresh t now =
      (true, s.rearm t { s.timer t with next := now + (s.timer t).ms })) ∨
    (s.refresh t now = (false, s) ∧ (s.timer t).cb = none) := by
  cases hcb : (s.timer t).cb with
  | none => exact .inr ⟨by simp [State.refresh, hcb], rfl⟩
  | some c =>
    have ht : (s.timer t).cb.isSome = true := by simp [hcb]
    have hnone : ¬(s.timer t).cb.isNone = true := by simp [hcb]
    refine .inl ⟨rfl, ?_⟩
    rw [State.refresh, if_neg hnone, if_neg (h.find_ne_length ht)]
    rfl

omit h in
theorem addTimerLocked_objects (s : State ι κ) (t : ι) :
    (s.addTimerLocked t).2.objects = s.objects := by
  simp only [State.addTimerLocked, apply_ite State.objects]
  exact ite_self _

omit h in
/-- The flag `m_tickled` is no part of the law. -/
theorem addTimerLocked_container {t : ι} (h : Container (s.insert t).2) :
    Container (s.addTimerLocked t).2 := by
  simp only [State.addTimerLocked]
  split
  · exact ⟨h.sorted, h.mem_iff⟩
  · exact h

/-- What `reset` does: nothing, or a new period and deadline for a pending timer. -/
theorem reset_spec (t : ι) (ms : U64) (fromNow : Bool) (now : U64) :
    ((s.timer t).cb.isSome = true ∧ Container (s.reset t ms fromNow now).2 ∧
      (s.reset t ms fromNow now).2.objects = Function.update s.objects t (some { s.timer t with
        ms := ms
        next := (if fromNow then now else (s.timer t).next - (s.timer t).ms) + ms })) ∨
    (s.reset t ms fromNow now).2 = s := by
  by_cases hsame : ms = (s.timer t).ms ∧ fromNow = false
  · exact .inr (by rw [State.reset, if_pos hsame])
  · by_cases hnone : (s.timer t).cb.isNone = true
    · exact .inr (by rw [State.reset, if_neg hsame, if_pos hnone])
    · have ht : (s.timer t).cb.isSome = true := by
        simpa [Option.isSome_iff_ne_none, Option.isNone_iff_eq_none] using hnone
      rw [State.reset, if_neg hsame, if_neg hnone, if_neg (h.find_ne_length ht)]
      refine .inl ⟨ht, ?_, addTimerLocked_objects _ _⟩
      exact addTimerLocked_container (rearm_container h ht { s.timer t with
        ms := ms
        next := (if fromNow then now else (s.timer t).next - (s.timer t).ms) + ms } ht)

/-- A new timer at an address where nothing is. -/
theorem addTimer_spec (t : ι) (ms : U64) (cb : κ) (recurring : Bool) (now : U64)
    (ht : s.objects t = none) :
    Container (s.addTimer t ms (some cb) recurring now).2 ∧
      (s.addTimer t ms (some cb) recurring now).2.objects =
        Function.update s.objects t (some (Timer.create ms (some cb) recurring now)) := by
  have hcb : (s.timer t).cb.isSome = false := by simp [State.timer, ht]
  have hout : t ∉ s.timers := by
    rw [h.mem_iff t, hcb]
    exact Bool.false_ne_true
  have hadd : Emitting [] ((s.set t (Timer.create ms (some cb) recurring now)).insert t).2 := by
    have hsorted := s.sorted_set (Timer.create ms (some cb) recurring now) hout h.sorted
    refine ⟨State.sorted_insert _ hout hsorted, List.nodup_nil, by simp, fun u => ?_⟩
    rw [State.timers_insert (s.set t _) hout hsorted u, State.timer_insert, State.timer_set]
    by_cases hu : u = t
    · simp [hu, Timer.create]
    · simp [hu, h.mem_iff u]
  exact ⟨addTimerLocked_container (emitting_nil.mp hadd), addTimerLocked_objects _ _⟩

theorem getNextTimer_spec (now : U64) :
    Container (s.getNextTimer now).2 ∧ (s.getNextTimer now).2.objects = s.objects := by
  have hs : (s.getNextTimer now).2 = { s with tickled := false } := by
    unfold State.getNextTimer
    dsimp only
    split
    · rfl
    · split <;> rfl
  rw [hs]
  exact ⟨⟨h.sorted, h.mem_iff⟩, rfl⟩

/-! ### Emission -/

omit h in
/-- The first half of `listExpiredCb` cuts the container in two and writes no timer. -/
theorem takeExpired_cut (s : State ι κ) (now : U64) (tmp : ι) :
    ∃ p n, s.takeExpired now tmp =
      (s.timers.take n, { s with previouseTime := p, timers := s.timers.drop n }) := by
  cases hl : s.timers with
  | nil => exact ⟨s.previouseTime, 0, by rw [State.takeExpired, hl]; simp [← hl]⟩
  | cons first rest =>
    simp only [State.takeExpired, hl]
    split
    · exact ⟨now, 0, by simp [State.detectClockRollover, ← hl]⟩
    · refine ⟨now, (s.detectClockRollover now).2.expiredEnd (s.detectClockRollover now).1 now tmp, ?_⟩
      rw [← hl]
      rfl

theorem takeExpired_spec (now : U64) (tmp : ι) :
    Emitting (s.takeExpired now tmp).1 (s.takeExpired now tmp).2 ∧
      (s.takeExpired now tmp).2.objects = s.objects := by
  obtain ⟨p, n, hcut⟩ := takeExpired_cut s now tmp
  have hnd := h.sorted.nodup s.less_order
  rw [← List.take_append_drop n s.timers, List.nodup_append] at hnd
  rw [hcut]
  refine ⟨⟨List.Pairwise.sublist (List.drop_sublist _ _) h.sorted, hnd.1,
    fun t ht hd => hnd.2.2 t ht t hd rfl, fun t => ?_⟩, rfl⟩
  show t ∈ s.timers.drop n ∨ t ∈ s.timers.take n ↔ _
  rw [or_comm, ← List.mem_append, List.take_append_drop]
  exact h.mem_iff t

end

/-- What the loop leaves of one expired timer: a recurring one is armed again, a
one-shot one has no callback any more. -/
def emitted (now : U64) (x : Timer κ) : Timer κ :=
  if x.recurring then { x with next := now + x.ms } else { x with cb := none }

/-- One turn of the loop of `listExpiredCb`. -/
def emitOne (now : U64) (s : State ι κ) (t : ι) : State ι κ :=
  if (s.timer t).recurring then
    ((s.set t { s.timer t with next := now + (s.timer t).ms }).insert t).2
  else s.set t { s.timer t with cb := none }

theorem emit_cons (now : U64) (t : ι) (rest : List ι) (cbs : List (Option κ)) (s : State ι κ) :
    State.emit now (t :: rest) (cbs, s) =
      State.emit now rest (cbs ++ [(s.timer t).cb], emitOne now s t) := rfl

theorem emitOne_objects (now : U64) (s : State ι κ) (t : ι) :
    (emitOne now s t).objects = Function.update s.objects t (some (emitted now (s.timer t))) := by
  unfold emitOne emitted
  split <;> rfl

theorem emitOne_emitting {s : State ι κ} {t : ι} {es : List ι} (h : Emitting (t :: es) s)
    (now : U64) : Emitting es (emitOne now s t) := by
  unfold emitOne
  split
  · exact h.putBack _ ((h.mem_iff t).mp (.inr (List.mem_cons_self ..)))
  · exact h.drop _ rfl

/-- The loop restores the law. -/
theorem emit_container (now : U64) (es : List ι) (cbs : List (Option κ)) (s : State ι κ)
    (h : Emitting es s) : Container (State.emit now es (cbs, s)).2 := by
  induction es generalizing cbs s with
  | nil => exact emitting_nil.mp h
  | cons t rest ih =>
    rw [emit_cons]
    exact ih _ _ (emitOne_emitting h now)

theorem listExpiredCb_container {s : State ι κ} (h : Container s) (now : U64) (tmp : ι)
    (cbs : List (Option κ)) : Container (s.listExpiredCb now tmp cbs).2 :=
  emit_container now _ cbs _ (takeExpired_spec h now tmp).1

end ShioSylar.TimerManager
