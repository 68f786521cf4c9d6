import ShioSylar.Timer.Lifecycle

/-! The deadline an idle worker sleeps for.

A worker asks `getNextTimer` how long it may sleep, which clears `m_tickled`. Only
`addTimer(val, lock)` looks whether a timer came in at the front, and tells the worker
once. `refresh` and the recurring branch of `listExpiredCb` put timers back without
looking: they only ever move a deadline to a later time, since no period began in the
future (`Begun`) and the clock does not go back. So as long as nobody has been told, no
timer is due before the one that was first when the worker asked (`deadline_reachable`). -/
namespace ShioSylar.TimerManager
open Lib OrderedSet

variable {ι κ : Type}

/-- The manager, and what a sleeping worker has been told. -/
structure Watch (ι κ : Type) where
  manager : State ι κ
  /-- The latest clock reading. -/
  clock : U64
  /-- The deadline of the first timer at the latest `getNextTimer`; `none` is infinity. -/
  due : Option U64
  /-- `onTimerInsertedAtFront` was called since. -/
  told : Bool

def Watch.start (now : U64) : Watch ι κ := ⟨State.init now, now, none, false⟩

/-- The clock reading of a call. -/
def Op.reading : Op ι κ → Option U64
  | .addTimer _ _ _ _ now => some now
  | .cancel _ => none
  | .refresh _ now => some now
  | .reset _ _ fromNow now => if fromNow then some now else none
  | .getNextTimer now => some now
  | .listExpiredCb now _ => some now

/-- What `reset` counts the new period from. -/
def State.resetStart (s : State ι κ) (t : ι) (fromNow : Bool) (now : U64) : U64 :=
  if fromNow then now else (s.timer t).next - (s.timer t).ms

section
variable [LinearOrder ι]

/-- Whether the call calls `onTimerInsertedAtFront`. -/
def State.tells (s : State ι κ) : Op ι κ → Bool
  | .addTimer t ms cb recurring now => (s.addTimer t ms (some cb) recurring now).1
  | .reset t ms fromNow now => (s.reset t ms fromNow now).1.2
  | _ => false

/-- One call. -/
def Watch.step (w : Watch ι κ) (op : Op ι κ) : Option (Watch ι κ) :=
  (exec w.manager op).map fun r =>
    { manager := r.2
      clock := op.reading.getD w.clock
      due := match op with
        | .getNextTimer _ => w.manager.timers.head?.map fun t => (w.manager.timer t).next
        | _ => w.due
      told := match op with
        | .getNextTimer _ => false
        | _ => w.told || w.manager.tells op }

/-- The deadline that a call computes does not exceed `2^64 - 1`. -/
def State.NoOverflow (s : State ι κ) : Op ι κ → Prop
  | .addTimer _ ms _ _ now => now.toNat + ms.toNat < 2 ^ 64
  | .refresh t now => now.toNat + (s.timer t).ms.toNat < 2 ^ 64
  | .reset t ms fromNow now => (s.resetStart t fromNow now).toNat + ms.toNat < 2 ^ 64
  | .listExpiredCb now tmp => ∀ t ∈ (s.takeExpired now tmp).1, (s.timer t).recurring = true →
      now.toNat + (s.timer t).ms.toNat < 2 ^ 64
  | _ => True

/-- The clock does not go back, and no deadline wraps. -/
def OnTime (w : Watch ι κ) (op : Op ι κ) : Prop :=
  (∀ now ∈ op.reading, w.clock ≤ now) ∧ w.manager.NoOverflow op

instance (s : State ι κ) : (op : Op ι κ) → Decidable (s.NoOverflow op)
  | .addTimer _ ms _ _ now => inferInstanceAs (Decidable (now.toNat + ms.toNat < 2 ^ 64))
  | .refresh t now => inferInstanceAs (Decidable (now.toNat + (s.timer t).ms.toNat < 2 ^ 64))
  | .reset t ms fromNow now =>
    inferInstanceAs (Decidable ((s.resetStart t fromNow now).toNat + ms.toNat < 2 ^ 64))
  | .listExpiredCb now tmp => inferInstanceAs (Decidable (∀ t ∈ (s.takeExpired now tmp).1,
      (s.timer t).recurring = true → now.toNat + (s.timer t).ms.toNat < 2 ^ 64))
  | .cancel _ | .getNextTimer _ => isTrue trivial

instance (w : Watch ι κ) (op : Op ι κ) : Decidable (OnTime w op) :=
  match h : op.reading with
  | none => decidable_of_iff (w.manager.NoOverflow op) (by simp [OnTime, h])
  | some now =>
    decidable_of_iff (w.clock ≤ now ∧ w.manager.NoOverflow op) (by simp [OnTime, h])

end

/-! ### Deadlines move to later times -/

/-- The period that the timer is in has not begun in the future. -/
def Begun (clock : U64) (x : Timer κ) : Prop :=
  x.ms.toNat ≤ x.next.toNat ∧ x.next.toNat ≤ clock.toNat + x.ms.toNat

theorem Begun.later {clock now : U64} {x : Timer κ} (h : Begun clock x) (hnow : clock ≤ now) :
    Begun now x := by
  rw [BitVec.le_def] at hnow
  exact ⟨h.1, by have := h.2; omega⟩

/-- A new period from `start` on. -/
theorem begun_add {clock start : U64} {x : Timer κ} (hx : x.next = start + x.ms)
    (hstart : start ≤ clock) (hfit : start.toNat + x.ms.toNat < 2 ^ 64) : Begun clock x := by
  rw [BitVec.le_def] at hstart
  have hnext : x.next.toNat = start.toNat + x.ms.toNat := by
    rw [hx, BitVec.toNat_add, Nat.mod_eq_of_lt hfit]
  exact ⟨by omega, by omega⟩

/-- A timer that begins its period anew is due no earlier. -/
theorem Begun.next_le {clock now : U64} {x : Timer κ} (h : Begun clock x) (hnow : clock ≤ now)
    (hfit : now.toNat + x.ms.toNat < 2 ^ 64) : x.next ≤ now + x.ms := by
  have hnext := h.2
  rw [BitVec.le_def] at hnow ⊢
  rw [BitVec.toNat_add, Nat.mod_eq_of_lt hfit]
  omega

/-- The period that a pending timer is in began at or before the clock. -/
theorem Begun.resetStart_le {clock : U64} {s : State ι κ} {t : ι} (h : Begun clock (s.timer t))
    (fromNow : Bool) (now : U64) :
    s.resetStart t fromNow now ≤ if fromNow then now else clock := by
  unfold State.resetStart
  cases fromNow with
  | true => exact BitVec.le_refl now
  | false =>
    obtain ⟨hms, hnext⟩ := h
    simp only [Bool.false_eq_true, if_false]
    rw [BitVec.le_def, BitVec.toNat_sub_of_le (by rwa [BitVec.le_def])]
    omega

/-! ### What the calls do to the flag -/

section
variable [LinearOrder ι] {s : State ι κ}

/-- `due` is no later than any deadline of a pending timer. -/
def State.NotBefore (s : State ι κ) (due : Option U64) : Prop :=
  ∀ t, (s.timer t).cb.isSome = true → ∃ d ∈ due, d ≤ (s.timer t).next

/-- `cancel` writes the timer and the container only. -/
theorem cancel_keeps {t : ι} {r : Bool × State ι κ} (h : s.cancel t = some r) :
    r.2.tickled = s.tickled ∧ r.2.previouseTime = s.previouseTime := by
  unfold State.cancel at h
  split at h
  · obtain ⟨u, hu, rfl⟩ := Option.map_eq_some_iff.mp h
    obtain ⟨-, hu⟩ := Option.ite_none_right_eq_some.mp hu
    cases hu
    exact ⟨rfl, rfl⟩
  · cases h
    exact ⟨rfl, rfl⟩

/-- So does the loop of `listExpiredCb`. -/
theorem emit_keeps (now : U64) (es : List ι) (cbs : List (Option κ)) (s : State ι κ) :
    (State.emit now es (cbs, s)).2.tickled = s.tickled ∧
      (State.emit now es (cbs, s)).2.previouseTime = s.previouseTime := by
  induction es generalizing cbs s with
  | nil => exact ⟨rfl, rfl⟩
  | cons t rest ih =>
    have hone : (emitOne now s t).tickled = s.tickled ∧ (emitOne now s t).previouseTime = s.previouseTime := by
      unfold emitOne
      split <;> exact ⟨rfl, rfl⟩
    obtain ⟨htickled, hprev⟩ := ih (cbs ++ [(s.timer t).cb]) (emitOne now s t)
    rw [emit_cons]
    exact ⟨htickled.trans hone.1, hprev.trans hone.2⟩

/-- What the loop of `listExpiredCb` leaves of each timer. -/
theorem emit_timer (now : U64) (es : List ι) (cbs : List (Option κ)) (s : State ι κ) (hnd : es.Nodup)
    (u : ι) : (State.emit now es (cbs, s)).2.timer u =
      if u ∈ es then emitted now (s.timer u) else s.timer u := by
  induction es generalizing cbs s with
  | nil => rfl
  | cons t rest ih =>
    obtain ⟨ht, hrest⟩ := List.nodup_cons.mp hnd
    rw [emit_cons, ih _ _ hrest]
    by_cases hu : u = t
    · subst hu
      rw [if_neg ht, if_pos (List.mem_cons_self ..), State.timer, emitOne_objects, Function.update_self]
      rfl
    · simp only [timer_emitOne now s hu, List.mem_cons, hu, false_or]

/-- A timer that is put in without a call of `onTimerInsertedAtFront` stands after another,
or the flag was set. -/
theorem addTimerLocked_front {t : ι} (ht : t ∉ s.timers) (hs : Sorted s.less s.timers)
    (h : (s.addTimerLocked t).2.tickled = false) :
    s.tickled = false ∧ ∃ u ∈ s.timers, s.less u t = true := by
  have hpos := insert_pos s.less_order hs ht
  simp only [State.addTimerLocked] at h
  split at h
  · cases h
  · rename_i hfront
    have htickled : s.tickled = false := h
    refine ⟨htickled, hpos ?_⟩
    intro hzero
    refine hfront ?_
    simp only [Bool.and_eq_true, decide_eq_true_eq, Bool.not_eq_true']
    exact ⟨hzero, htickled⟩

/-- The flag is set exactly by the call of `onTimerInsertedAtFront`. -/
theorem addTimerLocked_tickled (s : State ι κ) (t : ι) :
    (s.addTimerLocked t).2.tickled = (s.tickled || (s.addTimerLocked t).1) := by
  simp only [State.addTimerLocked]
  split
  · rename_i hfront
    rw [hfront, Bool.or_true]
  · rename_i hfront
    rw [Bool.not_eq_true] at hfront
    rw [hfront, Bool.or_false]
    rfl

/-- `reset` takes a pending timer out, writes it and adds it again, or it does nothing. -/
theorem reset_cases (h : Container s) (t : ι) (ms : U64) (fromNow : Bool) (now : U64) :
    ((s.timer t).cb.isSome = true ∧ s.reset t ms fromNow now =
      let r := (({ s with timers := s.timers.eraseIdx (s.find t) } : State ι κ).set t { s.timer t with
        ms := ms, next := s.resetStart t fromNow now + ms }).addTimerLocked t
      ((true, r.1), r.2)) ∨
    ((s.reset t ms fromNow now).1.2 = false ∧ (s.reset t ms fromNow now).2 = s) := by
  by_cases hsame : ms = (s.timer t).ms ∧ fromNow = false
  · exact .inr (by rw [State.reset, if_pos hsame]; exact ⟨rfl, rfl⟩)
  · by_cases hnone : (s.timer t).cb.isNone = true
    · exact .inr (by rw [State.reset, if_neg hsame, if_pos hnone]; exact ⟨rfl, rfl⟩)
    · have ht : (s.timer t).cb.isSome = true := by
        simpa [Option.isSome_iff_ne_none, Option.isNone_iff_eq_none] using hnone
      refine .inl ⟨ht, ?_⟩
      rw [State.reset, if_neg hsame, if_neg hnone, if_neg (h.find_ne_length ht)]
      rfl

omit [LinearOrder ι] in
theorem getNextTimer_tickled (s : State ι κ) (now : U64) :
    (s.getNextTimer now).2.tickled = false := by
  unfold State.getNextTimer
  dsimp only
  split
  · rfl
  · split <;> rfl

/-- The first timer is due no later than any other. -/
theorem Container.first_le (h : Container s) {u : ι} (hu : (s.timer u).cb.isSome = true) :
    ∃ d ∈ s.timers.head?.map fun t => (s.timer t).next, d ≤ (s.timer u).next := by
  have hin := (h.mem_iff u).mpr hu
  have hs := h.sorted
  cases hl : s.timers with
  | nil =>
    rw [hl] at hin
    cases hin
  | cons first rest =>
    rw [hl] at hin hs
    refine ⟨(s.timer first).next, rfl, ?_⟩
    rcases List.mem_cons.mp hin with rfl | hin
    · exact BitVec.le_refl _
    · have hless := (List.pairwise_cons.mp hs).1 u hin
      rw [State.less_iff] at hless
      rcases hless with hlt | ⟨heq, -⟩
      · exact BitVec.le_of_lt hlt
      · rw [heq]
        exact BitVec.le_refl _

/-- A new timer leaves nobody untold. -/
theorem addTimerLocked_notBefore {t : ι} {x : Timer κ} {due : Option U64} (ht : t ∉ s.timers)
    (hs : Sorted s.less s.timers) (hdue : s.tickled = false → ∀ u ∈ s.timers, ∃ d ∈ due,
      d ≤ (s.timer u).next) (h : ((s.set t x).addTimerLocked t).2.tickled = false) :
    ∃ d ∈ due, d ≤ x.next := by
  obtain ⟨htickled, u, hu, hless⟩ := addTimerLocked_front (s := s.set t x) ht (s.sorted_set x ht hs) h
  obtain ⟨d, hd, hle⟩ := hdue htickled u hu
  have hne : u ≠ t := ne_of_mem_of_not_mem hu ht
  refine ⟨d, hd, BitVec.le_trans hle ?_⟩
  rw [State.less_iff, State.timer_set, State.timer_set, if_neg hne, if_pos rfl] at hless
  rcases hless with hlt | ⟨heq, -⟩
  · exact BitVec.le_of_lt hlt
  · rw [heq]
    exact BitVec.le_refl _

/-! ### Every reachable state -/

/-- What a watch keeps. -/
structure Watched (w : Watch ι κ) : Prop where
  container : Container w.manager
  begun : ∀ t, (w.manager.timer t).cb.isSome = true → Begun w.clock (w.manager.timer t)
  due : w.manager.tickled = false → w.manager.NotBefore w.due
  told : w.told = w.manager.tickled

theorem start_watched (now : U64) : Watched (Watch.start now : Watch ι κ) := by
  refine ⟨init_container now, fun t ht => ?_, fun _ t ht => ?_, rfl⟩
  · simp [Watch.start, State.init, State.timer] at ht
  · simp [Watch.start, State.init, State.timer] at ht

/-- One timer has been written, by a call that does not ask for the next deadline. -/
theorem Watched.write {w : Watch ι κ} (k : Watched w) {m : State ι κ} {clock : U64} {told : Bool} {t : ι}
    {x : Timer κ} (hc : Container m) (hclock : w.clock ≤ clock) (htold : told = m.tickled)
    (hobj : m.objects = Function.update w.manager.objects t (some x))
    (htickled : m.tickled = false → w.manager.tickled = false)
    (hx : x.cb.isSome = true → Begun clock x ∧ (m.tickled = false → ∃ d ∈ w.due, d ≤ x.next)) :
    Watched { w with manager := m, clock := clock, told := told } := by
  have htimer : ∀ u, m.timer u = if u = t then x else w.manager.timer u := by
    intro u
    rw [State.timer, hobj]
    by_cases hu : u = t
    · rw [if_pos hu, hu, Function.update_self]
      rfl
    · rw [if_neg hu, Function.update_of_ne hu, State.timer]
  refine ⟨hc, fun u hu => ?_, fun h u hu => ?_, htold⟩
  · simp only [htimer u] at hu ⊢
    split at hu
    · rename_i heq
      rw [if_pos heq]
      exact (hx hu).1
    · rename_i hne
      rw [if_neg hne]
      exact (k.begun u hu).later hclock
  · simp only [htimer u] at hu ⊢
    split at hu
    · rename_i heq
      rw [if_pos heq]
      exact (hx hu).2 h
    · rename_i hne
      rw [if_neg hne]
      exact k.due (htickled h) u hu

/-- `listExpiredCb` writes no flag. -/
theorem listExpiredCb_tickled (s : State ι κ) (now : U64) (tmp : ι) :
    (s.listExpiredCb now tmp []).2.tickled = s.tickled := by
  obtain ⟨p, n, hcut⟩ := takeExpired_cut s now tmp
  show (State.emit now (s.takeExpired now tmp).1 ([], (s.takeExpired now tmp).2)).2.tickled = _
  rw [(emit_keeps ..).1, hcut]

/-- What `listExpiredCb` leaves of each timer. -/
theorem listExpiredCb_timer {s : State ι κ} (hc : Container s) (now : U64) (tmp u : ι) :
    (s.listExpiredCb now tmp []).2.timer u =
      if u ∈ (s.takeExpired now tmp).1 then emitted now (s.timer u) else s.timer u := by
  obtain ⟨hem, hobj⟩ := takeExpired_spec hc now tmp
  have htimer : (s.takeExpired now tmp).2.timer = s.timer := by
    funext u
    rw [State.timer, hobj, State.timer]
  show (State.emit now (s.takeExpired now tmp).1 ([], (s.takeExpired now tmp).2)).2.timer u = _
  rw [emit_timer now _ _ _ hem.nodup, htimer]

/-- A timer that has its callback after `listExpiredCb` had it before, and is the same or starts
again from now. -/
theorem listExpiredCb_written {s : State ι κ} (hc : Container s) (now : U64) (tmp : ι) {u : ι}
    (hu : ((s.listExpiredCb now tmp []).2.timer u).cb.isSome = true) :
    (s.timer u).cb.isSome = true ∧ ((s.listExpiredCb now tmp []).2.timer u = s.timer u ∨
      (u ∈ (s.takeExpired now tmp).1 ∧ (s.timer u).recurring = true ∧
        (s.listExpiredCb now tmp []).2.timer u = { s.timer u with next := now + (s.timer u).ms })) := by
  rw [listExpiredCb_timer hc] at hu ⊢
  split at hu
  · rename_i hin
    unfold emitted at hu ⊢
    split at hu
    · rename_i hrec
      rw [if_pos hin, if_pos hrec]
      exact ⟨hu, .inr ⟨hin, hrec, rfl⟩⟩
    · cases hu
  · rename_i hin
    rw [if_neg hin]
    exact ⟨hu, .inl rfl⟩

/-- `reset` keeps the watch. -/
theorem Watched.reset {w : Watch ι κ} (k : Watched w) {t : ι} {ms : U64} {fromNow : Bool} {now : U64}
    (hclock : ∀ c, Op.reading (.reset t ms fromNow now : Op ι κ) = some c → w.clock ≤ c)
    (hfit : w.manager.NoOverflow (.reset t ms fromNow now)) :
    Watched { w with
      manager := (w.manager.reset t ms fromNow now).2
      clock := (Op.reading (.reset t ms fromNow now : Op ι κ)).getD w.clock
      told := w.told || w.manager.tells (.reset t ms fromNow now) } := by
  have hlater : w.clock ≤ (if fromNow then some now else none : Option U64).getD w.clock := by
    cases fromNow with
    | true => exact hclock now rfl
    | false => exact BitVec.le_refl _
  rcases reset_cases k.container t ms fromNow now with ⟨hcb, hr⟩ | ⟨htells, hr⟩
  · have hstart := (k.begun t hcb).resetStart_le fromNow now
    have hout := k.container.takeOut hcb
    have htickled := addTimerLocked_tickled
      (({ w.manager with timers := w.manager.timers.eraseIdx (w.manager.find t) } : State ι κ).set t
        { w.manager.timer t with ms := ms, next := w.manager.resetStart t fromNow now + ms }) t
    refine k.write (t := t)
      (x := { w.manager.timer t with ms := ms, next := w.manager.resetStart t fromNow now + ms })
      ?_ hlater ?_ ?_ (fun hf => ?_) (fun _ => ⟨?_, fun hf => ?_⟩)
    · rw [hr]
      exact addTimerLocked_container (emitting_nil.mp (hout.putBack _ hcb))
    · simp only [State.tells, hr, k.told]
      exact htickled.symm
    · rw [hr]
      exact addTimerLocked_objects _ _
    · rw [hr] at hf
      exact (Bool.or_eq_false_iff.mp (htickled.symm.trans hf)).1
    · refine begun_add rfl (BitVec.le_trans hstart ?_) hfit
      cases fromNow <;> exact BitVec.le_refl _
    · rw [hr] at hf
      refine addTimerLocked_notBefore hout.not_mem hout.sorted (fun ht u hu => ?_) hf
      exact k.due ht u ((hout.mem_iff u).mp (.inl hu))
  · rw [hr]
    refine ⟨k.container, fun u hu => (k.begun u hu).later hlater, k.due, ?_⟩
    simp only [State.tells, htells, Bool.or_false]
    exact k.told

/-- A call keeps the watch, while the clock runs on and no deadline wraps. -/
theorem step_watched (w : Watch ι κ) (op : Op ι κ) (w' : Watch ι κ) (k : Watched w) (hg : OnTime w op)
    (h : w.step op = some w') : Watched w' := by
  obtain ⟨⟨ev, m⟩, he, rfl⟩ := Option.map_eq_some_iff.mp h
  obtain ⟨hclock, hfit⟩ := hg
  have hdue : w.manager.tickled = false → ∀ u ∈ w.manager.timers, ∃ d ∈ w.due,
      d ≤ (w.manager.timer u).next := fun ht u hu => k.due ht u ((k.container.mem_iff u).mp hu)
  cases op with
  | addTimer t ms cb recurring now =>
    simp only [exec, Option.ite_none_right_eq_some, Option.some.injEq, Prod.mk.injEq] at he
    obtain ⟨ht, -, rfl⟩ := he
    obtain ⟨hc, hobj⟩ := addTimer_spec k.container t ms cb recurring now (Option.isNone_iff_eq_none.mp ht)
    have hcb : (w.manager.timer t).cb.isSome = false := by
      simp [State.timer, Option.isNone_iff_eq_none.mp ht]
    have hout : t ∉ w.manager.timers := by
      rw [k.container.mem_iff t, hcb]
      exact Bool.false_ne_true
    have htickled := addTimerLocked_tickled (w.manager.set t (Timer.create ms (some cb) recurring now)) t
    have hnow : w.clock ≤ now := hclock now rfl
    refine k.write hc hnow ?_ hobj (fun hf => ?_) (fun _ => ⟨?_, fun hf => ?_⟩)
    · rw [k.told]
      exact htickled.symm
    · exact (Bool.or_eq_false_iff.mp (htickled.symm.trans hf)).1
    · exact begun_add rfl (BitVec.le_refl _) hfit
    · exact addTimerLocked_notBefore hout k.container.sorted hdue hf
  | cancel t =>
    simp only [exec, Option.ite_none_right_eq_some] at he
    obtain ⟨-, he⟩ := he
    obtain ⟨r, hr, heq⟩ := Option.map_eq_some_iff.mp he
    cases heq
    have htickled := (cancel_keeps hr).1
    rcases cancel_spec k.container t with ⟨u, hu, -, hc, hobj⟩ | ⟨hu, -⟩ <;> cases hu.symm.trans hr
    · refine k.write hc (BitVec.le_refl _) ?_ hobj (fun hf => htickled.symm.trans hf)
        (fun hcb => by cases hcb)
      exact (Bool.or_false _).trans (k.told.trans htickled.symm)
    · exact ⟨k.container, k.begun, k.due, (Bool.or_false _).trans k.told⟩
  | refresh t now =>
    simp only [exec, Option.ite_none_right_eq_some, Option.some.injEq, Prod.mk.injEq] at he
    obtain ⟨-, -, rfl⟩ := he
    have hnow : w.clock ≤ now := hclock now rfl
    have htold : (w.told || w.manager.tells (.refresh t now)) = w.manager.tickled :=
      (Bool.or_false _).trans k.told
    rcases refresh_spec k.container t now with ⟨hcb, hr⟩ | ⟨hr, -⟩ <;> rw [hr]
    · have hbegun := k.begun t hcb
      refine k.write (rearm_container k.container hcb _ hcb) hnow htold (rearm_objects ..) id
        (fun _ => ⟨begun_add rfl (BitVec.le_refl _) hfit, fun hf => ?_⟩)
      obtain ⟨d, hd, hle⟩ := k.due hf t hcb
      exact ⟨d, hd, BitVec.le_trans hle (hbegun.next_le hnow hfit)⟩
    · exact ⟨k.container, fun u hu => (k.begun u hu).later hnow, k.due, htold⟩
  | reset t ms fromNow now =>
    simp only [exec, Option.ite_none_right_eq_some, Option.some.injEq, Prod.mk.injEq] at he
    obtain ⟨-, -, rfl⟩ := he
    exact k.reset hclock hfit
  | getNextTimer now =>
    cases he
    obtain ⟨hc, hobj⟩ := getNextTimer_spec k.container now
    have htimer : (w.manager.getNextTimer now).2.timer = w.manager.timer := by
      funext u
      rw [State.timer, hobj, State.timer]
    refine ⟨hc, fun u hu => ?_, fun _ u hu => ?_, (getNextTimer_tickled w.manager now).symm⟩
    · simp only [htimer] at hu ⊢
      exact (k.begun u hu).later (hclock now rfl)
    · simp only [htimer] at hu ⊢
      exact k.container.first_le hu
  | listExpiredCb now tmp =>
    cases he
    have hnow : w.clock ≤ now := hclock now rfl
    have htickled := listExpiredCb_tickled w.manager now tmp
    refine ⟨listExpiredCb_container k.container now tmp [], fun u hu => ?_, fun hf u hu => ?_,
      (Bool.or_false _).trans (k.told.trans htickled.symm)⟩
    · obtain ⟨hcb, heq | ⟨hin, hrec, heq⟩⟩ := listExpiredCb_written k.container now tmp hu
      · simp only [heq]
        exact (k.begun u hcb).later hnow
      · simp only [heq]
        exact begun_add rfl (BitVec.le_refl _) (hfit u hin hrec)
    · obtain ⟨hcb, hnext⟩ := listExpiredCb_written k.container now tmp hu
      obtain ⟨d, hd, hle⟩ := k.due (htickled.symm.trans hf) u hcb
      refine ⟨d, hd, BitVec.le_trans hle ?_⟩
      rcases hnext with heq | ⟨hin, hrec, heq⟩
      · simp only [heq]
        exact BitVec.le_refl _
      · simp only [heq]
        exact (k.begun u hcb).next_le hnow (hfit u hin hrec)

/-- **No missed earlier deadline.** With a clock that does not go back and deadlines that do
not wrap, whenever the first timer is due before the deadline that the latest `getNextTimer`
saw, `m_tickled` is set and `onTimerInsertedAtFront` has been called since. -/
theorem deadline_reachable (now : U64) (ops : List (Op ι κ)) (w : Watch ι κ)
    (hm : Meets Watch.step OnTime (Watch.start now) ops)
    (h : run Watch.step (Watch.start now) ops = some w) (first : ι) (rest : List ι)
    (hfirst : w.manager.timers = first :: rest)
    (hearly : ∀ d ∈ w.due, (w.manager.timer first).next < d) :
    w.manager.tickled = true ∧ w.told = true := by
  have k : Watched w := run_invariant step_watched (start_watched now) hm h
  rw [k.told, and_self]
  by_contra htickled
  rw [Bool.not_eq_true] at htickled
  have hcb := (k.container.mem_iff first).mp (hfirst ▸ List.mem_cons_self ..)
  obtain ⟨d, hd, hle⟩ := k.due htickled first hcb
  have hlt := hearly d hd
  rw [BitVec.lt_def] at hlt
  rw [BitVec.le_def] at hle
  omega

end

/-- A worker asks with one timer due at 30 and is told of one due at 25, which moves to 28. -/
def watchOps : List (Op Nat Unit) :=
  [.addTimer 1 20 () true 10, .getNextTimer 12, .refresh 1 13, .addTimer 2 10 () false 15,
    .reset 2 13 false 16]

theorem deadline_reachable_sample : ∃ w, run Watch.step (Watch.start 0) watchOps = some w ∧
    w.manager.timers = [2, 1] ∧ w.due = some 30 ∧ w.manager.tickled = true ∧ w.told = true :=
  ⟨_, rfl, rfl, rfl, deadline_reachable 0 watchOps _ (by decide) rfl 2 [1] rfl
    (fun _ hd => by cases hd; decide)⟩

end ShioSylar.TimerManager
