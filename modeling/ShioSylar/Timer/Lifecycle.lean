import ShioSylar.Lib.Run
import ShioSylar.Timer.Container

/-! Whole runs of the timer manager.

A run is any sequence of calls, each with a clock reading of its own; `Op` lists the
calls and `exec` makes one. The history records what the calls answered, and for
`listExpiredCb` the timers that it took out, each with the callback it had; what it put into
`cbs` is kept beside it, as it was returned.

`container_reachable`: the container law holds in every state of every run, so the
lookups never miss and `cancel` never erases the end. `lifecycle_reachable`: what was put into
`cbs` is what the history says was emitted, in order and number, and a timer's callback is set
exactly as long as the history says that it is pending (`Pending`), which decides every answer of
`cancel` and `refresh` and every emission. -/
namespace ShioSylar.TimerManager
open Lib OrderedSet

variable {ι κ : Type}

inductive Op (ι κ : Type) where
  | addTimer (t : ι) (ms : U64) (cb : κ) (recurring : Bool) (now : U64)
  | cancel (t : ι)
  | refresh (t : ι) (now : U64)
  | reset (t : ι) (ms : U64) (fromNow : Bool) (now : U64)
  | getNextTimer (now : U64)
  | listExpiredCb (now : U64) (tmp : ι)

inductive Event (ι κ : Type) where
  | added (t : ι) (recurring : Bool)
  | cancelled (t : ι) (ret : Bool)
  | refreshed (t : ι) (ret : Bool)
  | reset (t : ι) (ret : Bool)
  | emitted (t : ι) (cb : Option κ)

section
variable [LinearOrder ι]

/-- One call. A new timer gets an address where no object is, and only timers that
exist can be called; `none` otherwise, and where `cancel` is undefined. -/
def exec (s : State ι κ) : Op ι κ → Option (List (Event ι κ) × State ι κ)
  | .addTimer t ms cb recurring now =>
    if (s.objects t).isNone then
      some ([.added t recurring], (s.addTimer t ms (some cb) recurring now).2)
    else none
  | .cancel t =>
    if (s.objects t).isSome then (s.cancel t).map fun r => ([.cancelled t r.1], r.2) else none
  | .refresh t now =>
    if (s.objects t).isSome then some ([.refreshed t (s.refresh t now).1], (s.refresh t now).2)
    else none
  | .reset t ms fromNow now =>
    if (s.objects t).isSome then
      some ([.reset t (s.reset t ms fromNow now).1.1], (s.reset t ms fromNow now).2)
    else none
  | .getNextTimer now => some ([], (s.getNextTimer now).2)
  | .listExpiredCb now tmp =>
    some ((s.takeExpired now tmp).1.map fun t => .emitted t (s.timer t).cb, (s.listExpiredCb now tmp []).2)

/-- What a call puts into `cbs`. -/
def returned (s : State ι κ) : Op ι κ → List (Option κ)
  | .listExpiredCb now tmp => (s.listExpiredCb now tmp []).1
  | _ => []

/-- The manager, what its calls have answered and what they have put into `cbs`, oldest first. -/
structure Life (ι κ : Type) where
  manager : State ι κ
  history : List (Event ι κ)
  cbs : List (Option κ)

def Life.start (now : U64) : Life ι κ := ⟨State.init now, [], []⟩

def step (l : Life ι κ) (op : Op ι κ) : Option (Life ι κ) :=
  (exec l.manager op).map fun r => ⟨r.2, l.history ++ r.1, l.cbs ++ returned l.manager op⟩

/-! ### The container in every reachable state -/

theorem exec_container {s s' : State ι κ} {op : Op ι κ} {ev : List (Event ι κ)} (h : Container s)
    (he : exec s op = some (ev, s')) : Container s' := by
  cases op with
  | addTimer t ms cb recurring now =>
    simp only [exec, Option.ite_none_right_eq_some, Option.some.injEq, Prod.mk.injEq] at he
    obtain ⟨ht, -, rfl⟩ := he
    exact (addTimer_spec h t ms cb recurring now (Option.isNone_iff_eq_none.mp ht)).1
  | cancel t =>
    simp only [exec, Option.ite_none_right_eq_some] at he
    rcases cancel_spec h t with ⟨u, hu, -, hc, -⟩ | ⟨hu, -⟩ <;> rw [hu] at he
    · obtain ⟨-, he⟩ := he
      cases he
      exact hc
    · obtain ⟨-, he⟩ := he
      cases he
      exact h
  | refresh t now =>
    simp only [exec, Option.ite_none_right_eq_some, Option.some.injEq, Prod.mk.injEq] at he
    obtain ⟨-, -, rfl⟩ := he
    rcases refresh_spec h t now with ⟨ht, hr⟩ | ⟨hr, -⟩ <;> rw [hr]
    · exact rearm_container h ht _ ht
    · exact h
  | reset t ms fromNow now =>
    simp only [exec, Option.ite_none_right_eq_some, Option.some.injEq, Prod.mk.injEq] at he
    obtain ⟨-, -, rfl⟩ := he
    rcases reset_spec h t ms fromNow now with ⟨-, hc, -⟩ | hr
    · exact hc
    · rw [hr]
      exact h
  | getNextTimer now =>
    cases he
    exact (getNextTimer_spec h now).1
  | listExpiredCb now tmp =>
    cases he
    exact listExpiredCb_container h now tmp []

theorem step_container (l : Life ι κ) (op : Op ι κ) (l' : Life ι κ) (h : Container l.manager)
    (hs : step l op = some l') : Container l'.manager := by
  obtain ⟨⟨ev, s'⟩, he, rfl⟩ := Option.map_eq_some_iff.mp hs
  exact exec_container h he

theorem run_container {now : U64} {ops : List (Op ι κ)} {l : Life ι κ}
    (h : run step (Life.start now) ops = some l) : Container l.manager :=
  run_preserves (P := fun l => Container l.manager) step_container (init_container now) h

/-- **The container law.** In every reachable state the container is strictly increasing
under the comparison as it evaluates there, holds no timer twice, and holds a timer if
and only if its callback is not null; so the lookup of a timer with a callback succeeds
and no cancel of a timer erases the end. -/
theorem container_reachable (now : U64) (ops : List (Op ι κ)) (l : Life ι κ)
    (h : run step (Life.start now) ops = some l) :
    Sorted l.manager.less l.manager.timers ∧ l.manager.timers.Nodup ∧
      (∀ t, t ∈ l.manager.timers ↔ (l.manager.timer t).cb ≠ none) ∧
      (∀ t, (l.manager.timer t).cb ≠ none →
        l.manager.find t ≠ l.manager.timers.length ∧
        l.manager.timers[l.manager.find t]? = some t) ∧
      (∀ t, ∃ r, l.manager.cancel t = some r) := by
  have hc := run_container h
  refine ⟨hc.sorted, hc.sorted.nodup l.manager.less_order, fun t => ?_, fun t ht => ?_, fun t => ?_⟩
  · rw [hc.mem_iff t, Option.isSome_iff_ne_none]
  · have ht' := Option.isSome_iff_ne_none.mpr ht
    exact ⟨hc.find_ne_length ht', hc.find_get ht'⟩
  · rcases cancel_spec hc t with ⟨u, hu, -⟩ | ⟨hu, -⟩
    · exact ⟨_, hu⟩
    · exact ⟨_, hu⟩

end

/-- Two timers due at one time, one of them cancelled and one recurring, at a clock that
goes back. -/
def sampleOps : List (Op Nat Unit) :=
  [.addTimer 2 5 () false 10, .addTimer 1 5 () true 10, .cancel 2, .listExpiredCb 15 7,
    .refresh 1 3]

theorem container_reachable_sample : ∃ l, run step (Life.start 0) sampleOps = some l ∧
    Sorted l.manager.less l.manager.timers ∧ l.manager.timers.Nodup ∧
      (∀ t, t ∈ l.manager.timers ↔ (l.manager.timer t).cb ≠ none) ∧
      (∀ t, (l.manager.timer t).cb ≠ none →
        l.manager.find t ≠ l.manager.timers.length ∧
        l.manager.timers[l.manager.find t]? = some t) ∧
      (∀ t, ∃ r, l.manager.cancel t = some r) :=
  ⟨_, rfl, container_reachable 0 sampleOps _ rfl⟩

/-! ### Pending timers

`Pending` reads the history only. `Faithful` says of a history that every answer in it
is the one its past calls for; `Tracks` ties the manager to the history. -/

/-- Created, not cancelled, and if it is one-shot not emitted. -/
def Pending (h : List (Event ι κ)) (t : ι) : Prop :=
  (∃ r, .added t r ∈ h) ∧ .cancelled t true ∉ h ∧
    (.added t false ∈ h → ∀ cb, .emitted t cb ∉ h)

/-- What the past `h` says about the next event. -/
def Allowed (h : List (Event ι κ)) : Event ι κ → Prop
  | .added t _ => ∀ r, .added t r ∉ h
  | .cancelled t ret => ret = true ↔ Pending h t
  | .refreshed t ret => ret = true ↔ Pending h t
  | .reset _ _ => True
  | .emitted t cb => Pending h t ∧ cb ≠ none

def Faithful (h : List (Event ι κ)) : Prop :=
  ∀ past e later, h = past ++ e :: later → Allowed past e

theorem faithful_nil : Faithful ([] : List (Event ι κ)) := by
  intro past e later h
  cases past <;> cases h

theorem Faithful.snoc {h : List (Event ι κ)} {e : Event ι κ} (hh : Faithful h) (he : Allowed h e) :
    Faithful (h ++ [e]) := by
  intro past e' later heq
  rcases List.eq_nil_or_concat later with rfl | ⟨later', x, rfl⟩
  · obtain ⟨rfl, hlast⟩ := List.append_inj' heq rfl
    cases hlast
    exact he
  · have heq' : h ++ [e] = (past ++ e' :: later') ++ [x] := by
      rw [heq, List.append_assoc, List.cons_append, List.concat_eq_append]
    exact hh past e' later' (List.append_inj' heq' rfl).1

/-- Events that say nothing about whether a timer is pending. -/
def Event.Silent : Event ι κ → Prop
  | .added _ _ => False
  | .cancelled _ ret => ret = false
  | .refreshed _ _ => True
  | .reset _ _ => True
  | .emitted _ _ => False

theorem pending_silent {h : List (Event ι κ)} {e : Event ι κ} (he : e.Silent) (t : ι) :
    Pending (h ++ [e]) t ↔ Pending h t := by
  cases e with
  | cancelled u ret =>
    cases (he : ret = false)
    simp [Pending]
  | refreshed u ret => simp [Pending]
  | reset u ret => simp [Pending]
  | added u r => exact he.elim
  | emitted u cb => exact he.elim

/-- Whatever a faithful history says about a timer, the timer was added before. -/
theorem Faithful.added_of_pending {h past later : List (Event ι κ)} {e : Event ι κ} {t : ι}
    (heq : h = past ++ e :: later) (hp : Pending past t) : ∃ r, .added t r ∈ h := by
  obtain ⟨r, hr⟩ := hp.1
  exact ⟨r, heq ▸ List.mem_append_left _ hr⟩

theorem Faithful.not_cancelled {h : List (Event ι κ)} (hh : Faithful h) {t : ι}
    (ht : ∀ r, .added t r ∉ h) : .cancelled t true ∉ h := by
  intro hc
  obtain ⟨past, later, heq⟩ := List.append_of_mem hc
  obtain ⟨r, hr⟩ := Faithful.added_of_pending heq ((hh past _ later heq).mp rfl)
  exact ht r hr

theorem Faithful.not_emitted {h : List (Event ι κ)} (hh : Faithful h) {t : ι}
    (ht : ∀ r, .added t r ∉ h) (cb : Option κ) : .emitted t cb ∉ h := by
  intro hc
  obtain ⟨past, later, heq⟩ := List.append_of_mem hc
  obtain ⟨r, hr⟩ := Faithful.added_of_pending heq (hh past _ later heq).1
  exact ht r hr

theorem pending_added {h : List (Event ι κ)} {u : ι} {r : Bool} (hh : Faithful h)
    (hu : ∀ r, .added u r ∉ h) (t : ι) :
    Pending (h ++ [.added u r]) t ↔ t = u ∨ Pending h t := by
  by_cases ht : t = u
  · subst ht
    have hc := hh.not_cancelled hu
    have he := hh.not_emitted hu
    simp [Pending, hc, he]
  · simp [Pending, ht]

theorem pending_cancelled {h : List (Event ι κ)} {u : ι} (t : ι) :
    Pending (h ++ [.cancelled u true]) t ↔ Pending h t ∧ t ≠ u := by
  simp only [Pending, List.mem_append, List.mem_singleton, Event.cancelled.injEq, reduceCtorEq,
    or_false, and_true, not_or]
  tauto

theorem pending_emitted {h : List (Event ι κ)} {u : ι} {cb : Option κ} (t : ι) :
    Pending (h ++ [.emitted u cb]) t ↔ Pending h t ∧ (t = u → .added u false ∉ h) := by
  by_cases ht : t = u
  · subst ht
    simp only [Pending, List.mem_append, List.mem_singleton, Event.emitted.injEq, reduceCtorEq,
      or_false, true_and, not_or, forall_const]
    constructor
    · intro hsplit
      obtain ⟨ha, hc, he⟩ := hsplit
      refine ⟨⟨ha, hc, fun hf cb => (he hf cb).1⟩, fun hf => (he hf cb).2 rfl⟩
    · intro hsplit
      obtain ⟨⟨ha, hc, -⟩, hf⟩ := hsplit
      exact ⟨ha, hc, fun hf' => absurd hf' hf⟩
  · simp [Pending, ht]

section
variable [LinearOrder ι]

/-- The manager is where the history says. -/
structure Tracks (s : State ι κ) (h : List (Event ι κ)) : Prop where
  faithful : Faithful h
  pending : ∀ t, (s.timer t).cb.isSome = true ↔ Pending h t
  added : ∀ t r, .added t r ∈ h ↔ ∃ x, s.objects t = some x ∧ x.recurring = r

omit [LinearOrder ι] in
theorem tracks_start (now : U64) : Tracks (State.init now : State ι κ) [] :=
  ⟨faithful_nil, fun t => by simp [State.init, State.timer, Pending],
    fun t r => by simp [State.init]⟩

namespace Tracks
variable {s s' : State ι κ} {h : List (Event ι κ)} (k : Tracks s h)
include k

omit [LinearOrder ι] in
/-- An event that writes no callback. -/
theorem silent (hobj : s'.objects = s.objects) {e : Event ι κ} (he : e.Silent) (ha : Allowed h e) :
    Tracks s' (h ++ [e]) := by
  refine ⟨k.faithful.snoc ha, fun t => ?_, fun t r => ?_⟩
  · rw [pending_silent he t, ← k.pending t, State.timer, State.timer, hobj]
  · rw [hobj, ← k.added t r, List.mem_append, List.mem_singleton]
    cases e <;> simp_all [Event.Silent]

/-- An event after which one timer that exists has been written. -/
theorem write {t : ι} {y x : Timer κ} (hy : s.objects t = some y)
    (hobj : s'.objects = Function.update s.objects t (some x)) (hr : x.recurring = y.recurring)
    {e : Event ι κ} (ha : Allowed h e) (hadd : ∀ u r, e ≠ .added u r)
    (hp : ∀ u, Pending (h ++ [e]) u ↔ if u = t then x.cb.isSome = true else Pending h u) :
    Tracks s' (h ++ [e]) := by
  refine ⟨k.faithful.snoc ha, fun u => ?_, fun u r => ?_⟩
  · rw [hp u, State.timer, hobj]
    by_cases hu : u = t
    · simp [hu]
    · rw [Function.update_of_ne hu, if_neg hu, ← k.pending u, State.timer]
  · rw [List.mem_append, List.mem_singleton, k.added u r, hobj]
    have hne : .added u r ≠ e := fun heq => hadd u r heq.symm
    by_cases hu : u = t
    · subst hu
      simp [hy, hr, hne]
    · simp [hu, hne]

omit [LinearOrder ι] in
/-- A timer that exists is what the manager reads of it. -/
theorem recurring_iff {t : ι} {y : Timer κ} (hy : s.objects t = some y) (r : Bool) :
    .added t r ∈ h ↔ y.recurring = r := by
  simp [k.added t r, hy]

omit [LinearOrder ι] in
theorem allowed_answer {t : ι} {ret : Bool} (hret : ret = (s.timer t).cb.isSome) :
    ret = true ↔ Pending h t := by
  rw [hret, k.pending t]

/-- One turn of the emission loop. -/
theorem emitOne {t : ι} {es : List ι} (he : Emitting (t :: es) s) (now : U64) :
    Tracks (emitOne now s t) (h ++ [.emitted t (s.timer t).cb]) := by
  have hcb := (he.mem_iff t).mp (.inr (List.mem_cons_self ..))
  have hpend := (k.pending t).mp hcb
  obtain ⟨r, hr⟩ := hpend.1
  obtain ⟨y, hy, -⟩ := (k.added t r).mp hr
  have hty : s.timer t = y := by simp [State.timer, hy]
  refine k.write hy (emitOne_objects now s t) ?_ ⟨hpend, Option.isSome_iff_ne_none.mp hcb⟩
    (by simp) (fun u => ?_)
  · rw [hty, emitted]
    split <;> rfl
  · rw [pending_emitted u]
    by_cases hu : u = t
    · subst hu
      rw [k.recurring_iff hy, emitted, hty]
      cases hrec : y.recurring
      · simp
      · rw [hty] at hcb
        simp [hpend, hcb]
    · simp [hu]

end Tracks

theorem timer_emitOne (now : U64) (s : State ι κ) {t u : ι} (hu : u ≠ t) :
    (emitOne now s t).timer u = s.timer u := by
  rw [State.timer, emitOne_objects, Function.update_of_ne hu, State.timer]

/-- The callbacks appended are those the expired timers have, in order. -/
theorem emit_cbs (now : U64) (es : List ι) (cbs : List (Option κ)) (s : State ι κ)
    (hnd : es.Nodup) :
    (State.emit now es (cbs, s)).1 = cbs ++ es.map fun t => (s.timer t).cb := by
  induction es generalizing cbs s with
  | nil => simp [State.emit]
  | cons t rest ih =>
    obtain ⟨ht, hrest⟩ := List.nodup_cons.mp hnd
    have hmap : rest.map (fun u => ((emitOne now s t).timer u).cb) = rest.map fun u => (s.timer u).cb :=
      List.map_congr_left fun u hu => by rw [timer_emitOne now s (ne_of_mem_of_not_mem hu ht)]
    rw [emit_cons, ih _ _ hrest, hmap, List.map_cons, List.append_assoc, List.singleton_append]

/-- The loop emits one timer after the other. -/
theorem emit_tracks (now : U64) (es : List ι) (cbs : List (Option κ)) (s : State ι κ)
    (h : List (Event ι κ)) (he : Emitting es s) (k : Tracks s h) :
    Tracks (State.emit now es (cbs, s)).2 (h ++ es.map fun t => .emitted t (s.timer t).cb) := by
  induction es generalizing cbs s h with
  | nil => simpa [State.emit] using k
  | cons t rest ih =>
    have ht := (List.nodup_cons.mp he.nodup).1
    have hmap : rest.map (fun u => Event.emitted u ((emitOne now s t).timer u).cb) =
        rest.map fun u => Event.emitted u (s.timer u).cb :=
      List.map_congr_left fun u hu => by rw [timer_emitOne now s (ne_of_mem_of_not_mem hu ht)]
    have hrest := ih (cbs ++ [(s.timer t).cb]) _ _ (emitOne_emitting he now) (k.emitOne he now)
    rw [hmap, List.append_assoc, List.singleton_append] at hrest
    rw [emit_cons, List.map_cons]
    exact hrest

/-- The callbacks are those of the timers taken out. -/
theorem listExpiredCb_cbs {s : State ι κ} (hc : Container s) (now : U64) (tmp : ι) :
    (s.listExpiredCb now tmp []).1 = (s.takeExpired now tmp).1.map fun t => (s.timer t).cb := by
  obtain ⟨hem, hobj⟩ := takeExpired_spec hc now tmp
  show (State.emit now (s.takeExpired now tmp).1 ([], (s.takeExpired now tmp).2)).1 = _
  rw [emit_cbs now _ _ _ hem.nodup, List.nil_append]
  refine List.map_congr_left fun t _ => ?_
  rw [State.timer, hobj, State.timer]

/-- The callback of an emission. -/
def Event.callback : Event ι κ → Option (Option κ)
  | .emitted _ cb => some cb
  | _ => none

/-- A call puts into `cbs` what it emits, and nothing else. -/
theorem exec_cbs {s s' : State ι κ} {op : Op ι κ} {ev : List (Event ι κ)} (hc : Container s)
    (he : exec s op = some (ev, s')) : returned s op = ev.filterMap Event.callback := by
  cases op with
  | addTimer | refresh | reset =>
    -- each answers with one event that is no emission
    simp only [exec, Option.ite_none_right_eq_some, Option.some.injEq, Prod.mk.injEq] at he
    obtain ⟨-, rfl, -⟩ := he
    rfl
  | cancel t =>
    obtain ⟨-, he⟩ := Option.ite_none_right_eq_some.mp he
    obtain ⟨r, -, heq⟩ := Option.map_eq_some_iff.mp he
    cases heq
    rfl
  | getNextTimer now =>
    cases he
    rfl
  | listExpiredCb now tmp =>
    cases he
    show (s.listExpiredCb now tmp []).1 = _
    rw [listExpiredCb_cbs hc, List.filterMap_map]
    exact (congrFun List.filterMap_eq_map _).symm

/-- One call keeps the history true. -/
theorem exec_tracks {s s' : State ι κ} {op : Op ι κ} {ev h : List (Event ι κ)} (hc : Container s)
    (k : Tracks s h) (he : exec s op = some (ev, s')) : Tracks s' (h ++ ev) := by
  cases op with
  | addTimer t ms cb recurring now =>
    simp only [exec, Option.ite_none_right_eq_some, Option.some.injEq, Prod.mk.injEq] at he
    obtain ⟨ht, rfl, rfl⟩ := he
    rw [Option.isNone_iff_eq_none] at ht
    have hfresh : ∀ r, .added t r ∉ h := fun r hr => by simpa [ht] using (k.added t r).mp hr
    obtain ⟨-, hobj⟩ := addTimer_spec hc t ms cb recurring now ht
    refine ⟨k.faithful.snoc hfresh, fun u => ?_, fun u r => ?_⟩
    · rw [pending_added k.faithful hfresh u, State.timer, hobj]
      by_cases hu : u = t
      · simp [hu, Timer.create]
      · rw [Function.update_of_ne hu, ← k.pending u, State.timer]
        simp [hu]
    · rw [List.mem_append, List.mem_singleton, hobj]
      by_cases hu : u = t
      · subst hu
        simp [hfresh r, Timer.create, eq_comm]
      · simp [hu, k.added u r]
  | cancel t =>
    simp only [exec, Option.ite_none_right_eq_some] at he
    obtain ⟨ht, he⟩ := he
    obtain ⟨y, hy⟩ := Option.isSome_iff_exists.mp ht
    rcases cancel_spec hc t with ⟨u, hu, hcb, -, hobj⟩ | ⟨hu, hcb⟩ <;> rw [hu] at he <;> cases he
    · have hty : s.timer t = y := by simp [State.timer, hy]
      refine k.write hy hobj (by rw [hty]) (k.allowed_answer hcb.symm) (by simp) (fun v => ?_)
      rw [pending_cancelled v]
      by_cases hv : v = t <;> simp [hv]
    · exact k.silent rfl rfl (k.allowed_answer (by simp [hcb]))
  | refresh t now =>
    simp only [exec, Option.ite_none_right_eq_some, Option.some.injEq, Prod.mk.injEq] at he
    obtain ⟨ht, rfl, rfl⟩ := he
    obtain ⟨y, hy⟩ := Option.isSome_iff_exists.mp ht
    rcases refresh_spec hc t now with ⟨hcb, hr⟩ | ⟨hr, hcb⟩ <;> rw [hr]
    · have hty : s.timer t = y := by simp [State.timer, hy]
      refine k.write hy (rearm_objects ..) (by rw [hty]) (k.allowed_answer hcb.symm) (by simp)
        (fun v => ?_)
      rw [pending_silent (by trivial) v, ← k.pending v]
      by_cases hv : v = t <;> simp [hv]
    · exact k.silent rfl trivial (k.allowed_answer (by simp [hcb]))
  | reset t ms fromNow now =>
    simp only [exec, Option.ite_none_right_eq_some, Option.some.injEq, Prod.mk.injEq] at he
    obtain ⟨ht, rfl, rfl⟩ := he
    obtain ⟨y, hy⟩ := Option.isSome_iff_exists.mp ht
    rcases reset_spec hc t ms fromNow now with ⟨hcb, -, hobj⟩ | hr
    · have hty : s.timer t = y := by simp [State.timer, hy]
      refine k.write hy hobj (by rw [hty]) trivial (by simp) (fun v => ?_)
      rw [pending_silent (by trivial) v, ← k.pending v]
      by_cases hv : v = t <;> simp [hv]
    · rw [hr]
      exact k.silent rfl trivial trivial
  | getNextTimer now =>
    cases he
    rw [List.append_nil]
    obtain ⟨-, hobj⟩ := getNextTimer_spec hc now
    exact ⟨k.faithful, fun t => by rw [State.timer, hobj]; exact k.pending t,
      fun t r => by rw [hobj]; exact k.added t r⟩
  | listExpiredCb now tmp =>
    cases he
    obtain ⟨hem, hobj⟩ := takeExpired_spec hc now tmp
    have htimer : (s.takeExpired now tmp).2.timer = s.timer := by
      funext t
      rw [State.timer, hobj, State.timer]
    have k' : Tracks (s.takeExpired now tmp).2 h :=
      ⟨k.faithful, fun t => by rw [htimer]; exact k.pending t,
        fun t r => by rw [hobj]; exact k.added t r⟩
    have hrun := emit_tracks now _ [] _ h hem k'
    rw [htimer] at hrun
    exact hrun

theorem run_tracks {now : U64} {ops : List (Op ι κ)} {l : Life ι κ}
    (h : run step (Life.start now) ops = some l) : Container l.manager ∧ Tracks l.manager l.history := by
  refine run_preserves (P := fun l => Container l.manager ∧ Tracks l.manager l.history) ?_
    ⟨init_container now, tracks_start now⟩ h
  intro l op l' ⟨hc, k⟩ hs
  obtain ⟨⟨ev, s'⟩, he, rfl⟩ := Option.map_eq_some_iff.mp hs
  exact ⟨exec_container hc he, exec_tracks hc k he⟩

theorem run_cbs {now : U64} {ops : List (Op ι κ)} {l : Life ι κ} (h : run step (Life.start now) ops = some l) :
    l.cbs = l.history.filterMap Event.callback := by
  refine (run_preserves (P := fun l => Container l.manager ∧ l.cbs = l.history.filterMap Event.callback) ?_
    ⟨init_container now, rfl⟩ h).2
  intro l op l' ⟨hc, hcbs⟩ hs
  obtain ⟨⟨ev, s'⟩, he, rfl⟩ := Option.map_eq_some_iff.mp hs
  refine ⟨exec_container hc he, ?_⟩
  rw [List.filterMap_append, hcbs, exec_cbs hc he]

end

/-! ### What a faithful history says of the whole run -/

theorem pending_of_emitted {h past later : List (Event ι κ)} (hh : Faithful h) {t : ι} {cb : Option κ}
    (heq : h = past ++ .emitted t cb :: later) : Pending past t :=
  (hh past _ later heq).1

/-- A timer is added once. -/
theorem Faithful.added_once {h past later : List (Event ι κ)} (hh : Faithful h) {t : ι} {r r' : Bool}
    (heq : h = past ++ later) (hr : .added t r ∈ past) : .added t r' ∉ later := by
  intro hin
  obtain ⟨mid, last, rfl⟩ := List.append_of_mem hin
  have hlate : Allowed (past ++ mid) (.added t r' : Event ι κ) :=
    hh (past ++ mid) _ last (by rw [heq, List.append_assoc])
  exact hlate r (List.mem_append_left mid hr)

theorem Faithful.one_shot {h past later : List (Event ι κ)} (hh : Faithful h) {t : ι} {cb : Option κ}
    (ht : .added t false ∈ h) (heq : h = past ++ .emitted t cb :: later) (cb' : Option κ) :
    .emitted t cb' ∉ later := by
  intro hin
  obtain ⟨mid, last, rfl⟩ := List.append_of_mem hin
  have hsplit : h = (past ++ .emitted t cb :: mid) ++ .emitted t cb' :: last := by
    rw [heq, List.append_assoc, List.cons_append]
  obtain ⟨r, hr⟩ := (pending_of_emitted hh heq).1
  -- The timer was added once, so it was added as one-shot before either emission.
  have hbefore : .added t false ∈ past ++ .emitted t cb :: mid := by
    rw [hsplit] at ht
    rcases List.mem_append.mp ht with ht | ht
    · exact ht
    · exact absurd ht (hh.added_once hsplit (List.mem_append_left _ hr))
  exact (pending_of_emitted hh hsplit).2.2 hbefore cb (List.mem_append_right _ (List.mem_cons_self ..))

theorem Faithful.cancelled_silent {h past later : List (Event ι κ)} (hh : Faithful h) {t : ι}
    (heq : h = past ++ .cancelled t true :: later) (cb : Option κ) : .emitted t cb ∉ later := by
  intro hin
  obtain ⟨mid, last, rfl⟩ := List.append_of_mem hin
  have hsplit : h = (past ++ .cancelled t true :: mid) ++ .emitted t cb :: last := by
    rw [heq, List.append_assoc, List.cons_append]
  exact (pending_of_emitted hh hsplit).2.1 (List.mem_append_right _ (List.mem_cons_self ..))

/-- **The life of a timer.** What `listExpiredCb` returns is, callback by callback, what the history
says was emitted. Over a whole run a one-shot timer is emitted at most once; after
a `cancel` that answered true no callback of that timer is emitted; and `cancel` and
`refresh` answer true exactly for a timer that is pending at that point. -/
theorem lifecycle_reachable [LinearOrder ι] (now : U64) (ops : List (Op ι κ)) (l : Life ι κ)
    (h : run step (Life.start now) ops = some l) (t : ι) :
    l.cbs = l.history.filterMap Event.callback ∧
    (∀ past later cb, .added t false ∈ l.history →
      l.history = past ++ .emitted t cb :: later → ∀ cb', .emitted t cb' ∉ later) ∧
    (∀ past later, l.history = past ++ .cancelled t true :: later →
      ∀ cb, .emitted t cb ∉ later) ∧
    (∀ past ret later, l.history = past ++ .cancelled t ret :: later →
      (ret = true ↔ Pending past t)) ∧
    (∀ past ret later, l.history = past ++ .refreshed t ret :: later →
      (ret = true ↔ Pending past t)) := by
  have hh := (run_tracks h).2.faithful
  refine ⟨run_cbs h, fun past later cb ht heq => hh.one_shot ht heq, fun past later heq => hh.cancelled_silent heq,
    fun past ret later heq => hh past _ later heq, fun past ret later heq => hh past _ later heq⟩

theorem lifecycle_reachable_sample : ∃ l : Life Nat Unit,
    run step (Life.start 0) sampleOps = some l ∧
    l.cbs = l.history.filterMap Event.callback ∧
    (∀ past later cb, .added 2 false ∈ l.history →
      l.history = past ++ .emitted 2 cb :: later → ∀ cb', .emitted 2 cb' ∉ later) ∧
    (∀ past later, l.history = past ++ .cancelled 2 true :: later →
      ∀ cb, .emitted 2 cb ∉ later) ∧
    (∀ past ret later, l.history = past ++ .cancelled 2 ret :: later →
      (ret = true ↔ Pending past 2)) ∧
    (∀ past ret later, l.history = past ++ .refreshed 2 ret :: later →
      (ret = true ↔ Pending past 2)) :=
  ⟨_, rfl, lifecycle_reachable 0 sampleOps _ rfl 2⟩

end ShioSylar.TimerManager
