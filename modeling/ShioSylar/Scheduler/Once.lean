import ShioSylar.Scheduler.Steps
import ShioSylar.Scheduler.Alone

/-! One worker, and one wake-up for each suspension.

`Once` lets a fiber be put into `m_fibers` for a suspension and for no other reason: by its
creator for its first run, by `run` where it yields as READY, or by somebody else, who may do
so before the fiber is out of EXEC. `Waking` is what that makes of the queue, and with it the
scans of the one worker take free fibers (`Waking.takesFree`). -/
namespace ShioSylar.Scheduler.Workers
open Lib

variable {φ κ : Type}

def Once [DecidableEq φ] (s : State Unit φ κ) : Act Unit φ κ → Prop
  | .schedule nodes => (nodes.filterMap (·.fiber)).Nodup ∧
      ∀ f ∈ nodes.filterMap (·.fiber), s.woken f = false ∧ s.wakeable f = true
  | .yieldToReady w => ∀ f ∈ (s.pc w).fiber, s.woken f = false
  | .finish w _ => ∀ f ∈ (s.pc w).fiber, s.woken f = false
  | _ => True

instance [DecidableEq φ] (s : State Unit φ κ) : (a : Act Unit φ κ) → Decidable (Once s a)
  | .schedule nodes => inferInstanceAs (Decidable ((nodes.filterMap (·.fiber)).Nodup ∧
      ∀ f ∈ nodes.filterMap (·.fiber), s.woken f = false ∧ s.wakeable f = true))
  | .yieldToReady w => inferInstanceAs (Decidable (∀ f ∈ (s.pc w).fiber, s.woken f = false))
  | .finish w _ => inferInstanceAs (Decidable (∀ f ∈ (s.pc w).fiber, s.woken f = false))
  | .enter _ _ => isTrue trivial
  | .create _ _ => isTrue trivial
  | .work _ _ => isTrue trivial
  | .yieldToHold _ => isTrue trivial

/-- The fiber of a node that was taken, until it is switched to. -/
def Pc.taken : Pc φ κ → Option φ
  | .chosen ft => ft.bind (·.fiber)
  | .inside .entry .task f => some f
  | _ => none

/-- A fiber that was woken: it has not ended, the worker does not come back from it READY, and
it is no `cb_fiber` at rest. -/
structure Wakened (s : State Unit φ κ) (f : φ) (r : Fiber κ) : Prop where
  ended : r.ended = false
  ready : ∀ st kd, s.pc () = .inside st kd f → r.state = .ready → st = .entry
  callback : (s.worker ()).cbFiber = some f → r.state = .exec

structure Waking (s : State Unit φ κ) : Prop where
  nodup : s.queued.Nodup
  queued : ∀ f ∈ s.queued, s.woken f = true
  taken : ∀ f, (s.pc ()).taken = some f → s.woken f = true ∧ f ∉ s.queued
  woken : ∀ f, s.woken f = true → ∃ r, s.fiber f = some r ∧ Wakened s f r
  callback : ∀ g r, (s.worker ()).cbFiber = some g → s.fiber g = some r → r.state ≠ .hold

theorem start_waking : Waking (start : State Unit φ κ) :=
  ⟨List.nodup_nil, nofun, nofun, nofun, nofun⟩

/-! ### A fiber stops running -/

/-- How a fiber stops running: with a yield, or at the end of its callback. -/
inductive Ending where
  | hold | ready | returned | threw
  deriving DecidableEq

/-- What the fiber calls. -/
def Ending.act {ω : Type} (w : ω) : Ending → Act ω φ κ
  | .hold => .yieldToHold w
  | .ready => .yieldToReady w
  | .returned => .finish w false
  | .threw => .finish w true

/-- What it leaves in its record. -/
def Ending.record (r : Fiber κ) : Ending → Fiber κ
  | .hold => r
  | .ready => { r with state := .ready }
  | .returned => { r with cb := none, state := .term }
  | .threw => { r with state := .except }

/-- The callback is over. -/
def Ending.ends : Ending → Bool
  | .hold | .ready => false
  | .returned | .threw => true

theorem stop_spec [DecidableEq φ] {ω : Type} [DecidableEq ω] {thread : ω → Int} {s t : State ω φ κ} {w : ω}
    {how : Ending} (h : step thread s (how.act w) = some t) :
    ∃ kd f r, s.pc w = .inside .running kd f ∧ s.fiber f = some r ∧
      (t = (s.put f (how.record r)).goto w (.inside .leaving kd f) ∨ r.state ≠ .exec) := by
  have hleave : ∀ {op}, (∀ r r', op r = .ok r' → r' = how.record r) →
      (∀ r e, op r = .error e → r.state ≠ .exec) → s.leave w op = some t →
      ∃ kd f r, s.pc w = .inside .running kd f ∧ s.fiber f = some r ∧
        (t = (s.put f (how.record r)).goto w (.inside .leaving kd f) ∨ r.state ≠ .exec) := by
    intro op hop herr h
    unfold State.leave at h
    split at h
    · rename_i kd f hpc
      obtain ⟨r, hr, ⟨r', ho, rfl⟩ | ⟨e, ho, -⟩⟩ := modify_effect h
      · cases hop r r' ho
        exact ⟨kd, f, r, hpc, hr, .inl rfl⟩
      · exact ⟨kd, f, r, hpc, hr, .inr (herr r e ho)⟩
    · cases h
  cases how with
  | hold =>
    refine hleave (fun r r' ho => ?_) (fun r e ho => ?_) (Option.ite_none_right_eq_some.mp h).2 <;>
      unfold Fiber.yieldToHold at ho <;> split at ho <;> cases ho
    · rfl
    · assumption
  | ready =>
    refine hleave (fun r r' ho => ?_) (fun r e ho => ?_) (Option.ite_none_right_eq_some.mp h).2 <;>
      unfold Fiber.yieldToReady at ho <;> split at ho <;> cases ho
    · rfl
    · assumption
  | returned | threw =>
    refine hleave (fun r r' ho => ?_) (fun r e ho => ?_) (Option.ite_none_right_eq_some.mp h).2 <;> cases ho
    rfl

section
variable {s t : State Unit φ κ} {f : φ} {r : Fiber κ}

theorem Waking.not_woken (k : Waking s) (hr : s.fiber f = some r) (hnot : ¬ Wakened s f r) : s.woken f = false := by
  rw [Bool.eq_false_iff]
  intro hw
  obtain ⟨r', hr', hwk⟩ := k.woken f hw
  cases hr.symm.trans hr'
  exact hnot hwk

/-- A fiber of the worker's own that has not been switched to is not queued. -/
theorem Waking.own_not_queued (k : Waking s) (u : Sole s) (o : Owned s) {kd : Kind}
    (hpc : s.pc () = .inside .entry kd f) (hkd : kd ≠ .task) : f ∉ s.queued := by
  intro hq
  cases kd with
  | task => exact hkd rfl
  | callback =>
    obtain ⟨r, hr, hw⟩ := k.woken f (k.queued f hq)
    exact (u.stands_here hpc hr).2.1 (hw.callback (o.callback () .entry f hpc))
  | idle =>
    obtain ⟨it, hit, hf⟩ := List.mem_filterMap.mp hq
    exact o.not_idle ((o.queue it hit).2 f hf) () (o.idle () .entry f hpc)

/-- A `cb_fiber` at rest has not been woken. -/
theorem Waking.resting_not_woken (k : Waking s) (u : Sole s) (o : Owned s)
    (hown : (s.worker ()).cbFiber = some f) (hr : s.fiber f = some r)
    (hout : ∀ st, s.pc () ≠ .inside st .callback f) : s.woken f = false := by
  refine k.not_woken hr fun hwk => ?_
  have hinit := u.callback () f r hown hr fun w' h => by
    obtain ⟨-, st, hin⟩ := o.cb_engaged hown h
    exact hout st hin
  cases hinit.symm.trans (hwk.callback hown)

/-- A fiber that the worker is inside with, but not as its `cb_fiber`. -/
theorem Owned.not_cb (o : Owned s) {st : Stage} {kd : Kind} (hpc : s.pc () = .inside st kd f)
    (hk : kd ≠ .callback) : (s.worker ()).cbFiber ≠ some f := by
  cases kd with
  | task => exact (o.task () st f hpc).2 ()
  | callback => exact absurd rfl hk
  | idle =>
    intro hown
    cases (o.cbFiber () f hown).1.symm.trans (o.idleFiber () f (o.idle () st f hpc)).1

/-- A scan of the one worker takes a free fiber. -/
theorem Waking.takesFree [DecidableEq φ] {thread : Unit → Int} {a : Act Unit φ κ} (k : Waking s) :
    TakesFree thread s a := by
  cases a with
  | work w g =>
    intro f htakes
    unfold State.takes at htakes
    split at htakes
    · rename_i hpc
      obtain ⟨it, hit, hf⟩ := Option.bind_eq_some_iff.mp htakes
      obtain ⟨x, hx, htask⟩ := Option.bind_eq_some_iff.mp hit
      obtain ⟨hmem, -, hexec⟩ := (fetch_mem hx).2 it htask
      obtain ⟨r, hr, hw⟩ := k.woken f (k.queued f (List.mem_filterMap.mpr ⟨it, hmem, hf⟩))
      have hne : r.state ≠ .exec := by
        simpa [hf, State.isExec, hr] using hexec
      refine ⟨fun w' hown => hne (hw.callback hown), .inr fun w' hat => ?_⟩
      rw [show s.pc w' = .top from hpc] at hat
      cases hat
    · cases htakes
  | enter | create | schedule | yieldToHold | yieldToReady | finish => trivial

/-! ### One step -/

/-- One record is replaced, and the worker is inside with its fiber only. -/
theorem Waking.update [DecidableEq φ] (k : Waking s) (hfiber : t.fiber = Function.update s.fiber f (some r))
    (hnodup : t.queued.Nodup) (hqueued : ∀ f' ∈ t.queued, t.woken f' = true)
    (hwoken : ∀ f', f' ≠ f → t.woken f' = true → s.woken f' = true)
    (htaken : ∀ f', (t.pc ()).taken = some f' → t.woken f' = true ∧ f' ∉ t.queued)
    (hat : ∀ st kd f', t.pc () = .inside st kd f' → f' = f)
    (hcb : ∀ g, (t.worker ()).cbFiber = some g → g = f ∨ (s.worker ()).cbFiber = some g)
    (hown : (t.worker ()).cbFiber = some f → r.state ≠ .hold)
    (hself : t.woken f = true → Wakened t f r) : Waking t := by
  refine ⟨hnodup, hqueued, htaken, fun f' hw => ?_, fun g r' hg hr' => ?_⟩
  · by_cases hf : f' = f
    · subst hf
      exact ⟨r, by rw [hfiber, Function.update_self], hself hw⟩
    · obtain ⟨r', hr', hwk⟩ := k.woken f' (hwoken f' hf hw)
      refine ⟨r', by rw [hfiber, Function.update_of_ne hf, hr'], hwk.ended, fun st kd hpc => ?_, fun hg => ?_⟩
      · exact absurd (hat st kd f' hpc) hf
      · exact hwk.callback ((hcb f' hg).resolve_left hf)
  · by_cases hf : g = f
    · subst hf
      rw [hfiber, Function.update_self] at hr'
      cases hr'
      exact hown hg
    · rw [hfiber, Function.update_of_ne hf] at hr'
      exact k.callback g r' ((hcb g hg).resolve_left hf) hr'

/-- The worker is with no fiber. -/
theorem Waking.wander (k : Waking s) (hfiber : t.fiber = s.fiber) (hwoken : t.woken = s.woken)
    (hnodup : t.queued.Nodup) (hqueued : ∀ f ∈ t.queued, f ∈ s.queued)
    (htaken : ∀ f, (t.pc ()).taken = some f → s.woken f = true ∧ f ∉ t.queued)
    (hout : ∀ st kd f, t.pc () ≠ .inside st kd f)
    (hcb : (t.worker ()).cbFiber = (s.worker ()).cbFiber) : Waking t := by
  refine ⟨hnodup, fun f hf => ?_, fun f hf => ?_, fun f hw => ?_, fun g r hg hr => ?_⟩
  · rw [hwoken]
    exact k.queued f (hqueued f hf)
  · rw [hwoken]
    exact htaken f hf
  · rw [hwoken] at hw
    obtain ⟨r, hr, hwk⟩ := k.woken f hw
    exact ⟨r, by rw [hfiber, hr], hwk.ended, fun st kd hpc => absurd hpc (hout st kd f), fun hg =>
      hwk.callback (hcb ▸ hg)⟩
  · exact k.callback g r (hcb ▸ hg) (hfiber ▸ hr)

/-- The worker is between two tasks. -/
theorem Waking.goesOut (k : Waking s) (hpc : t.pc () = .top ∨ t.pc () = .exited) (hfiber : t.fiber = s.fiber)
    (hwoken : t.woken = s.woken) (hfibers : t.fibers = s.fibers)
    (hcb : (t.worker ()).cbFiber = (s.worker ()).cbFiber) : Waking t := by
  have hq : t.queued = s.queued := by rw [State.queued, hfibers, State.queued]
  refine k.wander hfiber hwoken (hq ▸ k.nodup) (fun f hf => hq ▸ hf) (fun f hf => ?_) (fun st kd f h => ?_) hcb
  · obtain h | h := hpc <;> rw [h] at hf <;> cases hf
  · obtain h' | h' := hpc <;> cases h'.symm.trans h

/-- The worker goes on with its fiber, and nobody is woken. -/
theorem Waking.goes [DecidableEq φ] (k : Waking s) {st : Stage} {kd : Kind}
    (hfiber : t.fiber = Function.update s.fiber f (some r)) (hfibers : t.fibers = s.fibers)
    (hwoken : t.woken = s.woken) (hpc : t.pc () = .inside st kd f)
    (htaken : (t.pc ()).taken = some f → (s.pc ()).taken = some f)
    (hcb : ∀ g, (t.worker ()).cbFiber = some g → g = f ∨ (s.worker ()).cbFiber = some g)
    (hown : (t.worker ()).cbFiber = some f → r.state ≠ .hold)
    (hself : s.woken f = true → r.ended = false ∧ (r.state = .ready → st = .entry) ∧
      ((t.worker ()).cbFiber = some f → r.state = .exec)) : Waking t := by
  have hq : t.queued = s.queued := by rw [State.queued, hfibers, State.queued]
  have hfew : ∀ f', (t.pc ()).taken = some f' → f' = f := by
    intro f' h
    rw [hpc] at h
    unfold Pc.taken at h
    split at h
    · rename_i heq
      cases heq
    · rename_i heq
      cases heq
      cases h
      rfl
    · cases h
  refine k.update hfiber (hq ▸ k.nodup) (fun f' hf' => ?_) (fun f' _ hw => hwoken ▸ hw) (fun f' hf' => ?_)
    (fun st' kd' f' h => ?_) hcb hown fun hw => ?_
  · rw [hwoken]
    exact k.queued f' (hq ▸ hf')
  · obtain rfl := hfew f' hf'
    rw [hwoken, hq]
    exact k.taken f' (htaken hf')
  · cases hpc.symm.trans h
    rfl
  · rw [hwoken] at hw
    obtain ⟨hended, hready, hexec⟩ := hself hw
    refine ⟨hended, fun st' kd' h hs => ?_, hexec⟩
    cases hpc.symm.trans h
    exact hready hs

/-- The same, with a fiber whose state stays as it is. -/
theorem Waking.stays [DecidableEq φ] (k : Waking s) {r' : Fiber κ} {st : Stage} {kd : Kind}
    (hr : s.fiber f = some r) (hfiber : t.fiber = Function.update s.fiber f (some r'))
    (hstate : r'.state = r.state) (hfibers : t.fibers = s.fibers)
    (hwoken : t.woken = s.woken) (hpc : t.pc () = .inside st kd f)
    (htaken : (t.pc ()).taken = some f → (s.pc ()).taken = some f)
    (hcb : ∀ g, (t.worker ()).cbFiber = some g → (s.worker ()).cbFiber = some g)
    (hready : Wakened s f r → r.state = .ready → st = .entry) : Waking t := by
  refine k.goes hfiber hfibers hwoken hpc htaken (fun g hg => .inr (hcb g hg)) (fun hown => ?_) fun hw => ?_
  · rw [hstate]
    exact k.callback f r (hcb f hown) hr
  · obtain ⟨r₀, hr₀, hwk⟩ := k.woken f hw
    cases hr.symm.trans hr₀
    rw [Fiber.ended, hstate]
    exact ⟨hwk.ended, hready hwk, fun hown => hwk.callback (hcb f hown)⟩

/-- The worker is done with its fiber. -/
theorem Waking.rests [DecidableEq φ] (k : Waking s) (hfiber : t.fiber = Function.update s.fiber f (some r))
    (hfibers : t.fibers = s.fibers) (hwoken : t.woken = s.woken) (hpc : t.pc () = .top)
    (hcb : ∀ g, (t.worker ()).cbFiber = some g → (s.worker ()).cbFiber = some g)
    (hown : (t.worker ()).cbFiber = some f → r.state ≠ .hold)
    (hself : s.woken f = true → r.ended = false ∧ (t.worker ()).cbFiber ≠ some f) : Waking t := by
  have hq : t.queued = s.queued := by rw [State.queued, hfibers, State.queued]
  refine k.update hfiber (hq ▸ k.nodup) (fun f' hf' => ?_) (fun f' _ hw => hwoken ▸ hw) (fun f' hf' => ?_)
    (fun st kd f' h => ?_) (fun g hg => .inr (hcb g hg)) hown fun hw => ?_
  · rw [hwoken]
    exact k.queued f' (hq ▸ hf')
  · rw [hpc] at hf'
    cases hf'
  · cases hpc.symm.trans h
  · rw [hwoken] at hw
    obtain ⟨hended, hfree⟩ := hself hw
    refine ⟨hended, fun st kd h => ?_, fun hg => absurd hg hfree⟩
    cases hpc.symm.trans h

/-- A fiber that the worker comes back from as ended has not been woken. -/
theorem Waking.ended_not_woken (k : Waking s) (hr : s.fiber f = some r) (hend : r.ended = true) :
    s.woken f = false :=
  k.not_woken hr fun hwk => nomatch hend.symm.trans hwk.ended

/-- Nothing is known of an address where no fiber is. -/
theorem Waking.absent (k : Waking s) (hf : s.fiber f = none) : s.woken f = false := by
  rw [Bool.eq_false_iff]
  intro hw
  obtain ⟨r, hr, -⟩ := k.woken f hw
  cases hf.symm.trans hr

section
variable [DecidableEq φ]

theorem Waking.enters (k : Waking s) (hf : s.fiber f = none) (r : Fiber κ) :
    Waking { s.put f r with worker := Function.update s.worker () { pc := .top, idleFiber := some f } } := by
  refine k.rests (f := f) (r := r) rfl rfl rfl ?_ ?_ ?_ fun hw => ?_
  · simp [State.pc]
  · simp
  · simp
  · cases (k.absent hf).symm.trans hw

theorem Waking.creates (k : Waking s) (hf : s.fiber f = none) (r : Fiber κ) (hr : r.state ≠ .hold) :
    Waking (s.put f r) := by
  have hne : ∀ {f'}, s.woken f' = true → f' ≠ f := by
    rintro f' hw rfl
    cases (k.absent hf).symm.trans hw
  refine ⟨k.nodup, k.queued, k.taken, fun f' hw => ?_, fun g r' hg hr' => ?_⟩
  · obtain ⟨r', hr', hwk⟩ := k.woken f' hw
    exact ⟨r', (Function.update_of_ne (hne hw) ..).trans hr', hwk.ended, hwk.ready, hwk.callback⟩
  · by_cases hg' : g = f
    · subst hg'
      cases (Function.update_self ..).symm.trans hr'
      exact hr
    · rw [show (s.put f r).fiber g = s.fiber g from Function.update_of_ne hg' ..] at hr'
      exact k.callback g r' hg hr'

/-- Fibers that can be woken and have not been are queued. -/
theorem Waking.schedules (k : Waking s) (o : Owned s) {nodes : List (FiberAndThread φ κ)}
    (hnd : (nodes.filterMap (·.fiber)).Nodup)
    (hwake : ∀ f ∈ nodes.filterMap (·.fiber), s.woken f = false ∧ s.wakeable f = true) :
    Waking (s.schedule nodes) := by
  refine ⟨?_, fun f hf => ?_, fun f hf => ?_, fun f hw => ?_, k.callback⟩
  · rw [queued_schedule]
    refine List.Nodup.append k.nodup hnd fun f hf hf' => ?_
    cases (hwake f hf').1.symm.trans (k.queued f hf)
  · rw [queued_schedule] at hf
    exact (woken_schedule s nodes f).mpr ((List.mem_append.mp hf).imp_left (k.queued f))
  · obtain ⟨hw, hq⟩ := k.taken f hf
    refine ⟨(woken_schedule s nodes f).mpr (.inl hw), fun h => ?_⟩
    rw [queued_schedule] at h
    refine (List.mem_append.mp h).elim hq fun hf' => ?_
    cases (hwake f hf').1.symm.trans hw
  · obtain hw | hf := (woken_schedule s nodes f).mp hw
    · obtain ⟨r, hr, hwk⟩ := k.woken f hw
      exact ⟨r, hr, hwk.ended, hwk.ready, hwk.callback⟩
    · obtain ⟨-, hcan⟩ := hwake f hf
      cases hr : s.fiber f with
      | none => simp [State.wakeable, hr] at hcan
      | some r =>
        rw [wakeable_iff hr] at hcan
        refine ⟨r, hr, ?_, fun st kd _ hs => ?_, fun hown => ?_⟩
        · obtain h | h | ⟨h, -⟩ := hcan <;> simp [Fiber.ended, h]
        · obtain h | h | ⟨h, -⟩ := hcan <;> cases hs.symm.trans h
        · obtain h | h | ⟨-, h⟩ := hcan
          · exact h
          · exact absurd h (k.callback f r hown hr)
          · have horigin := (o.cbFiber () f hown).1
            rw [State.origin, hr] at horigin
            cases horigin.symm.trans (congrArg some h)

omit [DecidableEq φ] in
/-- The scan takes a node out of the queue. -/
theorem Waking.scans (k : Waking s) {thread : Int} {x : Fetched φ κ} {c : Int}
    (hx : fetch thread s.isExec s.fibers = some x) :
    Waking { s.goto () (.chosen x.task) with fibers := x.fibers, activeThreadCount := c } := by
  set t : State Unit φ κ := { s.goto () (.chosen x.task) with fibers := x.fibers, activeThreadCount := c }
  have hperm : s.queued.Perm (x.task.toList.filterMap (·.fiber) ++ t.queued) := by
    rw [State.queued, State.queued, ← List.filterMap_append]
    exact (fetch_perm hx).filterMap _
  have hnd := hperm.nodup_iff.mp k.nodup
  have hpc : t.pc () = .chosen x.task := by simp [t, State.pc, State.goto]
  refine k.wander rfl rfl hnd.of_append_right (fun f hf => ?_) (fun f hf => ?_) (fun st kd f h => ?_) ?_
  · exact hperm.mem_iff.mpr (List.mem_append_right _ hf)
  · have htask : f ∈ x.task.toList.filterMap (·.fiber) := by
      rw [hpc] at hf
      obtain ⟨it, hit, hf⟩ := Option.bind_eq_some_iff.mp hf
      exact List.mem_filterMap.mpr ⟨it, by simp [hit], hf⟩
    refine ⟨k.queued f (hperm.mem_iff.mpr (List.mem_append_left _ htask)), fun h => ?_⟩
    exact List.disjoint_of_nodup_append hnd htask h
  · cases hpc.symm.trans h
  · simp [t, State.goto]

omit [DecidableEq φ] in
theorem goto_own (s : State Unit φ κ) (pc : Pc φ κ) (g : φ) (h : ((s.goto () pc).worker ()).cbFiber = some g) :
    (s.worker ()).cbFiber = some g := by
  simpa [State.goto] using h

/-- The fiber the worker runs stops running. -/
theorem Waking.stops (k : Waking s) (u : Sole s) {kd : Kind} {how : Ending}
    (hpc : s.pc () = .inside .running kd f) (hr : s.fiber f = some r)
    (hg : Once s (how.act ())) : Waking ((s.put f (how.record r)).goto () (.inside .leaving kd f)) := by
  have hexec : r.state = .exec := u.stands_here hpc hr
  have hat : f ∈ (s.pc ()).fiber := by rw [hpc]; rfl
  refine k.goes rfl rfl rfl (goto_pc ..) (fun h => ?_) (fun g hg => .inr (goto_own _ _ g hg)) (fun _ => ?_)
    fun hw => ?_
  · rw [goto_pc] at h
    cases h
  · cases how <;> simp [Ending.record, hexec]
  · cases how with
    | hold => exact ⟨by simp [Ending.record, Fiber.ended, hexec], by simp [Ending.record, hexec], fun _ => hexec⟩
    | ready => cases hw.symm.trans (hg f hat)
    | returned => cases hw.symm.trans (hg f hat)
    | threw => cases hw.symm.trans (hg f hat)

omit [DecidableEq φ] in
/-- A step that stops no fiber is the worker's own where it rewrites one. -/
theorem Drives.own {ω : Type} {a : Act ω φ κ} {w : ω} {r : Fiber κ} {st : Stage} (h : Drives a w r st)
    (hstop : ∀ how : Ending, a ≠ how.act w) : (∃ g, a = .work w g) ∧ st ≠ .running := by
  cases h with
  | ready ha => exact absurd ha (hstop .ready)
  | other ha =>
    obtain ha | ⟨threw, ha⟩ := ha
    · exact absurd ha (hstop .hold)
    · cases threw with
      | false => exact absurd ha (hstop .returned)
      | true => exact absurd ha (hstop .threw)
  | work ha hst => exact ⟨⟨_, ha⟩, hst⟩

/-- The fiber becomes EXEC, and what woke it is used up. -/
theorem Waking.swapsIn (k : Waking s) (u : Sole s) (o : Owned s) {kd : Kind}
    (hpc : s.pc () = .inside .entry kd f) :
    Waking { (s.put f { r with state := .exec }).goto () (.inside .entered kd f) with
      woken := Function.update s.woken f false } := by
  set t : State Unit φ κ := { (s.put f { r with state := .exec }).goto () (.inside .entered kd f) with
    woken := Function.update s.woken f false }
  have hpct : t.pc () = .inside .entered kd f := goto_pc ..
  have hq : f ∉ s.queued := by
    by_cases hkd : kd = .task
    · subst hkd
      exact (k.taken f (by rw [hpc]; rfl)).2
    · exact k.own_not_queued u o hpc hkd
  have hwoken : ∀ {f'}, f' ≠ f → t.woken f' = s.woken f' := fun hf => Function.update_of_ne hf ..
  refine k.update (f := f) (r := { r with state := .exec }) rfl k.nodup (fun f' hf' => ?_)
    (fun f' hf' hw => hwoken hf' ▸ hw) (fun f' hf' => ?_) (fun st kd f' h => ?_)
    (fun g hg => .inr (goto_own _ _ g hg)) (fun _ => by simp) fun hw => ?_
  · rw [hwoken (ne_of_mem_of_not_mem hf' hq)]
    exact k.queued f' hf'
  · rw [hpct] at hf'
    cases hf'
  · cases hpct.symm.trans h
    rfl
  · simp [t] at hw

theorem Waking.rewrites (k : Waking s) (u : Sole s) (o : Owned s) {st st' : Stage} {kd : Kind} {r' : Fiber κ}
    (hpc : s.pc () = .inside st kd f) (hr : s.fiber f = some r) (h : Rewrites st st' r r')
    (hst : st ≠ .running) : Waking { (s.put f r').goto () (.inside st' kd f) with
      woken := if st = .entry then Function.update s.woken f false else s.woken } := by
  have hready : st ≠ .entry → Wakened s f r → r.state = .ready → st' = .entry := fun hne hwk hs =>
    absurd (hwk.ready st kd hpc hs) hne
  cases h with
  | swapIn hne => exact k.swapsIn u o hpc
  | switchTo hsaved =>
    exact k.stays hr rfl rfl rfl rfl (goto_pc ..) nofun (goto_own _ _) (hready nofun)
  | switchFrom =>
    exact k.stays hr rfl rfl rfl rfl (goto_pc ..) nofun (goto_own _ _) (hready nofun)
  | yieldToHold | yieldToReady | term | except => exact absurd rfl hst

/-- A fiber that yielded as READY is queued, by the worker that comes back from it. -/
theorem Waking.readies (k : Waking s) (o : Owned s) {kd : Kind} (hpc : s.pc () = .inside .check kd f)
    (hr : s.fiber f = some r) (hready : r.state = .ready) :
    Waking ((s.schedule [{ fiber := some f }]).leaves () kd) := by
  have hw : s.woken f = false := k.not_woken hr fun hwk => nomatch hwk.ready .check kd hpc hready
  have hfree : ∀ g, (((s.schedule [{ fiber := some f }]).leaves () kd).worker ()).cbFiber = some g →
      g ≠ f ∧ (s.worker ()).cbFiber = some g := by
    intro g hg
    simp only [State.leaves, Function.update_self, State.schedule] at hg
    split at hg
    · cases hg
    · rename_i hkd
      refine ⟨?_, hg⟩
      rintro rfl
      exact o.not_cb hpc hkd hg
  have hq : ((s.schedule [{ fiber := some f }]).leaves () kd).queued = s.queued ++ [f] :=
    queued_schedule s [{ fiber := some f }]
  have hwoken : ∀ f', ((s.schedule [{ fiber := some f }]).leaves () kd).woken f' = true ↔
      s.woken f' = true ∨ f' ∈ [f] := woken_schedule s [{ fiber := some f }]
  have htop : ((s.schedule [{ fiber := some f }]).leaves () kd).pc () = .top := by
    simp [State.pc, State.leaves]
  refine k.update (f := f) (r := r) (update_put hr) ?_ (fun f' hf' => ?_) (fun f' hf' hw' => ?_) (fun f' hf' => ?_)
    (fun st kd f' h => ?_) (fun g hg => .inr (hfree g hg).2) (fun hg => absurd rfl (hfree f hg).1) fun _ => ?_
  · rw [hq]
    refine List.Nodup.append k.nodup (List.nodup_singleton f) fun f' hf' h => ?_
    cases List.mem_singleton.mp h
    cases hw.symm.trans (k.queued f hf')
  · rw [hq] at hf'
    exact (hwoken f').mpr ((List.mem_append.mp hf').imp_left (k.queued f'))
  · exact ((hwoken f').mp hw').resolve_right fun h => hf' (List.mem_singleton.mp h)
  · rw [htop] at hf'
    cases hf'
  · cases htop.symm.trans h
  · refine ⟨by simp [Fiber.ended, hready], fun st kd h => ?_, fun hg => absurd rfl (hfree f hg).1⟩
    cases htop.symm.trans h

omit [DecidableEq φ] in
/-- The `cb_fiber` of a worker that is done with its fiber. -/
theorem leaves_own (s : State Unit φ κ) (kd : Kind) (g : φ) (h : ((s.leaves () kd).worker ()).cbFiber = some g) :
    kd ≠ .callback ∧ (s.worker ()).cbFiber = some g := by
  simpa [State.leaves] using h

theorem Waking.step {thread : Unit → Int} {a : Act Unit φ κ} (k : Waking s) (u : Sole s) (o : Owned s)
    (hg : Once s a) (h : step thread s a = some t) : Waking t := by
  by_cases hstop : ∃ how : Ending, a = how.act ()
  · obtain ⟨how, rfl⟩ := hstop
    obtain ⟨kd, f, r, hpc, hr, rfl | hne⟩ := stop_spec h
    · exact k.stops u hpc hr hg
    · exact absurd (u.stands_here hpc hr) hne
  cases step_effect h with
  | fails hfails => exact absurd hfails (u.not_fails o)
  | enters hpc hi => exact k.enters hi _
  | creates hf => exact k.creates hf _ (by simp)
  | schedules hok => exact k.schedules o hg.1 hg.2
  | scans hpc hx => exact k.scans hx
  | @runs w g ft f hpc hrun =>
    have hf : ft.fiber = some f := (Option.filter_eq_some_iff.mp hrun).1
    have hat : (s.pc ()).fiber = some f := by rw [hpc]; exact hf
    obtain ⟨r, hr, -⟩ := u.stands () f ⟨hat, fun _ _ => by
      simpa [State.ended] using (Option.filter_eq_some_iff.mp hrun).2⟩
    refine k.stays hr (update_put hr) rfl rfl rfl (goto_pc ..) (fun _ => ?_) (goto_own _ _) fun _ _ => rfl
    rw [hpc]
    exact hf
  | @resets w g ft cb f r r' hpc hrun hcb hown hr hreset =>
    obtain ⟨-, hinit, -⟩ := reset_origin hreset
    refine k.goes (r := r') rfl rfl rfl (goto_pc ..) (fun h => by cases h) (fun g hg => .inr (goto_own _ _ g hg))
      (fun _ => by simp [hinit]) fun hw => ?_
    cases (k.resting_not_woken u o hown hr fun st hin => by cases hpc.symm.trans hin).symm.trans hw
  | @makes w g ft cb hpc hrun hcb hown hnew =>
    set t : State Unit φ κ := { s.put g { cb := some cb, origin := .callback } with
      worker := Function.update s.worker w { s.worker w with pc := .inside .entry .callback g, cbFiber := some g } }
    have hpct : t.pc () = .inside .entry .callback g := by simp [t, State.pc]
    refine k.goes (f := g) (r := { cb := some cb, origin := .callback }) rfl rfl rfl hpct (fun h => ?_)
      (fun g' hg' => ?_) (fun _ => by simp) fun hw => ?_
    · rw [hpct] at h
      cases h
    · exact .inl (by simpa [t] using hg'.symm)
    · cases (k.absent hnew).symm.trans hw
  | discards hpc hrun hcb =>
    exact k.goesOut (by simp [State.pc, State.goto]) rfl rfl rfl (by simp [State.goto])
  | exits hpc hown hterm =>
    exact k.goesOut (by simp [State.pc, State.goto]) rfl rfl rfl (by simp [State.goto])
  | @idles w g i hpc hown hterm =>
    obtain ⟨r, hr, -⟩ := Option.map_eq_some_iff.mp (o.idleFiber () i hown).1
    exact k.stays hr (update_put hr) rfl rfl rfl (goto_pc ..) (fun h => by cases h) (goto_own _ _) fun _ _ => rfl
  | rewrites hpc hr hrw hthrew hact =>
    exact k.rewrites u o hpc hr hrw (hact.own fun how ha => hstop ⟨how, ha⟩).2
  | @backs w g kd f hpc =>
    obtain ⟨r, hr, -⟩ := u.here hpc
    exact k.stays hr (update_put hr) rfl rfl rfl (goto_pc ..) (fun h => by cases h) (goto_own _ _) fun hwk hs =>
      by cases hwk.ready .back kd hpc hs
  | readies hpc hr hready hk => exact k.readies o hpc hr hready
  | ends hpc hr hend hk =>
    exact k.goesOut (by simp [State.pc, State.goto]) rfl rfl rfl (by simp [State.goto])
  | @empties w g f r hpc hr hend =>
    refine k.rests (f := f) (r := { r with cb := none, saved := true, state := .init }) rfl rfl rfl
      (goto_pc ..) (goto_own _ _) (fun _ => by simp) fun hw => ?_
    cases (k.ended_not_woken hr hend).symm.trans hw
  | @checks w g kd f r hpc hr hready hend =>
    exact k.stays hr (update_put hr) rfl rfl rfl (goto_pc ..) (fun h => by cases h) (goto_own _ _) fun hwk hs =>
      by cases hwk.ready .check kd hpc hs
  | @holds w g kd f r hpc hr =>
    have hfree : (((s.put f { r with state := .hold }).leaves () kd).worker ()).cbFiber ≠ some f := by
      intro hg
      obtain ⟨hk, hown⟩ := leaves_own _ kd f hg
      exact o.not_cb hpc hk hown
    refine k.rests (f := f) (r := { r with state := .hold }) rfl rfl rfl (by simp [State.pc, State.leaves])
      (fun g hg => (leaves_own _ kd g hg).2) (fun hg => absurd hg hfree) fun _ => ?_
    exact ⟨by simp [Fiber.ended], hfree⟩

/-! ### Every reachable state -/

/-- What holds in every run of the one worker with one wake-up for each suspension. -/
structure Orderly (s : State Unit φ κ) : Prop where
  owned : Owned s
  sole : Sole s
  waking : Waking s

omit [DecidableEq φ] in
theorem start_orderly : Orderly (start : State Unit φ κ) := ⟨start_owned, start_sole, start_waking⟩

theorem Orderly.step {thread : Unit → Int} {a : Act Unit φ κ} (k : Orderly s) (hg : Once s a)
    (h : Workers.step thread s a = some t) : Orderly t :=
  ⟨k.owned.step k.waking.takesFree (step_effect h), k.sole.step k.owned k.waking.takesFree (step_effect h),
    k.waking.step k.sole k.owned hg h⟩

end

end

end ShioSylar.Scheduler.Workers
