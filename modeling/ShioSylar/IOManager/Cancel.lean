import ShioSylar.IOManager.Idle
import ShioSylar.Scheduler.Brought

/-! Cancelled timers (`Timer::cancel` against `IOManager::idle`).

`listExpiredCb` copies the callback of a timer out of the manager, and `cancel` does not reach
the copy: a recurring timer that is cancelled before its copy is started runs once more
(`starts_cancelled`). Nothing else escapes: in every run, what a worker starts was taken out before the
`cancel` that answered true, and a one-shot timer that was cancelled never runs
(`cancelled_reachable`). That rests on where the callbacks of the scheduler come from
(`Carried`) and on the history of the timers. -/
namespace ShioSylar.IOManager.Idle
open Scheduler Lib
open TimerManager (U64)

section
variable {ω τ φ ι κ : Type}

def Job.callback : Job ι κ → κ
  | .task cb | .timer _ _ cb => cb

/-- The copy was taken where it says. -/
def Job.From (h : List (TimerManager.Event ι κ)) : Job ι κ → Prop
  | .task _ => True
  | .timer t n _ => ∃ cb, h[n]? = some (.emitted t cb)

/-- Every copy that is held, queued or started was taken. -/
structure Carried (s : State ω τ φ ι κ) : Prop where
  run : Workers.Brought (Job.From s.life.history) s.run
  held : ∀ w b cbs, s.idle w = .expired b cbs → ∀ ft ∈ cbs, ∀ j, ft.cb = some j → j.From s.life.history
  started : ∀ t n, (t, n) ∈ s.started → ∃ cb, s.life.history[n]? = some (.emitted t cb)

theorem init_carried [LinearOrder ι] (now : U64) : Carried (State.init now : State ω τ φ ι κ) :=
  ⟨Workers.start_brought, fun _ _ _ h => (nomatch h), fun _ _ h => (nomatch h)⟩

theorem getElem?_grow {h h' ev : List (TimerManager.Event ι κ)} {n : Nat} {e : TimerManager.Event ι κ} (hh : h' = h ++ ev)
    (he : h[n]? = some e) : h'[n]? = some e := by
  obtain ⟨hn, -⟩ := List.getElem?_eq_some_iff.mp he
  rw [hh, List.getElem?_append_left hn, he]

theorem Job.From.grow {h h' ev : List (TimerManager.Event ι κ)} (hh : h' = h ++ ev) {j : Job ι κ} (hj : j.From h) :
    j.From h' := by
  cases j with
  | task cb => trivial
  | timer t n cb =>
    obtain ⟨c, hc⟩ := hj
    exact ⟨c, getElem?_grow hh hc⟩

variable {s t : State ω τ φ ι κ} {w : ω}

/-- Nothing is taken out or started. -/
theorem Carried.frame (k : Carried s) {ev : List (TimerManager.Event ι κ)}
    (hrun : Workers.Brought (Job.From s.life.history) t.run) (hh : t.life.history = s.life.history ++ ev)
    (hidle : ∀ w b cbs, t.idle w = .expired b cbs → s.idle w = .expired b cbs)
    (hstarted : t.started = s.started) : Carried t :=
  ⟨hrun.mono fun _ hj => hj.grow hh, fun w b cbs hw ft hft j hj => (k.held w b cbs (hidle w b cbs hw) ft hft j hj).grow hh,
    fun u n hn => by
      obtain ⟨cb, hcb⟩ := k.started u n (hstarted ▸ hn)
      exact ⟨cb, getElem?_grow hh hcb⟩⟩

/-- What user code puts in is no copy. -/
theorem brings_task {g : Workers.Act ω φ κ} {h : List (TimerManager.Event ι κ)} {j : Job ι κ}
    (hj : (mapAct Job.task g).Brings j) : j.From h := by
  cases g with
  | create f cb =>
    obtain rfl : .task cb = j := hj
    trivial
  | schedule nodes =>
    obtain ⟨ft, hft, hcb⟩ := hj
    obtain ⟨ft', -, rfl⟩ := List.mem_map.mp hft
    obtain ⟨cb, -, rfl⟩ := Option.map_eq_some_iff.mp hcb
    trivial
  | enter w i => cases hj
  | work w g => cases hj
  | yieldToHold w => cases hj
  | yieldToReady w => cases hj
  | finish w threw => cases hj

/-- What is started was in the fiber that is switched to. -/
theorem Carried.starts (k : Carried s) {b : Workers.Act ω φ (Job ι κ)} {u : ι} {n : Nat}
    (h : (u, n) ∈ s.starts b) : ∃ cb, s.life.history[n]? = some (.emitted u cb) := by
  unfold State.starts at h
  split at h
  · split at h
    · rename_i f hpc
      split at h
      · rename_i t' n' cb hcb
        cases List.mem_singleton.mp h
        obtain ⟨r, hr, hj⟩ := Option.bind_eq_some_iff.mp hcb
        exact k.run.fiber f r _ hr hj
      · cases h
    · cases h
  · cases h

/-! ### Every run -/

theorem step_history [LinearOrder ι] {l l' : TimerManager.Life ι κ} {op : TimerManager.Op ι κ}
    (h : TimerManager.step l op = some l') : ∃ ev, l'.history = l.history ++ ev := by
  obtain ⟨r, -, rfl⟩ := Option.map_eq_some_iff.mp h
  exact ⟨r.1, rfl⟩

section
variable [LinearOrder ι]

/-- The copies stand in the history where they say. -/
theorem copies_from {now : U64} {tmp : ι} {l : TimerManager.Life ι κ}
    (h : TimerManager.step s.life (.listExpiredCb now tmp) = some l) :
    ∀ ft ∈ s.copies now tmp, ∀ j, ft.cb = some j → j.From l.history := by
  intro ft hft j hj
  obtain ⟨⟨⟨u, c⟩, n⟩, he, rfl⟩ := List.mem_map.mp hft
  obtain ⟨cb, -, rfl⟩ := Option.map_eq_some_iff.mp hj
  obtain ⟨hle, hget⟩ := List.mem_zipIdx_iff_le_and_getElem?_sub.mp he
  have hl : l.history = s.life.history ++ (s.life.manager.takeExpired now tmp).1.map fun u =>
      .emitted u (s.life.manager.timer u).cb := by
    obtain ⟨r, hr, rfl⟩ := Option.map_eq_some_iff.mp h
    cases hr
    rfl
  refine ⟨(s.life.manager.timer u).cb, ?_⟩
  rw [hl, List.getElem?_append_right hle, List.getElem?_map, (List.getElem?_zip_eq_some.mp hget).1, Option.map_some]

/-- The callbacks that are copied are those that `listExpiredCb` puts into `cbs`, in order and number. -/
theorem copies_cbs (hc : TimerManager.Container s.life.manager) (now : U64) (tmp : ι) :
    (s.copies now tmp).map (fun ft => ft.cb.map Job.callback) = (s.life.manager.listExpiredCb now tmp []).1 := by
  have hcb : ∀ e : (ι × Option κ) × Nat,
      (FiberAndThread.ofCbPtr (φ := φ) (e.1.2.map (Job.timer e.1.1 e.2)) (-1)).1.cb.map Job.callback = e.1.2 := by
    intro e
    show (e.1.2.map (Job.timer e.1.1 e.2)).map Job.callback = e.1.2
    rw [Option.map_map]
    exact Option.map_id_apply
  have hlen : (s.life.manager.listExpiredCb now tmp []).1.length ≤ (s.life.manager.takeExpired now tmp).1.length := by
    rw [TimerManager.listExpiredCb_cbs hc, List.length_map]
  have hsplit : (fun e : (ι × Option κ) × Nat => e.1.2) = Prod.snd ∘ Prod.fst := rfl
  unfold State.copies
  rw [List.map_map]
  refine (List.map_congr_left fun e _ => hcb e).trans ?_
  rw [hsplit, ← List.map_map, List.zipIdx_map_fst, List.map_snd_zip hlen]

variable [DecidableEq ω] [DecidableEq τ] [DecidableEq φ] {thread : ω → Int}

omit [DecidableEq ω] [DecidableEq τ] [DecidableEq φ] [LinearOrder ι] in
theorem Carried.reads {x : ω ⊕ τ} {q : Option Asking} (k : Carried s) (h : Reads s x q t) : Carried t :=
  k.frame (by rw [h.run]; exact k.run) (h.history.trans (List.append_nil _).symm) h.expired h.started

theorem Carried.step {a : Act ω τ φ ι κ} (k : Carried s) (h : Effect thread s a t) : Carried t := by
  have hsame : s.life.history = s.life.history ++ [] := (List.append_nil _).symm
  cases h with
  | @works a b r hb hok he =>
    refine ⟨k.run.step (fun j hj => brings_task (hb ▸ hj)) he,
      fun w c cbs hw => k.held w c cbs (begins_expired hw), fun u n hn => ?_⟩
    obtain hn | hn := List.mem_append.mp hn
    · exact k.started u n hn
    · exact k.starts hn
  | @leaves _ b w r hidle hmover hnot he hread =>
    refine k.frame (k.run.step (fun j hj => ?_) he) hsame (fun _ _ _ h => h) rfl
    cases b <;> cases hmover <;> cases hj
  | @pushes x nodes nodes' hn he =>
    refine k.frame (k.run.step (fun j hj => ?_) he) hsame (fun _ _ _ h => h) rfl
    exact brings_task (g := .schedule nodes) (hn ▸ hj)
  | checks hx => exact k.frame k.run hsame (fun _ _ _ h => h) rfl
  | writes hx => exact k.frame k.run hsame (fun _ _ _ h => h) rfl
  | @times x op l hop hl =>
    obtain ⟨ev, hev⟩ := step_history hl
    exact k.frame k.run hev (fun _ _ _ h => h) rfl
  | @touches _ x op ans u nodes hop hn he ha =>
    refine k.frame (k.run.step (fun j hj => ?_) he) hsame (fun _ _ _ h => h) rfl
    exact brings_task (g := .schedule (u.fibers ())) (hn ▸ hj)
  | flags ha => exact k.frame k.run hsame (fun _ _ _ h => h) rfl
  | asks hy => exact k.frame k.run hsame (fun _ _ _ h => h) rfl
  | reads hq hres => exact k.reads (look_reads hq _)
  | answers hq hres hb => exact k.reads (look_reads hq _)
  | wakes hidle hw hpipe =>
    exact k.frame k.run hsame (fun _ _ _ h => update_expired h nofun) rfl
  | @expires w now tmp tickled l hidle hw hl =>
    obtain ⟨ev, hev⟩ := step_history hl
    refine ⟨k.run.mono fun _ hj => hj.grow hev, fun v b cbs hv => ?_, fun u n hn => ?_⟩
    · by_cases hvw : v = w
      · subst hvw
        simp only [State.note, Function.update_self] at hv
        split at hv
        · cases hv
        · cases hv
          exact copies_from hl
      · simp only [State.note, Function.update_of_ne hvw] at hv
        exact fun ft hft j hj => (k.held v b cbs hv ft hft j hj).grow hev
    · obtain ⟨cb, hcb⟩ := k.started u n hn
      exact ⟨cb, getElem?_grow hev hcb⟩
  | @puts w tickled cbs hidle hw he =>
    refine k.frame (k.run.step (fun j hj => ?_) he) hsame (fun _ _ _ h => update_expired h nofun) rfl
    obtain ⟨ft, hft, hcb⟩ := hj
    exact k.held w tickled cbs hw ft hft j hcb
  | drains hidle hw => exact k.frame k.run hsame (fun _ _ _ h => update_expired h nofun) rfl

theorem cancel_invariant {now : U64} {acts : List (Act ω τ φ ι κ)}
    (h : run (step thread) (State.init now) acts = some s) :
    Carried s ∧ TimerManager.Container s.life.manager ∧ TimerManager.Tracks s.life.manager s.life.history := by
  refine run_preserves (P := fun s => Carried s ∧ TimerManager.Container s.life.manager ∧
    TimerManager.Tracks s.life.manager s.life.history) (fun s a t k h => ?_)
    ⟨init_carried now, TimerManager.init_container now, TimerManager.tracks_start now⟩ h
  obtain ⟨k, c, tr⟩ := k
  refine ⟨k.step (step_effect h), ?_⟩
  obtain heq | ⟨op, hop⟩ := (step_effect h).life
  · rw [heq]
    exact ⟨c, tr⟩
  · obtain ⟨⟨ev, m⟩, he, hl⟩ := Option.map_eq_some_iff.mp hop
    rw [← hl]
    exact ⟨TimerManager.exec_container c he, TimerManager.exec_tracks c tr he⟩

/-- What `idle` is to schedule for the timers, in every reachable state. -/
theorem copies_reachable {now : U64} {acts : List (Act ω τ φ ι κ)} (h : run (step thread) (State.init now) acts = some s)
    (rd : U64) (tmp : ι) :
    (s.copies rd tmp).map (fun ft => ft.cb.map Job.callback) = (s.life.manager.listExpiredCb rd tmp []).1 :=
  copies_cbs (cancel_invariant h).2.1 rd tmp

end

/-- A timer that `cancel` answered true for was taken out before or not at all, and a one-shot
timer not at all. -/
theorem cancelled_before {h : List (TimerManager.Event ι κ)} (hh : TimerManager.Faithful h) {u : ι} {m n : Nat}
    {cb : Option κ} (hm : h[m]? = some (.cancelled u true)) (hn : h[n]? = some (.emitted u cb)) :
    n < m ∧ .added u false ∉ h := by
  obtain ⟨hmlt, hmget⟩ := List.getElem?_eq_some_iff.mp hm
  obtain ⟨hnlt, hnget⟩ := List.getElem?_eq_some_iff.mp hn
  have hsplit : h = h.take m ++ .cancelled u true :: h.drop (m + 1) := by
    rw [← hmget, List.cons_getElem_drop_succ, List.take_append_drop]
  have hlt : n < m := by
    by_contra hle
    have hne : m ≠ n := by
      rintro rfl
      cases hm.symm.trans hn
    refine hh.cancelled_silent hsplit cb (List.mem_iff_getElem?.mpr ⟨n - (m + 1), ?_⟩)
    rw [List.getElem?_drop, show m + 1 + (n - (m + 1)) = n by omega, hn]
  refine ⟨hlt, fun hadd => ?_⟩
  obtain ⟨⟨r, hr⟩, -, hpend⟩ := (hh (h.take m) _ _ hsplit).mp rfl
  have hbefore : .added u false ∈ h.take m := by
    rw [hsplit] at hadd
    obtain hadd | hadd := List.mem_append.mp hadd
    · exact hadd
    · exact absurd hadd (hh.added_once hsplit hr)
  refine hpend hbefore cb (List.mem_iff_getElem?.mpr ⟨n, ?_⟩)
  rw [List.getElem?_take_of_lt hlt, hn]

variable [LinearOrder ι] [DecidableEq ω] [DecidableEq τ] [DecidableEq φ]

/-- **What is started of a cancelled timer.** After `cancel` has answered true for a timer, a
worker starts of its callback only what `listExpiredCb` had taken out before, and nothing if the
timer is one-shot. -/
theorem cancelled_reachable (thread : ω → Int) (now : U64) (acts : List (Act ω τ φ ι κ)) (s : State ω τ φ ι κ)
    (h : run (step thread) (State.init now) acts = some s) (u : ι) (m : Nat)
    (hm : s.life.history[m]? = some (.cancelled u true)) :
    (∀ n, (u, n) ∈ s.started → n < m ∧ ∃ cb, s.life.history[n]? = some (.emitted u cb)) ∧
      (.added u false ∈ s.life.history → ∀ n, (u, n) ∉ s.started) := by
  obtain ⟨k, -, tr⟩ := cancel_invariant h
  refine ⟨fun n hn => ?_, fun hadd n hn => ?_⟩
  · obtain ⟨cb, hcb⟩ := k.started u n hn
    exact ⟨(cancelled_before tr.faithful hm hcb).1, cb, hcb⟩
  · obtain ⟨cb, hcb⟩ := k.started u n hn
    exact (cancelled_before tr.faithful hm hcb).2 hadd

end

/-- A recurring timer expires, its callback is in the queue, and the main thread cancels it. -/
def cancelActs : List (Act Unit Unit Nat Nat Nat) :=
  [.timer (.inr ()) (.addTimer 1 5 7 true 0), .tickle (.inr ()), .worker (.enter () 10), .worker (.work () 20),
    .worker (.work () 20), .worker (.work () 20), .worker (.work () 20), .read (.inl ()) 5, .wake () false,
    .expire () 5 2, .put (), .timer (.inr ()) (.cancel 1)]

/-- The worker leaves `idle`, takes the callback and starts it. -/
def startActs : List (Act Unit Unit Nat Nat Nat) :=
  [.tickle (.inl ()), .tickle (.inl ()), .swapOut (), .worker (.work () 20), .worker (.work () 20),
    .worker (.work () 20), .worker (.work () 20), .worker (.work () 20), .worker (.work () 20),
    .worker (.work () 20), .worker (.work () 20)]

deriving instance DecidableEq for TimerManager.Event

/-- The callback of the cancelled timer runs. -/
theorem starts_cancelled : ∃ s u, run (step fun _ : Unit => 0) (State.init 0) cancelActs = some s ∧
    s.life.history[2]? = some (.cancelled 1 true) ∧ s.started = [] ∧
    run (step fun _ : Unit => 0) s startActs = some u ∧ u.started = [(1, 1)] := by
  have hrun : (run (step fun _ : Unit => 0) (State.init 0) cancelActs).any (fun s =>
      s.life.history[2]? = some (.cancelled 1 true) && s.started = [] &&
        (run (step fun _ : Unit => 0) s startActs).any fun u => u.started = [(1, 1)]) = true := by
    decide +kernel
  obtain ⟨s, hs, hcheck⟩ := Option.any_eq_true .. |>.mp hrun
  simp only [Bool.and_eq_true, decide_eq_true_eq] at hcheck
  obtain ⟨⟨hcancel, hnone⟩, hlater⟩ := hcheck
  obtain ⟨u, hu, hstarted⟩ := Option.any_eq_true .. |>.mp hlater
  exact ⟨s, u, hs, hcancel, hnone, hu, of_decide_eq_true hstarted⟩

theorem cancelled_reachable_sample : ∃ s,
    run (step fun _ : Unit => 0) (State.init 0) (cancelActs ++ startActs) = some s ∧
    (∀ n, (1, n) ∈ s.started → n < 2 ∧ ∃ cb, s.life.history[n]? = some (.emitted 1 cb)) ∧
      (.added 1 false ∈ s.life.history → ∀ n, (1, n) ∉ s.started) := by
  have hrun : (run (step fun _ : Unit => 0) (State.init 0) (cancelActs ++ startActs)).any
      (fun s => s.life.history[2]? = some (.cancelled 1 true)) = true := by decide +kernel
  obtain ⟨s, hs, hcancel⟩ := Option.any_eq_true .. |>.mp hrun
  exact ⟨s, hs, cancelled_reachable (fun _ : Unit => 0) 0 (cancelActs ++ startActs) s hs 1 2
    (of_decide_eq_true hcancel)⟩

end ShioSylar.IOManager.Idle
