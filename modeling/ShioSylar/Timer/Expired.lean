import ShioSylar.Timer.Deadline

/-! What `listExpiredCb` takes out.

The cut is found by `lower_bound` with a temporary timer that is compared by its address
where the deadlines are equal, and then moved over the timers due exactly now. So the
address decides nothing: in a sorted container the timers before the cut are those whose
deadline is not after `now` (`expiredEnd_spec`), and all of them after a rollover. The
loop then puts recurring timers back into the very container it was cut from; the others
keep their times and their order (`emit_others`). -/
namespace ShioSylar.TimerManager
open Lib OrderedSet

variable {ι κ : Type} [LinearOrder ι]

/-- The timers that are due: all of them if the clock went back far enough. -/
def State.due (s : State ι κ) (now : U64) (t : ι) : Bool :=
  (s.detectClockRollover now).1 || decide ((s.timer t).next ≤ now)

theorem State.next_le_of_less {s : State ι κ} {a b : ι} (h : s.less a b = true) :
    (s.timer a).next ≤ (s.timer b).next := by
  rw [State.less_iff] at h
  rcases h with hlt | ⟨heq, -⟩
  · exact BitVec.le_of_lt hlt
  · exact BitVec.le_of_eq heq

/-- The due timers come first. -/
theorem due_prefix {s : State ι κ} (h : Container s) (now : U64) :
    s.timers.takeWhile (s.due now) = s.timers.filter (s.due now) ∧
      s.timers.dropWhile (s.due now) = s.timers.filter fun t => !s.due now t := by
  have hmono : s.timers.Pairwise fun a b => s.due now b = true → s.due now a = true := by
    refine List.Pairwise.imp ?_ h.sorted
    intro a b hab hb
    rw [State.due, Bool.or_eq_true, decide_eq_true_iff] at hb ⊢
    exact hb.imp id (BitVec.le_trans (State.next_le_of_less hab))
  exact ⟨takeWhile_eq_filter hmono, dropWhile_eq_filter hmono⟩

/-- The cut without a rollover: wherever the temporary timer lies, it is the end of the
timers whose deadline is not after `now`. -/
theorem expiredEnd_spec {s : State ι κ} (hs : Sorted s.less s.timers) (now : U64) (tmp : ι) :
    s.expiredEnd false now tmp =
      (s.timers.takeWhile fun t => decide ((s.timer t).next ≤ now)).length := by
  let before : ι → Bool := fun t => comparator (s.ref t) (some ⟨now, tmp⟩)
  have hbefore : ∀ t, before t = true ↔
      (s.timer t).next < now ∨ ((s.timer t).next = now ∧ t < tmp) := fun t => comparator_some _ _
  have htake : ∀ t ∈ s.timers.takeWhile before, decide ((s.timer t).next ≤ now) = true := by
    intro t ht
    have hb := (hbefore t).mp (List.mem_takeWhile_imp ht)
    rw [decide_eq_true_iff]
    rcases hb with hlt | ⟨heq, -⟩
    · exact BitVec.le_of_lt hlt
    · exact BitVec.le_of_eq heq
  -- behind the lower bound no deadline is before `now`, so "not after" means "exactly"
  have hdrop : ∀ t ∈ s.timers.dropWhile before, ¬ (s.timer t).next < now := by
    have hmono : s.timers.Pairwise fun a b => before b = true → before a = true := by
      refine List.Pairwise.imp ?_ hs
      intro a b hab hb
      rw [hbefore] at hb ⊢
      rw [State.less_iff] at hab
      rcases hab with hab | ⟨hab, hab'⟩ <;> rcases hb with hb | ⟨hb, hb'⟩
      · exact .inl (BitVec.lt_trans hab hb)
      · exact .inl (hb ▸ hab)
      · exact .inl (hab ▸ hb)
      · exact .inr ⟨hab.trans hb, lt_trans hab' hb'⟩
    intro t ht hlt
    have hin : t ∈ s.timers.takeWhile before := by
      rw [takeWhile_eq_filter hmono, List.mem_filter, hbefore]
      exact ⟨(List.dropWhile_sublist _).subset ht, .inl hlt⟩
    have hnd := List.nodup_append.mp
      (List.takeWhile_append_dropWhile (p := before) (l := s.timers) ▸ hs.nodup s.less_order)
    exact hnd.2.2 t hin t ht rfl
  have hsame : (s.timers.dropWhile before).takeWhile (fun t => (s.timer t).next == now) =
      (s.timers.dropWhile before).takeWhile fun t => decide ((s.timer t).next ≤ now) := by
    refine takeWhile_congr fun t ht => ?_
    rw [Bool.eq_iff_iff, beq_iff_eq, decide_eq_true_iff]
    refine ⟨BitVec.le_of_eq, fun hle => ?_⟩
    exact BitVec.le_antisymm hle (BitVec.not_lt.mp (hdrop t ht))
  show (s.timers.takeWhile before).length +
    ((s.timers.drop (s.timers.takeWhile before).length).takeWhile _).length = _
  conv_rhs => rw [← List.takeWhile_append_dropWhile (p := before) (l := s.timers)]
  rw [List.takeWhile_append_of_pos htake, List.length_append, ← hsame, drop_takeWhile]

/-- The first half of `listExpiredCb` cuts the due timers off. -/
theorem takeExpired_due {s : State ι κ} (h : Container s) (now : U64) (tmp : ι) :
    ∃ p, s.takeExpired now tmp = (s.timers.filter (s.due now),
      { s with previouseTime := p, timers := s.timers.filter fun t => !s.due now t }) := by
  have hpre := due_prefix h now
  rw [← hpre.1, ← hpre.2]
  cases hl : s.timers with
  | nil =>
    refine ⟨s.previouseTime, ?_⟩
    rw [State.takeExpired, hl]
    exact congrArg (Prod.mk []) (by rw [List.dropWhile_nil, ← hl])
  | cons first rest =>
    refine ⟨now, ?_⟩
    simp only [State.takeExpired, hl]
    split
    · rename_i hearly
      rw [Bool.and_eq_true, Bool.not_eq_true', decide_eq_true_iff] at hearly
      have hfirst : ¬ s.due now first = true := by
        rw [State.due, hearly.1, Bool.false_or, decide_eq_true_iff]
        exact BitVec.not_le.mpr hearly.2
      rw [List.takeWhile_cons_of_neg hfirst, List.dropWhile_cons_of_neg hfirst, ← hl]
      rfl
    · have hend : s.expiredEnd (s.detectClockRollover now).1 now tmp =
          (s.timers.takeWhile (s.due now)).length := by
        cases hroll : (s.detectClockRollover now).1 with
        | false =>
          rw [expiredEnd_spec h.sorted]
          refine congrArg List.length (takeWhile_congr fun t _ => ?_)
          rw [State.due, hroll, Bool.false_or]
        | true =>
          have hall : s.timers.takeWhile (s.due now) = s.timers := by
            rw [List.takeWhile_eq_self_iff]
            intro t _
            rw [State.due, hroll, Bool.true_or]
          simp [State.expiredEnd, hall]
      show (List.take (s.expiredEnd (s.detectClockRollover now).1 now tmp) s.timers,
        { s with
          previouseTime := now
          timers := List.drop (s.expiredEnd (s.detectClockRollover now).1 now tmp) s.timers }) = _
      rw [hend, take_takeWhile, drop_takeWhile, ← hl]

/-! ### The loop -/

/-- The loop moves expired timers only: the others stay in their order. -/
theorem emit_others (now : U64) (p : ι → Bool) (es : List ι) (hp : ∀ t ∈ es, p t = false)
    (cbs : List (Option κ)) (s : State ι κ) :
    (State.emit now es (cbs, s)).2.timers.filter p = s.timers.filter p := by
  induction es generalizing cbs s with
  | nil => rfl
  | cons t rest ih =>
    rw [emit_cons, ih (fun u hu => hp u (List.mem_cons_of_mem t hu))]
    unfold emitOne
    split
    · exact filter_insert _ p (hp t (List.mem_cons_self ..)) s.timers
    · rfl

/-- The second half of `listExpiredCb` writes the expired timers only. -/
theorem emit_objects (now : U64) (es : List ι) (cbs : List (Option κ)) (s : State ι κ) {u : ι}
    (hu : u ∉ es) : (State.emit now es (cbs, s)).2.objects u = s.objects u := by
  induction es generalizing cbs s with
  | nil => rfl
  | cons t rest ih =>
    rw [List.mem_cons, not_or] at hu
    rw [emit_cons, ih _ _ hu.2, emitOne_objects, Function.update_of_ne hu.1]

/-- **Exactly the expired timers.** Whatever the address of the temporary timer, the callbacks
appended are those of the due timers, each once and in the order of the container; a due
one-shot timer is out of the container without a callback, a due recurring one is in it with
its next deadline, and the other timers are as they were, in the order they had. -/
theorem listExpiredCb_expired (s : State ι κ) (h : Container s) (now : U64) (tmp : ι)
    (cbs : List (Option κ)) :
    (s.timers.filter (s.due now)).Nodup ∧
    (s.listExpiredCb now tmp cbs).1 =
      cbs ++ (s.timers.filter (s.due now)).map (fun t => (s.timer t).cb) ∧
    (∀ t ∈ s.timers, s.due now t = true → (s.timer t).recurring = false →
      t ∉ (s.listExpiredCb now tmp cbs).2.timers ∧
      (s.listExpiredCb now tmp cbs).2.timer t = { s.timer t with cb := none }) ∧
    (∀ t ∈ s.timers, s.due now t = true → (s.timer t).recurring = true →
      t ∈ (s.listExpiredCb now tmp cbs).2.timers ∧
      (s.listExpiredCb now tmp cbs).2.timer t =
        { s.timer t with next := now + (s.timer t).ms }) ∧
    (∀ t, (t ∈ s.timers → s.due now t = false) →
      (s.listExpiredCb now tmp cbs).2.objects t = s.objects t) ∧
    ((s.listExpiredCb now tmp cbs).2.timers.filter fun t => !s.due now t) =
      s.timers.filter (fun t => !s.due now t) ∧
    Container (s.listExpiredCb now tmp cbs).2 := by
  obtain ⟨p, htake⟩ := takeExpired_due h now tmp
  let rest : State ι κ := { s with
    previouseTime := p
    timers := s.timers.filter fun t => !s.due now t }
  have hlist : s.listExpiredCb now tmp cbs =
      State.emit now (s.timers.filter (s.due now)) (cbs, rest) := by
    rw [State.listExpiredCb, htake]
  have hc := listExpiredCb_container h now tmp cbs
  have hnd : (s.timers.filter (s.due now)).Nodup := (h.sorted.nodup s.less_order).filter _
  have htimer : ∀ t ∈ s.timers, s.due now t = true →
      (s.listExpiredCb now tmp cbs).2.timer t = emitted now (s.timer t) := by
    intro t ht hdue
    rw [hlist, emit_timer now _ _ _ hnd, if_pos (List.mem_filter.mpr ⟨ht, hdue⟩)]
    rfl
  refine ⟨hnd, ?_, fun t ht hdue hrec => ?_, fun t ht hdue hrec => ?_, fun t ht => ?_, ?_, hc⟩
  · rw [hlist, emit_cbs now _ _ _ hnd]
    rfl
  · have hx := htimer t ht hdue
    rw [emitted, if_neg (by simp [hrec])] at hx
    refine ⟨fun hin => ?_, hx⟩
    have hcb := (hc.mem_iff t).mp hin
    rw [hx] at hcb
    cases hcb
  · have hx := htimer t ht hdue
    rw [emitted, if_pos hrec] at hx
    refine ⟨(hc.mem_iff t).mpr ?_, hx⟩
    rw [hx]
    exact (h.mem_iff t).mp ht
  · rw [hlist, emit_objects now _ _ _ fun hin => ?_]
    have hmem := List.mem_filter.mp hin
    rw [ht hmem.1] at hmem
    cases hmem.2
  · have hout : ∀ t ∈ s.timers.filter (s.due now), (!s.due now t) = false := by
      intro t ht
      rw [(List.mem_filter.mp ht).2]
      rfl
    rw [hlist, emit_others now _ _ hout, List.filter_filter]
    simp only [Bool.and_self]

/-- Three timers due at the same moment, on both sides of the temporary one, and one later:
the second is recurring with a period of zero. -/
def tiedTimers : State Nat Nat where
  objects
    | 1 => some { next := 5, cb := some 10 }
    | 2 => some { recurring := true, next := 5, cb := some 20 }
    | 4 => some { next := 5, cb := some 40 }
    | 7 => some { next := 6, cb := some 70 }
    | _ => none
  timers := [1, 2, 4, 7]
  tickled := false
  previouseTime := 0

theorem tiedTimers_container : Container tiedTimers where
  sorted := by
    show List.Pairwise _ _
    decide
  mem_iff := by
    intro t
    match t with
    | 0 | 1 | 2 | 3 | 4 | 5 | 6 | 7 => decide
    | n + 8 => simp [tiedTimers, State.timer]

theorem listExpiredCb_expired_tied :
    (tiedTimers.listExpiredCb 5 3 [none]).1 = [none, some 10, some 20, some 40] ∧
      2 ∈ (tiedTimers.listExpiredCb 5 3 [none]).2.timers ∧
      Container (tiedTimers.listExpiredCb 5 3 [none]).2 := by
  obtain ⟨-, hcbs, -, hrec, -, -, hc⟩ :=
    listExpiredCb_expired tiedTimers tiedTimers_container 5 3 [none]
  exact ⟨hcbs, (hrec 2 (by decide) (by decide) rfl).1, hc⟩

end ShioSylar.TimerManager
