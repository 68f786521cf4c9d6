import ShioSylar.IOManager.Effects
import ShioSylar.Lib.Run

/-! Concurrent calls of `addEvent`.

`addEvent` takes three locks one after the other: the table's for reading, to compare
the size; where the descriptor is beyond it, the table's for writing, to resize; and the
mutex of the context. Between them other threads go on, and the size is not compared
again under the write lock. `contextResize` sets an absolute size, so a late resize for
a small descriptor cuts off what an earlier one for a larger descriptor put there
(`table_shrinks`); `table_grows_iff` says that nothing else goes wrong. -/
namespace ShioSylar.IOManager.Growth
open Scheduler Lib

variable {τ σ φ κ : Type}

/-- The arguments of `addEvent` and who calls it. -/
structure Call (σ φ κ : Type) where
  fd : Nat
  event : Event
  who : Caller σ φ
  cb : Option κ

/-- Where a thread is: outside, after the size test failed, or with a context. -/
inductive Phase (σ φ κ : Type) where
  | out
  | grow (c : Call σ φ κ)
  | arm (p : Nat) (c : Call σ φ κ)

structure Threads (τ σ φ κ : Type) where
  table : State σ φ κ
  phase : τ → Phase σ φ κ
  /-- What calls that returned 0 have armed. -/
  added : List (Nat × Event)
  fault : Option Fault

inductive Act (τ σ φ κ : Type) where
  | look (t : τ) (c : Call σ φ κ)
  | grow (t : τ)
  | arm (t : τ) (ok : Bool)

def start : Threads τ σ φ κ := ⟨State.init, fun _ => .out, [], none⟩

section
variable [DecidableEq τ]

/-- One section of one thread. -/
def step (l : Threads τ σ φ κ) : Act τ σ φ κ → Option (Threads τ σ φ κ)
  | .look t c =>
    match l.fault, l.phase t with
    | none, .out =>
      match l.table.fdContexts[c.fd]? with
      | some p => some { l with phase := Function.update l.phase t (.arm p c) }
      | none => some { l with phase := Function.update l.phase t (.grow c) }
    | _, _ => none
  | .grow t =>
    match l.fault, l.phase t with
    | none, .grow c =>
      match l.table.grow c.fd with
      | some (p, s) => some { l with table := s, phase := Function.update l.phase t (.arm p c) }
      | none => some { l with fault := some .outOfBounds }
    | _, _ => none
  | .arm t ok =>
    match l.fault, l.phase t with
    | none, .arm p c =>
      match l.table.addEventLocked p c.fd c.event c.who c.cb ok with
      | .ok (true, s) => some { l with
          table := s, phase := Function.update l.phase t .out, added := l.added ++ [(c.fd, c.event)] }
      | .ok (false, s) => some { l with table := s, phase := Function.update l.phase t .out }
      | .error f => some { l with fault := some f }
    | _, _ => none

/-- What `delEvent`, `cancelEvent` and `cancelAll` look up. -/
def Finds (s : State σ φ κ) (fd : Nat) (e : Event) : Prop :=
  ∃ p, s.fdContexts[fd]? = some p ∧ (s.contexts p).events.has e = true

/-- A resize is not below the size there is. -/
def Grows (l : Threads τ σ φ κ) : Act τ σ φ κ → Prop
  | .grow t => ∀ c, l.phase t = .grow c → l.table.fdContexts.length ≤ c.fd * 3 / 2
  | _ => True

/-- Two calls find 32 contexts; the one for descriptor 60 resizes and arms, and then the
one for 32 resizes. -/
def shrinkActs : List (Act Nat Nat Nat Nat) :=
  [.look 0 ⟨32, .read, ⟨some 0, 7⟩, none⟩, .look 1 ⟨60, .read, ⟨some 0, 8⟩, none⟩, .grow 1, .arm 1 true,
    .grow 0, .arm 0 true]

end

/-- The vector shrinks, and the event armed for 60 is not found. -/
theorem table_shrinks :
    ∃ u l, run step start (shrinkActs.take 4) = some u ∧ run step start shrinkActs = some l ∧
      u.table.fdContexts.length = 90 ∧ l.table.fdContexts.length = 48 ∧ (60, .read) ∈ l.added ∧
      (l.table.delEvent 60 .read true).1 = false :=
  ⟨_, _, rfl, rfl, rfl, rfl, by decide, rfl⟩

section
variable [DecidableEq τ]

/-! ### Sections -/

/-- The section under the mutex writes one context, and only adds a direction. -/
theorem addEventLocked_ok {s s' : State σ φ κ} {p fd : Nat} {e : Event} {who : Caller σ φ}
    {cb : Option κ} {ok b : Bool} (h : s.addEventLocked p fd e who cb ok = .ok (b, s')) :
    s'.fdContexts = s.fdContexts ∧ s'.allocated = s.allocated ∧
      (∀ q, (s'.contexts q).fd = (s.contexts q).fd) ∧
      (∀ q e', (s.contexts q).events.has e' = true → (s'.contexts q).events.has e' = true) ∧
      (b = true → (s'.contexts p).events.has e = true) := by
  unfold State.addEventLocked at h
  dsimp only at h
  split at h
  · cases h
  · split at h
    · cases h
      exact ⟨rfl, rfl, fun _ => rfl, fun _ _ hq => hq, Bool.noConfusion⟩
    · split at h
      · cases h
      · cases h
        refine ⟨rfl, rfl, fun q => ?_, fun q e' hq => ?_, fun _ => ?_⟩
        · by_cases hqp : q = p <;> simp [hqp]
        · by_cases hqp : q = p
          · subst hqp
            simp [hq]
          · simpa [hqp] using hq
        · simp

/-- A new size that is not below the old one keeps the vector as its beginning. -/
theorem grow_ok {s s' : State σ φ κ} {fd p : Nat} (h : s.grow fd = some (p, s')) :
    s' = s.contextResize (fd * 3 / 2) ∧ s'.fdContexts[fd]? = some p := by
  obtain ⟨q, hq, heq⟩ := Option.map_eq_some_iff.mp h
  cases heq
  exact ⟨rfl, hq⟩

theorem contextResize_length (s : State σ φ κ) (size : Nat) :
    (s.contextResize size).fdContexts.length = size := by
  simp only [State.contextResize, List.length_append, List.length_take, List.length_map,
    List.length_range]
  omega

/-- What a step does. -/
theorem step_cases {l l' : Threads τ σ φ κ} {a : Act τ σ φ κ} (h : step l a = some l') :
    (∃ t c, a = .look t c ∧ ((∃ p, l.table.fdContexts[c.fd]? = some p ∧
        l' = { l with phase := Function.update l.phase t (.arm p c) }) ∨
      (l.table.fdContexts[c.fd]? = none ∧ l' = { l with phase := Function.update l.phase t (.grow c) }))) ∨
    (∃ t c, a = .grow t ∧ l.phase t = .grow c ∧ ((∃ p s, l.table.grow c.fd = some (p, s) ∧
        l' = { l with table := s, phase := Function.update l.phase t (.arm p c) }) ∨
      (l.table.grow c.fd = none ∧ l' = { l with fault := some .outOfBounds }))) ∨
    (∃ t ok p c, a = .arm t ok ∧ l.phase t = .arm p c ∧
      ((∃ b s, l.table.addEventLocked p c.fd c.event c.who c.cb ok = .ok (b, s) ∧
        l' = { l with
          table := s
          phase := Function.update l.phase t .out
          added := l.added ++ if b then [(c.fd, c.event)] else [] }) ∨
      ∃ f, l' = { l with fault := some f })) := by
  cases a with
  | look t c =>
    refine .inl ⟨t, c, rfl, ?_⟩
    simp only [step] at h
    split at h
    · split at h
      · rename_i p hp
        exact .inl ⟨p, hp, (Option.some.inj h).symm⟩
      · rename_i hp
        exact .inr ⟨hp, (Option.some.inj h).symm⟩
    · cases h
  | grow t =>
    simp only [step] at h
    split at h
    · rename_i c hf hc
      refine .inr (.inl ⟨t, c, rfl, hc, ?_⟩)
      split at h
      · rename_i p s hg
        exact .inl ⟨p, s, hg, (Option.some.inj h).symm⟩
      · rename_i hg
        exact .inr ⟨hg, (Option.some.inj h).symm⟩
    · cases h
  | arm t ok =>
    simp only [step] at h
    split at h
    · rename_i p c hf hc
      refine .inr (.inr ⟨t, ok, p, c, rfl, hc, ?_⟩)
      split at h
      · rename_i s hs
        exact .inl ⟨true, s, hs, (Option.some.inj h).symm⟩
      · rename_i s hs
        refine .inl ⟨false, s, hs, ?_⟩
        simpa using (Option.some.inj h).symm
      · rename_i f hs
        exact .inr ⟨f, (Option.some.inj h).symm⟩
    · cases h

/-! ### Runs that only grow -/

omit [DecidableEq τ] in
theorem get_of_extends {l l' : List Nat} (h : l <+: l') {i x : Nat} (hx : l[i]? = some x) :
    l'[i]? = some x := by
  obtain ⟨rest, rfl⟩ := h
  rw [List.getElem?_append_left (List.getElem?_eq_some_iff.mp hx).1, hx]

omit [DecidableEq τ] in
theorem Finds.mono {s s' : State σ φ κ} (hext : s.fdContexts <+: s'.fdContexts)
    (hev : ∀ p ∈ s.fdContexts, ∀ e, (s.contexts p).events.has e = true →
      (s'.contexts p).events.has e = true) {fd : Nat} {e : Event} (h : Finds s fd e) : Finds s' fd e := by
  obtain ⟨p, hp, he⟩ := h
  exact ⟨p, get_of_extends hext hp, hev p (List.mem_of_getElem? hp) e he⟩

/-- What runs that only grow keep. -/
structure Kept (l : Threads τ σ φ κ) : Prop where
  indexed : Indexed l.table
  arming : ∀ t p c, l.phase t = .arm p c → l.table.fdContexts[c.fd]? = some p
  found : ∀ x ∈ l.added, Finds l.table x.1 x.2

omit [DecidableEq τ] in
theorem start_kept : Kept (start : Threads τ σ φ κ) := by
  exact ⟨init_consistent.toIndexed, fun t p c h => (nomatch h), fun x hx => (nomatch hx)⟩

omit [DecidableEq τ] in
/-- From one state to a later one of the table, with one thread moved. -/
theorem Kept.move {l l' : Threads τ σ φ κ} (k : Kept l) (hi : Indexed l'.table)
    (hext : l.table.fdContexts <+: l'.table.fdContexts)
    (hev : ∀ p ∈ l.table.fdContexts, ∀ e, (l.table.contexts p).events.has e = true →
      (l'.table.contexts p).events.has e = true)
    (harm : ∀ t p c, l'.phase t = .arm p c →
      l.phase t = .arm p c ∨ l'.table.fdContexts[c.fd]? = some p)
    (hadd : ∀ x ∈ l'.added, x ∈ l.added ∨ Finds l'.table x.1 x.2) : Kept l' := by
  refine ⟨hi, fun t p c hp => ?_, fun x hx => ?_⟩
  · rcases harm t p c hp with hold | hnew
    · exact get_of_extends hext (k.arming t p c hold)
    · exact hnew
  · rcases hadd x hx with hold | hnew
    · exact (k.found x hold).mono hext hev
    · exact hnew

theorem phase_update {f : τ → Phase σ φ κ} {t t' : τ} {x : Phase σ φ κ} {p : Nat} {c : Call σ φ κ}
    (h : Function.update f t x t' = .arm p c) : f t' = .arm p c ∨ x = .arm p c := by
  by_cases ht : t' = t
  · subst ht
    rw [Function.update_self] at h
    exact .inr h
  · rw [Function.update_of_ne ht] at h
    exact .inl h

/-- A step that meets the condition only grows the vector. -/
theorem step_kept {l l' : Threads τ σ φ κ} {a : Act τ σ φ κ} (k : Kept l) (hg : Grows l a)
    (h : step l a = some l') : Kept l' ∧ l.table.fdContexts <+: l'.table.fdContexts := by
  rcases step_cases h with ⟨t, c, -, ⟨p, hp, rfl⟩ | ⟨-, rfl⟩⟩ |
    ⟨t, c, rfl, hc, ⟨p, s, hs, rfl⟩ | ⟨-, rfl⟩⟩ | ⟨t, ok, p, c, -, hc, ⟨b, s, hs, rfl⟩ | ⟨f, rfl⟩⟩
  · refine ⟨k.move k.indexed List.prefix_rfl (fun _ _ _ he => he) (fun t' q c' hq => ?_)
      (fun x hx => .inl hx), List.prefix_rfl⟩
    rcases phase_update hq with hold | hnew
    · exact .inl hold
    · cases hnew
      exact .inr hp
  · refine ⟨k.move k.indexed List.prefix_rfl (fun _ _ _ he => he) (fun t' q c' hq => ?_)
      (fun x hx => .inl hx), List.prefix_rfl⟩
    rcases phase_update hq with hold | hnew
    · exact .inl hold
    · cases hnew
  · obtain ⟨rfl, hp⟩ := grow_ok hs
    have hsize := hg c hc
    have hext : l.table.fdContexts <+: (l.table.contextResize (c.fd * 3 / 2)).fdContexts := by
      rw [contextResize_vector l.table hsize]
      exact List.prefix_append _ _
    refine ⟨k.move (contextResize_indexed k.indexed hsize) hext (fun q hq e he => ?_)
      (fun t' q c' hq => ?_) (fun x hx => .inl hx), hext⟩
    · rwa [contextResize_old k.indexed _ hq]
    · rcases phase_update hq with hold | hnew
      · exact .inl hold
      · cases hnew
        exact .inr hp
  · exact ⟨⟨k.indexed, k.arming, k.found⟩, List.prefix_rfl⟩
  · obtain ⟨hvec, halloc, hfd, hev, hb⟩ := addEventLocked_ok hs
    have hplace := k.arming t p c hc
    refine ⟨k.move ⟨hvec ▸ k.indexed.size, fun fd q hq => ?_⟩ (hvec ▸ List.prefix_rfl)
      (fun q _ e he => hev q e he) (fun t' q c' hq => ?_) (fun x hx => ?_), hvec ▸ List.prefix_rfl⟩
    · obtain ⟨hlt, hq⟩ := k.indexed.place fd q (hvec ▸ hq)
      exact ⟨halloc ▸ hlt, (hfd q).trans hq⟩
    · rcases phase_update hq with hold | hnew
      · exact .inl hold
      · cases hnew
    · rcases List.mem_append.mp hx with hx | hx
      · exact .inl hx
      · cases b with
        | false => cases hx
        | true =>
          cases List.mem_singleton.mp hx
          exact .inr ⟨p, hvec ▸ hplace, hb rfl⟩
  · exact ⟨⟨k.indexed, k.arming, k.found⟩, List.prefix_rfl⟩

/-! ### Sizes in any run -/

/-- The vector never falls below the first 32, and a thread resizes for a descriptor
beyond these. -/
structure Sized (l : Threads τ σ φ κ) : Prop where
  size : 32 ≤ l.table.fdContexts.length
  growing : ∀ t c, l.phase t = .grow c → 32 ≤ c.fd

omit [DecidableEq τ] in
theorem start_sized : Sized (start : Threads τ σ φ κ) :=
  ⟨init_consistent.size, fun _ _ h => nomatch h⟩

theorem step_sized {l l' : Threads τ σ φ κ} {a : Act τ σ φ κ} (k : Sized l) (h : step l a = some l') :
    Sized l' := by
  have hphase : ∀ {t : τ} {x : Phase σ φ κ}, (∀ c, x = .grow c → 32 ≤ c.fd) →
      ∀ t' c, Function.update l.phase t x t' = .grow c → 32 ≤ c.fd := by
    intro t x hx t' c hc
    by_cases ht : t' = t
    · subst ht
      rw [Function.update_self] at hc
      exact hx c hc
    · rw [Function.update_of_ne ht] at hc
      exact k.growing t' c hc
  rcases step_cases h with ⟨t, c, -, ⟨p, hp, rfl⟩ | ⟨hp, rfl⟩⟩ |
    ⟨t, c, -, hc, ⟨p, s, hs, rfl⟩ | ⟨-, rfl⟩⟩ | ⟨t, ok, p, c, -, hc, ⟨b, s, hs, rfl⟩ | ⟨f, rfl⟩⟩
  · exact ⟨k.size, hphase fun _ heq => nomatch heq⟩
  · refine ⟨k.size, hphase fun c' heq => ?_⟩
    cases heq
    exact Nat.le_trans k.size (List.getElem?_eq_none_iff.mp hp)
  · obtain ⟨rfl, -⟩ := grow_ok hs
    refine ⟨?_, hphase fun _ heq => nomatch heq⟩
    have hfd := k.growing t c hc
    show 32 ≤ (l.table.contextResize (c.fd * 3 / 2)).fdContexts.length
    rw [contextResize_length]
    omega
  · exact ⟨k.size, k.growing⟩
  · exact ⟨(addEventLocked_ok hs).1 ▸ k.size, hphase fun _ heq => nomatch heq⟩
  · exact ⟨k.size, k.growing⟩

/-- A resize below the size there is cuts the vector. -/
theorem step_cuts {l l' : Threads τ σ φ κ} {a : Act τ σ φ κ} (k : Sized l) (hg : ¬ Grows l a)
    (h : step l a = some l') : l'.table.fdContexts.length < l.table.fdContexts.length := by
  rcases step_cases h with ⟨t, c, rfl, -⟩ | ⟨t, c, rfl, hc, hs⟩ | ⟨t, ok, p, c, rfl, -⟩
  · exact absurd trivial hg
  · have hsize : c.fd * 3 / 2 < l.table.fdContexts.length := by
      by_contra hle
      refine hg fun c' hc' => ?_
      cases hc.symm.trans hc'
      omega
    have hfd := k.growing t c hc
    have hget : c.fd < (l.table.contextResize (c.fd * 3 / 2)).fdContexts.length := by
      rw [contextResize_length]
      omega
    rcases hs with ⟨p, s, hs, rfl⟩ | ⟨hnone, rfl⟩
    · obtain ⟨rfl, -⟩ := grow_ok hs
      rwa [← contextResize_length l.table (c.fd * 3 / 2)] at hsize
    · simp [State.grow, List.getElem?_eq_getElem hget] at hnone
  · exact absurd trivial hg

/-- **The table of contexts under concurrent growth.** In a run of any calls of `addEvent`,
the vector always stays the beginning of what it is later, and every event armed by a call
that returned 0 is found, if and only if no resize is below the size there is. -/
theorem table_grows_iff (acts : List (Act τ σ φ κ)) (l : Threads τ σ φ κ)
    (h : run step start acts = some l) :
    ((∀ xs ys zs u v, acts = xs ++ ys ++ zs → run step start xs = some u → run step u ys = some v →
        u.table.fdContexts <+: v.table.fdContexts) ∧
      ∀ x ∈ l.added, Finds l.table x.1 x.2) ↔
    Meets step Grows start acts := by
  constructor
  · intro hgrown
    obtain ⟨hext, -⟩ := hgrown
    refine (meets_iff h).mpr fun xs a ys u heq hu => ?_
    by_contra hg
    have hk := run_preserves (P := Sized) (fun l a l' k hs => step_sized k hs) start_sized hu
    rw [heq, run_append] at h
    obtain ⟨u', hu', hrest⟩ := h
    cases hu.symm.trans hu'
    obtain ⟨v, hv, -⟩ := run_cons.mp hrest
    have hle := (hext xs [a] ys u v (by simpa using heq) hu (run_cons.mpr ⟨v, hv, rfl⟩)).length_le
    exact absurd (step_cuts hk hg hv) (Nat.not_lt.mpr hle)
  · intro hm
    refine ⟨fun xs ys zs u v heq hu hv => ?_, ?_⟩
    · rw [heq, List.append_assoc] at hm
      obtain ⟨hxs, hrest⟩ := meets_append hm
      have hk := run_invariant (P := Kept) (fun l a l' k hg hs => (step_kept k hg hs).1) start_kept hxs hu
      exact (run_invariant (P := fun w => Kept w ∧ u.table.fdContexts <+: w.table.fdContexts)
        (fun l a l' k hg hs => ⟨(step_kept k.1 hg hs).1, k.2.trans (step_kept k.1 hg hs).2⟩)
        ⟨hk, List.prefix_rfl⟩ (meets_append (hrest u hu)).1 hv).2
    · exact (run_invariant (P := Kept) (fun l a l' k hg hs => (step_kept k hg hs).1) start_kept hm h).found

end

/-- The two calls one after the other. -/
theorem table_grows_iff_sample :
    ∃ acts : List (Act Nat Nat Nat Nat), ∃ l, run step start acts = some l ∧
      (((∀ xs ys zs u v, acts = xs ++ ys ++ zs → run step start xs = some u → run step u ys = some v →
        u.table.fdContexts <+: v.table.fdContexts) ∧
      ∀ x ∈ l.added, Finds l.table x.1 x.2) ↔ Meets step Grows start acts) :=
  ⟨[.look 0 ⟨60, .read, ⟨some 0, 7⟩, none⟩, .grow 0, .arm 0 true,
    .look 1 ⟨32, .read, ⟨some 0, 8⟩, none⟩, .arm 1 true], _, rfl, table_grows_iff _ _ rfl⟩

end ShioSylar.IOManager.Growth
