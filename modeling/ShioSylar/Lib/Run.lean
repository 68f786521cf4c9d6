import Mathlib.Data.List.Basic

/-! Runs of a labelled step function.

A system is a partial step function on states: `none` says that the step cannot be
taken there. A run is a list of labels taken one after the other, so every prefix of
a run is a run, and a fact about the end of every run is a fact about every state a
run passes through.

`run_invariant` is the induction all safety results use. `Meets` asks a guard of
each step of a run, on the state the step is taken from; `run_invariant` uses it as
a rule on steps the way a rely condition is used. -/
namespace ShioSylar.Lib

variable {S A : Type*}

/-- The state after the steps, if each of them can be taken. -/
def run (step : S → A → Option S) (s : S) : List A → Option S
  | [] => some s
  | a :: rest => (step s a).bind fun t => run step t rest

/-- Each step of the run is taken from a state that meets the guard. -/
def Meets (step : S → A → Option S) (G : S → A → Prop) (s : S) : List A → Prop
  | [] => True
  | a :: rest => G s a ∧ ∀ t, step s a = some t → Meets step G t rest

section
variable {step : S → A → Option S} {G : S → A → Prop}

@[simp] theorem run_nil (s : S) : run step s [] = some s := rfl

theorem run_cons {s t : S} {a : A} {rest : List A} :
    run step s (a :: rest) = some t ↔ ∃ u, step s a = some u ∧ run step u rest = some t := by
  simp only [run, Option.bind_eq_some_iff]

theorem run_append {s t : S} {as bs : List A} :
    run step s (as ++ bs) = some t ↔ ∃ u, run step s as = some u ∧ run step u bs = some t := by
  induction as generalizing s with
  | nil => simp
  | cons a rest ih =>
    rw [List.cons_append, run_cons]
    constructor
    · intro hrun
      obtain ⟨u, hu, hrest⟩ := hrun
      obtain ⟨v, hv, hbs⟩ := ih.mp hrest
      exact ⟨v, run_cons.mpr ⟨u, hu, hv⟩, hbs⟩
    · intro hrun
      obtain ⟨v, has, hbs⟩ := hrun
      obtain ⟨u, hu, hv⟩ := run_cons.mp has
      exact ⟨u, hu, ih.mpr ⟨v, hv, hbs⟩⟩

theorem meets_append {s : S} {as bs : List A} (h : Meets step G s (as ++ bs)) :
    Meets step G s as ∧ ∀ t, run step s as = some t → Meets step G t bs := by
  induction as generalizing s with
  | nil => exact ⟨trivial, fun t ht => Option.some.inj ht ▸ h⟩
  | cons a rest ih =>
    refine ⟨⟨h.1, fun t ht => (ih (h.2 t ht)).1⟩, fun t ht => ?_⟩
    obtain ⟨u, hu, hrest⟩ := run_cons.mp ht
    exact (ih (h.2 u hu)).2 t hrest

/-- What a guarded step preserves, a run of guarded steps preserves. -/
theorem run_invariant {P : S → Prop} (hstep : ∀ s a t, P s → G s a → step s a = some t → P t)
    {s t : S} {as : List A} (hs : P s) (hm : Meets step G s as) (hr : run step s as = some t) :
    P t := by
  induction as generalizing s with
  | nil => exact Option.some.inj hr ▸ hs
  | cons a rest ih =>
    obtain ⟨u, hu, hrest⟩ := run_cons.mp hr
    exact ih (hstep s a u hs hm.1 hu) (hm.2 u hu) hrest

theorem meets_true (s : S) (as : List A) : Meets step (fun _ _ => True) s as := by
  induction as generalizing s with
  | nil => trivial
  | cons a rest ih => exact ⟨trivial, fun t _ => ih t⟩

/-- A run meets a guard if and only if every step of it does. -/
theorem meets_iff {s t : S} {as : List A} (hr : run step s as = some t) :
    Meets step G s as ↔
      ∀ xs a ys u, as = xs ++ a :: ys → run step s xs = some u → G u a := by
  constructor
  · rintro hm xs a ys u rfl hu
    exact ((meets_append hm).2 u hu).1
  · intro hall
    induction as generalizing s with
    | nil => trivial
    | cons a rest ih =>
      refine ⟨hall [] a rest s rfl rfl, fun u hu => ?_⟩
      obtain ⟨v, hv, hrest⟩ := run_cons.mp hr
      cases hv.symm.trans hu
      refine ih hrest fun xs b ys w heq hw => hall (a :: xs) b ys w (by rw [heq]; rfl) ?_
      exact run_cons.mpr ⟨u, hu, hw⟩

/-- Where a guard says exactly which of the steps under `R` keep `P`, it says which runs under
`R` stay in `P`; the invariant is asked for under the guard only. -/
theorem passes_iff_meets_guarded {I P : S → Prop} {R : S → A → Prop}
    (hinv : ∀ s a t, I s → R s a → G s a → step s a = some t → I t)
    (hiff : ∀ s a t, I s → P s → R s a → step s a = some t → (P t ↔ G s a)) {s t : S} {as : List A}
    (hs : I s) (hp : P s) (hm : Meets step R s as) (hr : run step s as = some t) :
    (∀ xs ys u, as = xs ++ ys → run step s xs = some u → P u) ↔ Meets step G s as := by
  induction as generalizing s with
  | nil =>
    refine ⟨fun _ => trivial, fun _ xs ys u heq hu => ?_⟩
    obtain ⟨rfl, -⟩ := List.append_eq_nil_iff.mp heq.symm
    exact Option.some.inj hu ▸ hp
  | cons a rest ih =>
    obtain ⟨v, hv, hrest⟩ := run_cons.mp hr
    have hgood := hiff s a v hs hp hm.1 hv
    have hrely := hm.2 v hv
    constructor
    · intro hall
      have hpv : P v := hall [a] rest v rfl (run_cons.mpr ⟨v, hv, rfl⟩)
      have hg := hgood.mp hpv
      refine ⟨hg, fun u hu => ?_⟩
      cases hv.symm.trans hu
      refine (ih (hinv s a v hs hm.1 hg hv) hpv hrely hrest).mp fun xs ys u heq hu => ?_
      exact hall (a :: xs) ys u (congrArg (a :: ·) heq) (run_cons.mpr ⟨v, hv, hu⟩)
    · intro hg xs ys u heq hu
      cases xs with
      | nil => exact Option.some.inj hu ▸ hp
      | cons b xs =>
        obtain ⟨rfl, rfl⟩ := List.cons.inj heq
        obtain ⟨w, hw, hu⟩ := run_cons.mp hu
        cases hv.symm.trans hw
        have hpv : P v := hgood.mpr hg.1
        exact (ih (hinv s a v hs hm.1 hg.1 hv) hpv hrely hrest).mpr (hg.2 v hv) xs ys u rfl hu

/-- The same, with an invariant of every step. -/
theorem passes_iff_meets_under {I P : S → Prop} {R : S → A → Prop}
    (hinv : ∀ s a t, I s → R s a → step s a = some t → I t)
    (hiff : ∀ s a t, I s → P s → R s a → step s a = some t → (P t ↔ G s a)) {s t : S} {as : List A}
    (hs : I s) (hp : P s) (hm : Meets step R s as) (hr : run step s as = some t) :
    (∀ xs ys u, as = xs ++ ys → run step s xs = some u → P u) ↔ Meets step G s as :=
  passes_iff_meets_guarded (fun s a t hi hr _ h => hinv s a t hi hr h) hiff hs hp hm hr

/-- Where a guard says exactly which steps keep `P`, it says which runs stay in `P`. -/
theorem passes_iff_meets {I P : S → Prop} (hinv : ∀ s a t, I s → step s a = some t → I t)
    (hiff : ∀ s a t, I s → P s → step s a = some t → (P t ↔ G s a)) {s t : S} {as : List A}
    (hs : I s) (hp : P s) (hr : run step s as = some t) :
    (∀ xs ys u, as = xs ++ ys → run step s xs = some u → P u) ↔ Meets step G s as :=
  passes_iff_meets_under (R := fun _ _ => True) (fun s a t hi _ h => hinv s a t hi h)
    (fun s a t hi hp _ h => hiff s a t hi hp h) hs hp (meets_true s as) hr

/-- Two guards that agree on the steps a run may take. -/
theorem meets_congr {H R : S → A → Prop} {I : S → Prop}
    (hinv : ∀ s a t, I s → R s a → step s a = some t → I t)
    (hiff : ∀ s a, I s → R s a → (G s a ↔ H s a)) {s : S} {as : List A} (hs : I s)
    (hm : Meets step R s as) : Meets step G s as ↔ Meets step H s as := by
  induction as generalizing s with
  | nil => exact Iff.rfl
  | cons a rest ih =>
    refine and_congr (hiff s a hs hm.1) (forall_congr' fun t => imp_congr_right fun ht => ?_)
    exact ih (hinv s a t hs hm.1 ht) (hm.2 t ht)

/-- A guard that keeps an invariant, and with it implies another guard. -/
theorem meets_of_invariant {H : S → A → Prop} {I : S → Prop}
    (hinv : ∀ s a t, I s → G s a → step s a = some t → I t) (himp : ∀ s a, I s → G s a → H s a) {s : S}
    {as : List A} (hs : I s) (hm : Meets step G s as) : Meets step H s as :=
  (meets_congr hinv (fun s a hi hg => iff_of_true trivial (himp s a hi hg)) hs hm).mp (meets_true s as)

theorem meets_and {H : S → A → Prop} {s : S} {as : List A} (hg : Meets step G s as)
    (hh : Meets step H s as) : Meets step (fun s a => G s a ∧ H s a) s as := by
  induction as generalizing s with
  | nil => trivial
  | cons a rest ih => exact ⟨⟨hg.1, hh.1⟩, fun t ht => ih (hg.2 t ht) (hh.2 t ht)⟩

instance decidableMeets [∀ s a, Decidable (G s a)] (s : S) (as : List A) :
    Decidable (Meets step G s as) :=
  match as with
  | [] => isTrue trivial
  | a :: rest =>
    match h : step s a with
    | none => decidable_of_iff (G s a) (by simp [Meets, h])
    | some t =>
      have := decidableMeets t rest
      decidable_of_iff (G s a ∧ Meets step G t rest) (by simp [Meets, h])

/-- What a step preserves, a run preserves. -/
theorem run_preserves {P : S → Prop} (hstep : ∀ s a t, P s → step s a = some t → P t)
    {s t : S} {as : List A} (hs : P s) (hr : run step s as = some t) : P t :=
  run_invariant (G := fun _ _ => True) (fun s a t hp _ h => hstep s a t hp h) hs (meets_true s as) hr

/-- Where each guarded step from `P` stays in `P` or is a `Q`, a run stays in `P` or there is a first
`Q` in it. -/
theorem run_until {P : S → Prop} {Q : S → A → S → Prop}
    (hstep : ∀ s a t, P s → G s a → step s a = some t → P t ∨ Q s a t) {s t : S} {as : List A} (hs : P s)
    (hm : Meets step G s as) (hr : run step s as = some t) :
    P t ∨ ∃ xs a ys u v, as = xs ++ a :: ys ∧ run step s xs = some u ∧ P u ∧ step u a = some v ∧ Q u a v := by
  induction as generalizing s with
  | nil => exact .inl (Option.some.inj hr ▸ hs)
  | cons a rest ih =>
    obtain ⟨u, hu, hrest⟩ := run_cons.mp hr
    obtain hp | hq := hstep s a u hs hm.1 hu
    · refine (ih hp (hm.2 u hu) hrest).imp id ?_
      rintro ⟨xs, b, ys, v, w, rfl, hv, hpv, hb, hq⟩
      exact ⟨a :: xs, b, ys, v, w, rfl, run_cons.mpr ⟨u, hu, hv⟩, hpv, hb, hq⟩
    · exact .inr ⟨[], a, rest, s, u, rfl, rfl, hs, hu, hq⟩

/-- A run under `R` that did not go bad has met a guard that keeps a property, where every
other step from the property goes bad for good. -/
theorem meets_of_good {P B : S → Prop} {R : S → A → Prop}
    (hstep : ∀ s a t, P s → R s a → G s a → step s a = some t → P t)
    (hbad : ∀ s a t, P s → R s a → ¬ G s a → step s a = some t → B t)
    (hkeep : ∀ s a t, B s → step s a = some t → B t) {s t : S} {as : List A} (hs : P s)
    (hm : Meets step R s as) (hr : run step s as = some t) (ht : ¬ B t) : Meets step G s as := by
  induction as generalizing s with
  | nil => trivial
  | cons a rest ih =>
    obtain ⟨u, hu, hrest⟩ := run_cons.mp hr
    have hg : G s a := by
      by_contra hg
      have hb : ¬ B u := fun hb => ht (run_preserves hkeep hb hrest)
      exact hb (hbad s a u hs hm.1 hg hu)
    refine ⟨hg, fun v hv => ?_⟩
    cases hu.symm.trans hv
    exact ih (hstep s a u hs hm.1 hg hu) (hm.2 u hu) hrest

/-- Where each guarded step has one that goes with it, a run of guarded steps has such a run. -/
theorem run_simulates {T B : Type*} {step' : T → B → Option T} {R : S → T → Prop} {Like : A → B → Prop}
    (hsim : ∀ s a s' t, R s t → G s a → step s a = some s' →
      ∃ b t', Like a b ∧ step' t b = some t' ∧ R s' t')
    {s s' : S} {t : T} {as : List A} (hR : R s t) (hm : Meets step G s as) (hr : run step s as = some s') :
    ∃ bs t', List.Forall₂ Like as bs ∧ run step' t bs = some t' ∧ R s' t' := by
  induction as generalizing s t with
  | nil => exact ⟨[], t, .nil, rfl, Option.some.inj hr ▸ hR⟩
  | cons a rest ih =>
    obtain ⟨u, hu, hrest⟩ := run_cons.mp hr
    obtain ⟨b, v, hlike, hv, huv⟩ := hsim s a u t hR hm.1 hu
    obtain ⟨bs, t', hbs, ht', hR'⟩ := ih huv (hm.2 u hu) hrest
    exact ⟨b :: bs, t', .cons hlike hbs, run_cons.mpr ⟨v, hv, ht'⟩, hR'⟩

end

end ShioSylar.Lib
