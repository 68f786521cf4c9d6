import ShioSylar.Lib.Run
import ShioSylar.Logger.Appenders
import Mathlib.Data.Fintype.Basic

/-! Formatters that appenders inherit from their loggers.

`Logger::setFormatter` asks `hasFormatter` whether an appender has a formatter of its own, and
`addAppender` asks whether its pointer is null. The two differ on an appender that has been
attached before: its pointer is what it inherited there, and `addAppender` leaves it as it is.
`LogAppender::setFormatter` with a null pointer clears the copy of an attached appender, and
nothing brings it back. `Keeps` excludes these two and nothing else. -/
namespace ShioSylar.Log
open Lib

variable {ℓ α : Type}

inductive Act (ℓ α : Type) where
  /-- A formatter is made, to be set later. -/
  | newFormatter (pattern : String)
  | addAppender (l : ℓ) (a : α)
  | delAppender (l : ℓ) (a : α)
  | clearAppenders (l : ℓ)
  | setFormatter (l : ℓ) (val : FormatterPtr ℓ)
  | setPattern (l : ℓ) (val : String)
  /-- `LogAppender::setFormatter`. -/
  | setOwn (a : α) (val : Option (FormatterPtr ℓ))
  | log (l : ℓ) (level : LogLevel)

section
variable [DecidableEq ℓ] [DecidableEq α]

/-- A call. A null pointer that `log` follows ends the run. -/
def step (s : State ℓ α) : Act ℓ α → Option (State ℓ α)
  | .newFormatter pattern => some (s.newFormatter pattern)
  | .addAppender l a => some (s.addAppender l a)
  | .delAppender l a => some (s.delAppender l a)
  | .clearAppenders l => some (s.clearAppenders l)
  | .setFormatter l val => if (s.formatter val).isSome then some (s.setFormatter l val) else none
  | .setPattern l val => some (s.setPattern l val)
  | .setOwn a val =>
    if val.all fun f => (s.formatter f).isSome then
      some (s.setAppender a ((s.appenders a).setFormatter val))
    else none
  | .log l level => (s.log l level).map fun _ => s

end

/-- Loggers and appenders as their constructors leave them. -/
def start (loggers : ℓ → LogLevel × Option ℓ) (appenders : α → AppenderKind × LogLevel) : State ℓ α where
  formatters := []
  loggers l := ⟨(loggers l).1, [], .initial l, (loggers l).2⟩
  appenders a := LogAppender.new (appenders a).1 (appenders a).2

/-- An appender is attached to one logger at a time. -/
def Single (s : State ℓ α) : Act ℓ α → Prop
  | .addAppender l a => ∀ l', a ∈ (s.loggers l').appenders → l' = l
  | _ => True

/-- What each appender that is attached should have. -/
def Inherits (s : State ℓ α) : Prop :=
  ∀ l, ∀ a ∈ (s.loggers l).appenders, ∃ f, (s.appenders a).formatter = some f ∧
    ((s.appenders a).hasFormatter = false → f = (s.loggers l).formatter)

/-- An appender is attached with no formatter, its own, or that of the logger, and a null
pointer is set only on one that is not attached. -/
def Keeps (s : State ℓ α) : Act ℓ α → Prop
  | .addAppender l a => (s.appenders a).formatter = none ∨ (s.appenders a).hasFormatter = true ∨
      (s.appenders a).formatter = some (s.loggers l).formatter
  | .setOwn a none => ∀ l, a ∉ (s.loggers l).appenders
  | _ => True

/-! ### What the calls do to the appenders -/

/-- What holds as long as each appender is attached to one logger at a time. -/
structure Attached (s : State ℓ α) : Prop where
  single : ∀ l l', ∀ a ∈ (s.loggers l).appenders, a ∈ (s.loggers l').appenders → l' = l
  own : ∀ a, (s.appenders a).hasFormatter = true → (s.appenders a).formatter ≠ none

theorem start_attached (loggers : ℓ → LogLevel × Option ℓ) (appenders : α → AppenderKind × LogLevel) :
    Attached (start loggers appenders) :=
  ⟨fun _ _ _ h => (nomatch h), fun _ h => (nomatch h)⟩

/-- Nothing is attached at first. -/
theorem start_inherits (loggers : ℓ → LogLevel × Option ℓ) (appenders : α → AppenderKind × LogLevel) :
    Inherits (start loggers appenders) :=
  fun _ _ h => nomatch h

variable [DecidableEq ℓ] {s : State ℓ α} {l : ℓ} {a : α}

/-- Taking appenders out. -/
theorem Attached.remove (k : Attached s) {rest : List α}
    (hrest : ∀ b ∈ rest, b ∈ (s.loggers l).appenders) :
    Attached (s.setLogger l { s.loggers l with appenders := rest }) := by
  have hmem : ∀ l' b, b ∈ ((s.setLogger l { s.loggers l with appenders := rest }).loggers l').appenders →
      b ∈ (s.loggers l').appenders := by
    intro l' b hb
    by_cases hl : l' = l
    · subst hl
      rw [State.setLogger_self] at hb
      exact hrest b hb
    · rwa [State.setLogger_other _ hl] at hb
  exact ⟨fun l₁ l₂ b h₁ h₂ => k.single l₁ l₂ b (hmem l₁ b h₁) (hmem l₂ b h₂), k.own⟩

theorem Inherits.remove (k : Inherits s) {rest : List α}
    (hrest : ∀ b ∈ rest, b ∈ (s.loggers l).appenders) :
    Inherits (s.setLogger l { s.loggers l with appenders := rest }) := by
  intro l' b hb
  by_cases hl : l' = l
  · subst hl
    rw [State.setLogger_self] at hb ⊢
    exact k l' b (hrest b hb)
  · rw [State.setLogger_other _ hl] at hb ⊢
    exact k l' b hb

variable [DecidableEq α]

theorem addAppender_loggers (s : State ℓ α) (l : ℓ) (a : α) : (s.addAppender l a).loggers =
    Function.update s.loggers l { s.loggers l with appenders := (s.loggers l).appenders ++ [a] } := rfl

/-- Only a null pointer is replaced. -/
theorem addAppender_appenders (s : State ℓ α) (l : ℓ) (a : α) : (s.addAppender l a).appenders =
    Function.update s.appenders a
      { s.appenders a with formatter := some ((s.appenders a).formatter.getD (s.loggers l).formatter) } := by
  show Function.update s.appenders a _ = _
  congr 1
  cases hf : (s.appenders a).formatter with
  | none => rfl
  | some f =>
    rw [if_neg (by simp), Option.getD_some, ← hf]

theorem mem_addAppender {l' : ℓ} {b : α} : b ∈ ((s.addAppender l a).loggers l').appenders ↔
    b ∈ (s.loggers l').appenders ∨ (l' = l ∧ b = a) := by
  rw [addAppender_loggers]
  by_cases hl : l' = l
  · subst hl
    simp
  · simp [hl]

theorem addAppender_formatter (l' : ℓ) :
    ((s.addAppender l a).loggers l').formatter = (s.loggers l').formatter := by
  rw [addAppender_loggers]
  by_cases hl : l' = l
  · subst hl
    simp
  · rw [Function.update_of_ne hl]

theorem Attached.addAppender (k : Attached s) (hs : Single s (.addAppender l a)) :
    Attached (s.addAppender l a) := by
  constructor
  · intro l₁ l₂ b h₁ h₂
    rw [mem_addAppender] at h₁ h₂
    obtain h₁ | ⟨rfl, rfl⟩ := h₁
    · obtain h₂ | ⟨rfl, rfl⟩ := h₂
      · exact k.single l₁ l₂ b h₁ h₂
      · exact (hs l₁ h₁).symm
    · obtain h₂ | ⟨rfl, -⟩ := h₂
      · exact hs l₂ h₂
      · rfl
  · intro b hb
    rw [addAppender_appenders] at hb ⊢
    by_cases hba : b = a
    · subst hba
      simp
    · rw [Function.update_of_ne hba] at hb ⊢
      exact k.own b hb

/-- An appender that is attached inherits if and only if it had none, its own, or the right
one already. -/
theorem addAppender_inherits (k : Inherits s) (hs : Single s (.addAppender l a)) :
    Inherits (s.addAppender l a) ↔ Keeps s (.addAppender l a) := by
  constructor
  · intro h
    obtain ⟨f, hf, hown⟩ := h l a (mem_addAppender.mpr (.inr ⟨rfl, rfl⟩))
    rw [addAppender_appenders, Function.update_self] at hf hown
    rw [addAppender_formatter] at hown
    cases hptr : (s.appenders a).formatter with
    | none => exact .inl hptr
    | some g =>
      rw [hptr] at hf
      cases hhas : (s.appenders a).hasFormatter with
      | true => exact .inr (.inl hhas)
      | false =>
        have hg : g = f := Option.some.inj hf
        refine .inr (.inr ?_)
        rw [hptr, hg, hown hhas]
  · intro hkeeps l' b hb
    rw [mem_addAppender] at hb
    rw [addAppender_formatter, addAppender_appenders]
    by_cases hba : b = a
    · subst hba
      have hl : l' = l := by
        obtain hb | ⟨rfl, -⟩ := hb
        · exact hs l' hb
        · rfl
      subst hl
      rw [Function.update_self]
      refine ⟨_, rfl, fun hown => ?_⟩
      obtain hnone | hhas | hsame := hkeeps
      · rw [hnone]
        rfl
      · exact absurd hown (by rw [hhas]; decide)
      · rw [hsame]
        rfl
    · rw [Function.update_of_ne hba]
      obtain hb | ⟨-, rfl⟩ := hb
      · exact k l' b hb
      · exact absurd rfl hba

theorem setFormatter_loggers (s : State ℓ α) (l : ℓ) (val : FormatterPtr ℓ) :
    (s.setFormatter l val).loggers = Function.update s.loggers l { s.loggers l with formatter := val } := rfl

theorem mem_setFormatter {val : FormatterPtr ℓ} (l' : ℓ) :
    ((s.setFormatter l val).loggers l').appenders = (s.loggers l').appenders := by
  rw [setFormatter_loggers]
  by_cases hl : l' = l
  · subst hl
    simp
  · rw [Function.update_of_ne hl]

theorem setFormatter_hasFormatter {val : FormatterPtr ℓ} (b : α) :
    ((s.setFormatter l val).appenders b).hasFormatter = (s.appenders b).hasFormatter := by
  simp only [State.setFormatter]
  split <;> rfl

theorem Attached.setFormatter (k : Attached s) (val : FormatterPtr ℓ) :
    Attached (s.setFormatter l val) := by
  constructor
  · intro l₁ l₂ b h₁ h₂
    rw [mem_setFormatter] at h₁ h₂
    exact k.single l₁ l₂ b h₁ h₂
  · intro b hb
    rw [setFormatter_hasFormatter] at hb
    simp only [State.setFormatter, hb, Bool.true_eq_false, and_false, if_false]
    exact k.own b hb

/-- The appenders that inherit from the logger are all given the new one. -/
theorem Inherits.setFormatter (k : Inherits s) (h : Attached s) (val : FormatterPtr ℓ) :
    Inherits (s.setFormatter l val) := by
  intro l' b hb
  rw [mem_setFormatter] at hb
  obtain ⟨f, hf, hown⟩ := k l' b hb
  rw [setFormatter_loggers, setFormatter_hasFormatter]
  simp only [State.setFormatter]
  by_cases hl : l' = l
  · subst hl
    rw [Function.update_self]
    cases hhas : (s.appenders b).hasFormatter with
    | true =>
      rw [if_neg (by simp)]
      exact ⟨f, hf, fun h => nomatch h⟩
    | false =>
      rw [if_pos ⟨hb, rfl⟩]
      exact ⟨val, rfl, fun _ => rfl⟩
  · have hother : b ∉ (s.loggers l).appenders := fun hmem => hl (h.single l l' b hmem hb)
    rw [Function.update_of_ne hl, if_neg fun hand => hother hand.1]
    exact ⟨f, hf, hown⟩

theorem Attached.setPattern (k : Attached s) (val : String) : Attached (s.setPattern l val) := by
  unfold State.setPattern
  split
  · exact k
  · exact Attached.setFormatter (s := s.newFormatter val) ⟨k.single, k.own⟩ _

theorem Inherits.setPattern (k : Inherits s) (h : Attached s) (val : String) :
    Inherits (s.setPattern l val) := by
  unfold State.setPattern
  split
  · exact k
  · exact Inherits.setFormatter (s := s.newFormatter val) k ⟨h.single, h.own⟩ _

omit [DecidableEq ℓ] in
theorem Attached.setOwn (k : Attached s) (val : Option (FormatterPtr ℓ)) :
    Attached (s.setAppender a ((s.appenders a).setFormatter val)) := by
  refine ⟨k.single, fun b hb => ?_⟩
  by_cases hba : b = a
  · subst hba
    rw [State.setAppender_self] at hb ⊢
    exact Option.isSome_iff_ne_none.mp hb
  · rw [State.setAppender_other _ hba] at hb ⊢
    exact k.own b hb

omit [DecidableEq ℓ] in
/-- An appender of its own formatter inherits nothing, and one that is not attached neither. -/
theorem setOwn_inherits (k : Inherits s) (val : Option (FormatterPtr ℓ)) :
    Inherits (s.setAppender a ((s.appenders a).setFormatter val)) ↔ Keeps s (.setOwn a val) := by
  cases val with
  | none =>
    constructor
    · intro h l hmem
      obtain ⟨f, hf, -⟩ := h l a hmem
      rw [State.setAppender_self] at hf
      cases hf
    · intro hnot l b hb
      have hba : b ≠ a := fun heq => hnot l (heq ▸ hb)
      rw [State.setAppender_other _ hba]
      exact k l b hb
  | some f =>
    refine ⟨fun _ => trivial, fun _ l b hb => ?_⟩
    by_cases hba : b = a
    · subst hba
      rw [State.setAppender_self]
      exact ⟨f, rfl, fun h => nomatch h⟩
    · rw [State.setAppender_other _ hba]
      exact k l b hb

omit [DecidableEq ℓ] [DecidableEq α] in
theorem write_isSome (level : LogLevel) (as : List α) (has : ∀ a ∈ as, (s.appenders a).formatter ≠ none) :
    (s.write level as).isSome = true := by
  unfold State.write
  induction as with
  | nil => rfl
  | cons a rest ih =>
    have hrest := ih fun b hb => has b (List.mem_cons_of_mem a hb)
    rw [List.filter_cons]
    split
    · obtain ⟨f, hf⟩ := Option.ne_none_iff_exists'.mp (has a (List.mem_cons_self ..))
      obtain ⟨out, hout⟩ := Option.isSome_iff_exists.mp hrest
      rw [List.mapM_cons, hf, hout]
      rfl
    · exact hrest

omit [DecidableEq ℓ] [DecidableEq α] in
/-- No null pointer is followed where the appenders have what they should. -/
theorem log_isSome (k : Inherits s) (l : ℓ) (level : LogLevel) : (s.log l level).isSome = true := by
  have hwrite : ∀ l, (s.write level (s.loggers l).appenders).isSome = true := by
    intro l
    apply write_isSome
    intro a ha
    obtain ⟨f, hf, -⟩ := k l a ha
    rw [hf]
    exact Option.some_ne_none f
  unfold State.log
  split
  · rfl
  · split
    · exact hwrite l
    · split
      · rfl
      · split
        · rfl
        · exact hwrite _

/-! ### Runs -/

theorem step_attached (s : State ℓ α) (x : Act ℓ α) (t : State ℓ α) (k : Attached s) (hs : Single s x)
    (h : step s x = some t) : Attached t := by
  cases x with
  | newFormatter pattern => exact Option.some.inj h ▸ ⟨k.single, k.own⟩
  | addAppender l a => exact Option.some.inj h ▸ k.addAppender hs
  | delAppender l a => exact Option.some.inj h ▸ k.remove fun b hb => List.mem_of_mem_erase hb
  | clearAppenders l => exact Option.some.inj h ▸ k.remove fun b hb => nomatch hb
  | setFormatter l val =>
    obtain ⟨-, h⟩ := Option.ite_none_right_eq_some.mp h
    exact Option.some.inj h ▸ k.setFormatter val
  | setPattern l val => exact Option.some.inj h ▸ k.setPattern val
  | setOwn a val =>
    obtain ⟨-, h⟩ := Option.ite_none_right_eq_some.mp h
    exact Option.some.inj h ▸ k.setOwn val
  | log l level =>
    obtain ⟨-, -, rfl⟩ := Option.map_eq_some_iff.mp h
    exact k

/-- Exactly two calls can leave an appender without the formatter it should have. -/
theorem step_inherits (s : State ℓ α) (x : Act ℓ α) (t : State ℓ α) (k : Attached s) (hi : Inherits s)
    (hs : Single s x) (h : step s x = some t) : Inherits t ↔ Keeps s x := by
  cases x with
  | newFormatter pattern => exact Option.some.inj h ▸ iff_of_true hi trivial
  | addAppender l a => exact Option.some.inj h ▸ addAppender_inherits hi hs
  | delAppender l a =>
    exact Option.some.inj h ▸ iff_of_true (hi.remove fun b hb => List.mem_of_mem_erase hb) trivial
  | clearAppenders l =>
    exact Option.some.inj h ▸ iff_of_true (hi.remove fun b hb => nomatch hb) trivial
  | setFormatter l val =>
    obtain ⟨-, h⟩ := Option.ite_none_right_eq_some.mp h
    exact Option.some.inj h ▸ iff_of_true (hi.setFormatter k val) trivial
  | setPattern l val => exact Option.some.inj h ▸ iff_of_true (hi.setPattern k val) trivial
  | setOwn a val =>
    obtain ⟨-, h⟩ := Option.ite_none_right_eq_some.mp h
    exact Option.some.inj h ▸ setOwn_inherits hi val
  | log l level =>
    obtain ⟨-, -, rfl⟩ := Option.map_eq_some_iff.mp h
    exact iff_of_true hi trivial

/-- **Formatter inheritance.** Every appender that is attached has its own formatter or that of
its logger, in every state of a run, if and only if each call of the run keeps to `Keeps`. -/
theorem inherits_iff (loggers : ℓ → LogLevel × Option ℓ) (appenders : α → AppenderKind × LogLevel)
    (acts : List (Act ℓ α)) (t : State ℓ α) (h : run step (start loggers appenders) acts = some t)
    (hs : Meets step Single (start loggers appenders) acts) :
    (∀ xs ys u, acts = xs ++ ys → run step (start loggers appenders) xs = some u → Inherits u) ↔
      Meets step Keeps (start loggers appenders) acts :=
  passes_iff_meets_under step_attached step_inherits (start_attached loggers appenders)
    (start_inherits loggers appenders) hs h

instance [Fintype ℓ] (s : State ℓ α) : (x : Act ℓ α) → Decidable (Single s x)
  | .addAppender l a => inferInstanceAs (Decidable (∀ l', a ∈ (s.loggers l').appenders → l' = l))
  | .newFormatter _ | .delAppender .. | .clearAppenders _ | .setFormatter .. | .setPattern ..
  | .setOwn .. | .log .. => isTrue trivial

instance [Fintype ℓ] (s : State ℓ α) : (x : Act ℓ α) → Decidable (Keeps s x)
  | .addAppender l a => inferInstanceAs (Decidable ((s.appenders a).formatter = none ∨
      (s.appenders a).hasFormatter = true ∨ (s.appenders a).formatter = some (s.loggers l).formatter))
  | .setOwn a none => inferInstanceAs (Decidable (∀ l, a ∉ (s.loggers l).appenders))
  | .setOwn _ (some _) | .newFormatter _ | .delAppender .. | .clearAppenders _ | .setFormatter ..
  | .setPattern .. | .log .. => isTrue trivial

/-- Two loggers and an appender. -/
abbrev two : State Bool Unit := start (fun _ => (.debug, none)) fun _ => (.stdout, .debug)

/-- A null pointer set on an attached appender ends the next `log`. -/
example : (run step two [.addAppender true (), .setOwn () none, .log true .info]).isNone = true := rfl

/-- The appender is moved with a formatter of its own. -/
theorem inherits_iff_moved :
    ∃ t, run step two [.newFormatter "%m%n", .addAppender true (), .setOwn () (some (.made 0)),
        .log true .info, .delAppender true (), .addAppender false (), .setPattern false "%p%m%n"] = some t ∧
      Inherits t := by
  have hrun : ∃ t, run step two [.newFormatter "%m%n", .addAppender true (), .setOwn () (some (.made 0)),
      .log true .info, .delAppender true (), .addAppender false (), .setPattern false "%p%m%n"] = some t :=
    ⟨_, rfl⟩
  obtain ⟨t, ht⟩ := hrun
  exact ⟨t, ht, (inherits_iff _ _ _ t ht (by decide)).mpr (by decide) _ [] t (List.append_nil _).symm ht⟩

/-- An appender that has been attached to the first logger is attached to the second one, and
keeps the formatter of the first. -/
theorem moved_stale :
    ∃ t, run step two [.addAppender true (), .delAppender true (), .addAppender false ()] = some t ∧
      (t.loggers false).appenders = [()] ∧ (t.appenders ()).hasFormatter = false ∧
      (t.appenders ()).formatter = some (.initial true) ∧ (t.loggers false).formatter = .initial false ∧
      ¬ Inherits t := by
  refine ⟨_, rfl, rfl, rfl, rfl, rfl, fun h => ?_⟩
  obtain ⟨f, hf, hown⟩ := h false () (by decide)
  have hf : some (FormatterPtr.initial true) = some f := hf
  have hown : f = .initial false := hown rfl
  rw [hown] at hf
  cases hf

end ShioSylar.Log
