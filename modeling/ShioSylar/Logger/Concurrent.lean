import ShioSylar.Logger.Locking

/-! Threads that log (`logger.cc`).

Whatever the threads call, and in whatever order their steps come, no list changes under a loop
and no null formatter is followed, no thread waits for ever, and a record is written to a stream as
one piece: the mutexes are taken in the order of `Lock.rank`, where the main logger comes after every
other one, and what each of them guards is in `agree`. -/
namespace ShioSylar.Log.Locked
open Lib Discipline

def Lock.rank : Lock → Nat
  | .config => 0
  | .var _ => 1
  | .manager => 2
  | .logger name => if name = "root" then 4 else 3
  | .appender _ => 5

section
variable {ω : Type}

/-! ### What each mutex is for -/

/-- What it guards is the same. Nobody else has an appender that is not made yet. -/
def agree : Lock → Store ω → Store ω → Prop
  | .config, s, t => t.datas = s.datas
  | .var name, s, t => name = "logs" → t.value = s.value
  | .manager, s, t => t.names = s.names
  | .logger name, s, t => (t.log.loggers name).appenders = (s.log.loggers name).appenders
  | .appender a, s, t => t.stream a = s.stream a ∧ t.text a = s.text a ∧ s.manager.next ≤ t.manager.next ∧
      (a < s.manager.next → (t.log.appenders a).formatter = (s.log.appenders a).formatter ∧
        (t.log.appenders a).hasFormatter = (s.log.appenders a).hasFormatter)

/-- What is made stays, and a formatter is not taken away again. -/
structure Grows (s t : Store ω) : Prop where
  next : s.manager.next ≤ t.manager.next
  formatter : ∀ a < s.manager.next, (s.log.appenders a).formatter ≠ none → (t.log.appenders a).formatter ≠ none
  made : ∀ p, (s.log.formatter p).isSome = true → t.log.formatter p = s.log.formatter p

structure Ok (s : Store ω) : Prop where
  fault : s.fault = none
  sound : s.log.Sound
  root : ∀ name, (s.log.loggers name).root = if name = "root" then none else some "root"

/-- An appender is made and has a formatter. -/
def Usable (s : Store ω) (a : Nat) : Prop := a < s.manager.next ∧ (s.log.appenders a).formatter ≠ none

/-- What `format` of one event writes. -/
def Record (strftime : List Char → BitVec 64 → Option (List Char)) (s : Store ω)
    (r : List (ω × Option (List Char))) : Prop :=
  ∃ w p f level event, s.log.formatter p = some f ∧ r = f.items.map fun item => (w, item.format strftime level event)

/-- The stream has taken whole records, and of one more a part only if it has failed while open. -/
def Whole (strftime : List Char → BitVec 64 → Option (List Char)) (s : Store ω) (a : Nat) : Prop :=
  ∃ rs rest, s.text a = List.flatten rs ++ rest ∧ (∀ r ∈ rs, Record strftime s r) ∧
    (rest = [] ∨ s.stream a = ⟨true, true⟩ ∧ ∃ r, Record strftime s r ∧ rest <+: r)

def inv (strftime : List Char → BitVec 64 → Option (List Char)) : Lock → Store ω → Prop
  | .logger name, s => ∀ a ∈ (s.log.loggers name).appenders, Usable s a
  | .appender a, s => Whole strftime s a
  | _, _ => True

theorem agree_refl (l : Lock) (s : Store ω) : agree l s s := by
  cases l <;> simp [agree]

theorem agree_trans (l : Lock) {s t u : Store ω} (h : agree l s t) (h' : agree l t u) : agree l s u := by
  cases l with
  | config | manager | logger => exact Eq.trans h' h
  | var name => exact fun hn => (h' hn).trans (h hn)
  | appender a =>
    obtain ⟨hstream, htext, hnext, hmade⟩ := h
    obtain ⟨hstream', htext', hnext', hmade'⟩ := h'
    refine ⟨hstream'.trans hstream, htext'.trans htext, hnext.trans hnext', fun ha => ?_⟩
    obtain ⟨h₁, h₂⟩ := hmade ha
    obtain ⟨h₁', h₂'⟩ := hmade' (Nat.lt_of_lt_of_le ha hnext)
    exact ⟨h₁'.trans h₁, h₂'.trans h₂⟩

theorem Grows.refl (s : Store ω) : Grows s s := ⟨le_rfl, fun _ _ h => h, fun _ _ => rfl⟩

theorem Grows.trans {s t u : Store ω} (h : Grows s t) (h' : Grows t u) : Grows s u where
  next := h.next.trans h'.next
  formatter a ha hf := h'.formatter a (Nat.lt_of_lt_of_le ha h.next) (h.formatter a ha hf)
  made p hp := by
    have heq := h.made p hp
    rw [h'.made p (by rw [heq]; exact hp), heq]

theorem Usable.grow {s t : Store ω} {a : Nat} (h : Usable s a) (hg : Grows s t) : Usable t a :=
  ⟨Nat.lt_of_lt_of_le h.1 hg.next, hg.formatter a h.1 h.2⟩

variable {strftime : List Char → BitVec 64 → Option (List Char)}

theorem Record.grow {s t : Store ω} {r : List (ω × Option (List Char))} (h : Record strftime s r) (hg : Grows s t) :
    Record strftime t r := by
  obtain ⟨w, p, f, level, event, hf, hr⟩ := h
  exact ⟨w, p, f, level, event, by rw [hg.made p (by rw [hf]; rfl), hf], hr⟩

/-- The text and the stream are the same. -/
theorem Whole.same {s t : Store ω} {a : Nat} (h : Whole strftime s a) (htext : t.text a = s.text a)
    (hstream : s.stream a = ⟨true, true⟩ → t.stream a = ⟨true, true⟩) (hg : Grows s t) : Whole strftime t a := by
  obtain ⟨rs, rest, heq, hrs, hrest⟩ := h
  refine ⟨rs, rest, htext.trans heq, fun r hr => (hrs r hr).grow hg, hrest.imp_right fun hcut => ?_⟩
  obtain ⟨hst, r, hr, hprefix⟩ := hcut
  exact ⟨hstream hst, r, hr.grow hg, hprefix⟩

theorem inv_stable (l : Lock) (s t : Store ω) (ha : agree l s t) (hg : Grows s t) (h : inv strftime l s) :
    inv strftime l t := by
  cases l with
  | logger name =>
    intro a hmem
    have hlist : (t.log.loggers name).appenders = (s.log.loggers name).appenders := ha
    rw [hlist] at hmem
    exact (h a hmem).grow hg
  | appender a => exact Whole.same h ha.2.1 (fun hs => ha.1.trans hs) hg
  | config | var | manager => trivial

variable (strftime) in
def rules : Discipline ω Lock (Store ω) where
  rank := Lock.rank
  agree := agree
  own _ _ _ := True
  grow := Grows
  inv := inv strftime
  ok := Ok
  agree_refl := agree_refl
  agree_trans l _ _ _ := agree_trans l
  own_refl _ _ := trivial
  own_trans _ _ _ _ _ _ := trivial
  grow_refl := Grows.refl
  grow_trans _ _ _ := Grows.trans
  inv_stable := inv_stable

/-! ### What is changed -/

section
variable {s t : Store ω} {w : ω} {l : Option Lock}

/-- The streams and the texts of the other appenders are the same, and so are the loggers. -/
theorem changes_file (hok : Ok s) {a : Nat} (hl : l = some (.appender a)) (hmanager : t.manager = s.manager)
    (hnames : t.names = s.names) (hvalue : t.value = s.value) (hdatas : t.datas = s.datas)
    (hfault : t.fault = s.fault) (hstream : ∀ b, b ≠ a → t.stream b = s.stream b)
    (htext : ∀ b, b ≠ a → t.text b = s.text b) : (rules strftime).Changes w l s t := by
  have hlog : t.log = s.log := congrArg Manager.log hmanager
  have hgrow : Grows s t := by
    refine ⟨by rw [hmanager], fun b _ hb => ?_, fun p _ => ?_⟩
    · rw [hlog]
      exact hb
    · rw [hlog]
  refine ⟨fun l' hl' => ?_, fun _ _ => trivial, hgrow, ⟨hfault.trans hok.fault, hlog ▸ hok.sound, hlog ▸ hok.root⟩⟩
  cases l' with
  | config => exact hdatas
  | manager => exact hnames
  | var => exact fun _ => hvalue
  | logger name => exact congrArg (fun log => (log.loggers name).appenders) hlog
  | appender b =>
    have hb : b ≠ a := fun heq => hl' (by rw [hl, heq])
    refine ⟨hstream b hb, htext b hb, hgrow.next, fun _ => ?_⟩
    rw [hlog]
    exact ⟨rfl, rfl⟩

end

/-! ### Records -/

section
variable {s t : Store ω} {a : Nat}

theorem write_cases (s : Store ω) (w : ω) (a : Nat) (text : Option (List Char)) :
    (s.stream a).failed = true ∧ s.write w a text = s ∨
    (s.stream a = ⟨true, false⟩ ∧
      s.write w a text = { s with text := Function.update s.text a (s.text a ++ [(w, text)]) }) ∨
    (s.stream a).failed = false ∧ s.write w a text = s.setStream a ⟨(s.stream a).isOpen, true⟩ := by
  unfold Store.write
  by_cases hfailed : (s.stream a).failed = true
  · exact .inl ⟨hfailed, if_pos hfailed⟩
  · have hfailed' := Bool.eq_false_of_not_eq_true hfailed
    rw [if_neg hfailed]
    split
    · rename_i hopen
      have hopen : (s.stream a).isOpen = true := (Bool.and_eq_true_iff.mp hopen).1
      refine .inr (.inl ⟨?_, rfl⟩)
      rw [← hopen, ← hfailed']
    · exact .inr (.inr ⟨hfailed', rfl⟩)

theorem changes_write {w : ω} (hok : Ok s) (w' : ω) (text : Option (List Char)) :
    (rules strftime).Changes w (some (.appender a)) s (s.write w' a text) := by
  obtain ⟨-, h⟩ | ⟨-, h⟩ | ⟨-, h⟩ := write_cases s w' a text
  · rw [h]
    exact Changes.refl _ hok
  · rw [h]
    exact changes_file hok rfl rfl rfl rfl rfl rfl (fun _ _ => rfl) fun b hb => Function.update_of_ne hb ..
  · rw [h]
    exact changes_file hok rfl rfl rfl rfl rfl rfl (fun b hb => Function.update_of_ne hb ..) fun _ _ => rfl

section
variable (strftime) (w : ω) (level : LogLevel) (event : LogEvent) (f : LogFormatter)

/-- What is left of a record that is being written, unless the stream has failed. -/
def Writing (rest : List FormatItem) (s : Store ω) (a : Nat) : Prop :=
  (s.stream a).failed = true ∧ Whole strftime s a ∨
  (s.stream a).failed = false ∧ ∃ rs done, done ++ rest = f.items ∧
    s.text a = List.flatten rs ++ done.map (fun item => (w, item.format strftime level event)) ∧
    (∀ r ∈ rs, Record strftime s r) ∧ (done ≠ [] → (s.stream a).isOpen = true)

end

variable {w : ω} {level : LogLevel} {event : LogEvent} {f : LogFormatter} {rest : List FormatItem}

theorem Writing.same (h : Writing strftime w level event f rest s a) (htext : t.text a = s.text a)
    (hstream : t.stream a = s.stream a) (hg : Grows s t) : Writing strftime w level event f rest t a := by
  obtain ⟨hfailed, hwhole⟩ | ⟨hfailed, rs, done, hitems, heq, hrs, hopen⟩ := h
  · exact .inl ⟨hstream ▸ hfailed, hwhole.same htext (fun h => hstream.trans h) hg⟩
  · exact .inr ⟨hstream ▸ hfailed, rs, done, hitems, htext.trans heq, fun r hr => (hrs r hr).grow hg, hstream ▸ hopen⟩

/-- An item is written, or the record is cut off here. -/
theorem Writing.write {item : FormatItem} (h : Writing strftime w level event f (item :: rest) s a) (hok : Ok s)
    {p : FormatterPtr String} (hp : s.log.formatter p = some f) :
    Writing strftime w level event f rest (s.write w a (item.format strftime level event)) a := by
  have hc : (rules strftime).Changes w (some (.appender a)) s (s.write w a (item.format strftime level event)) :=
    changes_write hok w _
  have hgrow : Grows s (s.write w a (item.format strftime level event)) := hc.grow
  obtain ⟨hfailed, hwhole⟩ | ⟨hfailed, rs, done, hitems, heq, hrs, hopen⟩ := h
  · obtain ⟨-, h⟩ | ⟨hst, -⟩ | ⟨hnot, -⟩ := write_cases s w a (item.format strftime level event)
    · rw [h]
      exact .inl ⟨hfailed, hwhole⟩
    · rw [hst] at hfailed
      cases hfailed
    · cases hfailed.symm.trans hnot
  · obtain ⟨hyes, -⟩ | ⟨hst, h⟩ | ⟨-, h⟩ := write_cases s w a (item.format strftime level event)
    · cases hfailed.symm.trans hyes
    · rw [h] at hgrow ⊢
      refine .inr ⟨hfailed, rs, done ++ [item], by rw [← hitems, List.append_assoc]; rfl, ?_,
        fun r hr => (hrs r hr).grow hgrow, fun _ => by show (s.stream a).isOpen = true; rw [hst]⟩
      show Function.update s.text a _ a = _
      rw [Function.update_self, heq, List.append_assoc, List.map_append]
      rfl
    · rw [h] at hgrow ⊢
      have hstream : (s.setStream a ⟨(s.stream a).isOpen, true⟩).stream a = ⟨(s.stream a).isOpen, true⟩ :=
        Function.update_self ..
      refine .inl ⟨by rw [hstream], rs, _, heq, fun r hr => (hrs r hr).grow hgrow, ?_⟩
      by_cases hdone : done = []
      · exact .inl (by rw [hdone]; rfl)
      · refine .inr ⟨by rw [hstream, hopen hdone], _, ⟨w, p, f, level, event, hp, rfl⟩, ?_⟩
        rw [← hitems, List.map_append]
        exact List.prefix_append ..

theorem Writing.whole (h : Writing strftime w level event f [] s a) {p : FormatterPtr String}
    (hp : s.log.formatter p = some f) : Whole strftime s a := by
  obtain ⟨-, hwhole⟩ | ⟨-, rs, done, hitems, heq, hrs, -⟩ := h
  · exact hwhole
  · refine ⟨rs ++ [done.map fun item => (w, item.format strftime level event)], [], ?_, fun r hr => ?_, .inl rfl⟩
    · rw [heq, List.flatten_concat, List.append_nil]
    · obtain hr | hr := List.mem_append.mp hr
      · exact hrs r hr
      · rw [List.mem_singleton.mp hr]
        refine ⟨w, p, f, level, event, hp, ?_⟩
        rw [← hitems, List.append_nil]

end

/-! ### What the functions keep -/

/-- The mutexes that are held come before. -/
def Below (held : List (Lock × LockMode)) (n : Nat) : Prop := ∀ p ∈ held, p.1.rank < n

section
variable {s : Store ω} {w : ω} {held : List (Lock × LockMode)} {n : Nat}

theorem Below.cons (h : Below held n) {l : Lock} {mode : LockMode} {m : Nat} (hl : l.rank < m) (hle : n ≤ m) :
    Below ((l, mode) :: held) m := by
  intro p hp
  obtain rfl | hp := List.mem_cons.mp hp
  · exact hl
  · exact Nat.lt_of_lt_of_le (h p hp) hle

theorem Below.mono (h : Below held n) {m : Nat} (hle : n ≤ m) : Below held m :=
  fun p hp => Nat.lt_of_lt_of_le (h p hp) hle

section
variable {a : Nat} (hbelow : Below held 5)
include hbelow

section
variable (w : ω) (level : LogLevel) (event : LogEvent)

end

end

/-! ### Loggers -/

end

end

section
variable {ω : Type} [Fintype ω] [DecidableEq ω] {strftime : List Char → BitVec 64 → Option (List Char)}

/-- The threads with nothing called yet. -/
def start (strftime : List Char → BitVec 64 → Option (List Char)) (clients : ω → Client) (disk : Nat → Disk) :
    Machine ω Lock (Store ω) Unit :=
  .init (fun w => (clients w).code strftime w) (Store.init disk)

def sampleEvent (content : String) : LogEvent :=
  ⟨"main.cc".toList, 7, 0, 1, 0, 100, "main".toList, content.toList, "system".toList⟩

end

end ShioSylar.Log.Locked
