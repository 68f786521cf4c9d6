import ShioSylar.Lib.Words
import ShioSylar.Logger.Format

/-! Doubled percent signs.

`init` sees that a '%' is followed by another one, and takes the first one for text. The second one then
begins a directive, so "%%" is no way to write a percent sign: no pattern gives back a text that
has one (`escape_percent`). What an unclosed directive leaves in the items comes before the text
that is held at that point, so not even a text without a percent sign can be put before
every pattern (`escapes_iff`). -/
namespace ShioSylar.Log
open Lib

/-- What ends a C string. -/
def nul : Char := Char.ofNat 0

/-- Each '%' twice. -/
def escape : List Char → List Char
  | [] => []
  | c :: cs => if c = '%' then '%' :: '%' :: escape cs else c :: escape cs

@[simp] theorem escape_nil : escape [] = [] := rfl

theorem escape_double (cs : List Char) : escape ('%' :: cs) = '%' :: '%' :: escape cs := rfl

theorem escape_literal {c : Char} (hc : c ≠ '%') (cs : List Char) : escape (c :: cs) = c :: escape cs :=
  if_neg hc

theorem escape_of_not_mem {s : List Char} (hs : '%' ∉ s) : escape s = s := by
  induction s with
  | nil => rfl
  | cons c cs ih =>
    rw [List.mem_cons, not_or] at hs
    rw [escape_literal (Ne.symm hs.1), ih hs.2]

theorem escape_append (s t : List Char) : escape (s ++ t) = escape s ++ escape t := by
  induction s with
  | nil => rfl
  | cons c cs ih =>
    by_cases hc : c = '%'
    · rw [hc, List.cons_append, escape_double, escape_double, ih]
      rfl
    · rw [List.cons_append, escape_literal hc, escape_literal hc, ih]
      rfl

theorem escape_head? (s : List Char) : (escape s).head? = s.head? := by
  cases s with
  | nil => rfl
  | cons c cs =>
    by_cases hc : c = '%'
    · rw [hc]
      rfl
    · rw [escape_literal hc]
      rfl

/-- A character other than '%' stands for itself. -/
theorem escape_split {s x y : List Char} {c : Char} (hc : c ≠ '%') (h : escape s = x ++ c :: y) :
    ∃ s' t, s = s' ++ c :: t ∧ x = escape s' ∧ y = escape t := by
  induction s generalizing x with
  | nil => simp at h
  | cons d ds ih =>
    by_cases hd : d = '%'
    · rw [hd, escape_double] at h
      cases x with
      | nil => exact absurd (List.cons.inj h).1.symm hc
      | cons a x =>
        cases x with
        | nil => exact absurd (List.cons.inj (List.cons.inj h).2).1.symm hc
        | cons b x =>
          simp only [List.cons_append, List.cons.injEq] at h
          obtain ⟨ha, hb, hrest⟩ := h
          obtain ⟨s', t, rfl, rfl, rfl⟩ := ih hrest
          exact ⟨d :: s', t, rfl, by rw [hd, escape_double, ← ha, ← hb], rfl⟩
    · rw [escape_literal hd] at h
      cases x with
      | nil =>
        rw [List.nil_append, List.cons.injEq] at h
        exact ⟨[], ds, by rw [h.1]; rfl, rfl, h.2.symm⟩
      | cons a x =>
        rw [List.cons_append, List.cons.injEq] at h
        obtain ⟨s', t, rfl, rfl, rfl⟩ := ih h.2
        exact ⟨d :: s', t, rfl, by rw [escape_literal hd, h.1], rfl⟩

theorem escape_eq_nil {s : List Char} (h : escape s = []) : s = [] := by
  have hhead := escape_head? s
  rw [h] at hhead
  exact List.head?_eq_none_iff.mp hhead.symm

theorem escape_cons {s y : List Char} {c : Char} (hc : c ≠ '%') (h : escape s = c :: y) :
    ∃ t, s = c :: t ∧ y = escape t := by
  obtain ⟨s', t, rfl, hs', hy⟩ := escape_split (x := []) hc h
  rw [escape_eq_nil hs'.symm]
  exact ⟨t, rfl, hy⟩

theorem count_escape {c : Char} (hc : c ≠ '%') (s : List Char) : (escape s).count c = s.count c := by
  induction s with
  | nil => rfl
  | cons d ds ih =>
    by_cases hd : d = '%'
    · rw [hd, escape_double]
      simp [Ne.symm hc, ih]
    · rw [escape_literal hd, List.count_cons, List.count_cons, ih]

/-! ### What is written -/

/-- What `strftime` is known to do: it does not write a NUL, it copies what is no conversion, and
in the default format it writes a date, without a letter. -/
structure Lawful (strftime : List Char → BitVec 64 → Option (List Char)) : Prop where
  noNul : ∀ fmt time o, strftime fmt time = some o → nul ∉ o
  plain : ∀ fmt time o, nul ∉ fmt → strftime (escape fmt) time = some o → o = fmt
  default : ∃ o, strftime "%Y-%m-%d %H:%M:%S".toList 0 = some o ∧ o ≠ [] ∧ 'd' ∉ o

/-- What an unclosed directive leaves. -/
def patternError : List Char := "<<pattern_error>>".toList

/-- How many directives that are not closed come before the first one that is. -/
def lead : List Written → Nat
  | [] => 0
  | .double :: ws => lead ws
  | .unclosed _ :: ws => lead ws + 1
  | .closed _ _ :: _ => 0

section
variable (strftime : List Char → BitVec 64 → Option (List Char)) (level : LogLevel) (event : LogEvent)

/-- What is written for entries of `vec`. -/
def rendered (ps : List Piece) : Option (List Char) := output strftime level event (ps.map Piece.formatItem)

theorem rendered_text (s : List Char) (ps : List Piece) :
    rendered strftime level event (.text s :: ps) = (rendered strftime level event ps).map (s ++ ·) :=
  output_cons strftime level event (.string s) _

theorem rendered_flush (nstr : List Char) (ps : List Piece) :
    rendered strftime level event (flush nstr ++ ps) = (rendered strftime level event ps).map (nstr ++ ·) := by
  unfold flush
  split
  · rename_i h
    rw [List.isEmpty_iff.mp h]
    simp
  · exact rendered_text strftime level event nstr ps

/-- At the end the text that is held is written. -/
theorem rendered_end (nstr : List Char) :
    rendered strftime level event (pieces nstr 0 []) = some nstr := by
  have hflush := rendered_flush strftime level event nstr []
  rw [List.append_nil] at hflush
  exact hflush.trans (congrArg some (List.append_nil nstr))

/-- The text that is held comes after what the unclosed directives before the first other one
leave. -/
theorem rendered_pieces (cs : List Char) : ∃ r : Option (List Char), ∀ nstr,
    rendered strftime level event (pieces nstr 0 cs) =
      r.map fun r => power patternError (lead (written .outside cs)) ++ (nstr ++ r) := by
  induction cs using pattern_induction with
  | nil =>
    refine ⟨some [], fun nstr => ?_⟩
    rw [rendered_end, Option.map_some, List.append_nil]
    rfl
  | literal c cs hc ih =>
    obtain ⟨r, hr⟩ := ih
    refine ⟨r.map (c :: ·), fun nstr => ?_⟩
    rw [pieces_literal nstr hc, written_literal hc, hr]
    simp [Function.comp_def]
  | double cs ih =>
    obtain ⟨r, hr⟩ := ih
    refine ⟨r.map ('%' :: ·), fun nstr => ?_⟩
    rw [pieces_double, written_double, hr]
    simp [Function.comp_def, lead]
  | plain str rest hstr hrest =>
    refine ⟨rendered strftime level event (.item str [] :: pieces [] 0 rest), fun nstr => ?_⟩
    rw [pieces_plain nstr hstr hrest, written_plain hstr hrest, rendered_flush]
    rfl
  | braced str fmt rest hstr hfmt =>
    refine ⟨rendered strftime level event (.item str fmt :: pieces [] 0 rest), fun nstr => ?_⟩
    rw [pieces_braced nstr hstr hfmt, written_braced hstr hfmt, rendered_flush]
    rfl
  | unclosed str tail hstr htail ih =>
    obtain ⟨r, hr⟩ := ih
    refine ⟨r, fun nstr => ?_⟩
    rw [pieces_unclosed nstr hstr htail, written_unclosed hstr htail, rendered_text, hr, Option.map_map]
    refine congrArg (Option.map · r) (funext fun r => ?_)
    rw [lead, power_succ, List.append_assoc]
    rfl

end

/-! ### One event -/

/-- No text of it is empty, or has a letter or a NUL. -/
def zeroEvent : LogEvent where
  file := ['0']
  line := 0
  elapse := 0
  threadId := 0
  fiberId := 0
  time := 0
  threadName := ['0']
  content := ['0']
  loggerName := ['0']

section
variable {strftime : List Char → BitVec 64 → Option (List Char)} (h : Lawful strftime)
include h

/-- An item writes something else than the name of its directive. -/
theorem item_zero {c : Char} (hc : Registered [c]) (fmt : List Char) :
    (c = 'd' ∧ fmt ≠ [] ∧ formatItem [c] fmt = some (.dateTime fmt)) ∨
    ∃ item o, formatItem [c] fmt = some item ∧ item.format strftime .debug zeroEvent = some o ∧ nul ∉ o ∧
      ∃ a rest, o = a :: rest ∧ a ≠ c := by
  obtain ⟨a, ha, heq⟩ := hc
  obtain rfl := (List.cons.inj heq).1
  simp only [String.reduceToList, List.mem_cons, List.not_mem_nil, or_false] at ha
  by_cases hd : c = 'd'
  · rw [hd]
    cases fmt with
    | nil =>
      obtain ⟨o, ho, hne, hletter⟩ := h.default
      obtain ⟨a, rest, rfl⟩ := List.exists_cons_of_ne_nil hne
      exact .inr ⟨_, _, rfl, ho, h.noNul _ _ _ ho, a, rest, rfl,
        fun heq => hletter (heq ▸ List.mem_cons_self ..)⟩
    | cons b fmt => exact .inl ⟨rfl, List.cons_ne_nil _ _, rfl⟩
  · obtain rfl | rfl | rfl | rfl | rfl | rfl | rfl | rfl | rfl | rfl | rfl | rfl := ha
    case inr.inr.inr.inr.inr.inr.inl => exact absurd rfl hd
    all_goals exact .inr ⟨_, _, rfl, rfl, by decide, _, _, rfl, by decide⟩

/-- No item writes a NUL. -/
theorem item_nul {str : List Char} (hreg : Registered str) {fmt o : List Char}
    (ho : (Piece.item str fmt).formatItem.format strftime .debug zeroEvent = some o) : nul ∉ o := by
  obtain ⟨c, hc, rfl⟩ := hreg
  rcases item_zero h ⟨c, hc, rfl⟩ fmt with ⟨-, -, hitem⟩ | ⟨item, o', hitem, ho', hnul, -⟩
  · rw [Piece.formatItem, hitem] at ho
    exact h.noNul _ _ _ ho
  · rw [Piece.formatItem, hitem, Option.getD_some, ho'] at ho
    rw [← Option.some.inj ho]
    exact hnul

/-- The NULs that the formats of directives have. -/
def nuls : List Written → Nat
  | [] => 0
  | .double :: ws => nuls ws
  | .unclosed _ :: ws => nuls ws
  | .closed _ fmt :: ws => fmt.count nul + nuls ws

/-- What a directive and the rest write. -/
theorem rendered_item (nstr : List Char) {str fmt rest o : List Char} (hreg : Registered str)
    (ho : rendered strftime .debug zeroEvent (flush nstr ++ .item str fmt :: pieces [] 0 rest) = some o) :
    ∃ o', rendered strftime .debug zeroEvent (pieces [] 0 rest) = some o' ∧
      o.count nul = nstr.count nul + o'.count nul := by
  rw [rendered_flush, rendered, List.map_cons, output_cons] at ho
  obtain ⟨o₁, ho₁, rfl⟩ := Option.map_eq_some_iff.mp ho
  obtain ⟨o₂, ho₂, ho₁⟩ := Option.bind_eq_some_iff.mp ho₁
  obtain ⟨o₃, ho₃, rfl⟩ := Option.map_eq_some_iff.mp ho₁
  refine ⟨o₃, ho₃, ?_⟩
  rw [List.count_append, List.count_append, List.count_eq_zero.mpr (item_nul h hreg ho₂), Nat.zero_add]

/-- The NULs of a pattern are in what is written or in the formats, where `strftime` stops at
them. -/
theorem count_nul (nstr : List Char) {cs o : List Char}
    (hreg : ∀ str fmt, .closed str fmt ∈ written .outside cs → Registered str)
    (ho : rendered strftime .debug zeroEvent (pieces nstr 0 cs) = some o) :
    o.count nul + nuls (written .outside cs) ≤ nstr.count nul + cs.count nul := by
  induction cs using pattern_induction generalizing nstr o with
  | nil =>
    rw [rendered_end] at ho
    rw [← Option.some.inj ho]
    simp [nuls, written]
  | literal c cs hc ih =>
    rw [written_literal hc] at hreg ⊢
    rw [pieces_literal nstr hc] at ho
    have hle := ih (nstr ++ [c]) hreg ho
    rw [List.count_append, List.count_singleton] at hle
    rw [List.count_cons]
    omega
  | double cs ih =>
    rw [written_double] at hreg ⊢
    rw [pieces_double] at ho
    have hle := ih (nstr ++ ['%']) (fun str fmt hw => hreg str fmt (List.mem_cons_of_mem _ hw)) ho
    rw [List.count_append, List.count_singleton] at hle
    rw [nuls, List.count_cons]
    omega
  | plain str rest hstr hrest ih =>
    rw [written_plain hstr hrest] at hreg ⊢
    rw [pieces_plain nstr hstr hrest] at ho
    obtain ⟨o', ho', hcount⟩ := rendered_item h nstr (hreg str [] (List.mem_cons_self ..)) ho
    have hle := ih [] (fun str fmt hw => hreg str fmt (List.mem_cons_of_mem _ hw)) ho'
    rw [List.count_nil] at hle
    rw [nuls, List.count_nil, hcount, List.count_cons, List.count_append]
    omega
  | braced str fmt rest hstr hfmt ih =>
    rw [written_braced hstr hfmt] at hreg ⊢
    rw [pieces_braced nstr hstr hfmt] at ho
    obtain ⟨o', ho', hcount⟩ := rendered_item h nstr (hreg str fmt (List.mem_cons_self ..)) ho
    have hle := ih [] (fun str fmt hw => hreg str fmt (List.mem_cons_of_mem _ hw)) ho'
    rw [List.count_nil] at hle
    rw [nuls, hcount, List.count_cons, List.count_append, List.count_cons, List.count_append, List.count_cons]
    omega
  | unclosed str tail hstr htail ih =>
    rw [written_unclosed hstr htail] at hreg ⊢
    rw [pieces_unclosed nstr hstr htail, rendered_text] at ho
    obtain ⟨o', ho', rfl⟩ := Option.map_eq_some_iff.mp ho
    have hle := ih nstr (fun str fmt hw => hreg str fmt (List.mem_cons_of_mem _ hw)) ho'
    have herror : "<<pattern_error>>".toList.count nul = 0 := by decide
    rw [nuls, List.count_append, herror, List.count_cons]
    omega

end

/-! ### The first percent sign -/

theorem pieces_text {u : List Char} (hu : '%' ∉ u) (nstr cs : List Char) :
    pieces nstr 0 (u ++ cs) = pieces (nstr ++ u) 0 cs := by
  induction u generalizing nstr with
  | nil => rw [List.append_nil, List.nil_append]
  | cons c rest ih =>
    rw [List.mem_cons, not_or] at hu
    rw [List.cons_append, pieces_literal nstr (Ne.symm hu.1), ih hu.2, List.append_assoc, List.singleton_append]

theorem written_text {u : List Char} (hu : '%' ∉ u) (cs : List Char) :
    written .outside (u ++ cs) = written .outside cs := by
  induction u with
  | nil => rfl
  | cons c rest ih =>
    rw [List.mem_cons, not_or] at hu
    rw [List.cons_append, written_literal (Ne.symm hu.1), ih hu.2]

/-- Of a run of percent signs all but the last one are text. -/
theorem escape_run (cs : List Char) : ∃ i v, cs = List.replicate i '%' ++ v ∧ v.head? ≠ some '%' ∧
    (∀ nstr, pieces nstr 0 ('%' :: escape cs) =
      pieces (nstr ++ List.replicate (2 * i) '%') 0 ('%' :: escape v)) ∧
    written .outside ('%' :: escape cs) =
      List.replicate (2 * i) .double ++ written .outside ('%' :: escape v) := by
  induction cs with
  | nil => exact ⟨0, [], rfl, by simp, fun nstr => by simp, rfl⟩
  | cons c cs ih =>
    by_cases hc : c = '%'
    · obtain ⟨i, v, rfl, hv, hpieces, hwritten⟩ := ih
      refine ⟨i + 1, v, by rw [hc]; rfl, hv, fun nstr => ?_, ?_⟩
      · rw [hc, escape_double, pieces_double, pieces_double, hpieces, Nat.mul_succ, List.replicate_succ,
          List.replicate_succ]
        simp only [List.append_assoc, List.cons_append, List.nil_append]
      · rw [hc, escape_double, written_double, written_double, hwritten, Nat.mul_succ, List.replicate_succ,
          List.replicate_succ]
        rfl
    · exact ⟨0, c :: cs, rfl, by simpa using hc, fun nstr => by simp, rfl⟩

/-- Up to the directive that the first run of them begins. -/
theorem escape_first {s : List Char} (hs : '%' ∈ s) : ∃ u i v, s = u ++ '%' :: (List.replicate i '%' ++ v) ∧
    '%' ∉ u ∧ v.head? ≠ some '%' ∧
    (∀ nstr, pieces nstr 0 (escape s) =
      pieces (nstr ++ u ++ '%' :: List.replicate (2 * i) '%') 0 ('%' :: escape v)) ∧
    written .outside (escape s) =
      .double :: (List.replicate (2 * i) .double ++ written .outside ('%' :: escape v)) := by
  obtain ⟨u, cs, rfl, hu⟩ := List.eq_append_cons_of_mem hs
  obtain ⟨i, v, rfl, hv, hpieces, hwritten⟩ := escape_run cs
  have hescape : ∀ cs, escape (u ++ '%' :: cs) = u ++ '%' :: '%' :: escape cs := by
    intro cs
    rw [escape_append, escape_of_not_mem hu]
    rfl
  refine ⟨u, i, v, rfl, hu, hv, fun nstr => ?_, ?_⟩
  · rw [hescape, pieces_text hu, pieces_double, hpieces]
    simp only [List.append_assoc, List.cons_append, List.nil_append]
  · rw [hescape, written_text hu, written_double, hwritten]

section
variable {strftime : List Char → BitVec 64 → Option (List Char)} {level : LogLevel} {event : LogEvent}

theorem not_mem_patternError : '%' ∉ patternError := by decide

theorem length_patternError : patternError.length = 17 := by decide

/-- Up to the first percent sign there is what unclosed directives leave, and the text that is
held. -/
theorem rendered_first {u x t y cs : List Char} (hu : '%' ∉ u) (ht : '%' ∉ t)
    (ho : rendered strftime level event (pieces (u ++ '%' :: x) 0 cs) = some (t ++ '%' :: y)) :
    power patternError (lead (written .outside cs)) ++ u = t := by
  obtain ⟨r, hr⟩ := rendered_pieces strftime level event cs
  rw [hr] at ho
  obtain ⟨r, -, hr⟩ := Option.map_eq_some_iff.mp ho
  have hleft : '%' ∉ power patternError (lead (written .outside cs)) ++ u := by
    rw [List.mem_append, not_or]
    exact ⟨fun hm => not_mem_patternError (mem_power hm), hu⟩
  exact before_unique hleft ht (by simpa using hr)

/-- Behind the text that is held there is the rest of the text, and all percent signs were in
it. -/
theorem rendered_held {u v : List Char} {i : Nat} {ps : List Piece} (hv : v.head? ≠ some '%')
    (ho : rendered strftime level event (flush (u ++ '%' :: List.replicate (2 * i) '%') ++ ps) =
      some (u ++ '%' :: (List.replicate i '%' ++ v))) : rendered strftime level event ps = some v := by
  rw [rendered_flush] at ho
  obtain ⟨o, hps, hsame⟩ := Option.map_eq_some_iff.mp ho
  rw [List.append_assoc, List.cons_append, List.append_cancel_left_eq, List.cons.injEq, Nat.two_mul,
    ← List.replicate_append_replicate, List.append_assoc, List.append_cancel_left_eq] at hsame
  cases i with
  | zero =>
    rw [hps, ← hsame.2]
    rfl
  | succ i =>
    rw [← hsame.2] at hv
    exact absurd rfl hv

/-- What is written does not end in its own text with a little more in front. -/
theorem not_shifted {w x : List Char} (hx : x.length = 2) (hpercent : '%' ∉ x)
    (ho : rendered strftime level event (pieces [] 0 (escape w)) = some (x ++ '}' :: w)) : False := by
  by_cases hw : '%' ∈ w
  · obtain ⟨u, i, v, rfl, hu, -, hpieces, -⟩ := escape_first hw
    have hright : '%' ∉ x ++ '}' :: u := by
      rw [List.mem_append, List.mem_cons, not_or, not_or]
      exact ⟨hpercent, by decide, hu⟩
    rw [hpieces, List.nil_append, ← List.cons_append, ← List.append_assoc] at ho
    have hlen := congrArg List.length (rendered_first hu hright ho)
    rw [List.length_append, List.length_append, List.length_cons, length_power, length_patternError, hx] at hlen
    omega
  · have htext := pieces_text hw [] []
    rw [List.append_nil, List.nil_append] at htext
    rw [escape_of_not_mem hw, htext, rendered_end] at ho
    have hlen := congrArg List.length (Option.some.inj ho)
    simp at hlen
    omega

/-- A format with a text in front of it that it also writes. -/
theorem copied_shifted {fmt o w : List Char} (h : 'd' :: '{' :: (fmt ++ '}' :: w) = fmt ++ o) :
    ∃ x, x.length = 2 ∧ '%' ∉ x ∧ o = x ++ '}' :: w := by
  have hleft : fmt <+: 'd' :: '{' :: (fmt ++ '}' :: w) := ⟨o, h.symm⟩
  have hright : 'd' :: '{' :: fmt <+: 'd' :: '{' :: (fmt ++ '}' :: w) := ⟨'}' :: w, rfl⟩
  have hpre : fmt <+: 'd' :: '{' :: fmt :=
    List.prefix_of_prefix_length_le hleft hright (by simp only [List.length_cons]; omega)
  obtain ⟨x, hx⟩ := hpre
  have hlen := congrArg List.length hx
  have hcount := congrArg (List.count '%') hx
  have ho : fmt ++ (x ++ '}' :: w) = fmt ++ o := by
    rw [← List.append_assoc, hx, ← h]
    rfl
  refine ⟨x, by simp at hlen; omega, ?_, (List.append_cancel_left ho).symm⟩
  rw [← List.count_eq_zero]
  simp at hcount
  exact hcount

end

section
variable {strftime : List Char → BitVec 64 → Option (List Char)} (h : Lawful strftime)
include h

/-- What a directive of a name that is registered writes, if it and what follows it write the
text of the pattern from its name on. -/
theorem closed_absurd {str fmt rest v : List Char} (hreg : Registered str) (hv : (escape v).head? = str.head?)
    (hbraced : fmt ≠ [] → escape v = str ++ '{' :: (fmt ++ '}' :: rest)) (hnul : nul ∉ fmt)
    (ho : rendered strftime .debug zeroEvent (.item str fmt :: pieces [] 0 rest) = some v) : False := by
  obtain ⟨c, hc, rfl⟩ := hreg
  rw [rendered, List.map_cons, output_cons] at ho
  obtain ⟨o, hformat, hrest⟩ := Option.bind_eq_some_iff.mp ho
  obtain ⟨r, hr, rfl⟩ := Option.map_eq_some_iff.mp hrest
  rcases item_zero h ⟨c, hc, rfl⟩ fmt with ⟨rfl, hne, hitem⟩ | ⟨item, o', hitem, ho', -, a, tail, rfl, hac⟩
  · -- what stands between the braces is written without them
    rw [Piece.formatItem, hitem, Option.getD_some] at hformat
    obtain ⟨s', w, hsplit, hs', rfl⟩ := escape_split (x := 'd' :: '{' :: fmt) (by decide) (hbraced hne)
    obtain ⟨t, rfl, ht⟩ := escape_cons (by decide) hs'.symm
    obtain ⟨a, rfl, rfl⟩ := escape_cons (by decide) ht.symm
    rw [← List.count_eq_zero, count_escape (by decide), List.count_eq_zero] at hnul
    obtain rfl := h.plain a zeroEvent.time o hnul hformat
    obtain ⟨x, hx, hpercent, rfl⟩ := copied_shifted hsplit.symm
    exact not_shifted hx hpercent hr
  · rw [Piece.formatItem, hitem, Option.getD_some, ho'] at hformat
    rw [← Option.some.inj hformat, escape_head?] at hv
    exact hac (Option.some.inj hv)

omit h in
theorem count_le_nuls {ws : List Written} {str fmt : List Char} (hw : .closed str fmt ∈ ws) :
    fmt.count nul ≤ nuls ws := by
  induction ws with
  | nil => cases hw
  | cons w ws ih =>
    rcases List.mem_cons.mp hw with rfl | hw
    · exact Nat.le_add_right _ _
    · have hle := ih hw
      cases w <;> rw [nuls] <;> omega

/-- **No text with a percent sign comes back** from its pattern with all of them doubled. -/
theorem escape_percent {s : List Char} (hs : '%' ∈ s)
    (hreg : ∀ str fmt, .closed str fmt ∈ written .outside (escape s) → Registered str) :
    rendered strftime .debug zeroEvent (pieces [] 0 (escape s)) ≠ some s := by
  intro ho
  have hnuls := count_nul h [] hreg ho
  rw [count_escape (by decide), List.count_nil, Nat.zero_add] at hnuls
  have hfmt : ∀ str fmt, .closed str fmt ∈ written .outside (escape s) → nul ∉ fmt := by
    intro str fmt hmem
    have hle := count_le_nuls hmem
    exact List.count_eq_zero.mp (by omega)
  obtain ⟨u, i, v, rfl, hu, hv, hpieces, hwritten⟩ := escape_first hs
  rw [hpieces, List.nil_append] at ho
  rw [hwritten] at hreg hfmt
  have hhead : (escape v).head? ≠ some '%' := by rwa [escape_head?]
  have hmem : ∀ {w : Written} {ws : List Written}, written .outside ('%' :: escape v) = w :: ws →
      w ∈ .double :: (List.replicate (2 * i) .double ++ written .outside ('%' :: escape v)) := by
    intro w ws heq
    rw [heq]
    exact List.mem_cons_of_mem _ (List.mem_append_right _ (List.mem_cons_self ..))
  rcases directive_cases hhead with
    ⟨str, rest, hcs, hstr, hrest⟩ | ⟨str, fmt, rest, hcs, hstr, hbrace⟩ | ⟨str, tail, hcs, hstr, htail⟩
  · have hw := hmem ((congrArg _ (congrArg _ hcs)).trans (written_plain hstr hrest))
    rw [hcs, pieces_plain _ hstr hrest] at ho
    refine closed_absurd h (hreg _ _ hw) ?_ (fun hne => absurd rfl hne) (hfmt _ _ hw) (rendered_held hv ho)
    obtain ⟨c, -, rfl⟩ := hreg _ _ hw
    rw [hcs]
    rfl
  · have hw := hmem ((congrArg _ (congrArg _ hcs)).trans (written_braced hstr hbrace rest))
    rw [hcs, pieces_braced _ hstr hbrace] at ho
    refine closed_absurd h (hreg _ _ hw) ?_ (fun _ => hcs) (hfmt _ _ hw) (rendered_held hv ho)
    obtain ⟨c, -, rfl⟩ := hreg _ _ hw
    rw [hcs]
    rfl
  · -- the text that an unclosed directive leaves comes before all others
    have hlen := congrArg List.length (rendered_first hu hu ho)
    rw [hcs, written_unclosed hstr htail, lead, List.length_append, length_power, length_patternError] at hlen
    omega

end

/-! ### A text in front of a pattern -/

section
variable (strftime : List Char → BitVec 64 → Option (List Char)) (level : LogLevel) (event : LogEvent)

/-- No format of a directive is written. -/
def Unformatted (cs : List Char) : Prop := ∀ str fmt, .closed str fmt ∈ written .outside cs → fmt = []

theorem unformatted_of_not_mem {cs : List Char} (hcs : '}' ∉ cs) : Unformatted cs := by
  intro str fmt hw
  induction cs using pattern_induction with
  | nil => cases hw
  | literal c cs hc ih =>
    rw [written_literal hc] at hw
    exact ih (fun hmem => hcs (List.mem_cons_of_mem _ hmem)) hw
  | double cs ih =>
    rw [written_double] at hw
    rcases List.mem_cons.mp hw with heq | hw
    · cases heq
    · exact ih (fun hmem => hcs (List.mem_cons_of_mem _ hmem)) hw
  | plain name rest hname hrest ih =>
    rw [written_plain hname hrest] at hw
    rcases List.mem_cons.mp hw with heq | hw
    · exact (Written.closed.inj heq).2
    · exact ih (fun hmem => hcs (List.mem_cons_of_mem _ (List.mem_append_right _ hmem))) hw
  | braced name fmt rest => exact absurd (by simp) hcs
  | unclosed name tail hname htail ih =>
    rw [written_unclosed hname htail] at hw
    rcases List.mem_cons.mp hw with heq | hw
    · cases heq
    · exact ih (fun hmem => hcs (List.mem_cons_of_mem _ hmem)) hw

/-- After a brace that is left open there is no format. -/
theorem unformatted_of_lead {cs : List Char} (hlead : lead (written .outside cs) ≠ 0) : Unformatted cs := by
  induction cs using pattern_induction with
  | nil => exact absurd rfl hlead
  | literal c cs hc ih =>
    rw [written_literal hc] at hlead
    intro str fmt hw
    rw [written_literal hc] at hw
    exact ih hlead str fmt hw
  | double cs ih =>
    rw [written_double] at hlead
    intro str fmt hw
    rw [written_double] at hw
    rcases List.mem_cons.mp hw with heq | hw
    · cases heq
    · exact ih hlead str fmt hw
  | plain name rest hname hrest =>
    rw [written_plain hname hrest] at hlead
    exact absurd rfl hlead
  | braced name fmt rest hname hfmt =>
    rw [written_braced hname hfmt] at hlead
    exact absurd rfl hlead
  | unclosed name tail hname htail =>
    intro str fmt hw
    have hname' : '%' ∉ name ++ ['{'] := by
      rw [List.mem_append, not_or]
      exact ⟨hname.ne not_inName_percent, by decide⟩
    rw [written_unclosed hname htail, List.append_cons, written_text hname'] at hw
    rcases List.mem_cons.mp hw with heq | hw
    · cases heq
    · exact unformatted_of_not_mem htail str fmt hw

theorem output_some {items : List FormatItem}
    (hitems : ∀ item ∈ items, ∃ o, item.format strftime level event = some o) :
    ∃ o, output strftime level event items = some o := by
  induction items with
  | nil => exact ⟨[], rfl⟩
  | cons item items ih =>
    obtain ⟨o, ho⟩ := hitems item (List.mem_cons_self ..)
    obtain ⟨os, hos⟩ := ih fun item' hmem => hitems item' (List.mem_cons_of_mem _ hmem)
    exact ⟨o ++ os, by rw [output_cons, ho, hos]; rfl⟩

variable {strftime}

theorem rendered_some (h : Lawful strftime) {cs : List Char} (hcs : Unformatted cs) :
    ∃ o, rendered strftime .debug zeroEvent (pieces [] 0 cs) = some o := by
  refine output_some strftime .debug zeroEvent fun item hitem => ?_
  obtain ⟨piece, hpiece, rfl⟩ := List.mem_map.mp hitem
  cases piece with
  | text s => exact ⟨s, rfl⟩
  | item str fmt =>
    obtain rfl := hcs str fmt ((item_mem_pieces ..).mp hpiece)
    rw [Piece.formatItem]
    by_cases hreg : Registered str
    · obtain ⟨c, hc, rfl⟩ := hreg
      simp only [String.reduceToList, List.mem_cons, List.not_mem_nil, or_false] at hc
      obtain rfl | rfl | rfl | rfl | rfl | rfl | rfl | rfl | rfl | rfl | rfl | rfl := hc
      case inr.inr.inr.inr.inr.inr.inl =>
        obtain ⟨o, ho, -⟩ := h.default
        exact ⟨o, ho⟩
      all_goals exact ⟨_, rfl⟩
    · rw [← formatItem_isSome str [], Bool.not_eq_true, Option.isSome_eq_false_iff, Option.isNone_iff_eq_none] at hreg
      rw [hreg]
      exact ⟨_, rfl⟩

end

/-! ### A clock that stands -/

/-- `strftime` on formats whose only conversion is "%%". -/
def copied : List Char → Option (List Char)
  | [] => some []
  | '%' :: '%' :: cs => (copied cs).map ('%' :: ·)
  | c :: cs => if c = '%' then none else if c = nul then some [] else (copied cs).map (c :: ·)

/-- Of the others it knows the default one, at the epoch. -/
def epoch (format : List Char) (time : BitVec 64) : Option (List Char) :=
  if format = "%Y-%m-%d %H:%M:%S".toList then
    if time = 0 then some "1970-01-01 00:00:00".toList else none
  else copied format

theorem copied_noNul {fmt o : List Char} (ho : copied fmt = some o) : nul ∉ o := by
  fun_induction copied fmt generalizing o with
  | case1 =>
    cases ho
    exact List.not_mem_nil
  | case2 cs ih =>
    obtain ⟨o, hcs, rfl⟩ := Option.map_eq_some_iff.mp ho
    rw [List.mem_cons, not_or]
    exact ⟨by decide, ih hcs⟩
  | case3 => cases ho
  | case4 =>
    cases ho
    exact List.not_mem_nil
  | case5 c cs _ _ hc ih =>
    obtain ⟨o, hcs, rfl⟩ := Option.map_eq_some_iff.mp ho
    rw [List.mem_cons, not_or]
    exact ⟨Ne.symm hc, ih hcs⟩

theorem copied_escape {s : List Char} (hs : nul ∉ s) : copied (escape s) = some s := by
  induction s with
  | nil => rfl
  | cons c cs ih =>
    rw [List.mem_cons, not_or] at hs
    by_cases hc : c = '%'
    · rw [hc, escape_double, copied, ih hs.2]
      rfl
    · rw [escape_literal hc, copied, if_neg hc, if_neg (Ne.symm hs.1), ih hs.2]
      · rfl
      · intro _ heq
        exact absurd heq hc

theorem epoch_lawful : Lawful epoch where
  noNul fmt time o ho := by
    unfold epoch at ho
    split at ho
    · split at ho
      · cases ho
        decide
      · cases ho
    · exact copied_noNul ho
  plain fmt time o hfmt ho := by
    have hformat : escape fmt ≠ "%Y-%m-%d %H:%M:%S".toList := by
      intro heq
      obtain ⟨s', t, -, hs', -⟩ := escape_split (x := ['%']) (c := 'Y') (by decide) heq
      cases s' with
      | nil => cases hs'
      | cons c cs =>
        by_cases hc : c = '%'
        · rw [hc] at hs'
          cases hs'
        · rw [escape_literal hc] at hs'
          exact hc (List.cons.inj hs').1.symm
    rw [epoch, if_neg hformat, copied_escape hfmt] at ho
    exact (Option.some.inj ho).symm
  default := ⟨_, rfl, by decide, by decide⟩

/-! ### The round trip -/

section
variable (strftime : List Char → BitVec 64 → Option (List Char))

/-- The pattern of `s` is accepted and gives back `s` alone, and `s` first in front of `p`. -/
def Escapes (s p : String) : Prop :=
  (LogFormatter.mk (String.ofList (escape s.toList))).isError = false ∧
  (∀ level event,
    (LogFormatter.mk (String.ofList (escape s.toList))).format strftime level event = some s.toList) ∧
  ((LogFormatter.mk p).isError = false → ∀ level event,
    (LogFormatter.mk (String.ofList (escape s.toList) ++ p)).format strftime level event =
      ((LogFormatter.mk p).format strftime level event).map (s.toList ++ ·))

variable (level : LogLevel) (event : LogEvent) {s : String}

theorem format_append (hs : '%' ∉ s.toList) (p : String) :
    (LogFormatter.mk (String.ofList (escape s.toList) ++ p)).format strftime level event =
      rendered strftime level event (pieces s.toList 0 p.toList) := by
  have htext := pieces_text hs [] p.toList
  rw [List.nil_append] at htext
  rw [← htext, escape_of_not_mem hs, String.ofList_toList]
  exact congrArg (fun cs => rendered strftime level event (pieces [] 0 cs)) (String.toList_append ..)

/-- A text without a percent sign is a pattern for itself. -/
theorem format_text (hs : '%' ∉ s.toList) :
    (LogFormatter.mk (String.ofList (escape s.toList))).isError = false ∧
    (LogFormatter.mk (String.ofList (escape s.toList))).format strftime level event = some s.toList := by
  have hpattern : (LogFormatter.mk (String.ofList (escape s.toList))).pattern.toList = s.toList := by
    rw [String.toList_ofList, escape_of_not_mem hs]
  have hwritten := written_text hs []
  have hpieces := pieces_text hs [] []
  rw [List.append_nil] at hwritten hpieces
  rw [List.nil_append] at hpieces
  constructor
  · rw [← Bool.not_eq_true, isError_iff, hpattern, hwritten]
    rintro ⟨str, fmt, hw, -⟩
    cases hw
  · rw [LogFormatter.format, LogFormatter.items, hpattern, hpieces]
    exact rendered_end strftime level event s.toList

end

/-- **Escaping.** For every text and every pattern after it: the escaped text is a pattern of its own
and may stand before the other one if and only if the text has no percent sign, and the pattern
is rejected, or none of its directives before the first closed one is left open, or
the text is made of what such a directive leaves. -/
theorem escapes_iff {strftime : List Char → BitVec 64 → Option (List Char)} (h : Lawful strftime) (s p : String) :
    Escapes strftime s p ↔ '%' ∉ s.toList ∧ ((LogFormatter.mk p).isError = true ∨
      lead (written .outside p.toList) = 0 ∨ ∃ n, s.toList = power patternError n) := by
  constructor
  · rintro ⟨hgood, hself, hfront⟩
    have hs : '%' ∉ s.toList := by
      intro hs
      rw [← Bool.not_eq_true, isError_iff, String.toList_ofList] at hgood
      refine escape_percent h hs (fun str fmt hw => ?_) ?_
      · by_contra hreg
        exact hgood ⟨str, fmt, hw, hreg⟩
      · have hformat := hself .debug zeroEvent
        rw [LogFormatter.format, LogFormatter.items, String.toList_ofList] at hformat
        exact hformat
    refine ⟨hs, ?_⟩
    rw [or_iff_not_imp_left, or_iff_not_imp_left, Bool.not_eq_true]
    intro hp hlead
    obtain ⟨k, hk⟩ := Nat.exists_eq_succ_of_ne_zero hlead
    obtain ⟨r, hr⟩ := rendered_pieces strftime .debug zeroEvent p.toList
    obtain ⟨o, ho⟩ := rendered_some h (unformatted_of_lead hlead)
    have hboth := hfront hp .debug zeroEvent
    rw [format_append strftime .debug zeroEvent hs, hr,
      show (LogFormatter.mk p).format strftime .debug zeroEvent = some o from ho] at hboth
    rw [hr] at ho
    obtain ⟨r, rfl, rfl⟩ := Option.map_eq_some_iff.mp ho
    -- the text and what the directives leave may be exchanged
    have hswap : power patternError (k + 1) ++ s.toList = s.toList ++ power patternError (k + 1) := by
      rw [hk] at hboth
      simpa [← List.append_assoc] using hboth
    exact power_of_comm (by decide) (by decide) hswap
  · rintro ⟨hs, hwhen⟩
    refine ⟨(format_text strftime .debug zeroEvent hs).1,
      fun level event => (format_text strftime level event hs).2, fun hp level event => ?_⟩
    obtain ⟨r, hr⟩ := rendered_pieces strftime level event p.toList
    have hformat : (LogFormatter.mk p).format strftime level event = _ := hr []
    rw [format_append strftime level event hs, hformat, hr, Option.map_map]
    refine congrArg (Option.map · r) (funext fun r => ?_)
    rcases hwhen with herror | hlead | ⟨n, hn⟩
    · rw [herror] at hp
      cases hp
    · rw [hlead]
      rfl
    · rw [hn, Function.comp_apply, List.nil_append, ← List.append_assoc, ← List.append_assoc, power_power]

/-- A text in front of a pattern. -/
theorem escapes_iff_text : '%' ∉ "a\x7db\x7b".toList ∧ Escapes epoch "a\x7db\x7b" "%p %m%n" :=
  ⟨by decide, (escapes_iff epoch_lawful "a\x7db\x7b" "%p %m%n").mpr ⟨by decide, .inr (.inl (by decide))⟩⟩

/-- The second percent sign begins a directive, and what an unclosed one leaves comes first. -/
theorem escapes_doubled : (LogFormatter.mk "%%").isError = true ∧
    (LogFormatter.mk "%%").items = [.string ['%'], .string "<<error_format %>>".toList] ∧
    ¬ Escapes epoch "%" "%m" ∧ (LogFormatter.mk "a%m\x7bb").items = [.string patternError, .string "am\x7bb".toList] ∧
    ¬ Escapes epoch "a" "%m\x7bb" := by
  have herror : (LogFormatter.mk "%%").isError = true := by decide
  refine ⟨herror, by decide, fun hall => ?_, by decide, fun hall => ?_⟩
  · exact absurd (hall.1.symm.trans herror) (by decide)
  · have hfront := hall.2.2 (by decide) .debug zeroEvent
    exact absurd hfront (by decide)

end ShioSylar.Log
