import ShioSylar.Lib.Words
import ShioSylar.Logger.Appenders

/-! The directives of a log pattern.

`written` reads a pattern once, from left to right, and says which directives are in it, and what
is wrong with them. It is what a pattern means to who writes it: it has no index that
is moved back and no text that is held. `LogFormatter::init` finds the same directives
(`pieces_written`), and is wrong about one of them: for a directive whose brace is not closed it
puts a text into the items, as any other text, and does not set `l_error`. Such a pattern is taken
for a good one (`rejects_iff`). -/
namespace ShioSylar.Log
open Lib

/-- What the name of a directive is made of. -/
def inName (c : Char) : Bool := c.isAlpha || c == '}'

/-- The names in `l_format_item`. -/
def Registered (str : List Char) : Prop := ∃ c ∈ "mprctndflTFN".toList, str = [c]

/-- What a pattern has besides its text. -/
inductive Written where
  /-- A '%' outside braces that another one follows. -/
  | double
  | unclosed (str : List Char)
  | closed (str fmt : List Char)
  deriving DecidableEq

/-- Where in a pattern. -/
inductive Mode where
  | outside
  | name (str : List Char)
  | braces (str fmt : List Char)

/-- A character that belongs to no directive before it. -/
def percent (c : Char) (cs : List Char) : List Written × Mode :=
  if c ≠ '%' then ([], .outside)
  else if cs.head? = some '%' then ([.double], .outside)
  else ([], .name [])

def written : Mode → List Char → List Written
  | .outside, [] => []
  | .name str, [] => [.closed str []]
  | .braces str _, [] => [.unclosed str]
  | .outside, c :: cs => (percent c cs).1 ++ written (percent c cs).2 cs
  | .name str, c :: cs =>
    if inName c then written (.name (str ++ [c])) cs
    else if c = '{' then
      if '}' ∈ cs then written (.braces str []) cs else .unclosed str :: written .outside cs
    else .closed str [] :: ((percent c cs).1 ++ written (percent c cs).2 cs)
  | .braces str fmt, c :: cs =>
    if c = '}' then .closed str fmt :: written .outside cs else written (.braces str (fmt ++ [c])) cs

section
variable {c : Char} {str fmt : List Char} (cs : List Char)

theorem percent_literal (hc : c ≠ '%') : percent c cs = ([], .outside) := if_pos hc

theorem percent_double {cs : List Char} (hcs : cs.head? = some '%') :
    percent '%' cs = ([.double], .outside) := if_pos hcs

theorem percent_name {cs : List Char} (hcs : cs.head? ≠ some '%') : percent '%' cs = ([], .name []) :=
  if_neg hcs

theorem written_outside (c : Char) :
    written .outside (c :: cs) = (percent c cs).1 ++ written (percent c cs).2 cs := rfl

theorem written_inName (hc : inName c = true) :
    written (.name str) (c :: cs) = written (.name (str ++ [c])) cs := if_pos hc

theorem written_brace (str : List Char) : written (.name str) ('{' :: cs) =
    if '}' ∈ cs then written (.braces str []) cs else .unclosed str :: written .outside cs := rfl

theorem written_after (hc : inName c = false) (hbrace : c ≠ '{') :
    written (.name str) (c :: cs) = .closed str [] :: written .outside (c :: cs) := by
  have hname : ¬ inName c = true := by simp [hc]
  exact (if_neg hname).trans (if_neg hbrace)

theorem written_close (str fmt : List Char) :
    written (.braces str fmt) ('}' :: cs) = .closed str fmt :: written .outside cs := rfl

theorem written_inBraces (hc : c ≠ '}') :
    written (.braces str fmt) (c :: cs) = written (.braces str (fmt ++ [c])) cs := if_neg hc

end

/-! ### One directive at a time -/

def IsName (str : List Char) : Prop := ∀ c ∈ str, inName c = true

/-- What follows a directive without braces. -/
def Ends (str rest : List Char) : Prop :=
  (str ++ rest).head? ≠ some '%' ∧ ∀ c ∈ rest.head?, inName c = false ∧ c ≠ '{'

theorem not_inName_percent : inName '%' = false := by decide

theorem not_inName_brace : inName '{' = false := by decide

theorem IsName.ne {str : List Char} (h : IsName str) {c : Char} (hc : inName c = false) : c ∉ str := by
  intro hmem
  rw [h c hmem] at hc
  cases hc

/-- Before a brace a directive is no '%' that another one follows. -/
theorem IsName.head? {str : List Char} (h : IsName str) (cs : List Char) :
    (str ++ '{' :: cs).head? ≠ some '%' := by
  cases str with
  | nil => simp
  | cons c rest =>
    intro hc
    have hc : c = '%' := Option.some.inj hc
    exact h.ne not_inName_percent (hc ▸ List.mem_cons_self ..)

theorem takeWhile_name {str rest : List Char} (h : IsName str) (hrest : ∀ c ∈ rest.head?, inName c = false) :
    (str ++ rest).takeWhile inName = str ∧ (str ++ rest).dropWhile inName = rest := by
  rw [List.takeWhile_append_of_pos h, List.dropWhile_append_of_pos h]
  cases rest with
  | nil => simp
  | cons c rest =>
    have hc := hrest c rfl
    simp [hc]

theorem directive_plain {str rest : List Char} (h : IsName str) (hrest : Ends str rest) :
    directive (str ++ rest) = .plain str := by
  obtain ⟨htake, hdrop⟩ := takeWhile_name h fun c hc => (hrest.2 c hc).1
  have hbrace : ∀ tail, rest ≠ '{' :: tail := by
    intro tail heq
    exact (hrest.2 '{' (by rw [heq]; rfl)).2 rfl
  unfold directive
  rw [show (fun c => c.isAlpha || c == '}') = inName from rfl, htake, hdrop]
  cases rest with
  | nil => rfl
  | cons c tail =>
    split
    · rename_i heq
      exact absurd heq (hbrace _)
    · rfl

theorem directive_brace {str : List Char} (h : IsName str) (tail : List Char) :
    directive (str ++ '{' :: tail) =
      if '}' ∈ tail then .braced str (tail.takeWhile (· != '}')) else .unclosed := by
  obtain ⟨htake, hdrop⟩ := @takeWhile_name str ('{' :: tail) h fun c hc => by
    rw [← Option.some.inj hc]
    exact not_inName_brace
  unfold directive
  rw [show (fun c => c.isAlpha || c == '}') = inName from rfl, htake, hdrop]
  rfl

/-- After a '%' that no other one follows there is a directive of one of three kinds. -/
theorem directive_cases {cs : List Char} (hcs : cs.head? ≠ some '%') :
    (∃ str rest, cs = str ++ rest ∧ IsName str ∧ Ends str rest) ∨
    (∃ str fmt rest, cs = str ++ '{' :: (fmt ++ '}' :: rest) ∧ IsName str ∧ '}' ∉ fmt) ∨
    ∃ str tail, cs = str ++ '{' :: tail ∧ IsName str ∧ '}' ∉ tail := by
  have hstr : IsName (cs.takeWhile inName) := fun c hc => List.mem_takeWhile_imp hc
  have hsplit := (List.takeWhile_append_dropWhile (p := inName) (l := cs)).symm
  have hhead := List.head?_dropWhile_not inName cs
  generalize cs.takeWhile inName = str at hsplit hstr
  generalize cs.dropWhile inName = rest at hsplit hhead
  by_cases hbrace : ∃ tail, rest = '{' :: tail
  · obtain ⟨tail, rfl⟩ := hbrace
    by_cases hclosed : '}' ∈ tail
    · obtain ⟨fmt, rest, rfl, hfmt⟩ := List.eq_append_cons_of_mem hclosed
      exact .inr (.inl ⟨str, fmt, rest, hsplit, hstr, hfmt⟩)
    · exact .inr (.inr ⟨str, tail, hsplit, hstr, hclosed⟩)
  · refine .inl ⟨str, rest, hsplit, hstr, hsplit ▸ hcs, fun c hc => ?_⟩
    obtain ⟨tail, rfl⟩ := List.head?_eq_some_iff.mp (Option.mem_def.mp hc)
    exact ⟨by simpa using hhead, fun heq => hbrace ⟨tail, by rw [heq]⟩⟩

/-- A pattern begins with a character of its text, with a '%' that another one follows, or with a
directive. -/
theorem pattern_induction {P : List Char → Prop} (nil : P [])
    (literal : ∀ c cs, c ≠ '%' → P cs → P (c :: cs))
    (double : ∀ cs, P ('%' :: cs) → P ('%' :: '%' :: cs))
    (plain : ∀ str rest, IsName str → Ends str rest → P rest → P ('%' :: (str ++ rest)))
    (braced : ∀ str fmt rest, IsName str → '}' ∉ fmt → P rest → P ('%' :: (str ++ '{' :: (fmt ++ '}' :: rest))))
    (unclosed : ∀ str tail, IsName str → '}' ∉ tail → P (str ++ '{' :: tail) → P ('%' :: (str ++ '{' :: tail)))
    (cs : List Char) : P cs := by
  induction hn : cs.length using Nat.strongRecOn generalizing cs with
  | _ n ih =>
    cases cs with
    | nil => exact nil
    | cons c cs =>
      rw [List.length_cons] at hn
      by_cases hc : c = '%'
      · rw [hc]
        by_cases hdouble : cs.head? = some '%'
        · obtain ⟨rest, rfl⟩ := List.head?_eq_some_iff.mp hdouble
          exact double rest (ih _ (by omega) _ rfl)
        · rcases directive_cases hdouble with
            ⟨str, rest, rfl, hstr, hrest⟩ | ⟨str, fmt, rest, rfl, hstr, hfmt⟩ | ⟨str, tail, rfl, hstr, htail⟩
          · exact plain str rest hstr hrest (ih rest.length (by simp at hn; omega) rest rfl)
          · exact braced str fmt rest hstr hfmt (ih rest.length (by simp at hn; omega) rest rfl)
          · exact unclosed str tail hstr htail (ih _ (by omega) _ rfl)
      · exact literal c cs hc (ih cs.length (by omega) cs rfl)

/-! ### What the parser makes of each -/

section
variable (nstr : List Char) {str : List Char}

theorem pieces_skip (l cs : List Char) : pieces nstr l.length (l ++ cs) = pieces nstr 0 cs := by
  induction l with
  | nil => rfl
  | cons c rest ih => exact ih

theorem pieces_literal {c : Char} (hc : c ≠ '%') (cs : List Char) :
    pieces nstr 0 (c :: cs) = pieces (nstr ++ [c]) 0 cs := if_pos hc

theorem pieces_double (cs : List Char) :
    pieces nstr 0 ('%' :: '%' :: cs) = pieces (nstr ++ ['%']) 0 ('%' :: cs) := rfl

theorem pieces_percent {cs : List Char} (hcs : cs.head? ≠ some '%') : pieces nstr 0 ('%' :: cs) =
    match directive cs with
    | .plain str => flush nstr ++ .item str [] :: pieces [] str.length cs
    | .unclosed => .text "<<pattern_error>>".toList :: pieces nstr 0 cs
    | .braced str fmt => flush nstr ++ .item str fmt :: pieces [] (str.length + fmt.length + 2) cs :=
  if_neg hcs

theorem pieces_plain (h : IsName str) {rest : List Char} (hrest : Ends str rest) :
    pieces nstr 0 ('%' :: (str ++ rest)) = flush nstr ++ .item str [] :: pieces [] 0 rest := by
  rw [pieces_percent nstr hrest.1, directive_plain h hrest]
  simp only [pieces_skip]

theorem pieces_braced (h : IsName str) {fmt : List Char} (hfmt : '}' ∉ fmt) (rest : List Char) :
    pieces nstr 0 ('%' :: (str ++ '{' :: (fmt ++ '}' :: rest))) =
      flush nstr ++ .item str fmt :: pieces [] 0 rest := by
  have hskip := pieces_skip [] (str ++ '{' :: (fmt ++ ['}'])) rest
  have hlen : (str ++ '{' :: (fmt ++ ['}'])).length = str.length + fmt.length + 2 := by
    simp only [List.length_append, List.length_cons, List.length_nil]
    omega
  rw [pieces_percent nstr (h.head? _), directive_brace h, if_pos (by simp), takeWhile_before hfmt]
  simpa [hlen] using hskip

theorem pieces_unclosed (h : IsName str) {tail : List Char} (htail : '}' ∉ tail) :
    pieces nstr 0 ('%' :: (str ++ '{' :: tail)) =
      .text "<<pattern_error>>".toList :: pieces nstr 0 (str ++ '{' :: tail) := by
  rw [pieces_percent nstr (h.head? _), directive_brace h, if_neg htail]

end

/-! ### What the reader makes of each -/

section
variable {str : List Char}

theorem written_literal {c : Char} (hc : c ≠ '%') (cs : List Char) :
    written .outside (c :: cs) = written .outside cs := by
  rw [written_outside, percent_literal cs hc]
  rfl

theorem written_double (cs : List Char) :
    written .outside ('%' :: '%' :: cs) = .double :: written .outside ('%' :: cs) := by
  rw [written_outside, percent_double List.head?_cons]
  rfl

theorem written_name (h : IsName str) (w cs : List Char) :
    written (.name w) (str ++ cs) = written (.name (w ++ str)) cs := by
  induction str generalizing w with
  | nil => rw [List.append_nil, List.nil_append]
  | cons c rest ih =>
    rw [List.cons_append, written_inName _ (h c (List.mem_cons_self ..)),
      ih fun d hd => h d (List.mem_cons_of_mem c hd), List.append_assoc]
    rfl

theorem written_braces {fmt : List Char} (hfmt : '}' ∉ fmt) (w rest : List Char) :
    written (.braces str w) (fmt ++ '}' :: rest) = .closed str (w ++ fmt) :: written .outside rest := by
  induction fmt generalizing w with
  | nil => rw [List.nil_append, written_close, List.append_nil]
  | cons c cs ih =>
    rw [List.mem_cons, not_or] at hfmt
    rw [List.cons_append, written_inBraces _ (Ne.symm hfmt.1), ih hfmt.2, List.append_assoc]
    rfl

/-- The directive begins. -/
theorem written_percent {cs : List Char} (hcs : cs.head? ≠ some '%') :
    written .outside ('%' :: cs) = written (.name []) cs := by
  rw [written_outside, percent_name hcs]
  rfl

theorem written_plain (h : IsName str) {rest : List Char} (hrest : Ends str rest) :
    written .outside ('%' :: (str ++ rest)) = .closed str [] :: written .outside rest := by
  rw [written_percent hrest.1, written_name h, List.nil_append]
  cases rest with
  | nil => rfl
  | cons c tail =>
    obtain ⟨hc, hbrace⟩ := hrest.2 c rfl
    exact written_after tail hc hbrace

theorem written_braced (h : IsName str) {fmt : List Char} (hfmt : '}' ∉ fmt) (rest : List Char) :
    written .outside ('%' :: (str ++ '{' :: (fmt ++ '}' :: rest))) =
      .closed str fmt :: written .outside rest := by
  rw [written_percent (h.head? _), written_name h, written_brace, if_pos (by simp), written_braces hfmt]
  rfl

/-- The name and what follows are text, where other directives may be. -/
theorem written_unclosed (h : IsName str) {tail : List Char} (htail : '}' ∉ tail) :
    written .outside ('%' :: (str ++ '{' :: tail)) = .unclosed str :: written .outside (str ++ '{' :: tail) := by
  have hskip : written .outside (str ++ '{' :: tail) = written .outside tail := by
    clear htail
    induction str with
    | nil => exact written_literal (by decide) tail
    | cons c rest ih =>
      have hc : c ≠ '%' := fun heq => h.ne not_inName_percent (heq ▸ List.mem_cons_self ..)
      rw [List.cons_append, written_literal hc, ih fun d hd => h d (List.mem_cons_of_mem c hd)]
  rw [written_percent (h.head? _), written_name h, written_brace, if_neg htail, hskip]
  rfl

end

/-! ### Errors -/

def Piece.directive? : Piece → Option (List Char × List Char)
  | .text _ => none
  | .item str fmt => some (str, fmt)

def Written.directive? : Written → Option (List Char × List Char)
  | .closed str fmt => some (str, fmt)
  | .double | .unclosed _ => none

theorem flush_directive? (nstr : List Char) : (flush nstr).filterMap Piece.directive? = [] := by
  unfold flush
  split <;> rfl

/-- The items are those of the directives whose braces are closed, in order. -/
theorem pieces_written (nstr cs : List Char) :
    (pieces nstr 0 cs).filterMap Piece.directive? = (written .outside cs).filterMap Written.directive? := by
  induction cs using pattern_induction generalizing nstr with
  | nil => exact flush_directive? nstr
  | literal c cs hc ih => rw [pieces_literal nstr hc, written_literal hc, ih]
  | double cs ih =>
    rw [pieces_double, written_double, ih]
    rfl
  | plain str rest hstr hrest ih =>
    rw [pieces_plain nstr hstr hrest, written_plain hstr hrest, List.filterMap_append, flush_directive?]
    simp [Piece.directive?, Written.directive?, ih]
  | braced str fmt rest hstr hfmt ih =>
    rw [pieces_braced nstr hstr hfmt, written_braced hstr hfmt, List.filterMap_append, flush_directive?]
    simp [Piece.directive?, Written.directive?, ih]
  | unclosed str tail hstr htail ih =>
    rw [pieces_unclosed nstr hstr htail, written_unclosed hstr htail]
    exact ih nstr

theorem formatItem_isSome (str fmt : List Char) : (formatItem str fmt).isSome = true ↔ Registered str := by
  constructor
  · intro h
    unfold formatItem at h
    split at h
    all_goals first
      | exact ⟨_, by simp, rfl⟩
      | cases h
  · rintro ⟨c, hc, rfl⟩
    simp only [String.reduceToList, List.mem_cons, List.not_mem_nil, or_false] at hc
    obtain rfl | rfl | rfl | rfl | rfl | rfl | rfl | rfl | rfl | rfl | rfl | rfl := hc <;> rfl

theorem item_mem_pieces (nstr cs str fmt : List Char) :
    .item str fmt ∈ pieces nstr 0 cs ↔ .closed str fmt ∈ written .outside cs := by
  have hmem := congrArg ((str, fmt) ∈ ·) (pieces_written nstr cs)
  simp only [List.mem_filterMap, eq_iff_iff] at hmem
  constructor
  · intro h
    obtain ⟨w, hw, heq⟩ := hmem.mp ⟨_, h, rfl⟩
    cases w <;> cases heq
    exact hw
  · intro h
    obtain ⟨w, hw, heq⟩ := hmem.mpr ⟨_, h, rfl⟩
    cases w <;> cases heq
    exact hw

/-- The flag is set by a directive whose name is not registered, unless its brace is not closed. -/
theorem isError_iff (f : LogFormatter) : f.isError = true ↔
    ∃ str fmt, .closed str fmt ∈ written .outside f.pattern.toList ∧ ¬ Registered str := by
  rw [LogFormatter.isError, List.any_eq_true]
  constructor
  · rintro ⟨w, hw, herror⟩
    cases w with
    | text s => cases herror
    | item str fmt =>
      refine ⟨str, fmt, (item_mem_pieces ..).mp hw, fun hreg => ?_⟩
      rw [← formatItem_isSome str fmt, Option.isSome_iff_ne_none] at hreg
      exact hreg (Option.isNone_iff_eq_none.mp herror)
  · rintro ⟨str, fmt, hw, hreg⟩
    refine ⟨_, (item_mem_pieces ..).mpr hw, ?_⟩
    rw [← formatItem_isSome str fmt, Option.isSome_iff_ne_none, not_not] at hreg
    exact Option.isNone_iff_eq_none.mpr hreg

/-! ### Rejection -/

/-- A brace is not closed, or a name is not registered. -/
def Malformed (p : List Char) : Prop :=
  (∃ str, .unclosed str ∈ written .outside p) ∨
    ∃ str fmt, .closed str fmt ∈ written .outside p ∧ ¬ Registered str

variable {ℓ α : Type} [DecidableEq ℓ] [DecidableEq α]

/-- A malformed pattern has the flag set and changes no formatter of the logger and its appenders;
another one, without a '%' that another one follows, has it not, and is the logger's from then on. -/
def Rejects (s : State ℓ α) (l : ℓ) (p : String) : Prop :=
  (Malformed p.toList → (LogFormatter.mk p).isError = true ∧
    ((s.setPattern l p).loggers l).formatter = (s.loggers l).formatter ∧
    ∀ a ∈ (s.loggers l).appenders, ((s.setPattern l p).appenders a).formatter = (s.appenders a).formatter) ∧
  (¬ Malformed p.toList → .double ∉ written .outside p.toList → (LogFormatter.mk p).isError = false ∧
    (s.setPattern l p).formatter ((s.setPattern l p).loggers l).formatter = some ⟨p⟩)

theorem setPattern_error {s : State ℓ α} {l : ℓ} {p : String} (h : (LogFormatter.mk p).isError = true) :
    s.setPattern l p = s := by
  rw [State.setPattern, if_pos h]

theorem setPattern_formatter {s : State ℓ α} {l : ℓ} {p : String} (h : (LogFormatter.mk p).isError = false) :
    (s.setPattern l p).formatter ((s.setPattern l p).loggers l).formatter = some ⟨p⟩ := by
  rw [State.setPattern, if_neg (by simp [h])]
  have hl : (((s.newFormatter p).setFormatter l (.made s.formatters.length)).loggers l).formatter =
      .made s.formatters.length := congrArg Logger.formatter (State.setLogger_self (s := s.newFormatter p) _)
  rw [hl]
  exact List.getElem?_concat_length

/-- **Rejection.** For every logger and every pattern: the malformed ones are rejected and the others
are not if and only if no brace is left open, or some directive whose brace is not has a
name that is not registered. -/
theorem rejects_iff (s : State ℓ α) (l : ℓ) (p : String) : Rejects s l p ↔
    ((∀ str, .unclosed str ∉ written .outside p.toList) ∨
      ∃ str fmt, .closed str fmt ∈ written .outside p.toList ∧ ¬ Registered str) := by
  have herror := isError_iff ⟨p⟩
  constructor
  · intro h
    by_contra hnot
    rw [not_or, not_forall] at hnot
    obtain ⟨⟨str, hopen⟩, hclosed⟩ := hnot
    exact hclosed (herror.mp (h.1 (.inl ⟨str, not_not.mp hopen⟩)).1)
  · intro hwhen
    refine ⟨fun hbad => ?_, fun hgood _ => ?_⟩
    · have hset : (LogFormatter.mk p).isError = true := by
        rw [herror]
        rcases hbad with ⟨str, hopen⟩ | hbad
        · exact hwhen.resolve_left fun hall => hall str hopen
        · exact hbad
      rw [setPattern_error hset]
      exact ⟨hset, rfl, fun _ _ => rfl⟩
    · have hset : (LogFormatter.mk p).isError = false := by
        rw [← Bool.not_eq_true, herror]
        exact fun hbad => hgood (.inr hbad)
      exact ⟨hset, setPattern_formatter hset⟩

/-- One logger with one appender that has its formatter. -/
def oneLogger : State Unit Unit where
  formatters := []
  loggers _ := ⟨.debug, [()], .initial (), none⟩
  appenders _ := ⟨.stdout, .debug, false, some (.initial ())⟩

/-- The brace is not closed, and the pattern is taken. -/
theorem rejects_unclosed :
    written .outside "%m\x7babc".toList = [.unclosed ['m']] ∧ (LogFormatter.mk "%m\x7babc").isError = false ∧
    ((oneLogger.setPattern () "%m\x7babc").appenders ()).formatter = some (.made 0) ∧
    ¬ Rejects oneLogger () "%m\x7babc" := by
  have hopen : written .outside "%m\x7babc".toList = [.unclosed ['m']] := by decide
  refine ⟨hopen, by decide, by decide, fun h => ?_⟩
  have hset := (h.1 (.inl ⟨['m'], by rw [hopen]; exact List.mem_singleton_self _⟩)).1
  exact absurd hset (by decide)

end ShioSylar.Log
