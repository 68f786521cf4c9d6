import ShioSylar.Logger.Directives

/-! What a formatter writes, and which part of the pattern each item is for (`FormatItem` and
`LogFormatter` of `logger.h`).

A pattern whose braces are closed and that has no doubled '%' is cut into literals and directives
without loss, and there is one item for each (`tokens_of_pattern`). What `strftime` makes of a format
and a time is left to the C library; it makes nothing of it where the text is too long for the
buffer, whose contents are then not defined. -/
namespace ShioSylar.Log

/-- What is read of a `LogEvent` and of its logger. -/
structure LogEvent where
  file : List Char
  line : BitVec 32
  elapse : BitVec 32
  threadId : BitVec 32
  fiberId : BitVec 32
  time : BitVec 64
  threadName : List Char
  content : List Char
  loggerName : List Char

section
variable (strftime : List Char → BitVec 64 → Option (List Char)) (level : LogLevel) (event : LogEvent)

def FormatItem.format : FormatItem → Option (List Char)
  | .message => some event.content
  | .level => some level.toString.toList
  | .elapse => some (Nat.toDigits 10 event.elapse.toNat)
  | .name => some event.loggerName
  | .threadId => some (Nat.toDigits 10 event.threadId.toNat)
  | .newLine => some ['\n']
  | .dateTime format => strftime format event.time
  | .filename => some event.file
  | .line => some (toString event.line.toInt).toList
  | .tab => some ['\t']
  | .fiberId => some (Nat.toDigits 10 event.fiberId.toNat)
  | .threadName => some event.threadName
  | .string s => some s

/-- What the items write, one after the other. -/
def output (items : List FormatItem) : Option (List Char) :=
  (items.mapM (FormatItem.format strftime level event)).map List.flatten

/-- `LogFormatter::format`. -/
def LogFormatter.format (f : LogFormatter) : Option (List Char) := output strftime level event f.items

theorem output_cons (item : FormatItem) (items : List FormatItem) :
    output strftime level event (item :: items) =
      (item.format strftime level event).bind fun s => (output strftime level event items).map (s ++ ·) := by
  rw [output, List.mapM_cons]
  cases item.format strftime level event with
  | none => rfl
  | some s =>
    cases h : items.mapM (FormatItem.format strftime level event) <;> simp [output, h]

end

/-! ### Tokens -/

inductive Token where
  | literal (s : List Char)
  /-- With what is between the braces, if there are any. -/
  | directive (str : List Char) (fmt : Option (List Char))

namespace Token

def source : Token → List Char
  | literal s => s
  | directive str none => '%' :: str
  | directive str (some fmt) => '%' :: (str ++ '{' :: (fmt ++ ['}']))

def item : Token → FormatItem
  | literal s => .string s
  | directive str fmt =>
    (formatItem str (fmt.getD [])).getD (.string ("<<error_format %".toList ++ str ++ ">>".toList))

/-- The entry of `vec`. -/
def piece : Token → Piece
  | literal s => .text s
  | directive str fmt => .item str (fmt.getD [])

theorem piece_formatItem (t : Token) : t.piece.formatItem = t.item := by
  cases t <;> rfl

end Token

/-- Literals and names are as long as they can be: two literals do not stand side by side, and
what follows a name neither belongs to it nor opens a brace. -/
def Longest : List Token → Prop
  | [] => True
  | .literal s :: ts => s ≠ [] ∧ '%' ∉ s ∧ (∀ s', ts.head? ≠ some (.literal s')) ∧ Longest ts
  | .directive str none :: ts =>
    IsName str ∧ (∀ c ∈ (ts.flatMap Token.source).head?, inName c = false ∧ c ≠ '{') ∧ Longest ts
  | .directive str (some fmt) :: ts => IsName str ∧ '}' ∉ fmt ∧ Longest ts

/-- The literal before a directive, if there is one. -/
def literals (nstr : List Char) : List Token := if nstr.isEmpty then [] else [.literal nstr]

section
variable (nstr : List Char)

theorem literals_piece : (literals nstr).map Token.piece = flush nstr := by
  unfold literals flush
  split <;> rfl

theorem literals_source : (literals nstr).flatMap Token.source = nstr := by
  unfold literals
  split
  · rename_i h
    exact (List.isEmpty_iff.mp h).symm
  · simp [Token.source]

theorem literals_longest {nstr : List Char} (h : '%' ∉ nstr) {ts : List Token} (hts : Longest ts)
    (hhead : ∀ s, ts.head? ≠ some (.literal s)) : Longest (literals nstr ++ ts) := by
  unfold literals
  split
  · exact hts
  · rename_i hne
    exact ⟨by simpa using hne, h, hhead, hts⟩

/-- The entries of `vec` are those of tokens. -/
theorem pieces_tokens (cs : List Char) (hnstr : '%' ∉ nstr) (hdouble : .double ∉ written .outside cs)
    (hclosed : ∀ str, .unclosed str ∉ written .outside cs) :
    ∃ ts, ts.flatMap Token.source = nstr ++ cs ∧ Longest ts ∧ pieces nstr 0 cs = ts.map Token.piece := by
  induction cs using pattern_induction generalizing nstr with
  | nil =>
    refine ⟨literals nstr, by rw [literals_source, List.append_nil], ?_, (literals_piece nstr).symm⟩
    rw [← List.append_nil (literals nstr)]
    exact literals_longest hnstr trivial nofun
  | literal c cs hc ih =>
    rw [written_literal hc] at hdouble hclosed
    obtain ⟨ts, hsource, hlong, hpieces⟩ := ih (nstr ++ [c]) (by simp [hnstr, Ne.symm hc]) hdouble hclosed
    exact ⟨ts, by rw [hsource, List.append_assoc]; rfl, hlong, by rw [pieces_literal nstr hc, hpieces]⟩
  | double cs ih =>
    rw [written_double] at hdouble
    exact absurd (List.mem_cons_self ..) hdouble
  | plain str rest hstr hrest ih =>
    rw [written_plain hstr hrest] at hdouble hclosed
    obtain ⟨ts, hsource, hlong, hpieces⟩ := ih [] List.not_mem_nil (fun h => hdouble (List.mem_cons_of_mem _ h))
      fun str h => hclosed str (List.mem_cons_of_mem _ h)
    rw [List.nil_append] at hsource
    refine ⟨literals nstr ++ .directive str none :: ts, ?_, literals_longest hnstr ⟨hstr, ?_, hlong⟩ nofun, ?_⟩
    · rw [List.flatMap_append, literals_source, List.flatMap_cons, hsource]
      rfl
    · rw [hsource]
      exact hrest.2
    · rw [pieces_plain nstr hstr hrest, hpieces, List.map_append, literals_piece]
      rfl
  | braced str fmt rest hstr hfmt ih =>
    rw [written_braced hstr hfmt] at hdouble hclosed
    obtain ⟨ts, hsource, hlong, hpieces⟩ := ih [] List.not_mem_nil (fun h => hdouble (List.mem_cons_of_mem _ h))
      fun str h => hclosed str (List.mem_cons_of_mem _ h)
    rw [List.nil_append] at hsource
    refine ⟨literals nstr ++ .directive str (some fmt) :: ts, ?_,
      literals_longest hnstr ⟨hstr, hfmt, hlong⟩ nofun, ?_⟩
    · rw [List.flatMap_append, literals_source, List.flatMap_cons, hsource]
      simp [Token.source]
    · rw [pieces_braced nstr hstr hfmt, hpieces, List.map_append, literals_piece]
      rfl
  | unclosed str tail hstr htail ih =>
    rw [written_unclosed hstr htail] at hclosed
    exact absurd (List.mem_cons_self ..) (hclosed str)

end

/-- **The parser.** Every pattern in which no '%' outside braces is followed by another one and no brace
of a directive is left open is cut into tokens without loss. There is one item for each, in
order, the flag says that one of the names is not registered, and what is written is what the
items write. -/
theorem tokens_of_pattern (f : LogFormatter) (hdouble : .double ∉ written .outside f.pattern.toList)
    (hclosed : ∀ str, .unclosed str ∉ written .outside f.pattern.toList) :
    ∃ ts, ts.flatMap Token.source = f.pattern.toList ∧ Longest ts ∧ f.items = ts.map Token.item ∧
      (f.isError = true ↔ ∃ str fmt, .directive str fmt ∈ ts ∧ ¬ Registered str) ∧
      ∀ strftime level event, f.format strftime level event =
        (ts.mapM fun t : Token => t.item.format strftime level event).map List.flatten := by
  obtain ⟨ts, hsource, hlong, hpieces⟩ := pieces_tokens [] _ List.not_mem_nil hdouble hclosed
  have hitems : f.items = ts.map Token.item := by
    rw [LogFormatter.items, hpieces, List.map_map]
    exact List.map_congr_left fun t _ => t.piece_formatItem
  refine ⟨ts, hsource, hlong, hitems, ?_, fun strftime level event => ?_⟩
  · have herror : ∀ str fmt, (Token.directive str fmt).piece.isError = true ↔ ¬ Registered str := by
      intro str fmt
      rw [← formatItem_isSome str (fmt.getD []), Token.piece, Piece.isError]
      cases formatItem str (fmt.getD []) <;> simp
    rw [LogFormatter.isError, hpieces, List.any_map, List.any_eq_true]
    constructor
    · rintro ⟨t, ht, hbad⟩
      cases t with
      | literal s => cases hbad
      | directive str fmt => exact ⟨str, fmt, ht, (herror str fmt).mp hbad⟩
    · rintro ⟨str, fmt, ht, hreg⟩
      exact ⟨_, ht, (herror str fmt).mpr hreg⟩
  · rw [LogFormatter.format, output, hitems, List.mapM_map]
    rfl

/-- Literals between directives with and without braces, one of them not registered. -/
theorem tokens_of_pattern_sample : (∃ ts : List Token,
    ts.flatMap Token.source = "a\x7db%d\x7b%%\x7d\x7b%m %x".toList ∧ Longest ts ∧
    (LogFormatter.mk "a\x7db%d\x7b%%\x7d\x7b%m %x").items = ts.map Token.item) ∧
    (LogFormatter.mk "a\x7db%d\x7b%%\x7d\x7b%m %x").items =
      [.string "a\x7db".toList, .dateTime "%%".toList, .string "\x7b".toList, .message, .string " ".toList,
        .string "<<error_format %x>>".toList] := by
  obtain ⟨ts, hsource, hlong, hitems, -⟩ :=
    tokens_of_pattern ⟨"a\x7db%d\x7b%%\x7d\x7b%m %x"⟩ (by decide) (by
      have hwritten : written .outside "a\x7db%d\x7b%%\x7d\x7b%m %x".toList =
        [.closed ['d'] ['%', '%'], .closed ['m'] [], .closed ['x'] []] := by decide
      intro str h
      rw [hwritten] at h
      simp at h)
  exact ⟨⟨ts, hsource, hlong, hitems⟩, by decide⟩

end ShioSylar.Log
