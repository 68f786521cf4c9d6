import ShioSylar.Lib.Directories
import ShioSylar.Lib.Words

/-! Making a directory with those above it (`FSUtil::Mkdir` of `util.cc`).

The function goes through a copy of the path from slash to slash. It writes a NUL over the slash
to make the directory that is named up to there, and puts the slash back when it goes on. A
cursor that is null after the loop says that it came to the end.

Nothing but directories is in the way, and any call of `mkdir` may fail. Each call is kept
beside the directories, with whether it has succeeded. -/
namespace ShioSylar.FSUtil
open Lib

/-- What ends a C string. -/
def nul : Char := Char.ofNat 0

/-- The C string in a buffer. -/
def cstr (buf : List Char) : List Char := buf.takeWhile (· != nul)

/-- `strchr(buf + i, c)`. -/
def strchr (buf : List Char) (i : Nat) (c : Char) : Option Nat :=
  ((cstr (buf.drop i)).findIdx? (· == c)).map (i + ·)

/-- The directories, and the calls of `mkdir` so far. -/
structure Sys where
  dirs : Directories
  calls : List (List Char × Bool)

section
variable (fails : Nat → Bool)

/-- `mkdir(dirname, ..)`, which also fails when `fails` says so; the flag says that it returns 0. -/
def Sys.mkdir (s : Sys) (dirname : List Char) : Bool × Sys :=
  match if fails s.calls.length then none else s.dirs.mkdir dirname with
  | none => (false, ⟨s.dirs, s.calls ++ [(dirname, false)]⟩)
  | some dirs => (true, ⟨dirs, s.calls ++ [(dirname, true)]⟩)

/-- Whether `__lstat` returns 0. -/
def lstat (s : Sys) (file : List Char) : Bool := s.dirs.resolves file

/-- `__mkdir`; the flag says that it returns 0. -/
def mkdirOne (s : Sys) (dirname : List Char) : Bool × Sys :=
  if s.dirs.resolves dirname then (true, s) else s.mkdir fails dirname

theorem strchr_lt {buf : List Char} {i j : Nat} {c : Char} (h : strchr buf i c = some j) :
    i ≤ j ∧ j < buf.length := by
  obtain ⟨n, hn, rfl⟩ := Option.map_eq_some_iff.mp h
  have hlt := (List.findIdx?_eq_some_iff_findIdx_eq.mp hn).1
  have hle := (List.takeWhile_sublist (p := (· != nul)) (l := buf.drop i)).length_le
  rw [List.length_drop] at hle
  rw [cstr] at hlt
  omega

/-- The loop of `FSUtil::Mkdir` with the cursor on a slash: the cursor after it, and the buffer. -/
def mkdirLoop (s : Sys) (path : List Char) (ptr : Nat) : Option Nat × List Char × Sys :=
  let r := mkdirOne fails s (cstr (path.set ptr nul))
  if !r.1 then (some ptr, path.set ptr nul, r.2)
  else
    match h : strchr ((path.set ptr nul).set ptr '/') (ptr + 1) '/' with
    | none => (none, (path.set ptr nul).set ptr '/', r.2)
    | some next =>
      have := strchr_lt h
      mkdirLoop r.2 ((path.set ptr nul).set ptr '/') next
termination_by path.length - ptr
decreasing_by
  simp only [List.length_set] at this ⊢
  omega

/-- `FSUtil::Mkdir`. -/
def mkdir (s : Sys) (dirname : List Char) : Bool × Sys :=
  if lstat s (cstr dirname) then (true, s)
  else
    let path := cstr dirname
    let (ptr, path, s) :=
      match strchr path 1 '/' with
      | none => (none, path, s)
      | some ptr => mkdirLoop fails s path ptr
    if ptr.isSome then (false, s) else mkdirOne fails s (cstr path)

end

/-! ### The cursor -/

theorem cstr_of_not_mem {path : List Char} (hnul : nul ∉ path) : cstr path = path :=
  List.takeWhile_eq_self_iff.mpr fun c hc => by
    rw [bne_iff_ne]
    exact ne_of_mem_of_not_mem hc hnul

theorem not_mem_cstr (buf : List Char) : nul ∉ cstr buf := by
  intro h
  have hne := List.mem_takeWhile_imp (p := (· != nul)) h
  simp at hne

variable {path : List Char}

/-- Where a NUL is written, the string ends. -/
theorem cstr_set {i : Nat} (hnul : nul ∉ path) (hi : i < path.length) : cstr (path.set i nul) = path.take i := by
  rw [List.set_eq_take_append_cons_drop, if_pos hi]
  exact takeWhile_before (fun h => hnul (List.mem_of_mem_take h)) _

/-- And the slash is put back. -/
theorem set_set {i : Nat} (hi : path[i]? = some '/') : (path.set i nul).set i '/' = path := by
  rw [List.set_set]
  obtain ⟨hlt, hget⟩ := List.getElem?_eq_some_iff.mp hi
  rw [← hget, List.set_getElem_self]

/-- Up to the slash that is found, or to the end, there is no other one. -/
theorem strchr_spec (hnul : nul ∉ path) (k : Nat) :
    ∃ part, path.take ((strchr path k '/').getD path.length) = path.take k ++ part ∧ '/' ∉ part ∧
      ∀ j, strchr path k '/' = some j → path[j]? = some '/' := by
  have hrest : cstr (path.drop k) = path.drop k := cstr_of_not_mem fun h => hnul (List.mem_of_mem_drop h)
  unfold strchr
  rw [hrest]
  cases hfind : (path.drop k).findIdx? (· == '/') with
  | none =>
    refine ⟨path.drop k, by simp, fun hmem => ?_, nofun⟩
    have hnone := List.findIdx?_eq_none_iff.mp hfind _ hmem
    simp at hnone
  | some n =>
    obtain ⟨hlt, hslash, hbefore⟩ := List.findIdx?_eq_some_iff_getElem.mp hfind
    refine ⟨(path.drop k).take n, ?_, fun hmem => ?_, fun j hj => ?_⟩
    · rw [Option.map_some, Option.getD_some, List.take_add]
    · obtain ⟨m, hm, hget⟩ := List.mem_iff_getElem.mp hmem
      rw [List.length_take] at hm
      have hno := hbefore m (by omega)
      rw [List.getElem_take] at hget
      simp [hget] at hno
    · cases hj
      rw [← List.getElem?_drop, List.getElem?_eq_getElem hlt]
      simpa using hslash

/-! ### The names up to the cursor -/

/-- The names of `p` are those before and one more, if a slash is not repeated. -/
def Next (l : List Name) (p : List Char) : Prop := names p = l ∨ ∃ name, names p = l ++ [name]

/-- At the first slash there is one name at most. -/
theorem next_first (hnul : nul ∉ path) (hpath : path ≠ []) :
    Next [] (path.take ((strchr path 1 '/').getD path.length)) := by
  obtain ⟨part, htake, hpart, -⟩ := strchr_spec hnul 1
  obtain ⟨c, rest, rfl⟩ := List.exists_cons_of_ne_nil hpath
  rw [htake]
  show Next [] ([c] ++ part)
  by_cases hc : c = '/'
  · have hnames : names ([c] ++ part) = names part := by
      rw [hc]
      exact (names_append [] part).trans (List.nil_append _)
    rw [Next, hnames, names_part hpart]
    split
    · exact .inl rfl
    · exact .inr ⟨part, rfl⟩
  · have hnone : '/' ∉ [c] ++ part := by
      rw [List.singleton_append, List.mem_cons, not_or]
      exact ⟨Ne.symm hc, hpart⟩
    exact .inr ⟨[c] ++ part, by rw [names_part hnone, if_neg (by simp)]; rfl⟩

/-- From slash to slash there is one more at most. -/
theorem next_slash (hnul : nul ∉ path) {i : Nat} (hi : path[i]? = some '/') :
    Next (names (path.take i)) (path.take ((strchr path (i + 1) '/').getD path.length)) := by
  obtain ⟨part, htake, hpart, -⟩ := strchr_spec hnul (i + 1)
  have hcut : path.take (i + 1) = path.take i ++ ['/'] := by rw [List.take_add_one, hi]; rfl
  rw [Next, htake, hcut, List.append_assoc, List.singleton_append, names_append, names_part hpart]
  split
  · exact .inl (List.append_nil _)
  · exact .inr ⟨part, rfl⟩

/-- The names up to a slash are the first ones. -/
theorem names_take {i : Nat} (hi : path[i]? = some '/') : names (path.take i) <+: names path := by
  obtain ⟨hlt, hget⟩ := List.getElem?_eq_some_iff.mp hi
  have hpath : path = path.take i ++ '/' :: path.drop (i + 1) := by
    rw [← hget, ← List.drop_eq_getElem_cons hlt, List.take_append_drop]
  conv_rhs => rw [hpath, names_append]
  exact List.prefix_append _ _

/-! ### What is made -/

section
variable {f : Directories} {s : Sys} {l : List Name}

/-- Everything along the names `l` is there, and what was missing has been made. -/
structure Progress (f : Directories) (path : List Char) (l : List Name) (s : Sys) : Prop where
  cwd : s.dirs.cwd = f.cwd
  made : ∀ d, s.dirs.exist d = true ↔
    f.exist d = true ∨ ∃ c ∈ s.calls, d = (f.start path).walk (names c.1)
  reached : ∀ k, s.dirs.exist ((f.start path).walk (l.take k)) = true
  calls : ∀ c ∈ s.calls, c.2 = true ∧ c.1 <+: path ∧ names c.1 <+: l ∧
    f.exist ((f.start path).walk (names c.1)) = false
  order : s.calls.Pairwise fun a b => (names a.1).length < (names b.1).length

/-- The same, and then the call for the next name has failed. -/
def Stopped (f : Directories) (path : List Char) (s : Sys) : Prop :=
  ∃ l p dirs calls, Progress f path l ⟨dirs, calls⟩ ∧ (∃ name, names p = l ++ [name]) ∧ p <+: path ∧
    names p <+: names path ∧ f.exist ((f.start path).walk (names p)) = false ∧
    s = ⟨dirs, calls ++ [(p, false)]⟩

theorem start_progress (f : Directories) (path : List Char) : Progress f path [] ⟨f, []⟩ where
  cwd := rfl
  made d := by simp
  reached k := by
    rw [List.take_nil]
    exact Directories.start_exist path
  calls := nofun
  order := List.Pairwise.nil

theorem take_snoc {α : Type} (l : List α) (a : α) (k : Nat) :
    (l ++ [a]).take k = l.take k ∨ (l ++ [a]).take k = l ++ [a] := by
  rcases Nat.lt_or_ge l.length k with hk | hk
  · exact .inr (List.take_of_length_le (by rw [List.length_append]; exact hk))
  · exact .inl (List.take_append_of_le_length hk)

/-- The directory of the next name has been made. -/
theorem Progress.snoc (k : Progress f path l s) {g : Directories} {p : List Char} {name : Name}
    (hcwd : g.cwd = s.dirs.cwd) (hpath : p <+: path) (hp : names p = l ++ [name])
    (hmissing : f.exist ((f.start path).walk (names p)) = false)
    (hg : ∀ d, g.exist d = true ↔ s.dirs.exist d = true ∨ d = (f.start path).walk (l ++ [name])) :
    Progress f path (names p) ⟨g, s.calls ++ [(p, true)]⟩ where
  cwd := hcwd.trans k.cwd
  made d := by
    rw [hg, k.made, ← hp]
    simp only [List.mem_append, List.mem_singleton, or_and_right, exists_or, exists_eq_left, or_assoc]
  reached n := by
    rw [hp, hg]
    rcases take_snoc l name n with htake | htake <;> rw [htake]
    · exact .inl (k.reached n)
    · exact .inr rfl
  calls c hc := by
    rcases List.mem_append.mp hc with hc | hc
    · obtain ⟨hok, hpre, hnames, hf⟩ := k.calls c hc
      exact ⟨hok, hpre, hnames.trans ⟨[name], hp.symm⟩, hf⟩
    · rw [List.mem_singleton.mp hc]
      exact ⟨rfl, hpath, List.prefix_rfl, hmissing⟩
  order := by
    refine List.pairwise_append.mpr ⟨k.order, List.pairwise_singleton _ _, fun a ha b hb => ?_⟩
    have hlen := (k.calls a ha).2.2.1.length_le
    rw [List.mem_singleton.mp hb, hp, List.length_append]
    exact Nat.lt_succ_of_le hlen

/-- `__mkdir` at the next slash or at the end. -/
theorem mkdirOne_spec (fails : Nat → Bool) (k : Progress f path l s) {p : List Char} (hp : p ≠ [])
    (hpath : p <+: path) (hnames : names p <+: names path) (hnext : Next l p) :
    ((mkdirOne fails s p).1 = true ∧ Progress f path (names p) (mkdirOne fails s p).2) ∨
      ((mkdirOne fails s p).1 = false ∧ Stopped f path (mkdirOne fails s p).2) := by
  have hstart : s.dirs.start p = f.start path := by
    obtain ⟨rest, rfl⟩ := hpath
    rw [Directories.start, Directories.start, k.cwd, List.head?_append_of_ne_nil _ hp]
  have hresolves := Directories.resolves_iff (f := s.dirs) hp
  rw [hstart] at hresolves
  unfold mkdirOne
  cases hres : s.dirs.resolves p with
  | true =>
    have hl : l <+: names p := by
      rcases hnext with heq | ⟨name, heq⟩
      · rw [heq]
      · exact ⟨[name], heq.symm⟩
    exact .inl ⟨rfl, k.cwd, k.made, hresolves.mp hres,
      fun c hc => ⟨(k.calls c hc).1, (k.calls c hc).2.1, (k.calls c hc).2.2.1.trans hl, (k.calls c hc).2.2.2⟩,
      k.order⟩
  | false =>
    have hmissing : ∃ name, names p = l ++ [name] ∧
        s.dirs.exist ((f.start path).walk (l ++ [name])) = false := by
      rw [← Bool.not_eq_true, hresolves] at hres
      rcases hnext with heq | ⟨name, heq⟩
      · rw [heq] at hres
        exact absurd k.reached hres
      · refine ⟨name, heq, ?_⟩
        by_contra hexist
        refine hres fun n => ?_
        rw [heq]
        rcases take_snoc l name n with htake | htake <;> rw [htake]
        · exact k.reached n
        · simpa using hexist
    obtain ⟨name, heq, hmissing⟩ := hmissing
    have hf : f.exist ((f.start path).walk (names p)) = false := by
      rw [← Bool.not_eq_true] at hmissing ⊢
      rw [heq]
      exact fun hexist => hmissing ((k.made _).mpr (.inl hexist))
    simp only [Sys.mkdir, Bool.false_eq_true, if_false]
    cases hfails : fails s.calls.length with
    | true =>
      exact .inr ⟨rfl, l, p, s.dirs, s.calls, k, ⟨name, heq⟩, hpath, hnames, hf, rfl⟩
    | false =>
      rw [← hstart] at hmissing
      obtain ⟨g, hg, hcwd, hexist⟩ := Directories.mkdir_eq heq (by rw [hstart]; exact k.reached) hmissing
      rw [hstart] at hexist
      simp only [Bool.false_eq_true, if_false, hg]
      exact .inl ⟨trivial, k.snoc hcwd hpath heq hf hexist⟩

/-- One turn: the buffer is as it was when the cursor goes on. -/
theorem mkdirLoop_eq (fails : Nat → Bool) (hnul : nul ∉ path) {i : Nat} (hi : path[i]? = some '/') (s : Sys) :
    mkdirLoop fails s path i =
      if (mkdirOne fails s (path.take i)).1 = false then
        (some i, path.set i nul, (mkdirOne fails s (path.take i)).2)
      else
        match strchr path (i + 1) '/' with
        | none => (none, path, (mkdirOne fails s (path.take i)).2)
        | some next => mkdirLoop fails (mkdirOne fails s (path.take i)).2 path next := by
  have hlt := (List.getElem?_eq_some_iff.mp hi).1
  rw [mkdirLoop]
  simp only [cstr_set hnul hlt, set_set hi, Bool.not_eq_true']
  rw [set_set hi]
  refine if_congr Iff.rfl rfl ?_
  cases strchr path (i + 1) '/' <;> rfl

/-- The loop comes to the end, or to a call that fails. -/
theorem mkdirLoop_spec (fails : Nat → Bool) (hnul : nul ∉ path) {i : Nat} (hi : path[i]? = some '/') (hpos : 0 < i)
    (k : Progress f path l s) (hnext : Next l (path.take i)) :
    ((mkdirLoop fails s path i).1 = none ∧ (mkdirLoop fails s path i).2.1 = path ∧
      ∃ l', Progress f path l' (mkdirLoop fails s path i).2.2 ∧ Next l' path) ∨
    ((mkdirLoop fails s path i).1.isSome = true ∧ Stopped f path (mkdirLoop fails s path i).2.2) := by
  induction hn : path.length - i using Nat.strong_induction_on generalizing i l s with
  | _ n ih =>
    have hlt := (List.getElem?_eq_some_iff.mp hi).1
    have hne : path.take i ≠ [] := by
      rw [← List.length_pos_iff, List.length_take]
      omega
    rw [mkdirLoop_eq fails hnul hi]
    rcases mkdirOne_spec fails k hne ( List.take_prefix i path) (names_take hi) hnext with
      ⟨hret, k'⟩ | ⟨hret, hstopped⟩
    · have hnext' := next_slash hnul hi
      obtain ⟨-, -, -, hslash⟩ := strchr_spec hnul (i + 1)
      rw [if_neg (by simp [hret])]
      split
      · rename_i hend
        rw [hend, Option.getD_none, List.take_length] at hnext'
        exact .inl ⟨rfl, rfl, _, k', hnext'⟩
      · rename_i j hj
        rw [hj] at hnext'
        have hij := strchr_lt hj
        exact ih (path.length - j) (by omega) (hslash j hj) (by omega) k' hnext' rfl
    · rw [if_pos hret]
      exact .inr ⟨rfl, hstopped⟩

end

/-- What `FSUtil::Mkdir` has done for the path: no directory is taken away, and those made are
those of the calls that have succeeded, for paths that are ancestors of it or itself, each
longer than the one before, of directories that were missing. Only the last call may have failed, and
this is what the answer says; if it is true, the path and all its ancestors are there. -/
structure Made (f : Directories) (path : List Char) (r : Bool × Sys) : Prop where
  kept : ∀ d, f.exist d = true → r.2.dirs.exist d = true
  made : ∀ d, r.2.dirs.exist d = true ↔
    f.exist d = true ∨ ∃ c ∈ r.2.calls, c.2 = true ∧ d = (f.start path).walk (names c.1)
  ancestors : ∀ c ∈ r.2.calls, c.1 <+: path ∧ names c.1 <+: names path
  missing : ∀ c ∈ r.2.calls, f.exist ((f.start path).walk (names c.1)) = false
  below : ∀ c ∈ r.2.calls, ∀ k < (names c.1).length,
    r.2.dirs.exist ((f.start path).walk ((names c.1).take k)) = true
  order : r.2.calls.Pairwise fun a b => (names a.1).length < (names b.1).length
  stops : ∀ c ∈ r.2.calls.dropLast, c.2 = true
  answer : r.1 = false ↔ ∃ c ∈ r.2.calls, c.2 = false
  all : r.1 = true → ∀ k, r.2.dirs.exist ((f.start path).walk ((names path).take k)) = true

section
variable {f : Directories} {s : Sys} {l : List Name}

/-- Nothing has failed. -/
theorem Progress.done (k : Progress f path (names path) s) : Made f path (true, s) where
  kept d hd := (k.made d).mpr (.inl hd)
  made d := by
    have hok : (∃ c ∈ s.calls, d = (f.start path).walk (names c.1)) ↔
        ∃ c ∈ s.calls, c.2 = true ∧ d = (f.start path).walk (names c.1) :=
      exists_congr fun c => and_congr_right fun hc => by rw [(k.calls c hc).1, eq_self, true_and]
    rw [k.made, hok]
  ancestors c hc := ⟨(k.calls c hc).2.1, (k.calls c hc).2.2.1⟩
  missing c hc := (k.calls c hc).2.2.2
  below c hc n hn := by
    rw [List.prefix_iff_eq_take.mp (k.calls c hc).2.2.1, List.take_take]
    exact k.reached _
  order := k.order
  stops c hc := (k.calls c (List.mem_of_mem_dropLast hc)).1
  answer := by
    refine iff_of_false Bool.true_eq_false.mp fun hfail => ?_
    obtain ⟨c, hc, hfalse⟩ := hfail
    rw [(k.calls c hc).1] at hfalse
    cases hfalse
  all _ := k.reached

/-- The last call has failed. -/
theorem Stopped.done (h : Stopped f path s) : Made f path (false, s) := by
  obtain ⟨l, p, dirs, calls, k, ⟨name, heq⟩, hpath, hnames, hmissing, rfl⟩ := h
  have hcases : ∀ c ∈ calls ++ [(p, false)], c ∈ calls ∨ c = (p, false) :=
    fun c hc => (List.mem_append.mp hc).imp id List.mem_singleton.mp
  have hl : l <+: names path := (heq ▸ List.prefix_append l [name] : l <+: names p).trans hnames
  refine ⟨fun d hd => (k.made d).mpr (.inl hd), fun d => ?_, fun c hc => ?_, fun c hc => ?_,
    fun c hc n hn => ?_, ?_, fun c hc => ?_, iff_of_true rfl ⟨_, List.mem_append_right _ (List.mem_singleton_self _), rfl⟩,
    nofun⟩
  · rw [k.made]
    refine or_congr_right ⟨?_, ?_⟩
    · rintro ⟨c, hc, hd⟩
      exact ⟨c, List.mem_append_left _ hc, (k.calls c hc).1, hd⟩
    · rintro ⟨c, hc, hok, hd⟩
      rcases hcases c hc with hc | rfl
      · exact ⟨c, hc, hd⟩
      · cases hok
  · rcases hcases c hc with hc | rfl
    · exact ⟨(k.calls c hc).2.1, (k.calls c hc).2.2.1.trans hl⟩
    · exact ⟨hpath, hnames⟩
  · rcases hcases c hc with hc | rfl
    · exact (k.calls c hc).2.2.2
    · exact hmissing
  · rcases hcases c hc with hc | rfl
    · rw [List.prefix_iff_eq_take.mp (k.calls c hc).2.2.1, List.take_take]
      exact k.reached _
    · rw [heq, List.length_append, List.length_singleton] at hn
      rw [heq, List.take_append_of_le_length (Nat.le_of_lt_succ hn)]
      exact k.reached n
  · refine List.pairwise_append.mpr ⟨k.order, List.pairwise_singleton _ _, fun a ha b hb => ?_⟩
    have hlen := (k.calls a ha).2.2.1.length_le
    rw [List.mem_singleton.mp hb, heq, List.length_append]
    exact Nat.lt_succ_of_le hlen
  · rw [List.dropLast_concat] at hc
    exact (k.calls c hc).1

end

/-- **Making a directory.** For every set of directories, every path that is not empty, and whichever
calls of `mkdir` fail. -/
theorem mkdir_made (fails : Nat → Bool) (f : Directories) (dirname : List Char) (h : cstr dirname ≠ []) :
    Made f (cstr dirname) (mkdir fails ⟨f, []⟩ dirname) := by
  have hnul := not_mem_cstr dirname
  unfold mkdir
  generalize cstr dirname = path at h hnul
  have hstart := start_progress f path
  have hfirst := next_first hnul h
  split
  · rename_i hres
    exact (⟨rfl, hstart.made, (Directories.resolves_iff h).mp hres, nofun, List.Pairwise.nil⟩ :
      Progress f path (names path) ⟨f, []⟩).done
  · have hlast : ∀ {l : List Name} {s : Sys}, Progress f path l s → Next l path →
        Made f path (mkdirOne fails s (cstr path)) := by
      intro l s k hnext
      have hspec := mkdirOne_spec fails k h List.prefix_rfl List.prefix_rfl hnext
      rw [cstr_of_not_mem hnul]
      rcases hret : mkdirOne fails s path with ⟨ret, s'⟩
      rw [hret] at hspec
      rcases hspec with ⟨rfl, k'⟩ | ⟨rfl, hstopped⟩
      · exact k'.done
      · exact hstopped.done
    obtain ⟨-, -, -, hslash⟩ := strchr_spec hnul 1
    dsimp only
    cases hchr : strchr path 1 '/' with
    | none =>
      rw [hchr, Option.getD_none, List.take_length] at hfirst
      exact hlast hstart hfirst
    | some i =>
      rw [hchr] at hfirst
      rcases mkdirLoop_spec fails hnul (hslash i hchr) (strchr_lt hchr).1 hstart hfirst with
        ⟨hptr, hbuf, l, k, hnext⟩ | ⟨hptr, hstopped⟩
      · simp only [hptr, hbuf, Option.isSome_none, Bool.false_eq_true, if_false]
        exact hlast k hnext
      · simp only [hptr, if_true]
        exact hstopped.done

/-- Only the root is there. -/
def emptyDirs : Directories where
  exist d := d == []
  root := rfl
  parent d name h := by cases d <;> cases h
  cwd := []
  cwd_exist := rfl

/-- The second directory cannot be made. -/
theorem mkdir_made_refused :
    Made emptyDirs "a//b/c".toList (mkdir (fun n => n == 1) ⟨emptyDirs, []⟩ "a//b/c".toList) ∧
    (mkdir (fun n => n == 1) ⟨emptyDirs, []⟩ "a//b/c".toList).2.calls =
      [("a".toList, true), ("a//b".toList, false)] :=
  ⟨mkdir_made (fun n => n == 1) emptyDirs "a//b/c".toList (by decide), by decide +kernel⟩

end ShioSylar.FSUtil
