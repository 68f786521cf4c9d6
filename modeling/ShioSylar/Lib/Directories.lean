import Mathlib.Data.List.Basic
import Mathlib.Data.List.Infix

/-! Directories and the paths that lead to them.

A directory is the list of names from the root to it. Which ones exist is a set that has the parent
of each of its members (`Directories`), so that a directory can only be made below one that is
there. A path is a text; a slash more makes no name. Where a path leads does not depend on what
exists (`walk`), and the path resolves if every directory on its way does (`reaches_iff`). -/
namespace ShioSylar.Lib

abbrev Name := List Char

abbrev Dir := List Name

namespace Dir

/-- Where a name leads. -/
def enter (d : Dir) (name : Name) : Dir :=
  if name = ['.'] then d else if name = ['.', '.'] then d.dropLast else d ++ [name]

def walk (d : Dir) (names : List Name) : Dir := names.foldl enter d

@[simp] theorem walk_nil (d : Dir) : d.walk [] = d := rfl

@[simp] theorem walk_cons (d : Dir) (name : Name) (rest : List Name) :
    d.walk (name :: rest) = (d.enter name).walk rest := rfl

theorem walk_snoc (d : Dir) (names : List Name) (name : Name) :
    d.walk (names ++ [name]) = (d.walk names).enter name := by
  rw [walk, List.foldl_append]
  rfl

end Dir

/-- The names of a path. -/
def names (path : List Char) : List Name := (path.splitOn '/').filter (!·.isEmpty)

@[simp] theorem names_append (p q : List Char) : names (p ++ '/' :: q) = names p ++ names q := by
  rw [names, List.splitOn_append_cons_self, List.filter_append]
  rfl

theorem names_part {p : List Char} (hp : '/' ∉ p) : names p = if p = [] then [] else [p] := by
  rw [names, List.splitOn_eq_singleton hp]
  cases p <;> rfl

/-- The directories that exist. -/
structure Directories where
  exist : Dir → Bool
  root : exist [] = true
  parent : ∀ d name, exist (d ++ [name]) = true → exist d = true
  cwd : Dir
  cwd_exist : exist cwd = true

namespace Directories
variable (f : Directories)

/-- Where a path begins. -/
def start (path : List Char) : Dir := if path.head? = some '/' then [] else f.cwd

/-- Every directory on the way is there. -/
def reaches (d : Dir) : List Name → Bool
  | [] => true
  | name :: rest => f.exist (d.enter name) && reaches (d.enter name) rest

/-- The path is that of a directory, as `lstat` and `access` see it. -/
def resolves (path : List Char) : Bool := !path.isEmpty && f.reaches (f.start path) (names path)

/-- One more directory. -/
def insert (d : Dir) (name : Name) (hd : f.exist d = true) : Directories where
  exist e := e == d ++ [name] || f.exist e
  root := by simp [f.root]
  parent e n he := by
    rcases Bool.or_eq_true_iff.mp he with he | he
    · have hsame := (List.append_inj' (eq_of_beq he) rfl).1
      simp [hsame, hd]
    · simp [f.parent e n he]
  cwd := f.cwd
  cwd_exist := by simp [f.cwd_exist]

variable {f}

theorem start_exist (path : List Char) : f.exist (f.start path) = true := by
  unfold start
  split
  · exact f.root
  · exact f.cwd_exist

theorem reaches_iff {d : Dir} (hd : f.exist d = true) (l : List Name) :
    f.reaches d l = true ↔ ∀ k, f.exist (d.walk (l.take k)) = true := by
  induction l generalizing d with
  | nil => simp [reaches, hd]
  | cons name rest ih =>
    rw [reaches, Bool.and_eq_true_iff]
    constructor
    · rintro ⟨hname, hrest⟩ k
      cases k with
      | zero => exact hd
      | succ k => exact (ih hname).mp hrest k
    · intro hall
      have hname : f.exist (d.enter name) = true := hall 1
      exact ⟨hname, (ih hname).mpr fun k => hall (k + 1)⟩

theorem resolves_iff {path : List Char} (hpath : path ≠ []) :
    f.resolves path = true ↔ ∀ k, f.exist ((f.start path).walk ((names path).take k)) = true := by
  rw [resolves, Bool.and_eq_true_iff, and_iff_right (by simpa using hpath), reaches_iff (start_exist path)]

theorem exist_walk {d : Dir} (hd : f.exist d = true) {l : List Name} (h : f.reaches d l = true) :
    f.exist (d.walk l) = true := by
  have hall := (reaches_iff hd l).mp h l.length
  rwa [List.take_length] at hall

/-- What is not there is no parent of what is. -/
theorem enter_missing {d : Dir} {name : Name} (hd : f.exist d = true) (h : f.exist (d.enter name) = false) :
    d.enter name = d ++ [name] := by
  unfold Dir.enter at h ⊢
  split at h
  · rw [hd] at h
    cases h
  · split at h
    · have hparent : f.exist d.dropLast = true := by
        by_cases hroot : d = []
        · rw [hroot]
          exact f.root
        · refine f.parent d.dropLast (d.getLast hroot) ?_
          rwa [List.dropLast_append_getLast]
      rw [hparent] at h
      cases h
    · rw [if_neg ‹_›, if_neg ‹_›]

/-- `mkdir`, where nothing else stands in the way: the last name is not there, and all before it
are. -/
def mkdir (f : Directories) (path : List Char) : Option Directories :=
  match (names path).getLast? with
  | none => none
  | some name =>
    let parent := (names path).dropLast
    if h : f.reaches (f.start path) parent = true ∧
        f.exist (((f.start path).walk parent).enter name) = false then
      some (f.insert ((f.start path).walk parent) name (exist_walk (start_exist path) h.1))
    else none

/-- One directory is made. -/
theorem mkdir_eq {path : List Char} {l : List Name} {name : Name} (hnames : names path = l ++ [name])
    (hl : ∀ k, f.exist ((f.start path).walk (l.take k)) = true)
    (hname : f.exist ((f.start path).walk (l ++ [name])) = false) :
    ∃ g, f.mkdir path = some g ∧ g.cwd = f.cwd ∧
      ∀ d, g.exist d = true ↔ f.exist d = true ∨ d = (f.start path).walk (l ++ [name]) := by
  have hparent := (reaches_iff (start_exist path) l).mpr hl
  rw [Dir.walk_snoc] at hname
  have henter := enter_missing (exist_walk (start_exist path) hparent) hname
  refine ⟨f.insert ((f.start path).walk l) name (exist_walk (start_exist path) hparent), ?_, rfl, fun d => ?_⟩
  · unfold mkdir
    simp only [hnames, List.getLast?_concat, List.dropLast_concat]
    rw [dif_pos ⟨hparent, hname⟩]
  · rw [Dir.walk_snoc, henter, or_comm]
    show (d == _ || f.exist d) = true ↔ _
    rw [Bool.or_eq_true_iff, beq_iff_eq]

end Directories

end ShioSylar.Lib
