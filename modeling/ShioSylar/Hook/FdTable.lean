import ShioSylar.Hook.FdManager
import ShioSylar.Lib.Run

/-! The descriptor table, for every `int` (`fd_manager.cc`).

`get` and `del` take whatever number the caller of a hook has passed, and compare it with
`(int)m_datas.size()`. Only -1 is set apart, and only by `get`: any other negative number is a
position before the vector. And where the vector grows to `2^31` pointers or more its size is a
negative `int`, so that a pointer put in is not found again. Between the two the table is a map:
what `get(fd, true)` puts in is what `get(fd, false)` returns until `del(fd)` (`map_iff`).

The table holds addresses of any type; `FdManager` is the table of the objects themselves
(`get_fdManager`). -/
namespace ShioSylar.Hook.FdTable
open Lib

variable {π : Type}

/-- `(int)m_datas.size()`. -/
def size (datas : List (Option π)) : Int := (BitVec.ofNat 32 datas.length).toInt

/-- `m_datas[fd]`; `none` is an access out of bounds. -/
def at? (datas : List (Option π)) (fd : Int) : Option (Option π) :=
  if 0 ≤ fd then datas[fd.toNat]? else none

/-- `m_datas[fd] = p`. -/
def put (datas : List (Option π)) (fd : Int) (p : Option π) : Option (List (Option π)) :=
  (at? datas fd).map fun _ => datas.set fd.toNat p

/-- `m_datas.resize(n)`. -/
def resize (datas : List (Option π)) (n : Nat) : List (Option π) :=
  datas.take n ++ List.replicate (n - datas.length) none

/-- The section of `get` under the write lock; `ctx` is what `new FdCtx(fd)` returns. A negative
`fd * 1.5` is not a `size_t`. -/
def create (datas : List (Option π)) (fd : Int) (ctx : π) : Option (List (Option π)) :=
  if size datas ≤ fd then
    if fd < 0 then none else put (resize datas (fd * 3 / 2).toNat) fd (some ctx)
  else put datas fd (some ctx)

/-- `FdManager::get`. -/
def get (datas : List (Option π)) (fd : Int) (autoCreate : Bool) (ctx : π) :
    Option (Option π × List (Option π)) :=
  if fd = -1 then some (none, datas)
  else if size datas ≤ fd then
    if autoCreate = false then some (none, datas)
    else (create datas fd ctx).map fun datas => (some ctx, datas)
  else
    (at? datas fd).bind fun p =>
      if p.isSome || !autoCreate then some (p, datas)
      else (create datas fd ctx).map fun datas => (some ctx, datas)

/-- `FdManager::del`. -/
def del (datas : List (Option π)) (fd : Int) : Option (List (Option π)) :=
  if size datas ≤ fd then some datas else put datas fd none

/-! ### The table as a map -/

/-- A call, with any `int`. -/
inductive Call (π : Type) where
  | get (fd : BitVec 32) (autoCreate : Bool) (ctx : π)
  | del (fd : BitVec 32)

/-- The table, and the map it stands for. -/
structure State (π : Type) where
  /-- `none` after an access out of bounds. -/
  datas : Option (List (Option π))
  map : Int → Option π

namespace State

def init : State π := ⟨some (List.replicate 64 none), fun _ => none⟩

/-- The first `get(fd, true)` puts its pointer in, but for -1, and `del(fd)` takes it out. -/
def mapped (map : Int → Option π) : Call π → Int → Option π
  | .get fd autoCreate ctx =>
    if autoCreate = true ∧ fd.toInt ≠ -1 ∧ map fd.toInt = none then
      Function.update map fd.toInt (some ctx)
    else map
  | .del fd => Function.update map fd.toInt none

def step (s : State π) (c : Call π) : Option (State π) :=
  some
    { datas := s.datas.bind fun datas => match c with
        | .get fd autoCreate ctx => (FdTable.get datas fd.toInt autoCreate ctx).map Prod.snd
        | .del fd => FdTable.del datas fd.toInt
      map := mapped s.map c }

/-- The table is there, its entries are those of the map, and `get(fd, false)` finds them. -/
def Maps (s : State π) : Prop :=
  ∃ datas, s.datas = some datas ∧ (∀ n : Nat, datas.getD n none = s.map n) ∧
    ∀ fd : BitVec 32, -1 ≤ fd.toInt → ∀ ctx, FdTable.get datas fd.toInt false ctx = some (s.map fd.toInt, datas)

/-- `get` is given no negative number but -1 and `del` none at all, and the vector does not grow
to `2^31` pointers. -/
def InRange (s : State π) : Call π → Prop
  | .get fd autoCreate _ => -1 ≤ fd.toInt ∧ (autoCreate = true →
      (∀ datas ∈ s.datas, datas.length ≤ fd.toInt) → fd.toInt * 3 / 2 < 2 ^ 31)
  | .del fd => 0 ≤ fd.toInt

instance (s : State π) : (c : Call π) → Decidable (s.InRange c)
  | .get fd autoCreate _ => inferInstanceAs (Decidable (-1 ≤ fd.toInt ∧ (autoCreate = true →
      (∀ datas ∈ s.datas, datas.length ≤ fd.toInt) → fd.toInt * 3 / 2 < 2 ^ 31)))
  | .del fd => inferInstanceAs (Decidable (0 ≤ fd.toInt))

end State

/-! ### A vector that fits an `int` -/

section
variable {datas : List (Option π)}

/-- The vector has the size it starts with at least, and an `int` can say which. -/
structure Fits (datas : List (Option π)) : Prop where
  sized : 64 ≤ datas.length
  int : datas.length < 2 ^ 31

theorem Fits.size_eq (h : Fits datas) : size datas = datas.length := by
  have hlt := h.int
  rw [size, BitVec.toInt_eq_toNat_of_lt] <;> rw [BitVec.toNat_ofNat] <;> omega

/-- A vector that does not fit has a negative size. -/
theorem size_neg (h : 2 ^ 31 ≤ datas.length) (hlt : datas.length < 2 ^ 32) : size datas < 0 := by
  rw [size, BitVec.toInt_neg_iff, BitVec.toNat_ofNat, Nat.mod_eq_of_lt hlt]
  omega

theorem at?_nat (n : Nat) : at? datas n = datas[n]? := by
  rw [at?, if_pos (Int.natCast_nonneg n), Int.toNat_natCast]

theorem at?_neg {fd : Int} (h : fd < 0) : at? datas fd = none := if_neg (Int.not_le.mpr h)

theorem put_nat {n : Nat} (h : n < datas.length) (p : Option π) : put datas n p = some (datas.set n p) := by
  rw [put, at?_nat, List.getElem?_eq_getElem h]
  rfl

/-- The vector with room for `n`. -/
def grown (datas : List (Option π)) (n : Nat) : List (Option π) :=
  if datas.length ≤ n then resize datas (n * 3 / 2) else datas

/-- `n * 1.5` exceeds `n`. -/
theorem Fits.lt_grown (h : Fits datas) (n : Nat) : n < (grown datas n).length := by
  have hsized := h.sized
  unfold grown
  split
  · rw [resize, List.length_append, List.length_take, List.length_replicate]
    omega
  · omega

theorem Fits.length_grown (h : Fits datas) (n : Nat) :
    (grown datas n).length = if datas.length ≤ n then n * 3 / 2 else datas.length := by
  have hsized := h.sized
  unfold grown
  split
  · rw [resize, List.length_append, List.length_take, List.length_replicate]
    omega
  · rfl

/-- Growing moves no entry. -/
theorem Fits.grown_getD (h : Fits datas) (n k : Nat) : (grown datas n).getD k none = datas.getD k none := by
  have hsized := h.sized
  unfold grown
  split
  · rw [resize, List.take_of_length_le (by omega), List.getD_eq_getElem?_getD, List.getD_eq_getElem?_getD,
      List.getElem?_append]
    split
    · rfl
    · rename_i hout
      rw [List.getElem?_eq_none (Nat.le_of_not_lt hout), List.getElem?_replicate]
      split <;> rfl
  · rfl

theorem getD_set {n : Nat} (h : n < datas.length) (p : Option π) (k : Nat) :
    (datas.set n p).getD k none = if k = n then p else datas.getD k none := by
  rw [List.getD_eq_getElem?_getD, List.getD_eq_getElem?_getD, List.getElem?_set]
  by_cases hk : k = n
  · rw [if_pos hk, if_pos hk.symm, if_pos h]
    rfl
  · rw [if_neg hk, if_neg (Ne.symm hk)]

theorem Fits.create_nat (h : Fits datas) (n : Nat) (ctx : π) :
    create datas n ctx = some ((grown datas n).set n (some ctx)) := by
  have hroom := h.lt_grown n
  rw [create, h.size_eq]
  by_cases hle : datas.length ≤ n
  · have hsize : ((n : Int) * 3 / 2).toNat = n * 3 / 2 := by omega
    rw [grown, if_pos hle] at hroom ⊢
    rw [if_pos (by exact_mod_cast hle), if_neg (Int.not_lt.mpr (Int.natCast_nonneg n)), hsize, put_nat hroom]
  · rw [grown, if_neg hle] at hroom ⊢
    rw [if_neg (by exact_mod_cast hle), put_nat hroom]

/-- `get` of a number, by its entry. -/
theorem Fits.get_nat (h : Fits datas) (n : Nat) (autoCreate : Bool) (ctx : π) :
    get datas n autoCreate ctx = some (match datas.getD n none with
      | some p => (some p, datas)
      | none => if autoCreate then (some ctx, (grown datas n).set n (some ctx)) else (none, datas)) := by
  rw [get, if_neg (by omega), h.size_eq, h.create_nat, at?_nat, List.getD_eq_getElem?_getD]
  by_cases hle : datas.length ≤ n
  · rw [if_pos (by exact_mod_cast hle), List.getElem?_eq_none hle]
    cases autoCreate <;> rfl
  · rw [if_neg (by exact_mod_cast hle), List.getElem?_eq_getElem (Nat.lt_of_not_le hle)]
    cases datas[n] <;> cases autoCreate <;> rfl

theorem Fits.get_neg (h : Fits datas) {fd : Int} (hfd : fd < -1) (autoCreate : Bool) (ctx : π) :
    get datas fd autoCreate ctx = none := by
  have hsized := h.sized
  rw [get, if_neg (by omega), h.size_eq, if_neg (by omega), at?_neg (by omega)]
  rfl

theorem Fits.del_nat (h : Fits datas) (n : Nat) :
    ∃ datas', del datas n = some datas' ∧ datas'.length = datas.length ∧
      ∀ k, datas'.getD k none = if k = n then none else datas.getD k none := by
  rw [del, h.size_eq]
  by_cases hle : datas.length ≤ n
  · refine ⟨datas, if_pos (by exact_mod_cast hle), rfl, fun k => ?_⟩
    split
    · rename_i hk
      exact hk ▸ List.getD_eq_default _ _ hle
    · rfl
  · have hlt := Nat.lt_of_not_le hle
    refine ⟨datas.set n none, ?_, List.length_set .., getD_set hlt none⟩
    rw [if_neg (by exact_mod_cast hle), put_nat hlt]

theorem Fits.del_neg (h : Fits datas) {fd : Int} (hfd : fd < 0) : del datas fd = none := by
  have hsized := h.sized
  rw [del, h.size_eq, if_neg (by omega), put, at?_neg hfd]
  rfl

/-! ### Runs -/

/-- The table is there, an `int` can say its size, and its entries are those of the map. -/
structure State.Sound (s : State π) (datas : List (Option π)) : Prop where
  live : s.datas = some datas
  fits : Fits datas
  entries : ∀ n : Nat, datas.getD n none = s.map n
  minus : s.map (-1) = none

/-- An `int` from -1 on. -/
theorem natural {fd : BitVec 32} (h : -1 ≤ fd.toInt) : fd.toInt = -1 ∨ ∃ n : Nat, fd.toInt = n := by
  rcases Int.lt_or_le fd.toInt 0 with hneg | hpos
  · exact .inl (by omega)
  · exact .inr ⟨fd.toInt.toNat, (Int.toNat_of_nonneg hpos).symm⟩

namespace State
variable {s t : State π}

theorem Sound.maps (k : Sound s datas) : s.Maps := by
  refine ⟨datas, k.live, k.entries, fun fd hfd ctx => ?_⟩
  rcases natural hfd with hn | ⟨n, hn⟩ <;> rw [hn]
  · rw [k.minus]
    rfl
  · rw [k.fits.get_nat, k.entries]
    cases s.map n <;> rfl

theorem init_sound : Sound (init : State π) (List.replicate 64 none) := by
  refine ⟨rfl, ⟨by simp, by simp⟩, fun n => ?_, rfl⟩
  rw [List.getD_eq_getElem?_getD, List.getElem?_replicate]
  split <;> rfl

/-- One entry is written. -/
theorem Sound.write (k : Sound s datas) {datas' : List (Option π)} (hfits : Fits datas') {n : Nat}
    {p : Option π} (hentries : ∀ m, datas'.getD m none = if m = n then p else datas.getD m none)
    (hlive : t.datas = some datas') (hmap : t.map = Function.update s.map n p) : Sound t datas' := by
  refine ⟨hlive, hfits, fun m => ?_, ?_⟩
  · rw [hentries, hmap]
    by_cases hm : m = n
    · rw [if_pos hm, hm, Function.update_self]
    · rw [if_neg hm, Function.update_of_ne (by exact_mod_cast hm), k.entries]
  · rw [hmap, Function.update_of_ne (by omega), k.minus]

/-- A pointer that an `int` cannot reach is not found. -/
theorem not_maps_of_large {datas' : List (Option π)} (hlarge : 2 ^ 31 ≤ datas'.length)
    (hlt : datas'.length < 2 ^ 32) (hlive : t.datas = some datas') {fd : BitVec 32} (hfd : 0 ≤ fd.toInt)
    {ctx : π} (hmap : t.map fd.toInt = some ctx) : ¬ t.Maps := by
  rintro ⟨_, hlive', -, hget⟩
  cases hlive.symm.trans hlive'
  have hnone : FdTable.get datas' fd.toInt false ctx = some (none, datas') := by
    have hneg := size_neg hlarge hlt
    rw [FdTable.get, if_neg (by omega), if_pos (by omega), if_pos rfl]
  have hfound := hget fd (by omega) ctx
  rw [hnone, hmap] at hfound
  cases hfound

/-- Nothing is written. -/
theorem Sound.same (k : Sound s datas) (hlive : t.datas = s.datas) (hmap : t.map = s.map) : Sound t datas :=
  ⟨hlive.trans k.live, k.fits, by rw [hmap]; exact k.entries, by rw [hmap]; exact k.minus⟩

/-- `get` of -1 or of a number. -/
theorem Sound.get (k : Sound s datas) {fd : BitVec 32} (hfd : -1 ≤ fd.toInt) (autoCreate : Bool) (ctx : π) :
    let t : State π := ⟨s.datas.bind fun datas => (FdTable.get datas fd.toInt autoCreate ctx).map Prod.snd,
      mapped s.map (.get fd autoCreate ctx)⟩
    (s.InRange (.get fd autoCreate ctx) → ∃ datas', Sound t datas') ∧
      (¬ s.InRange (.get fd autoCreate ctx) → ¬ t.Maps) := by
  intro t
  rcases natural hfd with hn | ⟨n, hn⟩
  · have hin : s.InRange (.get fd autoCreate ctx) := by
      refine ⟨hfd, fun _ _ => ?_⟩
      rw [hn]
      decide
    refine ⟨fun _ => ⟨datas, k.same ?_ ?_⟩, fun hg => absurd hin hg⟩
    · simp only [t, k.live, Option.bind_some, hn]
      rfl
    · simp [t, mapped, hn]
  · have hget := k.fits.get_nat n autoCreate ctx
    rw [k.entries] at hget
    by_cases hput : autoCreate = true ∧ s.map n = none
    · -- the pointer is put in, after the vector has grown if it must
      obtain ⟨rfl, hmap⟩ := hput
      have hset : t.map = Function.update s.map n (some ctx) := by
        simp [t, mapped, hn, hmap, show (n : Int) ≠ -1 by omega]
      have hlive : t.datas = some ((grown datas n).set n (some ctx)) := by
        simp only [t, k.live, Option.bind_some, hn, hget, hmap]
        rfl
      have hlen : ((grown datas n).set n (some ctx)).length =
          if datas.length ≤ n then n * 3 / 2 else datas.length := by
        rw [List.length_set, k.fits.length_grown]
      have hin : s.InRange (.get fd true ctx) ↔ ((grown datas n).set n (some ctx)).length < 2 ^ 31 := by
        have hint := k.fits.int
        rw [hlen]
        simp only [InRange, k.live, Option.mem_some_iff, forall_eq', hn, true_imp_iff]
        by_cases hle : datas.length ≤ n
        · rw [if_pos hle]
          constructor
          · rintro ⟨-, hfit⟩
            have hfit := hfit (by exact_mod_cast hle)
            omega
          · exact fun hfit => ⟨by omega, fun _ => by omega⟩
        · rw [if_neg hle]
          exact iff_of_true ⟨by omega, fun hle' => absurd (by exact_mod_cast hle') hle⟩ hint
      rw [hin]
      constructor
      · intro hfit
        have hroom := k.fits.lt_grown n
        refine ⟨_, k.write ⟨?_, hfit⟩ (fun m => ?_) hlive hset⟩
        · have hsized := k.fits.sized
          rw [hlen]
          split <;> omega
        · rw [getD_set hroom, k.fits.grown_getD]
      · intro hlarge
        have hfdlt := BitVec.toInt_lt (x := fd)
        have hint := k.fits.int
        have hfound : t.map fd.toInt = some ctx := by rw [hset, hn, Function.update_self]
        refine not_maps_of_large (Nat.le_of_not_lt hlarge) ?_ hlive (by omega) hfound
        rw [hlen]
        split <;> omega
    · have hin : s.InRange (.get fd autoCreate ctx) := by
        refine ⟨hfd, fun hauto hle => ?_⟩
        have hle := hle datas k.live
        rw [hn] at hle
        have hnone : datas.getD n none = none := List.getD_eq_default _ _ (by exact_mod_cast hle)
        exact absurd ⟨hauto, k.entries n ▸ hnone⟩ hput
      refine ⟨fun _ => ⟨datas, k.same ?_ ?_⟩, fun hg => absurd hin hg⟩
      · simp only [t, k.live, Option.bind_some, hn, hget]
        cases hmap : s.map n with
        | some p => rfl
        | none =>
          have hauto : autoCreate = false := by simpa [hmap] using hput
          rw [hauto]
          rfl
      · simp only [t, mapped, hn]
        exact if_neg fun h => hput ⟨h.1, h.2.2⟩

/-- What a call does to a sound table. -/
theorem Sound.step (k : Sound s datas) {c : Call π} (h : s.step c = some t) :
    (s.InRange c → ∃ datas', Sound t datas') ∧ (¬ s.InRange c → ¬ t.Maps) := by
  obtain rfl := Option.some.inj h
  -- a call that faults leaves no table
  have hfault : ∀ {u : State π}, u.datas = none → ¬ u.Maps := by
    rintro u hu ⟨_, hlive, -⟩
    cases hu.symm.trans hlive
  cases c with
  | get fd autoCreate ctx =>
    rcases Int.lt_or_le fd.toInt (-1) with hneg | hpos
    · refine ⟨fun hg => absurd hg.1 (Int.not_le.mpr hneg), fun _ => hfault ?_⟩
      simp only [k.live, Option.bind_some, k.fits.get_neg hneg, Option.map_none]
    · exact k.get hpos autoCreate ctx
  | del fd =>
    rcases Int.lt_or_le fd.toInt 0 with hneg | hpos
    · refine ⟨fun hg => absurd hg (Int.not_le.mpr hneg), fun _ => hfault ?_⟩
      simp only [k.live, Option.bind_some, k.fits.del_neg hneg]
    · refine ⟨fun _ => ?_, fun hg => absurd hpos hg⟩
      obtain ⟨n, hn⟩ := Int.eq_ofNat_of_zero_le hpos
      obtain ⟨datas', hdel, hlen, hentries⟩ := k.fits.del_nat n
      refine ⟨datas', k.write ⟨hlen ▸ k.fits.sized, hlen ▸ k.fits.int⟩ hentries ?_ ?_⟩
      · simp only [k.live, Option.bind_some, hn, hdel]
      · simp only [mapped, hn]

end State

end

/-- **The table is a finite map.** For every sequence of calls with any `int`s: no access is out of
bounds, the entries are those of the map and `get(fd, false)` finds them, if and only if `get` is
given no negative number but -1, `del` none at all, and the vector does not grow to `2^31`
pointers. -/
theorem map_iff (calls : List (Call π)) (s : State π) (h : run State.step State.init calls = some s) :
    (∀ xs ys u, calls = xs ++ ys → run State.step State.init xs = some u → u.Maps) ↔
      Meets State.step State.InRange State.init calls := by
  refine passes_iff_meets_guarded (I := fun s => ∃ datas, State.Sound s datas) (R := fun _ _ => True)
    ?_ ?_ ⟨_, State.init_sound⟩ State.init_sound.maps (meets_true _ _) h
  · rintro s c t ⟨datas, k⟩ - hg hs
    exact (k.step hs).1 hg
  · rintro s c t ⟨datas, k⟩ - - hs
    refine ⟨fun hp => ?_, fun hg => ?_⟩
    · by_contra hg
      exact (k.step hs).2 hg hp
    · obtain ⟨datas', k'⟩ := (k.step hs).1 hg
      exact k'.maps

/-- A number that was never a descriptor, and what a failed `socket` leaves with the caller. -/
theorem map_negative :
    (run State.step (State.init : State Unit) [.get (-2) false ()]).map State.datas = some none ∧
    (run State.step (State.init : State Unit) [.del (-1)]).map State.datas = some none :=
  ⟨rfl, rfl⟩

/-- Two descriptors, one of them past the end of the vector, and -1. -/
def sampleCalls : List (Call Nat) :=
  [.get 3 true 30, .get 70 true 700, .get (-1) true 1, .del 3, .get 3 true 31, .get 70 true 701]

theorem map_iff_sample : ∃ s, run State.step State.init sampleCalls = some s ∧ s.Maps ∧
    s.map 3 = some 31 ∧ s.map 70 = some 700 := by
  refine ⟨_, rfl, (map_iff sampleCalls _ rfl).mpr ?_ sampleCalls [] _ (List.append_nil _).symm rfl, rfl, rfl⟩
  decide

/-! ### The table of the objects -/

theorem create_fdManager (m : FdManager) (n : Nat) (fstat : Option Bool) :
    (m.create n fstat).2.datas = (grown m.datas n).set n (some (FdCtx.create n fstat)) := by
  have hsize : ((n : Int) * 3 / 2).toNat = n * 3 / 2 := by omega
  rw [FdManager.create, grown, hsize]
  by_cases hle : m.datas.length ≤ n
  · rw [if_pos (show (m.datas.length : Int) ≤ n by exact_mod_cast hle), if_pos hle]
    rfl
  · rw [if_neg (show ¬ (m.datas.length : Int) ≤ n by exact_mod_cast hle), if_neg hle]
    simp

/-- `FdManager` is this table, as long as the vector fits an `int`. -/
theorem get_fdManager (m : FdManager) (h : Fits m.datas) {fd : Int} (hfd : -1 ≤ fd) (autoCreate : Bool)
    (fstat : Option Bool) : get m.datas fd autoCreate (FdCtx.create fd fstat) =
      (m.get fd autoCreate fstat).map fun r => (r.1, r.2.datas) := by
  rcases Int.lt_or_le fd 0 with hneg | hpos
  · obtain rfl : fd = -1 := by omega
    rfl
  · obtain ⟨n, rfl⟩ := Int.eq_ofNat_of_zero_le hpos
    rw [h.get_nat, FdManager.get, if_neg (show ¬ (n : Int) = -1 by omega), FdManager.find_ctx, FdManager.ctx]
    cases m.datas.getD n none with
    | some p => rfl
    | none =>
      cases autoCreate with
      | false => rfl
      | true =>
        show some (some (FdCtx.create n fstat), _) = some (some (FdCtx.create n fstat), (m.create n fstat).2.datas)
        rw [create_fdManager]

theorem del_fdManager (m : FdManager) (h : Fits m.datas) (fd : Int) :
    del m.datas fd = (m.del fd).map FdManager.datas := by
  rw [del, FdManager.del, h.size_eq]
  by_cases hle : m.datas.length ≤ fd
  · rw [if_pos hle, if_pos hle]
    rfl
  · rw [if_neg hle, if_neg hle]
    by_cases hneg : fd < 0
    · rw [if_pos hneg, put, at?_neg hneg]
      rfl
    · obtain ⟨n, rfl⟩ := Int.eq_ofNat_of_zero_le (Int.not_lt.mp hneg)
      rw [if_neg hneg, put_nat (by omega)]
      rfl

end ShioSylar.Hook.FdTable
