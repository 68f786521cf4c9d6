import Mathlib.Data.List.GetD
import ShioSylar.Timer.Manager

/-! What the hooks keep about a descriptor (`fd_manager.h`, `fd_manager.cc`).

`FdManager` is a vector of pointers to `FdCtx`. An entry is only ever changed in place
through a pointer that `get` has just read, so the vector holds the objects themselves.
`fstat` is asked once, when an object is made: its answer is an argument. -/
namespace ShioSylar.Hook
open TimerManager (U64)

/-- SO_RCVTIMEO and SO_SNDTIMEO. -/
inductive TimeoutSo where
  | rcvtimeo | sndtimeo
  deriving DecidableEq

structure FdCtx where
  isInit : Bool
  isSocket : Bool
  sysNonblock : Bool
  userNonblock : Bool := false
  isClosed : Bool := false
  fd : Int
  recvTimeout : U64 := BitVec.allOnes 64
  sendTimeout : U64 := BitVec.allOnes 64

namespace FdCtx

/-- `FdCtx(fd)`; `fstat` is `none` where it fails, else whether `fd` is a socket. -/
def create (fd : Int) (fstat : Option Bool) : FdCtx :=
  { isInit := fstat.isSome, isSocket := fstat.getD false, sysNonblock := fstat.getD false, fd := fd }

/-- `setTimeout`. -/
def setTimeout (ctx : FdCtx) (type : TimeoutSo) (v : U64) : FdCtx :=
  match type with
  | .rcvtimeo => { ctx with recvTimeout := v }
  | .sndtimeo => { ctx with sendTimeout := v }

/-- `getTimeout`. -/
def getTimeout (ctx : FdCtx) : TimeoutSo → U64
  | .rcvtimeo => ctx.recvTimeout
  | .sndtimeo => ctx.sendTimeout

/-- `setUserNonblock`. -/
def setUserNonblock (ctx : FdCtx) (v : Bool) : FdCtx := { ctx with userNonblock := v }

end FdCtx

structure FdManager where
  datas : List (Option FdCtx)

namespace FdManager

/-- `FdManager()`. -/
def init : FdManager := ⟨List.replicate 64 none⟩

/-- The section of `get` under the read lock: the pointer, and whether `get` returns it;
`none` is an access before the vector. -/
def find (m : FdManager) (fd : Int) (autoCreate : Bool) : Option (Option FdCtx × Bool) :=
  if m.datas.length ≤ fd then some (none, !autoCreate)
  else if fd < 0 then none
  else
    let ctx := m.datas.getD fd.toNat none
    some (ctx, ctx.isSome || !autoCreate)

/-- The section of `get` under the write lock. -/
def create (m : FdManager) (fd : Int) (fstat : Option Bool) : FdCtx × FdManager :=
  let ctx := FdCtx.create fd fstat
  let size := if m.datas.length ≤ fd then (fd * 3 / 2).toNat else m.datas.length
  let datas := m.datas.take size ++ List.replicate (size - m.datas.length) none
  (ctx, ⟨datas.set fd.toNat (some ctx)⟩)

/-- `get`. -/
def get (m : FdManager) (fd : Int) (autoCreate : Bool) (fstat : Option Bool) :
    Option (Option FdCtx × FdManager) :=
  if fd = -1 then some (none, m)
  else
    (m.find fd autoCreate).map fun r =>
      if r.2 then (r.1, m)
      else
        let r := m.create fd fstat
        (some r.1, r.2)

/-- `del`; `none` is an access before the vector. -/
def del (m : FdManager) (fd : Int) : Option FdManager :=
  if m.datas.length ≤ fd then some m
  else if fd < 0 then none
  else some ⟨m.datas.set fd.toNat none⟩

/-- What a hook does with the pointer `get(fd)` returns. -/
def modify (m : FdManager) (fd : Nat) (op : FdCtx → FdCtx) : FdManager :=
  ⟨m.datas.modify fd (Option.map op)⟩

/-! ### By number -/

/-- The pointer that stands for `fd`. -/
def ctx (m : FdManager) (fd : Nat) : Option FdCtx := m.datas.getD fd none

/-- The vector never shrinks, so `resize(fd * 1.5)` reaches `fd`. -/
def Sized (m : FdManager) : Prop := 64 ≤ m.datas.length

section
variable (m : FdManager) (fd : Nat)

theorem init_sized : Sized init := Nat.le_refl 64

theorem init_ctx : init.ctx fd = none := by
  simp only [ctx, init, List.getD_eq_getElem?_getD, List.getElem?_replicate]
  split <;> rfl

theorem find_ctx (autoCreate : Bool) :
    m.find fd autoCreate = some (m.ctx fd, (m.ctx fd).isSome || !autoCreate) := by
  unfold find
  by_cases hout : m.datas.length ≤ fd
  · have hnone : m.ctx fd = none := List.getD_eq_default _ _ hout
    rw [if_pos (by exact_mod_cast hout), hnone]
    rfl
  · rw [if_neg (by exact_mod_cast hout), if_neg (by omega)]
    rfl

theorem get_ctx (fstat : Option Bool) : m.get fd false fstat = some (m.ctx fd, m) := by
  simp [get, find_ctx, show (fd : Int) ≠ -1 by omega]

/-- Room for `fd`, with the pointers that were there. -/
theorem create_datas (fstat : Option Bool) (h : Sized m) :
    ∃ rest, (∀ p ∈ rest, p = none) ∧ fd < (m.datas ++ rest).length ∧
      (m.create fd fstat).2 = ⟨(m.datas ++ rest).set fd (some (FdCtx.create fd fstat))⟩ := by
  unfold Sized at h
  by_cases hout : m.datas.length ≤ fd
  · have hle : m.datas.length ≤ fd * 3 / 2 := by omega
    refine ⟨List.replicate (fd * 3 / 2 - m.datas.length) none, ?_, ?_, ?_⟩
    · exact fun p hp => List.eq_of_mem_replicate hp
    · rw [List.length_append, List.length_replicate]
      omega
    · have hsize : ((fd : Int) * 3 / 2).toNat = fd * 3 / 2 := by omega
      simp only [create, if_pos (show (m.datas.length : Int) ≤ fd by exact_mod_cast hout), hsize,
        List.take_of_length_le hle, Int.toNat_natCast]
  · refine ⟨[], by simp, by simpa using hout, ?_⟩
    simp [create, show ¬ (m.datas.length : Int) ≤ fd by exact_mod_cast hout]

theorem create_ctx (fstat : Option Bool) (h : Sized m) (n : Nat) :
    (m.create fd fstat).2.ctx n = if n = fd then some (FdCtx.create fd fstat) else m.ctx n := by
  obtain ⟨rest, hrest, hlt, heq⟩ := m.create_datas fd fstat h
  rw [heq, ctx, ctx, List.getD_eq_getElem?_getD, List.getD_eq_getElem?_getD, List.getElem?_set]
  by_cases hn : n = fd
  · rw [if_pos hn, if_pos hn.symm, if_pos hlt]
    rfl
  · rw [if_neg hn, if_neg (Ne.symm hn), List.getElem?_append]
    split
    · rfl
    · rename_i hout
      rw [List.getElem?_eq_none (Nat.le_of_not_lt hout)]
      cases hp : rest[n - m.datas.length]? with
      | none => rfl
      | some p => exact hrest p (List.mem_of_getElem? hp)

theorem create_sized (fstat : Option Bool) (h : Sized m) : Sized (m.create fd fstat).2 := by
  obtain ⟨rest, -, -, heq⟩ := m.create_datas fd fstat h
  rw [heq, Sized, List.length_set, List.length_append]
  exact Nat.le_trans h (Nat.le_add_right _ _)

theorem del_ctx : ∃ m', m.del fd = some m' ∧ m'.datas.length = m.datas.length ∧
    ∀ n, m'.ctx n = if n = fd then none else m.ctx n := by
  unfold del
  by_cases hout : m.datas.length ≤ fd
  · refine ⟨m, if_pos (by exact_mod_cast hout), rfl, fun n => ?_⟩
    split
    · rename_i hn
      exact hn ▸ List.getD_eq_default _ _ hout
    · rfl
  · refine ⟨⟨m.datas.set fd none⟩, ?_, List.length_set .., fun n => ?_⟩
    · rw [if_neg (by exact_mod_cast hout), if_neg (by omega), Int.toNat_natCast]
    · rw [ctx, ctx, List.getD_eq_getElem?_getD, List.getD_eq_getElem?_getD, List.getElem?_set]
      by_cases hn : n = fd
      · rw [if_pos hn, if_pos hn.symm]
        split <;> rfl
      · rw [if_neg hn, if_neg (Ne.symm hn)]

theorem modify_ctx (op : FdCtx → FdCtx) (n : Nat) :
    (m.modify fd op).ctx n = if n = fd then (m.ctx n).map op else m.ctx n := by
  rw [ctx, ctx, modify, List.getD_eq_getElem?_getD, List.getD_eq_getElem?_getD, List.getElem?_modify]
  by_cases hn : n = fd
  · rw [if_pos hn, hn]
    cases m.datas[fd]? with
    | none => rfl
    | some p => simp
  · rw [if_neg hn]
    cases m.datas[n]? with
    | none => rfl
    | some p => simp [Ne.symm hn]

theorem modify_sized (op : FdCtx → FdCtx) (h : Sized m) : Sized (m.modify fd op) := by
  rw [Sized, modify, List.length_modify]
  exact h

end

end FdManager

end ShioSylar.Hook
