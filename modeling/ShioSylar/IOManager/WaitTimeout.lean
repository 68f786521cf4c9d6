import ShioSylar.Timer.Manager

/-! The timeout of `epoll_wait` (`IOManager::stopping(timeout)`, `IOManager::idle`).

`getNextTimer` is a 64-bit distance. It is compared with `MAX_TIMEOUT` as an `int`, kept in
`next_timeout` as it is when it does not compare greater, and narrowed once more for the
call; a retry after `EINTR` starts from what was kept. So what decides is the low half of
the distance as a signed number, not the distance. -/
namespace ShioSylar.IOManager.WaitTimeout
open TimerManager (U64 Timer)

/-- `(int)n` of a `uint64_t`. -/
def toInt (n : U64) : Int := (n.setWidth 32).toInt

/-- `MAX_TIMEOUT`. -/
def maxTimeout : Nat := 3000

/-- What the loop makes of `next_timeout` before a call. -/
def clamp (nextTimeout : U64) : U64 :=
  if nextTimeout ≠ BitVec.allOnes 64 then
    if toInt nextTimeout > maxTimeout then BitVec.ofNat 64 maxTimeout else nextTimeout
  else BitVec.ofNat 64 maxTimeout

/-- An answer of `epoll_wait`: its result, and whether `errno` is `EINTR`. -/
structure Answer where
  rt : Int
  eintr : Bool

/-- The loop around `epoll_wait`: the timeouts passed, as long as there are answers. -/
def waits (nextTimeout : U64) : List Answer → List Int
  | [] => []
  | answer :: rest =>
    let nextTimeout := clamp nextTimeout
    toInt nextTimeout :: if answer.rt < 0 ∧ answer.eintr = true then waits nextTimeout rest else []

section
variable {ι κ : Type}

/-- `IOManager::stopping(timeout)`: the answer and the timeout. -/
def stopping (s : TimerManager.State ι κ) (now : U64) (pendingEventCount : Nat)
    (schedulerStopping : Bool) : Bool × U64 :=
  let timeout := (s.getNextTimer now).1
  (timeout == BitVec.allOnes 64 && pendingEventCount == 0 && schedulerStopping, timeout)

/-- One turn of `idle` up to the end of the waiting; `none` if it stops. -/
def idle (s : TimerManager.State ι κ) (now : U64) (pendingEventCount : Nat)
    (schedulerStopping : Bool) (answers : List Answer) : Option (List Int) :=
  let r := stopping s now pendingEventCount schedulerStopping
  if r.1 then none else some (waits r.2 answers)

/-- The wait that never overshoots: `min(getNextTimer(), 3000)`, and 3000 without timers. -/
def wanted (distance : U64) : Int :=
  if distance = BitVec.allOnes 64 then maxTimeout else min distance.toNat maxTimeout

/-- The distances that survive the narrowing: a short one is kept, and of a long one the low
half is a positive `int` that is long too. -/
def Fits (distance : U64) : Prop :=
  distance = BitVec.allOnes 64 ∨ distance.toNat ≤ maxTimeout ∨
    (maxTimeout ≤ distance.toNat % 2 ^ 32 ∧ distance.toNat % 2 ^ 32 < 2 ^ 31)

instance (distance : U64) : Decidable (Fits distance) := by
  unfold Fits
  infer_instance

theorem toInt_eq (n : U64) : toInt n =
    if n.toNat % 2 ^ 32 < 2 ^ 31 then ((n.toNat % 2 ^ 32 : Nat) : Int)
    else ((n.toNat % 2 ^ 32 : Nat) : Int) - 2 ^ 32 := by
  rw [toInt, BitVec.toInt_eq_toNat_cond, BitVec.toNat_setWidth]
  push_cast
  split <;> split <;> omega

theorem toInt_maxTimeout : toInt (BitVec.ofNat 64 maxTimeout) = maxTimeout := by decide

/-- What is kept is not clamped any further. -/
theorem clamp_clamp (n : U64) : clamp (clamp n) = clamp n := by
  by_cases hones : n = BitVec.allOnes 64
  · subst hones
    decide
  · by_cases hgt : toInt n > maxTimeout
    · have hn : clamp n = BitVec.ofNat 64 maxTimeout := by rw [clamp, if_pos hones, if_pos hgt]
      rw [hn]
      decide
    · have hn : clamp n = n := by rw [clamp, if_pos hones, if_neg hgt]
      rw [hn, hn]

/-- Every call of one turn passes the same timeout. -/
theorem waits_eq (n : U64) (answers : List Answer) :
    ∀ timeout ∈ waits n answers, timeout = toInt (clamp n) := by
  induction answers generalizing n with
  | nil => exact fun _ h => nomatch h
  | cons answer rest ih =>
    intro timeout ht
    rcases List.mem_cons.mp ht with rfl | ht
    · rfl
    · split at ht
      · rw [ih (clamp n) timeout ht, clamp_clamp]
      · cases ht

/-- The timeout passed is right for exactly the distances that fit. -/
theorem toInt_clamp_iff (n : U64) : toInt (clamp n) = wanted n ↔ Fits n := by
  by_cases hones : n = BitVec.allOnes 64
  · subst hones
    decide
  · have hlt := n.isLt
    have hmax : maxTimeout = 3000 := rfl
    have hnarrow := toInt_eq n
    simp only [Fits, wanted, hones, false_or, if_false]
    by_cases hgt : toInt n > maxTimeout
    · have hc : toInt (clamp n) = maxTimeout := by
        rw [clamp, if_pos hones, if_pos hgt, toInt_maxTimeout]
      have hbig : maxTimeout < n.toNat := by
        split at hnarrow <;> omega
      rw [hc]
      omega
    · have hc : toInt (clamp n) = toInt n := by rw [clamp, if_pos hones, if_neg hgt]
      rw [hc]
      split at hnarrow <;> omega

/-- **The wait and the next timer.** In a turn of `idle` that does not stop, the timeouts of
all calls of `epoll_wait` are `min(getNextTimer(), 3000)` if and only if the distance fits. -/
theorem idle_timeout_iff (s : TimerManager.State ι κ) (now : U64) (pendingEventCount : Nat)
    (schedulerStopping : Bool) (answer : Answer) (rest : List Answer) (timeouts : List Int)
    (h : idle s now pendingEventCount schedulerStopping (answer :: rest) = some timeouts) :
    (∀ timeout ∈ timeouts, timeout = wanted (s.getNextTimer now).1) ↔
      Fits (s.getNextTimer now).1 := by
  have htimeouts : timeouts = waits (s.getNextTimer now).1 (answer :: rest) := by
    rw [idle, Option.ite_none_left_eq_some] at h
    exact (Option.some.inj h.2).symm
  rw [htimeouts, ← toInt_clamp_iff]
  constructor
  · intro hall
    exact hall _ (List.mem_cons_self ..)
  · intro heq timeout ht
    rw [waits_eq _ _ timeout ht, heq]

end

/-- One timer, that many milliseconds away at time zero. -/
def oneTimer (ms : U64) : TimerManager.State Nat Unit where
  objects t := if t = 0 then some (Timer.create ms (some ()) false 0) else none
  timers := [0]
  tickled := false
  previouseTime := 0

/-- A signal interrupts the first call. -/
theorem idle_timeout_iff_interrupted :
    idle (oneTimer 1000) 0 0 true [⟨-1, true⟩, ⟨0, false⟩] = some [1000, 1000] ∧
      1000 = wanted ((oneTimer 1000).getNextTimer 0).1 := by
  have hidle : idle (oneTimer 1000) 0 0 true [⟨-1, true⟩, ⟨0, false⟩] = some [1000, 1000] := by decide
  exact ⟨hidle, (idle_timeout_iff (oneTimer 1000) 0 0 true _ _ _ hidle).mpr (by decide) 1000
    (List.mem_cons_self ..)⟩

/-- A timer in 2 ^ 31 milliseconds: the wait is unbounded. -/
theorem idle_timeout_negative :
    idle (oneTimer 2147483648) 0 0 true [⟨0, false⟩] = some [-2147483648] ∧
      wanted ((oneTimer 2147483648).getNextTimer 0).1 = 3000 := by
  decide

end ShioSylar.IOManager.WaitTimeout
