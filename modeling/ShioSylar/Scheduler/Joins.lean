import ShioSylar.Scheduler.Lifecycle
import ShioSylar.Scheduler.Drains

/-! What `start` has made and what `stop` has waited for.

`Threads` ties each `Thread` to how far the creator and the worker on it are. -/
namespace ShioSylar.Scheduler.Lifecycle
open Lib Workers

variable {ω φ κ : Type}

def ThreadPc.rank : ThreadPc → Nat
  | .absent => 0
  | .created => 1
  | .identified => 2
  | .taken => 3
  | .running => 4
  | .returned => 5
  | .joined => 6

/-- The threads that `start` has still to make. -/
def Creator.toMake : Creator ω → Nat
  | .spawning left => left.length
  | .waiting _ left => left.length + 1
  | _ => 0

/-- From `start` on until `m_threads` is swapped out. -/
def Creator.keeps : Creator ω → Bool
  | .fresh | .joining _ | .returned => false
  | _ => true

structure Threads (thread : ω → Int) (s : State ω φ κ) : Prop where
  entered : ∀ w, s.caller ≠ some w → s.pc w ≠ .out → 4 ≤ (s.object w).pc.rank
  finished : ∀ w, 5 ≤ (s.object w).pc.rank → s.pc w = .exited
  caller : ∀ w, s.caller = some w → (s.object w).pc = .absent ∧ (s.rootAtRest w = false → s.creator = .inRoot)
  identified : ∀ w, 2 ≤ (s.object w).pc.rank → (s.object w).id = thread w ∧ s.threadName w = (s.object w).name
  taken : ∀ w, 3 ≤ (s.object w).pc.rank → (s.object w).hasCb = false
  making : ∀ w, 1 ≤ (s.object w).pc.rank → (s.object w).pc.rank ≤ 3 → ∃ left, s.creator = .waiting w left
  waiting : ∀ w left, s.creator = .waiting w left → 1 ≤ (s.object w).pc.rank ∧ w ∉ s.threads ∧
    (s.object w).name = s.name ++ "_" ++ toString s.threads.length ∧
    ((s.object w).semaphore = 0 ↔ (s.object w).pc.rank ≤ 3)
  listed : ∀ (i : Nat) w, s.threads[i]? = some w →
    4 ≤ (s.object w).pc.rank ∧ (s.object w).name = s.name ++ "_" ++ toString i
  running : ∀ w, 4 ≤ (s.object w).pc.rank → (s.object w).pc.rank ≤ 5 →
    w ∈ s.threads ∨ (∃ left, s.creator = .waiting w left) ∨ ∃ left, s.creator = .joining left ∧ w ∈ left
  ids : s.creator.keeps = true → s.threadIds = s.caller.toList.map thread ++ s.threads.map thread
  count : s.creator.keeps = true → s.threads.length + s.creator.toMake = s.threadCount
  empty : s.creator.keeps = false → s.threads = []
  marked : s.creator = .marked → s.threadCount = 0
  made : s.creator.keeps = false → s.creator ≠ .fresh → 0 < s.threadCount → ∃ w, 4 ≤ (s.object w).pc.rank
  fresh : s.creator = .fresh → s.threadIds = s.caller.toList.map thread

section
variable [DecidableEq ω] {thread : ω → Int} {s t : State ω φ κ} {w : ω}

theorem init_threads (thread : ω → Int) (name : String) (threads : Nat) (caller : Option ω) :
    Threads thread (init thread name threads caller : State ω φ κ) := by
  refine ⟨fun w _ h => absurd rfl h, fun w h => ?_, fun w _ => ⟨rfl, fun h => ?_⟩, fun w h => ?_, fun w h => ?_,
    fun w h => ?_, fun w left h => ?_, fun i w h => ?_, fun w h => ?_, fun h => ?_, fun h => ?_, fun _ => rfl,
    fun h => ?_, fun _ h => absurd rfl h, fun _ => rfl⟩
  · simp [init, ThreadPc.rank] at h
  · cases h
  · simp [init, ThreadPc.rank] at h
  · simp [init, ThreadPc.rank] at h
  · simp [init, ThreadPc.rank] at h
  · cases h
  · simp [init] at h
  · simp [init, ThreadPc.rank] at h
  · cases h
  · cases h
  · cases h

/-! ### One step -/

omit [DecidableEq ω] in
theorem rootAtRest_congr (h : t.pc w = s.pc w) : t.rootAtRest w = s.rootAtRest w := by
  unfold State.rootAtRest
  rw [h]

/-- The workers move. -/
theorem Threads.sched (k : Threads thread s) (u : Stopper ω φ κ)
    (henter : ∀ w, u.state.pc w ≠ s.pc w → s.pc w = .out → s.mayEnter w = true)
    (hexited : ∀ w, s.pc w = .exited → u.state.pc w = .exited) : Threads thread { s with stopper := u } := by
  refine ⟨fun w hw hout => ?_, fun w h => hexited w (k.finished w h), fun w hw => ⟨(k.caller w hw).1, fun h => ?_⟩,
    k.identified, k.taken, k.making, k.waiting, k.listed, k.running, k.ids, k.count, k.empty, k.marked, k.made, k.fresh⟩
  · by_cases hold : s.pc w = .out
    · have hmay := henter w (fun h => hout (h.trans hold)) hold
      rw [State.mayEnter, if_neg hw] at hmay
      have hpc : (s.object w).pc = .running := by simpa using hmay
      show 4 ≤ (s.object w).pc.rank
      rw [hpc]
      exact Nat.le_refl _
    · exact k.entered w hw hold
  · by_cases hsame : u.state.pc w = s.pc w
    · exact (k.caller w hw).2 ((rootAtRest_congr (t := { s with stopper := u }) hsame).symm.trans h)
    · by_cases hold : s.pc w = .out
      · have hmay := henter w hsame hold
        rw [State.mayEnter, if_pos hw] at hmay
        show s.creator = .inRoot
        split at hmay
        · assumption
        · cases hmay
      · refine (k.caller w hw).2 ?_
        unfold State.rootAtRest
        split
        · exact absurd ‹_› hold
        · exact absurd ((hexited w ‹_›).trans (Eq.symm ‹_›)) hsame
        · rfl

/-- A thread goes on in `Thread::run`. -/
theorem Threads.object (k : Threads thread s) {x : Thread} {n : String} (hcaller : s.caller ≠ some w)
    (hpos : 1 ≤ (s.object w).pc.rank) (hrank : x.pc.rank = (s.object w).pc.rank + 1) (hlast : x.pc.rank ≤ 5)
    (hname : x.name = (s.object w).name) (hid : x.id = thread w ∧ n = x.name)
    (hcb : 3 ≤ x.pc.rank → x.hasCb = false) (hend : 5 ≤ x.pc.rank → s.pc w = .exited)
    (hsem : ((s.object w).semaphore = 0 ↔ (s.object w).pc.rank ≤ 3) → (x.semaphore = 0 ↔ x.pc.rank ≤ 3)) :
    Threads thread { s.setObject w x with threadName := Function.update s.threadName w n } := by
  set t : State ω φ κ := { s.setObject w x with threadName := Function.update s.threadName w n }
  have hself : t.object w = x := Function.update_self ..
  have hother : ∀ {w'}, w' ≠ w → t.object w' = s.object w' := fun h => Function.update_of_ne h ..
  have hnames : ∀ {w'}, w' ≠ w → t.threadName w' = s.threadName w' := fun h => Function.update_of_ne h ..
  refine ⟨fun w' hw hout => ?_, fun w' h => ?_, fun w' hw => ?_, fun w' h => ?_, fun w' h => ?_, fun w' h h' => ?_,
    fun w' left h => ?_, fun i w' h => ?_, fun w' h h' => ?_, k.ids, k.count, k.empty, k.marked, fun h h' hc => ?_,
    k.fresh⟩
  · have hold := k.entered w' hw hout
    by_cases hne : w' = w
    · subst hne
      rw [hself]
      omega
    · rw [hother hne]
      exact hold
  · by_cases hne : w' = w
    · subst hne
      rw [hself] at h
      exact hend h
    · rw [hother hne] at h
      exact k.finished w' h
  · have hne : w' ≠ w := by
      rintro rfl
      exact hcaller hw
    rw [hother hne]
    exact k.caller w' hw
  · by_cases hne : w' = w
    · subst hne
      rw [hself]
      exact ⟨hid.1, (Function.update_self ..).trans hid.2⟩
    · rw [hother hne] at h
      rw [hother hne, hnames hne]
      exact k.identified w' h
  · by_cases hne : w' = w
    · subst hne
      rw [hself] at h ⊢
      exact hcb h
    · rw [hother hne] at h ⊢
      exact k.taken w' h
  · by_cases hne : w' = w
    · subst hne
      rw [hself] at h h'
      exact k.making w' hpos (by omega)
    · rw [hother hne] at h h'
      exact k.making w' h h'
  · obtain ⟨h₁, h₂, h₃, h₄⟩ := k.waiting w' left h
    by_cases hne : w' = w
    · subst hne
      rw [hself]
      exact ⟨by omega, h₂, hname.trans h₃, hsem h₄⟩
    · rw [hother hne]
      exact ⟨h₁, h₂, h₃, h₄⟩
  · obtain ⟨h₁, h₂⟩ := k.listed i w' h
    by_cases hne : w' = w
    · subst hne
      rw [hself]
      exact ⟨by omega, hname.trans h₂⟩
    · rw [hother hne]
      exact ⟨h₁, h₂⟩
  · by_cases hne : w' = w
    · subst hne
      rw [hself] at h h'
      by_cases h4 : 4 ≤ (s.object w').pc.rank
      · exact k.running w' h4 (by omega)
      · exact .inr (.inl (k.making w' hpos (by omega)))
    · rw [hother hne] at h h'
      exact k.running w' h h'
  · obtain ⟨w', hw'⟩ := k.made h h' hc
    refine ⟨w', ?_⟩
    by_cases hne : w' = w
    · subst hne
      rw [hself]
      omega
    · rw [hother hne]
      exact hw'

omit [DecidableEq ω] in
/-- The creator goes on without its threads. -/
theorem Threads.advance (k : Threads thread s) {c : Creator ω} {u : Stopper ω φ κ}
    (hstate : u.state = s.stopper.state) (hkeeps : s.creator.keeps = true)
    (hmake : s.creator.toMake = 0) (hc : c.toMake = 0) (hwait : ∀ w left, c ≠ .waiting w left)
    (hnext : c.keeps = true ∨ c = .returned ∧ s.threadCount = 0)
    (hroot : s.creator = .inRoot → ∀ w, s.caller = some w → s.rootAtRest w = true)
    (hmarked : c = .marked → s.threadCount = 0) : Threads thread { s with stopper := u, creator := c } := by
  have hpc : ∀ w, State.pc { s with stopper := u, creator := c } w = s.pc w := fun w => by
    show u.state.pc w = _
    rw [hstate]
    rfl
  have hnone : ∀ w left, s.creator ≠ .waiting w left := by
    intro w left h
    rw [h] at hmake
    simp [Creator.toMake] at hmake
  have hcount := k.count hkeeps
  rw [hmake] at hcount
  refine ⟨fun w hw hout => k.entered w hw (hpc w ▸ hout), fun w h => (hpc w).trans (k.finished w h),
    fun w hw => ⟨(k.caller w hw).1, fun h => ?_⟩, k.identified, k.taken, fun w h h' => ?_,
    fun w left h => absurd h (hwait w left), k.listed, fun w h h' => ?_, fun _ => k.ids hkeeps, fun _ => ?_,
    fun h => ?_, hmarked, fun h _ hpos => ?_, fun h => ?_⟩
  · rw [rootAtRest_congr (hpc w)] at h
    have hin := (k.caller w hw).2 h
    cases (hroot hin w hw).symm.trans h
  · obtain ⟨left, hl⟩ := k.making w h h'
    exact absurd hl (hnone w left)
  · obtain hw | ⟨left, hl⟩ | ⟨left, hl, -⟩ := k.running w h h'
    · exact .inl hw
    · exact absurd hl (hnone w left)
    · rw [hl] at hkeeps
      cases hkeeps
  · show s.threads.length + c.toMake = s.threadCount
    rw [hc]
    exact hcount
  · obtain hk | ⟨-, hzero⟩ := hnext
    · cases hk.symm.trans h
    · exact List.eq_nil_of_length_eq_zero (by show s.threads.length = 0; omega)
  · obtain hk | ⟨-, hzero⟩ := hnext
    · cases hk.symm.trans h
    · have hpos : 0 < s.threadCount := hpos
      omega
  · obtain hk | ⟨hk, -⟩ := hnext
    · have h : c = .fresh := h
      rw [h] at hk
      cases hk
    · cases hk.symm.trans h

omit [DecidableEq ω] in
/-- `start` takes the mutex. -/
theorem Threads.starts (k : Threads thread s) {ws : List ω} {u : Stopper ω φ κ}
    (hstate : u.state = s.stopper.state) (hfresh : s.creator = .fresh)
    (hlen : ws.length = s.threadCount) : Threads thread { s with stopper := u, creator := .spawning ws } := by
  have hpc : ∀ w, State.pc { s with stopper := u, creator := .spawning ws } w = s.pc w := fun w => by
    show u.state.pc w = _
    rw [hstate]
    rfl
  have hkeeps : s.creator.keeps = false := by rw [hfresh]; rfl
  have hempty := k.empty hkeeps
  refine ⟨fun w hw hout => k.entered w hw (hpc w ▸ hout), fun w h => (hpc w).trans (k.finished w h),
    fun w hw => ⟨(k.caller w hw).1, fun h => ?_⟩, k.identified, k.taken, fun w h h' => ?_,
    fun w left h => (by cases h), k.listed, fun w h h' => ?_, fun _ => ?_, fun _ => ?_,
    fun h => (by cases h), fun h => (by cases h), fun h => (by cases h), fun h => (by cases h)⟩
  · rw [rootAtRest_congr (hpc w)] at h
    cases hfresh.symm.trans ((k.caller w hw).2 h)
  · obtain ⟨left, hl⟩ := k.making w h h'
    cases hfresh.symm.trans hl
  · obtain hw | ⟨left, hl⟩ | ⟨left, hl, -⟩ := k.running w h h'
    · exact .inl hw
    · cases hfresh.symm.trans hl
    · cases hfresh.symm.trans hl
  · show s.threadIds = _ ++ s.threads.map thread
    rw [hempty, k.fresh hfresh]
    simp
  · show s.threads.length + ws.length = _
    rw [hempty, hlen]
    simp

/-- `start` makes a `Thread`. -/
theorem Threads.spawns (k : Threads thread s) {left : List ω} (hc : s.creator = .spawning (w :: left))
    (habsent : (s.object w).pc = .absent) (hcaller : s.caller ≠ some w) :
    Threads thread { s.setObject w { pc := .created, name := s.name ++ "_" ++ toString s.threads.length, hasCb := true }
      with creator := .waiting w left } := by
  set x : Thread := { pc := .created, name := s.name ++ "_" ++ toString s.threads.length, hasCb := true }
  set t : State ω φ κ := { s.setObject w x with creator := .waiting w left }
  have hkeeps : s.creator.keeps = true := by rw [hc]; rfl
  have hself : t.object w = x := Function.update_self ..
  have hother : ∀ {w'}, w' ≠ w → t.object w' = s.object w' := fun h => Function.update_of_ne h ..
  have hzero : (s.object w).pc.rank = 0 := by rw [habsent]; rfl
  have hone : x.pc.rank = 1 := rfl
  -- whoever has got further is another thread
  have hrank : ∀ {w' : ω} {n : Nat}, 2 ≤ n → n ≤ (t.object w').pc.rank → w' ≠ w := by
    rintro w' n hn h rfl
    rw [hself, hone] at h
    omega
  have hout : s.pc w = .out := by
    by_contra h
    have := k.entered w hcaller h
    omega
  refine ⟨fun w' hw h => ?_, fun w' h => ?_, fun w' hw => ?_, fun w' h => ?_, fun w' h => ?_, fun w' h h' => ?_,
    fun w' left' h => ?_, fun i w' h => ?_, fun w' h h' => ?_, fun _ => k.ids hkeeps, fun _ => ?_,
    fun h => (by cases h), fun h => (by cases h), fun h => (by cases h), fun h => (by cases h)⟩
  · have hne : w' ≠ w := by
      rintro rfl
      exact h hout
    rw [hother hne]
    exact k.entered w' hw h
  · have hne := hrank (by omega) h
    rw [hother hne] at h
    exact k.finished w' h
  · have hne : w' ≠ w := by
      rintro rfl
      exact hcaller hw
    rw [hother hne]
    refine ⟨(k.caller w' hw).1, fun h => ?_⟩
    cases hc.symm.trans ((k.caller w' hw).2 h)
  · have hne := hrank (by omega) h
    rw [hother hne] at h ⊢
    exact k.identified w' h
  · have hne := hrank (by omega) h
    rw [hother hne] at h ⊢
    exact k.taken w' h
  · by_cases hne : w' = w
    · exact ⟨left, by rw [hne]⟩
    · rw [hother hne] at h h'
      obtain ⟨l, hl⟩ := k.making w' h h'
      cases hc.symm.trans hl
  · cases h
    rw [hself]
    refine ⟨by omega, fun hmem => ?_, rfl, by simp [x, ThreadPc.rank]⟩
    obtain ⟨i, hi⟩ := List.mem_iff_getElem?.mp hmem
    have := (k.listed i w hi).1
    omega
  · obtain ⟨h₁, h₂⟩ := k.listed i w' h
    have hne : w' ≠ w := by
      rintro rfl
      omega
    rw [hother hne]
    exact ⟨h₁, h₂⟩
  · have hne := hrank (by omega) h
    rw [hother hne] at h h'
    obtain hw | ⟨l, hl⟩ | ⟨l, hl, -⟩ := k.running w' h h'
    · exact .inl hw
    · cases hc.symm.trans hl
    · cases hc.symm.trans hl
  · have hcount := k.count hkeeps
    rw [hc] at hcount
    exact hcount

/-- The constructor of the `Thread` returns, and `start` reads its id. -/
theorem Threads.wakes (k : Threads thread s) {left : List ω} (hc : s.creator = .waiting w left)
    (hsem : 0 < (s.object w).semaphore) : Threads thread { s.setObject w { s.object w with
      semaphore := (s.object w).semaphore - 1 } with
      threads := s.threads ++ [w], threadIds := s.threadIds ++ [(s.object w).id], creator := .spawning left } := by
  set t : State ω φ κ := { s.setObject w { s.object w with semaphore := (s.object w).semaphore - 1 } with
    threads := s.threads ++ [w], threadIds := s.threadIds ++ [(s.object w).id], creator := .spawning left }
  obtain ⟨h₁, h₂, h₃, h₄⟩ := k.waiting w left hc
  have hfour : 4 ≤ (s.object w).pc.rank := by
    by_contra h
    have := h₄.mpr (by omega)
    omega
  have hkeeps : s.creator.keeps = true := by rw [hc]; rfl
  have hsame : ∀ w', (t.object w').pc = (s.object w').pc ∧ (t.object w').id = (s.object w').id ∧
      (t.object w').name = (s.object w').name ∧ (t.object w').hasCb = (s.object w').hasCb := by
    intro w'
    by_cases hne : w' = w
    · subst hne
      rw [show t.object w' = { s.object w' with semaphore := (s.object w').semaphore - 1 } from Function.update_self ..]
      exact ⟨rfl, rfl, rfl, rfl⟩
    · rw [show t.object w' = s.object w' from Function.update_of_ne hne ..]
      exact ⟨rfl, rfl, rfl, rfl⟩
  refine ⟨fun w' hw h => ?_, fun w' h => ?_, fun w' hw => ?_, fun w' h => ?_, fun w' h => ?_, fun w' h h' => ?_,
    fun w' left' h => (by cases h), fun i w' h => ?_, fun w' h h' => ?_, fun _ => ?_, fun _ => ?_,
    fun h => (by cases h), fun h => (by cases h), fun h => (by cases h), fun h => (by cases h)⟩
  · rw [(hsame w').1]
    exact k.entered w' hw h
  · rw [(hsame w').1] at h
    exact k.finished w' h
  · rw [(hsame w').1]
    refine ⟨(k.caller w' hw).1, fun h => ?_⟩
    cases hc.symm.trans ((k.caller w' hw).2 h)
  · rw [(hsame w').1] at h
    rw [(hsame w').2.1, (hsame w').2.2.1]
    exact k.identified w' h
  · rw [(hsame w').1] at h
    rw [(hsame w').2.2.2]
    exact k.taken w' h
  · rw [(hsame w').1] at h h'
    obtain ⟨l, hl⟩ := k.making w' h h'
    cases hc.symm.trans hl
    omega
  · rw [(hsame w').1, (hsame w').2.2.1]
    have h : (s.threads ++ [w])[i]? = some w' := h
    rw [List.getElem?_append] at h
    split at h
    · exact k.listed i w' h
    · obtain rfl : i = s.threads.length := by
        have := (List.getElem?_eq_some_iff.mp h).1
        simp at this
        omega
      obtain rfl : w = w' := by simpa using h
      exact ⟨hfour, h₃⟩
  · rw [(hsame w').1] at h h'
    have hmem : w' ∈ s.threads ++ [w] := by
      obtain hw | ⟨l, hl⟩ | ⟨l, hl, -⟩ := k.running w' h h'
      · exact List.mem_append_left _ hw
      · cases hc.symm.trans hl
        simp
      · cases hc.symm.trans hl
    exact .inl hmem
  · show s.threadIds ++ [(s.object w).id] = _ ++ (s.threads ++ [w]).map thread
    rw [k.ids hkeeps, (k.identified w (by omega)).1, List.map_append, ← List.append_assoc]
    rfl
  · have hcount := k.count hkeeps
    rw [hc] at hcount
    show (s.threads ++ [w]).length + left.length = s.threadCount
    simp only [Creator.toMake] at hcount
    simp only [List.length_append, List.length_singleton]
    omega

omit [DecidableEq ω] in
/-- `stop` takes the threads over. -/
theorem Threads.swaps (k : Threads thread s) (hc : s.creator = .swapping) :
    Threads thread { s with threads := [], creator := .joining s.threads } := by
  have hkeeps : s.creator.keeps = true := by rw [hc]; rfl
  refine ⟨k.entered, k.finished, fun w hw => ⟨(k.caller w hw).1, fun h => ?_⟩, k.identified, k.taken,
    fun w h h' => ?_, fun w left h => (by cases h), fun i w h => (by simp at h), fun w h h' => ?_,
    fun h => (by cases h), fun h => (by cases h), fun _ => rfl, fun h => (by cases h), fun _ _ hpos => ?_,
    fun h => (by cases h)⟩
  · cases hc.symm.trans ((k.caller w hw).2 h)
  · obtain ⟨l, hl⟩ := k.making w h h'
    cases hc.symm.trans hl
  · obtain hw | ⟨l, hl⟩ | ⟨l, hl, -⟩ := k.running w h h'
    · exact .inr (.inr ⟨_, rfl, hw⟩)
    · cases hc.symm.trans hl
    · cases hc.symm.trans hl
  · have hcount := k.count hkeeps
    rw [hc] at hcount
    have hcount : s.threads.length + 0 = s.threadCount := hcount
    have hpos : 0 < s.threadCount := hpos
    have hlt : 0 < s.threads.length := by omega
    exact ⟨s.threads[0], (k.listed 0 _ (List.getElem?_eq_getElem hlt)).1⟩

/-- `stop` joins a thread. -/
theorem Threads.joins (k : Threads thread s) {left : List ω} (hc : s.creator = .joining (w :: left))
    (hret : (s.object w).pc = .returned) : Threads thread { s.setObject w { s.object w with pc := .joined } with
      creator := .joining left } := by
  set t : State ω φ κ := { s.setObject w { s.object w with pc := .joined } with creator := .joining left }
  have hself : t.object w = { s.object w with pc := .joined } := Function.update_self ..
  have hother : ∀ {w'}, w' ≠ w → t.object w' = s.object w' := fun h => Function.update_of_ne h ..
  have hkeeps : s.creator.keeps = false := by rw [hc]; rfl
  have hfive : (s.object w).pc.rank = 5 := by rw [hret]; rfl
  refine ⟨fun w' hw h => ?_, fun w' h => ?_, fun w' hw => ?_, fun w' h => ?_, fun w' h => ?_, fun w' h h' => ?_,
    fun w' left' h => (by cases h), fun i w' h => ?_, fun w' h h' => ?_, fun h => (by cases h), fun h => (by cases h),
    fun _ => k.empty hkeeps, fun h => (by cases h), fun _ _ hpos => ?_, fun h => (by cases h)⟩
  · by_cases hne : w' = w
    · rw [hne, hself]
      simp [ThreadPc.rank]
    · rw [hother hne]
      exact k.entered w' hw h
  · by_cases hne : w' = w
    · rw [hne]
      exact k.finished w (by omega)
    · rw [hother hne] at h
      exact k.finished w' h
  · have hne : w' ≠ w := by
      rintro rfl
      have := (k.caller w' hw).1
      rw [hret] at this
      cases this
    rw [hother hne]
    refine ⟨(k.caller w' hw).1, fun h => ?_⟩
    cases hc.symm.trans ((k.caller w' hw).2 h)
  · by_cases hne : w' = w
    · rw [hne, hself]
      exact k.identified w (by omega)
    · rw [hother hne] at h ⊢
      exact k.identified w' h
  · by_cases hne : w' = w
    · rw [hne, hself]
      exact k.taken w (by omega)
    · rw [hother hne] at h ⊢
      exact k.taken w' h
  · by_cases hne : w' = w
    · rw [hne, hself] at h'
      simp [ThreadPc.rank] at h'
    · rw [hother hne] at h h'
      obtain ⟨l, hl⟩ := k.making w' h h'
      cases hc.symm.trans hl
  · have hempty := k.empty hkeeps
    have h : s.threads[i]? = some w' := h
    rw [hempty] at h
    simp at h
  · by_cases hne : w' = w
    · rw [hne, hself] at h'
      simp [ThreadPc.rank] at h'
    · rw [hother hne] at h h'
      obtain hw | ⟨l, hl⟩ | ⟨l, hl, hmem⟩ := k.running w' h h'
      · exact .inl hw
      · cases hc.symm.trans hl
      · cases hc.symm.trans hl
        exact .inr (.inr ⟨left, rfl, (List.mem_cons.mp hmem).resolve_left hne⟩)
  · exact ⟨w, by rw [hself]; simp [ThreadPc.rank]⟩

omit [DecidableEq ω] in
/-- `stop` returns. -/
theorem Threads.returns (k : Threads thread s) (hc : s.creator = .joining []) :
    Threads thread { s with creator := .returned } := by
  have hkeeps : s.creator.keeps = false := by rw [hc]; rfl
  refine ⟨k.entered, k.finished, fun w hw => ⟨(k.caller w hw).1, fun h => ?_⟩, k.identified, k.taken,
    fun w h h' => ?_, fun w left h => (by cases h), k.listed, fun w h h' => ?_,
    fun h => (by cases h), fun h => (by cases h), fun _ => k.empty hkeeps, fun h => (by cases h),
    fun _ _ hpos => ?_, fun h => (by cases h)⟩
  · cases hc.symm.trans ((k.caller w hw).2 h)
  · obtain ⟨l, hl⟩ := k.making w h h'
    cases hc.symm.trans hl
  · obtain hw | ⟨l, hl⟩ | ⟨l, hl, hmem⟩ := k.running w h h'
    · exact .inl hw
    · cases hc.symm.trans hl
    · cases hc.symm.trans hl
      cases hmem
  · exact k.made hkeeps (fun h => by cases hc.symm.trans h) hpos

theorem Threads.create [DecidableEq φ] (k : Threads thread s) (h : s.create thread = some t) : Threads thread t := by
  unfold State.create at h
  split at h
  · cases h
  · cases h
  · cases h
  · rename_i hc
    cases h
    exact k.advance (u := s.stopper) rfl (by rw [hc]; rfl) (by rw [hc]; rfl) rfl (fun _ _ h => by cases h) (.inl rfl)
      (fun h => by cases hc.symm.trans h) (fun h => by cases h)
  · rename_i w left hc
    obtain ⟨⟨habsent, hcaller⟩, h⟩ := Option.ite_none_right_eq_some.mp h
    cases h
    exact k.spawns hc habsent hcaller
  · rename_i w left hc
    obtain ⟨hsem, h⟩ := Option.ite_none_right_eq_some.mp h
    cases h
    exact k.wakes hc hsem
  · rename_i hc
    cases h
    have hkeeps : s.creator.keeps = true := by rw [hc]; rfl
    have hmake : s.creator.toMake = 0 := by rw [hc]; rfl
    have hroot : s.creator ≠ .inRoot := fun h => by cases hc.symm.trans h
    by_cases hearly : s.caller.any s.rootAtRest = true ∧ s.threadCount = 0
    · rw [if_pos hearly]
      exact k.advance rfl hkeeps hmake rfl (fun _ _ h => by cases h) (.inl rfl) (fun h => absurd h hroot)
        fun _ => hearly.2
    · rw [if_neg hearly]
      exact k.advance rfl hkeeps hmake rfl (fun _ _ h => by cases h) (.inl rfl) (fun h => absurd h hroot)
        (fun h => by cases h)
  · rename_i hc
    have hkeeps : s.creator.keeps = true := by rw [hc]; rfl
    have hmake : s.creator.toMake = 0 := by rw [hc]; rfl
    have hroot : s.creator ≠ .inRoot := fun h => by cases hc.symm.trans h
    split at h
    · cases h
      exact k.advance (u := s.stopper) rfl hkeeps hmake rfl (fun _ _ h => by cases h) (.inr ⟨rfl, k.marked hc⟩)
        (fun h => absurd h hroot) (fun h => by cases h)
    · cases h
      exact k.advance rfl hkeeps hmake rfl (fun _ _ h => by cases h) (.inl rfl) (fun h => absurd h hroot)
        (fun h => by cases h)
  · rename_i hc
    cases h
    have hkeeps : s.creator.keeps = true := by rw [hc]; rfl
    have hmake : s.creator.toMake = 0 := by rw [hc]; rfl
    have hroot : s.creator ≠ .inRoot := fun h => by cases hc.symm.trans h
    split
    · exact k.advance (u := s.stopper) rfl hkeeps hmake rfl (fun _ _ h => by cases h) (.inl rfl) (fun h => absurd h hroot)
        (fun h => by cases h)
    · exact k.advance (u := s.stopper) rfl hkeeps hmake rfl (fun _ _ h => by cases h) (.inl rfl) (fun h => absurd h hroot)
        (fun h => by cases h)
  · rename_i hc
    split at h
    · rename_i hex
      cases h
      refine k.advance (u := s.stopper) rfl (by rw [hc]; rfl) (by rw [hc]; rfl) rfl (fun _ _ h => by cases h) (.inl rfl)
        (fun _ w hw => ?_) (fun h => by cases h)
      rw [hw] at hex
      have hpc : s.pc w = .exited := Option.some.inj hex
      rw [State.rootAtRest, hpc]
    · cases h
  · rename_i hc
    cases h
    exact k.swaps hc
  · rename_i hc
    cases h
    exact k.returns hc
  · rename_i w left hc
    obtain ⟨hret, h⟩ := Option.ite_none_right_eq_some.mp h
    cases h
    exact k.joins hc hret

/-- A step of `Thread::run`. -/
theorem Threads.runThread (k : Threads thread s) (h : s.runThread thread w = some t) : Threads thread t := by
  have hcaller : 1 ≤ (s.object w).pc.rank → s.caller ≠ some w := by
    intro hpos hw
    rw [(k.caller w hw).1] at hpos
    simp [ThreadPc.rank] at hpos
  unfold State.runThread at h
  simp only at h
  split at h
  · rename_i hpc
    have hrank : (s.object w).pc.rank = 1 := by rw [hpc]; rfl
    cases h
    refine k.object (hcaller (by omega)) (by omega) (by rw [hrank]; rfl) (by simp [ThreadPc.rank]) rfl ⟨rfl, rfl⟩
      (by simp [ThreadPc.rank]) (by simp [ThreadPc.rank]) fun hsem => ?_
    simp only [hrank] at hsem
    simpa [ThreadPc.rank] using hsem
  · rename_i hpc
    have hrank : (s.object w).pc.rank = 2 := by rw [hpc]; rfl
    obtain ⟨hid, hname⟩ := k.identified w (by omega)
    cases h
    have hstep := k.object (w := w) (x := { s.object w with pc := .taken, hasCb := false }) (n := s.threadName w)
      (hcaller (by omega)) (by omega) (by rw [hrank]; rfl) (by simp [ThreadPc.rank]) rfl ⟨hid, hname⟩
      (fun _ => rfl) (by simp [ThreadPc.rank]) fun hsem => ?_
    · rwa [Function.update_eq_self] at hstep
    · simp only [hrank] at hsem
      simpa [ThreadPc.rank] using hsem
  · rename_i hpc
    have hrank : (s.object w).pc.rank = 3 := by rw [hpc]; rfl
    obtain ⟨hid, hname⟩ := k.identified w (by omega)
    cases h
    have hstep := k.object (w := w) (x := { s.object w with pc := .running, semaphore := (s.object w).semaphore + 1 })
      (n := s.threadName w) (hcaller (by omega)) (by omega) (by rw [hrank]; rfl) (by simp [ThreadPc.rank]) rfl
      ⟨hid, hname⟩ (fun _ => k.taken w (by omega)) (by simp [ThreadPc.rank]) fun _ => by simp [ThreadPc.rank]
    rwa [Function.update_eq_self] at hstep
  · rename_i hpc
    have hrank : (s.object w).pc.rank = 4 := by rw [hpc]; rfl
    obtain ⟨hid, hname⟩ := k.identified w (by omega)
    split at h
    · rename_i hex
      cases h
      have hstep := k.object (w := w) (x := { s.object w with pc := .returned }) (n := s.threadName w)
        (hcaller (by omega)) (by omega) (by rw [hrank]; rfl) (by simp [ThreadPc.rank]) rfl
        ⟨hid, hname⟩ (fun _ => k.taken w (by omega)) (fun _ => hex) fun hsem => ?_
      · rwa [Function.update_eq_self] at hstep
      · simp only [hrank] at hsem
        simpa [ThreadPc.rank] using hsem
    · cases h
  · cases h
  · cases h
  · cases h

/-- How a step moves a worker. -/
theorem pc_step [DecidableEq φ] {s t : Workers.State ω φ κ} {a : Workers.Act ω φ κ}
    (e : Effect thread s a t) (w : ω) :
    t.pc w = s.pc w ∨ s.pc w ≠ .exited ∧ (s.pc w = .out → ∃ i, a = .enter w i) ∧ t.pc w ≠ .out := by
  have hgoes : ∀ {v : ω} {x : Worker φ κ}, t.worker = Function.update s.worker v x → s.pc v ≠ .exited →
      s.pc v ≠ .out → x.pc ≠ .out →
      t.pc w = s.pc w ∨ s.pc w ≠ .exited ∧ (s.pc w = .out → ∃ i, a = .enter w i) ∧ t.pc w ≠ .out := by
    intro v x hw hex hout hx
    by_cases hne : w = v
    · subst hne
      exact .inr ⟨hex, fun h => absurd h hout, by rw [pc_update_self hw]; exact hx⟩
    · exact .inl (pc_update_of_ne hw hne)
  cases e with
  | fails => exact .inl rfl
  | creates => exact .inl rfl
  | schedules => exact .inl rfl
  | @enters v i hpc hi =>
    by_cases hne : w = v
    · subst hne
      refine .inr ⟨by rw [hpc]; simp, fun _ => ⟨i, rfl⟩, ?_⟩
      rw [pc_update_self (x := { pc := .top, idleFiber := some i }) rfl]
      simp
    · exact .inl (pc_update_of_ne rfl hne)
  | scans hpc | runs hpc | resets hpc | makes hpc | discards hpc | exits hpc | idles hpc | rewrites hpc | backs hpc
  | readies hpc | ends hpc | empties hpc | checks hpc | holds hpc =>
    exact hgoes rfl (by rw [hpc]; simp) (by rw [hpc]; simp) (by simp)

/-- A step of a worker, who enters only where it may. -/
theorem Threads.moves [DecidableEq φ] (k : Threads thread s) {b : Workers.Act ω φ κ} {u : Workers.State ω φ κ}
    (e : Effect thread s.stopper.state b u) (henter : ∀ w i, b = .enter w i → s.mayEnter w = true) :
    Threads thread { s with stopper := { s.stopper with state := u } } := by
  refine k.sched _ (fun w hne hout => ?_) fun w hex => ?_
  · obtain hsame | ⟨-, henters, -⟩ := pc_step e w
    · exact absurd hsame hne
    · obtain ⟨i, hi⟩ := henters hout
      exact henter w i hi
  · obtain hsame | ⟨hnot, -, -⟩ := pc_step e w
    · exact hsame.trans hex
    · exact absurd hex hnot

end

/-! ### What a step is made of -/

/-- A step of a worker, taken as `a`. -/
structure Allowed [DecidableEq ω] (s : State ω φ κ) (a : Act ω φ κ) (b : Workers.Act ω φ κ) : Prop where
  enters : ∀ w i, b = .enter w i → s.mayEnter w = true
  locked : s.locked = true → s.takesMutex b = false ∧ ∀ nodes, b ≠ .schedule nodes
  schedules : ∀ nodes, b = .schedule nodes → ∃ who, a = .schedule who nodes ∧
    ∀ w, who = some w → ∃ k f, s.pc w = .inside .running k f

section
variable [DecidableEq ω] [DecidableEq φ] {thread : ω → Int} {s t : State ω φ κ} {a : Act ω φ κ}

/-- A step is one of the creator, of a `Thread`, or of a worker. -/
inductive Moves (thread : ω → Int) (s : State ω φ κ) : Act ω φ κ → State ω φ κ → Prop where
  | starts {ws} (hc : s.creator = .fresh) (hlen : ws.length = s.threadCount) : Moves thread s (.start ws) { s with
      stopper := if s.stopper.isStopping then { s.stopper with isStopping := false } else s.stopper
      creator := .spawning ws }
  | stops (hc : s.creator = .started) :
      Moves thread s .stop { s with stopper := { s.stopper with autoStop := true }, creator := .flagged }
  | creates {t'} (h : s.create thread = some t') : Moves thread s .creator t'
  | runs {w t'} (h : s.runThread thread w = some t') : Moves thread s (.thread w) t'
  | works {a v b u} (h : Stopper.step thread s.stopper v = some { s.stopper with state := u })
      (e : Effect thread s.stopper.state b u) (hv : ∀ nodes, v = .worker (.schedule nodes) → b = .schedule nodes)
      (ok : Allowed s a b) : Moves thread s a { s with stopper := { s.stopper with state := u } }

/-- A worker tests `stopping`, and goes on. -/
theorem moves_idle {w : ω} (h : step thread s (.idle w) = some t) : Moves thread s (.idle w) t := by
  obtain ⟨-, h⟩ := Option.ite_none_left_eq_some.mp h
  obtain ⟨v, hv, rfl⟩ := Option.map_eq_some_iff.mp h
  have hstep := hv
  simp only [Stopper.step] at hv
  split at hv
  · obtain ⟨u, hu, rfl⟩ := Option.map_eq_some_iff.mp hv
    refine .works hstep (step_effect hu) (fun nodes h => by cases h) ⟨fun w i h => ?_, fun _ => ⟨?_, fun nodes h => ?_⟩,
      fun nodes h => ?_⟩
    · split at h <;> cases h
    · split <;> rfl
    · split at h <;> cases h
    · split at h <;> cases h
  · cases hv

/-- A step of a worker as it is. -/
theorem moves_sched {b : Workers.Act ω φ κ} (h : s.sched (.worker b) thread = some t) (ok : Allowed s a b) :
    Moves thread s a t := by
  obtain ⟨v, hv, rfl⟩ := Option.map_eq_some_iff.mp h
  have hstep := hv
  obtain ⟨-, hv⟩ := Option.ite_none_left_eq_some.mp hv
  obtain ⟨u, hu, rfl⟩ := Option.map_eq_some_iff.mp hv
  exact .works hstep (step_effect hu) (fun nodes h => by cases h; rfl) ok

theorem step_moves (h : step thread s a = some t) : Moves thread s a t := by
  cases a with
  | start ws =>
    simp only [step] at h
    split at h
    · obtain ⟨hlen, h⟩ := Option.ite_none_right_eq_some.mp h
      cases h
      exact .starts ‹_› hlen
    · cases h
  | stop =>
    simp only [step] at h
    split at h
    · cases h
      exact .stops ‹_›
    · cases h
  | creator => exact .creates h
  | thread w => exact .runs h
  | idle w => exact moves_idle h
  | schedule who nodes =>
    obtain ⟨hno, h⟩ := Option.ite_none_left_eq_some.mp h
    rw [not_or] at hno
    refine moves_sched h ⟨fun _ _ h => (by cases h), fun hl => absurd hl hno.1, fun nodes' hb => ?_⟩
    cases hb
    refine ⟨who, rfl, ?_⟩
    rintro w rfl
    have hcalls := hno.2
    simp only [Bool.not_eq_false] at hcalls
    split at hcalls
    · exact ⟨_, _, ‹_›⟩
    · cases hcalls
  | worker b =>
    cases b with
    | schedule nodes => cases h
    | enter w i =>
      obtain ⟨hmay, h⟩ := Option.ite_none_right_eq_some.mp h
      refine moves_sched h ⟨?_, fun _ => ⟨rfl, fun _ h => (by cases h)⟩, fun _ h => (by cases h)⟩
      rintro w' i' h
      cases h
      exact hmay
    | create | work | yieldToHold | yieldToReady | finish =>
      obtain ⟨hlock, h⟩ := Option.ite_none_left_eq_some.mp h
      refine moves_sched h ⟨fun _ _ h => (by cases h), fun hl => ⟨?_, fun _ h => (by cases h)⟩, fun _ h => (by cases h)⟩
      exact Bool.eq_false_iff.mpr fun ht => hlock ⟨hl, ht⟩

theorem Threads.step (k : Threads thread s) (h : Moves thread s a t) : Threads thread t := by
  cases h with
  | starts hc hlen =>
    refine k.starts ?_ hc hlen
    split <;> rfl
  | stops hc =>
    refine k.advance (u := { s.stopper with autoStop := true }) (c := .flagged) rfl (by rw [hc]; rfl) (by rw [hc]; rfl) rfl
      (fun _ _ h => by cases h) (.inl rfl) (fun h => ?_) fun h => by cases h
    cases hc.symm.trans h
  | creates h => exact k.create h
  | runs h => exact k.runThread h
  | works _ e _ ok => exact k.moves e ok.enters

end

end ShioSylar.Scheduler.Lifecycle
