import ShioSylar.Hook.Waiters

/-! Closing a descriptor that fibers wait on.

`close` wakes the waiters with `cancelAll` and only then calls `close_f`. Until that call
the descriptor is as good as before, and nothing has told `do_io` otherwise (`m_isClosed` is
never set): a call that is on its way to `addEvent`, or one that was woken and retries, may
arm its event in between. `close_f` takes the descriptor out of the epoll set, and nobody
wakes the fiber again (`close_strands`). Whenever nothing is armed at the call of `close_f`,
no waiter is left behind (`close_reachable`). -/
namespace ShioSylar.Hook
open Scheduler IOManager Lib

variable {ι φ : Type}

/-- A fiber is suspended with its event armed for an opening that is closed. -/
def Stranded (s : State ι φ) (f : φ) : Prop :=
  ∃ c, s.doing f = .io .suspended c ∧ Armed s.table c.info.fd c.info.event f ∧
    s.opened c.info.fd ≠ c.on.head?

/-- Fiber 0 reads from descriptor 3 and finds nothing; fiber 1 closes it. Fiber 0 calls
`addEvent` between `cancelAll` and `close_f`. -/
def strandActs : List (Act Nat (Fin 2)) :=
  let next (f : Fin 2) : Act Nat (Fin 2) := .work f { timer := 0 }
  [.socket 0 3, next 0, .doIo 0 .read 3, next 0, next 0, next 0, .close 1 3, next 1, next 1, next 1,
    next 0, next 1, next 0]

/-- The number is closed, its READ is armed and counted, and fiber 0 waits for it. -/
theorem close_strands : ∃ s, run step (start 0) strandActs = some s ∧ s.isOpen 3 = false ∧
    Stranded s 0 ∧ s.table.interest 3 = none ∧ s.table.pendingEventCount = 1 ∧ s.table.fibers () = [] :=
  ⟨_, rfl, rfl, ⟨_, rfl, ⟨rfl, rfl⟩, by decide⟩, rfl, rfl, rfl⟩

/-- No waiter is left behind by a `close`. -/
structure Attended (s : State ι φ) : Prop where
  /-- Who is suspended with an armed event waits on an open descriptor, and the kernel
  watches it. -/
  waiting : ∀ f c, s.doing f = .io .suspended c → Armed s.table c.info.fd c.info.event f →
    c.on.head? = s.opened c.info.fd ∧ s.isOpen c.info.fd = true ∧
      ∃ m p, s.table.interest c.info.fd = some (m, p) ∧ m.has c.info.event = true
  /-- Nothing is armed for a closed descriptor. -/
  closed : ∀ fd, s.isOpen fd = false → (s.table.view fd).events = Mask.none
  counter : s.table.pendingEventCount = s.table.armed

theorem Sound.attended {s : State ι φ} (k : Sound s) : Attended s := by
  refine ⟨fun f c hf ha => ?_, fun fd hclosed => ?_, k.table.count⟩
  · have hne := Mask.ne_none_of_has ha.1
    obtain ⟨p, hp, -⟩ := get_of_events hne
    refine ⟨k.on f c (by rw [hf]; rfl) ha, k.opened _ hne, (s.table.view c.info.fd).events, p, ?_, ha.1⟩
    rw [k.table.kernel, registered, if_neg hne, hp]
    rfl
  · by_contra hne
    cases hclosed.symm.trans (k.opened fd hne)

theorem Attended.not_stranded {s : State ι φ} (k : Attended s) (f : φ) : ¬ Stranded s f := by
  intro hstranded
  obtain ⟨c, hf, ha, hne⟩ := hstranded
  exact hne (k.waiting f c hf ha).1.symm

section
variable [LinearOrder ι] [DecidableEq φ]

/-- **Closing strands nobody** in a run where nothing is armed at any call of `close_f`. -/
theorem close_reachable (now : TimerManager.U64) (acts : List (Act ι φ)) (s : State ι φ)
    (hm : Meets step Drained (start now) acts) (h : run step (start now) acts = some s) :
    Attended s ∧ ∀ f, ¬ Stranded s f := by
  have k : Sound s := run_invariant (fun _ _ _ k hg h => step_sound k hg h) (start_sound now) hm h
  exact ⟨k.attended, k.attended.not_stranded⟩

end

/-- The same two fibers, but fiber 0 is suspended when fiber 1 closes the descriptor; it
retries after `close_f`. -/
def closeActs : List (Act Nat (Fin 2)) :=
  let next (f : Fin 2) : Act Nat (Fin 2) := .work f { timer := 0 }
  [.socket 0 3, next 0, .doIo 0 .read 3, next 0, next 0, next 0, next 0, next 0, .close 1 3, next 1,
    next 1, next 1, .resume 0, next 1, next 0, next 0, .work 0 { result := .fail .badf, timer := 0 }]

theorem close_reachable_sample :
    ∃ s, run step (start 0) closeActs = some s ∧ Attended s ∧ ∀ f, ¬ Stranded s f :=
  ⟨_, rfl, close_reachable 0 closeActs _ (by decide) rfl⟩

end ShioSylar.Hook
