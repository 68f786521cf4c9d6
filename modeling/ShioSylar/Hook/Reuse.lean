import ShioSylar.Hook.Moves
import ShioSylar.Lib.Run

/-! A descriptor number that is handed out again.

`do_io` looks its descriptor up once, before `retry`. A call that was suspended when the
descriptor was closed is woken by `cancelAll` and goes back to `retry`, by number: where
the kernel has given the number to a new socket or connection in the meantime, it reads
from or writes to that one (`reuse_reads`). One that comes to `retry` before `close_f` may
find nothing and arm its event on the new descriptor. Whenever no such call is left as a
number is handed out, every call of `fun` after a wait is on the descriptor that was waited
on, or on a closed number, where it returns -1 (`reuse_reachable`). -/
namespace ShioSylar.Hook
open Scheduler IOManager Lib

variable {ι φ : Type}

/-- A number is handed out only if no call that has waited on an earlier opening of it may
yet call `fun`. -/
def Settled (s : State ι φ) (a : Act ι φ) : Prop :=
  ∀ n ∈ opens s a, ∀ f, ∀ p ∈ (s.doing f).owes s.cancelled, p.1 ≠ n

instance [Fintype φ] (s : State ι φ) (a : Act ι φ) : Decidable (Settled s a) :=
  inferInstanceAs (Decidable (∀ n ∈ opens s a, ∀ f, ∀ p ∈ (s.doing f).owes s.cancelled, p.1 ≠ n))

/-- Fiber 0 is suspended in a read from descriptor 3 when fiber 1 closes it. Fiber 2 opens a
socket and gets the number, and then fiber 0 goes on. -/
def reuseActs : List (Act Nat (Fin 3)) :=
  let next (f : Fin 3) : Act Nat (Fin 3) := .work f { timer := 0 }
  [.socket 0 3, next 0, .doIo 0 .read 3, next 0, next 0, next 0, next 0, next 0, .close 1 3, next 1,
    next 1, next 1, next 1, .socket 2 3, next 2, .resume 0, next 0, next 0]

/-- Fiber 0 is before its call of `fun`, on the new socket, and returns what it reads there. -/
theorem reuse_reads : ∃ s t c, run step (start 0) reuseActs = some s ∧ s.doing 0 = .io .retry c ∧
    c.on = [0] ∧ s.opened c.info.fd = some 1 ∧
    step s (.work 0 { result := .ok 5, timer := 0 }) = some t ∧
    t.log = [⟨c.info, [0], some 1, .ok 5⟩] :=
  ⟨_, _, _, rfl, rfl, rfl, rfl, rfl, rfl⟩

/-- Calls of `fun` after a wait are on the openings that were waited on, if on any. -/
structure Faithful (s : State ι φ) : Prop where
  owes : ∀ f, ∀ p ∈ (s.doing f).owes s.cancelled, s.opened p.1 = none ∨ s.opened p.1 = some p.2
  log : ∀ d ∈ s.log, ∀ g ∈ d.on, d.at_ = some g ∨ ∃ e, d.ret = .fail e

section
variable {s t : State ι φ}

theorem Faithful.retry (k : Faithful s) {f : φ} {c : Call ι} {g : Nat} (hf : s.doing f = .io .retry c)
    (hg : g ∈ c.on) : s.opened c.info.fd = none ∨ s.opened c.info.fd = some g := by
  refine k.owes f (c.info.fd, g) ?_
  simpa [hf, Doing.owes, Stage.mayRetry] using hg

theorem Faithful.plain (k : Faithful s) (p : Plain s t) : Faithful t := by
  refine ⟨fun f q h => ?_, fun d hd g hg => ?_⟩
  · rw [p.opened]
    exact k.owes f q (p.owes f q h)
  · rcases p.log d hd with hd | ⟨hat, hfail | ⟨hopen, f, c, hf, hinfo, hon⟩⟩
    · exact k.log d hd g hg
    · exact .inr hfail
    · left
      rw [hinfo] at hat hopen
      rcases k.retry hf (hon ▸ hg) with hclosed | hsame
      · rw [State.isOpen, hclosed] at hopen
        cases hopen
      · exact hat.trans hsame

variable [DecidableEq φ]

theorem Faithful.effect (k : Faithful s) {a : Act ι φ} (hg : Settled s a) (he : Effect s a t) :
    Faithful t := by
  cases he with
  | none => exact k
  | @opens n _ ha hs =>
    obtain ⟨-, rfl⟩ := openFd_eq hs
    refine ⟨fun f p h => ?_, k.log⟩
    have hne : p.1 ≠ n := hg n ha f p h
    simp only [Function.update_of_ne hne]
    exact k.owes f p h
  | @closes _ _ fd ha hf =>
    refine ⟨fun f p h => ?_, k.log⟩
    by_cases hfd : p.1 = fd
    · left
      rw [hfd]
      exact Function.update_self ..
    · simp only [State.closeFd, Function.update_of_ne hfd]
      exact k.owes f p h
  | serves hop hexec => exact ⟨k.owes, k.log⟩
  | refuses hexec hr => exact ⟨k.owes, k.log⟩
  | pushes hsub => exact ⟨k.owes, k.log⟩
  | takes => exact ⟨k.owes, k.log⟩

variable [LinearOrder ι]

theorem step_faithful (k : Faithful s) {a : Act ι φ} (hg : Settled s a) (h : step s a = some t) :
    Faithful t := by
  cases step_move h with
  | local_ he hp => exact (k.effect hg he).plain hp
  | @begins f x c u ha hf hexec ht =>
    subst ht
    refine ⟨fun f' p h => ?_, k.log⟩
    rcases doing_update (p ∈ ·.owes s.cancelled) h with ⟨rfl, hp⟩ | ⟨-, hp⟩
    · obtain ⟨hmay, hp⟩ := List.mem_ite_nil_right.mp hp
      obtain ⟨g, hg, rfl⟩ := List.mem_map.mp hp
      rcases List.mem_append.mp hg with hg | hg
      · exact .inr (Option.mem_toList.mp hg)
      · refine k.owes f' (c.info.fd, g) ?_
        rw [hf]
        exact List.mem_ite_nil_right.mpr ⟨hmay, List.mem_map_of_mem hg⟩
    · exact k.owes f' p hp
  | @resumes f c hf ht =>
    subst ht
    refine ⟨fun f' p h => k.owes f' p ?_, k.log⟩
    rcases doing_update (p ∈ ·.owes s.cancelled) h with ⟨rfl, hp⟩ | ⟨-, hp⟩
    · rw [hf]
      exact hp
    · exact hp
  | @fires f x i r u ha hf hexec ht =>
    subst ht
    refine ⟨fun f' p h => k.owes f' p ?_, k.log⟩
    rcases doing_update (p ∈ ·.owes s.cancelled) h with ⟨-, hp⟩ | ⟨-, hp⟩
    · cases hp
    · exact hp

/-- On a closed number `do_io` returns -1. -/
theorem retry_closed {f : φ} {c : Call ι} {x : Choice ι} (hf : s.doing f = .io .retry c)
    (hclosed : s.opened c.info.fd = none) (h : step s (.work f x) = some t) :
    t.doing f = .user ∧ t.log = s.log ++ [⟨c.info, c.on, none, .fail .badf⟩] := by
  simp only [step, hf, State.doIo, State.callFun, State.isOpen, hclosed, Option.isSome_none,
    Bool.false_eq_true, if_false, Option.ite_none_left_eq_some, Option.map_eq_some_iff,
    Option.ite_none_right_eq_some] at h
  obtain ⟨-, s', ⟨hr, hs'⟩, rfl⟩ := h
  cases hs'
  simp [hr, State.leave, State.after, hclosed]

/-- **No I/O on a recycled descriptor** in a run that hands out no number too early. -/
theorem reuse_reachable (now : TimerManager.U64) (acts : List (Act ι φ)) (s : State ι φ)
    (hm : Meets step Settled (start now) acts) (h : run step (start now) acts = some s) :
    (∀ f c, s.doing f = .io .retry c → ∀ g ∈ c.on,
      s.opened c.info.fd = none ∨ s.opened c.info.fd = some g) ∧
    (∀ f c x t, s.doing f = .io .retry c → s.opened c.info.fd = none →
      step s (.work f x) = some t →
      t.doing f = .user ∧ t.log = s.log ++ [⟨c.info, c.on, none, .fail .badf⟩]) ∧
    ∀ d ∈ s.log, ∀ g ∈ d.on, d.at_ = some g ∨ ∃ e, d.ret = .fail e := by
  have hstart : Faithful (start now : State ι φ) := ⟨fun _ _ h => (nomatch h), fun _ h => nomatch h⟩
  have k : Faithful s := run_invariant (fun _ _ _ k hg h => step_faithful k hg h) hstart hm h
  exact ⟨fun f c hf g hg => k.retry hf hg, fun f c x t hf hclosed h => retry_closed hf hclosed h, k.log⟩

end

/-- The same fibers, but fiber 0 goes on before fiber 2 gets the number. -/
def closedActs : List (Act Nat (Fin 3)) :=
  let next (f : Fin 3) : Act Nat (Fin 3) := .work f { timer := 0 }
  [.socket 0 3, next 0, .doIo 0 .read 3, next 0, next 0, next 0, next 0, next 0, .close 1 3, next 1,
    next 1, next 1, next 1, .resume 0, next 0, next 0, .work 0 { result := .fail .badf, timer := 0 },
    .socket 2 3, next 2]

theorem reuse_reachable_sample : ∃ s, run step (start 0) closedActs = some s ∧
    (∀ f c, s.doing f = .io .retry c → ∀ g ∈ c.on,
      s.opened c.info.fd = none ∨ s.opened c.info.fd = some g) ∧
    (∀ f c x t, s.doing f = .io .retry c → s.opened c.info.fd = none →
      step s (.work f x) = some t →
      t.doing f = .user ∧ t.log = s.log ++ [⟨c.info, c.on, none, .fail .badf⟩]) ∧
    ∀ d ∈ s.log, ∀ g ∈ d.on, d.at_ = some g ∨ ∃ e, d.ret = .fail e :=
  ⟨_, rfl, reuse_reachable 0 closedActs _ (by decide) rfl⟩

end ShioSylar.Hook
