import ShioSylar.Hook.Calls

/-! Whom the event table holds.

`addEvent` of `do_io` arms the running fiber, so no slot and no task of a slot is a callback
(`Bare`). A fiber is held by the table once, in an armed slot or in the queue, and only while it
waits (`Held`): it is armed for the event of its call, a trigger moves it into the queue, and a
worker takes it out of there when it resumes it. All this is so whatever the kernel's set is. -/
namespace ShioSylar.Hook
open Scheduler IOManager

/-! ### Calls on the table -/

section
variable {φ : Type}

/-- Only fibers are armed. -/
structure Bare (s : IOManager.State Unit φ Info) : Prop extends Shaped s where
  cb : ∀ fd e, ((s.view fd).getContext e).cb = none

/-- No callback is given to `addEvent`. -/
def OfFiber : Op Unit φ Info → Prop
  | .addEvent _ _ _ cb _ => cb = none
  | _ => True

variable {s u : IOManager.State Unit φ Info}

theorem cb_update {view : Nat → FdContext Unit φ Info} (h : ∀ fd e, ((view fd).getContext e).cb = none) {fd : Nat}
    {ctx : FdContext Unit φ Info} (hctx : ∀ e, (ctx.getContext e).cb = none) (fd' : Nat) (e : Event) :
    ((Function.update view fd ctx fd').getContext e).cb = none := by
  by_cases hfd : fd' = fd
  · rw [hfd, Function.update_self]
    exact hctx e
  · rw [Function.update_of_ne hfd]
    exact h fd' e

/-- A call brings no callback into the queue. -/
theorem exec_bare (k : Bare s) {op : Op Unit φ Info} (hop : OfFiber op) {a : Answer}
    (h : exec s op = .ok (a, u)) :
    Bare u ∧ ∀ i, ({ cb := some i } : FiberAndThread φ Info) ∈ u.fibers () → { cb := some i } ∈ s.fibers () := by
  obtain ⟨hu, hst⟩ := exec_stirs k.toShaped h
  cases hst with
  | nothing ha hview hfibers => exact ⟨⟨hu, hview ▸ k.cb⟩, fun i hi => hfibers ▸ hi⟩
  | arms he hview hfibers =>
    refine ⟨⟨hu, ?_⟩, fun i hi => hfibers ▸ hi⟩
    rw [hview]
    refine cb_update k.cb fun e' => ?_
    cases hop
    rw [FdContext.arm, FdContext.getContext_setContext]
    split
    · rfl
    · rw [FdContext.getContext_events]
      exact k.cb ..
  | drops he hview hfibers =>
    refine ⟨⟨hu, ?_⟩, fun i hi => hfibers ▸ hi⟩
    rw [hview]
    refine cb_update k.cb fun e' => ?_
    rw [FdContext.disarm, FdContext.getContext_setContext]
    split
    · rfl
    · rw [FdContext.getContext_events]
      exact k.cb ..
  | takes htakes hm hview hfibers =>
    refine ⟨⟨hu, ?_⟩, fun i hi => ?_⟩
    · rw [hview]
      refine cb_update k.cb fun e' => ?_
      rw [getContext_disarmMask]
      split
      · rfl
      · exact k.cb ..
    · rw [hfibers] at hi
      refine (mem_pushMask.mp hi).resolve_right ?_
      rintro ⟨e, -, -, htask⟩
      rw [EventContext.task, k.cb] at htask
      cases congrArg FiberAndThread.cb htask

/-- An armed slot has a fiber, and no other has. -/
theorem armed_iff (h : Shaped s) {fd : Nat} {e : Event} {f : φ} :
    Armed s fd e f ↔ ((s.view fd).getContext e).fiber = some f := by
  refine ⟨fun ha => ha.2, fun hf => ⟨?_, hf⟩⟩
  by_contra hnot
  have hslot := h.slots fd e
  rw [if_neg hnot] at hslot
  rw [hslot] at hf
  cases hf

/-- The kernel's set is of no concern. -/
theorem closeFd_bare {ι : Type} {s : State ι φ} (fd : Nat) (k : Bare s.table) : Bare (s.closeFd fd).table :=
  ⟨SameContexts.shaped (s := s.table) ⟨rfl, rfl, rfl⟩ k.toShaped, k.cb⟩

end

/-! ### Held -/

section
variable {ι φ : Type} [DecidableEq φ]

structure Held (s : State ι φ) : Prop where
  bare : Bare s.table
  armed : ∀ fd e f, Armed s.table fd e f →
    ∃ c, (s.doing f).waiting = some c ∧ c.info.fd = fd ∧ c.info.event = e
  queued : ∀ f, Queued s.table f → (s.doing f).waiting.isSome = true ∧ ∀ fd e, ¬ Armed s.table fd e f
  once : ∀ f, (s.table.fibers ()).count { fiber := some f } ≤ 1

variable {s t : State ι φ} {f : φ}

theorem start_held (now : TimerManager.U64) : Held (start now : State ι φ) := by
  have hview : ∀ fd, (start now : State ι φ).table.view fd = { fd := fd } := init_view
  refine ⟨⟨init_consistent.shaped, fun fd e => ?_⟩, fun fd e f ha => ?_, fun f hq => ?_, fun f => Nat.zero_le 1⟩
  · rw [hview]
    cases e <;> rfl
  · rw [Armed, hview] at ha
    cases e <;> cases ha.1
  · cases hq

/-- A fiber is armed for one event. -/
theorem Held.unique (k : Held s) {fd fd' : Nat} {e e' : Event} (h : Armed s.table fd e f)
    (h' : Armed s.table fd' e' f) : fd = fd' ∧ e = e' := by
  obtain ⟨c, hc, rfl, rfl⟩ := k.armed fd e f h
  obtain ⟨c', hc', rfl, rfl⟩ := k.armed fd' e' f h'
  cases hc.symm.trans hc'
  exact ⟨rfl, rfl⟩

/-- The table is as it was, and who waits waits. -/
theorem Held.move (k : Held s) (htable : t.table = s.table)
    (hwait : ∀ f, (t.doing f).waiting = (s.doing f).waiting) : Held t := by
  refine ⟨htable ▸ k.bare, fun fd e f ha => ?_, fun f hq => ?_, htable ▸ k.once⟩
  · rw [htable] at ha
    rw [hwait]
    exact k.armed fd e f ha
  · rw [htable] at hq ⊢
    rw [hwait]
    exact k.queued f hq

theorem Held.goto (k : Held s) {x : Doing ι} (hx : x.waiting = (s.doing f).waiting)
    (htable : t.table = s.table) (hdoing : t.doing = Function.update s.doing f x) : Held t := by
  refine k.move htable fun f' => ?_
  rw [hdoing]
  by_cases hf : f' = f
  · rw [hf, Function.update_self, hx]
  · rw [Function.update_of_ne hf]

/-- The slots are as they were, and the queue holds the same fibers. -/
theorem Held.queue (k : Held s) {u : IOManager.State Unit φ Info} (hu : SameContexts s.table u)
    (hq : ∀ f, (u.fibers ()).count { fiber := some f } = (s.table.fibers ()).count { fiber := some f }) :
    Held { s with table := u } := by
  have hqueued : ∀ f, Queued u f ↔ Queued s.table f := fun f => by
    rw [Queued, Queued, ← List.count_pos_iff, ← List.count_pos_iff, hq]
  have harmed : ∀ fd e f, Armed u fd e f ↔ Armed s.table fd e f := fun fd e f => by
    rw [Armed, hu.view, Armed]
  refine ⟨⟨hu.shaped k.bare.toShaped, hu.view ▸ k.bare.cb⟩, fun fd e f ha => k.armed fd e f ((harmed ..).mp ha),
    fun f hf => ?_, fun f => hq f ▸ k.once f⟩
  obtain ⟨hwait, hnone⟩ := k.queued f ((hqueued f).mp hf)
  exact ⟨hwait, fun fd e ha => hnone fd e ((harmed ..).mp ha)⟩

/-- A fiber whose direction is triggered goes into the queue. -/
theorem count_pushed {ctx : FdContext Unit φ Info} (hcb : ∀ e, (ctx.getContext e).cb = none) (m : Mask) (e : Event)
    (f : φ) : (ctx.pushed m e).count { fiber := some f } =
      if m.has e = true ∧ (ctx.getContext e).scheduler.isSome = true ∧ (ctx.getContext e).fiber = some f then 1
      else 0 := by
  have htask : (ctx.getContext e).task = { fiber := (ctx.getContext e).fiber } := by
    rw [EventContext.task, hcb]
    rfl
  unfold FdContext.pushed
  rw [htask]
  by_cases hm : m.has e = true ∧ (ctx.getContext e).scheduler.isSome = true
  · rw [if_pos hm, List.count_singleton]
    simp [hm, beq_iff_eq]
  · rw [if_neg hm, if_neg fun h => hm ⟨h.1, h.2.1⟩]
    rfl

/-- Nobody is armed anew, and who has come into the queue was armed. -/
theorem Held.less (k : Held s) {u : IOManager.State Unit φ Info} (hbare : Bare u)
    (hback : ∀ fd e f, Armed u fd e f → Armed s.table fd e f)
    (hqueued : ∀ f, Queued u f → Queued s.table f ∨ ∃ fd e, Armed s.table fd e f ∧ ¬ Armed u fd e f)
    (honce : ∀ f, (u.fibers ()).count { fiber := some f } ≤ 1) : Held { s with table := u } := by
  refine ⟨hbare, fun fd e f ha => k.armed fd e f (hback fd e f ha), fun f hq => ?_, honce⟩
  rcases hqueued f hq with hq | ⟨fd, e, ha, hnot⟩
  · obtain ⟨hwait, hnone⟩ := k.queued f hq
    exact ⟨hwait, fun fd e ha => hnone fd e (hback fd e f ha)⟩
  · obtain ⟨c, hc, -, -⟩ := k.armed fd e f ha
    refine ⟨Option.isSome_of_eq_some hc, fun fd' e' ha' => ?_⟩
    obtain ⟨rfl, rfl⟩ := k.unique ha (hback fd' e' f ha')
    exact hnot ha'

theorem Held.idle (k : Held s) {u : IOManager.State Unit φ Info} (hbare : Bare u)
    (hview : u.view = s.table.view) (hfibers : u.fibers = s.table.fibers) : Held { s with table := u } := by
  refine k.less hbare (fun fd e f ha => ?_) (fun f hq => .inl ?_) fun f => hfibers ▸ k.once f
  · rwa [Armed, hview] at ha
  · rwa [Queued, hfibers] at hq

omit [DecidableEq φ] in
/-- Slots of a context were emptied. -/
theorem armed_emptied {s u : IOManager.State Unit φ Info} (hs : Shaped s) (hu : Shaped u) {fd : Nat}
    {ctx : FdContext Unit φ Info} (hview : u.view = Function.update s.view fd ctx)
    (hctx : ∀ e, ctx.getContext e = {} ∨ ctx.getContext e = (s.view fd).getContext e) {fd' : Nat} {e : Event}
    {f : φ} (h : Armed u fd' e f) : Armed s fd' e f := by
  rw [armed_iff hu, hview] at h
  rw [armed_iff hs]
  by_cases hfd : fd' = fd
  · subst hfd
    rw [Function.update_self] at h
    rcases hctx e with he | he
    · rw [he] at h
      cases h
    · rwa [he] at h
  · rwa [Function.update_of_ne hfd] at h

/-- A call that is not an `addEvent`. -/
theorem Held.exec (k : Held s) {op : Op Unit φ Info} (hop : ∀ fd e who cb ok, op ≠ .addEvent fd e who cb ok)
    {a : Answer} {u : IOManager.State Unit φ Info} (h : exec s.table op = .ok (a, u)) :
    Held { s with table := u } := by
  have hof : OfFiber op := by
    cases op with
    | addEvent fd e who cb ok => exact (hop _ _ _ _ _ rfl).elim
    | _ => trivial
  obtain ⟨hbare, -⟩ := exec_bare k.bare hof h
  obtain ⟨-, hst⟩ := exec_stirs k.bare.toShaped h
  cases hst with
  | arms => exact (hop _ _ _ _ _ rfl).elim
  | nothing ha hview hfibers => exact k.idle hbare hview hfibers
  | @drops fd e ok he hview hfibers =>
    refine k.less hbare (fun fd' e' f ha => ?_) (fun f hq => .inl ?_) fun f => hfibers ▸ k.once f
    · refine armed_emptied k.bare.toShaped hbare.toShaped hview (fun e' => ?_) ha
      rw [FdContext.disarm, FdContext.getContext_setContext, FdContext.getContext_events]
      split
      · exact .inl rfl
      · exact .inr rfl
    · rwa [Queued, hfibers] at hq
  | @takes _ fd m _ htakes hm hview hfibers =>
    have hcb := k.bare.cb fd
    have harmed : ∀ e f, m.has e = true → ((s.table.view fd).getContext e).fiber = some f →
        Armed s.table fd e f := fun e f he hf => ⟨(FdContext.faultMask_none.mp hm e he).1, hf⟩
    have hemptied : ∀ e, ((s.table.view fd).disarmMask m).getContext e = {} ∨
        ((s.table.view fd).disarmMask m).getContext e = (s.table.view fd).getContext e := fun e => by
      rw [getContext_disarmMask]
      split
      · exact .inl rfl
      · exact .inr rfl
    refine k.less hbare (fun fd' e f ha => armed_emptied k.bare.toShaped hbare.toShaped hview hemptied ha)
      (fun f hq => ?_) fun f => ?_
    · rw [Queued, hfibers] at hq
      refine (mem_pushMask.mp hq).imp id ?_
      rintro ⟨e, he, -, htask⟩
      rw [EventContext.task, hcb] at htask
      have hfiber : ((s.table.view fd).getContext e).fiber = some f := (congrArg FiberAndThread.fiber htask).symm
      refine ⟨fd, e, harmed e f he hfiber, ?_⟩
      rw [armed_iff hbare.toShaped, hview, Function.update_self, getContext_disarmMask, if_pos he]
      simp
    · rw [hfibers, pushMask_eq, List.count_append, List.count_append, count_pushed hcb, count_pushed hcb]
      have honce := k.once f
      -- a direction is counted only if the fiber is armed for it, which is once and outside the queue
      have hqueue : ∀ fd e, Armed s.table fd e f → (s.table.fibers ()).count { fiber := some f } = 0 := by
        intro fd e ha
        rw [List.count_eq_zero]
        exact fun hq => (k.queued f hq).2 fd e ha
      split <;> rename_i hread
      · have har := harmed _ f hread.1 hread.2.2
        split <;> rename_i hwrite
        · cases (k.unique har (harmed _ f hwrite.1 hwrite.2.2)).2
        · rw [hqueue _ _ har]
      · split <;> rename_i hwrite
        · rw [hqueue _ _ (harmed _ f hwrite.1 hwrite.2.2)]
        · exact honce

/-- An `addEvent` that does not return 0. -/
theorem Held.refuse (k : Held s) {fd : Nat} {e : Event} {who : Caller Unit φ} {ok : Bool} {a : Answer}
    {u : IOManager.State Unit φ Info} (h : IOManager.exec s.table (.addEvent fd e who none ok) = .ok (a, u))
    (ha : a ≠ .returned true) : Held { s with table := u } := by
  obtain ⟨hbare, -⟩ := exec_bare k.bare (by rfl) h
  obtain ⟨-, hst⟩ := exec_stirs k.bare.toShaped h
  cases hst with
  | arms => exact absurd rfl ha
  | takes htakes => cases htakes
  | nothing ha hview hfibers => exact k.idle hbare hview hfibers

/-- A fiber has armed its event. -/
theorem Held.begins (k : Held s) {c c' : Call ι} (hf : s.doing f = .io .addEvent c) (hc : c'.info = c.info)
    {ok : Bool} {u : IOManager.State Unit φ Info}
    (h : IOManager.exec s.table (.addEvent c.info.fd c.info.event ⟨some (), f⟩ none ok) =
      .ok (.returned true, u)) :
    Held (({ s with table := u } : State ι φ).goto f (.io .yield c')) := by
  have hbare := (exec_bare k.bare (by rfl) h).1
  obtain ⟨-, hst⟩ := exec_stirs k.bare.toShaped h
  have hout : ∀ fd e, ¬ Armed s.table fd e f := by
    intro fd e ha
    obtain ⟨c, hwait, -⟩ := k.armed fd e f ha
    rw [hf] at hwait
    cases hwait
  have hidle : ¬ Queued s.table f := by
    intro hq
    have hwait := (k.queued f hq).1
    rw [hf] at hwait
    cases hwait
  have hdoing : ∀ f', f' ≠ f → (({ s with table := u } : State ι φ).goto f (.io .yield c')).doing f' =
      s.doing f' := fun f' hne => Function.update_of_ne hne ..
  have hself : (({ s with table := u } : State ι φ).goto f (.io .yield c')).doing f = .io .yield c' :=
    Function.update_self ..
  cases hst with
  | nothing ha => cases ha
  | takes htakes => cases htakes
  | arms he hview hfibers =>
    have hback : ∀ fd e f', Armed u fd e f' →
        (fd = c.info.fd ∧ e = c.info.event ∧ f' = f) ∨ (f' ≠ f ∧ Armed s.table fd e f') := by
      intro fd e f' ha
      have hne : Armed s.table fd e f' → f' ≠ f ∧ Armed s.table fd e f' := fun ha =>
        ⟨fun heq => hout fd e (heq ▸ ha), ha⟩
      rw [armed_iff hbare.toShaped, hview] at ha
      rw [armed_iff k.bare.toShaped] at hne ⊢
      by_cases hfd : fd = c.info.fd
      · subst hfd
        rw [Function.update_self, FdContext.arm, FdContext.getContext_setContext] at ha
        split at ha
        · rename_i hevent
          exact .inl ⟨rfl, hevent, (Option.some.inj ha).symm⟩
        · rw [FdContext.getContext_events] at ha
          exact .inr (hne ha)
      · rw [Function.update_of_ne hfd] at ha
        exact .inr (hne ha)
    refine ⟨hbare, fun fd e f' ha => ?_, fun f' hq => ?_, fun f' => ?_⟩
    · rcases hback fd e f' ha with ⟨rfl, rfl, rfl⟩ | ⟨hne, ha⟩
      · rw [hself]
        exact ⟨c', rfl, by rw [hc], by rw [hc]⟩
      · rw [hdoing f' hne]
        exact k.armed fd e f' ha
    · have hq : Queued s.table f' := by
        have hq : _ ∈ u.fibers () := hq
        rwa [hfibers] at hq
      have hne : f' ≠ f := fun heq => hidle (heq ▸ hq)
      obtain ⟨hwait, hnone⟩ := k.queued f' hq
      rw [hdoing f' hne]
      refine ⟨hwait, fun fd e ha => ?_⟩
      rcases hback fd e f' ha with ⟨-, -, heq⟩ | ⟨-, ha⟩
      · exact hne heq
      · exact hnone fd e ha
    · show (u.fibers ()).count _ ≤ 1
      rw [hfibers]
      exact k.once f'

/-- A worker has taken a fiber out of the queue. -/
theorem Held.resumes (k : Held s) (hq : Queued s.table f) {x : Doing ι} :
    Held (({ s with table := { s.table with
      fibers := fun _ => (s.table.fibers ()).erase { fiber := some f } } } : State ι φ).goto f x) := by
  have hcount : ∀ f', ((s.table.fibers ()).erase { fiber := some f }).count { fiber := some f' } =
      if f' = f then 0 else (s.table.fibers ()).count { fiber := some f' } := by
    intro f'
    by_cases hne : f' = f
    · subst hne
      have honce := k.once f'
      rw [if_pos rfl, List.count_erase_self]
      omega
    · rw [if_neg hne, List.count_erase_of_ne (by simpa using hne)]
  have hdoing : ∀ f', f' ≠ f → Function.update s.doing f x f' = s.doing f' := fun f' hne =>
    Function.update_of_ne hne ..
  refine ⟨⟨SameContexts.shaped (s := s.table) ⟨rfl, rfl, rfl⟩ k.bare.toShaped, k.bare.cb⟩, fun fd e f' ha => ?_,
    fun f' hq' => ?_, fun f' => ?_⟩
  · have hne : f' ≠ f := by
      rintro rfl
      exact (k.queued f' hq).2 fd e ha
    show ∃ c, (Function.update s.doing f x f').waiting = some c ∧ _
    rw [hdoing f' hne]
    exact k.armed fd e f' ha
  · have hpos := List.count_pos_iff.mpr hq'
    have hpos : 0 < ((s.table.fibers ()).erase { fiber := some f }).count { fiber := some f' } := hpos
    rw [hcount] at hpos
    by_cases hne : f' = f
    · simp [hne] at hpos
    · rw [if_neg hne] at hpos
      show (Function.update s.doing f x f').waiting.isSome = true ∧ _
      rw [hdoing f' hne]
      exact k.queued f' (List.count_pos_iff.mp hpos)
  · show ((s.table.fibers ()).erase { fiber := some f }).count { fiber := some f' } ≤ 1
    rw [hcount]
    split
    · exact Nat.zero_le 1
    · exact k.once f'

theorem Held.onTable (k : Held s) {op : Op Unit φ Info} (hop : ∀ fd e who cb ok, op ≠ .addEvent fd e who cb ok)
    {next : Answer → State ι φ → State ι φ}
    (hnext : ∀ r u, Held ({ s with table := u } : State ι φ) → Held (next r { s with table := u })) :
    Held (s.onTable op next) := by
  unfold State.onTable
  split
  · rename_i r u hexec
    exact hnext r u (k.exec hop hexec)
  · exact k.move rfl fun _ => rfl

/-! ### Every step -/

theorem callFun_held (k : Held s) {hook : IoHook} {fd : Nat} {r : IoResult}
    (h : s.callFun hook fd r = some t) : Held t ∧ t.doing = s.doing := by
  rcases callFun_cases h with ⟨n, -, -, -, hn⟩ | ⟨rfl, -⟩
  · obtain ⟨-, rfl⟩ := openFd_eq hn
    exact ⟨k.move rfl fun _ => rfl, rfl⟩
  · exact ⟨k, rfl⟩

variable [LinearOrder ι]

theorem doIo_held (k : Held s) {x : Choice ι} {c : Call ι} {st : Stage} (hf : s.doing f = .io st c)
    (h : s.doIo f x c st = some t) : Held t := by
  have hleave : ∀ {s' : State ι φ}, Held s' → s'.doing f = .io st c → (s'.doing f).waiting = none →
      ∀ ret, Held (s'.leave f c ret) := by
    intro s' k' _ hwait ret
    exact k'.goto (f := f) (x := State.after c.hook ret) ((after_out c.hook ret).1.trans hwait.symm) rfl rfl
  cases st with
  | retry =>
    obtain ⟨s', hs, rfl⟩ := Option.map_eq_some_iff.mp h
    obtain ⟨k', hdoing⟩ := callFun_held k hs
    have hf' : s'.doing f = .io .retry c := by rw [hdoing, hf]
    have hwait : (s'.doing f).waiting = none := by rw [hf']; rfl
    cases x.result with
    | intr => exact k'
    | again => exact k'.goto (f := f) (x := .io .addTimer { c with timer := none }) hwait.symm rfl rfl
    | ok n => exact hleave k' hf' hwait _
    | fail e => exact hleave k' hf' hwait _
  | addTimer =>
    have hwait : (s.doing f).waiting = none := by rw [hf]; rfl
    simp only [State.doIo] at h
    split at h
    · cases h
      exact k.goto (f := f) (x := .io .addEvent c) hwait.symm rfl rfl
    · obtain ⟨-, h⟩ := Option.ite_none_left_eq_some.mp h
      cases h
      exact k.goto (f := f) (x := .io .addEvent { c with timer := some x.timer }) hwait.symm rfl rfl
  | addEvent =>
    have hwait : (s.doing f).waiting = none := by rw [hf]; rfl
    simp only [State.doIo, Option.some.injEq, State.onTable] at h
    split at h
    · rename_i r u hexec
      subst h
      split
      · rename_i hr
        rw [hr] at hexec
        refine k.begins hf ?_ hexec
        rfl
      · rename_i hr
        have k' : Held ({ s with table := u } : State ι φ) := k.refuse hexec hr
        exact k'.goto (f := f) (x := .io .failed c) hwait.symm rfl rfl
    · subst h
      exact k.move rfl fun _ => rfl
  | failed =>
    cases h
    obtain ⟨timers, fault, heq⟩ := cancelTimer_eq s c.timer
    rw [heq]
    have k' : Held ({ s with timers := timers, fault := fault } : State ι φ) := k.move rfl fun _ => rfl
    exact hleave k' hf (by rw [hf]; rfl) _
  | yield =>
    cases h
    exact k.goto (f := f) (x := .io .suspended c) (by rw [hf]; rfl) rfl rfl
  | suspended => cases h
  | resumed =>
    cases h
    obtain ⟨timers, fault, heq⟩ := cancelTimer_eq s c.timer
    rw [heq]
    exact k.goto (f := f) (x := .io .test c) (by rw [hf]; rfl) rfl rfl
  | test =>
    simp only [State.doIo, Option.some.injEq] at h
    subst h
    split
    · exact hleave k hf (by rw [hf]; rfl) _
    · exact k.goto (f := f) (x := .io .retry c) (by rw [hf]; rfl) rfl rfl

omit [LinearOrder ι] in
/-- A fiber outside `do_io` goes on there. -/
theorem Held.aside (k : Held s) {x : Doing ι} (hf : (s.doing f).call = none) (hx : x.call = none)
    (htable : t.table = s.table) (hdoing : t.doing = Function.update s.doing f x) : Held t := by
  have hwait : ∀ {d : Doing ι}, d.call = none → d.waiting = none := by
    intro d hd
    cases d with
    | io => cases hd
    | _ => rfl
  exact k.goto ((hwait hx).trans (hwait hf).symm) htable hdoing

omit [LinearOrder ι] in
theorem close_held (k : Held s) {x : Choice ι} {fd : Nat} {st : CloseStage} (hf : s.doing f = .close st fd) :
    Held (s.close f x fd st) := by
  have hnone : (s.doing f).call = none := by rw [hf]; rfl
  cases st with
  | lookup =>
    simp only [State.close]
    split
    · exact k.move rfl fun _ => rfl
    · exact k.aside hnone (x := .close .closeF fd) rfl rfl rfl
    · exact k.aside hnone (x := .close .cancelAll fd) rfl rfl rfl
  | cancelAll =>
    simp only [State.close]
    refine k.onTable (by simp) fun r u k' => ?_
    exact k'.aside (f := f) (x := .close .del fd) hnone rfl rfl rfl
  | del =>
    simp only [State.close]
    split
    · exact k.move rfl fun _ => rfl
    · exact k.aside hnone (x := .close .closeF fd) rfl rfl rfl
  | closeF =>
    have k' : Held ({ s with table := (s.closeFd fd).table } : State ι φ) := k.queue ⟨rfl, rfl, rfl⟩ fun _ => rfl
    exact k'.aside (f := f) (x := .user) hnone rfl rfl rfl

omit [LinearOrder ι] in
theorem onTimer_held (k : Held s) {x : Choice ι} {i : Info} {st : TimerStage} (hf : s.doing f = .onTimer st i) :
    Held (s.onTimer f x i st) := by
  have hnone : (s.doing f).call = none := by rw [hf]; rfl
  cases st with
  | lock =>
    simp only [State.onTimer]
    split
    · exact k.aside hnone (x := .user) rfl rfl rfl
    · exact k.aside hnone (x := .onTimer .test i) rfl rfl rfl
  | test =>
    simp only [State.onTimer]
    split
    · exact k.aside hnone (x := .user) rfl rfl rfl
    · exact k.aside hnone (x := .onTimer .mark i) rfl rfl rfl
  | mark => exact k.aside hnone (x := .onTimer .cancelEvent i) rfl rfl rfl
  | cancelEvent =>
    simp only [State.onTimer]
    refine k.onTable (by simp) fun r u k' => ?_
    exact k'.aside (f := f) (x := .user) hnone rfl rfl rfl

omit [LinearOrder ι] in
/-- The callbacks of timers go into the queue. -/
theorem schedule_held (k : Held s) {cbs : List (Option Info)} (hf : s.doing f = .idle cbs) :
    Held (s.schedule f cbs) := by
  let nodes := cbs.map fun cb => (FiberAndThread.ofCbPtr cb (-1) : FiberAndThread φ Info × Option Info).1
  have hcount : ∀ f', (scheduleAll (s.table.fibers ()) nodes).count { fiber := some f' } =
      (s.table.fibers ()).count { fiber := some f' } := by
    intro f'
    rw [scheduleAll_eq, List.count_append, Nat.add_eq_left, List.count_eq_zero]
    intro hin
    obtain ⟨cb, -, heq⟩ := List.mem_map.mp (List.mem_filter.mp hin).1
    cases congrArg FiberAndThread.fiber heq
  have k' := k.queue (u := { s.table with fibers := fun _ => scheduleAll (s.table.fibers ()) nodes })
    ⟨rfl, rfl, rfl⟩ hcount
  exact k'.aside (f := f) (x := .user) (by rw [hf]; rfl) rfl rfl rfl

/-- **Held once, and only while it waits**, after every step. -/
theorem step_held (k : Held s) {a : Act ι φ} (h : step s a = some t) : Held t := by
  cases step_branch h with
  | @opens f fd u hf hs =>
    obtain ⟨-, rfl⟩ := openFd_eq hs
    exact k.aside (f := f) (x := .manage fd) (by rw [hf]; rfl) rfl rfl rfl
  | @calls f hook fd hf => exact k.aside (f := f) (x := .enter hook fd) (by rw [hf]; rfl) rfl rfl rfl
  | @closes f fd hf => exact k.aside (f := f) (x := .close .lookup fd) (by rw [hf]; rfl) rfl rfl rfl
  | @fires f i hf hin =>
    have k' : Held ({ s with table := { s.table with
        fibers := fun _ => (s.table.fibers ()).erase { cb := some i } } } : State ι φ) :=
      k.queue ⟨rfl, rfl, rfl⟩ fun f' => List.count_erase_of_ne (by simp)
    exact k'.aside (f := f) (x := .onTimer .lock i) (by rw [hf]; rfl) rfl rfl rfl
  | @expires f now tmp hf htmp => exact k.aside (f := f) (x := .idle _) (by rw [hf]; rfl) rfl rfl rfl
  | @enter f x hook fd hf =>
    have hnone : (s.doing f).waiting = none := by rw [hf]; rfl
    simp only [State.enter, FdManager.get_ctx]
    cases s.fds.ctx fd with
    | none => exact k.goto (f := f) (x := .direct hook fd) hnone.symm rfl rfl
    | some ctx =>
      dsimp only
      split
      · exact k.goto (f := f) (x := .user) hnone.symm rfl rfl
      · split
        · exact k.goto (f := f) (x := .direct hook fd) hnone.symm rfl rfl
        · exact k.goto (f := f) (x := .io .retry _) hnone.symm rfl rfl
  | @direct f x hook fd t hf ht =>
    obtain ⟨s', hs, rfl⟩ := Option.map_eq_some_iff.mp ht
    obtain ⟨k', hdoing⟩ := callFun_held k hs
    have hnone : (s'.doing f).call = none := by rw [hdoing, hf]; rfl
    split
    · exact k'.aside (f := f) hnone (after_call hook _) rfl rfl
    · exact k'.aside (f := f) (x := .user) hnone rfl rfl rfl
  | doIo hf hs => exact doIo_held k hf hs
  | @manage f x fd hf =>
    unfold State.manage
    split
    · exact k.move rfl fun _ => rfl
    · exact k.aside (f := f) (x := .user) (by rw [hf]; rfl) rfl rfl rfl
  | close hf => exact close_held k hf
  | onTimer hf => exact onTimer_held k hf
  | schedule hf => exact schedule_held k hf
  | resumes hf hin => exact k.resumes hin
  | dispatch => exact k.onTable (by simp) fun r u k' => k'
  | setTimeout | setUserNonblock => exact k.move rfl fun _ => rfl

end

end ShioSylar.Hook
