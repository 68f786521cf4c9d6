import ShioSylar.Hook.DoIo

/-! What a step of the hooks can do.

`Branch` has a constructor for each branch of `step`, and `step_branch` says that there are
no others. Most steps move one fiber and are seen by nobody: `Plain`. The others change the
event table or the kernel first (`Effect`), or they are one of three: an `addEvent` that
succeeds, a fiber that a worker takes out of the queue, and the `cancelEvent` of a timer's
callback. `step_move` says so; what holds over whole runs is read off it. -/
namespace ShioSylar.Hook
open Scheduler IOManager

variable {ι φ : Type}

/-- The call of a fiber that waits: from the return of `addEvent` until a worker takes it. -/
def Doing.waiting : Doing ι → Option (Call ι)
  | .io .yield c => some c
  | .io .suspended c => some c
  | _ => none

/-- Whether a call may yet come to `fun`: at `retry`, or through the test of `cancelled`. -/
def Stage.mayRetry (cancelled : Bool) : Stage → Bool
  | .retry => true
  | .failed => false
  | _ => !cancelled

/-- The number that a fiber may yet call `fun` on, with the openings it has waited on. -/
def Doing.owes (cancelled : Info → Bool) : Doing ι → List (Nat × Nat)
  | .io st c => if st.mayRetry (cancelled c.info) then c.on.map fun g => (c.info.fd, g) else []
  | _ => []

/-- What a call of `do_io` that returns in `s` leaves in the log. -/
def Returns (s : State ι φ) (d : Done) : Prop :=
  d.at_ = s.opened d.info.fd ∧ ((∃ e, d.ret = .fail e) ∨
    (s.isOpen d.info.fd = true ∧ ∃ f c, s.doing f = .io .retry c ∧ d.info = c.info ∧ d.on = c.on))

/-- Nothing happens to the event table, the kernel and the waits. -/
structure Plain (s t : State ι φ) : Prop where
  table : t.table = s.table
  opened : t.opened = s.opened
  fired : t.fired = s.fired
  waiting : ∀ f c, (t.doing f).waiting = some c → (s.doing f).waiting = some c
  owes : ∀ f, ∀ p ∈ (t.doing f).owes t.cancelled, p ∈ (s.doing f).owes s.cancelled
  log : ∀ d ∈ t.log, d ∈ s.log ∨ Returns s d

/-- `cancelEvent`, `cancelAll` and the dispatch. -/
def Wakes {κ : Type} : Op Unit φ κ → Bool
  | .cancelEvent _ _ _ => true
  | .cancelAll _ _ => true
  | .dispatch _ _ _ => true
  | _ => false

/-- The number that a step hands out. -/
def opens (s : State ι φ) : Act ι φ → Option Nat
  | .socket _ fd => some fd
  | .work f x =>
    match s.doing f, x.result with
    | .io .retry c, .ok n => if c.hook = .accept then some n else none
    | .direct .accept _, .ok n => some n
    | _, _ => none
  | _ => none

section
variable [DecidableEq φ]

/-- What a step does to the event table and the kernel. -/
inductive Effect (s : State ι φ) (a : Act ι φ) : State ι φ → Prop
  | none : Effect s a s
  | opens {n s'} (ha : opens s a = some n) (hs : s.openFd n = some s') : Effect s a s'
  | closes {f x fd} (ha : a = .work f x) (hf : s.doing f = .close .closeF fd) : Effect s a (s.closeFd fd)
  | serves {op r u} (hop : Wakes op = true) (hexec : exec s.table op = .ok (r, u)) :
      Effect s a { s with table := u }
  | refuses {fd e who ok r u} (hexec : exec s.table (.addEvent fd e who Option.none ok) = .ok (r, u))
      (hr : r ≠ .returned true) : Effect s a { s with table := u }
  | pushes {q} (hsub : ∀ ft ∈ s.table.fibers (), ft ∈ q) :
      Effect s a { s with table := { s.table with fibers := fun _ => q } }
  | takes {i} : Effect s a
      { s with table := { s.table with fibers := fun _ => (s.table.fibers ()).erase { cb := some i } } }

inductive Move (s : State ι φ) (a : Act ι φ) (t : State ι φ) : Prop
  | local_ {s'} (he : Effect s a s') (hp : Plain s' t)
  | begins {f x c u} (ha : a = .work f x) (hf : s.doing f = .io .addEvent c)
      (hexec : exec s.table (.addEvent c.info.fd c.info.event ⟨some (), f⟩ Option.none
        (x.ok && s.isOpen c.info.fd)) = .ok (.returned true, u))
      (ht : t = ({ s with table := u } : State ι φ).goto f (.io .yield
        { c with on := (s.opened c.info.fd).toList ++ c.on }))
  | resumes {f c} (hf : s.doing f = .io .suspended c)
      (ht : t = ({ s with table := { s.table with
        fibers := fun _ => (s.table.fibers ()).erase { fiber := some f } } } : State ι φ).goto f
          (.io .resumed c))
  | fires {f x i r u} (ha : a = .work f x) (hf : s.doing f = .onTimer .cancelEvent i)
      (hexec : exec s.table (.cancelEvent i.fd i.event (x.ok && s.isOpen i.fd)) = .ok (r, u))
      (ht : t = { ({ s with table := u } : State ι φ).drop f i with
        fired := Function.update s.fired i true })

/-! ### Steps that nobody sees -/

variable {s t : State ι φ} {f : φ}

omit [DecidableEq φ] in
/-- What is cancelled owes less. -/
theorem owes_mono {before after : Info → Bool} (h : ∀ i, before i = true → after i = true)
    {d : Doing ι} {p : Nat × Nat} (hp : p ∈ d.owes after) : p ∈ d.owes before := by
  cases d with
  | io st c =>
    obtain ⟨hmay, hc⟩ := List.mem_ite_nil_right.mp hp
    refine List.mem_ite_nil_right.mpr ⟨?_, hc⟩
    cases hb : before c.info with
    | false => cases st <;> first | rfl | cases hmay
    | true => rwa [h c.info hb] at hmay
  | _ => cases hp

omit [DecidableEq φ] in
theorem Plain.refl (s : State ι φ) : Plain s s :=
  ⟨rfl, rfl, rfl, fun _ _ h => h, fun _ _ h => h, fun _ hd => .inl hd⟩

omit [DecidableEq φ] in
theorem plain_fault (s : State ι φ) (e : Option Fault) : Plain s { s with fault := e } :=
  ⟨rfl, rfl, rfl, fun _ _ h => h, fun _ _ h => h, fun _ hd => .inl hd⟩

/-- What is asked of all fibers after one of them has moved. -/
theorem doing_update (ask : Doing ι → Prop) {doing : φ → Doing ι} {d : Doing ι} {f' : φ}
    (h : ask (Function.update doing f d f')) : (f' = f ∧ ask d) ∨ (f' ≠ f ∧ ask (doing f')) := by
  by_cases hf : f' = f
  · subst hf
    rw [Function.update_self] at h
    exact .inl ⟨rfl, h⟩
  · rw [Function.update_of_ne hf] at h
    exact .inr ⟨hf, h⟩

/-- A fiber goes on to where it waits and owes no more than before. -/
theorem plain_goto {d : Doing ι} (hdoing : t.doing = Function.update s.doing f d)
    (hwait : ∀ c, d.waiting = some c → (s.doing f).waiting = some c)
    (howes : ∀ p ∈ d.owes t.cancelled, p ∈ (s.doing f).owes s.cancelled)
    (htable : t.table = s.table) (hopened : t.opened = s.opened) (hfired : t.fired = s.fired)
    (hcancelled : ∀ i, s.cancelled i = true → t.cancelled i = true)
    (hlog : ∀ d ∈ t.log, d ∈ s.log ∨ Returns s d) : Plain s t := by
  refine ⟨htable, hopened, hfired, fun f' c h => ?_, fun f' p h => ?_, hlog⟩
  · rw [hdoing] at h
    rcases doing_update (·.waiting = some c) h with ⟨rfl, hd⟩ | ⟨-, hd⟩
    · exact hwait c hd
    · exact hd
  · rw [hdoing] at h
    rcases doing_update (p ∈ ·.owes t.cancelled) h with ⟨rfl, hd⟩ | ⟨-, hd⟩
    · exact howes p hd
    · exact owes_mono hcancelled hd

omit [DecidableEq φ] in
/-- A fiber that neither waits nor owes. -/
def Doing.Out (d : Doing ι) : Prop := d.waiting = none ∧ ∀ cancelled, d.owes cancelled = []

theorem plain_out {d : Doing ι} (hdoing : t.doing = Function.update s.doing f d) (hout : d.Out)
    (htable : t.table = s.table) (hopened : t.opened = s.opened) (hfired : t.fired = s.fired)
    (hcancelled : ∀ i, s.cancelled i = true → t.cancelled i = true)
    (hlog : ∀ d ∈ t.log, d ∈ s.log ∨ Returns s d) : Plain s t := by
  refine plain_goto hdoing (fun _ h => nomatch hout.1.symm.trans h) (fun p hp => ?_) htable hopened
    hfired hcancelled hlog
  rw [hout.2] at hp
  cases hp

theorem goto_out {d : Doing ι} (hout : d.Out) : Plain s (s.goto f d) :=
  plain_out rfl hout rfl rfl rfl (fun _ h => h) fun _ hd => .inl hd

omit [DecidableEq φ] in
theorem after_out (hook : IoHook) (ret : Ret) : (State.after hook ret : Doing ι).Out := by
  cases ret with
  | ok n =>
    simp only [State.after]
    split
    · exact ⟨rfl, fun _ => rfl⟩
    · exact ⟨rfl, fun _ => rfl⟩
  | fail e => exact ⟨rfl, fun _ => rfl⟩

theorem leave_plain {c : Call ι} {r : Ret} (hret : (∃ e, r = .fail e) ∨
    (s.isOpen c.info.fd = true ∧ s.doing f = .io .retry c)) : Plain s (s.leave f c r) := by
  refine plain_out rfl (after_out c.hook r) rfl rfl rfl (fun _ h => h) fun d hd => ?_
  rcases List.mem_append.mp hd with hd | hd
  · exact .inl hd
  · cases List.mem_singleton.mp hd
    refine .inr ⟨rfl, hret.imp_right ?_⟩
    intro hretry
    obtain ⟨hopen, hf⟩ := hretry
    exact ⟨hopen, f, c, hf, rfl, rfl⟩

omit [DecidableEq φ] in
theorem cancelTimer_eq [LinearOrder ι] (s : State ι φ) (timer : Option ι) :
    ∃ timers fault, s.cancelTimer timer = { s with timers := timers, fault := fault } := by
  unfold State.cancelTimer
  split
  · exact ⟨_, _, rfl⟩
  · split
    · exact ⟨_, _, rfl⟩
    · exact ⟨_, _, rfl⟩

/-! ### Steps through the kernel and the table -/

omit [DecidableEq φ] in
theorem openFd_eq {n : Nat} (h : s.openFd n = some t) : s.isOpen n = false ∧
    t = { s with opened := Function.update s.opened n (some s.openings), openings := s.openings + 1 } := by
  unfold State.openFd at h
  split at h
  · cases h
  · rename_i hn
    cases h
    exact ⟨by simpa using hn, rfl⟩

omit [DecidableEq φ] in
/-- `fun` hands out a number, or changes nothing. -/
theorem callFun_cases {hook : IoHook} {fd : Nat} {r : IoResult} (h : s.callFun hook fd r = some t) :
    (∃ n, hook = .accept ∧ r = .ok n ∧ s.isOpen fd = true ∧ s.openFd n = some t) ∨
      (t = s ∧ (s.isOpen fd = true ∨ r = .fail .badf)) := by
  unfold State.callFun at h
  split at h
  · rename_i hopen
    split at h
    · exact .inl ⟨_, rfl, rfl, hopen, h⟩
    · cases h
      exact .inr ⟨rfl, .inl hopen⟩
  · obtain ⟨hr, h⟩ := Option.ite_none_right_eq_some.mp h
    cases h
    exact .inr ⟨rfl, .inr hr⟩

/-- A call of `fun` on the way of a fiber. -/
theorem callFun_effect {a : Act ι φ} {hook : IoHook} {fd : Nat} {r : IoResult}
    (ha : ∀ n, hook = .accept → r = .ok n → opens s a = some n) (h : s.callFun hook fd r = some t) :
    Effect s a t ∧ t.doing = s.doing ∧ (t.isOpen fd = true ∨ r = .fail .badf) := by
  rcases callFun_cases h with ⟨n, hhook, hr, hopen, hn⟩ | ⟨rfl, hopen⟩
  · refine ⟨.opens (ha n hhook hr) hn, ?_⟩
    obtain ⟨-, rfl⟩ := openFd_eq hn
    refine ⟨rfl, .inl ?_⟩
    simp only [State.isOpen] at hopen ⊢
    by_cases hfd : fd = n
    · subst hfd
      rw [Function.update_self]
      rfl
    · rwa [Function.update_of_ne hfd]
  · exact ⟨.none, rfl, hopen⟩

/-- A call on the table that wakes, and then a fiber that moves. -/
theorem onTable_wakes {a : Act ι φ} {op : Op Unit φ Info} (hop : Wakes op = true)
    {next : Answer → State ι φ → State ι φ} (hnext : ∀ r u, Plain u (next r u)) :
    Move s a (s.onTable op next) := by
  unfold State.onTable
  split
  · rename_i r u hexec
    exact .local_ (.serves hop hexec) (hnext r _)
  · exact .local_ .none (plain_fault s _)

theorem enter_plain (hook : IoHook) (fd : Nat) : Plain s (s.enter f hook fd) := by
  unfold State.enter
  split
  · exact plain_fault s _
  · exact goto_out ⟨rfl, fun _ => rfl⟩
  · split
    · exact goto_out ⟨rfl, fun _ => rfl⟩
    · split
      · exact goto_out ⟨rfl, fun _ => rfl⟩
      · refine plain_out rfl ⟨rfl, fun _ => ?_⟩ rfl rfl rfl (fun _ h => h) fun _ hd => .inl hd
        simp [Doing.owes]

theorem direct_move {x : Choice ι} {hook : IoHook} {fd : Nat} (hf : s.doing f = .direct hook fd)
    (h : s.direct f hook fd x.result = some t) : Move s (.work f x) t := by
  simp only [State.direct, Option.map_eq_some_iff] at h
  obtain ⟨s', hs', rfl⟩ := h
  have ha : ∀ n, hook = .accept → x.result = .ok n → opens s (.work f x) = some n := by
    rintro n rfl hr
    simp [opens, hf, hr]
  refine .local_ (callFun_effect ha hs').1 ?_
  split
  · exact goto_out (after_out hook _)
  · exact goto_out ⟨rfl, fun _ => rfl⟩

theorem close_move {x : Choice ι} {fd : Nat} {st : CloseStage} (hf : s.doing f = .close st fd) :
    Move s (.work f x) (s.close f x fd st) := by
  cases st with
  | lookup =>
    simp only [State.close]
    split
    · exact .local_ .none (plain_fault s _)
    · exact .local_ .none (goto_out ⟨rfl, fun _ => rfl⟩)
    · exact .local_ .none (goto_out ⟨rfl, fun _ => rfl⟩)
  | cancelAll => exact onTable_wakes rfl fun _ _ => goto_out ⟨rfl, fun _ => rfl⟩
  | del =>
    simp only [State.close]
    split
    · exact .local_ .none (plain_fault s _)
    · refine .local_ .none (plain_out (d := .close .closeF fd) rfl ⟨rfl, fun _ => rfl⟩ rfl rfl rfl
        (fun _ h => h) fun _ hd => .inl hd)
  | closeF => exact .local_ (.closes rfl hf) (goto_out ⟨rfl, fun _ => rfl⟩)

theorem onTimer_move {x : Choice ι} {i : Info} {st : TimerStage} (hf : s.doing f = .onTimer st i) :
    Move s (.work f x) (s.onTimer f x i st) := by
  have hdrop : Plain s (s.drop f i) :=
    plain_out (d := .user) rfl ⟨rfl, fun _ => rfl⟩ rfl rfl rfl (fun _ h => h) fun _ hd => .inl hd
  cases st with
  | lock =>
    simp only [State.onTimer]
    split
    · exact .local_ .none (goto_out ⟨rfl, fun _ => rfl⟩)
    · refine .local_ .none (plain_out (d := .onTimer .test i) rfl ⟨rfl, fun _ => rfl⟩ rfl rfl rfl
        (fun _ h => h) fun _ hd => .inl hd)
  | test =>
    simp only [State.onTimer]
    split
    · exact .local_ .none hdrop
    · exact .local_ .none (goto_out ⟨rfl, fun _ => rfl⟩)
  | mark =>
    refine .local_ .none (plain_out (d := .onTimer .cancelEvent i) rfl ⟨rfl, fun _ => rfl⟩ rfl rfl rfl
      (fun i' h => ?_) fun _ hd => .inl hd)
    by_cases hi : i' = i
    · subst hi
      exact Function.update_self ..
    · exact (Function.update_of_ne hi ..).trans h
  | cancelEvent =>
    simp only [State.onTimer, State.onTable]
    split
    · rename_i r u hexec
      exact .fires rfl hf hexec rfl
    · exact .local_ .none (plain_fault s _)

variable [LinearOrder ι]

theorem doIo_move {x : Choice ι} {c : Call ι} {st : Stage} (hf : s.doing f = .io st c)
    (h : s.doIo f x c st = some t) : Move s (.work f x) t := by
  cases st with
  | retry =>
    simp only [State.doIo, Option.map_eq_some_iff] at h
    obtain ⟨s', hs', rfl⟩ := h
    have ha : ∀ n, c.hook = .accept → x.result = .ok n → opens s (.work f x) = some n := by
      intro n hhook hr
      simp [opens, hf, hr, hhook]
    obtain ⟨he, hdoing, hopen⟩ := callFun_effect ha hs'
    refine .local_ he ?_
    cases hr : x.result with
    | ok n =>
      have hopen : s'.isOpen c.info.fd = true := hopen.resolve_right (by simp [hr])
      exact leave_plain (.inr ⟨hopen, hdoing ▸ hf⟩)
    | again =>
      -- on its way to the next wait the call owes what it owed at `retry`
      refine plain_goto (d := .io .addTimer { c with timer := none }) rfl (fun c' hc => nomatch hc)
        (fun p hp => ?_) rfl rfl rfl (fun _ h => h) fun _ hd => .inl hd
      rw [hdoing, hf]
      exact (List.mem_ite_nil_right.mp hp).2
    | intr => exact .refl s'
    | fail e => exact leave_plain (.inl ⟨e, rfl⟩)
  | addTimer =>
    simp only [State.doIo] at h
    have hgoto : ∀ {timers : TimerManager.State ι Info} {timer : Option ι},
        Plain s { s.goto f (.io .addEvent { c with timer := timer }) with timers := timers } := by
      intro timers timer
      refine plain_goto (d := .io .addEvent { c with timer := timer }) rfl (fun c' hc => nomatch hc)
        (fun p hp => ?_) rfl rfl rfl (fun _ h => h) fun _ hd => .inl hd
      rw [hf]
      exact hp
    split at h
    · cases h
      exact .local_ .none hgoto
    · split at h
      · cases h
      · cases h
        exact .local_ .none hgoto
  | addEvent =>
    simp only [State.doIo, Option.some.injEq, State.onTable] at h
    split at h
    · rename_i r u hexec
      subst h
      split
      · rename_i hr
        rw [hr] at hexec
        exact .begins rfl hf hexec rfl
      · rename_i hr
        exact .local_ (.refuses hexec hr) (goto_out ⟨rfl, fun _ => rfl⟩)
    · subst h
      exact .local_ .none (plain_fault s _)
  | failed =>
    simp only [State.doIo, Option.some.injEq] at h
    obtain ⟨timers, fault, heq⟩ := cancelTimer_eq s c.timer
    rw [heq] at h
    subst h
    have hp := leave_plain (s := { s with timers := timers, fault := fault }) (f := f) (c := c)
      (r := .fail .other) (.inl ⟨_, rfl⟩)
    exact .local_ .none ⟨hp.table, hp.opened, hp.fired, hp.waiting, hp.owes, hp.log⟩
  | yield =>
    simp only [State.doIo, Option.some.injEq] at h
    subst h
    refine .local_ .none (plain_goto (d := .io .suspended c) rfl (fun c' hc => ?_) (fun p hp => ?_) rfl
      rfl rfl (fun _ h => h) fun _ hd => .inl hd)
    · rw [hf]
      exact hc
    · rw [hf]
      exact hp
  | suspended => cases h
  | resumed =>
    simp only [State.doIo, Option.some.injEq] at h
    obtain ⟨timers, fault, heq⟩ := cancelTimer_eq s c.timer
    rw [heq] at h
    subst h
    refine .local_ .none (plain_goto (d := .io .test c) rfl (fun c' hc => nomatch hc) (fun p hp => ?_) rfl
      rfl rfl (fun _ h => h) fun _ hd => .inl hd)
    rw [hf]
    exact hp
  | test =>
    simp only [State.doIo, Option.some.injEq] at h
    subst h
    split
    · exact .local_ .none (leave_plain (.inl ⟨_, rfl⟩))
    · rename_i hc
      refine .local_ .none (plain_goto (d := .io .retry c) rfl (fun c' hc => nomatch hc) (fun p hp => ?_)
        rfl rfl rfl (fun _ h => h) fun _ hd => .inl hd)
      rw [hf]
      simp only [Doing.owes, Stage.mayRetry, hc] at hp ⊢
      exact hp

/-! ### The branches of a step -/

inductive Branch (s : State ι φ) : Act ι φ → State ι φ → Prop
  | opens {f fd u} (hf : s.doing f = .user) (hs : s.openFd fd = some u) :
      Branch s (.socket f fd) (u.goto f (.manage fd))
  | calls {f hook fd} (hf : s.doing f = .user) : Branch s (.doIo f hook fd) (s.goto f (.enter hook fd))
  | closes {f fd} (hf : s.doing f = .user) : Branch s (.close f fd) (s.goto f (.close .lookup fd))
  | fires {f i} (hf : s.doing f = .user) (hin : { cb := some i } ∈ s.table.fibers ()) :
      Branch s (.onTimer f i) { s.goto f (.onTimer .lock i) with
        table := { s.table with fibers := fun _ => (s.table.fibers ()).erase { cb := some i } } }
  | expires {f now tmp} (hf : s.doing f = .user) (htmp : s.timers.objects tmp = none) :
      Branch s (.idle f now tmp) { s.goto f (.idle (s.timers.listExpiredCb now tmp []).1) with
        timers := (s.timers.listExpiredCb now tmp []).2 }
  | enter {f x hook fd} (hf : s.doing f = .enter hook fd) : Branch s (.work f x) (s.enter f hook fd)
  | direct {f x hook fd t} (hf : s.doing f = .direct hook fd) (hs : s.direct f hook fd x.result = some t) :
      Branch s (.work f x) t
  | doIo {f x st c t} (hf : s.doing f = .io st c) (hs : s.doIo f x c st = some t) : Branch s (.work f x) t
  | manage {f x fd} (hf : s.doing f = .manage fd) : Branch s (.work f x) (s.manage f fd)
  | close {f x st fd} (hf : s.doing f = .close st fd) : Branch s (.work f x) (s.close f x fd st)
  | onTimer {f x st i} (hf : s.doing f = .onTimer st i) : Branch s (.work f x) (s.onTimer f x i st)
  | schedule {f x cbs} (hf : s.doing f = .idle cbs) : Branch s (.work f x) (s.schedule f cbs)
  | resumes {f c} (hf : s.doing f = .io .suspended c) (hin : { fiber := some f } ∈ s.table.fibers ()) :
      Branch s (.resume f) { s.goto f (.io .resumed c) with
        table := { s.table with fibers := fun _ => (s.table.fibers ()).erase { fiber := some f } } }
  | dispatch {fd r ok} :
      Branch s (.dispatch fd r ok) (s.onTable (.dispatch fd r (ok && s.isOpen fd)) fun _ s => s)
  | setTimeout {fd type v} :
      Branch s (.setTimeout fd type v) { s with fds := s.fds.modify fd (·.setTimeout type v) }
  | setUserNonblock {fd v} :
      Branch s (.setUserNonblock fd v) { s with fds := s.fds.modify fd (·.setUserNonblock v) }

omit [LinearOrder ι] in
theorem take_eq {ft : FiberAndThread φ Info} {d : Doing ι} (h : s.take ft f d = some t) :
    ft ∈ s.table.fibers () ∧ t = { s.goto f d with
      table := { s.table with fibers := fun _ => (s.table.fibers ()).erase ft } } := by
  obtain ⟨hin, h⟩ := Option.ite_none_right_eq_some.mp h
  exact ⟨hin, (Option.some.inj h).symm⟩

theorem step_branch {a : Act ι φ} (h : step s a = some t) : Branch s a t := by
  obtain ⟨-, h⟩ := Option.ite_none_left_eq_some.mp h
  cases a with
  | socket f fd =>
    dsimp only at h
    split at h
    · rename_i hf
      obtain ⟨u, hs, rfl⟩ := Option.map_eq_some_iff.mp h
      exact .opens hf hs
    · cases h
  | doIo f hook fd =>
    dsimp only at h
    split at h
    · rename_i hf
      cases h
      exact .calls hf
    · cases h
  | close f fd =>
    dsimp only at h
    split at h
    · rename_i hf
      cases h
      exact .closes hf
    · cases h
  | onTimer f i =>
    dsimp only at h
    split at h
    · rename_i hf
      obtain ⟨hin, rfl⟩ := take_eq h
      exact .fires hf hin
    · cases h
  | idle f now tmp =>
    dsimp only at h
    split at h
    · rename_i hf htmp
      cases h
      exact .expires hf htmp
    · cases h
  | work f x =>
    dsimp only at h
    cases hf : s.doing f with
    | user => simp [hf] at h
    | direct hook fd =>
      rw [hf] at h
      exact .direct hf h
    | io st c =>
      rw [hf] at h
      exact .doIo hf h
    | enter hook fd =>
      rw [hf] at h
      cases h
      exact .enter hf
    | manage fd =>
      rw [hf] at h
      cases h
      exact .manage hf
    | close st fd =>
      rw [hf] at h
      cases h
      exact .close hf
    | onTimer st i =>
      rw [hf] at h
      cases h
      exact .onTimer hf
    | idle cbs =>
      rw [hf] at h
      cases h
      exact .schedule hf
  | resume f =>
    dsimp only at h
    split at h
    · rename_i c hf
      obtain ⟨hin, rfl⟩ := take_eq h
      exact .resumes hf hin
    · cases h
  | dispatch fd r ok =>
    cases h
    exact .dispatch
  | setTimeout fd type v =>
    cases h
    exact .setTimeout
  | setUserNonblock fd v =>
    cases h
    exact .setUserNonblock

/-- **What a step can do.** -/
theorem step_move {a : Act ι φ} (h : step s a = some t) : Move s a t := by
  cases step_branch h with
  | opens hf hs => exact .local_ (.opens rfl hs) (goto_out ⟨rfl, fun _ => rfl⟩)
  | calls hf | closes hf => exact .local_ .none (goto_out ⟨rfl, fun _ => rfl⟩)
  | @fires f i hf hin => exact .local_ (.takes (i := i)) (goto_out ⟨rfl, fun _ => rfl⟩)
  | expires hf htmp =>
    exact .local_ .none (plain_out rfl (d := .idle _) ⟨rfl, fun _ => rfl⟩ rfl rfl rfl (fun _ h => h)
      fun _ hd => .inl hd)
  | enter hf => exact .local_ .none (enter_plain _ _)
  | direct hf hs => exact direct_move hf hs
  | doIo hf hs => exact doIo_move hf hs
  | manage hf =>
    unfold State.manage
    split
    · exact .local_ .none (plain_fault s _)
    · exact .local_ .none (plain_out (d := .user) rfl ⟨rfl, fun _ => rfl⟩ rfl rfl rfl (fun _ h => h)
        fun _ hd => .inl hd)
  | close hf => exact close_move hf
  | onTimer hf => exact onTimer_move hf
  | schedule hf =>
    refine .local_ (.pushes (q := scheduleAll (s.table.fibers ()) _) fun ft hft => ?_)
      (goto_out ⟨rfl, fun _ => rfl⟩)
    rw [scheduleAll_eq]
    exact List.mem_append_left _ hft
  | resumes hf hin => exact .resumes hf rfl
  | dispatch => exact onTable_wakes rfl fun _ u => .refl u
  | setTimeout | setUserNonblock =>
    exact .local_ .none ⟨rfl, rfl, rfl, fun _ _ h => h, fun _ _ h => h, fun _ hd => .inl hd⟩

end

end ShioSylar.Hook
