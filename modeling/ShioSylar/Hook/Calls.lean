import ShioSylar.Hook.Waiters

/-! What a step does to the calls of `do_io`.

`Onward` has one case for each way from one stage of `do_io` to the next, and `Comes` one for each
way out of it. A step takes one call a stage on, begins one or ends one, or it leaves the calls and
their timers aside; an `addEvent` may also end the process (`step_call`). -/
namespace ShioSylar.Hook
open Scheduler IOManager
open TimerManager (U64)

variable {ι φ : Type}

/-- Where a fiber is in `do_io`, if it is. -/
def Doing.call : Doing ι → Option (Stage × Call ι)
  | .io st c => some (st, c)
  | _ => none

theorem Doing.call_eq {x : Doing ι} {st : Stage} {c : Call ι} : x.call = some (st, c) ↔ x = .io st c := by
  cases x <;> simp [Doing.call]

/-- What `do_io` makes of a result that is neither EAGAIN nor EINTR. -/
def IoResult.ret : IoResult → Option Ret
  | .ok n => some (.ok n)
  | .fail e => some (.fail e)
  | .again | .intr => none

section
variable [LinearOrder ι]

/-- From one stage to the next, with the timers after it. -/
inductive Onward [DecidableEq φ] (s : State ι φ) (f : φ) (x : Choice ι) :
    Stage → Call ι → Stage → Call ι → TimerManager.State ι Info → Prop
  | interrupted {c} (hr : x.result = .intr) : Onward s f x .retry c .retry c s.timers
  | again {c} (hr : x.result = .again) :
      Onward s f x .retry c .addTimer { c with timer := none } s.timers
  | untimed {c} (hto : c.to_ = BitVec.allOnes 64) : Onward s f x .addTimer c .addEvent c s.timers
  | timed {c} (hto : c.to_ ≠ BitVec.allOnes 64) (hnew : s.timers.objects x.timer = none) :
      Onward s f x .addTimer c .addEvent { c with timer := some x.timer }
        (s.timers.addTimer x.timer c.to_ (some c.info) false x.now).2
  | added {c u} (hexec : exec s.table (.addEvent c.info.fd c.info.event ⟨some (), f⟩ none
        (x.ok && s.isOpen c.info.fd)) = .ok (.returned true, u)) :
      Onward s f x .addEvent c .yield { c with on := (s.opened c.info.fd).toList ++ c.on } s.timers
  | refused {c r u} (hexec : exec s.table (.addEvent c.info.fd c.info.event ⟨some (), f⟩ none
        (x.ok && s.isOpen c.info.fd)) = .ok (r, u)) (hr : r ≠ .returned true) :
      Onward s f x .addEvent c .failed c s.timers
  | yields {c} : Onward s f x .yield c .suspended c s.timers
  | disarms {c} : Onward s f x .resumed c .test c (s.cancelTimer c.timer).timers
  | retries {c} (hc : s.cancelled c.info = false) : Onward s f x .test c .retry c s.timers

/-- Out of `do_io`. -/
inductive Comes (s : State ι φ) (x : Choice ι) : Stage → Call ι → Ret → TimerManager.State ι Info → Prop
  | result {c ret} (hr : x.result.ret = some ret) : Comes s x .retry c ret s.timers
  | refused {c} : Comes s x .failed c (.fail .other) (s.cancelTimer c.timer).timers
  | timedOut {c} (hc : s.cancelled c.info = true) : Comes s x .test c (.fail .timedout) s.timers

/-- A fiber moves, and with it the timers and the log. -/
structure Goes [DecidableEq φ] (s t : State ι φ) (f : φ) (d : Doing ι) (m : TimerManager.State ι Info)
    (log : List Done) : Prop where
  doing : t.doing = Function.update s.doing f d
  timers : t.timers = m
  infos : t.infos = s.infos
  log : t.log = s.log ++ log

inductive CallStep [DecidableEq φ] (s : State ι φ) (a : Act ι φ) (t : State ι φ) : Prop
  | aside (hwork : ∀ f x, a = .work f x → (s.doing f).call = none)
      (hcall : ∀ f, (t.doing f).call = (s.doing f).call)
      (htimers : t.timers = s.timers ∨ ∃ now tmp, t.timers = (s.timers.listExpiredCb now tmp []).2)
      (hinfos : t.infos = s.infos) (hlog : t.log = s.log)
  | faults {f x c e} (ha : a = .work f x) (hf : s.doing f = .io .addEvent c)
      (hexec : exec s.table (.addEvent c.info.fd c.info.event ⟨some (), f⟩ none
        (x.ok && s.isOpen c.info.fd)) = .error e) (ht : t = { s with fault := some e })
  | begins {f x hook fd ms} (ha : a = .work f x) (hf : s.doing f = .enter hook fd)
      (hdoing : t.doing = Function.update s.doing f
        (.io .retry { hook := hook, info := ⟨s.infos, fd, hook.event⟩, to_ := ms }))
      (htimers : t.timers = s.timers) (hinfos : t.infos = s.infos + 1) (hlog : t.log = s.log)
  | onward {f x st c st' c' m} (ha : a = .work f x) (hf : s.doing f = .io st c)
      (hnext : Onward s f x st c st' c' m) (h : Goes s t f (.io st' c') m [])
  | resumes {f c} (ha : a = .resume f) (hf : s.doing f = .io .suspended c)
      (h : Goes s t f (.io .resumed c) s.timers [])
  | returns {f x st c ret at_ m} (ha : a = .work f x) (hf : s.doing f = .io st c) (hret : Comes s x st c ret m)
      (h : Goes s t f (State.after c.hook ret) m [⟨c.info, c.on, at_, ret⟩])

end

/-! ### Steps of `do_io` -/

section
variable [LinearOrder ι] [DecidableEq φ] {s t : State ι φ} {f : φ}

omit [LinearOrder ι] in
theorem call_update {x : Doing ι} (hx : x.call = (s.doing f).call) (f' : φ) :
    (Function.update s.doing f x f').call = (s.doing f').call := by
  by_cases hf : f' = f
  · rw [hf, Function.update_self, hx]
  · rw [Function.update_of_ne hf]

/-- A fiber outside `do_io` goes on there. -/
theorem aside_goto {a : Act ι φ} {x : Doing ι} (ha : ∀ f' x, a = .work f' x → f' = f)
    (hf : (s.doing f).call = none) (hx : x.call = none) (hdoing : t.doing = Function.update s.doing f x)
    (htimers : t.timers = s.timers) (hinfos : t.infos = s.infos) (hlog : t.log = s.log) : CallStep s a t :=
  .aside (fun f' x h => ha f' x h ▸ hf) (fun f' => hdoing ▸ call_update (hx.trans hf.symm) f') (.inl htimers)
    hinfos hlog

theorem aside_still {a : Act ι φ} (ha : ∀ f x, a = .work f x → (s.doing f).call = none)
    (hdoing : t.doing = s.doing) (htimers : t.timers = s.timers) (hinfos : t.infos = s.infos)
    (hlog : t.log = s.log) : CallStep s a t :=
  .aside ha (fun _ => by rw [hdoing]) (.inl htimers) hinfos hlog

omit [LinearOrder ι] [DecidableEq φ] in
theorem work_self {x : Choice ι} (f' : φ) (x' : Choice ι) (h : Act.work f x = .work f' x') : f' = f := by
  cases h
  rfl

omit [LinearOrder ι] [DecidableEq φ] in
theorem work_out {x : Choice ι} (hf : (s.doing f).call = none) (f' : φ) (x' : Choice ι)
    (h : Act.work f x = .work f' x') : (s.doing f').call = none := by
  cases h
  exact hf

omit [LinearOrder ι] [DecidableEq φ] in
theorem callFun_aside {hook : IoHook} {fd : Nat} {r : IoResult} (h : s.callFun hook fd r = some t) :
    t.doing = s.doing ∧ t.timers = s.timers ∧ t.infos = s.infos ∧ t.log = s.log := by
  rcases callFun_cases h with ⟨n, -, -, -, hn⟩ | ⟨rfl, -⟩
  · obtain ⟨-, rfl⟩ := openFd_eq hn
    exact ⟨rfl, rfl, rfl, rfl⟩
  · exact ⟨rfl, rfl, rfl, rfl⟩

theorem enter_call {x : Choice ι} {hook : IoHook} {fd : Nat} (hf : s.doing f = .enter hook fd) :
    CallStep s (.work f x) (s.enter f hook fd) := by
  have hnone : (s.doing f).call = none := by rw [hf]; rfl
  simp only [State.enter, FdManager.get_ctx]
  cases s.fds.ctx fd with
  | none => exact aside_goto work_self hnone (x := .direct hook fd) rfl rfl rfl rfl rfl
  | some ctx =>
    dsimp only
    split
    · exact aside_goto work_self hnone (x := .user) rfl rfl rfl rfl rfl
    · split
      · exact aside_goto work_self hnone (x := .direct hook fd) rfl rfl rfl rfl rfl
      · exact .begins rfl hf rfl rfl rfl rfl

omit [LinearOrder ι] [DecidableEq φ] in
theorem after_call (hook : IoHook) (ret : Ret) : (State.after hook ret : Doing ι).call = none := by
  unfold State.after
  cases ret with
  | ok n =>
    dsimp only
    split <;> rfl
  | fail e => rfl

theorem direct_call {x : Choice ι} {hook : IoHook} {fd : Nat} (hf : s.doing f = .direct hook fd)
    (h : s.direct f hook fd x.result = some t) : CallStep s (.work f x) t := by
  obtain ⟨s', hs, rfl⟩ := Option.map_eq_some_iff.mp h
  obtain ⟨hdoing, htimers, hinfos, hlog⟩ := callFun_aside hs
  have hnone : (s.doing f).call = none := by rw [hf]; rfl
  have hgoto : ∀ d : Doing ι, (s'.goto f d).doing = Function.update s.doing f d := fun d => by
    rw [State.goto, hdoing]
  split
  · exact aside_goto work_self hnone (after_call hook _) (hgoto _) htimers hinfos hlog
  · exact aside_goto work_self hnone (x := .user) rfl (hgoto _) htimers hinfos hlog

theorem doIo_call {x : Choice ι} {c : Call ι} {st : Stage} (hf : s.doing f = .io st c)
    (h : s.doIo f x c st = some t) : CallStep s (.work f x) t := by
  cases st with
  | retry =>
    obtain ⟨s', hs, rfl⟩ := Option.map_eq_some_iff.mp h
    obtain ⟨hdoing, htimers, hinfos, hlog⟩ := callFun_aside hs
    have hleave : ∀ ret, x.result.ret = some ret → CallStep s (.work f x) (s'.leave f c ret) := by
      intro ret hret
      have hdoing' : (s'.leave f c ret).doing = Function.update s.doing f (State.after c.hook ret) := by
        rw [State.leave, hdoing]
      have hlog' : (s'.leave f c ret).log = s.log ++ [⟨c.info, c.on, s'.opened c.info.fd, ret⟩] := by
        rw [State.leave, hlog]
      exact .returns rfl hf (.result hret) ⟨hdoing', htimers, hinfos, hlog'⟩
    cases hr : x.result with
    | intr =>
      refine .onward rfl hf (.interrupted hr) ⟨?_, htimers, hinfos, by rw [hlog, List.append_nil]⟩
      rw [← hf, Function.update_eq_self, hdoing]
    | again =>
      refine .onward rfl hf (.again hr) ⟨?_, htimers, hinfos, by rw [List.append_nil]; exact hlog⟩
      rw [State.goto, hdoing]
    | ok n => exact hleave _ (by rw [hr]; rfl)
    | fail e => exact hleave _ (by rw [hr]; rfl)
  | addTimer =>
    simp only [State.doIo] at h
    split at h
    · rename_i hto
      cases h
      exact .onward rfl hf (.untimed hto) ⟨rfl, rfl, rfl, (List.append_nil _).symm⟩
    · rename_i hto
      obtain ⟨hnew, h⟩ := Option.ite_none_left_eq_some.mp h
      cases h
      exact .onward rfl hf (.timed hto (by simpa using hnew)) ⟨rfl, rfl, rfl, (List.append_nil _).symm⟩
  | addEvent =>
    simp only [State.doIo, Option.some.injEq, State.onTable] at h
    split at h
    · rename_i r u hexec
      subst h
      split
      · rename_i hr
        rw [hr] at hexec
        exact .onward rfl hf (.added hexec) ⟨rfl, rfl, rfl, (List.append_nil _).symm⟩
      · rename_i hr
        exact .onward rfl hf (.refused hexec hr) ⟨rfl, rfl, rfl, (List.append_nil _).symm⟩
    · rename_i e hexec
      subst h
      exact .faults rfl hf hexec rfl
  | failed =>
    cases h
    obtain ⟨timers, fault, heq⟩ := cancelTimer_eq s c.timer
    rw [heq]
    refine .returns rfl hf .refused ⟨rfl, ?_, rfl, rfl⟩
    rw [heq]
    rfl
  | yield =>
    cases h
    exact .onward rfl hf .yields ⟨rfl, rfl, rfl, (List.append_nil _).symm⟩
  | suspended => cases h
  | resumed =>
    cases h
    refine .onward rfl hf .disarms ?_
    obtain ⟨timers, fault, heq⟩ := cancelTimer_eq s c.timer
    rw [heq]
    exact ⟨rfl, rfl, rfl, (List.append_nil _).symm⟩
  | test =>
    simp only [State.doIo, Option.some.injEq] at h
    subst h
    split
    · rename_i hc
      exact .returns rfl hf (.timedOut hc) ⟨rfl, rfl, rfl, rfl⟩
    · rename_i hc
      exact .onward rfl hf (.retries (by simpa using hc)) ⟨rfl, rfl, rfl, (List.append_nil _).symm⟩

/-! ### The others -/

theorem onTable_call {a : Act ι φ} (ha : ∀ f x, a = .work f x → (s.doing f).call = none) {op : Op Unit φ Info} {next : Answer → State ι φ → State ι φ}
    (hnext : ∀ r u, CallStep s a (next r { s with table := u })) : CallStep s a (s.onTable op next) := by
  unfold State.onTable
  split
  · exact hnext _ _
  · exact aside_still ha rfl rfl rfl rfl

theorem close_call {x : Choice ι} {fd : Nat} {st : CloseStage} (hf : s.doing f = .close st fd) :
    CallStep s (.work f x) (s.close f x fd st) := by
  have hnone : (s.doing f).call = none := by rw [hf]; rfl
  cases st with
  | lookup =>
    simp only [State.close]
    split
    · exact aside_still (work_out hnone) rfl rfl rfl rfl
    · exact aside_goto work_self hnone (x := .close .closeF fd) rfl rfl rfl rfl rfl
    · exact aside_goto work_self hnone (x := .close .cancelAll fd) rfl rfl rfl rfl rfl
  | cancelAll =>
    simp only [State.close]
    exact onTable_call (work_out hnone) fun r u => aside_goto work_self hnone (x := .close .del fd) rfl rfl rfl rfl rfl
  | del =>
    simp only [State.close]
    split
    · exact aside_still (work_out hnone) rfl rfl rfl rfl
    · exact aside_goto work_self hnone (x := .close .closeF fd) rfl rfl rfl rfl rfl
  | closeF => exact aside_goto work_self hnone (x := .user) rfl rfl rfl rfl rfl

theorem onTimer_call {x : Choice ι} {i : Info} {st : TimerStage} (hf : s.doing f = .onTimer st i) :
    CallStep s (.work f x) (s.onTimer f x i st) := by
  have hnone : (s.doing f).call = none := by rw [hf]; rfl
  cases st with
  | lock =>
    simp only [State.onTimer]
    split
    · exact aside_goto work_self hnone (x := .user) rfl rfl rfl rfl rfl
    · exact aside_goto work_self hnone (x := .onTimer .test i) rfl rfl rfl rfl rfl
  | test =>
    simp only [State.onTimer]
    split
    · exact aside_goto work_self hnone (x := .user) rfl rfl rfl rfl rfl
    · exact aside_goto work_self hnone (x := .onTimer .mark i) rfl rfl rfl rfl rfl
  | mark => exact aside_goto work_self hnone (x := .onTimer .cancelEvent i) rfl rfl rfl rfl rfl
  | cancelEvent =>
    simp only [State.onTimer]
    exact onTable_call (work_out hnone) fun r u => aside_goto work_self hnone (x := .user) rfl rfl rfl rfl rfl

/-- **What a step does to the calls.** -/
theorem step_call {a : Act ι φ} (h : step s a = some t) : CallStep s a t := by
  cases step_branch h with
  | @opens f fd u hf hs =>
    obtain ⟨-, rfl⟩ := openFd_eq hs
    exact aside_goto (by simp) (by rw [hf]; rfl) (x := .manage fd) rfl rfl rfl rfl rfl
  | @calls f hook fd hf =>
    exact aside_goto (by simp) (by rw [hf]; rfl) (x := .enter hook fd) rfl rfl rfl rfl rfl
  | @closes f fd hf =>
    exact aside_goto (by simp) (by rw [hf]; rfl) (x := .close .lookup fd) rfl rfl rfl rfl rfl
  | @fires f i hf hin =>
    exact aside_goto (by simp) (by rw [hf]; rfl) (x := .onTimer .lock i) rfl rfl rfl rfl rfl
  | @expires f now tmp hf htmp =>
    exact .aside (by simp) (call_update (x := .idle _) (by rw [hf]; rfl)) (.inr ⟨now, tmp, rfl⟩) rfl rfl
  | enter hf => exact enter_call hf
  | direct hf hs => exact direct_call hf hs
  | doIo hf hs => exact doIo_call hf hs
  | manage hf =>
    unfold State.manage
    split
    · exact aside_still (work_out (by rw [hf]; rfl)) rfl rfl rfl rfl
    · exact aside_goto work_self (by rw [hf]; rfl) (x := .user) rfl rfl rfl rfl rfl
  | close hf => exact close_call hf
  | onTimer hf => exact onTimer_call hf
  | schedule hf => exact aside_goto work_self (by rw [hf]; rfl) (x := .user) rfl rfl rfl rfl rfl
  | resumes hf hin => exact .resumes rfl hf ⟨rfl, rfl, rfl, (List.append_nil _).symm⟩
  | dispatch => exact onTable_call (by simp) fun r u => aside_still (by simp) rfl rfl rfl rfl
  | setTimeout | setUserNonblock => exact aside_still (by simp) rfl rfl rfl rfl

end

end ShioSylar.Hook
