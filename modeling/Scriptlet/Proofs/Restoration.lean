import Scriptlet.Proofs.Sessions
import Scriptlet.Proofs.Steps

namespace Scriptlet

/-!
# What is restored when something in progress is left

Blocks and calls change the current environment and the number of calls in progress. The
continuation remembers how both are to be put back, and every way out goes through it.

* `ExprCont.calls`, `StmtCont.calls` — the calls that a continuation still has to leave.
* `ExprCont.outer`, `StmtCont.outer` — the environment behind everything in progress.
* `Standing` — the environment, the number of calls and the recorded depths of a machine.
* `State.Returns st t` — once everything in progress in `t` is left, the machine stands at `st`.
* `State.Returns.step`, `State.Returns.steps` — steps keep that.
* `Machine.fixed` — the recorded depths and the functions of the host, which no run changes.
* `Machine.standing_restored` — whatever is evaluated, executed or called, the machine stands
  where it stood before, and between the requests of a session it stands in the globals.
-/

/-! ### What a continuation has to leave -/

mutual

/-- The functions whose calls end in the continuation, the innermost call first. -/
def ExprCont.calls : ExprCont → List Closure
  | .done => []
  | .assign _ _ k | .unary _ k | .left _ _ k | .right _ _ k | .logical _ _ k | .choose _ _ k
  | .callee _ _ k | .argument _ _ _ _ k | .property _ k | .fieldOwner _ _ k | .fieldValue _ _ k
  | .construct _ k => k.calls
  | .discard k | .print k | .define _ k | .branch _ _ k | .test _ _ k | .ret k => k.calls

/-- The functions whose calls end in the continuation, the innermost call first. -/
def StmtCont.calls : StmtCont → List Closure
  | .done => []
  | .sequence _ k | .leaveBlock _ k | .again _ _ k => k.calls
  | .leaveCall _ callee k => callee :: k.calls

end

mutual

/-- The environment that is current once everything in progress is left. -/
def ExprCont.outer : ExprCont → Env → Env
  | .done, env => env
  | .assign _ _ k, env | .unary _ k, env | .left _ _ k, env | .right _ _ k, env
  | .logical _ _ k, env | .choose _ _ k, env | .callee _ _ k, env | .argument _ _ _ _ k, env
  | .property _ k, env | .fieldOwner _ _ k, env | .fieldValue _ _ k, env
  | .construct _ k, env => k.outer env
  | .discard k, env | .print k, env | .define _ k, env | .branch _ _ k, env | .test _ _ k, env
  | .ret k, env => k.outer env

/-- The environment that is current once everything in progress is left. -/
def StmtCont.outer : StmtCont → Env → Env
  | .done, env => env
  | .sequence _ k, env | .again _ _ k, env => k.outer env
  | .leaveBlock outer k, _ => k.outer outer
  | .leaveCall caller _ k, _ => k.outer caller

end

/-! ### Standings -/

/-- What a run has to put back. -/
structure Standing where
  env : Env
  /-- The number of calls in progress. -/
  calls : Nat
  depths : Depths

/-- Where a machine stands. -/
def Machine.standing (m : Machine) : Standing := ⟨m.env, m.callDepth, m.depths⟩

/-- A machine that has `calls` to leave, and then `env` as its environment, comes back to the
    standing. -/
structure Standing.Awaits (st : Standing) (env : Env) (calls : List Closure) (m : Machine) :
    Prop where
  env : env = st.env
  calls : m.callDepth = st.calls + calls.length
  depths : m.depths = st.depths

variable {st : Standing} {host : Host} {fuel : Nat} {m m' m'' : Machine} {c c' : Cont}
  {t t' : State} {alone : Bool} {ss : List Stmt}

namespace Standing.Awaits

variable {env : Env} {calls : List Closure}

/-- Only the number of calls and the depths of the machine matter. -/
theorem congr (h : st.Awaits env calls m) (hc : m'.callDepth = m.callDepth)
    (hd : m'.depths = m.depths) : st.Awaits env calls m' :=
  ⟨h.env, hc.trans h.calls, hd.trans h.depths⟩

/-- One more call is in progress. -/
theorem enter (h : st.Awaits env calls m) (callee : Closure)
    (hc : m'.callDepth = m.callDepth + 1) (hd : m'.depths = m.depths) :
    st.Awaits env (callee :: calls) m' := by
  refine ⟨h.env, ?_, hd.trans h.depths⟩
  rw [hc, h.calls, List.length_cons, Nat.add_assoc]

/-- The innermost call is left. -/
theorem leave {callee : Closure} (h : st.Awaits env (callee :: calls) m)
    (hc : m'.callDepth = m.callDepth - 1) (hd : m'.depths = m.depths) :
    st.Awaits env calls m' := by
  have hcalls := h.calls
  rw [List.length_cons] at hcalls
  exact ⟨h.env, by omega, hd.trans h.depths⟩

end Standing.Awaits

mutual

/-- **Unwinding.** An error puts back the environment and takes off the calls that the
    continuation has to leave, and changes nothing else. -/
theorem ExprCont.unwind_eq_left : ∀ (k : ExprCont) (m : Machine), k.unwind m =
    { m with env := k.outer m.env, callDepth := m.callDepth - k.calls.length }
  | .done, _ => rfl
  | .assign _ _ k, m | .unary _ k, m | .left _ _ k, m | .right _ _ k, m | .logical _ _ k, m
  | .choose _ _ k, m | .callee _ _ k, m | .argument _ _ _ _ k, m | .property _ k, m
  | .fieldOwner _ _ k, m | .fieldValue _ _ k, m | .construct _ k, m => k.unwind_eq_left m
  | .discard k, m | .print k, m | .define _ k, m | .branch _ _ k, m | .test _ _ k, m
  | .ret k, m => k.unwind_eq_left m

/-- `ExprCont.unwind_eq_left` for what waits for a statement. -/
theorem StmtCont.unwind_eq_left : ∀ (k : StmtCont) (m : Machine), k.unwind m =
    { m with env := k.outer m.env, callDepth := m.callDepth - k.calls.length }
  | .done, _ => rfl
  | .sequence _ k, m | .again _ _ k, m => k.unwind_eq_left m
  | .leaveBlock env k, m => k.unwind_eq_left { m with env }
  | .leaveCall env _ k, m => by
    have hk := k.unwind_eq_left { m with env, callDepth := m.callDepth - 1 }
    rw [Nat.sub_sub, Nat.add_comm] at hk
    exact hk

end

/-- A machine that awaits a standing has it once everything in progress is left. -/
theorem Standing.Awaits.standing_left {env : Env} {calls : List Closure}
    (h : st.Awaits env calls m) :
    Machine.standing { m with env, callDepth := m.callDepth - calls.length } = st := by
  obtain ⟨henv, hcalls, hdepths⟩ := h
  show (⟨env, m.callDepth - calls.length, m.depths⟩ : Standing) = ⟨st.env, st.calls, st.depths⟩
  rw [henv, hcalls, hdepths, Nat.add_sub_cancel]

/-- The functions whose calls end in the continuation, the innermost call first. -/
def Cont.calls : Cont → List Closure
  | .expr k => k.calls
  | .stmt k => k.calls

/-- The environment that is current once everything in progress is left. -/
def Cont.outer : Cont → Env → Env
  | .expr k => k.outer
  | .stmt k => k.outer

/-- `ExprCont.unwind_eq_left` and `StmtCont.unwind_eq_left`. -/
theorem Cont.unwind_eq_left (c : Cont) (m : Machine) : c.unwind m =
    { m with env := c.outer m.env, callDepth := m.callDepth - c.calls.length } := by
  cases c with
  | expr k => exact k.unwind_eq_left m
  | stmt k => exact k.unwind_eq_left m

/-- Unwinding comes to the standing that is awaited. -/
theorem Cont.standing_unwind (c : Cont) (m : Machine)
    (h : st.Awaits (c.outer m.env) c.calls m) : (c.unwind m).standing = st := by
  rw [c.unwind_eq_left]
  exact h.standing_left

/-! ### States that come back -/

/-- Once everything in progress is left, the machine stands at `st`. A variable out of place ends
    a run for good, and nothing is put back. -/
def State.Returns (st : Standing) : State → Prop
  | .eval _ k m => st.Awaits (k.outer m.env) k.calls m
  | .exec _ k m => st.Awaits (k.outer m.env) k.calls m
  | .value _ k m => st.Awaits (k.outer m.env) k.calls m
  | .flow _ k m => st.Awaits (k.outer m.env) k.calls m
  | .failed _ m => m.standing = st
  | .desync _ _ => True

/-- Most parts of a continuation have nothing to leave. -/
theorem Cont.outer_of_isPlain (hrest : c.rest? = some c') (hplain : c.isPlain = true) (env : Env) :
    c.outer env = c'.outer env ∧ c.calls = c'.calls := by
  cases c with
  | expr k => cases k <;> cases hrest <;> exact ⟨rfl, rfl⟩
  | stmt k =>
    cases k with
    | leaveBlock | leaveCall => cases hplain
    | done => cases hrest
    | sequence | again => cases hrest; exact ⟨rfl, rfl⟩

/-- What is entered is left again. -/
theorem Standing.Awaits.grows (h : st.Awaits (c.outer m.env) c.calls m)
    (hgrows : c.Grows host m c' m') : st.Awaits (c'.outer m'.env) c'.calls m' := by
  induction hgrows with
  | refl => exact h
  | alter _ ha ih =>
    rw [ha]
    exact ih.congr rfl rfl
  | part _ hrest hplain ih =>
    obtain ⟨houter, hcalls⟩ := Cont.outer_of_isPlain hrest hplain _
    rw [houter, hcalls]
    exact ih
  | block _ ih => exact ih.congr rfl rfl
  | call _ _ ih => exact ih.enter _ rfl rfl

/-- What a step takes off its continuation is left. -/
theorem State.Returns.drops (ht : t.Returns st) (hdrops : t.Drops c m) :
    st.Awaits (c.outer m.env) c.calls m := by
  cases hdrops with
  | eval | exec => exact ht
  | @value v k m c hrest => cases k <;> cases hrest <;> exact ht
  | @flow f k m c hrest =>
    cases k with
    | done => cases hrest
    | sequence | again => cases hrest; exact ht
    | leaveBlock => cases hrest; exact Standing.Awaits.congr ht rfl rfl
    | leaveCall => cases hrest; exact Standing.Awaits.leave ht rfl rfl

/-- **Steps come back.** Whatever a step does, the machine comes back to the same standing. -/
theorem State.Returns.step (ht : t.Returns st) (host : Host) :
    (Scriptlet.step host t).Returns st := by
  obtain ⟨-, hsame⟩ | ⟨c, m, hdrops, hgoes⟩ := t.step_cases host
  · rw [hsame]
    exact ht
  · have hc := ht.drops hdrops
    generalize Scriptlet.step host t = t' at hgoes ⊢
    cases hgoes with
    | eval hg | exec hg | value hg | flow hg => exact hc.grows hg
    | wrote heq =>
      cases heq
      exact hc.congr rfl rfl
    | full => exact Cont.standing_unwind _ _ (hc.congr rfl rfl)
    | failed => exact Cont.standing_unwind _ _ hc
    | desync => trivial

/-- By induction on the number of steps. -/
theorem State.Returns.steps (ht : t.Returns st) (host : Host) (n : Nat) :
    ((Scriptlet.step host)^[n] t).Returns st :=
  Function.Iterate.rec (State.Returns st) ht (fun _ h => h.step host) n

/-- A finished run that comes back has come back. -/
theorem State.Returns.standing (ht : t.Returns st) (hfinal : t.isFinal = true)
    (hdesync : t.isDesync = false) : t.machine.standing = st := by
  cases t with
  | eval | exec => cases hfinal
  | value v k m =>
    cases k with
    | done => exact Cont.standing_unwind (.expr .done) m ht
    | _ => cases hfinal
  | flow f k m =>
    cases k with
    | done => exact Cont.standing_unwind (.stmt .done) m ht
    | _ => cases hfinal
  | failed e m => exact ht
  | desync d m => cases hdesync

/-! ### Runs that come back -/

/-- A run to the end has come back, unless a variable was out of place. -/
theorem standing_of_runSteps (ht : t.Returns st) (hrun : runSteps host fuel t = some t')
    (hdesync : t'.isDesync = false) : t'.machine.standing = st := by
  obtain ⟨rfl, hfinal⟩ := eq_iterate_of_runSteps hrun
  exact (ht.steps host fuel).standing hfinal hdesync

/-- A statement starts in a state that comes back to where the machine stands. -/
theorem Machine.returns_begin (alone : Bool) (s : Stmt) (m : Machine) :
    (m.begin alone s).Returns m.standing := by
  unfold Machine.begin
  split <;> exact ⟨rfl, rfl, rfl⟩

/-- Evaluating an expression puts everything back. -/
theorem Machine.standing_evaluate {e : Expr} {o : Outcome Value}
    (h : m.evaluate host fuel e = some (o, m')) (ho : o.isDesync = false) :
    m'.standing = m.standing := by
  have hstart : (State.eval e .done m).Returns m.standing := ⟨rfl, rfl, rfl⟩
  unfold Machine.evaluate at h
  split at h
  · next hrun => cases h; exact standing_of_runSteps hstart hrun rfl
  · next hrun => cases h; exact standing_of_runSteps hstart hrun rfl
  · cases h; cases ho
  · cases h

/-- Executing a statement puts everything back. -/
theorem Machine.standing_execute {s : Stmt} {o : Outcome Flow}
    (h : m.execute host fuel s = some (o, m')) (ho : o.isDesync = false) :
    m'.standing = m.standing := by
  obtain ⟨t, hrun, rfl, hdesync⟩ := Machine.runSteps_of_execute h
  exact standing_of_runSteps (m.returns_begin false s) hrun (hdesync.trans ho)

/-- Executing a body in another environment puts everything back. -/
theorem Machine.standing_executeBlock {body : List Stmt} {env : Env} {o : Outcome Flow}
    (h : m.executeBlock host fuel body env = some (o, m')) (ho : o.isDesync = false) :
    m'.standing = m.standing := by
  have hstart : (State.flow .normal (.sequence body (.leaveBlock m.env .done))
      { m with env }).Returns m.standing := ⟨rfl, rfl, rfl⟩
  unfold Machine.executeBlock at h
  split at h
  · next hrun => cases h; exact standing_of_runSteps hstart hrun rfl
  · next hrun => cases h; exact standing_of_runSteps hstart hrun rfl
  · cases h; cases ho
  · cases h

/-- What a call yields is read off the machine, which stays as it is. -/
theorem Step.machine_callResult (callee : Closure) (f : Flow) (k : ExprCont) (m : Machine) :
    (Step.callResult callee f k m).machine = m := by
  unfold Step.callResult
  split
  · split <;> rfl
  · split <;> rfl

/-- A call puts everything back, for its body is executed in an environment of its own. -/
theorem Machine.standing_callFunction {callee : Closure} {arguments : List Value}
    {o : Outcome Value} (h : m.callFunction host fuel callee arguments = some (o, m'))
    (ho : o.isDesync = false) : m'.standing = m.standing := by
  have hbody {m₁ : Machine} {o : Outcome Flow} (hrun : Machine.executeBlock host fuel
      callee.decl.body (m.store.frames.size :: callee.env)
      (m.newFrame ((callee.decl.params.map (·.lexeme)).zip arguments)).2 = some (o, m₁))
      (ho : o.isDesync = false) : m₁.standing = m.standing :=
    (Machine.standing_executeBlock hrun ho).trans rfl
  unfold Machine.callFunction at h
  simp only at h
  split at h
  · next hrun =>
    split at h
    · next heq =>
      cases h
      have hmachine := congrArg State.machine heq
      rw [Step.machine_callResult] at hmachine
      rw [← show _ = m' from hmachine]
      exact hbody hrun rfl
    · cases h; cases ho
    · cases h
  · next hrun => cases h; exact hbody hrun rfl
  · cases h; cases ho
  · cases h

/-! ### What no run changes -/

/-- The recorded depths, the functions of the host, and whether the output can be flushed. -/
def Machine.fixed (m : Machine) : Depths × Array Native × Bool :=
  (m.depths, m.natives, m.sink.flushFails)

/-- Writing does not change whether flushing fails. -/
theorem Sink.flushFails_write (s : Sink) (text : String) :
    (s.write text).2.flushFails = s.flushFails := by
  unfold Sink.write
  split
  · rfl
  · simp only
    split <;> rfl

/-- Nothing is written, no call is entered that there is no room for, and neither depths nor
    functions of the host are new. -/
structure Machine.Quiet (host : Host) (m m' : Machine) : Prop where
  sink : m'.sink = m.sink
  calls : m.callDepth ≤ host.maxCalls → m'.callDepth ≤ host.maxCalls
  depths : m'.depths = m.depths
  natives : m'.natives = m.natives

/-- Nothing is done. -/
theorem Machine.Quiet.refl (m : Machine) : m.Quiet host m := ⟨rfl, id, rfl, rfl⟩

/-- One thing is done after the other. -/
theorem Machine.Quiet.trans (h : m.Quiet host m') (h' : m'.Quiet host m'') : m.Quiet host m'' :=
  ⟨h'.sink.trans h.sink, h'.calls ∘ h.calls, h'.depths.trans h.depths,
    h'.natives.trans h.natives⟩

/-- At most, calls are left. -/
theorem Machine.Quiet.leave (m : Machine) (env : Env) (calls : Nat) :
    m.Quiet host { m with env, callDepth := m.callDepth - calls } :=
  ⟨rfl, fun h => (Nat.sub_le _ _).trans h, rfl, rfl⟩

/-- A call that is entered has room, by `Cont.Grows.call`. -/
theorem Cont.Grows.quiet (h : c.Grows host m c' m') : m.Quiet host m' := by
  induction h with
  | refl => exact .refl _
  | alter _ ha ih =>
    refine ih.trans ?_
    rw [ha]
    exact ⟨rfl, id, rfl, rfl⟩
  | part _ _ _ ih => exact ih
  | block _ ih => exact ih.trans ⟨rfl, id, rfl, rfl⟩
  | call _ hroom ih => exact ih.trans ⟨rfl, fun _ => hroom, rfl, rfl⟩

/-- Unwinding leaves calls only. -/
theorem Cont.quiet_unwind (c : Cont) (m : Machine) : m.Quiet host (c.unwind m) := by
  rw [c.unwind_eq_left]
  exact .leave _ _ _

/-- What a step takes off its continuation may leave a call. -/
theorem State.Drops.quiet (h : t.Drops c m) : t.machine.Quiet host m := by
  cases h with
  | eval | exec | value => exact .refl _
  | @flow f k m =>
    cases k with
    | leaveBlock => exact .leave m _ 0
    | leaveCall => exact .leave m _ 1
    | done | sequence | again => exact .refl m

/-- **What a step may do** to the machine: at most one text is written. -/
theorem State.quiet_step (host : Host) (t : State) :
    t.machine.Quiet host (step host t).machine ∨
      ∃ text, Machine.Quiet host { t.machine with sink := (t.machine.sink.write text).2 }
        (step host t).machine := by
  obtain ⟨-, hsame⟩ | ⟨c, m, hdrops, hgoes⟩ := t.step_cases host
  · rw [hsame]
    exact .inl (.refl _)
  · have hq : t.machine.Quiet host m := hdrops.quiet
    have hwrote (text : String) : Machine.Quiet host
        { t.machine with sink := (t.machine.sink.write text).2 }
        { m with sink := (m.sink.write text).2 } :=
      ⟨by rw [hq.sink], hq.calls, hq.depths, hq.natives⟩
    generalize step host t = t' at hgoes ⊢
    cases hgoes with
    | eval hg | exec hg | value hg | flow hg => exact .inl (hq.trans hg.quiet)
    | wrote => exact .inr ⟨_, hwrote _⟩
    | full => exact .inr ⟨_, (hwrote _).trans (c.quiet_unwind _)⟩
    | failed => exact .inl (hq.trans (c.quiet_unwind m))
    | desync => exact .inl hq

/-- No step records a depth or defines a function of the host. -/
theorem fixed_step (host : Host) (t : State) :
    (step host t).machine.fixed = t.machine.fixed := by
  unfold Machine.fixed
  obtain hquiet | ⟨text, hquiet⟩ := t.quiet_step host
  · rw [hquiet.depths, hquiet.natives, hquiet.sink]
  · rw [hquiet.depths, hquiet.natives, hquiet.sink, Sink.flushFails_write]

/-- By induction on the number of steps. -/
theorem fixed_steps (host : Host) (n : Nat) (t : State) :
    ((step host)^[n] t).machine.fixed = t.machine.fixed := by
  induction n generalizing t with
  | zero => rfl
  | succ n ih => rw [Function.iterate_succ_apply, ih, fixed_step]

/-- A run to the end changes none of this. -/
theorem fixed_of_runSteps (h : runSteps host fuel t = some t') :
    t'.machine.fixed = t.machine.fixed := by
  obtain ⟨rfl, -⟩ := eq_iterate_of_runSteps h
  exact fixed_steps host fuel t

/-- A statement starts with the machine as it is. -/
theorem Machine.machine_begin (alone : Bool) (s : Stmt) (m : Machine) :
    (m.begin alone s).machine = m := by
  unfold Machine.begin
  split <;> rfl

/-- Executing a statement changes none of this. -/
theorem Machine.fixed_execute {s : Stmt} {o : Outcome Flow}
    (h : m.execute host fuel s = some (o, m')) : m'.fixed = m.fixed := by
  obtain ⟨t, hrun, rfl, -⟩ := Machine.runSteps_of_execute h
  rw [fixed_of_runSteps hrun, Machine.machine_begin]

/-- Running a program changes none of this. -/
theorem Machine.Finishes.fixed (h : m.Finishes host fuel alone ss t) :
    t.machine.fixed = m.fixed := by
  induction h with
  | nil => rfl
  | last hrun _ => rw [fixed_of_runSteps hrun, Machine.machine_begin]
  | next hnext _ ih =>
    obtain ⟨t, hrun, rfl, -⟩ := Machine.runSteps_of_goOn hnext
    rw [ih, fixed_of_runSteps hrun, Machine.machine_begin]

/-- `Machine.Finishes.fixed`, with the end of the program. -/
theorem Machine.fixed_interpret {o : Outcome Unit}
    (hrun : m.interpret host fuel ss = some (o, m')) : m'.fixed = m.fixed := by
  obtain ⟨t, hfinishes, hcloses⟩ := Machine.finishes_of_interpret hrun
  rw [← hfinishes.fixed]
  cases hcloses <;> rfl

/-- `Machine.Finishes.fixed`, for statements whose values are shown. -/
theorem Session.fixed_results {rs : Except Desync (List (Result × Machine))}
    (hrun : Session.results host fuel ss m = some (rs, m')) : m'.fixed = m.fixed := by
  obtain ⟨t, hfinishes, rfl, -⟩ := Session.finishes_of_results hrun
  exact hfinishes.fixed

/-- So does a request that runs one. -/
theorem Request.fixed_perform {r : Request} {s s' : Session} {job : Job} {goesOn : Bool}
    (hr : r.perform host fuel s = some (goesOn, s')) (hj : r.job? s = some job) :
    s'.machine.fixed = job.machine.fixed := by
  obtain ⟨job', t, source, hj', hfinishes, -, hmachine, -⟩ | ⟨source, hj', -⟩ | ⟨n, rfl, -⟩ :=
    Request.perform_cases hr
  · cases hj.symm.trans hj'
    rw [← hfinishes.fixed]
    obtain hmachine | hmachine := hmachine
    · rw [hmachine]
    · rw [hmachine]
      rfl
  · cases hj.symm.trans hj'
  · cases hj

/-! ### Sessions at rest -/

/-- Nothing is in progress: the globals are the environment, and there is no call. -/
structure Machine.AtRest (m : Machine) : Prop where
  env : m.env = Machine.globals
  calls : m.callDepth = 0

variable {s s' : Session}

/-- Machines that stand alike are at rest alike. -/
theorem Machine.AtRest.of_standing (hm : m.AtRest) (hs : m'.standing = m.standing) :
    m'.AtRest := by
  obtain ⟨henv, hcalls, -⟩ := Standing.mk.inj hs
  exact ⟨henv.trans hm.env, hcalls.trans hm.calls⟩

/-- A statement that lets the program go on leaves the machine where it stood. -/
theorem Machine.standing_goOn {s : Stmt} (h : m.goOn host fuel alone s = some m') :
    m'.standing = m.standing := by
  obtain ⟨t, hrun, rfl, hdesync⟩ := Machine.runSteps_of_goOn h
  exact standing_of_runSteps (m.returns_begin alone s) hrun hdesync

/-- Running a program leaves the machine at rest. -/
theorem Machine.Finishes.atRest (h : m.Finishes host fuel alone ss t) (hm : m.AtRest)
    (hdesync : t.isDesync = false) : t.machine.AtRest := by
  induction h with
  | nil => exact hm
  | last hrun _ => exact hm.of_standing (standing_of_runSteps (returns_begin _ _ _) hrun hdesync)
  | next hnext _ ih => exact ih (hm.of_standing (Machine.standing_goOn hnext)) hdesync

/-- A request that lets the session go on leaves it at rest. -/
theorem Request.atRest_perform {r : Request} (hs : s.machine.AtRest)
    (hr : r.perform host fuel s = some (true, s')) : s'.machine.AtRest := by
  obtain ⟨job, t, source, hj, hfinishes, hgoesOn, hmachine, -⟩ | ⟨source, -, -, -, rfl⟩ |
    ⟨n, rfl, -, rfl⟩ := Request.perform_cases hr
  · -- Reading a source changes nothing but the recorded depths.
    have hjob : job.machine.AtRest := by
      obtain ⟨source, -, -, hjob | ⟨-, hjob⟩⟩ := Request.job_cases hj
      · rw [hjob]
        exact ⟨hs.env, hs.calls⟩
      · rw [hjob]
        exact hs
    have hrest := hfinishes.atRest hjob (by simpa using hgoesOn.symm)
    obtain hmachine | hmachine := hmachine
    · rw [hmachine]
      exact hrest
    · rw [hmachine]
      exact ⟨rfl, hrest.calls⟩
  · exact ⟨hs.env, hs.calls⟩
  · exact ⟨hs.env, hs.calls⟩

/-- Between two requests a session is at rest. -/
theorem Session.After.atRest {sink : Sink} {rs : List Request} {h : History}
    (hs : Session.After host sink rs s h) : s.machine.AtRest := by
  induction hs with
  | new => exact ⟨rfl, rfl⟩
  | next _ hr ih =>
    have hrest := Request.atRest_perform ih hr
    exact ⟨hrest.env, hrest.calls⟩

/-- **Everything is put back.** On every machine, whatever an expression, a statement, a list of
    statements in any environment, or a function with any arguments does: if it ends otherwise
    than by a variable out of place — with a value, by falling through, by a `return`, by an
    error however deep, or because the output could not be written — then the environment, the
    number of calls in progress and the recorded depths are what they were before. So between any
    two requests of a session the globals are the environment, and no call is in progress. -/
theorem Machine.standing_restored (host : Host) (fuel : Nat) :
    (∀ (m m' : Machine) (e : Expr) (o : Outcome Value),
      m.evaluate host fuel e = some (o, m') → o.isDesync = false → m'.standing = m.standing) ∧
    (∀ (m m' : Machine) (s : Stmt) (o : Outcome Flow),
      m.execute host fuel s = some (o, m') → o.isDesync = false → m'.standing = m.standing) ∧
    (∀ (m m' : Machine) (body : List Stmt) (env : Env) (o : Outcome Flow),
      m.executeBlock host fuel body env = some (o, m') → o.isDesync = false →
        m'.standing = m.standing) ∧
    (∀ (m m' : Machine) (callee : Closure) (arguments : List Value) (o : Outcome Value),
      m.callFunction host fuel callee arguments = some (o, m') → o.isDesync = false →
        m'.standing = m.standing) ∧
    (∀ (sink : Sink) (rs : List Request) (s : Session) (h : History),
      Session.After host sink rs s h →
        s.machine.env = Machine.globals ∧ s.machine.callDepth = 0) :=
  ⟨fun _ _ _ _ h ho => Machine.standing_evaluate h ho,
    fun _ _ _ _ h ho => Machine.standing_execute h ho,
    fun _ _ _ _ _ h ho => Machine.standing_executeBlock h ho,
    fun _ _ _ _ _ h ho => Machine.standing_callFunction h ho,
    fun _ _ _ _ h => ⟨h.atRest.env, h.atRest.calls⟩⟩

/-- A call inside of a block, and inside of the call a block that an error ends. -/
def Session.errorInCall : String :=
  "\x7b fun f(n) \x7b \x7b return -n; \x7d \x7d f(\"a\"); \x7d"

/-- That statement ends with the error, two blocks and a call deep, and everything is put back. -/
theorem Machine.standing_restored_errorInCall :
    ∃ (m m' : Machine) (s : Stmt) (t : Token),
      m.execute (Host.usual fun _ => 0) 30 s =
        some (.failed (.runtime t .operandNotNumber), m') ∧
      m'.standing = m.standing := by
  let a := (Session.new Sink.unbounded).analyze Session.errorInCall
  have hrun : (a.2.machine.execute (Host.usual fun _ => 0) 30
      (a.1.statements.headD (.block []))).any (fun r => match r.1 with
        | .failed (.runtime _ fault) => fault = .operandNotNumber
        | _ => false) = true := by decide +kernel
  obtain ⟨⟨o, m'⟩, hexec, ho⟩ := (Option.any_eq_true _ _).1 hrun
  cases o with
  | failed e =>
    cases e with
    | runtime t fault =>
      cases of_decide_eq_true ho
      exact ⟨_, m', _, t, hexec, (Machine.standing_restored _ 30).2.1 _ _ _ _ hexec rfl⟩
    | lexical | grammar | scope | output | encoding => cases ho
  | finished | desync => cases ho

end Scriptlet
