import Scriptlet.Proofs.Control
import Scriptlet.Proofs.Likeness
import Scriptlet.Session

namespace Scriptlet

/-!
# Runs in lock step

Programs that are alike run alike: step by step, and so also as a whole.

* `State.LikeFrom` — states that are alike once the frames made meanwhile are marked too.
* `State.Like.step` — one step from states that are alike.
* `State.Like.runSteps` — as many steps as it takes, or as are allowed.
* `Machine.Like.interpret` — the statements of two programs that are alike end alike on machines
  that are alike, and they leave machines that are alike; `Machine.Like.results` — so do statements
  that run on their own.
* `Machine.Like.shows_iff` — whether they end or not, such programs have written the same at some
  moment.
-/

/-- States that are alike once the frames made meanwhile are marked too. -/
def State.LikeFrom (c : Likeness) (frames : List Bool) (t t' : State) : Prop :=
  ∃ frames', frames <+: frames' ∧ State.Like c frames' t t'

section

variable {c : Likeness} {frames around : List Bool} {t t' : State}

/-- The same frames are marked. -/
theorem State.LikeFrom.now (h : State.Like c frames t t') : State.LikeFrom c frames t t' :=
  ⟨frames, List.prefix_rfl, h⟩

end

variable {c : Likeness} {frames around : List Bool} {m m' : Machine} {t t' : State}

/-- Functions that are alike, made in the current environment. -/
theorem Machine.Like.closure (hm : Machine.Like c frames around m m') {f f' : FunDecl}
    (h : FunDecl.Like c around f f') :
    Closure.Like c frames ⟨f, m.env, false⟩ ⟨f', m'.env, false⟩ :=
  ⟨hm.env, rfl, around, hm.marked, h⟩

/-- Classes that are alike, declared in the current environment. -/
theorem Machine.Like.class (hm : Machine.Like c frames around m m') {name name' : String}
    {fs fs' : List FunDecl} (hname : name' = name)
    (h : Node.Like c (false :: around) (.functions fs) (.functions fs')) :
    Class.Like c frames ⟨name, fs, m.env⟩ ⟨name', fs', m'.env⟩ :=
  ⟨hname, hm.env, around, hm.marked, h⟩

/-! ### Parts of a step -/

namespace Step

variable {c : Likeness} {frames around : List Bool} {k k' : ExprCont} {m m' : Machine}

section

variable (hk : ExprCont.Like c frames around k k') (hm : Machine.Like c frames around m m')

include hk hm

variable {id id' : NodeId} {name name' paren paren' : Token} {v v' : Value}
  {arguments arguments' : List Value} {host : Host}

/-- A fault, told at tokens that are alike. -/
theorem like_faultAt {t t' : Token} (ht : c.token t t') (fault : RuntimeFault) :
    State.Like c frames (faultAt t fault k m) (faultAt t' fault k' m') :=
  .failed (.runtime fault ht) (hk.unwind hm)

/-- The result of an operator, be it a value or a fault. -/
theorem like_operatorResult {op op' : Token} {r r' : Except RuntimeFault Value}
    (ht : c.token op op') (hr : Value.ResultLike c frames r r') :
    State.Like c frames (operatorResult op r k m) (operatorResult op' r' k' m') := by
  cases hr with
  | ok hv => exact .value hv hk hm
  | error fault => exact like_faultAt hk hm ht fault

/-- Variables that refer to the same scope read values that are alike, whatever their names. -/
theorem like_readVariable (h : c.Refers around id id' name name') :
    State.Like c frames (readVariable id name k m) (readVariable id' name' k' m') := by
  unfold readVariable
  cases h with
  | @bound d h hused hname =>
    obtain ⟨hd, hd'⟩ := hm.depths h
    -- the frame at this distance is marked like the scope, so it holds the other name iff this one
    simp only [hd, hd', hm.env, hname.lexeme]
    exact rel_elim (hm.store.lookupAt? hm.marked d name.lexeme) (.desync ⟨rfl, hused, _, rfl⟩ hm)
      fun _ _ hv => .value hv hk hm
  | free h hname =>
    obtain ⟨hd, hd'⟩ := hm.depths h
    simp only [hd, hd', c.lexeme_eq hname]
    exact rel_elim (hm.store.lookup?_globals name.lexeme) (like_faultAt hk hm hname _)
      fun _ _ hv => .value hv hk hm

/-- Assignments to such variables write to the same frame. -/
theorem like_writeVariable (h : c.Refers around id id' name name') (hv : Value.Like c frames v v') :
    State.Like c frames (writeVariable id name v k m) (writeVariable id' name' v' k' m') := by
  simp only [writeVariable_eq]
  cases h with
  | @bound d h hused hname =>
    obtain ⟨hd, hd'⟩ := hm.depths h
    simp only [hd, hd', hm.env, hname.lexeme, hm.store.holderAt?_eq hm.marked]
    cases hf : m.store.holderAt? m.env d name.lexeme with
    | some f =>
      have hframe := Store.Like.getElem?_holderAt? hm.marked hf
      exact .value hv hk (hm.defineIn hframe hv name.lexeme)
    | none => exact .desync ⟨rfl, hused, _, rfl⟩ hm
  | free h hname =>
    obtain ⟨hd, hd'⟩ := hm.depths h
    simp only [hd, hd', c.lexeme_eq hname, hm.store.holder?_globals_eq]
    cases hf : m.store.holder? Machine.globals name.lexeme with
    | some f =>
      cases Store.Like.eq_zero_of_holder?_globals hf
      exact .value hv hk (hm.defineIn hm.store.globals hv name.lexeme)
    | none => exact like_faultAt hk hm hname _

/-- Fields and methods have the same names on both sides. -/
theorem like_readProperty (ht : c.token name name') (hv : Value.Like c frames v v') :
    State.LikeFrom c frames (readProperty v name k m) (readProperty v' name' k' m') := by
  cases hv with
  | @object id cls cls' hcls =>
    simp only [readProperty, c.lexeme_eq ht]
    refine rel_elim (hm.store.fields id name.lexeme) ?_ fun _ _ hv => .now (.value hv hk hm)
    refine rel_elim (hcls.method? name.lexeme) (.now (like_faultAt hk hm ht _)) fun f f' h => ?_
    obtain ⟨henv, hinit, outer, hmarked, hcode⟩ := h
    have hp : frames <+: frames ++ [false] := List.prefix_append _ _
    obtain ⟨hbound, hm'⟩ := hm.bindMethod henv hinit hmarked hcode (.object hcls)
    obtain ⟨hv, hm''⟩ := hm'.newFunction hbound
    exact ⟨_, hp, .value hv (hk.mono hp) hm''⟩
  | _ => exact .now (like_faultAt hk hm ht _)

/-- The parameters get a frame that is marked like their scope. -/
theorem like_enter {f f' : Closure} (hf : Closure.Like c frames f f')
    (ha : List.Forall₂ (Value.Like c frames) arguments arguments') :
    State.LikeFrom c frames (enter f arguments k m) (enter f' arguments' k' m') := by
  obtain ⟨outer, hmarked, hcode⟩ := hf.code
  cases hcode with
  | function marked hname hparams hbody =>
    have hp : frames <+: frames ++ [marked] := List.prefix_append _ _
    have hvars := forall₂_zip (c.name marked) ha (f.decl.params.map (·.lexeme))
    rw [← Likeness.lexemes_eq hparams] at hvars
    obtain ⟨hframe, hnew, hm'⟩ := hm.newFrame marked hvars
    unfold enter
    rw [hm.env]
    refine ⟨_, hp, .flow .normal (.sequence hbody (.leaveCall (hm.marked.mono hp) (hf.mono hp)
      (hk.mono hp))) ?_⟩
    exact { hm' with
      env := congrArg₂ List.cons hframe hf.env
      marked := .cons hnew (hmarked.mono hp)
      callDepth := congrArg (· + 1) hm.callDepth }

/-- A new object, with its initializer called on it. -/
theorem like_instantiate {cls cls' : Class} (hcls : Class.Like c frames cls cls')
    (ha : List.Forall₂ (Value.Like c frames) arguments arguments') :
    State.LikeFrom c frames (instantiate cls arguments k m)
      (instantiate cls' arguments' k' m') := by
  have hnew : Machine.Like c frames around { m with store := m.store.newObject.2 }
      { m' with store := m'.store.newObject.2 } := { hm with store := hm.store.newObject }
  have hobject : Value.Like c frames (.object m.store.newObject.1 cls)
      (.object m'.store.newObject.1 cls') := by
    have hid : m'.store.newObject.1 = m.store.newObject.1 := hm.store.objects
    rw [hid]
    exact .object hcls
  unfold instantiate Class.initializer?
  refine rel_elim (hcls.method? FunDecl.initializerName) (.now (.value hobject hk hnew))
    fun f f' h => ?_
  obtain ⟨henv, hinit, outer, hmarked, hcode⟩ := h
  have hp : frames <+: frames ++ [false] := List.prefix_append _ _
  obtain ⟨hbound, hm'⟩ := hnew.bindMethod henv hinit hmarked hcode hobject
  obtain ⟨frames', hp', hstate⟩ := like_enter
    (.construct (hobject.mono hp) (hk.mono hp)) hm' hbound (ha.imp fun _ _ h => h.mono hp)
  exact ⟨frames', hp.trans hp', hstate⟩

/-- A native function does not see a difference, by `Native.Blind`. -/
theorem like_callNative {native : Native} (hn : native.Blind c) (ht : c.token paren paren')
    (ha : List.Forall₂ (Value.Like c frames) arguments arguments') :
    State.Like c frames (callNative host native paren arguments k m)
      (callNative host native paren' arguments' k' m') := by
  unfold callNative
  cases haction : native.action with
  | clock =>
    simp only [hm.ticks]
    exact .value (.number _) hk { hm with ticks := rfl }
  | apply f =>
    have hresult := hn f haction frames arguments arguments' ha
    simp only
    generalize f arguments = r at hresult ⊢
    generalize f arguments' = r' at hresult ⊢
    cases hresult with
    | ok hv => exact .value hv hk hm
    | error message => exact like_faultAt hk hm ht _

/-- The same values can be called, with as many arguments. -/
theorem like_call (hv : Value.Like c frames v v') (ht : c.token paren paren')
    (ha : List.Forall₂ (Value.Like c frames) arguments arguments') :
    State.LikeFrom c frames (call host v paren arguments k m)
      (call host v' paren' arguments' k' m') := by
  have hlength : arguments'.length = arguments.length := ha.length_eq.symm
  cases hv with
  | native index =>
    simp only [call, hm.natives, hlength]
    cases hnative : m.natives[index]? with
    | none => exact .now (like_faultAt hk hm ht _)
    | some native =>
      simp only
      split
      · exact .now (like_faultAt hk hm ht _)
      · exact .now (like_callNative hk hm (hm.blind index native hnative) ht ha)
  | @function id f f' hf =>
    simp only [call, hlength, hf.arity_eq, refusal?_congr hm.callDepth]
    cases refusal? host m f.arity arguments.length with
    | some fault => exact .now (like_faultAt hk hm ht _)
    | none => exact like_enter hk hm hf ha
  | @classObj id cls cls' hcls =>
    simp only [call, hlength, hcls.arity_eq, refusal?_congr hm.callDepth]
    cases refusal? host m cls.arity arguments.length with
    | some fault => exact .now (like_faultAt hk hm ht _)
    | none => exact like_instantiate hk hm hcls ha
  | _ => exact .now (like_faultAt hk hm ht _)

/-- The next argument is evaluated, or the call is made. -/
theorem like_nextArgument {before before' : List Value} {after after' : List Expr}
    (hv : Value.Like c frames v v') (ht : c.token paren paren')
    (hb : List.Forall₂ (Value.Like c frames) before before')
    (ha : Node.Like c around (.exprs after) (.exprs after')) :
    State.LikeFrom c frames (nextArgument host v paren before after k m)
      (nextArgument host v' paren' before' after' k' m') := by
  cases ha with
  | noExprs => exact like_call hk hm hv ht (List.forall₂_reverse_iff.2 hb)
  | exprs he hes => exact .now (.eval he (.argument ht hv hb hes hk) hm)

/-! ### The four kinds of steps -/

/-- One step from an expression. -/
theorem like_eval {e e' : Expr} (he : Node.Like c around (.expr e) (.expr e')) :
    State.Like c frames (eval e k m) (eval e' k' m') := by
  cases he with
  | literal => exact .value (Value.like_ofLiteral _) hk hm
  | group h => exact .eval h hk hm
  | read h => exact like_readVariable hk hm h
  | thisRef h => exact like_readVariable hk hm h
  | assign h he => exact .eval he (.assign h hk) hm
  | unary ht h => exact .eval h (.unary ht hk) hm
  | binary ht hl hr => exact .eval hl (.left ht hr hk) hm
  | logical ht hl hr => exact .eval hl (.logical ht hr hk) hm
  | conditional _ he ha hb => exact .eval he (.choose ha hb hk) hm
  | call ht he hes => exact .eval he (.callee ht hes hk) hm
  | get ht h => exact .eval h (.property ht hk) hm
  | set ht he hv => exact .eval he (.fieldOwner ht hv hk) hm
  | lambda h =>
    obtain ⟨hv, hm'⟩ := hm.newFunction (hm.closure h)
    exact .value hv hk hm'

/-- One step with a value, one case for each continuation. -/
theorem like_resumeValue (hv : Value.Like c frames v v') :
    State.LikeFrom c frames (resumeValue host v k m) (resumeValue host v' k' m') := by
  cases hk with
  | done => exact .now (.value hv .done hm)
  | assign h hk => exact .now (like_writeVariable hk hm h hv)
  | unary ht hk => exact .now (like_operatorResult hk hm ht (hv.applyUnary ht))
  | left ht he hk => exact .now (.eval he (.right ht hv hk) hm)
  | right ht hfirst hk => exact .now (like_operatorResult hk hm ht (hfirst.applyBinary ht hv))
  | logical ht he hk =>
    simp only [resumeValue, hv.settles_eq ht]
    split
    · exact .now (.value hv hk hm)
    · exact .now (.eval he hk hm)
  | choose ha hb hk =>
    simp only [resumeValue, hv.sameFace.isTruthy_eq]
    split
    · exact .now (.eval ha hk hm)
    · exact .now (.eval hb hk hm)
  | callee ht hes hk => exact like_nextArgument hk hm hv ht .nil hes
  | argument ht hcallee hbefore hes hk =>
    exact like_nextArgument hk hm hcallee ht (.cons hv hbefore) hes
  | property ht hk => exact like_readProperty hk hm ht hv
  | fieldOwner ht he hk =>
    cases hv with
    | object _ => exact .now (.eval he (.fieldValue ht hk) hm)
    | _ => exact .now (like_faultAt hk hm ht _)
  | @fieldValue _ id name _ _ _ ht hk =>
    simp only [resumeValue, c.lexeme_eq ht]
    have hm' : Machine.Like c frames around
        { m with store := m.store.setField id name.lexeme v }
        { m' with store := m'.store.setField id name.lexeme v' } :=
      { hm with store := hm.store.setField id name.lexeme hv }
    exact .now (.value hv hk hm')
  | construct hobject hk => exact .now (.value hobject hk hm)
  | discard hk => exact .now (.flow .normal hk hm)
  | print hk =>
    simp only [resumeValue, hm.sink, hv.sameFace.display_eq]
    have hm' : Machine.Like c frames around
        { m with sink := (m.sink.write (v.display ++ "\n")).2 }
        { m' with sink := (m.sink.write (v.display ++ "\n")).2 } := { hm with sink := rfl }
    split
    · exact .now (.flow .normal hk hm')
    · exact .now (.failed (.output .full) (hk.unwind hm'))
  | define hname hk => exact .now (.flow .normal hk (hm.define hv hname.lexeme))
  | branch ha hk =>
    simp only [resumeValue, hv.sameFace.isTruthy_eq]
    split
    · exact .now (.exec ha hk hm)
    · exact .now (.flow .normal hk hm)
  | branchElse ha hb hk =>
    simp only [resumeValue, hv.sameFace.isTruthy_eq]
    split
    · exact .now (.exec ha hk hm)
    · exact .now (.exec hb hk hm)
  | test he ha hk =>
    simp only [resumeValue, hv.sameFace.isTruthy_eq]
    split
    · exact .now (.exec ha (.again he ha hk) hm)
    · exact .now (.flow .normal hk hm)
  | ret hk => exact .now (.flow (.returned hv) hk hm)

/-- What a call yields: `this` in an initializer, otherwise what was returned. -/
theorem like_callResult {callee callee' : Closure} {f f' : Flow}
    (hc : Closure.Like c frames callee callee') (hf : Flow.Like c frames f f') :
    State.Like c frames (callResult callee f k m) (callResult callee' f' k' m') := by
  obtain ⟨outer, hmarked, -⟩ := hc.code
  unfold callResult
  rw [hc.isInitializer, hc.env]
  split
  · -- no scope has another name for `this`
    have hthis := hm.store.lookupAt? hmarked 0 "this"
    rw [c.name_this] at hthis
    exact rel_elim hthis (.desync ⟨rfl, c.used_this, false, rfl⟩ hm) fun _ _ hv => .value hv hk hm
  · cases hf with
    | normal => exact .value .nil hk hm
    | returned hv => exact .value hv hk hm

end

/-- One step from a statement. -/
theorem like_exec {s s' : Stmt} {k k' : StmtCont} (hs : Node.Like c around (.stmt s) (.stmt s'))
    (hk : StmtCont.Like c frames around k k') (hm : Machine.Like c frames around m m') :
    State.LikeFrom c frames (exec s k m) (exec s' k' m') := by
  cases hs with
  | expr h => exact .now (.eval h (.discard hk) hm)
  | print h => exact .now (.eval h (.print hk) hm)
  | varDecl hname => exact .now (.flow .normal hk (hm.define .nil hname.lexeme))
  | varInit hname h => exact .now (.eval h (.define hname hk) hm)
  | block marked h =>
    have hp : frames <+: frames ++ [marked] := List.prefix_append _ _
    obtain ⟨hframe, hnew, hm'⟩ := hm.newFrame marked .nil
    unfold exec
    rw [hm.env]
    refine ⟨_, hp, .flow .normal (.sequence h (.leaveBlock (hm.marked.mono hp) (hk.mono hp))) ?_⟩
    exact { hm' with
      env := congrArg₂ List.cons hframe rfl
      marked := .cons hnew (hm.marked.mono hp) }
  | ifThen he ha => exact .now (.eval he (.branch ha hk) hm)
  | ifElse he ha hb => exact .now (.eval he (.branchElse ha hb hk) hm)
  | whileLoop he ha => exact .now (.eval he (.test he ha hk) hm)
  | funDecl hname h =>
    obtain ⟨hv, hm'⟩ := hm.newFunction (hm.closure h)
    exact .now (.flow .normal hk
      (hm'.define hv (h.label_eq.trans hname.symm)))
  | ret _ => exact .now (.flow (.returned .nil) hk hm)
  | retValue _ h => exact .now (.eval h (.ret hk) hm)
  | classDecl ht hname h =>
    obtain ⟨hv, hm'⟩ := hm.newClass (hm.class (c.lexeme_eq ht) h)
    have heq := (c.lexeme_eq ht).trans hname.symm
    rw [exec_classDecl, exec_classDecl]
    exact .now (.flow .normal hk ((hm'.define .nil heq).define hv heq))

/-- One step behind a statement. -/
theorem like_resumeFlow {f f' : Flow} {k k' : StmtCont} (hf : Flow.Like c frames f f')
    (hk : StmtCont.Like c frames around k k') (hm : Machine.Like c frames around m m') :
    State.Like c frames (resumeFlow f k m) (resumeFlow f' k' m') := by
  cases hk with
  | done => exact .flow hf .done hm
  | sequence hss hk =>
    cases hf with
    | returned hv => exact .flow (.returned hv) hk hm
    | normal =>
      cases hss with
      | noStmts => exact .flow .normal hk hm
      | stmts hs hss => exact .exec hs (.sequence hss hk) hm
  | leaveBlock henv hk => exact .flow hf hk (hm.leave henv)
  | again he ha hk =>
    cases hf with
    | normal => exact .eval he (.test he ha hk) hm
    | returned hv => exact .flow (.returned hv) hk hm
  | leaveCall henv hc hk => exact like_callResult hk (hm.leaveCall henv) hc hf

end Step

/-! ### Runs -/

/-- **Lock step.** One step from states that are alike leads to states that are alike. -/
theorem State.Like.step (host : Host) (h : State.Like c frames t t') :
    State.LikeFrom c frames (Scriptlet.step host t) (Scriptlet.step host t') := by
  cases h with
  | eval he hk hm => exact .now (Step.like_eval hk hm he)
  | exec hs hk hm => exact Step.like_exec hs hk hm
  | value hv hk hm => exact Step.like_resumeValue hk hm hv
  | flow hf hk hm => exact .now (Step.like_resumeFlow hf hk hm)
  | failed he hm => exact .now (.failed he hm)
  | desync hd hm => exact .now (.desync hd hm)

/-- Runs that are alike are over at the same time. -/
theorem State.Like.isFinal_eq (h : State.Like c frames t t') : t'.isFinal = t.isFinal := by
  cases h with
  | eval | exec | failed | desync => rfl
  | value _ hk _ => cases hk <;> rfl
  | flow _ hk _ => cases hk <;> rfl

/-- Steps from states that are alike lead to states that are alike, whether the runs end or not. -/
theorem State.Like.iterate (host : Host) (n : Nat) (h : State.Like c frames t t') :
    State.LikeFrom c frames ((Scriptlet.step host)^[n] t) ((Scriptlet.step host)^[n] t') := by
  induction n with
  | zero => exact .now h
  | succ n ih =>
    rw [Function.iterate_succ_apply', Function.iterate_succ_apply']
    obtain ⟨frames', hp, hn⟩ := ih
    obtain ⟨frames'', hp', hstep⟩ := hn.step host
    exact ⟨frames'', hp.trans hp', hstep⟩

/-- Runs from states that are alike end at the same time, in states that are alike. -/
theorem State.Like.runSteps (host : Host) (fuel : Nat) (h : State.Like c frames t t') :
    Option.Rel (fun t t' => State.LikeFrom c frames t t' ∧ t.isFinal = true)
      (Scriptlet.runSteps host fuel t) (Scriptlet.runSteps host fuel t') := by
  obtain ⟨frames', hp, hlast⟩ := h.iterate host fuel
  rw [runSteps_eq, runSteps_eq, hlast.isFinal_eq]
  split
  · next hfinal => exact .some ⟨⟨frames', hp, hlast⟩, hfinal⟩
  · exact .none

/-- At every moment they have written the same. -/
theorem State.Like.sink_eq (h : State.Like c frames t t') :
    t'.machine.sink = t.machine.sink := by
  cases h with
  | eval _ _ hm | exec _ _ hm | value _ _ hm | flow _ _ hm | failed _ hm | desync _ hm =>
    exact hm.sink

/-- Ends of runs that are alike: the outcomes are, whatever was finished with, and so are the
    machines. The globals are current, unless a variable was out of place. -/
inductive Outcome.LikeWith (c : Likeness) {α : Type} :
    Outcome α × Machine → Outcome α × Machine → Prop
  | finished {frames a a' m m'} (hm : Machine.Like c frames [] m m') :
      LikeWith c (.finished a, m) (.finished a', m')
  | failed {frames e e' m m'} (he : Error.Like c e e') (hm : Machine.Like c frames [] m m') :
      LikeWith c (.failed e, m) (.failed e', m')
  | desync {frames around d d' m m'} (hd : Desync.Like c d d')
      (hm : Machine.Like c frames around m m') : LikeWith c (.desync d, m) (.desync d', m')

namespace Machine.Like

variable {c : Likeness} {frames : List Bool} {m m' : Machine}

/-- Statements that are alike end alike. -/
theorem execute (host : Host) (fuel : Nat) {s s' : Stmt}
    (hs : Node.Like c [] (.stmt s) (.stmt s')) (hm : Machine.Like c frames [] m m') :
    Option.Rel (Outcome.LikeWith c) (m.execute host fuel s) (m'.execute host fuel s') := by
  unfold Machine.execute
  refine rel_elim ((State.Like.exec hs .done hm).runSteps host fuel) .none fun t t' hlast => ?_
  -- only at the end of everything in progress is nothing left to be done
  obtain ⟨⟨frames', -, hlast⟩, hfinal⟩ := hlast
  cases hlast with
  | eval | exec | value => exact .none
  | flow _ hk hm =>
    cases hk with
    | done => exact .some (.finished hm)
    | sequence | leaveBlock | again | leaveCall => cases hfinal
  | failed he hm => exact .some (.failed he hm)
  | desync hd hm => exact .some (.desync hd hm)

/-- Flushing shows nothing but the sink. -/
theorem flush (hm : Machine.Like c frames [] m m') {o o' : Outcome Unit}
    (ho : Outcome.LikeWith c (o, m) (o', m')) :
    Outcome.LikeWith c (m.flush o, m) (m'.flush o', m') := by
  unfold Machine.flush
  rw [hm.sink]
  split
  · exact .failed (.output .flushFailed) hm
  · exact ho

/-- **Programs that are alike run alike.** On machines that are alike, either none of two such
    programs ends with the steps allowed, or both end alike. -/
theorem interpret (host : Host) (fuel : Nat) {ss ss' : List Stmt}
    (hss : Node.Like c [] (.stmts ss) (.stmts ss'))
    (hm : Machine.Like c frames [] m m') :
    Option.Rel (Outcome.LikeWith c) (m.interpret host fuel ss) (m'.interpret host fuel ss') := by
  induction ss generalizing ss' frames m m' with
  | nil =>
    cases hss with
    | noStmts => exact .some (hm.flush (.finished hm))
  | cons s ss ih =>
    cases hss with
    | @stmts _ _ s' _ ss' hs hss =>
      unfold Machine.interpret
      refine rel_elim (hm.execute host fuel hs) .none fun p p' hend => ?_
      cases hend with
      | finished hm => exact ih hss hm
      | failed he hm =>
        have hm' := hm.leave (Marked.globals hm.store.globals)
        exact .some (hm'.flush (.failed he hm'))
      | desync hd hm => exact .some (.desync hd hm)

end Machine.Like

/-! ### Statements on their own -/

/-- Results that are alike. -/
inductive Result.Like (c : Likeness) (frames : List Bool) : Result → Result → Prop
  | value {v v'} (h : Value.Like c frames v v') : Like c frames (.value v) (.value v')
  | flow {f f'} (h : Flow.Like c frames f f') : Like c frames (.flow f) (.flow f')
  | failed {e e'} (h : Error.Like c e e') : Like c frames (.failed e) (.failed e')

/-- Ends of statements on their own that are alike, `R` relating what they yield. -/
inductive Session.EndLike (c : Likeness) {α : Type} (R : List Bool → α → α → Prop) :
    Except Desync α × Machine → Except Desync α × Machine → Prop
  | ok {frames a a' m m'} (h : R frames a a') (hm : Machine.Like c frames [] m m') :
      EndLike c R (.ok a, m) (.ok a', m')
  | error {frames around d d' m m'} (hd : Desync.Like c d d')
      (hm : Machine.Like c frames around m m') : EndLike c R (.error d, m) (.error d', m')

section Alone

variable {c : Likeness} {frames : List Bool} {m m' : Machine}

/-- Statements that are alike start in states that are alike. -/
theorem Machine.Like.begin (alone : Bool) {s s' : Stmt} (hs : Node.Like c [] (.stmt s) (.stmt s'))
    (hm : Machine.Like c frames [] m m') :
    State.Like c frames (m.begin alone s) (m'.begin alone s') := by
  have hexec := State.Like.exec hs .done hm
  cases alone with
  | false =>
    rw [Machine.begin_false, Machine.begin_false]
    exact hexec
  | true =>
    cases hs with
    | expr he => exact .eval he .done hm
    | _ => exact hexec

/-- Statements that are alike end alike on their own. -/
theorem Machine.Like.result (host : Host) (fuel : Nat) {s s' : Stmt}
    (hs : Node.Like c [] (.stmt s) (.stmt s')) (hm : Machine.Like c frames [] m m') :
    Option.Rel (Session.EndLike c (Result.Like c)) (Session.result host fuel s m)
      (Session.result host fuel s' m') := by
  rw [Session.result_eq_bind, Session.result_eq_bind]
  refine rel_elim ((hm.begin true hs).runSteps host fuel) .none fun t t' hlast => ?_
  obtain ⟨⟨frames', -, hlast⟩, hfinal⟩ := hlast
  cases hlast with
  | eval | exec => cases hfinal
  | value hv hk hm =>
    cases hk with
    | done => exact .some (.ok (.value hv) hm)
    | _ => cases hfinal
  | flow hf hk hm =>
    cases hk with
    | done => exact .some (.ok (.flow hf) hm)
    | _ => cases hfinal
  | failed he hm => exact .some (.ok (.failed he) hm)
  | desync hd hm => exact .some (.error hd hm)

/-- Lists of statements that are alike end alike: up to the frames made later, each result is like
    the other one at its place, and so are the machines right behind them. -/
theorem Machine.Like.results (host : Host) (fuel : Nat) {ss ss' : List Stmt}
    (hss : Node.Like c [] (.stmts ss) (.stmts ss')) (hm : Machine.Like c frames [] m m') :
    Option.Rel (Session.EndLike c fun _ => List.Forall₂ fun p p' =>
        ∃ frames, Result.Like c frames p.1 p'.1 ∧ Machine.Like c frames [] p.2 p'.2)
      (Session.results host fuel ss m) (Session.results host fuel ss' m') := by
  induction ss generalizing ss' frames m m' with
  | nil =>
    cases hss with
    | noStmts => exact .some (.ok .nil hm)
  | cons s ss ih =>
    cases hss with
    | @stmts _ _ s' _ ss' hs hss =>
      unfold Session.results
      refine rel_elim (hm.result host fuel hs) .none fun p p' hend => ?_
      cases hend with
      | error hd hm => exact .some (.error hd hm)
      | @ok frames' r r' m₁ m₁' hr hm =>
        simp only
        refine rel_elim (ih hss hm) .none fun q q' hend => ?_
        cases hend with
        | ok hrs hlast => exact .some (.ok (.cons ⟨frames', hr, hm⟩ hrs) hlast)
        | error hd hlast => exact .some (.error hd hlast)

/-- Behind statements that are alike, the next ones start on machines that are alike. -/
theorem Machine.Like.goOn (host : Host) (fuel : Nat) (alone : Bool) {s s' : Stmt}
    (hs : Node.Like c [] (.stmt s) (.stmt s')) (hm : Machine.Like c frames [] m m') :
    Option.Rel (fun m m' => ∃ frames, Machine.Like c frames [] m m')
      (m.goOn host fuel alone s) (m'.goOn host fuel alone s') := by
  unfold Machine.goOn
  cases alone with
  | true =>
    refine rel_elim (hm.result host fuel hs) .none fun p p' hend => ?_
    cases hend with
    | ok _ hm => exact .some ⟨_, hm⟩
    | error => exact .none
  | false =>
    refine rel_elim (hm.execute host fuel hs) .none fun p p' hend => ?_
    cases hend with
    | finished hm => exact .some ⟨_, hm⟩
    | failed | desync => exact .none

/-- **Programs that are alike show the same** on machines that are alike, whether they end or
    not. -/
theorem Machine.Like.shows_iff (host : Host) (alone : Bool) {ss ss' : List Stmt}
    (hss : Node.Like c [] (.stmts ss) (.stmts ss')) (hm : Machine.Like c frames [] m m')
    (sink : Sink) : m.Shows host alone ss sink ↔ m'.Shows host alone ss' sink := by
  induction ss generalizing ss' frames m m' with
  | nil =>
    cases hss with
    | noStmts => exact iff_of_false Machine.not_shows_nil Machine.not_shows_nil
  | cons s ss ih =>
    cases hss with
    | @stmts _ _ s' _ ss' hs hss =>
      rw [Machine.shows_cons, Machine.shows_cons]
      refine or_congr (exists_congr fun n => ?_) (exists_congr fun fuel => ?_)
      · obtain ⟨frames', -, hlike⟩ := (hm.begin alone hs).iterate host n
        rw [hlike.sink_eq]
      · refine rel_elim (hm.goOn host fuel alone hs) (by simp) fun m₁ m₁' hnext => ?_
        obtain ⟨frames', hm⟩ := hnext
        simpa using ih hss hm

end Alone

/-! ### New machines -/

/-- A new machine is like itself, whatever the names: it has only globals, and no function of the
    host but the clock. -/
theorem Machine.like_new (sink : Sink) (depths : Depths)
    (hdepths : ∀ {id id' d}, c.node id id' d → depths[id]? = d ∧ depths[id']? = d) :
    Machine.Like c [false] [] { Machine.new sink with depths }
      { Machine.new sink with depths } := by
  have hstore : Store.Like c [false] (Machine.new sink).store (Machine.new sink).store := by
    refine ⟨rfl, rfl, rfl, fun {f marked} hf x => ?_, rfl, fun id x => ?_⟩
    · cases f with
      | succ f => cases hf
      | zero =>
        cases hf
        rw [c.name_false]
        show Option.Rel _ ((Store.empty.newFrame.2.define 0 "clock" (.native 0)).get? 0 x)
          ((Store.empty.newFrame.2.define 0 "clock" (.native 0)).get? 0 x)
        rw [Store.get?_define, Store.get?_newFrame]
        split
        · exact .some (.native 0)
        · exact .none
    · exact .none
  refine ⟨hstore, rfl, Marked.globals rfl, hdepths, rfl, rfl, rfl, ?_, rfl, rfl⟩
  intro i native hi f hf
  cases i with
  | succ i => cases hi
  | zero =>
    cases hi
    cases hf

end Scriptlet
