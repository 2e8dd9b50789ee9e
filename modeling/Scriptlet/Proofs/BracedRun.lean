import Scriptlet.Proofs.Braces

namespace Scriptlet

/-!
# Runs of programs with extra braces

A program and the same with extra braces run side by side: either both take a step, or the second
one takes a step alone, to enter or to leave an extra block. The second one cannot go on alone
forever.

* `State.Matches` — states that stand for each other, for some addresses of frames.
* `State.rank` — how long the second run may go on alone; `State.Advances` — a step that it takes
  together with the first one, or one of those alone.
* `State.Matches.step` — each step is such a step.
* `State.Matches.behind`, `State.Matches.ahead` — whatever state one of the runs comes to, the other
  one comes to a state that matches it; `State.Matches.last` — also at the end.
* `Machine.Interprets.alike` — programs whose statements end alike end alike.
* `Machine.Matches.interprets_iff` — so a program ends in the way it ends with extra braces;
  `Machine.Matches.writes_iff` — until then, it writes what it writes with them.
-/

/-- States that stand for each other, for some addresses of frames. -/
def State.Matches (c : Bracing) (t t' : State) : Prop := ∃ frames, State.Braced c frames t t'

/-! ### Parts of a step -/

namespace Step

variable {c : Bracing} {frames : List FrameId} {around : Around} {env : Env} {k k' : ExprCont}
  {m m' : Machine}

variable (hk : ExprCont.Braced c frames around env k k')
  (hm : Machine.Braced c frames around env m m')

include hk hm

variable {id : NodeId} {v v' : Value} {arguments arguments' : List Value} {host : Host}

/-- A fault ends both runs, whatever extra blocks they are in. -/
theorem braced_faultAt (t : Token) (fault : RuntimeFault) :
    State.Braced c frames (faultAt t fault k m) (faultAt t fault k' m') := by
  obtain ⟨env', hm'⟩ := hk.unwind hm
  exact .failed hm'

/-- The result of an operator, be it a value or a fault. -/
theorem braced_operatorResult (op : Token) {r r' : Except RuntimeFault Value}
    (hr : Value.ResultBraced c frames r r') :
    State.Braced c frames (operatorResult op r k m) (operatorResult op r' k' m') := by
  cases hr with
  | ok hv => exact .value hv hk hm
  | error fault => exact braced_faultAt hk hm op fault

/-- A variable with a larger depth reads a value that stands for the same. -/
theorem braced_readVariable (name : Token) (h : c.node around id) :
    State.Braced c frames (readVariable id name k m) (readVariable id name k' m') := by
  unfold readVariable
  rw [hm.depths h, hm.env_eq]
  cases m.depths[id]? with
  | some d =>
    -- The frame at the larger distance stands for the one at this distance.
    simp only [Option.map_some]
    exact rel_elim (hm.store.lookupAt? hm.env d name.lexeme) (.desync hm)
      fun _ _ hv => .value hv hk hm
  | none =>
    simp only [Option.map_none]
    exact rel_elim (hm.store.lookup?_globals name.lexeme) (braced_faultAt hk hm name _)
      fun _ _ hv => .value hv hk hm

/-- An assignment writes to the frame that stands for the same one. -/
theorem braced_writeVariable (name : Token) (h : c.node around id)
    (hv : Value.Braced c frames v v') :
    State.Braced c frames (writeVariable id name v k m) (writeVariable id name v' k' m') := by
  simp only [writeVariable_eq]
  rw [hm.depths h, hm.env_eq]
  cases m.depths[id]? with
  | some d =>
    simp only [Option.map_some]
    exact rel_elim (hm.store.holderAt? hm.env d name.lexeme) (.desync hm)
      fun _ _ hf => .value hv hk (hm.defineIn hf hv name.lexeme)
  | none =>
    simp only [Option.map_none, hm.store.holder?_globals_eq]
    cases hf : m.store.holder? Machine.globals name.lexeme with
    | some f =>
      -- The frame of the globals has the same address on both sides.
      cases Store.Like.eq_zero_of_holder?_globals hf
      exact .value hv hk (hm.defineIn hm.store.globals hv name.lexeme)
    | none => exact braced_faultAt hk hm name _

/-- Fields and methods have the same names on both sides. -/
theorem braced_readProperty (name : Token) (hv : Value.Braced c frames v v') :
    State.Matches c (readProperty v name k m) (readProperty v' name k' m') := by
  cases hv with
  | @object id cls cls' hcls =>
    simp only [readProperty]
    refine rel_elim (hm.store.fields id name.lexeme) ?_ fun _ _ hv => ⟨_, .value hv hk hm⟩
    refine rel_elim (hcls.method? name.lexeme) ⟨_, braced_faultAt hk hm name _⟩ fun f f' h => ?_
    obtain ⟨hinit, outer, henv, hcode⟩ := h
    obtain ⟨frames', hp, hbound, hm'⟩ := hm.bindMethod hinit henv hcode (.object hcls)
    obtain ⟨hv, hm''⟩ := hm'.newFunction hbound
    exact ⟨frames', .value hv (hk.mono hp) hm''⟩
  | _ => exact ⟨_, braced_faultAt hk hm name _⟩

/-- The parameters get frames that stand for each other. -/
theorem braced_enter {f f' : Closure} (hf : Closure.Braced c frames f f')
    (ha : List.Forall₂ (Value.Braced c frames) arguments arguments') :
    State.Matches c (enter f arguments k m) (enter f' arguments' k' m') := by
  obtain ⟨outer, henv, hcode, -⟩ := hf.code
  have hvars := forall₂_zip id ha (f.decl.params.map (·.lexeme))
  rw [List.map_id] at hvars
  nth_rewrite 2 [← hcode.head_eq.2] at hvars
  obtain ⟨frames', hp, hframe, hm'⟩ := hm.newFrame hvars
  have hm'' := hm'.leave (.pair hframe (henv.mono hp))
  obtain rfl := hm.env_eq
  exact ⟨frames', .flow .normal
    (.sequence hcode.body (.leaveCall (hm.env.mono hp) (hf.mono hp) (hk.mono hp)))
    { hm'' with callDepth := congrArg (· + 1) hm.callDepth }⟩

/-- A new object, with its initializer called on it. -/
theorem braced_instantiate {cls cls' : Class} (hcls : Class.Braced c frames cls cls')
    (ha : List.Forall₂ (Value.Braced c frames) arguments arguments') :
    State.Matches c (instantiate cls arguments k m) (instantiate cls' arguments' k' m') := by
  have hnew : Machine.Braced c frames around env { m with store := m.store.newObject.2 }
      { m' with store := m'.store.newObject.2 } := { hm with store := hm.store.newObject }
  have hobject : Value.Braced c frames (.object m.store.newObject.1 cls)
      (.object m'.store.newObject.1 cls') := by
    -- Objects get the same numbers, for extra blocks make none.
    have hid : m'.store.newObject.1 = m.store.newObject.1 := hm.store.objects
    rw [hid]
    exact .object hcls
  unfold instantiate Class.initializer?
  refine rel_elim (hcls.method? FunDecl.initializerName) ⟨_, .value hobject hk hnew⟩
    fun f f' h => ?_
  obtain ⟨hinit, outer, henv, hcode⟩ := h
  obtain ⟨frames', hp, hbound, hm'⟩ := hnew.bindMethod hinit henv hcode hobject
  exact braced_enter (.construct (hobject.mono hp) (hk.mono hp)) hm' hbound
    (ha.imp fun _ _ h => h.mono hp)

/-- A native function does not see a difference, by `Native.Outward`. -/
theorem braced_callNative {native : Native} (paren : Token) (hn : native.Outward)
    (ha : List.Forall₂ (Value.Braced c frames) arguments arguments') :
    State.Braced c frames (callNative host native paren arguments k m)
      (callNative host native paren arguments' k' m') := by
  unfold callNative
  cases haction : native.action with
  | clock =>
    simp only [hm.ticks]
    exact .value (.number _) hk { hm with ticks := rfl }
  | apply f =>
    have hresult := (hn f haction arguments arguments' (ha.imp fun _ _ h => h.sameFace)).braced ha
    simp only
    generalize f arguments = r at hresult ⊢
    generalize f arguments' = r' at hresult ⊢
    cases hresult with
    | ok hv => exact .value hv hk hm
    | error message => exact braced_faultAt hk hm paren _

/-- The same values can be called, with as many arguments. -/
theorem braced_call (paren : Token) (hv : Value.Braced c frames v v')
    (ha : List.Forall₂ (Value.Braced c frames) arguments arguments') :
    State.Matches c (call host v paren arguments k m) (call host v' paren arguments' k' m') := by
  have hlength : arguments'.length = arguments.length := ha.length_eq.symm
  cases hv with
  | native index =>
    simp only [call, hm.natives, hlength]
    cases hnative : m.natives[index]? with
    | none => exact ⟨_, braced_faultAt hk hm paren _⟩
    | some native =>
      simp only
      split
      · exact ⟨_, braced_faultAt hk hm paren _⟩
      · exact ⟨_, braced_callNative hk hm paren (hm.outward index native hnative) ha⟩
  | @function id f f' hf =>
    -- Extra blocks are no calls, so both runs come to the limit at the same time.
    simp only [call, hlength, hf.arity_eq, refusal?_congr hm.callDepth]
    cases refusal? host m f.arity arguments.length with
    | some fault => exact ⟨_, braced_faultAt hk hm paren _⟩
    | none => exact braced_enter hk hm hf ha
  | @classObj id cls cls' hcls =>
    simp only [call, hlength, hcls.arity_eq, refusal?_congr hm.callDepth]
    cases refusal? host m cls.arity arguments.length with
    | some fault => exact ⟨_, braced_faultAt hk hm paren _⟩
    | none => exact braced_instantiate hk hm hcls ha
  | _ => exact ⟨_, braced_faultAt hk hm paren _⟩

/-- The next argument is evaluated, or the call is made. -/
theorem braced_nextArgument (paren : Token) {before before' : List Value} {after after' : List Expr}
    (hv : Value.Braced c frames v v') (hb : List.Forall₂ (Value.Braced c frames) before before')
    (ha : Node.Braced c around (.exprs after) (.exprs after')) :
    State.Matches c (nextArgument host v paren before after k m)
      (nextArgument host v' paren before' after' k' m') := by
  cases ha with
  | noExprs => exact braced_call hk hm paren hv (List.forall₂_reverse_iff.2 hb)
  | exprs he hes => exact ⟨_, .eval he (.argument hv hb hes hk) hm⟩

/-! ### The four kinds of steps -/

/-- One step from an expression: extra braces stand around statements only. -/
theorem braced_eval {e e' : Expr} (he : Node.Braced c around (.expr e) (.expr e')) :
    State.Braced c frames (eval e k m) (eval e' k' m') := by
  cases he with
  | literal => exact .value (Value.braced_ofLiteral _) hk hm
  | group h => exact .eval h hk hm
  | read h => exact braced_readVariable hk hm _ h
  | thisRef h => exact braced_readVariable hk hm _ h
  | assign h he => exact .eval he (.assign h hk) hm
  | unary h => exact .eval h (.unary hk) hm
  | binary hl hr => exact .eval hl (.left hr hk) hm
  | logical hl hr => exact .eval hl (.logical hr hk) hm
  | conditional he ha hb => exact .eval he (.choose ha hb hk) hm
  | call he hes => exact .eval he (.callee hes hk) hm
  | get h => exact .eval h (.property hk) hm
  | set he hv => exact .eval he (.fieldOwner hv hk) hm
  | lambda h =>
    obtain ⟨hv, hm'⟩ := hm.newFunction (hm.closure h)
    exact .value hv hk hm'

/-- One step with a value, one case for each continuation. -/
theorem braced_resumeValue (hv : Value.Braced c frames v v') :
    State.Matches c (resumeValue host v k m) (resumeValue host v' k' m') := by
  cases hk with
  | done => exact ⟨_, .value hv .done hm⟩
  | assign h hk => exact ⟨_, braced_writeVariable hk hm _ h hv⟩
  | @unary _ _ op _ _ hk =>
    have hresult := (hv.sameFace.applyUnary op).braced (.cons hv .nil)
    exact ⟨_, braced_operatorResult hk hm op hresult⟩
  | left he hk => exact ⟨_, .eval he (.right hv hk) hm⟩
  | @right _ _ op _ _ _ _ hfirst hk =>
    have hresult :=
      (hfirst.sameFace.applyBinary hv.sameFace op).braced (.cons hfirst (.cons hv .nil))
    exact ⟨_, braced_operatorResult hk hm op hresult⟩
  | logical he hk =>
    simp only [resumeValue, hv.sameFace.settles_eq]
    split
    · exact ⟨_, .value hv hk hm⟩
    · exact ⟨_, .eval he hk hm⟩
  | choose ha hb hk =>
    simp only [resumeValue, hv.sameFace.isTruthy_eq]
    split
    · exact ⟨_, .eval ha hk hm⟩
    · exact ⟨_, .eval hb hk hm⟩
  | callee hes hk => exact braced_nextArgument hk hm _ hv .nil hes
  | argument hcallee hbefore hes hk =>
    exact braced_nextArgument hk hm _ hcallee (.cons hv hbefore) hes
  | property hk => exact braced_readProperty hk hm _ hv
  | fieldOwner he hk =>
    cases hv with
    | object _ => exact ⟨_, .eval he (.fieldValue hk) hm⟩
    | _ => exact ⟨_, braced_faultAt hk hm _ _⟩
  | @fieldValue _ _ id name _ _ hk =>
    exact ⟨_, .value hv hk { hm with store := hm.store.setField id name.lexeme hv }⟩
  | construct hobject hk => exact ⟨_, .value hobject hk hm⟩
  | discard hk => exact ⟨_, .flow .normal hk hm⟩
  | print hk =>
    simp only [resumeValue, hm.sink, hv.sameFace.display_eq]
    have hm' : Machine.Braced c frames around env
        { m with sink := (m.sink.write (v.display ++ "\n")).2 }
        { m' with sink := (m.sink.write (v.display ++ "\n")).2 } := { hm with sink := rfl }
    split
    · exact ⟨_, .flow .normal hk hm'⟩
    · obtain ⟨_, hlast⟩ := hk.unwind hm'
      exact ⟨_, .failed hlast⟩
  | define hd hk => exact ⟨_, .flow .normal hk (hm.define hd hv _)⟩
  | branch ha hk =>
    simp only [resumeValue, hv.sameFace.isTruthy_eq]
    split
    · exact ⟨_, .exec ha hk hm⟩
    · exact ⟨_, .flow .normal hk hm⟩
  | branchElse ha hb hk =>
    simp only [resumeValue, hv.sameFace.isTruthy_eq]
    split
    · exact ⟨_, .exec ha hk hm⟩
    · exact ⟨_, .exec hb hk hm⟩
  | test he ha hk =>
    simp only [resumeValue, hv.sameFace.isTruthy_eq]
    split
    · exact ⟨_, .exec ha (.again he ha hk) hm⟩
    · exact ⟨_, .flow .normal hk hm⟩
  | ret hk => exact ⟨_, .flow (.returned hv) hk hm⟩

/-- What a call yields: `this` in an initializer, otherwise what was returned. -/
theorem braced_callResult {callee callee' : Closure} {f f' : Flow}
    (hc : Closure.Braced c frames callee callee') (hf : Flow.Braced c frames f f') :
    State.Braced c frames (callResult callee f k m) (callResult callee' f' k' m') := by
  obtain ⟨outer, henv, -, hplain⟩ := hc.code
  unfold callResult
  rw [hc.isInitializer]
  split
  · next hinit =>
    -- Around an initializer, the innermost scope is the one that holds its object.
    have hthis := hm.store.lookupAt? henv 0 "this"
    rw [(hplain hinit).shift_zero] at hthis
    exact rel_elim hthis (.desync hm) fun _ _ hv => .value hv hk hm
  · cases hf with
    | normal => exact .value .nil hk hm
    | returned hv => exact .value hv hk hm

end Step

/-! ### Steps -/

/-- How many braces with nothing else between them stand around a statement. -/
def Stmt.braces : Stmt → Nat
  | .block [s] => s.braces + 1
  | _ => 0

/-- How many steps the second run may take alone when it has to go on after a statement. -/
def StmtCont.rank : StmtCont → Nat
  | .sequence [] k => k.rank + 1
  | .sequence (s :: _) _ => 2 * s.braces + 1
  | .leaveBlock _ k => k.rank + 1
  | _ => 0

/-- How many steps the second run may take alone, at most. -/
def State.rank : State → Nat
  | .exec s _ _ => 2 * s.braces
  | .flow _ k _ => k.rank
  | _ => 0

section Steps

variable {c : Bracing} {t t' : State}

/-- A step of the second run: the first one takes a step as well, and they are finished at the same
    time, or the second one takes a step alone, and may take fewer of them afterwards. -/
def State.Advances (c : Bracing) (host : Host) (t t' : State) : Prop :=
  t'.isFinal = t.isFinal ∧ (c.next host t).Matches c (step host t') ∨
    t.Matches c (step host t') ∧ (step host t').rank < t'.rank

section

variable {frames : List FrameId} {around : Around} {env : Env} {k k' : StmtCont} {m m' : Machine}

/-- From a statement, the second run steps alone only in front of an extra brace. -/
theorem State.advances_exec {s s' : Stmt} (hs : Node.Braced c around (.stmt s) (.stmt s'))
    (hk : StmtCont.Braced c frames around env k k')
    (hm : Machine.Braced c frames around env m m') (host : Host) :
    State.Advances c host (.exec s k m) (.exec s' k' m') := by
  -- Outside of turns, the first run takes the usual steps.
  have both (hturn : c.turns = true → s.turn? = none)
      (h : (Step.exec s k m).Matches c (Step.exec s' k' m')) :
      State.Advances c host (.exec s k m) (.exec s' k' m') :=
    .inl ⟨rfl, Bracing.next_exec hturn host k m ▸ h⟩
  cases hs with
  | @brace _ _ s' hdecl hs =>
    -- The second run enters the extra block. There its statement comes next.
    refine .inr ⟨⟨frames, .entered hs (.ended (.unbrace hm.env hk)) hm.extraFrame⟩, ?_⟩
    show 2 * s'.braces + 1 < 2 * (s'.braces + 1)
    omega
  | turn ht _ hs he =>
    -- The first run has the increment left, and the second one has to leave the block as well.
    refine .inl ⟨rfl, ?_⟩
    rw [Bracing.next_turn ht]
    exact ⟨frames, .entered hs (.sequence (.stmts (.expr he) .noStmts) (.unbrace hm.env hk))
      hm.extraFrame⟩
  | expr h => exact both (fun _ => rfl) ⟨frames, .eval h (.discard hk) hm⟩
  | print h => exact both (fun _ => rfl) ⟨frames, .eval h (.print hk) hm⟩
  | varDecl hd => exact both (fun _ => rfl) ⟨frames, .flow .normal hk (hm.define hd .nil _)⟩
  | varInit hd h => exact both (fun _ => rfl) ⟨frames, .eval h (.define hd hk) hm⟩
  | block h =>
    obtain ⟨frames', hp, hframe, hm'⟩ := hm.newFrame .nil
    obtain rfl := hm.env_eq
    exact both (fun _ => rfl) ⟨frames', .flow .normal
      (.sequence h (.leaveBlock (hm.env.mono hp) (hk.mono hp)))
      (hm'.leave (.pair hframe (hm.env.mono hp)))⟩
  | ifThen he ha => exact both (fun _ => rfl) ⟨frames, .eval he (.branch ha hk) hm⟩
  | ifElse ht he ha hb => exact both ht ⟨frames, .eval he (.branchElse ha hb hk) hm⟩
  | whileLoop he ha => exact both (fun _ => rfl) ⟨frames, .eval he (.test he ha hk) hm⟩
  | @funDecl _ f _ hd h =>
    obtain ⟨hv, hm'⟩ := hm.newFunction (hm.closure h)
    have hdefined := hm'.define hd hv f.label
    nth_rewrite 2 [← h.label_eq] at hdefined
    exact both (fun _ => rfl) ⟨frames, .flow .normal hk hdefined⟩
  | ret => exact both (fun _ => rfl) ⟨frames, .flow (.returned .nil) hk hm⟩
  | retValue h => exact both (fun _ => rfl) ⟨frames, .eval h (.ret hk) hm⟩
  | classDecl hd h =>
    obtain ⟨hv, hm'⟩ := hm.newClass (hm.cls h)
    refine both (fun _ => rfl) ⟨frames, ?_⟩
    simp only [Step.exec_classDecl]
    exact .flow .normal hk ((hm'.define hd .nil _).define hd hv _)

/-- Behind a statement, it steps alone only at the end of an extra block. -/
theorem State.advances_flow {f f' : Flow} (hf : Flow.Braced c frames f f')
    (hk : StmtCont.Braced c frames around env k k')
    (hm : Machine.Braced c frames around env m m') (host : Host) :
    State.Advances c host (.flow f k m) (.flow f' k' m') := by
  cases hk with
  | done => exact .inl ⟨rfl, frames, .flow hf .done hm⟩
  | sequence hss hk =>
    refine .inl ⟨rfl, frames, ?_⟩
    cases hf with
    | returned hv => exact .flow (.returned hv) hk hm
    | normal =>
      cases hss with
      | noStmts => exact .flow .normal hk hm
      | stmts hs hss => exact .exec hs (.sequence hss hk) hm
  | leaveBlock henv hk => exact .inl ⟨rfl, frames, .flow hf hk (hm.leave henv)⟩
  | again he ha hk =>
    refine .inl ⟨rfl, frames, ?_⟩
    cases hf with
    | normal => exact .eval he (.test he ha hk) hm
    | returned hv => exact .flow (.returned hv) hk hm
  | leaveCall henv hc hk =>
    exact .inl ⟨rfl, frames, Step.braced_callResult hk (hm.leaveCall henv) hc hf⟩
  | ended hk =>
    -- The statement is over, and with it the list in the extra block.
    refine .inr ⟨⟨frames, ?_⟩, ?_⟩
    · cases hf with
      | normal => exact .flow .normal hk hm
      | returned hv => exact .flow (.returned hv) hk hm
    · cases hf <;> exact Nat.lt_succ_self _
  | unbrace henv hk =>
    exact .inr ⟨⟨frames, .flow hf hk (hm.leaveExtra henv)⟩, Nat.lt_succ_self _⟩

end

/-- **Side by side.** Either both runs take a step, or the second one takes one of the few that it
    may take alone. -/
theorem State.Matches.step (h : t.Matches c t') (host : Host) : State.Advances c host t t' := by
  obtain ⟨frames, h⟩ := h
  cases h with
  | eval he hk hm => exact .inl ⟨rfl, frames, Step.braced_eval hk hm he⟩
  | exec hs hk hm => exact State.advances_exec hs hk hm host
  | entered hs hk hm => exact .inr ⟨⟨frames, .exec hs hk hm⟩, Nat.lt_succ_self _⟩
  | value hv hk hm =>
    refine .inl ⟨?_, Step.braced_resumeValue hk hm hv⟩
    cases hk <;> rfl
  | flow hf hk hm => exact State.advances_flow hf hk hm host
  | failed hm => exact .inl ⟨rfl, frames, .failed hm⟩
  | desync hm => exact .inl ⟨rfl, frames, .desync hm⟩

/-- Runs that match have written the same. -/
theorem State.Matches.sink_eq (h : t.Matches c t') : t'.machine.sink = t.machine.sink := by
  obtain ⟨frames, h⟩ := h
  cases h with
  | eval _ _ hm | exec _ _ hm | entered _ _ hm | value _ _ hm | flow _ _ hm => exact hm.sink
  | failed hm | desync hm => exact hm.sink

/-- The first run is finished when the second one is. -/
theorem State.Matches.isFinal (h : t.Matches c t') (hfinal : t'.isFinal = true) :
    t.isFinal = true := by
  obtain ⟨heq, -⟩ | ⟨-, hrank⟩ := h.step (Host.usual fun _ => 0)
  · exact heq ▸ hfinal
  · -- A finished run stays where it is, so its rank cannot fall.
    rw [step_of_isFinal hfinal] at hrank
    exact absurd hrank (Nat.lt_irrefl _)

/-! ### Runs -/

variable {host : Host}

/-- Wherever the second run comes to, the first one has come to a state that matches. -/
theorem State.Matches.behind (h : t.Matches c t') (n' : Nat) :
    ∃ n, ((c.next host)^[n] t).Matches c ((Scriptlet.step host)^[n'] t') := by
  induction n' generalizing t t' with
  | zero => exact ⟨0, h⟩
  | succ n' ih =>
    obtain ⟨-, hstep⟩ | ⟨hstep, -⟩ := h.step host
    · obtain ⟨n, hn⟩ := ih hstep
      exact ⟨n + 1, hn⟩
    · exact ih hstep

/-- Wherever the first run comes to, the second one comes to a state that matches. -/
theorem State.Matches.ahead (h : t.Matches c t') (n : Nat) :
    ∃ n', ((c.next host)^[n] t).Matches c ((Scriptlet.step host)^[n'] t') := by
  induction n generalizing t t' with
  | zero => exact ⟨0, h⟩
  | succ n ih =>
    -- The second run may have to go on alone before both take the step.
    induction hrank : t'.rank using Nat.strongRecOn generalizing t' with
    | ind rank ihrank =>
      obtain ⟨-, hstep⟩ | ⟨hstep, hless⟩ := h.step host
      · obtain ⟨n', hn'⟩ := ih hstep
        exact ⟨n' + 1, hn'⟩
      · obtain ⟨n', hn'⟩ := ihrank _ (hrank ▸ hless) hstep rfl
        exact ⟨n' + 1, hn'⟩

/-- When the first run is finished, the second one comes to its end. -/
theorem State.Matches.last (h : t.Matches c t') (hfinal : t.isFinal = true) :
    ∃ n', ((Scriptlet.step host)^[n'] t').isFinal = true ∧
      t.Matches c ((Scriptlet.step host)^[n'] t') := by
  induction hrank : t'.rank using Nat.strongRecOn generalizing t' with
  | ind rank ihrank =>
    obtain ⟨heq, -⟩ | ⟨hstep, hless⟩ := h.step host
    · exact ⟨0, heq.trans hfinal, h⟩
    · obtain ⟨n', hfinal', hn'⟩ := ihrank _ (hrank ▸ hless) hstep rfl
      exact ⟨n' + 1, hfinal', hn'⟩

end Steps

/-! ### Statements -/

/-- Ends of two runs with the same outcome, whatever was finished with, and with machines that are
    related. -/
inductive Outcome.Alike (Q : Machine → Machine → Prop) {α : Type} :
    Outcome α × Machine → Outcome α × Machine → Prop
  | finished {a a' m m'} (hm : Q m m') : Alike Q (.finished a, m) (.finished a', m')
  | failed {e m m'} (hm : Q m m') : Alike Q (.failed e, m) (.failed e, m')
  | desync {d m m'} (hsink : m'.sink = m.sink) : Alike Q (.desync d, m) (.desync d, m')

/-- `Outcome.Alike` from right to left. -/
theorem Outcome.Alike.flip {Q : Machine → Machine → Prop} {α : Type}
    {p p' : Outcome α × Machine} (h : Outcome.Alike Q p p') :
    Outcome.Alike (fun m m' => Q m' m) p' p := by
  cases h with
  | finished hm => exact .finished hm
  | failed hm => exact .failed hm
  | desync hsink => exact .desync hsink.symm

/-- Machines outside of all scopes that stand for each other. -/
def Machine.Matches (c : Bracing) (m m' : Machine) : Prop :=
  ∃ frames env, Machine.Braced c frames [] env m m'

section Statements

variable {c : Bracing} {host : Host} {m m' : Machine} {s s' : Stmt}

/-- So have machines that match. -/
theorem Machine.Matches.sink_eq (h : m.Matches c m') : m'.sink = m.sink := by
  obtain ⟨_, _, hm⟩ := h
  exact hm.sink

/-- The globals are current again. -/
theorem Machine.Matches.globals (h : m.Matches c m') :
    Machine.Matches c { m with env := Machine.globals } { m' with env := Machine.globals } := by
  obtain ⟨frames, _, hm⟩ := h
  exact ⟨frames, _, hm.leave (.globals hm.store.globals)⟩

/-- Statements start in states that match. -/
theorem Machine.Matches.exec (h : m.Matches c m') (hs : Node.Braced c [] (.stmt s) (.stmt s')) :
    (State.exec s .done m).Matches c (.exec s' .done m') := by
  obtain ⟨frames, env, hm⟩ := h
  exact ⟨frames, .exec hs .done hm⟩

/-- Finished runs that match have ended in the same way. -/
theorem State.Matches.ending? {t t' : State} (h : t.Matches c t') (hfinal : t'.isFinal = true) :
    Option.Rel (Outcome.Alike (Machine.Matches c)) t.ending? t'.ending? := by
  obtain ⟨frames, h⟩ := h
  cases h with
  | eval | exec | value => exact .none
  | entered => cases hfinal
  | flow _ hk hm =>
    cases hk with
    | done => exact .some (.finished ⟨_, _, hm⟩)
    | sequence | leaveBlock | again | leaveCall | ended | unbrace => cases hfinal
  | failed hm => exact .some (.failed ⟨_, _, hm⟩)
  | desync hm => exact .some (.desync hm.sink)

/-- A statement that ends does so in the same way with extra braces. -/
theorem Machine.Matches.executes (h : m.Matches c m') (hs : Node.Braced c [] (.stmt s) (.stmt s'))
    {p : Outcome Flow × Machine} (hexec : m.Executes (c.next host) s p) :
    ∃ p', m'.Executes (step host) s' p' ∧ Outcome.Alike (Machine.Matches c) p p' := by
  obtain ⟨n, hfinal, hending⟩ := hexec
  obtain ⟨n₁, hmatches⟩ := (h.exec hs).ahead n
  -- There may be extra blocks that the second run has still to leave.
  obtain ⟨n₂, hfinal', hmatches⟩ := hmatches.last hfinal
  rw [← Function.iterate_add_apply] at hfinal' hmatches
  obtain ⟨p', hending', halike⟩ := exists_of_rel (hmatches.ending? hfinal') hending
  exact ⟨p', ⟨n₂ + n₁, hfinal', hending'⟩, halike⟩

/-- A statement that ends with extra braces does so in the same way without them. -/
theorem Machine.Matches.executed (h : m.Matches c m') (hs : Node.Braced c [] (.stmt s) (.stmt s'))
    {p' : Outcome Flow × Machine} (hexec : m'.Executes (step host) s' p') :
    ∃ p, m.Executes (c.next host) s p ∧ Outcome.Alike (Machine.Matches c) p p' := by
  obtain ⟨n', hfinal', hending'⟩ := hexec
  obtain ⟨n, hmatches⟩ := (h.exec hs).behind n'
  have hrel := hmatches.ending? hfinal'
  rw [hending'] at hrel
  cases hending : ((c.next host)^[n] (.exec s .done m)).ending? with
  | none =>
    rw [hending] at hrel
    cases hrel
  | some p =>
    rw [hending] at hrel
    cases hrel with
    | some halike => exact ⟨p, ⟨n, hmatches.isFinal hfinal', hending⟩, halike⟩

end Statements

/-! ### Programs -/

section Programs

variable {next next' : State → State} {R : Stmt → Stmt → Prop} {Q : Machine → Machine → Prop}
  {ss ss' : List Stmt} {m m' : Machine}

/-- **Programs whose statements end alike end alike.** -/
theorem Machine.Interprets.alike
    (hexec : ∀ {s s' m m'}, R s s' → Q m m' → ∀ {p}, m.Executes next s p →
      ∃ p', m'.Executes next' s' p' ∧ Outcome.Alike Q p p')
    (hsink : ∀ {m m'}, Q m m' → m'.sink = m.sink)
    (hglobals : ∀ {m m' : Machine}, Q m m' →
      Q { m with env := Machine.globals } { m' with env := Machine.globals })
    {o : Outcome Unit} {m₁ : Machine} (h : m.Interprets next ss o m₁)
    (hss : List.Forall₂ R ss ss') (hm : Q m m') :
    ∃ m₁', m'.Interprets next' ss' o m₁' ∧ m₁'.sink = m₁.sink := by
  -- Flushing shows nothing but the sink.
  have hflush {m m' : Machine} (hm : Q m m') (o : Outcome Unit) : m'.flush o = m.flush o := by
    unfold Machine.flush
    rw [hsink hm]
  induction h generalizing ss' m' with
  | nil =>
    cases hss
    exact ⟨m', hflush hm _ ▸ .nil, hsink hm⟩
  | next hfirst _ ih =>
    cases hss with
    | cons hs hss =>
      obtain ⟨_, hfirst', halike⟩ := hexec hs hm hfirst
      cases halike with
      | finished hm₁ =>
        obtain ⟨m₁', hrest', hsink'⟩ := ih hss hm₁
        exact ⟨m₁', .next hfirst' hrest', hsink'⟩
  | failed hfirst =>
    cases hss with
    | cons hs _ =>
      obtain ⟨_, hfirst', halike⟩ := hexec hs hm hfirst
      cases halike with
      | failed hm₁ =>
        rw [← hflush (hglobals hm₁)]
        exact ⟨_, .failed hfirst', hsink (hglobals hm₁)⟩
  | desync hfirst =>
    cases hss with
    | cons hs _ =>
      obtain ⟨_, hfirst', halike⟩ := hexec hs hm hfirst
      cases halike with
      | desync hsame => exact ⟨_, .desync hfirst', hsame⟩

/-- Programs whose statements write and end alike show the same at all times. -/
theorem Machine.Writes.alike
    (hexec : ∀ {s s' m m'}, R s s' → Q m m' → ∀ {p}, m.Executes next s p →
      ∃ p', m'.Executes next' s' p' ∧ Outcome.Alike Q p p')
    (hsteps : ∀ {s s' m m'}, R s s' → Q m m' → ∀ n, ∃ n',
      (next'^[n'] (.exec s' .done m')).machine.sink = (next^[n] (.exec s .done m)).machine.sink)
    {sink : Sink} (h : m.Writes next ss sink) (hss : List.Forall₂ R ss ss') (hm : Q m m') :
    m'.Writes next' ss' sink := by
  induction h generalizing ss' m' with
  | now n =>
    cases hss with
    | cons hs _ =>
      obtain ⟨n', hsink⟩ := hsteps hs hm n
      exact hsink ▸ .now n'
  | later hfirst _ ih =>
    cases hss with
    | cons hs hss =>
      obtain ⟨_, hfirst', halike⟩ := hexec hs hm hfirst
      cases halike with
      | finished hm₁ => exact .later hfirst' (ih hss hm₁)

end Programs

/-- The statements of a program, one by one. -/
theorem Node.Braced.forall₂ {c : Bracing} {around : Around} {ss ss' : List Stmt}
    (hss : Node.Braced c around (.stmts ss) (.stmts ss')) :
    List.Forall₂ (fun s s' => Node.Braced c around (.stmt s) (.stmt s')) ss ss' := by
  induction ss generalizing ss' with
  | nil =>
    cases hss with
    | noStmts => exact .nil
  | cons s ss ih =>
    cases hss with
    | stmts hs hss => exact .cons hs (ih hss)

namespace Machine.Matches

variable {c : Bracing} {host : Host} {ss ss' : List Stmt} {m m' : Machine}

/-- Statements end with extra braces as they do without them, the other way round. -/
theorem executed_flip {s' s : Stmt} (hs : Node.Braced c [] (.stmt s) (.stmt s'))
    (hm : m.Matches c m') {p' : Outcome Flow × Machine} (hexec : m'.Executes (step host) s' p') :
    ∃ p, m.Executes (c.next host) s p ∧ Outcome.Alike (fun m' m => m.Matches c m') p' p := by
  obtain ⟨p, hexec, halike⟩ := hm.executed hs hexec
  exact ⟨p, hexec, halike.flip⟩

/-- **A program ends in the way it ends with extra braces.** -/
theorem interprets_iff (hm : m.Matches c m') (hss : Node.Braced c [] (.stmts ss) (.stmts ss'))
    (o : Outcome Unit) (sink : Sink) :
    (∃ m₁, m.Interprets (c.next host) ss o m₁ ∧ m₁.sink = sink) ↔
      ∃ m₁', m'.Interprets (step host) ss' o m₁' ∧ m₁'.sink = sink := by
  constructor
  · rintro ⟨m₁, hrun, rfl⟩
    exact hrun.alike (fun hs hm => hm.executes hs) (·.sink_eq) (·.globals) hss.forall₂ hm
  · rintro ⟨m₁', hrun, rfl⟩
    exact hrun.alike (R := fun s' s => Node.Braced c [] (.stmt s) (.stmt s'))
      (Q := fun m' m => m.Matches c m') (fun hs hm => executed_flip hs hm) (·.sink_eq.symm)
      (·.globals) hss.forall₂.flip hm

/-- Whatever a program has written at some moment, it has written also with extra braces. -/
theorem writes_iff (hm : m.Matches c m') (hss : Node.Braced c [] (.stmts ss) (.stmts ss'))
    (sink : Sink) : m.Writes (c.next host) ss sink ↔ m'.Writes (step host) ss' sink := by
  constructor
  · intro h
    refine h.alike (fun hs hm => hm.executes hs) (fun hs hm n => ?_) hss.forall₂ hm
    obtain ⟨n', hmatches⟩ := (hm.exec hs).ahead n
    exact ⟨n', hmatches.sink_eq⟩
  · intro h
    refine h.alike (R := fun s' s => Node.Braced c [] (.stmt s) (.stmt s'))
      (Q := fun m' m => m.Matches c m') (fun hs hm => executed_flip hs hm) (fun hs hm n' => ?_)
      hss.forall₂.flip hm
    obtain ⟨n, hmatches⟩ := (hm.exec hs).behind n'
    exact ⟨n, hmatches.sink_eq.symm⟩

end Machine.Matches

end Scriptlet
