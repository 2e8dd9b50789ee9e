import Scriptlet.Proofs.Control

namespace Scriptlet

/-!
# Programs without loops come to an end

Whatever functions a program without loops calls, and however it gets hold of them, it takes a
number of steps that can be computed beforehand. Each call in progress uses up one of the calls
that the host allows, so a call has a **price** by how many others are in progress: what all code
that was ever read costs together, if a call made there costs the price of one level further up.

* `Node.hasLoop` — a loop stands somewhere in a tree, bodies of functions included.
* `Node.cost c` — the steps that a tree takes at most if a call takes at most `c` steps.
* `price` — the steps that a call takes at most, by the number of calls in progress.
* `State.cost` — the steps that are left at most; `State.cost_step_lt` — each step uses one up.
* `Request.terminates_of_loopFree` — every request of a session without loops is answered.
-/

/-! ### Loops -/

mutual

/-- A loop stands in the expression. -/
def Expr.hasLoop : Expr → Bool
  | .literal _ => false
  | .group inner => inner.hasLoop
  | .variable _ _ => false
  | .thisRef _ _ => false
  | .assign _ _ value => value.hasLoop
  | .unary _ operand => operand.hasLoop
  | .binary left _ right => left.hasLoop || right.hasLoop
  | .logical left _ right => left.hasLoop || right.hasLoop
  | .conditional condition _ whenTrue whenFalse =>
    condition.hasLoop || whenTrue.hasLoop || whenFalse.hasLoop
  | .call callee _ arguments => callee.hasLoop || Expr.haveLoop arguments
  | .get object _ => object.hasLoop
  | .set object _ value => object.hasLoop || value.hasLoop
  | .function decl => decl.hasLoop

def Expr.haveLoop : List Expr → Bool
  | [] => false
  | e :: es => e.hasLoop || Expr.haveLoop es

/-- The statement is a loop, or one stands in it. -/
def Stmt.hasLoop : Stmt → Bool
  | .expr e => e.hasLoop
  | .print e => e.hasLoop
  | .varDecl _ none => false
  | .varDecl _ (some e) => e.hasLoop
  | .block body => Stmt.haveLoop body
  | .ifElse condition whenTrue none => condition.hasLoop || whenTrue.hasLoop
  | .ifElse condition whenTrue (some whenFalse) =>
    condition.hasLoop || whenTrue.hasLoop || whenFalse.hasLoop
  | .whileLoop _ _ => true
  | .funDecl decl => decl.hasLoop
  | .ret _ none => false
  | .ret _ (some e) => e.hasLoop
  | .classDecl _ methods => FunDecl.haveLoop methods

def Stmt.haveLoop : List Stmt → Bool
  | [] => false
  | s :: ss => s.hasLoop || Stmt.haveLoop ss

/-- A loop stands in the body of the function. -/
def FunDecl.hasLoop : FunDecl → Bool
  | .mk _ _ body => Stmt.haveLoop body

def FunDecl.haveLoop : List FunDecl → Bool
  | [] => false
  | f :: fs => f.hasLoop || FunDecl.haveLoop fs

end

/-- A loop stands in the part of a tree. -/
def Node.hasLoop : Node → Bool
  | .expr e => e.hasLoop
  | .exprs es => Expr.haveLoop es
  | .stmt s => s.hasLoop
  | .stmts ss => Stmt.haveLoop ss
  | .function _ decl => decl.hasLoop
  | .functions decls => FunDecl.haveLoop decls

variable {v u : Visit} {c : Scene} {h : History} {decl : FunDecl} {host : Host} {t : State}
  {st : Standing}

/-- Parts of a tree without loops have none. -/
theorem Visit.Child.hasLoop (h : v.Child u) (hv : v.node.hasLoop = false) :
    u.node.hasLoop = false := by
  cases h with
  | part h =>
    cases h with
    | condition | whenTrue =>
      rename_i b
      cases b <;> simp_all [Node.hasLoop, Stmt.hasLoop]
    | _ =>
      simp_all [Node.hasLoop, Expr.hasLoop, Expr.haveLoop, Stmt.hasLoop, Stmt.haveLoop,
        FunDecl.haveLoop]
  | rest => exact (Bool.or_eq_false_iff.1 hv).2
  | @function w site kind decl =>
    cases decl
    exact hv
  | initializer | named | block | methods => exact hv

/-- `Visit.Child.hasLoop`, however deep the part is. -/
theorem Visit.Below.hasLoop (h : v.Below u) (hv : v.node.hasLoop = false) :
    u.node.hasLoop = false := by
  induction h with
  | refl => exact hv
  | tail _ hc ih => exact hc.hasLoop ih

/-! ### The steps of a tree -/

section Cost

variable (c : Nat)

mutual

/-- The steps in which an expression is evaluated, if a call takes at most `c` of them. A function
    counts with its body although making the function does not run it: so no part of a tree costs
    more than the tree. -/
def Expr.cost : Expr → Nat
  | .literal _ => 1
  | .group inner => inner.cost + 1
  | .variable _ _ => 1
  | .thisRef _ _ => 1
  | .assign _ _ value => value.cost + 2
  | .unary _ operand => operand.cost + 2
  | .binary left _ right => left.cost + right.cost + 3
  | .logical left _ right => left.cost + right.cost + 2
  | .conditional condition _ whenTrue whenFalse =>
    condition.cost + whenTrue.cost + whenFalse.cost + 2
  | .call callee _ arguments => callee.cost + Expr.costAll arguments + c + 2
  | .get object _ => object.cost + 2
  | .set object _ value => object.cost + value.cost + 3
  | .function decl => decl.cost + 1

/-- The steps in which arguments are evaluated and collected. -/
def Expr.costAll : List Expr → Nat
  | [] => 0
  | e :: es => e.cost + Expr.costAll es + 1

/-- The steps in which a statement is executed. What is said of loops does not matter. -/
def Stmt.cost : Stmt → Nat
  | .expr e => e.cost + 2
  | .print e => e.cost + 2
  | .varDecl _ none => 1
  | .varDecl _ (some e) => e.cost + 2
  | .block body => Stmt.costAll body + 3
  | .ifElse condition whenTrue none => condition.cost + whenTrue.cost + 2
  | .ifElse condition whenTrue (some whenFalse) =>
    condition.cost + whenTrue.cost + whenFalse.cost + 2
  | .whileLoop condition body => condition.cost + body.cost + 1
  | .funDecl decl => decl.cost + 1
  | .ret _ none => 1
  | .ret _ (some e) => e.cost + 2
  | .classDecl _ methods => FunDecl.costAll methods + 1

/-- The steps in which statements are executed one after the other. -/
def Stmt.costAll : List Stmt → Nat
  | [] => 0
  | s :: ss => s.cost + Stmt.costAll ss + 1

/-- The steps of the body of a function. -/
def FunDecl.cost : FunDecl → Nat
  | .mk _ _ body => Stmt.costAll body

def FunDecl.costAll : List FunDecl → Nat
  | [] => 0
  | f :: fs => f.cost + FunDecl.costAll fs

end

/-- The steps of a part of a tree. -/
def Node.cost : Node → Nat
  | .expr e => e.cost c
  | .exprs es => Expr.costAll c es
  | .stmt s => s.cost c
  | .stmts ss => Stmt.costAll c ss
  | .function _ decl => decl.cost c
  | .functions decls => FunDecl.costAll c decls

/-- No part of a tree costs more than the tree. -/
theorem Visit.Child.cost_le {v u : Visit} (h : v.Child u) : u.node.cost c ≤ v.node.cost c := by
  cases h with
  | part h =>
    cases h with
    | condition | whenTrue =>
      rename_i b
      cases b <;> simp only [Node.cost, Stmt.cost] <;> omega
    | _ =>
      simp only [Node.cost, Expr.cost, Expr.costAll, Stmt.cost, Stmt.costAll, FunDecl.costAll]
      omega
  | @function w site kind decl =>
    cases decl
    exact Nat.le_refl _
  | rest | initializer | named | block | methods =>
    simp only [Node.cost, Stmt.cost, Stmt.costAll]
    omega

/-- `Visit.Child.cost_le`, however deep the part is. -/
theorem Visit.Below.cost_le {v u : Visit} (h : v.Below u) : u.node.cost c ≤ v.node.cost c := by
  induction h with
  | refl => exact Nat.le_refl _
  | tail _ hc ih => exact (hc.cost_le c).trans ih

/-- The steps of some programs together. -/
def Visit.costAll : List Visit → Nat
  | [] => 0
  | p :: ps => p.node.cost c + Visit.costAll ps

/-- No program costs more than all together. -/
theorem Visit.cost_le_costAll {p : Visit} {ps : List Visit} (hp : p ∈ ps) :
    p.node.cost c ≤ Visit.costAll c ps := by
  induction ps with
  | nil => exact absurd hp List.not_mem_nil
  | cons first rest ih =>
    rw [Visit.costAll]
    obtain rfl | hp := List.mem_cons.1 hp
    · exact Nat.le_add_right _ _
    · exact (ih hp).trans (Nat.le_add_left _ _)

/-- No part of a program that was read costs more than all programs together. -/
theorem History.Knows.cost_le {h : History} {v : Visit} (hv : h.Knows v) :
    v.node.cost c ≤ Visit.costAll c h.programs := by
  obtain ⟨p, hp, hbelow⟩ := hv
  exact (hbelow.cost_le c).trans (Visit.cost_le_costAll c hp)

end Cost

/-! ### The steps of a call -/

/-- The function stands in a program that was read. -/
def History.HasFunction (h : History) (decl : FunDecl) : Prop :=
  ∃ v kind, h.Knows v ∧ v.node = .function kind decl

/-- A function that a run makes stands in a program that was read. -/
theorem Closure.Sound.hasFunction {closure : Closure} (h : closure.Sound c) :
    c.history.HasFunction closure.decl := by
  obtain ⟨kind, v, hnode, hready⟩ := h.ready
  exact ⟨v, kind, hready.known, hnode⟩

/-- The methods of a class that was read were read. -/
theorem History.Knows.hasFunction (hv : h.Knows v) {decls : List FunDecl}
    (hnode : v.node = .functions decls) (hd : decl ∈ decls) : h.HasFunction decl := by
  induction decls generalizing v with
  | nil => exact absurd hd List.not_mem_nil
  | cons first decls ih =>
    obtain ⟨w, site, n⟩ := v
    cases hnode
    obtain rfl | hd := List.mem_cons.1 hd
    · exact ⟨_, _, hv.child (.part .method), rfl⟩
    · exact ih (hv.child (.part .nextMethods)) rfl hd

/-- `History.Knows.hasFunction` for a method that is found in a class. -/
theorem Class.Sound.hasFunction {cls : Class} (h : cls.Sound c) {x : String} {method : Closure}
    (hmethod : cls.method? x = some method) : c.history.HasFunction method.decl := by
  obtain ⟨⟨w, site, n⟩, name, hnode, -, hknown, -⟩ := h
  cases hnode
  exact (hknown.child .methods).hasFunction rfl (Class.mem_of_method? hmethod).1

/-- The steps that a call takes at most if `left` calls may be in progress at once, this one
    included: the body is some part of a program, and what it calls has one call less. -/
def callCost (programs : List Visit) : Nat → Nat
  | 0 => 0
  | left + 1 => Visit.costAll (callCost programs left) programs + 3

/-- The steps that a call takes at most while `calls` others are in progress. -/
def price (host : Host) (programs : List Visit) (calls : Nat) : Nat :=
  callCost programs (host.maxCalls - calls)

/-- The body of a function is paid by the price of a call, three steps being left. -/
theorem History.HasFunction.price_body (hd : h.HasFunction decl) {calls : Nat}
    (hroom : calls < host.maxCalls) :
    Stmt.costAll (price host h.programs (calls + 1)) decl.body + 3 ≤
      price host h.programs calls := by
  obtain ⟨v, kind, hv, hnode⟩ := hd
  obtain ⟨left, hleft⟩ : ∃ left, host.maxCalls - calls = left + 1 :=
    ⟨host.maxCalls - calls - 1, by omega⟩
  have hless : host.maxCalls - (calls + 1) = left := by omega
  have hbody := hv.cost_le (callCost h.programs left)
  rw [hnode] at hbody
  unfold price
  rw [hleft, hless]
  cases decl
  exact Nat.add_le_add_right hbody 3

/-! ### The steps that are left -/

section Left

variable (rate : Nat → Nat)

mutual

/-- The steps that are left once a value is there, where `rate n` is the price of a call while `n`
    others are in progress. -/
def ExprCont.cost : ExprCont → Nat
  | .done => 0
  | .assign _ _ k => k.cost + 1
  | .unary _ k => k.cost + 1
  | .left _ right k => right.cost (rate k.calls.length) + k.cost + 2
  | .right _ _ k => k.cost + 1
  | .logical _ right k => right.cost (rate k.calls.length) + k.cost + 1
  | .choose whenTrue whenFalse k =>
    whenTrue.cost (rate k.calls.length) + whenFalse.cost (rate k.calls.length) + k.cost + 1
  | .callee _ arguments k =>
    Expr.costAll (rate k.calls.length) arguments + rate k.calls.length + k.cost + 1
  | .argument _ _ _ after k =>
    Expr.costAll (rate k.calls.length) after + rate k.calls.length + k.cost + 1
  | .property _ k => k.cost + 1
  | .fieldOwner _ value k => value.cost (rate k.calls.length) + k.cost + 2
  | .fieldValue _ _ k => k.cost + 1
  | .construct _ k => k.cost + 1
  | .discard k => k.cost + 1
  | .print k => k.cost + 1
  | .define _ k => k.cost + 1
  | .branch whenTrue none k => whenTrue.cost (rate k.calls.length) + k.cost + 1
  | .branch whenTrue (some whenFalse) k =>
    whenTrue.cost (rate k.calls.length) + whenFalse.cost (rate k.calls.length) + k.cost + 1
  | .test _ _ k => k.cost + 1
  | .ret k => k.cost + 1

/-- The steps that are left behind a statement. -/
def StmtCont.cost : StmtCont → Nat
  | .done => 0
  | .sequence rest k => Stmt.costAll (rate k.calls.length) rest + k.cost + 1
  | .leaveBlock _ k => k.cost + 1
  | .again _ _ k => k.cost + 1
  | .leaveCall _ _ k => k.cost + 1

end

/-- The steps that are left. -/
def State.cost : State → Nat
  | .eval e k _ => e.cost (rate k.calls.length) + k.cost rate
  | .exec s k _ => s.cost (rate k.calls.length) + k.cost rate
  | .value _ k _ => k.cost rate
  | .flow _ k _ => k.cost rate
  | .failed _ _ => 0
  | .desync _ _ => 0

end Left

/-! ### Each step uses one up -/

/-- No program that was read has a loop. -/
def History.LoopFree (h : History) : Prop := ∀ p ∈ h.programs, p.node.hasLoop = false

/-- No part of what was read has a loop. -/
theorem History.LoopFree.knows (hfree : h.LoopFree) (hv : h.Knows v) : v.node.hasLoop = false := by
  obtain ⟨p, hp, hbelow⟩ := hv
  exact hbelow.hasLoop (hfree p hp)

/-- By `LoopFree.knows`, no loop is ever about to run. -/
theorem History.LoopFree.not_ready (hfree : h.LoopFree) {store : Store} {env : Env}
    {condition : Expr} {body : Stmt} :
    ¬ (Node.stmt (.whileLoop condition body)).Ready ⟨h, store⟩ [] env := by
  rintro ⟨v, hnode, hready⟩
  have hno := hfree.knows hready.known
  rw [hnode] at hno
  cases hno

/-- What hands on a value leaves the steps of the continuation. -/
theorem State.Hands.cost_le (rate : Nat → Nat) {k : ExprCont} {m : Machine} {token : Token}
    {faults : RuntimeFault → Prop} {strays : Prop} (h : t.Hands k m token faults strays) :
    t.cost rate ≤ k.cost rate := by
  cases h with
  | value => exact Nat.le_refl _
  | failed | desync => exact Nat.zero_le _

namespace Step

variable {host : Host} {h : History} {rate : Nat → Nat} {k : ExprCont} {m : Machine}

/-- A function that is entered is paid by the price of the call, with one step left. -/
theorem cost_enter {callee : Closure} (hcallee : h.HasFunction callee.decl)
    (hroom : k.calls.length < host.maxCalls) (arguments : List Value) :
    (enter callee arguments k m).cost (price host h.programs) + 1 ≤
      price host h.programs k.calls.length + k.cost (price host h.programs) := by
  have hbody := hcallee.price_body hroom
  show Stmt.costAll (price host h.programs (k.calls.length + 1)) callee.decl.body +
    (k.cost (price host h.programs) + 1) + 1 + 1 ≤ _
  omega

/-- A new object is paid by the price of the call. -/
theorem cost_instantiate {cls : Class} (hcls : cls.Sound ⟨h, m.store⟩)
    (hroom : k.calls.length < host.maxCalls) (arguments : List Value) :
    (instantiate cls arguments k m).cost (price host h.programs) ≤
      price host h.programs k.calls.length + k.cost (price host h.programs) := by
  unfold instantiate
  simp only
  split
  · exact Nat.le_add_left _ _
  · next initializer hinit =>
    -- One step more: the object takes the place of what the initializer yields.
    have hfunction : h.HasFunction initializer.decl := hcls.hasFunction hinit
    have hbody := hfunction.price_body hroom
    show Stmt.costAll (price host h.programs (k.calls.length + 1)) initializer.decl.body +
      (k.cost (price host h.programs) + 1 + 1) + 1 ≤ _
    omega

/-- A call is paid by its price. -/
theorem cost_call {callee : Value} (hcallee : callee.Sound ⟨h, m.store⟩)
    (hcalls : k.calls.length ≤ m.callDepth) (paren : Token) (arguments : List Value) :
    (call host callee paren arguments k m).cost (price host h.programs) ≤
      price host h.programs k.calls.length + k.cost (price host h.programs) := by
  obtain hhands | ⟨id, closure, rfl, hroom, henter⟩ | ⟨id, cls, rfl, hroom, hmake⟩ :=
    call_cases host k m callee paren arguments
  · exact (hhands.cost_le _).trans (Nat.le_add_left _ _)
  · rw [henter]
    have hfunction : h.HasFunction closure.decl := Closure.Sound.hasFunction hcallee
    exact (Nat.le_succ _).trans (cost_enter hfunction (hcalls.trans_lt hroom) arguments)
  · rw [hmake]
    exact cost_instantiate hcallee (hcalls.trans_lt hroom) arguments

/-- The next argument, or the call, is paid by what is left of the call. -/
theorem cost_nextArgument {callee : Value} (hcallee : callee.Sound ⟨h, m.store⟩)
    (hcalls : k.calls.length ≤ m.callDepth) (paren : Token) (before : List Value)
    (after : List Expr) :
    (nextArgument host callee paren before after k m).cost (price host h.programs) ≤
      Expr.costAll (price host h.programs k.calls.length) after +
        price host h.programs k.calls.length + k.cost (price host h.programs) := by
  cases after with
  | nil =>
    rw [Expr.costAll, Nat.zero_add]
    exact cost_call hcallee hcalls paren _
  | cons e after =>
    rw [Expr.costAll]
    show e.cost (price host h.programs k.calls.length) +
      (Expr.costAll (price host h.programs k.calls.length) after +
        price host h.programs k.calls.length + k.cost (price host h.programs) + 1) ≤ _
    omega

/-- The start of an evaluation uses one step of the expression. -/
theorem cost_eval (e : Expr) :
    (Step.eval e k m).cost rate < e.cost (rate k.calls.length) + k.cost rate := by
  cases e with
  | «variable» id name | thisRef id name =>
    have hread := (hands_readVariable (k := k) (m := m) id name).cost_le rate
    rw [Expr.cost]
    exact hread.trans_lt (by omega)
  | _ =>
    simp only [Step.eval, State.cost, ExprCont.cost, ExprCont.calls, Expr.cost]
    omega

/-- The start of a statement uses one step of the statement, unless it is a loop. -/
theorem cost_exec {s : Stmt} {k : StmtCont}
    (hs : ∀ condition body, s ≠ .whileLoop condition body) :
    (Step.exec s k m).cost rate < s.cost (rate k.calls.length) + k.cost rate := by
  cases s with
  | varDecl name e | ret keyword e =>
    cases e <;>
      simp only [Step.exec, State.cost, ExprCont.cost, ExprCont.calls, Stmt.cost] <;> omega
  | ifElse condition whenTrue whenFalse =>
    cases whenFalse <;>
      simp only [Step.exec, State.cost, ExprCont.cost, ExprCont.calls, Stmt.cost] <;> omega
  | whileLoop condition body => exact absurd rfl (hs condition body)
  | _ =>
    simp only [Step.exec, State.cost, ExprCont.cost, ExprCont.calls, StmtCont.cost, StmtCont.calls,
      Stmt.cost]
    omega

/-- What is done with a value uses one step of the continuation. -/
theorem cost_resumeValue {v : Value} (hfree : h.LoopFree) (hv : v.Sound ⟨h, m.store⟩)
    (hk : k.Fits ⟨h, m.store⟩ m.env) (hcalls : k.calls.length ≤ m.callDepth)
    (hfinal : k ≠ .done) :
    (resumeValue host v k m).cost (price host h.programs) < k.cost (price host h.programs) := by
  cases k with
  | done => exact absurd rfl hfinal
  | assign id name k => exact Nat.lt_succ_of_le ((hands_writeVariable id name v).cost_le _)
  | unary op k | right first op k =>
    exact Nat.lt_succ_of_le ((hands_operatorResult op _).cost_le _)
  | logical op right k =>
    simp only [resumeValue, ExprCont.cost]
    split <;> simp only [State.cost] <;> omega
  | choose whenTrue whenFalse k =>
    simp only [resumeValue, State.cost, ExprCont.cost]
    split <;> omega
  | callee paren arguments k =>
    exact Nat.lt_succ_of_le (cost_nextArgument (k := k) hv hcalls paren [] arguments)
  | argument callee paren before after k =>
    exact Nat.lt_succ_of_le (cost_nextArgument (k := k) hk.1 hcalls paren (v :: before) after)
  | property name k => exact Nat.lt_succ_of_le ((hands_readProperty v name).cost_le _)
  | fieldOwner name value k =>
    cases v with
    | object id cls =>
      simp only [resumeValue, State.cost, ExprCont.cost, ExprCont.calls]
      omega
    | _ => exact Nat.succ_pos _
  | print k =>
    simp only [resumeValue, ExprCont.cost]
    split
    · exact Nat.lt_succ_self _
    · exact Nat.succ_pos _
  | branch whenTrue whenFalse k =>
    cases whenFalse <;> simp only [resumeValue, ExprCont.cost] <;> split <;>
      simp only [State.cost] <;> omega
  -- Without loops, no condition of a loop is ever being tested.
  | test condition body k => exact absurd hk.1 hfree.not_ready
  | left | fieldValue | construct | discard | define | ret =>
    simp only [resumeValue, State.cost, ExprCont.cost, ExprCont.calls]
    omega

/-- What is done behind a statement uses one step of the continuation. -/
theorem cost_resumeFlow (f : Flow) {k : StmtCont} (hfree : h.LoopFree)
    (hk : k.Fits ⟨h, m.store⟩ [] m.env) (hfinal : k ≠ .done) :
    (resumeFlow f k m).cost rate < k.cost rate := by
  cases k with
  | done => exact absurd rfl hfinal
  | sequence rest k =>
    cases f <;> cases rest <;>
      simp only [resumeFlow, State.cost, StmtCont.cost, StmtCont.calls, Stmt.costAll] <;> omega
  | leaveBlock env k => exact Nat.lt_succ_self _
  | again condition body k => exact absurd hk.1 hfree.not_ready
  | leaveCall env callee k =>
    exact Nat.lt_succ_of_le ((hands_callResult callee f ⟨.eof, "", 0⟩).cost_le _)

end Step

/-- **Each step uses up one of the steps that are left.** -/
theorem State.cost_step_lt (hfree : h.LoopFree) (ht : t.Sound h) (host : Host)
    (hcalls : t.calls.length ≤ t.machine.callDepth) (hfinal : t.isFinal = false) :
    (step host t).cost (price host h.programs) < t.cost (price host h.programs) := by
  cases t with
  | eval e k m => exact Step.cost_eval e
  | exec s k m =>
    apply Step.cost_exec
    rintro condition body rfl
    exact hfree.not_ready ht.2.1
  | value v k m =>
    apply Step.cost_resumeValue hfree ht.2.1 ht.2.2 hcalls
    rintro rfl
    cases hfinal
  | flow f k m =>
    apply Step.cost_resumeFlow f hfree ht.2.2
    rintro rfl
    cases hfinal
  | failed | desync => cases hfinal

/-! ### Runs -/

/-- The calls that a state has to leave are in progress. -/
theorem State.Returns.calls_le (ht : t.Returns st) : t.calls.length ≤ t.machine.callDepth := by
  cases t with
  | eval | exec | value | flow =>
    have hcount := Standing.Awaits.calls ht
    exact (Nat.le_add_left _ _).trans hcount.ge
  | failed | desync => exact Nat.zero_le _

/-- **A run ends** after the steps that were left, or before. -/
theorem State.isFinal_iterate_of_cost_le (hfree : h.LoopFree) (ht : t.Sound h)
    (hreturns : t.Returns st) {n : Nat} (hn : t.cost (price host h.programs) ≤ n) :
    ((step host)^[n] t).isFinal = true := by
  induction n generalizing t h with
  | zero =>
    -- A state that is not final costs at least the step that it takes.
    by_contra hfinal
    have hless := State.cost_step_lt hfree ht host hreturns.calls_le (Bool.eq_false_iff.2 hfinal)
    omega
  | succ n ih =>
    by_cases hfinal : t.isFinal = true
    · rw [iterate_step_of_isFinal hfinal]
      exact hfinal
    · have hless := State.cost_step_lt hfree ht host hreturns.calls_le (Bool.eq_false_iff.2 hfinal)
      -- Only the environments that were made differ behind the step, which the price ignores.
      exact ih (h := h.extend (t.makes host)) hfree (ht.step host) (hreturns.step host)
        (show (step host t).cost (price host h.programs) ≤ n by omega)

section Programs

variable {h : History} {m : Machine}

/-- The steps that suffice for each statement of the programs that were read. -/
def History.stepBound (host : Host) (h : History) : Nat :=
  Visit.costAll (price host h.programs 0) h.programs

variable {s : Stmt} {ss : List Stmt}

/-- A statement of a program that was read costs `stepBound` at most. -/
theorem Machine.cost_begin_le (host : Host) (alone : Bool) (m : Machine)
    (htop : h.AtTop (.stmt s)) :
    (m.begin alone s).cost (price host h.programs) ≤ h.stepBound host := by
  obtain ⟨v, hnode, hknown, -⟩ := htop
  have hs : s.cost (price host h.programs 0) ≤ h.stepBound host := by
    have hle := hknown.cost_le (price host h.programs 0)
    rwa [hnode] at hle
  unfold Machine.begin
  split
  · next e =>
    have he : e.cost (price host h.programs 0) + 2 ≤ h.stepBound host := hs
    show e.cost (price host h.programs 0) + 0 ≤ _
    omega
  · exact hs

section

variable (hm : m.Sound h) (hrest : m.AtRest) (hfree : h.LoopFree) (host : Host)

include hm hrest hfree

/-- A statement ends in one and the same state under every bound that suffices. -/
theorem Machine.Sound.exists_runSteps (alone : Bool) (htop : h.AtTop (.stmt s)) :
    ∃ t, t.isFinal = true ∧
      ∀ fuel, h.stepBound host ≤ fuel → runSteps host fuel (m.begin alone s) = some t := by
  have hfinal {fuel : Nat} (hfuel : h.stepBound host ≤ fuel) :
      ((step host)^[fuel] (m.begin alone s)).isFinal = true :=
    State.isFinal_iterate_of_cost_le hfree (hm.begin alone hrest.env htop)
      (m.returns_begin alone s) ((m.cost_begin_le host alone htop).trans hfuel)
  refine ⟨(step host)^[h.stepBound host] (m.begin alone s), hfinal (Nat.le_refl _),
    fun fuel hfuel => ?_⟩
  rw [runSteps_of_isFinal (hfinal hfuel)]
  exact congrArg some (iterate_step_eq_of_le (hfinal (Nat.le_refl _)) hfuel)

/-- `exists_runSteps` for a statement of a program. -/
theorem Machine.Sound.exists_execute (htop : h.AtTop (.stmt s)) :
    ∃ o m', ∀ fuel, h.stepBound host ≤ fuel → m.execute host fuel s = some (o, m') := by
  obtain ⟨t, hfinal, ht⟩ := hm.exists_runSteps hrest hfree host false htop
  have hbegin : (m.begin false s).Above (.stmt .done) := by cases s <;> exact .refl
  have habove := (hbegin.runSteps rfl (ht _ (Nat.le_refl _))).1
  obtain ⟨⟨o, m'⟩, hend⟩ := habove.exists_ending hfinal
  refine ⟨o, m', fun fuel hfuel => ?_⟩
  rw [Machine.execute_eq_bind, ht fuel hfuel]
  exact hend

/-- `exists_runSteps` for a statement that runs on its own. -/
theorem Machine.Sound.exists_result (htop : h.AtTop (.stmt s)) :
    ∃ r m', ∀ fuel, h.stepBound host ≤ fuel → Session.result host fuel s m = some (r, m') := by
  obtain ⟨t, hfinal, ht⟩ := hm.exists_runSteps hrest hfree host true htop
  obtain ⟨⟨r, m'⟩, hend⟩ := State.exists_result hfinal
  refine ⟨r, m', fun fuel hfuel => ?_⟩
  rw [Session.result_eq_bind, ht fuel hfuel]
  exact hend

/-- A program comes to an end, statement by statement. -/
theorem Machine.Sound.exists_interpret (htop : h.AtTop (.stmts ss)) :
    ∃ r, ∀ fuel, h.stepBound host ≤ fuel → m.interpret host fuel ss = some r := by
  induction ss generalizing m h with
  | nil => exact ⟨_, fun _ _ => rfl⟩
  | cons s ss ih =>
    obtain ⟨o, m', hexec⟩ := hm.exists_execute hrest hfree host htop.first
    have hlast := hexec _ (Nat.le_refl _)
    cases o with
    | finished f =>
      have hnext : m.goOn host (h.stepBound host) false s = some m' := by
        unfold Machine.goOn
        rw [if_neg Bool.false_ne_true, hlast]
      obtain ⟨hm', -⟩ := hm.goOn hrest.env htop.first hnext
      have hrest' := hrest.of_standing (Machine.standing_goOn hnext)
      obtain ⟨r, hr⟩ := ih hm' hrest' hfree (htop.rest.extend _)
      refine ⟨r, fun fuel hfuel => ?_⟩
      simp only [Machine.interpret, hexec fuel hfuel]
      exact hr fuel hfuel
    | failed e =>
      let stopped : Machine := { m' with env := Machine.globals }
      refine ⟨(stopped.flush (.failed e), stopped), fun fuel hfuel => ?_⟩
      simp only [Machine.interpret, hexec fuel hfuel]
      rfl
    | desync d =>
      refine ⟨(.desync d, m'), fun fuel hfuel => ?_⟩
      simp only [Machine.interpret, hexec fuel hfuel]

/-- So do statements that run on their own. -/
theorem Machine.Sound.exists_results (htop : h.AtTop (.stmts ss)) :
    ∃ rs m', ∀ fuel, h.stepBound host ≤ fuel →
      Session.results host fuel ss m = some (rs, m') := by
  induction ss generalizing m h with
  | nil => exact ⟨_, _, fun _ _ => rfl⟩
  | cons s ss ih =>
    obtain ⟨r, m', hresult⟩ := hm.exists_result hrest hfree host htop.first
    have hlast := hresult _ (Nat.le_refl _)
    cases r with
    | error d =>
      refine ⟨.error d, m', fun fuel hfuel => ?_⟩
      simp only [Session.results, hresult fuel hfuel]
    | ok r =>
      have hnext : m.goOn host (h.stepBound host) true s = some m' := by
        unfold Machine.goOn
        rw [if_pos rfl, hlast]
      obtain ⟨hm', -⟩ := hm.goOn hrest.env htop.first hnext
      have hrest' := hrest.of_standing (Machine.standing_goOn hnext)
      obtain ⟨rs, last, hrs⟩ := ih hm' hrest' hfree (htop.rest.extend _)
      cases rs with
      | ok rs =>
        refine ⟨.ok ((r, m') :: rs), last, fun fuel hfuel => ?_⟩
        simp only [Session.results, hresult fuel hfuel]
        rw [show Session.results host fuel ss m' = _ from hrs fuel hfuel]
      | error d =>
        refine ⟨.error d, last, fun fuel hfuel => ?_⟩
        simp only [Session.results, hresult fuel hfuel]
        rw [show Session.results host fuel ss m' = _ from hrs fuel hfuel]

end

/-- `Machine.Sound.exists_interpret` for the machine of a session. -/
theorem Session.Sound.exists_interpret {s : Session} (hs : s.Sound h) (hrest : s.machine.AtRest)
    (hfree : h.LoopFree) (host : Host) (htop : h.AtTop (.stmts ss)) :
    ∃ o s', ∀ fuel, h.stepBound host ≤ fuel → s.interpret host fuel ss = some (o, s') := by
  obtain ⟨⟨o, m'⟩, hr⟩ := hs.machine.exists_interpret hrest hfree host htop
  refine ⟨o, { s with machine := m' }, fun fuel hfuel => ?_⟩
  unfold Session.interpret
  rw [hr fuel hfuel]

end Programs

/-! ### Requests -/

/-- **Without loops every request is answered.** Let a session have performed some requests, and
    let there be no loop in what they read, nor in what a further request reads. Then there are an
    answer to this request, which may be an error or a variable out of place, and a number of
    steps with which it is given: for each statement of the request they suffice, and more of
    them change nothing. Functions of the host are taken to come back, and to be
    `Native.Honest`: what they yield brings no loop with it. -/
theorem Request.terminates_of_loopFree (host : Host) (sink : Sink) (rs : List Request)
    (hnatives : ∀ r ∈ rs, r.DefinesOnly Native.Honest) (s : Session) (h : History)
    (hs : Session.After host sink rs s h) (r : Request)
    (hfree : ∀ p ∈ h.programs ++ (r.program? s).toList, p.node.hasLoop = false) :
    ∃ bound goesOn s', ∀ fuel, bound ≤ fuel → r.perform host fuel s = some (goesOn, s') := by
  have hat := hs.atRest
  have hsound := hs.sound hnatives
  -- Reading a source changes nothing but the recorded depths.
  have hanalyze (source : String) : (s.analyze source).2.machine.AtRest := ⟨hat.env, hat.calls⟩
  have hparse (source : String) : (s.parse source).2.machine.AtRest := ⟨hat.env, hat.calls⟩
  let bound (source : String) : Nat := (h.read (s.program source)).stepBound host
  cases r with
  | analyze source => exact ⟨0, _, _, fun _ _ => rfl⟩
  | native n => exact ⟨0, _, _, fun _ _ => rfl⟩
  | force source =>
    obtain ⟨o, s', hr⟩ := (hsound.analyze source).exists_interpret (hanalyze source) hfree host
      (h.atTop_program s source)
    refine ⟨bound source, !o.isDesync, s', fun fuel hfuel => ?_⟩
    exact congrArg (Option.map _) (hr fuel hfuel)
  | unresolved source =>
    obtain ⟨o, s', hr⟩ := (hsound.parse source).exists_interpret (hparse source) hfree host
      (h.atTop_program s source)
    refine ⟨bound source, !o.isDesync, s', fun fuel hfuel => ?_⟩
    exact congrArg (Option.map _) (hr fuel hfuel)
  | exec source =>
    obtain ⟨rs, m', hr⟩ := (hsound.analyze source).machine.exists_results (hanalyze source) hfree
      host (h.atTop_program s source)
    refine ⟨bound source, rs.isOk, { (s.analyze source).2 with machine := m' },
      fun fuel hfuel => ?_⟩
    have hresults : Session.results host fuel (s.analyze source).1.statements
      (s.analyze source).2.machine = some (rs, m') := hr fuel hfuel
    unfold Request.perform
    simp only [hresults]
    cases rs <;> rfl
  | run source =>
    by_cases herror : (s.analyze source).1.report.hadError = true
    · refine ⟨0, true, (s.analyze source).2, fun fuel _ => ?_⟩
      unfold Request.perform Session.run
      simp only [herror, if_true]
    · obtain ⟨o, s', hr⟩ := (hsound.analyze source).exists_interpret (hanalyze source) hfree host
        (h.atTop_program s source)
      refine ⟨bound source, !o.isDesync, s', fun fuel hfuel => ?_⟩
      have hinterpret : (s.analyze source).2.interpret host fuel (s.analyze source).1.statements =
        some (o, s') := hr fuel hfuel
      unfold Request.perform Session.run
      simp only [herror, hinterpret]
      rfl

/-- Objects that call each other without end: through a function in a field, a method, and the
    class. -/
def Session.endlessClass : String :=
  "class A \x7b init() \x7b this.f = fun () \x7b return A(); \x7d; \x7d " ++
    "m() \x7b return this.f().m(); \x7d \x7d"

/-- Where the class is known, the call that has no end of its own is answered. -/
theorem Request.terminates_of_loopFree_endlessClass :
    ∃ s h, Session.After (Host.usual fun _ => 0) Sink.unbounded [.run Session.endlessClass] s h ∧
      ∃ bound goesOn s', ∀ fuel, bound ≤ fuel →
        (Request.run "A().m();").perform (Host.usual fun _ => 0) fuel s = some (goesOn, s') := by
  have hfirst : ((Request.run Session.endlessClass).perform (Host.usual fun _ => 0) 10
      (Session.new Sink.unbounded)).any (fun r =>
        r.1 && !(r.2.takeOutput.2.program "A().m();").node.hasLoop) = true := by decide +kernel
  have hclass :
      ((Session.new Sink.unbounded).program Session.endlessClass).node.hasLoop = false := by
    decide +kernel
  obtain ⟨⟨goesOn, s⟩, hperform, hs⟩ := (Option.any_eq_true _ _).1 hfirst
  obtain ⟨rfl, hcall⟩ := Bool.and_eq_true_iff.1 hs
  have hafter := Session.After.next .new hperform
  refine ⟨_, _, hafter, Request.terminates_of_loopFree _ _ _ (by simp [Request.DefinesOnly])
    _ _ hafter _ fun p hp => ?_⟩
  obtain rfl | rfl : p = (Session.new Sink.unbounded).program Session.endlessClass ∨
      p = s.takeOutput.2.program "A().m();" := by
    simpa [Request.program?, eq_comm] using hp
  · exact hclass
  · simpa using hcall

end Scriptlet
