import Scriptlet.Proofs.BracedPrograms

namespace Scriptlet

/-!
# Loops with a node of their own

A `for` statement is read as a block and a `while` loop, with another block inside. Here it has a
node of its own, with a meaning of its own: there is one scope, if there is an initializer, and in
that scope the initializer runs, and then again and again the condition, the body and the increment.
Nobody can tell the difference.

* `Stmt.directLoop` — what is executed for a `for` node; `Walk.stmt_directLoop`,
  `stepTurns_directLoop` — how it is resolved, and how it runs.
* `Direct.Expr`, `Direct.Stmt`, `Direct.Decl`, `Direct.Function` — trees with a node for `for`
  statements. Statements and declarations are told apart, as they are when a source is read.
* `Direct.rewriting` — such a program as it is read; `Direct.code` — what is executed for it.
* `Reads.hasTree`, `Session.exists_rewriting` — what is read is the rewriting of a tree with a `for`
  node for each `for` keyword.
* `Session.for_nodes_are_transparent` — the same is reported, and runs write the same and end in
  the same way.
-/

/-! ### The meaning of a loop -/

/-- What is executed for a `for` node. The body and the increment are in no scope of their own. -/
def Stmt.directLoop (initializer : Option Stmt) (condition increment : Option Expr)
    (body : Stmt) : Stmt :=
  let loop := .whileLoop (condition.getD (.literal (.bool true)))
    (increment.elim body (.turn body))
  initializer.elim loop fun first => .block [first, loop]

/-- **How a `for` node is resolved.** The walk goes to the initializer, the condition, the body and
    the increment, all in one scope. -/
theorem Walk.stmt_directLoop (c inc : Option Expr) (body : Stmt) (w : Walk) :
    let past := stmt body (expr (c.getD (.literal (.bool true))) w)
    stmt (.directLoop none c inc body) w = inc.elim past (fun e => expr e past) ∧
    ∀ first, stmt (.directLoop (some first) c inc body) w =
      (stmt (.directLoop none c inc body) (stmt first (w.openScope ∅))).closeScope := by
  constructor
  · -- The mark of a turn is nothing to the walk.
    cases inc <;> rfl
  · intro first
    rfl

/-- By steps that take turns, a run comes from one state to the other. -/
def State.ComesTo (host : Host) (t t' : State) : Prop := ∃ n, (stepTurns host)^[n] t = t'

/-- **How a `for` node runs.** An initializer runs in a new scope, which the loop stays in. The loop
    tests its condition, and is over if that does not hold. Otherwise it executes the body, and is
    over if that returns. After the body it evaluates the increment right where it is, and tests its
    condition again. -/
theorem State.comesTo_directLoop (host : Host) (c inc : Option Expr) (body : Stmt) (k : StmtCont)
    (m : Machine) :
    let condition := c.getD (.literal (.bool true))
    let test := ExprCont.test condition (inc.elim body (.turn body)) k
    let again := StmtCont.again condition (inc.elim body (.turn body)) k
    let increment := inc.elim again fun e => .sequence [.expr e] again
    (∀ first, (State.exec (.directLoop (some first) c inc body) k m).ComesTo host
      (.exec first (.sequence [.directLoop none c inc body] (.leaveBlock m.env k))
        { (m.newFrame []).2 with env := (m.newFrame []).1 :: m.env })) ∧
    (State.exec (.directLoop none c inc body) k m).ComesTo host (.eval condition test m) ∧
    (∀ v : Value, v.isTruthy = false → (State.value v test m).ComesTo host (.flow .normal k m)) ∧
    (∀ v : Value, v.isTruthy = true →
      (State.value v test m).ComesTo host (.exec body increment m)) ∧
    (∀ v, (State.flow (.returned v) increment m).ComesTo host (.flow (.returned v) k m)) ∧
    (inc = none → (State.flow .normal increment m).ComesTo host (.eval condition test m)) ∧
    ∀ e, inc = some e →
      (State.flow .normal increment m).ComesTo host
        (.eval e (.discard (.sequence [] again)) m) ∧
      ∀ v, (State.value v (.discard (.sequence [] again)) m).ComesTo host
        (.eval condition test m) := by
  intro condition test again increment
  refine ⟨fun first => ⟨2, rfl⟩, ⟨1, rfl⟩, fun v hv => ⟨1, ?_⟩, fun v hv => ?_, fun v => ?_,
    fun hinc => ?_, fun e he => ?_⟩
  · show Step.resumeValue host v test m = _
    simp only [test, Step.resumeValue, hv]
    rfl
  · have htest : stepTurns host (.value v test m) =
        .exec (inc.elim body (.turn body)) again m := by
      show Step.resumeValue host v test m = _
      simp only [test, Step.resumeValue, hv]
      rfl
    cases inc with
    | none => exact ⟨1, htest⟩
    | some e => exact ⟨2, congrArg (stepTurns host) htest⟩
  · cases inc with
    | none => exact ⟨1, rfl⟩
    | some e => exact ⟨2, rfl⟩
  · subst hinc
    exact ⟨1, rfl⟩
  · subst he
    exact ⟨⟨2, rfl⟩, fun v => ⟨3, rfl⟩⟩

namespace Direct

/-! ### Trees with `for` nodes -/

mutual

/-- Expressions. A function that is an expression has no name. -/
inductive Expr where
  | literal (value : Literal)
  | group (inner : Expr)
  | read (id : NodeId) (name : Token)
  | thisRef (id : NodeId) (keyword : Token)
  | assign (id : NodeId) (name : Token) (value : Expr)
  | unary (op : Token) (operand : Expr)
  | binary (left : Expr) (op : Token) (right : Expr)
  | logical (left : Expr) (op : Token) (right : Expr)
  | conditional (condition : Expr) (question : Token) (whenTrue whenFalse : Expr)
  | call (callee : Expr) (paren : Token) (arguments : List Expr)
  | get (object : Expr) (name : Token)
  | set (object : Expr) (name : Token) (value : Expr)
  | lambda (params : List Token) (body : List Decl)

/-- Statements that declare nothing. -/
inductive Stmt where
  | expr (e : Expr)
  | print (e : Expr)
  | block (body : List Decl)
  | ifElse (condition : Expr) (whenTrue : Stmt) (whenFalse : Option Stmt)
  | whileLoop (condition : Expr) (body : Stmt)
  | forLoop (initializer : Option Decl) (condition increment : Option Expr) (body : Stmt)
  | ret (keyword : Token) (value : Option Expr)

/-- Declarations and other statements. -/
inductive Decl where
  | stmt (s : Stmt)
  | varDecl (name : Token) (initializer : Option Expr)
  | function (f : Function)
  | classDecl (name : Token) (methods : List Function)

/-- Functions with a name. -/
inductive Function where
  | mk (name : Token) (params : List Token) (body : List Decl)

end

section Trees

/-- What stands for a `for` node, given what stands for its parts. -/
abbrev Loop := Option Scriptlet.Stmt → Option Scriptlet.Expr → Option Scriptlet.Expr →
  Scriptlet.Stmt → Scriptlet.Stmt

variable (loop : Loop)

mutual

/-- The tree without `for` nodes, in place of which there is something else. -/
def Expr.tree : Expr → Scriptlet.Expr
  | .literal value => .literal value
  | .group inner => .group inner.tree
  | .read id name => .variable id name
  | .thisRef id keyword => .thisRef id keyword
  | .assign id name value => .assign id name value.tree
  | .unary op operand => .unary op operand.tree
  | .binary left op right => .binary left.tree op right.tree
  | .logical left op right => .logical left.tree op right.tree
  | .conditional condition question whenTrue whenFalse =>
    .conditional condition.tree question whenTrue.tree whenFalse.tree
  | .call callee paren arguments => .call callee.tree paren (exprs arguments)
  | .get object name => .get object.tree name
  | .set object name value => .set object.tree name value.tree
  | .lambda params body => .function (.mk none params (decls body))

def exprs : List Expr → List Scriptlet.Expr
  | [] => []
  | e :: es => e.tree :: exprs es

def expr? : Option Expr → Option Scriptlet.Expr
  | none => none
  | some e => some e.tree

def Stmt.tree : Stmt → Scriptlet.Stmt
  | .expr e => .expr e.tree
  | .print e => .print e.tree
  | .block body => .block (decls body)
  | .ifElse condition whenTrue whenFalse =>
    .ifElse condition.tree whenTrue.tree (stmt? whenFalse)
  | .whileLoop condition body => .whileLoop condition.tree body.tree
  | .forLoop initializer condition increment body =>
    loop (decl? initializer) (expr? condition) (expr? increment) body.tree
  | .ret keyword value => .ret keyword (expr? value)

def stmt? : Option Stmt → Option Scriptlet.Stmt
  | none => none
  | some s => some s.tree

def Decl.tree : Decl → Scriptlet.Stmt
  | .stmt s => s.tree
  | .varDecl name initializer => .varDecl name (expr? initializer)
  | .function f => .funDecl f.tree
  | .classDecl name methods => .classDecl name (functions methods)

def decl? : Option Decl → Option Scriptlet.Stmt
  | none => none
  | some d => some d.tree

/-- The trees of a program. -/
def decls : List Decl → List Scriptlet.Stmt
  | [] => []
  | d :: ds => d.tree :: decls ds

def Function.tree : Function → FunDecl
  | .mk name params body => .mk (some name) params (decls body)

def functions : List Function → List FunDecl
  | [] => []
  | f :: fs => f.tree :: functions fs

end

end Trees

/-! ### Both kinds of trees -/

/-- The trees of a program whose `for` nodes take turns, and of the same program as it is read. -/
abbrev Paired (n n' : Node) : Prop := ∀ around, Node.Braced (.any true) around n n'

/-- A loop that takes turns, and the loop that is read. -/
theorem paired_loop {i i' : Option Scriptlet.Stmt} {c c' inc inc' : Option Scriptlet.Expr}
    {body body' : Scriptlet.Stmt}
    (hi : Option.Rel (fun s s' => Paired (.stmt s) (.stmt s')) i i')
    (hc : Option.Rel (fun e e' => Paired (.expr e) (.expr e')) c c')
    (hinc : Option.Rel (fun e e' => Paired (.expr e) (.expr e')) inc inc')
    (hbody : Paired (.stmt body) (.stmt body')) (hdeclares : body.isDeclaration = false) :
    Paired (.stmt (.directLoop i c inc body)) (.stmt (.forLoop i' c' inc' body')) := by
  have hcondition : Paired (.expr (c.getD (.literal (.bool true))))
      (.expr (c'.getD (.literal (.bool true)))) := by
    cases hc with
    | none => exact fun _ => .literal
    | some h => exact h
  have hturn : Paired (.stmt (inc.elim body (.turn body))) (.stmt (.forBody body' inc')) := by
    cases hinc with
    | none => exact hbody
    | some he => exact fun around => .turn rfl hdeclares (hbody _) (he _)
  cases hi with
  | none => exact fun around => .whileLoop (hcondition around) (hturn around)
  | some hfirst =>
    exact fun around =>
      .block (.stmts (hfirst _) (.stmts (.whileLoop (hcondition _) (hturn _)) .noStmts))

/-- What is executed for a statement declares nothing, as `paired_loop` needs of a body. -/
theorem Stmt.isDeclaration_tree (s : Stmt) : (s.tree .directLoop).isDeclaration = false := by
  cases s with
  | forLoop i => cases i <;> rfl
  | _ => rfl

/-- No `if` statement of a program stands for a turn, since functions in expressions have no
    names. -/
theorem turn?_ifElse (loop : Loop) (e : Expr) (a b : Scriptlet.Stmt) :
    (Scriptlet.Stmt.ifElse (e.tree loop) a (some b)).turn? = none := by
  cases b with
  | expr => cases e <;> rfl
  | _ => rfl

mutual

/-- By induction on the tree: what is executed for it, and what is read. -/
theorem Expr.paired (e : Expr) : Paired (.expr (e.tree .directLoop)) (.expr (e.tree .forLoop)) := by
  intro around
  cases e with
  | literal => exact .literal
  | group inner => exact .group (inner.paired _)
  | read => exact .read trivial
  | thisRef => exact .thisRef trivial
  | assign _ _ value => exact .assign trivial (value.paired _)
  | unary _ operand => exact .unary (operand.paired _)
  | binary left _ right => exact .binary (left.paired _) (right.paired _)
  | logical left _ right => exact .logical (left.paired _) (right.paired _)
  | conditional c _ a b => exact .conditional (c.paired _) (a.paired _) (b.paired _)
  | call callee _ arguments => exact .call (callee.paired _) (paired_exprs arguments _)
  | get object => exact .get (object.paired _)
  | set object _ value => exact .set (object.paired _) (value.paired _)
  | lambda _ body => exact .lambda (.function (paired_decls body _))

/-- `Expr.paired` for arguments. -/
theorem paired_exprs (es : List Expr) :
    Paired (.exprs (exprs .directLoop es)) (.exprs (exprs .forLoop es)) := by
  intro around
  cases es with
  | nil => exact .noExprs
  | cons e es => exact .exprs (e.paired _) (paired_exprs es _)

/-- `Expr.paired` for an expression that may be missing. -/
theorem paired_expr? (e : Option Expr) :
    Option.Rel (fun e e' => Paired (.expr e) (.expr e')) (expr? .directLoop e)
      (expr? .forLoop e) := by
  cases e with
  | none => exact .none
  | some e => exact .some e.paired

/-- `Expr.paired` for statements, with `paired_loop` for `for` nodes. -/
theorem Stmt.paired (s : Stmt) : Paired (.stmt (s.tree .directLoop)) (.stmt (s.tree .forLoop)) := by
  intro around
  cases s with
  | expr e => exact .expr (e.paired _)
  | print e => exact .print (e.paired _)
  | block body => exact .block (paired_decls body _)
  | ifElse c a b =>
    cases b with
    | none => exact .ifThen (c.paired _) (a.paired _)
    | some b =>
      exact .ifElse (fun _ => turn?_ifElse _ c _ _) (c.paired _) (a.paired _) (b.paired _)
  | whileLoop c body => exact .whileLoop (c.paired _) (body.paired _)
  | forLoop i c inc body =>
    exact paired_loop (paired_decl? i) (paired_expr? c) (paired_expr? inc) body.paired
      body.isDeclaration_tree around
  | ret _ value =>
    cases value with
    | none => exact .ret
    | some e => exact .retValue (e.paired _)

/-- `Expr.paired` for declarations. -/
theorem Decl.paired (d : Decl) : Paired (.stmt (d.tree .directLoop)) (.stmt (d.tree .forLoop)) := by
  intro around
  cases d with
  | stmt s => exact s.paired _
  | varDecl _ initializer =>
    cases initializer with
    | none => exact .varDecl trivial
    | some e => exact .varInit trivial (e.paired _)
  | function f => exact .funDecl trivial (f.paired _ _)
  | classDecl _ methods => exact .classDecl trivial (paired_functions methods _)

/-- `Decl.paired` for an initializer that may be missing. -/
theorem paired_decl? (d : Option Decl) :
    Option.Rel (fun s s' => Paired (.stmt s) (.stmt s')) (decl? .directLoop d)
      (decl? .forLoop d) := by
  cases d with
  | none => exact .none
  | some d => exact .some d.paired

/-- `Decl.paired` for the declarations of a body or of a program. -/
theorem paired_decls (ds : List Decl) :
    Paired (.stmts (decls .directLoop ds)) (.stmts (decls .forLoop ds)) := by
  intro around
  cases ds with
  | nil => exact .noStmts
  | cons d ds => exact .stmts (d.paired _) (paired_decls ds _)

/-- `Expr.paired` for functions, of either kind of body. -/
theorem Function.paired (f : Function) (kind : Body) :
    Paired (.function kind (f.tree .directLoop)) (.function kind (f.tree .forLoop)) := by
  intro around
  cases f with
  | mk _ _ body => exact .function (paired_decls body _)

/-- `Function.paired` for the methods of a class. -/
theorem paired_functions (fs : List Function) :
    Paired (.functions (functions .directLoop fs)) (.functions (functions .forLoop fs)) := by
  intro around
  cases fs with
  | nil => exact .noFunctions
  | cons f fs => exact .functions (f.paired _ _) (paired_functions fs _)

end

/-! ### What is read has a `for` node for each `for` -/

mutual

/-- The number of `for` nodes. -/
@[simp]
def Expr.fors : Expr → Nat
  | .literal _ | .read _ _ | .thisRef _ _ => 0
  | .group e | .assign _ _ e | .unary _ e | .get e _ => e.fors
  | .binary a _ b | .logical a _ b | .set a _ b => a.fors + b.fors
  | .conditional c _ a b => c.fors + (a.fors + b.fors)
  | .call f _ es => f.fors + forsExprs es
  | .lambda _ body => fors body

@[simp]
def forsExprs : List Expr → Nat
  | [] => 0
  | e :: es => e.fors + forsExprs es

@[simp]
def forsExpr? : Option Expr → Nat
  | none => 0
  | some e => e.fors

@[simp]
def Stmt.fors : Stmt → Nat
  | .expr e | .print e => e.fors
  | .block body => fors body
  | .ifElse c a b => c.fors + (a.fors + forsStmt? b)
  | .whileLoop c body => c.fors + body.fors
  | .forLoop i c inc body =>
    forsDecl? i + (forsExpr? c + (forsExpr? inc + body.fors)) + 1
  | .ret _ e => forsExpr? e

@[simp]
def forsStmt? : Option Stmt → Nat
  | none => 0
  | some s => s.fors

@[simp]
def Decl.fors : Decl → Nat
  | .stmt s => s.fors
  | .varDecl _ e => forsExpr? e
  | .function f => f.fors
  | .classDecl _ fs => forsFunctions fs

@[simp]
def forsDecl? : Option Decl → Nat
  | none => 0
  | some d => d.fors

@[simp]
def fors : List Decl → Nat
  | [] => 0
  | d :: ds => d.fors + fors ds

@[simp]
def Function.fors : Function → Nat
  | .mk _ _ body => fors body

@[simp]
def forsFunctions : List Function → Nat
  | [] => 0
  | f :: fs => f.fors + forsFunctions fs

end

/-- The number of `for` keywords. -/
def forTokens (ts : List Token) : Nat := ts.countP (·.is .forKw)

/-- There is no `for` among no tokens. -/
@[simp]
theorem forTokens_nil : forTokens [] = 0 := rfl

/-- `for` keywords are counted part by part. -/
@[simp]
theorem forTokens_append (ts us : List Token) :
    forTokens (ts ++ us) = forTokens ts + forTokens us :=
  List.countP_append

/-- A `for` keyword counts. -/
theorem forTokens_for {t : Token} (h : t.is .forKw = true) (ts : List Token) :
    forTokens (t :: ts) = forTokens ts + 1 :=
  List.countP_cons_of_pos h

/-- Other tokens do not count. -/
theorem forTokens_cons {t : Token} (h : t.is .forKw = false) (ts : List Token) :
    forTokens (t :: ts) = forTokens ts :=
  List.countP_cons_of_neg (by simp [h])

/-- The phrase has a tree with as many `for` nodes as there are `for` keywords in `ts`, whose
    rewriting it is. -/
def HasTree (ts : List Token) : Phrase → Prop
  | .expr _ e => ∃ d : Expr, d.tree .forLoop = e ∧ d.fors = forTokens ts
  | .option e => ∃ d, expr? .forLoop d = e ∧ forsExpr? d = forTokens ts
  | .arguments es => ∃ ds, exprs .forLoop ds = es ∧ forsExprs ds = forTokens ts
  | .parameters _ => forTokens ts = 0
  | .lambda _ body | .decls body => ∃ ds, decls .forLoop ds = body ∧ fors ds = forTokens ts
  | .stmt _ s => ∃ d : Stmt, d.tree .forLoop = s ∧ d.fors = forTokens ts
  | .varDecl s | .decl s => ∃ d : Decl, d.tree .forLoop = s ∧ d.fors = forTokens ts
  | .first s => ∃ d, decl? .forLoop d = s ∧ forsDecl? d = forTokens ts
  | .method f => ∃ d : Function, d.tree .forLoop = f ∧ d.fors = forTokens ts
  | .methods fs => ∃ ds, functions .forLoop ds = fs ∧ forsFunctions ds = forTokens ts

/-! ### Programs -/

/-- A program as it is read: a `for` statement is rewritten. -/
def rewriting (p : List Decl) : List Scriptlet.Stmt := decls .forLoop p

/-- What is executed for a program whose `for` statements are nodes of their own. -/
def code (p : List Decl) : List Scriptlet.Stmt := decls .directLoop p

end Direct

section Reads

variable {t : Token} {ts : List Token}

/-- A token of another kind is no `for` keyword. -/
theorem Token.not_for_of_kind_ne (h : t.kind ≠ .symbol .forKw) : t.is .forKw = false := by
  unfold Token.is
  split
  · next s hkind => exact decide_eq_false fun hs => h (hkind.trans (hs ▸ rfl))
  · rfl

/-- Literals are no `for` keywords. -/
theorem Token.not_for_of_literal? {l : Literal} (h : t.literal? = some l) : t.is .forKw = false :=
  not_for_of_kind_ne fun hkind => by simp [literal?, hkind] at h

/-- Operators are no `for` keywords. -/
theorem Tier.not_for_of_has {tier : Tier} (h : tier.has t = true) : t.is .forKw = false :=
  Token.not_for_of_kind_ne fun hkind => by
    cases tier <;> simp [Tier.has, Tier.symbols, hkind] at h

open Direct in
/-- **What is read is the rewriting of a tree** with a `for` node for each `for` keyword. -/
theorem Reads.hasTree {ph : Phrase} (h : Reads ph ts) : HasTree ts ph := by
  have hno {t : Token} {s : Symbol} (h : t.is s = true) (hs : s ≠ .forKw) (ts : List Token) :
      forTokens (t :: ts) = forTokens ts :=
    forTokens_cons (Token.is_eq_false (Token.among_of_is h (List.mem_singleton_self s))
      (by simpa using hs.symm)) ts
  have hname {t : Token} (h : t.isIdentifier = true) (ts : List Token) :
      forTokens (t :: ts) = forTokens ts :=
    forTokens_cons (by simp [Token.is, Token.kind_of_isIdentifier h]) ts
  induction h with
  | lift _ _ ih | declVar _ ih => exact ih
  | absent => exact ⟨none, rfl, rfl⟩
  | noArguments | noMethods | noDecls => exact ⟨[], rfl, rfl⟩
  | noParameters => exact rfl
  | literal h => exact ⟨.literal _, rfl, (forTokens_cons (Token.not_for_of_literal? h) []).symm⟩
  | this h => exact ⟨.thisRef _ _, rfl, (hno h (by decide) []).symm⟩
  | name h => exact ⟨.read _ _, rfl, (hname h []).symm⟩
  | present _ ih =>
    obtain ⟨e, rfl, he⟩ := ih
    exact ⟨some e, rfl, he⟩
  | firstVar _ ih =>
    obtain ⟨d, rfl, hd⟩ := ih
    exact ⟨some d, rfl, hd⟩
  | declStmt _ ih =>
    obtain ⟨s, rfl, hs⟩ := ih
    exact ⟨.stmt s, rfl, hs⟩
  | oneArgument _ ih =>
    obtain ⟨e, rfl, he⟩ := ih
    exact ⟨[e], rfl, he⟩
  | comma _ hop _ iha ihb =>
    obtain ⟨a, rfl, ha⟩ := iha
    obtain ⟨b, rfl, hb⟩ := ihb
    exact ⟨.binary a _ b, rfl, by simp [hno hop, ha, hb]⟩
  | @operator tier _ _ _ _ _ _ hop _ iha ihb =>
    obtain ⟨a, rfl, ha⟩ := iha
    obtain ⟨b, rfl, hb⟩ := ihb
    have hcount := forTokens_cons (Tier.not_for_of_has hop)
    cases tier with
    | disjunction | conjunction =>
      exact ⟨.logical a _ b, rfl, by simp [hcount, ha, hb]⟩
    | equality | comparison | term | factor =>
      exact ⟨.binary a _ b, rfl, by simp [hcount, ha, hb]⟩
  | assign hn heq _ ih =>
    obtain ⟨e, rfl, he⟩ := ih
    exact ⟨.assign _ _ e, rfl, by simp [hname hn, hno heq, he]⟩
  | set _ hdot hn heq _ iho ihe =>
    obtain ⟨o, rfl, ho⟩ := iho
    obtain ⟨e, rfl, he⟩ := ihe
    exact ⟨.set o _ e, rfl, by simp [hno hdot, hname hn, hno heq, ho, he]⟩
  | conditional _ hq _ hcolon _ ihc iha ihb =>
    obtain ⟨c, rfl, hc⟩ := ihc
    obtain ⟨a, rfl, ha⟩ := iha
    obtain ⟨b, rfl, hb⟩ := ihb
    exact ⟨.conditional c _ a b, rfl, by simp [hno hq, hno hcolon, hc, ha, hb]⟩
  | unary hop _ ih =>
    obtain ⟨e, rfl, he⟩ := ih
    have hcount : ∀ ts, forTokens (_ :: ts) = forTokens ts :=
      (Bool.or_eq_true_iff.1 hop).elim (hno · (by decide)) (hno · (by decide))
    exact ⟨.unary _ e, rfl, by simp [hcount, he]⟩
  | call _ hlp _ _ hrp ihf ihes =>
    obtain ⟨f, rfl, hf⟩ := ihf
    obtain ⟨es, rfl, hes⟩ := ihes
    exact ⟨.call f _ es, rfl, by simp [hno hlp, hno hrp, hf, hes]⟩
  | get _ hdot hn ih =>
    obtain ⟨o, rfl, ho⟩ := ih
    exact ⟨.get o _, rfl, by simp [hno hdot, hname hn, ho]⟩
  | group hlp _ hrp ih =>
    obtain ⟨e, rfl, he⟩ := ih
    exact ⟨.group e, rfl, by simp [hno hlp, hno hrp, he]⟩
  | function hkw _ ih =>
    obtain ⟨body, rfl, hbody⟩ := ih
    exact ⟨.lambda _ body, rfl, by simp [hno hkw, hbody]⟩
  | moreArguments _ hcomma _ ih ihs =>
    obtain ⟨e, rfl, he⟩ := ih
    obtain ⟨es, heq, hes⟩ := ihs
    exact ⟨e :: es, by rw [exprs, heq], by
      simp [hno hcomma, he, hes]⟩
  | oneParameter hn => exact hname hn []
  | moreParameters hn hcomma _ ih => exact (hname hn _).trans ((hno hcomma (by decide) _).trans ih)
  | lambda hlp _ _ hrp hlb _ hrb ihps ihbody =>
    obtain ⟨body, rfl, hbody⟩ := ihbody
    exact ⟨body, rfl, by simp [hno hlp, hno hrp, hno hlb, hno hrb, hbody, show _ = 0 from ihps]⟩
  | method hn _ ih =>
    obtain ⟨body, rfl, hbody⟩ := ih
    exact ⟨.mk _ _ body, rfl, by simp [hname hn, hbody]⟩
  | moreMethods _ _ ih ihs =>
    obtain ⟨f, rfl, hf⟩ := ih
    obtain ⟨fs, rfl, hfs⟩ := ihs
    exact ⟨f :: fs, rfl, by simp [hf, hfs]⟩
  | exprStmt _ hsemi ih =>
    obtain ⟨e, rfl, he⟩ := ih
    exact ⟨.expr e, rfl, by simp [hno hsemi, he]⟩
  | print hkw _ hsemi ih =>
    obtain ⟨e, rfl, he⟩ := ih
    exact ⟨.print e, rfl, by simp [hno hkw, hno hsemi, he]⟩
  | ret hkw _ hsemi ih =>
    obtain ⟨e, rfl, he⟩ := ih
    exact ⟨.ret _ e, rfl, by simp [hno hkw, hno hsemi, he]⟩
  | block hlb _ hrb ih =>
    obtain ⟨body, rfl, hbody⟩ := ih
    exact ⟨.block body, rfl, by simp [hno hlb, hno hrb, hbody]⟩
  | ifThen hkw hlp _ hrp _ ihc iha =>
    obtain ⟨c, rfl, hc⟩ := ihc
    obtain ⟨a, rfl, ha⟩ := iha
    exact ⟨.ifElse c a none, rfl, by simp [hno hkw, hno hlp, hno hrp, hc, ha]⟩
  | ifElse hkw hlp _ hrp _ hel _ ihc iha ihb =>
    obtain ⟨c, rfl, hc⟩ := ihc
    obtain ⟨a, rfl, ha⟩ := iha
    obtain ⟨b, rfl, hb⟩ := ihb
    exact ⟨.ifElse c a (some b), rfl, by simp [hno hkw, hno hlp, hno hrp, hno hel, hc, ha, hb]⟩
  | whileLoop hkw hlp _ hrp _ ihc iha =>
    obtain ⟨c, rfl, hc⟩ := ihc
    obtain ⟨a, rfl, ha⟩ := iha
    exact ⟨.whileLoop c a, rfl, by simp [hno hkw, hno hlp, hno hrp, hc, ha]⟩
  | forLoop hkw hlp _ _ hsemi _ hrp _ ihi ihc ihinc iha =>
    obtain ⟨i, rfl, hi⟩ := ihi
    obtain ⟨c, rfl, hc⟩ := ihc
    obtain ⟨inc, rfl, hinc⟩ := ihinc
    obtain ⟨a, rfl, ha⟩ := iha
    refine ⟨.forLoop i c inc a, rfl, Eq.trans ?_ (Direct.forTokens_for hkw _).symm⟩
    simp [hno hlp, hno hsemi, hno hrp, hi, hc, hinc, ha]
  | noFirst hsemi => exact ⟨none, rfl, (hno hsemi (by decide) []).symm⟩
  | firstExpr _ hsemi ih =>
    obtain ⟨e, rfl, he⟩ := ih
    exact ⟨some (.stmt (.expr e)), rfl, by simp [hno hsemi, he]⟩
  | varDecl hkw hn hsemi =>
    exact ⟨.varDecl _ none, rfl, by simp [hno hkw, hname hn, hno hsemi]⟩
  | varInit hkw hn heq _ hsemi ih =>
    obtain ⟨e, rfl, he⟩ := ih
    exact ⟨.varDecl _ (some e), rfl, by simp [hno hkw, hname hn, hno heq, hno hsemi, he]⟩
  | declFun hkw _ ih =>
    obtain ⟨f, rfl, hf⟩ := ih
    exact ⟨.function f, rfl, by simp [hno hkw, hf]⟩
  | declClass hkw hn hlb _ hrb ih =>
    obtain ⟨fs, rfl, hfs⟩ := ih
    exact ⟨.classDecl _ fs, rfl, by simp [hno hkw, hname hn, hno hlb, hno hrb, hfs]⟩
  | moreDecls _ _ ih ihs =>
    obtain ⟨d, rfl, hd⟩ := ih
    obtain ⟨ds, rfl, hds⟩ := ihs
    exact ⟨d :: ds, rfl, by simp [hd, hds]⟩

end Reads

namespace Session

/-- The analysis of a source whose `for` statements are nodes of their own. -/
def analyzeDirect (s : Session) (p : List Direct.Decl) (source : String) : Analysis × Session :=
  let (a, s) := s.parse source
  s.resolve { a with statements := Direct.code p }

/-- A source without grammatical errors is read as the rewriting of a tree which has a `for` node
    for each `for` keyword of the source. -/
theorem exists_rewriting {s : Session} {source : String}
    (h : (s.parse source).1.report = lexicalReport source) :
    ∃ p, Direct.rewriting p = (s.parse source).1.statements ∧
      Direct.fors p = Direct.forTokens (Token.ofSource source) := by
  obtain ⟨p, hp, hfors⟩ := (Program.reads_parse h).hasTree
  refine ⟨p, hp, hfors.trans ?_⟩
  obtain ⟨body, last, hsource, hbody⟩ := Token.exists_ofSource source
  have hall : ∀ t ∈ body, (!t.isEof) = true := fun t ht => by rw [hbody t ht]; rfl
  -- Only the end token is left out, and that is no keyword.
  rw [hsource, List.takeWhile_append_of_pos hall, Direct.forTokens_append, Direct.forTokens_append]
  rfl

/-- **`for` nodes are transparent.** In a session after any requests, whose functions of the host do
    not look into functions and classes, let a source be read as `p`, each `for` statement of it
    being rewritten, with whatever clauses it has; unless there are grammatical errors, there is
    such a `p` with a `for` node for each `for` keyword. If those statements are left as nodes of
    their own, the same is reported; if the source is run, or if it is run in spite of the report,
    it ends with the same outcome and the same output; and if it does not end, it writes the same
    output while it runs. -/
theorem for_nodes_are_transparent {host₀ : Host} {sink₀ : Sink} {rs : List Request} {s : Session}
    {h : History} (hs : Session.After host₀ sink₀ rs s h)
    (hnatives : ∀ r ∈ rs, r.DefinesOnly Native.Outward) (source : String) :
    ((s.parse source).1.report = lexicalReport source →
      ∃ p, Direct.rewriting p = (s.parse source).1.statements ∧
        Direct.fors p = Direct.forTokens (Token.ofSource source)) ∧
    ∀ p, Direct.rewriting p = (s.parse source).1.statements →
    let rewritten := s.analyze source
    let direct := s.analyzeDirect p source
    direct.1.report = rewritten.1.report ∧
    ∀ host,
      (∀ verdict sink, direct.2.RunsBy (stepTurns host) direct.1 verdict sink ↔
        Ends (fun fuel => s.run host fuel source) verdict sink) ∧
      (∀ outcome sink,
        direct.2.EndsBy (stepTurns host) direct.1.statements outcome sink ↔
          Ends (fun fuel => rewritten.2.interpret host fuel rewritten.1.statements) outcome sink) ∧
      ∀ sink, direct.2.machine.Writes (stepTurns host) direct.1.statements sink ↔
        rewritten.2.Shows host rewritten.1.statements sink := by
  refine ⟨exists_rewriting, fun p hread => ?_⟩
  intro rewritten direct
  have hclock : Native.Outward ⟨"clock", 0, .clock⟩ := fun f hf => by cases hf
  have hpaired : Node.Braced (.any true) [] (.stmts (Direct.code p))
      (.stmts (s.parse source).1.statements) := hread ▸ Direct.paired_decls p []
  have hsound := hs.sound fun r hr => (hnatives r hr).imp fun _ => Native.Outward.honest
  obtain ⟨hreport, c, hturns, hm, hss⟩ :=
    hsound.matches (hs.natives hclock hnatives) hpaired (.inr rfl)
  refine ⟨hreport.symm, fun host => ?_⟩
  have hnext : c.next host = stepTurns host := by
    rw [Bracing.next_eq, hturns]
    rfl
  rw [← hnext]
  exact ⟨runsBy_braced hm hss hreport, endsBy_braced hm hss, writes_braced hm hss⟩

/-- A loop with all clauses, in whose body there is a function that reads the loop's variable. -/
def loopWithFunction : String :=
  "for (var a = true; a; a = false) \x7b fun f() \x7b return a; \x7d print f(); \x7d"

/-- Whether statements are such a loop. -/
def isLoopWithFunction : List Stmt → Bool
  | [.block [.varDecl _ (some (.literal (.bool true))), .whileLoop (.variable _ _)
      (.block [.block [.funDecl (.mk (some _) [] [.ret _ (some (.variable _ _))]),
        .print (.call (.variable _ _) _ [])], .expr (.assign _ _ (.literal (.bool false)))])]] =>
    true
  | _ => false

/-- For this loop there is such a `p`, and it runs to its end. -/
theorem for_nodes_are_transparent_loopWithFunction :
    ∃ first condition increment body,
      let p := [.stmt (.forLoop (some first) (some condition) (some increment) body)]
      Direct.rewriting p =
        ((Session.new Sink.unbounded).parse loopWithFunction).1.statements ∧
      let direct := (Session.new Sink.unbounded).analyzeDirect p loopWithFunction
      direct.1.report.hadError = false ∧
      ∃ sink, direct.2.EndsBy (stepTurns (Host.usual fun _ => 0)) direct.1.statements
          (.finished ()) sink ∧
        sink.written = "true\n".toUTF8 := by
  have hform : isLoopWithFunction
      ((Session.new Sink.unbounded).parse loopWithFunction).1.statements = true := by
    decide +kernel
  have hgood : ((Session.new Sink.unbounded).analyze loopWithFunction).1.report.hadError =
      false := by decide +kernel
  have hends : (((Session.new Sink.unbounded).analyze loopWithFunction).2.interpret
      (Host.usual fun _ => 0) 100
      ((Session.new Sink.unbounded).analyze loopWithFunction).1.statements).any
      (fun r => r.1.isFinished && decide (r.2.machine.sink.written = "true\n".toUTF8)) = true := by
    decide +kernel
  -- Nothing else about the source matters.
  generalize loopWithFunction = source at hform hgood hends ⊢
  have hnew : Session.After (Host.usual fun _ => 0) Sink.unbounded []
      (Session.new Sink.unbounded) ⟨[], []⟩ := .new
  obtain ⟨⟨o, last⟩, hrun, hlast⟩ := (Option.any_eq_true _ _).1 hends
  obtain ⟨ho, hwritten⟩ := Bool.and_eq_true_iff.1 hlast
  obtain ⟨first, condition, increment, body, hread⟩ :
      ∃ first condition increment body,
        Direct.rewriting [.stmt (.forLoop (some first) (some condition) (some increment) body)] =
          ((Session.new Sink.unbounded).parse source).1.statements := by
    unfold isLoopWithFunction at hform
    split at hform
    · next a i x f kw j y k z paren l w hstatements =>
      rw [hstatements]
      exact ⟨.varDecl a (some (.literal (.bool true))), .read i x,
        .assign l w (.literal (.bool false)),
        .block [.function (.mk f [] [.stmt (.ret kw (some (.read j y)))]),
          .stmt (.print (.call (.read k z) paren []))], rfl⟩
    · cases hform
  obtain ⟨hreport, hruns⟩ :=
    (for_nodes_are_transparent hnew (fun r hr => absurd hr List.not_mem_nil) source).2 _ hread
  refine ⟨first, condition, increment, body, hread, hreport ▸ hgood, last.machine.sink, ?_,
    of_decide_eq_true hwritten⟩
  cases o with
  | finished a => exact ((hruns _).2.1 _ _).2 ⟨100, last, hrun, rfl⟩
  | failed | desync => cases ho

end Session

end Scriptlet
