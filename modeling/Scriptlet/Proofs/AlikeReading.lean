import Scriptlet.Proofs.Likeness
import Scriptlet.Proofs.LongestMatch
import Scriptlet.Proofs.Parse

namespace Scriptlet

/-!
# Reading token lists that are alike

Which tree is read depends on the kinds and texts of the tokens, and on nothing else: token lists
that agree in them are read alike, also where something is wrong with them.

* `TokenLikeness` — tokens that stand for each other, of one kind and text.
* `Likeness.plain` — programs that differ in such tokens and in the numbers of their nodes only;
  `Likeness.raw` — the same before depths are recorded.
* `Parse.Alike` — two rules that end alike wherever they start alike; with one lemma per building
  block.
* `Rule.alike` — every rule ends alike with itself.
* `Program.parse_alike` — the same of whole programs and their reports.
-/

/-! ### Programs that use the same names -/

/-- Tokens that stand for each other. -/
structure TokenLikeness where
  rel : Token → Token → Prop
  kind_eq : ∀ {t t'}, rel t t' → t'.kind = t.kind
  lexeme_eq : ∀ {t t'}, rel t t' → t'.lexeme = t.lexeme

namespace Likeness

/-- The comparison of programs that use the same names. -/
def plain (τ : TokenLikeness) (node : NodeId → NodeId → Option Nat → Prop) : Likeness where
  node := node
  token := τ.rel
  kind_eq := τ.kind_eq
  lexeme_eq := τ.lexeme_eq
  used _ := True
  used_this := trivial
  rename := id
  injective := Function.injective_id
  this_eq := rfl

/-- The comparison of programs of which nothing is known but their tokens. -/
def raw (τ : TokenLikeness) : Likeness := plain τ fun _ _ d => d = none

variable {τ : TokenLikeness} {node : NodeId → NodeId → Option Nat → Prop}

variable {marked : Bool} {t t' : Token} {around : List Bool}

/-- No scope has another name for anything. -/
@[simp]
theorem name_plain (marked : Bool) (x : String) : (plain τ node).name marked x = x := by
  cases marked <;> rfl

/-- In each scope, tokens that stand for each other name the same variable. -/
theorem names_plain_iff : (plain τ node).Names marked t t' ↔ τ.rel t t' := by
  constructor
  · intro h
    have hlexeme : t'.lexeme = t.lexeme := h.lexeme.trans (name_plain marked _)
    have ht : τ.rel t { t' with lexeme := t.lexeme } := h.token
    rw [← hlexeme] at ht
    exact ht
  · intro h
    refine ⟨?_, (τ.lexeme_eq h).trans (name_plain marked _).symm⟩
    show τ.rel t { t' with lexeme := t.lexeme }
    rw [← τ.lexeme_eq h]
    exact h

/-- `names_plain_iff` for parameters. -/
theorem forall₂_names_plain_iff {ts ts' : List Token} :
    List.Forall₂ ((plain τ node).Names marked) ts ts' ↔ List.Forall₂ τ.rel ts ts' :=
  ⟨fun h => h.imp fun _ _ => names_plain_iff.1, fun h => h.imp fun _ _ => names_plain_iff.2⟩

/-- Nodes that name the same variable have tokens that stand for each other. -/
theorem Refers.rel {id id' : NodeId} (h : (plain τ node).Refers around id id' t t') :
    τ.rel t t' := by
  cases h with
  | bound _ _ hname => exact names_plain_iff.1 hname
  | free _ hname => exact hname

/-- Before depths are recorded, nodes are compared by their tokens. -/
theorem refers_raw (id id' : NodeId) (h : τ.rel t t') : (raw τ).Refers around id id' t t' :=
  .free rfl h

end Likeness

/-- Parts of programs of which only the tokens are compared, whatever is around them. -/
def Node.Alike (τ : TokenLikeness) (n n' : Node) : Prop :=
  ∀ around, Node.Like (.raw τ) around n n'

/-! ### Cursors -/

/-- Reports that are alike, error by error. -/
def Report.Like (c : Likeness) (r r' : Report) : Prop :=
  List.Forall₂ (Error.Like c) r.errors.toList r'.errors.toList

/-- Reports grow by errors that are alike. -/
theorem Report.Like.add {c : Likeness} {r r' : Report} (h : Report.Like c r r') {e e' : Error}
    (he : Error.Like c e e') : Report.Like c (r.add e) (r'.add e') := by
  unfold Report.Like
  rw [toList_errors_add, toList_errors_add]
  exact List.rel_append h (.cons he .nil)

/-- Cursors in front of token lists that are alike. Their numbers for nodes are of no account. -/
structure Cursor.Like (τ : TokenLikeness) (x x' : Cursor) : Prop where
  rest : List.Forall₂ τ.rel x.rest x'.rest
  stop : τ.rel x.stop x'.stop
  report : Report.Like (.raw τ) x.report x'.report

/-- Stops that are alike. -/
inductive Halt.Like (τ : TokenLikeness) : Halt → Halt → Prop
  | error {e e'} (h : Error.Like (.raw τ) e e') : Like τ (.error e) (.error e')
  | outOfFuel : Like τ .outOfFuel .outOfFuel

/-- Ends of rules that are alike. -/
inductive Parse.Ends (τ : TokenLikeness) {α : Type} (R : α → α → Prop) :
    Except Halt α × Cursor → Except Halt α × Cursor → Prop
  | ok {a a' x x'} (h : R a a') (hx : Cursor.Like τ x x') : Ends τ R (.ok a, x) (.ok a', x')
  | error {h h' x x'} (hh : Halt.Like τ h h') (hx : Cursor.Like τ x x') :
      Ends τ R (.error h, x) (.error h', x')

/-- Two rules that end alike wherever they start alike, `R` relating what they yield. -/
def Parse.Alike (τ : TokenLikeness) {α : Type} (R : α → α → Prop) (p p' : Parse α) : Prop :=
  ∀ x x', Cursor.Like τ x x' → Parse.Ends τ R (p.run x) (p'.run x')

section Cursors

variable {τ : TokenLikeness} {x x' : Cursor}

variable {t t' : Token} {ts ts' : List Token}

/-- Alike tokens stand for the same symbol, which is all that `Token.is` asks. -/
theorem TokenLikeness.is_eq (h : τ.rel t t') (s : Symbol) : t'.is s = t.is s := by
  unfold Token.is
  rw [τ.kind_eq h]

/-- Alike tokens are names or none of them is. -/
theorem TokenLikeness.isIdentifier_eq (h : τ.rel t t') : t'.isIdentifier = t.isIdentifier := by
  unfold Token.isIdentifier
  rw [τ.kind_eq h]

/-- Alike tokens end the program or none of them does. -/
theorem TokenLikeness.isEof_eq (h : τ.rel t t') : t'.isEof = t.isEof := by
  unfold Token.isEof
  rw [τ.kind_eq h]

/-- What holds of two lists, say of matches on them, is shown where both are empty, and where both
    have a first member. -/
@[elab_as_elim]
theorem forall₂_elim {α β : Type} {R : α → β → Prop} {motive : List α → List β → Prop}
    {as : List α} {bs : List β} (h : List.Forall₂ R as bs) (hnil : motive [] [])
    (hcons : ∀ a b as bs, R a b → List.Forall₂ R as bs → motive (a :: as) (b :: bs)) :
    motive as bs := by
  cases h with
  | nil => exact hnil
  | cons h hrest => exact hcons _ _ _ _ h hrest

namespace Cursor.Like

variable (h : Cursor.Like τ x x')

include h

/-- Errors are reported at tokens that stand for each other. -/
theorem peek : τ.rel x.peek x'.peek := by
  unfold Cursor.peek
  exact forall₂_elim h.rest h.stop fun _ _ _ _ ht _ => ht

/-- `Cursor.at` has the same answer at alike cursors. -/
theorem at_eq (s : Symbol) : x'.at s = x.at s := by
  unfold Cursor.at
  exact forall₂_elim h.rest rfl fun _ _ _ _ ht _ => τ.is_eq ht s

/-- Alike cursors have tokens left or none of them has. -/
theorem isEmpty_eq : x'.rest.isEmpty = x.rest.isEmpty :=
  forall₂_elim h.rest rfl fun _ _ _ _ _ _ => rfl

/-- `atNamedFunction` has the same answer at alike cursors. -/
theorem atNamedFunction_eq : x'.atNamedFunction = x.atNamedFunction := by
  unfold Cursor.atNamedFunction
  refine forall₂_elim h.rest rfl fun t t' ts ts' ht hrest => ?_
  refine forall₂_elim hrest rfl fun name name' _ _ hname _ => ?_
  simp only [τ.is_eq ht, τ.isIdentifier_eq hname]

/-- One more error on each side. -/
theorem add {e e' : Error} (he : Error.Like (.raw τ) e e') :
    Cursor.Like τ { x with report := x.report.add e } { x' with report := x'.report.add e' } :=
  { h with report := h.report.add he }

end Cursor.Like

/-- Which tokens are skipped after an error depends on their kinds. -/
theorem forall₂_resumeAfter (ht : τ.rel t t') (h : List.Forall₂ τ.rel ts ts') :
    List.Forall₂ τ.rel (resumeAfter t ts) (resumeAfter t' ts') := by
  induction h generalizing t t' with
  | nil => exact .nil
  | @cons u u' us us' hu hus ih =>
    have hstarts : u'.startsStatement = u.startsStatement := by
      unfold Token.startsStatement
      rw [τ.kind_eq hu]
    unfold resumeAfter
    rw [τ.is_eq ht, hstarts]
    split
    · exact .cons hu hus
    · exact ih hu

/-- `forall₂_resumeAfter` from the token on at which the error was met. -/
theorem forall₂_synchronize (h : List.Forall₂ τ.rel ts ts') :
    List.Forall₂ τ.rel (synchronize ts) (synchronize ts') := by
  cases h with
  | nil => exact .nil
  | cons ht hrest => exact forall₂_resumeAfter ht hrest

end Cursors

/-! ### Building blocks -/

namespace Parse

variable {τ : TokenLikeness} {α β : Type} {R : α → α → Prop} {S : β → β → Prop}
  {p p' : Parse α}

/-- A rule that reads nothing yields what it is given. -/
theorem alike_pure {a a' : α} (h : R a a') : Alike τ R (pure a) (pure a') :=
  fun _ _ hx => .ok h hx

/-- Without fuel both sides stop. -/
theorem alike_outOfFuel : Alike τ R (throw .outOfFuel) (throw .outOfFuel) :=
  fun _ _ hx => .error .outOfFuel hx

/-- What follows goes on from cursors that are alike again. -/
theorem Alike.bind {f f' : α → Parse β} (h : Alike τ R p p')
    (hf : ∀ a a', R a a' → Alike τ S (f a) (f' a')) : Alike τ S (p >>= f) (p' >>= f') := by
  intro x x' hx
  rw [run_bind, run_bind]
  have hend := h x x' hx
  generalize p.run x = r at hend ⊢
  generalize p'.run x' = r' at hend ⊢
  cases hend with
  | ok ha hx => exact hf _ _ ha _ _ hx
  | error hh hx => exact .error hh hx

/-- `Alike.bind` where nothing more is read. -/
theorem Alike.map {f f' : α → β} (h : Alike τ R p p') (hf : ∀ a a', R a a' → S (f a) (f' a')) :
    Alike τ S (f <$> p) (f' <$> p') := by
  rw [map_eq_pure_bind, map_eq_pure_bind]
  exact h.bind fun a a' ha => alike_pure (hf a a' ha)

/-- A question about the cursor that gets the same answer on both sides. -/
theorem alike_ask {f : Cursor → α} {k l : α → Parse β}
    (hf : ∀ x x', Cursor.Like τ x x' → f x' = f x) (hk : ∀ a, Alike τ S (k a) (l a)) :
    Alike τ S (get >>= fun x => k (f x)) (get >>= fun x => l (f x)) := by
  intro x x' hx
  show Parse.Ends τ S ((k (f x)).run x) ((l (f x')).run x')
  rw [hf x x' hx]
  exact hk _ x x' hx

/-- `check` has the same answer on both sides. -/
theorem alike_check (s : Symbol) : Alike τ Eq (check s) (check s) :=
  fun _ _ hx => .ok (hx.at_eq s).symm hx

/-- `atEnd` has the same answer on both sides. -/
theorem alike_atEnd : Alike τ Eq atEnd atEnd := fun _ _ hx => .ok hx.isEmpty_eq.symm hx

/-- So both sides take the same way. -/
theorem alike_ite {b b' : Bool} (hb : b = b') {q q' : Parse α} (hp : Alike τ R p p')
    (hq : Alike τ R q q') :
    Alike τ R (if b = true then p else q) (if b' = true then p' else q') := by
  subst hb
  cases b with
  | true => exact hp
  | false => exact hq

/-- `report` fails on both sides, at the tokens that are given. -/
theorem alike_report {e e' : Error} (he : Error.Like (.raw τ) e e') :
    Alike τ Eq (report e) (report e') :=
  fun _ _ hx => .ok rfl (hx.add he)

/-- `reportHere` fails on both sides, at the next token. -/
theorem alike_reportHere (fault : GrammarFault) :
    Alike τ Eq (reportHere fault) (reportHere fault) :=
  fun _ _ hx => .ok rfl (hx.add (.grammar fault hx.peek))

/-- A rule that fails does so with the next token. -/
theorem alike_fail (what : Expected) : Alike τ R (fail what) (fail what) :=
  fun _ _ hx => .error (.error (.grammar _ hx.peek)) hx

/-- The numbers of new nodes are not compared. -/
theorem alike_freshNode : Alike τ (fun _ _ => True) freshNode freshNode :=
  fun _ _ hx => .ok trivial ⟨hx.rest, hx.stop, hx.report⟩

/-- Tokens are taken by what their kinds tell. -/
theorem alike_acceptIf {q : Token → Bool} (hq : ∀ t t', τ.rel t t' → q t' = q t) :
    Alike τ (Option.Rel τ.rel) (acceptIf q) (acceptIf q) := by
  intro x x' hx
  obtain ⟨rest, stop, nextNode, report⟩ := x
  obtain ⟨rest', stop', nextNode', report'⟩ := x'
  obtain ⟨hrest, hstop, hreport⟩ := hx
  cases hrest with
  | nil => exact .ok .none ⟨.nil, hstop, hreport⟩
  | @cons t t' ts ts' ht hts =>
    show Parse.Ends τ _ ((if q t = true then _ else _ : Parse (Option Token)).run _)
      ((if q t' = true then _ else _ : Parse (Option Token)).run _)
    rw [hq t t' ht]
    split
    · exact .ok (.some ht) ⟨hts, hstop, hreport⟩
    · exact .ok .none ⟨.cons ht hts, hstop, hreport⟩

/-- `alike_acceptIf` for a symbol. -/
theorem alike_accept (s : Symbol) : Alike τ (Option.Rel τ.rel) (accept s) (accept s) :=
  alike_acceptIf fun _ _ ht => τ.is_eq ht s

/-- Where a symbol decides, it does so on both sides. -/
theorem alike_branch {s : Symbol} {found found' : Token → Parse α} {other other' : Parse α}
    (hfound : ∀ t t', τ.rel t t' → Alike τ R (found t) (found' t'))
    (hother : Alike τ R other other') :
    Alike τ R (branch s found other) (branch s found' other') := by
  refine (alike_accept s).bind fun t t' ht => ?_
  cases ht with
  | some ht => exact hfound _ _ ht
  | none => exact hother

/-- `expect` finds its symbol on both sides, or on none. -/
theorem alike_expect (s : Symbol) (what : Expected) :
    Alike τ τ.rel (expect s what) (expect s what) :=
  alike_branch (fun _ _ ht => alike_pure ht) (alike_fail what)

/-- `expectName` finds a name on both sides, or on none. -/
theorem alike_expectName (what : Expected) :
    Alike τ τ.rel (expectName what) (expectName what) := by
  refine (alike_acceptIf fun _ _ ht => τ.isIdentifier_eq ht).bind fun t t' ht => ?_
  cases ht with
  | some ht => exact alike_pure ht
  | none => exact alike_fail what

/-- An optional part, which is missing in front of the symbol `s`. -/
theorem alike_unless {s : Symbol} {a₀ : α} {k k' : α → Parse β} (h₀ : R a₀ a₀)
    (hp : Alike τ R p p') (hk : ∀ a a', R a a' → Alike τ S (k a) (k' a')) :
    Alike τ S (check s >>= fun found => if found = true then pure a₀ >>= k else p >>= k)
      (check s >>= fun found => if found = true then pure a₀ >>= k' else p' >>= k') :=
  (alike_check s).bind fun _ _ hb => alike_ite hb ((alike_pure h₀).bind hk) (hp.bind hk)

end Parse

/-! ### The rules -/

namespace Rule

open Parse

variable {τ : TokenLikeness} {n : Nat}

/-- Parts of trees of which only the tokens are compared, as in `Node.Alike`. -/
abbrev AlikeExpr (τ : TokenLikeness) (e e' : Expr) : Prop := Node.Alike τ (.expr e) (.expr e')

@[inherit_doc AlikeExpr]
abbrev AlikeExprs (τ : TokenLikeness) (es es' : List Expr) : Prop :=
  Node.Alike τ (.exprs es) (.exprs es')

@[inherit_doc AlikeExpr]
abbrev AlikeStmt (τ : TokenLikeness) (s s' : Stmt) : Prop := Node.Alike τ (.stmt s) (.stmt s')

@[inherit_doc AlikeExpr]
abbrev AlikeStmts (τ : TokenLikeness) (ss ss' : List Stmt) : Prop :=
  Node.Alike τ (.stmts ss) (.stmts ss')

@[inherit_doc AlikeExpr]
abbrev AlikeFunction (τ : TokenLikeness) (f f' : FunDecl) : Prop :=
  Node.Alike τ (.function .function f) (.function .function f')

/-- A rule that ends alike with itself. -/
abbrev Steady (τ : TokenLikeness) {α : Type} (R : α → α → Prop) (p : Parse α) : Prop :=
  Parse.Alike τ R p p

/-- A rule that goes on with an expression that is already read. -/
abbrev AlikeRest (τ : TokenLikeness) (f : Expr → Parse Expr) : Prop :=
  ∀ e e', AlikeExpr τ e e' → Parse.Alike τ (AlikeExpr τ) (f e) (f e')

/-- All rules with the bound `n` end alike with themselves. -/
structure AllAlike (τ : TokenLikeness) (n : Nat) : Prop where
  declaration : Steady τ (Option.Rel (AlikeStmt τ)) (declaration n)
  declarationOrStatement : Steady τ (AlikeStmt τ) (declarationOrStatement n)
  classDeclaration : Steady τ (AlikeStmt τ) (classDeclaration n)
  methods : Steady τ (fun fs fs' => Node.Alike τ (.functions fs) (.functions fs')) (methods n)
  function : ∀ f, Steady τ (AlikeFunction τ) (function n f)
  varDeclaration : Steady τ (AlikeStmt τ) (varDeclaration n)
  statement : Steady τ (AlikeStmt τ) (statement n)
  printStatement : Steady τ (AlikeStmt τ) (printStatement n)
  expressionStatement : Steady τ (AlikeStmt τ) (expressionStatement n)
  forStatement : Steady τ (AlikeStmt τ) (forStatement n)
  ifStatement : Steady τ (AlikeStmt τ) (ifStatement n)
  whileStatement : Steady τ (AlikeStmt τ) (whileStatement n)
  returnStatement : ∀ t t', τ.rel t t' →
    Parse.Alike τ (AlikeStmt τ) (returnStatement n t) (returnStatement n t')
  block : Steady τ (AlikeStmts τ) (block n)
  declarations : Steady τ (AlikeStmts τ) (declarations n)
  expression : Steady τ (AlikeExpr τ) (expression n)
  commaRest : AlikeRest τ (commaRest n)
  assignment : Steady τ (AlikeExpr τ) (assignment n)
  conditional : ∀ e e' t t', AlikeExpr τ e e' → τ.rel t t' →
    Parse.Alike τ (AlikeExpr τ) (conditional n e t) (conditional n e' t')
  tier : ∀ t, Steady τ (AlikeExpr τ) (tier n t)
  tierRest : ∀ t, AlikeRest τ (tierRest n t)
  operand : ∀ t, Steady τ (AlikeExpr τ) (operand n t)
  unary : Steady τ (AlikeExpr τ) (unary n)
  callRest : AlikeRest τ (callRest n)
  argumentsFrom : ∀ count, Steady τ (AlikeExprs τ) (argumentsFrom n count)
  primary : Steady τ (AlikeExpr τ) (primary n)

/-- Behind the limit, `parametersFrom` and `argumentsFrom` report once more and go on. -/
theorem steady_overLimit {α : Type} {R : α → α → Prop} {p : Parse α} (fault : GrammarFault)
    (b : Prop) [Decidable b] (hp : Steady τ R p) :
    Steady τ R (if b then do reportHere fault; p else p) := by
  split
  · exact (alike_reportHere _).bind fun _ _ _ => hp
  · exact hp

/-- By its own induction, for `parametersFrom` is not part of the mutual block. -/
theorem alike_parametersFrom (n count : Nat) :
    Steady τ (List.Forall₂ τ.rel) (parametersFrom n count) := by
  induction n generalizing count with
  | zero => exact alike_outOfFuel
  | succ n ih =>
    refine steady_overLimit _ _ ((alike_expectName _).bind fun p p' hp => ?_)
    refine (alike_branch (fun _ _ _ => ih _) (alike_pure .nil)).bind fun ps ps' hps => ?_
    exact alike_pure (.cons hp hps)

/-- `alike_parametersFrom`, if there are any. -/
theorem alike_parameters (n : Nat) : Steady τ (List.Forall₂ τ.rel) (parameters n) := by
  refine alike_unless .nil (alike_parametersFrom n 0) fun ps ps' hps => ?_
  exact (alike_expect _ _).bind fun _ _ _ => alike_pure hps

/-- Only variables and properties can be assigned to, and both sides have the same. -/
theorem alike_assignTo {e e' v v' : Expr} {t t' : Token} (he : AlikeExpr τ e e')
    (ht : τ.rel t t') (hv : AlikeExpr τ v v') :
    Parse.Alike τ (AlikeExpr τ) (assignTo e t v) (assignTo e' t' v') := by
  have hother : Parse.Alike τ (AlikeExpr τ)
      (do Parse.report (.grammar (.token t) .invalidAssignmentTarget); pure e : Parse Expr)
      (do Parse.report (.grammar (.token t') .invalidAssignmentTarget); pure e' : Parse Expr) :=
    (alike_report (.grammar _ ht)).bind fun _ _ _ => alike_pure he
  cases he [] with
  | read h =>
    exact alike_freshNode.bind fun id id' _ => alike_pure fun around =>
      .assign (Likeness.refers_raw id id' h.rel) (hv around)
  | get hname =>
    refine alike_pure fun around => ?_
    cases he around with
    | get hname ho => exact .set hname ho (hv around)
  | _ => exact hother

/-- A `for` statement stands for statements that are alike if its parts are. -/
theorem alike_forLoop {i i' : Option Stmt} {c c' inc inc' : Option Expr} {body body' : Stmt}
    (hi : Option.Rel (AlikeStmt τ) i i') (hc : Option.Rel (AlikeExpr τ) c c')
    (hinc : Option.Rel (AlikeExpr τ) inc inc') (hbody : AlikeStmt τ body body') :
    AlikeStmt τ (.forLoop i c inc body) (.forLoop i' c' inc' body') := by
  have hcondition : AlikeExpr τ (c.getD (.literal (.bool true)))
      (c'.getD (.literal (.bool true))) := by
    cases hc with
    | some h => exact h
    | none => exact fun around => .literal
  have hwhole : AlikeStmt τ (Stmt.forBody body inc) (Stmt.forBody body' inc') := by
    cases hinc with
    | some h =>
      intro around
      exact .block false (.stmts (hbody _) (.stmts (.expr (h _)) .noStmts))
    | none => exact hbody
  cases hi with
  | some h =>
    intro around
    exact .block false (.stmts (h _) (.stmts (.whileLoop (hcondition _) (hwhole _)) .noStmts))
  | none => exact fun around => .whileLoop (hcondition around) (hwhole around)

/-- Statements that are alike, one after the other. -/
theorem alike_append {ss ss' us us' : List Stmt} (hs : AlikeStmts τ ss ss')
    (hu : AlikeStmts τ us us') : AlikeStmts τ (ss ++ us) (ss' ++ us') := by
  induction ss generalizing ss' with
  | nil =>
    cases hs [] with
    | noStmts => exact hu
  | cons s ss ih =>
    cases hs [] with
    | @stmts _ _ s' _ ss' =>
      have hrest : AlikeStmts τ ss ss' := fun around => by
        cases hs around with
        | stmts _ hss => exact hss
      intro around
      cases hs around with
      | stmts hs _ => exact .stmts hs (ih hrest around)

section

variable (ih : AllAlike τ n)

include ih

/-- The parameters and the body of a function, whatever `k` makes of them. -/
theorem alike_body {β : Type} {S : β → β → Prop} {k l : FunDecl → β} {name name' : Option Token}
    {w : Expected} (hname : Option.Rel τ.rel name name')
    (hk : ∀ f f', AlikeFunction τ f f' → S (k f) (l f')) :
    Parse.Alike τ S (do
      let params ← parameters n
      let _ ← expect .leftBrace w
      let body ← block n
      pure (k (.mk name params body)) : Parse β) (do
      let params ← parameters n
      let _ ← expect .leftBrace w
      let body ← block n
      pure (l (.mk name' params body)) : Parse β) := by
  refine (alike_parameters n).bind fun ps ps' hps => ?_
  refine (alike_expect _ _).bind fun _ _ _ => ih.block.bind fun body body' hbody => ?_
  refine alike_pure (hk _ _ fun around => ?_)
  exact .function false hname (Likeness.forall₂_names_plain_iff.2 hps) (hbody (false :: around))

/-- An error ends the declaration, and both sides skip to the same place. -/
theorem alike_declaration : Steady τ (Option.Rel (AlikeStmt τ)) (declaration (n + 1)) := by
  intro x x' hx
  rw [run_declaration, run_declaration]
  have hend := ih.declarationOrStatement x x' hx
  generalize (declarationOrStatement n).run x = r at hend ⊢
  generalize (declarationOrStatement n).run x' = r' at hend ⊢
  cases hend with
  | ok hs hx => exact .ok (.some hs) hx
  | error hh hx =>
    cases hh with
    | outOfFuel => exact .error .outOfFuel hx
    | error he =>
      exact .ok .none { hx.add he with rest := forall₂_synchronize hx.rest }

/-- Whether a function has a name decides if it is declared. -/
theorem alike_declarationOrStatement :
    Steady τ (AlikeStmt τ) (declarationOrStatement (n + 1)) := by
  rw [declarationOrStatement]
  refine alike_branch (fun _ _ _ => ih.classDeclaration) ?_
  refine alike_ask (k := fun b => if b = true then _ else _)
    (l := fun b => if b = true then _ else _) (fun _ _ hx => hx.atNamedFunction_eq) fun b => ?_
  refine alike_ite rfl ?_ (alike_branch (fun _ _ _ => ih.varDeclaration) ih.statement)
  refine (alike_accept _).bind fun _ _ _ => (ih.function .function).bind fun f f' hf => ?_
  exact alike_pure fun around => .funDecl (Likeness.name_plain _ _) (hf around)

/-- Both sides have an initializer, or none. -/
theorem alike_varDeclaration : Steady τ (AlikeStmt τ) (varDeclaration (n + 1)) := by
  refine (alike_expectName _).bind fun name name' hname => ?_
  refine (alike_branch (R := Option.Rel (AlikeExpr τ)) (fun _ _ _ => ih.expression.map
    fun _ _ he => .some he) (alike_pure .none)).bind fun e e' he => ?_
  refine (alike_expect _ _).bind fun _ _ _ => alike_pure fun around => ?_
  cases he with
  | some he => exact .varInit (Likeness.names_plain_iff.2 hname) (he around)
  | none => exact .varDecl (Likeness.names_plain_iff.2 hname)

/-- The first token of a statement decides what it is. -/
theorem alike_statement : Steady τ (AlikeStmt τ) (statement (n + 1)) := by
  refine alike_branch (fun _ _ _ => ih.forStatement) ?_
  refine alike_branch (fun _ _ _ => ih.ifStatement) ?_
  refine alike_branch (fun _ _ _ => ih.whileStatement) ?_
  refine alike_branch (fun t t' ht => ih.returnStatement t t' ht) ?_
  refine alike_branch (fun _ _ _ => ?_) ?_
  · exact ih.block.map fun body body' hbody around => .block false (hbody (false :: around))
  · exact alike_branch (fun _ _ _ => ih.printStatement) ih.expressionStatement

/-- An expression and a token behind it. -/
theorem alike_ended {k : Expr → Stmt} {s : Symbol} {w : Expected}
    (hk : ∀ e e', AlikeExpr τ e e' → AlikeStmt τ (k e) (k e')) :
    Steady τ (AlikeStmt τ) (do
      let e ← expression n
      let _ ← expect s w
      pure (k e) : Parse Stmt) :=
  ih.expression.bind fun e e' he => (alike_expect _ _).bind fun _ _ _ => alike_pure (hk e e' he)

/-- The clauses of a `for` statement are missing on both sides, or on none. -/
theorem alike_forStatement : Steady τ (AlikeStmt τ) (forStatement (n + 1)) := by
  have hclause : Steady τ (Option.Rel (AlikeExpr τ)) (some <$> expression n) :=
    ih.expression.map fun _ _ he => .some he
  refine (alike_expect _ _).bind fun _ _ _ => ?_
  refine Alike.bind (R := Option.Rel (AlikeStmt τ)) ?_ fun i i' hi => ?_
  · refine alike_branch (fun _ _ _ => alike_pure .none) ?_
    refine alike_branch (fun _ _ _ => ih.varDeclaration.map fun _ _ hs => .some hs) ?_
    exact ih.expressionStatement.map fun _ _ hs => .some hs
  refine alike_unless .none hclause fun c c' hc => (alike_expect _ _).bind fun _ _ _ => ?_
  refine alike_unless .none hclause fun inc inc' hinc => (alike_expect _ _).bind fun _ _ _ => ?_
  exact ih.statement.bind fun body body' hbody => alike_pure (alike_forLoop hi hc hinc hbody)

/-- An `else` belongs to the same `if`. -/
theorem alike_ifStatement : Steady τ (AlikeStmt τ) (ifStatement (n + 1)) := by
  refine (alike_expect _ _).bind fun _ _ _ => ih.expression.bind fun c c' hc => ?_
  refine (alike_expect _ _).bind fun _ _ _ => ih.statement.bind fun a a' ha => ?_
  refine (alike_branch (R := Option.Rel (AlikeStmt τ)) (fun _ _ _ => ih.statement.map
    fun _ _ hb => .some hb) (alike_pure .none)).bind fun b b' hb => ?_
  refine alike_pure fun around => ?_
  cases hb with
  | some hb => exact .ifElse (hc around) (ha around) (hb around)
  | none => exact .ifThen (hc around) (ha around)

/-- Both sides return a value, or none. -/
theorem alike_returnStatement {t t' : Token} (ht : τ.rel t t') :
    Parse.Alike τ (AlikeStmt τ) (returnStatement (n + 1) t) (returnStatement (n + 1) t') := by
  refine alike_unless (R := Option.Rel (AlikeExpr τ)) .none
    (ih.expression.map fun _ _ he => .some he) fun e e' he => ?_
  refine (alike_expect _ _).bind fun _ _ _ => alike_pure fun around => ?_
  cases he with
  | some he => exact .retValue ht (he around)
  | none => exact .ret ht

/-- A declaration, if it can be read, and those behind it. -/
theorem alike_declarationsBy {p : Parse (List Stmt)} (hp : Steady τ (AlikeStmts τ) p) :
    Steady τ (AlikeStmts τ) (do
      let first ← declaration n
      let rest ← p
      pure (first.toList ++ rest) : Parse (List Stmt)) := by
  refine ih.declaration.bind fun s s' hs => hp.bind fun ss ss' hss => alike_pure ?_
  refine alike_append ?_ hss
  cases hs with
  | some hs => exact fun around => .stmts (hs around) .noStmts
  | none => exact fun around => .noStmts

/-- Operators are told by their kinds, and make the same nodes. -/
theorem alike_tierRest (t : Tier) : AlikeRest τ (tierRest (n + 1) t) := by
  intro e e' he
  have hhas : ∀ op op', τ.rel op op' → t.has op' = t.has op := by
    intro op op' hop
    unfold Tier.has
    rw [τ.kind_eq hop]
  refine (alike_acceptIf hhas).bind fun op op' hop => ?_
  cases hop with
  | none => exact alike_pure he
  | some hop =>
    refine (ih.operand t).bind fun b b' hb => ih.tierRest t _ _ fun around => ?_
    cases t with
    | disjunction | conjunction => exact .logical hop (he around) (hb around)
    | equality | comparison | term | factor => exact .binary hop (he around) (hb around)

/-- Calls and properties, one behind the other. -/
theorem alike_callRest : AlikeRest τ (callRest (n + 1)) := by
  intro e e' he
  refine alike_branch (fun _ _ _ => ?_) (alike_branch (fun _ _ _ => ?_) (alike_pure he))
  · refine alike_unless (fun around => .noExprs) (ih.argumentsFrom 0) fun es es' hes => ?_
    refine (alike_expect _ _).bind fun t t' ht => ih.callRest _ _ fun around => ?_
    exact .call ht (he around) (hes around)
  · refine (alike_expectName _).bind fun t t' ht => ih.callRest _ _ fun around => ?_
    exact .get ht (he around)

/-- The kind of the first token decides, and it is the same. -/
theorem alike_primary : Steady τ (AlikeExpr τ) (primary (n + 1)) := by
  intro x x' hx
  obtain ⟨rest, stop, nextNode, report⟩ := x
  obtain ⟨rest', stop', nextNode', report'⟩ := x'
  obtain ⟨hrest, hstop, hreport⟩ := hx
  cases hrest with
  | nil => exact alike_fail .expression _ _ ⟨.nil, hstop, hreport⟩
  | @cons t t' ts ts' ht hts =>
    -- Behind the first token, both sides go on in the same way, which its kind decides.
    have hbehind : Cursor.Like τ ⟨ts, stop, nextNode, report⟩ ⟨ts', stop', nextNode', report'⟩ :=
      ⟨hts, hstop, hreport⟩
    obtain ⟨kind, lexeme, line⟩ := t
    obtain ⟨kind', lexeme', line'⟩ := t'
    cases τ.kind_eq ht
    have hfail : Parse.Ends τ (AlikeExpr τ) _ _ :=
      alike_fail .expression _ _ ⟨.cons ht hts, hstop, hreport⟩
    have hliteral : ∀ l, Parse.Ends τ (AlikeExpr τ)
        ((pure (.literal l) : Parse Expr).run ⟨ts, stop, nextNode, report⟩)
        ((pure (.literal l) : Parse Expr).run ⟨ts', stop', nextNode', report'⟩) := fun l =>
      alike_pure (fun around => .literal) _ _ hbehind
    cases kind with
    | symbol s =>
      cases s with
      | falseKw | trueKw | nilKw => exact hliteral _
      | thisKw =>
        exact .ok (fun around => .thisRef (Likeness.refers_raw _ _ ht)) ⟨hts, hstop, hreport⟩
      | leftParen =>
        exact ih.expression.bind (fun e e' he => (alike_expect _ _).bind fun _ _ _ =>
          alike_pure fun around => .group (he around)) _ _ hbehind
      | funKw =>
        exact (alike_expect _ _).bind (fun _ _ _ => alike_body ih .none
          fun f f' hf around => .lambda (hf around)) _ _ hbehind
      | _ => exact hfail
    | identifier =>
      exact .ok (fun around => .read (Likeness.refers_raw _ _ ht)) ⟨hts, hstop, hreport⟩
    | string | number => exact hliteral _
    | eof => exact hfail

end

/-- **Reading goes by kinds and texts.** Every rule ends alike with itself. -/
theorem alike (τ : TokenLikeness) (n : Nat) : AllAlike τ n := by
  induction n with
  | zero =>
    constructor <;> intros
    case commaRest | tierRest | callRest => exact fun _ _ _ => alike_outOfFuel
    all_goals exact alike_outOfFuel
  | succ n ih =>
    constructor
    case declaration => exact alike_declaration ih
    case declarationOrStatement => exact alike_declarationOrStatement ih
    case classDeclaration =>
      refine (alike_expectName _).bind fun name name' hname => ?_
      refine (alike_expect _ _).bind fun _ _ _ => ih.methods.bind fun fs fs' hfs => ?_
      exact (alike_expect _ _).bind fun _ _ _ => alike_pure fun around =>
        .classDecl hname (Likeness.name_plain _ _) (hfs (false :: around))
    case methods =>
      refine (alike_check _).bind fun b b' hb => alike_atEnd.bind fun e e' he => ?_
      refine alike_ite (by rw [hb, he]) (alike_pure fun around => .noFunctions) ?_
      exact (ih.function .method).bind fun f f' hf => ih.methods.bind fun fs fs' hfs =>
        alike_pure fun around => .functions ((hf around).withKind _) (hfs around)
    case function =>
      exact fun f => (alike_expectName _).bind fun name name' hname =>
        (alike_expect _ _).bind fun _ _ _ =>
          alike_body (k := id) (l := id) ih (.some hname) fun _ _ hf => hf
    case varDeclaration => exact alike_varDeclaration ih
    case statement => exact alike_statement ih
    case printStatement => exact alike_ended ih fun _ _ he around => .print (he around)
    case expressionStatement => exact alike_ended ih fun _ _ he around => .expr (he around)
    case forStatement => exact alike_forStatement ih
    case ifStatement => exact alike_ifStatement ih
    case whileStatement =>
      refine (alike_expect _ _).bind fun _ _ _ => ih.expression.bind fun c c' hc => ?_
      exact (alike_expect _ _).bind fun _ _ _ => ih.statement.bind fun a a' ha =>
        alike_pure fun around => .whileLoop (hc around) (ha around)
    case returnStatement => exact fun _ _ ht => alike_returnStatement ih ht
    case block =>
      exact ih.declarations.bind fun _ _ hss => (alike_expect _ _).bind fun _ _ _ => alike_pure hss
    case declarations =>
      refine (alike_check _).bind fun b b' hb => alike_atEnd.bind fun e e' he => ?_
      exact alike_ite (by rw [hb, he]) (alike_pure fun around => .noStmts)
        (alike_declarationsBy ih ih.declarations)
    case expression => exact ih.assignment.bind fun e e' he => ih.commaRest e e' he
    case commaRest =>
      refine fun e e' he => alike_branch (fun op op' hop => ?_) (alike_pure he)
      exact ih.assignment.bind fun b b' hb => ih.commaRest _ _ fun around =>
        .binary hop (he around) (hb around)
    case assignment =>
      refine (ih.tier .disjunction).bind fun e e' he => alike_branch (fun t t' ht => ?_) ?_
      · exact ih.assignment.bind fun v v' hv => alike_assignTo he ht hv
      · exact alike_branch (fun t t' ht => ih.conditional e e' t t' he ht) (alike_pure he)
    case conditional =>
      refine fun e e' t t' he ht => ih.assignment.bind fun a a' ha => ?_
      exact (alike_expect _ _).bind fun _ _ _ => ih.assignment.bind fun b b' hb =>
        alike_pure fun around => .conditional ht (he around) (ha around) (hb around)
    case tier => exact fun t => (ih.operand t).bind fun e e' he => ih.tierRest t e e' he
    case tierRest => exact alike_tierRest ih
    case operand =>
      rintro (_ | _ | _ | _ | _ | _)
      case factor => exact ih.unary
      all_goals exact ih.tier _
    case unary =>
      refine (alike_acceptIf fun t t' ht => by rw [τ.is_eq ht, τ.is_eq ht]).bind
        fun op op' hop => ?_
      cases hop with
      | some hop =>
        exact ih.unary.bind fun e e' he => alike_pure fun around => .unary hop (he around)
      | none => exact ih.primary.bind fun e e' he => ih.callRest e e' he
    case callRest => exact alike_callRest ih
    case argumentsFrom =>
      refine fun count => steady_overLimit _ _ (ih.assignment.bind fun e e' he => ?_)
      refine (alike_branch (fun _ _ _ => ih.argumentsFrom _)
        (alike_pure fun around => .noExprs)).bind fun es es' hes => ?_
      exact alike_pure fun around => .exprs (he around) (hes around)
    case primary => exact alike_primary ih

/-- `alike` for declarations up to the end of the tokens. -/
theorem alike_program (n : Nat) : Steady τ (AlikeStmts τ) (program n) := by
  induction n with
  | zero => exact alike_outOfFuel
  | succ n ih =>
    exact alike_atEnd.bind fun e e' he => alike_ite he (alike_pure fun around => .noStmts)
      (alike_declarationsBy (alike τ n) ih)

end Rule

/-! ### Programs -/

/-- The tokens of a source: one of them ends it, and it is the last. -/
theorem Token.exists_ofSource (source : String) :
    ∃ body last, Token.ofSource source = body ++ [⟨.eof, "", last⟩] ∧
      ∀ t ∈ body, t.isEof = false := by
  have heof : ∀ s ∈ segments source.toList, s.meaning ≠ .token .eof := by
    refine (longestCuts_segments _).forall_segments (fun _ h => h.ne_eof) fun _ _ _ heq => ?_
    cases heq
  obtain ⟨items, last, hitems, -, hbody⟩ := itemsFrom_shown heof 1
  refine ⟨items.filterMap Item.token?, last, ?_, fun t ht => ?_⟩
  · unfold Token.ofSource Token.scan
    rw [hitems, List.filterMap_append]
    rfl
  · obtain ⟨item, hitem, heq⟩ := List.mem_filterMap.1 ht
    cases item with
    | error e => cases heq
    | token t' =>
      cases heq
      exact hbody t hitem

/-- So there is an end token, as `parse_alike` asks for. -/
theorem Token.any_isEof_ofSource (source : String) :
    (Token.ofSource source).any (·.isEof) = true := by
  obtain ⟨body, last, hsource, -⟩ := Token.exists_ofSource source
  rw [hsource, List.any_append]
  exact Bool.or_eq_true_iff.2 (.inr rfl)

section Programs

variable {τ : TokenLikeness} {tokens tokens' : List Token}

/-- The tokens in front of the end. -/
theorem forall₂_takeWhile (h : List.Forall₂ τ.rel tokens tokens') :
    List.Forall₂ τ.rel (tokens.takeWhile (!·.isEof)) (tokens'.takeWhile (!·.isEof)) := by
  induction h with
  | nil => exact .nil
  | @cons t t' ts ts' ht hts ih =>
    rw [List.takeWhile_cons, List.takeWhile_cons, τ.isEof_eq ht]
    split
    · exact .cons ht ih
    · exact .nil

/-- The end tokens of lists that have some are alike. -/
theorem Program.rel_endToken (h : List.Forall₂ τ.rel tokens tokens')
    (hend : tokens.any (·.isEof) = true) :
    τ.rel (Program.endToken tokens) (Program.endToken tokens') := by
  unfold Program.endToken
  induction h with
  | nil => cases hend
  | @cons t t' ts ts' ht hts ih =>
    rw [List.find?_cons, List.find?_cons, τ.isEof_eq ht]
    cases ht' : t.isEof with
    | true => exact ht
    | false =>
      rw [List.any_cons, ht', Bool.false_or] at hend
      exact ih hend

/-- **Programs that are read alike.** From token lists that agree in kinds and texts, statements
    are read that agree in them, with reports that do, whatever numbers the nodes get. -/
theorem Program.parse_alike (h : List.Forall₂ τ.rel tokens tokens')
    (hend : tokens.any (·.isEof) = true) {report report' : Report}
    (hreport : Report.Like (.raw τ) report report') (nextNode nextNode' : NodeId) :
    let p := parse tokens nextNode report
    let p' := parse tokens' nextNode' report'
    Node.Alike τ (.stmts p.statements) (.stmts p'.statements) ∧
      Report.Like (.raw τ) p.report p'.report := by
  have hstart : Cursor.Like τ (start tokens nextNode report)
      (start tokens' nextNode' report') :=
    ⟨forall₂_takeWhile h, rel_endToken h hend, hreport⟩
  have hrun := Rule.alike_program (fuel tokens.length) _ _ hstart
  unfold parse
  rw [← h.length_eq]
  generalize (Rule.program (fuel tokens.length)).run (start tokens nextNode report) = r
    at hrun ⊢
  generalize (Rule.program (fuel tokens.length)).run (start tokens' nextNode' report') = r'
    at hrun ⊢
  cases hrun with
  | ok hss hx => exact ⟨hss, hx.report⟩
  | error _ hx => exact ⟨fun around => .noStmts, hx.report⟩

end Programs

end Scriptlet
