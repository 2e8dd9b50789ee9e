import Scriptlet.Proofs.Built
import Scriptlet.Proofs.ScopeFrame
import Scriptlet.Token.Lexer

namespace Scriptlet

/-!
# Where the walk comes back to

The walk over an expression or a statement comes back to the scopes, the body and the class that it
started from. To the scopes around it it does no more than to mark names as read.

* `Stmt.name?` — the name that a declaration declares; `Stmt.Formed.declared_eq` — in a well-formed
  tree, no other statement declares anything in the scope it stands in.
* `Walk.Balanced names` — the walk is back, and only `names` are new in the innermost scope.
* `Resolution.walk_is_balanced` — so it is behind every expression and every statement.
-/

/-- The name that a declaration declares. -/
def Stmt.name? : Stmt → Option Token
  | .varDecl name _ => some name
  | .funDecl decl => decl.name?
  | .classDecl name _ => some name
  | _ => none

/-- A statement that declares something is a declaration, and declares its name. -/
theorem Stmt.Formed.declared_eq {T : Token → Prop} {s : Stmt} (h : s.Formed T) :
    s.declared = s.name?.toList := by
  cases hs : s.isDeclaration with
  | true =>
    cases s with
    | varDecl | funDecl | classDecl => rfl
    | expr | print | block | ifElse | whileLoop | ret => cases hs
  | false =>
    rw [Stmt.declared_eq_nil h hs]
    cases s with
    | varDecl | funDecl | classDecl => cases hs
    | expr | print | block | ifElse | whileLoop | ret => rfl

namespace Walk

/-- The walk comes back to where it started from. All that it does to the scopes is to mark names
    as read, and to declare `names` in the innermost one. -/
structure Balanced (names : List Token) (w w' : Walk) : Prop where
  height : w'.scopes.length = w.scopes.length
  body : w'.body = w.body
  inClass : w'.inClass = w.inClass
  outer : ∀ (d : Nat) (s s' : LocalScope), w.scopes[d + 1]? = some s →
    w'.scopes[d + 1]? = some s' → s.Kept s'
  inner : ∀ s s' : LocalScope, w.scopes[0]? = some s → w'.scopes[0]? = some s' →
    ∀ x, x ∉ names.map Token.lexeme → Option.Rel Binding.Kept s[x]? s'[x]?
  declared : ∀ s' : LocalScope, w'.scopes[0]? = some s' → ∀ x ∈ names.map Token.lexeme,
    ∃ b, s'[x]? = some b ∧ b.token ∈ names ∧ b.token.lexeme = x ∧ b.usage ≠ .declared

variable {ids : List NodeId} {names : List Token} {w w' : Walk}
  {s s' : LocalScope} {ss ss' : List LocalScope} {x : String} {b : Binding}

theorem Touched.length_eq (h : Touched names ss ss') : ss'.length = ss.length := by
  cases h with
  | nil => rfl
  | cons _ _ hrest => exact congrArg (· + 1) hrest.length_eq.symm

theorem Touched.kept_outer (h : Touched names ss ss') {d : Nat} (hs : ss[d + 1]? = some s)
    (hs' : ss'[d + 1]? = some s') : s.Kept s' := by
  rw [← List.getElem?_tail] at hs hs'
  obtain ⟨hd, rfl⟩ := List.getElem?_eq_some_iff.1 hs
  obtain ⟨hd', rfl⟩ := List.getElem?_eq_some_iff.1 hs'
  exact h.tail.get hd hd'

theorem Touched.kept_inner (h : Touched names ss ss') (hs : ss[0]? = some s)
    (hs' : ss'[0]? = some s') (hx : x ∉ names.map Token.lexeme) :
    Option.Rel Binding.Kept s[x]? s'[x]? := by
  cases h with
  | nil => cases hs
  | cons hkept _ _ =>
    cases hs
    cases hs'
    exact hkept x hx

theorem Touched.exists_binding (h : Touched names ss ss') (hs' : ss'[0]? = some s')
    (hx : x ∈ names.map Token.lexeme) : ∃ b, s'[x]? = some b ∧ b.usage ≠ .declared := by
  cases h with
  | nil => cases hs'
  | cons _ hdone _ =>
    cases hs'
    exact hdone x hx

/-- Names that were declared belong to the tokens that declared them. -/
theorem Passed.token_mem (h : Passed ids names w w') (hs' : w'.scopes[0]? = some s')
    (hb : s'[x]? = some b) (hx : x ∈ names.map Token.lexeme) :
    b.token ∈ names ∧ b.token.lexeme = x := by
  have howner : w'.owners[0]? = some fun x => s'[x]?.map Binding.token := by
    unfold owners
    rw [List.getElem?_map, hs']
    rfl
  rw [h.owners_eq] at howner
  cases hw : w.owners with
  | nil =>
    -- no scope comes into being
    have hlength := Owners.length_foldl_declare w.owners names
    rw [hw] at hlength howner
    rw [List.eq_nil_of_length_eq_zero hlength] at howner
    cases howner
  | cons owner outer =>
    rw [hw, Owners.foldl_declare_eq] at howner
    have hlast : ((names.filter (·.lexeme = x)).getLast?.or (owner x)) = some b.token :=
      (congrFun (Option.some.inj howner) x).trans (by rw [hb, Option.map_some])
    obtain ⟨name, hname, hlexeme⟩ := List.mem_map.1 hx
    have hfilter : name ∈ names.filter (·.lexeme = x) :=
      List.mem_filter.2 ⟨hname, decide_eq_true hlexeme⟩
    -- the last of the names that are spelled like this one counts
    rw [List.getLast?_eq_some_getLast (List.ne_nil_of_mem hfilter), Option.some_or] at hlast
    have hmem := List.getLast_mem (List.ne_nil_of_mem hfilter)
    rw [Option.some.inj hlast] at hmem
    exact ⟨(List.mem_filter.1 hmem).1, of_decide_eq_true (List.mem_filter.1 hmem).2⟩

/-- The walk over a part of a program comes back. -/
theorem Passed.balanced (h : Passed ids names w w') : Balanced names w w' := by
  obtain ⟨hbody, hclass⟩ := Prod.mk.inj h.context_eq
  refine ⟨h.touched.length_eq, hbody, hclass, fun d s s' => h.touched.kept_outer,
    fun s s' hs hs' x => h.touched.kept_inner hs hs', fun s' hs' x hx => ?_⟩
  obtain ⟨b, hb, husage⟩ := h.touched.exists_binding hs' hx
  obtain ⟨hmem, hlexeme⟩ := h.token_mem hs' hb hx
  exact ⟨b, hb, hmem, hlexeme, husage⟩

end Walk

/-- **The walk is balanced**, whatever it starts from. Behind an expression or a statement there are
    as many scopes as in front of it, the body and the class are the same, and names of the scopes
    around it were at most read. New in the innermost scope are only the names that the statement
    declares there. In a program that was read, a statement declares no name but its own. -/
theorem Resolution.walk_is_balanced :
    (∀ (e : Expr) (w : Walk), w.Balanced [] (w.expr e)) ∧
    (∀ (s : Stmt) (w : Walk), w.Balanced s.declared (w.stmt s)) ∧
    ∀ (tokens : List Token) (nextNode : NodeId) (report : Report) (path : List Nat) (s : Stmt),
      (Node.stmts (Program.parse tokens nextNode report).statements).at? path = some (.stmt s) →
      ∀ w : Walk, w.Balanced s.name?.toList (w.stmt s) := by
  refine ⟨fun e w => (Walk.passed_expr e w).balanced, fun s w => (Walk.passed_stmt s w).balanced,
    fun tokens nextNode report path s hs w => ?_⟩
  have hformed : (Node.stmts (Program.parse tokens nextNode report).statements).Formed
      fun _ => True := (Program.built_parse tokens nextNode report fun _ _ => trivial).1
  have hdeclared : s.declared = s.name?.toList := Stmt.Formed.declared_eq (hformed.at? hs)
  rw [← hdeclared]
  exact (Walk.passed_stmt s w).balanced

/-- A block in a block, which declares a variable by means of one of the block around it. -/
def Program.readsOuter : List Token :=
  Token.ofSource "\x7b var x = 1; \x7b var y = x; print y; \x7d \x7d"

/-- A part of a tree that is a declaration of `x`. -/
def Node.isDeclarationOf (x : String) : Node → Bool
  | .stmt s => s.name?.any (·.lexeme = x)
  | _ => false

/-- Behind the inner declaration, its name is in the innermost scope, wherever the walk comes
    from. -/
theorem Resolution.walk_is_balanced_readsOuter :
    ∃ s name, (Node.stmts (Program.parse Program.readsOuter 0 .empty).statements).at?
        [0, 0, 1, 0, 0, 0] = some (.stmt s) ∧ s.name? = some name ∧ name.lexeme = "y" ∧
      ∀ w : Walk, w.Balanced [name] (w.stmt s) ∧
        ∀ scope, (w.stmt s).scopes[0]? = some scope →
          ∃ b, scope["y"]? = some b ∧ b.token = name ∧ b.usage ≠ .declared := by
  have hfound : ((Node.stmts (Program.parse Program.readsOuter 0 .empty).statements).at?
      [0, 0, 1, 0, 0, 0]).any (Node.isDeclarationOf "y") = true := by decide +kernel
  obtain ⟨n, hn, hdecl⟩ := (Option.any_eq_true _ _).1 hfound
  cases n with
  | stmt s =>
    obtain ⟨name, hname, hlexeme⟩ := (Option.any_eq_true _ _).1 hdecl
    have hlexeme : name.lexeme = "y" := of_decide_eq_true hlexeme
    refine ⟨s, name, hn, hname, hlexeme, fun w => ?_⟩
    have hbalanced := walk_is_balanced.2.2 _ _ _ _ s hn w
    rw [hname, Option.toList_some] at hbalanced
    refine ⟨hbalanced, fun scope hscope => ?_⟩
    obtain ⟨b, hb, hmem, -, husage⟩ :=
      hbalanced.declared scope hscope "y" (List.mem_singleton.2 hlexeme.symm)
    exact ⟨b, hb, List.mem_singleton.1 hmem, husage⟩
  | _ => cases hdecl

end Scriptlet
