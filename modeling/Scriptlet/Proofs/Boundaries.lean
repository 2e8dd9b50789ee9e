import Scriptlet.Proofs.Bound
import Scriptlet.Proofs.Concatenation

namespace Scriptlet

/-!
# Reading on behind a program

Behind the tokens of a program that has nothing wrong with it, reading goes on as if it started
there, whatever follows. Only an `else` could still belong to the last statement.

* `Phrase.Meets.gets_program` — a reading of both comes to the boundary, with nothing reported.
* `Node.Like.shape_eq`, `Program.parse_renumbered` — the numbers of nodes are of no account for the
  trees that are read and for what is reported.
* `Program.parse_at_boundary` — the statements of both, and the report of what follows.
-/

/-! ### Up to the boundary -/

namespace Phrase.Meets

open Parse Rule

variable {c : Cursor} {ts us rest : List Token} {x : Stmt} {ss : List Stmt} {n : Nat}

/-- A declaration is read up to what is behind it. -/
theorem gets_declaration (hx : (Phrase.decl x).Meets ts) (hrest : NoElse rest)
    (hc : c.rest = ts ++ rest) (n : Nat) :
    (declaration n).Gets c fun x? c' => ∃ x', x? = some x' ∧ x'.shape = x.shape ∧
      c.Reaches rest c' ∧ c'.stop = c.stop := by
  refine gets_succ n rfl fun n => ensures_declaration.2 ?_
  have hmeets := Ensures.and (hx rest hrest n c hc) (leads_declarationOrStatement n c)
  refine hmeets.mono (fun x' c' h => ⟨x', rfl, h.1.1, h.1.2, h.2.stop⟩) ?_
  rintro _ _ ⟨rfl, -⟩
  rfl

/-- A run that yields `ss'` and ends at `c'` stands in front of `rest` on its way. What it yields
    up to there looks like `ss`, and from there on it yields the remaining statements. -/
def Crosses (c : Cursor) (ss : List Stmt) (rest : List Token) (ss' : List Stmt) (c' : Cursor) :
    Prop :=
  ∃ m c₁ first second, ss' = first ++ second ∧ Stmt.shapeAll first = Stmt.shapeAll ss ∧
    c.Reaches rest c₁ ∧ c₁.stop = c.stop ∧ (program m).run c₁ = (.ok second, c')

/-- Reading the tokens of a program and what is behind them comes to the boundary. -/
theorem gets_program (hreads : Reads (.decls ss) ts) (hrest : NoElse rest)
    (hc : c.rest = ts ++ rest) (n : Nat) : (program n).Gets c (Crosses c ss rest) := by
  induction ss generalizing ts c n with
  | nil =>
    cases hreads
    have hrun := program_ne_error n c
    unfold Gets Ensures at *
    split at hrun
    · next ss' c' heq => exact ⟨n, c, [], ss', rfl, rfl, ⟨hc, rfl⟩, rfl, heq⟩
    · exact hrun
  | cons x ss ih =>
    cases hreads with
    | @moreDecls _ _ ts us hx hss =>
      obtain ⟨t, vs, rfl, -⟩ := (hx.opens : ∃ t vs, ts = t :: vs ∧ _)
      rw [List.append_assoc] at hc
      refine gets_succ n rfl fun n => ?_
      rw [program]
      refine ensures_bind.2 (ensures_atEnd.2 ?_)
      rw [hc]
      refine Gets.bind (gets_declaration hx.meets (noElse_append hss hrest) hc n) ?_
      rintro _ c₁ ⟨x', rfl, hx', hreach, hstop⟩
      refine (ih hss hreach.rest n).bind fun ss' c' hss' => gets_pure ?_
      obtain ⟨m, c₂, first, second, rfl, hfirst, hreach', hstop', hrun⟩ := hss'
      refine ⟨m, c₂, x' :: first, second, rfl, ?_, hreach.trans hreach', hstop'.trans hstop, hrun⟩
      rw [Stmt.shapeAll, Stmt.shapeAll, hx', hfirst]

end Phrase.Meets

/-! ### Numbers of nodes -/

section Numbers

variable {T : Token → Prop}

theorem Likeness.Names.eq_of_same {marked : Bool} {t t' : Token}
    (h : (Likeness.raw (.same T)).Names marked t t') : t' = t :=
  (Likeness.names_plain_iff.1 h).1

/-- Trees that agree in their tokens differ in the numbers of their nodes only. -/
theorem Node.Like.shape_eq {around : List Bool} {n n' : Node}
    (h : Node.Like (.raw (.same T)) around n n') : n'.shape = n.shape := by
  -- In each case the tokens are equal, and so are the shapes of the parts.
  induction h with
  | literal | noExprs | noStmts | noFunctions => rfl
  | read ht | thisRef ht =>
    obtain ⟨rfl, -⟩ := ht.rel
    rfl
  | assign ht _ ih =>
    obtain ⟨rfl, -⟩ := ht.rel
    simp_all only [Node.shape, Expr.shape, Node.expr.injEq]
  | unary ht _ ih | get ht _ ih =>
    obtain ⟨rfl, -⟩ := ht
    simp_all only [Node.shape, Expr.shape, Node.expr.injEq]
  | binary ht _ _ iha ihb | logical ht _ _ iha ihb | set ht _ _ iha ihb =>
    obtain ⟨rfl, -⟩ := ht
    simp_all only [Node.shape, Expr.shape, Node.expr.injEq]
  | call ht _ _ ihe ihes =>
    obtain ⟨rfl, -⟩ := ht
    simp_all only [Node.shape, Expr.shape, Node.expr.injEq, Node.exprs.injEq]
  | conditional ht _ _ _ ihc iha ihb =>
    obtain ⟨rfl, -⟩ := ht
    simp_all only [Node.shape, Expr.shape, Node.expr.injEq]
  | group _ ih => simp_all only [Node.shape, Expr.shape, Node.expr.injEq]
  | lambda _ ih => simp_all only [Node.shape, Expr.shape, Node.function.injEq]
  | exprs _ _ ih ihs =>
    simp_all only [Node.shape, Expr.shapeAll, Node.expr.injEq, Node.exprs.injEq]
  | expr _ ih | print _ ih => simp_all only [Node.shape, Stmt.shape, Node.expr.injEq]
  | varDecl ht =>
    obtain rfl := ht.eq_of_same
    rfl
  | varInit ht _ ih =>
    obtain rfl := ht.eq_of_same
    simp_all only [Node.shape, Stmt.shape, Node.expr.injEq]
  | block _ _ ih => simp_all only [Node.shape, Stmt.shape, Node.stmts.injEq]
  | ifThen _ _ ihc iha | whileLoop _ _ ihc iha =>
    simp_all only [Node.shape, Stmt.shape, Node.expr.injEq, Node.stmt.injEq]
  | ifElse _ _ _ ihc iha ihb =>
    simp_all only [Node.shape, Stmt.shape, Node.expr.injEq, Node.stmt.injEq]
  | funDecl _ _ ih => simp_all only [Node.shape, Stmt.shape, Node.function.injEq]
  | ret ht =>
    obtain ⟨rfl, -⟩ := ht
    rfl
  | retValue ht _ ih =>
    obtain ⟨rfl, -⟩ := ht
    simp_all only [Node.shape, Stmt.shape, Node.expr.injEq]
  | classDecl ht _ _ ih =>
    obtain ⟨rfl, -⟩ := ht
    simp_all only [Node.shape, Stmt.shape, Node.functions.injEq]
  | stmts _ _ ih ihs =>
    simp_all only [Node.shape, Stmt.shapeAll, Node.stmt.injEq, Node.stmts.injEq]
  | functions _ _ ih ihs =>
    simp_all only [Node.shape, FunDecl.shapeAll, Node.function.injEq, Node.functions.injEq]
  | @function _ _ decl decl' marked hnames hparams _ ih =>
    obtain ⟨name?, params, body⟩ := decl
    obtain ⟨name?', params', body'⟩ := decl'
    have hname : name?' = name? := by
      cases hnames with
      | some h => rw [h.1]
      | none => rfl
    have hparams' : params' = params := by
      have heq := hparams.imp fun _ _ h => h.eq_of_same.symm
      rwa [List.forall₂_eq_eq_eq, eq_comm] at heq
    have hbody : Stmt.shapeAll body' = Stmt.shapeAll body := Node.stmts.inj ih
    rw [Node.shape, Node.shape, FunDecl.shape, FunDecl.shape, hname, hparams', hbody]

/-- Which number the first node gets is of no account for the trees and for the report. -/
theorem Program.parse_renumbered (tokens : List Token) (i j : NodeId) :
    Stmt.shapeAll (parse tokens i .empty).statements =
        Stmt.shapeAll (parse tokens j .empty).statements ∧
      (parse tokens i .empty).report = (parse tokens j .empty).report := by
  obtain ⟨ss, c, hrun, hparse⟩ := run_program tokens i .empty
  obtain ⟨ss', c', hrun', hparse'⟩ := run_program tokens j .empty
  have hstart : Cursor.Like (.same fun _ => True) (start tokens i .empty)
      (start tokens j .empty) :=
    ⟨TokenLikeness.forall₂_same fun _ _ => trivial, ⟨rfl, trivial⟩, .nil⟩
  have hends := Rule.alike_program (fuel tokens.length) _ _ hstart
  rw [hrun, hrun'] at hends
  rw [hparse, hparse']
  cases hends with
  | ok hss hc =>
    have hshape := (hss []).shape_eq
    rw [Node.shape, Node.shape, Node.stmts.injEq] at hshape
    exact ⟨hshape.symm, hc.report.eq_of_same.symm⟩

end Numbers

/-! ### Behind the boundary -/

section Boundary

variable {p q : List Token} {i : NodeId}

theorem Program.takeWhile_append (hp : ∀ t ∈ p, t.isEof = false) :
    (p ++ q).takeWhile (!·.isEof) = p ++ q.takeWhile (!·.isEof) :=
  List.takeWhile_append_of_pos fun t ht => by simp [hp t ht]

theorem Program.endToken_append (hp : ∀ t ∈ p, t.isEof = false) :
    endToken (p ++ q) = endToken q := by
  unfold endToken
  rw [List.find?_append, List.find?_eq_none.2 fun t ht => by simp [hp t ht]]
  rfl

/-- **Boundaries.** Let nothing be reported about the tokens `p`, which have no end token among
    them, and let any tokens follow, well formed or not, that do not start with an `else`. Then
    the statements of `p` are read, those of what follows behind them, and what is reported is what
    is reported about that alone, whatever numbers the nodes get. -/
theorem Program.parse_at_boundary (hp : ∀ t ∈ p, t.isEof = false)
    (hreport : (parse p i .empty).report = .empty)
    (hq : ∀ t ∈ q.head?, t.is .elseKw = false) (j k : NodeId) :
    Stmt.shapeAll (parse (p ++ q) j .empty).statements =
        Stmt.shapeAll ((parse p i .empty).statements ++ (parse q k .empty).statements) ∧
      (parse (p ++ q) j .empty).report = (parse q k .empty).report := by
  have hreads := reads_parse hreport
  rw [List.takeWhile_eq_self_iff.2 fun t ht => by simp [hp t ht]] at hreads
  have hrest : NoElse (q.takeWhile (!·.isEof)) := by
    intro t us heq
    obtain ⟨vs, hvs⟩ := List.takeWhile_prefix (l := q) (!·.isEof)
    rw [heq] at hvs
    exact hq t (by rw [← hvs]; rfl)
  -- The reading of both lists comes to the boundary, where it is at the start of the second one.
  obtain ⟨ss, c, hrun, hparse⟩ := run_program (p ++ q) j .empty
  have hgets := Phrase.Meets.gets_program hreads hrest
    (c := start (p ++ q) j .empty) (takeWhile_append hp) (fuel (p ++ q).length)
  unfold Parse.Gets Parse.Ensures at hgets
  rw [hrun] at hgets
  obtain ⟨m, c₁, first, second, rfl, hfirst, hreach, hstop, hsecond⟩ := hgets
  have hc₁ : c₁ = start q c₁.nextNode .empty := by
    obtain ⟨rest, stop, nextNode, report⟩ := c₁
    obtain ⟨rfl, rfl⟩ := hreach
    have hstop : stop = endToken (p ++ q) := hstop
    rw [endToken_append hp] at hstop
    rw [hstop]
    rfl
  rw [hc₁] at hsecond
  have halone := parse_eq_of_run hsecond
  obtain ⟨hshape, hsame⟩ := parse_renumbered q c₁.nextNode k
  rw [halone] at hshape hsame
  rw [hparse, ← hsame]
  refine ⟨?_, rfl⟩
  simp only [Stmt.shapeAll_eq_map, List.map_append] at hshape hfirst ⊢
  rw [hfirst, hshape]

end Boundary

/-- An `if` that an `else` could follow. -/
def Program.openBranch : List Token := (Token.ofSource "if (a) print b;").dropLast

/-- Tokens that are not a program: there is nothing to print, and a brace too many. -/
def Program.brokenTokens : List Token := Token.ofSource "print; else var x = 1; \x7d"

/-- The `if` is read, its branch is not extended, and all that is wrong is wrong behind it. -/
theorem Program.parse_at_boundary_openBranch :
    (parse openBranch 0 .empty).report = .empty ∧
      (parse brokenTokens 0 .empty).report.size = 3 ∧
      (parse brokenTokens 0 .empty).statements.length = 1 ∧
      Stmt.shapeAll (parse (openBranch ++ brokenTokens) 7 .empty).statements =
        Stmt.shapeAll ((parse openBranch 0 .empty).statements ++
          (parse brokenTokens 0 .empty).statements) ∧
      (parse (openBranch ++ brokenTokens) 7 .empty).report =
        (parse brokenTokens 0 .empty).report := by
  have hreport : (parse openBranch 0 .empty).report = .empty :=
    Report.eq_empty (by decide +kernel)
  refine ⟨hreport, by decide +kernel, by decide +kernel, ?_⟩
  exact parse_at_boundary (by decide +kernel) hreport (by decide +kernel) 7 0

end Scriptlet
