import Mathlib.Data.List.TakeWhile
import Scriptlet.Proofs.Completeness
import Scriptlet.Proofs.Soundness
import Scriptlet.Token.Lexer

namespace Scriptlet

/-!
# Writing trees back

The tokens of a tree in the order of the source, without any parentheses that the tree does not
have, and what reading them yields.

* `Expr.unparse`, `Stmt.unparse` — the tokens of a tree. A `for` loop is written as the blocks and
  the `while` loop it became.
* `Reads.reprint` — they stand for the same tree.
* `Reads.says` — without `for` loops, they say what the tokens said that were read.
* `Program.parse_unparse` — reading what was written yields the tree again.
-/

/-! ### Tokens that trees do not keep -/

/-- A token for a symbol. -/
def Symbol.token (s : Symbol) : Token := ⟨.symbol s, s.spelling, 0⟩

/-- A token for a literal. -/
def Literal.token : Literal → Token
  | .nil => Symbol.nilKw.token
  | .bool true => Symbol.trueKw.token
  | .bool false => Symbol.falseKw.token
  | .number x => ⟨.number x, Token.numberText x, 0⟩
  | .string s => ⟨.string s, "\"" ++ s ++ "\"", 0⟩

@[simp]
theorem Symbol.is_token (s : Symbol) : s.token.is s = true := by
  simp [Symbol.token, Token.is]

@[simp]
theorem Literal.literal?_token (l : Literal) : l.token.literal? = some l := by
  cases l with
  | bool b => cases b <;> rfl
  | nil | number | string => rfl

/-! ### The tokens of a tree -/

mutual

/-- The tokens of an expression. -/
def Expr.unparse : Expr → List Token
  | .literal value => [value.token]
  | .group inner => Symbol.leftParen.token :: (inner.unparse ++ [Symbol.rightParen.token])
  | .variable _ name => [name]
  | .thisRef _ keyword => [keyword]
  | .assign _ name value => name :: Symbol.equal.token :: value.unparse
  | .unary op operand => op :: operand.unparse
  | .binary left op right => left.unparse ++ op :: right.unparse
  | .logical left op right => left.unparse ++ op :: right.unparse
  | .conditional condition question whenTrue whenFalse =>
    condition.unparse ++ question :: (whenTrue.unparse ++ Symbol.colon.token :: whenFalse.unparse)
  | .call callee paren arguments =>
    callee.unparse ++ Symbol.leftParen.token :: (Expr.unparseAll arguments ++ [paren])
  | .get object name => object.unparse ++ [Symbol.dot.token, name]
  | .set object name value =>
    object.unparse ++ Symbol.dot.token :: name :: Symbol.equal.token :: value.unparse
  | .function decl => Symbol.funKw.token :: decl.unparse

/-- Expressions with commas between them. -/
def Expr.unparseAll : List Expr → List Token
  | [] => []
  | [e] => e.unparse
  | e :: e' :: es => e.unparse ++ Symbol.comma.token :: Expr.unparseAll (e' :: es)

/-- The tokens of a statement. -/
def Stmt.unparse : Stmt → List Token
  | .expr e => e.unparse ++ [Symbol.semicolon.token]
  | .print e => Symbol.printKw.token :: (e.unparse ++ [Symbol.semicolon.token])
  | .varDecl name none => [Symbol.varKw.token, name, Symbol.semicolon.token]
  | .varDecl name (some e) =>
    Symbol.varKw.token :: name :: Symbol.equal.token :: (e.unparse ++ [Symbol.semicolon.token])
  | .block body =>
    Symbol.leftBrace.token :: (Stmt.unparseAll body ++ [Symbol.rightBrace.token])
  | .ifElse condition whenTrue none =>
    Symbol.ifKw.token :: Symbol.leftParen.token ::
      (condition.unparse ++ Symbol.rightParen.token :: whenTrue.unparse)
  | .ifElse condition whenTrue (some whenFalse) =>
    Symbol.ifKw.token :: Symbol.leftParen.token :: (condition.unparse ++
      Symbol.rightParen.token :: (whenTrue.unparse ++ Symbol.elseKw.token :: whenFalse.unparse))
  | .whileLoop condition body =>
    Symbol.whileKw.token :: Symbol.leftParen.token ::
      (condition.unparse ++ Symbol.rightParen.token :: body.unparse)
  | .funDecl decl => Symbol.funKw.token :: decl.unparse
  | .ret keyword none => [keyword, Symbol.semicolon.token]
  | .ret keyword (some e) => keyword :: (e.unparse ++ [Symbol.semicolon.token])
  | .classDecl name methods =>
    Symbol.classKw.token :: name :: Symbol.leftBrace.token ::
      (FunDecl.unparseAll methods ++ [Symbol.rightBrace.token])

def Stmt.unparseAll : List Stmt → List Token
  | [] => []
  | s :: ss => s.unparse ++ Stmt.unparseAll ss

/-- The tokens of a function behind its keyword. -/
def FunDecl.unparse : FunDecl → List Token
  | .mk name? params body =>
    name?.toList ++ Symbol.leftParen.token :: (params.intersperse Symbol.comma.token ++
      Symbol.rightParen.token :: Symbol.leftBrace.token ::
        (Stmt.unparseAll body ++ [Symbol.rightBrace.token]))

def FunDecl.unparseAll : List FunDecl → List Token
  | [] => []
  | f :: fs => f.unparse ++ FunDecl.unparseAll fs

end

/-- The tokens of a phrase. -/
def Phrase.unparse : Phrase → List Token
  | .expr _ e => e.unparse
  | .option e => (e.map Expr.unparse).getD []
  | .arguments es => Expr.unparseAll es
  | .parameters ps => ps.intersperse Symbol.comma.token
  | .lambda ps body => (FunDecl.mk none ps body).unparse
  | .stmt _ s => s.unparse
  | .varDecl s => s.unparse
  | .first s => (s.map Stmt.unparse).getD []
  | .decl s => s.unparse
  | .decls ss => Stmt.unparseAll ss
  | .method f => f.unparse
  | .methods fs => FunDecl.unparseAll fs

theorem Tier.unparse_node (t : Tier) (left : Expr) (op : Token) (right : Expr) :
    (t.node left op right).unparse = left.unparse ++ op :: right.unparse := by
  cases t <;> rfl

/-! ### The same tree again -/

/-- What the tokens of a phrase can be read as. A statement may be closed that was open, since the
    body of a `for` loop may have become part of a block; what stands first in a `for` loop
    becomes a declaration of its own. -/
def Phrase.Reprints : Phrase → Prop
  | .stmt o s => ∃ o', (o' = true → o = true) ∧ Reads (.stmt o' s) s.unparse
  | .first none => True
  | .first (some s) => Reads (.decl s) s.unparse
  | ph => Reads ph ph.unparse

/-- A closed statement will do, whether it was open or not. -/
theorem Phrase.reprints_of_closed {o : Bool} {s : Stmt} (h : Reads (.stmt false s) s.unparse) :
    (Phrase.stmt o s).Reprints :=
  ⟨false, fun ho => absurd ho Bool.false_ne_true, h⟩

namespace Reads

/-- The parts of a `for` loop make up its blocks and its `while` loop. -/
theorem reprint_forLoop {i : Option Stmt} {c inc : Option Expr} {o : Bool} {s : Stmt}
    (hi : (Phrase.first i).Reprints) (hc : (Phrase.option c).Reprints)
    (hinc : (Phrase.option inc).Reprints) (hs : (Phrase.stmt o s).Reprints) :
    (Phrase.stmt o (.forLoop i c inc s)).Reprints := by
  have hcondition : Reads (.expr .expression (c.getD (.literal (.bool true))))
      (c.getD (.literal (.bool true))).unparse := by
    cases c with
    -- A missing condition was read as `true`, which has to pass all the levels.
    | none =>
      have hprimary : Reads (.expr .primary (.literal (.bool true))) [Symbol.trueKw.token] :=
        .literal rfl
      exact .lift rfl <| .lift rfl <| .lift rfl <| .lift rfl <| .lift rfl <| .lift rfl <|
        .lift rfl <| .lift rfl <| .lift rfl <| .lift rfl hprimary
    | some c =>
      cases hc with
      | present h => exact h
  have hbody : (Phrase.stmt o (Stmt.forBody s inc)).Reprints := by
    cases inc with
    | none => exact hs
    -- The body and the increment share a block, which is closed whatever the body was.
    | some inc =>
      obtain ⟨o', -, hs⟩ := hs
      cases hinc with
      | present h =>
        have hlast : Reads (.decl (.expr inc)) (Stmt.expr inc).unparse :=
          .declStmt (.exprStmt h (Symbol.is_token _))
        exact Phrase.reprints_of_closed (.block (Symbol.is_token _)
          (.moreDecls (.declStmt hs) (.moreDecls hlast .noDecls)) (Symbol.is_token _))
  obtain ⟨o', ho', hbody⟩ := hbody
  have hloop := Reads.whileLoop (Symbol.is_token .whileKw) (Symbol.is_token .leftParen) hcondition
    (Symbol.is_token .rightParen) hbody
  cases i with
  | none => exact ⟨o', ho', hloop⟩
  | some first =>
    exact Phrase.reprints_of_closed (.block (Symbol.is_token _)
      (.moreDecls hi (.moreDecls (.declStmt hloop) .noDecls)) (Symbol.is_token _))

/-- **Reprinting.** The tokens of a phrase that was read can be read as that phrase. -/
theorem reprint {ph : Phrase} {ts : List Token} (h : Reads ph ts) : ph.Reprints := by
  induction h with
  | lift hl _ ih => exact .lift hl ih
  | comma _ hop _ iha ihb => exact .comma iha hop ihb
  | assign hname _ _ ih => exact .assign hname (Symbol.is_token _) ih
  | set _ _ hname _ _ iho ihe => exact .set iho (Symbol.is_token _) hname (Symbol.is_token _) ihe
  | conditional _ hq _ _ _ ihc iha ihb => exact .conditional ihc hq iha (Symbol.is_token _) ihb
  | @operator t a op b _ _ _ hop _ iha ihb =>
    show Reads (.expr (.tier t) (t.node a op b)) (t.node a op b).unparse
    rw [Tier.unparse_node]
    exact .operator iha hop ihb
  | unary hop _ ih => exact .unary hop ih
  | call _ _ _ hlength hrp ihf ihes => exact .call ihf (Symbol.is_token _) ihes hlength hrp
  | get _ _ hname iho => exact .get iho (Symbol.is_token _) hname
  | literal _ => exact .literal (Literal.literal?_token _)
  | this h => exact .this h
  | name h => exact .name h
  | group _ _ _ ih => exact .group (Symbol.is_token _) ih (Symbol.is_token _)
  | function _ _ ih => exact .function (Symbol.is_token _) ih
  | absent => exact .absent
  | present _ ih => exact .present ih
  | noArguments => exact .noArguments
  | oneArgument _ ih => exact .oneArgument ih
  | moreArguments _ _ _ ih ihs => exact .moreArguments ih (Symbol.is_token _) ihs
  | noParameters => exact .noParameters
  | oneParameter h => exact .oneParameter h
  | moreParameters h _ _ ih => exact .moreParameters h (Symbol.is_token _) ih
  | lambda _ _ hlength _ _ _ _ ihps ihbody =>
    exact .lambda (Symbol.is_token _) ihps hlength (Symbol.is_token _) (Symbol.is_token _) ihbody
      (Symbol.is_token _)
  | method hname _ ih => exact .method hname ih
  | noMethods => exact .noMethods
  | moreMethods _ _ ih ihs => exact .moreMethods ih ihs
  | exprStmt _ _ ih => exact Phrase.reprints_of_closed (.exprStmt ih (Symbol.is_token _))
  | print _ _ _ ih =>
    exact Phrase.reprints_of_closed (.print (Symbol.is_token _) ih (Symbol.is_token _))
  | @ret _ e _ _ hkw _ _ ih =>
    have hret := Reads.ret hkw ih (Symbol.is_token .semicolon)
    cases e with
    | none => exact Phrase.reprints_of_closed hret
    | some e => exact Phrase.reprints_of_closed hret
  | block _ _ _ ih =>
    exact Phrase.reprints_of_closed (.block (Symbol.is_token _) ih (Symbol.is_token _))
  | ifThen _ _ _ _ _ ihc iha =>
    obtain ⟨_, -, ha⟩ := iha
    exact ⟨true, id, .ifThen (Symbol.is_token _) (Symbol.is_token _) ihc (Symbol.is_token _) ha⟩
  | ifElse _ _ _ _ _ _ _ ihc iha ihb =>
    obtain ⟨o, ho, ha⟩ := iha
    obtain ⟨o', ho', hb⟩ := ihb
    -- No statement becomes open that was closed, so the `else` still finds its `if`.
    cases o with
    | false => exact ⟨o', ho', .ifElse (Symbol.is_token _) (Symbol.is_token _) ihc
        (Symbol.is_token _) ha (Symbol.is_token _) hb⟩
    | true => exact absurd (ho rfl) Bool.false_ne_true
  | whileLoop _ _ _ _ _ ihc iha =>
    obtain ⟨o', ho', ha⟩ := iha
    exact ⟨o', ho', .whileLoop (Symbol.is_token _) (Symbol.is_token _) ihc (Symbol.is_token _) ha⟩
  | forLoop _ _ _ _ _ _ _ _ ihf ihc ihi iha => exact reprint_forLoop ihf ihc ihi iha
  | noFirst _ => exact trivial
  | firstVar _ ih => exact .declVar ih
  | firstExpr _ _ ih => exact .declStmt (.exprStmt ih (Symbol.is_token _))
  | varDecl _ hname _ => exact .varDecl (Symbol.is_token _) hname (Symbol.is_token _)
  | varInit _ hname _ _ _ ih =>
    exact .varInit (Symbol.is_token _) hname (Symbol.is_token _) ih (Symbol.is_token _)
  | declVar _ ih => exact .declVar ih
  | declFun _ _ ih => exact .declFun (Symbol.is_token _) ih
  | declClass _ hname _ _ _ ih =>
    exact .declClass (Symbol.is_token _) hname (Symbol.is_token _) ih (Symbol.is_token _)
  | declStmt _ ih =>
    obtain ⟨_, -, h⟩ := ih
    exact .declStmt h
  | noDecls => exact .noDecls
  | moreDecls _ _ ih ihs => exact .moreDecls ih ihs

end Reads

/-! ### No token is lost -/

/-- What a token says: its kind, and its text if it is a name. -/
def Token.content (t : Token) : Kind × Option String :=
  (t.kind, if t.isIdentifier then some t.lexeme else none)

theorem Token.content_of_is {t : Token} {s : Symbol} (h : t.is s = true) :
    t.content = s.token.content := by
  simp [Token.content, Token.isIdentifier, Token.kind_of_is h, Symbol.token]

theorem Token.content_of_literal? {t : Token} {l : Literal} (h : t.literal? = some l) :
    t.content = l.token.content := by
  unfold Token.literal? at h
  split at h
  case h_6 => cases h
  all_goals
    next hkind =>
    cases h
    simp [Token.content, Token.isIdentifier, hkind, Literal.token, Symbol.token]

/-- Two token lists say the same. -/
def Echoes (ts us : List Token) : Prop := ts.map Token.content = us.map Token.content

namespace Echoes

variable {ts ts' us us' : List Token}

theorem nil : Echoes [] [] := rfl

theorem append (h : Echoes ts us) (h' : Echoes ts' us') : Echoes (ts ++ ts') (us ++ us') := by
  unfold Echoes at *
  rw [List.map_append, List.map_append, h, h']

/-- A token that the tree keeps. -/
theorem kept (h : Echoes ts us) (t : Token) : Echoes (t :: ts) (t :: us) :=
  congrArg (t.content :: ·) h

/-- A symbol that the tree does not keep. -/
theorem symbol (h : Echoes ts us) {t : Token} {s : Symbol} (ht : t.is s = true) :
    Echoes (s.token :: ts) (t :: us) := by
  unfold Echoes at *
  rw [List.map_cons, List.map_cons, h, Token.content_of_is ht]

end Echoes

/-- There is no `for` among the tokens. -/
def NoFor (ts : List Token) : Prop := ∀ t ∈ ts, t.is .forKw = false

namespace NoFor

variable {ts us : List Token} {t : Token}

theorem left (h : NoFor (ts ++ us)) : NoFor ts := (List.forall_mem_append.1 h).1

theorem right (h : NoFor (ts ++ us)) : NoFor us := (List.forall_mem_append.1 h).2

theorem tail (h : NoFor (t :: ts)) : NoFor ts := (List.forall_mem_cons.1 h).2

end NoFor

/-- The tokens of a phrase say what those said that were read. What stands first in a `for` loop
    is left out, since its semicolon may be missing. -/
def Phrase.Says : Phrase → List Token → Prop
  | .first _, _ => True
  | ph, ts => Echoes ph.unparse ts

/-- **Nothing is lost.** Where no `for` loop was read, the tokens of a phrase are those that were
    read, in the same order. -/
theorem Reads.says {ph : Phrase} {ts : List Token} (h : Reads ph ts) (hfor : NoFor ts) :
    ph.Says ts := by
  induction h with
  | @lift l l' e _ _ _ ih => exact ih hfor
  | comma _ _ _ iha ihb => exact (iha hfor.left).append ((ihb hfor.right.tail).kept _)
  | assign _ heq _ ih => exact ((ih hfor.tail.tail).symbol heq).kept _
  | set _ hdot _ heq _ iho ihe =>
    exact (iho hfor.left).append
      ((((ihe hfor.right.tail.tail.tail).symbol heq).kept _).symbol hdot)
  | conditional _ _ _ hcolon _ ihc iha ihb =>
    exact (ihc hfor.left).append (((iha hfor.right.tail.left).append
      ((ihb hfor.right.tail.right.tail).symbol hcolon)).kept _)
  | @operator t a op b _ _ _ _ _ iha ihb =>
    show Echoes (t.node a op b).unparse _
    rw [Tier.unparse_node]
    exact (iha hfor.left).append ((ihb hfor.right.tail).kept _)
  | unary _ _ ih => exact (ih hfor.tail).kept _
  | call _ hlp _ _ _ ihf ihes =>
    exact (ihf hfor.left).append
      (((ihes hfor.right.tail.left).append (Echoes.nil.kept _)).symbol hlp)
  | get _ hdot _ iho => exact (iho hfor.left).append ((Echoes.nil.kept _).symbol hdot)
  | literal h => exact congrArg ([·]) (Token.content_of_literal? h).symm
  | this _ => exact Echoes.nil.kept _
  | name _ => exact Echoes.nil.kept _
  | group hlp _ hrp ih =>
    exact ((ih hfor.tail.left).append (Echoes.nil.symbol hrp)).symbol hlp
  | function hkw _ ih => exact (ih hfor.tail).symbol hkw
  | absent => exact .nil
  | present _ ih => exact ih hfor
  | noArguments => exact .nil
  | oneArgument _ ih => exact ih hfor
  | moreArguments _ hcomma _ ih ihs =>
    exact (ih hfor.left).append ((ihs hfor.right.tail).symbol hcomma)
  | noParameters => exact .nil
  | oneParameter _ => exact Echoes.nil.kept _
  | moreParameters _ hcomma _ ih => exact ((ih hfor.tail.tail).symbol hcomma).kept _
  | lambda hlp _ _ hrp hlb _ hrb ihps ihbody =>
    exact ((ihps hfor.tail.left).append ((((ihbody hfor.tail.right.tail.tail.left).append
      (Echoes.nil.symbol hrb)).symbol hlb).symbol hrp)).symbol hlp
  | method _ _ ih => exact (ih hfor.tail).kept _
  | noMethods => exact .nil
  | moreMethods _ _ ih ihs => exact (ih hfor.left).append (ihs hfor.right)
  | exprStmt _ hsemi ih => exact (ih hfor.left).append (Echoes.nil.symbol hsemi)
  | print hkw _ hsemi ih =>
    exact ((ih hfor.tail.left).append (Echoes.nil.symbol hsemi)).symbol hkw
  | @ret kw e _ _ _ _ hsemi ih =>
    have hret := ((ih hfor.tail.left).append (Echoes.nil.symbol hsemi)).kept kw
    cases e with
    | none => exact hret
    | some e => exact hret
  | block hlb _ hrb ih =>
    exact ((ih hfor.tail.left).append (Echoes.nil.symbol hrb)).symbol hlb
  | ifThen hkw hlp _ hrp _ ihc iha =>
    exact (((ihc hfor.tail.tail.left).append
      ((iha hfor.tail.tail.right.tail).symbol hrp)).symbol hlp).symbol hkw
  | ifElse hkw hlp _ hrp _ hel _ ihc iha ihb =>
    have hthen := iha hfor.tail.tail.right.tail.left
    have helse := ihb hfor.tail.tail.right.tail.right.tail
    exact (((ihc hfor.tail.tail.left).append
      ((hthen.append (helse.symbol hel)).symbol hrp)).symbol hlp).symbol hkw
  | whileLoop hkw hlp _ hrp _ ihc iha =>
    exact (((ihc hfor.tail.tail.left).append
      ((iha hfor.tail.tail.right.tail).symbol hrp)).symbol hlp).symbol hkw
  | forLoop hkw => exact absurd hkw (by simp [hfor _ List.mem_cons_self])
  | noFirst _ => trivial
  | firstVar _ _ => trivial
  | firstExpr _ _ _ => trivial
  | varDecl hkw _ hsemi => exact ((Echoes.nil.symbol hsemi).kept _).symbol hkw
  | varInit hkw _ heq _ hsemi ih =>
    exact ((((ih hfor.tail.tail.tail.left).append (Echoes.nil.symbol hsemi)).symbol
      heq).kept _).symbol hkw
  | declVar _ ih => exact ih hfor
  | declFun hkw _ ih => exact (ih hfor.tail).symbol hkw
  | declClass hkw _ hlb _ hrb ih =>
    exact ((((ih hfor.tail.tail.tail.left).append (Echoes.nil.symbol hrb)).symbol
      hlb).kept _).symbol hkw
  | declStmt _ ih => exact ih hfor
  | noDecls => exact .nil
  | moreDecls _ _ ih ihs => exact (ih hfor.left).append (ihs hfor.right)

/-! ### Reading what was written -/

/-- **Reading undoes writing.** Of a token list about which nothing is reported, the tokens of its
    statements are read without a report and yield the same statements again, up to the numbers of
    nodes. Where no `for` loop was read, these tokens are those of the list. -/
theorem Program.parse_unparse {tokens : List Token} {nextNode : NodeId} {report : Report}
    (h : (parse tokens nextNode report).report = report) (nextNode' : NodeId)
    (report' : Report) :
    let ss := (parse tokens nextNode report).statements
    let p := parse (Stmt.unparseAll ss) nextNode' report'
    p.report = report' ∧ Stmt.shapeAll p.statements = Stmt.shapeAll ss ∧
      (NoFor (tokens.takeWhile (!·.isEof)) →
        Echoes (Stmt.unparseAll ss) (tokens.takeWhile (!·.isEof))) := by
  intro ss p
  have hreads : Reads (.decls ss) (tokens.takeWhile (!·.isEof)) := reads_parse h
  have hprint : Reads (.decls ss) (Stmt.unparseAll ss) := hreads.reprint
  have hall : (Stmt.unparseAll ss).takeWhile (!·.isEof) = Stmt.unparseAll ss :=
    List.takeWhile_eq_self_iff.2 fun t ht => by rw [hprint.not_isEof t ht]; rfl
  have hparse := parse_of_reads nextNode' report' (hall ▸ hprint)
  exact ⟨hparse.1, hparse.2, hreads.says⟩

/-- An `else` behind two `if`s, and in the branches all that binds in one way or another. -/
def Program.nestedBranches : String :=
  "if (a) if (b) f(1, !c)(x).y = z = d ? -1 : 2 * 3 + 4 or e, nil; " ++
    "else print fun (p, q) \x7b return (p, q).r; \x7d;"

/-- The branches are read again as they were read before, with each token in its place. -/
theorem Program.parse_unparse_nestedBranches :
    let tokens := Token.ofSource nestedBranches
    let ss := (parse tokens 0 .empty).statements
    let p := parse (Stmt.unparseAll ss) 0 .empty
    ss.length = 1 ∧ p.report = .empty ∧ Stmt.shapeAll p.statements = Stmt.shapeAll ss ∧
      Echoes (Stmt.unparseAll ss) (tokens.takeWhile (!·.isEof)) := by
  have hclean : (parse (Token.ofSource nestedBranches) 0 .empty).report.size = 0 := by
    decide +kernel
  have hone : (parse (Token.ofSource nestedBranches) 0 .empty).statements.length = 1 := by
    decide +kernel
  have hfor : ((Token.ofSource nestedBranches).takeWhile (!·.isEof)).all
      (fun t => !t.is .forKw) = true := by decide +kernel
  obtain ⟨hreport, hshape, hechoes⟩ := parse_unparse (Report.eq_empty hclean) 0 .empty
  exact ⟨hone, hreport, hshape, hechoes fun t ht => by simpa using List.all_eq_true.1 hfor t ht⟩

end Scriptlet
