import Mathlib.Data.List.Basic
import Scriptlet.Program.Parser

namespace Scriptlet

/-!
# Readings of token lists

Which tree a list of tokens stands for. Unlike the grammar, this leaves no choice: operators group
to the left or right, and an `else` belongs to the nearest `if`.

* `Level` — how tightly an expression binds.
* `Phrase` — a tree of some kind; for a statement, also whether an `else` could still follow.
* `Reads` — the token lists of a phrase.
* `Reads.opens`, `Reads.not_isEof` — what a phrase may start with, and that it has no end token.
-/

/-! ### Levels of expressions -/

/-- How tightly an expression binds, from the loosest on. -/
inductive Level where
  | expression | assignment
  | tier (t : Tier)
  | unary | call | primary
  deriving Repr, DecidableEq

/-- The level of the operands of a tier. -/
def Tier.operand (t : Tier) : Level :=
  match t.tighter? with
  | some t' => .tier t'
  | none => .unary

/-- The next tighter level. -/
def Level.next? : Level → Option Level
  | expression => some assignment
  | assignment => some (tier .disjunction)
  | tier t => some t.operand
  | unary => some call
  | call => some primary
  | primary => none

/-- The value of a token that is a literal. -/
def Token.literal? (t : Token) : Option Literal :=
  match t.kind with
  | .symbol .falseKw => some (.bool false)
  | .symbol .trueKw => some (.bool true)
  | .symbol .nilKw => some .nil
  | .number x => some (.number x)
  | .string s => some (.string s)
  | _ => none

theorem Token.kind_of_is {t : Token} {s : Symbol} (h : t.is s = true) : t.kind = .symbol s := by
  unfold Token.is at h
  split at h
  · next s' hkind => rw [hkind, of_decide_eq_true h]
  · exact absurd h Bool.false_ne_true

theorem Token.kind_of_isIdentifier {t : Token} (h : t.isIdentifier = true) :
    t.kind = .identifier := by
  unfold Token.isIdentifier at h
  split at h
  · next hkind => exact hkind
  · exact absurd h Bool.false_ne_true

/-! ### Phrases and their tokens -/

/-- A tree of some kind. -/
inductive Phrase where
  | expr (level : Level) (e : Expr)
  /-- An expression that may be missing. -/
  | option (e : Option Expr)
  | arguments (es : List Expr)
  | parameters (ps : List Token)
  /-- The parameters and the body of a function. -/
  | lambda (ps : List Token) (body : List Stmt)
  /-- A statement; it is open if it ends with an `if` that has no `else`. -/
  | stmt (isOpen : Bool) (s : Stmt)
  | varDecl (s : Stmt)
  /-- What stands first in the parentheses of a `for` loop. -/
  | first (s : Option Stmt)
  | decl (s : Stmt)
  | decls (ss : List Stmt)
  | method (f : FunDecl)
  | methods (fs : List FunDecl)

/-- A token list stands for a phrase. -/
inductive Reads : Phrase → List Token → Prop
  -- expressions
  | lift {l l' e ts} (hl : l.next? = some l') (h : Reads (.expr l' e) ts) : Reads (.expr l e) ts
  | comma {a op b ts us} (ha : Reads (.expr .expression a) ts) (hop : op.is .comma = true)
      (hb : Reads (.expr .assignment b) us) :
      Reads (.expr .expression (.binary a op b)) (ts ++ op :: us)
  | assign {id name eq e us} (hname : name.isIdentifier = true) (heq : eq.is .equal = true)
      (he : Reads (.expr .assignment e) us) :
      Reads (.expr .assignment (.assign id name e)) (name :: eq :: us)
  | set {o dot name eq e ts us} (ho : Reads (.expr .call o) ts) (hdot : dot.is .dot = true)
      (hname : name.isIdentifier = true) (heq : eq.is .equal = true)
      (he : Reads (.expr .assignment e) us) :
      Reads (.expr .assignment (.set o name e)) (ts ++ dot :: name :: eq :: us)
  | conditional {c q a colon b ts us vs} (hc : Reads (.expr (.tier .disjunction) c) ts)
      (hq : q.is .question = true) (ha : Reads (.expr .assignment a) us)
      (hcolon : colon.is .colon = true) (hb : Reads (.expr .assignment b) vs) :
      Reads (.expr .assignment (.conditional c q a b)) (ts ++ q :: (us ++ colon :: vs))
  | operator {t a op b ts us} (ha : Reads (.expr (.tier t) a) ts) (hop : t.has op = true)
      (hb : Reads (.expr t.operand b) us) :
      Reads (.expr (.tier t) (t.node a op b)) (ts ++ op :: us)
  | unary {op e us} (hop : (op.is .bang || op.is .minus) = true)
      (he : Reads (.expr .unary e) us) : Reads (.expr .unary (.unary op e)) (op :: us)
  | call {f lp es rp ts us} (hf : Reads (.expr .call f) ts) (hlp : lp.is .leftParen = true)
      (hes : Reads (.arguments es) us) (hlength : es.length ≤ Rule.maxArity)
      (hrp : rp.is .rightParen = true) :
      Reads (.expr .call (.call f rp es)) (ts ++ lp :: (us ++ [rp]))
  | get {o dot name ts} (ho : Reads (.expr .call o) ts) (hdot : dot.is .dot = true)
      (hname : name.isIdentifier = true) :
      Reads (.expr .call (.get o name)) (ts ++ [dot, name])
  | literal {t l} (h : t.literal? = some l) : Reads (.expr .primary (.literal l)) [t]
  | this {id t} (h : t.is .thisKw = true) : Reads (.expr .primary (.thisRef id t)) [t]
  | name {id t} (h : t.isIdentifier = true) : Reads (.expr .primary (.variable id t)) [t]
  | group {lp e rp ts} (hlp : lp.is .leftParen = true) (he : Reads (.expr .expression e) ts)
      (hrp : rp.is .rightParen = true) :
      Reads (.expr .primary (.group e)) (lp :: (ts ++ [rp]))
  | function {kw ps body ts} (hkw : kw.is .funKw = true) (h : Reads (.lambda ps body) ts) :
      Reads (.expr .primary (.function (.mk none ps body))) (kw :: ts)
  | absent : Reads (.option none) []
  | present {e ts} (h : Reads (.expr .expression e) ts) : Reads (.option (some e)) ts
  -- lists with commas
  | noArguments : Reads (.arguments []) []
  | oneArgument {e ts} (h : Reads (.expr .assignment e) ts) : Reads (.arguments [e]) ts
  | moreArguments {e comma e' es ts us} (h : Reads (.expr .assignment e) ts)
      (hcomma : comma.is .comma = true) (hs : Reads (.arguments (e' :: es)) us) :
      Reads (.arguments (e :: e' :: es)) (ts ++ comma :: us)
  | noParameters : Reads (.parameters []) []
  | oneParameter {p} (h : p.isIdentifier = true) : Reads (.parameters [p]) [p]
  | moreParameters {p comma q ps ts} (h : p.isIdentifier = true)
      (hcomma : comma.is .comma = true) (hs : Reads (.parameters (q :: ps)) ts) :
      Reads (.parameters (p :: q :: ps)) (p :: comma :: ts)
  -- functions
  | lambda {lp ps rp lb body rb ts us} (hlp : lp.is .leftParen = true)
      (hps : Reads (.parameters ps) ts) (hlength : ps.length ≤ Rule.maxArity)
      (hrp : rp.is .rightParen = true) (hlb : lb.is .leftBrace = true)
      (hbody : Reads (.decls body) us) (hrb : rb.is .rightBrace = true) :
      Reads (.lambda ps body) (lp :: (ts ++ rp :: lb :: (us ++ [rb])))
  | method {name ps body ts} (hname : name.isIdentifier = true)
      (h : Reads (.lambda ps body) ts) :
      Reads (.method (.mk (some name) ps body)) (name :: ts)
  | noMethods : Reads (.methods []) []
  | moreMethods {f fs ts us} (h : Reads (.method f) ts) (hs : Reads (.methods fs) us) :
      Reads (.methods (f :: fs)) (ts ++ us)
  -- statements
  | exprStmt {e semi ts} (he : Reads (.expr .expression e) ts)
      (hsemi : semi.is .semicolon = true) : Reads (.stmt false (.expr e)) (ts ++ [semi])
  | print {kw e semi ts} (hkw : kw.is .printKw = true) (he : Reads (.expr .expression e) ts)
      (hsemi : semi.is .semicolon = true) :
      Reads (.stmt false (.print e)) (kw :: (ts ++ [semi]))
  | ret {kw e semi ts} (hkw : kw.is .returnKw = true) (he : Reads (.option e) ts)
      (hsemi : semi.is .semicolon = true) :
      Reads (.stmt false (.ret kw e)) (kw :: (ts ++ [semi]))
  | block {lb body rb ts} (hlb : lb.is .leftBrace = true) (hbody : Reads (.decls body) ts)
      (hrb : rb.is .rightBrace = true) :
      Reads (.stmt false (.block body)) (lb :: (ts ++ [rb]))
  | ifThen {kw lp c rp o a ts us} (hkw : kw.is .ifKw = true) (hlp : lp.is .leftParen = true)
      (hc : Reads (.expr .expression c) ts) (hrp : rp.is .rightParen = true)
      (ha : Reads (.stmt o a) us) :
      Reads (.stmt true (.ifElse c a none)) (kw :: lp :: (ts ++ rp :: us))
  | ifElse {kw lp c rp a el o b ts us vs} (hkw : kw.is .ifKw = true)
      (hlp : lp.is .leftParen = true) (hc : Reads (.expr .expression c) ts)
      (hrp : rp.is .rightParen = true) (ha : Reads (.stmt false a) us)
      (hel : el.is .elseKw = true) (hb : Reads (.stmt o b) vs) :
      Reads (.stmt o (.ifElse c a (some b))) (kw :: lp :: (ts ++ rp :: (us ++ el :: vs)))
  | whileLoop {kw lp c rp o a ts us} (hkw : kw.is .whileKw = true)
      (hlp : lp.is .leftParen = true) (hc : Reads (.expr .expression c) ts)
      (hrp : rp.is .rightParen = true) (ha : Reads (.stmt o a) us) :
      Reads (.stmt o (.whileLoop c a)) (kw :: lp :: (ts ++ rp :: us))
  | forLoop {kw lp first c semi i rp o a ts us vs ws} (hkw : kw.is .forKw = true)
      (hlp : lp.is .leftParen = true) (hfirst : Reads (.first first) ts)
      (hc : Reads (.option c) us) (hsemi : semi.is .semicolon = true)
      (hi : Reads (.option i) vs) (hrp : rp.is .rightParen = true)
      (ha : Reads (.stmt o a) ws) :
      Reads (.stmt o (.forLoop first c i a))
        (kw :: lp :: (ts ++ (us ++ semi :: (vs ++ rp :: ws))))
  | noFirst {semi} (hsemi : semi.is .semicolon = true) : Reads (.first none) [semi]
  | firstVar {s ts} (h : Reads (.varDecl s) ts) : Reads (.first (some s)) ts
  | firstExpr {e semi ts} (he : Reads (.expr .expression e) ts)
      (hsemi : semi.is .semicolon = true) : Reads (.first (some (.expr e))) (ts ++ [semi])
  -- declarations
  | varDecl {kw name semi} (hkw : kw.is .varKw = true) (hname : name.isIdentifier = true)
      (hsemi : semi.is .semicolon = true) :
      Reads (.varDecl (.varDecl name none)) [kw, name, semi]
  | varInit {kw name eq e semi ts} (hkw : kw.is .varKw = true)
      (hname : name.isIdentifier = true) (heq : eq.is .equal = true)
      (he : Reads (.expr .expression e) ts) (hsemi : semi.is .semicolon = true) :
      Reads (.varDecl (.varDecl name (some e))) (kw :: name :: eq :: (ts ++ [semi]))
  | declVar {s ts} (h : Reads (.varDecl s) ts) : Reads (.decl s) ts
  | declFun {kw f ts} (hkw : kw.is .funKw = true) (h : Reads (.method f) ts) :
      Reads (.decl (.funDecl f)) (kw :: ts)
  | declClass {kw name lb fs rb ts} (hkw : kw.is .classKw = true)
      (hname : name.isIdentifier = true) (hlb : lb.is .leftBrace = true)
      (h : Reads (.methods fs) ts) (hrb : rb.is .rightBrace = true) :
      Reads (.decl (.classDecl name fs)) (kw :: name :: lb :: (ts ++ [rb]))
  | declStmt {o s ts} (h : Reads (.stmt o s) ts) : Reads (.decl s) ts
  | noDecls : Reads (.decls []) []
  | moreDecls {s ss ts us} (h : Reads (.decl s) ts) (hs : Reads (.decls ss) us) :
      Reads (.decls (s :: ss)) (ts ++ us)

/-! ### First tokens -/

/-- The token is a name, a literal with a value, or one of the symbols. -/
def Token.among (symbols : List Symbol) (t : Token) : Bool :=
  match t.kind with
  | .symbol s => s ∈ symbols
  | .eof => false
  | _ => true

variable {t : Token} {s : Symbol} {symbols : List Symbol} {l : Literal} {ph : Phrase}
  {ts : List Token}

theorem Token.among_of_is (h : t.is s = true) (hs : s ∈ symbols) : t.among symbols = true := by
  simpa [Token.among, Token.kind_of_is h] using hs

theorem Token.among_of_isIdentifier (h : t.isIdentifier = true) : t.among symbols = true := by
  simp [Token.among, Token.kind_of_isIdentifier h]

theorem Token.among_mono {symbols' : List Symbol} (hs : symbols ⊆ symbols')
    (h : t.among symbols = true) : t.among symbols' = true := by
  unfold Token.among at h ⊢
  split at h
  · next s hkind => simpa using hs (of_decide_eq_true h)
  · exact h
  · rfl

/-- A token is no symbol but those it is among. -/
theorem Token.is_eq_false (h : t.among symbols = true) (hs : s ∉ symbols) : t.is s = false := by
  cases hs' : t.is s with
  | false => rfl
  | true =>
    simp only [Token.among, Token.kind_of_is hs', decide_eq_true_eq] at h
    exact absurd h hs

/-- The list starts with a token among the symbols, and with no function that has a name. -/
def StartsIn (symbols : List Symbol) (ts : List Token) : Prop :=
  ∃ t us, ts = t :: us ∧ t.among symbols = true ∧
    (t.is .funKw = true → ∃ lp vs, us = lp :: vs ∧ lp.is .leftParen = true)

namespace StartsIn

variable {symbols symbols' : List Symbol} {ts : List Token}

theorem append (h : StartsIn symbols ts) (us : List Token) : StartsIn symbols (ts ++ us) := by
  obtain ⟨t, vs, rfl, ht, hfun⟩ := h
  refine ⟨t, vs ++ us, rfl, ht, fun hkw => ?_⟩
  obtain ⟨lp, ws, rfl, hlp⟩ := hfun hkw
  exact ⟨lp, ws ++ us, rfl, hlp⟩

theorem mono (h : StartsIn symbols ts) (hs : symbols ⊆ symbols') : StartsIn symbols' ts := by
  obtain ⟨t, us, rfl, ht, hfun⟩ := h
  exact ⟨t, us, rfl, Token.among_mono hs ht, hfun⟩

/-- A symbol other than the keyword of a function. -/
theorem symbol (h : t.is s = true) (hs : s ∈ symbols) (hfun : s ≠ .funKw) (us : List Token) :
    StartsIn symbols (t :: us) := by
  refine ⟨t, us, rfl, Token.among_of_is h hs, fun hkw => ?_⟩
  have h' : t.among [s] = true := Token.among_of_is h (List.mem_singleton_self s)
  have hno := Token.is_eq_false h' (s := .funKw) (by simpa using hfun.symm)
  exact absurd hkw (by simp [hno])

/-- A cursor in front of the list stands at no other symbol. -/
theorem at_eq_false (h : StartsIn symbols ts) {c : Cursor} (hc : c.rest = ts) (hs : s ∉ symbols) :
    c.at s = false := by
  obtain ⟨t, us, rfl, ht, -⟩ := h
  unfold Cursor.at
  rw [hc]
  exact Token.is_eq_false ht hs

/-- A cursor in front of the list stands at no function that has a name. -/
theorem atNamedFunction_eq_false (h : StartsIn symbols ts) {c : Cursor} (hc : c.rest = ts) :
    c.atNamedFunction = false := by
  obtain ⟨t, us, rfl, -, hfun⟩ := h
  -- Behind the keyword stands a parenthesis, where a named function has its name.
  unfold Cursor.atNamedFunction
  rw [hc]
  cases hkw : t.is .funKw with
  | false => cases us <;> simp [hkw]
  | true =>
    obtain ⟨lp, vs, rfl, hlp⟩ := hfun hkw
    have hname : lp.isIdentifier = false := by
      simp [Token.isIdentifier, Token.kind_of_is hlp]
    simp [hname]

end StartsIn

/-- The symbols that an expression may start with. -/
def Level.starts : Level → List Symbol
  | call | primary => [.falseKw, .trueKw, .nilKw, .thisKw, .leftParen, .funKw]
  | _ => [.falseKw, .trueKw, .nilKw, .thisKw, .leftParen, .funKw, .bang, .minus]

/-- The symbols that a statement may start with. -/
def Stmt.starts : List Symbol :=
  Level.expression.starts ++ [.forKw, .ifKw, .whileKw, .returnKw, .leftBrace, .printKw]

/-- The symbols that a declaration may start with. -/
def Stmt.declStarts : List Symbol := .classKw :: .varKw :: Stmt.starts

/-- How the tokens of a phrase start, as far as a reader has to know. -/
def Phrase.Opens : Phrase → List Token → Prop
  | .expr l _, ts => StartsIn l.starts ts
  | .arguments es, ts => es = [] ∨ StartsIn Level.assignment.starts ts
  | .parameters ps, ts => ps = [] ∨ StartsIn [] ts
  | .lambda _ _, ts => ∃ lp us, ts = lp :: us ∧ lp.is .leftParen = true
  | .stmt _ _, ts => StartsIn Stmt.starts ts
  | .varDecl _, ts => ∃ kw us, ts = kw :: us ∧ kw.is .varKw = true
  | .decl _, ts => ∃ t us, ts = t :: us ∧ t.among Stmt.declStarts = true
  | .decls _, ts => ts = [] ∨ ∃ t us, ts = t :: us ∧ t.among Stmt.declStarts = true
  | .method _, ts => StartsIn [] ts
  | _, _ => True

theorem Level.starts_subset_of_next? {l l' : Level} (h : l.next? = some l') :
    l'.starts ⊆ l.starts := by
  have hcall : Level.call.starts ⊆ Level.expression.starts := by decide
  have hself : Level.expression.starts ⊆ Level.expression.starts := fun _ h => h
  cases l with
  | expression => cases h; exact hself
  | assignment => cases h; exact hself
  | tier t => cases t <;> cases h <;> exact hself
  | unary => cases h; exact hcall
  | call => cases h; exact fun _ h => h
  | primary => cases h

/-- A literal is no keyword of a function. -/
theorem StartsIn.literal (h : t.literal? = some l) : StartsIn Level.primary.starts [t] := by
  unfold Token.literal? at h
  split at h
  case h_6 => cases h
  all_goals
    next hkind =>
    refine ⟨t, [], rfl, ?_, fun hkw => ?_⟩
    · simp [Token.among, hkind, Level.starts]
    · simp [Token.is, hkind] at hkw

theorem StartsIn.name (h : t.isIdentifier = true) (us : List Token) :
    StartsIn symbols (t :: us) := by
  refine ⟨t, us, rfl, Token.among_of_isIdentifier h, fun hkw => ?_⟩
  simp [Token.is, Token.kind_of_isIdentifier h] at hkw

/-- What the tokens of a phrase start with. -/
theorem Reads.opens (h : Reads ph ts) : ph.Opens ts := by
  induction h with
  | lift hl _ ih => exact ih.mono (Level.starts_subset_of_next? hl)
  | comma _ _ _ iha _ => exact iha.append _
  | assign hname _ _ _ => exact StartsIn.name hname _
  | set _ _ _ _ _ iho _ =>
    exact (iho.append _).mono (by decide)
  | conditional _ _ _ _ _ ihc _ _ => exact ihc.append _
  | operator _ _ _ iha _ => exact iha.append _
  | unary hop _ _ =>
    rcases Bool.or_eq_true_iff.1 hop with h | h
    · exact StartsIn.symbol h (by decide) (by decide) _
    · exact StartsIn.symbol h (by decide) (by decide) _
  | call _ _ _ _ _ ihf _ => exact ihf.append _
  | get _ _ _ iho => exact iho.append _
  | literal h => exact StartsIn.literal h
  | this h => exact StartsIn.symbol h (by decide) (by decide) _
  | name h => exact StartsIn.name h _
  | group hlp _ _ _ => exact StartsIn.symbol hlp (by decide) (by decide) _
  | function hkw _ ih => exact ⟨_, _, rfl, Token.among_of_is hkw (by decide), fun _ => ih⟩
  | lambda hlp _ _ _ _ _ _ _ _ => exact ⟨_, _, rfl, hlp⟩
  | method hname _ _ => exact StartsIn.name hname _
  | noArguments => exact .inl rfl
  | oneArgument _ ih => exact .inr ih
  | moreArguments _ _ _ ih _ => exact .inr (ih.append _)
  | noParameters => exact .inl rfl
  | oneParameter h => exact .inr (StartsIn.name h _)
  | moreParameters h _ _ _ => exact .inr (StartsIn.name h _)
  | exprStmt _ _ ih => exact (ih.append _).mono (by decide)
  | print hkw _ _ _ => exact StartsIn.symbol hkw (by decide) (by decide) _
  | ret hkw _ _ _ => exact StartsIn.symbol hkw (by decide) (by decide) _
  | block hlb _ _ _ => exact StartsIn.symbol hlb (by decide) (by decide) _
  | ifThen hkw _ _ _ _ _ _ => exact StartsIn.symbol hkw (by decide) (by decide) _
  | ifElse hkw _ _ _ _ _ _ _ _ _ => exact StartsIn.symbol hkw (by decide) (by decide) _
  | whileLoop hkw _ _ _ _ _ _ => exact StartsIn.symbol hkw (by decide) (by decide) _
  | forLoop hkw _ _ _ _ _ _ _ _ _ _ _ => exact StartsIn.symbol hkw (by decide) (by decide) _
  | varDecl hkw _ _ => exact ⟨_, _, rfl, hkw⟩
  | varInit hkw _ _ _ _ _ => exact ⟨_, _, rfl, hkw⟩
  | declVar _ ih =>
    obtain ⟨kw, us, rfl, hkw⟩ := ih
    exact ⟨kw, us, rfl, Token.among_of_is hkw (by decide)⟩
  | declFun hkw _ _ => exact ⟨_, _, rfl, Token.among_of_is hkw (by decide)⟩
  | declClass hkw _ _ _ _ _ => exact ⟨_, _, rfl, Token.among_of_is hkw (by decide)⟩
  | declStmt _ ih =>
    obtain ⟨t, us, rfl, ht, -⟩ := ih
    exact ⟨t, us, rfl, Token.among_mono (by decide) ht⟩
  | noDecls => exact .inl rfl
  | moreDecls _ _ ih _ =>
    obtain ⟨t, us, rfl, ht⟩ := ih
    exact .inr ⟨t, _, rfl, ht⟩
  | _ => trivial

/-! ### No end token -/

theorem Token.isEof_of_is (h : t.is s = true) : t.isEof = false := by
  simp [Token.isEof, Token.kind_of_is h]

theorem Token.isEof_of_isIdentifier (h : t.isIdentifier = true) : t.isEof = false := by
  simp [Token.isEof, Token.kind_of_isIdentifier h]

theorem Token.isEof_of_literal? (h : t.literal? = some l) : t.isEof = false := by
  unfold Token.isEof
  split
  · next hkind => simp [Token.literal?, hkind] at h
  · rfl

theorem Tier.isEof_of_has {tier : Tier} (h : tier.has t = true) : t.isEof = false := by
  unfold Token.isEof
  split
  · next hkind => simp [Tier.has, hkind] at h
  · rfl

/-- No phrase has an end token in it. -/
theorem Reads.not_isEof (h : Reads ph ts) : ∀ t ∈ ts, t.isEof = false := by
  induction h with
  | literal h => simpa using Token.isEof_of_literal? h
  | operator _ hop _ iha ihb =>
    have := Tier.isEof_of_has hop
    grind -ring -linarith -lia
  | unary hop _ ih =>
    rcases Bool.or_eq_true_iff.1 hop with h | h <;>
    · have := Token.isEof_of_is h
      grind -ring -linarith -lia
  -- Nothing is counted here, so the solvers for numbers are left out.
  | _ => grind -ring -linarith -lia [→ Token.isEof_of_is, → Token.isEof_of_isIdentifier]

end Scriptlet
