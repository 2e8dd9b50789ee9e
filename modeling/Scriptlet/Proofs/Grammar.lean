import Mathlib.Data.List.Basic
import Scriptlet.Program.Parser

namespace Scriptlet

/-!
# The grammar

The rules of the language in extended Backus–Naur form, and what they derive.

* `Ebnf` — right-hand sides of rules; `Nonterminal.body` — the rules.
* `Derives` — a right-hand side derives a token list. Lists of parameters and of arguments have
  at most `Rule.maxArity` entries.
* `Derives.lang` — whatever is closed under the rules holds of all that is derived.
-/

/-! ### Right-hand sides -/

/-- What stands for one token. -/
inductive Terminal where
  | symbol (s : Symbol)
  | identifier
  | number
  | string
  deriving Repr

/-- Whether a token is of that kind. -/
def Terminal.accepts : Terminal → Token → Bool
  | symbol s, t => t.is s
  | identifier, t => t.isIdentifier
  | number, t => match t.kind with
    | .number _ => true
    | _ => false
  | string, t => match t.kind with
    | .string _ => true
    | _ => false

/-- The names of the rules. -/
inductive Nonterminal where
  | program | declaration | classDecl | funDecl | function | varDecl
  | statement | exprStmt | forStmt | ifStmt | printStmt | returnStmt | whileStmt | block
  | parameters | expression | assignment | logicOr | logicAnd | equality | comparison | term
  | factor | unary | call | arguments | primary
  deriving Repr, DecidableEq

/-- The right-hand side of a rule. -/
inductive Ebnf where
  | terminal (x : Terminal)
  | rule (r : Nonterminal)
  | nothing
  /-- One after the other. -/
  | seq (a b : Ebnf)
  /-- One or the other. -/
  | alt (a b : Ebnf)
  | opt (a : Ebnf)
  /-- Any number of times. -/
  | star (a : Ebnf)
  /-- At most `n` times. -/
  | atMost (n : Nat) (a : Ebnf)
  deriving Repr

namespace Ebnf

/-- All of some right-hand sides, one after the other. -/
def all : List Ebnf → Ebnf
  | [] => nothing
  | a :: as => seq a (all as)

/-- One of some right-hand sides. -/
def any (a : Ebnf) : List Ebnf → Ebnf
  | [] => a
  | b :: bs => alt a (any b bs)

/-- A symbol. -/
def sym (s : Symbol) : Ebnf := terminal (.symbol s)

/-- A name. -/
def name : Ebnf := terminal .identifier

/-- One or more, with a comma between any two. -/
def commaSeparated (limit : Nat) (a : Ebnf) : Ebnf :=
  all [a, atMost (limit - 1) (all [sym .comma, a])]

/-- Operands with operators between them. -/
def chain (operand : Nonterminal) (op : Symbol) (ops : List Symbol) : Ebnf :=
  all [rule operand, star (all [any (sym op) (ops.map sym), rule operand])]

end Ebnf

/-! ### The rules -/

open Ebnf in
/-- The right-hand side of each rule. The end of the token list stands for the end token. -/
def Nonterminal.body : Nonterminal → Ebnf
  | .program => star (rule .declaration)
  | .declaration => any (rule .classDecl) [rule .funDecl, rule .varDecl, rule .statement]
  | .classDecl =>
    all [sym .classKw, name, sym .leftBrace, star (rule .function), sym .rightBrace]
  | .funDecl => all [sym .funKw, rule .function]
  | .function =>
    all [name, sym .leftParen, opt (rule .parameters), sym .rightParen, rule .block]
  | .varDecl =>
    all [sym .varKw, name, opt (all [sym .equal, rule .expression]), sym .semicolon]
  | .statement =>
    any (rule .exprStmt) [rule .forStmt, rule .ifStmt, rule .printStmt, rule .returnStmt,
      rule .whileStmt, rule .block]
  | .exprStmt => all [rule .expression, sym .semicolon]
  | .forStmt =>
    all [sym .forKw, sym .leftParen, any (rule .varDecl) [rule .exprStmt, sym .semicolon],
      opt (rule .expression), sym .semicolon, opt (rule .expression), sym .rightParen,
      rule .statement]
  | .ifStmt =>
    all [sym .ifKw, sym .leftParen, rule .expression, sym .rightParen, rule .statement,
      opt (all [sym .elseKw, rule .statement])]
  | .printStmt => all [sym .printKw, rule .expression, sym .semicolon]
  | .returnStmt => all [sym .returnKw, opt (rule .expression), sym .semicolon]
  | .whileStmt =>
    all [sym .whileKw, sym .leftParen, rule .expression, sym .rightParen, rule .statement]
  | .block => all [sym .leftBrace, star (rule .declaration), sym .rightBrace]
  | .parameters => commaSeparated Rule.maxArity name
  | .expression => chain .assignment .comma []
  | .assignment =>
    any (all [opt (all [rule .call, sym .dot]), name, sym .equal, rule .assignment])
      [all [rule .logicOr, sym .question, rule .assignment, sym .colon, rule .assignment],
        rule .logicOr]
  | .logicOr => chain .logicAnd .orKw []
  | .logicAnd => chain .equality .andKw []
  | .equality => chain .comparison .bangEqual [.equalEqual]
  | .comparison => chain .term .greater [.greaterEqual, .less, .lessEqual]
  | .term => chain .factor .minus [.plus]
  | .factor => chain .unary .slash [.star]
  | .unary => any (all [any (sym .bang) [sym .minus], rule .unary]) [rule .call]
  | .call =>
    all [rule .primary,
      star (any (all [sym .leftParen, opt (rule .arguments), sym .rightParen])
        [all [sym .dot, name]])]
  | .arguments => commaSeparated Rule.maxArity (rule .assignment)
  | .primary =>
    any (terminal .number) [terminal .string, sym .trueKw, sym .falseKw, sym .nilKw, sym .thisKw,
      name, all [sym .leftParen, rule .expression, sym .rightParen],
      all [sym .funKw, sym .leftParen, opt (rule .parameters), sym .rightParen, rule .block]]

/-! ### Derivations -/

/-- A right-hand side derives a token list. -/
inductive Derives : Ebnf → List Token → Prop
  | terminal {x t} (h : x.accepts t = true) : Derives (.terminal x) [t]
  | rule {r ts} (h : Derives r.body ts) : Derives (.rule r) ts
  | nothing : Derives .nothing []
  | seq {a b ts us} (ha : Derives a ts) (hb : Derives b us) : Derives (.seq a b) (ts ++ us)
  | altLeft {a b ts} (h : Derives a ts) : Derives (.alt a b) ts
  | altRight {a b ts} (h : Derives b ts) : Derives (.alt a b) ts
  | optNone {a} : Derives (.opt a) []
  | optSome {a ts} (h : Derives a ts) : Derives (.opt a) ts
  | starNil {a} : Derives (.star a) []
  | starCons {a ts us} (h : Derives a ts) (hs : Derives (.star a) us) : Derives (.star a) (ts ++ us)
  | atMostNil {n a} : Derives (.atMost n a) []
  | atMostCons {n a ts us} (h : Derives a ts) (hs : Derives (.atMost n a) us) :
      Derives (.atMost (n + 1) a) (ts ++ us)

/-- The token lists of a right-hand side, if `ρ` tells those of the rules. -/
def Ebnf.lang (ρ : Nonterminal → List Token → Prop) : Ebnf → List Token → Prop
  | .terminal x, ts => ∃ t, ts = [t] ∧ x.accepts t = true
  | .rule r, ts => ρ r ts
  | .nothing, ts => ts = []
  | .seq a b, ts => ∃ us vs, ts = us ++ vs ∧ a.lang ρ us ∧ b.lang ρ vs
  | .alt a b, ts => a.lang ρ ts ∨ b.lang ρ ts
  | .opt a, ts => ts = [] ∨ a.lang ρ ts
  | .star a, ts => ∃ tss : List (List Token), ts = tss.flatten ∧ ∀ us ∈ tss, a.lang ρ us
  | .atMost n a, ts =>
    ∃ tss : List (List Token), ts = tss.flatten ∧ (∀ us ∈ tss, a.lang ρ us) ∧ tss.length ≤ n

/-- What is closed under the rules holds of all that is derived. -/
theorem Derives.lang {ρ : Nonterminal → List Token → Prop}
    (hρ : ∀ r ts, r.body.lang ρ ts → ρ r ts) {a : Ebnf} {ts : List Token}
    (h : Derives a ts) : a.lang ρ ts := by
  induction h with
  | terminal h => exact ⟨_, rfl, h⟩
  | rule _ ih => exact hρ _ _ ih
  | nothing => exact rfl
  | seq _ _ iha ihb => exact ⟨_, _, rfl, iha, ihb⟩
  | altLeft _ ih => exact .inl ih
  | altRight _ ih => exact .inr ih
  | optNone => exact .inl rfl
  | optSome _ ih => exact .inr ih
  | starNil => exact ⟨[], rfl, fun _ h => absurd h List.not_mem_nil⟩
  | starCons _ _ ih ihs =>
    obtain ⟨tss, rfl, htss⟩ := ihs
    exact ⟨_ :: tss, rfl, List.forall_mem_cons.2 ⟨ih, htss⟩⟩
  | atMostNil => exact ⟨[], rfl, fun _ h => absurd h List.not_mem_nil, Nat.zero_le _⟩
  | atMostCons _ _ ih ihs =>
    obtain ⟨tss, rfl, htss, hlength⟩ := ihs
    exact ⟨_ :: tss, rfl, List.forall_mem_cons.2 ⟨ih, htss⟩, Nat.succ_le_succ hlength⟩

end Scriptlet
