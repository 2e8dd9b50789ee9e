import Scriptlet.Proofs.Progress
import Scriptlet.Proofs.Reading

namespace Scriptlet

/-!
# Tokens lead to their trees

Wherever a token list stands for a phrase, and what follows cannot belong to the phrase, reading
takes just these tokens, reports nothing and yields the tree of the phrase.

* `Expr.shape`, `Stmt.shape` — trees without the numbers of their nodes.
* `Parse.Gets` — from a cursor, a rule yields a tree or runs out of its bound; it meets no error.
* `Token.rank`, `Level.room` — which tokens may follow an expression.
* `Phrase.Meets`, `Reads.meets` — what the rules yield in front of the tokens of a phrase.
* `Program.parse_of_reads` — the same of whole token lists.
-/

/-! ### Trees without numbers -/

mutual

/-- An expression with zero for the number of each node. -/
def Expr.shape : Expr → Expr
  | .literal value => .literal value
  | .group inner => .group inner.shape
  | .variable _ name => .variable 0 name
  | .thisRef _ keyword => .thisRef 0 keyword
  | .assign _ name value => .assign 0 name value.shape
  | .unary op operand => .unary op operand.shape
  | .binary left op right => .binary left.shape op right.shape
  | .logical left op right => .logical left.shape op right.shape
  | .conditional condition question whenTrue whenFalse =>
    .conditional condition.shape question whenTrue.shape whenFalse.shape
  | .call callee paren arguments => .call callee.shape paren (Expr.shapeAll arguments)
  | .get object name => .get object.shape name
  | .set object name value => .set object.shape name value.shape
  | .function decl => .function decl.shape

def Expr.shapeAll : List Expr → List Expr
  | [] => []
  | e :: es => e.shape :: Expr.shapeAll es

/-- A statement with zero for the number of each node. -/
def Stmt.shape : Stmt → Stmt
  | .expr e => .expr e.shape
  | .print e => .print e.shape
  | .varDecl name none => .varDecl name none
  | .varDecl name (some e) => .varDecl name (some e.shape)
  | .block body => .block (Stmt.shapeAll body)
  | .ifElse condition whenTrue none => .ifElse condition.shape whenTrue.shape none
  | .ifElse condition whenTrue (some whenFalse) =>
    .ifElse condition.shape whenTrue.shape (some whenFalse.shape)
  | .whileLoop condition body => .whileLoop condition.shape body.shape
  | .funDecl decl => .funDecl decl.shape
  | .ret keyword none => .ret keyword none
  | .ret keyword (some e) => .ret keyword (some e.shape)
  | .classDecl name methods => .classDecl name (FunDecl.shapeAll methods)

def Stmt.shapeAll : List Stmt → List Stmt
  | [] => []
  | s :: ss => s.shape :: Stmt.shapeAll ss

/-- A function with zero for the number of each node. -/
def FunDecl.shape : FunDecl → FunDecl
  | .mk name? params body => .mk name? params (Stmt.shapeAll body)

def FunDecl.shapeAll : List FunDecl → List FunDecl
  | [] => []
  | f :: fs => f.shape :: FunDecl.shapeAll fs

end

variable {name t : Token} {l l' : Level} {ts : List Token}

/-- `Expr.shape` passes through the node of an operator. -/
theorem Tier.shape_node (t : Tier) (left : Expr) (op : Token) (right : Expr) :
    (t.node left op right).shape = t.node left.shape op right.shape := by
  cases t <;> rfl

/-- `Stmt.shape` of a `return`, with or without a value. -/
theorem Stmt.shape_ret (keyword : Token) (e : Option Expr) :
    (Stmt.ret keyword e).shape = .ret keyword (e.map Expr.shape) := by
  cases e <;> rfl

/-- `Stmt.shape` of an `if`, with or without a second branch. -/
theorem Stmt.shape_ifElse (c : Expr) (a : Stmt) (b : Option Stmt) :
    (Stmt.ifElse c a b).shape = .ifElse c.shape a.shape (b.map Stmt.shape) := by
  cases b <;> rfl

/-- `Stmt.shape` of what `Stmt.forLoop` makes of its parts. -/
theorem Stmt.shape_forLoop (i : Option Stmt) (c inc : Option Expr) (body : Stmt) :
    (Stmt.forLoop i c inc body).shape =
      .forLoop (i.map Stmt.shape) (c.map Expr.shape) (inc.map Expr.shape) body.shape := by
  cases i <;> cases c <;> cases inc <;> rfl

/-- What looks like a variable is one. -/
theorem Expr.eq_variable_of_shape {e : Expr} {id : NodeId}
    (h : e.shape = (Expr.variable id name).shape) : ∃ id', e = .variable id' name := by
  cases e <;> simp [Expr.shape] at h
  subst h
  exact ⟨_, rfl⟩

/-- What looks like the access of a property is one. -/
theorem Expr.eq_get_of_shape {e o : Expr} (h : e.shape = (Expr.get o name).shape) :
    ∃ o', e = .get o' name ∧ o'.shape = o.shape := by
  cases e <;> simp [Expr.shape] at h
  obtain ⟨ho, rfl⟩ := h
  exact ⟨_, rfl, ho⟩

/-! ### Rules that meet no error -/

/-- The cursor `c'` stands in front of `rest`, with nothing reported since `c`. -/
structure Cursor.Reaches (c : Cursor) (rest : List Token) (c' : Cursor) : Prop where
  rest : c'.rest = rest
  report : c'.report = c.report

namespace Cursor.Reaches

variable {c c' c'' : Cursor} {rest rest' : List Token}

theorem ahead (c : Cursor) (rest : List Token) : c.Reaches rest (c.moveTo rest) := ⟨rfl, rfl⟩

theorem trans (h : c.Reaches rest c') (h' : c'.Reaches rest' c'') : c.Reaches rest' c'' :=
  ⟨h'.rest, h'.report.trans h.report⟩

end Cursor.Reaches

namespace Parse

variable {α β : Type} {p : Parse α} {c : Cursor} {Q Q' : α → Cursor → Prop}
  {R : β → Cursor → Prop}

/-- From `c`, the rule yields a tree as `Q` says, unless it runs out of its bound. -/
def Gets (p : Parse α) (c : Cursor) (Q : α → Cursor → Prop) : Prop :=
  p.Ensures c Q fun h _ => h = .outOfFuel

/-- What is known of the tree may be weakened. -/
theorem Gets.mono (h : p.Gets c Q) (hQ : ∀ a c', Q a c' → Q' a c') : p.Gets c Q' :=
  Ensures.mono h hQ fun _ _ h => h

/-- One rule after the other: neither meets an error. -/
theorem Gets.bind {f : α → Parse β} (h : p.Gets c Q)
    (hf : ∀ a c', Q a c' → (f a).Gets c' R) : (p >>= f).Gets c R :=
  ensures_bind.2 (Ensures.mono h hf fun _ _ h => h)

theorem Gets.map {f : α → β} (h : p.Gets c Q)
    (hf : ∀ a c', Q a c' → R (f a) c') : (f <$> p).Gets c R :=
  ensures_map.2 (Ensures.mono h hf fun _ _ h => h)

theorem gets_throw : (throw .outOfFuel : Parse α).Gets c Q := rfl

theorem gets_pure {a : α} (h : Q a c) : (pure a : Parse α).Gets c Q := h

/-- Nothing is to be shown of a rule that may take no step. -/
theorem gets_succ {r : Nat → Parse α} (n : Nat) (hzero : r 0 = throw .outOfFuel)
    (hsucc : ∀ n, (r (n + 1)).Gets c Q) : (r n).Gets c Q := by
  cases n with
  | zero => exact hzero ▸ gets_throw
  | succ n => exact hsucc n

variable {s : Symbol} {t : Token} {rest : List Token} {what : Expected} {q : Token → Bool}
  {found : Token → Parse α} {other : Parse α} {f : Token → Parse β} {a₀ : α} {k : α → Parse β}

/-- A cursor stands at its next token. -/
theorem at_of_rest (h : c.rest = t :: rest) (ht : t.is s = true) : c.at s = true := by
  unfold Cursor.at
  rw [h]
  exact ht

/-- A cursor stands at no other symbol than the next one. -/
theorem at_eq_false_of_rest (h : c.rest = t :: rest) (ht : t.is s = true) {s' : Symbol}
    (hs : s' ≠ s) : c.at s' = false := by
  unfold Cursor.at
  rw [h]
  exact Token.is_eq_false (Token.among_of_is ht (List.mem_singleton_self s)) (by simpa using hs)

/-- In front of the symbol, `branch` reads it. -/
theorem gets_branch_found (h : c.rest = t :: rest) (ht : t.is s = true)
    (hfound : (found t).Gets (c.moveTo rest) Q) : (branch s found other).Gets c Q := by
  refine ensures_branch.2 ⟨fun t' rest' h' _ => ?_, fun hno => ?_⟩
  · obtain ⟨rfl, rfl⟩ := List.cons.inj (h.symm.trans h')
    exact hfound
  · rw [at_of_rest h ht] at hno
    exact absurd hno.symm Bool.false_ne_true

/-- In front of anything else it goes on with the other rule. -/
theorem gets_branch_other (h : c.at s = false) (hother : other.Gets c Q) :
    (branch s found other).Gets c Q := by
  refine ensures_branch.2 ⟨fun t rest hrest ht => ?_, fun _ => hother⟩
  rw [at_of_rest hrest ht] at h
  exact absurd h.symm Bool.false_ne_true

/-- `expect` finds the symbol that comes next. -/
theorem gets_expect_bind (h : c.rest = t :: rest) (ht : t.is s = true)
    (hf : (f t).Gets (c.moveTo rest) R) : (expect s what >>= f).Gets c R :=
  ensures_bind.2 (gets_branch_found h ht (ensures_pure.2 hf))

/-- `acceptIf` takes the next token if it is accepted. -/
theorem gets_acceptIf_bind_some {f : Option Token → Parse β} (h : c.rest = t :: rest)
    (ht : q t = true) (hf : (f (some t)).Gets (c.moveTo rest) R) :
    (acceptIf q >>= f).Gets c R := by
  refine ensures_bind.2 (ensures_acceptIf.2 ⟨fun t' rest' h' _ => ?_, fun hno => ?_⟩)
  · obtain ⟨rfl, rfl⟩ := List.cons.inj (h.symm.trans h')
    exact hf
  · exact absurd (hno t rest h) (by simp [ht])

/-- `acceptIf` leaves the next token if it is not. -/
theorem gets_acceptIf_bind_none {f : Option Token → Parse β} (h : c.Lacks q)
    (hf : (f none).Gets c R) : (acceptIf q >>= f).Gets c R := by
  refine ensures_bind.2 (ensures_acceptIf.2 ⟨fun t rest hrest ht => ?_, fun _ => hf⟩)
  exact absurd (h t rest hrest) (by simp [ht])

/-- `expectName` finds the name that comes next. -/
theorem gets_expectName_bind (h : c.rest = t :: rest) (ht : t.isIdentifier = true)
    (hf : (f t).Gets (c.moveTo rest) R) : (expectName what >>= f).Gets c R := by
  refine ensures_bind.2 ?_
  unfold expectName
  exact gets_acceptIf_bind_some h ht hf

/-- An optional part that is missing. -/
theorem gets_unless_at (h : c.at s = true) (hk : (k a₀).Gets c R) :
    (check s >>= fun found => if found = true then pure a₀ >>= k else p >>= k).Gets c R := by
  refine ensures_bind.2 (ensures_check.2 ?_)
  rw [if_pos h]
  exact hk

/-- An optional part that is there. -/
theorem gets_unless_other (h : c.at s = false) (hp : p.Gets c Q)
    (hk : ∀ a c', Q a c' → (k a).Gets c' R) :
    (check s >>= fun found => if found = true then pure a₀ >>= k else p >>= k).Gets c R := by
  refine ensures_bind.2 (ensures_check.2 ?_)
  rw [if_neg (by simp [h])]
  exact hp.bind hk

end Parse

/-! ### What may follow an expression -/

/-- How tightly a symbol binds that may stand behind an expression; zero if it ends it. -/
def Symbol.rank : Symbol → Nat
  | .comma => 1
  | .equal | .question => 2
  | .orKw => 3
  | .andKw => 4
  | .bangEqual | .equalEqual => 5
  | .greater | .greaterEqual | .less | .lessEqual => 6
  | .minus | .plus => 7
  | .star | .slash => 8
  | .leftParen | .dot => 10
  | _ => 0

def Token.rank (t : Token) : Nat :=
  match t.kind with
  | .symbol s => s.rank
  | _ => 0

def Tier.rank : Tier → Nat
  | disjunction => 3
  | conjunction => 4
  | equality => 5
  | comparison => 6
  | term => 7
  | factor => 8

/-- The rank of the tokens with which an expression of the level goes on. -/
def Level.rank : Level → Nat
  | expression => 1
  | assignment => 2
  | tier t => t.rank
  | unary => 9
  | call => 10
  | primary => 11

/-- The highest rank of a token that may follow an expression of the level, for it then belongs
    to an expression around it. Only assignments take nothing of their own rank. -/
def Level.room : Level → Nat
  | assignment => 1
  | l => l.rank

/-- The first token, if there is one, has at most the rank `k`. -/
def Below (k : Nat) (ts : List Token) : Prop := ∀ t us, ts = t :: us → t.rank ≤ k

/-- A symbol has one rank, however it is spelled. -/
theorem Token.rank_of_is {s : Symbol} (h : t.is s = true) : t.rank = s.rank := by
  rw [Token.rank, Token.kind_of_is h]

/-- All operators of a tier have its rank. -/
theorem Tier.rank_of_mem (tier : Tier) : ∀ s ∈ tier.symbols, s.rank = tier.rank := by
  cases tier <;> decide

/-- The tokens that a tier takes have its rank. -/
theorem Tier.rank_of_has {tier : Tier} (h : tier.has t = true) : t.rank = tier.rank := by
  unfold Tier.has at h
  split at h
  · next s hkind =>
    rw [Token.rank, hkind]
    exact tier.rank_of_mem s (of_decide_eq_true h)
  · exact absurd h Bool.false_ne_true

namespace Below

variable {k k' : Nat} {ts : List Token} {c : Cursor}

/-- `Below` for a higher bound. -/
theorem mono (h : Below k ts) (hk : k ≤ k') : Below k' ts := fun t us hts => (h t us hts).trans hk

/-- What follows is below `k` if its first token is. -/
theorem cons {s : Symbol} (h : t.is s = true) (hs : s.rank ≤ k) (us : List Token) :
    Below k (t :: us) := by
  intro t' us' heq
  obtain ⟨rfl, rfl⟩ := List.cons.inj heq
  exact Token.rank_of_is h ▸ hs

/-- A cursor in front of what is below `k` stands at no symbol above it. -/
theorem at_eq_false (h : Below k c.rest) {s : Symbol} (hs : k < s.rank) : c.at s = false := by
  rw [← Cursor.lacks_is_iff]
  intro t rest hrest
  cases ht : t.is s with
  | false => exact ht
  | true =>
    have := h t rest hrest
    rw [Token.rank_of_is ht] at this
    omega

/-- A cursor in front of what is below `k` stands at no operator of a tier above it. -/
theorem lacks_has (h : Below k c.rest) {t : Tier} (ht : k < t.rank) : c.Lacks t.has := by
  intro op rest hrest
  cases hop : t.has op with
  | false => rfl
  | true =>
    have := h op rest hrest
    rw [Tier.rank_of_has hop] at this
    omega

end Below

/-- What may follow a level does not belong to the next one, and may follow that one, too. -/
theorem Level.room_of_next? (h : l.next? = some l') : l.room < l'.rank ∧ l.room ≤ l'.room := by
  cases l with
  | tier t => cases t <;> cases h <;> decide
  | expression | assignment | unary | call => cases h; decide
  | primary => cases h

/-! ### What the rules yield in front of a phrase -/

/-- The rule for the expressions of a level. -/
def Level.rule : Level → Nat → Parse Expr
  | expression, n => Rule.expression n
  | assignment, n => Rule.assignment n
  | tier t, n => Rule.tier n t
  | unary, n => Rule.unary n
  | call, n => do Rule.callRest n (← Rule.primary n)
  | primary, n => Rule.primary n

/-- The rule for what may still belong to an expression of a level. -/
def Level.rest : Level → Nat → Expr → Parse Expr
  | expression, n, e => Rule.commaRest n e
  | tier t, n, e => Rule.tierRest n t e
  | call, n, e => Rule.callRest n e
  | _, _, e => pure e

/-- The first token, if there is one, is no `else`. -/
def NoElse (ts : List Token) : Prop := ∀ t us, ts = t :: us → t.is .elseKw = false

/-- `NoElse`, seen from a cursor. -/
theorem NoElse.at_eq_false (h : NoElse ts) {c : Cursor} (hc : c.rest = ts) :
    c.at .elseKw = false := by
  rw [← Cursor.lacks_is_iff]
  exact fun t us ht => h t us (hc ▸ ht)

/-- A list of declarations ends here. -/
def Closes (ts : List Token) : Prop :=
  ts = [] ∨ ∃ t us, ts = t :: us ∧ t.is .rightBrace = true

/-- Where declarations end, there is no `else`. -/
theorem Closes.noElse (h : Closes ts) : NoElse ts := by
  intro t us heq
  rcases h with rfl | ⟨t', us', rfl, ht'⟩
  · cases heq
  · obtain ⟨rfl, -⟩ := List.cons.inj heq
    exact Token.is_eq_false (Token.among_of_is ht' (List.mem_singleton_self _)) (by decide)

/-- What the rules yield in front of the tokens `ts` of a phrase. An expression may go on behind
    them, so it is described by what its level makes of the rest. -/
def Phrase.Meets : Phrase → List Token → Prop
  | .expr l e, ts => ∀ rest, Below l.room rest → ∀ Q n (c : Cursor), c.rest = ts ++ rest →
    (∀ m e' c', e'.shape = e.shape → c.Reaches rest c' → (l.rest m e').Gets c' Q) →
    (l.rule n).Gets c Q
  | .option e, ts => ∀ s t rest, s = .semicolon ∨ s = .rightParen → t.is s = true →
    ∀ (k : Option Expr → Parse Stmt) Q n (c : Cursor), c.rest = ts ++ t :: rest →
    (∀ e' c', e'.map Expr.shape = e.map Expr.shape → c.Reaches (t :: rest) c' →
      (k e').Gets c' Q) →
    (Parse.check s >>= fun found => if found = true then pure none >>= k
      else (some <$> Rule.expression n) >>= k).Gets c Q
  | .arguments es, ts => ∀ rest, Below 0 rest → ∀ n count (c : Cursor), c.rest = ts ++ rest →
    es ≠ [] → count + es.length ≤ Rule.maxArity → (Rule.argumentsFrom n count).Gets c
      fun es' c' => Expr.shapeAll es' = Expr.shapeAll es ∧ c.Reaches rest c'
  | .parameters ps, ts => ∀ rest, Below 0 rest → ∀ n count (c : Cursor), c.rest = ts ++ rest →
    ps ≠ [] → count + ps.length ≤ Rule.maxArity → (Rule.parametersFrom n count).Gets c
      fun ps' c' => ps' = ps ∧ c.Reaches rest c'
  | .lambda ps body, ts => ∀ (β : Type) (k : List Token → List Stmt → β) w w' rest Q n
    (c : Cursor), c.rest = ts ++ rest →
    (∀ body' c', Stmt.shapeAll body' = Stmt.shapeAll body → c.Reaches rest c' →
      Q (k ps body') c') →
    (do
      let _ ← Parse.expect .leftParen w
      let params ← Rule.parameters n
      let _ ← Parse.expect .leftBrace w'
      let body ← Rule.block n
      pure (k params body) : Parse β).Gets c Q
  | .stmt o s, ts => ∀ rest, (o = true → NoElse rest) → ∀ n (c : Cursor), c.rest = ts ++ rest →
    (Rule.statement n).Gets c fun s' c' => s'.shape = s.shape ∧ c.Reaches rest c'
  | .varDecl s, ts => ∃ kw us, ts = kw :: us ∧ kw.is .varKw = true ∧
    ∀ rest n (c : Cursor), c.rest = us ++ rest →
    (Rule.varDeclaration n).Gets c fun s' c' => s'.shape = s.shape ∧ c.Reaches rest c'
  | .first i, ts => ∀ rest n (c : Cursor), c.rest = ts ++ rest →
    (Parse.branch .semicolon (fun _ => pure none) <|
      Parse.branch .varKw (fun _ => some <$> Rule.varDeclaration n) <|
      some <$> Rule.expressionStatement n : Parse (Option Stmt)).Gets c
      fun i' c' => i'.map Stmt.shape = i.map Stmt.shape ∧ c.Reaches rest c'
  | .decl s, ts => ∀ rest, NoElse rest → ∀ n (c : Cursor), c.rest = ts ++ rest →
    (Rule.declarationOrStatement n).Gets c fun s' c' => s'.shape = s.shape ∧ c.Reaches rest c'
  | .decls ss, ts =>
    (∀ rest, Closes rest → ∀ n (c : Cursor), c.rest = ts ++ rest → (Rule.declarations n).Gets c
      fun ss' c' => Stmt.shapeAll ss' = Stmt.shapeAll ss ∧ c.Reaches rest c') ∧
    ∀ n (c : Cursor), c.rest = ts → (Rule.program n).Gets c
      fun ss' c' => Stmt.shapeAll ss' = Stmt.shapeAll ss ∧ c.Reaches [] c'
  | .method f, ts => ∀ rest n flavour (c : Cursor), c.rest = ts ++ rest →
    (Rule.function n flavour).Gets c fun f' c' => f'.shape = f.shape ∧ c.Reaches rest c'
  | .methods fs, ts => ∀ t rest, t.is .rightBrace = true → ∀ n (c : Cursor),
    c.rest = ts ++ t :: rest → (Rule.methods n).Gets c
      fun fs' c' => FunDecl.shapeAll fs' = FunDecl.shapeAll fs ∧ c.Reaches (t :: rest) c'

namespace Phrase.Meets

open Parse

variable {l l' : Level} {e : Expr} {ts us rest : List Token} {c : Cursor} {n k : Nat}

variable {lp rp t q p rb lb : Token} {es : List Expr} {id : NodeId} {ps vs : List Token}
  {body ss : List Stmt} {f : FunDecl} {fs : List FunDecl} {α : Type}

/-- Nothing more belongs to the expression if the next token binds less tightly. -/
theorem gets_rest {Q : Expr → Cursor → Prop} (h : Below k c.rest) (hk : k < l.rank) (hQ : Q e c) :
    (l.rest n e).Gets c Q := by
  cases l with
  | expression =>
    refine gets_succ (r := fun n => Rule.commaRest n e) n rfl fun n => ?_
    exact gets_branch_other (h.at_eq_false hk) hQ
  | tier t =>
    refine gets_succ (r := fun n => Rule.tierRest n t e) n rfl fun n => ?_
    exact gets_acceptIf_bind_none (h.lacks_has hk) hQ
  | call =>
    refine gets_succ (r := fun n => Rule.callRest n e) n rfl fun n => ?_
    exact gets_branch_other (h.at_eq_false hk) (gets_branch_other (h.at_eq_false hk) hQ)
  | assignment | unary | primary => exact hQ

/-- An expression that ends where its tokens do. -/
theorem ends (h : (Phrase.expr l e).Meets ts) (hrest : Below k rest) (hroom : k ≤ l.room)
    (hk : k < l.rank) (hc : c.rest = ts ++ rest) :
    (l.rule n).Gets c fun e' c' => e'.shape = e.shape ∧ c.Reaches rest c' :=
  h rest (hrest.mono hroom) _ n c hc fun _ _ _ he hreach =>
    gets_rest (hreach.rest ▸ hrest) hk ⟨he, hreach⟩

/-! #### Expressions

One lemma for each constructor of `Reads`, named after it; the shortest stand in `Reads.meets`. -/

/-- The rule of a looser level first tries that of the next tighter one. -/
theorem lift (hl : l.next? = some l') (hopens : StartsIn l'.starts ts)
    (h : (Phrase.expr l' e).Meets ts) : (Phrase.expr l e).Meets ts := by
  intro rest hrest Q n c hc hk
  have hinner : ∀ m, (l'.rule m).Gets c fun e' c' => e'.shape = e.shape ∧ c.Reaches rest c' :=
    fun m => h.ends hrest (Level.room_of_next? hl).2 (Level.room_of_next? hl).1 hc
  cases l with
  | expression =>
    cases hl
    refine gets_succ n rfl fun n => ?_
    exact (hinner n).bind fun e' c' he => hk n e' c' he.1 he.2
  | assignment =>
    cases hl
    refine gets_succ n rfl fun n => ?_
    refine (hinner n).bind fun e' c' he => ?_
    -- Neither `=` nor `?` follows, for they have rank two.
    have hbelow : Below 1 c'.rest := he.2.rest ▸ hrest
    exact gets_branch_other (hbelow.at_eq_false (by decide)) <|
      gets_branch_other (hbelow.at_eq_false (by decide)) (hk n e' c' he.1 he.2)
  | tier t =>
    -- The operand of a tier takes two steps of the bound.
    refine gets_succ n rfl fun n => ?_
    refine Gets.bind (Q := fun e' c' => e'.shape = e.shape ∧ c.Reaches rest c') ?_
      fun e' c' he => hk n e' c' he.1 he.2
    refine gets_succ (r := fun n => Rule.operand n t) n rfl fun n => ?_
    cases t <;> cases hl <;> exact hinner n
  | unary =>
    cases hl
    refine gets_succ n rfl fun n => ?_
    -- A call starts with neither of the two operators.
    refine gets_acceptIf_bind_none (fun t us ht => ?_) ?_
    · obtain ⟨t', us', rfl, hamong, -⟩ := hopens
      obtain ⟨rfl, -⟩ := List.cons.inj (ht.symm.trans hc)
      rw [Token.is_eq_false hamong (by decide), Token.is_eq_false hamong (by decide)]
      rfl
    · exact (hinner n).mono fun e' c' he => hk n e' c' he.1 he.2
  | call =>
    cases hl
    exact (hinner n).bind fun e' c' he => hk n e' c' he.1 he.2
  | primary => cases hl

variable {a b object : Expr} {op dot name eq : Token}

theorem comma (ha : (Phrase.expr .expression a).Meets ts) (hop : op.is .comma = true)
    (hb : (Phrase.expr .assignment b).Meets us) :
    (Phrase.expr .expression (.binary a op b)).Meets (ts ++ op :: us) := by
  intro rest hrest Q n c hc hk
  -- The loop goes round once more: what the left operand leaves to its level starts with `op`.
  refine ha (op :: (us ++ rest)) (Below.cons hop (by decide) _) Q n c (by simpa using hc)
    fun m a' c₁ ha' hreach => ?_
  refine gets_succ (r := fun m => Rule.commaRest m a') m rfl fun m => ?_
  refine gets_branch_found hreach.rest hop ?_
  refine (hb.ends (c := c₁.moveTo _) hrest (by decide) (by decide) rfl).bind fun b' c₂ hb' => ?_
  refine hk m _ c₂ ?_ (hreach.trans ⟨hb'.2.rest, hb'.2.report⟩)
  rw [Expr.shape, ha', hb'.1, Expr.shape]

/-- The operand is read through `Rule.operand`, one step further. -/
theorem operator {t : Tier} (ha : (Phrase.expr (.tier t) a).Meets ts) (hop : t.has op = true)
    (hb : (Phrase.expr t.operand b).Meets us) :
    (Phrase.expr (.tier t) (t.node a op b)).Meets (ts ++ op :: us) := by
  intro rest hrest Q n c hc hk
  have hbelow : Below t.rank (op :: (us ++ rest)) := by
    intro op' us' heq
    obtain ⟨rfl, -⟩ := List.cons.inj heq
    exact Nat.le_of_eq (Tier.rank_of_has hop)
  refine ha _ hbelow Q n c (by simpa using hc) fun m a' c₁ ha' hreach => ?_
  refine gets_succ (r := fun m => Rule.tierRest m t a') m rfl fun m => ?_
  refine gets_acceptIf_bind_some hreach.rest hop ?_
  refine Gets.bind (Q := fun b' c' => b'.shape = b.shape ∧ c₁.Reaches rest c') ?_
    fun b' c₂ hb' => ?_
  · have hinner : ∀ j, (t.operand.rule j).Gets (c₁.moveTo (us ++ rest)) fun b' c' =>
        b'.shape = b.shape ∧ c₁.Reaches rest c' := fun j =>
      (hb.ends hrest (Level.room_of_next? rfl).2 (Level.room_of_next? rfl).1 rfl).mono
        fun _ _ h => ⟨h.1, h.2.rest, h.2.report⟩
    refine gets_succ (r := fun m => Rule.operand m t) m rfl fun m => ?_
    cases t <;> exact hinner m
  · refine hk m _ c₂ ?_ (hreach.trans hb'.2)
    rw [Tier.shape_node, ha', hb'.1, Tier.shape_node]

theorem unary (hop : (op.is .bang || op.is .minus) = true)
    (he : (Phrase.expr .unary e).Meets us) :
    (Phrase.expr .unary (.unary op e)).Meets (op :: us) := by
  intro rest hrest Q n c hc hk
  refine gets_succ n rfl fun n => ?_
  refine gets_acceptIf_bind_some hc hop ?_
  refine Gets.bind (Q := fun e' c' => e'.shape = e.shape ∧ c.Reaches rest c') ?_
    fun e' c' he' => hk n _ c' (by rw [Expr.shape, he'.1, Expr.shape]) he'.2
  exact he rest hrest _ n (c.moveTo (us ++ rest)) rfl fun _ e' c' he' hreach =>
    ⟨he', hreach.rest, hreach.report⟩

/-- The loop of `callRest`: no parenthesis follows but a point. -/
theorem get (ho : (Phrase.expr .call object).Meets ts) (hdot : dot.is .dot = true)
    (hname : name.isIdentifier = true) :
    (Phrase.expr .call (.get object name)).Meets (ts ++ [dot, name]) := by
  intro rest hrest Q n c hc hk
  refine ho (dot :: name :: rest) (Below.cons hdot (by decide) _) Q n c (by simpa using hc)
    fun m object' c₁ ho' hreach => ?_
  refine gets_succ (r := fun m => Rule.callRest m object') m rfl fun m => ?_
  have hparen : c₁.at .leftParen = false := at_eq_false_of_rest hreach.rest hdot (by decide)
  refine gets_branch_other hparen (gets_branch_found hreach.rest hdot ?_)
  refine gets_expectName_bind rfl hname ?_
  exact hk m _ _ (by rw [Expr.shape, ho', Expr.shape]) ⟨rfl, hreach.report⟩

/-- The loop of `callRest`, with the arguments in between, if there are any. -/
theorem call (hf : (Phrase.expr .call a).Meets ts) (hlp : lp.is .leftParen = true)
    (hreads : Reads (.arguments es) us) (hes : (Phrase.arguments es).Meets us)
    (hlength : es.length ≤ Rule.maxArity) (hrp : rp.is .rightParen = true) :
    (Phrase.expr .call (.call a rp es)).Meets (ts ++ lp :: (us ++ [rp])) := by
  intro rest hrest Q n c hc hk
  refine hf (lp :: (us ++ rp :: rest)) (Below.cons hlp (by decide) _) Q n c (by simpa using hc)
    fun m f' c₁ hf' hreach => ?_
  refine gets_succ (r := fun m => Rule.callRest m f') m rfl fun m => ?_
  refine gets_branch_found hreach.rest hlp ?_
  -- What follows the arguments, whether there are any or none.
  have hend : ∀ es' c₂, Expr.shapeAll es' = Expr.shapeAll es ∧ c₁.Reaches (rp :: rest) c₂ →
      (expect .rightParen .argumentsClose >>= fun paren =>
        Rule.callRest m (.call f' paren es')).Gets c₂ Q := by
    intro es' c₂ h
    refine gets_expect_bind h.2.rest hrp (hk m _ _ ?_ ⟨rfl, h.2.report.trans hreach.report⟩)
    rw [Expr.shape, hf', h.1, Expr.shape]
  cases es with
  | nil =>
    cases hreads
    exact gets_unless_at hrp (hend [] _ ⟨rfl, rfl, rfl⟩)
  | cons e es =>
    have hstarts : StartsIn Level.assignment.starts us :=
      hreads.opens.resolve_left (List.cons_ne_nil e es)
    refine gets_unless_other ((hstarts.append _).at_eq_false rfl (by decide))
      (hes (rp :: rest) (Below.cons hrp (by decide) _) m 0 _ rfl (List.cons_ne_nil e es)
        (by simpa using hlength)) fun es' c₂ h => hend es' c₂ ⟨h.1, h.2.rest, h.2.report⟩

/-- An expression as tight as a call is an operand of every operator. -/
theorem disjunction (hreads : Reads (.expr .call e) ts) (h : (Phrase.expr .call e).Meets ts) :
    (Phrase.expr (.tier .disjunction) e).Meets ts := by
  have hunary := lift (l := .unary) rfl hreads.opens h
  have hreads' : Reads (.expr .unary e) ts := .lift rfl hreads
  have hfactor := lift (l := .tier .factor) rfl hreads'.opens hunary
  have hterm := lift (l := .tier .term) rfl hreads'.opens hfactor
  have hcomparison := lift (l := .tier .comparison) rfl hreads'.opens hterm
  have hequality := lift (l := .tier .equality) rfl hreads'.opens hcomparison
  have hconjunction := lift (l := .tier .conjunction) rfl hreads'.opens hequality
  exact lift (l := .tier .disjunction) rfl hreads'.opens hconjunction

/-- `primary` branches on the kind of the token. -/
theorem literal {v : Literal} (h : t.literal? = some v) :
    (Phrase.expr .primary (.literal v)).Meets [t] := by
  intro rest hrest Q n c hc hk
  have hQ : Q (.literal v) (c.moveTo rest) := hk 0 _ _ rfl (.ahead c rest)
  refine gets_succ n rfl fun n => ?_
  show (Rule.primary (n + 1)).Gets c Q
  refine ensures_bind.2 (ensures_get.2 ?_)
  rw [show c.rest = t :: rest from hc]
  unfold Token.literal? at h
  split at h
  case h_6 => cases h
  all_goals
    next hkind =>
    cases h
    simp only [hkind]
    exact ensures_bind.2 (ensures_set.2 hQ)

theorem this (h : t.is .thisKw = true) : (Phrase.expr .primary (.thisRef id t)).Meets [t] := by
  intro rest hrest Q n c hc hk
  refine gets_succ n rfl fun n => ?_
  show (Rule.primary (n + 1)).Gets c Q
  refine ensures_bind.2 (ensures_get.2 ?_)
  rw [show c.rest = t :: rest from hc]
  simp only [Token.kind_of_is h]
  refine ensures_bind.2 (ensures_set.2 (ensures_bind.2 (ensures_freshNode.2 ?_)))
  exact hk 0 _ _ rfl ⟨rfl, rfl⟩

/-- A variable, with a number of its own. -/
theorem named (h : name.isIdentifier = true) :
    (Phrase.expr .primary (.variable id name)).Meets [name] := by
  intro rest hrest Q n c hc hk
  refine gets_succ n rfl fun n => ?_
  show (Rule.primary (n + 1)).Gets c Q
  refine ensures_bind.2 (ensures_get.2 ?_)
  rw [show c.rest = name :: rest from hc]
  simp only [Token.kind_of_isIdentifier h]
  refine ensures_bind.2 (ensures_set.2 (ensures_bind.2 (ensures_freshNode.2 ?_)))
  exact hk 0 _ _ rfl ⟨rfl, rfl⟩

theorem group (hlp : lp.is .leftParen = true) (he : (Phrase.expr .expression e).Meets ts)
    (hrp : rp.is .rightParen = true) :
    (Phrase.expr .primary (.group e)).Meets (lp :: (ts ++ [rp])) := by
  intro rest hrest Q n c hc hk
  refine gets_succ n rfl fun n => ?_
  show (Rule.primary (n + 1)).Gets c Q
  refine ensures_bind.2 (ensures_get.2 ?_)
  rw [show c.rest = lp :: (ts ++ [rp] ++ rest) from hc]
  simp only [Token.kind_of_is hlp]
  refine ensures_bind.2 (ensures_set.2 ?_)
  refine (he.ends (k := 0) (c := c.moveTo _) (Below.cons hrp (by decide) rest)
    (by decide) (by decide) (by simp)).bind fun e' c₁ he' => ?_
  refine gets_expect_bind he'.2.rest hrp (hk 0 _ _ ?_ ⟨rfl, he'.2.report⟩)
  rw [Expr.shape, he'.1, Expr.shape]

theorem function {kw : Token} (hkw : kw.is .funKw = true) (h : (Phrase.lambda ps body).Meets ts) :
    (Phrase.expr .primary (.function (.mk none ps body))).Meets (kw :: ts) := by
  intro rest hrest Q n c hc hk
  refine gets_succ n rfl fun n => ?_
  show (Rule.primary (n + 1)).Gets c Q
  refine ensures_bind.2 (ensures_get.2 ?_)
  rw [show c.rest = kw :: (ts ++ rest) from hc]
  simp only [Token.kind_of_is hkw]
  refine ensures_bind.2 (ensures_set.2 ?_)
  refine h _ (fun ps body => .function (.mk none ps body)) _ _ rest Q n (c.moveTo (ts ++ rest)) rfl
    fun body' c₁ hbody hreach => hk 0 _ _ ?_ ⟨hreach.rest, hreach.report⟩
  exact congrArg (fun body => Expr.function (.mk none ps body)) hbody

/-- An assignment, once its target is read. -/
theorem assigned {target value : Expr}
    (htarget : (Phrase.expr (.tier .disjunction) target).Meets ts) (heq : eq.is .equal = true)
    (hvalue : (Phrase.expr .assignment value).Meets us)
    (hassign : ∀ target' value' c₁, target'.shape = target.shape → value'.shape = value.shape →
      (Rule.assignTo target' eq value').Gets c₁ fun y c' =>
        y.shape = e.shape ∧ c₁.Reaches c₁.rest c') :
    (Phrase.expr .assignment e).Meets (ts ++ eq :: us) := by
  intro rest hrest Q n c hc hk
  refine gets_succ n rfl fun n => ?_
  show (Rule.assignment (n + 1)).Gets c Q
  -- The target is read like any operand, and its tree tells later what is assigned to.
  refine (htarget.ends (k := 2) (Below.cons heq (by decide) (us ++ rest))
    (by decide) (by decide) (by simpa using hc)).bind fun target' c₁ htarget' => ?_
  refine gets_branch_found htarget'.2.rest heq ?_
  refine (hvalue.ends (c := c₁.moveTo _) hrest (by decide) (by decide) rfl).bind
    fun value' c₂ hvalue' => ?_
  refine (hassign target' value' c₂ htarget'.1 hvalue'.1).mono fun y c' hy => ?_
  exact hk 0 y c' hy.1 ⟨hy.2.rest.trans hvalue'.2.rest,
    hy.2.report.trans (hvalue'.2.report.trans htarget'.2.report)⟩

/-- `assignTo` makes an assignment of a target that is a variable. -/
theorem assign (hname : name.isIdentifier = true) (heq : eq.is .equal = true)
    (he : (Phrase.expr .assignment e).Meets us) :
    (Phrase.expr .assignment (.assign id name e)).Meets (name :: eq :: us) := by
  have hcall : (Phrase.expr .call (.variable id name)).Meets [name] :=
    lift rfl (StartsIn.name hname []) (named hname)
  have hreads : Reads (.expr .call (.variable id name)) [name] := .lift rfl (.name hname)
  refine assigned (disjunction hreads hcall) heq he fun target' value' c₁ htarget hvalue => ?_
  obtain ⟨id', rfl⟩ := Expr.eq_variable_of_shape htarget
  refine ensures_bind.2 (ensures_freshNode.2 ⟨?_, rfl, rfl⟩)
  rw [Expr.shape, hvalue, Expr.shape]

/-- `assignTo` makes a change of a property of a target that is an access to it. -/
theorem set (hreads : Reads (.expr .call object) ts) (ho : (Phrase.expr .call object).Meets ts)
    (hdot : dot.is .dot = true) (hname : name.isIdentifier = true) (heq : eq.is .equal = true)
    (he : (Phrase.expr .assignment e).Meets us) :
    (Phrase.expr .assignment (.set object name e)).Meets (ts ++ dot :: name :: eq :: us) := by
  have hget := disjunction (.get hreads hdot hname) (get ho hdot hname)
  have h : (Phrase.expr .assignment (.set object name e)).Meets
      ((ts ++ [dot, name]) ++ eq :: us) := by
    refine assigned hget heq he fun target' value' c₁ htarget hvalue => ?_
    obtain ⟨object', rfl, ho'⟩ := Expr.eq_get_of_shape htarget
    refine gets_pure ⟨?_, rfl, rfl⟩
    rw [Expr.shape, ho', hvalue, Expr.shape]
  simpa using h

/-- Behind the condition comes `?`, which is not `=`. -/
theorem conditional {colon : Token} (hc : (Phrase.expr (.tier .disjunction) e).Meets ts)
    (hq : q.is .question = true) (ha : (Phrase.expr .assignment a).Meets us)
    (hcolon : colon.is .colon = true) (hb : (Phrase.expr .assignment b).Meets vs) :
    (Phrase.expr .assignment (.conditional e q a b)).Meets (ts ++ q :: (us ++ colon :: vs)) := by
  intro rest hrest Q n c hrest' hk
  refine gets_succ n rfl fun n => ?_
  show (Rule.assignment (n + 1)).Gets c Q
  refine (hc.ends (k := 2) (Below.cons hq (by decide) (us ++ colon :: (vs ++ rest)))
    (by decide) (by decide) (by simpa using hrest')).bind fun e' c₁ he' => ?_
  have hequal : c₁.at .equal = false := at_eq_false_of_rest he'.2.rest hq (by decide)
  refine gets_branch_other hequal (gets_branch_found he'.2.rest hq ?_)
  refine gets_succ (r := fun n => Rule.conditional n e' q) n rfl fun n => ?_
  refine (ha.ends (k := 0) (c := c₁.moveTo _) (Below.cons hcolon (by decide) (vs ++ rest))
    (by decide) (by decide) rfl).bind fun a' c₂ ha' => ?_
  refine gets_expect_bind ha'.2.rest hcolon ?_
  refine (hb.ends (c := c₂.moveTo _) hrest (by decide) (by decide) rfl).bind fun b' c₃ hb' => ?_
  refine hk 0 _ c₃ ?_ ⟨hb'.2.rest, hb'.2.report.trans (ha'.2.report.trans he'.2.report)⟩
  rw [Expr.shape, he'.1, ha'.1, hb'.1, Expr.shape]

/-! #### Lists with commas and functions -/

theorem oneArgument (he : (Phrase.expr .assignment e).Meets ts) :
    (Phrase.arguments [e]).Meets ts := by
  intro rest hrest n count c hc _ hlength
  refine gets_succ (r := fun n => Rule.argumentsFrom n count) n rfl fun n => ?_
  rw [List.length_singleton] at hlength
  refine ensures_ite.2 ⟨fun hcount => absurd hcount (by omega), fun _ => ?_⟩
  refine (he.ends hrest (by decide) (by decide) hc).bind fun e' c₁ he' => ?_
  have hcomma : c₁.at .comma = false :=
    Below.at_eq_false (he'.2.rest ▸ hrest) (by decide)
  refine ensures_bind.2 (gets_branch_other hcomma (gets_pure (gets_pure ⟨?_, he'.2⟩)))
  simp only [Expr.shapeAll, he'.1]

/-- The count stays within `maxArity`, so nothing is reported. -/
theorem moreArguments {comma : Token} {e' : Expr} (he : (Phrase.expr .assignment e).Meets ts)
    (hcomma : comma.is .comma = true) (hes : (Phrase.arguments (e' :: es)).Meets us) :
    (Phrase.arguments (e :: e' :: es)).Meets (ts ++ comma :: us) := by
  intro rest hrest n count c hc _ hlength
  refine gets_succ (r := fun n => Rule.argumentsFrom n count) n rfl fun n => ?_
  rw [List.length_cons] at hlength
  refine ensures_ite.2 ⟨fun hcount => absurd hcount (by omega), fun _ => ?_⟩
  refine (he.ends (k := 1) (Below.cons hcomma (by decide) (us ++ rest))
    (by decide) (by decide) (by simpa using hc)).bind fun x c₁ hx => ?_
  refine ensures_bind.2 (gets_branch_found hx.2.rest hcomma ?_)
  refine (hes rest hrest n (count + 1) (c₁.moveTo _) rfl (List.cons_ne_nil _ _) (by omega)).mono
    fun xs c₂ hxs => gets_pure ⟨?_, hx.2.trans ⟨hxs.2.rest, hxs.2.report⟩⟩
  show x.shape :: Expr.shapeAll xs = e.shape :: Expr.shapeAll (e' :: es)
  rw [hx.1, hxs.1]

theorem oneParameter (hp : p.isIdentifier = true) : (Phrase.parameters [p]).Meets [p] := by
  intro rest hrest n count c hc _ hlength
  refine gets_succ (r := fun n => Rule.parametersFrom n count) n rfl fun n => ?_
  rw [List.length_singleton] at hlength
  refine ensures_ite.2 ⟨fun hcount => absurd hcount (by omega), fun _ => ?_⟩
  refine gets_expectName_bind hc hp (ensures_bind.2 ?_)
  have hcomma : (c.moveTo ([] ++ rest)).at .comma = false := Below.at_eq_false hrest (by decide)
  exact gets_branch_other hcomma (gets_pure (gets_pure ⟨rfl, rfl, rfl⟩))

theorem moreParameters {comma : Token} (hp : p.isIdentifier = true)
    (hcomma : comma.is .comma = true)
    (hps : (Phrase.parameters (q :: ps)).Meets ts) :
    (Phrase.parameters (p :: q :: ps)).Meets (p :: comma :: ts) := by
  intro rest hrest n count c hc _ hlength
  refine gets_succ (r := fun n => Rule.parametersFrom n count) n rfl fun n => ?_
  rw [List.length_cons] at hlength
  refine ensures_ite.2 ⟨fun hcount => absurd hcount (by omega), fun _ => ?_⟩
  refine gets_expectName_bind hc hp (ensures_bind.2 (gets_branch_found rfl hcomma ?_))
  refine (hps rest hrest n (count + 1) _ rfl (List.cons_ne_nil _ _) (by omega)).mono
    fun ps' c₁ hps' => gets_pure ⟨by rw [hps'.1], hps'.2.rest, hps'.2.report⟩

/-- Parameters with the parenthesis behind them. -/
theorem gets_parameters (rest : List Token) (hreads : Reads (.parameters ps) ts)
    (hps : (Phrase.parameters ps).Meets ts) (hlength : ps.length ≤ Rule.maxArity)
    (hrp : rp.is .rightParen = true) (hc : c.rest = ts ++ rp :: rest) :
    (Rule.parameters n).Gets c fun ps' c' => ps' = ps ∧ c.Reaches rest c' := by
  cases ps with
  | nil =>
    cases hreads
    exact gets_unless_at (at_of_rest hc hrp) (gets_expect_bind hc hrp (gets_pure ⟨rfl, rfl, rfl⟩))
  | cons p ps =>
    have hstarts : StartsIn [] ts := hreads.opens.resolve_left (List.cons_ne_nil p ps)
    refine gets_unless_other ((hstarts.append _).at_eq_false hc (by decide))
      (hps (rp :: rest) (Below.cons hrp (by decide) _) n 0 c hc (List.cons_ne_nil p ps)
        (by simpa using hlength)) fun ps' c₁ hps' => ?_
    exact gets_expect_bind hps'.2.rest hrp (gets_pure ⟨hps'.1, rfl, hps'.2.report⟩)

/-- Declarations with the brace behind them. -/
theorem gets_block (rest : List Token) (hbody : (Phrase.decls body).Meets ts)
    (hrb : rb.is .rightBrace = true) (hc : c.rest = ts ++ rb :: rest) :
    (Rule.block n).Gets c fun body' c' =>
      Stmt.shapeAll body' = Stmt.shapeAll body ∧ c.Reaches rest c' := by
  refine gets_succ n rfl fun n => ?_
  refine (hbody.1 (rb :: rest) (.inr ⟨rb, rest, rfl, hrb⟩) n c hc).bind fun body' c₁ h => ?_
  exact gets_expect_bind h.2.rest hrb (gets_pure ⟨h.1, rfl, h.2.report⟩)

theorem lambda (hlp : lp.is .leftParen = true) (hreads : Reads (.parameters ps) ts)
    (hps : (Phrase.parameters ps).Meets ts) (hlength : ps.length ≤ Rule.maxArity)
    (hrp : rp.is .rightParen = true) (hlb : lb.is .leftBrace = true)
    (hbody : (Phrase.decls body).Meets us) (hrb : rb.is .rightBrace = true) :
    (Phrase.lambda ps body).Meets (lp :: (ts ++ rp :: lb :: (us ++ [rb]))) := by
  intro β k w w' rest Q n c hc hk
  refine gets_expect_bind hc hlp ?_
  refine (gets_parameters (lb :: (us ++ rb :: rest)) hreads hps hlength hrp
    (by simp)).bind fun ps' c₁ h => ?_
  obtain ⟨rfl, hreach⟩ := h
  refine gets_expect_bind hreach.rest hlb ?_
  refine (gets_block rest hbody hrb rfl).bind fun body' c₂ h' => ?_
  exact hk body' c₂ h'.1 ⟨h'.2.rest, h'.2.report.trans hreach.report⟩

theorem method (hname : name.isIdentifier = true) (h : (Phrase.lambda ps body).Meets ts) :
    (Phrase.method (.mk (some name) ps body)).Meets (name :: ts) := by
  intro rest n flavour c hc
  refine gets_succ (r := fun n => Rule.function n flavour) n rfl fun n => ?_
  refine gets_expectName_bind hc hname ?_
  refine h FunDecl (.mk (some name)) _ _ rest (fun f' c' => f'.shape =
    (FunDecl.mk (some name) ps body).shape ∧ c.Reaches rest c') n (c.moveTo (ts ++ rest)) rfl
    fun body' c₁ hbody hreach => ⟨?_, hreach.rest, hreach.report⟩
  exact congrArg (FunDecl.mk (some name) ps) hbody

/-- A method starts with a name, which is neither a brace nor the end. -/
theorem moreMethods (hreads : Reads (.method f) ts) (hf : (Phrase.method f).Meets ts)
    (hfs : (Phrase.methods fs).Meets us) : (Phrase.methods (f :: fs)).Meets (ts ++ us) := by
  intro t rest ht n c hc
  rw [List.append_assoc] at hc
  refine gets_succ n rfl fun n => ?_
  have hstarts : StartsIn [] ts := hreads.opens
  have hbrace : c.at .rightBrace = false := (hstarts.append _).at_eq_false hc (by decide)
  have hne : c.rest.isEmpty = false := by
    obtain ⟨t', us', rfl, -⟩ := hstarts
    rw [hc]
    rfl
  refine ensures_bind.2 (ensures_check.2 (ensures_bind.2 (ensures_atEnd.2 ?_)))
  rw [hbrace, hne, Bool.or_self, if_neg Bool.false_ne_true]
  refine (hf _ n _ c hc).bind fun f' c₁ hf' => ?_
  refine (hfs t rest ht n c₁ hf'.2.rest).bind fun fs' c₂ hfs' => ?_
  refine gets_pure ⟨?_, hf'.2.trans hfs'.2⟩
  exact congrArg₂ List.cons hf'.1 hfs'.1

/-! #### Statements -/

/-- An expression starts with neither of the symbols that would end it. -/
theorem present (hreads : Reads (.expr .expression e) ts)
    (he : (Phrase.expr .expression e).Meets ts) : (Phrase.option (some e)).Meets ts := by
  intro s t rest hs ht k Q n c hc hk
  have hstarts : StartsIn Level.expression.starts ts := hreads.opens
  have hat : c.at s = false := by
    rcases hs with rfl | rfl
    · exact (hstarts.append _).at_eq_false hc (by decide)
    · exact (hstarts.append _).at_eq_false hc (by decide)
  have hbelow : Below 0 (t :: rest) := by
    rcases hs with rfl | rfl
    · exact Below.cons ht (by decide) _
    · exact Below.cons ht (by decide) _
  refine gets_unless_other (Q := fun e' c' => e'.map Expr.shape = some e.shape ∧
    c.Reaches (t :: rest) c') hat ?_ fun e' c' h => hk e' c' h.1 h.2
  exact (he.ends hbelow (by decide) (by decide) hc).map fun e' c' h =>
    ⟨congrArg some h.1, h.2⟩

variable {semi kw lp rp : Token}

/-- An expression with the symbol behind it. -/
theorem gets_ended (rest : List Token) {end' : Symbol} {k : Expr → α} {w : Expected}
    {Q : α → Cursor → Prop} (he : (Phrase.expr .expression e).Meets ts) (hend : end'.rank = 0)
    (hsemi : semi.is end' = true) (hc : c.rest = ts ++ semi :: rest)
    (hQ : ∀ e' c', e'.shape = e.shape → c.Reaches rest c' → Q (k e') c') :
    (do
      let e ← Rule.expression n
      let _ ← expect end' w
      pure (k e) : Parse α).Gets c Q := by
  refine (he.ends (k := 0) (Below.cons hsemi (Nat.le_of_eq hend) _) (by decide) (by decide)
    hc).bind fun e' c₁ he' => ?_
  exact gets_expect_bind he'.2.rest hsemi (gets_pure (hQ e' _ he'.1 ⟨rfl, he'.2.report⟩))

/-- An expression with its semicolon, as a statement. -/
theorem gets_expressionStatement (he : (Phrase.expr .expression e).Meets ts)
    (hsemi : semi.is .semicolon = true) (hc : c.rest = ts ++ semi :: rest) :
    (Rule.expressionStatement n).Gets c fun s' c' =>
      s'.shape = (Stmt.expr e).shape ∧ c.Reaches rest c' := by
  refine gets_succ n rfl fun n => ?_
  exact gets_ended rest he rfl hsemi hc fun e' c' he' hreach =>
    ⟨congrArg Stmt.expr he', hreach⟩

theorem exprStmt (hreads : Reads (.expr .expression e) ts)
    (he : (Phrase.expr .expression e).Meets ts) (hsemi : semi.is .semicolon = true) :
    (Phrase.stmt false (.expr e)).Meets (ts ++ [semi]) := by
  intro rest _ n c hc
  have hc' : c.rest = ts ++ semi :: rest := by simpa using hc
  refine gets_succ n rfl fun n => ?_
  have hstarts : StartsIn Level.expression.starts ts := hreads.opens
  have hat {s} (hs : s ∉ Level.expression.starts) : c.at s = false :=
    (hstarts.append _).at_eq_false hc' hs
  refine gets_branch_other (hat (by decide)) <| gets_branch_other (hat (by decide)) <|
    gets_branch_other (hat (by decide)) <| gets_branch_other (hat (by decide)) <|
    gets_branch_other (hat (by decide)) <| gets_branch_other (hat (by decide)) ?_
  exact gets_expressionStatement he hsemi hc'

theorem print (hkw : kw.is .printKw = true) (he : (Phrase.expr .expression e).Meets ts)
    (hsemi : semi.is .semicolon = true) :
    (Phrase.stmt false (.print e)).Meets (kw :: (ts ++ [semi])) := by
  intro rest _ n c hc
  refine gets_succ n rfl fun n => ?_
  have hat {s} (hs : s ≠ .printKw) : c.at s = false := at_eq_false_of_rest hc hkw hs
  refine gets_branch_other (hat (by decide)) <| gets_branch_other (hat (by decide)) <|
    gets_branch_other (hat (by decide)) <| gets_branch_other (hat (by decide)) <|
    gets_branch_other (hat (by decide)) <| gets_branch_found hc hkw ?_
  refine gets_succ n rfl fun n => ?_
  exact gets_ended rest he rfl hsemi (by simp) fun e' c' he' hreach =>
    ⟨congrArg Stmt.print he', hreach.rest, hreach.report⟩

theorem ret {v : Option Expr} (hkw : kw.is .returnKw = true) (hv : (Phrase.option v).Meets ts)
    (hsemi : semi.is .semicolon = true) :
    (Phrase.stmt false (.ret kw v)).Meets (kw :: (ts ++ [semi])) := by
  intro rest _ n c hc
  refine gets_succ n rfl fun n => ?_
  have hat {s} (hs : s ≠ .returnKw) : c.at s = false := at_eq_false_of_rest hc hkw hs
  refine gets_branch_other (hat (by decide)) <| gets_branch_other (hat (by decide)) <|
    gets_branch_other (hat (by decide)) <| gets_branch_found hc hkw ?_
  refine gets_succ (r := fun n => Rule.returnStatement n kw) n rfl fun n => ?_
  refine hv .semicolon semi rest (.inl rfl) hsemi _ _ n _ (by simp) fun v' c₁ hv' hreach => ?_
  refine gets_expect_bind hreach.rest hsemi (gets_pure ⟨?_, rfl, hreach.report⟩)
  rw [Stmt.shape_ret, hv', Stmt.shape_ret]

theorem block (hlb : lb.is .leftBrace = true) (hbody : (Phrase.decls body).Meets ts)
    (hrb : rb.is .rightBrace = true) :
    (Phrase.stmt false (.block body)).Meets (lb :: (ts ++ [rb])) := by
  intro rest _ n c hc
  refine gets_succ n rfl fun n => ?_
  have hat {s} (hs : s ≠ .leftBrace) : c.at s = false := at_eq_false_of_rest hc hlb hs
  refine gets_branch_other (hat (by decide)) <| gets_branch_other (hat (by decide)) <|
    gets_branch_other (hat (by decide)) <| gets_branch_other (hat (by decide)) <|
    gets_branch_found hc hlb ?_
  exact (gets_block rest hbody hrb (by simp)).map fun body' c' h =>
    ⟨congrArg Stmt.block h.1, h.2.rest, h.2.report⟩

/-- The condition of a statement, in parentheses. -/
theorem gets_condition (rest : List Token) {w w' : Expected} {k : Expr → Parse α}
    {Q : α → Cursor → Prop} (hlp : lp.is .leftParen = true)
    (he : (Phrase.expr .expression e).Meets ts) (hrp : rp.is .rightParen = true)
    (hc : c.rest = lp :: (ts ++ rp :: rest))
    (hk : ∀ e' c', e'.shape = e.shape → c.Reaches rest c' → (k e').Gets c' Q) :
    (do
      let _ ← expect .leftParen w
      let e ← Rule.expression n
      let _ ← expect .rightParen w'
      k e : Parse α).Gets c Q := by
  refine gets_expect_bind hc hlp ?_
  refine (he.ends (k := 0) (c := c.moveTo _) (Below.cons hrp (by decide) _) (by decide) (by decide)
    rfl).bind fun e' c₁ he' => ?_
  exact gets_expect_bind he'.2.rest hrp (hk e' _ he'.1 ⟨rfl, he'.2.report⟩)

variable {o : Bool} {x : Stmt}

theorem ifThen (hkw : kw.is .ifKw = true) (hlp : lp.is .leftParen = true)
    (he : (Phrase.expr .expression e).Meets ts) (hrp : rp.is .rightParen = true)
    (hx : (Phrase.stmt o x).Meets us) :
    (Phrase.stmt true (.ifElse e x none)).Meets (kw :: lp :: (ts ++ rp :: us)) := by
  intro rest hrest n c hc
  refine gets_succ n rfl fun n => ?_
  refine gets_branch_other (at_eq_false_of_rest hc hkw (by decide)) <|
    gets_branch_found hc hkw ?_
  refine gets_succ n rfl fun n => ?_
  refine gets_condition (us ++ rest) hlp he hrp (by simp) fun e' c₁ he' hreach => ?_
  -- No `else` follows, so the branch may itself be open.
  refine (hx rest (fun _ => hrest rfl) n c₁ hreach.rest).bind fun x' c₂ hx' => ?_
  refine ensures_bind.2 (gets_branch_other ((hrest rfl).at_eq_false hx'.2.rest) ?_)
  refine gets_pure (gets_pure ⟨?_, hx'.2.rest, hx'.2.report.trans hreach.report⟩)
  simp only [Stmt.shape_ifElse, he', hx'.1]

/-- The first branch is closed, so that the `else` is read here. -/
theorem ifElse {el : Token} {y : Stmt} (hkw : kw.is .ifKw = true) (hlp : lp.is .leftParen = true)
    (he : (Phrase.expr .expression e).Meets ts) (hrp : rp.is .rightParen = true)
    (hx : (Phrase.stmt false x).Meets us) (hel : el.is .elseKw = true)
    (hy : (Phrase.stmt o y).Meets vs) :
    (Phrase.stmt o (.ifElse e x (some y))).Meets
      (kw :: lp :: (ts ++ rp :: (us ++ el :: vs))) := by
  intro rest hrest n c hc
  refine gets_succ n rfl fun n => ?_
  refine gets_branch_other (at_eq_false_of_rest hc hkw (by decide)) <|
    gets_branch_found hc hkw ?_
  refine gets_succ n rfl fun n => ?_
  refine gets_condition (us ++ el :: (vs ++ rest)) hlp he hrp (by simp)
    fun e' c₁ he' hreach => ?_
  -- The branch is closed, so it leaves the `else` behind it alone.
  refine (hx _ (fun ho => absurd ho Bool.false_ne_true) n c₁ hreach.rest).bind
    fun x' c₂ hx' => ?_
  refine ensures_bind.2 (gets_branch_found hx'.2.rest hel ?_)
  refine (hy rest hrest n (c₂.moveTo _) rfl).map fun y' c₃ hy' => gets_pure ⟨?_, hy'.2.rest,
    hy'.2.report.trans (hx'.2.report.trans hreach.report)⟩
  simp only [Stmt.shape_ifElse, he', hx'.1, Option.map_some, hy'.1]

theorem whileLoop (hkw : kw.is .whileKw = true) (hlp : lp.is .leftParen = true)
    (he : (Phrase.expr .expression e).Meets ts) (hrp : rp.is .rightParen = true)
    (hx : (Phrase.stmt o x).Meets us) :
    (Phrase.stmt o (.whileLoop e x)).Meets (kw :: lp :: (ts ++ rp :: us)) := by
  intro rest hrest n c hc
  refine gets_succ n rfl fun n => ?_
  refine gets_branch_other (at_eq_false_of_rest hc hkw (by decide)) <|
    gets_branch_other (at_eq_false_of_rest hc hkw (by decide)) <| gets_branch_found hc hkw ?_
  refine gets_succ n rfl fun n => ?_
  refine gets_condition (us ++ rest) hlp he hrp (by simp) fun e' c₁ he' hreach => ?_
  refine (hx rest hrest n c₁ hreach.rest).bind fun x' c₂ hx' => ?_
  exact gets_pure ⟨congrArg₂ Stmt.whileLoop he' hx'.1, hx'.2.rest,
    hx'.2.report.trans hreach.report⟩

/-- All three parts of the head may be missing. -/
theorem forLoop {i : Option Stmt} {cond inc : Option Expr} {ws : List Token}
    (hkw : kw.is .forKw = true) (hlp : lp.is .leftParen = true) (hi : (Phrase.first i).Meets ts)
    (hcond : (Phrase.option cond).Meets us) (hsemi : semi.is .semicolon = true)
    (hinc : (Phrase.option inc).Meets vs) (hrp : rp.is .rightParen = true)
    (hx : (Phrase.stmt o x).Meets ws) :
    (Phrase.stmt o (.forLoop i cond inc x)).Meets
      (kw :: lp :: (ts ++ (us ++ semi :: (vs ++ rp :: ws)))) := by
  intro rest hrest n c hc
  refine gets_succ n rfl fun n => ?_
  refine gets_branch_found hc hkw ?_
  refine gets_succ n rfl fun n => ?_
  refine gets_expect_bind rfl hlp ?_
  refine (hi (us ++ semi :: (vs ++ rp :: (ws ++ rest))) n _ (by simp)).bind
    fun i' c₁ hi' => ?_
  refine hcond .semicolon semi _ (.inl rfl) hsemi _ _ n c₁ hi'.2.rest
    fun cond' c₂ hcond' hreach => ?_
  refine gets_expect_bind hreach.rest hsemi ?_
  refine hinc .rightParen rp _ (.inr rfl) hrp _ _ n _ rfl fun inc' c₃ hinc' hreach' => ?_
  refine gets_expect_bind hreach'.rest hrp ?_
  refine (hx rest hrest n (c₃.moveTo _) rfl).bind fun x' c₄ hx' => ?_
  refine gets_pure ⟨?_, hx'.2.rest, hx'.2.report.trans
    (hreach'.report.trans (hreach.report.trans hi'.2.report))⟩
  simp only [Stmt.shape_forLoop, hi'.1, hcond', hinc', hx'.1]

/-! #### Declarations -/

theorem varInit (hkw : kw.is .varKw = true) (hname : name.isIdentifier = true)
    (heq : eq.is .equal = true) (he : (Phrase.expr .expression e).Meets ts)
    (hsemi : semi.is .semicolon = true) :
    (Phrase.varDecl (.varDecl name (some e))).Meets (kw :: name :: eq :: (ts ++ [semi])) := by
  refine ⟨kw, _, rfl, hkw, fun rest n c hc => ?_⟩
  refine gets_succ n rfl fun n => ?_
  refine gets_expectName_bind hc hname (ensures_bind.2 (gets_branch_found rfl heq ?_))
  refine (he.ends (k := 0) (Below.cons hsemi (by decide) rest) (by decide)
    (by decide) (by simp)).map fun e' c₁ he' => ?_
  refine gets_expect_bind he'.2.rest hsemi (gets_pure ⟨?_, rfl, he'.2.report⟩)
  exact congrArg (fun e => Stmt.varDecl name (some e)) he'.1

theorem declVar (h : (Phrase.varDecl x).Meets ts) : (Phrase.decl x).Meets ts := by
  intro rest _ n c hc
  obtain ⟨kw, us, rfl, hkw, h⟩ := h
  refine gets_succ n rfl fun n => ?_
  refine gets_branch_other (at_eq_false_of_rest hc hkw (by decide)) ?_
  refine ensures_bind.2 (ensures_get.2 ?_)
  have hnamed : c.atNamedFunction = false :=
    (StartsIn.symbol hkw (List.mem_singleton_self _) (by decide) _).atNamedFunction_eq_false hc
  rw [hnamed, if_neg Bool.false_ne_true]
  refine gets_branch_found hc hkw ?_
  exact (h rest n (c.moveTo (us ++ rest)) rfl).mono fun x' c' hx' =>
    ⟨hx'.1, hx'.2.rest, hx'.2.report⟩

theorem declFun (hkw : kw.is .funKw = true) (hreads : Reads (.method f) ts)
    (hf : (Phrase.method f).Meets ts) : (Phrase.decl (.funDecl f)).Meets (kw :: ts) := by
  intro rest _ n c hc
  refine gets_succ n rfl fun n => ?_
  refine gets_branch_other (at_eq_false_of_rest hc hkw (by decide)) ?_
  refine ensures_bind.2 (ensures_get.2 ?_)
  -- Behind the keyword stands a name: this is no function expression.
  have hnamed : c.atNamedFunction = true := by
    cases hreads with
    | method hname _ => simp [Cursor.atNamedFunction, hc, hkw, hname]
  rw [hnamed, if_pos rfl]
  refine gets_acceptIf_bind_some hc hkw ?_
  exact (hf rest n _ (c.moveTo (ts ++ rest)) rfl).bind fun f' c' hf' =>
    gets_pure ⟨congrArg Stmt.funDecl hf'.1, hf'.2.rest, hf'.2.report⟩

theorem declClass (hkw : kw.is .classKw = true) (hname : name.isIdentifier = true)
    (hlb : lb.is .leftBrace = true) (hfs : (Phrase.methods fs).Meets ts)
    (hrb : rb.is .rightBrace = true) :
    (Phrase.decl (.classDecl name fs)).Meets (kw :: name :: lb :: (ts ++ [rb])) := by
  intro rest _ n c hc
  refine gets_succ n rfl fun n => ?_
  refine gets_branch_found hc hkw ?_
  refine gets_succ n rfl fun n => ?_
  refine gets_expectName_bind rfl hname (gets_expect_bind rfl hlb ?_)
  refine (hfs rb rest hrb n _ (by simp)).bind fun fs' c₁ hfs' => ?_
  refine gets_expect_bind hfs'.2.rest hrb (gets_pure ⟨?_, rfl, hfs'.2.report⟩)
  exact congrArg (Stmt.classDecl name) hfs'.1

theorem declStmt (hreads : Reads (.stmt o x) ts) (hx : (Phrase.stmt o x).Meets ts) :
    (Phrase.decl x).Meets ts := by
  intro rest hrest n c hc
  refine gets_succ n rfl fun n => ?_
  have hstarts : StartsIn Stmt.starts ts := hreads.opens
  refine gets_branch_other ((hstarts.append _).at_eq_false hc (by decide)) ?_
  refine ensures_bind.2 (ensures_get.2 ?_)
  rw [(hstarts.append _).atNamedFunction_eq_false hc, if_neg Bool.false_ne_true]
  exact gets_branch_other ((hstarts.append _).at_eq_false hc (by decide))
    (hx rest (fun _ => hrest) n c hc)

/-- In front of declarations there is no `else`, unless what is behind them starts with one. -/
theorem noElse_append (hreads : Reads (.decls ss) us) (hrest : NoElse rest) :
    NoElse (us ++ rest) := by
  rcases (hreads.opens : us = [] ∨ _) with rfl | ⟨t, us', rfl, ht⟩
  · exact hrest
  · intro t' vs heq
    obtain ⟨rfl, -⟩ := List.cons.inj heq
    exact Token.is_eq_false ht (by decide)

/-- A declaration and those behind it. -/
theorem gets_declarations {p : Parse (List Stmt)} (hx : (Phrase.decl x).Meets ts)
    (hrest : NoElse rest) (hc : c.rest = ts ++ rest) {rest' : List Token}
    (hp : ∀ c₁ : Cursor, c₁.rest = rest → p.Gets c₁ fun ss' c' =>
      Stmt.shapeAll ss' = Stmt.shapeAll ss ∧ c₁.Reaches rest' c') :
    (do
      let first ← Rule.declaration n
      let rest ← p
      pure (first.toList ++ rest) : Parse (List Stmt)).Gets c fun ss' c' =>
        Stmt.shapeAll ss' = Stmt.shapeAll (x :: ss) ∧ c.Reaches rest' c' := by
  refine Gets.bind (Q := fun x? c' => ∃ x', x? = some x' ∧ x'.shape = x.shape ∧
    c.Reaches rest c') ?_ ?_
  · cases n with
    | zero => exact gets_throw
    | succ n =>
      refine Rule.ensures_declaration.2 (Ensures.mono (hx rest hrest n c hc) (fun x' c' h => ?_) ?_)
      · exact ⟨x', rfl, h⟩
      · rintro _ _ rfl
        rfl
  · rintro _ c₁ ⟨x', rfl, hx', hreach⟩
    refine (hp c₁ hreach.rest).bind fun ss' c₂ hss' => gets_pure ⟨?_, hreach.trans hss'.2⟩
    show x'.shape :: Stmt.shapeAll ss' = _
    rw [hx', hss'.1, Stmt.shapeAll]

/-- Nothing is read in front of a brace or of the end. -/
theorem noDecls : (Phrase.decls []).Meets [] := by
  refine ⟨fun rest hrest n c hc => ?_, fun n c hc => ?_⟩
  · cases n with
    | zero => exact gets_throw
    | succ n =>
      have hend : (c.at .rightBrace || c.rest.isEmpty) = true := by
        rcases hrest with rfl | ⟨t, us, rfl, ht⟩
        · rw [hc]
          exact Bool.or_true _
        · rw [at_of_rest hc ht, Bool.true_or]
      refine ensures_bind.2 (ensures_check.2 (ensures_bind.2 (ensures_atEnd.2 ?_)))
      rw [hend, if_pos rfl]
      exact ⟨rfl, hc, rfl⟩
  · cases n with
    | zero => exact gets_throw
    | succ n =>
      refine ensures_bind.2 (ensures_atEnd.2 ?_)
      rw [hc]
      exact ⟨rfl, hc, rfl⟩

/-- `gets_declarations`, in a block and in a whole program. -/
theorem moreDecls (hreads : Reads (.decl x) ts) (hreads' : Reads (.decls ss) us)
    (hx : (Phrase.decl x).Meets ts) (hss : (Phrase.decls ss).Meets us) :
    (Phrase.decls (x :: ss)).Meets (ts ++ us) := by
  obtain ⟨t, vs, rfl, ht⟩ := (hreads.opens : ∃ t vs, ts = t :: vs ∧ _)
  refine ⟨fun rest hrest n c hc => ?_, fun n c hc => ?_⟩
  · rw [List.append_assoc] at hc
    refine gets_succ n rfl fun n => ?_
    have hbrace : c.at .rightBrace = false := by
      unfold Cursor.at
      rw [hc]
      exact Token.is_eq_false ht (by decide)
    refine ensures_bind.2 (ensures_check.2 (ensures_bind.2 (ensures_atEnd.2 ?_)))
    rw [hbrace, hc]
    exact gets_declarations hx (noElse_append hreads' hrest.noElse) hc fun c₁ hc₁ =>
      hss.1 rest hrest n c₁ hc₁
  · cases n with
    | zero => exact gets_throw
    | succ n =>
      have hnoElse : NoElse us := by
        have hend : NoElse (us ++ []) := noElse_append hreads' nofun
        rwa [List.append_nil] at hend
      refine ensures_bind.2 (ensures_atEnd.2 ?_)
      rw [hc]
      exact gets_declarations hx hnoElse hc fun c₁ hc₁ => hss.2 n c₁ hc₁

end Phrase.Meets

open Parse Phrase.Meets in
/-- **Completeness.** In front of the tokens of a phrase, the rules yield its tree. -/
theorem Reads.meets {ph : Phrase} (h : Reads ph ts) : ph.Meets ts := by
  induction h with
  | lift hl h ih => exact .lift hl h.opens ih
  | comma _ hop _ iha ihb => exact iha.comma hop ihb
  | assign hname heq _ ih => exact .assign hname heq ih
  | set ho hdot hname heq _ iho ihe => exact iho.set ho hdot hname heq ihe
  | conditional _ hq _ hcolon _ ihc iha ihb => exact ihc.conditional hq iha hcolon ihb
  | operator _ hop _ iha ihb => exact iha.operator hop ihb
  | unary hop _ ih => exact .unary hop ih
  | call _ hlp hes hlength hrp ihf ihes => exact ihf.call hlp hes ihes hlength hrp
  | get _ hdot hname iho => exact iho.get hdot hname
  | literal h => exact .literal h
  | this h => exact .this h
  | name h => exact .named h
  | group hlp _ hrp ih => exact .group hlp ih hrp
  | function hkw _ ih => exact .function hkw ih
  | absent =>
    intro s t rest _ ht k Q n c hc hk
    exact gets_unless_at (at_of_rest hc ht) (hk none c rfl ⟨hc, rfl⟩)
  | present h ih => exact .present h ih
  | noArguments => exact fun _ _ _ _ _ _ hne => absurd rfl hne
  | oneArgument _ ih => exact .oneArgument ih
  | moreArguments _ hcomma _ ih ihs => exact .moreArguments ih hcomma ihs
  | noParameters => exact fun _ _ _ _ _ _ hne => absurd rfl hne
  | oneParameter h => exact .oneParameter h
  | moreParameters h hcomma _ ih => exact .moreParameters h hcomma ih
  | lambda hlp hps hlength hrp hlb _ hrb ihps ihbody =>
    exact .lambda hlp hps ihps hlength hrp hlb ihbody hrb
  | method hname _ ih => exact .method hname ih
  | noMethods =>
    intro t rest ht n c hc
    refine gets_succ n rfl fun n => ?_
    refine ensures_bind.2 (ensures_check.2 (ensures_bind.2 (ensures_atEnd.2 ?_)))
    rw [at_of_rest hc ht, Bool.true_or, if_pos rfl]
    exact ⟨rfl, hc, rfl⟩
  | moreMethods h _ ih ihs => exact .moreMethods h ih ihs
  | exprStmt he hsemi ih => exact .exprStmt he ih hsemi
  | print hkw _ hsemi ih => exact .print hkw ih hsemi
  | ret hkw _ hsemi ih => exact .ret hkw ih hsemi
  | block hlb _ hrb ih => exact .block hlb ih hrb
  | ifThen hkw hlp _ hrp _ ihc iha => exact .ifThen hkw hlp ihc hrp iha
  | ifElse hkw hlp _ hrp _ hel _ ihc iha ihb =>
    exact .ifElse hkw hlp ihc hrp iha hel ihb
  | whileLoop hkw hlp _ hrp _ ihc iha => exact .whileLoop hkw hlp ihc hrp iha
  | forLoop hkw hlp _ _ hsemi _ hrp _ ihf ihc ihi iha =>
    exact .forLoop hkw hlp ihf ihc hsemi ihi hrp iha
  | noFirst hsemi =>
    intro rest n c hc
    exact gets_branch_found hc hsemi (gets_pure ⟨rfl, rfl, rfl⟩)
  | firstVar _ h =>
    intro rest n c hc
    obtain ⟨kw, us, rfl, hkw, h⟩ := h
    refine gets_branch_other (at_eq_false_of_rest hc hkw (by decide)) <|
      gets_branch_found hc hkw ?_
    exact (h rest n (c.moveTo (us ++ rest)) rfl).map fun x' c' hx' =>
      ⟨congrArg some hx'.1, hx'.2.rest, hx'.2.report⟩
  | @firstExpr e semi ts hreads hsemi he =>
    intro rest n c hc
    have hc' : c.rest = ts ++ semi :: rest := by simpa using hc
    have hstarts : StartsIn Level.expression.starts ts := hreads.opens
    refine gets_branch_other ((hstarts.append _).at_eq_false hc' (by decide)) <|
      gets_branch_other ((hstarts.append _).at_eq_false hc' (by decide)) ?_
    exact (gets_expressionStatement he hsemi hc').map fun x' c' hx' =>
      ⟨congrArg some hx'.1, hx'.2⟩
  | @varDecl kw name semi hkw hname hsemi =>
    refine ⟨kw, [name, semi], rfl, hkw, fun rest n c hc => ?_⟩
    refine gets_succ n rfl fun n => ?_
    refine gets_expectName_bind hc hname (ensures_bind.2 ?_)
    refine gets_branch_other (at_eq_false_of_rest rfl hsemi (by decide)) (gets_pure ?_)
    exact gets_expect_bind rfl hsemi (gets_pure ⟨rfl, rfl, rfl⟩)
  | varInit hkw hname heq _ hsemi ih => exact .varInit hkw hname heq ih hsemi
  | declVar _ ih => exact .declVar ih
  | declFun hkw h ih => exact .declFun hkw h ih
  | declClass hkw hname hlb _ hrb ih => exact .declClass hkw hname hlb ih hrb
  | declStmt h ih => exact .declStmt h ih
  | noDecls => exact .noDecls
  | moreDecls h hs ih ihs => exact .moreDecls h hs ih ihs

/-! ### Whole token lists -/

/-- The tokens of a list of declarations are read without a report, and yield its trees. -/
theorem Program.parse_of_reads {tokens : List Token} {ss : List Stmt} (nextNode : NodeId)
    (report : Report) (h : Reads (.decls ss) (tokens.takeWhile (!·.isEof))) :
    (parse tokens nextNode report).report = report ∧
      Stmt.shapeAll (parse tokens nextNode report).statements = Stmt.shapeAll ss := by
  -- The bound suffices, which leaves only the outcome that `Gets` describes.
  obtain ⟨statements, c, hrun, hparse⟩ := run_program tokens nextNode report
  have hgets := h.meets.2 (fuel tokens.length) (start tokens nextNode report) rfl
  unfold Parse.Gets Parse.Ensures at hgets
  rw [hrun] at hgets
  rw [hparse]
  exact ⟨hgets.2.report, hgets.1⟩

end Scriptlet
