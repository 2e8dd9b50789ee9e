import Scriptlet.Proofs.Progress
import Scriptlet.Proofs.Reading

namespace Scriptlet

/-!
# Trees stand for their tokens

A reading that reports nothing yields a tree that its tokens stand for.

* `Took c c' P` — if nothing is reported from `c` to `c'`, then the tokens between them satisfy
  `P`.
* `Rule.Scans` — a rule takes such tokens, in terms of the tree it yields.
* `Rule.sound` — every rule takes the tokens of its tree.
* `Program.reads_parse` — so does the reading of a whole token list.
-/

/-! ### Tokens taken without a report -/

/-- What is read from `c` to `c'`: reports only grow, and if they did not, the tokens in between
    satisfy `P`. -/
structure Took (c c' : Cursor) (P : List Token → Prop) : Prop where
  le : c.report.size ≤ c'.report.size
  tokens : c'.report.size = c.report.size → ∃ ts, c.rest = ts ++ c'.rest ∧ P ts

/-- One list behind the other. -/
def Both (P P' : List Token → Prop) (ts : List Token) : Prop :=
  ∃ us vs, ts = us ++ vs ∧ P us ∧ P' vs

namespace Took

variable {c c' c'' : Cursor} {P P' : List Token → Prop}

theorem mono (h : Took c c' P) (hP : ∀ ts, P ts → P' ts) : Took c c' P' :=
  ⟨h.le, fun heq => (h.tokens heq).imp fun ts hts => ⟨hts.1, hP ts hts.2⟩⟩

/-- Nothing is read. -/
theorem nothing (hP : P []) : Took c c P := ⟨Nat.le_refl _, fun _ => ⟨[], rfl, hP⟩⟩

/-- One token is read. -/
theorem token {t : Token} {rest : List Token} (h : c.rest = t :: rest) :
    Took c (c.moveTo rest) (· = [t]) :=
  ⟨Nat.le_refl _, fun _ => ⟨[t], h, rfl⟩⟩

/-- One piece is read after the other. -/
theorem trans (h : Took c c' P) (h' : Took c' c'' P') : Took c c'' (Both P P') := by
  refine ⟨h.le.trans h'.le, fun heq => ?_⟩
  have hle := h.le
  have hle' := h'.le
  obtain ⟨us, hus, hP⟩ := h.tokens (by omega)
  obtain ⟨vs, hvs, hP'⟩ := h'.tokens (by omega)
  exact ⟨us ++ vs, by rw [hus, hvs, List.append_assoc], us, vs, rfl, hP, hP'⟩

/-- A token is read before the tokens of `h`. -/
theorem behind {t : Token} {rest : List Token} (ht : c.rest = t :: rest)
    (h : Took (c.moveTo rest) c' P) (hP : ∀ ts, P ts → P' (t :: ts)) : Took c c' P' :=
  ⟨h.le, fun heq => (h.tokens heq).elim fun ts hts =>
    ⟨t :: ts, ht.trans (congrArg (t :: ·) hts.1), hP ts hts.2⟩⟩

/-- With a report there is nothing to show. -/
theorem reported (h : c.report.size < c'.report.size) : Took c c' P :=
  ⟨Nat.le_of_lt h, fun heq => absurd heq (Nat.ne_of_gt h)⟩

end Took

/-! ### The rules -/

namespace Rule

open Parse

variable {n : Nat}

/-- The rule takes tokens that `view` relates to what it yields and to where it ends. -/
def Scans {α : Type} (view : α → Cursor → List Token → Prop) (p : Parse α) : Prop :=
  ∀ c, p.Yields c fun y c' => Took c c' (view y c')

/-- The tokens of an expression. -/
def ReadsExpr (l : Level) (e : Expr) (_ : Cursor) (ts : List Token) : Prop :=
  Reads (.expr l e) ts

/-- Tokens that continue the expression `left`. -/
def ReadsOn (l : Level) (left e : Expr) (_ : Cursor) (us : List Token) : Prop :=
  ∀ ts, Reads (.expr l left) ts → Reads (.expr l e) (ts ++ us)

/-- The tokens of a statement, at whose end no `else` was left that belongs to it. -/
def ReadsStmt (s : Stmt) (c : Cursor) (ts : List Token) : Prop :=
  ∃ o, Reads (.stmt o s) ts ∧ (o = true → c.at .elseKw = false)

variable {c : Cursor} {ts : List Token} {l : Level} {name : Token}

/-- No `else` belongs to a closed statement. -/
theorem readsStmt_of_closed {s : Stmt} (h : Reads (.stmt false s) ts) : ReadsStmt s c ts :=
  ⟨false, h, fun ho => absurd ho Bool.false_ne_true⟩

/-- The same behind a keyword that is already read. -/
def ReadsStmtBehind (keyword : Symbol) (s : Stmt) (c : Cursor) (ts : List Token) : Prop :=
  ∀ kw : Token, kw.is keyword = true → ReadsStmt s c (kw :: ts)

/-- All rules with the same bound take the tokens of their trees. -/
structure AllSound (n : Nat) : Prop where
  declaration : Scans (fun s _ ts => ∃ s', s = some s' ∧ Reads (.decl s') ts) (declaration n)
  declarationOrStatement : Scans (fun s _ => Reads (.decl s)) (declarationOrStatement n)
  classDeclaration : Scans
    (fun s _ ts => ∀ kw : Token, kw.is .classKw = true → Reads (.decl s) (kw :: ts))
    (classDeclaration n)
  methods : Scans (fun fs _ => Reads (.methods fs)) (methods n)
  function : ∀ f, Scans (fun d _ => Reads (.method d)) (function n f)
  varDeclaration : Scans
    (fun s _ ts => ∀ kw : Token, kw.is .varKw = true → Reads (.varDecl s) (kw :: ts))
    (varDeclaration n)
  statement : Scans ReadsStmt (statement n)
  printStatement : Scans (ReadsStmtBehind .printKw) (printStatement n)
  expressionStatement : Scans
    (fun s _ ts => ∃ e us semi, s = .expr e ∧ ts = us ++ [semi] ∧
      Reads (.expr .expression e) us ∧ semi.is .semicolon = true) (expressionStatement n)
  forStatement : Scans (ReadsStmtBehind .forKw) (forStatement n)
  ifStatement : Scans (ReadsStmtBehind .ifKw) (ifStatement n)
  whileStatement : Scans (ReadsStmtBehind .whileKw) (whileStatement n)
  returnStatement : ∀ kw : Token, kw.is .returnKw = true →
    Scans (fun s c ts => ReadsStmt s c (kw :: ts)) (returnStatement n kw)
  block : Scans (fun body _ => Both (Reads (.decls body))
    fun ts => ∃ rb : Token, ts = [rb] ∧ rb.is .rightBrace = true) (block n)
  declarations : Scans (fun ss _ => Reads (.decls ss)) (declarations n)
  expression : Scans (ReadsExpr .expression) (expression n)
  commaRest : ∀ left, Scans (ReadsOn .expression left) (commaRest n left)
  assignment : Scans (ReadsExpr .assignment) (assignment n)
  conditional : ∀ e (q : Token), q.is .question = true →
    Scans (fun y _ us => ∀ ts, Reads (.expr (.tier .disjunction) e) ts →
      Reads (.expr .assignment y) (ts ++ q :: us)) (conditional n e q)
  tier : ∀ t, Scans (ReadsExpr (.tier t)) (tier n t)
  tierRest : ∀ t left, Scans (ReadsOn (.tier t) left) (tierRest n t left)
  operand : ∀ t, Scans (ReadsExpr t.operand) (operand n t)
  unary : Scans (ReadsExpr .unary) (unary n)
  callRest : ∀ left, Scans (ReadsOn .call left) (callRest n left)
  argumentsFrom : ∀ count, Scans
    (fun es _ ts => Reads (.arguments es) ts ∧ es ≠ [] ∧ count + es.length ≤ maxArity)
    (argumentsFrom n count)
  primary : Scans (ReadsExpr .primary) (primary n)

/-! #### Lists with commas -/

/-- Where a limit is passed, that is reported first, and nothing is to be shown of what follows. -/
theorem took_limited {α : Type} {b : Prop} [Decidable b] {fault : GrammarFault} {p : Parse α}
    {P : α → Cursor → List Token → Prop}
    (hleads : ∀ c, p.Ensures c (fun _ c' => c.Leads c') fun _ c' => c.Leads c')
    (hp : ¬ b → p.Yields c fun y c' => Took c c' (P y c')) :
    (if b then do reportHere fault; p else p).Yields c fun y c' => Took c c' (P y c') := by
  refine Yields.ite (fun _ => ensures_bind.2 (ensures_reportHere.2 ?_)) hp
  refine Ensures.mono (hleads _) (fun y c' h => ?_) fun _ _ _ => trivial
  refine Took.reported (Nat.lt_of_lt_of_le ?_ h.report)
  simp [Report.size, Report.add]

theorem scans_parametersFrom (n count : Nat) : Scans
    (fun ps _ ts => Reads (.parameters ps) ts ∧ ps ≠ [] ∧ count + ps.length ≤ maxArity)
    (parametersFrom n count) := by
  induction n generalizing count with
  | zero => exact fun _ => yields_throw
  | succ n ih =>
    intro c
    rw [parametersFrom]
    refine took_limited (fun c => AdvancesFrom.leads ((advances_expectName _ c).bind fun _ =>
      (Advances.branch (fun _ => advances_parametersFrom (Nat.le_refl n) _) (advances_pure _)).bind
        fun _ => advances_pure _)) fun hcount => ?_
    refine yields_expectName_bind fun p rest h hp => ?_
    refine Yields.bind (Q := fun ps c' => Took (c.moveTo rest) c' fun ts =>
      Reads (.parameters (p :: ps)) (p :: ts) ∧ count + (p :: ps).length ≤ maxArity) ?_ ?_
    · refine yields_branch (fun comma rest' h' hcomma => ?_) fun _ => ensures_pure.2 ?_
      · refine (ih (count + 1) _).mono fun ps c' hps => .behind h' hps ?_
        rintro ts ⟨hreads, hne, hlength⟩
        obtain ⟨q, ps, rfl⟩ := List.exists_cons_of_ne_nil hne
        refine ⟨.moreParameters hp hcomma hreads, ?_⟩
        rw [List.length_cons]
        omega
      · exact Took.nothing ⟨.oneParameter hp, by rw [List.length_singleton]; omega⟩
    · intro ps c' hps
      exact ensures_pure.2 (.behind h hps fun ts hts => ⟨hts.1, List.cons_ne_nil p ps, hts.2⟩)

/-- Parameters and the parenthesis behind them. -/
theorem scans_parameters (n : Nat) : Scans (fun ps _ => Both
    (fun ts => Reads (.parameters ps) ts ∧ ps.length ≤ maxArity)
    fun ts => ∃ rp : Token, ts = [rp] ∧ rp.is .rightParen = true) (parameters n) := by
  intro c
  refine yields_unless (Q := fun ps c' => Took c c' fun ts =>
    Reads (.parameters ps) ts ∧ ps.length ≤ maxArity) (fun _ => ?_) (fun _ => ?_) ?_
  · refine (scans_parametersFrom n 0 c).mono fun ps c' h => h.mono fun ts hts => ?_
    exact ⟨hts.1, by simpa using hts.2.2⟩
  · exact Took.nothing ⟨.noParameters, Nat.zero_le _⟩
  · intro ps c' hps
    refine yields_expect_bind fun rp rest h hrp => ensures_pure.2 ?_
    refine hps.trans ((Took.token h).mono ?_)
    rintro _ rfl
    exact ⟨rp, rfl, hrp⟩

/-- A variable stands for itself. -/
theorem reads_variable {id : NodeId} (h : Reads (.expr l (.variable id name)) ts) :
    ts = [name] ∧ name.isIdentifier = true := by
  generalize hph : Phrase.expr l (.variable id name) = ph at h
  induction h generalizing l with
  | lift _ _ ih => cases hph; exact ih rfl
  | name hname => cases hph; exact ⟨rfl, hname⟩
  | @operator t _ _ _ _ _ _ _ _ _ _ => cases t <;> cases hph
  | _ => cases hph

/-- The access of a property ends with its name. -/
theorem reads_get {o : Expr} (h : Reads (.expr l (.get o name)) ts) :
    ∃ us dot, ts = us ++ [dot, name] ∧ Reads (.expr .call o) us ∧ dot.is .dot = true ∧
      name.isIdentifier = true := by
  generalize hph : Phrase.expr l (.get o name) = ph at h
  induction h generalizing l with
  | lift _ _ ih => cases hph; exact ih rfl
  | get ho hdot hname _ => cases hph; exact ⟨_, _, rfl, ho, hdot, hname⟩
  | @operator t _ _ _ _ _ _ _ _ _ _ => cases t <;> cases hph
  | _ => cases hph

theorem sound_assignTo {e value : Expr} {equals : Token} {c₁ : Cursor}
    (hequals : equals.is .equal = true) (hvalue : Took c c₁ (Reads (.expr .assignment value))) :
    (assignTo e equals value).Yields c₁ fun y c' => Took c c' fun us =>
      ∀ ts, Reads (.expr (.tier .disjunction) e) ts →
        Reads (.expr .assignment y) (ts ++ equals :: us) := by
  -- The tree of the target tells which tokens it was read from; other targets are reported.
  unfold assignTo
  split
  · next id name =>
    refine ensures_bind.2 (ensures_freshNode.2 (ensures_pure.2 ⟨hvalue.le, ?_⟩))
    refine (hvalue.mono fun us hus ts hts => ?_).tokens
    obtain ⟨rfl, hname⟩ := reads_variable hts
    exact .assign hname hequals hus
  · next o name =>
    refine ensures_pure.2 (hvalue.mono fun us hus ts hts => ?_)
    obtain ⟨vs, dot, rfl, ho, hdot, hname⟩ := reads_get hts
    rw [List.append_assoc]
    exact .set ho hdot hname hequals hus
  · exact ensures_bind.2 (ensures_report.2 (ensures_pure.2
      (Took.reported (Nat.lt_of_le_of_lt hvalue.le (by simp [Report.size, Report.add])))))

/-- An expression that goes on as its rest says. -/
theorem sound_loop {l' : Level} {p : Parse Expr} {f : Expr → Parse Expr} (hl : l.next? = some l')
    (hp : Scans (ReadsExpr l') p) (hf : ∀ left, Scans (ReadsOn l left) (f left)) :
    Scans (ReadsExpr l) (p >>= f) := by
  intro c
  refine (hp c).bind fun e c₁ he => (hf e c₁).mono fun y c' hy => (he.trans hy).mono ?_
  rintro _ ⟨ts, us, rfl, hts, hus⟩
  exact hus ts (.lift hl hts)

/-- Nothing more belongs to the expression. -/
theorem took_end {left : Expr} {c' : Cursor} : Took c c (ReadsOn l left left c') := by
  refine Took.nothing fun ts hts => ?_
  rw [List.append_nil]
  exact hts

section

variable (ih : AllSound n)

include ih

variable {c : Cursor} {w : Expected}

theorem sound_argumentsFrom (count : Nat) : Scans
    (fun es _ ts => Reads (.arguments es) ts ∧ es ≠ [] ∧ count + es.length ≤ maxArity)
    (argumentsFrom (n + 1) count) := by
  intro c
  rw [argumentsFrom]
  have hall := advances (Nat.le_refl n)
  refine took_limited (fun c => AdvancesFrom.leads ((hall.assignment c).bind fun _ =>
    (Advances.branch (fun _ => hall.argumentsFrom _) (advances_pure _)).bind fun _ =>
      advances_pure _)) fun hcount => ?_
  refine (ih.assignment c).bind fun e c₁ he => ?_
  refine Yields.bind (Q := fun es c' => Took c₁ c' fun us => ∀ ts, Reads (.expr .assignment e) ts →
    Reads (.arguments (e :: es)) (ts ++ us) ∧ count + (e :: es).length ≤ maxArity) ?_ ?_
  · refine yields_branch (fun comma rest h hcomma => ?_) fun _ => ensures_pure.2 ?_
    · refine (ih.argumentsFrom (count + 1) _).mono fun es c' hes => .behind h hes ?_
      rintro us ⟨hreads, hne, hlength⟩ ts hts
      obtain ⟨e', es, rfl⟩ := List.exists_cons_of_ne_nil hne
      refine ⟨.moreArguments hts hcomma hreads, ?_⟩
      rw [List.length_cons]
      omega
    · refine Took.nothing fun ts hts => ⟨?_, by rw [List.length_singleton]; omega⟩
      rw [List.append_nil]
      exact .oneArgument hts
  · intro es c' hes
    refine ensures_pure.2 ((he.trans hes).mono ?_)
    rintro _ ⟨ts, us, rfl, hts, hus⟩
    exact ⟨(hus ts hts).1, List.cons_ne_nil e es, (hus ts hts).2⟩

/-! #### Functions -/

/-- The parameters and the body of a function, the first parenthesis being read. -/
theorem took_lambda {α : Type} {P : α → Cursor → List Token → Prop} {k : List Token → List Stmt → α}
    (hP : ∀ ps body c' ts, (∀ lp : Token, lp.is .leftParen = true →
      Reads (.lambda ps body) (lp :: ts)) → P (k ps body) c' ts) :
    (do
      let params ← parameters n
      let _ ← expect .leftBrace w
      let body ← block n
      pure (k params body) : Parse α).Yields c fun y c' => Took c c' (P y c') := by
  refine (scans_parameters n c).bind fun ps c₁ hps => ?_
  refine yields_expect_bind fun lb rest h hlb => ?_
  refine (ih.block _).bind fun body c₂ hbody => ensures_pure.2 ?_
  refine (hps.trans ((Took.token h).trans hbody)).mono ?_
  rintro _ ⟨_, _, rfl, ⟨ts, _, rfl, ⟨hts, hlength⟩, rp, rfl, hrp⟩, _, _, rfl, rfl, us, _, rfl, hus,
    rb, rfl, hrb⟩
  refine hP _ _ _ _ fun lp hlp => ?_
  rw [List.append_assoc]
  exact .lambda hlp hts hlength hrp hlb hus hrb

theorem sound_function (f : Flavour) :
    Scans (fun d _ => Reads (.method d)) (function (n + 1) f) := by
  intro c
  refine yields_expectName_bind fun name rest h hname => ?_
  refine yields_expect_bind fun lp rest' h' hlp => ?_
  refine (took_lambda (k := fun ps body => .mk (some name) ps body)
    (P := fun d _ ts => Reads (.method d) (name :: lp :: ts)) ih
    fun ps body _ ts hts => .method hname (hts lp hlp)).mono fun d c' hd => ?_
  exact .behind h (.behind h' hd fun _ => id) fun _ => id

/-! #### Expressions -/

theorem sound_assignment :
    Scans (ReadsExpr .assignment) (assignment (n + 1)) := by
  intro c
  refine (ih.tier .disjunction c).bind fun e c₁ he => ?_
  -- What `e` stands for is known only from what follows it.
  refine Yields.mono (Q := fun y c' => Took c₁ c' fun us => ∀ ts,
    Reads (.expr (.tier .disjunction) e) ts → Reads (.expr .assignment y) (ts ++ us)) ?_ ?_
  · refine yields_branch (fun equals rest h hequals => ?_) fun _ => ?_
    · refine (ih.assignment _).bind fun value c₂ hvalue => ?_
      exact (sound_assignTo hequals hvalue).mono fun y c' hy => .behind h hy fun _ => id
    refine yields_branch (fun question rest h hquestion => ?_) fun _ => ensures_pure.2 ?_
    · exact (ih.conditional e question hquestion _).mono fun y c' hy => .behind h hy fun _ => id
    · refine Took.nothing fun ts hts => ?_
      rw [List.append_nil]
      exact .lift rfl hts
  · intro y c' hy
    refine (he.trans hy).mono ?_
    rintro _ ⟨ts, us, rfl, hts, hus⟩
    exact hus ts hts

theorem sound_commaRest (left : Expr) :
    Scans (ReadsOn .expression left) (commaRest (n + 1) left) := by
  intro c
  refine yields_branch (fun op rest h hop => ?_) fun _ => ensures_pure.2 took_end
  refine (ih.assignment _).bind fun b c₁ hb => ?_
  refine (ih.commaRest _ c₁).mono fun y c' hy => ((Took.token h).trans (hb.trans hy)).mono ?_
  rintro _ ⟨_, _, rfl, rfl, us, vs, rfl, hus, hvs⟩ ts hts
  have := hvs _ (.comma hts hop hus)
  rwa [List.append_assoc] at this

theorem sound_tierRest (t : Tier) (left : Expr) :
    Scans (ReadsOn (.tier t) left) (tierRest (n + 1) t left) := by
  intro c
  refine yields_acceptIf_bind (fun op rest h hop => ?_) fun _ => ensures_pure.2 took_end
  refine (ih.operand t _).bind fun b c₁ hb => ?_
  refine (ih.tierRest t _ c₁).mono fun y c' hy => ((Took.token h).trans (hb.trans hy)).mono ?_
  rintro _ ⟨_, _, rfl, rfl, us, vs, rfl, hus, hvs⟩ ts hts
  have := hvs _ (.operator hts hop hus)
  rwa [List.append_assoc] at this

theorem sound_unary : Scans (ReadsExpr .unary) (unary (n + 1)) := by
  intro c
  refine yields_acceptIf_bind (fun op rest h hop => ?_) fun _ => ?_
  · exact (ih.unary _).bind fun e c₁ he =>
      ensures_pure.2 (.behind h he fun ts hts => .unary hop hts)
  · refine (sound_loop (l := .call) rfl ih.primary ih.callRest c).mono fun y c' hy => ?_
    exact hy.mono fun ts hts => .lift rfl hts

theorem sound_callRest (left : Expr) :
    Scans (ReadsOn .call left) (callRest (n + 1) left) := by
  intro c
  refine yields_branch (fun lp rest h hlp => ?_) fun _ => ?_
  · refine yields_unless (Q := fun es c' => Took (c.moveTo rest) c' fun ts =>
      Reads (.arguments es) ts ∧ es.length ≤ maxArity) (fun _ => ?_) (fun _ => ?_) ?_
    · refine (ih.argumentsFrom 0 _).mono fun es c' hes => hes.mono fun ts hts => ?_
      exact ⟨hts.1, by simpa using hts.2.2⟩
    · exact Took.nothing ⟨.noArguments, Nat.zero_le _⟩
    · intro es c₁ hes
      refine yields_expect_bind fun rp rest' h' hrp => ?_
      refine (ih.callRest _ _).mono fun y c' hy =>
        ((Took.token h).trans (hes.trans ((Took.token h').trans hy))).mono ?_
      rintro _ ⟨_, _, rfl, rfl, us, _, rfl, ⟨hus, hlength⟩, _, vs, rfl, rfl, hvs⟩ ts hts
      have := hvs _ (.call hts hlp hus hlength hrp)
      simpa using this
  refine yields_branch (fun dot rest h hdot => ?_) fun _ => ensures_pure.2 took_end
  refine yields_expectName_bind fun name rest' h' hname => ?_
  refine (ih.callRest _ _).mono fun y c' hy =>
    ((Took.token h).trans ((Took.token h').trans hy)).mono ?_
  rintro _ ⟨_, _, rfl, rfl, _, us, rfl, rfl, hus⟩ ts hts
  have := hus _ (.get hts hdot hname)
  simpa using this

theorem sound_primary : Scans (ReadsExpr .primary) (primary (n + 1)) := by
  intro c
  refine ensures_bind.2 (ensures_get.2 ?_)
  cases hrest : c.rest with
  | nil => exact yields_fail
  | cons t rest =>
    -- Every arm first reads `t`; what follows is read from there.
    have hskip : ∀ {p : Parse Expr}, p.Yields (c.moveTo rest) (fun y c' => Took (c.moveTo rest) c'
        fun ts => Reads (.expr .primary y) (t :: ts)) →
        (do set (c.moveTo rest); p : Parse Expr).Yields c
          fun y c' => Took c c' (ReadsExpr .primary y c') := by
      exact fun hp => ensures_bind.2 (ensures_set.2 (Yields.mono hp fun y c' hy =>
        .behind hrest hy fun _ => id))
    have hliteral : ∀ {l}, t.literal? = some l → (pure (.literal l) : Parse Expr).Yields
        (c.moveTo rest) fun y c' => Took (c.moveTo rest) c'
          fun ts => Reads (.expr .primary y) (t :: ts) := fun hl =>
      ensures_pure.2 (Took.nothing (.literal hl))
    have hnode : ∀ {k : NodeId → Expr}, (∀ id, Reads (.expr .primary (k id)) [t]) →
        (freshNode >>= fun id => (pure (k id) : Parse Expr)).Yields (c.moveTo rest)
          fun y c' => Took (c.moveTo rest) c' fun ts => Reads (.expr .primary y) (t :: ts) :=
      fun hk => ensures_bind.2 (ensures_freshNode.2 (ensures_pure.2
        ⟨Nat.le_refl _, fun _ => ⟨[], rfl, hk _⟩⟩))
    simp only
    split
    iterate 5
      next hkind => exact hskip (hliteral (by simp [Token.literal?, hkind]))
    · next hkind => exact hskip (hnode fun id => .this (by simp [Token.is, hkind]))
    · next hkind => exact hskip (hnode fun id => .name (by simp [Token.isIdentifier, hkind]))
    · next hkind =>
      refine hskip ((ih.expression _).bind fun e c₁ he => ?_)
      refine yields_expect_bind fun rp rest' h' hrp => ensures_pure.2 ?_
      refine (he.trans (Took.token h')).mono ?_
      rintro _ ⟨ts, _, rfl, hts, rfl⟩
      exact .group (by simp [Token.is, hkind]) hts hrp
    · next hkind =>
      refine hskip (yields_expect_bind fun lp rest' h' hlp => ?_)
      exact (took_lambda (k := fun ps body => .function (.mk none ps body))
        (P := fun e _ ts => Reads (.expr .primary e) (t :: lp :: ts)) ih
        fun ps body _ ts hts => .function (by simp [Token.is, hkind]) (hts lp hlp)).mono
          fun e c' he => .behind h' he fun _ => id
    · exact yields_fail

/-! #### Statements -/

theorem sound_varDeclaration : Scans
    (fun s _ ts => ∀ kw : Token, kw.is .varKw = true → Reads (.varDecl s) (kw :: ts))
    (varDeclaration (n + 1)) := by
  intro c
  refine yields_expectName_bind fun name rest h hname => ?_
  refine Yields.bind (Q := fun i c' => Took (c.moveTo rest) c' fun ts =>
    ∀ kw semi : Token, kw.is .varKw = true → semi.is .semicolon = true →
      Reads (.varDecl (.varDecl name i)) (kw :: name :: (ts ++ [semi]))) ?_ ?_
  · refine yields_branch (fun eq rest' h' heq => ?_) fun _ => ensures_pure.2 ?_
    · exact (ih.expression _).map fun e c' he => .behind h' he fun ts hts kw semi hkw hsemi =>
        .varInit hkw hname heq hts hsemi
    · exact Took.nothing fun kw semi hkw hsemi => .varDecl hkw hname hsemi
  · intro i c₁ hi
    refine yields_expect_bind fun semi rest' h' hsemi => ensures_pure.2 ?_
    refine .behind h (hi.trans (Took.token h')) ?_
    rintro _ ⟨ts, _, rfl, hts, rfl⟩ kw hkw
    exact hts kw semi hkw hsemi

/-- An expression and a semicolon. -/
theorem took_ended {k : Expr → Stmt} {P : Stmt → Cursor → List Token → Prop}
    (hP : ∀ e c' ts semi, Reads (.expr .expression e) ts → semi.is .semicolon = true →
      P (k e) c' (ts ++ [semi])) :
    (do
      let e ← expression n
      let _ ← expect .semicolon w
      pure (k e) : Parse Stmt).Yields c fun s c' => Took c c' (P s c') := by
  refine (ih.expression c).bind fun e c₁ he => ?_
  refine yields_expect_bind fun semi rest h hsemi => ensures_pure.2 ?_
  refine (he.trans (Took.token h)).mono ?_
  rintro _ ⟨ts, _, rfl, hts, rfl⟩
  exact hP e _ ts semi hts hsemi

/-- An expression that may be missing, with the continuation that follows it. -/
theorem took_option {β : Type} {s : Symbol} {k : Option Expr → Parse β} {Q : β → Cursor → Prop}
    (hk : ∀ e c', Took c c' (Reads (.option e)) → (k e).Yields c' Q) :
    (check s >>= fun found => if found = true then pure none >>= k
      else (some <$> expression n) >>= k).Yields c Q := by
  refine yields_unless (Q := fun e c' => Took c c' (Reads (.option e))) (fun _ => ?_)
    (fun _ => Took.nothing .absent) hk
  exact (ih.expression c).map fun e c' he => he.mono fun ts hts => .present hts

theorem sound_forStatement :
    Scans (ReadsStmtBehind .forKw) (forStatement (n + 1)) := by
  intro c
  refine yields_expect_bind fun lp rest h hlp => ?_
  refine Yields.bind (Q := fun first c' => Took (c.moveTo rest) c' (Reads (.first first))) ?_
    fun first c₁ hfirst => ?_
  · refine yields_branch (fun semi rest' h' hsemi => ensures_pure.2 ?_) fun _ => ?_
    · refine (Took.token h').mono ?_
      rintro _ rfl
      exact .noFirst hsemi
    refine yields_branch (fun kw rest' h' hkw => ?_) fun _ => ?_
    · exact (ih.varDeclaration _).map fun s c' hs =>
        .behind h' hs fun ts hts => .firstVar (hts kw hkw)
    · refine (ih.expressionStatement _).map fun s c' hs => hs.mono ?_
      rintro _ ⟨e, ts, semi, rfl, rfl, hts, hsemi⟩
      exact .firstExpr hts hsemi
  refine took_option ih fun cond c₂ hcond => ?_
  refine yields_expect_bind fun semi rest' h' hsemi => ?_
  refine took_option ih fun inc c₃ hinc => ?_
  refine yields_expect_bind fun rp rest'' h'' hrp => ?_
  refine (ih.statement _).bind fun body c₄ hbody => ensures_pure.2 ?_
  refine ((Took.token h).trans <| hfirst.trans <| hcond.trans <| (Took.token h').trans <|
    hinc.trans <| (Took.token h'').trans hbody).mono ?_
  rintro _ ⟨_, _, rfl, rfl, ts, _, rfl, hts, us, _, rfl, hus, _, _, rfl, rfl, vs, _, rfl, hvs, _,
    ws, rfl, rfl, o, hws, helse⟩ kw hkw
  exact ⟨o, .forLoop hkw hlp hts hus hsemi hvs hrp hws, helse⟩

theorem sound_ifStatement :
    Scans (ReadsStmtBehind .ifKw) (ifStatement (n + 1)) := by
  intro c
  refine yields_expect_bind fun lp rest h hlp => ?_
  refine (ih.expression _).bind fun cond c₁ hcond => ?_
  refine yields_expect_bind fun rp rest' h' hrp => ?_
  refine (ih.statement _).bind fun a c₂ ha => ?_
  -- All up to the end of the first branch, for both ways to go on.
  have hhead := (Took.token h).trans (hcond.trans ((Took.token h').trans ha))
  refine Yields.bind (Q := fun b c' => Took c c' fun ts => ∀ kw : Token, kw.is .ifKw = true →
    ReadsStmt (.ifElse cond a b) c' (kw :: ts)) ?_ fun _ _ h => ensures_pure.2 h
  refine yields_branch (fun el rest'' h'' hel => ?_) fun helse => ensures_pure.2 ?_
  · refine (ih.statement _).map fun b c' hb => (hhead.trans ((Took.token h'').trans hb)).mono ?_
    rintro _ ⟨_, _, rfl, ⟨_, _, rfl, rfl, ts, _, rfl, hts, _, us, rfl, rfl, o, hus, helse⟩, _, vs,
      rfl, rfl, o', hvs, helse'⟩ kw hkw
    -- The `else` was there to be read, so the statement before it is closed.
    have ho : o = false := by
      cases o with
      | false => rfl
      | true =>
        have hno := helse rfl
        simp [Cursor.at, h'', hel] at hno
    refine ⟨o', ?_, helse'⟩
    have := Reads.ifElse hkw hlp hts hrp (ho ▸ hus) hel hvs
    simpa using this
  · refine hhead.mono ?_
    rintro _ ⟨_, _, rfl, rfl, ts, _, rfl, hts, _, us, rfl, rfl, o, hus, -⟩ kw hkw
    exact ⟨true, .ifThen hkw hlp hts hrp hus, fun _ => helse⟩

theorem sound_statement : Scans ReadsStmt (statement (n + 1)) := by
  intro c
  -- A statement behind its keyword.
  have hbehind : ∀ {s : Symbol} {p : Parse Stmt} {t rest}, c.rest = t :: rest → t.is s = true →
      Scans (ReadsStmtBehind s) p →
      p.Yields (c.moveTo rest) fun y c' => Took c c' (ReadsStmt y c') := by
    intro s p t rest h ht hp
    exact (hp _).mono fun y c' hy => .behind h hy fun ts hts => hts t ht
  refine yields_branch (fun t rest h ht => hbehind h ht ih.forStatement) fun _ => ?_
  refine yields_branch (fun t rest h ht => hbehind h ht ih.ifStatement) fun _ => ?_
  refine yields_branch (fun t rest h ht => hbehind h ht ih.whileStatement) fun _ => ?_
  refine yields_branch (fun t rest h ht => ?_) fun _ => ?_
  · exact (ih.returnStatement t ht _).mono fun y c' hy => .behind h hy fun _ => id
  refine yields_branch (fun lb rest h hlb => ?_) fun _ => ?_
  · refine (ih.block _).map fun body c' hbody => .behind h hbody ?_
    rintro _ ⟨ts, _, rfl, hts, rb, rfl, hrb⟩
    exact readsStmt_of_closed (.block hlb hts hrb)
  refine yields_branch (fun t rest h ht => hbehind h ht ih.printStatement) fun _ => ?_
  refine (ih.expressionStatement c).mono fun s c' hs => hs.mono ?_
  rintro _ ⟨e, ts, semi, rfl, rfl, hts, hsemi⟩
  exact readsStmt_of_closed (.exprStmt hts hsemi)

/-! #### Declarations -/

theorem sound_declarationOrStatement :
    Scans (fun s _ => Reads (.decl s)) (declarationOrStatement (n + 1)) := by
  intro c
  refine yields_branch (fun kw rest h hkw => ?_) fun _ => ?_
  · exact (ih.classDeclaration _).mono fun s c' hs => .behind h hs fun ts hts => hts kw hkw
  refine ensures_bind.2 (ensures_get.2 (Yields.ite (fun hnamed => ?_) fun _ => ?_))
  · refine yields_acceptIf_bind (fun kw rest h hkw => ?_) fun hlacks => ?_
    · exact (ih.function .function _).bind fun f c' hf =>
        ensures_pure.2 (.behind h hf fun ts hts => .declFun hkw hts)
    · -- The keyword is there to be read.
      unfold Cursor.atNamedFunction at hnamed
      split at hnamed
      · next t name rest hrest =>
        have hkw := (Bool.and_eq_true_iff.1 hnamed).1
        exact absurd hkw (by simp [hlacks t (name :: rest) hrest])
      · exact absurd hnamed Bool.false_ne_true
  refine yields_branch (fun kw rest h hkw => ?_) fun _ => ?_
  · exact (ih.varDeclaration _).mono fun s c' hs =>
      .behind h hs fun ts hts => .declVar (hts kw hkw)
  · refine (ih.statement c).mono fun s c' hs => hs.mono ?_
    rintro ts ⟨o, hts, -⟩
    exact .declStmt hts

/-- An error is reported, so there is nothing to show where a declaration was dropped. -/
theorem sound_declaration :
    Scans (fun s _ ts => ∃ s', s = some s' ∧ Reads (.decl s') ts) (declaration (n + 1)) := by
  intro c
  refine ensures_declaration.2 ?_
  refine (Ensures.and (ih.declarationOrStatement c)
    (leads_declarationOrStatement n c)).mono (fun s c' h => ?_) fun h c' hc' => ?_
  · exact h.1.mono fun ts hts => ⟨s, rfl, hts⟩
  · cases h with
    | outOfFuel => trivial
    | error e =>
      exact Took.reported (Nat.lt_of_le_of_lt hc'.2.report (by simp [Report.size, Report.add]))

/-- A declaration and those behind it. -/
theorem took_declarations {p : Parse (List Stmt)} (hp : Scans (fun ss _ => Reads (.decls ss)) p) :
    (do
      let first ← declaration n
      let rest ← p
      pure (first.toList ++ rest) : Parse (List Stmt)).Yields c
        fun ss c' => Took c c' (Reads (.decls ss)) := by
  refine (ih.declaration c).bind fun s c₁ hs => ?_
  refine (hp c₁).bind fun ss c₂ hss => ensures_pure.2 ((hs.trans hss).mono ?_)
  rintro _ ⟨ts, us, rfl, ⟨s', rfl, hts⟩, hus⟩
  exact .moreDecls hts hus

end

/-- **Soundness.** Every rule that reports nothing takes the tokens of the tree it yields. -/
theorem sound (n : Nat) : AllSound n := by
  induction n with
  | zero => constructor <;> intros <;> exact fun _ => yields_throw
  | succ n ih =>
    constructor
    case declaration => exact sound_declaration ih
    case declarationOrStatement => exact sound_declarationOrStatement ih
    case classDeclaration =>
      intro c
      refine yields_expectName_bind fun name rest h hname => ?_
      refine yields_expect_bind fun lb rest' h' hlb => ?_
      refine (ih.methods _).bind fun fs c₁ hfs => ?_
      refine yields_expect_bind fun rb rest'' h'' hrb => ensures_pure.2 ?_
      refine .behind h ((Took.token h').trans (hfs.trans (Took.token h''))) ?_
      rintro _ ⟨_, _, rfl, rfl, ts, _, rfl, hts, rfl⟩ kw hkw
      exact .declClass hkw hname hlb hts hrb
    case methods =>
      intro c
      refine ensures_bind.2 (ensures_check.2 (ensures_bind.2 (ensures_atEnd.2 ?_)))
      refine Yields.ite (fun _ => Took.nothing .noMethods) fun _ => ?_
      refine (ih.function .method c).bind fun f c₁ hf => ?_
      refine (ih.methods c₁).bind fun fs c₂ hfs => ensures_pure.2 ((hf.trans hfs).mono ?_)
      rintro _ ⟨ts, us, rfl, hts, hus⟩
      exact .moreMethods hts hus
    case function => exact sound_function ih
    case varDeclaration => exact sound_varDeclaration ih
    case statement => exact sound_statement ih
    case printStatement =>
      exact fun c => took_ended ih fun e _ ts semi hts hsemi kw hkw =>
        readsStmt_of_closed (.print hkw hts hsemi)
    case expressionStatement =>
      exact fun c => took_ended ih fun e _ ts semi hts hsemi => ⟨e, ts, semi, rfl, rfl, hts, hsemi⟩
    case forStatement => exact sound_forStatement ih
    case ifStatement => exact sound_ifStatement ih
    case whileStatement =>
      intro c
      refine yields_expect_bind fun lp rest h hlp => ?_
      refine (ih.expression _).bind fun cond c₁ hcond => ?_
      refine yields_expect_bind fun rp rest' h' hrp => ?_
      refine (ih.statement _).bind fun a c₂ ha => ensures_pure.2 ?_
      refine .behind h (hcond.trans ((Took.token h').trans ha)) ?_
      rintro _ ⟨ts, _, rfl, hts, _, us, rfl, rfl, o, hus, helse⟩ kw hkw
      exact ⟨o, .whileLoop hkw hlp hts hrp hus, helse⟩
    case returnStatement =>
      intro kw hkw c
      refine took_option ih fun e c₁ he => ?_
      refine yields_expect_bind fun semi rest h hsemi => ensures_pure.2 ?_
      refine (he.trans (Took.token h)).mono ?_
      rintro _ ⟨ts, _, rfl, hts, rfl⟩
      exact readsStmt_of_closed (.ret hkw hts hsemi)
    case block =>
      intro c
      refine (ih.declarations c).bind fun body c₁ hbody => ?_
      refine yields_expect_bind fun rb rest h hrb => ensures_pure.2 (hbody.trans ?_)
      exact (Took.token h).mono fun _ hts => ⟨rb, hts, hrb⟩
    case declarations =>
      intro c
      refine ensures_bind.2 (ensures_check.2 (ensures_bind.2 (ensures_atEnd.2 ?_)))
      refine Yields.ite (fun _ => Took.nothing .noDecls) fun _ => ?_
      exact took_declarations ih ih.declarations
    case expression => exact sound_loop rfl ih.assignment ih.commaRest
    case commaRest => exact sound_commaRest ih
    case assignment => exact sound_assignment ih
    case conditional =>
      intro e q hq c
      refine (ih.assignment c).bind fun a c₁ ha => ?_
      refine yields_expect_bind fun colon rest h hcolon => ?_
      refine (ih.assignment _).bind fun b c₂ hb => ensures_pure.2 ?_
      refine (ha.trans ((Took.token h).trans hb)).mono ?_
      rintro _ ⟨us, _, rfl, hus, _, vs, rfl, rfl, hvs⟩ ts hts
      exact .conditional hts hq hus hcolon hvs
    case tier => exact fun t => sound_loop rfl (ih.operand t) (ih.tierRest t)
    case tierRest => exact sound_tierRest ih
    case operand =>
      intro t
      cases t with
      | factor => exact ih.unary
      | disjunction | conjunction | equality | comparison | term => exact ih.tier _
    case unary => exact sound_unary ih
    case callRest => exact sound_callRest ih
    case argumentsFrom => exact sound_argumentsFrom ih
    case primary => exact sound_primary ih

/-- The whole list is read. -/
theorem sound_program (n : Nat) (c : Cursor) : (program n).Yields c fun ss c' =>
    Took c c' (Reads (.decls ss)) ∧ c'.rest = [] := by
  induction n generalizing c with
  | zero => exact yields_throw
  | succ n ih =>
    rw [program]
    refine ensures_bind.2 (ensures_atEnd.2 (Yields.ite (fun hend => ?_) fun _ => ?_))
    · exact ⟨Took.nothing .noDecls, List.isEmpty_iff.1 hend⟩
    -- The tokens and the end of the list are followed apart from each other.
    refine Yields.and (took_declarations (sound n) fun c₁ => (ih c₁).mono fun _ _ h => h.1) ?_
    exact yields_bind fun s c₁ => (ih c₁).bind fun ss c₂ h => h.2

end Rule

/-! ### Whole token lists -/

theorem Report.eq_empty {r : Report} (h : r.size = 0) : r = .empty := by
  obtain ⟨errors⟩ := r
  exact congrArg Report.mk (Array.eq_empty_of_size_eq_zero h)

/-- Reading a token list takes nothing out of the report. -/
theorem Program.size_le_parse (tokens : List Token) (nextNode : NodeId) (report : Report) :
    report.size ≤ (parse tokens nextNode report).report.size := by
  obtain ⟨statements, c, hrun, hparse⟩ := run_program tokens nextNode report
  have hsound := (Rule.sound_program (fuel tokens.length) _).of_run hrun
  rw [hparse]
  exact hsound.1.le

/-- A token list about which nothing is reported stands for the statements it yields. -/
theorem Program.reads_parse {tokens : List Token} {nextNode : NodeId} {report : Report}
    (h : (parse tokens nextNode report).report = report) :
    Reads (.decls (parse tokens nextNode report).statements)
      (tokens.takeWhile (!·.isEof)) := by
  obtain ⟨statements, c, hrun, hparse⟩ := run_program tokens nextNode report
  have hsound := (Rule.sound_program (fuel tokens.length) _).of_run hrun
  rw [hparse] at h ⊢
  -- Reports only grow, so one that ends as it began has not changed in between.
  obtain ⟨ts, hts, hreads⟩ := hsound.1.tokens (congrArg Report.size h)
  have hall : tokens.takeWhile (!·.isEof) = ts := by
    rw [hsound.2, List.append_nil] at hts
    exact hts
  rw [hall]
  exact hreads

end Scriptlet
