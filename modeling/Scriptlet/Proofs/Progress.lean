import Mathlib.Data.List.Infix
import Scriptlet.Proofs.Parse

namespace Scriptlet

/-!
# Progress of the reading

Rules only move forward, the bound on their nesting is never reached, and a higher bound changes
nothing.

* `Cursor.Leads` — tokens are taken from the front only, the end token stays, node numbers and
  reports only grow.
* `Parse.Advances` — the contract of a rule: how it moves the cursor, whether it takes a token, how
  high a bound it needs, and that the rule with a higher bound ends in the same way.
* `Rule.advances` — every rule keeps its contract, by one induction on the bound.
* `Program.run_program` — with a bound of `Program.fuel`, no list of tokens makes the reading stop
  for lack of it.
-/

/-! ### Moving forward -/

/-- A later cursor of the same reading. -/
structure Cursor.Leads (c c' : Cursor) : Prop where
  rest : c'.rest <:+ c.rest
  stop : c'.stop = c.stop
  nextNode : c.nextNode ≤ c'.nextNode
  report : c.report.size ≤ c'.report.size

namespace Cursor.Leads

variable {c c' c'' : Cursor}

theorem refl (c : Cursor) : c.Leads c :=
  ⟨List.suffix_rfl, rfl, Nat.le_refl _, Nat.le_refl _⟩

theorem trans (h : c.Leads c') (h' : c'.Leads c'') : c.Leads c'' :=
  ⟨h'.rest.trans h.rest, h'.stop.trans h.stop, h.nextNode.trans h'.nextNode,
    h.report.trans h'.report⟩

/-- There are never more tokens left than before. -/
theorem length_le (h : c.Leads c') : c'.rest.length ≤ c.rest.length := h.rest.length_le

/-- Reading a token moves forward. -/
theorem cons {t : Token} {rest : List Token} (h : c.rest = t :: rest) : c.Leads (c.moveTo rest) :=
  ⟨by rw [h]; exact List.suffix_cons t rest, rfl, Nat.le_refl _, Nat.le_refl _⟩

/-- Reporting an error moves forward. -/
theorem add (c : Cursor) (e : Error) : c.Leads { c with report := c.report.add e } :=
  ⟨List.suffix_rfl, rfl, Nat.le_refl _, by simp [Report.size, Report.add]⟩

end Cursor.Leads

/-- Whatever is skipped after an error is skipped at the front. -/
theorem resumeAfter_suffix (t : Token) (ts : List Token) : resumeAfter t ts <:+ ts := by
  induction ts generalizing t with
  | nil => exact List.suffix_rfl
  | cons t' ts ih =>
    rw [resumeAfter]
    split
    · exact List.suffix_rfl
    · exact (ih t').trans (List.suffix_cons t' ts)

/-- `synchronize` skips at the front, too. -/
theorem synchronize_suffix (ts : List Token) : synchronize ts <:+ ts := by
  cases ts with
  | nil => exact List.suffix_rfl
  | cons t ts => exact (resumeAfter_suffix t ts).trans (List.suffix_cons t ts)

/-- After an error at least one token is skipped. -/
theorem length_synchronize_lt {ts : List Token} (h : ts ≠ []) :
    (synchronize ts).length < ts.length := by
  cases ts with
  | nil => exact absurd rfl h
  | cons t ts =>
    have := (resumeAfter_suffix t ts).length_le
    rw [synchronize, List.length_cons]
    omega

namespace Parse

variable {α β : Type} {p p' q q' : Parse α} {c : Cursor} {a b : Bool} {bound need need' : Nat}

/-- What the rule `p` does from the cursor `c`, beside a rule `p'` with a higher bound. It moves
    forward, with `takes` over a token at least, unless it yields no tree. It does not run out of
    its bound if that is `need` more than 24 for each token. Unless it does, `p'` ends like `p`. -/
def AdvancesFrom (c : Cursor) (takes : Bool) (bound need : Nat) (p p' : Parse α) : Prop :=
  p.Ensures c
    (fun x c' => c.Leads c' ∧ (takes = true → c'.rest.length < c.rest.length) ∧
      p'.run c = (.ok x, c'))
    (fun h c' => c.Leads c' ∧ (24 * c.rest.length + need ≤ bound → h ≠ .outOfFuel) ∧
      (h = .outOfFuel ∨ p'.run c = (.error h, c')))

/-- The contract of a rule: `AdvancesFrom` from every cursor. -/
def Advances (takes : Bool) (bound need : Nat) (p p' : Parse α) : Prop :=
  ∀ c, AdvancesFrom c takes bound need p p'

/-- Whatever a rule does, it moves forward. -/
theorem AdvancesFrom.leads (h : AdvancesFrom c a bound need p p') :
    p.Ensures c (fun _ c' => c.Leads c') fun _ c' => c.Leads c' :=
  Ensures.mono h (fun _ _ h => h.1) fun _ _ h => h.1

/-- A contract may promise less. -/
theorem AdvancesFrom.weaken {bound' : Nat} (h : AdvancesFrom c a bound need p p')
    (hb : b = true → a = true) (hneed : need + bound' ≤ need' + bound) :
    AdvancesFrom c b bound' need' p p' := by
  refine Ensures.mono h (fun x c' h => ?_) fun e c' h => ?_
  · exact ⟨h.1, fun htakes => h.2.1 (hb htakes), h.2.2⟩
  · exact ⟨h.1, fun hbound => h.2.1 (by omega), h.2.2⟩

/-- The contract of a rule with a bound of one more, which counts the call of the rule itself. -/
theorem AdvancesFrom.call (h : AdvancesFrom c a bound need p p')
    (hless : (b = true → a = true) ∧ need + 1 ≤ need') :
    AdvancesFrom c b (bound + 1) need' p p' :=
  h.weaken hless.1 (by omega)

/-- `AdvancesFrom.call`, from every cursor. -/
theorem Advances.call (h : Advances a bound need p p')
    (hless : (b = true → a = true) ∧ need + 1 ≤ need') : Advances b (bound + 1) need' p p' :=
  fun c => (h c).call hless

/-! #### Building blocks -/

/-- What is behind a bound of zero promises nothing that it would have to keep. -/
theorem advances_outOfFuel (hneed : bound < need) :
    Advances a bound need (throw .outOfFuel) p' :=
  fun c => ⟨.refl c, fun h => by omega, .inl rfl⟩

/-- The building blocks: what takes no token needs no bound. -/
theorem advances_pure (x : α) : Advances false bound 0 (pure x) (pure x) :=
  fun c => ⟨.refl c, nofun, rfl⟩

theorem advances_get : Advances false bound 0 (get : Parse Cursor) get :=
  fun c => ⟨.refl c, nofun, rfl⟩

/-- A rule that looks at its cursor first. -/
theorem advancesFrom_get_bind {f f' : Cursor → Parse α}
    (h : AdvancesFrom c a bound need (f c) (f' c)) :
    AdvancesFrom c a bound need (get >>= f) (get >>= f') := h

theorem advances_atEnd : Advances false bound 0 atEnd atEnd := fun c => ⟨.refl c, nofun, rfl⟩

theorem advances_check (s : Symbol) : Advances false bound 0 (check s) (check s) :=
  fun c => ⟨.refl c, nofun, rfl⟩

theorem advances_report (e : Error) : Advances false bound 0 (report e) (report e) :=
  fun c => ⟨.add c e, nofun, rfl⟩

theorem advances_reportHere (fault : GrammarFault) :
    Advances false bound 0 (reportHere fault) (reportHere fault) :=
  fun c => ⟨.add c _, nofun, rfl⟩

theorem advances_freshNode : Advances false bound 0 freshNode freshNode :=
  fun _ => ⟨⟨List.suffix_rfl, rfl, Nat.le_succ _, Nat.le_refl _⟩, nofun, rfl⟩

/-- No tree is yielded, so a token may be promised. -/
theorem advances_fail (what : Expected) : Advances true bound 0 (fail what : Parse α) (fail what) :=
  fun c => ⟨.refl c, nofun, .inr rfl⟩

/-- A sequence takes a token if one of its parts does. Behind a part that does, the other one has
    a token less to deal with. -/
theorem AdvancesFrom.bind {f f' : α → Parse β} (hp : AdvancesFrom c a bound need p p')
    (hf : ∀ x, Advances b bound need' (f x) (f' x)) :
    AdvancesFrom c (a || b) bound (max need (need' - if a then 24 else 0)) (p >>= f)
      (p' >>= f') := by
  unfold AdvancesFrom
  rw [ensures_bind]
  refine Ensures.mono hp (fun x c₁ h => ?_) fun e c₁ h => ?_
  · obtain ⟨hleads, htakes, hrun⟩ := h
    have hlength := hleads.length_le
    refine Ensures.mono (hf x c₁) (fun y c₂ h' => ⟨hleads.trans h'.1, fun hab => ?_, ?_⟩)
      fun e c₂ h' => ⟨hleads.trans h'.1, fun hbound => h'.2.1 ?_, h'.2.2.imp_right fun hrun' => ?_⟩
    · have hlength' := h'.1.length_le
      cases a with
      | true => exact hlength'.trans_lt (htakes rfl)
      | false => exact (h'.2.1 hab).trans_le hlength
    · rw [run_bind, hrun]
      exact h'.2.2
    · cases a with
      | true =>
        have := htakes rfl
        simp only [if_true] at hbound
        omega
      | false =>
        simp only [Bool.false_eq_true, if_false] at hbound
        omega
    · rw [run_bind, hrun]
      exact hrun'
  · refine ⟨h.1, fun hbound => h.2.1 (by omega), h.2.2.imp_right fun hrun => ?_⟩
    rw [run_bind, hrun]

/-- `AdvancesFrom.bind`, from every cursor. -/
theorem Advances.bind {f f' : α → Parse β} (hp : Advances a bound need p p')
    (hf : ∀ x, Advances b bound need' (f x) (f' x)) :
    Advances (a || b) bound (max need (need' - if a then 24 else 0)) (p >>= f) (p' >>= f') :=
  fun c => (hp c).bind hf

theorem Advances.map {f : α → β} (hp : Advances a bound need p p') :
    Advances (a || false) bound (max need (0 - if a then 24 else 0)) (f <$> p) (f <$> p') := by
  rw [map_eq_pure_bind, map_eq_pure_bind]
  exact hp.bind fun x => advances_pure _

/-- A choice promises what both ways do, and needs what one of them does. -/
theorem Advances.ite {d : Prop} [Decidable d] (hp : Advances a bound need p p')
    (hq : Advances b bound need' q q') :
    Advances (a && b) bound (max need need') (if d then p else q) (if d then p' else q') := by
  intro c
  split
  · exact (hp c).weaken (fun hab => (Bool.and_eq_true_iff.1 hab).1) (by omega)
  · exact (hq c).weaken (fun hab => (Bool.and_eq_true_iff.1 hab).2) (by omega)

/-- Two ways to the same continuation. -/
theorem Advances.join {d : Prop} [Decidable d] {e : Bool} {k k' : α → Parse β} {rest : Nat}
    (hp : Advances a bound need p p') (hq : Advances b bound need' q q')
    (hk : ∀ x, Advances e bound rest (k x) (k' x)) :
    Advances ((a || e) && (b || e)) bound
      (max (max need (rest - if a then 24 else 0)) (max need' (rest - if b then 24 else 0)))
      (if d then p >>= k else q >>= k) (if d then p' >>= k' else q' >>= k') :=
  (hp.bind hk).ite (hq.bind hk)

/-- The next token is taken, and then the rule goes on. -/
theorem Advances.behind {t : Token} {rest : List Token} (h : c.rest = t :: rest)
    (hp : Advances a bound need p p') :
    AdvancesFrom c true bound (need - 24) (do set (c.moveTo rest); p)
      (do set (c.moveTo rest); p') := by
  unfold AdvancesFrom
  rw [ensures_bind, ensures_set]
  have hlength : c.rest.length = rest.length + 1 := by rw [h, List.length_cons]
  refine Ensures.mono (hp (c.moveTo rest)) (fun x c' h' => ?_) fun e c' h' => ?_
  · have hle : c'.rest.length ≤ rest.length := h'.1.length_le
    exact ⟨(Cursor.Leads.cons h).trans h'.1, fun _ => by omega, h'.2.2⟩
  · refine ⟨(Cursor.Leads.cons h).trans h'.1, fun hbound => h'.2.1 ?_, h'.2.2⟩
    rw [Cursor.rest_moveTo]
    omega

/-- A token is taken and the cursor moves behind it, or nothing happens. -/
theorem run_acceptIf (r : Token → Bool) (c : Cursor) :
    (acceptIf r).run c = (.ok none, c) ∨
      ∃ t rest, c.rest = t :: rest ∧ (acceptIf r).run c = (.ok (some t), c.moveTo rest) := by
  have h : (acceptIf r).Ensures c (fun x c' => x = none ∧ c' = c ∨
      ∃ t rest, c.rest = t :: rest ∧ x = some t ∧ c' = c.moveTo rest) fun _ _ => False :=
    ensures_acceptIf.2 ⟨fun t rest h _ => .inr ⟨t, rest, h, rfl, rfl⟩, fun _ => .inl ⟨rfl, rfl⟩⟩
  unfold Ensures at h
  split at h
  · next hrun =>
    obtain ⟨rfl, rfl⟩ | ⟨t, rest, hrest, rfl, rfl⟩ := h
    · exact .inl hrun
    · exact .inr ⟨t, rest, hrest, hrun⟩
  · exact h.elim

/-- Where a token is taken there is one less to deal with, so 24 less are needed. -/
theorem advances_acceptIf_bind {r : Token → Bool} {f f' : Option Token → Parse α}
    (hsome : ∀ t, Advances a bound need (f (some t)) (f' (some t)))
    (hnone : Advances b bound need' (f none) (f' none)) :
    Advances b bound (max (need - 24) need') (acceptIf r >>= f) (acceptIf r >>= f') := by
  intro c
  unfold AdvancesFrom Ensures
  obtain hrun | ⟨t, rest, hrest, hrun⟩ := run_acceptIf r c
  · simp only [run_bind, hrun]
    exact (hnone c).weaken id (by omega)
  · simp only [run_bind, hrun]
    exact ((hsome t).behind hrest).weaken (fun _ => rfl) (by omega)

/-- A branch promises what it does without the symbol. -/
theorem Advances.branch {s : Symbol} {found found' : Token → Parse α}
    (hfound : ∀ t, Advances a bound need (found t) (found' t))
    (hother : Advances b bound need' p p') :
    Advances b bound (max (need - 24) need') (branch s found p) (branch s found' p') :=
  advances_acceptIf_bind hfound hother

/-- `expect` takes the symbol or fails. -/
theorem advances_expect (s : Symbol) (what : Expected) :
    Advances true bound 0 (expect s what) (expect s what) := by
  show Advances true bound (max (0 - 24) 0) _ _
  exact Advances.branch (fun t => advances_pure t) (advances_fail what)

/-- `expectName` takes a name or fails. -/
theorem advances_expectName (what : Expected) :
    Advances true bound 0 (expectName what) (expectName what) := by
  show Advances true bound (max (0 - 24) 0) _ _
  exact advances_acceptIf_bind (fun t => advances_pure t) (advances_fail what)

end Parse

/-! ### Every rule -/

namespace Rule

open Parse

/-- By its own induction, for `parametersFrom` is not part of the mutual block. -/
theorem advances_parametersFrom {n m : Nat} (h : n ≤ m) (count : Nat) :
    Advances true (n + 1) 2 (parametersFrom n count) (parametersFrom m count) := by
  induction n generalizing m count with
  | zero => exact advances_outOfFuel (by decide)
  | succ n ih =>
    obtain ⟨m, rfl⟩ := Nat.exists_eq_add_of_le' (Nat.one_le_of_lt h)
    rw [parametersFrom, parametersFrom]
    have hname : Advances true (n + 1) 0 (expectName .paramName) _ := advances_expectName _
    have hrest := hname.bind fun param =>
      ((Advances.branch (s := .comma) (fun _ => ih (Nat.le_of_succ_le_succ h) (count + 1))
        (advances_pure [])).bind fun rest => advances_pure (param :: rest))
    exact (((advances_reportHere _).bind fun _ => hrest).ite hrest).call (by decide)

theorem advances_parameters {n m : Nat} (h : n ≤ m) :
    Advances true (n + 1) 2 (parameters n) (parameters m) :=
  (advances_check _).bind fun _ => (advances_pure _).join (advances_parametersFrom h 0) fun _ =>
    (advances_expect _ _).bind fun _ => advances_pure _

/-- `assignTo` reads nothing. -/
theorem advances_assignTo (target : Expr) (equals : Token) (value : Expr) (bound : Nat) :
    Advances false bound 0 (assignTo target equals value) (assignTo target equals value) := by
  unfold assignTo
  split
  · exact advances_freshNode.bind fun _ => advances_pure _
  · exact advances_pure _
  · exact (advances_report _).bind fun _ => advances_pure _

/-- How many rules a tier calls, one inside the other, before a token is read. -/
def tierNeed : Tier → Nat
  | .factor => 4
  | .term => 6
  | .comparison => 8
  | .equality => 10
  | .conjunction => 12
  | .disjunction => 14

/-- The contracts of all rules with the bound `n`, beside those with the bound `m`. What a rule
    needs is enough for the calls of rules, this one included, before the next token is read. -/
structure AllAdvance (n m : Nat) : Prop where
  parameters : Advances true (n + 1) 2 (parameters n) (parameters m)
  /-- Unless all tokens are read, a declaration takes one, also if it is dropped. -/
  declaration : ∀ c takes, (takes = true → c.rest ≠ []) →
    AdvancesFrom c takes (n + 1) 21 (declaration n) (declaration m)
  declarationOrStatement :
    Advances true (n + 1) 20 (declarationOrStatement n) (declarationOrStatement m)
  classDeclaration : Advances true (n + 1) 2 (classDeclaration n) (classDeclaration m)
  methods : Advances false (n + 1) 3 (methods n) (methods m)
  function : ∀ f, Advances true (n + 1) 2 (function n f) (function m f)
  varDeclaration : Advances true (n + 1) 2 (varDeclaration n) (varDeclaration m)
  statement : Advances true (n + 1) 19 (statement n) (statement m)
  printStatement : Advances true (n + 1) 18 (printStatement n) (printStatement m)
  expressionStatement : Advances true (n + 1) 18 (expressionStatement n) (expressionStatement m)
  forStatement : Advances true (n + 1) 2 (forStatement n) (forStatement m)
  ifStatement : Advances true (n + 1) 2 (ifStatement n) (ifStatement m)
  whileStatement : Advances true (n + 1) 2 (whileStatement n) (whileStatement m)
  returnStatement : ∀ t, Advances true (n + 1) 18 (returnStatement n t) (returnStatement m t)
  block : Advances true (n + 1) 23 (block n) (block m)
  declarations : Advances false (n + 1) 22 (declarations n) (declarations m)
  expression : Advances true (n + 1) 17 (expression n) (expression m)
  commaRest : ∀ e, Advances false (n + 1) 2 (commaRest n e) (commaRest m e)
  assignment : Advances true (n + 1) 16 (assignment n) (assignment m)
  conditional : ∀ e t, Advances true (n + 1) 17 (conditional n e t) (conditional m e t)
  tier : ∀ t, Advances true (n + 1) (tierNeed t + 1) (tier n t) (tier m t)
  tierRest : ∀ t e, Advances false (n + 1) 2 (tierRest n t e) (tierRest m t e)
  operand : ∀ t, Advances true (n + 1) (tierNeed t) (operand n t) (operand m t)
  unary : Advances true (n + 1) 3 (unary n) (unary m)
  callRest : ∀ e, Advances false (n + 1) 2 (callRest n e) (callRest m e)
  argumentsFrom : ∀ count, Advances true (n + 1) 17 (argumentsFrom n count) (argumentsFrom m count)
  primary : Advances true (n + 1) 2 (primary n) (primary m)

/-- A bound of zero is less than what any rule needs. -/
theorem allAdvance_zero (m : Nat) : AllAdvance 0 m := by
  constructor
  case parameters => exact advances_parameters (Nat.zero_le m)
  case tier => exact fun t => advances_outOfFuel (by cases t <;> decide)
  case operand => exact fun t => advances_outOfFuel (by cases t <;> decide)
  case declaration => exact fun c _ _ => advances_outOfFuel (by decide) c
  all_goals intros; exact advances_outOfFuel (by decide)

variable {n m : Nat}

section

variable (ih : AllAdvance n m)

include ih

/-- A declaration goes on after an error, and skips a token at least. -/
theorem advances_declaration {c : Cursor} {takes : Bool} (hc : takes = true → c.rest ≠ []) :
    AdvancesFrom c takes (n + 2) 21 (declaration (n + 1)) (declaration (m + 1)) := by
  unfold AdvancesFrom
  rw [ensures_declaration]
  refine Ensures.mono (ih.declarationOrStatement c) (fun s c' h => ?_) fun h c' hc' => ?_
  · refine ⟨h.1, fun _ => h.2.1 rfl, ?_⟩
    rw [run_declaration, h.2.2]
  · obtain ⟨hleads, hbound, hrun⟩ := hc'
    cases h with
    | outOfFuel => exact ⟨hleads, fun h => absurd rfl (hbound (by omega)), .inl rfl⟩
    -- The error is reported, and then tokens are skipped.
    | error e =>
      refine ⟨(hleads.trans (.add c' e)).trans ⟨synchronize_suffix c'.rest, rfl, Nat.le_refl _,
        Nat.le_refl _⟩, fun htakes => ?_, ?_⟩
      · show (synchronize c'.rest).length < c.rest.length
        -- At the end of the list nothing can be skipped, but then all of it was taken before.
        by_cases hempty : c'.rest = []
        · rw [hempty]
          exact List.length_pos_iff.2 (hc htakes)
        · exact (length_synchronize_lt hempty).trans_le hleads.length_le
      · rw [run_declaration, hrun.resolve_left nofun]

/-- Where a function has a name, its keyword is there to be taken. -/
theorem advances_declarationOrStatement :
    Advances true (n + 2) 20 (declarationOrStatement (n + 1)) (declarationOrStatement (m + 1)) := by
  rw [declarationOrStatement, declarationOrStatement]
  have hfunction := (ih.function .function).bind fun f => advances_pure (Stmt.funDecl f)
  exact (Advances.branch (fun _ => ih.classDeclaration) <| advances_get.bind fun c =>
    (advances_acceptIf_bind (fun _ => hfunction) hfunction).ite <|
      Advances.branch (fun _ => ih.varDeclaration) ih.statement).call (by decide)

/-- A loop of declarations: each takes a token, so the loop goes on with fewer. -/
theorem advancesFrom_declarations {p p' : Parse (List Stmt)} (hp : Advances false (n + 1) 22 p p')
    {c : Cursor} (hc : c.rest ≠ []) :
    AdvancesFrom c false (n + 1) 21
      (do let first ← declaration n; let rest ← p; pure (first.toList ++ rest))
      (do let first ← declaration m; let rest ← p'; pure (first.toList ++ rest)) :=
  ((ih.declaration c true fun _ => hc).bind fun _ => hp.bind fun _ => advances_pure _).weaken
    (by decide) (Nat.add_le_add_right (by decide) _)

/-- Declarations in a block end at the brace or with the tokens. -/
theorem advances_declarations :
    Advances false (n + 2) 22 (declarations (n + 1)) (declarations (m + 1)) := by
  intro c
  rw [declarations, declarations]
  show AdvancesFrom c false (n + 2) 22
    (if (c.at .rightBrace || c.rest.isEmpty) = true then _ else _)
    (if (c.at .rightBrace || c.rest.isEmpty) = true then _ else _)
  split
  · exact (advances_pure _ c).call (by decide)
  · next hmore =>
    refine (advancesFrom_declarations ih ih.declarations fun hnil => ?_).call (by decide)
    rw [hnil] at hmore
    simp at hmore

theorem advances_forStatement :
    Advances true (n + 2) 2 (forStatement (n + 1)) (forStatement (m + 1)) := by
  rw [forStatement, forStatement]
  have hfirst := Advances.branch (s := .semicolon) (fun _ => advances_pure none) <|
    Advances.branch (s := .varKw) (fun _ => ih.varDeclaration.map (f := some)) <|
      ih.expressionStatement.map (f := some)
  exact ((advances_expect _ _).bind fun _ => hfirst.bind fun _ => (advances_check _).bind fun _ =>
    (advances_pure _).join ih.expression.map fun _ => (advances_expect _ _).bind fun _ =>
      (advances_check _).bind fun _ => (advances_pure _).join ih.expression.map fun _ =>
        (advances_expect _ _).bind fun _ => ih.statement.bind fun _ =>
          advances_pure _).call (by decide)

theorem advances_argumentsFrom (count : Nat) :
    Advances true (n + 2) 17 (argumentsFrom (n + 1) count) (argumentsFrom (m + 1) count) := by
  rw [argumentsFrom, argumentsFrom]
  have hrest := ih.assignment.bind fun argument =>
    (Advances.branch (s := .comma) (fun _ => ih.argumentsFrom (count + 1))
      (advances_pure [])).bind fun rest => advances_pure (argument :: rest)
  exact (((advances_reportHere _).bind fun _ => hrest).ite hrest).call (by decide)

theorem advances_callRest (e : Expr) :
    Advances false (n + 2) 2 (callRest (n + 1) e) (callRest (m + 1) e) := by
  rw [callRest, callRest]
  exact (Advances.branch (fun _ => (advances_check _).bind fun _ =>
    (advances_pure _).join (ih.argumentsFrom 0) fun _ => (advances_expect _ _).bind fun _ =>
      ih.callRest _) <| Advances.branch (fun _ => (advances_expectName _).bind fun _ =>
        ih.callRest _) (advances_pure e)).call (by decide)

/-- `primary` takes the token that it branches on, or fails. -/
theorem advances_primary : Advances true (n + 2) 2 (primary (n + 1)) (primary (m + 1)) := by
  intro c
  rw [primary, primary]
  refine advancesFrom_get_bind ?_
  cases hrest : c.rest with
  | nil => exact (advances_fail _ c).call (by decide)
  | cons t rest =>
    simp only
    -- Every arm but the last first takes `t`.
    split
    case h_6 | h_7 =>
      exact ((advances_freshNode.bind fun _ => advances_pure _).behind hrest).call (by decide)
    case h_8 =>
      exact ((ih.expression.bind fun _ => (advances_expect _ _).bind fun _ =>
        advances_pure _).behind hrest).call (by decide)
    case h_9 =>
      exact (((advances_expect _ _).bind fun _ => ih.parameters.bind fun _ =>
        (advances_expect _ _).bind fun _ => ih.block.bind fun _ => advances_pure _).behind
          hrest).call (by decide)
    case h_10 => exact (advances_fail _ c).call (by decide)
    all_goals exact ((advances_pure _).behind hrest).call (by decide)

end

/-- **Every rule keeps its contract**: it moves forward only, takes a token where its tree has one,
    ends within its bound, and ends in the same way with every higher bound. -/
theorem advances (h : n ≤ m) : AllAdvance n m := by
  induction n generalizing m with
  | zero => exact allAdvance_zero m
  | succ n ih =>
    -- Both bounds fall by one where a rule calls another one.
    obtain ⟨m, rfl⟩ := Nat.exists_eq_add_of_le' (Nat.one_le_of_lt h)
    have ih := ih (Nat.le_of_succ_le_succ h)
    constructor
    case parameters => exact advances_parameters h
    case declaration => exact fun c takes hc => advances_declaration ih hc
    case declarationOrStatement => exact advances_declarationOrStatement ih
    case classDeclaration =>
      exact ((advances_expectName _).bind fun _ => (advances_expect _ _).bind fun _ =>
        ih.methods.bind fun _ => (advances_expect _ _).bind fun _ =>
          advances_pure _).call (by decide)
    case methods =>
      exact ((advances_check _).bind fun _ => advances_atEnd.bind fun _ =>
        (advances_pure _).ite <| (ih.function _).bind fun _ => ih.methods.bind fun _ =>
          advances_pure _).call (by decide)
    case function =>
      exact fun _ => ((advances_expectName _).bind fun _ => (advances_expect _ _).bind fun _ =>
        ih.parameters.bind fun _ => (advances_expect _ _).bind fun _ => ih.block.bind fun _ =>
          advances_pure _).call (by decide)
    case varDeclaration =>
      exact ((advances_expectName _).bind fun _ =>
        (Advances.branch (fun _ => ih.expression.map) (advances_pure _)).bind fun _ =>
          (advances_expect _ _).bind fun _ => advances_pure _).call (by decide)
    case statement =>
      exact (Advances.branch (fun _ => ih.forStatement) <|
        Advances.branch (fun _ => ih.ifStatement) <|
        Advances.branch (fun _ => ih.whileStatement) <|
        Advances.branch (fun t => ih.returnStatement t) <|
        Advances.branch (fun _ => ih.block.map) <| Advances.branch (fun _ => ih.printStatement)
          ih.expressionStatement).call (by decide)
    case printStatement | expressionStatement =>
      exact (ih.expression.bind fun _ => (advances_expect _ _).bind fun _ =>
        advances_pure _).call (by decide)
    case forStatement => exact advances_forStatement ih
    case ifStatement =>
      exact ((advances_expect _ _).bind fun _ => ih.expression.bind fun _ =>
        (advances_expect _ _).bind fun _ => ih.statement.bind fun _ =>
          (Advances.branch (fun _ => ih.statement.map) (advances_pure _)).bind fun _ =>
            advances_pure _).call (by decide)
    case whileStatement =>
      exact ((advances_expect _ _).bind fun _ => ih.expression.bind fun _ =>
        (advances_expect _ _).bind fun _ => ih.statement.bind fun _ =>
          advances_pure _).call (by decide)
    case returnStatement =>
      exact fun _ => ((advances_check _).bind fun _ => (advances_pure _).join ih.expression.map
        fun _ => (advances_expect _ _).bind fun _ => advances_pure _).call (by decide)
    case block =>
      exact (ih.declarations.bind fun _ => (advances_expect _ _).bind fun _ =>
        advances_pure _).call (by decide)
    case declarations => exact advances_declarations ih
    case expression =>
      exact (ih.assignment.bind fun _ => ih.commaRest _).call (by decide)
    case commaRest =>
      exact fun _ => (Advances.branch (fun _ => ih.assignment.bind fun _ => ih.commaRest _)
        (advances_pure _)).call (by decide)
    case assignment =>
      exact ((ih.tier _).bind fun _ =>
        Advances.branch (fun _ => ih.assignment.bind fun _ => advances_assignTo _ _ _ _) <|
          Advances.branch (fun _ => ih.conditional _ _) (advances_pure _)).call (by decide)
    case conditional =>
      exact fun _ _ => (ih.assignment.bind fun _ => (advances_expect _ _).bind fun _ =>
        ih.assignment.bind fun _ => advances_pure _).call (by decide)
    case tier =>
      exact fun t => ((ih.operand t).bind fun _ => ih.tierRest _ _).call (by cases t <;> decide)
    case tierRest =>
      intro t e
      have hmore (op : Token) := (ih.operand t).bind fun right => ih.tierRest t (t.node e op right)
      exact (advances_acceptIf_bind hmore (advances_pure e)).call (by cases t <;> decide)
    case operand =>
      rintro (_ | _ | _ | _ | _ | _)
      case factor => exact ih.unary.call (by decide)
      all_goals exact (ih.tier _).call (by decide)
    case unary =>
      exact (advances_acceptIf_bind (fun _ => ih.unary.bind fun _ => advances_pure _) <|
        ih.primary.bind fun _ => ih.callRest _).call (by decide)
    case callRest => exact advances_callRest ih
    case argumentsFrom => exact advances_argumentsFrom ih
    case primary => exact advances_primary ih

/-- A declaration or statement moves forward, also where it yields none. -/
theorem leads_declarationOrStatement (n : Nat) (c : Cursor) :
    (declarationOrStatement n).Ensures c (fun _ c' => c.Leads c') fun _ c' => c.Leads c' :=
  ((advances (Nat.le_refl n)).declarationOrStatement c).leads

/-- Declarations of a program end with the tokens. -/
theorem advances_program (h : n ≤ m) : Advances false (n + 1) 22 (program n) (program m) := by
  induction n generalizing m with
  | zero => exact advances_outOfFuel (by decide)
  | succ n ih =>
    obtain ⟨m, rfl⟩ := Nat.exists_eq_add_of_le' (Nat.one_le_of_lt h)
    have h := Nat.le_of_succ_le_succ h
    intro c
    rw [program, program]
    show AdvancesFrom c false (n + 2) 22 (if c.rest.isEmpty = true then _ else _)
      (if c.rest.isEmpty = true then _ else _)
    split
    · exact (advances_pure _ c).call (by decide)
    · next hmore =>
      exact (advancesFrom_declarations (advances h) (ih h) (by simpa using hmore)).call (by decide)

/-- A program never stops at an error: errors end the declaration they stand in. -/
theorem program_ne_error (n : Nat) (c : Cursor) :
    (program n).Ensures c (fun _ _ => True) (fun h _ => h = .outOfFuel) := by
  induction n generalizing c with
  | zero => rfl
  | succ n ih =>
    rw [program]
    simp only [ensures_bind, ensures_atEnd, ensures_ite, ensures_pure]
    refine ⟨fun _ => trivial, fun _ => ?_⟩
    cases n with
    | zero => rfl
    | succ n =>
      rw [ensures_declaration]
      refine (leads_declarationOrStatement n c).mono (fun _ c' _ => ih c') (fun h c' _ => ?_)
      cases h with
      | outOfFuel => rfl
      | error e => exact ih _

end Rule

namespace Program

/-- **Reading ends.** Every token list has a list of statements and a last cursor. -/
theorem run_program (tokens : List Token) (nextNode : NodeId) (report : Report) :
    ∃ statements c, (Rule.program (fuel tokens.length)).run (start tokens nextNode report) =
        (.ok statements, c) ∧
      parse tokens nextNode report = ⟨statements, c.report, c.nextNode⟩ := by
  have hlen : (start tokens nextNode report).rest.length ≤ tokens.length :=
    (List.takeWhile_prefix _).length_le
  have hadvances := Rule.advances_program (Nat.le_refl (fuel tokens.length))
    (start tokens nextNode report)
  have h := Parse.Ensures.and hadvances (Rule.program_ne_error (fuel tokens.length)
    (start tokens nextNode report))
  unfold Parse.Ensures at h
  unfold parse
  split at h
  · next statements c hrun => exact ⟨statements, c, hrun, by rw [hrun]⟩
  · next e c hrun =>
    refine absurd h.2 (h.1.2.1 ?_)
    unfold fuel fuelPerToken
    omega

end Program

end Scriptlet
