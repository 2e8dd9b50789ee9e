import Scriptlet.Proofs.Tree

namespace Scriptlet

/-!
# The trees that reading builds

Whatever the tokens are and whatever was reported about them, the trees that come out of reading
are well formed, and no two variable nodes share a number.

* `Numbered a b ids` — distinct numbers from `a` up to but not including `b`.
* `Built T a c x` — the part `x` of a tree is well formed, and its numbers lie between `a` and the
  next free number of the cursor `c`.
* `Rule.builds` — every rule builds such parts.
* `Program.built_parse` — the same of whole programs.
-/

/-! ### Numbers -/

/-- Distinct numbers from `a` up to but not including `b`. -/
def Numbered (a b : NodeId) (ids : List NodeId) : Prop :=
  ids.Nodup ∧ ∀ i ∈ ids, a ≤ i ∧ i < b

namespace Numbered

variable {a a' b b' : NodeId} {ids ids' : List NodeId}

/-- No numbers are distinct numbers of any range. -/
theorem nil : Numbered a b [] := ⟨List.nodup_nil, by simp⟩

/-- The next free number is a range of its own. -/
theorem singleton (a : NodeId) : Numbered a (a + 1) [a] := ⟨List.nodup_singleton a, by simp⟩

/-- Numbers of a range are numbers of any wider one. -/
theorem mono (h : Numbered a b ids) (ha : a' ≤ a) (hb : b ≤ b') : Numbered a' b' ids :=
  ⟨h.1, fun i hi => ⟨ha.trans (h.2 i hi).1, (h.2 i hi).2.trans_le hb⟩⟩

/-- The order of the numbers does not matter. -/
theorem perm (h : Numbered a b ids) (hp : ids.Perm ids') : Numbered a b ids' :=
  ⟨hp.nodup_iff.1 h.1, fun i hi => h.2 i (hp.mem_iff.2 hi)⟩

/-- Numbers from consecutive ranges are distinct. -/
theorem append {c : NodeId} (h : Numbered a b ids) (h' : Numbered b c ids') (hab : a ≤ b)
    (hbc : b ≤ c) : Numbered a c (ids ++ ids') := by
  refine ⟨List.nodup_append.2 ⟨h.1, h'.1, ?_⟩, ?_⟩
  · intro i hi j hj heq
    have hlt : i < b := (h.2 i hi).2
    exact absurd (heq ▸ (h'.2 j hj).1) (Nat.not_le.2 hlt)
  · intro i hi
    rcases List.mem_append.1 hi with hi | hi
    · exact ⟨(h.2 i hi).1, (h.2 i hi).2.trans_le hbc⟩
    · exact ⟨hab.trans (h'.2 i hi).1, (h'.2 i hi).2⟩

end Numbered

/-! ### Parts that are built -/

/-- The part `x` of a tree, read from where the next free number was `a` to the cursor `c`. -/
structure Built (T : Token → Prop) (a : NodeId) (c : Cursor) (x : Node) : Prop where
  formed : x.Formed T
  numbered : Numbered a c.nextNode x.ids
  le : a ≤ c.nextNode
  tokens : ∀ t ∈ c.rest, T t

namespace Built

variable {T : Token → Prop} {a : NodeId} {c c' : Cursor} {x y z : Node}

/-- The same numbers in another part. -/
theorem keep (h : Built T a c x) (hz : z.Formed T) (hids : z.ids = x.ids) : Built T a c z :=
  ⟨hz, by rw [hids]; exact h.numbered, h.le, h.tokens⟩

/-- A part that was read in two pieces. -/
theorem pair (h : Built T a c x) (h' : Built T c.nextNode c' y) (hz : z.Formed T)
    (hids : z.ids = x.ids ++ y.ids) : Built T a c' z :=
  ⟨hz, by rw [hids]; exact h.numbered.append h'.numbered h.le h'.le, h.le.trans h'.le, h'.tokens⟩

/-- A token without a number of its own is read. -/
theorem skip (h : Built T a c x) {t : Token} {rest : List Token} (hrest : c.rest = t :: rest) :
    Built T a (c.moveTo rest) x ∧ T t :=
  ⟨⟨h.formed, h.numbered, h.le, fun t' ht' => h.tokens t' (hrest ▸ List.mem_cons_of_mem t ht')⟩,
    h.tokens t (hrest ▸ List.mem_cons_self)⟩

/-- Before anything is read. -/
theorem start (htokens : ∀ t ∈ c.rest, T t) : Built T c.nextNode c (.stmts []) :=
  ⟨trivial, Numbered.nil, Nat.le_refl _, htokens⟩

/-- Nothing was read that is kept. -/
theorem nothing (ha : a ≤ c.nextNode) (htokens : ∀ t ∈ c.rest, T t) (hz : z.Formed T)
    (hids : z.ids = []) : Built T a c z :=
  ⟨hz, by rw [hids]; exact Numbered.nil, ha, htokens⟩

/-- Node numbers may be counted from a number that is equal to the first. -/
theorem cast {a' : NodeId} (h : Built T a c x) (ha : a = a') : Built T a' c x := ha ▸ h

end Built

/-! ### The rules build such parts -/

namespace Rule

open Parse

variable {T : Token → Prop} {n : Nat} {c : Cursor} {a : NodeId}

/-- The rule builds the part that `view` shows of what it yields. -/
def Builds {α : Type} (T : Token → Prop) (view : α → Node) (p : Parse α) : Prop :=
  ∀ c, (∀ t ∈ c.rest, T t) → p.Yields c fun y c' => Built T c.nextNode c' (view y)

/-- The rule goes on with an expression that is already built. -/
def Extends (T : Token → Prop) (f : Expr → Parse Expr) : Prop :=
  ∀ c a e, Built T a c (.expr e) → (f e).Yields c fun y c' => Built T a c' (.expr y)

/-- Names were read up to the cursor `c`, which takes no number. -/
def ReadsNames (T : Token → Prop) (a : NodeId) (names : List Token) (c : Cursor) : Prop :=
  (∀ name ∈ names, name.IsName T) ∧ c.nextNode = a ∧ ∀ t ∈ c.rest, T t

/-- `parametersFrom` reads names, however many there are already. -/
theorem parametersFrom_names (n count : Nat) : ∀ c, (∀ t ∈ c.rest, T t) →
    (parametersFrom n count).Yields c (ReadsNames T c.nextNode) := by
  induction n generalizing count with
  | zero => exact fun _ _ => yields_throw
  | succ n ih =>
    intro c htokens
    rw [parametersFrom]
    have hrest : ∀ c₁ : Cursor, c₁.rest = c.rest → c₁.nextNode = c.nextNode → (do
        let param ← expectName .paramName
        let rest ← branch .comma (fun _ => parametersFrom n (count + 1)) (pure [])
        pure (param :: rest) : Parse (List Token)).Yields c₁ (ReadsNames T c.nextNode) := by
      intro c₁ hc₁ hnext
      refine yields_expectName_bind fun t rest h ht => ?_
      rw [hc₁] at h
      rw [h] at htokens
      have hname : t.IsName T := ⟨htokens t List.mem_cons_self, ht⟩
      have htail : ∀ t' ∈ rest, T t' := fun t' ht' => htokens t' (List.mem_cons_of_mem t ht')
      refine Yields.bind (Q := ReadsNames T c.nextNode) ?_ fun ps c' hps => ?_
      · refine yields_branch (fun comma rest' h' _ => ?_) (fun _ => ?_)
        · refine (ih (count + 1) _ fun t' ht' => htail t' ?_).mono fun ps c' hps => ?_
          · rw [Cursor.rest_moveTo] at h' ht'
            exact h' ▸ List.mem_cons_of_mem comma ht'
          · exact ⟨hps.1, hps.2.1.trans hnext, hps.2.2⟩
        · exact ⟨by simp, hnext, htail⟩
      · refine ⟨fun p hp => ?_, hps.2⟩
        rcases List.mem_cons.1 hp with rfl | hp
        · exact hname
        · exact hps.1 p hp
    refine Yields.ite (fun _ => ?_) (fun _ => hrest c rfl rfl)
    exact ensures_bind.2 (ensures_reportHere.2 (hrest _ rfl rfl))

/-- `parameters` reads names up to the parenthesis. -/
theorem parameters_names (n : Nat) (c : Cursor) (htokens : ∀ t ∈ c.rest, T t) :
    (parameters n).Yields c (ReadsNames T c.nextNode) := by
  refine yields_unless (fun _ => parametersFrom_names n 0 c htokens)
    (fun _ => ⟨by simp, rfl, htokens⟩) fun ps c' hps => ?_
  refine yields_expect_bind fun t rest h _ => ⟨hps.1, hps.2.1, fun t' ht' => hps.2.2 t' ?_⟩
  rw [h]
  exact List.mem_cons_of_mem t ht'

/-- An assignment drops the node of the variable it assigns to and takes a new number. -/
theorem builds_assignTo {c₁ : Cursor} {target value : Expr} (equals : Token)
    (htarget : Built T a c₁ (.expr target)) (hvalue : Built T c₁.nextNode c (.expr value)) :
    (assignTo target equals value).Yields c fun y c' => Built T a c' (.expr y) := by
  unfold assignTo
  split
  · next id name =>
    refine ensures_bind.2 (ensures_freshNode.2 ?_)
    have hfresh := Numbered.singleton c.nextNode
    have hids := (hvalue.numbered.mono htarget.le (Nat.le_refl _)).append hfresh
      (htarget.le.trans hvalue.le) (Nat.le_succ _)
    exact ⟨⟨htarget.formed, hvalue.formed⟩, hids, (htarget.le.trans hvalue.le).trans
      (Nat.le_succ _), hvalue.tokens⟩
  · next object name =>
    exact htarget.pair hvalue ⟨htarget.formed.1, htarget.formed.2, hvalue.formed⟩ rfl
  -- What cannot be assigned to stays, and its value is dropped.
  · next other =>
    refine ensures_bind.2 (ensures_report.2 ?_)
    exact ⟨htarget.formed, htarget.numbered.mono (Nat.le_refl _) hvalue.le,
      htarget.le.trans hvalue.le, hvalue.tokens⟩

/-- The rule `function` yields functions with names. -/
theorem function_named (n : Nat) (f : Flavour) (c : Cursor) :
    (function n f).Yields c fun d _ => d.name?.isSome = true := by
  cases n with
  | zero => exact yields_throw
  | succ n =>
    exact yields_bind fun _ _ => yields_bind fun _ _ => yields_bind fun _ _ =>
      yields_bind fun _ _ => yields_bind fun _ _ => rfl

/-- The rule `methods` yields functions with names. -/
theorem methods_named (n : Nat) (c : Cursor) :
    (methods n).Yields c fun fs _ => ∀ f ∈ fs, f.name?.isSome = true := by
  induction n generalizing c with
  | zero => exact yields_throw
  | succ n ih =>
    refine yields_bind fun _ _ => yields_bind fun _ _ => Yields.ite
      (fun _ => ensures_pure.2 (by simp)) fun _ => ?_
    refine (function_named n .method _).bind fun d c' hd => (ih c').bind fun fs _ hfs => ?_
    intro f hf
    rcases List.mem_cons.1 hf with rfl | hf
    · exact hd
    · exact hfs f hf

/-- A `for` statement is a block or a loop. -/
theorem isDeclaration_forLoop (i : Option Stmt) (c inc : Option Expr) (body : Stmt) :
    (Stmt.forLoop i c inc body).isDeclaration = false := by
  cases i <;> rfl

/-- The rule for statements yields no declaration. -/
theorem statement_plain (n : Nat) (c : Cursor) :
    (statement n).Yields c fun s _ => s.isDeclaration = false := by
  -- The tree is put together by the rule that is called, so the bound is opened twice.
  rcases n with _ | _ | n
  · exact yields_throw
  · rw [statement]
    refine yields_branch (fun _ _ _ _ => yields_throw) fun _ => ?_
    refine yields_branch (fun _ _ _ _ => yields_throw) fun _ => ?_
    refine yields_branch (fun _ _ _ _ => yields_throw) fun _ => ?_
    refine yields_branch (fun _ _ _ _ => yields_throw) fun _ => ?_
    refine yields_branch (fun _ _ _ _ => ensures_map.2 yields_throw) fun _ => ?_
    exact yields_branch (fun _ _ _ _ => yields_throw) fun _ => yields_throw
  · rw [statement]
    refine yields_branch (fun _ _ _ _ => ?_) fun _ => ?_
    · have hend : ∀ i c inc c', (do
          let _ ← expect .rightParen .forClose
          let body ← statement n
          pure (.forLoop i c inc body) : Parse Stmt).Yields c'
            fun s _ => s.isDeclaration = false := fun i c inc c' =>
        yields_bind fun _ _ => yields_bind fun _ _ => isDeclaration_forLoop _ _ _ _
      -- Whichever clauses are missing, the loop is put together at the end.
      refine yields_bind fun _ _ => yields_bind fun i _ => yields_bind fun _ _ =>
        Yields.ite (fun _ => yields_bind fun c _ => ?_) (fun _ => yields_bind fun c _ => ?_) <;>
      exact yields_bind fun _ _ => yields_bind fun _ _ => Yields.ite
        (fun _ => yields_bind fun inc _ => hend i c inc _)
        (fun _ => yields_bind fun inc _ => hend i c inc _)
    refine yields_branch (fun _ _ _ _ => ?_) fun _ => ?_
    · exact yields_bind fun _ _ => yields_bind fun _ _ => yields_bind fun _ _ =>
        yields_bind fun _ _ => yields_bind fun _ _ => rfl
    refine yields_branch (fun _ _ _ _ => ?_) fun _ => ?_
    · exact yields_bind fun _ _ => yields_bind fun _ _ => yields_bind fun _ _ =>
        yields_bind fun _ _ => rfl
    refine yields_branch (fun _ _ _ _ => ?_) fun _ => ?_
    · exact yields_bind fun _ _ => Yields.ite
        (fun _ => yields_bind fun _ _ => yields_bind fun _ _ => rfl)
        (fun _ => yields_bind fun _ _ => yields_bind fun _ _ => rfl)
    refine yields_branch (fun _ _ _ _ => ?_) fun _ => ?_
    · rw [map_eq_pure_bind]
      exact yields_bind fun _ _ => rfl
    refine yields_branch (fun _ _ _ _ => ?_) fun _ => ?_
    · exact yields_bind fun _ _ => yields_bind fun _ _ => rfl
    · exact yields_bind fun _ _ => yields_bind fun _ _ => rfl

/-- All rules with the same bound build their parts. -/
structure AllBuild (T : Token → Prop) (n : Nat) : Prop where
  declaration : Builds T (fun s => .stmts s.toList) (declaration n)
  declarationOrStatement : Builds T .stmt (declarationOrStatement n)
  classDeclaration : Builds T .stmt (classDeclaration n)
  methods : Builds T .functions (methods n)
  function : ∀ f, Builds T (.function .function) (function n f)
  varDeclaration : Builds T .stmt (varDeclaration n)
  statement : Builds T .stmt (statement n)
  printStatement : Builds T .stmt (printStatement n)
  expressionStatement : Builds T .stmt (expressionStatement n)
  forStatement : Builds T .stmt (forStatement n)
  ifStatement : Builds T .stmt (ifStatement n)
  whileStatement : Builds T .stmt (whileStatement n)
  returnStatement : ∀ t, T t → t.is .returnKw = true → Builds T .stmt (returnStatement n t)
  block : Builds T .stmts (block n)
  declarations : Builds T .stmts (declarations n)
  expression : Builds T .expr (expression n)
  commaRest : Extends T (commaRest n)
  assignment : Builds T .expr (assignment n)
  conditional : ∀ t, T t → t.is .question = true → Extends T (conditional n · t)
  tier : ∀ t, Builds T .expr (tier n t)
  tierRest : ∀ t, Extends T (tierRest n t)
  operand : ∀ t, Builds T .expr (operand n t)
  unary : Builds T .expr (unary n)
  callRest : Extends T (callRest n)
  argumentsFrom : ∀ count, Builds T .exprs (argumentsFrom n count)
  primary : Builds T .expr (primary n)

/-- The parts of a `for` statement are those of the statements it stands for; only their order
    is another. -/
theorem built_forLoop {i : Option Stmt} {cond inc : Option Expr} {body : Stmt}
    {c₁ c₂ c₃ c₄ : Cursor} (hi : Built T a c₁ (.stmts i.toList))
    (hcond : Built T c₁.nextNode c₂ (.exprs cond.toList))
    (hinc : Built T c₂.nextNode c₃ (.exprs inc.toList))
    (hbody : Built T c₃.nextNode c₄ (.stmt body)) (hplain : body.isDeclaration = false) :
    Built T a c₄ (.stmt (.forLoop i cond inc body)) := by
  have hnumbered := ((hi.numbered.append hcond.numbered hi.le hcond.le).append hinc.numbered
    (hi.le.trans hcond.le) hinc.le).append hbody.numbered
    ((hi.le.trans hcond.le).trans hinc.le) hbody.le
  refine ⟨?_, hnumbered.perm ?_, ((hi.le.trans hcond.le).trans hinc.le).trans hbody.le,
    hbody.tokens⟩
  · have hcond' : (cond.getD (.literal (.bool true))).Formed T := by
      cases cond with
      | none => trivial
      | some e => exact hcond.formed.1
    have hbody' : (Stmt.forBody body inc).Formed T ∧
        (Stmt.forBody body inc).isDeclaration = false := by
      cases inc with
      | none => exact ⟨hbody.formed, hplain⟩
      | some e => exact ⟨⟨hbody.formed, hinc.formed.1, trivial⟩, rfl⟩
    cases i with
    | none => exact ⟨hcond', hbody'⟩
    | some first => exact ⟨hi.formed.1, ⟨hcond', hbody'⟩, trivial⟩
  · show (Stmt.idsAll i.toList ++ Expr.idsAll cond.toList ++ Expr.idsAll inc.toList ++
      body.ids).Perm (Stmt.forLoop i cond inc body).ids
    have hloop : (Expr.idsAll cond.toList ++ (Expr.idsAll inc.toList ++ body.ids)).Perm
        (Stmt.whileLoop (cond.getD (.literal (.bool true))) (Stmt.forBody body inc)).ids := by
      have hcond' : Expr.idsAll cond.toList = (cond.getD (.literal (.bool true))).ids := by
        cases cond <;> simp [Expr.idsAll, Expr.ids]
      rw [Stmt.ids, hcond']
      refine List.Perm.append_left _ ?_
      cases inc with
      | none => simp [Stmt.forBody, Expr.idsAll]
      -- The increment is read before the body and stands behind it.
      | some e =>
        simp only [Stmt.forBody, Stmt.ids, Stmt.idsAll, Option.toList_some, Expr.idsAll,
          List.append_nil]
        exact List.perm_append_comm
    cases i with
    | none => simpa [Stmt.idsAll, Stmt.forLoop] using hloop
    | some first =>
      simp only [Option.toList_some, Stmt.idsAll, List.append_nil, Stmt.forLoop, Stmt.ids,
        List.append_assoc]
      exact List.Perm.append_left _ hloop

/-- The operators of a tier are operators of the nodes it makes. -/
theorem formed_node {t : Tier} {left right : Expr} {op : Token} (hleft : left.Formed T)
    (hT : T op) (hop : t.has op = true) (hright : right.Formed T) :
    (t.node left op right).Formed T := by
  have hsymbol : ∃ s ∈ t.symbols, op.is s = true := by
    unfold Tier.has at hop
    split at hop
    · next s hs => exact ⟨s, by simpa using hop, by simp [Token.is, hs]⟩
    · cases hop
  obtain ⟨s, hs, his⟩ := hsymbol
  cases t with
  | disjunction | conjunction =>
    refine ⟨hleft, ⟨hT, s, ?_, his⟩, hright⟩
    revert hs
    cases s <;> decide
  | equality | comparison | term | factor =>
    refine ⟨hleft, ⟨hT, s, ?_, his⟩, hright⟩
    revert hs
    cases s <;> decide

/-- A binary node has the numbers of its operands. -/
theorem ids_node (t : Tier) (left : Expr) (op : Token) (right : Expr) :
    (t.node left op right).ids = left.ids ++ right.ids := by
  cases t <;> rfl

section

variable (ih : AllBuild T n)

include ih

/-- The parameters and the body of a function are built, whatever `k` makes of them. -/
theorem builds_body {β : Type} {k : FunDecl → β} {view : β → Node} {name? : Option Token}
    {w : Expected} (hname : ∀ name ∈ name?, name.IsName T)
    (hformed : ∀ d : FunDecl, d.Formed T → (view (k d)).Formed T)
    (hids : ∀ d : FunDecl, (view (k d)).ids = d.ids) (htokens : ∀ t ∈ c.rest, T t) :
    (do
      let params ← parameters n
      let _ ← expect .leftBrace w
      let body ← block n
      pure (k (.mk name? params body)) : Parse β).Yields c
        fun y c' => Built T c.nextNode c' (view y) := by
  refine (parameters_names n c htokens).bind fun params c₁ ⟨hparams, hnext, htokens₁⟩ => ?_
  refine yields_expect_bind fun brace rest hrest _ => ?_
  have hb := (Built.start htokens₁).skip hrest
  refine (ih.block _ hb.1.tokens).bind fun body c₂ hbody => ensures_pure.2 ?_
  exact Built.cast (hbody.keep (hformed (.mk name? params body) ⟨hname, hparams, hbody.formed⟩)
    (hids _)) hnext

/-- What is dropped by error recovery leaves its numbers unused. -/
theorem builds_declaration :
    Builds T (fun s => .stmts s.toList) (declaration (n + 1)) := by
  intro c htokens
  refine ensures_declaration.2 ?_
  refine (Ensures.and (ih.declarationOrStatement c htokens)
    (leads_declarationOrStatement n c)).mono (fun s c' h => ?_) (fun h c' hc' => ?_)
  · exact h.1.keep ⟨h.1.formed, trivial⟩ (List.append_nil _)
  · cases h with
    | outOfFuel => trivial
    -- Numbers of the dropped declaration are not given out again.
    | error e =>
      refine Built.nothing hc'.2.nextNode (fun t ht => htokens t ?_) trivial rfl
      exact hc'.2.rest.subset ((synchronize_suffix c'.rest).subset ht)

/-- One token decides between the rules; each builds its part by `ih`. -/
theorem builds_declarationOrStatement :
    Builds T .stmt (declarationOrStatement (n + 1)) := by
  intro c htokens
  have hstart := Built.start htokens
  rw [declarationOrStatement]
  refine yields_branch (fun t rest h _ => ?_) fun _ => ?_
  · exact ih.classDeclaration _ (hstart.skip h).1.tokens
  refine ensures_bind.2 (ensures_get.2 (Yields.ite (fun _ => ?_) fun _ => ?_))
  · have hfunction : ∀ c₁ : Cursor, c₁.nextNode = c.nextNode → (∀ t ∈ c₁.rest, T t) →
        (function n .function >>= fun d => (pure (.funDecl d) : Parse Stmt)).Yields c₁
          fun y c' => Built T c.nextNode c' (.stmt y) := by
      intro c₁ hnext htokens₁
      refine ((ih.function .function c₁ htokens₁).and (function_named n .function c₁)).bind
        fun d c₂ hd => ensures_pure.2 ?_
      exact Built.cast (hd.1.keep ⟨hd.1.formed, hd.2⟩ rfl) hnext
    refine yields_acceptIf_bind (fun t rest h _ => ?_) fun _ => hfunction c rfl htokens
    exact hfunction _ rfl (hstart.skip h).1.tokens
  · refine yields_branch (fun t rest h _ => ?_) fun _ => ih.statement c htokens
    exact ih.varDeclaration _ (hstart.skip h).1.tokens

/-- By `methods_named`, the methods of the class have names. -/
theorem builds_classDeclaration :
    Builds T .stmt (classDeclaration (n + 1)) := by
  intro c htokens
  rw [classDeclaration]
  refine yields_expectName_bind fun name rest h hname => ?_
  obtain ⟨h₁, hT⟩ := (Built.start htokens).skip h
  refine yields_expect_bind fun brace rest' h' _ => ?_
  obtain ⟨h₂, -⟩ := h₁.skip h'
  refine ((ih.methods _ h₂.tokens).and (methods_named n _)).bind fun methods c₁ hm => ?_
  refine yields_expect_bind fun brace' rest'' h'' _ => ensures_pure.2 ?_
  exact (hm.1.skip h'').1.keep ⟨⟨hT, hname⟩, hm.1.formed, hm.2⟩ rfl

/-- The method that is read first has the lower numbers. -/
theorem builds_methods : Builds T .functions (methods (n + 1)) := by
  intro c htokens
  rw [methods]
  refine ensures_bind.2 (ensures_check.2 (ensures_bind.2 (ensures_atEnd.2 ?_)))
  refine Yields.ite (fun _ => ?_) fun _ => ?_
  · exact Built.nothing (Nat.le_refl _) htokens trivial rfl
  · refine (ih.function .method c htokens).bind fun d c₁ hd => ?_
    refine (ih.methods c₁ hd.tokens).bind fun ds c₂ hds => ensures_pure.2 ?_
    exact hd.pair hds ⟨hd.formed, hds.formed⟩ rfl

/-- `builds_body`, behind the name. -/
theorem builds_function (f : Flavour) :
    Builds T (.function .function) (function (n + 1) f) := by
  intro c htokens
  rw [function]
  refine yields_expectName_bind fun name rest h hname => ?_
  obtain ⟨h₁, hT⟩ := (Built.start htokens).skip h
  refine yields_expect_bind fun paren rest' h' _ => ?_
  obtain ⟨h₂, -⟩ := h₁.skip h'
  refine builds_body (k := id) ih (fun name' hn => ?_) (fun _ hd => hd) (fun _ => rfl) h₂.tokens
  cases hn
  exact ⟨hT, hname⟩

/-- A missing initializer takes no number. -/
theorem builds_varDeclaration : Builds T .stmt (varDeclaration (n + 1)) := by
  intro c htokens
  rw [varDeclaration]
  refine yields_expectName_bind fun name rest h hname => ?_
  obtain ⟨h₁, hT⟩ := (Built.start htokens).skip h
  refine Yields.bind (Q := fun i c' => Built T c.nextNode c' (.stmt (.varDecl name i))) ?_
    fun i c₁ hi => ?_
  · refine yields_branch (fun t rest' h' _ => ?_) fun _ => ?_
    · refine (ih.expression _ (h₁.skip h').1.tokens).map fun e c' he => ?_
      exact he.keep ⟨⟨hT, hname⟩, he.formed⟩ rfl
    · exact Built.nothing h₁.le h₁.tokens ⟨hT, hname⟩ rfl
  · exact yields_expect_bind fun t rest' h' _ => (hi.skip h').1

/-- One token decides between the rules; each builds its part by `ih`. -/
theorem builds_statement : Builds T .stmt (statement (n + 1)) := by
  intro c htokens
  have hskip : ∀ {t : Token} {rest : List Token}, c.rest = t :: rest →
      (∀ t' ∈ (c.moveTo rest).rest, T t') ∧ T t := fun h =>
    ⟨((Built.start htokens).skip h).1.tokens, ((Built.start htokens).skip h).2⟩
  rw [statement]
  refine yields_branch (fun t rest h _ => ih.forStatement _ (hskip h).1) fun _ => ?_
  refine yields_branch (fun t rest h _ => ih.ifStatement _ (hskip h).1) fun _ => ?_
  refine yields_branch (fun t rest h _ => ih.whileStatement _ (hskip h).1) fun _ => ?_
  refine yields_branch
    (fun t rest h ht => ih.returnStatement t (hskip h).2 ht _ (hskip h).1) fun _ => ?_
  refine yields_branch (fun t rest h _ => ?_) fun _ => ?_
  · exact (ih.block _ (hskip h).1).map fun body c' hbody => hbody.keep hbody.formed rfl
  refine yields_branch (fun t rest h _ => ih.printStatement _ (hskip h).1) fun _ => ?_
  exact ih.expressionStatement c htokens

/-- An expression and a token behind it. -/
theorem builds_ended {k : Expr → Stmt} {s : Symbol} {w : Expected}
    (hformed : ∀ e : Expr, e.Formed T → (k e).Formed T) (hids : ∀ e, (k e).ids = e.ids) :
    Builds T .stmt (do
      let e ← expression n
      let _ ← expect s w
      pure (k e) : Parse Stmt) := by
  intro c htokens
  refine (ih.expression c htokens).bind fun e c₁ he => ?_
  refine yields_expect_bind fun t rest h _ => ensures_pure.2 ?_
  exact (he.skip h).1.keep (hformed e he.formed) (hids e)

/-- The clauses and the body are put together by `built_forLoop`. -/
theorem builds_forStatement : Builds T .stmt (forStatement (n + 1)) := by
  intro c htokens
  rw [forStatement]
  refine yields_expect_bind fun paren rest h _ => ?_
  obtain ⟨h₁, -⟩ := (Built.start htokens).skip h
  refine Yields.bind (Q := fun i c' => Built T c.nextNode c' (.stmts i.toList)) ?_
    fun i c₁ hi => ?_
  · refine yields_branch (fun t rest' h' _ => (h₁.skip h').1) fun _ => ?_
    refine yields_branch (fun t rest' h' _ => ?_) fun _ => ?_
    · refine (ih.varDeclaration _ (h₁.skip h').1.tokens).map fun s c' hs => ?_
      exact hs.keep ⟨hs.formed, trivial⟩ (List.append_nil _)
    · refine (ih.expressionStatement _ h₁.tokens).map fun s c' hs => ?_
      exact hs.keep ⟨hs.formed, trivial⟩ (List.append_nil _)
  -- A clause that may be missing.
  have hclause : ∀ c₁ : Cursor, (∀ t ∈ c₁.rest, T t) → (some <$> expression n).Yields c₁
      fun e c' => Built T c₁.nextNode c' (.exprs e.toList) := fun c₁ htokens₁ =>
    (ih.expression _ htokens₁).map fun e c' he =>
      he.keep ⟨he.formed, trivial⟩ (List.append_nil _)
  have hmissing : ∀ c₁ : Cursor, (∀ t ∈ c₁.rest, T t) →
      Built T c₁.nextNode c₁ (.exprs (none : Option Expr).toList) := fun c₁ htokens₁ =>
    Built.nothing (Nat.le_refl _) htokens₁ trivial rfl
  refine yields_unless (fun _ => hclause c₁ hi.tokens) (fun _ => hmissing c₁ hi.tokens)
    fun cond c₂ hcond => ?_
  refine yields_expect_bind fun semicolon rest' h' _ => ?_
  obtain ⟨h₂, -⟩ := hcond.skip h'
  refine yields_unless (fun _ => hclause _ h₂.tokens) (fun _ => hmissing _ h₂.tokens)
    fun inc c₃ hinc => ?_
  refine yields_expect_bind fun paren' rest'' h'' _ => ?_
  obtain ⟨h₃, -⟩ := hinc.skip h''
  refine ((ih.statement _ h₃.tokens).and (statement_plain n _)).bind fun body c₄ hbody =>
    ensures_pure.2 ?_
  exact built_forLoop hi h₂ h₃ hbody.1 hbody.2

/-- By `statement_plain`, neither branch is a declaration. -/
theorem builds_ifStatement : Builds T .stmt (ifStatement (n + 1)) := by
  intro c htokens
  rw [ifStatement]
  refine yields_expect_bind fun paren rest h _ => ?_
  obtain ⟨h₁, -⟩ := (Built.start htokens).skip h
  refine (ih.expression _ h₁.tokens).bind fun cond c₁ hcond => ?_
  refine yields_expect_bind fun paren' rest' h' _ => ?_
  obtain ⟨h₂, -⟩ := hcond.skip h'
  refine ((ih.statement _ h₂.tokens).and (statement_plain n _)).bind fun s c₂ ⟨hs, hplain⟩ => ?_
  have hwhenTrue : Built T c.nextNode c₂ (.stmt (.ifElse cond s none)) :=
    h₂.pair hs ⟨h₂.formed, hs.formed, hplain⟩ rfl
  refine Yields.bind (Q := fun s' c' => Built T c.nextNode c' (.stmt (.ifElse cond s s'))) ?_
    fun s' c₃ hs' => ensures_pure.2 hs'
  refine yields_branch (fun t rest'' h'' _ => ?_) fun _ => hwhenTrue
  obtain ⟨h₃, -⟩ := hwhenTrue.skip h''
  refine ((ih.statement _ h₃.tokens).and (statement_plain n _)).map fun s' c' ⟨hs', hplain'⟩ => ?_
  exact h₃.pair hs' ⟨hcond.formed, ⟨hs.formed, hplain⟩, hs'.formed, hplain'⟩ rfl

/-- By `statement_plain`, the body is no declaration. -/
theorem builds_whileStatement : Builds T .stmt (whileStatement (n + 1)) := by
  intro c htokens
  rw [whileStatement]
  refine yields_expect_bind fun paren rest h _ => ?_
  obtain ⟨h₁, -⟩ := (Built.start htokens).skip h
  refine (ih.expression _ h₁.tokens).bind fun cond c₁ hcond => ?_
  refine yields_expect_bind fun paren' rest' h' _ => ?_
  obtain ⟨h₂, -⟩ := hcond.skip h'
  refine ((ih.statement _ h₂.tokens).and (statement_plain n _)).bind fun s c₂ hs =>
    ensures_pure.2 ?_
  exact h₂.pair hs.1 ⟨h₂.formed, hs.1.formed, hs.2⟩ rfl

/-- A missing value takes no number. -/
theorem builds_returnStatement {t : Token} (hT : T t)
    (ht : t.is .returnKw = true) : Builds T .stmt (returnStatement (n + 1) t) := by
  intro c htokens
  have hkeyword : t.IsOneOf T [.returnKw] := ⟨hT, .returnKw, List.mem_cons_self, ht⟩
  rw [returnStatement]
  refine yields_unless (Q := fun e c' => Built T c.nextNode c' (.stmt (.ret t e)))
    (fun _ => ?_) (fun _ => ?_) fun e c₁ he => ?_
  · exact (ih.expression c htokens).map fun e c' he => he.keep ⟨hkeyword, he.formed⟩ rfl
  · exact Built.nothing (Nat.le_refl _) htokens hkeyword rfl
  · exact yields_expect_bind fun t rest h _ => (he.skip h).1

/-- A declaration that error recovery drops adds no statement. -/
theorem builds_declarations : Builds T .stmts (declarations (n + 1)) := by
  intro c htokens
  rw [declarations]
  refine ensures_bind.2 (ensures_check.2 (ensures_bind.2 (ensures_atEnd.2 ?_)))
  refine Yields.ite (fun _ => ?_) fun _ => ?_
  · exact Built.nothing (Nat.le_refl _) htokens trivial rfl
  · refine (ih.declaration c htokens).bind fun s c₁ hs => ?_
    refine (ih.declarations c₁ hs.tokens).bind fun ss c₂ hss => ensures_pure.2 ?_
    exact hs.pair hss (Stmt.formedAll_append hs.formed hss.formed) (Stmt.idsAll_append _ _)

/-- Each operand has numbers above those of the ones before. -/
theorem builds_commaRest : Extends T (commaRest (n + 1)) := by
  intro c a e he
  rw [commaRest]
  refine yields_branch (fun op rest h hop => ?_) fun _ => he
  obtain ⟨h₁, hT⟩ := he.skip h
  refine (ih.assignment _ h₁.tokens).bind fun e' c₁ he' => ih.commaRest c₁ a _ ?_
  exact h₁.pair he' ⟨he.formed, ⟨hT, .comma, by decide, hop⟩, he'.formed⟩ rfl

/-- Behind a tier comes a value, by `builds_assignTo`, or two branches. -/
theorem builds_assignment : Builds T .expr (assignment (n + 1)) := by
  intro c htokens
  rw [assignment]
  refine (ih.tier .disjunction c htokens).bind fun e c₁ he => ?_
  refine yields_branch (fun equals rest h _ => ?_) fun _ => ?_
  · obtain ⟨h₁, -⟩ := he.skip h
    exact (ih.assignment _ h₁.tokens).bind fun v c₂ hv => builds_assignTo equals h₁ hv
  · refine yields_branch (fun question rest h hq => ?_) fun _ => he
    obtain ⟨h₁, hT⟩ := he.skip h
    exact ih.conditional question hT hq _ _ e h₁

/-- The two branches have numbers above those of the condition. -/
theorem builds_conditional {t : Token} (hT : T t)
    (ht : t.is .question = true) : Extends T (conditional (n + 1) · t) := by
  intro c a e he
  refine (ih.assignment c he.tokens).bind fun e₁ c₁ h₁ => ?_
  refine yields_expect_bind fun colon rest h _ => ?_
  obtain ⟨h₁', -⟩ := h₁.skip h
  refine (ih.assignment _ h₁'.tokens).bind fun e₂ c₂ h₂ => ensures_pure.2 ?_
  have hboth : Built T a _ (.exprs [e, e₁]) :=
    he.pair h₁' ⟨he.formed, h₁.formed, trivial⟩ (by simp [Node.ids, Expr.idsAll])
  refine hboth.pair h₂ ⟨he.formed, ⟨hT, .question, List.mem_cons_self, ht⟩, h₁.formed,
    h₂.formed⟩ ?_
  simp [Node.ids, Expr.idsAll, Expr.ids]

/-- Each operand has numbers above those of the ones before. -/
theorem builds_tierRest (t : Tier) : Extends T (tierRest (n + 1) t) := by
  intro c a e he
  rw [tierRest]
  refine yields_acceptIf_bind (fun op rest h hop => ?_) fun _ => he
  obtain ⟨h₁, hT⟩ := he.skip h
  refine (ih.operand t _ h₁.tokens).bind fun e' c₁ he' => ih.tierRest t c₁ a _ ?_
  exact h₁.pair he' (formed_node he.formed hT hop he'.formed) (ids_node t e op e')

/-- An operator takes no number. -/
theorem builds_unary : Builds T .expr (unary (n + 1)) := by
  intro c htokens
  rw [unary]
  refine yields_acceptIf_bind (fun op rest h hop => ?_) fun _ => ?_
  · obtain ⟨h₁, hT⟩ := (Built.start htokens).skip h
    refine (ih.unary _ h₁.tokens).bind fun e c₁ he => ensures_pure.2 ?_
    refine he.keep ⟨⟨hT, ?_⟩, he.formed⟩ rfl
    simpa using hop
  · exact (ih.primary c htokens).bind fun e c₁ he => ih.callRest c₁ _ e he

/-- Arguments have numbers above those of the callee; field names take none. -/
theorem builds_callRest : Extends T (callRest (n + 1)) := by
  intro c a e he
  rw [callRest]
  refine yields_branch (fun paren rest h _ => ?_) fun _ => ?_
  · obtain ⟨h₁, -⟩ := he.skip h
    refine yields_unless (fun _ => ih.argumentsFrom 0 _ h₁.tokens) (fun _ => ?_)
      fun arguments c₁ hargs => ?_
    · exact Built.nothing (Nat.le_refl _) h₁.tokens trivial rfl
    · refine yields_expect_bind fun paren' rest' h' hparen => ?_
      obtain ⟨h₂, hT⟩ := hargs.skip h'
      refine ih.callRest _ a _ (h₁.pair h₂ ?_ rfl)
      exact ⟨he.formed, ⟨hT, .rightParen, List.mem_cons_self, hparen⟩, hargs.formed⟩
  · refine yields_branch (fun dot rest h _ => ?_) fun _ => he
    obtain ⟨h₁, -⟩ := he.skip h
    refine yields_expectName_bind fun name rest' h' hname => ?_
    obtain ⟨h₂, hT⟩ := h₁.skip h'
    exact ih.callRest _ a _ (h₂.keep ⟨he.formed, hT, hname⟩ rfl)

/-- Too many arguments are reported and kept, so `count` does not matter. -/
theorem builds_argumentsFrom (count : Nat) :
    Builds T .exprs (argumentsFrom (n + 1) count) := by
  intro c htokens
  rw [argumentsFrom]
  have hrest : ∀ c₁ : Cursor, c₁.nextNode = c.nextNode → (∀ t ∈ c₁.rest, T t) → (do
      let argument ← assignment n
      let rest ← branch .comma (fun _ => argumentsFrom n (count + 1)) (pure [])
      pure (argument :: rest) : Parse (List Expr)).Yields c₁
        fun es c' => Built T c.nextNode c' (.exprs es) := by
    intro c₁ hnext htokens₁
    refine (ih.assignment c₁ htokens₁).bind fun e c₂ he => ?_
    refine Yields.bind (Q := fun es c' => Built T c.nextNode c' (.exprs (e :: es))) ?_
      fun es c₃ hes => ensures_pure.2 hes
    refine yields_branch (fun comma rest h _ => ?_) fun _ => ?_
    · obtain ⟨h₁, -⟩ := he.skip h
      refine (ih.argumentsFrom (count + 1) _ h₁.tokens).mono fun es c' hes => ?_
      exact Built.cast (h₁.pair hes ⟨he.formed, hes.formed⟩ rfl) hnext
    · exact Built.cast (he.keep ⟨he.formed, trivial⟩ (List.append_nil _)) hnext
  refine Yields.ite (fun _ => ?_) fun _ => hrest c rfl htokens
  exact ensures_bind.2 (ensures_reportHere.2 (hrest _ rfl htokens))

/-- Only `this` and variables take a number. -/
theorem builds_primary : Builds T .expr (primary (n + 1)) := by
  intro c htokens
  rw [primary]
  refine ensures_bind.2 (ensures_get.2 ?_)
  cases hrest : c.rest with
  | nil => exact yields_fail
  | cons t rest =>
    obtain ⟨h₁, hT⟩ := (Built.start htokens).skip hrest
    have hskip : ∀ {p : Parse Expr}, p.Yields (c.moveTo rest)
        (fun y c' => Built T c.nextNode c' (.expr y)) →
        (do set (c.moveTo rest); p : Parse Expr).Yields c
          fun y c' => Built T c.nextNode c' (.expr y) := fun hp =>
      ensures_bind.2 (ensures_set.2 hp)
    have hliteral : ∀ l, (pure (.literal l) : Parse Expr).Yields (c.moveTo rest)
        fun y c' => Built T c.nextNode c' (.expr y) := fun l =>
      Built.nothing (Nat.le_refl _) h₁.tokens trivial rfl
    -- A variable node takes the next number.
    have hnode : ∀ {k : NodeId → Expr}, (k c.nextNode).Formed T →
        (k c.nextNode).ids = [c.nextNode] →
        (freshNode >>= fun id => (pure (k id) : Parse Expr)).Yields (c.moveTo rest)
          fun y c' => Built T c.nextNode c' (.expr y) := by
      intro k hformed hids
      refine ensures_bind.2 (ensures_freshNode.2 ⟨hformed, ?_, Nat.le_succ _, h₁.tokens⟩)
      show Numbered c.nextNode (c.nextNode + 1) (k c.nextNode).ids
      rw [hids]
      exact Numbered.singleton _
    simp only
    split
    · exact hskip (hliteral _)
    · exact hskip (hliteral _)
    · exact hskip (hliteral _)
    · exact hskip (hliteral _)
    · exact hskip (hliteral _)
    · next hkind =>
      refine hskip (hnode ⟨hT, .thisKw, List.mem_cons_self, ?_⟩ rfl)
      simp [Token.is, hkind]
    · next hkind =>
      refine hskip (hnode ⟨hT, ?_⟩ rfl)
      simp [Token.isIdentifier, hkind]
    · refine hskip ((ih.expression _ h₁.tokens).bind fun e c₁ he => ?_)
      exact yields_expect_bind fun paren rest' h' _ => (he.skip h').1.keep he.formed rfl
    · refine hskip (yields_expect_bind fun paren rest' h' _ => ?_)
      obtain ⟨h₂, -⟩ := h₁.skip h'
      exact builds_body (k := Expr.function) ih (by simp) (fun _ hd => hd) (fun _ => rfl) h₂.tokens
    · exact yields_fail

end

/-- **Reading builds well.** Every rule yields well-formed parts with numbers of their own. -/
theorem builds (T : Token → Prop) (n : Nat) : AllBuild T n := by
  induction n with
  | zero =>
    constructor <;> intros
    case conditional | commaRest | tierRest | callRest => exact fun _ _ _ _ => yields_throw
    all_goals exact fun _ _ => yields_throw
  | succ n ih =>
    exact {
      declaration := builds_declaration ih
      declarationOrStatement := builds_declarationOrStatement ih
      classDeclaration := builds_classDeclaration ih
      methods := builds_methods ih
      function := builds_function ih
      varDeclaration := builds_varDeclaration ih
      statement := builds_statement ih
      printStatement := builds_ended ih (fun _ h => h) fun _ => rfl
      expressionStatement := builds_ended ih (fun _ h => h) fun _ => rfl
      forStatement := builds_forStatement ih
      ifStatement := builds_ifStatement ih
      whileStatement := builds_whileStatement ih
      returnStatement := fun _ hT ht => builds_returnStatement ih hT ht
      block := fun c htokens => (ih.declarations c htokens).bind fun body c₁ hbody =>
        yields_expect_bind fun brace rest h _ => (hbody.skip h).1
      declarations := builds_declarations ih
      expression := fun c htokens => (ih.assignment c htokens).bind fun e c₁ he =>
        ih.commaRest c₁ _ e he
      commaRest := builds_commaRest ih
      assignment := builds_assignment ih
      conditional := fun _ hT ht => builds_conditional ih hT ht
      tier := fun t c htokens => (ih.operand t c htokens).bind fun e c₁ he =>
        ih.tierRest t c₁ _ e he
      tierRest := builds_tierRest ih
      operand := by
        rintro (_ | _ | _ | _ | _ | _)
        case factor => exact ih.unary
        all_goals exact ih.tier _
      unary := builds_unary ih
      callRest := builds_callRest ih
      argumentsFrom := builds_argumentsFrom ih
      primary := builds_primary ih }

/-- `builds` for the declarations of a whole program. -/
theorem builds_program (n : Nat) : Builds T .stmts (program n) := by
  induction n with
  | zero => exact fun _ _ => yields_throw
  | succ n ih =>
    intro c htokens
    rw [program]
    refine ensures_bind.2 (ensures_atEnd.2 (Yields.ite (fun _ => ?_) fun _ => ?_))
    · exact Built.nothing (Nat.le_refl _) htokens trivial rfl
    · refine ((builds T n).declaration c htokens).bind fun s c₁ hs => ?_
      refine (ih c₁ hs.tokens).bind fun ss c₂ hss => ensures_pure.2 ?_
      exact hs.pair hss (Stmt.formedAll_append hs.formed hss.formed) (Stmt.idsAll_append _ _)

end Rule

namespace Program

/-- The statements of a token list are well formed, what holds of its tokens holds of those they
    keep, and their numbers are from the range that reading takes up. -/
theorem built_parse {T : Token → Prop} (tokens : List Token) (nextNode : NodeId)
    (report : Report) (hT : ∀ t ∈ tokens, T t) :
    let p := parse tokens nextNode report
    Stmt.FormedAll T p.statements ∧
      Numbered nextNode p.nextNode (Stmt.idsAll p.statements) ∧ nextNode ≤ p.nextNode := by
  obtain ⟨statements, c, hrun, hparse⟩ := run_program tokens nextNode report
  have hbuilt := Rule.builds_program (T := T) (fuel tokens.length)
    (start tokens nextNode report) fun t ht => hT t ((List.takeWhile_prefix _).subset ht)
  have hbuilt := hbuilt.of_run hrun
  rw [hparse]
  exact ⟨hbuilt.formed, hbuilt.numbered, hbuilt.le⟩

end Program

end Scriptlet
