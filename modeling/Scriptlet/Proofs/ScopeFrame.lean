import Mathlib.Data.List.Forall2
import Scriptlet.Proofs.Visit

namespace Scriptlet

/-!
# What the walk does to the scopes around it

The walk over a part of a program leaves the scopes around it in place. It marks names as read, and
declares names in the innermost scope.

* `Binding.Kept` — a binding is what it was, or it was read meanwhile.
* `Walk.Touched names` — the scopes of a walk are kept, apart from `names` in the innermost one,
  which are declared there, and their initializers are over.
* `Walk.Passed.touched`, `Walk.touched_stmt` — what the walk over any part, or a statement, does.
* `Walk.Settled` — all initializers of names of the innermost scope are over. It is so in front of
  every statement.
-/

/-- A binding is what it was, or it was read meanwhile. -/
def Binding.Kept (b b' : Binding) : Prop := b' = b ∨ b' = b.markRead

/-- A scope with the same names, some of which were read meanwhile. -/
def LocalScope.Kept (s s' : LocalScope) : Prop :=
  ∀ x : String, Option.Rel Binding.Kept s[x]? s'[x]?

namespace Binding

variable {a b c : Binding}

theorem Kept.refl (b : Binding) : b.Kept b := .inl rfl

theorem Kept.trans (hab : a.Kept b) (hbc : b.Kept c) : a.Kept c := by
  rcases hab with rfl | rfl
  · exact hbc
  · rcases hbc with rfl | rfl
    · exact .inr rfl
    · exact .inr rfl

/-- A name that is kept does not come into an initializer of its own. -/
theorem Kept.usage_ne (h : a.Kept b) (ha : a.usage ≠ .declared) : b.usage ≠ .declared := by
  rcases h with rfl | rfl
  · exact ha
  · exact nofun

/-- The initializer of a name is over once `Walk.define` has seen it. -/
theorem usage_define_ne (b : Binding) : b.define.usage ≠ .declared := by
  unfold define
  split
  · exact nofun
  · assumption

end Binding

section Options

variable {α : Type} {R : α → α → Prop}

theorem rel_refl (hR : ∀ a, R a a) (o : Option α) : Option.Rel R o o := by
  cases o with
  | none => exact .none
  | some a => exact .some (hR a)

theorem rel_trans (hR : ∀ a b c, R a b → R b c → R a c) {o o' o'' : Option α}
    (h : Option.Rel R o o') (h' : Option.Rel R o' o'') : Option.Rel R o o'' := by
  cases h with
  | none => exact h'
  | some h =>
    cases h' with
    | some h' => exact .some (hR _ _ _ h h')

end Options

namespace LocalScope

variable {s s' s'' : LocalScope}

theorem Kept.refl (s : LocalScope) : s.Kept s := fun _ => rel_refl Binding.Kept.refl _

theorem Kept.trans (h : s.Kept s') (h' : s'.Kept s'') : s.Kept s'' :=
  fun x => rel_trans (R := Binding.Kept) (fun _ _ _ => .trans) (h x) (h' x)

/-- `Walk.markRead` keeps the scope that it touches. -/
theorem kept_markRead (s : LocalScope) (name : String) :
    s.Kept (s.modify name Binding.markRead) := by
  intro x
  rw [Std.TreeMap.getElem?_modify]
  split
  · next heq =>
    cases Std.LawfulEqCmp.eq_of_compare heq
    cases s[name]? with
    | none => exact .none
    | some b => exact .some (.inr rfl)
  · exact rel_refl Binding.Kept.refl _

theorem getElem?_insert_of_ne (s : LocalScope) {x y : String} (h : y ≠ x) (b : Binding) :
    (s.insert x b)[y]? = s[y]? := by
  rw [Std.TreeMap.getElem?_insert,
    if_neg fun heq => h (Std.LawfulEqCmp.eq_of_compare heq).symm]

theorem getElem?_modify_of_ne (s : LocalScope) {x y : String} (h : y ≠ x) (f : Binding → Binding) :
    (s.modify x f)[y]? = s[y]? := by
  rw [Std.TreeMap.getElem?_modify,
    if_neg fun heq => h (Std.LawfulEqCmp.eq_of_compare heq).symm]

end LocalScope

/-! ### Scopes before and after -/

namespace Walk

/-- The scopes are kept, apart from `names` in the innermost one: these are declared there, and
    their initializers are over. -/
inductive Touched (names : List Token) : List LocalScope → List LocalScope → Prop
  | nil : Touched names [] []
  | cons {s s' outer outer'}
      (kept : ∀ x, x ∉ names.map Token.lexeme → Option.Rel Binding.Kept s[x]? s'[x]?)
      (done : ∀ x ∈ names.map Token.lexeme, ∃ b, s'[x]? = some b ∧ b.usage ≠ .declared)
      (rest : List.Forall₂ LocalScope.Kept outer outer') :
      Touched names (s :: outer) (s' :: outer')

variable {names names' : List Token} {ss ss' ss'' : List LocalScope} {w w' : Walk}

/-- Scopes that are kept are touched without a declaration. -/
theorem touched_of_kept (h : List.Forall₂ LocalScope.Kept ss ss') : Touched [] ss ss' := by
  cases h with
  | nil => exact .nil
  | cons hs hrest => exact .cons (fun x _ => hs x) (fun x hx => absurd hx List.not_mem_nil) hrest

theorem Touched.refl (ss : List LocalScope) : Touched [] ss ss :=
  touched_of_kept (List.forall₂_same.2 fun s _ => LocalScope.Kept.refl s)

theorem kept_trans (h : List.Forall₂ LocalScope.Kept ss ss')
    (h' : List.Forall₂ LocalScope.Kept ss' ss'') : List.Forall₂ LocalScope.Kept ss ss'' := by
  induction h generalizing ss'' with
  | nil =>
    cases h'
    exact .nil
  | cons hs _ ih =>
    cases h' with
    | cons hs' hrest' => exact .cons (hs.trans hs') (ih hrest')

/-- One part of a program behind the other: a name of the first one stays declared in the second. -/
theorem Touched.trans (h : Touched names ss ss') (h' : Touched names' ss' ss'') :
    Touched (names ++ names') ss ss'' := by
  cases h with
  | nil =>
    cases h'
    exact .nil
  | cons hkept hdone hrest =>
    cases h' with
    | cons hkept' hdone' hrest' =>
      refine .cons (fun x hx => ?_) (fun x hx => ?_) (kept_trans hrest hrest')
      · rw [List.map_append] at hx
        obtain ⟨hx, hx'⟩ := not_or.1 fun hmem => hx (List.mem_append.2 hmem)
        exact rel_trans (R := Binding.Kept) (fun _ _ _ => .trans) (hkept x hx) (hkept' x hx')
      · by_cases hx' : x ∈ names'.map Token.lexeme
        · exact hdone' x hx'
        · -- A name of the first part only is kept by the second one.
          rw [List.map_append] at hx
          have hx := (List.mem_append.1 hx).resolve_right hx'
          obtain ⟨b, hb, husage⟩ := hdone x hx
          have hrel := hkept' x hx'
          rw [hb] at hrel
          generalize (_ : LocalScope)[x]? = found at hrel ⊢
          cases hrel with
          | some hb' => exact ⟨_, rfl, hb'.usage_ne husage⟩

/-- Around the innermost scope nothing is declared. -/
theorem Touched.tail (h : Touched names ss ss') :
    List.Forall₂ LocalScope.Kept ss.tail ss'.tail := by
  cases h with
  | nil => exact .nil
  | cons _ _ hrest => exact hrest

/-! ### One lemma per step of the walk -/

theorem scopes_checkReturn (w : Walk) (t : Token) (b : Bool) :
    (w.checkReturn t b).scopes = w.scopes := by
  unfold checkReturn
  simp only
  split <;> split <;> rfl

theorem scopes_refer (w : Walk) (id : NodeId) (t : Token) : (w.refer id t).scopes = w.scopes := by
  unfold refer
  split <;> rfl

/-- `Walk.markRead` keeps every scope, whichever of them holds the name. -/
theorem kept_modify (ss : List LocalScope) (d : Nat) (name : String) :
    List.Forall₂ LocalScope.Kept ss (ss.modify d (·.modify name Binding.markRead)) := by
  induction ss generalizing d with
  | nil => cases d <;> exact .nil
  | cons s ss ih =>
    cases d with
    | zero =>
      exact .cons (s.kept_markRead name) (List.forall₂_same.2 fun s _ => LocalScope.Kept.refl s)
    | succ d => exact .cons (.refl s) (ih d)

/-- A name is declared, some walk follows, and its initializer is over. -/
theorem touched_define {name : Token} (h : Touched [] (w.declare name).scopes w'.scopes) :
    Touched [name] w.scopes (w'.define name).scopes := by
  obtain ⟨scopes, body, inClass, depths, notes, report⟩ := w
  obtain ⟨scopes', body', inClass', depths', notes', report'⟩ := w'
  have h : Touched [] (declare ⟨scopes, body, inClass, depths, notes, report⟩ name).scopes
    scopes' := h
  cases scopes with
  | nil =>
    cases h
    exact .nil
  | cons s outer =>
    have hdeclare : (declare ⟨s :: outer, body, inClass, depths, notes, report⟩ name).scopes =
        s.insert name.lexeme ⟨name, .declared⟩ :: outer := by
      unfold declare
      simp only
    rw [hdeclare] at h
    cases h with
    | @cons _ s' _ outer' hkept _ hrest =>
      refine .cons (fun x hx => ?_) (fun x hx => ?_) hrest
      · have hne : x ≠ name.lexeme := fun heq => hx (List.mem_singleton.2 heq)
        have hrel := hkept x List.not_mem_nil
        rw [LocalScope.getElem?_insert_of_ne s hne] at hrel
        rw [LocalScope.getElem?_modify_of_ne s' hne]
        exact hrel
      · -- Whatever was read meanwhile, the name itself is still declared.
        cases List.mem_singleton.1 hx
        have hrel := hkept name.lexeme List.not_mem_nil
        rw [Std.TreeMap.getElem?_insert_self] at hrel
        rw [Std.TreeMap.getElem?_modify_self]
        generalize s'[name.lexeme]? = found at hrel ⊢
        cases hrel with
        | some => exact ⟨_, rfl, Binding.usage_define_ne _⟩

/-- A scope that was entered is left again. -/
theorem touched_closeScope {scope : LocalScope} {outer : List LocalScope}
    (h : Touched names (scope :: outer) w.scopes) : Touched [] outer w.closeScope.scopes := by
  rw [scopes_closeScope]
  exact touched_of_kept h.tail

/-! ### The whole walk -/

/-- The walk marks names as read, and declares names in the innermost scope. -/
theorem Passed.touched {ids : List NodeId}
    (h : Passed ids names w w') : Touched names w.scopes w'.scopes := by
  induction h with
  | refl | complain | skip => exact .refl _
  | trans _ _ ih ih' => exact ih.trans ih'
  | refer =>
    rw [scopes_refer]
    exact .refl _
  | @markRead w name =>
    unfold Walk.markRead
    split
    · exact .refl _
    · exact touched_of_kept (kept_modify _ _ _)
  | declare _ ih => exact touched_define ih
  | scope _ ih => exact touched_closeScope ih

/-- `Passed.touched` for a statement. -/
theorem touched_stmt (s : Stmt) (w : Walk) : Touched s.declared w.scopes (stmt s w).scopes :=
  (passed_stmt s w).touched

/-! ### Initializers that are over -/

/-- All initializers of names of the innermost scope are over. -/
def Settled (w : Walk) : Prop :=
  ∀ scope ∈ w.scopes.head?, ∀ (x : String) b, scope[x]? = some b → b.usage ≠ .declared

/-- In front of a statement no name is in its own initializer. -/
theorem Settled.inOwnInitializer_eq_false (h : w.Settled) (x : String) :
    w.inOwnInitializer x = false := by
  unfold inOwnInitializer
  unfold Settled at h
  cases hscopes : w.scopes with
  | nil => rfl
  | cons scope outer =>
    rw [hscopes] at h
    simp only
    cases hb : scope[x]? with
    | none => rfl
    | some b => exact decide_eq_false (h scope rfl x b hb)

/-- `Touched` scopes stay settled, since what is declared in them is over. -/
theorem Settled.touched (h : w.Settled) (ht : Touched names w.scopes w'.scopes) : w'.Settled := by
  unfold Settled at h ⊢
  generalize w.scopes = ss at h ht
  generalize w'.scopes = ss' at ht ⊢
  cases ht with
  | nil => exact fun scope hscope => absurd hscope nofun
  | @cons s s' _ _ hkept hdone _ =>
    intro scope hscope x b hb
    cases hscope
    by_cases hx : x ∈ names.map Token.lexeme
    · obtain ⟨b', hb', husage⟩ := hdone x hx
      cases hb.symm.trans hb'
      exact husage
    · have hrel := hkept x hx
      rw [hb] at hrel
      generalize hfound : s[x]? = found at hrel
      cases hrel with
      | some hkept => exact hkept.usage_ne (h s rfl x _ hfound)

/-- A new scope has no names yet. -/
theorem settled_openBlock (w : Walk) : (w.openScope ∅).Settled := by
  intro scope hscope x b hb
  cases hscope
  simp at hb

/-- Parameters have no initializers. -/
theorem settled_enterFunction (kind : Body) (decl : FunDecl) (w : Walk) :
    (w.enterFunction kind decl).Settled :=
  (settled_openBlock { w with body := kind }).touched (passed_foldl_introduce decl.params _).touched

end Walk

end Scriptlet
