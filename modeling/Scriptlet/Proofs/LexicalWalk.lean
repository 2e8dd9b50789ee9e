import Scriptlet.Proofs.Built
import Scriptlet.Proofs.LexicalScopes
import Scriptlet.Token.Lexer

namespace Scriptlet

/-!
# The scopes of names along the walk

* `Node.Knows` — scopes hold what was declared in front of a path, and know what was read, and what
  is in its own initializer.
* `Walk.Snap` — the scopes of a walk do, and it knows which function and class the path is in.
* `Walk.Snap.enter`, `Walk.Snap.leave` — it stays so in front of the parts of a part of a tree, and
  behind them; `Walk.Along.past` — whatever stays so holds along the whole walk.
* `Walk.Snap.depth?_eq_some_iff` — the distance of a name is that of the scope it resolves to.
* `Resolution.recorded_depths_are_lexical` — so are the depths that are recorded.
-/

namespace Node

/-- Scopes know at `b` all that is to be known about the scopes of `qs`. -/
def Knows (root : Node) (b : Path) (qs : List Path) (scopes : List LocalScope) : Prop :=
  List.Forall₂ (fun q (scope : LocalScope) => ∀ x, root.Tells q b x scope[x]?) qs scopes

namespace Knows

variable {root : Node} {b : Path} {qs : List Path} {scopes : List LocalScope} {k : Nat} {q : Path}
  {scope : LocalScope} {x : String}

theorem tells (h : root.Knows b qs scopes) (hq : qs[k]? = some q)
    (hscope : scopes[k]? = some scope) (x : String) : root.Tells q b x scope[x]? := by
  obtain ⟨hk, rfl⟩ := List.getElem?_eq_some_iff.1 hq
  obtain ⟨hk', rfl⟩ := List.getElem?_eq_some_iff.1 hscope
  exact List.Forall₂.get h hk hk' x

theorem of_tells (hlength : qs.length = scopes.length)
    (h : ∀ (k : Nat) q scope, qs[k]? = some q → scopes[k]? = some scope →
      ∀ x, root.Tells q b x scope[x]?) : root.Knows b qs scopes := by
  refine List.forall₂_iff_get.2 ⟨hlength, fun k hk hk' => ?_⟩
  exact h k _ _ (List.getElem?_eq_getElem hk) (List.getElem?_eq_getElem hk')

/-- A scope holds the names that it knows. -/
theorem contains_iff (h : root.Knows b qs scopes) (hq : qs[k]? = some q)
    (hscope : scopes[k]? = some scope) : scope.contains x = true ↔ root.Holds q b x := by
  rw [Std.TreeMap.contains_eq_isSome_getElem?]
  exact (h.tells hq hscope x).isSome_iff

theorem getElem?_isSome (h : root.Knows b qs scopes) (hq : qs[k]? = some q) :
    ∃ scope, scopes[k]? = some scope := by
  obtain ⟨hk, -⟩ := List.getElem?_eq_some_iff.1 hq
  exact ⟨_, List.getElem?_eq_getElem (h.length_eq ▸ hk)⟩

end Knows

end Node

namespace Walk

/-- What a walk knows at `b`. -/
structure Snap (root : Node) (b : Path) (w : Walk) : Prop where
  scopes : root.Knows b (root.scopesAt b) w.scopes
  body : w.body = root.bodyAt b
  inClass : w.inClass = root.inClassAt b

variable {root n : Node} {b p : Path} {w w' : Walk} {x : String} {k : Nat} {name : Token}

/-- The walk in front of a whole tree. -/
theorem Snap.start (root : Node) (depths : Depths) (report : Report) :
    (Resolution.start depths report).Snap root [] := ⟨.nil, rfl, rfl⟩

/-! ### Distances -/

/-- The distance of a name is that of the scope it resolves to. -/
theorem Snap.depth?_eq_some_iff (hw : w.Snap root b) :
    w.depth? x = some k ↔ ∃ q, root.Resolves b x k q := by
  unfold depth?
  rw [List.findIdx?_eq_some_iff_getElem]
  constructor
  · rintro ⟨hk, hcontains, hfirst⟩
    have hk' : k < (root.scopesAt b).length := hw.scopes.length_eq ▸ hk
    refine ⟨(root.scopesAt b)[k], List.getElem?_eq_getElem hk', ?_, fun j hj q' hq' => ?_⟩
    · exact (hw.scopes.contains_iff (List.getElem?_eq_getElem hk')
        (List.getElem?_eq_getElem hk)).1 hcontains
    · rw [← hw.scopes.contains_iff hq' (List.getElem?_eq_getElem (hj.trans hk))]
      exact hfirst j hj
  · rintro ⟨q, hscope, hholds, hfirst⟩
    obtain ⟨scope, hk⟩ := hw.scopes.getElem?_isSome hscope
    obtain ⟨hlt, rfl⟩ := List.getElem?_eq_some_iff.1 hk
    refine ⟨hlt, (hw.scopes.contains_iff hscope hk).2 hholds, fun j hj => ?_⟩
    have hj' : j < (root.scopesAt b).length := hw.scopes.length_eq ▸ hj.trans hlt
    rw [hw.scopes.contains_iff (List.getElem?_eq_getElem hj')
      (List.getElem?_eq_getElem (hj.trans hlt))]
    exact hfirst j hj _ (List.getElem?_eq_getElem hj')

/-- A name without a distance is in none of the scopes. -/
theorem Snap.depth?_eq_none_iff (hw : w.Snap root b) :
    w.depth? x = none ↔ ∀ q ∈ root.scopesAt b, ¬ root.Holds q b x := by
  unfold depth?
  rw [List.findIdx?_eq_none_iff]
  constructor
  · intro h q hq hholds
    obtain ⟨k, hk⟩ := List.mem_iff_getElem?.1 hq
    obtain ⟨scope, hscope⟩ := hw.scopes.getElem?_isSome hk
    have hcontains := (hw.scopes.contains_iff hk hscope).2 hholds
    rw [h scope (List.mem_of_getElem? hscope)] at hcontains
    cases hcontains
  · intro h scope hscope
    obtain ⟨k, hk⟩ := List.mem_iff_getElem?.1 hscope
    obtain ⟨hlt, -⟩ := List.getElem?_eq_some_iff.1 hk
    have hq := List.getElem?_eq_getElem (hw.scopes.length_eq ▸ hlt : k < (root.scopesAt b).length)
    rw [← Bool.not_eq_true, hw.scopes.contains_iff hq hk]
    exact h _ (List.mem_of_getElem? hq)

end Walk

/-! ### In front of the parts -/

namespace Node

/-- A part of a tree that reads a name. -/
def isReference : Node → Bool
  | .expr (.variable _ _) => true
  | .expr (.thisRef _ _) => true
  | _ => false

variable {root n : Node} {p q r b : Path} {x : String} {found : Option Binding}

theorem Reads.isReference (h : root.Reads p x) (hp : root.at? p = some n) :
    n.isReference = true := by
  cases h with
  | name h =>
    cases h.symm.trans hp
    rfl
  | this h =>
    cases h.symm.trans hp
    rfl

theorem not_declares (hp : root.at? p = some n) (hn : n.declared? = none)
    (hq : q ∈ root.scopesAt p) : ¬ root.Declares q x p := by
  intro h
  obtain ⟨name, hname, -⟩ := h.declared (before_of_mem_scopesAt hq).ne.symm hp
  rw [hn] at hname
  cases hname

/-- Nothing happens to the scopes around a part that neither declares nor reads a name. -/
theorem Knows.enter {scopes : List LocalScope} (h : root.Knows p (root.scopesAt p) scopes)
    (hp : root.at? p = some n) (hn : n.declared? = none) (hreads : n.isReference = false) :
    root.Knows (p ++ [0]) (root.scopesAt p) scopes := by
  refine .of_tells h.length_eq fun k q scope hq hscope x => ?_
  refine (h.tells hq hscope x).enter (not_declares hp hn (List.mem_of_getElem? hq)) ?_
  intro r hread
  rw [hread.isReference hp] at hreads
  cases hreads

/-- A name that is read is known to be read in the scope that it resolves to. -/
theorem Tells.markRead (h : root.Tells q p x found) (hdeclares : ¬ root.Declares q x p)
    (hreads : root.Reads p x) (hhome : ∃ k, root.Resolves p x k q) :
    root.Tells q (p ++ [0]) x (found.map Binding.markRead) := by
  have hsame : ∀ r, root.Declares q x r → (r.Before (p ++ [0]) ↔ r.Before p) :=
    fun r hr => hr.before_concat_zero_iff hdeclares
  cases h with
  | unknown h =>
    refine .unknown ?_
    rintro ⟨r, hr, hb⟩
    exact h ⟨r, hr, (hsame r hr).1 hb⟩
  | @known r binding hr =>
    refine .known ((Latest.congr hsame).2 hr) (.inr ⟨p, ?_, hreads, hhome, hr⟩)
    exact Path.before_concat_zero.2 (.inr rfl)

end Node

namespace Walk

variable {root n : Node} {b p : Path} {w w' : Walk} {x : String} {k : Nat} {name : Token}

/-- Marking the name that is read at a path. -/
theorem Snap.knows_markRead (hw : w.Snap root p) (hp : root.at? p = some n)
    (hn : n.declared? = none) (hreads : root.Reads p name.lexeme)
    (honly : ∀ x, root.Reads p x → x = name.lexeme) :
    root.Knows (p ++ [0]) (root.scopesAt p) (w.markRead name).scopes := by
  have hnot {q : Path} {k : Nat} {x : String} (hq : (root.scopesAt p)[k]? = some q) :
      ¬ root.Declares q x p := Node.not_declares hp hn (List.mem_of_getElem? hq)
  unfold markRead
  cases hd : w.depth? name.lexeme with
  | none =>
    refine .of_tells hw.scopes.length_eq fun k q scope hq hscope x => ?_
    refine (hw.scopes.tells hq hscope x).enter (hnot hq) fun r hr hmeans => ?_
    obtain ⟨d, hd'⟩ := hmeans.home
    rw [honly x hr] at hd'
    rw [hw.depth?_eq_some_iff.2 ⟨q, hd'⟩] at hd
    cases hd
  | some d =>
    -- Only the scope that the name resolves to is changed, and there only the name.
    obtain ⟨home, hhome⟩ := hw.depth?_eq_some_iff.1 hd
    refine .of_tells (by simpa using hw.scopes.length_eq) fun k q scope hq hscope x => ?_
    rw [List.getElem?_modify] at hscope
    obtain ⟨scope, hk, rfl⟩ := Option.map_eq_some_iff.1 hscope
    have htells := hw.scopes.tells hq hk x
    by_cases hdk : d = k
    · subst hdk
      cases hq.symm.trans hhome.scope
      rw [if_pos rfl]
      by_cases hx : x = name.lexeme
      · subst hx
        rw [Std.TreeMap.getElem?_modify_self]
        exact htells.markRead (hnot hq) hreads ⟨d, hhome⟩
      · rw [LocalScope.getElem?_modify_of_ne _ hx]
        exact htells.enter (hnot hq) fun r hr => absurd (honly x hr) hx
    · -- The name resolves to another scope.
      rw [if_neg hdk]
      refine htells.enter (hnot hq) fun r hr hmeans => ?_
      obtain ⟨d', hd'⟩ := hmeans.home
      rw [honly x hr] at hd'
      obtain rfl := hhome.unique hd'
      have hlt := (List.getElem?_eq_some_iff.1 hq).1
      exact hdk ((List.getElem?_inj hlt (Node.nodup_scopesAt root p)).1
        (hq.trans hd'.scope.symm)).symm

/-- A name is declared in the innermost scope. -/
inductive Gains (name : Token) (usage : Usage) : List LocalScope → List LocalScope → Prop
  | nil : Gains name usage [] []
  | cons {scope scope' outer}
      (h : ∀ x, scope'[x]? = if x = name.lexeme then some ⟨name, usage⟩ else scope[x]?) :
      Gains name usage (scope :: outer) (scope' :: outer)

theorem gains_declare (w : Walk) (name : Token) :
    Gains name .declared w.scopes (w.declare name).scopes := by
  unfold declare
  cases hscopes : w.scopes with
  | nil =>
    simp only [hscopes]
    exact .nil
  | cons scope outer =>
    refine .cons fun x => ?_
    by_cases hx : x = name.lexeme
    · subst hx
      rw [if_pos rfl, Std.TreeMap.getElem?_insert_self]
    · rw [if_neg hx, LocalScope.getElem?_insert_of_ne _ hx]

theorem gains_introduce (w : Walk) (name : Token) :
    Gains name .defined w.scopes (w.introduce name).scopes := by
  have h := gains_declare w name
  unfold introduce define
  cases hscopes : (w.declare name).scopes with
  | nil =>
    rw [hscopes] at h
    simp only [hscopes]
    generalize w.scopes = scopes at h
    cases h
    exact .nil
  | cons scope outer =>
    rw [hscopes] at h
    generalize w.scopes = scopes at h
    cases h with
    | cons h =>
      refine .cons fun x => ?_
      by_cases hx : x = name.lexeme
      · subst hx
        rw [Std.TreeMap.getElem?_modify_self, h, if_pos rfl, if_pos rfl]
        rfl
      · rw [LocalScope.getElem?_modify_of_ne _ hx, h, if_neg hx, if_neg hx]

/-- Declaring the name that is declared at a path. -/
theorem knows_of_gains {scopes scopes' : List LocalScope} {usage : Usage}
    (h : root.Knows p (root.scopesAt p) scopes) (hp : root.at? p = some n)
    (hname : n.declared? = some name) (hreads : n.isReference = false)
    (husage : usage = if n.isVarDecl then .declared else .defined)
    (hgains : Gains name usage scopes scopes') :
    root.Knows (p ++ [0]) (root.scopesAt p) scopes' := by
  have hunread {q : Path} {x : String} (r : Path) (hread : root.Reads p x) :
      ¬ root.Means p x q r := by
    rw [hread.isReference hp] at hreads
    cases hreads
  generalize hqs : root.scopesAt p = qs at h ⊢
  cases hgains with
  | nil =>
    cases h
    exact .nil
  | @cons scope scope' outer hfound =>
    cases h with
    | @cons q _ qs' _ htells hrest =>
      refine .cons (fun x => ?_) ?_
      · rw [hfound]
        by_cases hx : x = name.lexeme
        · -- The new declaration is the last one, and nothing has read it.
          rw [if_pos hx]
          have hmem : q ∈ root.scopesAt p := hqs ▸ List.mem_cons_self
          have hread : ¬ root.WasRead q (p ++ [0]) x p :=
            Node.not_wasRead_concat_zero fun h => (Node.before_of_mem_scopesAt hmem).ne h.1.symm
          have hprogress : root.InProgress p (p ++ [0]) ↔ n.isVarDecl = true := by
            unfold Node.InProgress
            rw [Path.above_concat, hp, Option.any_some]
            exact and_iff_left List.mem_cons_self
          refine .known ((Node.declares_iff hqs hp hname).2 hx).latest ?_
          rw [husage]
          cases hvar : n.isVarDecl with
          | true => exact ⟨hread, hprogress.2 hvar⟩
          | false => exact ⟨hread, fun h => by rw [hprogress.1 h] at hvar; cases hvar⟩
        · rw [if_neg hx]
          exact (htells x).enter (fun h => hx ((Node.declares_iff hqs hp hname).1 h)) hunread
      · -- The outer scopes do not gain the name.
        refine Node.Knows.of_tells hrest.length_eq fun k q' scope hq' hscope x => ?_
        refine (Node.Knows.tells hrest hq' hscope x).enter ?_ hunread
        exact Node.not_declares_outer hqs (List.mem_of_getElem? hq')

/-- Several names are declared in the innermost scope. -/
theorem exists_foldl_introduce (names : List Token) {scope : LocalScope} {outer : List LocalScope}
    (hw : w.scopes = scope :: outer) :
    ∃ scope', (names.foldl introduce w).scopes = scope' :: outer ∧
      (∀ x ∉ names.map Token.lexeme, scope'[x]? = scope[x]?) ∧
      ∀ x ∈ names.map Token.lexeme, ∃ token, scope'[x]? = some ⟨token, .defined⟩ := by
  induction names generalizing w scope with
  | nil => exact ⟨scope, hw, fun _ _ => rfl, fun x hx => absurd hx List.not_mem_nil⟩
  | cons name names ih =>
    have hgains := gains_introduce w name
    rw [hw] at hgains
    generalize hmid : (w.introduce name).scopes = mid at hgains
    cases hgains with
    | @cons _ scope₁ _ hfound =>
      obtain ⟨scope', hscopes, hkept, hnew⟩ := ih hmid
      refine ⟨scope', hscopes, fun x hx => ?_, fun x hx => ?_⟩
      · rw [List.map_cons, List.mem_cons, not_or] at hx
        rw [hkept x hx.2, hfound, if_neg hx.1]
      · by_cases hx' : x ∈ names.map Token.lexeme
        · exact hnew x hx'
        · rw [List.map_cons, List.mem_cons, or_iff_left hx'] at hx
          exact ⟨name, by rw [hkept x hx', hfound, if_pos hx]⟩

/-- A function starts with its parameters, which nothing has read. -/
theorem tells_params {kind : Body} {decl : FunDecl} {scope : LocalScope}
    (hp : root.at? p = some (.function kind decl))
    (hother : ∀ x ∉ decl.params.map Token.lexeme, scope[x]? = none)
    (hparam : ∀ x ∈ decl.params.map Token.lexeme, ∃ token, scope[x]? = some ⟨token, .defined⟩)
    (x : String) : root.Tells p (p ++ [0]) x scope[x]? := by
  by_cases hx : x ∈ decl.params.map Token.lexeme
  · obtain ⟨token, hfound⟩ := hparam x hx
    rw [hfound]
    have hdeclares : root.Declares p x p := .first hp hx
    refine .known hdeclares.latest ⟨Node.not_wasRead_concat_zero ?_, ?_⟩
    · rw [hp]
      exact fun h => absurd h.2 nofun
    · unfold Node.InProgress
      rw [hp]
      exact fun h => absurd h.1 nofun
  · rw [hother x hx]
    exact .unknown (Node.not_holds_of_not_mem hp hx)

/-- The methods of a class start with `this`. -/
theorem tells_this {methods : List FunDecl}
    (hp : root.at? p = some (.stmt (.classDecl name methods))) (x : String) :
    root.Tells p (p ++ [0]) x (thisScope name.line)[x]? := by
  unfold thisScope
  by_cases hx : x = "this"
  · subst hx
    rw [Std.TreeMap.getElem?_insert_self]
    have hdeclares : root.Declares p "this" p := .first hp (List.mem_singleton_self _)
    refine .known hdeclares.latest (.inl ⟨rfl, ?_⟩)
    rw [hp]
    rfl
  · rw [LocalScope.getElem?_insert_of_ne _ hx]
    exact .unknown (Node.not_holds_of_not_mem hp fun h => hx (List.mem_singleton.1 h))

/-- What is marked depends on the scopes alone. -/
theorem scopes_markRead_congr (h : w'.scopes = w.scopes) (name : Token) :
    (w'.markRead name).scopes = (w.markRead name).scopes := by
  unfold markRead depth?
  rw [h]
  cases w.scopes.findIdx? (·.contains name.lexeme) with
  | none => exact h
  | some d => rfl

/-- **Entering.** In front of the parts of a part of a tree, the scopes know what is declared and
    read there. -/
theorem Snap.knows_enter (hw : w.Snap root p) (hp : root.at? p = some n) :
    root.Knows (p ++ [0]) (root.scopesAt (p ++ [0])) (w.enter n).scopes := by
  rw [Node.scopesAt_concat hp]
  have hquiet (hn : n.declared? = none) (hreads : n.isReference = false) :
      root.Knows (p ++ [0]) (root.scopesAt p) w.scopes := hw.scopes.enter hp hn hreads
  have hgains {name : Token} {usage : Usage} {scopes' : List LocalScope}
      (hname : n.declared? = some name) (hreads : n.isReference = false)
      (husage : usage = if n.isVarDecl then .declared else .defined)
      (h : Gains name usage w.scopes scopes') : root.Knows (p ++ [0]) (root.scopesAt p) scopes' :=
    knows_of_gains hw.scopes hp hname hreads husage h
  cases n with
  | expr e =>
    cases e with
    | «variable» id name =>
      have hreads : root.Reads p name.lexeme := .name hp
      have hmark := hw.knows_markRead hp rfl hreads fun x hx => by
        cases hx with
        | name h =>
          cases h.symm.trans hp
          rfl
        | this h => cases h.symm.trans hp
      -- Neither a complaint nor the depth that is recorded changes the scopes.
      show root.Knows _ (root.scopesAt p)
        (markRead (refer (if _ then _ else _) id name) name).scopes
      rw [scopes_markRead_congr (w := w)]
      · exact hmark
      · rw [scopes_refer]
        split <;> rfl
    | thisRef id keyword =>
      show root.Knows _ (root.scopesAt p) (if w.inClass = true then w.read id keyword else _).scopes
      split
      · next hclass =>
        rw [read, scopes_markRead_congr (scopes_refer w id keyword)]
        refine hw.knows_markRead hp rfl (.this hp (hw.inClass ▸ hclass)) fun x hx => ?_
        cases hx with
        | name h => cases h.symm.trans hp
        | this h =>
          cases h.symm.trans hp
          rfl
      · -- Outside of a class, nothing is read.
        next hclass =>
        refine .of_tells hw.scopes.length_eq fun k q scope hq hscope x => ?_
        refine (hw.scopes.tells hq hscope x).enter
          (Node.not_declares hp rfl (List.mem_of_getElem? hq)) fun r hr => ?_
        cases hr with
        | name h => cases h.symm.trans hp
        | this h hinside => exact absurd (hw.inClass.trans hinside) hclass
    | _ => exact hquiet rfl rfl
  | stmt s =>
    cases s with
    | varDecl name e => exact hgains rfl rfl rfl (gains_declare w name)
    | block body =>
      refine .cons (fun x => ?_) (hquiet rfl rfl)
      rw [Std.TreeMap.getElem?_emptyc]
      exact .unknown (Node.not_holds_of_not_mem hp List.not_mem_nil)
    | funDecl decl =>
      show root.Knows _ _ (w.nameFunction decl).scopes
      unfold nameFunction
      cases hname : decl.name? with
      | none => exact hquiet hname rfl
      | some name => exact hgains hname rfl rfl (gains_introduce w name)
    | ret keyword e =>
      show root.Knows _ _ (w.checkReturn keyword e.isSome).scopes
      rw [scopes_checkReturn]
      exact hquiet rfl rfl
    | classDecl name methods =>
      exact .cons (tells_this hp)
        (hgains rfl rfl rfl (gains_introduce { w with inClass := true } name))
    | _ => exact hquiet rfl rfl
  | function kind decl =>
    obtain ⟨scope, hscopes, hother, hparam⟩ :=
      exists_foldl_introduce (w := { w with body := kind }.openScope ∅) decl.params rfl
    show root.Knows _ _ (decl.params.foldl introduce _).scopes
    rw [hscopes]
    refine .cons (tells_params hp (fun x hx => ?_) hparam) (hquiet rfl rfl)
    rw [hother x hx, Std.TreeMap.getElem?_emptyc]
  | _ => exact hquiet rfl rfl

/-- The function and the class that the parts of a part of a tree are in. -/
theorem context_enter (n : Node) (w : Walk) :
    (w.enter n).context = (n.bodyKind?.getD w.body, n.isClass || w.inClass) := by
  cases n with
  | expr e =>
    cases e with
    | «variable» id name => exact context_expr _ w
    | thisRef id keyword => exact context_expr _ w
    | _ => rfl
  | stmt s =>
    cases s with
    | varDecl name e => exact (onlyScopes_declare w name).context
    | funDecl decl =>
      show (w.nameFunction decl).context = _
      unfold nameFunction
      split
      · exact (onlyScopes_introduce w _).context
      · rfl
    | ret keyword e => exact context_checkReturn w keyword _
    | classDecl name methods => exact (onlyScopes_introduce { w with inClass := true } name).context
    | _ => rfl
  | function kind decl => exact (passed_foldl_introduce _ _).context_eq
  | _ => rfl

theorem Snap.enter (hw : w.Snap root p) (hp : root.at? p = some n) :
    (w.enter n).Snap root (p ++ [0]) := by
  have hcontext := context_enter n w
  refine ⟨hw.knows_enter hp, ?_, ?_⟩
  · rw [Node.bodyAt_concat hp, ← hw.body]
    exact congrArg Prod.fst hcontext
  · rw [Node.inClassAt_concat hp, ← hw.inClass]
    exact congrArg Prod.snd hcontext

end Walk

/-! ### Behind the parts -/

namespace Node

variable {root n : Node} {p q r : Path} {i : Nat} {x : String} {found : Option Binding}

/-- In front of the next part is what is in front of the end of this one. -/
theorem before_succ_iff (hp : root.at? (p ++ [i]) = some n) (hr : (root.at? r).isSome = true) :
    r.Before (p ++ [i + 1]) ↔ r.Before (p ++ [i] ++ [n.children.length]) := by
  rw [Path.before_concat_succ, before_concat_length hr hp]

/-- Only the initializer that ends here is over. -/
theorem inProgress_succ_iff (hne : r ≠ p ++ [i]) (c : Nat) :
    root.InProgress r (p ++ [i + 1]) ↔ root.InProgress r (p ++ [i] ++ [c]) := by
  unfold InProgress
  rw [Path.above_concat, Path.above_concat, Path.above_concat, List.mem_cons (b := p ++ [i]),
    or_iff_right hne]

/-- Nothing else happens at the end of a part of a tree. -/
theorem Tells.leave (h : root.Tells q (p ++ [i] ++ [n.children.length]) x found)
    (hp : root.at? (p ++ [i]) = some n)
    (hdone : n.isVarDecl = true → ¬ root.Declares q x (p ++ [i])) :
    root.Tells q (p ++ [i + 1]) x found := by
  refine h.congr (fun r hr => before_succ_iff hp hr.isSome_at?)
    (fun r p' hp' _ => before_succ_iff hp hp'.isSome_at?) fun r hr => ?_
  by_cases hne : r = p ++ [i]
  · -- Only variables have initializers.
    subst hne
    have hvar : ¬ (root.at? (p ++ [i])).any isVarDecl = true := by
      rw [hp]
      exact fun h => hdone h hr.declares
    exact ⟨fun h => absurd h.1 hvar, fun h => absurd h.1 hvar⟩
  · exact inProgress_succ_iff hne _

/-- The initializer of a variable is over. -/
theorem Tells.define (h : root.Tells q (p ++ [i] ++ [n.children.length]) x found)
    (hp : root.at? (p ++ [i]) = some n) (hdeclares : root.Declares q x (p ++ [i])) :
    root.Tells q (p ++ [i + 1]) x (found.map Binding.define) := by
  have hbefore : ∀ r, root.Declares q x r →
      (r.Before (p ++ [i + 1]) ↔ r.Before (p ++ [i] ++ [n.children.length])) :=
    fun r hr => before_succ_iff hp hr.isSome_at?
  cases h with
  | unknown h => exact absurd ⟨p ++ [i], hdeclares, Path.before_append _ _ []⟩ h
  | @known r binding hr hused =>
    have hread : root.WasRead q (p ++ [i + 1]) x r ↔
        root.WasRead q (p ++ [i] ++ [n.children.length]) x r :=
      WasRead.congr fun p' hp' _ => before_succ_iff hp hp'.isSome_at?
    -- The last declaration is not further out than this one.
    have hprogress : ¬ root.InProgress r (p ++ [i + 1]) := by
      rintro ⟨-, hmem⟩
      rw [Path.above_concat, ← Path.above_concat p i] at hmem
      exact hr.last _ hdeclares (Path.before_append _ _ []) (Path.before_of_mem_above hmem)
    refine .known ((Latest.congr hbefore).2 hr) ?_
    obtain ⟨token, usage⟩ := binding
    cases usage with
    | read => exact hread.2 hused
    | declared => exact ⟨fun h => hused.1 (hread.1 h), hprogress⟩
    | defined => exact ⟨fun h => hused.1 (hread.1 h), hprogress⟩

theorem Knows.leave {scopes : List LocalScope} {qs : List Path}
    (h : root.Knows (p ++ [i] ++ [n.children.length]) qs scopes)
    (hp : root.at? (p ++ [i]) = some n) (hn : n.isVarDecl = false) :
    root.Knows (p ++ [i + 1]) qs scopes := by
  refine .of_tells h.length_eq fun k q scope hq hscope x => ?_
  refine (h.tells hq hscope x).leave hp fun hvar => ?_
  rw [hn] at hvar
  cases hvar

theorem scopesAt_succ (root : Node) (p : Path) (i j : Nat) :
    root.scopesAt (p ++ [i]) = root.scopesAt (p ++ [j]) := by
  unfold scopesAt
  rw [Path.above_concat, Path.above_concat]

end Node

namespace Walk

variable {root n : Node} {p : Path} {i : Nat} {w start : Walk} {name : Token}

/-- The initializer of the variable that is declared at a path is over. -/
theorem knows_define {e : Option Expr}
    (hp : root.at? (p ++ [i]) = some (.stmt (.varDecl name e)))
    (h : root.Knows (p ++ [i] ++ [(Node.stmt (.varDecl name e)).children.length])
      (root.scopesAt (p ++ [i])) w.scopes) :
    root.Knows (p ++ [i + 1]) (root.scopesAt (p ++ [i])) (w.define name).scopes := by
  unfold define
  generalize hqs : root.scopesAt (p ++ [i]) = qs at h ⊢
  cases hscopes : w.scopes with
  | nil =>
    rw [hscopes] at h
    cases h
    simp only [hscopes]
    exact .nil
  | cons scope outer =>
    rw [hscopes] at h
    cases h with
    | @cons q _ qs' _ htells hrest =>
      refine .cons (fun x => ?_) ?_
      · by_cases hx : x = name.lexeme
        · subst hx
          rw [Std.TreeMap.getElem?_modify_self]
          exact (htells _).define hp ((Node.declares_iff hqs hp rfl).2 rfl)
        · rw [LocalScope.getElem?_modify_of_ne _ hx]
          exact (htells x).leave hp fun _ h => hx ((Node.declares_iff hqs hp rfl).1 h)
      · -- In the outer scopes, the name means something else.
        refine Node.Knows.of_tells hrest.length_eq fun k q' scope hq' hscope x => ?_
        refine (Node.Knows.tells hrest hq' hscope x).leave hp fun _ => ?_
        exact Node.not_declares_outer hqs (List.mem_of_getElem? hq')

/-- **Leaving.** Behind the end of a part of a tree, the scopes around it know what it declared and
    read. -/
theorem knows_leave (hp : root.at? (p ++ [i]) = some n)
    (hw : root.Knows (p ++ [i] ++ [n.children.length])
      (root.scopesAt (p ++ [i] ++ [n.children.length])) w.scopes) :
    root.Knows (p ++ [i + 1]) (root.scopesAt (p ++ [i + 1])) (leave start n w).scopes := by
  rw [root.scopesAt_succ p (i + 1) i]
  rw [Node.scopesAt_concat hp] at hw
  have hclose (h : root.Knows (p ++ [i] ++ [n.children.length])
      ((p ++ [i]) :: root.scopesAt (p ++ [i])) w.scopes) (hn : n.isVarDecl = false) :
      root.Knows (p ++ [i + 1]) (root.scopesAt (p ++ [i])) w.closeScope.scopes := by
    have h := h.leave hp hn
    rw [scopes_closeScope]
    generalize w.scopes = scopes at h
    cases h with
    | cons _ hrest => exact hrest
  cases n with
  | expr e =>
    cases e with
    | assign id name e =>
      show root.Knows _ _ (w.refer id name).scopes
      rw [scopes_refer]
      exact hw.leave hp rfl
    | _ => exact hw.leave hp rfl
  | stmt s =>
    cases s with
    | varDecl name e => exact knows_define hp hw
    | block body => exact hclose hw rfl
    | classDecl name methods => exact hclose hw rfl
    | _ => exact hw.leave hp rfl
  | function kind decl => exact hclose hw rfl
  | _ => exact hw.leave hp rfl

/-- The function and the class that a part of a tree is in, when the walk is behind it. -/
theorem context_leave (start : Walk) (n : Node) (w : Walk) :
    (leave start n w).context =
      (if n.bodyKind?.isSome then start.body else w.body,
        if n.isClass then start.inClass else w.inClass) := by
  cases n with
  | expr e =>
    cases e with
    | assign id name e => exact context_refer w id name
    | _ => rfl
  | stmt s =>
    cases s with
    | varDecl name e => exact (onlyScopes_define w name).context
    | block body => exact (onlyScopes_closeScope w).context
    | classDecl name methods =>
      exact congrArg (·, start.inClass) (congrArg Prod.fst (onlyScopes_closeScope w).context)
    | _ => rfl
  | function kind decl =>
    exact congrArg (start.body, ·) (congrArg Prod.snd (onlyScopes_closeScope w).context)
  | _ => rfl

theorem Snap.leave (hp : root.at? (p ++ [i]) = some n) (hstart : start.Snap root (p ++ [i]))
    (hw : w.Snap root (p ++ [i] ++ [n.children.length])) :
    (leave start n w).Snap root (p ++ [i + 1]) := by
  have hcontext := context_leave start n w
  -- Neighbours are inside of the same functions and classes.
  have hbody : root.bodyAt (p ++ [i + 1]) = root.bodyAt (p ++ [i]) := by
    unfold Node.bodyAt
    rw [Path.above_concat, Path.above_concat]
  have hclass : root.inClassAt (p ++ [i + 1]) = root.inClassAt (p ++ [i]) := by
    unfold Node.inClassAt
    rw [Path.above_concat, Path.above_concat]
  refine ⟨knows_leave hp hw.scopes, (congrArg Prod.fst hcontext).trans ?_,
    (congrArg Prod.snd hcontext).trans ?_⟩
  · rw [hw.body, hstart.body, hbody, Node.bodyAt_concat hp]
    cases n.bodyKind? <;> rfl
  · rw [hw.inClass, hstart.inClass, hclass, Node.inClassAt_concat hp]
    cases n.isClass <;> rfl

end Walk

/-! ### The whole walk -/

namespace Walk

variable {root n : Node} {I : Path → Walk → Prop} {p : Path} {i k : Nat} {w : Walk}

/-- What holds of the walk in front of the parts of a part of a tree, if it holds in front of it,
    and behind it, if it holds behind the parts. -/
structure Along (root : Node) (I : Path → Walk → Prop) : Prop where
  enter : ∀ {p : Path} {n : Node} {w : Walk}, root.at? p = some n → I p w →
    I (p ++ [0]) (w.enter n)
  leave : ∀ {p : Path} {i : Nat} {n : Node} {start w : Walk}, root.at? (p ++ [i]) = some n →
    I (p ++ [i]) start → I (p ++ [i] ++ [n.children.length]) w → I (p ++ [i + 1]) (leave start n w)

/-- What holds behind each of some parts holds behind any number of them. -/
theorem pastAll_take (ns : List Node) (hw : I (p ++ [0]) w)
    (h : ∀ (i : Nat) m (w : Walk), ns[i]? = some m → I (p ++ [i]) w → I (p ++ [i + 1]) (w.past m))
    (hk : k ≤ ns.length) : I (p ++ [k]) (w.pastAll (ns.take k)) := by
  induction k with
  | zero => exact hw
  | succ k ih =>
    have hm := List.getElem?_eq_getElem hk
    rw [List.take_add_one, hm, pastAll_append]
    exact h k _ _ hm (ih (Nat.le_of_succ_le hk))

/-- What holds in front of a part of a tree holds behind it. -/
theorem Along.past (h : Along root I) (hp : root.at? (p ++ [i]) = some n) (hw : I (p ++ [i]) w) :
    I (p ++ [i + 1]) (w.past n) := by
  -- Induction on the parts: enter, go over the parts one after another, and leave.
  induction n using Node.induct generalizing p i w with
  | h n ih =>
    rw [past_eq]
    refine h.leave hp hw ?_
    have hparts := pastAll_take n.children (h.enter hp hw)
      (fun k m w hm hw => ih m (List.mem_of_getElem? hm) ?_ hw) (Nat.le_refl _)
    · rwa [List.take_length] at hparts
    · rw [Node.at?_concat, hp]
      exact hm

/-- It holds in front of the `k`-th part of a part of a tree, or behind the last one. -/
theorem Along.take (h : Along root I) (hp : root.at? p = some n) (hw : I p w)
    (hk : k ≤ n.children.length) : I (p ++ [k]) ((w.enter n).pastAll (n.children.take k)) := by
  refine pastAll_take n.children (h.enter hp hw) (fun i m w hm hw => h.past ?_ hw) hk
  rw [Node.at?_concat, hp]
  exact hm

/-- It holds behind a whole program. -/
theorem Along.stmts {ss : List Stmt} (h : Along (.stmts ss) I) (hw : I [] w) :
    I [(Node.stmts ss).children.length] (w.stmts ss) := by
  have hlast := h.take rfl hw (Nat.le_refl (Node.stmts ss).children.length)
  rw [List.take_length] at hlast
  have hpast : w.stmts ss = (w.enter (.stmts ss)).pastAll (Node.stmts ss).children :=
    past_eq (.stmts ss) w
  rw [hpast]
  exact hlast

/-- **The walk knows the scopes of names.** -/
theorem along_snap (root : Node) : Along root fun p w => w.Snap root p :=
  ⟨fun hp hw => hw.enter hp, Snap.leave⟩

end Walk

/-! ### Recorded depths -/

/-- A node whose name is looked up: one that reads or assigns a variable, or `this` in a class. -/
inductive Node.LooksUp (root : Node) (p : Path) : NodeId → Token → Prop
  | name {id name} (hp : root.at? p = some (.expr (.variable id name))) : LooksUp root p id name
  | assign {id name e} (hp : root.at? p = some (.expr (.assign id name e))) : LooksUp root p id name
  | this {id keyword} (hp : root.at? p = some (.expr (.thisRef id keyword)))
      (hclass : root.inClassAt p = true) : LooksUp root p id keyword

namespace Visit.Told

variable {table : Depths} {w : Walk} {site : List Construct} {root n : Node} {p : Path}
  {id : NodeId} {name : Token}

/-- The walk comes to every part of a tree, and knows the scopes there. -/
theorem exists_snap (h : Told table ⟨w, site, root⟩) (hw : w.Snap root [])
    (hp : root.at? p = some n) : ∃ w' site', w'.Snap root p ∧ Told table ⟨w', site', n⟩ := by
  induction p using List.reverseRecOn generalizing n with
  | nil =>
    cases hp
    exact ⟨w, site, hw, h⟩
  | append_singleton p i ih =>
    rw [Node.at?_concat] at hp
    obtain ⟨m, hm, hn⟩ := Option.bind_eq_some_iff.1 hp
    obtain ⟨w', site', hsnap, htold⟩ := ih hm
    obtain ⟨site'', hchild⟩ := Visit.exists_child_of_getElem? (w := w') site' hn
    have hsnap := (Walk.along_snap root).take hm hsnap (List.getElem?_eq_some_iff.1 hn).1.le
    exact ⟨_, site'', hsnap, htold.child hchild⟩

/-- The table holds the distance of a name that is looked up. -/
theorem exists_depth? (h : Told table ⟨w, site, root⟩) (hw : w.Snap root [])
    (hnode : root.LooksUp p id name) :
    ∃ w' : Walk, w'.Snap root p ∧ table[id]? = w'.depth? name.lexeme := by
  cases hnode with
  | name hp =>
    obtain ⟨w', site', hsnap, htold⟩ := h.exists_snap hw hp
    exact ⟨w', hsnap, htold.read⟩
  | assign hp =>
    obtain ⟨w', site', hsnap, htold⟩ := h.exists_snap hw hp
    refine ⟨w', hsnap, htold.assign.trans ?_⟩
    -- The value declares nothing in the scopes around it.
    rw [Walk.depth?_eq, Walk.owners_expr, ← Walk.depth?_eq]
  | this hp hclass =>
    obtain ⟨w', site', hsnap, htold⟩ := h.exists_snap hw hp
    exact ⟨w', hsnap, htold.thisRef.trans (if_pos (hsnap.inClass.trans hclass))⟩

end Visit.Told

/-- **Recorded depths are lexical.** Whatever is wrong with a program, the depth that is recorded
    for a node is the number of scopes between the node and the innermost scope around it that has a
    declaration of its name in front of the node. None is recorded if there is no such scope. -/
theorem Resolution.recorded_depths_are_lexical (tokens : List Token) (nextNode : NodeId)
    (report report' : Report) (depths : Depths)
    (hfresh : ∀ i, nextNode ≤ i → depths[i]? = none) :
    let program := (Program.parse tokens nextNode report).statements
    let table := (Resolution.resolve program depths report').1
    ∀ (p : Path) id name, (Node.stmts program).LooksUp p id name →
      (∀ k, table[id]? = some k ↔ ∃ q, (Node.stmts program).Resolves p name.lexeme k q) ∧
      (table[id]? = none ↔
        ∀ q ∈ (Node.stmts program).scopesAt p, ¬ (Node.stmts program).Holds q p name.lexeme) := by
  intro program table p id name hnode
  obtain ⟨-, hnumbered, -⟩ :=
    Program.built_parse (T := fun _ => True) tokens nextNode report fun _ _ => trivial
  have htold : Visit.Told table ⟨Resolution.start depths report', [], .stmts program⟩ :=
    ⟨hnumbered.1, fun i hi => hfresh i (hnumbered.2 i hi).1, fun i _ => rfl⟩
  obtain ⟨w, hw, hdepth⟩ := htold.exists_depth? (.start _ _ _) hnode
  rw [hdepth]
  exact ⟨fun k => hw.depth?_eq_some_iff, hw.depth?_eq_none_iff⟩

/-- A variable shadows another one, and its initializer reads the name. -/
def Resolution.shadowedInitializer : String :=
  "\x7b var a = true; \x7b print a; var a = a; \x7d \x7d"

/-- The variable that a node reads. -/
def Node.readName? : Node → Option (NodeId × Token)
  | .expr (.variable id name) => some (id, name)
  | _ => none

theorem Node.eq_of_readName? {n : Node} {id : NodeId} {name : Token}
    (h : n.readName? = some (id, name)) : n = .expr (.variable id name) := by
  unfold Node.readName? at h
  split at h
  · cases h
    rfl
  · cases h

/-- In front of the inner declaration the name means the outer variable, and in the initializer the
    inner one, which is reported. -/
theorem Resolution.recorded_depths_are_lexical_shadowedInitializer :
    let program :=
      (Program.parse (Token.ofSource Resolution.shadowedInitializer) 0 .empty).statements
    (∃ q, (Node.stmts program).Resolves [0, 0, 1, 0, 0, 0, 0] "a" 1 q) ∧
      (∃ q, (Node.stmts program).Resolves [0, 0, 1, 0, 0, 1, 0, 0] "a" 0 q) ∧
      (Resolution.resolve program ∅ .empty).2.hadError = true := by
  intro program
  have hread (p : Path) (k : Nat) (h : (((Node.stmts program).at? p).bind Node.readName?).any
      (fun v => decide (v.2.lexeme = "a") &&
        decide ((Resolution.resolve program ∅ .empty).1[v.1]? = some k)) = true) :
      ∃ q, (Node.stmts program).Resolves p "a" k q := by
    obtain ⟨⟨id, name⟩, hv, hfacts⟩ := (Option.any_eq_true _ _).1 h
    obtain ⟨n, hn, hvariable⟩ := Option.bind_eq_some_iff.1 hv
    obtain ⟨hlexeme, hdepth⟩ := Bool.and_eq_true_iff.1 hfacts
    have hname : name.lexeme = "a" := of_decide_eq_true hlexeme
    have hnode : (Node.stmts program).LooksUp p id name :=
      .name (Node.eq_of_readName? hvariable ▸ hn)
    have h := Resolution.recorded_depths_are_lexical (Token.ofSource Resolution.shadowedInitializer)
      0 .empty .empty ∅ (fun i _ => Std.TreeMap.getElem?_emptyc) p id name hnode
    rw [← hname]
    exact (h.1 k).1 (of_decide_eq_true hdepth)
  refine ⟨hread _ _ ?_, hread _ _ ?_, ?_⟩
  · decide +kernel
  · decide +kernel
  · decide +kernel

end Scriptlet
