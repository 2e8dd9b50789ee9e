import Mathlib.Data.List.Pairwise
import Scriptlet.Proofs.Diagnostics
import Scriptlet.Proofs.Lockstep
import Scriptlet.Proofs.Renaming
import Scriptlet.Proofs.Spelling

namespace Scriptlet

/-!
# Resolution of a renamed program

The resolution walk over a program in which a local variable was renamed takes the same way as the
one over the program itself.

* `Renaming.Scoped` — a scope before and after the renaming; `Renaming.Walks` — the two walks.
* `Renaming.follows_stmts` and its kin — if nothing is reported for the program, nothing is
  reported for the renamed one, the same depths are recorded, and the two are alike.
-/

/-- `insertOrdered` adds a member. -/
theorem Binding.insertOrdered_ne_nil (b : Binding) (bs : List Binding) :
    b.insertOrdered bs ≠ [] := by
  cases bs with
  | nil => exact List.cons_ne_nil _ _
  | cons b' bs =>
    unfold Binding.insertOrdered
    split <;> exact List.cons_ne_nil _ _

/-- Nothing is unused in a scope of which every name was read. -/
theorem LocalScope.unused_eq_nil_iff (s : LocalScope) :
    s.unused = [] ↔ ∀ (x : String) usage, s[x]?.map Binding.usage = some usage → usage = .read := by
  have hnil : ∀ bs : List Binding, bs.foldr Binding.insertOrdered [] = [] ↔ bs = [] := by
    intro bs
    cases bs with
    | nil => exact Iff.rfl
    | cons b bs =>
      exact iff_of_false (Binding.insertOrdered_ne_nil b _) (List.cons_ne_nil b bs)
  unfold LocalScope.unused
  rw [hnil, List.filter_eq_nil_iff]
  constructor
  · intro h x usage hx
    obtain ⟨b, hb, rfl⟩ := Option.map_eq_some_iff.1 hx
    have hmem : b ∈ s.toList.map (·.2) :=
      List.mem_map.2 ⟨(x, b), Std.TreeMap.mem_toList_iff_getElem?_eq_some.2 hb, rfl⟩
    simpa using h b hmem
  · intro h b hb
    obtain ⟨⟨x, b⟩, hmem, rfl⟩ := List.mem_map.1 hb
    have hx := Std.TreeMap.mem_toList_iff_getElem?_eq_some.1 hmem
    have hread := h x b.usage (by rw [hx]; rfl)
    simp [hread]

namespace Renaming

variable {r : Renaming}

/-! ### Scopes of the two walks -/

variable (r) in
/-- A scope and the one with the names exchanged, as far as they are marked: each name has the
    usage of the one it stands for. The new name is in no scope before it is exchanged. -/
structure Scoped (marked : Bool) (s s' : LocalScope) : Prop where
  fresh : s.contains r.new = false
  usage : ∀ x : String, s'[x]?.map Binding.usage = s[r.name marked x]?.map Binding.usage

variable (r) in
/-- Scopes and those with the names exchanged. -/
inductive AllScoped : List Bool → List LocalScope → List LocalScope → Prop
  | nil : AllScoped [] [] []
  | cons {marked around s s' scopes scopes'} (h : r.Scoped marked s s')
      (hrest : AllScoped around scopes scopes') :
      AllScoped (marked :: around) (s :: scopes) (s' :: scopes')

namespace Scoped

variable {marked : Bool} {s s' : LocalScope}

/-- A new scope holds no names. -/
theorem empty (marked : Bool) : r.Scoped marked ∅ ∅ := ⟨rfl, fun _ => rfl⟩

/-- The scope around the methods of a class holds `this` only. -/
theorem this (hnew : r.new ≠ "this") (line : Nat) :
    r.Scoped false (Walk.thisScope line) (Walk.thisScope line) := by
  refine ⟨?_, fun _ => rfl⟩
  unfold Walk.thisScope
  rw [Std.TreeMap.contains_insert, Std.TreeMap.contains_emptyc, Bool.or_false,
    beq_eq_false_iff_ne]
  exact fun heq => hnew (Std.LawfulEqCmp.eq_of_compare heq).symm

/-- `usage`, where only the presence of the name counts. -/
theorem contains_eq (h : r.Scoped marked s s') (x : String) :
    s'.contains x = s.contains (r.name marked x) := by
  have husage := congrArg Option.isSome (h.usage x)
  rw [Option.isSome_map, Option.isSome_map, Std.TreeMap.isSome_getElem?_eq_contains,
    Std.TreeMap.isSome_getElem?_eq_contains] at husage
  exact husage

/-- A name that a scope does not hold stands for no name of the other one, either. -/
theorem contains_eq_false (h : r.Scoped marked s s') {x : String} (hx : x ≠ r.new)
    (hs : s.contains x = false) (marked' : Bool) :
    s'.contains (r.name marked' x) = false := by
  rw [h.contains_eq]
  rcases name_name_eq_or hx marked marked' with heq | heq
  · rw [heq, hs]
  · rw [heq, h.fresh]

/-- Exchanging names back and forth, as `insert` and `modify` compare them. -/
theorem compare_name (marked : Bool) (x y : String) :
    compare (r.name marked y) x = .eq ↔ compare y (r.name marked x) = .eq := by
  rw [Std.LawfulEqCmp.compare_eq_iff_eq, Std.LawfulEqCmp.compare_eq_iff_eq]
  constructor
  · rintro rfl
    rw [r.name_name]
  · rintro rfl
    rw [r.name_name]

/-- A name that is declared under its name on each side. -/
theorem insert (h : r.Scoped marked s s') {y : String} (hy : y ≠ r.new) {b b' : Binding}
    (hb : b'.usage = b.usage) :
    r.Scoped marked (s.insert y b) (s'.insert (r.name marked y) b') := by
  refine ⟨?_, fun x => ?_⟩
  · rw [Std.TreeMap.contains_insert, h.fresh, Bool.or_false, beq_eq_false_iff_ne]
    exact fun heq => hy (Std.LawfulEqCmp.eq_of_compare heq)
  · rw [Std.TreeMap.getElem?_insert, Std.TreeMap.getElem?_insert]
    by_cases hxy : compare y (r.name marked x) = .eq
    · rw [if_pos hxy, if_pos ((compare_name marked x y).2 hxy), Option.map_some, Option.map_some,
        hb]
    · rw [if_neg hxy, if_neg fun heq => hxy ((compare_name marked x y).1 heq)]
      exact h.usage x

/-- The use of a name that changes on each side. -/
theorem modify (h : r.Scoped marked s s') (y : String) (f : Binding → Binding)
    (hf : ∀ b b', b'.usage = b.usage → (f b').usage = (f b).usage) :
    r.Scoped marked (s.modify y f) (s'.modify (r.name marked y) f) := by
  refine ⟨by rw [Std.TreeMap.contains_modify, h.fresh], fun x => ?_⟩
  rw [Std.TreeMap.getElem?_modify, Std.TreeMap.getElem?_modify]
  by_cases hxy : compare y (r.name marked x) = .eq
  · rw [if_pos hxy, if_pos ((compare_name marked x y).2 hxy)]
    have hy : y = r.name marked x := Std.LawfulEqCmp.eq_of_compare hxy
    have husage := h.usage x
    subst hy
    rw [r.name_name]
    cases hb : s[r.name marked x]? with
    | none =>
      rw [hb] at husage
      rw [Option.map_eq_none_iff.1 husage]
    | some b =>
      rw [hb] at husage
      obtain ⟨b', hb', husage⟩ := Option.map_eq_some_iff.1 husage
      rw [hb']
      exact congrArg some (hf b b' husage)
  · rw [if_neg hxy, if_neg fun heq => hxy ((compare_name marked x y).1 heq)]
    exact h.usage x

/-- If all names of a scope were read, so were those that stand for them. -/
theorem unused_eq_nil (h : r.Scoped marked s s') (hs : s.unused = []) : s'.unused = [] := by
  rw [LocalScope.unused_eq_nil_iff] at hs ⊢
  intro x usage hx
  rw [h.usage] at hx
  exact hs _ usage hx

end Scoped

namespace AllScoped

variable {around : List Bool} {scopes scopes' : List LocalScope}

/-- Behind the innermost scope, names are what they are without it. -/
theorem nameAt_succ (marked : Bool) (around : List Bool) (d : Option Nat) (x : String) :
    r.nameAt (marked :: around) (d.map (· + 1)) x = r.nameAt around d x := by
  cases d <;> rfl

/-- A name is found at the distance of the one it stands for. -/
theorem findIdx?_eq (h : r.AllScoped around scopes scopes') {x : String} (hx : x ≠ r.new) :
    scopes'.findIdx?
        (·.contains (r.nameAt around (scopes.findIdx? (·.contains x)) x)) =
      scopes.findIdx? (·.contains x) := by
  induction h with
  | nil => rfl
  | @cons marked around s s' scopes scopes' hs _ ih =>
    rw [List.findIdx?_cons, List.findIdx?_cons]
    cases hcontains : s.contains x with
    | true =>
      have hfound : s'.contains (r.name marked x) = true := by
        rw [hs.contains_eq, r.name_name, hcontains]
      exact if_pos hfound
    | false =>
      -- What stands for `x` further out must not be found here: the new name is in no scope.
      simp only [Bool.false_eq_true, if_false]
      rw [nameAt_succ]
      obtain ⟨marked', hname⟩ := r.exists_nameAt around (scopes.findIdx? (·.contains x)) x
      have hnot := hs.contains_eq_false hx hcontains marked'
      rw [← hname] at hnot
      rw [hnot, ih]
      rfl

/-- In the innermost scope a name has the usage of the one it stands for, also if that is found
    further out. -/
theorem usage_head {marked : Bool} {s s' : LocalScope} (hs : r.Scoped marked s s')
    (around : List Bool) (scopes : List LocalScope) {x : String} (hx : x ≠ r.new) :
    s'[r.nameAt (marked :: around) ((s :: scopes).findIdx? (·.contains x)) x]?.map Binding.usage =
      s[x]?.map Binding.usage := by
  rw [List.findIdx?_cons]
  cases hcontains : s.contains x with
  | true =>
    show s'[r.name marked x]?.map Binding.usage = _
    rw [hs.usage, r.name_name]
  | false =>
    simp only [Bool.false_eq_true, if_false]
    obtain ⟨marked', hname⟩ :=
      r.exists_nameAt (marked :: around) ((scopes.findIdx? (·.contains x)).map (· + 1)) x
    have hnot := hs.contains_eq_false hx hcontains marked'
    rw [hname, Std.TreeMap.getElem?_eq_none_of_contains_eq_false hnot,
      Std.TreeMap.getElem?_eq_none_of_contains_eq_false hcontains]

/-- A change of one scope. -/
theorem modify (h : r.AllScoped around scopes scopes') (d : Nat)
    {f f' : LocalScope → LocalScope}
    (hf : ∀ s s', r.Scoped (around[d]?.getD false) s s' →
      r.Scoped (around[d]?.getD false) (f s) (f' s')) :
    r.AllScoped around (scopes.modify d f) (scopes'.modify d f') := by
  induction h generalizing d with
  | nil =>
    cases d <;> exact .nil
  | cons hs hrest ih =>
    cases d with
    | zero => exact .cons (hf _ _ hs) hrest
    | succ d => exact .cons hs (ih d hf)

end AllScoped

/-! ### The two walks -/

variable (r) in
/-- A walk over a program and one over the renamed program, inside of scopes that are marked or
    not. The latter has nothing to report. -/
structure Walks (around : List Bool) (w w' : Walk) : Prop where
  scopes : r.AllScoped around w.scopes w'.scopes
  body : w'.body = w.body
  inClass : w'.inClass = w.inClass
  depths : w'.depths = w.depths
  clean : w'.Clean

namespace Walks

variable {around : List Bool} {w w' : Walk} {name name' : Token}

/-- `AllScoped.findIdx?_eq` for a walk. -/
theorem depth?_eq (h : r.Walks around w w') {x : String} (hx : x ≠ r.new) :
    w'.depth? (r.nameAt around (w.depth? x) x) = w.depth? x := h.scopes.findIdx?_eq hx

section

variable (h : r.Walks around w w') (hname : name.lexeme ≠ r.new)
  (hname' : name'.lexeme = r.nameAt around (w.depth? name.lexeme) name.lexeme)

include h hname hname'

/-- A node that names a variable is given the same depth. -/
theorem refer (id : NodeId) : r.Walks around (w.refer id name) (w'.refer id name') := by
  unfold Walk.refer
  rw [hname', h.depth?_eq hname]
  cases w.depth? name.lexeme with
  | none => exact h
  | some d => exact { h with depths := by rw [h.depths] }

/-- The name at that depth is read in both walks. -/
theorem markRead : r.Walks around (w.markRead name) (w'.markRead name') := by
  unfold Walk.markRead
  rw [hname', h.depth?_eq hname]
  cases w.depth? name.lexeme with
  | none => exact h
  | some d =>
    refine { h with scopes := h.scopes.modify d fun s s' hs => ?_ }
    exact hs.modify name.lexeme Binding.markRead fun _ _ _ => rfl

/-- `Walk.read` is `refer` and `markRead`. -/
theorem read (id : NodeId) : r.Walks around (w.read id name) (w'.read id name') := by
  refine (h.refer hname hname' id).markRead hname ?_
  have hdepth : (w.refer id name).depth? name.lexeme = w.depth? name.lexeme := by
    unfold Walk.refer
    split <;> rfl
  rw [hdepth]
  exact hname'

end

/-- A variable is read in its own initializer iff the renamed one is. -/
theorem inOwnInitializer_eq (h : r.Walks around w w') {x : String} (hx : x ≠ r.new) :
    w'.inOwnInitializer (r.nameAt around (w.depth? x) x) = w.inOwnInitializer x := by
  have hscopes := h.scopes
  unfold Walk.inOwnInitializer Walk.depth?
  generalize w.scopes = scopes at hscopes ⊢
  generalize w'.scopes = scopes' at hscopes ⊢
  cases hscopes with
  | nil => rfl
  | @cons marked around s s' scopes scopes' hs hrest =>
    have husage := AllScoped.usage_head hs around scopes hx
    simp only
    generalize s'[r.nameAt (marked :: around) ((s :: scopes).findIdx? (·.contains x)) x]? = b'
      at husage ⊢
    cases hb : s[x]? with
    | none =>
      rw [hb] at husage
      rw [Option.map_eq_none_iff.1 husage]
    | some b =>
      rw [hb] at husage
      obtain ⟨b', rfl, hsame⟩ := Option.map_eq_some_iff.1 husage
      simp only [hsame]

section

variable (h : r.Walks around w w')
  (hname' : name'.lexeme = r.name (around.headD false) name.lexeme)

include h hname'

/-- `Walk.define` defines the renamed variable in the innermost scope. -/
theorem define : r.Walks around (w.define name) (w'.define name') := by
  have hscopes := h.scopes
  generalize hs : w.scopes = scopes at hscopes
  generalize hs' : w'.scopes = scopes' at hscopes
  unfold Walk.define
  cases hscopes with
  | nil =>
    rw [hs, hs']
    exact h
  | cons hscope hrest =>
    simp only [hs, hs', hname']
    refine { h with scopes := .cons (hscope.modify name.lexeme _ fun b b' husage => ?_) hrest }
    unfold Binding.define
    rw [husage]
    split
    · rfl
    · exact husage

/-- `Walk.declare` declares the renamed variable, which is as new to its scope. -/
theorem declare (hname : name.lexeme ≠ r.new) (hclean : (w.declare name).Clean) :
    r.Walks around (w.declare name) (w'.declare name') := by
  have hscopes := h.scopes
  generalize hs : w.scopes = scopes at hscopes
  generalize hs' : w'.scopes = scopes' at hscopes
  unfold Walk.declare
  cases hscopes with
  | nil =>
    rw [hs, hs']
    exact h
  | @cons marked _ s s' _ _ hscope hrest =>
    have hnot := hclean.contains_eq_false hs
    have hname' : name'.lexeme = r.name marked name.lexeme := hname'
    have hnot' : s'.contains name'.lexeme = false := by
      rw [hname', hscope.contains_eq, r.name_name, hnot]
    simp only [hs, hs', hnot, hnot']
    rw [hname']
    exact { h with scopes := .cons (hscope.insert hname rfl) hrest }

/-- `Walk.introduce` is `declare` and `define`. -/
theorem introduce (hname : name.lexeme ≠ r.new) (hclean : (w.introduce name).Clean) :
    r.Walks around (w.introduce name) (w'.introduce name') :=
  (h.declare hname' hname hclean.of_define).define hname'

end

/-- Parameters are introduced one after the other. -/
theorem foldl_introduce {marked : Bool} {params : List Token}
    (h : r.Walks (marked :: around) w w') (hparams : ∀ t ∈ params, t.lexeme ≠ r.new)
    (hclean : (params.foldl Walk.introduce w).Clean) :
    r.Walks (marked :: around) (params.foldl Walk.introduce w)
      ((params.map (r.token marked)).foldl Walk.introduce w') := by
  induction params generalizing w w' with
  | nil => exact h
  | cons name params ih =>
    have hname := hparams name List.mem_cons_self
    have hfirst := hclean.of_grows (Walk.passed_foldl_introduce params (w.introduce name)).grows
    exact ih (h.introduce (lexeme_token hname marked) hname hfirst)
      (fun t ht => hparams t (List.mem_cons_of_mem _ ht)) hclean

/-- A scope that is opened on both sides. -/
theorem openScope (h : r.Walks around w w') {marked : Bool} {s s' : LocalScope}
    (hs : r.Scoped marked s s') :
    r.Walks (marked :: around) (w.openScope s) (w'.openScope s') :=
  { h with scopes := .cons hs h.scopes }

/-- A scope that is closed without a report, and neither reports the renamed one. -/
theorem closeScope {marked : Bool} (h : r.Walks (marked :: around) w w')
    (hclean : w.closeScope.Clean) : r.Walks around w.closeScope w'.closeScope := by
  have hscopes := h.scopes
  generalize hs : w.scopes = scopes at hscopes
  generalize hs' : w'.scopes = scopes' at hscopes
  cases hscopes with
  | @cons _ _ s s' outer outer' hscope hrest =>
    have hunused := hclean.unused_eq_nil hs
    unfold Walk.closeScope
    simp only [hs, hs', hunused, hscope.unused_eq_nil hunused, List.foldl_nil]
    exact { h with scopes := hrest }

/-- Returns are checked by what is the same on both sides. -/
theorem checkReturn (h : r.Walks around w w') {keyword : Token} {hasValue : Bool}
    (hclean : (w.checkReturn keyword hasValue).Clean) :
    r.Walks around (w.checkReturn keyword hasValue) (w'.checkReturn keyword hasValue) := by
  rw [hclean.checkReturn_eq rfl, hclean.checkReturn_eq h.body]
  exact h

end Walks

end Renaming

namespace Renaming

/-! ### The renamed program is accepted -/

variable (r : Renaming)

/-- The comparison of a program with the renamed one. -/
def likeness (hold : r.old ≠ "this") (hnew : r.new ≠ "this") : Likeness where
  node id id' d := r.depths[id]? = d ∧ r.depths[id']? = d
  token := Eq
  kind_eq h := congrArg Token.kind h.symm
  lexeme_eq h := congrArg Token.lexeme h.symm
  used x := x ≠ r.new
  used_this := hnew.symm
  rename := Equiv.swap r.old r.new
  injective := (Equiv.swap r.old r.new).injective
  this_eq := Equiv.swap_apply_of_ne_of_ne hold.symm hnew.symm

/-- Tokens of a source in which the new name does not occur. -/
def Allowed (t : Token) : Prop := t.Spelled ∧ t.lexeme ≠ r.new

/-- A walk that comes to a part of a program, and one that comes to the same part of the renamed
    program. If the scope in which the name is exchanged is inside, it declares a variable of that
    name. -/
structure Ready (around : List Bool) (way : Way) (v : Visit) (w' : Walk) : Prop where
  walks : r.Walks around v.walk w'
  told : v.Told r.depths
  formed : v.node.Formed r.Allowed
  declared : ∀ path, way = some path →
    ∃ scope, v.node.at? path = some scope ∧ ∃ t ∈ scope.variables, t.lexeme = r.old
  clean : (v.walk.past v.node).Clean

/-- What becomes of such walks, and of the two parts. -/
structure Follows (c : Likeness) (around : List Bool) (way : Way) (v : Visit) (w' : Walk) :
    Prop where
  walks : r.Walks around (v.walk.past v.node) (w'.past (r.node around way v.node))
  like : Node.Like c around v.node (r.node around way v.node)

/-- Wherever two such walks come to a part of the program, they go on like that. -/
def Followed (c : Likeness) (n : Node) : Prop :=
  ∀ {around way site w w'}, r.Ready around way ⟨w, site, n⟩ w' →
    r.Follows c around way ⟨w, site, n⟩ w'

/-- A function or class keeps its name in the innermost scope. -/
def Apt (around : List Bool) (s : Stmt) : Prop :=
  ∀ t ∈ s.definition?, r.name (around.headD false) t.lexeme = t.lexeme

variable {r}

/-- Where no declaration stands, no function or class is declared. -/
theorem Apt.of_isDeclaration {around : List Bool} {s : Stmt} (h : s.isDeclaration = false) :
    r.Apt around s := by
  intro t ht
  cases s with
  | funDecl | classDecl => cases h
  | _ => cases ht

/-- `Ready` goes down the tree: on the way to a part, one step of the way is done. -/
theorem Ready.child {around around' : List Bool} {way : Way} {v u : Visit} {w' w'' : Walk}
    (h : r.Ready around way v w') (hc : v.Child u) (i : Nat)
    (hi : v.node.children[i]? = some u.node) (hw : r.Walks around' u.walk w'') :
    r.Ready around' (way.into i) u w'' := by
  refine ⟨hw, h.told.child hc, h.formed.of_mem_children hc.mem_children, fun path hpath => ?_,
    h.clean.of_grows hc.grows⟩
  obtain ⟨scope, hscope, hold⟩ := h.declared (i :: path) (Way.eq_of_into hpath)
  rw [Node.at?, hi] at hscope
  exact ⟨scope, hscope, hold⟩

/-- In a scope that declares a variable without a report, nothing else has its name. -/
theorem lexeme_ne_of_definition? {T : Token → Prop} {w : Walk} {ss : List Stmt}
    {owner : String → Option Token} {outer : Owners} (hclean : (w.stmts ss).Clean)
    (hss : Stmt.FormedAll T ss) (hw : w.owners = owner :: outer) {t₀ : Token}
    (h₀ : owner t₀.lexeme ≠ none ∨ t₀ ∈ ss.filterMap Stmt.variableName?) {s : Stmt} (hs : s ∈ ss)
    {t : Token} (ht : s.definition? = some t) : t.lexeme ≠ t₀.lexeme := by
  have hdeclared := Stmt.mem_declared_of_definition? ht
  rcases h₀ with h₀ | h₀
  · intro heq
    apply h₀
    rw [← heq]
    exact hclean.owner_eq_none_of_stmts hss hw s hs t hdeclared
  · obtain ⟨s₀, hs₀, hvariable⟩ := List.mem_filterMap.1 h₀
    have hne : s ≠ s₀ := by
      rintro rfl
      rw [Stmt.variableName?_eq_none_of_definition? ht] at hvariable
      cases hvariable
    exact (hclean.pairwise hss hw).forall hs hs₀ hne t hdeclared t₀
      (Stmt.mem_declared_of_variableName? hvariable)

section

variable {around : List Bool} {way : Way} {w w' : Walk} {site : List Construct}

/-- A variable keeps its name from the functions and classes of its scope, so that they are not
    renamed with it. -/
theorem apt_of_variable {ss : List Stmt} {owner : String → Option Token} {outer : Owners}
    (hclean : (w.stmts ss).Clean) (hss : Stmt.FormedAll r.Allowed ss)
    (hw : w.owners = owner :: outer) {t₀ : Token}
    (h₀ : owner t₀.lexeme ≠ none ∨ t₀ ∈ ss.filterMap Stmt.variableName?)
    (hold : t₀.lexeme = r.old) : ∀ s ∈ ss, r.Apt (true :: around) s := by
  intro s hs t ht
  have hne := lexeme_ne_of_definition? hclean hss hw h₀ hs ht
  have hallowed := Stmt.holds_of_definition? (Stmt.formed_of_mem hss hs) ht
  exact r.name_of_ne (hold ▸ hne) hallowed.2

/-- `apt_of_variable` for the scope of a block. -/
theorem Ready.apt_block {body : List Stmt}
    (h : r.Ready around way ⟨w, site, .stmt (.block body)⟩ w') :
    ∀ s ∈ body, r.Apt (way.isHere :: around) s := by
  cases hhere : way.isHere with
  | false => exact fun _ _ _ _ => rfl
  | true =>
    obtain ⟨scope, hscope, t₀, ht₀, hold⟩ := h.declared [] (of_decide_eq_true hhere)
    cases hscope
    exact apt_of_variable (Walk.Clean.of_closeScope h.clean) h.formed (Walk.owners_openBlock w)
      (.inr ht₀) hold

/-- `apt_of_variable` for the scope of a function, with its parameters. -/
theorem Ready.apt_function {kind : Body} {name? : Option Token} {params : List Token}
    {body : List Stmt}
    (h : r.Ready around way ⟨w, site, .function kind (.mk name? params body)⟩ w') :
    ∀ s ∈ body, r.Apt (way.isHere :: around) s := by
  cases hhere : way.isHere with
  | false => exact fun _ _ _ _ => rfl
  | true =>
    obtain ⟨scope, hscope, t₀, ht₀, hold⟩ := h.declared [] (of_decide_eq_true hhere)
    cases hscope
    -- The scope holds the parameters when the walk comes to the body.
    obtain ⟨owner, howner, -, hholds⟩ :=
      Walk.Owners.exists_foldl_declare (fun _ => none) w.owners params
    have hw : (w.enterFunction kind (.mk name? params body)).owners = owner :: w.owners := by
      rw [Walk.owners_enterFunction]
      exact howner
    have h₀ : owner t₀.lexeme ≠ none ∨ t₀ ∈ body.filterMap Stmt.variableName? :=
      (List.mem_append.1 ht₀).imp_left (hholds t₀)
    have hclean : (w.function kind (.mk name? params body)).Clean := h.clean
    exact apt_of_variable (Walk.Clean.of_closeScope (w := Walk.stmts body _) hclean) h.formed.2.2
      hw h₀ hold

end

/-! ### Following the walk -/

section

variable {around : List Bool} {hold : r.old ≠ "this"} {hnew : r.new ≠ "this"} {name : Token}

/-- Only the name of a token is exchanged. -/
theorem names_token (h : name.lexeme ≠ r.new) (marked : Bool) :
    (r.likeness hold hnew).Names marked name (r.token marked name) := by
  refine ⟨?_, lexeme_token h marked⟩
  show name = { r.token marked name with lexeme := name.lexeme }
  unfold token
  split <;> rfl

/-- `reference` gives a node the name of the scope that it refers to. -/
theorem refers_reference (h : name.lexeme ≠ r.new) (id : NodeId) :
    (r.likeness hold hnew).Refers around id id name (r.reference around id name) := by
  unfold reference
  cases hd : r.depths[id]? with
  | some d => exact .bound ⟨hd, hd⟩ h (names_token h _)
  | none => exact .free ⟨hd, hd⟩ rfl

/-- No scope has another name for `this`. -/
theorem name_this (hold : r.old ≠ "this") (hnew : r.new ≠ "this") (h : name.lexeme = "this")
    (marked : Bool) : r.name marked name.lexeme = name.lexeme :=
  r.name_of_ne (fun heq => hold (heq.symm.trans h)) fun heq => hnew (heq.symm.trans h)

/-- By `name_this`, nodes that name `this` refer to the same scope. -/
theorem refers_this (h : name.lexeme = "this") (id : NodeId) :
    (r.likeness hold hnew).Refers around id id name name := by
  cases hd : r.depths[id]? with
  | some d =>
    exact .bound ⟨hd, hd⟩ (fun heq => hnew (heq.symm.trans h))
      ⟨rfl, (name_this hold hnew h _).symm⟩
  | none => exact .free ⟨hd, hd⟩ rfl

/-- `name_this` at any distance. -/
theorem nameAt_this (hold : r.old ≠ "this") (hnew : r.new ≠ "this") (h : name.lexeme = "this")
    (around : List Bool) (d : Option Nat) : r.nameAt around d name.lexeme = name.lexeme := by
  obtain ⟨marked, hname⟩ := r.exists_nameAt around d name.lexeme
  rw [hname, name_this hold hnew h]

end

section

variable (hold : r.old ≠ "this") (hnew : r.new ≠ "this")

mutual

/-- The recursion of the walk itself: each part leads to the next one by its own case. -/
theorem follows_expr (e : Expr) : r.Followed (r.likeness hold hnew) (.expr e) := by
  intro around way site w w' h
  cases e with
  | literal value => exact ⟨h.walks, .literal⟩
  | group e =>
    have he := follows_expr e (h.child (.part .grouped) 0 rfl h.walks)
    exact ⟨he.walks, .group he.like⟩
  | «variable» id name =>
    have hname : name.lexeme ≠ r.new := h.formed.1.2
    have hname' : (r.reference around id name).lexeme =
        r.nameAt around (w.depth? name.lexeme) name.lexeme := by
      rw [r.lexeme_reference hname, h.told.read]
    refine ⟨?_, .read (refers_reference hname id)⟩
    have hown : w.inOwnInitializer name.lexeme = false :=
      Walk.Clean.inOwnInitializer_eq_false h.clean
    have hown' : w'.inOwnInitializer (r.reference around id name).lexeme = false := by
      rw [hname', h.walks.inOwnInitializer_eq hname, hown]
    show r.Walks around (w.expr (.variable id name)) (w'.expr (.variable id _))
    rw [Walk.expr, Walk.expr, hown, hown']
    exact h.walks.read hname hname' id
  | thisRef id keyword =>
    have hthis : keyword.lexeme = "this" := by
      obtain ⟨hallowed, s, hs, his⟩ := h.formed
      cases List.mem_singleton.1 hs
      exact hallowed.1.lexeme_of_is his
    refine ⟨?_, .thisRef (refers_this hthis id)⟩
    have hclass : w.inClass = true := Walk.Clean.inClass_eq_true h.clean
    show r.Walks around (w.expr (.thisRef id keyword)) (w'.expr (.thisRef id keyword))
    rw [Walk.expr, Walk.expr, h.walks.inClass, hclass]
    exact h.walks.read h.formed.1.2 (nameAt_this hold hnew hthis around _).symm id
  | assign id name e =>
    have hname : name.lexeme ≠ r.new := h.formed.1.1.2
    -- The name is looked up when the value is over, and the table was told so.
    have he := follows_expr e (h.child (.part .assigned) 0 rfl h.walks)
    refine ⟨he.walks.refer hname ?_ id, .assign (refers_reference hname id) he.like⟩
    rw [r.lexeme_reference hname, h.told.assign]
    rfl
  | unary op e =>
    have he := follows_expr e (h.child (.part .operand) 0 rfl h.walks)
    exact ⟨he.walks, .unary rfl he.like⟩
  | binary a op b =>
    have ha := follows_expr a (h.child (.part .left) 0 rfl h.walks)
    have hb := follows_expr b (h.child (.part .right) 1 rfl ha.walks)
    exact ⟨hb.walks, .binary rfl ha.like hb.like⟩
  | logical a op b =>
    have ha := follows_expr a (h.child (.part .logicalLeft) 0 rfl h.walks)
    have hb := follows_expr b (h.child (.part .logicalRight) 1 rfl ha.walks)
    exact ⟨hb.walks, .logical rfl ha.like hb.like⟩
  | conditional c q a b =>
    have hc := follows_expr c (h.child (.part .chosenBy) 0 rfl h.walks)
    have ha := follows_expr a (h.child (.part .chosenTrue) 1 rfl hc.walks)
    have hb := follows_expr b (h.child (.part .chosenFalse) 2 rfl ha.walks)
    exact ⟨hb.walks, .conditional rfl hc.like ha.like hb.like⟩
  | call e paren es =>
    have he := follows_expr e (h.child (.part .callee) 0 rfl h.walks)
    have hes := follows_exprs es (h.child (.part .arguments) 1 rfl he.walks)
    exact ⟨hes.walks, .call rfl he.like hes.like⟩
  | get e name =>
    have he := follows_expr e (h.child (.part .object) 0 rfl h.walks)
    exact ⟨he.walks, .get rfl he.like⟩
  | set a name b =>
    have ha := follows_expr a (h.child (.part .owner) 0 rfl h.walks)
    have hb := follows_expr b (h.child (.part .fieldValue) 1 rfl ha.walks)
    exact ⟨hb.walks, .set rfl ha.like hb.like⟩
  | function decl =>
    have hf := follows_function .function decl (h.child (.part .literal) 0 rfl h.walks)
    exact ⟨hf.walks, .lambda hf.like⟩

/-- Arguments, one after the other. -/
theorem follows_exprs (es : List Expr) : r.Followed (r.likeness hold hnew) (.exprs es) := by
  intro around way site w w' h
  cases es with
  | nil => exact ⟨h.walks, .noExprs⟩
  | cons e es =>
    have he := follows_expr e (h.child (.part .argument) 0 rfl h.walks)
    have hes := follows_exprs es (h.child (.part .nextArguments) 1 rfl he.walks)
    exact ⟨hes.walks, .exprs he.like hes.like⟩

/-- A declaration must be `Apt`, which the scope around it tells. -/
theorem follows_stmt (s : Stmt) {around : List Bool} {way : Way} {site : List Construct}
    {w w' : Walk} (h : r.Ready around way ⟨w, site, .stmt s⟩ w') (hapt : r.Apt around s) :
    r.Follows (r.likeness hold hnew) around way ⟨w, site, .stmt s⟩ w' := by
  cases s with
  | expr e =>
    have he := follows_expr e (h.child (.part .evaluated) 0 rfl h.walks)
    exact ⟨he.walks, .expr he.like⟩
  | print e =>
    have he := follows_expr e (h.child (.part .printed) 0 rfl h.walks)
    exact ⟨he.walks, .print he.like⟩
  | varDecl name init =>
    cases init with
    | none =>
      have hname : name.lexeme ≠ r.new := h.formed.1.2
      have hname' := lexeme_token hname (around.headD false)
      exact ⟨h.walks.introduce hname' hname h.clean, .varDecl (names_token hname _)⟩
    | some e =>
      have hname : name.lexeme ≠ r.new := h.formed.1.1.2
      have hname' := lexeme_token hname (around.headD false)
      have hclean : (((w.declare name).expr e).define name).Clean := h.clean
      have hinit : ((w.declare name).expr e).Clean :=
        hclean.of_define
      have he := follows_expr e
        (h.child .initializer 0 rfl (h.walks.declare hname' hname hinit.of_expr))
      exact ⟨he.walks.define hname', .varInit (names_token hname _) he.like⟩
  | block body =>
    have hclean : ((w.openScope ∅).stmts body).closeScope.Clean := h.clean
    have hbody := follows_stmts body
      (h.child .block 0 rfl (h.walks.openScope (Scoped.empty way.isHere)))
      h.apt_block
    exact ⟨hbody.walks.closeScope hclean, .block way.isHere hbody.like⟩
  | ifElse c a b =>
    cases b with
    | none =>
      have hc := follows_expr c (h.child (.part .condition) 0 rfl h.walks)
      have ha := follows_stmt a (h.child (.part .whenTrue) 1 rfl hc.walks)
        (Apt.of_isDeclaration h.formed.2.2)
      exact ⟨ha.walks, .ifThen hc.like ha.like⟩
    | some b =>
      have hc := follows_expr c (h.child (.part .condition) 0 rfl h.walks)
      have ha := follows_stmt a (h.child (.part .whenTrue) 1 rfl hc.walks)
        (Apt.of_isDeclaration h.formed.2.1.2)
      have hb := follows_stmt b (h.child (.part .whenFalse) 2 rfl ha.walks)
        (Apt.of_isDeclaration h.formed.2.2.2)
      exact ⟨hb.walks, .ifElse hc.like ha.like hb.like⟩
  | whileLoop c a =>
    have hc := follows_expr c (h.child (.part .test) 0 rfl h.walks)
    have ha := follows_stmt a (h.child (.part .loopBody) 1 rfl hc.walks)
      (Apt.of_isDeclaration h.formed.2.2)
    exact ⟨ha.walks, .whileLoop hc.like ha.like⟩
  | funDecl decl =>
    obtain ⟨name, hname⟩ := Option.isSome_iff_exists.1 h.formed.2
    have hallowed := Stmt.holds_of_definition? h.formed hname
    have hkept := hapt name hname
    have hclean : ((w.nameFunction decl).function .function decl).Clean := h.clean
    have hnamed : r.Walks around (w.nameFunction decl)
        (w'.nameFunction (r.function around (way.into 0) decl)) := by
      have hintroduced : (w.nameFunction decl).Clean := hclean.of_function
      unfold Walk.nameFunction at hintroduced ⊢
      rw [hname] at hintroduced
      rw [name?_function, hname]
      exact h.walks.introduce hkept.symm hallowed.2 hintroduced
    have hf := follows_function .function decl (h.child .named 0 rfl hnamed)
    refine ⟨hf.walks, .funDecl ?_ hf.like⟩
    rw [FunDecl.label_of_name? hname]
    exact hkept
  | ret keyword e =>
    cases e with
    | none => exact ⟨h.walks.checkReturn h.clean, .ret rfl⟩
    | some e =>
      have hclean : ((w.checkReturn keyword true).expr e).Clean := h.clean
      have he := follows_expr e
        (h.child (.part .returned) 0 rfl (h.walks.checkReturn hclean.of_expr))
      exact ⟨he.walks, .retValue rfl he.like⟩
  | classDecl name methods =>
    have hkept := hapt name rfl
    have hclean : ((w.enterClass name).functions methods).closeScope.Clean := h.clean
    have hinside : (w.enterClass name).Clean := hclean.of_closeScope.of_functions
    have hinClass : r.Walks around { w with inClass := true } { w' with inClass := true } :=
      { h.walks with inClass := rfl }
    have hentered : r.Walks (false :: around) (w.enterClass name) (w'.enterClass name) :=
      (hinClass.introduce hkept.symm h.formed.1.1.2 hinside).openScope (Scoped.this hnew name.line)
    have hmethods := follows_functions methods (h.child .methods 0 rfl hentered)
    refine ⟨?_, .classDecl rfl hkept hmethods.like⟩
    -- Behind the class, both walks are inside of a class again iff they were before it.
    exact { hmethods.walks.closeScope hclean with inClass := h.walks.inClass }

/-- Statements, one after the other. -/
theorem follows_stmts (ss : List Stmt) {around : List Bool} {way : Way} {site : List Construct}
    {w w' : Walk} (h : r.Ready around way ⟨w, site, .stmts ss⟩ w')
    (hapt : ∀ s ∈ ss, r.Apt around s) :
    r.Follows (r.likeness hold hnew) around way ⟨w, site, .stmts ss⟩ w' := by
  cases ss with
  | nil => exact ⟨h.walks, .noStmts⟩
  | cons s ss =>
    have hs := follows_stmt s (h.child (.part .statement) 0 rfl h.walks)
      (hapt s List.mem_cons_self)
    have hss := follows_stmts ss (h.child .rest 1 rfl hs.walks)
      fun s' hs' => hapt s' (List.mem_cons_of_mem _ hs')
    exact ⟨hss.walks, .stmts hs.like hss.like⟩

/-- Parameters are introduced in a new scope, which is closed behind the body. -/
theorem follows_function (kind : Body) (decl : FunDecl) :
    r.Followed (r.likeness hold hnew) (.function kind decl) := by
  intro around way site w w' h
  cases decl with
  | mk name? params body =>
    have hparams : ∀ t ∈ params, t.lexeme ≠ r.new := fun t ht => (h.formed.2.1 t ht).1.2
    have hclean : ((w.enterFunction kind (.mk name? params body)).stmts body).closeScope.Clean :=
      h.clean
    have hinside : r.Walks around { w with body := kind } { w' with body := kind } :=
      { h.walks with body := rfl }
    have hentered := (hinside.openScope (Scoped.empty way.isHere)).foldl_introduce hparams
      hclean.of_closeScope.of_stmts
    have hbody := follows_stmts body (h.child .function 0 rfl hentered) h.apt_function
    refine ⟨?_, .function way.isHere ?_ ?_ hbody.like⟩
    · exact { hbody.walks.closeScope hclean with body := h.walks.body }
    · cases name? with
      | some name => exact .some rfl
      | none => exact .none
    · show List.Forall₂ _ params (params.map (r.token way.isHere))
      rw [List.forall₂_map_right_iff, List.forall₂_same]
      exact fun t ht => names_token (hparams t ht) way.isHere

/-- Methods, one after the other. -/
theorem follows_functions (fs : List FunDecl) :
    r.Followed (r.likeness hold hnew) (.functions fs) := by
  intro around way site w w' h
  cases fs with
  | nil => exact ⟨h.walks, .noFunctions⟩
  | cons f fs =>
    have hf := follows_function (Walk.methodBody f) f (h.child (.part .method) 0 rfl h.walks)
    have hfs := follows_functions fs (h.child (.part .nextMethods) 1 rfl hf.walks)
    refine ⟨?_, .functions hf.like hfs.like⟩
    -- A method that is renamed inside is an initializer iff it was one.
    show r.Walks around _
      ((w'.function (Walk.methodBody (r.function around (way.into 0) f)) _).functions _)
    rw [methodBody_function]
    exact hfs.walks

end

end

end Renaming

end Scriptlet
