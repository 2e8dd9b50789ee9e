import Mathlib.Data.List.Sort
import Mathlib.Data.Prod.Lex
import Mathlib.Data.String.Basic
import Scriptlet.Proofs.WellScoped

namespace Scriptlet

/-!
# Names that nothing reads

What is reported at the end of a scope, told by the tree alone.

* `LocalScope.unusedFrom` — the names of a scope that nothing read, from its bindings in any order.
  They come out in the same order (`LocalScope.Named.unusedFrom_eq`), which is strict
  (`LocalScope.Named.pairwise_unused`).
* `Walk.reach` — the walk in front of a path.
* `Node.DeclaredBy` — a token declares a name of a scope at a path. The walk knows which token
  declared a name last (`Walk.along_owned`).
* `Node.Unread` — a token declares a name of a scope last, and nothing means that declaration.
* `Resolution.unread_names_reported_in_order` — those are reported, and no others.
-/

/-! ### The order of the reports -/

/-- The order of names: by line, then by text. -/
def Token.Precedes (t t' : Token) : Prop :=
  t.line < t'.line ∨ t.line = t'.line ∧ t.lexeme < t'.lexeme

namespace Binding

variable {a b c : Binding}

/-- Where a name stands: its line, then its text. -/
def place (b : Binding) : Nat ×ₗ String := toLex (b.token.line, b.token.lexeme)

/-- `upTo` is the lexicographic order of lines and texts, whose laws it has. -/
theorem upTo_iff : a.upTo b = true ↔ a.place ≤ b.place := by
  unfold place
  rw [Prod.Lex.toLex_le_toLex]
  simp [upTo]

/-- Bindings that are up to each other have the same name. -/
theorem lexeme_eq_of_upTo (h : a.upTo b = true) (h' : b.upTo a = true) :
    a.token.lexeme = b.token.lexeme :=
  congrArg (fun p => (ofLex p).2) (le_antisymm (upTo_iff.1 h) (upTo_iff.1 h'))

/-- Where the names differ, `upTo` is the strict order. -/
theorem precedes_of_upTo (h : a.upTo b = true) (hne : a.token.lexeme ≠ b.token.lexeme) :
    a.token.Precedes b.token :=
  (Prod.Lex.toLex_le_toLex.1 (upTo_iff.1 h)).imp_right fun h => ⟨h.1, lt_of_le_of_ne h.2 hne⟩

instance : Std.Total fun a b : Binding => a.upTo b = true :=
  ⟨fun a b => (le_total a.place b.place).imp upTo_iff.2 upTo_iff.2⟩

instance : IsTrans Binding fun a b => a.upTo b = true :=
  ⟨fun _ _ _ h h' => upTo_iff.2 ((upTo_iff.1 h).trans (upTo_iff.1 h'))⟩

/-- `insertOrdered` is insertion by the order `upTo`. -/
theorem insertOrdered_eq (a : Binding) (bs : List Binding) :
    a.insertOrdered bs = bs.orderedInsert (fun a b => a.upTo b = true) a := by
  induction bs with
  | nil => rfl
  | cons b bs ih => rw [insertOrdered, List.orderedInsert, ih]

/-- Bindings are put in order by insertion. -/
theorem foldr_insertOrdered_eq (bs : List Binding) :
    bs.foldr insertOrdered [] = bs.insertionSort fun a b => a.upTo b = true := by
  have h : insertOrdered = List.orderedInsert fun a b => a.upTo b = true :=
    funext fun a => funext (insertOrdered_eq a)
  rw [h, List.insertionSort]

end Binding

namespace LocalScope

/-- The names that nothing read, from the bindings of a scope in some order. -/
def unusedFrom (order : List (String × Binding)) : List Binding :=
  ((order.map (·.2)).filter (·.usage ≠ .read)).foldr Binding.insertOrdered []

variable {s : LocalScope} {order : List (String × Binding)} {b : Binding}

/-- `LocalScope.unused` takes the bindings in the order of the tree. -/
theorem unused_eq (s : LocalScope) : s.unused = unusedFrom s.toList := rfl

/-- `unusedFrom` keeps the bindings that nothing read, each as often as it is there. -/
theorem unusedFrom_perm (order : List (String × Binding)) :
    (unusedFrom order).Perm ((order.map (·.2)).filter (·.usage ≠ .read)) := by
  unfold unusedFrom
  rw [Binding.foldr_insertOrdered_eq]
  exact List.perm_insertionSort _ _

/-- `unusedFrom` puts the bindings in order. -/
theorem unusedFrom_pairwise (order : List (String × Binding)) :
    (unusedFrom order).Pairwise fun a b => a.upTo b = true := by
  unfold unusedFrom
  rw [Binding.foldr_insertOrdered_eq]
  exact List.pairwise_insertionSort _ _

/-- The bindings in `LocalScope.unused`, told by look-up. -/
theorem mem_unused_iff : b ∈ s.unused ↔ ∃ x : String, s[x]? = some b ∧ b.usage ≠ .read := by
  rw [unused_eq, (unusedFrom_perm s.toList).mem_iff, List.mem_filter, List.mem_map,
    decide_eq_true_iff]
  constructor
  · rintro ⟨⟨⟨x, b⟩, hmem, rfl⟩, husage⟩
    exact ⟨x, Std.TreeMap.mem_toList_iff_getElem?_eq_some.1 hmem, husage⟩
  · rintro ⟨x, hx, husage⟩
    exact ⟨⟨(x, b), Std.TreeMap.mem_toList_iff_getElem?_eq_some.2 hx, rfl⟩, husage⟩

/-- Every name of the scope belongs to a token that is spelled like it. -/
def Named (s : LocalScope) : Prop :=
  ∀ (x : String) b, s[x]? = some b → b.token.lexeme = x

/-- No two bindings of a scope have the same name. -/
theorem Named.nodup_unused (h : s.Named) : (s.unused.map (·.token.lexeme)).Nodup := by
  -- The names are the keys of the scope.
  have hkeys : s.toList.map (fun e => e.2.token.lexeme) = s.keys := by
    rw [← Std.TreeMap.map_fst_toList_eq_keys]
    refine List.map_congr_left fun e he => ?_
    exact h e.1 e.2 (Std.TreeMap.mem_toList_iff_getElem?_eq_some.1 he)
  have hall : ((s.toList.map (·.2)).map (·.token.lexeme)).Nodup := by
    rw [List.map_map]
    exact hkeys ▸ Std.TreeMap.nodup_keys
  rw [unused_eq, ((unusedFrom_perm s.toList).map _).nodup_iff]
  exact hall.sublist (List.filter_sublist.map _)

/-- The names that nothing read are in strict order. -/
theorem Named.pairwise_unused (h : s.Named) :
    (s.unused.map Binding.token).Pairwise Token.Precedes := by
  have hne := h.nodup_unused
  rw [List.Nodup, List.pairwise_map] at hne
  rw [List.pairwise_map]
  exact ((unusedFrom_pairwise s.toList).and hne).imp fun h => Binding.precedes_of_upTo h.1 h.2

/-- It does not matter in which order the bindings of a scope are taken. -/
theorem Named.unusedFrom_eq (h : s.Named) (horder : order.Perm s.toList) :
    unusedFrom order = s.unused := by
  have hperm : (unusedFrom order).Perm s.unused :=
    (unusedFrom_perm order).trans (((horder.map _).filter _).trans (unusedFrom_perm s.toList).symm)
  refine hperm.eq_of_pairwise (fun a b ha hb hab hba => ?_) (unusedFrom_pairwise order)
    (unusedFrom_pairwise s.toList)
  -- Bindings of the same name are one.
  obtain ⟨x, hx, -⟩ := mem_unused_iff.1 (hperm.mem_iff.1 ha)
  obtain ⟨y, hy, -⟩ := mem_unused_iff.1 hb
  have hxy : x = y := by
    rw [← h x a hx, ← h y b hy]
    exact Binding.lexeme_eq_of_upTo hab hba
  subst hxy
  exact Option.some.inj (hx.symm.trans hy)

end LocalScope

/-! ### The walk in front of a path -/

namespace Walk

/-- The walk over a tree in front of a path. -/
def reach (w : Walk) (n : Node) : Path → Walk
  | [] => w
  | i :: p =>
    let w' := (w.enter n).pastAll (n.children.take i)
    match n.children[i]? with
    | some m => reach w' m p
    | none => w'

variable {root n : Node} {p : Path} {w w' w'' : Walk} {I : Path → Walk → Prop}

/-- In front of the whole tree, nothing was walked. -/
@[simp]
theorem reach_nil (n : Node) (w : Walk) : w.reach n [] = w := rfl

/-- On the way to a part, the walk enters the node around it and passes what is in front. -/
theorem reach_concat (hp : root.at? p = some n) (w : Walk) (i : Nat) :
    w.reach root (p ++ [i]) = ((w.reach root p).enter n).pastAll (n.children.take i) := by
  induction p generalizing root w with
  | nil =>
    cases hp
    rw [reach_nil, List.nil_append, reach]
    cases n.children[i]? <;> rfl
  | cons j p ih =>
    obtain ⟨m, hm, hp⟩ := Option.bind_eq_some_iff.1 hp
    rw [List.cons_append, reach, reach, hm]
    exact ih hp _

/-- What holds along the walk holds in front of every part of a tree. -/
theorem Along.reach (h : Along root I) (hw : I [] w) (hp : root.at? p = some n) :
    I p (w.reach root p) := by
  induction p using List.reverseRecOn generalizing n with
  | nil => exact hw
  | append_singleton p i ih =>
    rw [Node.at?_concat] at hp
    obtain ⟨m, hm, hn⟩ := Option.bind_eq_some_iff.1 hp
    rw [reach_concat hm]
    exact h.take hm (ih hm) (List.getElem?_eq_some_iff.1 hn).1.le

/-- It holds behind the last part of a part of a tree. -/
theorem Along.reach_end (h : Along root I) (hw : I [] w) (hp : root.at? p = some n) :
    I (p ++ [n.children.length]) (w.reach root (p ++ [n.children.length])) := by
  rw [reach_concat hp]
  exact h.take hp (h.reach hw hp) (Nat.le_refl _)

/-- The walk over a part of a tree leaves it when it is behind its last part. -/
theorem past_reach (hp : root.at? p = some n) (w : Walk) :
    (w.reach root p).past n =
      leave (w.reach root p) n (w.reach root (p ++ [n.children.length])) := by
  rw [past_eq, reach_concat hp, List.take_length]

/-- What is reported when a part of a tree is left is reported in the end. -/
theorem grows_of_reach (hp : root.at? p = some n) (w : Walk) :
    Grows ((w.reach root p).past n) (w.past root) := by
  induction p generalizing root w with
  | nil =>
    cases hp
    exact .of_eq rfl
  | cons i p ih =>
    obtain ⟨m, hm, hp⟩ := Option.bind_eq_some_iff.1 hp
    obtain ⟨site, hchild⟩ := Visit.exists_child_of_getElem? (w := w) [] hm
    rw [reach, hm]
    exact (ih hp _).trans hchild.grows

end Walk

/-! ### Who declared a name last -/

namespace Node

/-- The tokens of the names that the scope of a part of a tree starts with. Of parameters with the
    same name, the last one counts. -/
def firstOwner : Node → String → Option Token
  | .function _ decl => fun x => (decl.params.filter (·.lexeme = x)).getLast?
  | .stmt (.classDecl name _) => Walk.thisOwner name
  | _ => fun _ => none

section

variable (root : Node)

/-- A token declares its name in the scope of `q` at a path: it is the last parameter of that name,
    or it is declared there. No token of a program declares `this`. -/
inductive DeclaredBy (q : Path) (t : Token) : Path → Prop
  | param {kind : Body} {decl : FunDecl} (hq : root.at? q = some (.function kind decl))
      (ht : (decl.params.filter (·.lexeme = t.lexeme)).getLast? = some t) : DeclaredBy q t q
  | inside {r : Path} {n : Node} (hr : root.at? r = some n) (ht : n.declared? = some t)
      (hq : (root.scopesAt r).head? = some q) : DeclaredBy q t r

/-- A token declares its name last in the scope of `q`, and nothing means that declaration. -/
def Unread (q : Path) (t : Token) : Prop :=
  ∃ r, root.DeclaredBy q t r ∧ (∀ r', root.Declares q t.lexeme r' → ¬ r.Before r') ∧
    ∀ p, root.Reads p t.lexeme → ¬ root.Means p t.lexeme q r

/-- In front of `b`, the name `x` of the scope of `q` was last declared by `t`, if not by a class
    for its methods. -/
def OwnedBy (q b : Path) (x : String) (t : Token) : Prop :=
  t.lexeme = x ∧ ∃ r, root.Latest q b x r ∧
    (root.DeclaredBy q t r ∨ r = q ∧ (root.at? q).any isClass = true)

/-- The owners of the names of the scopes of `qs` in front of `b`. -/
def Owned (b : Path) (qs : List Path) (owners : Owners) : Prop :=
  List.Forall₂ (fun q owner => ∀ x t, owner x = some t → root.OwnedBy q b x t) qs owners

end

variable {root n : Node} {p q r b : Path} {i : Nat} {x : String} {t t' : Token}
  {qs : List Path} {owners : Owners}

/-- What a token declares is declared. -/
theorem DeclaredBy.declares (h : root.DeclaredBy q t r) : root.Declares q t.lexeme r := by
  cases h with
  | param hq ht =>
    have hmem := (List.mem_filter.1 (List.mem_of_getLast? ht)).1
    exact .first hq (List.mem_map_of_mem hmem)
  | inside hr ht hq => exact .inside hr ht rfl hq

/-- At one place, a name of a scope is declared by one token. -/
theorem DeclaredBy.unique (h : root.DeclaredBy q t r) (h' : root.DeclaredBy q t' r)
    (heq : t.lexeme = t'.lexeme) : t = t' := by
  have hself : (root.scopesAt q).head? ≠ some q := fun hq =>
    Path.Before.irrefl q (before_of_mem_scopesAt (List.mem_of_mem_head? hq))
  cases h with
  | param hq ht =>
    cases h' with
    | param hq' ht' =>
      cases hq.symm.trans hq'
      rw [heq] at ht
      exact Option.some.inj (ht.symm.trans ht')
    | inside _ _ hq' => exact absurd hq' hself
  | inside hr ht hq =>
    cases h' with
    | param => exact absurd hq hself
    | inside hr' ht' =>
      cases hr.symm.trans hr'
      exact Option.some.inj (ht.symm.trans ht')

/-- A token of a program does not declare what a class declares for its methods. -/
theorem DeclaredBy.not_isClass (h : root.DeclaredBy q t r) :
    ¬ (r = q ∧ (root.at? q).any isClass = true) := by
  rintro ⟨rfl, hclass⟩
  cases h with
  | param hq =>
    rw [hq] at hclass
    cases hclass
  | inside _ _ hq =>
    exact Path.Before.irrefl r (before_of_mem_scopesAt (List.mem_of_mem_head? hq))

/-! ### Owners along the walk -/

/-- A declaration stays the latest when the walk enters a part that does not declare the name. -/
theorem Latest.enter (h : root.Latest q p x r) (hnot : ¬ root.Declares q x p) :
    root.Latest q (p ++ [0]) x r :=
  (Latest.congr fun _ hr' => hr'.before_concat_zero_iff hnot).2 h

/-- What was declared last inside of a part was declared last behind it. -/
theorem Latest.leave (h : root.Latest q (p ++ [i] ++ [n.children.length]) x r)
    (hp : root.at? (p ++ [i]) = some n) : root.Latest q (p ++ [i + 1]) x r :=
  (Latest.congr fun _ hr' => before_succ_iff hp hr'.isSome_at?).2 h

/-- `Latest.enter` for owners. -/
theorem OwnedBy.enter (h : root.OwnedBy q p x t) (hnot : ¬ root.Declares q x p) :
    root.OwnedBy q (p ++ [0]) x t := by
  obtain ⟨hx, r, hr, hby⟩ := h
  exact ⟨hx, r, hr.enter hnot, hby⟩

/-- What is declared at a path owns its name in the innermost scope. -/
theorem Owned.declare (h : root.Owned p (root.scopesAt p) owners) (hp : root.at? p = some n) :
    root.Owned (p ++ [0]) (root.scopesAt p) (n.declared?.toList.foldl Owners.declare owners) := by
  cases hname : n.declared? with
  | none =>
    refine List.forall₂_iff_get.2 ⟨h.length_eq, fun k hk hk' x t hx => ?_⟩
    exact (List.Forall₂.get h hk hk' x t hx).enter (not_declares hp hname (List.getElem_mem hk))
  | some name =>
    show root.Owned _ _ (owners.declare name)
    generalize hqs : root.scopesAt p = qs at h ⊢
    cases h with
    | nil => exact .nil
    | @cons q owner qs' outer howner hrest =>
      -- Only the innermost scope changes, and in it only the name.
      refine .cons (fun x t hx => ?_) ?_
      · split at hx
        · next heq =>
          cases hx
          have hdeclares := (declares_iff (x := x) hqs hp hname).2 heq
          refine ⟨heq.symm, p, hdeclares.latest, .inl (.inside hp hname ?_)⟩
          rw [hqs, List.head?_cons]
        · next hne =>
          exact (howner x t hx).enter fun h => hne ((declares_iff hqs hp hname).1 h)
      · refine List.forall₂_iff_get.2 ⟨hrest.length_eq, fun k hk hk' x t hx => ?_⟩
        exact (List.Forall₂.get hrest hk hk' x t hx).enter
          (not_declares_outer hqs (List.getElem_mem hk))

/-- The scope of a part of a tree starts with its first names. -/
theorem ownedBy_of_firstOwner (hp : root.at? p = some n) (hx : n.firstOwner x = some t) :
    root.OwnedBy p (p ++ [0]) x t := by
  cases n with
  | function kind decl =>
    have hx : (decl.params.filter (·.lexeme = x)).getLast? = some t := hx
    have hmem := List.mem_filter.1 (List.mem_of_getLast? hx)
    have heq : t.lexeme = x := of_decide_eq_true hmem.2
    subst heq
    have hby : root.DeclaredBy p t p := .param hp hx
    exact ⟨rfl, p, hby.declares.latest, .inl hby⟩
  | stmt s =>
    cases s with
    | classDecl name methods =>
      have hx : (if x = "this" then some _ else none) = some t := hx
      split at hx
      · next heq =>
        cases hx
        have hdeclares : root.Declares p x p := .first hp (List.mem_singleton.2 heq)
        refine ⟨heq.symm, p, hdeclares.latest, .inr ⟨rfl, ?_⟩⟩
        rw [hp]
        rfl
      · cases hx
    | _ => cases hx
  | _ => cases hx

end Node

namespace Walk

variable {root n : Node} {p : Path} {w : Walk}

/-- In front of the parts of a part of a tree, its scope holds its first names, and the scope around
    it what it declares. -/
theorem owners_enter (n : Node) (w : Walk) :
    (w.enter n).owners = (if n.opensScope then [n.firstOwner] else []) ++
      n.declared?.toList.foldl Owners.declare w.owners := by
  cases n with
  | expr e =>
    cases e with
    | «variable» id name => exact owners_expr _ w
    | thisRef id keyword => exact owners_expr _ w
    | _ => rfl
  | stmt s =>
    cases s with
    | varDecl name e => exact owners_declare w name
    | block body => exact owners_openBlock w
    | funDecl decl => exact (passed_nameFunction decl w).owners_eq
    | ret keyword e => exact (passed_checkReturn w keyword _).owners_eq
    | classDecl name methods => exact owners_enterClass name w
    | _ => rfl
  | function kind decl =>
    show (w.enterFunction kind decl).owners = _
    rw [owners_enterFunction, Owners.foldl_declare_eq]
    refine congrArg (· :: w.owners) (funext fun x => ?_)
    exact Option.or_none
  | _ => rfl

/-- Behind the parts, only the scope itself is gone. -/
theorem owners_leave (start : Walk) (n : Node) (w : Walk) :
    (leave start n w).owners = if n.opensScope then w.owners.tail else w.owners := by
  cases n with
  | expr e =>
    cases e with
    | assign id name e => exact owners_refer w id name
    | _ => rfl
  | stmt s =>
    cases s with
    | varDecl name e => exact owners_define w name
    | block body => exact owners_closeScope w
    | classDecl name methods => exact owners_closeScope w
    | _ => rfl
  | function kind decl => exact owners_closeScope w
  | _ => rfl

/-- **The walk knows who declared a name last.** -/
theorem along_owned (root : Node) :
    Along root fun p w => root.Owned p (root.scopesAt p) w.owners := by
  constructor
  · intro p n w hp hw
    rw [owners_enter, Node.scopesAt_concat hp]
    have hrest := hw.declare hp
    split
    · exact .cons (fun x t hx => Node.ownedBy_of_firstOwner hp hx) hrest
    · exact hrest
  · intro p i n start w hp _ hw
    rw [owners_leave, root.scopesAt_succ p (i + 1) i]
    -- What was declared last inside of a part was declared last behind it.
    have hbehind : root.Owned (p ++ [i + 1]) (root.scopesAt (p ++ [i] ++ [n.children.length]))
        w.owners := by
      refine List.Forall₂.imp (fun q owner howner x t hx => ?_) hw
      obtain ⟨hlexeme, r, hr, hby⟩ := howner x t hx
      exact ⟨hlexeme, r, hr.leave hp, hby⟩
    rw [Node.scopesAt_concat hp] at hbehind
    split at hbehind
    · next hopens =>
      rw [if_pos hopens]
      generalize w.owners = owners at hbehind
      cases hbehind with
      | cons _ hrest => exact hrest
    · next hopens =>
      rw [if_neg hopens]
      exact hbehind

end Walk

/-! ### The end of a scope -/

namespace Node

variable {root n : Node} {p q r : Path} {x : String} {t : Token}

/-- At the end of a scope, nothing is declared behind the latest declaration. -/
theorem Latest.not_before (h : root.Latest q (q ++ [n.children.length]) x r)
    (hq : root.at? q = some n) (r' : Path) (hr' : root.Declares q x r') : ¬ r.Before r' :=
  h.last r' hr' (hr'.before_end hq)

/-- At the end of a scope, a declaration by a token counts as unread if nothing means it. -/
theorem DeclaredBy.wasRead_iff (h : root.DeclaredBy q t r) (hq : root.at? q = some n) :
    root.WasRead q (q ++ [n.children.length]) t.lexeme r ↔
      ∃ p, root.Reads p t.lexeme ∧ root.Means p t.lexeme q r := by
  constructor
  · rintro (hthis | ⟨p, -, hreads, hmeans⟩)
    · exact absurd hthis h.not_isClass
    · exact ⟨p, hreads, hmeans⟩
  · rintro ⟨p, hreads, hmeans⟩
    exact .inr ⟨p, hmeans.before_end hreads hq, hreads, hmeans⟩

/-- The usage that the walk has noted tells whether a name was read. -/
theorem Used.eq_read_iff {u : Usage} {b : Path} (h : root.Used q b x r u) :
    u = .read ↔ root.WasRead q b x r := by
  cases u with
  | read => exact iff_of_true rfl h
  | declared => exact iff_of_false nofun h.1
  | defined => exact iff_of_false nofun h.1

end Node

namespace Walk

variable {root n : Node} {q : Path} {w : Walk}

/-- At the end of a scope, the names that nothing read are those that the tree tells. -/
theorem Snap.mem_unused_iff (hw : w.Snap root (q ++ [n.children.length]))
    (howned : root.Owned (q ++ [n.children.length]) (root.scopesAt (q ++ [n.children.length]))
      w.owners)
    (hq : root.at? q = some n) (hopens : n.opensScope = true) :
    ∃ scope outer, w.scopes = scope :: outer ∧ scope.Named ∧
      ∀ t, t ∈ scope.unused.map Binding.token ↔ root.Unread q t := by
  have hscopes := hw.scopes
  unfold owners at howned
  rw [Node.scopesAt_concat hq, if_pos hopens] at hscopes howned
  generalize w.scopes = scopes at hscopes howned
  cases hscopes with
  | @cons _ scope _ outer htells =>
    obtain ⟨hown, -⟩ := List.forall₂_cons.1 howned
    have hown : ∀ (x : String) b, scope[x]? = some b →
        root.OwnedBy q (q ++ [n.children.length]) x b.token := fun x b hb =>
      hown x b.token (congrArg (Option.map Binding.token) hb)
    refine ⟨scope, outer, rfl, fun x b hb => (hown x b hb).1, fun t => ?_⟩
    rw [List.mem_map]
    -- The use of a name that a scope knows is that of the last declaration, and so is the owner.
    constructor
    · rintro ⟨b, hb, rfl⟩
      obtain ⟨x, hx, husage⟩ := LocalScope.mem_unused_iff.1 hb
      obtain ⟨rfl, r, hr, hby⟩ := hown x b hx
      have hknown := htells b.token.lexeme
      rw [hx] at hknown
      cases hknown with
      | known hr' hused =>
        obtain rfl := hr.unique hr'
        rw [ne_eq, hused.eq_read_iff] at husage
        have hby := hby.resolve_right fun h => husage (.inl h)
        rw [hby.wasRead_iff hq] at husage
        exact ⟨r, hby, hr.not_before hq, fun p hreads hmeans => husage ⟨p, hreads, hmeans⟩⟩
    · rintro ⟨r, hby, hlast, hunread⟩
      have hr : root.Latest q (q ++ [n.children.length]) t.lexeme r :=
        ⟨hby.declares, hby.declares.before_end hq, fun r' hr' _ => hlast r' hr'⟩
      have hknown := htells t.lexeme
      generalize hfound : scope[t.lexeme]? = found at hknown
      cases hknown with
      | unknown hnot => exact absurd ⟨r, hr.declares, hr.before⟩ hnot
      | @known r' b hr' hused =>
        obtain rfl := hr.unique hr'
        have husage : b.usage ≠ .read := by
          rw [ne_eq, hused.eq_read_iff, hby.wasRead_iff hq]
          rintro ⟨p, hreads, hmeans⟩
          exact hunread p hreads hmeans
        obtain ⟨hlexeme, r', hr', hby'⟩ := hown t.lexeme b hfound
        obtain rfl := hr.unique hr'
        refine ⟨b, LocalScope.mem_unused_iff.2 ⟨t.lexeme, hfound, husage⟩, ?_⟩
        exact (hby'.resolve_right hby.not_isClass).unique hby hlexeme

/-- The report of a walk that leaves a part of a tree with a scope. -/
theorem report_leave (hopens : n.opensScope = true) (start : Walk) :
    (leave start n w).report = w.closeScope.report := by
  cases n with
  | stmt s =>
    cases s with
    | block body => rfl
    | classDecl name methods => rfl
    | _ => cases hopens
  | function kind decl => rfl
  | _ => cases hopens

end Walk

/-- **Unread names are reported in order.** At the end of every local scope of a program, one name
    after another is reported, without names twice and in the strict order of lines and texts. They
    are the names of which nothing means the last declaration in the scope; `this` of a class is not
    among them. The bindings of the scope may be taken in any order. Nothing of it is taken back. -/
theorem Resolution.unread_names_reported_in_order (program : List Stmt) (depths : Depths)
    (report : Report) (q : Path) (n : Node) (hq : (Node.stmts program).at? q = some n)
    (hopens : n.opensScope = true) :
    let last := (start depths report).reach (.stmts program) (q ++ [n.children.length])
    ∃ scope outer names after,
      last.scopes = scope :: outer ∧
      last.closeScope.report.errors.toList = last.report.errors.toList ++
        names.map (fun t => .scope t (.neverUsed t.lexeme)) ∧
      (resolve program depths report).2.errors.toList =
        last.closeScope.report.errors.toList ++ after ∧
      (∀ t, t ∈ names ↔ (Node.stmts program).Unread q t) ∧
      (names.map Token.lexeme).Nodup ∧
      names.Pairwise Token.Precedes ∧
      ∀ order : List (String × Binding), order.Perm scope.toList →
        (LocalScope.unusedFrom order).map Binding.token = names := by
  intro last
  have hsnap := (Walk.along_snap (.stmts program)).reach_end (.start _ depths report) hq
  have howned := (Walk.along_owned (.stmts program)).reach_end (w := start depths report) .nil hq
  obtain ⟨scope, outer, hscopes, hnamed, hunread⟩ := hsnap.mem_unused_iff howned hq hopens
  have hgrows := Walk.grows_of_reach hq (start depths report)
  unfold Walk.Grows at hgrows
  rw [Walk.past_reach hq, Walk.report_leave hopens] at hgrows
  obtain ⟨after, hafter⟩ := hgrows
  refine ⟨scope, outer, scope.unused.map Binding.token, after, hscopes,
    Walk.errors_closeScope hscopes, hafter.symm, hunread, ?_, hnamed.pairwise_unused,
    fun order horder => by rw [hnamed.unusedFrom_eq horder]⟩
  rw [List.map_map]
  exact hnamed.nodup_unused

/-- In one scope, a variable that is not mentioned again, one that its own initializer reads, one
    that is assigned, one that a function reads, and the function. -/
def Resolution.severalUses : String :=
  "\x7b var z;\n var b; var a = a; var c; c = nil; var d; fun f() \x7b print d; \x7d \x7d"

/-- Where the names are that nothing read in the innermost scope of a walk. -/
def Walk.unusedPlaces (w : Walk) : Option (List (Nat × String)) :=
  w.scopes.head?.map fun scope => scope.unused.map fun b => (b.token.line, b.token.lexeme)

/-- All but the two that are read are reported: the one on the first line, then the others. -/
theorem Resolution.unread_names_reported_in_order_severalUses :
    let program := (Program.parse (Token.ofSource severalUses) 0 .empty).statements
    ∃ names : List Token,
      names.map (fun t => (t.line, t.lexeme)) = [(1, "z"), (2, "b"), (2, "c"), (2, "f")] ∧
        ∀ t, t ∈ names ↔ (Node.stmts program).Unread [0] t := by
  intro program
  have hopens : ((Node.stmts program).at? [0]).any Node.opensScope = true := by decide +kernel
  have hplaces : (((Node.stmts program).at? [0]).bind fun n =>
      ((start ∅ .empty).reach (.stmts program) ([0] ++ [n.children.length])).unusedPlaces) =
        some [(1, "z"), (2, "b"), (2, "c"), (2, "f")] := by decide +kernel
  generalize program = program at hopens hplaces ⊢
  obtain ⟨n, hn, hopens⟩ := (Option.any_eq_true _ _).1 hopens
  obtain ⟨scope, outer, names, after, hscopes, -, -, hunread, -, -, horder⟩ :=
    unread_names_reported_in_order program ∅ .empty [0] n hn hopens
  refine ⟨names, ?_, hunread⟩
  rw [hn, Option.bind_some, Walk.unusedPlaces, hscopes] at hplaces
  rw [← horder scope.toList (List.Perm.refl _), List.map_map]
  exact Option.some.inj hplaces

end Scriptlet
