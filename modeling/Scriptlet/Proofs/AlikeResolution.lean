import Scriptlet.Proofs.AlikeReading
import Scriptlet.Proofs.Visit

namespace Scriptlet

/-!
# Resolving programs that are alike

The resolution walk over a program goes by the texts of its names: over programs that agree in
them it reports alike, and records the same depth for nodes that stand for each other.

* `TokenLikeness.Ordered` — tokens that stand for each other come in the same order of lines.
* `Walk.Like` — two walks that have seen alike; with one lemma per step of the walk.
* `Walk.Ready` — two walks that come alike to parts of two programs, with tables that hold what they
  record.
* `Walk.follows` — behind parts that agree in their tokens the walks are alike, and the parts are
  alike with the depths that they record.
-/

/-! ### Maps that hold alike -/

section Maps

variable {α β : Type} {R : α → β → Prop} {s : Std.TreeMap String α} {s' : Std.TreeMap String β}

/-- Maps with something under the same keys have the same list of keys. -/
theorem keys_eq_of_rel (h : ∀ x : String, Option.Rel R s[x]? s'[x]?) : s'.keys = s.keys := by
  have hmem : ∀ x, x ∈ s'.keys ↔ x ∈ s.keys := by
    intro x
    rw [Std.TreeMap.mem_keys, Std.TreeMap.mem_keys, Std.TreeMap.mem_iff_isSome_getElem?,
      Std.TreeMap.mem_iff_isSome_getElem?, rel_isSome (h x)]
  have hnodup : ∀ {γ : Type} (m : Std.TreeMap String γ), m.keys.Nodup := fun m =>
    Std.TreeMap.ordered_keys.imp fun hlt heq => by
      subst heq
      simp at hlt
  refine List.Perm.eq_of_pairwise (fun a b _ _ hab hba => ?_) Std.TreeMap.ordered_keys
    Std.TreeMap.ordered_keys ((List.perm_ext_iff_of_nodup (hnodup s') (hnodup s)).2 hmem)
  exact absurd hba (Std.OrientedCmp.not_lt_of_lt hab)

/-- What such maps hold, in the order of the keys. -/
theorem forall₂_values_of_rel (h : ∀ x : String, Option.Rel R s[x]? s'[x]?) :
    List.Forall₂ R (s.toList.map Prod.snd) (s'.toList.map Prod.snd) := by
  have hpairs : ∀ x a b, (x, a) ∈ s.toList → (x, b) ∈ s'.toList → R a b := by
    intro x a b ha hb
    have hx := h x
    rw [Std.TreeMap.mem_toList_iff_getElem?_eq_some.1 ha,
      Std.TreeMap.mem_toList_iff_getElem?_eq_some.1 hb] at hx
    cases hx with
    | some hab => exact hab
  have hkeys : s.toList.map Prod.fst = s'.toList.map Prod.fst := by
    rw [Std.TreeMap.map_fst_toList_eq_keys, Std.TreeMap.map_fst_toList_eq_keys, keys_eq_of_rel h]
  generalize s.toList = l at hpairs hkeys ⊢
  generalize s'.toList = l' at hpairs hkeys ⊢
  induction l generalizing l' with
  | nil =>
    rw [List.map_nil, List.nil_eq, List.map_eq_nil_iff] at hkeys
    subst hkeys
    exact .nil
  | cons p l ih =>
    cases l' with
    | nil => cases hkeys
    | cons p' l' =>
      obtain ⟨x, a⟩ := p
      obtain ⟨x', b⟩ := p'
      obtain ⟨hx, hrest⟩ := List.cons.inj hkeys
      cases hx
      refine .cons (hpairs x a b List.mem_cons_self List.mem_cons_self)
        (ih l' (fun y c d hc hd => ?_) hrest)
      exact hpairs y c d (List.mem_cons_of_mem _ hc) (List.mem_cons_of_mem _ hd)

end Maps

/-! ### Scopes -/

/-- Tokens that stand for each other come in the same order of lines. -/
def TokenLikeness.Ordered (τ : TokenLikeness) : Prop :=
  ∀ {t t' u u'}, τ.rel t t' → τ.rel u u' → (t'.line < u'.line ↔ t.line < u.line)

/-- Names that are used alike. The token is of account only while a report may show it. -/
structure Binding.Like (τ : TokenLikeness) (b b' : Binding) : Prop where
  usage : b'.usage = b.usage
  token : b.usage ≠ .read → τ.rel b.token b'.token

/-- Scopes that hold the same names, which are used alike. -/
def LocalScope.Like (τ : TokenLikeness) (s s' : LocalScope) : Prop :=
  ∀ x : String, Option.Rel (Binding.Like τ) s[x]? s'[x]?

section Scopes

variable {τ : TokenLikeness} {s s' : LocalScope} {b b' : Binding}

namespace Binding.Like

/-- Bindings that are defined are used alike. -/
theorem define (h : Binding.Like τ b b') : Binding.Like τ b.define b'.define := by
  unfold Binding.define
  rw [h.usage]
  split
  · next hdeclared => exact ⟨rfl, fun _ => h.token (by rw [hdeclared]; decide)⟩
  · exact h

/-- Bindings that are read are used alike, whatever their tokens are. -/
theorem markRead (b b' : Binding) : Binding.Like τ b.markRead b'.markRead :=
  ⟨rfl, fun hread => absurd rfl hread⟩

end Binding.Like

namespace LocalScope.Like

/-- New scopes hold the same names, none. -/
theorem empty : LocalScope.Like τ ∅ ∅ := fun _ => .none

/-- Alike scopes have the same names. -/
theorem contains_eq (h : LocalScope.Like τ s s') (x : String) : s'.contains x = s.contains x := by
  rw [← Std.TreeMap.isSome_getElem?_eq_contains, ← Std.TreeMap.isSome_getElem?_eq_contains,
    rel_isSome (h x)]

/-- Alike bindings may be added under a name. -/
theorem insert (h : LocalScope.Like τ s s') (x : String) (hb : Binding.Like τ b b') :
    LocalScope.Like τ (s.insert x b) (s'.insert x b') := by
  intro y
  rw [Std.TreeMap.getElem?_insert, Std.TreeMap.getElem?_insert]
  split
  · exact .some hb
  · exact h y

/-- A binding may be changed to an alike one. -/
theorem modify (h : LocalScope.Like τ s s') (x : String) {f : Binding → Binding}
    (hf : ∀ b b', Binding.Like τ b b' → Binding.Like τ (f b) (f b')) :
    LocalScope.Like τ (s.modify x f) (s'.modify x f) := by
  intro y
  rw [Std.TreeMap.getElem?_modify, Std.TreeMap.getElem?_modify]
  split
  · exact rel_map (hf _ _) (h x)
  · exact h y

/-- The scope around the methods of a class, whatever line the class is on. -/
theorem this (line line' : Nat) : LocalScope.Like τ (Walk.thisScope line) (Walk.thisScope line') :=
  empty.insert "this" ⟨rfl, fun hread => absurd rfl hread⟩

end LocalScope.Like

/-- Names are put in the same order. -/
theorem upTo_eq (hτ : τ.Ordered) {a a' : Binding} (ha : τ.rel a.token a'.token)
    (hb : τ.rel b.token b'.token) : a'.upTo b' = a.upTo b := by
  have hlt := hτ ha hb
  have hgt := hτ hb ha
  have heq : a'.token.line = b'.token.line ↔ a.token.line = b.token.line := by omega
  unfold Binding.upTo
  rw [τ.lexeme_eq ha, τ.lexeme_eq hb]
  simp only [hlt, heq]

/-- By `upTo_eq`, a name is put at the same place. -/
theorem forall₂_insertOrdered (hτ : τ.Ordered) (hb : τ.rel b.token b'.token)
    {bs bs' : List Binding} (h : List.Forall₂ (fun a a' => τ.rel a.token a'.token) bs bs') :
    List.Forall₂ (fun a a' => τ.rel a.token a'.token) (b.insertOrdered bs)
      (b'.insertOrdered bs') := by
  induction h with
  | nil => exact .cons hb .nil
  | @cons a a' bs bs' ha hbs ih =>
    unfold Binding.insertOrdered
    rw [upTo_eq hτ hb ha]
    split
    · exact .cons hb (.cons ha hbs)
    · exact .cons ha ih

/-- The names that nothing read, in the order in which they are reported. -/
theorem LocalScope.Like.unused (hτ : τ.Ordered) (h : LocalScope.Like τ s s') :
    List.Forall₂ (fun a a' => τ.rel a.token a'.token) s.unused s'.unused := by
  have hvalues := forall₂_values_of_rel h
  unfold LocalScope.unused
  generalize s.toList.map Prod.snd = bs at hvalues ⊢
  generalize s'.toList.map Prod.snd = bs' at hvalues ⊢
  induction hvalues with
  | nil => exact .nil
  | @cons b b' bs bs' hb _ ih =>
    rw [List.filter_cons, List.filter_cons, hb.usage]
    split
    · next hread => exact forall₂_insertOrdered hτ (hb.token (of_decide_eq_true hread)) ih
    · exact ih

end Scopes

/-! ### Walks -/

/-- Walks that have seen alike. What they recorded is not compared. -/
structure Walk.Like (τ : TokenLikeness) (w w' : Walk) : Prop where
  scopes : List.Forall₂ (LocalScope.Like τ) w.scopes w'.scopes
  body : w'.body = w.body
  inClass : w'.inClass = w.inClass
  report : Report.Like (.raw τ) w.report w'.report

namespace Walk.Like

variable {τ : TokenLikeness} {w w' : Walk} {t t' : Token}

variable (h : Walk.Like τ w w')

include h

/-- Both walks report the same fault, at tokens that stand for each other. -/
theorem complain (ht : τ.rel t t') (fault : ScopeFault) :
    Walk.Like τ (w.complain t fault) (w'.complain t' fault) :=
  { h with report := h.report.add (.scope fault ht) }

/-- A check that comes out the same on both sides. -/
theorem complainIf (c : Prop) [Decidable c] (ht : τ.rel t t') (fault : ScopeFault) :
    Walk.Like τ (if c then w.complain t fault else w)
      (if c then w'.complain t' fault else w') := by
  split
  · exact h.complain ht fault
  · exact h

/-- `depth?` goes by names, so it has the same answer. -/
theorem depth?_eq (x : String) : w'.depth? x = w.depth? x := by
  have hscopes := h.scopes
  unfold Walk.depth?
  generalize w.scopes = ss at hscopes ⊢
  generalize w'.scopes = ss' at hscopes ⊢
  induction hscopes with
  | nil => rfl
  | cons hs _ ih => rw [List.findIdx?_cons, List.findIdx?_cons, hs.contains_eq, ih]

/-- `refer` records a depth, which `Walk.Like` does not compare. -/
theorem refer (ht : τ.rel t t') (id id' : NodeId) :
    Walk.Like τ (w.refer id t) (w'.refer id' t') := by
  unfold Walk.refer
  rw [τ.lexeme_eq ht, h.depth?_eq]
  split
  · exact h
  · exact ⟨h.scopes, h.body, h.inClass, h.report⟩

/-- `markRead` marks the name in scopes at the same depth. -/
theorem markRead (ht : τ.rel t t') :
    Walk.Like τ (w.markRead t) (w'.markRead t') := by
  unfold Walk.markRead
  rw [τ.lexeme_eq ht, h.depth?_eq]
  split
  · exact h
  · next d _ =>
    refine ⟨?_, h.body, h.inClass, h.report⟩
    have hscopes := h.scopes
    show List.Forall₂ _ (w.scopes.modify d _) (w'.scopes.modify d _)
    generalize w.scopes = ss at hscopes ⊢
    generalize w'.scopes = ss' at hscopes ⊢
    clear * - hscopes
    induction hscopes generalizing d with
    | nil => cases d <;> exact .nil
    | cons hs hss ih =>
      cases d with
      | zero => exact .cons (hs.modify _ fun b b' _ => .markRead b b') hss
      | succ d => exact .cons hs (ih d)

/-- `read` is `refer` and `markRead`. -/
theorem read (ht : τ.rel t t') (id id' : NodeId) :
    Walk.Like τ (w.read id t) (w'.read id' t') :=
  (h.refer ht id id').markRead ht

/-- `inOwnInitializer` asks for the usage in the innermost scope only. -/
theorem inOwnInitializer_eq (x : String) :
    w'.inOwnInitializer x = w.inOwnInitializer x := by
  unfold Walk.inOwnInitializer
  refine forall₂_elim h.scopes rfl fun s s' _ _ hs _ => ?_
  simp only
  exact rel_elim (hs x) rfl fun b b' hb => by simp only [hb.usage]

/-- `declare` reports a name that is taken in both walks or in none. -/
theorem declare (ht : τ.rel t t') :
    Walk.Like τ (w.declare t) (w'.declare t') := by
  unfold Walk.declare
  refine forall₂_elim h.scopes h fun s s' ss ss' hs hss => ?_
  simp only [τ.lexeme_eq ht, hs.contains_eq]
  exact { h.complainIf _ ht _ with scopes := .cons (hs.insert _ ⟨rfl, fun _ => ht⟩) hss }

/-- `define` changes the usage in the innermost scope only. -/
theorem define (ht : τ.rel t t') :
    Walk.Like τ (w.define t) (w'.define t') := by
  unfold Walk.define
  refine forall₂_elim h.scopes h fun s s' ss ss' hs hss => ?_
  simp only [τ.lexeme_eq ht]
  exact { h with scopes := .cons (hs.modify _ fun _ _ hb => hb.define) hss }

/-- `introduce` is `declare` and `define`. -/
theorem introduce (ht : τ.rel t t') :
    Walk.Like τ (w.introduce t) (w'.introduce t') :=
  (h.declare ht).define ht

/-- `introduce` for all parameters. -/
theorem foldl_introduce {ts ts' : List Token} (hts : List.Forall₂ τ.rel ts ts') :
    Walk.Like τ (ts.foldl Walk.introduce w) (ts'.foldl Walk.introduce w') := by
  induction hts generalizing w w' with
  | nil => exact h
  | cons ht _ ih => exact ih (h.introduce ht)

/-- Scopes that are opened are alike. -/
theorem openScope {s s' : LocalScope} (hs : LocalScope.Like τ s s') :
    Walk.Like τ (w.openScope s) (w'.openScope s') :=
  { h with scopes := .cons hs h.scopes }

/-- By `LocalScope.Like.unused`, the same unused names are reported in the same order. -/
theorem closeScope (hτ : τ.Ordered) :
    Walk.Like τ w.closeScope w'.closeScope := by
  unfold Walk.closeScope
  refine forall₂_elim h.scopes h fun s s' ss ss' hs hss => ?_
  have houter : Walk.Like τ { w with scopes := ss } { w' with scopes := ss' } :=
    { h with scopes := hss }
  have hunused := hs.unused hτ
  simp only
  generalize s.unused = bs, s'.unused = bs' at hunused ⊢
  generalize ({ w with scopes := ss } : Walk) = v at houter ⊢
  generalize ({ w' with scopes := ss' } : Walk) = v' at houter ⊢
  induction hunused generalizing v v' with
  | nil => exact houter
  | @cons b b' _ _ hb _ ih =>
    rw [List.foldl_cons, List.foldl_cons, τ.lexeme_eq hb]
    exact ih _ _ (houter.complain hb _)

/-- `checkReturn` asks for the kind of body, which is the same. -/
theorem checkReturn (ht : τ.rel t t') (hasValue : Bool) :
    Walk.Like τ (w.checkReturn t hasValue) (w'.checkReturn t' hasValue) := by
  have hfirst := h.complainIf (w.body = .topLevel) ht .returnOutsideFunction
  unfold Walk.checkReturn
  simp only [h.body, hfirst.body]
  exact hfirst.complainIf _ ht _

end Walk.Like

/-! ### Resolved programs -/

/-- Two walks that come to parts of programs alike, each with a table that holds what it will
    record. Nodes for which the same is recorded are to stand for each other. -/
structure Walk.Ready (τ : TokenLikeness) (node : NodeId → NodeId → Option Nat → Prop)
    (table table' : Depths) (v v' : Visit) : Prop where
  walks : Walk.Like τ v.walk v'.walk
  told : v.Told table
  told' : v'.Told table'
  nodes : ∀ i ∈ v.node.ids, ∀ i' ∈ v'.node.ids, table'[i']? = table[i]? → ∃ d, node i i' d

/-- What becomes of such walks, and of the two parts. -/
structure Walk.Follows (τ : TokenLikeness) (node : NodeId → NodeId → Option Nat → Prop)
    (around : List Bool) (v v' : Visit) : Prop where
  walks : Walk.Like τ (v.walk.past v.node) (v'.walk.past v'.node)
  like : Node.Like (.plain τ node) around v.node v'.node

namespace Walk

variable {τ : TokenLikeness} {node : NodeId → NodeId → Option Nat → Prop} {table table' : Depths}

/-- Walks that come to children of the two parts alike are ready there. -/
theorem Ready.child {v v' u u' : Visit} (h : Ready τ node table table' v v') (hc : v.Child u)
    (hc' : v'.Child u') (hw : Walk.Like τ u.walk u'.walk) : Ready τ node table table' u u' where
  walks := hw
  told := h.told.child hc
  told' := h.told'.child hc'
  nodes i hi i' hi' := h.nodes i (hc.ids.subset hi) i' (hc'.ids.subset hi')

/-- `Ready.child` for parts that are inside of the same constructs. -/
theorem Ready.part {site site' : List Construct} {w w' u u' : Walk} {n n' part part' : Node}
    (h : Ready τ node table table' ⟨w, site, n⟩ ⟨w', site', n'⟩) (hp : w.Part n u part)
    (hp' : w'.Part n' u' part') (hw : Walk.Like τ u u') :
    Ready τ node table table' ⟨u, site, part⟩ ⟨u', site', part'⟩ :=
  h.child (.part hp) (.part hp') hw

/-- Nodes that stand for each other name the same variable. -/
theorem refers_plain {around : List Bool} {id id' : NodeId} {t t' : Token} (ht : τ.rel t t')
    (hnode : ∃ d, node id id' d) : (Likeness.plain τ node).Refers around id id' t t' := by
  obtain ⟨d, hd⟩ := hnode
  cases d with
  | some d => exact .bound hd trivial (Likeness.names_plain_iff.2 ht)
  | none => exact .free hd ht

/-- **Walks over programs that are alike.** Walks that come alike to parts of programs whose tokens
    are alike are alike behind them, and the same depths are recorded for both parts. -/
theorem follows (hτ : τ.Ordered) {around : List Bool} {n n' : Node}
    (hlike : Node.Like (.raw τ) around n n') {site site' : List Construct} {w w' : Walk}
    (h : Ready τ node table table' ⟨w, site, n⟩ ⟨w', site', n'⟩) :
    Follows τ node around ⟨w, site, n⟩ ⟨w', site', n'⟩ := by
  induction hlike generalizing site site' w w' with
  | literal => exact ⟨h.walks, .literal⟩
  | group _ ihe =>
    have he := ihe (h.part .grouped .grouped h.walks)
    exact ⟨he.walks, .group he.like⟩
  | @read _ id id' name name' href =>
    have ht := href.rel
    have hnode := h.nodes id (List.mem_singleton_self id) id' (List.mem_singleton_self id')
    refine ⟨?_, .read (refers_plain ht (hnode ?_))⟩
    · show Walk.Like τ (w.expr (.variable id name)) (w'.expr (.variable id' name'))
      rw [Walk.expr, Walk.expr, τ.lexeme_eq ht, h.walks.inOwnInitializer_eq]
      exact (h.walks.complainIf _ ht _).read ht id id'
    · rw [h.told.read, h.told'.read, τ.lexeme_eq ht, h.walks.depth?_eq]
  | @thisRef _ id id' name name' href =>
    have ht := href.rel
    have hnode := h.nodes id (List.mem_singleton_self id) id' (List.mem_singleton_self id')
    refine ⟨?_, .thisRef (refers_plain ht (hnode ?_))⟩
    · show Walk.Like τ (w.expr (.thisRef id name)) (w'.expr (.thisRef id' name'))
      rw [Walk.expr, Walk.expr, h.walks.inClass]
      split
      · exact h.walks.read ht id id'
      · exact h.walks.complain ht _
    · rw [h.told.thisRef, h.told'.thisRef, τ.lexeme_eq ht, h.walks.depth?_eq, h.walks.inClass]
  | @assign _ id id' name name' e e' href _ ihe =>
    have ht := href.rel
    have hnode := h.nodes id (List.mem_append_right _ (List.mem_singleton_self id)) id'
      (List.mem_append_right _ (List.mem_singleton_self id'))
    -- The name is looked up when the value is over.
    have he := ihe (h.part .assigned .assigned h.walks)
    have hwalks : Walk.Like τ (w.expr e) (w'.expr e') := he.walks
    refine ⟨hwalks.refer ht id id', .assign (refers_plain ht (hnode ?_)) he.like⟩
    rw [h.told.assign, h.told'.assign, τ.lexeme_eq ht, hwalks.depth?_eq]
  | unary ht _ ihe =>
    have he := ihe (h.part .operand .operand h.walks)
    exact ⟨he.walks, .unary ht he.like⟩
  | binary ht _ _ iha ihb =>
    have ha := iha (h.part .left .left h.walks)
    have hb := ihb (h.part .right .right ha.walks)
    exact ⟨hb.walks, .binary ht ha.like hb.like⟩
  | logical ht _ _ iha ihb =>
    have ha := iha (h.part .logicalLeft .logicalLeft h.walks)
    have hb := ihb (h.part .logicalRight .logicalRight ha.walks)
    exact ⟨hb.walks, .logical ht ha.like hb.like⟩
  | conditional ht _ _ _ ihc iha ihb =>
    have hc := ihc (h.part .chosenBy .chosenBy h.walks)
    have ha := iha (h.part .chosenTrue .chosenTrue hc.walks)
    have hb := ihb (h.part .chosenFalse .chosenFalse ha.walks)
    exact ⟨hb.walks, .conditional ht hc.like ha.like hb.like⟩
  | call ht _ _ ihe ihes =>
    have he := ihe (h.part .callee .callee h.walks)
    have hes := ihes (h.part .arguments .arguments he.walks)
    exact ⟨hes.walks, .call ht he.like hes.like⟩
  | get ht _ ihe =>
    have he := ihe (h.part .object .object h.walks)
    exact ⟨he.walks, .get ht he.like⟩
  | set ht _ _ iha ihb =>
    have ha := iha (h.part .owner .owner h.walks)
    have hb := ihb (h.part .fieldValue .fieldValue ha.walks)
    exact ⟨hb.walks, .set ht ha.like hb.like⟩
  | lambda _ ihf =>
    have hf := ihf (h.part .literal .literal h.walks)
    exact ⟨hf.walks, .lambda hf.like⟩
  | noExprs => exact ⟨h.walks, .noExprs⟩
  | exprs _ _ ihe ihes =>
    have he := ihe (h.part .argument .argument h.walks)
    have hes := ihes (h.part .nextArguments .nextArguments he.walks)
    exact ⟨hes.walks, .exprs he.like hes.like⟩
  | expr _ ihe =>
    have he := ihe (h.part .evaluated .evaluated h.walks)
    exact ⟨he.walks, .expr he.like⟩
  | print _ ihe =>
    have he := ihe (h.part .printed .printed h.walks)
    exact ⟨he.walks, .print he.like⟩
  | varDecl hname =>
    have ht := Likeness.names_plain_iff.1 hname
    exact ⟨h.walks.introduce ht, .varDecl (Likeness.names_plain_iff.2 ht)⟩
  | varInit hname _ ihe =>
    have ht := Likeness.names_plain_iff.1 hname
    have he := ihe (h.child .initializer .initializer (h.walks.declare ht))
    exact ⟨he.walks.define ht, .varInit (Likeness.names_plain_iff.2 ht) he.like⟩
  | block marked _ ihbody =>
    have hbody := ihbody (h.child .block .block (h.walks.openScope .empty))
    exact ⟨hbody.walks.closeScope hτ, .block marked hbody.like⟩
  | ifThen _ _ ihc iha =>
    have hc := ihc (h.part .condition .condition h.walks)
    have ha := iha (h.part .whenTrue .whenTrue hc.walks)
    exact ⟨ha.walks, .ifThen hc.like ha.like⟩
  | ifElse _ _ _ ihc iha ihb =>
    have hc := ihc (h.part .condition .condition h.walks)
    have ha := iha (h.part .whenTrue .whenTrue hc.walks)
    have hb := ihb (h.part .whenFalse .whenFalse ha.walks)
    exact ⟨hb.walks, .ifElse hc.like ha.like hb.like⟩
  | whileLoop _ _ ihc iha =>
    have hc := ihc (h.part .test .test h.walks)
    have ha := iha (h.part .loopBody .loopBody hc.walks)
    exact ⟨ha.walks, .whileLoop hc.like ha.like⟩
  | @funDecl _ decl decl' _ hf ihf =>
    have hnamed : Walk.Like τ (w.nameFunction decl) (w'.nameFunction decl') := by
      cases hf with
      | function _ hname =>
        unfold Walk.nameFunction
        generalize decl.name? = name at hname ⊢
        generalize decl'.name? = name' at hname ⊢
        cases hname with
        | some ht => exact h.walks.introduce ht
        | none => exact h.walks
    have hf := ihf (h.child .named .named hnamed)
    exact ⟨hf.walks, .funDecl (Likeness.name_plain _ _) hf.like⟩
  | ret ht => exact ⟨h.walks.checkReturn ht false, .ret ht⟩
  | retValue ht _ ihe =>
    have he := ihe (h.part .returned .returned (h.walks.checkReturn ht true))
    exact ⟨he.walks, .retValue ht he.like⟩
  | @classDecl _ name name' _ _ ht _ _ ihmethods =>
    have hinClass : Walk.Like τ { w with inClass := true } { w' with inClass := true } :=
      { h.walks with inClass := rfl }
    have hentered : Walk.Like τ (w.enterClass name) (w'.enterClass name') :=
      (hinClass.introduce ht).openScope (.this name.line name'.line)
    have hmethods := ihmethods (h.child .methods .methods hentered)
    refine ⟨?_, .classDecl ht (Likeness.name_plain _ _) hmethods.like⟩
    -- Behind the class, both walks are inside of a class again iff they were before it.
    exact { hmethods.walks.closeScope hτ with inClass := h.walks.inClass }
  | noStmts => exact ⟨h.walks, .noStmts⟩
  | stmts _ _ ihs ihss =>
    have hs := ihs (h.part .statement .statement h.walks)
    have hss := ihss (h.child .rest .rest hs.walks)
    exact ⟨hss.walks, .stmts hs.like hss.like⟩
  | @function _ kind decl decl' marked hname hparams _ ihbody =>
    obtain ⟨name?, params, body⟩ := decl
    obtain ⟨name?', params', body'⟩ := decl'
    have hparams := Likeness.forall₂_names_plain_iff.1 hparams
    have hkind : Walk.Like τ { w with body := kind } { w' with body := kind } :=
      { h.walks with body := rfl }
    have hentered := (hkind.openScope .empty).foldl_introduce hparams
    have hbody := ihbody (h.child .function .function hentered)
    refine ⟨?_, .function marked hname (Likeness.forall₂_names_plain_iff.2 hparams) hbody.like⟩
    exact { hbody.walks.closeScope hτ with body := h.walks.body }
  | noFunctions => exact ⟨h.walks, .noFunctions⟩
  | @functions _ f f' _ _ hf _ ihf ihfs =>
    have hkind : methodBody f' = methodBody f := by
      unfold methodBody
      rw [(hf.withKind .function).isInitializer_eq]
    have hready := h.part .method .method h.walks
    rw [hkind] at hready
    have hf := ihf hready
    have hwalks : Walk.Like τ (w.function (methodBody f) f) (w'.function (methodBody f') f') := by
      rw [hkind]
      exact hf.walks
    have hfs := ihfs (h.part .nextMethods .nextMethods hwalks)
    exact ⟨hfs.walks, .functions hf.like hfs.like⟩

end Walk

end Scriptlet
