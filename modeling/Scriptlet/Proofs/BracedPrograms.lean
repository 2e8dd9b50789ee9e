import Scriptlet.Proofs.BracedRun
import Scriptlet.Proofs.BracedWalk
import Scriptlet.Proofs.Renaming
import Scriptlet.Proofs.SplitPrograms
import Scriptlet.Proofs.This

namespace Scriptlet

/-!
# Extra braces around a statement

Some statement of a program that declares nothing is put in a block of its own. Nobody can tell the
difference.

* `Node.withChildren` — a tree made of other parts; `Node.modifyAt` — a tree with another part at
  the end of a way.
* `Stmt.braceAt` — a program with extra braces around the statement at the end of a way.
* `Stmt.braced_braceAt` — that is the program with extra braces at this place.
* `Machine.matches_refl` — a machine of a session stands for itself, so both programs start alike.
* `Session.braces_are_transparent` — the same is reported, and runs write the same and end in the
  same way.
-/

/-! ### Parts of a tree -/

namespace Node

/-- The same part of a tree made of other parts, if they are of the right kinds. -/
def withChildren : Node → List Node → Node
  | .expr (.group _), [.expr e] => .expr (.group e)
  | .expr (.assign id name _), [.expr e] => .expr (.assign id name e)
  | .expr (.unary op _), [.expr e] => .expr (.unary op e)
  | .expr (.binary _ op _), [.expr a, .expr b] => .expr (.binary a op b)
  | .expr (.logical _ op _), [.expr a, .expr b] => .expr (.logical a op b)
  | .expr (.conditional _ q _ _), [.expr c, .expr a, .expr b] => .expr (.conditional c q a b)
  | .expr (.call _ paren _), [.expr e, .exprs es] => .expr (.call e paren es)
  | .expr (.get _ name), [.expr e] => .expr (.get e name)
  | .expr (.set _ name _), [.expr a, .expr b] => .expr (.set a name b)
  | .expr (.function _), [.function _ decl] => .expr (.function decl)
  | .exprs (_ :: _), [.expr e, .exprs es] => .exprs (e :: es)
  | .stmt (.expr _), [.expr e] => .stmt (.expr e)
  | .stmt (.print _), [.expr e] => .stmt (.print e)
  | .stmt (.varDecl name (some _)), [.expr e] => .stmt (.varDecl name (some e))
  | .stmt (.block _), [.stmts body] => .stmt (.block body)
  | .stmt (.ifElse _ _ none), [.expr c, .stmt a] => .stmt (.ifElse c a none)
  | .stmt (.ifElse _ _ (some _)), [.expr c, .stmt a, .stmt b] => .stmt (.ifElse c a (some b))
  | .stmt (.whileLoop _ _), [.expr c, .stmt a] => .stmt (.whileLoop c a)
  | .stmt (.funDecl _), [.function _ decl] => .stmt (.funDecl decl)
  | .stmt (.ret keyword (some _)), [.expr e] => .stmt (.ret keyword (some e))
  | .stmt (.classDecl name _), [.functions methods] => .stmt (.classDecl name methods)
  | .stmts (_ :: _), [.stmt s, .stmts ss] => .stmts (s :: ss)
  | .function kind decl, [.stmts body] => .function kind (.mk decl.name? decl.params body)
  | .functions (_ :: _), [.function _ f, .functions fs] => .functions (f :: fs)
  | n, _ => n

/-- The part at the end of a way is changed. -/
def modifyAt (change : Node → Node) : List Nat → Node → Node
  | [], n => change n
  | i :: path, n => n.withChildren (n.children.modify i (modifyAt change path))

theorem withChildren_children (n : Node) : n.withChildren n.children = n := by
  cases n with
  | expr e => cases e <;> rfl
  | exprs es => cases es <;> rfl
  | stmt s =>
    cases s with
    | varDecl name init => cases init <;> rfl
    | ifElse c a b => cases b <;> rfl
    | ret keyword e => cases e <;> rfl
    | _ => rfl
  | stmts ss => cases ss <;> rfl
  | function kind decl => cases decl; rfl
  | functions fs => cases fs <;> rfl

/-- The numbers of the nodes of a part. -/
theorem ids_of_mem_children {n m : Node} (h : m ∈ n.children) : m.ids.Sublist n.ids := by
  let v : Visit := ⟨Resolution.start ∅ .empty, [], n⟩
  obtain ⟨u, hu, rfl⟩ := Visit.exists_child (v := v) h
  exact hu.ids

end Node

/-! ### Trees without and with extra braces -/

section Shapes

variable {α β : Type} {R : α → β → Prop}

theorem exists_of_forall₂_one {a : α} {bs : List β} (h : List.Forall₂ R [a] bs) :
    ∃ b, bs = [b] ∧ R a b := by
  cases h with
  | cons h hrest =>
    cases hrest
    exact ⟨_, rfl, h⟩

theorem exists_of_forall₂_two {a a' : α} {bs : List β} (h : List.Forall₂ R [a, a'] bs) :
    ∃ b b', bs = [b, b'] ∧ R a b ∧ R a' b' := by
  cases h with
  | cons h hrest =>
    obtain ⟨b', rfl, h'⟩ := exists_of_forall₂_one hrest
    exact ⟨_, _, rfl, h, h'⟩

theorem exists_of_forall₂_three {a a' a'' : α} {bs : List β}
    (h : List.Forall₂ R [a, a', a''] bs) :
    ∃ b b' b'', bs = [b, b', b''] ∧ R a b ∧ R a' b' ∧ R a'' b'' := by
  cases h with
  | cons h hrest =>
    obtain ⟨b', b'', rfl, h', h''⟩ := exists_of_forall₂_two hrest
    exact ⟨_, _, _, rfl, h, h', h''⟩

end Shapes

/-- The scopes around the parts of a part of a tree. -/
def Around.inside (around : Around) : Node → Around
  | .stmt (.block _) => false :: around
  | .stmt (.classDecl _ _) => false :: around
  | .function _ _ => false :: around
  | _ => around

namespace Node.Braced

variable {c : Bracing} {around : Around} {m : Node}

variable {e : Expr} {s : Stmt} {ms : List Node}

theorem exists_expr (h : Node.Braced c around (.expr e) m) : ∃ e', m = .expr e' := by
  cases h <;> exact ⟨_, rfl⟩

theorem exists_exprs {es : List Expr} (h : Node.Braced c around (.exprs es) m) :
    ∃ es', m = .exprs es' := by
  cases h <;> exact ⟨_, rfl⟩

theorem exists_stmt (h : Node.Braced c around (.stmt s) m) : ∃ s', m = .stmt s' := by
  cases h <;> exact ⟨_, rfl⟩

theorem exists_stmts {ss : List Stmt} (h : Node.Braced c around (.stmts ss) m) :
    ∃ ss', m = .stmts ss' := by
  cases h <;> exact ⟨_, rfl⟩

theorem exists_function {kind : Body} {f : FunDecl}
    (h : Node.Braced c around (.function kind f) m) : ∃ f', m = .function kind f' := by
  cases h
  exact ⟨_, rfl⟩

theorem exists_functions {fs : List FunDecl} (h : Node.Braced c around (.functions fs) m) :
    ∃ fs', m = .functions fs' := by
  cases h <;> exact ⟨_, rfl⟩

/-- Extra braces in the parts of an expression. -/
theorem withChildren_expr (hnode : ∀ id ∈ e.ids, c.node around id)
    (hparts : List.Forall₂ (Node.Braced c around) (Node.expr e).children ms) :
    Node.Braced c around (.expr e) ((Node.expr e).withChildren ms) ∧
      ((Node.expr e).withChildren ms).children = ms := by
  cases e with
  | literal =>
    cases hparts
    exact ⟨.literal, rfl⟩
  | «variable» =>
    cases hparts
    exact ⟨.read (hnode _ (List.mem_singleton_self _)), rfl⟩
  | thisRef =>
    cases hparts
    exact ⟨.thisRef (hnode _ (List.mem_singleton_self _)), rfl⟩
  | group =>
    obtain ⟨_, rfl, h⟩ := exists_of_forall₂_one hparts
    obtain ⟨_, rfl⟩ := h.exists_expr
    exact ⟨.group h, rfl⟩
  | assign =>
    obtain ⟨_, rfl, h⟩ := exists_of_forall₂_one hparts
    obtain ⟨_, rfl⟩ := h.exists_expr
    exact ⟨.assign (hnode _ (List.mem_append_right _ (List.mem_singleton_self _))) h, rfl⟩
  | unary =>
    obtain ⟨_, rfl, h⟩ := exists_of_forall₂_one hparts
    obtain ⟨_, rfl⟩ := h.exists_expr
    exact ⟨.unary h, rfl⟩
  | get =>
    obtain ⟨_, rfl, h⟩ := exists_of_forall₂_one hparts
    obtain ⟨_, rfl⟩ := h.exists_expr
    exact ⟨.get h, rfl⟩
  | function =>
    obtain ⟨_, rfl, h⟩ := exists_of_forall₂_one hparts
    obtain ⟨_, rfl⟩ := h.exists_function
    exact ⟨.lambda h, rfl⟩
  | binary =>
    obtain ⟨_, _, rfl, h, h'⟩ := exists_of_forall₂_two hparts
    obtain ⟨_, rfl⟩ := h.exists_expr
    obtain ⟨_, rfl⟩ := h'.exists_expr
    exact ⟨.binary h h', rfl⟩
  | logical =>
    obtain ⟨_, _, rfl, h, h'⟩ := exists_of_forall₂_two hparts
    obtain ⟨_, rfl⟩ := h.exists_expr
    obtain ⟨_, rfl⟩ := h'.exists_expr
    exact ⟨.logical h h', rfl⟩
  | set =>
    obtain ⟨_, _, rfl, h, h'⟩ := exists_of_forall₂_two hparts
    obtain ⟨_, rfl⟩ := h.exists_expr
    obtain ⟨_, rfl⟩ := h'.exists_expr
    exact ⟨.set h h', rfl⟩
  | call =>
    obtain ⟨_, _, rfl, h, h'⟩ := exists_of_forall₂_two hparts
    obtain ⟨_, rfl⟩ := h.exists_expr
    obtain ⟨_, rfl⟩ := h'.exists_exprs
    exact ⟨.call h h', rfl⟩
  | conditional =>
    obtain ⟨_, _, _, rfl, h, h', h''⟩ := exists_of_forall₂_three hparts
    obtain ⟨_, rfl⟩ := h.exists_expr
    obtain ⟨_, rfl⟩ := h'.exists_expr
    obtain ⟨_, rfl⟩ := h''.exists_expr
    exact ⟨.conditional h h' h'', rfl⟩

/-- Extra braces in the parts of a statement. -/
theorem withChildren_stmt (hdeclares : c.declares around) (hturn : c.turns = true → s.turn? = none)
    (hparts : List.Forall₂ (Node.Braced c (around.inside (.stmt s))) (Node.stmt s).children ms) :
    Node.Braced c around (.stmt s) ((Node.stmt s).withChildren ms) ∧
      ((Node.stmt s).withChildren ms).children = ms := by
  cases s with
  | expr =>
    obtain ⟨_, rfl, h⟩ := exists_of_forall₂_one hparts
    obtain ⟨_, rfl⟩ := h.exists_expr
    exact ⟨.expr h, rfl⟩
  | print =>
    obtain ⟨_, rfl, h⟩ := exists_of_forall₂_one hparts
    obtain ⟨_, rfl⟩ := h.exists_expr
    exact ⟨.print h, rfl⟩
  | varDecl _ init =>
    cases init with
    | none =>
      cases hparts
      exact ⟨.varDecl hdeclares, rfl⟩
    | some =>
      obtain ⟨_, rfl, h⟩ := exists_of_forall₂_one hparts
      obtain ⟨_, rfl⟩ := h.exists_expr
      exact ⟨.varInit hdeclares h, rfl⟩
  | block =>
    obtain ⟨_, rfl, h⟩ := exists_of_forall₂_one hparts
    obtain ⟨_, rfl⟩ := h.exists_stmts
    exact ⟨.block h, rfl⟩
  | ifElse _ _ whenFalse =>
    cases whenFalse with
    | none =>
      obtain ⟨_, _, rfl, h, h'⟩ := exists_of_forall₂_two hparts
      obtain ⟨_, rfl⟩ := h.exists_expr
      obtain ⟨_, rfl⟩ := h'.exists_stmt
      exact ⟨.ifThen h h', rfl⟩
    | some =>
      obtain ⟨_, _, _, rfl, h, h', h''⟩ := exists_of_forall₂_three hparts
      obtain ⟨_, rfl⟩ := h.exists_expr
      obtain ⟨_, rfl⟩ := h'.exists_stmt
      obtain ⟨_, rfl⟩ := h''.exists_stmt
      exact ⟨.ifElse hturn h h' h'', rfl⟩
  | whileLoop =>
    obtain ⟨_, _, rfl, h, h'⟩ := exists_of_forall₂_two hparts
    obtain ⟨_, rfl⟩ := h.exists_expr
    obtain ⟨_, rfl⟩ := h'.exists_stmt
    exact ⟨.whileLoop h h', rfl⟩
  | funDecl =>
    obtain ⟨_, rfl, h⟩ := exists_of_forall₂_one hparts
    obtain ⟨_, rfl⟩ := h.exists_function
    exact ⟨.funDecl hdeclares h, rfl⟩
  | ret _ value =>
    cases value with
    | none =>
      cases hparts
      exact ⟨.ret, rfl⟩
    | some =>
      obtain ⟨_, rfl, h⟩ := exists_of_forall₂_one hparts
      obtain ⟨_, rfl⟩ := h.exists_expr
      exact ⟨.retValue h, rfl⟩
  | classDecl =>
    obtain ⟨_, rfl, h⟩ := exists_of_forall₂_one hparts
    obtain ⟨_, rfl⟩ := h.exists_functions
    exact ⟨.classDecl hdeclares h, rfl⟩

/-- Extra braces in the parts of a tree. -/
theorem withChildren {n : Node} (hnode : ∀ id ∈ n.ids, c.node around id)
    (hdeclares : c.declares around) (hturn : c.turns = true → ∀ s, n = .stmt s → s.turn? = none)
    (hparts : List.Forall₂ (Node.Braced c (around.inside n)) n.children ms) :
    Node.Braced c around n (n.withChildren ms) ∧ (n.withChildren ms).children = ms := by
  cases n with
  | expr e => exact withChildren_expr hnode hparts
  | exprs es =>
    cases es with
    | nil =>
      cases hparts
      exact ⟨.noExprs, rfl⟩
    | cons =>
      obtain ⟨_, _, rfl, h, h'⟩ := exists_of_forall₂_two hparts
      obtain ⟨_, rfl⟩ := h.exists_expr
      obtain ⟨_, rfl⟩ := h'.exists_exprs
      exact ⟨.exprs h h', rfl⟩
  | stmt s => exact withChildren_stmt hdeclares (fun ht => hturn ht s rfl) hparts
  | stmts ss =>
    cases ss with
    | nil =>
      cases hparts
      exact ⟨.noStmts, rfl⟩
    | cons =>
      obtain ⟨_, _, rfl, h, h'⟩ := exists_of_forall₂_two hparts
      obtain ⟨_, rfl⟩ := h.exists_stmt
      obtain ⟨_, rfl⟩ := h'.exists_stmts
      exact ⟨.stmts h h', rfl⟩
  | function kind decl =>
    cases decl
    obtain ⟨_, rfl, h⟩ := exists_of_forall₂_one hparts
    obtain ⟨_, rfl⟩ := h.exists_stmts
    exact ⟨.function h, rfl⟩
  | functions fs =>
    cases fs with
    | nil =>
      cases hparts
      exact ⟨.noFunctions, rfl⟩
    | cons f fs =>
      obtain ⟨_, _, rfl, h, h'⟩ := exists_of_forall₂_two hparts
      obtain ⟨f', rfl⟩ := h.exists_function
      obtain ⟨fs', rfl⟩ := h'.exists_functions
      refine ⟨.functions h h', ?_⟩
      -- Methods with one name are of one kind.
      have hkind : Walk.methodBody f' = Walk.methodBody f := (h.withKind .function).methodBody_eq
      show [Node.function (Walk.methodBody f') f', .functions fs'] = _
      rw [hkind]

/-- A tree without turns has no extra braces, where nothing that is asked depends on the scopes of
    `P`. -/
theorem refl {P : Around → Prop} (hP : ∀ around, P around → P (false :: around))
    (hdeclares : ∀ around, P around → c.declares around) (n : Node)
    (hnode : ∀ around, P around → ∀ id ∈ n.ids, c.node around id) {T : Token → Prop}
    (hformed : c.turns = true → n.Formed T) {around : Around} (h : P around) :
    Node.Braced c around n n := by
  have hinside : P (around.inside n) := by
    unfold Around.inside
    split
    · exact hP _ h
    · exact hP _ h
    · exact hP _ h
    · exact h
  have hparts : List.Forall₂ (Node.Braced c (around.inside n)) n.children n.children :=
    List.forall₂_same.2 fun m hm => refl hP hdeclares m
      (fun around h id hid => hnode around h id ((ids_of_mem_children hm).subset hid))
      (fun ht => (hformed ht).of_mem_children hm) hinside
  have hturn (ht : c.turns = true) (s : Stmt) (hs : n = .stmt s) : s.turn? = none := by
    subst hs
    exact Stmt.Formed.turn?_eq_none (hformed ht)
  -- A tree that is made of its own parts is the tree itself.
  have hsame := (withChildren (hnode around h) (hdeclares around h) hturn hparts).1
  rw [withChildren_children] at hsame
  exact hsame
termination_by n.size
decreasing_by exact size_lt_of_mem_children hm

end Node.Braced

/-! ### Extra braces at a place -/

/-- A statement in braces. -/
def Node.inBraces : Node → Node
  | .stmt s => .stmt (.block [s])
  | n => n

/-- The statements of a list of them. -/
def Node.statements : Node → List Stmt
  | .stmts ss => ss
  | _ => []

/-- A program with extra braces around the statement at the end of a way. -/
def Stmt.braceAt (path : List Nat) (ss : List Stmt) : List Stmt :=
  ((Node.stmts ss).modifyAt Node.inBraces path).statements

theorem forall₂_modify {α : Type} {R : α → α → Prop} {f : α → α} {as : List α} {i : Nat} {a : α}
    (hsame : ∀ a ∈ as, R a a) (hi : as[i]? = some a) (ha : R a (f a)) :
    List.Forall₂ R as (as.modify i f) := by
  induction as generalizing i with
  | nil => cases hi
  | cons a' as ih =>
    obtain ⟨hfirst, hrest⟩ := List.forall_mem_cons.1 hsame
    cases i with
    | zero =>
      cases hi
      exact .cons ha (List.forall₂_same.2 hrest)
    | succ i => exact .cons hfirst (ih hrest hi)

/-- **Every occurrence.** Braces around a statement that is no declaration are extra braces. -/
theorem Node.braced_modifyAt {n : Node} {path : List Nat} {s : Stmt}
    (hat : n.at? path = some (.stmt s)) (hs : s.isDeclaration = false) (around : Around) :
    Node.Braced (.any false) around n (n.modifyAt inBraces path) ∧
      (n.modifyAt inBraces path).at? path = some (.stmt (.block [s])) := by
  have hrefl (m : Node) (around : Around) : Node.Braced (.any false) around m m :=
    .refl (P := fun _ => True) (T := fun _ => True) (fun _ h => h) (fun _ h => h) m
      (fun _ h _ _ => h) (fun ht => Bool.noConfusion ht) trivial
  induction path generalizing n around with
  | nil =>
    cases hat
    exact ⟨.brace hs (hrefl _ _), rfl⟩
  | cons i path ih =>
    obtain ⟨m, hm, hat⟩ := Option.bind_eq_some_iff.1 hat
    obtain ⟨hbraced, hat'⟩ := ih hat (around.inside n)
    have hparts : List.Forall₂ (Node.Braced (.any false) (around.inside n)) n.children
        (n.children.modify i (modifyAt inBraces path)) :=
      forall₂_modify (fun m _ => hrefl m _) hm hbraced
    obtain ⟨hn, hchildren⟩ :=
      Node.Braced.withChildren (fun _ _ => trivial) trivial (fun ht => Bool.noConfusion ht) hparts
    refine ⟨hn, ?_⟩
    -- The way leads into the part that was changed.
    show (n.withChildren _).children[i]?.bind _ = _
    rw [hchildren, List.getElem?_modify, hm]
    simpa using hat'

theorem Stmt.braced_braceAt {ss : List Stmt} {path : List Nat} {s : Stmt}
    (hat : (Node.stmts ss).at? path = some (.stmt s)) (hs : s.isDeclaration = false) :
    Node.Braced (.any false) [] (.stmts ss) (.stmts (braceAt path ss)) ∧
      (Node.stmts (braceAt path ss)).at? path = some (.stmt (.block [s])) := by
  have hbraced := Node.braced_modifyAt hat hs []
  obtain ⟨ss', hss'⟩ := hbraced.1.exists_stmts
  unfold braceAt
  rw [hss'] at hbraced ⊢
  exact hbraced

/-! ### Sessions -/

section Machines

variable {h : History} {m : Machine}

/-- All frames of an aligned environment are in use. -/
theorem Machine.Sound.lt_of_aligned (hm : m.Sound h) {env : Env} {site : List Construct}
    (ha : Aligned h.made env site) : ∀ f ∈ env, f < m.store.frames.size := by
  induction ha with
  | globals =>
    intro f hf
    rw [List.mem_singleton.1 hf, hm.size]
    exact Nat.succ_pos _
  | @cons f env c site hmem rest ih =>
    intro g hg
    rcases List.mem_cons.1 hg with rfl | hg
    · obtain ⟨g', hg', hlt⟩ := hm.head_lt (.cons hmem rest)
      cases hg'
      exact hlt
    · exact ih g hg

/-- An environment stands for itself while addresses stay. -/
theorem Env.braced_refl {n : Nat} {env : Env} (hlt : ∀ f ∈ env, f < n) :
    Env.Braced (List.range n) [] env env :=
  .base (List.forall₂_same.2 fun f hf => List.getElem?_range (hlt f hf))

variable {turns : Bool} {table table' : Depths}
  (hsame : ∀ p ∈ h.programs, ∀ i ∈ p.node.ids, table'[i]? = table[i]?)

include hsame

/-- Trees with the nodes of a known tree stand for themselves. -/
theorem Node.braced_refl {v : Visit} (hv : h.Knows v) {n : Node} (hn : n.ids = v.node.ids)
    {T : Token → Prop} (hformed : n.Formed T) (k : Nat) :
    Node.Braced (.resolved turns table table') (List.replicate k false) n n := by
  obtain ⟨p, hp, hbelow⟩ := hv
  refine .refl (P := fun around => ∃ k, around = List.replicate k false) ?_ ?_ n ?_
    (fun _ => hformed) ⟨k, rfl⟩
  · rintro _ ⟨k, rfl⟩
    exact ⟨k + 1, rfl⟩
  · rintro _ ⟨k, rfl⟩
    exact Around.plain_replicate k
  · rintro _ ⟨k, rfl⟩ i hi
    -- Without extra scopes around them, nodes keep their depths.
    have hshift : Around.shift (List.replicate k false) = id := funext (Around.shift_replicate k)
    show table'[i]? = table[i]?.map _
    rw [hshift, Option.map_id, hsame p hp i (hbelow.ids.subset (hn ▸ hi))]
    rfl

/-- A class stands for itself. -/
theorem Class.braced_refl (hm : m.Sound h) {cls : Class} (hcls : cls.Sound ⟨h, m.store⟩) :
    Class.Braced (.resolved turns table table') (List.range m.store.frames.size) cls cls := by
  obtain ⟨v, name, hnode, -, hknown, haligned, -⟩ := hcls
  have hids : (Node.functions cls.methods).ids = v.node.ids := by
    rw [hnode]
    rfl
  have hformed := (hm.lawful.visit hknown).formed
  rw [hnode] at hformed
  exact ⟨rfl, [], Env.braced_refl (hm.lt_of_aligned haligned),
    Node.braced_refl (n := .functions _) hsame hknown hids hformed.2.1 1⟩

/-- A sound value stands for itself. -/
theorem Value.braced_refl (hm : m.Sound h) {v : Value} (hv : v.Sound ⟨h, m.store⟩) :
    Value.Braced (.resolved turns table table') (List.range m.store.frames.size) v v := by
  cases v with
  | nil => exact .nil
  | bool b => exact .bool b
  | number x => exact .number x
  | string s => exact .string s
  | native index => exact .native index
  | function id f =>
    obtain ⟨⟨kind, visit, hnode, hready⟩, -⟩ := hv
    have hids : (Node.function .function f.decl).ids = visit.node.ids := by
      rw [hnode]
      rfl
    have hformed := (hm.lawful.visit hready.known).formed
    rw [hnode] at hformed
    exact .function ⟨rfl, [], Env.braced_refl (hm.lt_of_aligned hready.aligned),
      Node.braced_refl (n := .function _ _) hsame hready.known hids hformed 0,
      fun _ => Around.plain_replicate 0⟩
  | classObj id cls => exact .classObj (Class.braced_refl hsame hm hv)
  | object id cls => exact .object (Class.braced_refl hsame hm hv)

theorem Store.braced_refl (hm : m.Sound h) :
    Store.Braced (.resolved turns table table') (List.range m.store.frames.size) m.store
      m.store := by
  have hpos : 0 < m.store.frames.size := by
    rw [hm.size]
    exact Nat.succ_pos _
  -- What is found on both sides is the same, so it has to stand for itself only.
  have hrel {x : Option Value} (hx : ∀ v, x = some v → v.Sound ⟨h, m.store⟩) :
      Option.Rel (Value.Braced (.resolved turns table table') (List.range m.store.frames.size))
        x x := by
    cases x with
    | none => exact .none
    | some v => exact .some (Value.braced_refl hsame hm (hx v rfl))
  refine ⟨List.length_range.symm, fun f hf => List.mem_range.1 hf, List.nodup_range,
    List.getElem?_range hpos, fun {f f'} hf x => ?_, rfl, fun id x => ?_⟩
  · obtain ⟨hlt, rfl⟩ := List.getElem?_eq_some_iff.1 hf
    rw [List.getElem_range]
    exact hrel fun v hv => hm.store.frames f x v hv
  · exact hrel fun v hv => hm.store.fields id x v hv

/-- **A machine stands for itself** whichever of the two tables it goes by. -/
theorem Machine.matches_refl (hm : m.Sound h) (henv : m.env = Machine.globals)
    (hnatives : ∀ native ∈ m.natives, native.Outward) :
    Machine.Matches (.resolved turns table table') { m with depths := table }
      { m with depths := table' } := by
  have hstore : Store.Braced (.resolved turns table table') _ m.store m.store :=
    Store.braced_refl hsame hm
  exact ⟨_, m.env, {
    store := hstore
    env_eq := rfl
    env := henv ▸ .globals hstore.globals
    depths := id
    declares := id
    sink := rfl
    callDepth := rfl
    natives := rfl
    outward := fun i native hi => hnatives native (Array.mem_of_getElem? hi)
    nextId := rfl
    ticks := rfl }⟩

end Machines

namespace Session

/-- The names of statements that were read are resolved. -/
def resolve (s : Session) (a : Analysis) : Analysis × Session :=
  let (depths, report) := Resolution.resolve a.statements s.machine.depths a.report
  ({ a with report }, { s with machine := { s.machine with depths } })

/-- The analysis of a source, with extra braces around the statement at the end of a way. -/
def analyzeBraced (s : Session) (path : List Nat) (source : String) : Analysis × Session :=
  let (a, s) := s.parse source
  s.resolve { a with statements := Stmt.braceAt path a.statements }

/-- Run what was analysed, unless something is wrong with it. -/
def runAnalysis (host : Host) (fuel : Nat) (a : Analysis) (s : Session) :
    Option (Verdict × Session) :=
  if a.report.hadError then some (.rejected a.report, s)
  else
    match s.interpret host fuel a.statements with
    | some (o, s) => some (.ran o, s)
    | none => none

theorem run_eq_runAnalysis (host : Host) (fuel : Nat) (source : String) (s : Session) :
    s.run host fuel source = (s.analyze source).2.runAnalysis host fuel (s.analyze source).1 := rfl

/-- With enough fuel, what is run ends with `a`, and `sink` has got what was written. -/
def Ends {α : Type} (run : Nat → Option (α × Session)) (a : α) (sink : Sink) : Prop :=
  ∃ fuel s, run fuel = some (a, s) ∧ s.machine.sink = sink

/-- At some moment while statements are run, `sink` has got what was written. -/
def Shows (host : Host) (ss : List Stmt) (s : Session) (sink : Sink) : Prop :=
  s.machine.Shows host false ss sink

/-- By steps of the kind `next`, statements end with `o`, and `sink` has got what was written. -/
def EndsBy (next : State → State) (ss : List Stmt) (s : Session) (o : Outcome Unit) (sink : Sink) :
    Prop :=
  ∃ m, s.machine.Interprets next ss o m ∧ m.sink = sink

/-- The same for what was analysed, which is not run if something is wrong with it. -/
def RunsBy (next : State → State) (a : Analysis) (s : Session) (verdict : Verdict) (sink : Sink) :
    Prop :=
  if a.report.hadError then verdict = .rejected a.report ∧ s.machine.sink = sink
  else ∃ o, verdict = .ran o ∧ s.EndsBy next a.statements o sink

section

variable {host : Host} {s : Session} {sink : Sink}

theorem ends_interpret_iff {ss : List Stmt} {o : Outcome Unit} :
    Ends (fun fuel => s.interpret host fuel ss) o sink ↔ s.EndsBy (step host) ss o sink := by
  unfold EndsBy
  simp only [Machine.interprets_iff]
  constructor
  · rintro ⟨fuel, s₁, hrun, hsink⟩
    simp only [interpret] at hrun
    split at hrun
    · next hinterpret =>
      cases hrun
      exact ⟨_, ⟨fuel, hinterpret⟩, hsink⟩
    · cases hrun
  · rintro ⟨m, ⟨fuel, hrun⟩, hsink⟩
    exact ⟨fuel, { s with machine := m }, by simp only [interpret, hrun], hsink⟩

theorem ends_runAnalysis_iff {a : Analysis} {verdict : Verdict} :
    Ends (fun fuel => s.runAnalysis host fuel a) verdict sink ↔
      s.RunsBy (step host) a verdict sink := by
  unfold runAnalysis RunsBy
  split
  · constructor
    · rintro ⟨fuel, s₁, hrun, hsink⟩
      cases hrun
      exact ⟨rfl, hsink⟩
    · rintro ⟨rfl, hsink⟩
      exact ⟨0, s, rfl, hsink⟩
  · simp only [← ends_interpret_iff]
    constructor
    · rintro ⟨fuel, s₁, hrun, hsink⟩
      simp only at hrun
      split at hrun
      · next hinterpret =>
        cases hrun
        exact ⟨_, rfl, fuel, s₁, hinterpret, hsink⟩
      · cases hrun
    · rintro ⟨o, rfl, fuel, s₁, hrun, hsink⟩
      exact ⟨fuel, s₁, by simp only [hrun], hsink⟩

end

section Braced

variable {c : Bracing} {host : Host} {s s' : Session} {a a' : Analysis}
  (hm : s.machine.Matches c s'.machine)
  (hss : Node.Braced c [] (.stmts a.statements) (.stmts a'.statements))

include hm hss

/-- Statements end in the way they end with extra braces. -/
theorem endsBy_braced (o : Outcome Unit) (sink : Sink) :
    s.EndsBy (c.next host) a.statements o sink ↔
      Ends (fun fuel => s'.interpret host fuel a'.statements) o sink := by
  rw [ends_interpret_iff]
  exact hm.interprets_iff hss o sink

/-- What was analysed is run as it is with extra braces, if the same is reported. -/
theorem runsBy_braced (hreport : a'.report = a.report) (verdict : Verdict) (sink : Sink) :
    s.RunsBy (c.next host) a verdict sink ↔
      Ends (fun fuel => s'.runAnalysis host fuel a') verdict sink := by
  rw [ends_runAnalysis_iff]
  unfold RunsBy
  simp only [hreport, hm.sink_eq, endsBy_braced hm hss, ends_interpret_iff]

/-- Whatever statements have written at some moment, they have written with extra braces. -/
theorem writes_braced (sink : Sink) :
    s.machine.Writes (c.next host) a.statements sink ↔ s'.Shows host a'.statements sink :=
  (hm.writes_iff hss sink).trans Machine.writes_iff

end Braced

/-- Let statements be read in a session, and others have extra braces in comparison with them, or
    the other way round. Resolved there, they stand for each other, and the same is reported. -/
theorem Sound.matches {s : Session} {h : History} (hs : s.Sound h)
    (hnatives : ∀ native ∈ s.machine.natives, native.Outward) {source : String} {turns : Bool}
    {ss ss' : List Stmt} (hbraced : Node.Braced (.any turns) [] (.stmts ss) (.stmts ss'))
    (hread : ss = (s.parse source).1.statements ∨ ss' = (s.parse source).1.statements) :
    let plain := (s.parse source).2.resolve { (s.parse source).1 with statements := ss }
    let braced := (s.parse source).2.resolve { (s.parse source).1 with statements := ss' }
    braced.1.report = plain.1.report ∧
      ∃ c, c.turns = turns ∧ plain.2.machine.Matches c braced.2.machine ∧
        Node.Braced c [] (.stmts plain.1.statements) (.stmts braced.1.statements) := by
  intro plain braced
  obtain ⟨hformed, hnumbered, -⟩ := Program.built_parse (T := fun _ => True)
    (Token.ofSource source) s.nextNode (lexicalReport source) fun _ _ => trivial
  have hids : Stmt.idsAll ss' = Stmt.idsAll ss := hbraced.ids_eq
  have hreadIds : Stmt.idsAll ss = Stmt.idsAll (s.parse source).1.statements := by
    obtain rfl | rfl := hread
    · rfl
    · exact hids.symm
  replace hnumbered : Numbered s.nextNode _ (Stmt.idsAll ss) := hreadIds ▸ hnumbered
  replace hformed : Stmt.FormedAll (fun _ => True) ss ∨ Stmt.FormedAll (fun _ => True) ss' := by
    obtain rfl | rfl := hread
    · exact .inl hformed
    · exact .inr hformed
  have hfresh : ∀ i ∈ Stmt.idsAll ss, s.machine.depths[i]? = none :=
    fun i hi => hs.fresh (hreadIds ▸ hi)
  obtain ⟨hreport, hresolved⟩ :=
    Bracing.resolve hbraced hformed hnumbered.1 hfresh (s.parse source).1.report
  have hold : ∀ p ∈ h.programs, ∀ i ∈ p.node.ids, i ∉ Stmt.idsAll ss := by
    intro p hp i hi hmem
    exact absurd (hs.ids p hp i hi) (Nat.not_lt.2 (hnumbered.2 i hmem).1)
  -- The tables agree about older programs, which none of the two walks goes over.
  have hsame : ∀ p ∈ h.programs, ∀ i ∈ p.node.ids,
      braced.2.machine.depths[i]? = plain.2.machine.depths[i]? := by
    intro p hp i hi
    have hplain : plain.2.machine.depths[i]? = s.machine.depths[i]? :=
      Walk.depths_stmts _ _ (hold p hp i hi)
    have hbraced : braced.2.machine.depths[i]? = s.machine.depths[i]? :=
      Walk.depths_stmts _ _ (hids ▸ hold p hp i hi)
    rw [hplain, hbraced]
  exact ⟨hreport, _, rfl, Machine.matches_refl hsame hs.machine hs.env hnatives, hresolved⟩

/-- **Extra braces are transparent.** In a session after any requests, whose functions of the host
    do not look into functions and classes, let a statement of a source that is no declaration be
    put in a block of its own, wherever it stands. Then the same is reported; if the source is run,
    or if it is run in spite of the report, it ends with the same outcome and the same output, also
    if a variable is out of place; and if it does not end, it writes the same output while it
    runs. -/
theorem braces_are_transparent {host₀ : Host} {sink₀ : Sink} {rs : List Request} {s : Session}
    {h : History} (hs : Session.After host₀ sink₀ rs s h)
    (hnatives : ∀ r ∈ rs, r.DefinesOnly Native.Outward) {source : String} {path : List Nat}
    {statement : Stmt}
    (hat : (Node.stmts (s.parse source).1.statements).at? path = some (.stmt statement))
    (hstatement : statement.isDeclaration = false) :
    let plain := s.analyze source
    let braced := s.analyzeBraced path source
    (Node.stmts braced.1.statements).at? path = some (.stmt (.block [statement])) ∧
    braced.1.report = plain.1.report ∧
    ∀ host,
      (∀ verdict sink, Ends (fun fuel => s.run host fuel source) verdict sink ↔
        Ends (fun fuel => braced.2.runAnalysis host fuel braced.1) verdict sink) ∧
      (∀ outcome sink,
        Ends (fun fuel => plain.2.interpret host fuel plain.1.statements) outcome sink ↔
          Ends (fun fuel => braced.2.interpret host fuel braced.1.statements) outcome sink) ∧
      ∀ sink, plain.2.Shows host plain.1.statements sink ↔
        braced.2.Shows host braced.1.statements sink := by
  intro plain braced
  obtain ⟨hbraced, hblock⟩ := Stmt.braced_braceAt hat hstatement
  have hclock : Native.Outward ⟨"clock", 0, .clock⟩ := fun f hf => by cases hf
  have hsound := hs.sound fun r hr => (hnatives r hr).imp fun _ => Native.Outward.honest
  obtain ⟨hreport, c, hturns, hm, hss⟩ :=
    hsound.matches (hs.natives hclock hnatives) hbraced (.inl rfl)
  refine ⟨hblock, hreport, fun host => ?_⟩
  -- There are no turns, so both runs take the usual steps.
  have hnext : c.next host = step host := by
    rw [Bracing.next_eq, hturns]
    rfl
  refine ⟨fun verdict sink => ?_, fun outcome sink => ?_, fun sink => ?_⟩
  · simp only [run_eq_runAnalysis]
    rw [ends_runAnalysis_iff, ← hnext]
    exact runsBy_braced hm hss hreport verdict sink
  · rw [ends_interpret_iff, ← hnext]
    exact endsBy_braced hm hss outcome sink
  · refine Machine.writes_iff.symm.trans ?_
    rw [← hnext]
    exact writes_braced hm hss sink

/-- A function that outlives the call it was made in. -/
def outlivingFunction : String :=
  "fun f(a) \x7b fun g() \x7b return a; \x7d return g; \x7d print f(true)();"

/-- Extra braces around the first `return` there, where the parameter is one scope further away. -/
theorem braces_are_transparent_outlivingFunction :
    ∃ statement,
      (Node.stmts ((Session.new Sink.unbounded).parse outlivingFunction).1.statements).at?
        [0, 0, 0, 0, 0, 0, 0] = some (.stmt statement) ∧
      statement.isDeclaration = false ∧
      let braced :=
        (Session.new Sink.unbounded).analyzeBraced [0, 0, 0, 0, 0, 0, 0] outlivingFunction
      (Node.stmts braced.1.statements).at? [0, 0, 0, 0, 0, 0, 0] =
        some (.stmt (.block [statement])) ∧
      braced.1.report.hadError = false ∧
      ∃ sink, Ends (fun fuel => braced.2.interpret (Host.usual fun _ => 0) fuel braced.1.statements)
          (.finished ()) sink ∧
        sink.written = "true\n".toUTF8 := by
  have hplace : ((Node.stmts ((Session.new Sink.unbounded).parse
      outlivingFunction).1.statements).at? [0, 0, 0, 0, 0, 0, 0]).any
      (fun n => n.isStatement && !n.mayDeclare) = true := by decide +kernel
  have hgood : ((Session.new Sink.unbounded).analyze outlivingFunction).1.report.hadError =
      false := by decide +kernel
  have hends : (((Session.new Sink.unbounded).analyze outlivingFunction).2.interpret
      (Host.usual fun _ => 0) 60
      ((Session.new Sink.unbounded).analyze outlivingFunction).1.statements).any
      (fun r => r.1.isFinished && decide (r.2.machine.sink.written = "true\n".toUTF8)) = true := by
    decide +kernel
  -- Nothing else about the source matters.
  generalize outlivingFunction = source at hplace hgood hends ⊢
  have hnew : Session.After (Host.usual fun _ => 0) Sink.unbounded []
      (Session.new Sink.unbounded) ⟨[], []⟩ := .new
  obtain ⟨n, hn, hkind⟩ := (Option.any_eq_true _ _).1 hplace
  obtain ⟨⟨o, last⟩, hrun, hlast⟩ := (Option.any_eq_true _ _).1 hends
  obtain ⟨ho, hwritten⟩ := Bool.and_eq_true_iff.1 hlast
  cases n with
  | stmt statement =>
    have hstatement : statement.isDeclaration = false := by
      simpa [Node.isStatement, Node.mayDeclare] using hkind
    obtain ⟨hat, hreport, hruns⟩ := braces_are_transparent hnew
      (fun r hr => absurd hr List.not_mem_nil) hn hstatement
    obtain ⟨-, hforced, -⟩ := hruns (Host.usual fun _ => 0)
    refine ⟨statement, hn, hstatement, hat, hreport ▸ hgood, last.machine.sink, ?_,
      of_decide_eq_true hwritten⟩
    cases o with
    | finished a => exact (hforced _ _).1 ⟨60, last, hrun, rfl⟩
    | failed | desync => cases ho
  | expr | exprs | stmts | function | functions => cases hkind

end Session

end Scriptlet
