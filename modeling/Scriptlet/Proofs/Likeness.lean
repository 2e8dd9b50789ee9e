import Mathlib.Data.List.Forall2
import Scriptlet.Machine.Step
import Scriptlet.Proofs.Faces
import Scriptlet.Proofs.Frames
import Scriptlet.Proofs.Steps
import Scriptlet.Proofs.Tree

namespace Scriptlet

/-!
# Programs and machines that are alike

Two programs of one shape may differ in the numbers of their nodes, in tokens that no run tells
apart, and in the names of some local variables. To compare the runs of two such programs, each
scope is marked or not: in a marked scope the second program uses other names than the first.

* `Likeness` — what a comparison rests on: the nodes that stand for each other with the depths
  recorded for them, the tokens that do, and the names that are used in marked scopes.
* `Node.Like` — trees that are alike, inside of scopes that are marked or not.
* `Value.Like`, `Store.Like`, `Machine.Like` — what runs of such trees make, each frame being
  marked like the scope it was made for.
* `ExprCont.Like`, `StmtCont.Like`, `State.Like` — what such runs have left to do.

Nothing of this is lost when frames are added (`State.Like` and its parts are kept by `mono`).
-/

/-- What the comparison of two programs rests on. -/
structure Likeness where
  /-- Nodes that stand for each other, and the depth that is recorded for both, if there is one. -/
  node : NodeId → NodeId → Option Nat → Prop
  /-- Tokens that stand for each other. -/
  token : Token → Token → Prop
  kind_eq : ∀ {t t'}, token t t' → t'.kind = t.kind
  lexeme_eq : ∀ {t t'}, token t t' → t'.lexeme = t.lexeme
  /-- The names that the first program uses for its local variables. -/
  used : String → Prop
  used_this : used "this"
  /-- The name that the second program uses in a marked scope for a name of the first one. -/
  rename : String → String
  injective : rename.Injective
  this_eq : rename "this" = "this"

namespace Likeness

variable (c : Likeness)

/-- The name that the second program uses in a scope for a name of the first one. -/
def name (marked : Bool) (x : String) : String := if marked then c.rename x else x

/-- In a scope that is not marked, names stay. -/
@[simp]
theorem name_false (x : String) : c.name false x = x := rfl

/-- Objects call themselves `this` in every scope. -/
@[simp]
theorem name_this (marked : Bool) : c.name marked "this" = "this" := by
  cases marked with
  | false => rfl
  | true => exact c.this_eq

/-- Two names of a scope never become one. -/
theorem name_injective (marked : Bool) : (c.name marked).Injective := by
  cases marked with
  | false => exact fun _ _ h => h
  | true => exact c.injective

/-- Tokens that name the same variable of a scope: but for the name, they stand for each other. -/
structure Names (marked : Bool) (t t' : Token) : Prop where
  token : c.token t { t' with lexeme := t.lexeme }
  lexeme : t'.lexeme = c.name marked t.lexeme

/-- Nodes that name the same variable, inside of scopes that are marked or not. -/
inductive Refers (around : List Bool) (id id' : NodeId) (name name' : Token) : Prop
  | bound {d} (h : c.node id id' (some d)) (hused : c.used name.lexeme)
      (hname : c.Names (around[d]?.getD false) name name')
  | free (h : c.node id id' none) (hname : c.token name name')

end Likeness

/-! ### Options and lists of what stands for each other -/

section

variable {α β γ δ : Type} {R : α → β → Prop} {S : γ → δ → Prop} {x : Option α} {y : Option β}

/-- Names under which arguments are bound, and the arguments. -/
theorem forall₂_zip {R : α → β → Prop} (f : String → String) {as : List α} {bs : List β}
    (h : List.Forall₂ R as bs) (names : List String) :
    List.Forall₂ (fun p p' => p'.1 = f p.1 ∧ R p.2 p'.2) (names.zip as)
      ((names.map f).zip bs) := by
  induction h generalizing names with
  | nil =>
    rw [List.zip_nil_right, List.zip_nil_right]
    exact .nil
  | cons hv _ ih =>
    cases names with
    | nil => exact .nil
    | cons x names => exact .cons ⟨rfl, hv⟩ (ih names)

/-- What holds of `x` and `y`, say of matches on them, is shown where both are missing, and where
    both are there. -/
@[elab_as_elim]
theorem rel_elim {motive : Option α → Option β → Prop} (h : Option.Rel R x y)
    (hnone : motive none none) (hsome : ∀ a b, R a b → motive (some a) (some b)) : motive x y := by
  cases h with
  | none => exact hnone
  | some h => exact hsome _ _ h

/-- What one side has, the other one has. -/
theorem exists_of_rel (h : Option.Rel R x y) {a : α} (hx : x = some a) :
    ∃ b, y = some b ∧ R a b := by
  cases h with
  | some h =>
    cases hx
    exact ⟨_, rfl, h⟩
  | none => cases hx

/-- Functions that turn related results into related ones. -/
theorem rel_map {f : α → γ} {g : β → δ} (hRS : ∀ {a b}, R a b → S (f a) (g b))
    (h : Option.Rel R x y) : Option.Rel S (x.map f) (y.map g) :=
  rel_elim h .none fun _ _ hab => .some (hRS hab)

/-- The first of two results that there is. -/
theorem rel_or {x' : Option α} {y' : Option β} (h : Option.Rel R x y) (h' : Option.Rel R x' y') :
    Option.Rel R (x.or x') (y.or y') :=
  rel_elim h h' fun _ _ hab => .some hab

/-- A weaker relation. -/
theorem rel_imp {S : α → β → Prop} (hRS : ∀ {a b}, R a b → S a b) (h : Option.Rel R x y) :
    Option.Rel S x y :=
  rel_elim h .none fun _ _ hab => .some (hRS hab)

/-- Both sides tell whether there is a result. -/
theorem rel_isSome (h : Option.Rel R x y) : y.isSome = x.isSome :=
  rel_elim h rfl fun _ _ _ => rfl

/-- Related results with where they come from. -/
theorem rel_attach (h : Option.Rel R x y) :
    Option.Rel (fun a b => R a b ∧ x = some a ∧ y = some b) x y :=
  rel_elim h .none fun _ _ hab => .some ⟨hab, rfl, rfl⟩

/-- Functions that make nothing else of related results. -/
theorem map_eq_of_rel (h : Option.Rel R x y) {f : α → γ} {g : β → γ}
    (hfg : ∀ a b, R a b → g b = f a) : y.map g = x.map f :=
  rel_elim h rfl fun a b hab => congrArg some (hfg a b hab)

end

/-! ### Trees -/

variable (c : Likeness) in
/-- Parts of trees that are alike, inside of scopes that are marked or not, the innermost first.
    Functions and classes keep their names, which a run may show. -/
inductive Node.Like : List Bool → Node → Node → Prop
  | literal {around value} : Like around (.expr (.literal value)) (.expr (.literal value))
  | group {around e e'} (h : Like around (.expr e) (.expr e')) :
      Like around (.expr (.group e)) (.expr (.group e'))
  | read {around id id' name name'} (h : c.Refers around id id' name name') :
      Like around (.expr (.variable id name)) (.expr (.variable id' name'))
  | thisRef {around id id' name name'} (h : c.Refers around id id' name name') :
      Like around (.expr (.thisRef id name)) (.expr (.thisRef id' name'))
  | assign {around id id' name name' e e'} (h : c.Refers around id id' name name')
      (he : Like around (.expr e) (.expr e')) :
      Like around (.expr (.assign id name e)) (.expr (.assign id' name' e'))
  | unary {around op op' e e'} (ht : c.token op op') (h : Like around (.expr e) (.expr e')) :
      Like around (.expr (.unary op e)) (.expr (.unary op' e'))
  | binary {around op op' l l' r r'} (ht : c.token op op') (hl : Like around (.expr l) (.expr l'))
      (hr : Like around (.expr r) (.expr r')) :
      Like around (.expr (.binary l op r)) (.expr (.binary l' op' r'))
  | logical {around op op' l l' r r'} (ht : c.token op op') (hl : Like around (.expr l) (.expr l'))
      (hr : Like around (.expr r) (.expr r')) :
      Like around (.expr (.logical l op r)) (.expr (.logical l' op' r'))
  | conditional {around q q' e e' a a' b b'} (ht : c.token q q')
      (he : Like around (.expr e) (.expr e')) (ha : Like around (.expr a) (.expr a'))
      (hb : Like around (.expr b) (.expr b')) :
      Like around (.expr (.conditional e q a b)) (.expr (.conditional e' q' a' b'))
  | call {around paren paren' e e' es es'} (ht : c.token paren paren')
      (he : Like around (.expr e) (.expr e')) (hes : Like around (.exprs es) (.exprs es')) :
      Like around (.expr (.call e paren es)) (.expr (.call e' paren' es'))
  | get {around name name' e e'} (ht : c.token name name') (h : Like around (.expr e) (.expr e')) :
      Like around (.expr (.get e name)) (.expr (.get e' name'))
  | set {around name name' e e' v v'} (ht : c.token name name')
      (he : Like around (.expr e) (.expr e')) (hv : Like around (.expr v) (.expr v')) :
      Like around (.expr (.set e name v)) (.expr (.set e' name' v'))
  | lambda {around decl decl'}
      (h : Like around (.function .function decl) (.function .function decl')) :
      Like around (.expr (.function decl)) (.expr (.function decl'))
  | noExprs {around} : Like around (.exprs []) (.exprs [])
  | exprs {around e e' es es'} (he : Like around (.expr e) (.expr e'))
      (hes : Like around (.exprs es) (.exprs es')) :
      Like around (.exprs (e :: es)) (.exprs (e' :: es'))
  | expr {around e e'} (h : Like around (.expr e) (.expr e')) :
      Like around (.stmt (.expr e)) (.stmt (.expr e'))
  | print {around e e'} (h : Like around (.expr e) (.expr e')) :
      Like around (.stmt (.print e)) (.stmt (.print e'))
  | varDecl {around name name'} (hname : c.Names (around.headD false) name name') :
      Like around (.stmt (.varDecl name none)) (.stmt (.varDecl name' none))
  | varInit {around name name' e e'} (hname : c.Names (around.headD false) name name')
      (h : Like around (.expr e) (.expr e')) :
      Like around (.stmt (.varDecl name (some e))) (.stmt (.varDecl name' (some e')))
  | block {around body body'} (marked : Bool)
      (h : Like (marked :: around) (.stmts body) (.stmts body')) :
      Like around (.stmt (.block body)) (.stmt (.block body'))
  | ifThen {around e e' a a'} (he : Like around (.expr e) (.expr e'))
      (ha : Like around (.stmt a) (.stmt a')) :
      Like around (.stmt (.ifElse e a none)) (.stmt (.ifElse e' a' none))
  | ifElse {around e e' a a' b b'} (he : Like around (.expr e) (.expr e'))
      (ha : Like around (.stmt a) (.stmt a')) (hb : Like around (.stmt b) (.stmt b')) :
      Like around (.stmt (.ifElse e a (some b))) (.stmt (.ifElse e' a' (some b')))
  | whileLoop {around e e' a a'} (he : Like around (.expr e) (.expr e'))
      (ha : Like around (.stmt a) (.stmt a')) :
      Like around (.stmt (.whileLoop e a)) (.stmt (.whileLoop e' a'))
  | funDecl {around decl decl'} (hname : c.name (around.headD false) decl.label = decl.label)
      (h : Like around (.function .function decl) (.function .function decl')) :
      Like around (.stmt (.funDecl decl)) (.stmt (.funDecl decl'))
  | ret {around keyword keyword'} (ht : c.token keyword keyword') :
      Like around (.stmt (.ret keyword none)) (.stmt (.ret keyword' none))
  | retValue {around keyword keyword' e e'} (ht : c.token keyword keyword')
      (h : Like around (.expr e) (.expr e')) :
      Like around (.stmt (.ret keyword (some e))) (.stmt (.ret keyword' (some e')))
  | classDecl {around name name' methods methods'} (ht : c.token name name')
      (hname : c.name (around.headD false) name.lexeme = name.lexeme)
      (h : Like (false :: around) (.functions methods) (.functions methods')) :
      Like around (.stmt (.classDecl name methods)) (.stmt (.classDecl name' methods'))
  | noStmts {around} : Like around (.stmts []) (.stmts [])
  | stmts {around s s' ss ss'} (hs : Like around (.stmt s) (.stmt s'))
      (hss : Like around (.stmts ss) (.stmts ss')) :
      Like around (.stmts (s :: ss)) (.stmts (s' :: ss'))
  /-- The parameters and the body share one scope. -/
  | function {around kind decl decl'} (marked : Bool)
      (hname : Option.Rel c.token decl.name? decl'.name?)
      (hparams : List.Forall₂ (c.Names marked) decl.params decl'.params)
      (h : Like (marked :: around) (.stmts decl.body) (.stmts decl'.body)) :
      Like around (.function kind decl) (.function kind decl')
  | noFunctions {around} : Like around (.functions []) (.functions [])
  | functions {around f f' fs fs'}
      (hf : Like around (.function (Walk.methodBody f) f) (.function (Walk.methodBody f) f'))
      (hfs : Like around (.functions fs) (.functions fs')) :
      Like around (.functions (f :: fs)) (.functions (f' :: fs'))

/-- Functions that are alike, inside of scopes that are marked or not. -/
abbrev FunDecl.Like (c : Likeness) (around : List Bool) (f f' : FunDecl) : Prop :=
  Node.Like c around (.function .function f) (.function .function f')

section

variable {c : Likeness} {around : List Bool}

variable {f f' : FunDecl}

/-- The kind of body that a function has is of no account. -/
theorem Node.Like.withKind {kind : Body}
    (h : Node.Like c around (.function kind f) (.function kind f')) (kind' : Body) :
    Node.Like c around (.function kind' f) (.function kind' f') := by
  cases h with
  | function marked hname hparams h => exact .function marked hname hparams h

/-- A run may show the name of a function, and it is the same. -/
theorem Node.Like.label?_eq (h : FunDecl.Like c around f f') : f'.label? = f.label? := by
  cases h with
  | function _ hname => exact map_eq_of_rel hname fun _ _ ht => c.lexeme_eq ht

/-- The names of the parameters, as they are used in their scope. -/
theorem Likeness.lexemes_eq {marked : Bool} {ps ps' : List Token}
    (h : List.Forall₂ (c.Names marked) ps ps') :
    ps'.map (·.lexeme) = (ps.map (·.lexeme)).map (c.name marked) := by
  induction h with
  | nil => rfl
  | cons hp _ ih => simp only [List.map_cons, hp.lexeme, ih]

/-- `label?_eq` for named functions. -/
theorem Node.Like.label_eq (h : FunDecl.Like c around f f') :
    f'.label = f.label := congrArg (·.getD "") h.label?_eq

/-- Calls take as many arguments. -/
theorem Node.Like.arity_eq (h : FunDecl.Like c around f f') : f'.arity = f.arity := by
  cases h with
  | function _ _ hparams => exact hparams.length_eq.symm

/-- Both are initializers, or neither. -/
theorem Node.Like.isInitializer_eq (h : FunDecl.Like c around f f') :
    f'.isInitializer = f.isInitializer := by
  unfold FunDecl.isInitializer
  rw [h.label?_eq]

/-- Of the methods with one name, the last ones are alike. -/
theorem Node.Like.find? {fs fs' : List FunDecl}
    (h : Node.Like c around (.functions fs) (.functions fs')) (name : String) :
    Option.Rel (FunDecl.Like c around) (fs.reverse.find? (·.label = name))
      (fs'.reverse.find? (·.label = name)) := by
  induction fs generalizing fs' with
  | nil =>
    cases h with
    | noFunctions => exact .none
  | cons f fs ih =>
    cases h with
    | functions hf hfs =>
      rw [List.reverse_cons, List.reverse_cons, List.find?_append, List.find?_append]
      have hf : FunDecl.Like c around _ _ := hf.withKind .function
      refine rel_or (ih hfs) ?_
      rw [List.find?_singleton, List.find?_singleton, hf.label_eq]
      split
      · exact .some hf
      · exact .none

end

/-! ### Values -/

/-- The frames of an environment are marked like the scopes; the last one, that of the globals, is
    not marked. -/
def Marked (frames : List Bool) (env : Env) (around : List Bool) : Prop :=
  List.Forall₂ (fun f marked => frames[f]? = some marked) env (around ++ [false])

/-- Functions that are alike, made in one environment. -/
structure Closure.Like (c : Likeness) (frames : List Bool) (f f' : Closure) : Prop where
  env : f'.env = f.env
  isInitializer : f'.isInitializer = f.isInitializer
  code : ∃ around, Marked frames f.env around ∧ FunDecl.Like c around f.decl f'.decl

/-- Classes that are alike, declared in one environment. -/
structure Class.Like (c : Likeness) (frames : List Bool) (k k' : Class) : Prop where
  name : k'.name = k.name
  env : k'.env = k.env
  code : ∃ around, Marked frames k.env around ∧
    Node.Like c (false :: around) (.functions k.methods) (.functions k'.methods)

variable (c : Likeness) (frames : List Bool) in
/-- Values that are alike: they have the same content, or the same number and code that is
    alike. -/
inductive Value.Like : Value → Value → Prop
  | nil : Like .nil .nil
  | bool (b : Bool) : Like (.bool b) (.bool b)
  | number (x : Float) : Like (.number x) (.number x)
  | string (s : String) : Like (.string s) (.string s)
  | native (index : Nat) : Like (.native index) (.native index)
  | function {id f f'} (h : Closure.Like c frames f f') : Like (.function id f) (.function id f')
  | classObj {id k k'} (h : Class.Like c frames k k') : Like (.classObj id k) (.classObj id k')
  | object {id k k'} (h : Class.Like c frames k k') : Like (.object id k) (.object id k')

section

variable {c : Likeness} {frames frames' around : List Bool}

namespace Marked

/-- No scope of the program is around the globals. -/
theorem globals (h : frames[0]? = some false) : Marked frames Machine.globals [] :=
  .cons h .nil

/-- New frames come behind those of `env`. -/
theorem mono {env : Env} (h : Marked frames env around) (hp : frames <+: frames') :
    Marked frames' env around := by
  obtain ⟨more, rfl⟩ := hp
  refine h.imp fun f marked hf => ?_
  rw [List.getElem?_append_left (List.getElem?_eq_some_iff.1 hf).1]
  exact hf

/-- The frame at distance `d` is marked like the scope there. -/
theorem getElem? {env : Env} (h : Marked frames env around) {d : Nat} {f : FrameId}
    (hd : env[d]? = some f) : frames[f]? = some (around[d]?.getD false) := by
  unfold Marked at h
  induction around generalizing env d with
  | nil =>
    cases h with
    | cons hf hrest =>
      cases hrest
      cases d with
      | zero =>
        cases hd
        exact hf
      | succ d => cases hd
  | cons marked around ih =>
    cases h with
    | cons hf hrest =>
      cases d with
      | zero =>
        cases hd
        exact hf
      | succ d => exact ih hrest hd

end Marked

variable {f f' : Closure} {k k' : Class} {v v' : Value}

/-- Functions stay alike when frames are added. -/
theorem Closure.Like.mono (h : Closure.Like c frames f f') (hp : frames <+: frames') :
    Closure.Like c frames' f f' := by
  obtain ⟨around, hmarked, hcode⟩ := h.code
  exact ⟨h.env, h.isInitializer, around, hmarked.mono hp, hcode⟩

/-- Classes stay alike when frames are added. -/
theorem Class.Like.mono (h : Class.Like c frames k k') (hp : frames <+: frames') :
    Class.Like c frames' k k' := by
  obtain ⟨around, hmarked, hcode⟩ := h.code
  exact ⟨h.name, h.env, around, hmarked.mono hp, hcode⟩

/-- Values stay alike when frames are added. -/
theorem Value.Like.mono (h : Value.Like c frames v v') (hp : frames <+: frames') :
    Value.Like c frames' v v' := by
  cases h with
  | nil => exact .nil
  | bool b => exact .bool b
  | number x => exact .number x
  | string s => exact .string s
  | native index => exact .native index
  | function h => exact .function (h.mono hp)
  | classObj h => exact .classObj (h.mono hp)
  | object h => exact .object (h.mono hp)

/-! ### What can be seen of a value -/

/-- The methods that classes which are alike have under one name. -/
theorem Class.Like.method? (h : Class.Like c frames k k') (name : String) :
    Option.Rel (fun f f' => f'.env = f.env ∧ f'.isInitializer = f.isInitializer ∧
      ∃ around, Marked frames f.env around ∧ FunDecl.Like c (false :: around) f.decl f'.decl)
      (k.method? name) (k'.method? name) := by
  obtain ⟨around, hmarked, hcode⟩ := h.code
  exact rel_map (fun hf => ⟨h.env, hf.isInitializer_eq, around, hmarked, hf⟩) (hcode.find? name)

/-- By their initializers, classes take as many arguments. -/
theorem Class.Like.arity_eq (h : Class.Like c frames k k') : k'.arity = k.arity := by
  refine congrArg (·.getD 0) (map_eq_of_rel (h.method? FunDecl.initializerName) fun f f' hf => ?_)
  obtain ⟨-, -, _, -, hcode⟩ := hf
  exact hcode.arity_eq

/-- A function takes as many arguments as its code tells. -/
theorem Closure.Like.arity_eq (h : Closure.Like c frames f f') : f'.arity = f.arity := by
  obtain ⟨_, -, hcode⟩ := h.code
  exact hcode.arity_eq

/-- Where no code is involved, a value is like itself. -/
theorem Value.Like.plain (h : v.isPlain = true) : Value.Like c frames v v := by
  cases v with
  | nil => exact .nil
  | bool b => exact .bool b
  | number x => exact .number x
  | string s => exact .string s
  | native | function | classObj | object => cases h

/-- Literals stand for the same value. -/
theorem Value.like_ofLiteral (l : Literal) :
    Value.Like c frames (Value.ofLiteral l) (Value.ofLiteral l) := by
  cases l <;> exact .plain rfl

/-- What `Value.SameFace` compares does not depend on the names of local variables. -/
theorem Value.Like.sameFace (h : Value.Like c frames v v') : Value.SameFace v v' := by
  cases h with
  | nil => exact .nil
  | bool b => exact .bool b
  | number x => exact .number x
  | string s => exact .string s
  | native index => exact .native index
  | function h =>
    obtain ⟨_, -, hcode⟩ := h.code
    exact .function hcode.label?_eq hcode.arity_eq h.isInitializer
  | classObj h => exact .classObj h.name h.arity_eq
  | object h => exact .object h.name h.arity_eq

/-- Results that are alike: the same complaint, or values that are alike. -/
inductive Value.ResultLike (c : Likeness) (frames : List Bool) {ε : Type} :
    Except ε Value → Except ε Value → Prop
  | ok {v v' : Value} (h : Value.Like c frames v v') : ResultLike c frames (.ok v) (.ok v')
  | error (e : ε) : ResultLike c frames (.error e) (.error e)

/-- What comes about in the same way from values that are alike. -/
theorem Value.SameResult.like {ε : Type} {vs vs' : List Value} {r r' : Except ε Value}
    (h : Value.SameResult vs vs' r r') (hvs : List.Forall₂ (Value.Like c frames) vs vs') :
    Value.ResultLike c frames r r' := by
  obtain ⟨e, rfl, rfl⟩ | ⟨v, v', rfl, rfl, hv⟩ := h.rel (fun _ hv => .plain hv) hvs
  · exact .error e
  · exact .ok hv

namespace Value.Like

variable {v v' a a' b b' : Value} {op op' : Token}

/-- `applyUnary` depends on the face of its operand only. -/
theorem applyUnary (ht : c.token op op') (h : Value.Like c frames v v') :
    Value.ResultLike c frames (v.applyUnary op) (v'.applyUnary op') := by
  have hop : v'.applyUnary op' = v'.applyUnary op := by
    unfold Value.applyUnary
    rw [c.kind_eq ht]
  rw [hop]
  exact (h.sameFace.applyUnary op).like (.cons h .nil)

/-- `applyBinary` depends on the faces of its operands only. -/
theorem applyBinary (ht : c.token op op') (ha : Value.Like c frames a a')
    (hb : Value.Like c frames b b') :
    Value.ResultLike c frames (a.applyBinary op b) (a'.applyBinary op' b') := by
  have hop : a'.applyBinary op' b' = a'.applyBinary op b' := by
    unfold Value.applyBinary
    rw [c.kind_eq ht]
  rw [hop]
  exact (ha.sameFace.applyBinary hb.sameFace op).like (.cons ha (.cons hb .nil))

/-- `and` and `or` stop at the same values. -/
theorem settles_eq (ht : c.token op op') (h : Value.Like c frames v v') :
    v'.settles op' = v.settles op := by
  unfold Value.settles Token.is
  rw [c.kind_eq ht, h.sameFace.isTruthy_eq]

end Value.Like

end

/-! ### Stores -/

/-- Stores that are alike: what the frames and fields hold is alike, each frame using the names
    that its mark tells. -/
structure Store.Like (c : Likeness) (frames : List Bool) (s s' : Store) : Prop where
  size : s.frames.size = frames.length
  size' : s'.frames.size = frames.length
  /-- The globals keep their names. -/
  globals : frames[0]? = some false
  values : ∀ {f marked}, frames[f]? = some marked → ∀ x,
    Option.Rel (Value.Like c frames) (s.get? f x) (s'.get? f (c.name marked x))
  objects : s'.objects.size = s.objects.size
  fields : ∀ (id : ObjectId) (x : String),
    Option.Rel (Value.Like c frames) (s.fields id)[x]? (s'.fields id)[x]?

variable {c : Likeness} {frames around outer : List Bool} {m m' : Machine}

/-- Setting a field changes one field of one object. -/
theorem Store.getElem?_fields_setField (s : Store) (id id' : ObjectId) (x y : String) (v : Value) :
    ((s.setField id x v).fields id')[y]? =
      if id' = id ∧ y = x ∧ id < s.objects.size then some v else (s.fields id')[y]? := by
  unfold setField Store.fields
  by_cases hid : id' = id
  · subst hid
    by_cases hb : id' < s.objects.size
    · by_cases hx : y = x
      · subst hx
        simp [hb, Array.getElem_modify]
      · simp [hb, hx, Array.getElem_modify, Std.TreeMap.getElem?_insert, Ne.symm hx]
    · simp [hb]
  · simp [Array.getElem?_modify, hid, Ne.symm hid]

/-- A frame that is not in use holds nothing. -/
theorem Store.get?_eq_none {s : Store} {f : FrameId} (h : s.frames.size ≤ f) (x : String) :
    s.get? f x = none := by
  unfold get?
  rw [Array.getElem?_eq_none h]

section

variable {c : Likeness} {frames frames' around : List Bool} {s s' : Store} {v v' : Value}

namespace Store.Like

variable {env : Env} {x : String} {f : FrameId} {marked : Bool}

/-- The frame that holds a variable is marked like its scope. -/
theorem getElem?_holderAt? (henv : Marked frames env around) {d : Nat}
    (hf : s.holderAt? env d x = some f) : frames[f]? = some (around[d]?.getD false) := by
  unfold holderAt? at hf
  exact henv.getElem? (Option.filter_eq_some_iff.1 hf).1

/-- The globals have a single frame. -/
theorem eq_zero_of_holder?_globals (hf : s.holder? Machine.globals x = some f) : f = 0 :=
  List.mem_singleton.1 (List.mem_of_find?_eq_some hf)

variable (h : Store.Like c frames s s')

include h

/-- Defining a variable of a frame under the name that its mark tells. -/
theorem define (hf : frames[f]? = some marked) (hv : Value.Like c frames v v') (x : String) :
    Store.Like c frames (s.define f x v) (s'.define f (c.name marked x) v') := by
  refine { h with size := ?_, size' := ?_, values := ?_ }
  · rw [size_define, h.size]
  · rw [size_define, h.size']
  · intro g marked' hg y
    rw [get?_define, get?_define, h.size, h.size']
    by_cases hgf : g = f
    · subst hgf
      have hm : marked' = marked := Option.some.inj (hg.symm.trans hf)
      subst hm
      by_cases hand : y = x ∧ g < frames.length
      · rw [if_pos ⟨rfl, hand⟩, if_pos ⟨rfl, congrArg _ hand.1, hand.2⟩]
        exact .some hv
      · -- another name of the frame has another name on the other side, too
        rw [if_neg fun h => hand h.2,
          if_neg fun h => hand ⟨c.name_injective marked' h.2.1, h.2.2⟩]
        exact h.values hg y
    · rw [if_neg fun hand => hgf hand.1, if_neg fun hand => hgf hand.1]
      exact h.values hg y

/-- A new frame on each side, with the same address. -/
theorem newFrame (marked : Bool) :
    Store.Like c (frames ++ [marked]) s.newFrame.2 s'.newFrame.2 := by
  have hp : frames <+: frames ++ [marked] := List.prefix_append _ _
  refine ⟨?_, ?_, ?_, fun {f marked'} hf x => ?_, h.objects, fun id x => ?_⟩
  · rw [size_newFrame, h.size, List.length_append, List.length_singleton]
  · rw [size_newFrame, h.size', List.length_append, List.length_singleton]
  · rw [List.getElem?_append_left (List.getElem?_eq_some_iff.1 h.globals).1]
    exact h.globals
  · rw [get?_newFrame, get?_newFrame]
    by_cases hlt : f < frames.length
    · rw [List.getElem?_append_left hlt] at hf
      exact rel_imp (·.mono hp) (h.values hf x)
    · -- the new frame holds nothing
      have hlt := Nat.le_of_not_lt hlt
      rw [get?_eq_none (h.size ▸ hlt), get?_eq_none (h.size' ▸ hlt)]
      exact .none
  · rw [fields_newFrame, fields_newFrame]
    exact rel_imp (·.mono hp) (h.fields id x)

/-- `define` for the variables of a new scope, one after the other. -/
theorem defineAll (hf : frames[f]? = some marked) {vars vars' : List (String × Value)}
    (hvars : List.Forall₂ (fun p p' => p'.1 = c.name marked p.1 ∧ Value.Like c frames p.2 p'.2)
      vars vars') : Store.Like c frames (s.defineAll f vars) (s'.defineAll f vars') := by
  induction hvars generalizing s s' with
  | nil => exact h
  | @cons p p' vars vars' hp _ ih =>
    have hfirst := h.define hf hp.2 p.1
    rw [← hp.1] at hfirst
    exact ih hfirst

/-- New objects have the same address, and no fields. -/
theorem newObject : Store.Like c frames s.newObject.2 s'.newObject.2 := by
  refine { h with objects := ?_, fields := fun id x => ?_ }
  · unfold Store.newObject
    simp [h.objects]
  · rw [fields_newObject, fields_newObject]
    exact h.fields id x

/-- Fields have the same names on both sides. -/
theorem setField (id : ObjectId) (x : String) (hv : Value.Like c frames v v') :
    Store.Like c frames (s.setField id x v) (s'.setField id x v') := by
  refine { h with objects := ?_, fields := fun id' y => ?_ }
  · unfold Store.setField
    simp [h.objects]
  · rw [getElem?_fields_setField, getElem?_fields_setField, h.objects]
    split
    · exact .some hv
    · exact h.fields id' y

/-! Variables are found in the same frames. -/

/-- Alike frames hold the same variables. -/
theorem holds_eq (hf : frames[f]? = some marked) (x : String) :
    s'.holds f (c.name marked x) = s.holds f x :=
  rel_isSome (h.values hf x)

/-- By `holds_eq`, a variable is found in the same frame at a distance. -/
theorem holderAt?_eq (henv : Marked frames env around) (d : Nat) (x : String) :
    s'.holderAt? env d (c.name (around[d]?.getD false) x) = s.holderAt? env d x := by
  unfold holderAt?
  cases hd : env[d]? with
  | none => rfl
  | some f => simp only [Option.filter_some, h.holds_eq (henv.getElem? hd)]

/-- What is read at a distance is alike. -/
theorem lookupAt? (henv : Marked frames env around) (d : Nat) (x : String) :
    Option.Rel (Value.Like c frames) (s.lookupAt? env d x)
      (s'.lookupAt? env d (c.name (around[d]?.getD false) x)) := by
  unfold Store.lookupAt?
  rw [h.holderAt?_eq henv]
  cases hf : s.holderAt? env d x with
  | none => exact .none
  | some f => exact h.values (getElem?_holderAt? henv hf) x

/-- A global is found in the same frame. -/
theorem holder?_globals_eq (x : String) :
    s'.holder? Machine.globals x = s.holder? Machine.globals x := by
  have hholds := h.holds_eq h.globals x
  rw [c.name_false] at hholds
  unfold holder? Machine.globals
  simp only [List.find?_singleton, hholds]

/-- What is read from a global is alike. -/
theorem lookup?_globals (x : String) :
    Option.Rel (Value.Like c frames) (s.lookup? Machine.globals x)
      (s'.lookup? Machine.globals x) := by
  unfold Store.lookup?
  rw [h.holder?_globals_eq]
  cases hf : s.holder? Machine.globals x with
  | none => exact .none
  | some f =>
    cases eq_zero_of_holder?_globals hf
    exact h.values h.globals x

end Store.Like

end

/-! ### Machines -/

/-- A function of the host that tells values which are alike not apart. -/
def Native.Blind (c : Likeness) (native : Native) : Prop :=
  ∀ f, native.action = .apply f → ∀ frames arguments arguments',
    List.Forall₂ (Value.Like c frames) arguments arguments' →
      Value.ResultLike c frames (f arguments) (f arguments')

/-- Machines that are alike, inside of scopes that are marked or not. -/
structure Machine.Like (c : Likeness) (frames around : List Bool) (m m' : Machine) : Prop where
  store : Store.Like c frames m.store m'.store
  env : m'.env = m.env
  marked : Marked frames m.env around
  depths : ∀ {id id' d}, c.node id id' d → m.depths[id]? = d ∧ m'.depths[id']? = d
  sink : m'.sink = m.sink
  callDepth : m'.callDepth = m.callDepth
  natives : m'.natives = m.natives
  blind : ∀ (i : Nat) native, m.natives[i]? = some native → native.Blind c
  nextId : m'.nextId = m.nextId
  ticks : m'.ticks = m.ticks

section

variable {c : Likeness} {frames frames' around around' : List Bool} {m m' : Machine}
  {v v' : Value}

namespace Machine.Like

variable (h : Machine.Like c frames around m m')

include h

/-- `Store.Like.define` in a machine. -/
theorem defineIn {f : FrameId} {marked : Bool} (hf : frames[f]? = some marked)
    (hv : Value.Like c frames v v') (x : String) :
    Machine.Like c frames around (m.defineIn f x v) (m'.defineIn f (c.name marked x) v') :=
  { h with store := h.store.define hf hv x }

/-- A variable of the innermost scope. -/
theorem define (hv : Value.Like c frames v v') {x x' : String}
    (hx : x' = c.name (around.headD false) x) :
    Machine.Like c frames around (m.define x v) (m'.define x' v') := by
  unfold Machine.define
  rw [h.env, hx]
  cases henv : m.env with
  | nil => exact h
  | cons f env =>
    have hf : frames[f]? = some (around[0]?.getD false) :=
      h.marked.getElem? (by rw [henv]; rfl)
    rw [List.headD_eq_head?_getD, List.head?_eq_getElem?]
    exact h.defineIn hf hv x

/-- New functions get the same number. -/
theorem newFunction {f f' : Closure} (hf : Closure.Like c frames f f') :
    Value.Like c frames (m.newFunction f).1 (m'.newFunction f').1 ∧
      Machine.Like c frames around (m.newFunction f).2 (m'.newFunction f').2 := by
  unfold Machine.newFunction
  rw [h.nextId]
  exact ⟨.function hf, { h with nextId := rfl }⟩

/-- New classes get the same number. -/
theorem newClass {k k' : Class} (hk : Class.Like c frames k k') :
    Value.Like c frames (m.newClass k).1 (m'.newClass k').1 ∧
      Machine.Like c frames around (m.newClass k).2 (m'.newClass k').2 := by
  unfold Machine.newClass
  rw [h.nextId]
  exact ⟨.classObj hk, { h with nextId := rfl }⟩

/-- A new frame is the last one on each side; it is marked like its scope. -/
theorem newFrame (marked : Bool) {vars vars' : List (String × Value)}
    (hvars : List.Forall₂ (fun p p' => p'.1 = c.name marked p.1 ∧ Value.Like c frames p.2 p'.2)
      vars vars') :
    (m'.newFrame vars').1 = (m.newFrame vars).1 ∧
      (frames ++ [marked])[(m.newFrame vars).1]? = some marked ∧
      Machine.Like c (frames ++ [marked]) around (m.newFrame vars).2 (m'.newFrame vars').2 := by
  have hp : frames <+: frames ++ [marked] := List.prefix_append _ _
  have hf : (frames ++ [marked])[m.store.frames.size]? = some marked := by
    rw [h.store.size]
    exact List.getElem?_concat_length
  have hsize : m'.store.frames.size = m.store.frames.size :=
    h.store.size'.trans h.store.size.symm
  rw [newFrame_eq, newFrame_eq, hsize]
  refine ⟨rfl, hf, { h with marked := h.marked.mono hp, store := ?_ }⟩
  exact (h.store.newFrame marked).defineAll hf (hvars.imp fun _ _ hp' => ⟨hp'.1, hp'.2.mono hp⟩)

/-- A method is bound in a frame of its own, which is not marked. -/
theorem bindMethod {f f' : Closure} (henv : f'.env = f.env)
    (hinit : f'.isInitializer = f.isInitializer) (hmarked : Marked frames f.env around')
    (hcode : FunDecl.Like c (false :: around') f.decl f'.decl) (hv : Value.Like c frames v v') :
    Closure.Like c (frames ++ [false]) (m.bindMethod f v).1 (m'.bindMethod f' v').1 ∧
      Machine.Like c (frames ++ [false]) around (m.bindMethod f v).2 (m'.bindMethod f' v').2 := by
  obtain ⟨hframe, hf, hm⟩ := h.newFrame false (.cons ⟨rfl, hv⟩ .nil : List.Forall₂ _
    [("this", v)] [("this", v')])
  refine ⟨⟨?_, hinit, false :: around', ?_, hcode⟩, hm⟩
  · exact congrArg₂ List.cons hframe henv
  · exact .cons hf (hmarked.mono (List.prefix_append _ _))

end Machine.Like

end

/-! ### What is left to do -/

variable (c : Likeness) (frames : List Bool) in
mutual

/-- Continuations that are alike, inside of scopes that are marked or not. At the end the globals
    are current. -/
inductive ExprCont.Like : List Bool → ExprCont → ExprCont → Prop
  | done : ExprCont.Like [] .done .done
  | assign {around id id' name name' k k'} (h : c.Refers around id id' name name')
      (hk : ExprCont.Like around k k') :
      ExprCont.Like around (.assign id name k) (.assign id' name' k')
  | unary {around op op' k k'} (ht : c.token op op') (hk : ExprCont.Like around k k') :
      ExprCont.Like around (.unary op k) (.unary op' k')
  | left {around op op' e e' k k'} (ht : c.token op op')
      (he : Node.Like c around (.expr e) (.expr e')) (hk : ExprCont.Like around k k') :
      ExprCont.Like around (.left op e k) (.left op' e' k')
  | right {around op op' v v' k k'} (ht : c.token op op') (hv : Value.Like c frames v v')
      (hk : ExprCont.Like around k k') :
      ExprCont.Like around (.right v op k) (.right v' op' k')
  | logical {around op op' e e' k k'} (ht : c.token op op')
      (he : Node.Like c around (.expr e) (.expr e')) (hk : ExprCont.Like around k k') :
      ExprCont.Like around (.logical op e k) (.logical op' e' k')
  | choose {around a a' b b' k k'} (ha : Node.Like c around (.expr a) (.expr a'))
      (hb : Node.Like c around (.expr b) (.expr b')) (hk : ExprCont.Like around k k') :
      ExprCont.Like around (.choose a b k) (.choose a' b' k')
  | callee {around paren paren' es es' k k'} (ht : c.token paren paren')
      (hes : Node.Like c around (.exprs es) (.exprs es')) (hk : ExprCont.Like around k k') :
      ExprCont.Like around (.callee paren es k) (.callee paren' es' k')
  | argument {around paren paren' v v' before before' es es' k k'} (ht : c.token paren paren')
      (hv : Value.Like c frames v v') (hbefore : List.Forall₂ (Value.Like c frames) before before')
      (hes : Node.Like c around (.exprs es) (.exprs es')) (hk : ExprCont.Like around k k') :
      ExprCont.Like around (.argument v paren before es k) (.argument v' paren' before' es' k')
  | property {around name name' k k'} (ht : c.token name name') (hk : ExprCont.Like around k k') :
      ExprCont.Like around (.property name k) (.property name' k')
  | fieldOwner {around name name' e e' k k'} (ht : c.token name name')
      (he : Node.Like c around (.expr e) (.expr e')) (hk : ExprCont.Like around k k') :
      ExprCont.Like around (.fieldOwner name e k) (.fieldOwner name' e' k')
  | fieldValue {around id name name' k k'} (ht : c.token name name')
      (hk : ExprCont.Like around k k') :
      ExprCont.Like around (.fieldValue id name k) (.fieldValue id name' k')
  | construct {around v v' k k'} (hv : Value.Like c frames v v') (hk : ExprCont.Like around k k') :
      ExprCont.Like around (.construct v k) (.construct v' k')
  | discard {around k k'} (hk : StmtCont.Like around k k') :
      ExprCont.Like around (.discard k) (.discard k')
  | print {around k k'} (hk : StmtCont.Like around k k') :
      ExprCont.Like around (.print k) (.print k')
  | define {around name name' k k'} (hname : c.Names (around.headD false) name name')
      (hk : StmtCont.Like around k k') :
      ExprCont.Like around (.define name k) (.define name' k')
  | branch {around a a' k k'} (ha : Node.Like c around (.stmt a) (.stmt a'))
      (hk : StmtCont.Like around k k') :
      ExprCont.Like around (.branch a none k) (.branch a' none k')
  | branchElse {around a a' b b' k k'} (ha : Node.Like c around (.stmt a) (.stmt a'))
      (hb : Node.Like c around (.stmt b) (.stmt b')) (hk : StmtCont.Like around k k') :
      ExprCont.Like around (.branch a (some b) k) (.branch a' (some b') k')
  | test {around e e' a a' k k'} (he : Node.Like c around (.expr e) (.expr e'))
      (ha : Node.Like c around (.stmt a) (.stmt a')) (hk : StmtCont.Like around k k') :
      ExprCont.Like around (.test e a k) (.test e' a' k')
  | ret {around k k'} (hk : StmtCont.Like around k k') : ExprCont.Like around (.ret k) (.ret k')

inductive StmtCont.Like : List Bool → StmtCont → StmtCont → Prop
  | done : StmtCont.Like [] .done .done
  | sequence {around ss ss' k k'} (hss : Node.Like c around (.stmts ss) (.stmts ss'))
      (hk : StmtCont.Like around k k') :
      StmtCont.Like around (.sequence ss k) (.sequence ss' k')
  | leaveBlock {around outer env k k'} (henv : Marked frames env outer)
      (hk : StmtCont.Like outer k k') :
      StmtCont.Like around (.leaveBlock env k) (.leaveBlock env k')
  | again {around e e' a a' k k'} (he : Node.Like c around (.expr e) (.expr e'))
      (ha : Node.Like c around (.stmt a) (.stmt a')) (hk : StmtCont.Like around k k') :
      StmtCont.Like around (.again e a k) (.again e' a' k')
  | leaveCall {around outer env f f' k k'} (henv : Marked frames env outer)
      (hf : Closure.Like c frames f f') (hk : ExprCont.Like outer k k') :
      StmtCont.Like around (.leaveCall env f k) (.leaveCall env f' k')

end

mutual

/-- What is left to do stays alike when frames are added. -/
theorem ExprCont.Like.mono {c : Likeness} {frames frames' around : List Bool} {k k' : ExprCont}
    (hp : frames <+: frames') :
    ExprCont.Like c frames around k k' → ExprCont.Like c frames' around k k'
  | .done => .done
  | .assign h hk => .assign h (hk.mono hp)
  | .unary ht hk => .unary ht (hk.mono hp)
  | .left ht he hk => .left ht he (hk.mono hp)
  | .right ht hv hk => .right ht (hv.mono hp) (hk.mono hp)
  | .logical ht he hk => .logical ht he (hk.mono hp)
  | .choose ha hb hk => .choose ha hb (hk.mono hp)
  | .callee ht hes hk => .callee ht hes (hk.mono hp)
  | .argument ht hv hbefore hes hk =>
    .argument ht (hv.mono hp) (hbefore.imp fun _ _ h => h.mono hp) hes (hk.mono hp)
  | .property ht hk => .property ht (hk.mono hp)
  | .fieldOwner ht he hk => .fieldOwner ht he (hk.mono hp)
  | .fieldValue ht hk => .fieldValue ht (hk.mono hp)
  | .construct hv hk => .construct (hv.mono hp) (hk.mono hp)
  | .discard hk => .discard (hk.mono hp)
  | .print hk => .print (hk.mono hp)
  | .define hname hk => .define hname (hk.mono hp)
  | .branch ha hk => .branch ha (hk.mono hp)
  | .branchElse ha hb hk => .branchElse ha hb (hk.mono hp)
  | .test he ha hk => .test he ha (hk.mono hp)
  | .ret hk => .ret (hk.mono hp)

theorem StmtCont.Like.mono {c : Likeness} {frames frames' around : List Bool} {k k' : StmtCont}
    (hp : frames <+: frames') :
    StmtCont.Like c frames around k k' → StmtCont.Like c frames' around k k'
  | .done => .done
  | .sequence hss hk => .sequence hss (hk.mono hp)
  | .leaveBlock henv hk => .leaveBlock (henv.mono hp) (hk.mono hp)
  | .again he ha hk => .again he ha (hk.mono hp)
  | .leaveCall henv hf hk => .leaveCall (henv.mono hp) (hf.mono hp) (hk.mono hp)

end

/-- Leaving a scope: the environment of the scope around it is current again. -/
theorem Machine.Like.leave {env : Env} (h : Machine.Like c frames around m m')
    (henv : Marked frames env outer) : Machine.Like c frames outer { m with env } { m' with env } :=
  { h with env := rfl, marked := henv }

/-- Leaving a call. -/
theorem Machine.Like.leaveCall {env : Env} (h : Machine.Like c frames around m m')
    (henv : Marked frames env outer) :
    Machine.Like c frames outer { m with env, callDepth := m.callDepth - 1 }
      { m' with env, callDepth := m'.callDepth - 1 } :=
  { h with env := rfl, marked := henv, callDepth := congrArg (· - 1) h.callDepth }

mutual

/-- After an error the globals are current. -/
theorem ExprCont.Like.unwind {c : Likeness} {frames around : List Bool} {k k' : ExprCont}
    {m m' : Machine} : ExprCont.Like c frames around k k' → Machine.Like c frames around m m' →
      Machine.Like c frames [] (k.unwind m) (k'.unwind m')
  | .done, hm => hm
  | .assign _ hk, hm | .unary _ hk, hm | .left _ _ hk, hm | .right _ _ hk, hm | .logical _ _ hk, hm
  | .choose _ _ hk, hm | .callee _ _ hk, hm | .argument _ _ _ _ hk, hm | .property _ hk, hm
  | .fieldOwner _ _ hk, hm | .fieldValue _ hk, hm | .construct _ hk, hm => hk.unwind hm
  | .discard hk, hm | .print hk, hm | .define _ hk, hm | .branch _ hk, hm | .branchElse _ _ hk, hm
  | .test _ _ hk, hm | .ret hk, hm => hk.unwind hm

theorem StmtCont.Like.unwind {c : Likeness} {frames around : List Bool} {k k' : StmtCont}
    {m m' : Machine} : StmtCont.Like c frames around k k' → Machine.Like c frames around m m' →
      Machine.Like c frames [] (k.unwind m) (k'.unwind m')
  | .done, hm => hm
  | .sequence _ hk, hm | .again _ _ hk, hm => hk.unwind hm
  | .leaveBlock henv hk, hm => hk.unwind (hm.leave henv)
  | .leaveCall henv _ hk, hm => hk.unwind (hm.leaveCall henv)

end

variable (c : Likeness) (frames : List Bool) in
/-- Ways in which a statement ended that are alike. -/
inductive Flow.Like : Flow → Flow → Prop
  | normal : Like .normal .normal
  | returned {v v'} (hv : Value.Like c frames v v') : Like (.returned v) (.returned v')

variable (c : Likeness) in
/-- Errors that are alike: they have the same cause, and tokens that stand for each other. -/
inductive Error.Like : Error → Error → Prop
  | lexical (line : Nat) (fault : LexicalFault) : Like (.lexical line fault) (.lexical line fault)
  | grammar {t t'} (fault : GrammarFault) (ht : c.token t t') :
      Like (.grammar (.token t) fault) (.grammar (.token t') fault)
  | scope {t t'} (fault : ScopeFault) (ht : c.token t t') : Like (.scope t fault) (.scope t' fault)
  | runtime {t t'} (fault : RuntimeFault) (ht : c.token t t') :
      Like (.runtime t fault) (.runtime t' fault)
  | output (fault : OutputFault) : Like (.output fault) (.output fault)

/-- Variables that are out of place in the same way. -/
structure Desync.Like (c : Likeness) (d d' : Desync) : Prop where
  access : d'.access = d.access
  used : c.used d.name
  name : ∃ marked, d'.name = c.name marked d.name

variable (c : Likeness) (frames : List Bool) in
/-- States that are alike. -/
inductive State.Like : State → State → Prop
  | eval {around e e' k k' m m'} (he : Node.Like c around (.expr e) (.expr e'))
      (hk : ExprCont.Like c frames around k k') (hm : Machine.Like c frames around m m') :
      Like (.eval e k m) (.eval e' k' m')
  | exec {around s s' k k' m m'} (hs : Node.Like c around (.stmt s) (.stmt s'))
      (hk : StmtCont.Like c frames around k k') (hm : Machine.Like c frames around m m') :
      Like (.exec s k m) (.exec s' k' m')
  | value {around v v' k k' m m'} (hv : Value.Like c frames v v')
      (hk : ExprCont.Like c frames around k k') (hm : Machine.Like c frames around m m') :
      Like (.value v k m) (.value v' k' m')
  | flow {around f f' k k' m m'} (hf : Flow.Like c frames f f')
      (hk : StmtCont.Like c frames around k k') (hm : Machine.Like c frames around m m') :
      Like (.flow f k m) (.flow f' k' m')
  | failed {e e' m m'} (he : Error.Like c e e') (hm : Machine.Like c frames [] m m') :
      Like (.failed e m) (.failed e' m')
  | desync {around d d' m m'} (hd : Desync.Like c d d') (hm : Machine.Like c frames around m m') :
      Like (.desync d m) (.desync d' m')

end Scriptlet
