import Scriptlet.Proofs.Faces
import Scriptlet.Proofs.Likeness
import Scriptlet.Proofs.Turns

namespace Scriptlet

/-!
# Programs with extra braces

Two programs of which the second one has extra braces: some statements that declare nothing stand
there alone in a block of their own, and so do the turns of loops, if the first program has any. In
a run of the second program environments have extra frames, which no variable is bound in, and nodes
inside of extra braces have larger depths.

* `Around` — the scopes around a place of the second program, each extra or not; `Around.shift` —
  the distance of a scope of the first program, counted in the second one.
* `Spread` — a list, and another one with extra members.
* `Node.Braced` — trees, and what becomes of them when some statements are put in extra braces.
* `Value.Braced`, `Store.Braced`, `Machine.Braced` — what runs of such programs make. The frames of
  the first run have other addresses in the second one, since frames are added in between.
* `ExprCont.Braced`, `StmtCont.Braced`, `State.Braced` — what such runs have left to do; the second
  one may have to leave extra blocks first.
-/

/-! ### Scopes and extra scopes -/

/-- The scopes around a place of the second program, the innermost first: whether they are extra. -/
abbrev Around := List Bool

namespace Around

/-- The distance in the second program of the scope at distance `d` in the first one. -/
def shift : Around → Nat → Nat
  | [], d => d
  | true :: around, d => shift around d + 1
  | false :: _, 0 => 0
  | false :: around, d + 1 => shift around d + 1

/-- The innermost scope is not extra. -/
def Plain (around : Around) : Prop := around.head? ≠ some true

/-- Then it has the same distance in both programs. -/
theorem Plain.shift_zero {around : Around} (h : around.Plain) : around.shift 0 = 0 := by
  cases around with
  | nil => rfl
  | cons extra around =>
    cases extra with
    | false => rfl
    | true => exact absurd rfl h

/-- Scopes of the first program are not extra. -/
theorem plain_false (around : Around) : Plain (false :: around) := nofun

/-- Without extra scopes, distances stay. -/
theorem shift_replicate (n d : Nat) : shift (List.replicate n false) d = d := by
  induction n generalizing d with
  | zero => rfl
  | succ n ih =>
    cases d with
    | zero => rfl
    | succ d => exact congrArg (· + 1) (ih d)

/-- None of them is extra. -/
theorem plain_replicate (n : Nat) : Plain (List.replicate n false) := by
  cases n with
  | zero => exact nofun
  | succ n => exact plain_false _

end Around

/-- A list, and another one with extra members: `R` tells which members stand for each other, and
    `E` which ones may be extra. -/
inductive Spread {α β : Type} (R : α → β → Prop) (E : β → Prop) :
    Around → List α → List β → Prop
  | base {as bs} (h : List.Forall₂ R as bs) : Spread R E [] as bs
  | pair {around a b as bs} (h : R a b) (rest : Spread R E around as bs) :
      Spread R E (false :: around) (a :: as) (b :: bs)
  | extra {around b as bs} (h : E b) (rest : Spread R E around as bs) :
      Spread R E (true :: around) as (b :: bs)

namespace Spread

variable {α β : Type} {R S : α → β → Prop} {E : β → Prop} {around : Around} {as : List α}
  {bs : List β}

theorem mono (h : Spread R E around as bs) (hRS : ∀ a b, R a b → S a b) :
    Spread S E around as bs := by
  induction h with
  | base h => exact .base (h.imp hRS)
  | pair h _ ih => exact .pair (hRS _ _ h) ih
  | extra h _ ih => exact .extra h ih

/-- Members at corresponding places stand for each other. -/
theorem getElem? (h : Spread R E around as bs) (d : Nat) :
    Option.Rel R as[d]? bs[around.shift d]? := by
  induction h generalizing d with
  | base h =>
    show Option.Rel R _ _[d]?
    induction h generalizing d with
    | nil => exact .none
    | cons h _ ih =>
      cases d with
      | zero => exact .some h
      | succ d => exact ih d
  | pair h _ ih =>
    cases d with
    | zero => exact .some h
    | succ d => exact ih d
  | extra _ _ ih => exact ih d

/-- If the first member is not extra, it stands for the first one. -/
theorem exists_head (h : Spread R E around as bs) (hplain : around.Plain) :
    as = [] ∧ bs = [] ∨ ∃ a as' b bs', as = a :: as' ∧ bs = b :: bs' ∧ R a b := by
  cases h with
  | base h =>
    cases h with
    | nil => exact .inl ⟨rfl, rfl⟩
    | cons h _ => exact .inr ⟨_, _, _, _, rfl, rfl, h⟩
  | pair h _ => exact .inr ⟨_, _, _, _, rfl, rfl, h⟩
  | extra => exact absurd rfl hplain

end Spread

/-! ### Trees -/

/-- What is asked of places inside of scopes that are extra or not. -/
structure Bracing where
  /-- Of nodes that name variables. -/
  node : Around → NodeId → Prop
  /-- Of statements that declare names. -/
  declares : Around → Prop
  /-- Whether the first program has turns of loops. -/
  turns : Bool

namespace Bracing

/-- Nothing is asked. -/
def any (turns : Bool) : Bracing := ⟨fun _ _ => True, fun _ => True, turns⟩

/-- The tables of two resolution walks agree about the variables that nodes name, and nothing is
    declared right inside of extra braces. -/
def resolved (turns : Bool) (table table' : Depths) : Bracing :=
  ⟨fun around id => table'[id]? = table[id]?.map around.shift, Around.Plain, turns⟩

/-- The step of a run of the first program. -/
def next (c : Bracing) (host : Host) : State → State
  | .exec s k m => if c.turns then stepTurns host (.exec s k m) else step host (.exec s k m)
  | t => step host t

/-- A statement that is no turn of a loop is executed as ever. -/
theorem next_exec {c : Bracing} {s : Stmt} (h : c.turns = true → s.turn? = none) (host : Host)
    (k : StmtCont) (m : Machine) : c.next host (.exec s k m) = Step.exec s k m := by
  show (if c.turns then stepTurns host (.exec s k m) else step host (.exec s k m)) = _
  split
  · next hturns =>
    unfold stepTurns
    simp only [h hturns]
    rfl
  · rfl

/-- A turn goes on to its two statements, in no scope of its own. -/
theorem next_turn {c : Bracing} (h : c.turns = true) (host : Host) (s : Stmt) (e : Expr)
    (k : StmtCont) (m : Machine) :
    c.next host (.exec (.turn s e) k m) = .exec s (.sequence [.expr e] k) m :=
  if_pos h

/-- `next` differs from `step` only for turns, so it is one of the two steps as a whole. -/
theorem next_eq (c : Bracing) (host : Host) :
    c.next host = if c.turns then stepTurns host else step host := by
  funext t
  cases t with
  | exec => cases hturns : c.turns <;> simp [next, hturns]
  | _ => cases c.turns <;> rfl

end Bracing

variable (c : Bracing) in
/-- Parts of two programs inside of the given scopes, of which the second one has extra braces.
    Wherever it stands, a statement that is no declaration may have them (`brace`), a turn has them
    (`turn`), and the rest is the same. -/
inductive Node.Braced : Around → Node → Node → Prop
  | literal {around value} : Braced around (.expr (.literal value)) (.expr (.literal value))
  | group {around e e'} (h : Braced around (.expr e) (.expr e')) :
      Braced around (.expr (.group e)) (.expr (.group e'))
  | read {around id name} (h : c.node around id) :
      Braced around (.expr (.variable id name)) (.expr (.variable id name))
  | thisRef {around id name} (h : c.node around id) :
      Braced around (.expr (.thisRef id name)) (.expr (.thisRef id name))
  | assign {around id name e e'} (h : c.node around id) (he : Braced around (.expr e) (.expr e')) :
      Braced around (.expr (.assign id name e)) (.expr (.assign id name e'))
  | unary {around op e e'} (h : Braced around (.expr e) (.expr e')) :
      Braced around (.expr (.unary op e)) (.expr (.unary op e'))
  | binary {around op l l' r r'} (hl : Braced around (.expr l) (.expr l'))
      (hr : Braced around (.expr r) (.expr r')) :
      Braced around (.expr (.binary l op r)) (.expr (.binary l' op r'))
  | logical {around op l l' r r'} (hl : Braced around (.expr l) (.expr l'))
      (hr : Braced around (.expr r) (.expr r')) :
      Braced around (.expr (.logical l op r)) (.expr (.logical l' op r'))
  | conditional {around q e e' a a' b b'} (he : Braced around (.expr e) (.expr e'))
      (ha : Braced around (.expr a) (.expr a')) (hb : Braced around (.expr b) (.expr b')) :
      Braced around (.expr (.conditional e q a b)) (.expr (.conditional e' q a' b'))
  | call {around paren e e' es es'} (he : Braced around (.expr e) (.expr e'))
      (hes : Braced around (.exprs es) (.exprs es')) :
      Braced around (.expr (.call e paren es)) (.expr (.call e' paren es'))
  | get {around name e e'} (h : Braced around (.expr e) (.expr e')) :
      Braced around (.expr (.get e name)) (.expr (.get e' name))
  | set {around name e e' v v'} (he : Braced around (.expr e) (.expr e'))
      (hv : Braced around (.expr v) (.expr v')) :
      Braced around (.expr (.set e name v)) (.expr (.set e' name v'))
  | lambda {around decl decl'}
      (h : Braced around (.function .function decl) (.function .function decl')) :
      Braced around (.expr (.function decl)) (.expr (.function decl'))
  | noExprs {around} : Braced around (.exprs []) (.exprs [])
  | exprs {around e e' es es'} (he : Braced around (.expr e) (.expr e'))
      (hes : Braced around (.exprs es) (.exprs es')) :
      Braced around (.exprs (e :: es)) (.exprs (e' :: es'))
  /-- A statement that is no declaration, and the same in extra braces. -/
  | brace {around s s'} (hs : s.isDeclaration = false)
      (h : Braced (true :: around) (.stmt s) (.stmt s')) :
      Braced around (.stmt s) (.stmt (.block [s']))
  /-- A turn of a loop, and the same in extra braces. -/
  | turn {around s s' e e'} (ht : c.turns = true) (hs : s.isDeclaration = false)
      (h : Braced (true :: around) (.stmt s) (.stmt s'))
      (he : Braced (true :: around) (.expr e) (.expr e')) :
      Braced around (.stmt (.turn s e)) (.stmt (.block [s', .expr e']))
  | expr {around e e'} (h : Braced around (.expr e) (.expr e')) :
      Braced around (.stmt (.expr e)) (.stmt (.expr e'))
  | print {around e e'} (h : Braced around (.expr e) (.expr e')) :
      Braced around (.stmt (.print e)) (.stmt (.print e'))
  | varDecl {around name} (hd : c.declares around) :
      Braced around (.stmt (.varDecl name none)) (.stmt (.varDecl name none))
  | varInit {around name e e'} (hd : c.declares around) (h : Braced around (.expr e) (.expr e')) :
      Braced around (.stmt (.varDecl name (some e))) (.stmt (.varDecl name (some e')))
  | block {around body body'} (h : Braced (false :: around) (.stmts body) (.stmts body')) :
      Braced around (.stmt (.block body)) (.stmt (.block body'))
  | ifThen {around e e' a a'} (he : Braced around (.expr e) (.expr e'))
      (ha : Braced around (.stmt a) (.stmt a')) :
      Braced around (.stmt (.ifElse e a none)) (.stmt (.ifElse e' a' none))
  | ifElse {around e e' a a' b b'} (ht : c.turns = true → (Stmt.ifElse e a (some b)).turn? = none)
      (he : Braced around (.expr e) (.expr e')) (ha : Braced around (.stmt a) (.stmt a'))
      (hb : Braced around (.stmt b) (.stmt b')) :
      Braced around (.stmt (.ifElse e a (some b))) (.stmt (.ifElse e' a' (some b')))
  | whileLoop {around e e' a a'} (he : Braced around (.expr e) (.expr e'))
      (ha : Braced around (.stmt a) (.stmt a')) :
      Braced around (.stmt (.whileLoop e a)) (.stmt (.whileLoop e' a'))
  | funDecl {around decl decl'} (hd : c.declares around)
      (h : Braced around (.function .function decl) (.function .function decl')) :
      Braced around (.stmt (.funDecl decl)) (.stmt (.funDecl decl'))
  | ret {around keyword} : Braced around (.stmt (.ret keyword none)) (.stmt (.ret keyword none))
  | retValue {around keyword e e'} (h : Braced around (.expr e) (.expr e')) :
      Braced around (.stmt (.ret keyword (some e))) (.stmt (.ret keyword (some e')))
  | classDecl {around name methods methods'} (hd : c.declares around)
      (h : Braced (false :: around) (.functions methods) (.functions methods')) :
      Braced around (.stmt (.classDecl name methods)) (.stmt (.classDecl name methods'))
  | noStmts {around} : Braced around (.stmts []) (.stmts [])
  | stmts {around s s' ss ss'} (hs : Braced around (.stmt s) (.stmt s'))
      (hss : Braced around (.stmts ss) (.stmts ss')) :
      Braced around (.stmts (s :: ss)) (.stmts (s' :: ss'))
  /-- The parameters and the body share one scope. -/
  | function {around kind name? params body body'}
      (h : Braced (false :: around) (.stmts body) (.stmts body')) :
      Braced around (.function kind (.mk name? params body)) (.function kind
        (.mk name? params body'))
  | noFunctions {around} : Braced around (.functions []) (.functions [])
  | functions {around f f' fs fs'}
      (hf : Braced around (.function (Walk.methodBody f) f) (.function (Walk.methodBody f) f'))
      (hfs : Braced around (.functions fs) (.functions fs')) :
      Braced around (.functions (f :: fs)) (.functions (f' :: fs'))

/-- Functions of which the second one has extra braces. -/
abbrev FunDecl.Braced (c : Bracing) (around : Around) (f f' : FunDecl) : Prop :=
  Node.Braced c around (.function .function f) (.function .function f')

namespace Node.Braced

variable {c : Bracing} {around : Around} {f f' : FunDecl}

/-- The kind of body that a function has is of no account. -/
theorem withKind {kind : Body}
    (h : Node.Braced c around (.function kind f) (.function kind f')) (kind' : Body) :
    Node.Braced c around (.function kind' f) (.function kind' f') := by
  cases h with
  | function h => exact .function h

/-- Extra braces are not put around declarations. -/
theorem isDeclaration_eq {s s' : Stmt} (h : Node.Braced c around (.stmt s) (.stmt s')) :
    s'.isDeclaration = s.isDeclaration := by
  cases h with
  | brace hs => exact hs.symm
  | _ => rfl

/-- A function keeps its name and its parameters. -/
theorem head_eq {kind : Body} (h : Node.Braced c around (.function kind f) (.function kind f')) :
    f'.name? = f.name? ∧ f'.params = f.params := by
  cases h with
  | function => exact ⟨rfl, rfl⟩

/-- The bodies are inside of the scope that holds the parameters. -/
theorem body {kind : Body} (h : Node.Braced c around (.function kind f) (.function kind f')) :
    Node.Braced c (false :: around) (.stmts f.body) (.stmts f'.body) := by
  cases h with
  | function h => exact h

/-- By `head_eq`, the two functions have the same name or none. -/
theorem label?_eq (h : FunDecl.Braced c around f f') : f'.label? = f.label? :=
  congrArg (·.map Token.lexeme) h.head_eq.1

/-- `label?_eq`, where a function without a name counts as empty. -/
theorem label_eq (h : FunDecl.Braced c around f f') : f'.label = f.label :=
  congrArg (·.getD "") h.label?_eq

/-- The two functions take as many arguments. -/
theorem arity_eq (h : FunDecl.Braced c around f f') : f'.arity = f.arity :=
  congrArg List.length h.head_eq.2

/-- The two methods are initializers or none of them is. -/
theorem isInitializer_eq (h : FunDecl.Braced c around f f') :
    f'.isInitializer = f.isInitializer := by
  unfold FunDecl.isInitializer
  rw [h.label?_eq]

/-- A walk is inside of the same kind of body in both. -/
theorem methodBody_eq (h : FunDecl.Braced c around f f') :
    Walk.methodBody f' = Walk.methodBody f := by
  unfold Walk.methodBody
  rw [h.isInitializer_eq]

/-- Of the methods with one name, the last ones stand for each other. -/
theorem find? {fs fs' : List FunDecl}
    (h : Node.Braced c around (.functions fs) (.functions fs')) (name : String) :
    Option.Rel (FunDecl.Braced c around) (fs.reverse.find? (·.label = name))
      (fs'.reverse.find? (·.label = name)) := by
  induction fs generalizing fs' with
  | nil =>
    cases h with
    | noFunctions => exact .none
  | cons f fs ih =>
    cases h with
    | functions hf hfs =>
      rw [List.reverse_cons, List.reverse_cons, List.find?_append, List.find?_append]
      have hf : FunDecl.Braced c around _ _ := hf.withKind .function
      refine rel_or (ih hfs) ?_
      rw [List.find?_singleton, List.find?_singleton, hf.label_eq]
      split
      · exact .some hf
      · exact .none

end Node.Braced

/-! ### Values -/

/-- Environments of which the second one has extra frames. A frame of the first run has the address
    in the second one that the list of `frames` tells. -/
abbrev Env.Braced (frames : List FrameId) (around : Around) (env env' : Env) : Prop :=
  Spread (fun f f' => frames[f]? = some f') (fun _ => True) around env env'

/-- Functions that stand for each other. Around an initializer there is the scope that holds its
    object. -/
structure Closure.Braced (c : Bracing) (frames : List FrameId) (f f' : Closure) : Prop where
  isInitializer : f'.isInitializer = f.isInitializer
  code : ∃ around, Env.Braced frames around f.env f'.env ∧ FunDecl.Braced c around f.decl f'.decl ∧
    (f.isInitializer = true → around.Plain)

/-- Classes that stand for each other. -/
structure Class.Braced (c : Bracing) (frames : List FrameId) (k k' : Class) : Prop where
  name : k'.name = k.name
  code : ∃ around, Env.Braced frames around k.env k'.env ∧
    Node.Braced c (false :: around) (.functions k.methods) (.functions k'.methods)

variable (c : Bracing) (frames : List FrameId) in
/-- Values that stand for each other: they have the same content, or the same number and code that
    stands for each other. -/
inductive Value.Braced : Value → Value → Prop
  | nil : Braced .nil .nil
  | bool (b : Bool) : Braced (.bool b) (.bool b)
  | number (x : Float) : Braced (.number x) (.number x)
  | string (s : String) : Braced (.string s) (.string s)
  | native (index : Nat) : Braced (.native index) (.native index)
  | function {id f f'} (h : Closure.Braced c frames f f') :
      Braced (.function id f) (.function id f')
  | classObj {id k k'} (h : Class.Braced c frames k k') : Braced (.classObj id k) (.classObj id k')
  | object {id k k'} (h : Class.Braced c frames k k') : Braced (.object id k) (.object id k')

section

variable {c : Bracing} {frames frames' : List FrameId} {around : Around}

variable {f f' : Closure} {k k' : Class} {v v' : Value}

/-- An address that `frames` knows is known to any longer list. -/
theorem getElem?_of_prefix {f f' : FrameId} (hp : frames <+: frames') (h : frames[f]? = some f') :
    frames'[f]? = some f' := by
  obtain ⟨more, rfl⟩ := hp
  rw [List.getElem?_append_left (List.getElem?_eq_some_iff.1 h).1]
  exact h

/-- Environments correspond also when frames are added. -/
theorem Env.Braced.mono {env env' : Env} (h : Env.Braced frames around env env')
    (hp : frames <+: frames') : Env.Braced frames' around env env' :=
  Spread.mono h fun _ _ => getElem?_of_prefix hp

/-- The globals have the same address. -/
theorem Env.Braced.globals (h : frames[0]? = some 0) :
    Env.Braced frames [] Machine.globals Machine.globals :=
  .base (.cons h .nil)

/-- `Env.Braced.mono` for the environment of a function. -/
theorem Closure.Braced.mono (h : Closure.Braced c frames f f') (hp : frames <+: frames') :
    Closure.Braced c frames' f f' := by
  obtain ⟨around, henv, hcode, hinit⟩ := h.code
  exact ⟨h.isInitializer, around, henv.mono hp, hcode, hinit⟩

/-- `Env.Braced.mono` for the environment of a class. -/
theorem Class.Braced.mono (h : Class.Braced c frames k k') (hp : frames <+: frames') :
    Class.Braced c frames' k k' := by
  obtain ⟨around, henv, hcode⟩ := h.code
  exact ⟨h.name, around, henv.mono hp, hcode⟩

/-- Values correspond also when frames are added. -/
theorem Value.Braced.mono (h : Value.Braced c frames v v') (hp : frames <+: frames') :
    Value.Braced c frames' v v' := by
  cases h with
  | nil => exact .nil
  | bool b => exact .bool b
  | number x => exact .number x
  | string s => exact .string s
  | native index => exact .native index
  | function h => exact .function (h.mono hp)
  | classObj h => exact .classObj (h.mono hp)
  | object h => exact .object (h.mono hp)

/-- Where no code is involved, a value stands for itself. -/
theorem Value.Braced.plain (h : v.isPlain = true) : Value.Braced c frames v v := by
  cases v with
  | nil => exact .nil
  | bool b => exact .bool b
  | number x => exact .number x
  | string s => exact .string s
  | native | function | classObj | object => cases h

/-- Literals are such values. -/
theorem Value.braced_ofLiteral (l : Literal) :
    Value.Braced c frames (Value.ofLiteral l) (Value.ofLiteral l) := by
  cases l <;> exact .plain rfl

/-! ### What can be told from outside -/

/-- The methods that classes which stand for each other have under one name. -/
theorem Class.Braced.method? (h : Class.Braced c frames k k') (name : String) :
    Option.Rel (fun f f' => f'.isInitializer = f.isInitializer ∧
      ∃ around, Env.Braced frames around f.env f'.env ∧
        FunDecl.Braced c (false :: around) f.decl f'.decl)
      (k.method? name) (k'.method? name) := by
  obtain ⟨around, henv, hcode⟩ := h.code
  exact rel_map (fun hf => ⟨hf.isInitializer_eq, around, henv, hf⟩) (hcode.find? name)

/-- By their initializers, classes take as many arguments. -/
theorem Class.Braced.arity_eq (h : Class.Braced c frames k k') : k'.arity = k.arity := by
  refine congrArg (·.getD 0) (map_eq_of_rel (h.method? FunDecl.initializerName) fun f f' hf => ?_)
  obtain ⟨-, _, -, hcode⟩ := hf
  exact hcode.arity_eq

/-- A function takes as many arguments as its code tells. -/
theorem Closure.Braced.arity_eq (h : Closure.Braced c frames f f') : f'.arity = f.arity := by
  obtain ⟨_, -, hcode, -⟩ := h.code
  exact hcode.arity_eq

/-- Braces are nothing that `Value.SameFace` compares. -/
theorem Value.Braced.sameFace (h : Value.Braced c frames v v') : Value.SameFace v v' := by
  cases h with
  | nil => exact .nil
  | bool b => exact .bool b
  | number x => exact .number x
  | string s => exact .string s
  | native index => exact .native index
  | function h =>
    obtain ⟨_, -, hcode, -⟩ := h.code
    exact .function hcode.label?_eq hcode.arity_eq h.isInitializer
  | classObj h => exact .classObj h.name h.arity_eq
  | object h => exact .object h.name h.arity_eq

/-- Results that stand for each other: the same complaint, or such values. -/
inductive Value.ResultBraced (c : Bracing) (frames : List FrameId) {ε : Type} :
    Except ε Value → Except ε Value → Prop
  | ok {v v' : Value} (h : Value.Braced c frames v v') : ResultBraced c frames (.ok v) (.ok v')
  | error (e : ε) : ResultBraced c frames (.error e) (.error e)

/-- What comes about in the same way from values that stand for each other. -/
theorem Value.SameResult.braced {ε : Type} {vs vs' : List Value} {r r' : Except ε Value}
    (h : Value.SameResult vs vs' r r') (hvs : List.Forall₂ (Value.Braced c frames) vs vs') :
    Value.ResultBraced c frames r r' := by
  obtain ⟨e, rfl, rfl⟩ | ⟨v, v', rfl, rfl, hv⟩ := h.rel (fun _ hv => .plain hv) hvs
  · exact .error e
  · exact .ok hv

end

/-! ### Stores -/

/-- Stores that stand for each other: each frame of the first one has an address in the second one,
    and what frames and fields hold stands for each other. -/
structure Store.Braced (c : Bracing) (frames : List FrameId) (s s' : Store) : Prop where
  size : s.frames.size = frames.length
  used : ∀ f' ∈ frames, f' < s'.frames.size
  nodup : frames.Nodup
  globals : frames[0]? = some 0
  values : ∀ {f f'}, frames[f]? = some f' → ∀ x,
    Option.Rel (Value.Braced c frames) (s.get? f x) (s'.get? f' x)
  objects : s'.objects.size = s.objects.size
  fields : ∀ (id : ObjectId) (x : String),
    Option.Rel (Value.Braced c frames) (s.fields id)[x]? (s'.fields id)[x]?

section

variable {c : Bracing} {frames : List FrameId} {around : Around} {s s' : Store} {v v' : Value}

namespace Store.Braced

variable {f f' : FrameId} {env env' : Env}

/-- An address that is in use. -/
theorem mem (hf : frames[f]? = some f') : f' ∈ frames :=
  List.mem_of_getElem? hf

variable (h : Store.Braced c frames s s')

include h

/-- A variable of a frame, and one of the frame at its address. -/
theorem define (hf : frames[f]? = some f') (hv : Value.Braced c frames v v') (x : String) :
    Store.Braced c frames (s.define f x v) (s'.define f' x v') := by
  refine { h with size := ?_, used := ?_, values := ?_ }
  · rw [size_define, h.size]
  · intro g' hg'
    rw [size_define]
    exact h.used g' hg'
  · intro g g' hg y
    have hlt : f < s.frames.size := h.size ▸ (List.getElem?_eq_some_iff.1 hf).1
    have hlt' : f' < s'.frames.size := h.used f' (mem hf)
    rw [get?_define, get?_define]
    by_cases hgf : g = f
    · subst hgf
      cases hg.symm.trans hf
      by_cases hy : y = x
      · rw [if_pos ⟨rfl, hy, hlt⟩, if_pos ⟨rfl, hy, hlt'⟩]
        exact .some hv
      · rw [if_neg fun hand => hy hand.2.1, if_neg fun hand => hy hand.2.1]
        exact h.values hg y
    · -- Different frames have different addresses.
      have hne : g' ≠ f' := by
        rintro rfl
        exact hgf ((List.getElem?_inj (List.getElem?_eq_some_iff.1 hg).1 h.nodup).1
          (hg.trans hf.symm))
      rw [if_neg fun hand => hgf hand.1, if_neg fun hand => hne hand.1]
      exact h.values hg y

/-- A new frame on each side. -/
theorem newFrame : Store.Braced c (frames ++ [s'.frames.size]) s.newFrame.2 s'.newFrame.2 := by
  have hp : frames <+: frames ++ [s'.frames.size] := List.prefix_append _ _
  refine ⟨?_, fun f' hf' => ?_, ?_, getElem?_of_prefix hp h.globals, fun {f f'} hf x => ?_,
    h.objects, fun id x => ?_⟩
  · rw [size_newFrame, h.size, List.length_append, List.length_singleton]
  · rw [size_newFrame]
    rcases List.mem_append.1 hf' with hf' | hf'
    · exact Nat.lt_succ_of_lt (h.used f' hf')
    · rw [List.mem_singleton.1 hf']
      exact Nat.lt_succ_self _
  · refine List.nodup_append.2 ⟨h.nodup, List.nodup_singleton _, fun a ha b hb => ?_⟩
    rw [List.mem_singleton.1 hb]
    exact Nat.ne_of_lt (h.used a ha)
  · rw [get?_newFrame, get?_newFrame]
    by_cases hlt : f < frames.length
    · rw [List.getElem?_append_left hlt] at hf
      exact rel_imp (·.mono hp) (h.values hf x)
    · -- The new frames hold nothing.
      have hlast : f' = s'.frames.size := by
        rw [List.getElem?_append_right (Nat.le_of_not_lt hlt)] at hf
        exact List.mem_singleton.1 (List.mem_of_getElem? hf)
      rw [get?_eq_none (h.size ▸ Nat.le_of_not_lt hlt), get?_eq_none hlast.ge]
      exact .none
  · rw [fields_newFrame, fields_newFrame]
    exact rel_imp (·.mono hp) (h.fields id x)

/-- A new frame on the second side only. -/
theorem extraFrame : Store.Braced c frames s s'.newFrame.2 := by
  refine { h with used := fun f' hf' => ?_, values := fun hf x => ?_, fields := fun id x => ?_ }
  · rw [size_newFrame]
    exact Nat.lt_succ_of_lt (h.used f' hf')
  · rw [get?_newFrame]
    exact h.values hf x
  · rw [fields_newFrame]
    exact h.fields id x

/-- `define` for the variables of a new scope, one after the other. -/
theorem defineAll (hf : frames[f]? = some f') {vars vars' : List (String × Value)}
    (hvars : List.Forall₂ (fun p p' => p'.1 = p.1 ∧ Value.Braced c frames p.2 p'.2) vars vars') :
    Store.Braced c frames (s.defineAll f vars) (s'.defineAll f' vars') := by
  induction hvars generalizing s s' with
  | nil => exact h
  | @cons p p' vars vars' hp _ ih =>
    have hfirst := h.define hf hp.2 p.1
    rw [← hp.1] at hfirst
    nth_rewrite 1 [hp.1] at hfirst
    exact ih hfirst

/-- Objects have the same address, for extra scopes have none. -/
theorem newObject : Store.Braced c frames s.newObject.2 s'.newObject.2 := by
  refine { h with objects := ?_, fields := fun id x => ?_ }
  · unfold Store.newObject
    simp [h.objects]
  · rw [fields_newObject, fields_newObject]
    exact h.fields id x

/-- Fields are those of the same object. -/
theorem setField (id : ObjectId) (x : String) (hv : Value.Braced c frames v v') :
    Store.Braced c frames (s.setField id x v) (s'.setField id x v') := by
  refine { h with objects := ?_, fields := fun id' y => ?_ }
  · unfold Store.setField
    simp [h.objects]
  · rw [getElem?_fields_setField, getElem?_fields_setField, h.objects]
    split
    · exact .some hv
    · exact h.fields id' y

/-! Variables are found in frames that stand for each other. -/

/-- A frame holds the same variables as the one at its address. -/
theorem holds_eq (hf : frames[f]? = some f') (x : String) : s'.holds f' x = s.holds f x :=
  rel_isSome (h.values hf x)

/-- A variable is found at the distance that `shift` tells. -/
theorem holderAt? (henv : Env.Braced frames around env env') (d : Nat) (x : String) :
    Option.Rel (fun f f' => frames[f]? = some f') (s.holderAt? env d x)
      (s'.holderAt? env' (around.shift d) x) := by
  unfold Store.holderAt?
  refine rel_elim (henv.getElem? d) .none fun f f' hf => ?_
  rw [Option.filter_some, Option.filter_some, h.holds_eq hf]
  split
  · exact .some hf
  · exact .none

/-- What is read at a distance corresponds. -/
theorem lookupAt? (henv : Env.Braced frames around env env') (d : Nat) (x : String) :
    Option.Rel (Value.Braced c frames) (s.lookupAt? env d x)
      (s'.lookupAt? env' (around.shift d) x) := by
  unfold Store.lookupAt?
  exact rel_elim (h.holderAt? henv d x) .none fun _ _ hf => h.values hf x

/-- A global is found in the same frame. -/
theorem holder?_globals_eq (x : String) :
    s'.holder? Machine.globals x = s.holder? Machine.globals x := by
  unfold holder? Machine.globals
  simp only [List.find?_singleton, h.holds_eq h.globals]

/-- What is read from a global corresponds. -/
theorem lookup?_globals (x : String) :
    Option.Rel (Value.Braced c frames) (s.lookup? Machine.globals x)
      (s'.lookup? Machine.globals x) := by
  unfold Store.lookup?
  rw [h.holder?_globals_eq]
  cases hf : s.holder? Machine.globals x with
  | none => exact .none
  | some f =>
    cases Store.Like.eq_zero_of_holder?_globals hf
    exact h.values h.globals x

end Store.Braced

end

/-! ### Machines -/

/-- Machines that stand for each other, inside of scopes that are extra or not. The environment of
    the first one is `env`. -/
structure Machine.Braced (c : Bracing) (frames : List FrameId) (around : Around) (env : Env)
    (m m' : Machine) : Prop where
  store : Store.Braced c frames m.store m'.store
  env_eq : m.env = env
  env : Env.Braced frames around env m'.env
  depths : ∀ {around id}, c.node around id → m'.depths[id]? = m.depths[id]?.map around.shift
  declares : ∀ {around}, c.declares around → around.Plain
  sink : m'.sink = m.sink
  callDepth : m'.callDepth = m.callDepth
  natives : m'.natives = m.natives
  outward : ∀ (i : Nat) native, m.natives[i]? = some native → native.Outward
  nextId : m'.nextId = m.nextId
  ticks : m'.ticks = m.ticks

section

variable {c : Bracing} {frames : List FrameId} {around outer : Around} {env env' : Env}
  {m m' : Machine} {v v' : Value}

namespace Machine.Braced

variable (h : Machine.Braced c frames around env m m')

include h

/-- `Store.Braced.define` in a machine. -/
theorem defineIn {f f' : FrameId} (hf : frames[f]? = some f') (hv : Value.Braced c frames v v')
    (x : String) :
    Machine.Braced c frames around env (m.defineIn f x v) (m'.defineIn f' x v') :=
  { h with store := h.store.define hf hv x }

/-- A variable of the innermost scope, which is not extra. -/
theorem define (hd : c.declares around) (hv : Value.Braced c frames v v') (x : String) :
    Machine.Braced c frames around env (m.define x v) (m'.define x v') := by
  have henv := h.env
  rw [← h.env_eq] at henv
  unfold Machine.define
  obtain ⟨hempty, hempty'⟩ | ⟨f, rest, f', rest', hcons, hcons', hf⟩ :=
    henv.exists_head (h.declares hd)
  · rw [hempty, hempty']
    exact h
  · rw [hcons, hcons']
    exact h.defineIn hf hv x

/-- New functions get the same number. -/
theorem newFunction {f f' : Closure} (hf : Closure.Braced c frames f f') :
    Value.Braced c frames (m.newFunction f).1 (m'.newFunction f').1 ∧
      Machine.Braced c frames around env (m.newFunction f).2 (m'.newFunction f').2 := by
  unfold Machine.newFunction
  rw [h.nextId]
  exact ⟨.function hf, { h with nextId := rfl }⟩

/-- New classes get the same number. -/
theorem newClass {k k' : Class} (hk : Class.Braced c frames k k') :
    Value.Braced c frames (m.newClass k).1 (m'.newClass k').1 ∧
      Machine.Braced c frames around env (m.newClass k).2 (m'.newClass k').2 := by
  unfold Machine.newClass
  rw [h.nextId]
  exact ⟨.classObj hk, { h with nextId := rfl }⟩

/-- New frames that stand for each other. -/
theorem newFrame {vars vars' : List (String × Value)}
    (hvars : List.Forall₂ (fun p p' => p'.1 = p.1 ∧ Value.Braced c frames p.2 p'.2) vars vars') :
    ∃ frames', frames <+: frames' ∧
      frames'[(m.newFrame vars).1]? = some (m'.newFrame vars').1 ∧
      Machine.Braced c frames' around env (m.newFrame vars).2 (m'.newFrame vars').2 := by
  have hp : frames <+: frames ++ [m'.store.frames.size] := List.prefix_append _ _
  have hf : (frames ++ [m'.store.frames.size])[m.store.frames.size]? =
      some m'.store.frames.size := by
    rw [h.store.size]
    exact List.getElem?_concat_length
  rw [newFrame_eq, newFrame_eq]
  refine ⟨_, hp, hf, { h with env := h.env.mono hp, store := ?_ }⟩
  exact h.store.newFrame.defineAll hf (hvars.imp fun _ _ hp' => ⟨hp'.1, hp'.2.mono hp⟩)

/-- A frame for an extra scope. -/
theorem extraFrame :
    Machine.Braced c frames (true :: around) env m
      { (m'.newFrame []).2 with env := (m'.newFrame []).1 :: m'.env } :=
  { h with store := h.store.extraFrame, env := .extra trivial h.env }

/-- A method is bound in a frame of its own. -/
theorem bindMethod {f f' : Closure} (hinit : f'.isInitializer = f.isInitializer)
    (henv : Env.Braced frames outer f.env f'.env)
    (hcode : FunDecl.Braced c (false :: outer) f.decl f'.decl) (hv : Value.Braced c frames v v') :
    ∃ frames', frames <+: frames' ∧
      Closure.Braced c frames' (m.bindMethod f v).1 (m'.bindMethod f' v').1 ∧
      Machine.Braced c frames' around env (m.bindMethod f v).2 (m'.bindMethod f' v').2 := by
  obtain ⟨frames', hp, hf, hm⟩ := h.newFrame (.cons ⟨rfl, hv⟩ .nil : List.Forall₂ _
    [("this", v)] [("this", v')])
  refine ⟨frames', hp, ⟨hinit, false :: outer, ?_, hcode, fun _ => Around.plain_false outer⟩, hm⟩
  exact .pair hf (henv.mono hp)

/-- Another environment is current. -/
theorem leave {env₁ env₁' : Env} (henv : Env.Braced frames outer env₁ env₁') :
    Machine.Braced c frames outer env₁ { m with env := env₁ } { m' with env := env₁' } :=
  { h with env_eq := rfl, env := henv }

/-- The second machine leaves an extra scope. -/
theorem leaveExtra (henv : Env.Braced frames outer env env') :
    Machine.Braced c frames outer env m { m' with env := env' } :=
  { h with env := henv }

/-- A call is left. -/
theorem leaveCall {env₁ env₁' : Env} (henv : Env.Braced frames outer env₁ env₁') :
    Machine.Braced c frames outer env₁ { m with env := env₁, callDepth := m.callDepth - 1 }
      { m' with env := env₁', callDepth := m'.callDepth - 1 } :=
  { h with env_eq := rfl, env := henv, callDepth := congrArg (· - 1) h.callDepth }

/-- A function that is made in the current environment. -/
theorem closure {f f' : FunDecl} (hf : FunDecl.Braced c around f f') :
    Closure.Braced c frames ⟨f, m.env, false⟩ ⟨f', m'.env, false⟩ :=
  ⟨rfl, around, h.env_eq ▸ h.env, hf, nofun⟩

/-- A class that is declared in the current environment. -/
theorem cls {name : String} {fs fs' : List FunDecl}
    (hfs : Node.Braced c (false :: around) (.functions fs) (.functions fs')) :
    Class.Braced c frames ⟨name, fs, m.env⟩ ⟨name, fs', m'.env⟩ :=
  ⟨rfl, around, h.env_eq ▸ h.env, hfs⟩

end Machine.Braced

end

/-! ### What is left to do -/

variable (c : Bracing) (frames : List FrameId) in
mutual

/-- Continuations that stand for each other, inside of scopes that are extra or not; when the first
    one goes on, `env` is current. At the end no scope is open. -/
inductive ExprCont.Braced : Around → Env → ExprCont → ExprCont → Prop
  | done {env} : ExprCont.Braced [] env .done .done
  | assign {around env id name k k'} (h : c.node around id) (hk : ExprCont.Braced around env k k') :
      ExprCont.Braced around env (.assign id name k) (.assign id name k')
  | unary {around env op k k'} (hk : ExprCont.Braced around env k k') :
      ExprCont.Braced around env (.unary op k) (.unary op k')
  | left {around env op e e' k k'} (he : Node.Braced c around (.expr e) (.expr e'))
      (hk : ExprCont.Braced around env k k') :
      ExprCont.Braced around env (.left op e k) (.left op e' k')
  | right {around env op v v' k k'} (hv : Value.Braced c frames v v')
      (hk : ExprCont.Braced around env k k') :
      ExprCont.Braced around env (.right v op k) (.right v' op k')
  | logical {around env op e e' k k'} (he : Node.Braced c around (.expr e) (.expr e'))
      (hk : ExprCont.Braced around env k k') :
      ExprCont.Braced around env (.logical op e k) (.logical op e' k')
  | choose {around env a a' b b' k k'} (ha : Node.Braced c around (.expr a) (.expr a'))
      (hb : Node.Braced c around (.expr b) (.expr b')) (hk : ExprCont.Braced around env k k') :
      ExprCont.Braced around env (.choose a b k) (.choose a' b' k')
  | callee {around env paren es es' k k'} (hes : Node.Braced c around (.exprs es) (.exprs es'))
      (hk : ExprCont.Braced around env k k') :
      ExprCont.Braced around env (.callee paren es k) (.callee paren es' k')
  | argument {around env paren v v' before before' es es' k k'} (hv : Value.Braced c frames v v')
      (hbefore : List.Forall₂ (Value.Braced c frames) before before')
      (hes : Node.Braced c around (.exprs es) (.exprs es')) (hk : ExprCont.Braced around env k k') :
      ExprCont.Braced around env (.argument v paren before es k) (.argument v' paren before' es' k')
  | property {around env name k k'} (hk : ExprCont.Braced around env k k') :
      ExprCont.Braced around env (.property name k) (.property name k')
  | fieldOwner {around env name e e' k k'} (he : Node.Braced c around (.expr e) (.expr e'))
      (hk : ExprCont.Braced around env k k') :
      ExprCont.Braced around env (.fieldOwner name e k) (.fieldOwner name e' k')
  | fieldValue {around env id name k k'} (hk : ExprCont.Braced around env k k') :
      ExprCont.Braced around env (.fieldValue id name k) (.fieldValue id name k')
  | construct {around env v v' k k'} (hv : Value.Braced c frames v v')
      (hk : ExprCont.Braced around env k k') :
      ExprCont.Braced around env (.construct v k) (.construct v' k')
  | discard {around env k k'} (hk : StmtCont.Braced around env k k') :
      ExprCont.Braced around env (.discard k) (.discard k')
  | print {around env k k'} (hk : StmtCont.Braced around env k k') :
      ExprCont.Braced around env (.print k) (.print k')
  | define {around env name k k'} (hd : c.declares around) (hk : StmtCont.Braced around env k k') :
      ExprCont.Braced around env (.define name k) (.define name k')
  | branch {around env a a' k k'} (ha : Node.Braced c around (.stmt a) (.stmt a'))
      (hk : StmtCont.Braced around env k k') :
      ExprCont.Braced around env (.branch a none k) (.branch a' none k')
  | branchElse {around env a a' b b' k k'} (ha : Node.Braced c around (.stmt a) (.stmt a'))
      (hb : Node.Braced c around (.stmt b) (.stmt b')) (hk : StmtCont.Braced around env k k') :
      ExprCont.Braced around env (.branch a (some b) k) (.branch a' (some b') k')
  | test {around env e e' a a' k k'} (he : Node.Braced c around (.expr e) (.expr e'))
      (ha : Node.Braced c around (.stmt a) (.stmt a')) (hk : StmtCont.Braced around env k k') :
      ExprCont.Braced around env (.test e a k) (.test e' a' k')
  | ret {around env k k'} (hk : StmtCont.Braced around env k k') :
      ExprCont.Braced around env (.ret k) (.ret k')

inductive StmtCont.Braced : Around → Env → StmtCont → StmtCont → Prop
  | done {env} : StmtCont.Braced [] env .done .done
  | sequence {around env ss ss' k k'} (hss : Node.Braced c around (.stmts ss) (.stmts ss'))
      (hk : StmtCont.Braced around env k k') :
      StmtCont.Braced around env (.sequence ss k) (.sequence ss' k')
  | leaveBlock {around outer env env₁ env₁' k k'} (henv : Env.Braced frames outer env₁ env₁')
      (hk : StmtCont.Braced outer env₁ k k') :
      StmtCont.Braced around env (.leaveBlock env₁ k) (.leaveBlock env₁' k')
  | again {around env e e' a a' k k'} (he : Node.Braced c around (.expr e) (.expr e'))
      (ha : Node.Braced c around (.stmt a) (.stmt a')) (hk : StmtCont.Braced around env k k') :
      StmtCont.Braced around env (.again e a k) (.again e' a' k')
  | leaveCall {around outer env env₁ env₁' f f' k k'} (henv : Env.Braced frames outer env₁ env₁')
      (hf : Closure.Braced c frames f f') (hk : ExprCont.Braced outer env₁ k k') :
      StmtCont.Braced around env (.leaveCall env₁ f k) (.leaveCall env₁' f' k')
  /-- The statement of an extra block was its last one. -/
  | ended {around env k k'} (hk : StmtCont.Braced around env k k') :
      StmtCont.Braced around env k (.sequence [] k')
  /-- The extra block is left; the first run has no scope to leave. -/
  | unbrace {around env env' k k'} (henv : Env.Braced frames around env env')
      (hk : StmtCont.Braced around env k k') :
      StmtCont.Braced (true :: around) env k (.leaveBlock env' k')

end

mutual

/-- What is left to do stays as it is when frames are added. -/
theorem ExprCont.Braced.mono {c : Bracing} {frames frames' : List FrameId} {around : Around}
    {env : Env} {k k' : ExprCont} (hp : frames <+: frames') :
    ExprCont.Braced c frames around env k k' → ExprCont.Braced c frames' around env k k'
  | .done => .done
  | .assign h hk => .assign h (hk.mono hp)
  | .unary hk => .unary (hk.mono hp)
  | .left he hk => .left he (hk.mono hp)
  | .right hv hk => .right (hv.mono hp) (hk.mono hp)
  | .logical he hk => .logical he (hk.mono hp)
  | .choose ha hb hk => .choose ha hb (hk.mono hp)
  | .callee hes hk => .callee hes (hk.mono hp)
  | .argument hv hbefore hes hk =>
    .argument (hv.mono hp) (hbefore.imp fun _ _ h => h.mono hp) hes (hk.mono hp)
  | .property hk => .property (hk.mono hp)
  | .fieldOwner he hk => .fieldOwner he (hk.mono hp)
  | .fieldValue hk => .fieldValue (hk.mono hp)
  | .construct hv hk => .construct (hv.mono hp) (hk.mono hp)
  | .discard hk => .discard (hk.mono hp)
  | .print hk => .print (hk.mono hp)
  | .define hd hk => .define hd (hk.mono hp)
  | .branch ha hk => .branch ha (hk.mono hp)
  | .branchElse ha hb hk => .branchElse ha hb (hk.mono hp)
  | .test he ha hk => .test he ha (hk.mono hp)
  | .ret hk => .ret (hk.mono hp)

theorem StmtCont.Braced.mono {c : Bracing} {frames frames' : List FrameId} {around : Around}
    {env : Env} {k k' : StmtCont} (hp : frames <+: frames') :
    StmtCont.Braced c frames around env k k' → StmtCont.Braced c frames' around env k k'
  | .done => .done
  | .sequence hss hk => .sequence hss (hk.mono hp)
  | .leaveBlock henv hk => .leaveBlock (henv.mono hp) (hk.mono hp)
  | .again he ha hk => .again he ha (hk.mono hp)
  | .leaveCall henv hf hk => .leaveCall (henv.mono hp) (hf.mono hp) (hk.mono hp)
  | .ended hk => .ended (hk.mono hp)
  | .unbrace henv hk => .unbrace (henv.mono hp) (hk.mono hp)

end

mutual

/-- After an error no scope is open. -/
theorem ExprCont.Braced.unwind {c : Bracing} {frames : List FrameId} {around : Around} {env : Env}
    {k k' : ExprCont} {m m' : Machine} :
    ExprCont.Braced c frames around env k k' → Machine.Braced c frames around env m m' →
      ∃ env', Machine.Braced c frames [] env' (k.unwind m) (k'.unwind m')
  | .done, hm => ⟨_, hm⟩
  | .assign _ hk, hm | .unary hk, hm | .left _ hk, hm | .right _ hk, hm | .logical _ hk, hm
  | .choose _ _ hk, hm | .callee _ hk, hm | .argument _ _ _ hk, hm | .property hk, hm
  | .fieldOwner _ hk, hm | .fieldValue hk, hm | .construct _ hk, hm => hk.unwind hm
  | .discard hk, hm | .print hk, hm | .define _ hk, hm | .branch _ hk, hm | .branchElse _ _ hk, hm
  | .test _ _ hk, hm | .ret hk, hm => hk.unwind hm

theorem StmtCont.Braced.unwind {c : Bracing} {frames : List FrameId} {around : Around} {env : Env}
    {k k' : StmtCont} {m m' : Machine} :
    StmtCont.Braced c frames around env k k' → Machine.Braced c frames around env m m' →
      ∃ env', Machine.Braced c frames [] env' (k.unwind m) (k'.unwind m')
  | .done, hm => ⟨_, hm⟩
  | .sequence _ hk, hm | .again _ _ hk, hm | .ended hk, hm => hk.unwind hm
  | .leaveBlock henv hk, hm => hk.unwind (hm.leave henv)
  | .leaveCall henv _ hk, hm => hk.unwind (hm.leaveCall henv)
  | .unbrace henv hk, hm => hk.unwind (hm.leaveExtra henv)

end

variable (c : Bracing) (frames : List FrameId) in
/-- Ways in which a statement ended that stand for each other. -/
inductive Flow.Braced : Flow → Flow → Prop
  | normal : Braced .normal .normal
  | returned {v v'} (hv : Value.Braced c frames v v') : Braced (.returned v) (.returned v')

variable (c : Bracing) (frames : List FrameId) in
/-- States that stand for each other. -/
inductive State.Braced : State → State → Prop
  | eval {around env e e' k k' m m'} (he : Node.Braced c around (.expr e) (.expr e'))
      (hk : ExprCont.Braced c frames around env k k')
      (hm : Machine.Braced c frames around env m m') :
      Braced (.eval e k m) (.eval e' k' m')
  | exec {around env s s' k k' m m'} (hs : Node.Braced c around (.stmt s) (.stmt s'))
      (hk : StmtCont.Braced c frames around env k k')
      (hm : Machine.Braced c frames around env m m') :
      Braced (.exec s k m) (.exec s' k' m')
  /-- An extra block was entered, and its first statement comes next. -/
  | entered {around env s s' ss' k k' m m'} (hs : Node.Braced c around (.stmt s) (.stmt s'))
      (hk : StmtCont.Braced c frames around env k (.sequence ss' k'))
      (hm : Machine.Braced c frames around env m m') :
      Braced (.exec s k m) (.flow .normal (.sequence (s' :: ss') k') m')
  | value {around env v v' k k' m m'} (hv : Value.Braced c frames v v')
      (hk : ExprCont.Braced c frames around env k k')
      (hm : Machine.Braced c frames around env m m') :
      Braced (.value v k m) (.value v' k' m')
  | flow {around env f f' k k' m m'} (hf : Flow.Braced c frames f f')
      (hk : StmtCont.Braced c frames around env k k')
      (hm : Machine.Braced c frames around env m m') :
      Braced (.flow f k m) (.flow f' k' m')
  | failed {env e m m'} (hm : Machine.Braced c frames [] env m m') :
      Braced (.failed e m) (.failed e m')
  | desync {around env d m m'} (hm : Machine.Braced c frames around env m m') :
      Braced (.desync d m) (.desync d m')

end Scriptlet
