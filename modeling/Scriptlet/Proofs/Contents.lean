import Scriptlet.Proofs.Restoration

namespace Scriptlet

/-!
# The trees that a run comes across

A run evaluates and executes parts of programs that it was given, and what it stores refers to
such parts only. So whatever holds of those programs and is handed down from a tree to its parts
holds of every tree that a run comes across.

* `Node.HandsDown P` — with a tree, its parts satisfy `P`, too.
* `Value.Trees P`, `Machine.Trees P` — all functions and classes in a value, or in a store, consist
  of trees that satisfy `P`.
* `State.running?` — the innermost function that is running.
* `Corpus` — trees to keep to, each in the function that runs it; `Corpus.all` is the case in which
  the function does not matter.
* `ExprCont.Trees C`, `State.Trees C` — the code at hand and the code that is left are in `C`.
* `State.Trees.step`, `State.Trees.steps` — steps keep that.
* `Session.After.trees`, `Session.Moment.trees` — so do sessions.
-/

/-- What holds of a tree holds of its parts. -/
def Node.HandsDown (P : Node → Prop) : Prop := ∀ n, P n → ∀ part ∈ n.children, P part

/-! ### Values and machines -/

/-- The kind of body that a function has. -/
def Closure.kind (c : Closure) : Body := if c.isInitializer then .initializer else .function

/-- The function satisfies `P`. -/
def Closure.Trees (P : Node → Prop) (c : Closure) : Prop := P (.function c.kind c.decl)

/-- The methods of the class satisfy `P`. -/
def Class.Trees (P : Node → Prop) (cls : Class) : Prop := P (.functions cls.methods)

/-- A function, or the methods of a class, satisfy `P`; other values refer to no tree. -/
def Value.Trees (P : Node → Prop) : Value → Prop
  | .function _ closure => closure.Trees P
  | .classObj _ cls => cls.Trees P
  | .object _ cls => cls.Trees P
  | _ => True

/-- Everything that is stored satisfies `P`, and functions of the host bring in nothing else. -/
structure Machine.Trees (P : Node → Prop) (m : Machine) : Prop where
  frames : ∀ f x v, m.store.get? f x = some v → v.Trees P
  fields : ∀ (id : ObjectId) (x : String) (v : Value),
    (m.store.fields id)[x]? = some v → v.Trees P
  natives : ∀ n ∈ m.natives, n.Honest

section Machines

variable {P : Node → Prop} {m m' : Machine} {v : Value}

/-- Plain values refer to no tree. -/
theorem Value.Trees.of_isPlain (h : v.isPlain = true) : v.Trees P := by
  cases v with
  | nil | bool | number | string => trivial
  | native | function | classObj | object => cases h

/-- One of some functions. -/
theorem Node.HandsDown.method (hP : Node.HandsDown P) {decls : List FunDecl}
    (h : P (.functions decls)) {decl : FunDecl} (hd : decl ∈ decls) :
    P (.function (Walk.methodBody decl) decl) := by
  induction decls with
  | nil => exact absurd hd List.not_mem_nil
  | cons first decls ih =>
    obtain rfl | hd := List.mem_cons.1 hd
    · exact hP _ h _ (List.mem_cons_self)
    · exact ih (hP _ h _ (.tail _ (.head _))) hd

/-- A method that is found in a class satisfies `P`, whatever it is bound to. -/
theorem Class.Trees.method (hP : Node.HandsDown P) {cls : Class} (h : cls.Trees P) {x : String}
    {method : Closure} (hmethod : cls.method? x = some method) (env : Env) :
    Closure.Trees P { method with env } := by
  obtain ⟨decl, hdecl, rfl⟩ := Option.map_eq_some_iff.1 hmethod
  exact hP.method h (List.mem_reverse.1 (List.mem_of_find?_eq_some hdecl))

namespace Machine.Trees

variable (hm : m.Trees P)

include hm

/-- A part of a machine that holds no values may change. -/
theorem congr (hs : m'.store = m.store) (hn : m'.natives = m.natives) : m'.Trees P := by
  obtain ⟨hframes, hfields, hnatives⟩ := hm
  refine ⟨?_, ?_, ?_⟩
  · rw [hs]; exact hframes
  · rw [hs]; exact hfields
  · rw [hn]; exact hnatives

/-- `Store.defineIn` stores a value at hand. -/
theorem defineIn (hv : v.Trees P) (f : FrameId) (x : String) : (m.defineIn f x v).Trees P := by
  refine ⟨fun g y w hw => ?_, hm.fields, hm.natives⟩
  obtain rfl | hw := Store.eq_or_get?_of_define hw
  · exact hv
  · exact hm.frames g y w hw

/-- `Store.define` stores a value at hand in the innermost frame. -/
theorem define (hv : v.Trees P) (x : String) : (m.define x v).Trees P := by
  unfold Machine.define
  split
  · exact hm
  · exact hm.defineIn hv _ x

/-- A new frame holds values at hand. -/
theorem newFrame {vars : List (String × Value)}
    (hvars : ∀ v ∈ vars.map Prod.snd, v.Trees P) : (m.newFrame vars).2.Trees P := by
  rw [Machine.newFrame_eq]
  refine ⟨fun f x w hw => ?_, fun id x w hw => ?_, hm.natives⟩
  · obtain hmem | hw := Store.mem_or_get?_of_defineAll hw
    · exact hvars w hmem
    · rw [Store.get?_newFrame] at hw
      exact hm.frames f x w hw
  · rw [Store.fields_defineAll, Store.fields_newFrame] at hw
    exact hm.fields id x w hw

/-- A new object has no field, so it holds nothing. -/
theorem newObject : Machine.Trees P { m with store := m.store.newObject.2 } := by
  refine ⟨hm.frames, fun id x w hw => ?_, hm.natives⟩
  rw [Store.fields_newObject] at hw
  exact hm.fields id x w hw

/-- `Store.setField` stores a value at hand. -/
theorem setField (hv : v.Trees P) (id : ObjectId) (x : String) :
    Machine.Trees P { m with store := m.store.setField id x v } := by
  refine ⟨hm.frames, fun id' y w hw => ?_, hm.natives⟩
  obtain rfl | hw := Store.eq_or_fields_of_setField hw
  · exact hv
  · exact hm.fields id' y w hw

/-- After an error in an expression the store is as it was. -/
theorem unwindExpr (k : ExprCont) : (k.unwind m).Trees P := by
  rw [k.unwind_eq_left]
  exact hm.congr rfl rfl

/-- After an error in a statement the store is as it was. -/
theorem unwindStmt (k : StmtCont) : (k.unwind m).Trees P := by
  rw [k.unwind_eq_left]
  exact hm.congr rfl rfl

end Machine.Trees

end Machines

/-! ### The function that is running -/

mutual

/-- The innermost of the functions that end in what is left to be done. -/
def ExprCont.running? : ExprCont → Option Closure
  | .done => none
  | .assign _ _ k | .unary _ k | .left _ _ k | .right _ _ k | .logical _ _ k | .choose _ _ k
  | .callee _ _ k | .argument _ _ _ _ k | .property _ k | .fieldOwner _ _ k | .fieldValue _ _ k
  | .construct _ k => k.running?
  | .discard k | .print k | .define _ k | .branch _ _ k | .test _ _ k | .ret k => k.running?

/-- The innermost of the functions that end in what is left to be done. -/
def StmtCont.running? : StmtCont → Option Closure
  | .done => none
  | .sequence _ k | .leaveBlock _ k | .again _ _ k => k.running?
  | .leaveCall _ callee _ => some callee

end

/-- The innermost function that is running; none, if the program itself is. -/
def State.running? : State → Option Closure
  | .eval _ k _ | .value _ k _ => k.running?
  | .exec _ k _ | .flow _ k _ => k.running?
  | .failed _ _ | .desync _ _ => none

/-! ### Trees to keep to -/

/-- Everything but functions: what is run in the function that it stands in. -/
def Node.isCode : Node → Bool
  | .function _ _ | .functions _ => false
  | _ => true

/-- Trees to keep to, and what a `return` may take with it. -/
structure Corpus where
  known : Node → Prop
  /-- Trees that the function may run, or the program if there is none. -/
  inside : Option Closure → Node → Prop
  /-- Values that may be returned by the function. -/
  returned : Option Closure → Value → Prop
  handsDown : Node.HandsDown known
  known_of_inside {c n} : inside c n → known n
  part {c n part} : inside c n → n.isCode = true → part ∈ n.children → inside c part
  /-- Functions may run their bodies. -/
  body {c : Closure} : known (.function c.kind c.decl) → inside (some c) (.stmts c.decl.body)
  ret {c keyword} : inside c (.stmt (.ret keyword none)) → returned c .nil
  retValue {c keyword e} (v : Value) : inside c (.stmt (.ret keyword (some e))) → returned c v

/-- All trees that satisfy `P`, in whatever function. -/
abbrev Corpus.all {P : Node → Prop} (hP : Node.HandsDown P) : Corpus where
  known := P
  inside _ := P
  returned _ _ := True
  handsDown := hP
  known_of_inside h := h
  part h _ hpart := hP _ h _ hpart
  body h := hP _ h _ (List.mem_singleton_self _)
  ret _ := trivial
  retValue _ _ := trivial

/-- An argument behind those that were evaluated. -/
theorem Corpus.argument (C : Corpus) {c : Option Closure} {es after : List Expr} {e : Expr}
    (h : C.inside c (.exprs (es ++ e :: after))) : C.inside c (.expr e) := by
  induction es with
  | nil => exact C.part h rfl List.mem_cons_self
  | cons _ es ih => exact ih (C.part h rfl (.tail _ (.head _)))

/-! ### Continuations and states -/

mutual

/-- What is left to be done belongs to trees in `C`. Where a part of the tree is done with, some
    other one may stand in its place. -/
def ExprCont.Trees (C : Corpus) : ExprCont → Prop
  | .done => True
  | .assign id name k => (∃ e, C.inside k.running? (.expr (.assign id name e))) ∧ k.Trees C
  | .unary op k => (∃ e, C.inside k.running? (.expr (.unary op e))) ∧ k.Trees C
  | .left op right k => (∃ e, C.inside k.running? (.expr (.binary e op right))) ∧ k.Trees C
  | .right first op k =>
    first.Trees C.known ∧ (∃ a b, C.inside k.running? (.expr (.binary a op b))) ∧ k.Trees C
  | .logical op right k => (∃ e, C.inside k.running? (.expr (.logical e op right))) ∧ k.Trees C
  | .choose whenTrue whenFalse k =>
    (∃ c q, C.inside k.running? (.expr (.conditional c q whenTrue whenFalse))) ∧ k.Trees C
  | .callee paren arguments k =>
    (∃ e, C.inside k.running? (.expr (.call e paren arguments))) ∧ k.Trees C
  | .argument callee paren before after k =>
    callee.Trees C.known ∧ (∀ v ∈ before, v.Trees C.known) ∧
      (∃ e es, es.length = before.length + 1 ∧
        C.inside k.running? (.expr (.call e paren (es ++ after)))) ∧ k.Trees C
  | .property name k => (∃ e, C.inside k.running? (.expr (.get e name))) ∧ k.Trees C
  | .fieldOwner name value k =>
    (∃ e, C.inside k.running? (.expr (.set e name value))) ∧ k.Trees C
  | .fieldValue _ name k => (∃ a b, C.inside k.running? (.expr (.set a name b))) ∧ k.Trees C
  | .construct object k => object.Trees C.known ∧ k.Trees C
  | .discard k => k.Trees C
  | .print k => k.Trees C
  | .define name k => (∃ e, C.inside k.running? (.stmt (.varDecl name (some e)))) ∧ k.Trees C
  | .branch whenTrue whenFalse k =>
    (∃ c, C.inside k.running? (.stmt (.ifElse c whenTrue whenFalse))) ∧ k.Trees C
  | .test condition body k => C.inside k.running? (.stmt (.whileLoop condition body)) ∧ k.Trees C
  | .ret k => (∃ keyword e, C.inside k.running? (.stmt (.ret keyword (some e)))) ∧ k.Trees C

/-- What is left to be done belongs to trees in `C`. -/
def StmtCont.Trees (C : Corpus) : StmtCont → Prop
  | .done => True
  | .sequence rest k => C.inside k.running? (.stmts rest) ∧ k.Trees C
  | .leaveBlock _ k => k.Trees C
  | .again condition body k => C.inside k.running? (.stmt (.whileLoop condition body)) ∧ k.Trees C
  | .leaveCall _ _ k => k.Trees C

end

/-- A value on its way to the call of a function, if there is one, may be returned by it. -/
def Flow.Trees (C : Corpus) (c : Option Closure) : Flow → Prop
  | .normal => True
  | .returned v => v.Trees C.known ∧ C.returned c v

/-- The code at hand, what is left to be done, and everything stored belong to trees in `C`. -/
def State.Trees (C : Corpus) : State → Prop
  | .eval e k m => m.Trees C.known ∧ C.inside k.running? (.expr e) ∧ k.Trees C
  | .exec s k m => m.Trees C.known ∧ C.inside k.running? (.stmt s) ∧ k.Trees C
  | .value v k m => m.Trees C.known ∧ v.Trees C.known ∧ k.Trees C
  | .flow f k m => m.Trees C.known ∧ f.Trees C k.running? ∧ k.Trees C
  | .failed _ m => m.Trees C.known
  | .desync _ m => m.Trees C.known

/-- Whatever the state, its machine is the same kind. -/
theorem State.Trees.machine {C : Corpus} {t : State} (ht : t.Trees C) :
    t.machine.Trees C.known := by
  cases t with
  | eval | exec | value | flow => exact ht.1
  | failed | desync => exact ht

/-! ### Steps -/

namespace Step

variable {C : Corpus} {host : Host} {m : Machine} {k : ExprCont}

variable (hm : m.Trees C.known)

include hm

variable {v object : Value} {cls : Class} {callee : Closure} {arguments : List Value} {e : Expr}
  {f : Flow}

/-- An operator yields a value, or fails. -/
theorem trees_operatorResult (hk : k.Trees C) (op : Token)
    {r : Except RuntimeFault Value} (hr : ∀ v, r = .ok v → v.Trees C.known) :
    (operatorResult op r k m).Trees C := by
  cases r with
  | ok v => exact ⟨hm, hr v rfl, hk⟩
  | error fault => exact hm.unwindExpr k

/-- What a variable holds is stored. -/
theorem trees_readVariable (hk : k.Trees C) (id : NodeId) (name : Token) :
    (readVariable id name k m).Trees C := by
  -- What is found stands in some frame.
  have hfound {o : Option FrameId} {v : Value}
      (h : o.bind (m.store.get? · name.lexeme) = some v) : v.Trees C.known := by
    obtain ⟨f, -, hget⟩ := Option.bind_eq_some_iff.1 h
    exact hm.frames f _ v hget
  unfold readVariable
  split
  · split
    · next hv => exact ⟨hm, hfound hv, hk⟩
    · exact hm
  · split
    · next hv => exact ⟨hm, hfound hv, hk⟩
    · exact hm.unwindExpr k

/-- What is written is the value at hand. -/
theorem trees_writeVariable (hk : k.Trees C) (id : NodeId) (name : Token) (hv : v.Trees C.known) :
    (writeVariable id name v k m).Trees C := by
  rw [writeVariable_eq]
  split
  · split
    · exact ⟨hm.defineIn hv _ _, hv, hk⟩
    · exact hm
  · split
    · exact ⟨hm.defineIn hv _ _, hv, hk⟩
    · exact hm.unwindExpr k

/-- A bound method is one of the class, and its frame holds the object. -/
theorem trees_bindMethod (hcls : cls.Trees C.known) {x : String} {method : Closure}
    (hmethod : cls.method? x = some method) (hobject : object.Trees C.known) :
    (m.bindMethod method object).1.Trees C.known ∧
      (m.bindMethod method object).2.Trees C.known := by
  refine ⟨hcls.method C.handsDown hmethod _, hm.newFrame fun v hv => ?_⟩
  cases List.mem_singleton.1 hv
  exact hobject

/-- A property is a field, which is stored, or a method. -/
theorem trees_readProperty (hk : k.Trees C) (hobject : object.Trees C.known) (name : Token) :
    (readProperty object name k m).Trees C := by
  unfold readProperty
  split
  · split
    · next hv => exact ⟨hm, hm.fields _ _ _ hv, hk⟩
    · split
      · next hmethod =>
        obtain ⟨hbound, hm'⟩ := trees_bindMethod hm hobject hmethod hobject
        exact ⟨hm'.congr rfl rfl, hbound, hk⟩
      · exact hm.unwindExpr k
  · exact hm.unwindExpr k

/-- By `Corpus.body`, the body of the function is what it may run. -/
theorem trees_enter (hk : k.Trees C) (hcallee : callee.Trees C.known)
    (harguments : ∀ v ∈ arguments, v.Trees C.known) : (enter callee arguments k m).Trees C := by
  have hframe : (m.newFrame ((callee.decl.params.map (·.lexeme)).zip arguments)).2.Trees
      C.known := by
    apply hm.newFrame
    intro v hv
    obtain ⟨⟨x, v⟩, hmem, rfl⟩ := List.mem_map.1 hv
    exact harguments v (List.of_mem_zip hmem).2
  exact ⟨hframe.congr rfl rfl, trivial, C.body hcallee, hk⟩

/-- A new object has the class at hand. -/
theorem trees_instantiate (hk : k.Trees C) (hcls : cls.Trees C.known)
    (harguments : ∀ v ∈ arguments, v.Trees C.known) : (instantiate cls arguments k m).Trees C := by
  have hobject : Value.Trees C.known (.object m.store.newObject.1 cls) := hcls
  unfold instantiate
  simp only
  split
  · exact ⟨hm.newObject, hobject, hk⟩
  · next hinit =>
    obtain ⟨hbound, hm'⟩ := trees_bindMethod hm.newObject hcls hinit hobject
    have hconstruct : ExprCont.Trees C (.construct (.object m.store.newObject.1 cls) k) :=
      ⟨hobject, hk⟩
    exact trees_enter hm' hconstruct hbound harguments

/-- By `Native.Honest`, a function of the host makes no tree up. -/
theorem trees_callNative (hk : k.Trees C) {native : Native} (hnative : native.Honest)
    (paren : Token) (harguments : ∀ v ∈ arguments, v.Trees C.known) :
    (callNative host native paren arguments k m).Trees C := by
  unfold callNative
  unfold Native.Honest at hnative
  cases haction : native.action with
  | clock => exact ⟨hm.congr rfl rfl, trivial, hk⟩
  | apply f =>
    rw [haction] at hnative
    simp only
    split
    · next v hv =>
      obtain hplain | hmem := hnative arguments v hv
      · exact ⟨hm, .of_isPlain hplain, hk⟩
      · exact ⟨hm, harguments v hmem, hk⟩
    · exact hm.unwindExpr k

/-- What is called is the value at hand. -/
theorem trees_call (hk : k.Trees C) {callee : Value} (hcallee : callee.Trees C.known)
    (paren : Token) (harguments : ∀ v ∈ arguments, v.Trees C.known) :
    (call host callee paren arguments k m).Trees C := by
  unfold call
  split
  · split
    · next hnative =>
      split
      · exact hm.unwindExpr k
      · have hhonest := hm.natives _ (Array.mem_of_getElem? hnative)
        exact trees_callNative hm hk hhonest paren harguments
    · exact hm.unwindExpr k
  · split
    · exact hm.unwindExpr k
    · exact trees_enter hm hk hcallee harguments
  · split
    · exact hm.unwindExpr k
    · exact trees_instantiate hm hk hcallee harguments
  · exact hm.unwindExpr k

/-- The next argument is one of the arguments of the call. -/
theorem trees_nextArgument (hk : k.Trees C) {callee : Value} (hcallee : callee.Trees C.known)
    {paren : Token} {before : List Value} (hbefore : ∀ v ∈ before, v.Trees C.known)
    {es after : List Expr} (hlength : es.length = before.length)
    (hcall : C.inside k.running? (.expr (.call e paren (es ++ after)))) :
    (nextArgument host callee paren before after k m).Trees C := by
  cases after with
  | nil => exact trees_call hm hk hcallee paren fun v hv => hbefore v (List.mem_reverse.1 hv)
  | cons arg after =>
    have harg := C.argument (C.part hcall rfl (.tail _ (.head _)))
    rw [List.append_cons] at hcall
    have hlength' : (es ++ [arg]).length = before.length + 1 := by
      rw [List.length_append, hlength, List.length_singleton]
    exact ⟨hm, harg, hcallee, hbefore, ⟨e, _, hlength', hcall⟩, hk⟩

/-- An expression goes on with its first part, and waits in the continuation. -/
theorem trees_eval (he : C.inside k.running? (.expr e)) (hk : k.Trees C) :
    (Step.eval e k m).Trees C := by
  have first {n : Node} {ns : List Node} (h : (Node.expr e).children = n :: ns) :
      C.inside k.running? n := C.part he rfl (h ▸ List.mem_cons_self)
  cases e with
  | literal l => exact ⟨hm, .of_isPlain (Value.isPlain_ofLiteral l), hk⟩
  | group => exact ⟨hm, first rfl, hk⟩
  | «variable» id name => exact trees_readVariable hm hk id name
  | thisRef id keyword => exact trees_readVariable hm hk id keyword
  | assign | unary | binary | logical | call | get | set => exact ⟨hm, first rfl, ⟨_, he⟩, hk⟩
  | conditional => exact ⟨hm, first rfl, ⟨_, _, he⟩, hk⟩
  | function decl =>
    have hdecl : C.inside k.running? (.function .function decl) := first rfl
    exact ⟨hm.congr rfl rfl, C.known_of_inside hdecl, hk⟩

/-- So does a statement; what it declares is a part of it. -/
theorem trees_exec {s : Stmt} {k : StmtCont}
    (hs : C.inside k.running? (.stmt s)) (hk : k.Trees C) : (Step.exec s k m).Trees C := by
  have first {n : Node} {ns : List Node} (h : (Node.stmt s).children = n :: ns) :
      C.inside k.running? n := C.part hs rfl (h ▸ List.mem_cons_self)
  have hm' : Machine.Trees C.known { m with nextId := m.nextId + 1 } := hm.congr rfl rfl
  cases s with
  | expr | print => exact ⟨hm, first rfl, hk⟩
  | varDecl name e =>
    cases e with
    | none => exact ⟨hm.define (v := .nil) trivial _, trivial, hk⟩
    | some e => exact ⟨hm, first rfl, ⟨e, hs⟩, hk⟩
  | block body =>
    have hframe : (m.newFrame []).2.Trees C.known :=
      hm.newFrame fun v hv => absurd hv List.not_mem_nil
    exact ⟨hframe.congr rfl rfl, trivial, first rfl, hk⟩
  | ifElse c a b =>
    have hc : C.inside k.running? (.expr c) := by cases b <;> exact first rfl
    exact ⟨hm, hc, ⟨c, hs⟩, hk⟩
  | whileLoop c a => exact ⟨hm, first rfl, hs, hk⟩
  | funDecl decl =>
    have hdecl : C.known (.function .function decl) := C.known_of_inside (first rfl)
    exact ⟨hm'.define (v := .function m.nextId ⟨decl, m.env, false⟩) hdecl _, trivial, hk⟩
  | ret keyword e =>
    cases e with
    | none => exact ⟨hm, ⟨trivial, C.ret hs⟩, hk⟩
    | some e => exact ⟨hm, first rfl, ⟨keyword, e, hs⟩, hk⟩
  | classDecl name methods =>
    have hmethods : C.known (.functions methods) := C.known_of_inside (first rfl)
    rw [exec_classDecl]
    exact ⟨(hm'.define (v := .nil) trivial _).define
      (v := .classObj m.nextId ⟨name.lexeme, methods, m.env⟩) hmethods _, trivial, hk⟩

/-- The continuation knows the tree that the value is a part of. -/
theorem trees_resumeValue (hv : v.Trees C.known) (hk : k.Trees C) :
    (resumeValue host v k m).Trees C := by
  cases k with
  | done => exact ⟨hm, hv, hk⟩
  | assign id name k => exact trees_writeVariable hm hk.2 id name hv
  | unary op k =>
    exact trees_operatorResult hm hk.2 op fun r hr => .of_isPlain (Value.isPlain_of_applyUnary hr)
  | left op right k =>
    obtain ⟨⟨e, he⟩, hk⟩ := hk
    exact ⟨hm, C.part he rfl (.tail _ (.head _)), hv, ⟨_, _, he⟩, hk⟩
  | right first op k =>
    refine trees_operatorResult hm hk.2.2 op fun r hr => ?_
    obtain hplain | rfl := Value.isPlain_or_eq_of_applyBinary hr
    · exact .of_isPlain hplain
    · exact hv
  | logical op right k =>
    obtain ⟨⟨e, he⟩, hk⟩ := hk
    show State.Trees C (if v.settles op then .value v k m else .eval right k m)
    split
    · exact ⟨hm, hv, hk⟩
    · exact ⟨hm, C.part he rfl (.tail _ (.head _)), hk⟩
  | choose whenTrue whenFalse k =>
    obtain ⟨⟨c, q, he⟩, hk⟩ := hk
    refine ⟨hm, C.part he rfl ?_, hk⟩
    cases v.isTruthy <;> simp [Node.children]
  | callee paren arguments k =>
    obtain ⟨⟨e, he⟩, hk⟩ := hk
    have hlength : ([] : List Expr).length = ([] : List Value).length := rfl
    exact trees_nextArgument hm hk hv (fun _ hv => absurd hv List.not_mem_nil) hlength he
  | argument callee paren before after k =>
    obtain ⟨hcallee, hbefore, ⟨e, es, hlength, he⟩, hk⟩ := hk
    exact trees_nextArgument hm hk hcallee (List.forall_mem_cons.2 ⟨hv, hbefore⟩) hlength he
  | property name k => exact trees_readProperty hm hk.2 hv name
  | fieldOwner name value k =>
    obtain ⟨⟨e, he⟩, hk⟩ := hk
    cases v with
    | object id cls => exact ⟨hm, C.part he rfl (.tail _ (.head _)), ⟨e, value, he⟩, hk⟩
    | nil | bool | number | string | native | function | classObj => exact hm.unwindExpr k
  | fieldValue object name k => exact ⟨hm.setField hv object name.lexeme, hv, hk.2⟩
  | construct object k => exact ⟨hm, hk.1, hk.2⟩
  | discard k => exact ⟨hm, trivial, hk⟩
  | print k =>
    unfold resumeValue
    simp only
    split
    · exact ⟨hm.congr rfl rfl, trivial, hk⟩
    · have hm' : Machine.Trees C.known { m with sink := (m.sink.write (v.display ++ "\n")).2 } :=
        hm.congr rfl rfl
      exact hm'.unwindStmt k
  | define name k => exact ⟨hm.define hv _, trivial, hk.2⟩
  | branch whenTrue whenFalse k =>
    obtain ⟨⟨c, hs⟩, hk⟩ := hk
    show State.Trees C (if v.isTruthy then .exec whenTrue k m else _)
    cases whenFalse with
    | none =>
      split
      · exact ⟨hm, C.part hs rfl (.tail _ (.head _)), hk⟩
      · exact ⟨hm, trivial, hk⟩
    | some s =>
      split
      · exact ⟨hm, C.part hs rfl (.tail _ (.head _)), hk⟩
      · exact ⟨hm, C.part hs rfl (.tail _ (.tail _ (.head _))), hk⟩
  | test condition body k =>
    show State.Trees C (if v.isTruthy then .exec body (.again condition body k) m
      else .flow .normal k m)
    split
    · exact ⟨hm, C.part hk.1 rfl (.tail _ (.head _)), hk⟩
    · exact ⟨hm, trivial, hk.2⟩
  | ret k =>
    obtain ⟨⟨keyword, e, hs⟩, hk⟩ := hk
    exact ⟨hm, ⟨hv, C.retValue v hs⟩, hk⟩

/-- A call yields the object of an initializer, which is stored, or what it returned. -/
theorem trees_callResult (hk : k.Trees C) (hf : f.Trees C (some callee)) :
    (callResult callee f k m).Trees C := by
  unfold callResult
  split
  · split
    · next v hv =>
      obtain ⟨g, -, hget⟩ := Option.bind_eq_some_iff.1 hv
      exact ⟨hm, hm.frames g _ v hget, hk⟩
    · exact hm
  · cases f with
    | normal => exact ⟨hm, trivial, hk⟩
    | returned v => exact ⟨hm, hf.1, hk⟩

/-- The next statement is a part of the tree that is left. -/
theorem trees_resumeFlow {k : StmtCont} (hf : f.Trees C k.running?) (hk : k.Trees C) :
    (resumeFlow f k m).Trees C := by
  cases k with
  | done => exact ⟨hm, hf, hk⟩
  | sequence rest k =>
    cases f with
    | returned v => exact ⟨hm, hf, hk.2⟩
    | normal =>
      cases rest with
      | nil => exact ⟨hm, trivial, hk.2⟩
      | cons s rest =>
        exact ⟨hm, C.part hk.1 rfl List.mem_cons_self, C.part hk.1 rfl (.tail _ (.head _)), hk.2⟩
  | leaveBlock env k => exact ⟨hm.congr rfl rfl, hf, hk⟩
  | again condition body k =>
    cases f with
    | returned v => exact ⟨hm, hf, hk.2⟩
    | normal => exact ⟨hm, C.part hk.1 rfl List.mem_cons_self, hk⟩
  | leaveCall env callee k =>
    have hm' : Machine.Trees C.known { m with env, callDepth := m.callDepth - 1 } :=
      hm.congr rfl rfl
    exact trees_callResult hm' hk hf

end Step

section Runs

variable {C : Corpus} {host : Host} {t : State}

/-- **Steps keep to the trees at hand.** -/
theorem State.Trees.step (ht : t.Trees C) (host : Host) : (Scriptlet.step host t).Trees C := by
  cases t with
  | eval e k m => exact Step.trees_eval ht.1 ht.2.1 ht.2.2
  | exec s k m => exact Step.trees_exec ht.1 ht.2.1 ht.2.2
  | value v k m => exact Step.trees_resumeValue ht.1 ht.2.1 ht.2.2
  | flow f k m => exact Step.trees_resumeFlow ht.1 ht.2.1 ht.2.2
  | failed | desync => exact ht

/-- Any number of steps. -/
theorem State.Trees.steps (ht : t.Trees C) (host : Host) (n : Nat) :
    ((Scriptlet.step host)^[n] t).Trees C :=
  Function.Iterate.rec (State.Trees C) ht (fun _ h => h.step host) n

/-! ### Programs and sessions -/

variable {m m' : Machine} {alone : Bool} {fuel : Nat}

/-- A statement of a program starts. -/
theorem Machine.Trees.begin (hm : m.Trees C.known) (alone : Bool) {s : Stmt}
    (hs : C.inside none (.stmt s)) : (m.begin alone s).Trees C := by
  unfold Machine.begin
  split
  · exact ⟨hm, C.part hs rfl List.mem_cons_self, trivial⟩
  · exact ⟨hm, hs, trivial⟩

/-- The machine behind a statement. -/
theorem Machine.Trees.finish (hm : m.Trees C.known) {s : Stmt} (hs : C.inside none (.stmt s))
    (hrun : runSteps host fuel (m.begin alone s) = some t) : t.machine.Trees C.known := by
  obtain ⟨rfl, -⟩ := eq_iterate_of_runSteps hrun
  exact ((hm.begin alone hs).steps host fuel).machine

/-- The machine that the next statement starts on. -/
theorem Machine.Trees.goOn (hm : m.Trees C.known) {s : Stmt} (hs : C.inside none (.stmt s))
    (hnext : m.goOn host fuel alone s = some m') : m'.Trees C.known := by
  obtain ⟨t, hrun, rfl, -⟩ := Machine.runSteps_of_goOn hnext
  exact hm.finish hs hrun

/-- Every state of a run, by induction on the statements it has passed. -/
theorem Machine.Passes.trees {ss : List Stmt} {made made' : List Making}
    (ht : Machine.Passes host alone ss m made t made') (hm : m.Trees C.known)
    (hss : C.inside none (.stmts ss)) : t.Trees C := by
  induction ht with
  | now n => exact (hm.begin alone (C.part hss rfl List.mem_cons_self)).steps host n
  | later fuel hnext _ ih =>
    exact ih (hm.goOn (C.part hss rfl List.mem_cons_self) hnext)
      (C.part hss rfl (.tail _ (.head _)))

/-- The last state of a run. -/
theorem Machine.Finishes.trees {ss : List Stmt} (h : m.Finishes host fuel alone ss t)
    (hm : m.Trees C.known) (hss : C.inside none (.stmts ss)) : t.machine.Trees C.known := by
  induction h with
  | nil => exact hm
  | last hrun _ => exact hm.finish (C.part hss rfl List.mem_cons_self) hrun
  | next hnext _ ih =>
    exact ih (hm.goOn (C.part hss rfl List.mem_cons_self) hnext)
      (C.part hss rfl (.tail _ (.head _)))

end Runs

/-- Whatever a request runs satisfies `P`. -/
def Request.Brings (P : Node → Prop) (r : Request) : Prop :=
  ∀ s job, r.job? s = some job → P (.stmts job.statements)

/-- Whatever a request runs is well-formed. -/
theorem Request.brings_formed (r : Request) : r.Brings (Node.Formed Token.Spelled) := by
  intro s job hj
  obtain ⟨source, -, hstatements, -⟩ := Request.job_cases hj
  rw [hstatements]
  exact (s.program_spec source).1.formed

/-- Well-formed trees. -/
abbrev Corpus.formed (T : Token → Prop) : Corpus :=
  .all (P := Node.Formed T) fun _ hn _ hpart => hn.of_mem_children hpart

section Sessions

variable {P : Node → Prop} {C : Corpus} {host : Host} {sink : Sink} {s s' : Session} {r : Request}
  {rs : List Request} {h : History} {t : State} {fuel : Nat}

/-- A function of the host refers to no tree. -/
theorem Machine.Trees.defineNative {m : Machine} (hm : m.Trees P) {native : Native}
    (hnative : native.Honest) : (m.defineNative native).Trees P := by
  obtain ⟨hframes, hfields, -⟩ := hm.defineIn (v := .native m.natives.size) trivial 0 native.name
  refine ⟨hframes, hfields, fun n hn => ?_⟩
  obtain hn | rfl := Array.mem_push.1 hn
  · exact hm.natives n hn
  · exact hnative

/-- Reading a source changes nothing that is stored. -/
theorem Request.trees_job (hs : s.machine.Trees P) {job : Job} (hj : r.job? s = some job) :
    job.machine.Trees P := by
  obtain ⟨source, -, -, hmachine | ⟨-, hmachine⟩⟩ := Request.job_cases hj
  · rw [hmachine]
    exact hs.congr rfl rfl
  · rw [hmachine]
    exact hs

/-- A request that brings only trees of a kind leaves only such trees behind. -/
theorem Request.trees_perform (hs : s.machine.Trees C.known)
    (hbrings : ∀ job, r.job? s = some job → C.inside none (.stmts job.statements))
    (hnative : r.DefinesOnly Native.Honest) {goesOn : Bool}
    (hr : r.perform host fuel s = some (goesOn, s')) :
    s'.machine.Trees C.known := by
  obtain ⟨job, t, source, hj, hfinishes, -, hmachine, -⟩ | ⟨source, -, -, -, rfl⟩ |
    ⟨n, rfl, -, rfl⟩ := Request.perform_cases hr
  · have htrees := hfinishes.trees (Request.trees_job hs hj) (hbrings job hj)
    obtain hmachine | hmachine := hmachine
    · rw [hmachine]
      exact htrees
    · exact htrees.congr (by rw [hmachine]) (by rw [hmachine])
  · exact hs.congr rfl rfl
  · exact hs.defineNative hnative

/-- A new machine holds nothing but the clock. -/
theorem Machine.trees_new (P : Node → Prop) (sink : Sink) : (Machine.new sink).Trees P := by
  refine Machine.Trees.defineNative ?_ trivial
  refine ⟨fun f x v hv => ?_, fun id x v hv => ?_, fun n hn => absurd hn (Array.not_mem_empty n)⟩
  · rw [Store.get?_newFrame] at hv
    cases hv
  · cases hv

/-- **Sessions keep to the trees that requests bring**, between requests. -/
theorem Session.After.trees (hs : Session.After host sink rs s h)
    (hbrings : ∀ r ∈ rs, r.Brings (C.inside none))
    (hnatives : ∀ r ∈ rs, r.DefinesOnly Native.Honest) : s.machine.Trees C.known := by
  induction hs with
  | new => exact Machine.trees_new _ sink
  | next _ hr ih =>
    obtain ⟨hbrings, hlast⟩ := List.forall_mem_append.1 hbrings
    obtain ⟨hnatives, hnative⟩ := List.forall_mem_append.1 hnatives
    exact (Request.trees_perform (ih hbrings hnatives) (List.forall_mem_singleton.1 hlast _)
      (List.forall_mem_singleton.1 hnative) hr).congr rfl rfl

/-- **Sessions keep to the trees that requests bring**, at every moment. -/
theorem Session.Moment.trees (ht : Session.Moment host sink rs t h)
    (hbrings : ∀ r ∈ rs, r.Brings (C.inside none))
    (hnatives : ∀ r ∈ rs, r.DefinesOnly Native.Honest) : t.Trees C := by
  obtain ⟨hs, hj, hp⟩ := ht
  obtain ⟨hbrings, hlast⟩ := List.forall_mem_append.1 hbrings
  have hbefore := hs.trees hbrings (List.forall_mem_append.1 hnatives).1
  exact hp.trees (Request.trees_job hbefore hj) (List.forall_mem_singleton.1 hlast _ _ hj)

end Sessions

end Scriptlet
