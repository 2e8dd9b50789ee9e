import Scriptlet.Proofs.Changes
import Scriptlet.Proofs.Flawless
import Scriptlet.Proofs.Scoping

namespace Scriptlet

/-!
# Local variables are bound once

The walk accepts no scope that declares a name twice, and every run of a scope has a frame of its
own. So a declaration, a parameter or a bound method never finds its variable in place, except
among the globals.

* `Slot` — a place for a variable: a frame and a name.
* `StmtCont.awaits`, `State.awaits` — the slots that the code in progress is still to fill.
* `Store.Vacant` — slots of local frames that differ from each other and are all empty.
* `Store.Admits` — changes that fill empty slots only, and leave others empty.
* `State.Vacant.admits` — so do the changes of a step, if all slots that are awaited are vacant.
* `Session.local_variables_are_new` — in accepted programs, only global variables are bound again.
-/

/-! ### The names of a scope -/

/-- A statement declares one name, or none. -/
theorem Stmt.Formed.length_declared_le {T : Token → Prop} {s : Stmt} (hs : s.Formed T) :
    s.declared.length ≤ 1 := by
  cases s with
  | varDecl | classDecl => exact Nat.le_refl 1
  | funDecl decl =>
    show decl.name?.toList.length ≤ 1
    cases decl.name? <;> simp
  | expr | print | block | ifElse | whileLoop | ret =>
    rw [Stmt.declared_eq_nil hs rfl]
    exact Nat.zero_le 1

namespace Walk.Clean

variable {T : Token → Prop} {w : Walk} {owner : String → Option Token} {outer : Owners}

/-- Names that are introduced without a report differ from each other and from those before. -/
theorem nodup_introduce {names : List Token} (h : (names.foldl introduce w).Clean)
    (hw : w.owners = owner :: outer) :
    (names.map Token.lexeme).Nodup ∧ ∀ t ∈ names, owner t.lexeme = none := by
  induction names generalizing w owner with
  | nil => exact ⟨List.nodup_nil, fun _ ht => absurd ht List.not_mem_nil⟩
  | cons name names ih =>
    have hfirst : (w.introduce name).Clean := h.of_grows (passed_foldl_introduce names _).grows
    have hdeclare : (w.declare name).Clean := hfirst.of_define
    have hw' : (w.introduce name).owners =
        (fun x => if x = name.lexeme then some name else owner x) :: outer := by
      rw [owners_introduce, hw]
      rfl
    obtain ⟨hnodup, hrest⟩ := ih h hw'
    have hne {t : Token} (ht : t ∈ names) : t.lexeme ≠ name.lexeme ∧ owner t.lexeme = none := by
      have hnone := hrest t ht
      split at hnone
      · cases hnone
      · next hne => exact ⟨hne, hnone⟩
    refine ⟨List.nodup_cons.2 ⟨fun hmem => ?_, hnodup⟩,
      List.forall_mem_cons.2 ⟨hdeclare.owner_eq_none hw, fun t ht => (hne ht).2⟩⟩
    obtain ⟨t, ht, heq⟩ := List.mem_map.1 hmem
    exact (hne ht).1 heq

/-- So do the names that statements declare. -/
theorem nodup_stmts {ss : List Stmt} (h : (w.stmts ss).Clean) (hss : Stmt.FormedAll T ss)
    (hw : w.owners = owner :: outer) :
    ((ss.flatMap Stmt.declared).map Token.lexeme).Nodup ∧
      ∀ t ∈ ss.flatMap Stmt.declared, owner t.lexeme = none := by
  refine ⟨?_, fun t ht => ?_⟩
  · have hpairwise := h.pairwise hss hw
    clear h
    induction ss with
    | nil => exact List.nodup_nil
    | cons s ss ih =>
      obtain ⟨hfirst, hpairwise⟩ := List.pairwise_cons.1 hpairwise
      rw [List.flatMap_cons, List.map_append]
      refine List.nodup_append'.2 ⟨?_, ih hss.2 hpairwise, ?_⟩
      -- One statement declares one name at most, and two statements declare different ones.
      · have hone := hss.1.length_declared_le
        match s.declared, hone with
        | [], _ => exact List.nodup_nil
        | [t], _ => exact List.nodup_singleton _
      · intro x hx hx'
        obtain ⟨t, ht, rfl⟩ := List.mem_map.1 hx
        obtain ⟨t', ht', heq⟩ := List.mem_map.1 hx'
        obtain ⟨s', hs', ht'⟩ := List.mem_flatMap.1 ht'
        exact hfirst s' hs' t ht t' ht' heq.symm
  · obtain ⟨s, hs, ht⟩ := List.mem_flatMap.1 ht
    exact h.owner_eq_none_of_stmts hss hw s hs t ht

end Walk.Clean

namespace Node.FlawlessSomewhere

/-- Parts without flaws are well formed. -/
theorem formed {n : Node} (h : n.FlawlessSomewhere) : n.Formed Token.Spelled := by
  obtain ⟨b, v, hv, rfl, rfl⟩ := h
  exact hv.lawful.formed

/-- A block declares no name twice. -/
theorem nodup_block {body : List Stmt} (h : (Node.stmt (.block body)).FlawlessSomewhere) :
    ((body.flatMap Stmt.declared).map Token.lexeme).Nodup := by
  obtain ⟨b, ⟨w, site, n⟩, hv, rfl, rfl⟩ := h
  have hbody := hv.child .block
  exact (Walk.Clean.nodup_stmts hbody.clean hbody.lawful.formed (Walk.owners_openBlock w)).1

/-- The parameters of a function and the names that its body declares differ from each other. -/
theorem nodup_function {kind : Body} {decl : FunDecl}
    (h : (Node.function kind decl).FlawlessSomewhere) :
    ((decl.params ++ decl.body.flatMap Stmt.declared).map Token.lexeme).Nodup := by
  obtain ⟨b, ⟨w, site, n⟩, hv, rfl, rfl⟩ := h
  have hbody := hv.child .function
  have hparams : (w.enterFunction kind decl).Clean := Walk.Clean.of_stmts hbody.clean
  obtain ⟨owner, hfold, -, hholds⟩ :=
    Walk.Owners.exists_foldl_declare (fun _ => none) w.owners decl.params
  have howners : (w.enterFunction kind decl).owners = owner :: w.owners := by
    rw [Walk.owners_enterFunction, hfold]
  obtain ⟨hnodup, hnew⟩ :=
    Walk.Clean.nodup_stmts hbody.clean hbody.lawful.formed howners
  rw [List.map_append]
  refine List.nodup_append'.2 ⟨?_, hnodup, ?_⟩
  · exact (Walk.Clean.nodup_introduce hparams (Walk.owners_openBlock { w with body := kind })).1
  · intro x hx hx'
    obtain ⟨t, ht, rfl⟩ := List.mem_map.1 hx
    obtain ⟨t', ht', heq⟩ := List.mem_map.1 hx'
    exact hholds t ht (heq ▸ hnew t' ht')

end Node.FlawlessSomewhere

/-! ### Slots -/

/-- A place for a variable: a frame, and the name in it. -/
abbrev Slot := FrameId × String

/-- The slots of some names in the innermost frame of an environment. -/
def Env.slots (env : Env) (names : List Token) : List Slot :=
  match env with
  | [] => []
  | f :: _ => names.map fun t => (f, t.lexeme)

/-- The slots of more names. -/
theorem Env.slots_append (env : Env) (names names' : List Token) :
    env.slots (names ++ names') = env.slots names ++ env.slots names' := by
  cases env with
  | nil => rfl
  | cons f env => exact List.map_append

mutual

/-- The slots that the code which is left fills in frames that are there. -/
def ExprCont.awaits : ExprCont → Env → List Slot
  | .done, _ => []
  | .assign _ _ k, env | .unary _ k, env | .left _ _ k, env | .right _ _ k, env
  | .logical _ _ k, env | .choose _ _ k, env | .callee _ _ k, env | .argument _ _ _ _ k, env
  | .property _ k, env | .fieldOwner _ _ k, env | .fieldValue _ _ k, env
  | .construct _ k, env => k.awaits env
  | .define name k, env => env.slots [name] ++ k.awaits env
  | .discard k, env | .print k, env | .branch _ _ k, env | .test _ _ k, env
  | .ret k, env => k.awaits env

/-- The slots that the code which is left fills in frames that are there. -/
def StmtCont.awaits : StmtCont → Env → List Slot
  | .done, _ => []
  | .sequence rest k, env => env.slots (rest.flatMap Stmt.declared) ++ k.awaits env
  | .again _ _ k, env => k.awaits env
  | .leaveBlock outer k, _ => k.awaits outer
  | .leaveCall caller _ k, _ => k.awaits caller

end

/-- The slots that are still to be filled. -/
def State.awaits : State → List Slot
  | .eval _ k m => k.awaits m.env
  | .exec s k m => m.env.slots s.declared ++ k.awaits m.env
  | .value _ k m => k.awaits m.env
  | .flow _ k m => k.awaits m.env
  | .failed _ _ => []
  | .desync _ _ => []

namespace Store

/-- Slots outside of the globals are apart from each other, and empty. -/
structure Vacant (s : Store) (slots : List Slot) : Prop where
  apart : (slots.filter (·.1 ≠ 0)).Nodup
  empty : ∀ p ∈ slots, p.1 ≠ 0 → s.holds p.1 p.2 = false
  used : ∀ p ∈ slots, p.1 < s.frames.size

namespace Vacant

variable {s s' : Store} {slots slots' : List Slot}

/-- Some of the slots are vacant if all are. -/
theorem sublist (h : s.Vacant slots) (hsub : slots'.Sublist slots) : s.Vacant slots' :=
  ⟨h.apart.sublist (hsub.filter _), fun p hp => h.empty p (hsub.subset hp),
    fun p hp => h.used p (hsub.subset hp)⟩

/-- There is nothing to fill. -/
theorem nil (s : Store) : s.Vacant [] :=
  ⟨List.nodup_nil, fun _ hp => absurd hp List.not_mem_nil, fun _ hp => absurd hp List.not_mem_nil⟩

/-- Only the frames of the store matter. -/
theorem congr (h : s.Vacant slots) (hs : s'.frames = s.frames) : s'.Vacant slots := by
  have hholds (f : FrameId) (x : String) : s'.holds f x = s.holds f x := by
    unfold holds get?
    rw [hs]
  refine ⟨h.apart, fun p hp hne => ?_, fun p hp => ?_⟩
  · rw [hholds]
    exact h.empty p hp hne
  · rw [hs]
    exact h.used p hp

/-- A slot is filled, and the others stay empty. -/
theorem define {f : FrameId} {x : String} (h : s.Vacant ((f, x) :: slots)) (v : Value) :
    (s.define f x v).Vacant slots := by
  refine ⟨(h.sublist (List.sublist_cons_self _ _)).apart, fun p hp hne => ?_, fun p hp => ?_⟩
  · have hother : ¬ (p.1 = f ∧ p.2 = x ∧ f < s.frames.size) := by
      rintro ⟨rfl, rfl, -⟩
      have hapart := h.apart
      rw [List.filter_cons_of_pos (by simpa using hne)] at hapart
      exact (List.nodup_cons.1 hapart).1 (List.mem_filter.2 ⟨hp, by simpa using hne⟩)
    unfold holds
    rw [get?_define, if_neg hother]
    exact h.empty p (List.mem_cons_of_mem _ hp) hne
  · rw [size_define]
    exact h.used p (List.mem_cons_of_mem _ hp)

/-- An assignment fills no slot: where the variable is not there, none is made. -/
theorem assign (h : s.Vacant slots) (f : FrameId) (x : String) (v : Value) :
    (s.assign f x v).Vacant slots := by
  refine ⟨h.apart, fun p hp hne => ?_, fun p hp => ?_⟩
  · have hempty := h.empty p hp hne
    have hother : ¬ (p.1 = f ∧ p.2 = x ∧ s.holds f x = true) := by
      rintro ⟨rfl, rfl, hx⟩
      rw [hx] at hempty
      cases hempty
    unfold holds
    rw [get?_assign, if_neg hother]
    exact hempty
  · rw [size_assign]
    exact h.used p hp

/-- The slots of a new frame are empty, and none of those before. -/
theorem newFrame (h : s.Vacant slots) {names : List String} (hnames : names.Nodup) :
    s.newFrame.2.Vacant (names.map (fun x => (s.frames.size, x)) ++ slots) := by
  refine ⟨?_, fun p hp hne => ?_, fun p hp => ?_⟩
  · rw [List.filter_append]
    refine List.nodup_append'.2 ⟨?_, h.apart, ?_⟩
    · exact (hnames.map fun x y heq => (Prod.mk.inj heq).2).filter _
    · -- Slots of older frames have smaller addresses.
      intro p hp hp'
      obtain ⟨x, -, rfl⟩ := List.mem_map.1 (List.mem_filter.1 hp).1
      exact absurd (h.used _ (List.mem_filter.1 hp').1) (Nat.lt_irrefl _)
  · unfold holds
    rw [get?_newFrame]
    obtain hp | hp := List.mem_append.1 hp
    · obtain ⟨x, -, rfl⟩ := List.mem_map.1 hp
      by_contra hholds
      exact Nat.lt_irrefl _ (lt_of_holds (eq_true_of_ne_false hholds))
    · exact h.empty p hp hne
  · rw [size_newFrame]
    obtain hp | hp := List.mem_append.1 hp
    · obtain ⟨x, -, rfl⟩ := List.mem_map.1 hp
      exact Nat.lt_succ_self _
    · exact Nat.lt_succ_of_lt (h.used p hp)

end Vacant

/-- A variable of a local frame is bound where there is none of that name, and a variable is
    assigned to where there is one. -/
def Expects (s : Store) : Change → Prop
  | .define f x _ => f ≠ 0 → s.holds f x = false
  | .assign f x _ => s.holds f x = true
  | _ => True

/-- Each of the changes finds what it expects. -/
def ExpectsAll (s : Store) (changes : List Change) : Prop :=
  ∀ before c after, changes = before ++ c :: after → (s.changeAll before).Expects c

/-- The changes find what they expect, and leave `slots` empty. -/
structure Admits (s : Store) (changes : List Change) (slots : List Slot) : Prop where
  expected : s.ExpectsAll changes
  vacant : (s.changeAll changes).Vacant slots

namespace Admits

variable {s : Store} {slots : List Slot} {changes : List Change}

/-- Without changes the slots stay as they are. -/
theorem nil (h : s.Vacant slots) : s.Admits [] slots := by
  refine ⟨fun before c after heq => ?_, h⟩
  cases before <;> cases heq

/-- A change that finds what it expects is made before others. -/
theorem cons {c : Change} (hc : s.Expects c) (h : (s.change c).Admits changes slots) :
    s.Admits (c :: changes) slots := by
  refine ⟨fun before c' after heq => ?_, h.vacant⟩
  cases before with
  | nil =>
    cases heq
    exact hc
  | cons first before =>
    obtain ⟨rfl, hrest⟩ := List.cons.inj heq
    exact h.expected before c' after hrest

/-- Empty slots of one frame are filled one after another. -/
theorem defines {f : FrameId} {vars : List (String × Value)}
    (h : s.Vacant (vars.map (fun p => (f, p.1)) ++ slots)) :
    s.Admits (vars.map fun p => .define f p.1 p.2) slots := by
  induction vars generalizing s with
  | nil => exact nil h
  | cons p vars ih =>
    exact cons (h.empty _ List.mem_cons_self) (ih (Vacant.define h p.2))

end Admits

end Store

/-! ### Steps -/

namespace Step

variable {host : Host} {m : Machine} {k : ExprCont} {slots : List Slot}

variable {name : Token} {x : String} {callee : Value} {s : Stmt}

/-- A class is declared: its slot is filled with `nil`, and then the variable is there. -/
theorem admits_class {k : StmtCont}
    (h : m.store.Vacant (m.env.slots [name] ++ k.awaits m.env)) (u v : Value) :
    m.store.Admits (m.classChanges name.lexeme v)
      (State.flow .normal k ((m.define name.lexeme u).define name.lexeme v)).awaits := by
  show m.store.Admits _ (k.awaits ((m.define name.lexeme u).define name.lexeme v).env)
  rw [Machine.env_define, Machine.env_define]
  unfold Machine.classChanges
  unfold Env.slots at h
  cases henv : m.env with
  | nil =>
    rw [henv] at h
    exact .nil h
  | cons f env =>
    rw [henv] at h
    exact .cons (h.empty _ List.mem_cons_self)
      (.cons (Store.holds_define_self (h.used _ List.mem_cons_self) _ _)
        (.nil ((h.define .nil).assign _ _ _)))

/-- A declaration fills its slot. -/
theorem admits_define (hx : x = name.lexeme) (h : m.store.Vacant (m.env.slots [name] ++ slots))
    (v : Value) : m.store.Admits (m.defineChanges x v) slots := by
  unfold Machine.defineChanges
  unfold Env.slots at h
  subst hx
  cases henv : m.env with
  | nil =>
    rw [henv] at h
    exact .nil h
  | cons f env =>
    rw [henv] at h
    exact .cons (h.empty _ List.mem_cons_self) (.nil (h.define v))

/-- `admits_define` for a declaration, whose slot is the first to be filled. -/
theorem admits_declare (hx : x = name.lexeme) {k : StmtCont}
    (h : m.store.Vacant (m.env.slots [name] ++ k.awaits m.env)) (v : Value) :
    m.store.Admits (m.defineChanges x v) (State.flow .normal k (m.define x v)).awaits := by
  show m.store.Admits _ (k.awaits (m.define x v).env)
  rw [Machine.env_define]
  exact admits_define hx h v

/-- An operator fills no slot. -/
theorem awaits_operatorResult (op : Token) (r : Except RuntimeFault Value) :
    ((operatorResult op r k m).awaits).Sublist (k.awaits m.env) := by
  cases r with
  | ok v => exact List.Sublist.refl _
  | error fault => exact List.nil_sublist _

/-- Reading a variable fills no slot. -/
theorem awaits_readVariable (id : NodeId) (name : Token) :
    ((readVariable id name k m).awaits).Sublist (k.awaits m.env) := by
  unfold readVariable
  split
  · split
    · exact List.Sublist.refl _
    · exact List.nil_sublist _
  · split
    · exact List.Sublist.refl _
    · exact List.nil_sublist _

/-- An assignment fills no slot. -/
theorem admits_writeVariable (h : m.store.Vacant (k.awaits m.env)) (id : NodeId) (name : Token)
    (v : Value) :
    m.store.Admits (assignChanges id name v m) (writeVariable id name v k m).awaits := by
  unfold writeVariable assignChanges
  cases m.depths[id]? with
  | some depth =>
    simp only
    cases hholder : m.store.holderAt? m.env depth name.lexeme with
    | some f =>
      exact .cons (Store.holds_of_holderAt? hholder) (.nil (h.assign f _ v))
    | none => exact .nil (.nil _)
  | none =>
    simp only
    cases hholder : m.store.holder? Machine.globals name.lexeme with
    | some f =>
      exact .cons (Store.holds_of_holder? hholder) (.nil (h.assign f _ v))
    | none => exact .nil (.nil _)

/-- A method is bound in a new frame. -/
theorem admits_readProperty (h : m.store.Vacant (k.awaits m.env)) (object : Value)
    (name : Token) :
    m.store.Admits (propertyChanges object name m) (readProperty object name k m).awaits := by
  cases object with
  | object id cls =>
    unfold readProperty propertyChanges
    simp only
    cases (m.store.fields id)[name.lexeme]? with
    | some v => exact .nil h
    | none =>
      simp only
      cases cls.method? name.lexeme with
      | some method =>
        have hframe := h.newFrame (List.nodup_singleton "this")
        exact .cons trivial (.cons (hframe.empty _ List.mem_cons_self) (.nil (hframe.define _)))
      | none => exact .nil (.nil _)
  | nil | bool | number | string | native | function | classObj => exact .nil (.nil _)

/-- The first members of pairs are some of those that were paired. -/
theorem sublist_map_fst_zip {α β : Type} (xs : List α) (ys : List β) :
    ((xs.zip ys).map Prod.fst).Sublist xs := by
  induction xs generalizing ys with
  | nil => exact List.Sublist.refl _
  | cons x xs ih =>
    cases ys with
    | nil => exact List.nil_sublist _
    | cons y ys => exact (ih ys).cons_cons x

/-- Parameters are bound in a new frame, in which the declarations of the body have their slots,
    too. -/
theorem admits_enter {callee : Closure} (hcallee : callee.Trees Node.FlawlessSomewhere)
    {s : Store} (h : s.Vacant slots) (arguments : List Value) (env : Env) :
    s.Admits (enterChanges callee arguments s.frames.size)
      (Env.slots (s.frames.size :: env) (callee.decl.body.flatMap Stmt.declared) ++ slots) := by
  refine .cons trivial (.defines ?_)
  have hframe := h.newFrame (Node.FlawlessSomewhere.nodup_function hcallee)
  refine hframe.sublist ?_
  rw [List.map_append, List.map_append, List.append_assoc, List.map_map, List.map_map]
  refine List.Sublist.append ?_ (List.Sublist.refl _)
  -- There may be fewer arguments than parameters, so only the first slots are filled.
  have hfirst := (sublist_map_fst_zip (callee.decl.params.map Token.lexeme) arguments).map
    fun x => (s.frames.size, x)
  rw [List.map_map, List.map_map] at hfirst
  exact hfirst

/-- The body of a function awaits its declarations, in the new frame. -/
theorem awaits_enter (callee : Closure) (arguments : List Value) :
    (enter callee arguments k m).awaits =
      Env.slots (m.store.frames.size :: callee.env) (callee.decl.body.flatMap Stmt.declared) ++
        k.awaits m.env := rfl

/-- A new object fills no slot but those of its initializer. -/
theorem admits_instantiate {cls : Class} (hcls : cls.Trees Node.FlawlessSomewhere)
    (h : m.store.Vacant (k.awaits m.env)) (arguments : List Value) :
    m.store.Admits (instantiateChanges cls arguments m)
      (instantiate cls arguments k m).awaits := by
  have hobject : m.store.newObject.2.Vacant (k.awaits m.env) := h.congr rfl
  unfold instantiate instantiateChanges
  simp only
  cases hinit : cls.initializer? with
  | none => exact .cons trivial (.nil hobject)
  | some initializer =>
    -- One new frame holds the object, and another one the parameters.
    have hframe := hobject.newFrame (List.nodup_singleton "this")
    have hbound := hframe.define (.object m.store.objects.size cls)
    have hcallee := hcls.method Corpus.flawless.handsDown hinit
    have henter := admits_enter (hcallee initializer.env) hbound arguments
      (m.store.frames.size :: initializer.env)
    rw [Store.size_define, Store.size_newFrame] at henter
    refine .cons trivial (.cons trivial (.cons (hframe.empty _ List.mem_cons_self) ?_))
    rw [awaits_enter, Machine.size_bindMethod]
    exact henter

/-- A call fills slots of new frames only. -/
theorem admits_call (hcallee : callee.Trees Node.FlawlessSomewhere)
    (h : m.store.Vacant (k.awaits m.env)) (paren : Token) (arguments : List Value) :
    m.store.Admits (callChanges host callee arguments m)
      (call host callee paren arguments k m).awaits := by
  cases callee with
  | native index =>
    -- A native fills nothing, and what waits for its value waits as before.
    have hsub : ((call host (.native index) paren arguments k m).awaits).Sublist
        (k.awaits m.env) := by
      unfold call callNative
      simp only
      split
      · split
        · exact List.nil_sublist _
        · split
          · exact List.Sublist.refl _
          · split
            · exact List.Sublist.refl _
            · exact List.nil_sublist _
      · exact List.nil_sublist _
    exact .nil (h.sublist hsub)
  | function id closure =>
    unfold call callChanges
    simp only
    cases refusal? host m closure.arity arguments.length with
    | some fault => exact .nil (.nil _)
    | none => exact admits_enter hcallee h arguments closure.env
  | classObj id cls =>
    unfold call callChanges
    simp only
    cases refusal? host m cls.arity arguments.length with
    | some fault => exact .nil (.nil _)
    | none => exact admits_instantiate hcallee h arguments
  | nil | bool | number | string | object => exact .nil (.nil _)

/-- The start of an evaluation fills no slot. -/
theorem awaits_eval (e : Expr) : ((Step.eval e k m).awaits).Sublist (k.awaits m.env) := by
  cases e with
  | «variable» id name => exact awaits_readVariable id name
  | thisRef id keyword => exact awaits_readVariable id keyword
  | literal | group | function | assign | unary | binary | logical | conditional | call | get
  | set => exact List.Sublist.refl _

/-- A statement fills the slot of the name that it declares. -/
theorem admits_exec {k : StmtCont} (hs : (Node.stmt s).FlawlessSomewhere)
    (h : m.store.Vacant (m.env.slots s.declared ++ k.awaits m.env)) :
    m.store.Admits ((State.exec s k m).changes host) (Step.exec s k m).awaits := by
  -- A statement that declares nothing leaves the slots behind it.
  have hk := h.sublist (List.sublist_append_right (m.env.slots s.declared) (k.awaits m.env))
  cases s with
  | expr | print | ifElse | whileLoop => exact .nil hk
  | varDecl name e =>
    cases e with
    | none => exact admits_declare rfl h .nil
    | some e => exact .nil h
  | block body =>
    have hframe := hk.newFrame hs.nodup_block
    rw [List.map_map] at hframe
    exact .cons trivial (.nil hframe)
  | funDecl decl =>
    obtain ⟨name, hname⟩ := Option.isSome_iff_exists.1 hs.formed.2
    have hlabel := FunDecl.label_of_name? hname
    rw [Stmt.declared, hname] at h
    exact admits_declare (m := { m with nextId := m.nextId + 1 }) hlabel h _
  | ret keyword e => cases e <;> exact .nil hk
  | classDecl name methods =>
    rw [exec_classDecl]
    exact admits_class (m := { m with nextId := m.nextId + 1 }) h _ _

/-- Branches and bodies of loops declare nothing. -/
theorem vacant_execPart {k : StmtCont} (hs : s.Formed Token.Spelled ∧ s.isDeclaration = false)
    (h : m.store.Vacant (k.awaits m.env)) : m.store.Vacant (State.exec s k m).awaits := by
  show m.store.Vacant (m.env.slots s.declared ++ k.awaits m.env)
  rw [Stmt.declared_eq_nil hs.1 hs.2]
  generalize m.env = env at h ⊢
  cases env <;> exact h

/-- A value fills a slot if a declaration or a call waits for it. -/
theorem admits_resumeValue {v : Value} (hv : v.Trees Node.FlawlessSomewhere)
    (hk : k.Trees .flawless) (h : m.store.Vacant (k.awaits m.env)) :
    m.store.Admits ((State.value v k m).changes host) (resumeValue host v k m).awaits := by
  cases k with
  | done | left | choose | construct | discard | ret => exact .nil h
  | assign id name k => exact admits_writeVariable (k := k) h id name v
  | unary op k | right first op k => exact .nil (h.sublist (awaits_operatorResult op _))
  | logical op right k =>
    refine .nil ?_
    show m.store.Vacant (State.awaits (if v.settles op then .value v k m else .eval right k m))
    split <;> exact h
  | callee paren arguments k =>
    cases arguments with
    | nil => exact admits_call (k := k) hv h paren []
    | cons e rest => exact .nil h
  | argument callee paren before after k =>
    cases after with
    | nil => exact admits_call (k := k) hk.1 h paren _
    | cons e after => exact .nil h
  | property name k => exact admits_readProperty (k := k) h v name
  | fieldOwner name value k =>
    cases v with
    | object id cls => exact .nil h
    | nil | bool | number | string | native | function | classObj => exact .nil (.nil _)
  | fieldValue object name k => exact .cons trivial (.nil (h.congr rfl))
  | print k =>
    refine .nil ?_
    unfold resumeValue
    simp only
    split
    · exact h
    · exact .nil _
  | define name k => exact admits_declare rfl h v
  | branch whenTrue whenFalse k =>
    refine .nil ?_
    obtain ⟨⟨c, hs⟩, -⟩ := hk
    have hformed := Node.FlawlessSomewhere.formed ⟨_, hs⟩
    show m.store.Vacant (State.awaits (if v.isTruthy then .exec whenTrue k m else _))
    cases whenFalse with
    | none =>
      split
      · exact vacant_execPart hformed.2 h
      · exact h
    | some s =>
      split
      · exact vacant_execPart hformed.2.1 h
      · exact vacant_execPart hformed.2.2 h
  | test condition body k =>
    refine .nil ?_
    have hformed := Node.FlawlessSomewhere.formed ⟨_, hk.1⟩
    show m.store.Vacant (State.awaits (if v.isTruthy then .exec body (.again condition body k) m
      else .flow .normal k m))
    split
    · exact vacant_execPart hformed.2 h
    · exact h

/-- The end of a call fills no slot. -/
theorem awaits_callResult (callee : Closure) (f : Flow) :
    ((callResult callee f k m).awaits).Sublist (k.awaits m.env) := by
  unfold callResult
  split
  · split
    · exact List.Sublist.refl _
    · exact List.nil_sublist _
  · cases f <;> exact List.Sublist.refl _

/-- The end of a statement fills no slot; of a sequence, the rest is awaited. -/
theorem awaits_resumeFlow (f : Flow) (k : StmtCont) :
    ((resumeFlow f k m).awaits).Sublist (k.awaits m.env) := by
  cases k with
  | done | leaveBlock => exact List.Sublist.refl _
  | sequence rest k =>
    cases f with
    | returned v => exact List.sublist_append_right _ _
    | normal =>
      cases rest with
      | nil => exact List.sublist_append_right _ _
      | cons s rest =>
        show (m.env.slots s.declared ++ (m.env.slots (rest.flatMap Stmt.declared) ++
          k.awaits m.env)).Sublist (m.env.slots ((s :: rest).flatMap Stmt.declared) ++ _)
        rw [List.flatMap_cons, Env.slots_append, List.append_assoc]
  | again condition body k => cases f <;> exact List.Sublist.refl _
  | leaveCall env callee k => exact awaits_callResult callee f

end Step

/-- All slots that are still to be filled are vacant. -/
def State.Vacant (t : State) : Prop := t.machine.store.Vacant t.awaits

section Runs

variable {t : State}

/-- **What a step does to slots.** It fills vacant ones, and those that are still to be filled
    stay vacant. -/
theorem State.Vacant.admits (h : t.Vacant) (ht : t.Trees .flawless) (host : Host) :
    t.machine.store.Admits (t.changes host) (step host t).awaits := by
  cases t with
  | eval e k m => exact .nil (Store.Vacant.sublist h (Step.awaits_eval e))
  | exec s k m => exact Step.admits_exec ⟨_, ht.2.1⟩ h
  | value v k m => exact Step.admits_resumeValue ht.2.1 ht.2.2 h
  | flow f k m => exact .nil (Store.Vacant.sublist h (Step.awaits_resumeFlow f k))
  | failed | desync => exact .nil (.nil _)

/-- `State.Vacant.admits`, with the store behind the step. -/
theorem State.Vacant.step (h : t.Vacant) (ht : t.Trees .flawless) (host : Host) :
    (Scriptlet.step host t).Vacant := by
  unfold State.Vacant
  rw [State.store_step]
  exact (h.admits ht host).vacant

/-- By induction on the number of steps. -/
theorem State.Vacant.steps (h : t.Vacant) (ht : t.Trees .flawless) (host : Host)
    (n : Nat) : ((Scriptlet.step host)^[n] t).Vacant := by
  induction n with
  | zero => exact h
  | succ n ih =>
    rw [Function.iterate_succ_apply']
    exact ih.step (ht.steps host n) host

/-- Outside of all scopes, no slot is local. -/
theorem Machine.vacant_exec {m : Machine} (henv : m.env = Machine.globals)
    (hpos : 0 < m.store.frames.size) (s : Stmt) : (State.exec s .done m).Vacant := by
  have hglobal : ∀ p ∈ m.env.slots s.declared ++ [], p.1 = 0 := by
    intro p hp
    rw [henv, List.append_nil] at hp
    obtain ⟨t, -, rfl⟩ := List.mem_map.1 hp
    rfl
  refine ⟨?_, fun p hp hne => absurd (hglobal p hp) hne, fun p hp => (hglobal p hp).symm ▸ hpos⟩
  have hfilter : (m.env.slots s.declared ++ []).filter (fun p : Slot => p.1 ≠ 0) = [] :=
    List.filter_eq_nil_iff.2 fun p hp => by simpa using hglobal p hp
  exact hfilter ▸ List.nodup_nil

/-- Each statement of a program starts outside of all scopes. -/
theorem Machine.Passes.vacant {host : Host} {ss : List Stmt} {m : Machine}
    {made made' : List Making} (hp : Machine.Passes host false ss m made t made')
    (hm : m.Trees Node.FlawlessSomewhere) (henv : m.env = Machine.globals)
    (hpos : 0 < m.store.frames.size) (hss : (Node.stmts ss).Flawless .topLevel) : t.Vacant := by
  induction hp with
  | @now s rest m made n =>
    rw [Machine.begin_false]
    exact (Machine.vacant_exec henv hpos s).steps ⟨hm, hss.part List.mem_cons_self, trivial⟩ host n
  | @later s rest m m' made t made' fuel hnext _ ih =>
    have hm' := Machine.Trees.goOn (C := .flawless) hm (hss.part List.mem_cons_self) hnext
    have henv' : m'.env = m.env := congrArg Standing.env (Machine.standing_goOn hnext)
    have hpos' : 0 < m'.store.frames.size := by
      obtain ⟨t, hrun, rfl, -⟩ := Machine.runSteps_of_goOn hnext
      obtain ⟨rfl, -⟩ := eq_iterate_of_runSteps hrun
      rw [Machine.begin_false]
      exact hpos.trans_le ((State.exec s .done m).size_le_steps host fuel)
    exact ih hm' (henv'.trans henv) hpos' (hss.part (.tail _ (.head _)))

end Runs

/-! ### Sessions -/

/-- **Local variables are new.** Let requests run sources only if nothing is wrong with them, and
    define functions of the host only if they are `Native.Honest`. Of the changes that any step
    makes to the store, one after another, those that bind a variable of a local frame, for a
    declaration, a parameter or a method, find no variable of that name in the frame. Only among the
    globals, a variable takes the place of another; and an assignment binds nothing, for its
    variable is there. -/
theorem Session.local_variables_are_new {host : Host} {sink : Sink} {rs : List Request}
    (hrs : ∀ r ∈ rs, r.checks = true) (hnatives : ∀ r ∈ rs, r.DefinesOnly Native.Honest)
    {t : State} {h : History} (ht : Session.Moment host sink rs t h) :
    (step host t).machine.store = t.machine.store.changeAll (t.changes host) ∧
      ∀ before c after, t.changes host = before ++ c :: after →
        (t.machine.store.changeAll before).Expects c := by
  refine ⟨t.store_step host, ?_⟩
  have htrees := ht.trees (C := .flawless) (fun r hr => Request.checks_brings (hrs r hr)) hnatives
  suffices hvacant : t.Vacant from (hvacant.admits htrees host).expected
  cases ht with
  | @mk rs s h r job t made hs hj hp =>
    have hchecks := hrs r (List.mem_append_right _ (List.mem_singleton_self r))
    obtain ⟨halone, hflawless⟩ := Request.job_of_checks hchecks hj
    have hnatives := (List.forall_mem_append.1 hnatives).1
    have hbefore := hs.trees (C := .flawless)
      (fun r hr => Request.checks_brings (hrs r (List.mem_append_left _ hr))) hnatives
    rw [halone] at hp
    obtain ⟨hm, henv, -⟩ := (hs.sound hnatives).job hj
    exact hp.vacant (Request.trees_job hbefore hj) henv (hm.size ▸ Nat.succ_pos _) hflawless

/-- An object whose initializer has two parameters. -/
def Session.twoParameters : String :=
  "\x7b class A \x7b init(a, b) \x7b this.c = a; b; \x7d \x7d var x = A(nil, true); x; \x7d"

/-- The states that follow the first one of an accepted program are moments of a session. -/
theorem Session.moment_of_accepted (host : Host) {sink : Sink} {source : String}
    (hgood : ((Session.new sink).analyze source).1.report.hadError = false)
    (hs : ((Session.new sink).analyze source).1.statements.isEmpty = false) (n : Nat) :
    ∃ h, Session.Moment host sink [.run source]
      ((step host)^[n] (Session.firstState sink source)) h := by
  have hjob : (Request.run source).job? (Session.new sink) =
      some ⟨false, ((Session.new sink).analyze source).1.statements,
        ((Session.new sink).analyze source).2.machine⟩ := by
    simp [Request.job?, hgood]
  exact ⟨_, .mk .new hjob (Session.passes_firstState host hs n)⟩

/-- When the object there is made, `this` is bound in one new frame and the parameters in another.
    The second parameter finds a frame that does not hold it. -/
theorem Session.local_variables_are_new_twoParameters :
    ∃ t h before v after, Session.Moment (Host.usual fun _ => 0) Sink.unbounded
        [.run Session.twoParameters] t h ∧
      t.changes (Host.usual fun _ => 0) = before ++ .define 3 "b" v :: after ∧
      before.length = 5 ∧ (t.machine.store.changeAll before).holds 3 "b" = false := by
  obtain ⟨t, ⟨h, ht⟩, hfound⟩ : ∃ t, (∃ h, Session.Moment (Host.usual fun _ => 0) Sink.unbounded
      [.run Session.twoParameters] t h) ∧
      (t.changes (Host.usual fun _ => 0))[5]?.any (fun c =>
        match c with
        | .define f x _ => f == 3 && x == "b"
        | _ => false) = true :=
    ⟨_, Session.moment_of_accepted _ (by decide +kernel) (by decide +kernel) 11,
      by decide +kernel⟩
  obtain ⟨c, hc, hdefine⟩ := (Option.any_eq_true _ _).1 hfound
  obtain ⟨hlt, rfl⟩ := List.getElem?_eq_some_iff.1 hc
  have hsplit := List.take_append_drop 5 (t.changes (Host.usual fun _ => 0))
  rw [List.drop_eq_getElem_cons hlt] at hsplit
  have hexpects := (Session.local_variables_are_new
    (List.forall_mem_singleton.2 rfl) (by simp [Request.DefinesOnly]) ht).2 _ _ _ hsplit.symm
  cases hv : (t.changes (Host.usual fun _ => 0))[5] with
  | define f x v =>
    rw [hv] at hdefine hexpects hsplit
    simp only [Bool.and_eq_true, beq_iff_eq] at hdefine
    obtain ⟨rfl, rfl⟩ := hdefine
    exact ⟨t, h, _, v, _, ht, hsplit.symm, List.length_take_of_le (Nat.le_of_lt hlt),
      hexpects (by decide)⟩
  | _ =>
    rw [hv] at hdefine
    cases hdefine

end Scriptlet
