import Scriptlet.Proofs.Changes
import Scriptlet.Proofs.Contents
import Scriptlet.Proofs.Scoping
import Scriptlet.Proofs.This
import Scriptlet.Proofs.Trace

namespace Scriptlet

/-!
# Objects, and what `this` means

* `State.binds`, `State.creates` — the frames in which a step binds `this`, each with its object,
  and the objects that it makes.
* `Store.KeepsThis` — what `this` is bound to stays as it is, and no object goes away.
* `Remembers` — what earlier states have bound is bound, and what they have made is there.
* `Env.thisFrame?` — the frame in which `this` is bound for the method that an environment
  belongs to.
* `State.Calls`, `State.Answers` — a call, and the value that it yields.
* `Session.this_is_fixed` — `this` is the object that the method was bound to; initializers yield
  that object, and classes yield new ones.
-/

/-! ### Binding methods and making objects -/

namespace Step

/-- A property is read: a method that is found in place of a field is bound to the object. -/
def propertyBinds (object : Value) (name : Token) (m : Machine) : List (FrameId × Value) :=
  match object with
  | .object id cls =>
    match (m.store.fields id)[name.lexeme]? with
    | some _ => []
    | none =>
      match cls.method? name.lexeme with
      | some _ => [(m.store.frames.size, object)]
      | none => []
  | _ => []

/-- A value is called: a class makes an object. -/
def callCreates (host : Host) (callee : Value) (count : Nat) (m : Machine) : List Value :=
  match callee with
  | .classObj _ cls =>
    match refusal? host m cls.arity count with
    | some _ => []
    | none => [.object m.store.objects.size cls]
  | _ => []

/-- A value is called: the initializer of a class is bound to the object that is made. -/
def callBinds (host : Host) (callee : Value) (count : Nat) (m : Machine) :
    List (FrameId × Value) :=
  match callee with
  | .classObj _ cls =>
    match refusal? host m cls.arity count with
    | some _ => []
    | none =>
      match cls.initializer? with
      | none => []
      | some _ => [(m.store.frames.size, .object m.store.objects.size cls)]
  | _ => []

end Step

namespace State

/-- The frames in which the next step binds `this`, each with the object that it is bound to. -/
def binds (host : Host) : State → List (FrameId × Value)
  | .value v (.callee _ [] _) m => Step.callBinds host v 0 m
  | .value _ (.argument callee _ before [] _) m =>
    Step.callBinds host callee (before.length + 1) m
  | .value v (.property name _) m => Step.propertyBinds v name m
  | _ => []

/-- The objects that the next step makes. -/
def creates (host : Host) : State → List Value
  | .value v (.callee _ [] _) m => Step.callCreates host v 0 m
  | .value _ (.argument callee _ before [] _) m =>
    Step.callCreates host callee (before.length + 1) m
  | _ => []

end State

namespace Step

variable {host : Host} {m : Machine} {f : FrameId} {env : Env} {name : String}
  {decls : List FunDecl}

/-- What a call makes for the methods of a class, it makes by binding the initializer. -/
theorem exists_callBinds {callee : Value} {count : Nat}
    (h : (f :: env, .methods name decls) ∈ callMakes host callee count m) :
    ∃ object, (f, object) ∈ callBinds host callee count m := by
  unfold callMakes at h
  split at h
  · split at h
    · cases h
    · cases List.mem_singleton.1 h
  · split at h
    · cases h
    · next hroom =>
      split at h
      · cases h
      · next hinit =>
        obtain h | h := List.mem_pair.1 h
        · cases h
          simp only [callBinds, hroom, hinit]
          exact ⟨_, List.mem_singleton_self _⟩
        · cases h
  · cases h

/-- What reading a property makes, it makes by binding the method. -/
theorem exists_propertyBinds {object : Value} {property : Token}
    (h : (f :: env, .methods name decls) ∈ propertyMakes object property m) :
    ∃ object', (f, object') ∈ propertyBinds object property m := by
  unfold propertyMakes at h
  split at h
  · split at h
    · cases h
    · next hfield =>
      split at h
      · next hmethod =>
        cases List.mem_singleton.1 h
        simp only [propertyBinds, hfield, hmethod]
        exact ⟨_, List.mem_singleton_self _⟩
      · cases h
  · cases h

end Step

/-- An environment that is made for the methods of a class starts with a frame in which `this` is
    bound. -/
theorem State.exists_binds {host : Host} {t : State} {f : FrameId} {env : Env} {name : String}
    {decls : List FunDecl} (h : (f :: env, .methods name decls) ∈ t.makes host) :
    ∃ object, (f, object) ∈ t.binds host := by
  unfold State.makes at h
  split at h
  · cases List.mem_singleton.1 h
  · exact Step.exists_callBinds h
  · exact Step.exists_callBinds h
  · exact Step.exists_propertyBinds h
  · cases h

/-! ### What `this` is bound to does not change -/

/-- Wherever `this` is bound, it stays bound to the same object, and no object goes away. -/
structure Store.KeepsThis (s s' : Store) : Prop where
  this : ∀ f v, s.get? f "this" = some v → s'.get? f "this" = some v
  objects : s.objects.size ≤ s'.objects.size

namespace Store.KeepsThis

variable {s s' s'' : Store}

/-- Nothing was changed. -/
theorem refl (s : Store) : s.KeepsThis s := ⟨fun _ _ h => h, Nat.le_refl _⟩

/-- What two changes keep, they keep together. -/
theorem trans (h : s.KeepsThis s') (h' : s'.KeepsThis s'') : s.KeepsThis s'' :=
  ⟨fun f v hv => h'.this f v (h.this f v hv), h.objects.trans h'.objects⟩

/-- In a new frame anything may be bound. -/
theorem newFrame (s : Store) (vars : List (String × Value)) :
    s.KeepsThis (s.newFrame.2.defineAll s.frames.size vars) := by
  refine ⟨fun g v hv => ?_, by rw [Store.objects_defineAll]; exact Nat.le_refl _⟩
  have hg : g < s.frames.size := Store.lt_of_holds (by rw [Store.holds, hv]; rfl)
  rw [Store.get?_defineAll_of_ne _ (Nat.ne_of_lt hg), Store.get?_newFrame]
  exact hv

end Store.KeepsThis

/-- At most in a frame that is new to the store, the change binds `this`. -/
def Change.SparesThis (s : Store) : Change → Prop
  | .define f x _ | .assign f x _ => x = "this" → s.frames.size ≤ f
  | .newFrame | .newObject | .setField _ _ _ => True

section Changes

variable {s s' : Store}

/-- A change that spares `this` keeps it. -/
theorem Store.KeepsThis.change (h : s.KeepsThis s') {c : Change} (hc : c.SparesThis s) :
    s.KeepsThis (s'.change c) := by
  obtain ⟨hthis, hobjects⟩ := h
  -- A frame that holds `this` is in use, so it is not the one that is changed.
  have helse {f g : FrameId} {x : String} {w : Value} (hx : x = "this" → s.frames.size ≤ f)
      (hw : s.get? g "this" = some w) (hf : g = f) (heq : "this" = x) : False := by
    have hg : g < s.frames.size := Store.lt_of_holds (by rw [Store.holds, hw]; rfl)
    exact Nat.not_le.2 hg (hf ▸ hx heq.symm)
  cases c with
  | newFrame => exact ⟨fun g w hw => (Store.get?_newFrame _ _ _).trans (hthis g w hw), hobjects⟩
  | define f x v =>
    refine ⟨fun g w hw => ?_, hobjects⟩
    rw [show (s'.change (.define f x v)).get? g "this" = _ from Store.get?_define _ _ _ _ _ _,
      if_neg fun h => helse hc hw h.1 h.2.1]
    exact hthis g w hw
  | assign f x v =>
    refine ⟨fun g w hw => ?_, hobjects⟩
    rw [show (s'.change (.assign f x v)).get? g "this" = _ from Store.get?_assign _ _ _ _ _ _,
      if_neg fun h => helse hc hw h.1 h.2.1]
    exact hthis g w hw
  | newObject => exact ⟨hthis, hobjects.trans (by simp [Store.change, Store.newObject])⟩
  | setField id x v => exact ⟨hthis, hobjects.trans (by simp [Store.change, Store.setField])⟩

/-- `Store.KeepsThis.change`, for one change after the other. -/
theorem Store.KeepsThis.changeAll (h : s.KeepsThis s') {cs : List Change}
    (hcs : ∀ c ∈ cs, c.SparesThis s) : s.KeepsThis (s'.changeAll cs) := by
  induction cs generalizing s' with
  | nil => exact h
  | cons c cs ih =>
    obtain ⟨hc, hcs⟩ := List.forall_mem_cons.1 hcs
    exact ih (h.change hc) hcs

/-- Declared variables have other names. -/
theorem Machine.sparesThis_define (m : Machine) {x : String} (hx : x ≠ "this") (v : Value) :
    ∀ c ∈ m.defineChanges x v, c.SparesThis s := by
  unfold Machine.defineChanges
  intro c hc
  split at hc
  · cases hc
  · cases List.mem_singleton.1 hc
    exact fun h => absurd h hx

/-- Declared classes have other names. -/
theorem Machine.sparesThis_class (m : Machine) {x : String} (hx : x ≠ "this") (v : Value) :
    ∀ c ∈ m.classChanges x v, c.SparesThis s := by
  unfold Machine.classChanges
  split
  · exact fun c hc => absurd hc List.not_mem_nil
  · exact List.forall_mem_cons.2 ⟨fun h => absurd h hx,
      List.forall_mem_singleton.2 fun h => absurd h hx⟩

/-- Variables that are assigned to have other names, too. -/
theorem Step.sparesThis_assign (id : NodeId) {name : Token} (hname : name.lexeme ≠ "this")
    (v : Value) (m : Machine) : ∀ c ∈ Step.assignChanges id name v m, c.SparesThis s := by
  intro c hc
  obtain ⟨f, -, rfl⟩ := List.mem_map.1 hc
  exact fun h => absurd h hname

/-- Parameters are bound in a new frame. -/
theorem Step.sparesThis_enter (callee : Closure) (arguments : List Value) {f : FrameId}
    (hf : s.frames.size ≤ f) : ∀ c ∈ Step.enterChanges callee arguments f, c.SparesThis s := by
  refine List.forall_mem_cons.2 ⟨trivial, fun c hc => ?_⟩
  obtain ⟨p, -, rfl⟩ := List.mem_map.1 hc
  exact fun _ => hf

/-- A call binds `this` and parameters in new frames only. -/
theorem Step.sparesThis_call (host : Host) (callee : Value) (arguments : List Value) (m : Machine) :
    ∀ c ∈ Step.callChanges host callee arguments m, c.SparesThis m.store := by
  intro c hc
  unfold Step.callChanges at hc
  split at hc
  · split at hc
    · cases hc
    · exact Step.sparesThis_enter _ arguments (Nat.le_refl _) c hc
  · split at hc
    · cases hc
    · unfold Step.instantiateChanges at hc
      obtain rfl | hc := List.mem_cons.1 hc
      · trivial
      · split at hc
        · cases hc
        · obtain rfl | hc := List.mem_cons.1 hc
          · trivial
          · obtain rfl | hc := List.mem_cons.1 hc
            · exact fun _ => Nat.le_refl _
            · exact Step.sparesThis_enter _ arguments (Nat.le_succ _) c hc
  · cases hc

/-- Reading a property binds `this` in a new frame only. -/
theorem Step.sparesThis_property (object : Value) (name : Token) (m : Machine) :
    ∀ c ∈ Step.propertyChanges object name m, c.SparesThis m.store := by
  intro c hc
  unfold Step.propertyChanges at hc
  split at hc
  · split at hc
    · cases hc
    · split at hc
      · obtain rfl | hc := List.mem_cons.1 hc
        · trivial
        · cases List.mem_singleton.1 hc
          exact fun _ => Nat.le_refl _
      · cases hc
  · cases hc

end Changes

section Runs

variable {host : Host} {t : State}

/-- In well-formed trees nothing is named `this`, so all changes of a step spare it. -/
theorem State.Trees.sparesThis (ht : t.Trees (.formed Token.Spelled)) (host : Host) :
    ∀ c ∈ t.changes host, c.SparesThis t.machine.store := by
  unfold State.changes
  split
  · have hs : (Stmt.varDecl _ none).Formed Token.Spelled := ht.2.1
    exact Machine.sparesThis_define _ hs.ne_this _
  · next decl _ _ =>
    have hs : (Stmt.funDecl decl).Formed Token.Spelled := ht.2.1
    obtain ⟨name, hname⟩ := Option.isSome_iff_exists.1 hs.2
    refine Machine.sparesThis_define _ ?_ _
    rw [FunDecl.label_of_name? hname]
    exact (hs.isName_of_mem_declared name (Option.mem_toList.2 hname)).ne_this
  · have hs : (Stmt.classDecl _ _).Formed Token.Spelled := ht.2.1
    exact Machine.sparesThis_class _ hs.1.ne_this _
  · exact List.forall_mem_singleton.2 trivial
  · obtain ⟨-, -, ⟨e, he⟩, -⟩ := ht
    have hs : (Stmt.varDecl _ (some e)).Formed Token.Spelled := he
    exact Machine.sparesThis_define _ hs.1.ne_this _
  · next id name _ _ =>
    obtain ⟨-, -, ⟨e, he⟩, -⟩ := ht
    have hs : (Expr.assign id name e).Formed Token.Spelled := he
    exact Step.sparesThis_assign _ hs.1.ne_this _ _
  · exact Step.sparesThis_call host _ _ _
  · exact Step.sparesThis_call host _ _ _
  · exact Step.sparesThis_property _ _ _
  · exact List.forall_mem_singleton.2 trivial
  · exact fun c hc => absurd hc List.not_mem_nil

/-- **A step keeps `this`** wherever it is bound: no declaration and no assignment has that
    name. -/
theorem State.Trees.keepsThis_step (ht : t.Trees (.formed Token.Spelled)) (host : Host) :
    t.machine.store.KeepsThis (Scriptlet.step host t).machine.store := by
  rw [t.store_step]
  exact (Store.KeepsThis.refl _).changeAll (ht.sparesThis host)

/-- By induction on the number of steps. -/
theorem State.Trees.keepsThis_steps (ht : t.Trees (.formed Token.Spelled)) (host : Host)
    (n : Nat) : t.machine.store.KeepsThis ((Scriptlet.step host)^[n] t).machine.store := by
  induction n with
  | zero => exact .refl _
  | succ n ih =>
    rw [Function.iterate_succ_apply']
    exact ih.trans ((ht.steps host n).keepsThis_step host)

end Runs

/-! ### What was bound and made before -/

/-- A method is bound in a new frame that holds the object. -/
theorem Store.get?_this_newFrame (s : Store) (object : Value) :
    (s.newFrame.2.defineAll s.frames.size [("this", object)]).get? s.frames.size "this" =
      some object := by
  show ((s.newFrame.2).define s.frames.size "this" object).get? s.frames.size "this" = _
  rw [Store.get?_define, if_pos ⟨rfl, rfl, by rw [Store.size_newFrame]; exact Nat.lt_succ_self _⟩]

namespace Step

variable {host : Host} {m : Machine} {k : ExprCont} {f : FrameId} {object : Value}

/-- Where reading a property binds `this`, it is bound behind the step. -/
theorem get?_propertyBinds {v : Value} {name : Token} (h : (f, object) ∈ propertyBinds v name m) :
    f = m.store.frames.size ∧
      (readProperty v name k m).machine.store.get? f "this" = some object := by
  unfold propertyBinds at h
  split at h
  · split at h
    · cases h
    · next hfield =>
      split at h
      · next hmethod =>
        cases List.mem_singleton.1 h
        refine ⟨rfl, ?_⟩
        simp only [readProperty, hfield, hmethod]
        exact Store.get?_this_newFrame _ _
      · cases h
  · cases h

/-- Where a call binds `this`, it is bound behind the step. -/
theorem get?_callBinds {callee : Value} {paren : Token} (arguments : List Value)
    (h : (f, object) ∈ callBinds host callee arguments.length m) :
    f = m.store.frames.size ∧
      (call host callee paren arguments k m).machine.store.get? f "this" = some object := by
  unfold callBinds at h
  split at h
  · split at h
    · cases h
    · next hroom =>
      split at h
      · cases h
      · next hinit =>
        cases List.mem_singleton.1 h
        refine ⟨rfl, ?_⟩
        simp only [call, hroom, instantiate, hinit]
        -- The parameters of the initializer are bound in one more frame.
        exact (Store.KeepsThis.newFrame _ _).this _ _
          (Store.get?_this_newFrame m.store.newObject.2 _)
  · cases h

/-- What a call makes is an object with the next number. -/
theorem lt_callCreates {callee : Value} {paren : Token} (arguments : List Value)
    (h : object ∈ callCreates host callee arguments.length m) :
    ∃ cls, object = .object m.store.objects.size cls ∧
      m.store.objects.size < (call host callee paren arguments k m).machine.store.objects.size := by
  unfold callCreates at h
  split at h
  · next cls =>
    split at h
    · cases h
    · next hroom =>
      cases List.mem_singleton.1 h
      have hmade : m.store.objects.size < m.store.newObject.2.objects.size := by
        simp [Store.newObject]
      simp only [call, hroom, instantiate]
      refine ⟨cls, rfl, ?_⟩
      split
      · exact hmade
      · refine hmade.trans_le ?_
        exact ((Store.KeepsThis.newFrame _ _).trans (Store.KeepsThis.newFrame _ _)).objects
  · cases h

end Step

section Remembering

variable {host : Host} {t : State} {past rest : List State} {s s' : Store}

/-- Where a step binds `this`, it is bound behind the step. -/
theorem State.get?_binds {f : FrameId} {object : Value} (h : (f, object) ∈ t.binds host) :
    f = t.machine.store.frames.size ∧
      (step host t).machine.store.get? f "this" = some object := by
  unfold State.binds at h
  split at h
  · exact Step.get?_callBinds [] h
  · refine Step.get?_callBinds (List.reverse (_ :: _)) ?_
    rw [List.length_reverse]
    exact h
  · exact Step.get?_propertyBinds h
  · cases h

/-- What a step makes is an object with the next number. -/
theorem State.lt_creates {object : Value} (h : object ∈ t.creates host) :
    ∃ cls, object = .object t.machine.store.objects.size cls ∧
      t.machine.store.objects.size < (step host t).machine.store.objects.size := by
  unfold State.creates at h
  split at h
  · exact Step.lt_callCreates [] h
  · refine Step.lt_callCreates (List.reverse (_ :: _)) ?_
    rw [List.length_reverse]
    exact h
  · cases h

/-- What the states before have bound is bound, and the objects that they have made are there. -/
structure Remembers (host : Host) (past : List State) (s : Store) : Prop where
  binds : ∀ f object, (f, object) ∈ past.flatMap (State.binds host) →
    f ≠ 0 ∧ s.get? f "this" = some object
  creates : ∀ object ∈ past.flatMap (State.creates host),
    ∃ id cls, object = .object id cls ∧ id < s.objects.size

/-- What is kept is remembered. -/
theorem Remembers.keepsThis (h : Remembers host past s) (hs : s.KeepsThis s') :
    Remembers host past s' := by
  refine ⟨fun f object hf => ?_, fun object ho => ?_⟩
  · obtain ⟨hne, hget⟩ := h.binds f object hf
    exact ⟨hne, hs.this f object hget⟩
  · obtain ⟨id, cls, rfl, hid⟩ := h.creates object ho
    exact ⟨id, cls, rfl, hid.trans_le hs.objects⟩

/-- A function of the host is defined in the frame of the globals, where no method is bound. -/
theorem Remembers.defineGlobal (h : Remembers host past s) (x : String) (v : Value) :
    Remembers host past (s.define 0 x v) := by
  refine ⟨fun f object hf => ?_, h.creates⟩
  obtain ⟨hne, hget⟩ := h.binds f object hf
  rw [Store.get?_define, if_neg fun heq => hne heq.1]
  exact ⟨hne, hget⟩

/-- **A step remembers** what was bound and made before, and what it binds and makes itself. -/
theorem Remembers.step (h : Remembers host past t.machine.store)
    (ht : t.Trees (.formed Token.Spelled)) (hframes : 0 < t.machine.store.frames.size) :
    Remembers host (past ++ [t]) (Scriptlet.step host t).machine.store := by
  have hold := h.keepsThis (ht.keepsThis_step host)
  refine ⟨fun f object hf => ?_, fun object ho => ?_⟩
  · rw [List.flatMap_append, List.flatMap_singleton] at hf
    obtain hf | hf := List.mem_append.1 hf
    · exact hold.binds f object hf
    · obtain ⟨rfl, hget⟩ := State.get?_binds hf
      exact ⟨Nat.ne_of_gt hframes, hget⟩
  · rw [List.flatMap_append, List.flatMap_singleton] at ho
    obtain ho | ho := List.mem_append.1 ho
    · exact hold.creates object ho
    · obtain ⟨cls, rfl, hid⟩ := State.lt_creates ho
      exact ⟨_, cls, rfl, hid⟩

/-- **Linked states remember** everything that the states before them have bound and made. -/
theorem Linked.remembers {ts before : List State} (h : Linked host s ts s')
    (hbefore : Remembers host before s)
    (hts : ∀ t ∈ ts, t.Trees (.formed Token.Spelled) ∧ 0 < t.machine.store.frames.size)
    (hsplit : ts = past ++ t :: rest) : Remembers host (before ++ past) t.machine.store := by
  induction h generalizing before past with
  | nil => simp at hsplit
  | @step u ts s' _ ih =>
    cases past with
    | nil =>
      cases hsplit
      rwa [List.append_nil]
    | cons first past =>
      cases hsplit
      obtain ⟨⟨htrees, hframes⟩, hts⟩ := List.forall_mem_cons.1 hts
      rw [List.append_cons]
      exact ih (hbefore.step htrees hframes) hts rfl
  | native _ ih => exact ih (hbefore.defineGlobal _ _) hts hsplit

end Remembering

/-! ### Inside of a method -/

/-- The frame in which `this` is bound for the method that an environment belongs to: what lies
    between are functions and blocks, and no other class. -/
def Env.thisFrame? (made : List Making) : Env → Option FrameId
  | [] => none
  | f :: env =>
    match made.find? (·.1 = f :: env) with
    | some (_, .methods _ _) => some f
    | some _ => thisFrame? made env
    | none => none

/-- That frame stands where the innermost class stands in the scopes that the environment
    copies. -/
theorem Machine.Sound.exists_thisFrame {h : History} {m : Machine} (hm : m.Sound h) {env : Env}
    {site : List Construct} (ha : Aligned h.made env site) {f : FrameId}
    (hf : Env.thisFrame? h.made env = some f) :
    ∃ d, site.findIdx? Construct.isClass = some d ∧ env[d]? = some f ∧
      ∃ outer name decls, (f :: outer, .methods name decls) ∈ h.made := by
  induction ha with
  | globals =>
    -- The globals were not made for any construct: frames are numbered from one on.
    unfold Machine.globals Env.thisFrame? at hf
    have hnone : h.made.find? (·.1 = [0]) = none := by
      refine List.find?_eq_none.2 fun e he heq => ?_
      obtain ⟨i, hi⟩ := List.mem_iff_getElem?.1 he
      have hhead := hm.numbered i e hi
      rw [of_decide_eq_true heq] at hhead
      cases hhead
    rw [hnone] at hf
    cases hf
  | @cons g env c site hmem rest ih =>
    obtain ⟨e, he⟩ : ∃ e, h.made.find? (·.1 = g :: env) = some e :=
      Option.isSome_iff_exists.1 (List.find?_isSome.2 ⟨_, hmem, decide_eq_true rfl⟩)
    obtain ⟨env', c'⟩ := e
    have hfound := List.find?_some he
    have henv : env' = g :: env := of_decide_eq_true hfound
    subst henv
    cases hm.made_unique hmem (List.mem_of_find?_eq_some he)
    unfold Env.thisFrame? at hf
    rw [he] at hf
    cases c with
    | methods name decls =>
      cases hf
      exact ⟨0, rfl, rfl, env, name, decls, hmem⟩
    | block | function =>
      obtain ⟨d, hd, hfd, hmade⟩ := ih hf
      refine ⟨d + 1, ?_, hfd, hmade⟩
      rw [List.findIdx?_cons, hd]
      rfl

/-! ### Calls and what they yield -/

/-- The next step calls a value, and `k` waits for what the call yields. -/
inductive State.Calls (callee : Value) (k : ExprCont) : State → Prop
  | bare {paren m} : Calls callee k (.value callee (.callee paren [] k) m)
  | full {v paren before m} : Calls callee k (.value v (.argument callee paren before [] k) m)

/-- The call that the next step makes yields `v`: this is the first value that is handed on
    to `k`. -/
def State.Answers (host : Host) (t : State) (k : ExprCont) (v : Value) : Prop :=
  ∃ n m, (step host)^[n + 1] t = .value v k m ∧
    ∀ j < n, ¬ ((step host)^[j + 1] t).HandsTo (.expr k)

section Calls

variable {host : Host} {t : State} {callee v : Value} {k : ExprCont}

/-- Both kinds of calls are `Step.call` with all arguments. -/
theorem State.Calls.exists_call (h : t.Calls callee k) (host : Host) :
    ∃ paren arguments, step host t = Step.call host callee paren arguments k t.machine ∧
      t.creates host = Step.callCreates host callee arguments.length t.machine := by
  cases h with
  | @bare paren m => exact ⟨paren, [], rfl, rfl⟩
  | @full v paren before m =>
    refine ⟨paren, (v :: before).reverse, rfl, ?_⟩
    rw [List.length_reverse]
    rfl

/-- A run that is over yields nothing. -/
theorem State.Answers.not_isFinal (h : t.Answers host k v) {e : Error} {m : Machine} :
    step host t ≠ .failed e m := by
  intro hfailed
  obtain ⟨n, m', hn, -⟩ := h
  rw [Function.iterate_succ_apply, hfailed, iterate_step_of_isFinal rfl] at hn
  cases hn

/-- A value comes to `k` by way of what was put above it. -/
theorem State.Answers.through {base : Cont} (h : t.Answers host k v)
    (hbase : base.rest? = some (.expr k)) (habove : (step host t).Above base) :
    ∃ j, ((step host)^[j + 1] t).HandsTo base ∧
      ∀ w m, (step host)^[j + 2] t = .value w k m → w = v := by
  obtain ⟨n, m, hn, hfirst⟩ := h
  obtain ⟨j, hj, hhands⟩ | hlast := habove.steps host n
  · refine ⟨j, hhands, fun w m' hw => ?_⟩
    -- Nothing comes to `k` before the end, so this is the end.
    have hend : n = j + 1 := by
      by_contra hne
      apply hfirst (j + 1) (by omega)
      rw [hw]
      rfl
    subst hend
    rw [hn] at hw
    cases hw
    rfl
  · rw [← Function.iterate_succ_apply, hn] at hlast
    exact absurd hlast (Cont.not_under_rest hbase)

/-- What a frame holds is found at its distance. -/
theorem Store.lookupAt?_eq_some {s : Store} {env : Env} {d : Nat} {f : FrameId} {x : String}
    (henv : env[d]? = some f) (hx : s.get? f x = some v) : s.lookupAt? env d x = some v := by
  have hholds : s.holds f x = true := by rw [Store.holds, hx]; rfl
  unfold Store.lookupAt? Store.holderAt?
  rw [henv, Option.filter_some, if_pos hholds]
  exact hx

/-- **Initializers yield their object**, whatever their bodies do. -/
theorem State.Answers.eq_of_initializer {id : ObjectId} {closure : Closure} {f : FrameId}
    {object : Value} (h : t.Answers host k v) (ht : t.Trees (.formed Token.Spelled))
    (hcalls : t.Calls (.function id closure) k) (hinit : closure.isInitializer = true)
    (henv : closure.env[0]? = some f) (hthis : t.machine.store.get? f "this" = some object) :
    v = object := by
  obtain ⟨paren, arguments, hstep, -⟩ := hcalls.exists_call host
  unfold Step.call at hstep
  simp only at hstep
  split at hstep
  · exact absurd hstep h.not_isFinal
  · have habove : (step host t).Above (.stmt (.leaveCall t.machine.env closure k)) := by
      rw [hstep]
      exact .part rfl .refl
    obtain ⟨j, hhands, hend⟩ := h.through rfl habove
    have hkept := (ht.keepsThis_steps host (j + 1)).this f object hthis
    rw [Function.iterate_succ_apply'] at hend
    generalize (step host)^[j + 1] t = u at hhands hkept hend
    cases u with
    | flow flow k' m =>
      cases hhands
      have hlookup : m.store.lookupAt? closure.env 0 "this" = some object :=
        Store.lookupAt?_eq_some henv hkept
      refine (hend object { m with env := t.machine.env, callDepth := m.callDepth - 1 } ?_).symm
      show Step.callResult closure flow k _ = _
      unfold Step.callResult
      simp only [hinit, if_true, hlookup]
    | value v' k' m => cases hhands
    | eval | exec | failed | desync => exact hhands.elim

/-- **Classes yield the object that the call has made.** -/
theorem State.Answers.mem_creates {id : ObjectId} {cls : Class} (h : t.Answers host k v)
    (hcalls : t.Calls (.classObj id cls) k) : v ∈ t.creates host := by
  obtain ⟨paren, arguments, hstep, hcreates⟩ := hcalls.exists_call host
  unfold Step.callCreates at hcreates
  unfold Step.call at hstep
  simp only at hstep hcreates
  split at hstep
  · exact absurd hstep h.not_isFinal
  · next hroom =>
    rw [hcreates, hroom]
    refine List.mem_singleton.2 ?_
    unfold Step.instantiate at hstep
    simp only at hstep
    split at hstep
    · -- Without an initializer the object is handed on at once.
      obtain ⟨n, m, hn, hfirst⟩ := h
      cases n with
      | zero =>
        rw [Function.iterate_one, hstep] at hn
        cases hn
        rfl
      | succ n =>
        refine absurd ?_ (hfirst 0 (Nat.succ_pos n))
        rw [Function.iterate_one, hstep]
        rfl
    -- With one, the object waits until that is over, whatever it returns.
    · have habove : (step host t).Above
          (.expr (.construct (.object t.machine.store.objects.size cls) k)) := by
        rw [hstep]
        exact .part rfl (.part rfl .refl)
      obtain ⟨j, hhands, hend⟩ := h.through rfl habove
      rw [Function.iterate_succ_apply'] at hend
      generalize (step host)^[j + 1] t = u at hhands hend
      cases u with
      | value v' k' m =>
        cases hhands
        exact (hend _ m rfl).symm
      | flow flow k' m => cases hhands
      | eval | exec | failed | desync => exact hhands.elim

end Calls

/-! ### Sessions -/

section Sessions

variable {host : Host} {sink : Sink} {fuel : Nat} {rs : List Request} {past rest : List State}
  {t : State}

/-- A state that a session passes is a moment of it, and the states before it have made what was
    made up to it. -/
theorem Session.moment_of_trace
    (h : (Session.new sink).trace host fuel rs = past ++ t :: rest) :
    ∃ rs' h', Session.Moment host sink rs' t h' ∧ (∀ r ∈ rs', r ∈ rs) ∧
      h'.made = past.flatMap (State.makes host) := by
  obtain ⟨rs', h', hmoment, hmem, hmade⟩ := Session.exists_moment .new h
  exact ⟨rs', h', hmoment, by simpa using hmem, by simpa using hmade⟩

/-- A session only comes across well-formed trees. -/
theorem Session.trees_of_trace (hnatives : ∀ r ∈ rs, r.DefinesOnly Native.Honest)
    (h : (Session.new sink).trace host fuel rs = past ++ t :: rest) :
    t.Trees (.formed Token.Spelled) := by
  obtain ⟨rs', h', hmoment, hmem, -⟩ := Session.moment_of_trace h
  exact hmoment.trees (C := .formed Token.Spelled) (fun r _ => r.brings_formed)
    fun r hr => hnatives r (hmem r hr)

/-- At each of its states, a session remembers what was bound and made before. -/
theorem Session.remembers_of_trace (hnatives : ∀ r ∈ rs, r.DefinesOnly Native.Honest)
    (h : (Session.new sink).trace host fuel rs = past ++ t :: rest) :
    Remembers host past t.machine.store := by
  obtain ⟨store, hlinked⟩ := Session.exists_linked host fuel rs (Session.new sink)
  have hnone : Remembers host [] (Session.new sink).machine.store :=
    ⟨fun _ _ hf => absurd hf List.not_mem_nil, fun _ ho => absurd ho List.not_mem_nil⟩
  refine hlinked.remembers hnone (fun u hu => ?_) h
  obtain ⟨past', rest', hsplit⟩ := List.append_of_mem hu
  obtain ⟨rs', h', hmoment, hmem, -⟩ := Session.moment_of_trace hsplit
  refine ⟨Session.trees_of_trace hnatives hsplit, ?_⟩
  rw [(hmoment.sound fun r hr => hnatives r (hmem r hr)).machine.size]
  exact Nat.succ_pos _

/-- Inside of a method, `this` is the object that the method was bound to. -/
theorem Session.step_this {id : NodeId} {keyword : Token} {k : ExprCont} {m : Machine}
    (hrs : ∀ r ∈ rs, r.resolves = true) (hnatives : ∀ r ∈ rs, r.DefinesOnly Native.Honest)
    (h : (Session.new sink).trace host fuel rs =
      past ++ .eval (.thisRef id keyword) k m :: rest)
    {f : FrameId} (hf : Env.thisFrame? (past.flatMap (State.makes host)) m.env = some f) :
    ∃ object, (f, object) ∈ past.flatMap (State.binds host) ∧
      step host (.eval (.thisRef id keyword) k m) = .value object k m := by
  obtain ⟨rs', h', hmoment, hmem, hmade⟩ := Session.moment_of_trace h
  have hnatives' : ∀ r ∈ rs', r.DefinesOnly Native.Honest := fun r hr => hnatives r (hmem r hr)
  have hsound := hmoment.sound hnatives'
  rw [← hmade] at hf
  -- The node was visited in scopes that the environment copies.
  obtain ⟨v, hnode, hready⟩ := hsound.2.1
  obtain ⟨p, hp, hbelow⟩ := hready.known
  obtain ⟨s', source, rfl⟩ := hmoment.exists_program p hp
  have hlawful := (s'.program_spec source).1
  have hthis := (Visit.holdsThis_program s' source).below hlawful hbelow
  obtain ⟨d, hd, henv, outer, name, decls, hmethods⟩ :=
    hsound.machine.exists_thisFrame hready.aligned hf
  -- So the recorded depth leads to the frame in which the method was bound.
  have hformed := (hlawful.below hbelow).formed
  rw [hnode] at hformed
  obtain ⟨hspelled, s, hs, hkeyword⟩ := hformed
  cases List.mem_singleton.1 hs
  have hlexeme : keyword.lexeme = "this" := hspelled.lexeme_of_is hkeyword
  have hclass : v.walk.inClass = true := by
    rw [hthis.inClass, ← List.findIdx?_isSome, hd]
    rfl
  obtain ⟨d', hrecorded⟩ := Option.isSome_iff_exists.1
    (hmoment.recordsThis (fun r hr => hrs r (hmem r hr)) hnatives' rfl v id keyword hready.known
      hnode hclass)
  have hdepth := hsound.machine.recorded v id keyword d' hready.known (hnode ▸ .this) hrecorded
  rw [hlexeme, hthis.depth?_eq, hd] at hdepth
  cases hdepth
  -- What was bound there is bound there still.
  rw [hmade] at hmethods
  obtain ⟨u, hu, hmakes⟩ := List.mem_flatMap.1 hmethods
  obtain ⟨object, hbinds⟩ := State.exists_binds hmakes
  have hbound : (f, object) ∈ past.flatMap (State.binds host) :=
    List.mem_flatMap.2 ⟨u, hu, hbinds⟩
  have hget := ((Session.remembers_of_trace hnatives h).binds f object hbound).2
  refine ⟨object, hbound, ?_⟩
  show Step.readVariable id keyword k m = _
  unfold Step.readVariable
  have hlookup : m.store.lookupAt? m.env d keyword.lexeme = some object := by
    rw [hlexeme]
    exact Store.lookupAt?_eq_some henv hget
  have hdepths : m.depths[id]? = some d := hrecorded
  simp only [hdepths, hlookup]

end Sessions

/-- **`this` is fixed.** In every session in which the names of all sources are resolved, as they
    are if sources are run, and in which functions of the host are `Native.Honest`:

    * every `this` of an accepted program has a recorded depth;
    * wherever `this` is evaluated inside of a method, or of blocks and functions in it with no
      class between, it yields the one object that the method was bound to;
    * whenever a bound initializer is called and the call yields a value, this is the object that
      the initializer was bound to;
    * whenever a class is called and the call yields a value, this is an object that the call has
      made, and none of those that were made before. -/
theorem Session.this_is_fixed (host : Host) (sink : Sink) (fuel : Nat) (rs : List Request)
    (hrs : ∀ r ∈ rs, r.resolves = true) (hnatives : ∀ r ∈ rs, r.DefinesOnly Native.Honest) :
    (∀ s h, Session.After host sink rs s h → ∀ p ∈ h.programs, p.Accepted →
      ∀ id keyword, p.node.Contains (.expr (.thisRef id keyword)) →
        s.machine.depths[id]?.isSome = true) ∧
    ∀ past t rest, (Session.new sink).trace host fuel rs = past ++ t :: rest →
      (∀ id keyword k m f, t = .eval (.thisRef id keyword) k m →
        Env.thisFrame? (past.flatMap (State.makes host)) m.env = some f →
          ∃ object, (∀ other, (f, other) ∈ past.flatMap (State.binds host) ↔ other = object) ∧
            step host t = .value object k m) ∧
      (∀ id closure f object k v, t.Calls (.function id closure) k →
        closure.isInitializer = true → closure.env[0]? = some f →
          (f, object) ∈ past.flatMap (State.binds host) → t.Answers host k v → v = object) ∧
      (∀ id cls k v, t.Calls (.classObj id cls) k → t.Answers host k v →
        v ∈ t.creates host ∧
          ∀ object ∈ past.flatMap (State.creates host), v.same object = false) := by
  refine ⟨fun s h hs p hp haccepted id keyword hcontains => ?_, fun past t rest htrace => ?_⟩
  · obtain ⟨u, hbelow, hu⟩ := Visit.exists_below hcontains
    exact hs.recordsThis hrs hnatives u id keyword ⟨p, hp, hbelow⟩ hu
      (haccepted.inClass_eq_true hbelow hu)
  · have hremembers := Session.remembers_of_trace hnatives htrace
    have htrees := Session.trees_of_trace hnatives htrace
    refine ⟨?_, ?_, ?_⟩
    · rintro id keyword k m f rfl hf
      obtain ⟨object, hbound, hstep⟩ := Session.step_this hrs hnatives htrace hf
      refine ⟨object, fun other => ⟨fun hother => ?_, fun heq => heq ▸ hbound⟩, hstep⟩
      have hget := (hremembers.binds f object hbound).2
      exact Option.some.inj ((hremembers.binds f other hother).2.symm.trans hget)
    · intro id closure f object k v hcalls hinit henv hbound hanswers
      exact hanswers.eq_of_initializer htrees hcalls hinit henv (hremembers.binds f object hbound).2
    · intro id cls k v hcalls hanswers
      have hcreates := hanswers.mem_creates hcalls
      refine ⟨hcreates, fun object hobject => ?_⟩
      obtain ⟨cls', rfl, -⟩ := State.lt_creates hcreates
      obtain ⟨id', cls'', rfl, hlt⟩ := hremembers.creates object hobject
      exact decide_eq_false (Nat.ne_of_gt hlt)

/-- A function that yields `this` is made in an initializer and kept in a field. Later it is called
    from a method of another class. -/
def Session.calledElsewhere : List Request :=
  [.run ("class A \x7b init() \x7b this.f = fun () \x7b return this; \x7d; \x7d \x7d " ++
      "var a = A();"),
    .run "class B \x7b m() \x7b return a.f(); \x7d \x7d B().m();"]

/-- The state reads `this` within `depth` calls, bound in the environment `f`. -/
def State.readsThis (made : List Making) (depth : Nat) (f : FrameId) : State → Bool
  | .eval (.thisRef _ _) _ m => m.callDepth = depth && Env.thisFrame? made m.env = some f
  | _ => false

/-- Two calls deep, where the other object is `this` for the caller, the function yields the first
    object still. -/
theorem Session.this_is_fixed_calledElsewhere :
    ∃ past id keyword k m rest cls,
      (Session.new Sink.unbounded).trace (Host.usual fun _ => 0) 30 Session.calledElsewhere =
        past ++ .eval (.thisRef id keyword) k m :: rest ∧ m.callDepth = 2 ∧
      step (Host.usual fun _ => 0) (.eval (.thisRef id keyword) k m) =
        .value (.object 0 cls) k m := by
  let host := Host.usual fun _ => 0
  let states := (Session.new Sink.unbounded).trace host 30 Session.calledElsewhere
  have hresolves : ∀ r ∈ Session.calledElsewhere, r.resolves = true := by
    intro r hr
    obtain rfl | rfl := List.mem_pair.1 hr <;> rfl
  have hnatives : ∀ r ∈ Session.calledElsewhere, r.DefinesOnly Native.Honest := by
    simp [Session.calledElsewhere, Request.DefinesOnly]
  have hthere : states[107]?.any
      (State.readsThis ((states.take 107).flatMap (State.makes host)) 2 1) = true := by
    decide +kernel
  have hbinds : ((states.take 107).flatMap (State.binds host)).any (fun p => p.1 = 1 &&
      match p.2 with
      | .object id _ => id = 0
      | _ => false) = true := by decide +kernel
  obtain ⟨t, ht, hcheck⟩ := (Option.any_eq_true _ _).1 hthere
  obtain ⟨hlt, rfl⟩ := List.getElem?_eq_some_iff.1 ht
  obtain ⟨⟨f, object⟩, hmem, hobject⟩ := List.any_eq_true.1 hbinds
  obtain ⟨hf, hobject⟩ := Bool.and_eq_true_iff.1 hobject
  cases of_decide_eq_true hf
  have hsplit : states = states.take 107 ++ states[107] :: states.drop 108 := by
    rw [← List.drop_eq_getElem_cons hlt, List.take_append_drop]
  have hfixed := ((Session.this_is_fixed host Sink.unbounded 30 Session.calledElsewhere
    hresolves hnatives).2 _ _ _ hsplit).1
  generalize states[107] = t at hcheck hsplit hfixed
  unfold State.readsThis at hcheck
  split at hcheck
  · next id keyword k m =>
    obtain ⟨hcalls, hframe⟩ := Bool.and_eq_true_iff.1 hcheck
    obtain ⟨object', honly, hstep⟩ := hfixed id keyword k m 1 rfl (of_decide_eq_true hframe)
    cases (honly object).1 hmem
    cases object with
    | object id' cls =>
      cases of_decide_eq_true hobject
      exact ⟨_, id, keyword, k, m, _, cls, hsplit, of_decide_eq_true hcalls, hstep⟩
    | _ => cases hobject
  · cases hcheck

end Scriptlet
