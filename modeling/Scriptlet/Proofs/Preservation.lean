import Scriptlet.Proofs.Alignment

namespace Scriptlet

/-!
# Steps keep environments and scopes together

* `Machine.Sound` — a machine whose store holds sound values, whose recorded depths are distances
  of visits, and whose frames are those that were made.
* `State.Sound` — a state that can go on.
* `State.Sound.step` — one step leads from a sound state to a sound state.
-/

/-! ### Results of operators -/

namespace Value

variable {op : Token} {a b r : Value}

/-- Plain values refer to no environment. -/
theorem Sound.of_isPlain {c : Scene} (h : r.isPlain = true) : r.Sound c := by
  cases r with
  | nil | bool | number | string => trivial
  | native | function | classObj | object => cases h

/-- Literals are plain. -/
theorem isPlain_ofLiteral (l : Literal) : (ofLiteral l).isPlain = true := by
  cases l <;> rfl

/-- What `applyUnary` yields is plain, whatever the operand is. -/
theorem isPlain_of_applyUnary (h : a.applyUnary op = .ok r) : r.isPlain = true := by
  unfold applyUnary negate at h
  split at h
  · split at h <;> cases h
    rfl
  · cases h
    rfl
  · cases h

/-- Numbers that arithmetic yields are plain. -/
theorem isPlain_of_arithmetic {f : Float → Float → Float} (h : arithmetic f a b = .ok r) :
    r.isPlain = true := by
  unfold arithmetic at h
  split at h <;> cases h
  rfl

/-- Answers of comparisons are plain. -/
theorem isPlain_of_order {f : Float → Float → Bool} (h : order f a b = .ok r) :
    r.isPlain = true := by
  unfold order at h
  split at h <;> cases h
  rfl

/-- Sums and joined strings are plain. -/
theorem isPlain_of_add (h : add a b = .ok r) : r.isPlain = true := by
  unfold add at h
  split at h <;> cases h <;> rfl

/-- Quotients are plain. -/
theorem isPlain_of_divide (h : divide a b = .ok r) : r.isPlain = true := by
  unfold divide at h
  split at h
  · split at h <;> cases h
    rfl
  · cases h

/-- Only the comma yields something else than a plain value: its second operand. -/
theorem isPlain_or_eq_of_applyBinary (h : applyBinary op a b = .ok r) :
    r.isPlain = true ∨ r = b := by
  unfold applyBinary at h
  split at h
  case h_1 =>
    cases h
    exact .inr rfl
  case h_2 => exact .inl (isPlain_of_add h)
  case h_3 | h_4 => exact .inl (isPlain_of_arithmetic h)
  case h_5 => exact .inl (isPlain_of_divide h)
  case h_6 | h_7 | h_8 | h_9 => exact .inl (isPlain_of_order h)
  case h_10 | h_11 =>
    cases h
    exact .inl rfl
  case h_12 => cases h

end Value

/-! ### Sound machines -/

/-- More environments were made. -/
def History.extend (h : History) (made : List Making) : History := ⟨h.programs, h.made ++ made⟩

variable {h : History} {s s' : Store} {x : String} {t : State}

/-- Most steps make no environment. -/
@[simp]
theorem History.extend_nil (h : History) : h.extend [] = h := by
  unfold History.extend
  rw [List.append_nil]

/-- What steps make one after the other. -/
theorem History.extend_extend (h : History) (made made' : List Making) :
    (h.extend made).extend made' = h.extend (made ++ made') := by
  unfold History.extend
  rw [List.append_assoc]

/-- Nothing is lost when environments are made and the store grows. -/
theorem Scene.le_extend (hs : s.Extends s') (made : List Making) :
    Scene.Le ⟨h, s⟩ ⟨h.extend made, s'⟩ :=
  ⟨fun _ hp => hp, fun _ he => List.mem_append_left _ he, hs.holds⟩

/-- A machine between two steps. -/
structure Machine.Sound (h : History) (m : Machine) : Prop where
  lawful : Scene.Lawful ⟨h, m.store⟩
  store : m.store.Sound ⟨h, m.store⟩
  /-- A recorded depth is the distance of the name. -/
  recorded : ∀ v id name d, h.Knows v → v.node.Refers id name → m.depths[id]? = some d →
    v.walk.depth? name.lexeme = some d
  /-- Depths are recorded only for nodes of programs. -/
  keys : ∀ i d, m.depths[i]? = some d → ∃ p ∈ h.programs, i ∈ p.node.ids
  /-- Each frame apart from that of the globals was made, in the order of the numbers. -/
  size : m.store.frames.size = h.made.length + 1
  numbered : ∀ i e, h.made[i]? = some e → e.1.head? = some (i + 1)
  natives : ∀ n ∈ m.natives, n.Honest

namespace Machine.Sound

variable {h : History} {m m' : Machine} {env : Env} {site : List Construct}

/-- A part of a machine that `Machine.Sound` does not look at may change. -/
theorem congr (hm : m.Sound h) (hs : m'.store = m.store) (hd : m'.depths = m.depths)
    (hn : m'.natives = m.natives) : m'.Sound h := by
  obtain ⟨hlawful, hstore, hrecorded, hkeys, hsize, hnumbered, hnatives⟩ := hm
  refine ⟨hlawful, ?_, ?_, ?_, ?_, hnumbered, ?_⟩
  · rw [hs]; exact hstore
  · rw [hd]; exact hrecorded
  · rw [hd]; exact hkeys
  · rw [hs]; exact hsize
  · rw [hn]; exact hnatives

/-- The innermost frame of an aligned environment is in use. -/
theorem head_lt (hm : m.Sound h) (ha : Aligned h.made env site) :
    ∃ f, env[0]? = some f ∧ f < m.store.frames.size := by
  cases ha with
  | globals => exact ⟨0, rfl, by rw [hm.size]; exact Nat.succ_pos _⟩
  | @cons f env c site hmem rest =>
    refine ⟨f, rfl, ?_⟩
    obtain ⟨i, hi, hget⟩ := List.getElem_of_mem hmem
    have hhead := hm.numbered i _ (List.getElem?_eq_some_iff.2 ⟨hi, hget⟩)
    cases hhead
    rw [hm.size]
    omega

/-- The store changes so that nothing is lost, and new environments are made. -/
theorem grow {s : Store} (hm : m.Sound h) (made : List Making) (hext : m.store.Extends s)
    (hsize : s.frames.size = m.store.frames.size + made.length)
    (hmade : ∀ i e, made[i]? = some e → e.1.head? = some (m.store.frames.size + i))
    (hframes : ∀ f x v, s.get? f x = some v →
      m.store.get? f x = some v ∨ v.Sound ⟨h.extend made, s⟩)
    (hfields : ∀ (id : ObjectId) (x : String) (v : Value), (s.fields id)[x]? = some v →
      (m.store.fields id)[x]? = some v ∨ v.Sound ⟨h.extend made, s⟩) :
    Machine.Sound (h.extend made) { m with store := s } := by
  have hle : Scene.Le ⟨h, m.store⟩ ⟨h.extend made, s⟩ := Scene.le_extend hext made
  refine ⟨hm.lawful, ⟨?_, ?_⟩, hm.recorded, hm.keys, ?_, ?_, hm.natives⟩
  · intro f x v hv
    exact (hframes f x v hv).elim (fun hv => hle.value (hm.store.frames f x v hv)) id
  · intro id x v hv
    exact (hfields id x v hv).elim (fun hv => hle.value (hm.store.fields id x v hv)) fun h => h
  · show s.frames.size = (h.made ++ made).length + 1
    rw [hsize, hm.size, List.length_append]
    omega
  · intro i e he
    change (h.made ++ made)[i]? = some e at he
    -- The new environments come behind the old ones, as their frames do.
    rcases Nat.lt_or_ge i h.made.length with hi | hi
    · exact hm.numbered i e (by rwa [List.getElem?_append_left hi] at he)
    · rw [List.getElem?_append_right hi] at he
      rw [hmade _ e he, hm.size]
      congr 1
      omega

/-- A variable is bound to a sound value. -/
theorem defineIn (hm : m.Sound h) (f : FrameId) (x : String) {v : Value}
    (hv : v.Sound ⟨h, m.store.define f x v⟩) : (m.defineIn f x v).Sound h := by
  have hgrow := hm.grow [] (Store.extends_define m.store f x v)
    (Store.size_define m.store f x v) (fun i e he => by cases he)
    (fun g y v' hv' => (Store.eq_or_get?_of_define hv').symm.imp_right fun heq => by
      rw [History.extend_nil, heq]; exact hv)
    (fun _ _ _ hv' => .inl hv')
  rwa [History.extend_nil] at hgrow

/-- A frame is made that holds sound values. -/
theorem newFrame (hm : m.Sound h) (vars : List (String × Value)) (env : Env) (what : Construct)
    (hvars : ∀ v ∈ vars.map Prod.snd, v.Sound ⟨h, m.store⟩) :
    (m.newFrame vars).2.Sound (h.extend [(m.store.frames.size :: env, what)]) := by
  have hext := (Store.extends_newFrame m.store).trans
    (Store.extends_defineAll _ m.store.frames.size vars)
  have hle := Scene.le_extend (h := h) hext [(m.store.frames.size :: env, what)]
  rw [Machine.newFrame_eq]
  refine hm.grow [(m.store.frames.size :: env, what)] hext ?_ ?_ ?_ ?_
  · rw [Store.size_defineAll, Store.size_newFrame]
    rfl
  · intro i e he
    cases i with
    | zero =>
      cases he
      rfl
    | succ i => cases he
  · intro f x v hv
    rcases Store.mem_or_get?_of_defineAll hv with hmem | hget
    · exact .inr (hle.value (hvars v hmem))
    · rw [Store.get?_newFrame] at hget
      exact .inl hget
  · intro id x v hv
    rw [Store.fields_defineAll, Store.fields_newFrame] at hv
    exact .inl hv

end Machine.Sound

/-- Making a frame loses nothing. -/
theorem Scene.le_newFrame (h : History) (m : Machine) (vars : List (String × Value))
    (made : List Making) : Scene.Le ⟨h, m.store⟩ ⟨h.extend made, (m.newFrame vars).2.store⟩ :=
  Scene.le_extend ((Store.extends_newFrame m.store).trans
    (Store.extends_defineAll _ m.store.frames.size vars)) made

/-- A new frame holds the variables that it was made with. -/
theorem Machine.holds_newFrame (m : Machine) {vars : List (String × Value)}
    (hx : x ∈ vars.map Prod.fst) :
    (m.newFrame vars).2.store.holds m.store.frames.size x = true := by
  rw [Machine.newFrame_eq]
  exact Store.holds_defineAll (by rw [Store.size_newFrame]; exact Nat.lt_succ_self _) hx

/-! ### Sound states -/

/-- A way in which a statement ended, with a sound value if there is one. -/
def Flow.Sound (c : Scene) : Flow → Prop
  | .normal => True
  | .returned v => v.Sound c

/-- A state that can go on. -/
def State.Sound (h : History) : State → Prop
  | .eval e k m =>
    m.Sound h ∧ (Node.expr e).Ready ⟨h, m.store⟩ [] m.env ∧ k.Fits ⟨h, m.store⟩ m.env
  | .exec s k m =>
    m.Sound h ∧ (Node.stmt s).Ready ⟨h, m.store⟩ [] m.env ∧
      k.Fits ⟨h, m.store⟩ (s.declared.map Token.lexeme) m.env
  | .value v k m => m.Sound h ∧ v.Sound ⟨h, m.store⟩ ∧ k.Fits ⟨h, m.store⟩ m.env
  | .flow f k m =>
    m.Sound h ∧ f.Sound ⟨h, m.store⟩ ∧ k.Fits ⟨h, m.store⟩ [] m.env
  | .failed _ m => m.Sound h ∧ m.env = Machine.globals
  | .desync _ m => m.Sound h

/-- `State.Sound` behind a step that makes no environment. -/
theorem State.Sound.same (ht : t.Sound h) : t.Sound (h.extend []) := by
  rwa [History.extend_nil]

section Unwind

variable {c : Scene}

mutual

/-- After an error the globals are the environment again. -/
theorem ExprCont.unwind_eq : ∀ (k : ExprCont) (m : Machine), k.Fits c m.env →
    ∃ calls, k.unwind m = { m with env := Machine.globals, callDepth := calls }
  | .done, m, h => ⟨m.callDepth, by rw [ExprCont.unwind, ← h]⟩
  | .unary _ k, m, h | .property _ k, m, h | .fieldValue _ _ k, m, h => k.unwind_eq m h
  | .discard k, m, h | .print k, m, h | .define _ k, m, h | .ret k, m, h => k.unwind_eq m h
  | .assign _ _ k, m, h | .left _ _ k, m, h | .right _ _ k, m, h | .logical _ _ k, m, h
  | .callee _ _ k, m, h | .fieldOwner _ _ k, m, h | .construct _ k, m, h => k.unwind_eq m h.2
  | .test _ _ k, m, h => k.unwind_eq m h.2
  | .choose _ _ k, m, h | .branch _ _ k, m, h => k.unwind_eq m h.2.2
  | .argument _ _ _ _ k, m, h => k.unwind_eq m h.2.2.2

/-- Blocks and calls in progress are left. -/
theorem StmtCont.unwind_eq : ∀ {promised : List String} (k : StmtCont) (m : Machine),
    k.Fits c promised m.env →
    ∃ calls, k.unwind m = { m with env := Machine.globals, callDepth := calls }
  | _, .done, m, h => ⟨m.callDepth, by rw [StmtCont.unwind, ← h]⟩
  | _, .sequence _ k, m, h => k.unwind_eq m h.2
  | _, .leaveBlock env k, m, h => k.unwind_eq { m with env } h
  | _, .again _ _ k, m, h => k.unwind_eq m h.2
  | _, .leaveCall env _ k, m, h =>
    k.unwind_eq { m with env, callDepth := m.callDepth - 1 } h.2

end

end Unwind

/-! ### Reading and writing -/

/-- `Scene.le_extend` without new environments. -/
theorem Scene.le_store (hs : s.Extends s') :
    Scene.Le ⟨h, s⟩ ⟨h, s'⟩ := ⟨fun _ hp => hp, fun _ he => he, hs.holds⟩

namespace Step

variable {h : History} {host : Host} {m : Machine} {k : ExprCont}

variable (hm : m.Sound h) (hk : k.Fits ⟨h, m.store⟩ m.env)

include hm hk

/-- A runtime error ends everything in progress. -/
theorem sound_fail (e : Error) : (fail e k m).Sound h := by
  obtain ⟨calls, hunwind⟩ := k.unwind_eq m hk
  show (State.failed e (k.unwind m)).Sound h
  rw [hunwind]
  exact ⟨hm.congr rfl rfl rfl, rfl⟩

/-- An operator yields a value, or fails. -/
theorem sound_operatorResult (op : Token) {r : Except RuntimeFault Value}
    (hr : ∀ v, r = .ok v → v.Sound ⟨h, m.store⟩) :
    (operatorResult op r k m).Sound h := by
  cases r with
  | ok v => exact ⟨hm, hr v rfl, hk⟩
  | error fault => exact sound_fail hm hk _

/-- What a frame holds is sound. -/
theorem sound_readVariable (id : NodeId) (name : Token) : (readVariable id name k m).Sound h := by
  unfold readVariable
  split
  · split
    · next v hv =>
      obtain ⟨f, -, hget⟩ := Option.bind_eq_some_iff.1 hv
      exact ⟨hm, hm.store.frames f _ v hget, hk⟩
    · exact hm
  · split
    · next v hv =>
      obtain ⟨f, -, hget⟩ := Option.bind_eq_some_iff.1 hv
      exact ⟨hm, hm.store.frames f _ v hget, hk⟩
    · exact sound_fail hm hk _

/-- `Machine.Sound.defineIn`, with what goes on behind it. -/
theorem sound_defineIn {v : Value} (hv : v.Sound ⟨h, m.store⟩) (f : FrameId) (x : String) :
    (State.value v k (m.defineIn f x v)).Sound h := by
  have hle : Scene.Le ⟨h, m.store⟩ ⟨h, (m.defineIn f x v).store⟩ :=
    Scene.le_store (Store.extends_define m.store f x v)
  exact ⟨hm.defineIn f x (hle.value hv), hle.value hv, hle.exprCont k hk⟩

/-- A variable that is found is bound again in its frame. -/
theorem sound_writeVariable {v : Value} (hv : v.Sound ⟨h, m.store⟩) (id : NodeId) (name : Token) :
    (writeVariable id name v k m).Sound h := by
  rw [writeVariable_eq]
  split
  · split
    · exact sound_defineIn hm hk hv _ _
    · exact hm
  · split
    · exact sound_defineIn hm hk hv _ _
    · exact sound_fail hm hk _

end Step

/-! ### Declarations -/

section Declarations

variable {h : History} {m : Machine}

variable {v : Value} {k : StmtCont} {x : String}

/-- Defining a variable loses none of the scene. -/
theorem Scene.le_define (m : Machine) (x : String) (v : Value) :
    Scene.Le ⟨h, m.store⟩ ⟨h, (m.define x v).store⟩ := by
  unfold Machine.define
  split
  · exact Scene.le_store (Store.Extends.refl _)
  · exact Scene.le_store (Store.extends_define _ _ _ _)

/-- `Machine.define` leaves the environment. -/
@[simp]
theorem Machine.env_define (m : Machine) (x : String) (v : Value) :
    (m.define x v).env = m.env := by
  unfold Machine.define
  split <;> rfl

/-- `Machine.define` with a sound value leaves the machine sound. -/
theorem Machine.Sound.define (hm : m.Sound h) (x : String)
    (hv : v.Sound ⟨h, (m.define x v).store⟩) :
    (m.define x v).Sound h := by
  unfold Machine.define at hv ⊢
  split
  · exact hm
  · next f _ henv =>
    rw [henv] at hv
    exact hm.defineIn f x hv

/-- A definition puts the name into the innermost frame. -/
theorem Machine.Sound.holds_define (hm : m.Sound h) {site : List Construct}
    (ha : Aligned h.made m.env site) (x : String) (v : Value) :
    ∃ f, m.env[0]? = some f ∧ (m.define x v).store.holds f x = true := by
  obtain ⟨f, hf, hlt⟩ := hm.head_lt ha
  refine ⟨f, hf, ?_⟩
  unfold Machine.define
  cases henv : m.env with
  | nil =>
    rw [henv] at hf
    cases hf
  | cons g env =>
    rw [henv] at hf
    cases hf
    exact Store.holds_define_self hlt x v

/-- What waited for a name goes on once it is defined. -/
theorem StmtCont.Fits.define (hm : m.Sound h) (hk : k.Fits ⟨h, m.store⟩ [x] m.env) (v : Value) :
    k.Fits ⟨h, (m.define x v).store⟩ [] m.env := by
  have hle := Scene.le_define (h := h) m x v
  cases k with
  | sequence rest k =>
    have hrest := hle.node hk.1
    obtain ⟨v', hv', hready⟩ := hk.1
    refine ⟨hrest.fulfil fun y hy => ?_, hle.stmtCont k hk.2⟩
    cases List.mem_singleton.1 hy
    exact hm.holds_define hready.aligned x v
  | done => exact hk
  | leaveBlock env k => exact hle.stmtCont k hk
  | again condition body k => exact ⟨hle.node hk.1, hle.stmtCont k hk.2⟩
  | leaveCall env callee k => exact ⟨hle.closure hk.1, hle.exprCont k hk.2⟩

/-- A declaration has defined its name. -/
theorem State.sound_defined (hm : m.Sound h) (hv : v.Sound ⟨h, (m.define x v).store⟩)
    (hk : k.Fits ⟨h, m.store⟩ [x] m.env) : (State.flow .normal k (m.define x v)).Sound h := by
  refine ⟨hm.define x hv, trivial, ?_⟩
  rw [Machine.env_define]
  exact hk.define hm v

/-- So has one that binds it to `nil` first. -/
theorem State.sound_redefined (hm : m.Sound h)
    (hv : v.Sound ⟨h, ((m.define x .nil).define x v).store⟩)
    (hk : k.Fits ⟨h, m.store⟩ [x] m.env) :
    (State.flow .normal k ((m.define x .nil).define x v)).Sound h := by
  refine ⟨(hm.define (v := .nil) x trivial).define x hv, trivial, ?_⟩
  rw [Machine.env_define, Machine.env_define]
  exact (Scene.le_define _ x v).stmtCont k (hk.define hm .nil)

end Declarations

/-! ### Calls -/

/-- A method of a class is one of its functions, in the environment of the class. -/
theorem Class.mem_of_method? {cls : Class} {method : Closure} (h : cls.method? x = some method) :
    method.decl ∈ cls.methods ∧ method.env = cls.env := by
  obtain ⟨decl, hdecl, rfl⟩ := Option.map_eq_some_iff.1 h
  exact ⟨List.mem_reverse.1 (List.mem_of_find?_eq_some hdecl), rfl⟩

namespace Step

variable {h : History} {host : Host} {m : Machine} {k : ExprCont}

variable {cls : Class} {object : Value} {callee : Closure} {arguments : List Value}

/-- A call that is not refused has as many arguments as there are parameters. -/
theorem eq_of_refusal? {expected got : Nat} (h : refusal? host m expected got = none) :
    expected = got := by
  unfold refusal? at h
  split at h
  · cases h
  · next heq => exact Decidable.not_not.1 heq

section

variable (hm : m.Sound h)

include hm

/-- A method is bound to an object of a sound class. -/
theorem sound_bindMethod (hcls : cls.Sound ⟨h, m.store⟩) {x : String}
    {method : Closure} (hmethod : cls.method? x = some method)
    (hobject : object.Sound ⟨h, m.store⟩) :
    (m.bindMethod method object).2.Sound (h.extend [bindMakes cls m]) ∧
      (m.bindMethod method object).1.Sound
        ⟨h.extend [bindMakes cls m], (m.bindMethod method object).2.store⟩ := by
  obtain ⟨hmem, henv⟩ := Class.mem_of_method? hmethod
  have hle := Scene.le_newFrame h m [("this", object)] [bindMakes cls m]
  have hsound : (m.newFrame [("this", object)]).2.Sound (h.extend [bindMakes cls m]) := by
    refine hm.newFrame _ cls.env _ fun v hv => ?_
    cases List.mem_singleton.1 hv
    exact hobject
  have hthis : (m.newFrame [("this", object)]).2.store.holds m.store.frames.size "this" = true :=
    m.holds_newFrame (List.mem_singleton_self "this")
  -- The new frame is the one for the class, and all its methods see `this` in it.
  have hmethods := (hle.cls hcls).methods
    (List.mem_append_right _ (List.mem_singleton_self (bindMakes cls m))) hthis
  obtain ⟨kind, hready⟩ := hmethods.method hsound.lawful hmem
  refine ⟨hsound, ⟨kind, ?_⟩, fun _ => ⟨m.store.frames.size, rfl, hthis⟩⟩
  rw [Machine.bindMethod_eq]
  show (Node.function kind method.decl).Ready _ [] (m.store.frames.size :: method.env)
  rw [henv]
  exact hready

variable (hk : k.Fits ⟨h, m.store⟩ m.env)

include hk

/-- Fields are found in the store; a method is bound in a new environment. -/
theorem sound_readProperty (hobject : object.Sound ⟨h, m.store⟩) (name : Token) :
    (readProperty object name k m).Sound (h.extend (propertyMakes object name m)) := by
  unfold readProperty propertyMakes
  cases object with
  | object id cls =>
    cases hfield : (m.store.fields id)[name.lexeme]? with
    | some v =>
      simp only [hfield, History.extend_nil]
      exact ⟨hm, hm.store.fields id _ v hfield, hk⟩
    | none =>
      simp only [hfield]
      cases hmethod : cls.method? name.lexeme with
      | none =>
        simp only [History.extend_nil]
        exact sound_fail hm hk _
      | some method =>
        obtain ⟨hsound, hbound⟩ := sound_bindMethod hm hobject hmethod hobject
        have hle := Scene.le_newFrame h m [("this", Value.object id cls)] [bindMakes cls m]
        exact ⟨hsound.congr rfl rfl rfl, hbound, hle.exprCont k hk⟩
  | nil | bool | number | string | native | function | classObj =>
    simp only [History.extend_nil]
    exact sound_fail hm hk _

/-- A function is entered with as many arguments as it has parameters. -/
theorem sound_enter (hcallee : callee.Sound ⟨h, m.store⟩)
    (harguments : ∀ v ∈ arguments, v.Sound ⟨h, m.store⟩)
    (harity : callee.arity = arguments.length) :
    (enter callee arguments k m).Sound
      (h.extend [(m.store.frames.size :: callee.env, .function callee.decl)]) := by
  have hlength : (callee.decl.params.map Token.lexeme).length = arguments.length := by
    rw [List.length_map]
    exact harity
  have hle := Scene.le_newFrame h m ((callee.decl.params.map Token.lexeme).zip arguments)
    [(m.store.frames.size :: callee.env, .function callee.decl)]
  have hsound := hm.newFrame ((callee.decl.params.map Token.lexeme).zip arguments) callee.env
    (.function callee.decl) fun v hv => by
      rw [List.map_snd_zip (Nat.le_of_eq hlength.symm)] at hv
      exact harguments v hv
  have hcallee' := hle.closure hcallee
  obtain ⟨kind, hready⟩ := hcallee'.ready
  -- Because the counts agree, no parameter is left without a value.
  have hbody := hready.body (List.mem_append_right _ (List.mem_singleton_self _)) fun p hp =>
    m.holds_newFrame (by
      rw [List.map_fst_zip (Nat.le_of_eq hlength)]
      exact List.mem_map_of_mem hp)
  exact ⟨hsound.congr rfl rfl rfl, trivial, hbody, hcallee', hle.exprCont k hk⟩

/-- A new object, and its initializer entered on it. -/
theorem sound_instantiate (hcls : cls.Sound ⟨h, m.store⟩)
    (harguments : ∀ v ∈ arguments, v.Sound ⟨h, m.store⟩)
    (hcount : refusal? host m cls.arity arguments.length = none) (id : ObjectId) :
    (instantiate cls arguments k m).Sound
      (h.extend (callMakes host (.classObj id cls) arguments.length m)) := by
  have hle : Scene.Le ⟨h, m.store⟩ ⟨h, m.store.newObject.2⟩ :=
    Scene.le_store (Store.extends_newObject _)
  have hobject : Value.Sound ⟨h, m.store.newObject.2⟩ (.object m.store.newObject.1 cls) :=
    hle.cls hcls
  have hnew : Machine.Sound h { m with store := m.store.newObject.2 } := by
    have hgrow := hm.grow [] (Store.extends_newObject m.store) rfl (fun i e he => by cases he)
      (fun f x v hv => .inl hv) (fun id x v hv => .inl (by rwa [Store.fields_newObject] at hv))
    rwa [History.extend_nil] at hgrow
  unfold instantiate callMakes
  simp only [hcount]
  cases hinit : cls.initializer? with
  | none =>
    simp only [History.extend_nil]
    exact ⟨hnew, hobject, hle.exprCont k hk⟩
  | some initializer =>
    obtain ⟨hsound, hbound⟩ := sound_bindMethod hnew (hle.cls hcls) hinit hobject
    have hle' := Scene.le_newFrame h { m with store := m.store.newObject.2 }
      [("this", Value.object m.store.newObject.1 cls)]
      [bindMakes cls { m with store := m.store.newObject.2 }]
    -- A class takes as many arguments as its initializer.
    have harity : initializer.arity = arguments.length := by
      have := eq_of_refusal? hcount
      unfold Class.arity at this
      rw [hinit] at this
      exact this
    have henter := sound_enter hsound
      (show ExprCont.Fits _ _ (.construct (.object m.store.newObject.1 cls) k) from
        ⟨hle'.value hobject, hle'.exprCont k (hle.exprCont k hk)⟩) hbound
      (fun v hv => hle'.value (hle.value (harguments v hv))) harity
    rw [History.extend_extend, Machine.size_bindMethod, Machine.env_bindMethod,
      (Class.mem_of_method? hinit).2] at henter
    exact henter

/-- By `Native.Honest`, a function of the host makes no closure up. -/
theorem sound_callNative {native : Native} (hnative : native.Honest)
    (harguments : ∀ v ∈ arguments, v.Sound ⟨h, m.store⟩) (paren : Token) :
    (callNative host native paren arguments k m).Sound h := by
  unfold callNative
  unfold Native.Honest at hnative
  cases haction : native.action with
  | clock => exact ⟨hm.congr rfl rfl rfl, trivial, hk⟩
  | apply f =>
    rw [haction] at hnative
    simp only
    split
    · next v hv =>
      refine ⟨hm, ?_, hk⟩
      -- A native hands back one of its arguments, or a value that refers to nothing.
      rcases hnative arguments v hv with hplain | hmem
      · exact Value.Sound.of_isPlain hplain
      · exact harguments v hmem
    · exact sound_fail hm hk _

/-- What can be called is entered, made or run; all else fails. -/
theorem sound_call (host : Host) {callee : Value} (hcallee : callee.Sound ⟨h, m.store⟩)
    (harguments : ∀ v ∈ arguments, v.Sound ⟨h, m.store⟩) (paren : Token) :
    (call host callee paren arguments k m).Sound
      (h.extend (callMakes host callee arguments.length m)) := by
  cases callee with
  | native index =>
    unfold call callMakes
    simp only [History.extend_nil]
    split
    · next native hnative =>
      split
      · exact sound_fail hm hk _
      · have hhonest := hm.natives native (Array.mem_of_getElem? hnative)
        exact sound_callNative hm hk hhonest harguments _
    · exact sound_fail hm hk _
  | function id closure =>
    unfold call callMakes
    cases hrefusal : refusal? host m closure.arity arguments.length with
    | some fault =>
      simp only [hrefusal, History.extend_nil]
      exact sound_fail hm hk _
    | none =>
      simp only [hrefusal]
      exact sound_enter hm hk hcallee harguments (eq_of_refusal? hrefusal)
  | classObj id cls =>
    unfold call
    cases hrefusal : refusal? host m cls.arity arguments.length with
    | some fault =>
      unfold callMakes
      simp only [hrefusal, History.extend_nil]
      exact sound_fail hm hk _
    | none =>
      simp only [hrefusal]
      exact sound_instantiate hm hk hcallee harguments hrefusal id
  | nil | bool | number | string | object =>
    unfold call callMakes
    simp only [History.extend_nil]
    exact sound_fail hm hk _

/-- The call follows when all arguments are evaluated. -/
theorem sound_nextArgument (host : Host) {callee : Value} (hcallee : callee.Sound ⟨h, m.store⟩)
    {before : List Value} (hbefore : ∀ v ∈ before, v.Sound ⟨h, m.store⟩) {after : List Expr}
    (hafter : (Node.exprs after).Ready ⟨h, m.store⟩ [] m.env) (paren : Token) :
    (nextArgument host callee paren before after k m).Sound
      (h.extend (if after = [] then callMakes host callee before.length m else [])) := by
  cases after with
  | nil =>
    have hcall := sound_call hm hk host hcallee (fun v hv => hbefore v (List.mem_reverse.1 hv))
      paren
    rw [List.length_reverse] at hcall
    exact hcall
  | cons e after =>
    exact .same ⟨hm, hafter.part hm.lawful fun _ => ⟨_, .argument⟩, hcallee, hbefore,
      hafter.part hm.lawful fun _ => ⟨_, .nextArguments⟩, hk⟩

end

/-! ### Steps -/

/-- An expression hands its parts to the continuation, in the same environment. -/
theorem sound_eval (e : Expr) (ht : (State.eval e k m).Sound h) : (Step.eval e k m).Sound h := by
  obtain ⟨hm, he, hk⟩ := ht
  have hpart {n' : Node} (hp : ∀ w, ∃ w', Walk.Part w (.expr e) w' n') :
      n'.Ready ⟨h, m.store⟩ [] m.env := he.part hm.lawful hp
  cases e with
  | literal l => exact ⟨hm, Value.Sound.of_isPlain (Value.isPlain_ofLiteral l), hk⟩
  | group e => exact ⟨hm, hpart fun _ => ⟨_, .grouped⟩, hk⟩
  | «variable» id name => exact sound_readVariable hm hk id name
  | thisRef id keyword => exact sound_readVariable hm hk id keyword
  | assign id name e => exact ⟨hm, hpart fun _ => ⟨_, .assigned⟩, ⟨e, he⟩, hk⟩
  | unary op e => exact ⟨hm, hpart fun _ => ⟨_, .operand⟩, hk⟩
  | binary a op b =>
    exact ⟨hm, hpart fun _ => ⟨_, .left⟩, hpart fun _ => ⟨_, .right⟩, hk⟩
  | logical a op b =>
    exact ⟨hm, hpart fun _ => ⟨_, .logicalLeft⟩, hpart fun _ => ⟨_, .logicalRight⟩, hk⟩
  | conditional c q a b =>
    exact ⟨hm, hpart fun _ => ⟨_, .chosenBy⟩, hpart fun _ => ⟨_, .chosenTrue⟩,
      hpart fun _ => ⟨_, .chosenFalse⟩, hk⟩
  | call callee paren arguments =>
    exact ⟨hm, hpart fun _ => ⟨_, .callee⟩, hpart fun _ => ⟨_, .arguments⟩, hk⟩
  | get object name => exact ⟨hm, hpart fun _ => ⟨_, .object⟩, hk⟩
  | set object name value =>
    exact ⟨hm, hpart fun _ => ⟨_, .owner⟩, hpart fun _ => ⟨_, .fieldValue⟩, hk⟩
  | function decl =>
    have hready := hpart fun _ => ⟨_, .literal⟩
    exact ⟨hm.congr rfl rfl rfl, ⟨⟨_, hready⟩, fun hfalse => by cases hfalse⟩, hk⟩

/-- A block opens an environment, and a declaration keeps what it promised. -/
theorem sound_exec (s : Stmt) {k : StmtCont} (ht : (State.exec s k m).Sound h) :
    (Step.exec s k m).Sound (h.extend ((State.exec s k m).makes host)) := by
  obtain ⟨hm, hs, hk⟩ := ht
  have hformed : (Node.stmt s).Formed Token.Spelled := by
    obtain ⟨v, hv, hready⟩ := hs
    exact hv ▸ (hm.lawful.visit hready.known).formed
  have hpart {n' : Node} (hp : ∀ w, ∃ w', Walk.Part w (.stmt s) w' n') :
      n'.Ready ⟨h, m.store⟩ [] m.env := hs.part hm.lawful hp
  cases s with
  | expr e => exact .same ⟨hm, hpart fun _ => ⟨_, .evaluated⟩, hk⟩
  | print e => exact .same ⟨hm, hpart fun _ => ⟨_, .printed⟩, hk⟩
  | varDecl name e =>
    cases e with
    | none => exact .same (State.sound_defined hm trivial hk)
    | some e => exact .same ⟨hm, hs.initializer, hk⟩
  | block body =>
    have hle := Scene.le_newFrame h m [] [(m.store.frames.size :: m.env, .block body)]
    have hsound := hm.newFrame [] m.env (.block body) fun _ hv => absurd hv List.not_mem_nil
    have hbody := (hle.node hs).block (List.mem_append_right _ (List.mem_singleton_self _))
    exact ⟨hsound.congr rfl rfl rfl, trivial, hbody, hle.stmtCont k hk⟩
  | ifElse c a b =>
    -- Branches declare nothing: a declaration is no statement of the grammar.
    refine .same ⟨hm, hpart fun _ => ⟨_, .condition⟩, ?_, ?_, ?_⟩
    · refine ⟨hpart fun _ => ⟨_, .whenTrue⟩, ?_⟩
      cases b with
      | none => exact Stmt.declared_eq_nil hformed.2.1 hformed.2.2
      | some b => exact Stmt.declared_eq_nil hformed.2.1.1 hformed.2.1.2
    · intro b' hb
      cases hb
      exact ⟨hpart fun _ => ⟨_, .whenFalse⟩,
        Stmt.declared_eq_nil hformed.2.2.1 hformed.2.2.2⟩
    · rw [Stmt.declared_eq_nil hformed rfl] at hk
      exact hk
  | whileLoop c a =>
    rw [Stmt.declared_eq_nil hformed rfl] at hk
    exact .same ⟨hm, hpart fun _ => ⟨_, .test⟩, hs, hk⟩
  | funDecl decl =>
    obtain ⟨name, hname⟩ := Option.isSome_iff_exists.1 hformed.2
    have hlabel := FunDecl.label_of_name? hname
    have hm' : Machine.Sound h { m with nextId := m.nextId + 1 } := hm.congr rfl rfl rfl
    have hk' : k.Fits ⟨h, m.store⟩ [name.lexeme] m.env := by
      unfold Stmt.declared at hk
      rwa [hname] at hk
    refine .same ?_
    show (State.flow .normal k
      (Machine.define { m with nextId := m.nextId + 1 } decl.label _)).Sound h
    rw [hlabel]
    -- The function is defined before it can be called, so its body may use its own name.
    refine State.sound_defined hm' ⟨⟨.function, ?_⟩, fun hfalse => by cases hfalse⟩ hk'
    obtain ⟨v, hv, hready⟩ := hs
    have hle := Scene.le_define (h := h) { m with nextId := m.nextId + 1 } name.lexeme
      (.function m.nextId ⟨decl, m.env, false⟩)
    exact (hle.node ⟨v, hv, hready⟩).named hname
      (hm'.holds_define hready.aligned _ _)
  | ret keyword e =>
    cases e with
    | none => exact .same ⟨hm, trivial, hk⟩
    | some e => exact .same ⟨hm, hpart fun _ => ⟨_, .returned⟩, hk⟩
  | classDecl name methods =>
    have hm' : Machine.Sound h { m with nextId := m.nextId + 1 } := hm.congr rfl rfl rfl
    obtain ⟨v, hv, hready⟩ := hs
    rw [exec_classDecl]
    refine .same (State.sound_redefined hm' ?_ hk)
    obtain ⟨f, hf, hholds⟩ := hm'.holds_define hready.aligned name.lexeme .nil
    have hle := Scene.le_define (h := h)
      ({ m with nextId := m.nextId + 1 }.define name.lexeme .nil) name.lexeme
      (.classObj m.nextId ⟨name.lexeme, methods, m.env⟩)
    have hready' := hle.ready ((Scene.le_define _ _ _).ready hready)
    exact ⟨v, name, hv, rfl, hready'.known, hready'.aligned,
      hready'.covers.declare (.inl ⟨f, hf, hle.holds f _ hholds⟩)⟩

/-- By the continuation that waits for the value. -/
theorem sound_resumeValue (v : Value) (ht : (State.value v k m).Sound h) :
    (resumeValue host v k m).Sound (h.extend ((State.value v k m).makes host)) := by
  obtain ⟨hm, hv, hk⟩ := ht
  cases k with
  | done => exact .same ⟨hm, hv, hk⟩
  | assign id name k => exact .same (sound_writeVariable hm hk.2 hv id name)
  | unary op k =>
    exact .same (sound_operatorResult (k := k) hm hk op fun r hr =>
      Value.Sound.of_isPlain (Value.isPlain_of_applyUnary hr))
  | left op right k => exact .same ⟨hm, hk.1, hv, hk.2⟩
  | right first op k =>
    refine .same (sound_operatorResult hm hk.2 op fun r hr => ?_)
    rcases Value.isPlain_or_eq_of_applyBinary hr with hplain | rfl
    · exact Value.Sound.of_isPlain hplain
    · exact hv
  | logical op right k =>
    refine .same ?_
    show State.Sound h (if v.settles op then .value v k m else .eval right k m)
    split
    · exact ⟨hm, hv, hk.2⟩
    · exact ⟨hm, hk.1, hk.2⟩
  | choose whenTrue whenFalse k =>
    refine .same ?_
    show State.Sound h (.eval (if v.isTruthy then whenTrue else whenFalse) k m)
    cases v.isTruthy with
    | true => exact ⟨hm, hk.1, hk.2.2⟩
    | false => exact ⟨hm, hk.2.1, hk.2.2⟩
  | callee paren arguments k =>
    have hnone : ∀ v ∈ ([] : List Value), v.Sound ⟨h, m.store⟩ :=
      fun _ hv => absurd hv List.not_mem_nil
    have hnext := sound_nextArgument hm hk.2 host hv hnone hk.1 paren
    -- What is made depends on whether there are arguments to evaluate first.
    cases arguments <;> exact hnext
  | argument callee paren before after k =>
    have hnext := sound_nextArgument hm hk.2.2.2 host hk.1
      (List.forall_mem_cons.2 ⟨hv, hk.2.1⟩) hk.2.2.1 paren
    cases after <;> exact hnext
  | property name k => exact sound_readProperty (k := k) hm hk hv name
  | fieldOwner name value k =>
    refine .same ?_
    cases v with
    | object id cls => exact ⟨hm, hk.1, hk.2⟩
    | nil | bool | number | string | native | function | classObj => exact sound_fail hm hk.2 _
  | fieldValue object name k =>
    have hle : Scene.Le ⟨h, m.store⟩ ⟨h, m.store.setField object name.lexeme v⟩ :=
      Scene.le_store (Store.extends_setField _ _ _ _)
    have hsound := hm.grow [] (Store.extends_setField m.store object name.lexeme v) rfl
      (fun i e he => by cases he) (fun f x v hv => .inl hv) fun id x v' hv' =>
        (Store.eq_or_fields_of_setField hv').symm.imp_right fun heq => by
          rw [History.extend_nil, heq]; exact hle.value hv
    rw [History.extend_nil] at hsound
    exact .same ⟨hsound, hle.value hv, hle.exprCont k hk⟩
  | construct object k => exact .same ⟨hm, hk.1, hk.2⟩
  | discard k => exact .same ⟨hm, trivial, hk⟩
  | print k =>
    have hwritten (complete : Bool) (sink : Sink) : State.Sound h
        (if complete then .flow .normal k { m with sink }
          else .failed (.output .full) (k.unwind { m with sink })) := by
      split
      · exact ⟨hm.congr rfl rfl rfl, trivial, hk⟩
      · obtain ⟨calls, hunwind⟩ := k.unwind_eq { m with sink } hk
        rw [hunwind]
        exact ⟨hm.congr rfl rfl rfl, rfl⟩
    exact .same (hwritten _ _)
  | define name k =>
    exact .same (State.sound_defined hm ((Scene.le_define m _ v).value hv) hk)
  | branch whenTrue whenFalse k =>
    obtain ⟨⟨htrue, hdeclared⟩, hfalse, hk⟩ := hk
    refine .same ?_
    show State.Sound h (if v.isTruthy then .exec whenTrue k m else _)
    split
    · refine ⟨hm, htrue, ?_⟩
      rw [hdeclared]
      exact hk
    · cases whenFalse with
      | some s =>
        obtain ⟨hs, hdeclared⟩ := hfalse s rfl
        refine ⟨hm, hs, ?_⟩
        rw [hdeclared]
        exact hk
      | none => exact ⟨hm, trivial, hk⟩
  | test condition body k =>
    refine .same ?_
    show State.Sound h (if v.isTruthy then .exec body (.again condition body k) m
      else .flow .normal k m)
    split
    · have hbody := hk.1.part hm.lawful fun _ => ⟨_, .loopBody⟩
      exact ⟨hm, hbody, hk⟩
    · exact ⟨hm, trivial, hk.2⟩
  | ret k => exact .same ⟨hm, hv, hk⟩

/-- The object of an initializer is always found. -/
theorem sound_callResult (hm : m.Sound h) (hcallee : callee.Sound ⟨h, m.store⟩) {f : Flow}
    (hf : f.Sound ⟨h, m.store⟩) :
    ∃ v, callResult callee f k m = .value v k m ∧ v.Sound ⟨h, m.store⟩ := by
  unfold callResult
  split
  · next hinit =>
    -- An initializer is always bound, so its closure starts with the frame of `this`.
    obtain ⟨g, hg, hthis⟩ := hcallee.object hinit
    obtain ⟨v, hv⟩ := Option.isSome_iff_exists.1 hthis
    have hlookup : m.store.lookupAt? callee.env 0 "this" = some v := by
      unfold Store.lookupAt? Store.holderAt?
      rw [hg, Option.filter_some, if_pos hthis]
      exact hv
    rw [hlookup]
    exact ⟨v, rfl, hm.store.frames g _ v hv⟩
  · cases f with
    | normal => exact ⟨.nil, rfl, trivial⟩
    | returned v => exact ⟨v, rfl, hf⟩

/-- By the continuation that waits for the end of a statement. -/
theorem sound_resumeFlow (f : Flow) {k : StmtCont} (ht : (State.flow f k m).Sound h) :
    (resumeFlow f k m).Sound h := by
  obtain ⟨hm, hf, hk⟩ := ht
  cases k with
  | done => exact ⟨hm, hf, hk⟩
  | sequence rest k =>
    cases f with
    | returned v => exact ⟨hm, hf, hk.2⟩
    | normal =>
      cases rest with
      | nil => exact ⟨hm, trivial, hk.2⟩
      | cons s rest =>
        exact ⟨hm, hk.1.part hm.lawful fun _ => ⟨_, .statement⟩, hk.1.rest, hk.2⟩
  | leaveBlock env k => exact ⟨hm.congr rfl rfl rfl, hf, hk⟩
  | again condition body k =>
    cases f with
    | returned v => exact ⟨hm, hf, hk.2⟩
    | normal => exact ⟨hm, hk.1.part hm.lawful fun _ => ⟨_, .test⟩, hk⟩
  | leaveCall env callee k =>
    have hm' : Machine.Sound h { m with env, callDepth := m.callDepth - 1 } :=
      hm.congr rfl rfl rfl
    obtain ⟨v, hresult, hv⟩ := sound_callResult (k := k) hm' hk.1 hf
    show State.Sound h (callResult callee f k { m with env, callDepth := m.callDepth - 1 })
    rw [hresult]
    exact ⟨hm', hv, hk.2⟩

end Step

/-- **Steps keep the invariant.** A sound state steps to a sound state, with the environments that
    the step makes. -/
theorem State.Sound.step (ht : t.Sound h) (host : Host) :
    (Scriptlet.step host t).Sound (h.extend (t.makes host)) := by
  cases t with
  | eval e k m => exact .same (Step.sound_eval e ht)
  | exec s k m => exact Step.sound_exec s ht
  | value v k m => exact Step.sound_resumeValue v ht
  | flow f k m => exact .same (Step.sound_resumeFlow f ht)
  | failed e m => exact ht.same
  | desync d m => exact ht.same

/-- Any number of steps. -/
theorem State.Sound.steps (ht : t.Sound h) (host : Host) (n : Nat) :
    ((Scriptlet.step host)^[n] t).Sound (h.extend (t.makesIn host n)) := by
  induction n generalizing t h with
  | zero => exact ht.same
  | succ n ih =>
    rw [Function.iterate_succ_apply]
    have hsteps := ih (ht.step host)
    rw [History.extend_extend] at hsteps
    exact hsteps

end Scriptlet
