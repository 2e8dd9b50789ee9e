import Scriptlet.Proofs.Sessions
import Scriptlet.Proofs.Steps

namespace Scriptlet

/-!
# Scopes and environments in a session

* `State.ActsOn` — the node that a state is about to evaluate, execute or assign to.
* `Session.Moment.environment_follows_scopes` — whenever a node is acted on, the current
  environment has one frame for each scope that the resolution walk had open at the node, made for
  the construct which opened that scope; recorded depths stay inside of it.
* `Session.desync_only_in_own_initializer` — a variable is out of place only where its name is
  used inside of its own initializer.
-/

/-- The node that is about to be evaluated or executed, or to which a value is about to be
    assigned. -/
inductive State.ActsOn : State → Node → Prop
  | eval {e k m} : ActsOn (.eval e k m) (.expr e)
  | exec {s k m} : ActsOn (.exec s k m) (.stmt s)
  | assign {v id name k m e} : ActsOn (.value v (.assign id name k) m) (.expr (.assign id name e))

/-- What a sound state acts on is ready in the current environment. -/
theorem State.Sound.ready {h : History} {t : State} (ht : t.Sound h) {n : Node}
    (hn : t.ActsOn n) :
    ∃ v, t.ActsOn v.node ∧ Ready ⟨h, t.machine.store⟩ [] t.machine.env v := by
  cases hn with
  | eval =>
    obtain ⟨v, hv, hready⟩ := ht.2.1
    exact ⟨v, hv ▸ .eval, hready⟩
  | exec =>
    obtain ⟨v, hv, hready⟩ := ht.2.1
    exact ⟨v, hv ▸ .exec, hready⟩
  | assign =>
    obtain ⟨e, v, hv, hready⟩ := ht.2.2.1
    exact ⟨v, hv ▸ .assign, hready⟩

/-! ### Frames and constructs -/

section Aligned

variable {made : List Making} {env : Env} {site : List Construct}

theorem Aligned.length (h : Aligned made env site) : env.length = site.length + 1 := by
  induction h with
  | globals => rfl
  | cons _ _ ih => exact congrArg (· + 1) ih

theorem Aligned.drop_length (h : Aligned made env site) :
    env.drop site.length = Machine.globals := by
  induction h with
  | globals => rfl
  | cons _ _ ih => exact ih

theorem Aligned.mem_made (h : Aligned made env site) {k : Nat} {c : Construct}
    (hk : site[k]? = some c) : (env.drop k, c) ∈ made := by
  induction h generalizing k with
  | globals => cases hk
  | cons hmem _ ih =>
    cases k with
    | zero =>
      cases hk
      exact hmem
    | succ k => exact ih hk

/-- No environment is made twice. -/
theorem Machine.Sound.made_unique {h : History} {m : Machine} (hm : m.Sound h) {c c' : Construct}
    (hc : (env, c) ∈ h.made) (hc' : (env, c') ∈ h.made) : c' = c := by
  obtain ⟨i, hi⟩ := List.mem_iff_getElem?.1 hc
  obtain ⟨j, hj⟩ := List.mem_iff_getElem?.1 hc'
  have hhead : some (i + 1) = some (j + 1) := by rw [← hm.numbered i _ hi, ← hm.numbered j _ hj]
  have hij : i = j := Nat.succ.inj (Option.some.inj hhead)
  rw [hij, hj] at hi
  exact congrArg Prod.snd (Option.some.inj hi)

end Aligned

/-- The owners are as many as the scopes. -/
theorem Walk.length_owners (w : Walk) : w.owners.length = w.scopes.length := List.length_map _

/-- A distance stays inside of the scopes. -/
theorem Walk.lt_of_depth? {w : Walk} {x : String} {d : Nat} (h : w.depth? x = some d) :
    d < w.scopes.length := (List.findIdx?_eq_some_iff_getElem.1 h).1

/-- A state acts on the node of a visit, in an environment that copies the scopes around it. -/
structure State.Mirrors (t : State) (h : History) (v : Visit) : Prop where
  known : h.Knows v
  acts : t.ActsOn v.node
  /-- There is one frame for each scope, and that of the globals. -/
  length : t.machine.env.length = v.walk.scopes.length + 1
  globals : t.machine.env.drop v.walk.scopes.length = Machine.globals
  /-- The environment at each distance was made for the construct that opened the scope at that
      distance, and for no other one. -/
  made : ∀ k < v.walk.scopes.length, ∃ c, v.site[k]? = some c ∧
    (t.machine.env.drop k, c) ∈ h.made ∧ ∀ c', (t.machine.env.drop k, c') ∈ h.made → c' = c
  /-- A recorded depth is the distance of the scope that holds the name. -/
  depth : ∀ id name d, v.node.Refers id name → t.machine.depths[id]? = some d →
    v.walk.depth? name.lexeme = some d ∧ d < v.walk.scopes.length

/-- **Environments follow scopes.** Whenever a session acts on a node, the current environment is
    the globals with one frame for each scope that the resolution walk had open at the node, made
    for the construct which opened that scope. A depth recorded for the node leads to the frame
    of the scope that holds its name, never to the globals nor beyond them. What requests define of
    the host is `Native.Honest`, so no value comes from outside with an environment of its own. -/
theorem Session.Moment.environment_follows_scopes {host : Host} {sink : Sink}
    {rs : List Request} {t : State} {h : History} {n : Node}
    (hnatives : ∀ r ∈ rs, r.DefinesOnly Native.Honest)
    (ht : Session.Moment host sink rs t h) (hn : t.ActsOn n) : ∃ v, t.Mirrors h v := by
  have hsound := ht.sound hnatives
  obtain ⟨v, hv, hready⟩ := hsound.ready hn
  have hlevel : v.site.length = v.walk.scopes.length := by
    rw [← v.walk.length_owners]
    exact (hsound.machine.lawful.visit hready.known).level.symm
  refine ⟨v, hready.known, hv, ?_, ?_, fun k hk => ?_, fun id name d hrefers hd => ?_⟩
  · rw [← hlevel]
    exact hready.aligned.length
  · rw [← hlevel]
    exact hready.aligned.drop_length
  · rw [← hlevel] at hk
    have hsite : v.site[k]? = some v.site[k] := List.getElem?_eq_getElem hk
    have hmade := hready.aligned.mem_made hsite
    exact ⟨v.site[k], hsite, hmade, fun c' hc' => hsound.machine.made_unique hmade hc'⟩
  · have hdepth := hsound.machine.recorded v id name d hready.known hrefers hd
    exact ⟨hdepth, Walk.lt_of_depth? hdepth⟩

/-- The state in which the first statement of a source starts, on a new machine. -/
def Session.firstState (sink : Sink) (source : String) : State :=
  ((Session.new sink).analyze source).2.machine.begin false
    (((Session.new sink).analyze source).1.statements.headD (.block []))

theorem Session.passes_firstState (host : Host) {sink : Sink} {source : String}
    (hs : ((Session.new sink).analyze source).1.statements.isEmpty = false) (n : Nat) :
    Machine.Passes host false ((Session.new sink).analyze source).1.statements
      ((Session.new sink).analyze source).2.machine []
      ((step host)^[n] (Session.firstState sink source))
      ((Session.firstState sink source).makesIn host n) := by
  unfold Session.firstState
  cases hss : ((Session.new sink).analyze source).1.statements with
  | nil =>
    rw [hss] at hs
    cases hs
  | cons s rest => exact .now n

/-- The states that follow it are moments of a session. -/
theorem Session.moment_firstState (host : Host) {sink : Sink} {source : String}
    (hs : ((Session.new sink).analyze source).1.statements.isEmpty = false) (n : Nat) :
    ∃ h, Session.Moment host sink [.force source]
      ((step host)^[n] (Session.firstState sink source)) h :=
  ⟨_, Session.Moment.mk (r := .force source) Session.After.new rfl
    (Session.passes_firstState host hs n)⟩

/-- A state that evaluates or executes. -/
def State.isBusy : State → Bool
  | .eval _ _ _ => true
  | .exec _ _ _ => true
  | _ => false

theorem State.exists_actsOn {t : State} (h : t.isBusy = true) : ∃ n, t.ActsOn n := by
  cases t with
  | eval => exact ⟨_, .eval⟩
  | exec => exact ⟨_, .exec⟩
  | value | flow | failed | desync => cases h

/-- A block, in it a class, in it a method, in it a block that reads `this`. -/
def Session.thisInBlock : String :=
  "\x7b class A \x7b m() \x7b \x7b var x = this; \x7d \x7d \x7d A().m(); \x7d"

/-- Where `this` is read there, each of the four has a frame in the environment. -/
theorem Session.Moment.environment_follows_scopes_thisInBlock :
    ∃ t h, Session.Moment (Host.usual fun _ => 0) Sink.unbounded [.force Session.thisInBlock] t h ∧
      t.machine.env = [4, 3, 2, 1, 0] ∧ ∃ v, t.Mirrors h v ∧ v.walk.scopes.length = 4 := by
  have hs : ((Session.new Sink.unbounded).analyze Session.thisInBlock).1.statements.isEmpty =
      false := by decide +kernel
  obtain ⟨h, ht⟩ := Session.moment_firstState (Host.usual fun _ => 0) hs 16
  have henv : ((step (Host.usual fun _ => 0))^[16]
      (Session.firstState Sink.unbounded Session.thisInBlock)).machine.env =
        [4, 3, 2, 1, 0] := by decide +kernel
  have hbusy : ((step (Host.usual fun _ => 0))^[16]
      (Session.firstState Sink.unbounded Session.thisInBlock)).isBusy = true := by decide +kernel
  obtain ⟨n, hn⟩ := State.exists_actsOn hbusy
  obtain ⟨v, hv⟩ := Session.Moment.environment_follows_scopes
    (by simp [Request.DefinesOnly]) ht hn
  refine ⟨_, h, ht, henv, v, hv, ?_⟩
  have hlength := hv.length
  rw [henv] at hlength
  exact (Nat.succ.inj hlength).symm

/-! ### Variables out of place -/

/-- A name means, at a visit, a variable inside of whose own initializer the visit lies. -/
def History.SelfReference (h : History) (v : Visit) (name : Token) : Prop :=
  ∃ (d : Nat) (scope : LocalScope) (b : Binding), v.walk.depth? name.lexeme = some d ∧
    v.walk.scopes[d]? = some scope ∧ scope[name.lexeme]? = some b ∧ h.InInitializer v d b.token

section Desync

variable {h : History} {host : Host} {m : Machine} {v : Visit}

variable {c : Scene} {name : Token} {id : NodeId}

/-- A name is held at its distance, unless it stands inside of its own initializer. -/
theorem Ready.holds_or_selfReference {env : Env} (hr : Ready c [] env v) {d : Nat}
    (hd : v.walk.depth? name.lexeme = some d) :
    (∃ f, env[d]? = some f ∧ c.store.holds f name.lexeme = true) ∨
      c.history.SelfReference v name := by
  obtain ⟨hlt, hcontains, -⟩ := List.findIdx?_eq_some_iff_getElem.1 hd
  have hscope : v.walk.scopes[d]? = some v.walk.scopes[d] := List.getElem?_eq_getElem hlt
  obtain ⟨b, hb⟩ : ∃ b, v.walk.scopes[d][name.lexeme]? = some b :=
    Option.isSome_iff_exists.1 (Std.TreeMap.isSome_getElem?_eq_contains.trans hcontains)
  have howners : v.walk.owners[d]? =
      some fun x => (v.walk.scopes[d])[x]?.map Binding.token := by
    unfold Walk.owners
    rw [List.getElem?_map, hscope]
    rfl
  rcases hr.covers d _ name.lexeme b.token howners (by rw [hb]; rfl) with hheld | ⟨-, hnone⟩ | hown
  · exact .inl hheld
  · exact absurd hnone List.not_mem_nil
  · exact .inr ⟨d, _, b, hd, hscope, hb, hown⟩

/-- `this` is never inside of its own initializer: it is not the name of a variable. -/
theorem Scene.Lawful.not_selfReference_this (hc : c.Lawful) {keyword : Token}
    (hv : c.history.Knows v) (hthis : keyword.lexeme = "this") :
    ¬ c.history.SelfReference v keyword := by
  rintro ⟨d, scope, b, -, hscope, hb, e, init, hknown, hnode, -⟩
  have hname : b.token.lexeme = "this" := by
    have hmem : (fun x => scope[x]?.map Binding.token) ∈ v.walk.owners :=
      List.mem_map_of_mem (List.mem_of_getElem? hscope)
    rw [← hthis]
    exact (hc.visit hv).named _ hmem keyword.lexeme b.token (by rw [hb]; rfl)
  have hformed := (hc.visit hknown).formed
  rw [hnode] at hformed
  obtain ⟨hspelled, hidentifier⟩ := hformed.1
  exact hspelled.ne_spelling hidentifier (by decide : Symbol.thisKw ∈ Symbol.keywords) hname

/-! ### Steps that find a variable out of place -/

variable {k : ExprCont}

/-- A read that finds nothing has a depth, and the frame there does not hold the name. -/
theorem Step.of_isDesync_readVariable (h : (Step.readVariable id name k m).isDesync = true) :
    ∃ d, m.depths[id]? = some d ∧
      ∀ f, m.env[d]? = some f → m.store.holds f name.lexeme = false := by
  unfold Step.readVariable at h
  split at h
  · next d hd =>
    split at h
    · cases h
    · next hnone =>
      refine ⟨d, hd, fun f hf => ?_⟩
      unfold Store.lookupAt? Store.holderAt? at hnone
      rw [hf, Option.filter_some] at hnone
      split at hnone
      · next hholds =>
        unfold Store.holds at hholds
        rw [Option.bind_some] at hnone
        rw [hnone] at hholds
        cases hholds
      · next hholds => exact eq_false_of_ne_true hholds
  · split at h <;> cases h

/-- So does an assignment. -/
theorem Step.of_isDesync_writeVariable {x : Value}
    (h : (Step.writeVariable id name x k m).isDesync = true) :
    ∃ d, m.depths[id]? = some d ∧
      ∀ f, m.env[d]? = some f → m.store.holds f name.lexeme = false := by
  unfold Step.writeVariable at h
  split at h
  · next d hd =>
    split at h
    · cases h
    · next hnone =>
      refine ⟨d, hd, fun f hf => ?_⟩
      unfold Store.holderAt? at hnone
      rw [hf, Option.filter_some] at hnone
      split at hnone
      · cases hnone
      · next hholds => exact eq_false_of_ne_true hholds
  · split at h <;> cases h

/-- A node for whose name nothing is found refers to itself. -/
theorem Ready.selfReference_of_desync (hm : m.Sound h) (hr : Ready ⟨h, m.store⟩ [] m.env v)
    (hrefers : v.node.Refers id name)
    (hnone : ∃ d, m.depths[id]? = some d ∧
      ∀ f, m.env[d]? = some f → m.store.holds f name.lexeme = false) :
    (∃ d, m.depths[id]? = some d ∧ v.walk.depth? name.lexeme = some d) ∧
      h.SelfReference v name := by
  obtain ⟨d, hd, hnone⟩ := hnone
  have hdepth := hm.recorded v id name d hr.known hrefers hd
  refine ⟨⟨d, hd, hdepth⟩, ?_⟩
  rcases hr.holds_or_selfReference hdepth with ⟨f, hf, hholds⟩ | hself
  · rw [hnone f hf] at hholds
    cases hholds
  · exact hself

/-- The node that a state acts on is a name, read or assigned to, that means the variable whose
    own initializer it stands in. -/
def State.UsesOwnVariable (t : State) (h : History) : Prop :=
  ∃ v id name, h.Knows v ∧ t.ActsOn v.node ∧
    (v.node = .expr (.variable id name) ∨ ∃ e, v.node = .expr (.assign id name e)) ∧
    (∃ d, t.machine.depths[id]? = some d ∧ v.walk.depth? name.lexeme = some d) ∧
    h.SelfReference v name

/-- A sound state that steps to a variable out of place uses it in its own initializer. -/
theorem State.Sound.usesOwnVariable {t : State} (ht : t.Sound h) (hnot : t.isDesync = false)
    (hstep : (Scriptlet.step host t).isDesync = true) : t.UsesOwnVariable h := by
  have hstrays : t.Strays := by
    obtain ⟨-, hsame⟩ | ⟨c, m, -, hgoes⟩ := t.step_cases host
    · rw [hsame, hnot] at hstep
      cases hstep
    · generalize Scriptlet.step host t = t' at hgoes hstep
      cases hgoes with
      | desync hstrays => exact hstrays
      | _ => cases hstep
  cases hstrays with
  | @read id name k m =>
    obtain ⟨hm, ⟨v, hv, hready⟩, hk⟩ := ht
    have hrefers : v.node.Refers id name := hv ▸ .name
    obtain ⟨hdepth, hself⟩ :=
      hready.selfReference_of_desync hm hrefers (Step.of_isDesync_readVariable hstep)
    exact ⟨v, id, name, hready.known, hv ▸ .eval, .inl hv, hdepth, hself⟩
  | @this id keyword k m =>
    obtain ⟨hm, ⟨v, hv, hready⟩, hk⟩ := ht
    have hrefers : v.node.Refers id keyword := hv ▸ .this
    obtain ⟨-, hself⟩ :=
      hready.selfReference_of_desync hm hrefers (Step.of_isDesync_readVariable hstep)
    -- No variable is called `this`, so `this` does not stand in its own initializer.
    have hformed := (hm.lawful.visit hready.known).formed
    rw [hv] at hformed
    obtain ⟨hspelled, s, hs, his⟩ := hformed
    cases List.mem_singleton.1 hs
    exact absurd hself
      (hm.lawful.not_selfReference_this hready.known (hspelled.lexeme_of_is his))
  | @assign x id name k m =>
    obtain ⟨hm, hx, hk⟩ := ht
    obtain ⟨e, v, hv, hready⟩ := hk.1
    have hrefers : v.node.Refers id name := hv ▸ .assign
    obtain ⟨hdepth, hself⟩ :=
      hready.selfReference_of_desync hm hrefers (Step.of_isDesync_writeVariable hstep)
    exact ⟨v, id, name, hready.known, hv ▸ .assign, .inr ⟨e, hv⟩, hdepth, hself⟩
  | @result f env callee k m =>
    obtain ⟨hm, hf, hk⟩ := ht
    -- In a sound state the result of a call is there: an initializer has its `this`.
    obtain ⟨x, hresult, -⟩ :=
      Step.sound_callResult (k := k) (m := { m with env, callDepth := m.callDepth - 1 })
        (hm.congr rfl rfl rfl) hk.1 hf
    have hstep' : (Step.callResult callee f k
        { m with env, callDepth := m.callDepth - 1 }).isDesync = true := hstep
    rw [hresult] at hstep'
    cases hstep'

/-! ### Sessions that end -/

variable {sink : Sink} {alone : Bool} {ss : List Stmt} {made made' : List Making} {t : State}
  {m' : Machine}

/-- Before a variable is found out of place, there is a step that finds it so. -/
theorem Machine.Passes.before_desync (hp : Machine.Passes host alone ss m made t made')
    (ht : t.isDesync = true) :
    ∃ t₀ made₀, Machine.Passes host alone ss m made t₀ made₀ ∧ t₀.isDesync = false ∧
      step host t₀ = t := by
  have hfinal {t : State} (h : t.isDesync = true) : t.isFinal = true := by
    cases t with
    | desync => rfl
    | _ => cases h
  obtain ⟨t₀, made₀, hp₀, hlive, hstep⟩ := hp.exists_before (hfinal ht)
  refine ⟨t₀, made₀, hp₀, Bool.eq_false_iff.2 fun hdesync => ?_, hstep⟩
  exact absurd (hlive.symm.trans (hfinal hdesync)) Bool.false_ne_true

/-- A request that ends a session runs a program that passes a state with a variable out of
    place. -/
theorem Request.passes_of_perform {s s' : Session} {r : Request} {fuel : Nat}
    (hr : r.perform host fuel s = some (false, s')) (made : List Making) :
    ∃ job t made', r.job? s = some job ∧
      Machine.Passes host job.alone job.statements job.machine made t made' ∧
      t.isDesync = true := by
  obtain ⟨job, t, source, hj, hfinishes, hgoesOn, -⟩ | ⟨source, -, -, hgoesOn, -⟩ |
    ⟨n, -, hgoesOn, -⟩ := Request.perform_cases hr
  · have ht : t.isDesync = true := by simpa using hgoesOn.symm
    obtain ⟨made', hp⟩ := hfinishes.exists_passes (by rintro _ rfl; cases ht) made
    exact ⟨job, t, made', hj, hp, ht⟩
  · cases hgoesOn
  · cases hgoesOn

/-- No name in the programs read so far stands inside of its own initializer. -/
def History.NoSelfReference (h : History) : Prop :=
  ∀ v id name, h.Knows v → v.node.Refers id name → ¬ h.SelfReference v name

/-- Without such names no state uses a variable in its own initializer. -/
theorem History.NoSelfReference.not_usesOwnVariable (hno : h.NoSelfReference) :
    ¬ t.UsesOwnVariable h := by
  rintro ⟨v, id, name, hknown, -, hnode, -, hself⟩
  rcases hnode with hnode | ⟨e, hnode⟩
  · exact hno v id name hknown (hnode ▸ .name) hself
  · exact hno v id name hknown (hnode ▸ .assign) hself

/-- A program that is sound from the start never finds a variable out of place without them. -/
theorem Machine.Passes.not_isDesync {programs : List Visit}
    (hp : Machine.Passes host alone ss m made t made') (hm : m.Sound ⟨programs, made⟩)
    (henv : m.env = Machine.globals) (htop : History.AtTop ⟨programs, made⟩ (.stmts ss))
    (hno : History.NoSelfReference ⟨programs, made⟩) : t.isDesync = false := by
  cases ht : t.isDesync with
  | false => rfl
  | true =>
    obtain ⟨t₀, made₀, hp₀, ht₀, rfl⟩ := hp.before_desync ht
    have huses := (hp₀.sound hm henv htop).usesOwnVariable ht₀ ht
    exact absurd huses
      (History.NoSelfReference.not_usesOwnVariable (h := ⟨programs, made₀⟩) hno)

end Desync

/-- **A variable is out of place only in its own initializer.** For every session of requests,
    whose functions of the host are `Native.Honest`:

    * a step that finds a variable out of place reads or assigns to a name inside of the
      initializer of the very declaration that the name was resolved to;
    * `this` and the object of an initializer are always found;
    * as long as no name stands inside of its own initializer, no variable is out of place, and
      no request ends the session. -/
theorem Session.desync_only_in_own_initializer (host : Host) (sink : Sink) (rs : List Request)
    (hnatives : ∀ r ∈ rs, r.DefinesOnly Native.Honest) :
    (∀ t h, Session.Moment host sink rs t h →
      (t.isDesync = false → (step host t).isDesync = true → t.UsesOwnVariable h) ∧
      (∀ id keyword k m, t = .eval (.thisRef id keyword) k m → (step host t).isDesync = false) ∧
      (∀ f env callee k m, t = .flow f (.leaveCall env callee k) m →
        (step host t).isDesync = false) ∧
      (h.NoSelfReference → t.isDesync = false)) ∧
    ∀ s h, Session.After host sink rs s h → ∀ (r : Request) fuel s',
      History.NoSelfReference ⟨h.programs ++ (r.program? s).toList, h.made⟩ →
        r.perform host fuel s ≠ some (false, s') := by
  refine ⟨fun t h ht => ?_, fun s h hs r fuel s' hno hr => ?_⟩
  · have huses : t.isDesync = false → (step host t).isDesync = true → t.UsesOwnVariable h :=
      (ht.sound hnatives).usesOwnVariable
    refine ⟨huses, ?_, ?_, ?_⟩
    · rintro id keyword k m rfl
      refine eq_false_of_ne_true fun hstep => ?_
      obtain ⟨v, id', name, -, hacts, hnode, -⟩ := huses rfl hstep
      rcases hnode with hnode | ⟨e, hnode⟩ <;> rw [hnode] at hacts <;> cases hacts
    · rintro f env callee k m rfl
      refine eq_false_of_ne_true fun hstep => ?_
      obtain ⟨v, id', name, -, hacts, -⟩ := huses rfl hstep
      cases hacts
    · intro hno
      obtain ⟨hs, hj, hp⟩ := ht
      have hbefore := (List.forall_mem_append.1 hnatives).1
      obtain ⟨hm, henv, htop⟩ := (hs.sound hbefore).job hj
      exact hp.not_isDesync hm henv htop hno
  · obtain ⟨job, t, made, hj, hp, ht⟩ := Request.passes_of_perform hr h.made
    obtain ⟨hm, henv, htop⟩ := (hs.sound hnatives).job hj
    exact absurd ((hp.not_isDesync hm henv htop hno).symm.trans ht) Bool.false_ne_true

/-- A function that is called in the initializer of a variable, and reads the variable. -/
def Session.calledInInitializer : String :=
  "\x7b var a = fun () \x7b return a; \x7d(); print a; \x7d"

/-- Nothing is wrong with that source, and yet the variable is out of place when it is read. -/
theorem Session.desync_only_in_own_initializer_calledInInitializer :
    ((Session.new Sink.unbounded).analyze Session.calledInInitializer).1.report.hadError = false ∧
    ∃ t h, Session.Moment (Host.usual fun _ => 0) Sink.unbounded
        [.force Session.calledInInitializer] t h ∧
      t.isDesync = false ∧ (step (Host.usual fun _ => 0) t).isDesync = true ∧
      t.UsesOwnVariable h := by
  have hs : ((Session.new Sink.unbounded).analyze
      Session.calledInInitializer).1.statements.isEmpty = false := by decide +kernel
  obtain ⟨h, ht⟩ := Session.moment_firstState (Host.usual fun _ => 0) hs 8
  have hnot : ((step (Host.usual fun _ => 0))^[8]
      (Session.firstState Sink.unbounded Session.calledInInitializer)).isDesync = false := by
    decide +kernel
  have hstep : (step (Host.usual fun _ => 0) ((step (Host.usual fun _ => 0))^[8]
      (Session.firstState Sink.unbounded Session.calledInInitializer))).isDesync = true := by
    decide +kernel
  refine ⟨by decide +kernel, _, h, ht, hnot, hstep, ?_⟩
  exact ((Session.desync_only_in_own_initializer _ _ _ (by simp [Request.DefinesOnly])).1 _ h ht).1
    hnot hstep

end Scriptlet
