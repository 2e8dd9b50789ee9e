import Scriptlet.Proofs.Frames

namespace Scriptlet

/-!
# Chains of environments

Environments are made one inside of another, and many may share those around them. Each of them
finds a variable in the nearest scope that holds it.

* `Store.Nearest` — the nearest scope of a chain that holds a variable, and its distance.
* `Store.own?`, `Store.defineOwn` — a variable of the scope of an environment itself.
* `Forest` — environments made one after another over one store; `Forest.Step` — what is done to
  them; `Forest.after` — the forest behind some steps.
* `Forest.Nested` — every environment has a scope of its own, inside of an environment that was
  made before it; `Forest.nested_after` — so it is in every forest.
* `Forest.Rebinds` — one variable of one scope has a new value, which is found exactly where that
  scope is the nearest to hold the variable.
* `Forest.chains_are_nested_stores` — reading, assignment and definition by these words alone.
-/

namespace Store

/-! ### The nearest scope that holds a variable -/

/-- Of the scopes of a chain, the nearest that holds `x`, at a distance from the start of the
    chain. A scope is given by the chain that starts at it. -/
inductive Nearest (s : Store) (x : String) : Env → Nat → Env → Prop
  | here {f outer} (h : s.holds f x = true) : Nearest s x (f :: outer) 0 (f :: outer)
  | further {f outer d scope} (hf : s.holds f x = false) (h : Nearest s x outer d scope) :
      Nearest s x (f :: outer) (d + 1) scope

/-- The value of a variable of the scope of an environment itself. -/
def own? (s : Store) (env : Env) (name : String) : Option Value :=
  env.head?.bind (s.get? · name)

/-- Bind a variable in the scope of an environment itself. -/
def defineOwn (s : Store) (env : Env) (name : String) (v : Value) : Store :=
  match env with
  | [] => s
  | f :: _ => s.define f name v

/-- So do the declarations of a program, in the current environment. -/
theorem store_define_eq_defineOwn (m : Machine) (x : String) (v : Value) :
    (m.define x v).store = m.store.defineOwn m.env x v := by
  unfold Machine.define defineOwn
  cases m.env <;> rfl

variable {s s' : Store} {x : String} {env scope : Env} {d : Nat} {f : FrameId}

@[simp]
theorem holder?_cons (s : Store) (f : FrameId) (env : Env) (x : String) :
    s.holder? (f :: env) x = if s.holds f x then some f else s.holder? env x := by
  unfold holder?
  cases h : s.holds f x <;> simp [h]

/-- An inner scope hides the ones around it. -/
theorem lookup?_cons (s : Store) (f : FrameId) (env : Env) (x : String) :
    s.lookup? (f :: env) x = (s.get? f x).or (s.lookup? env x) := by
  unfold lookup?
  rw [holder?_cons]
  unfold holds
  cases h : s.get? f x with
  | none => rfl
  | some v => exact h

/-- Variables are found by what the scopes of the chain hold under their name. -/
theorem lookup?_congr (h : ∀ f ∈ env, s'.get? f x = s.get? f x) :
    s'.lookup? env x = s.lookup? env x := by
  induction env with
  | nil => rfl
  | cons f env ih =>
    rw [lookup?_cons, lookup?_cons, h f List.mem_cons_self,
      ih fun g hg => h g (List.mem_cons_of_mem f hg)]

namespace Nearest

theorem holder?_eq (h : s.Nearest x env d scope) : s.holder? env x = scope.head? := by
  induction h with
  | here hf => rw [holder?_cons, if_pos hf, List.head?_cons]
  | further hf _ ih => rw [holder?_cons, hf, if_neg Bool.false_ne_true, ih]

/-- The scope stands at its distance. -/
theorem holderAt?_eq (h : s.Nearest x env d scope) : s.holderAt? env d x = scope.head? := by
  induction h with
  | here hf => simp [holderAt?, hf]
  | further _ _ ih => exact ih

theorem lookup?_eq (h : s.Nearest x env d scope) : s.lookup? env x = s.own? scope x := by
  unfold lookup? own?
  rw [h.holder?_eq]

theorem exists_cons (h : s.Nearest x env d scope) :
    ∃ f outer, scope = f :: outer ∧ s.holds f x = true := by
  induction h with
  | here hf => exact ⟨_, _, rfl, hf⟩
  | further _ _ ih => exact ih

end Nearest

theorem exists_nearest (h : s.holder? env x = some f) :
    ∃ d outer, s.Nearest x env d (f :: outer) := by
  induction env with
  | nil => cases h
  | cons g env ih =>
    rw [holder?_cons] at h
    cases hg : s.holds g x with
    | true =>
      rw [hg, if_pos rfl] at h
      cases h
      exact ⟨0, env, .here hg⟩
    | false =>
      rw [hg, if_neg Bool.false_ne_true] at h
      obtain ⟨d, outer, hnear⟩ := ih h
      exact ⟨d + 1, outer, .further hg hnear⟩

/-- **What is found is what the nearest scope holds.** -/
theorem lookup?_eq_some_iff {v : Value} :
    s.lookup? env x = some v ↔ ∃ d scope, s.Nearest x env d scope ∧ s.own? scope x = some v := by
  constructor
  · intro h
    obtain ⟨f, hf, hv⟩ := Option.bind_eq_some_iff.1 h
    obtain ⟨d, outer, hnear⟩ := exists_nearest hf
    exact ⟨d, f :: outer, hnear, hv⟩
  · rintro ⟨d, scope, hnear, hv⟩
    rw [hnear.lookup?_eq, hv]

/-- An assignment needs a variable that can be found. -/
theorem isSome_assign? (s : Store) (env : Env) (x : String) (v : Value) :
    (s.assign? env x v).isSome = (s.lookup? env x).isSome := by
  unfold assign? lookup?
  cases h : s.holder? env x with
  | none => rfl
  | some f => exact (List.find?_some h).symm

theorem size_defineOwn (s : Store) (env : Env) (x : String) (v : Value) :
    (s.defineOwn env x v).frames.size = s.frames.size := by
  unfold defineOwn
  cases env with
  | nil => rfl
  | cons f env => exact size_define s f x v

/-- An assignment makes no frame, whichever frame it is meant for. -/
theorem size_assigned (s : Store) (holder? : Option FrameId) (x : String) (v : Value) :
    ((holder?.map (s.assign · x v)).getD s).frames.size = s.frames.size := by
  cases holder? with
  | none => rfl
  | some f => exact size_assign s f x v

end Store

/-! ### Forests of environments -/

/-- Environments over one store, in the order in which they were made. -/
structure Forest where
  envs : Array Env
  store : Store

/-- What can be done to the environments of a forest, which are told by their numbers. -/
inductive Forest.Step where
  | new
  | child (outer : Nat)
  | define (env : Nat) (name : String) (v : Value)
  | assign (env : Nat) (name : String) (v : Value)
  | assignAt (env depth : Nat) (name : String) (v : Value)

namespace Forest

def empty : Forest := ⟨#[], .empty⟩

/-- The environment of a number, without any scope if there is none. -/
def env (F : Forest) (i : Nat) : Env := F.envs[i]?.getD []

/-- Make an environment inside of another one. -/
def grow (F : Forest) (outer : Env) : Forest :=
  ⟨F.envs.push (F.store.newFrame.1 :: outer), F.store.newFrame.2⟩

/-- One step. An assignment that fails changes nothing. -/
def step (F : Forest) : Step → Forest
  | .new => F.grow []
  | .child i => F.grow (F.env i)
  | .define i x v => { F with store := F.store.defineOwn (F.env i) x v }
  | .assign i x v => { F with store := (F.store.assign? (F.env i) x v).getD F.store }
  | .assignAt i d x v => { F with store := (F.store.assignAt? (F.env i) d x v).getD F.store }

/-- The forest behind some steps. -/
def after (steps : List Step) : Forest := steps.foldl step empty

/-- Every environment has a scope of its own, which bears its number, and stands inside of no other
    environment or of one that was made before it. -/
structure Nested (F : Forest) : Prop where
  size : F.envs.size = F.store.frames.size
  link : ∀ (i : Nat) (e : Env), F.envs[i]? = some e →
    ∃ outer, e = i :: outer ∧ (outer = [] ∨ ∃ j < i, F.envs[j]? = some outer)

/-! ### What every forest is like -/

namespace Nested

variable {F : Forest} {s : Store} {f : FrameId} {e outer outer' scope : Env} {x : String} {d : Nat}

theorem grow (h : F.Nested) (houter : outer = [] ∨ ∃ j : Nat, F.envs[j]? = some outer) :
    (F.grow outer).Nested := by
  have hnew : F.store.newFrame.1 = F.envs.size := h.size.symm
  refine ⟨?_, fun i e he => ?_⟩
  · show (F.envs.push _).size = F.store.newFrame.2.frames.size
    rw [Array.size_push, Store.size_newFrame, h.size]
  · -- the environments that were there before keep their numbers
    have hkept {j : Nat} {e' : Env} (hj : F.envs[j]? = some e') :
        j < F.envs.size ∧ (F.grow outer).envs[j]? = some e' := by
      obtain ⟨hlt, -⟩ := Array.getElem?_eq_some_iff.1 hj
      exact ⟨hlt, (Array.getElem?_push_lt hlt).trans (by simpa [hlt] using hj)⟩
    have he : (F.envs.push (F.store.newFrame.1 :: outer))[i]? = some e := he
    rw [Array.getElem?_push] at he
    split at he
    · next hi =>
      cases he
      refine ⟨outer, by rw [hnew, hi], houter.imp_right fun ⟨j, hj⟩ => ?_⟩
      exact ⟨j, hi ▸ (hkept hj).1, (hkept hj).2⟩
    · obtain ⟨o, rfl, ho⟩ := h.link i e he
      exact ⟨o, rfl, ho.imp_right fun ⟨j, hlt, hj⟩ => ⟨j, hlt, (hkept hj).2⟩⟩

/-- Bindings do not matter. -/
theorem withStore (h : F.Nested) (hsize : s.frames.size = F.store.frames.size) :
    Nested { F with store := s } := ⟨h.size.trans hsize.symm, h.link⟩

theorem step (h : F.Nested) (c : Step) : (F.step c).Nested := by
  cases c with
  | new => exact h.grow (.inl rfl)
  | child i =>
    refine h.grow ?_
    unfold Forest.env
    cases hi : F.envs[i]? with
    | none => exact .inl rfl
    | some e => exact .inr ⟨i, hi⟩
  | define i x v => exact h.withStore (F.store.size_defineOwn _ x v)
  | assign i x v | assignAt i d x v => exact h.withStore (F.store.size_assigned _ x v)

theorem foldl_step (h : F.Nested) (steps : List Step) : (steps.foldl Forest.step F).Nested := by
  induction steps generalizing F with
  | nil => exact h
  | cons c steps ih => exact ih (h.step c)

end Nested

/-- **Environments are nested**, whatever is done to them. -/
theorem nested_after (steps : List Step) : (after steps).Nested :=
  Nested.foldl_step ⟨rfl, fun i e he => absurd he (by simp [empty])⟩ steps

namespace Nested

variable {F : Forest} {s : Store} {f : FrameId} {e outer outer' scope : Env} {x : String} {d : Nat}

theorem exists_cons (h : F.Nested) (he : e ∈ F.envs) : ∃ f outer, e = f :: outer := by
  obtain ⟨i, hi⟩ := Array.mem_iff_getElem?.1 he
  obtain ⟨outer, rfl, -⟩ := h.link i e hi
  exact ⟨i, outer, rfl⟩

/-- A scope belongs to the environment of its number. -/
theorem getElem?_of_mem (h : F.Nested) (he : f :: outer ∈ F.envs) :
    F.envs[f]? = some (f :: outer) := by
  obtain ⟨i, hi⟩ := Array.mem_iff_getElem?.1 he
  obtain ⟨_, heq, -⟩ := h.link i _ hi
  cases heq
  exact hi

/-- No two environments share the scope that they start with. -/
theorem outer_unique (h : F.Nested) (he : f :: outer ∈ F.envs) (he' : f :: outer' ∈ F.envs) :
    outer = outer' := by
  have heq := (h.getElem?_of_mem he).symm.trans (h.getElem?_of_mem he')
  cases heq
  rfl

theorem lt_size (h : F.Nested) (he : f :: outer ∈ F.envs) : f < F.store.frames.size := by
  rw [← h.size]
  exact (Array.getElem?_eq_some_iff.1 (h.getElem?_of_mem he)).1

theorem outer_mem (h : F.Nested) (he : f :: outer ∈ F.envs) : outer = [] ∨ outer ∈ F.envs := by
  obtain ⟨_, heq, houter⟩ := h.link f _ (h.getElem?_of_mem he)
  cases heq
  exact houter.imp_right fun ⟨j, _, hj⟩ => Array.mem_of_getElem? hj

/-- The nearest scope is one of the forest. -/
theorem nearest_mem (h : F.Nested) (he : e ∈ F.envs) (hnear : s.Nearest x e d scope) :
    scope ∈ F.envs := by
  induction hnear with
  | here => exact he
  | further _ hnear ih =>
    rcases h.outer_mem he with rfl | hmem
    · cases hnear
    · exact ih hmem

end Nested

/-! ### One variable of one scope -/

/-- The store `s` is that of the forest, but that `x` has the value `v` in `scope`. The environments
    that find the new value are those whose nearest scope that holds `x` is this one. -/
structure Rebinds (F : Forest) (scope : Env) (x : String) (v : Value) (s : Store) : Prop where
  bindings : ∀ e ∈ F.envs, ∀ y,
    s.own? e y = if e = scope ∧ y = x then some v else F.store.own? e y
  creates_nothing : s.frames.size = F.store.frames.size ∧ s.objects = F.store.objects
  found : ∀ e ∈ F.envs, ∀ d, s.Nearest x e d scope → s.lookup? e x = some v
  hidden : ∀ e ∈ F.envs, ∀ y, s.lookup? e y ≠ F.store.lookup? e y →
    y = x ∧ ∃ d, s.Nearest x e d scope

namespace Nested

variable {F : Forest} {f : FrameId} {e outer : Env}

/-- Where a variable is not found as before, it is found in the scope that it was bound in. -/
theorem nearest_or_lookup?_eq (h : F.Nested) (hscope : f :: outer ∈ F.envs) (x : String)
    (v : Value) (he : e ∈ F.envs) :
    (∃ d, (F.store.define f x v).Nearest x e d (f :: outer)) ∨
      (F.store.define f x v).lookup? e x = F.store.lookup? e x := by
  have hf := h.lt_size hscope
  -- The chain is followed out until it comes to the scope, or to one that hides it.
  induction e with
  | nil => exact .inr rfl
  | cons g env ih =>
    by_cases hg : g = f
    · subst hg
      cases h.outer_unique he hscope
      exact .inl ⟨0, .here (Store.holds_define_self hf x v)⟩
    · have hget : (F.store.define f x v).get? g x = F.store.get? g x := by
        rw [Store.get?_define, if_neg fun heq => hg heq.1]
      rw [Store.lookup?_cons, Store.lookup?_cons, hget]
      cases hv : F.store.get? g x with
      | some u => exact .inr rfl
      | none =>
        have houter : env = [] ∨ env ∈ F.envs := h.outer_mem he
        rcases houter with rfl | hmem
        · exact .inr rfl
        · refine (ih hmem).imp (fun ⟨d, hnear⟩ => ⟨d + 1, .further ?_ hnear⟩) id
          unfold Store.holds
          rw [hget, hv]
          rfl

theorem rebinds_define (h : F.Nested) (hscope : f :: outer ∈ F.envs) (x : String) (v : Value) :
    F.Rebinds (f :: outer) x v (F.store.define f x v) := by
  have hf := h.lt_size hscope
  refine ⟨fun e he y => ?_, ⟨F.store.size_define f x v, rfl⟩, fun e _ d hnear => ?_,
    fun e he y hne => ?_⟩
  · obtain ⟨g, env, rfl⟩ := h.exists_cons he
    show (F.store.define f x v).get? g y = _
    rw [Store.get?_define]
    refine if_congr ⟨fun ⟨hg, hy, _⟩ => ⟨?_, hy⟩, fun ⟨hg, hy⟩ => ?_⟩ rfl rfl
    · subst hg
      rw [h.outer_unique he hscope]
    · cases hg
      exact ⟨rfl, hy, hf⟩
  · rw [hnear.lookup?_eq]
    show (F.store.define f x v).get? f x = some v
    rw [Store.get?_define, if_pos ⟨rfl, rfl, hf⟩]
  · have hy : y = x := by
      by_contra hy
      refine hne (Store.lookup?_congr fun g _ => ?_)
      rw [Store.get?_define, if_neg fun heq => hy heq.2.1]
    subst hy
    exact ⟨rfl, (h.nearest_or_lookup?_eq hscope y v he).resolve_right hne⟩

end Nested

/-- **Chains of environments are nested stores.** -/
theorem chains_are_nested_stores (steps : List Step) (e : Env) (he : e ∈ (after steps).envs)
    (x : String) (v : Value) :
    let F := after steps
    -- a variable is found exactly if some scope holds it, and then in the nearest one
    (∀ u, F.store.lookup? e x = some u ↔
      ∃ d scope, F.store.Nearest x e d scope ∧ F.store.own? scope x = some u) ∧
    -- it can be assigned to exactly if it can be found, and nothing happens otherwise
    ((F.store.assign? e x v).isSome ↔ (F.store.lookup? e x).isSome) ∧
    (∀ i : Nat, F.envs[i]? = some e → F.store.lookup? e x = none → F.step (.assign i x v) = F) ∧
    -- an assignment changes the variable that is found, as does one by the distance
    (∀ d scope, F.store.Nearest x e d scope →
      F.store.lookupAt? e d x = F.store.lookup? e x ∧
      F.store.assignAt? e d x v = F.store.assign? e x v ∧
      scope ∈ F.envs ∧ ∃ s, F.store.assign? e x v = some s ∧ F.Rebinds scope x v s) ∧
    -- a definition changes the variable of the environment itself
    F.Rebinds e x v (F.store.defineOwn e x v) := by
  intro F
  have hF : F.Nested := nested_after steps
  refine ⟨fun u => Store.lookup?_eq_some_iff, ?_, fun i hi hnone => ?_, fun d scope hnear => ?_, ?_⟩
  · rw [Store.isSome_assign?]
  · have henv : F.env i = e := by
      unfold env
      rw [hi]
      rfl
    have hassign : F.store.assign? e x v = none := by
      rw [← Option.not_isSome_iff_eq_none, Store.isSome_assign?, hnone]
      exact Bool.false_ne_true
    show { F with store := (F.store.assign? (F.env i) x v).getD F.store } = F
    rw [henv, hassign]
    rfl
  · have hmem := hF.nearest_mem he hnear
    obtain ⟨f, outer, rfl, hholds⟩ := hnear.exists_cons
    have hassign : F.store.assign? e x v = some (F.store.define f x v) := by
      unfold Store.assign?
      rw [hnear.holder?_eq, ← Store.assign_eq_define fun _ => hholds]
      rfl
    refine ⟨?_, ?_, hmem, _, hassign, hF.rebinds_define hmem x v⟩
    · unfold Store.lookupAt?
      rw [hnear.holderAt?_eq, hnear.lookup?_eq]
      rfl
    · unfold Store.assignAt? Store.assign?
      rw [hnear.holderAt?_eq, hnear.holder?_eq]
  · obtain ⟨f, outer, rfl⟩ := hF.exists_cons he
    exact hF.rebinds_define he x v

/-- Two environments in a global one. The first hides the global variable, and has an environment in
    it in turn. -/
def sharedGlobals : List Step :=
  [.new, .define 0 "x" .nil, .child 0, .child 0, .define 1 "x" (.bool true), .child 1]

/-- What the innermost environment assigns to is the variable of the one around it. The other one
    finds the global variable, as before. -/
theorem chains_are_nested_stores_sharedGlobals :
    [3, 1, 0] ∈ (after sharedGlobals).envs ∧
    ∃ s, (after sharedGlobals).store.assign? [3, 1, 0] "x" (.bool false) = some s ∧
      s.lookup? [1, 0] "x" = some (.bool false) ∧
      s.lookup? [2, 0] "x" = (after sharedGlobals).store.lookup? [2, 0] "x" := by
  have hmem : [3, 1, 0] ∈ (after sharedGlobals).envs ∧ [1, 0] ∈ (after sharedGlobals).envs ∧
      [2, 0] ∈ (after sharedGlobals).envs := by decide +kernel
  have hheld : (after sharedGlobals).store.holds 3 "x" = false ∧
      (after sharedGlobals).store.holds 1 "x" = true := by decide +kernel
  obtain ⟨-, -, -, hassign, -⟩ :=
    chains_are_nested_stores sharedGlobals [3, 1, 0] hmem.1 "x" (.bool false)
  obtain ⟨-, -, -, s, hs, hrebinds⟩ := hassign 1 [1, 0] (.further hheld.1 (.here hheld.2))
  refine ⟨hmem.1, s, hs, ?_, ?_⟩
  · have hown : s.get? 1 "x" = some (.bool false) := hrebinds.bindings [1, 0] hmem.2.1 "x"
    have hholds : s.holds 1 "x" = true := by
      unfold Store.holds
      rw [hown]
      rfl
    exact hrebinds.found [1, 0] hmem.2.1 0 (.here hholds)
  · by_contra hne
    obtain ⟨-, d, hnear⟩ := hrebinds.hidden [2, 0] hmem.2.2 "x" hne
    -- the scope in question is not on this chain
    cases hnear with
    | further _ hnear =>
      cases hnear with
      | further _ hnear => cases hnear

end Forest

end Scriptlet
