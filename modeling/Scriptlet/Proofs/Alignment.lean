import Scriptlet.Proofs.Frames
import Scriptlet.Proofs.History
import Scriptlet.Proofs.Spelling

namespace Scriptlet

/-!
# Environments follow scopes

The invariant of a run: whatever is going to be evaluated or executed has been visited by the
resolution walk, in scopes that the current environment copies frame by frame.

* `Aligned` — an environment whose frames were made for the given constructs.
* `Covers` — the frames hold the names that the walk saw declared, except for a name whose own
  initializer is being evaluated, and for names that the statement at hand is about to declare.
* `Ready` — an environment in which a visited part of a program can go on.
* `Value.Sound`, `ExprCont.Fits`, `State.Sound` — values, continuations and states that hold only
  parts of programs which are ready where they will go on.
-/

/-! ### Environments and scopes -/

/-- The environment was made frame by frame for the constructs, on top of the globals. -/
inductive Aligned (made : List Making) : Env → List Construct → Prop
  | globals : Aligned made Machine.globals []
  | cons {f env c site} (h : (f :: env, c) ∈ made) (rest : Aligned made env site) :
      Aligned made (f :: env) (c :: site)

namespace History

variable (h : History)

/-- The walk over a program that was read comes to this visit. -/
def Knows (v : Visit) : Prop := ∃ program ∈ h.programs, program.Below v

/-- The visit lies inside of the initializer of the declaration of `name`, which stands in the
    scope at distance `j`. -/
def InInitializer (v : Visit) (j : Nat) (name : Token) : Prop :=
  ∃ d e, h.Knows d ∧ d.node = .stmt (.varDecl name (some e)) ∧
    Visit.Below ⟨d.walk.declare name, d.site, .expr e⟩ v ∧ v.site.length = d.site.length + j

end History

/-- Every declared name is held by the frame at its distance, unless it is one of `promised` in
    the innermost scope, or `own` excuses it. -/
def Covers (store : Store) (own : Nat → Token → Prop) (promised : List String) (env : Env)
    (owners : Owners) : Prop :=
  ∀ j scope x name, owners[j]? = some scope → scope x = some name →
    (∃ f, env[j]? = some f ∧ store.holds f x = true) ∨ (j = 0 ∧ x ∈ promised) ∨ own j name

/-- What has happened and what is stored: all that the invariant looks at. -/
structure Scene where
  history : History
  store : Store

/-- Nothing that was known, made or held is lost. -/
structure Scene.Le (c c' : Scene) : Prop where
  programs : ∀ p ∈ c.history.programs, p ∈ c'.history.programs
  made : ∀ e ∈ c.history.made, e ∈ c'.history.made
  holds : ∀ f x, c.store.holds f x = true → c'.store.holds f x = true

/-- A visited part of a program that can go on in an environment. -/
structure Ready (c : Scene) (promised : List String) (env : Env) (v : Visit) : Prop where
  known : c.history.Knows v
  aligned : Aligned c.history.made env v.site
  covers : Covers c.store (c.history.InInitializer v) promised env v.walk.owners

/-- A part of a program that can go on in an environment. -/
def Node.Ready (c : Scene) (promised : List String) (env : Env) (n : Node) : Prop :=
  ∃ v, v.node = n ∧ Scriptlet.Ready c promised env v

/-! ### Values -/

/-- A function whose body can run where the function was made. Around an initializer there is an
    object. -/
structure Closure.Sound (c : Scene) (closure : Closure) : Prop where
  ready : ∃ kind, (Node.function kind closure.decl).Ready c [] closure.env
  object : closure.isInitializer = true →
    ∃ f, closure.env[0]? = some f ∧ c.store.holds f "this" = true

/-- A class whose methods can be bound where the class was declared. -/
def Class.Sound (c : Scene) (cls : Class) : Prop :=
  ∃ v name, v.node = .stmt (.classDecl name cls.methods) ∧ name.lexeme = cls.name ∧
    c.history.Knows v ∧ Aligned c.history.made cls.env v.site ∧
    Covers c.store (c.history.InInitializer v) [] cls.env (v.walk.owners.declare name)

/-- A value that can be used anywhere. -/
def Value.Sound (c : Scene) : Value → Prop
  | .function _ closure => closure.Sound c
  | .classObj _ cls => cls.Sound c
  | .object _ cls => cls.Sound c
  | _ => True

/-- A store of sound values. -/
structure Store.Sound (c : Scene) (s : Store) : Prop where
  frames : ∀ f x v, s.get? f x = some v → v.Sound c
  fields : ∀ (id : ObjectId) (x : String) (v : Value), (s.fields id)[x]? = some v → v.Sound c

/-! ### Continuations -/

mutual

/-- A continuation that can go on in an environment with any sound value. -/
def ExprCont.Fits (c : Scene) (env : Env) : ExprCont → Prop
  | .done => env = Machine.globals
  -- The value is there, so only the node that it is assigned for matters.
  | .assign id name k =>
    (∃ e, (Node.expr (.assign id name e)).Ready c [] env) ∧ k.Fits c env
  | .unary _ k => k.Fits c env
  | .left _ right k => (Node.expr right).Ready c [] env ∧ k.Fits c env
  | .right first _ k => first.Sound c ∧ k.Fits c env
  | .logical _ right k => (Node.expr right).Ready c [] env ∧ k.Fits c env
  | .choose whenTrue whenFalse k =>
    (Node.expr whenTrue).Ready c [] env ∧ (Node.expr whenFalse).Ready c [] env ∧ k.Fits c env
  | .callee _ arguments k => (Node.exprs arguments).Ready c [] env ∧ k.Fits c env
  | .argument callee _ before after k =>
    callee.Sound c ∧ (∀ v ∈ before, v.Sound c) ∧ (Node.exprs after).Ready c [] env ∧ k.Fits c env
  | .property _ k => k.Fits c env
  | .fieldOwner _ value k => (Node.expr value).Ready c [] env ∧ k.Fits c env
  | .fieldValue _ _ k => k.Fits c env
  | .construct object k => object.Sound c ∧ k.Fits c env
  | .discard k => k.Fits c [] env
  | .print k => k.Fits c [] env
  -- The declaration ends with the definition of its name, which what follows waits for.
  | .define name k => k.Fits c [name.lexeme] env
  | .branch whenTrue whenFalse k =>
    ((Node.stmt whenTrue).Ready c [] env ∧ whenTrue.declared = []) ∧
      (∀ s ∈ whenFalse, (Node.stmt s).Ready c [] env ∧ s.declared = []) ∧ k.Fits c [] env
  | .test condition body k =>
    (Node.stmt (.whileLoop condition body)).Ready c [] env ∧ k.Fits c [] env
  | .ret k => k.Fits c [] env

/-- A continuation that can go on in an environment once the promised names are defined. -/
def StmtCont.Fits (c : Scene) (promised : List String) (env : Env) : StmtCont → Prop
  | .done => env = Machine.globals
  | .sequence rest k => (Node.stmts rest).Ready c promised env ∧ k.Fits c [] env
  -- Names of the scope that is left need no longer be held.
  | .leaveBlock outer k => k.Fits c [] outer
  | .again condition body k =>
    (Node.stmt (.whileLoop condition body)).Ready c [] env ∧ k.Fits c [] env
  | .leaveCall caller callee k => callee.Sound c ∧ k.Fits c caller

end

/-! ### Nothing is lost -/

section Mono

variable {c c' : Scene} {env : Env} {promised : List String}

theorem Aligned.mono {made made' : List Making} {site : List Construct}
    (h : Aligned made env site) (hle : ∀ e ∈ made, e ∈ made') : Aligned made' env site := by
  induction h with
  | globals => exact .globals
  | cons hmem _ ih => exact .cons (hle _ hmem) ih

theorem History.InInitializer.mono {h h' : History} (hle : ∀ p ∈ h.programs, p ∈ h'.programs)
    {v : Visit} {j : Nat} {name : Token} :
    h.InInitializer v j name → h'.InInitializer v j name := by
  rintro ⟨d, e, ⟨p, hp, hd⟩, hrest⟩
  exact ⟨d, e, ⟨p, hle p hp, hd⟩, hrest⟩

theorem Covers.mono {store store' : Store} {own own' : Nat → Token → Prop} {owners : Owners}
    (h : Covers store own promised env owners)
    (hholds : ∀ f x, store.holds f x = true → store'.holds f x = true)
    (hown : ∀ j name, own j name → own' j name) : Covers store' own' promised env owners := by
  intro j scope x name hj hx
  rcases h j scope x name hj hx with ⟨f, hf, hfx⟩ | hpromised | hj
  · exact .inl ⟨f, hf, hholds f x hfx⟩
  · exact .inr (.inl hpromised)
  · exact .inr (.inr (hown j name hj))

namespace Scene.Le

variable (hle : c.Le c')

include hle

theorem knows {v : Visit} (h : c.history.Knows v) : c'.history.Knows v := by
  obtain ⟨p, hp, hv⟩ := h
  exact ⟨p, hle.programs p hp, hv⟩

theorem ready {v : Visit} (h : Scriptlet.Ready c promised env v) :
    Scriptlet.Ready c' promised env v :=
  ⟨hle.knows h.known, h.aligned.mono hle.made,
    h.covers.mono hle.holds fun _ _ => History.InInitializer.mono hle.programs⟩

theorem node {n : Node} (h : n.Ready c promised env) : n.Ready c' promised env := by
  obtain ⟨v, hv, hready⟩ := h
  exact ⟨v, hv, hle.ready hready⟩

theorem closure {closure : Closure} (h : closure.Sound c) : closure.Sound c' := by
  refine ⟨h.ready.imp fun _ => hle.node, fun hinit => ?_⟩
  obtain ⟨f, hf, hthis⟩ := h.object hinit
  exact ⟨f, hf, hle.holds f _ hthis⟩

theorem cls {cls : Class} (h : cls.Sound c) : cls.Sound c' := by
  obtain ⟨v, name, hv, hname, hknown, haligned, hcovers⟩ := h
  exact ⟨v, name, hv, hname, hle.knows hknown, haligned.mono hle.made,
    hcovers.mono hle.holds fun _ _ => History.InInitializer.mono hle.programs⟩

theorem value {v : Value} (h : v.Sound c) : v.Sound c' := by
  cases v with
  | function _ closure => exact hle.closure h
  | classObj _ cls | object _ cls => exact hle.cls h
  | _ => trivial

theorem store {s : Store} (h : s.Sound c) : s.Sound c' :=
  ⟨fun f x v hv => hle.value (h.frames f x v hv), fun id x v hv => hle.value (h.fields id x v hv)⟩

mutual

theorem exprCont : ∀ {env : Env} (k : ExprCont), k.Fits c env → k.Fits c' env
  | _, .done, h => h
  | _, .assign _ _ k, h => ⟨h.1.imp fun _ => hle.node, exprCont k h.2⟩
  | _, .unary _ k, h => exprCont k h
  | _, .left _ _ k, h => ⟨hle.node h.1, exprCont k h.2⟩
  | _, .right _ _ k, h => ⟨hle.value h.1, exprCont k h.2⟩
  | _, .logical _ _ k, h => ⟨hle.node h.1, exprCont k h.2⟩
  | _, .choose _ _ k, h => ⟨hle.node h.1, hle.node h.2.1, exprCont k h.2.2⟩
  | _, .callee _ _ k, h => ⟨hle.node h.1, exprCont k h.2⟩
  | _, .argument _ _ _ _ k, h =>
    ⟨hle.value h.1, fun v hv => hle.value (h.2.1 v hv), hle.node h.2.2.1, exprCont k h.2.2.2⟩
  | _, .property _ k, h => exprCont k h
  | _, .fieldOwner _ _ k, h => ⟨hle.node h.1, exprCont k h.2⟩
  | _, .fieldValue _ _ k, h => exprCont k h
  | _, .construct _ k, h => ⟨hle.value h.1, exprCont k h.2⟩
  | _, .discard k, h => stmtCont k h
  | _, .print k, h => stmtCont k h
  | _, .define _ k, h => stmtCont k h
  | _, .branch _ _ k, h =>
    ⟨⟨hle.node h.1.1, h.1.2⟩, fun s hs => ⟨hle.node (h.2.1 s hs).1, (h.2.1 s hs).2⟩,
      stmtCont k h.2.2⟩
  | _, .test _ _ k, h => ⟨hle.node h.1, stmtCont k h.2⟩
  | _, .ret k, h => stmtCont k h

theorem stmtCont : ∀ {promised : List String} {env : Env} (k : StmtCont),
    k.Fits c promised env → k.Fits c' promised env
  | _, _, .done, h => h
  | _, _, .sequence _ k, h => ⟨hle.node h.1, stmtCont k h.2⟩
  | _, _, .leaveBlock _ k, h => stmtCont k h
  | _, _, .again _ _ k, h => ⟨hle.node h.1, stmtCont k h.2⟩
  | _, _, .leaveCall _ _ k, h => ⟨hle.closure h.1, exprCont k h.2⟩

end

end Scene.Le

end Mono

/-! ### From a part of a program to its parts -/

section Parts

variable {c : Scene} {env : Env} {promised : List String}

/-- All programs that were read are well-formed. -/
def Scene.Lawful (c : Scene) : Prop := ∀ p ∈ c.history.programs, p.Lawful Token.Spelled

variable {v u : Visit} {h : History} {name : Token} {f : FrameId} {decl : FunDecl}

theorem Scene.Lawful.visit (hc : c.Lawful) (h : c.history.Knows v) : v.Lawful Token.Spelled := by
  obtain ⟨p, hp, hv⟩ := h
  exact (hc p hp).below hv

theorem History.Knows.child (hv : h.Knows v) (hc : v.Child u) : h.Knows u := by
  obtain ⟨p, hp, hbelow⟩ := hv
  exact ⟨p, hp, hbelow.child hc⟩

/-- What lies below a visit inside of an initializer lies inside of it, too. -/
theorem History.InInitializer.child {j k : Nat} (hv : h.InInitializer v j name) (hc : v.Child u)
    (hk : u.site.length = v.site.length + k) : h.InInitializer u (j + k) name := by
  obtain ⟨d, e, hknown, hd, hbelow, hsite⟩ := hv
  exact ⟨d, e, hknown, hd, hbelow.child hc, by rw [hk, hsite]; omega⟩

namespace Covers

variable {store : Store} {own own' : Nat → Token → Prop} {owners : Owners}

/-- A frame holds the names of a new scope. -/
theorem cons (h : Covers store own [] env owners) {f : FrameId} {scope : String → Option Token}
    (hscope : ∀ x name, scope x = some name → store.holds f x = true)
    (hown : ∀ j name, own j name → own' (j + 1) name) :
    Covers store own' [] (f :: env) (scope :: owners) := by
  intro j scope' x name hj hx
  cases j with
  | zero =>
    cases hj
    exact .inl ⟨f, rfl, hscope x name hx⟩
  | succ j =>
    rcases h j scope' x name hj hx with hheld | ⟨-, hnone⟩ | hj
    · exact .inl hheld
    · exact absurd hnone List.not_mem_nil
    · exact .inr (.inr (hown j name hj))

/-- A name is declared that is excused in one of the ways. -/
theorem declare (h : Covers store own promised env owners) {name : Token}
    (hname : (∃ f, env[0]? = some f ∧ store.holds f name.lexeme = true) ∨
      name.lexeme ∈ promised ∨ own 0 name) :
    Covers store own promised env (owners.declare name) := by
  cases owners with
  | nil => exact h
  | cons scope outer =>
    intro j scope' x token hj hx
    cases j with
    | succ j => exact h (j + 1) scope' x token hj hx
    | zero =>
      cases hj
      simp only at hx
      split at hx
      · next heq =>
        cases hx
        subst heq
        exact hname.imp_right (Or.imp_left (And.intro rfl))
      · exact h 0 scope x token rfl hx

theorem promise (h : Covers store own promised env owners) {promised' : List String}
    (hle : ∀ x ∈ promised, x ∈ promised') : Covers store own promised' env owners := by
  intro j scope x name hj hx
  exact (h j scope x name hj hx).imp_right (Or.imp_left (And.imp_right (hle x)))

/-- Names are declared that are all promised. -/
theorem foldl_declare (h : Covers store own promised env owners) {names : List Token}
    (hnames : ∀ name ∈ names, name.lexeme ∈ promised) :
    Covers store own promised env (names.foldl Owners.declare owners) := by
  induction names generalizing owners with
  | nil => exact h
  | cons name names ih =>
    obtain ⟨hname, hnames⟩ := List.forall_mem_cons.1 hnames
    exact ih (h.declare (.inr (.inl hname))) hnames

/-- The promised names are held. -/
theorem fulfil (h : Covers store own promised env owners)
    (hheld : ∀ x ∈ promised, ∃ f, env[0]? = some f ∧ store.holds f x = true) :
    Covers store own [] env owners := by
  intro j scope x name hj hx
  rcases h j scope x name hj hx with hheld' | ⟨rfl, hx⟩ | hown
  · exact .inl hheld'
  · exact .inl (hheld x hx)
  · exact .inr (.inr hown)

end Covers

/-- The promised names are held. -/
theorem Node.Ready.fulfil {n : Node} (h : n.Ready c promised env)
    (hheld : ∀ x ∈ promised, ∃ f, env[0]? = some f ∧ c.store.holds f x = true) :
    n.Ready c [] env := by
  obtain ⟨v, hv, hready⟩ := h
  exact ⟨v, hv, hready.known, hready.aligned, hready.covers.fulfil hheld⟩

/-- A part in the same scopes, with the same names. -/
theorem Node.Ready.part {n n' : Node} (h : n.Ready c promised env) (hc : c.Lawful)
    (hpart : ∀ w, ∃ w', Walk.Part w n w' n') : n'.Ready c promised env := by
  obtain ⟨⟨w, site, n⟩, rfl, hready⟩ := h
  obtain ⟨w', hpart⟩ := hpart w
  have hchild : Visit.Child ⟨w, site, n⟩ ⟨w', site, n'⟩ := .part hpart
  refine ⟨⟨w', site, n'⟩, rfl, hready.known.child hchild, hready.aligned, ?_⟩
  show Covers _ _ _ _ w'.owners
  rw [hpart.owners (hc.visit hready.known).formed]
  exact hready.covers.mono (fun _ _ h => h) fun j name h => h.child (k := 0) hchild rfl

/-- The initializer of a variable: the variable is excused. -/
theorem Node.Ready.initializer {e : Expr}
    (h : (Node.stmt (.varDecl name (some e))).Ready c [] env) :
    (Node.expr e).Ready c [] env := by
  obtain ⟨⟨w, site, n⟩, rfl, hready⟩ := h
  have hchild : Visit.Child ⟨w, site, _⟩ ⟨w.declare name, site, .expr e⟩ := .initializer
  refine ⟨_, rfl, hready.known.child hchild, hready.aligned, ?_⟩
  rw [Walk.owners_declare]
  -- The walk has declared the name already, the run has not: this is the one gap there is.
  have hown : c.history.InInitializer ⟨w.declare name, site, .expr e⟩ 0 name :=
    ⟨_, e, hready.known, rfl, Visit.Below.refl _, rfl⟩
  exact (hready.covers.mono (fun _ _ h => h)
    fun j name h => h.child (k := 0) hchild rfl).declare (.inr (.inr hown))

/-- The statements behind a statement wait for the names that it declares. -/
theorem Node.Ready.rest {s : Stmt} {ss : List Stmt} (h : (Node.stmts (s :: ss)).Ready c [] env) :
    (Node.stmts ss).Ready c (s.declared.map Token.lexeme) env := by
  obtain ⟨⟨w, site, n⟩, rfl, hready⟩ := h
  have hchild : Visit.Child ⟨w, site, _⟩ ⟨w.stmt s, site, .stmts ss⟩ := .rest
  refine ⟨_, rfl, hready.known.child hchild, hready.aligned, ?_⟩
  rw [Walk.owners_stmt]
  have hcovers := hready.covers.mono (fun _ _ h => h)
    fun j name h => h.child (k := 0) hchild rfl
  exact (hcovers.promise fun _ h => absurd h List.not_mem_nil).foldl_declare
    fun name hname => List.mem_map_of_mem hname

/-- The body of a block, in its frame. -/
theorem Node.Ready.block {body : List Stmt} (h : (Node.stmt (.block body)).Ready c [] env)
    (hmade : (f :: env, .block body) ∈ c.history.made) :
    (Node.stmts body).Ready c [] (f :: env) := by
  obtain ⟨⟨w, site, n⟩, rfl, hready⟩ := h
  have hchild : Visit.Child ⟨w, site, _⟩ ⟨w.openScope ∅, .block body :: site, .stmts body⟩ := .block
  refine ⟨_, rfl, hready.known.child hchild, .cons hmade hready.aligned, ?_⟩
  rw [Walk.owners_openBlock]
  exact hready.covers.cons (fun _ _ h => absurd h (by simp))
    fun j name h => h.child (k := 1) hchild rfl

/-- The body of a function, in a frame that holds the parameters. -/
theorem Node.Ready.body {kind : Body} (h : (Node.function kind decl).Ready c [] env)
    (hmade : (f :: env, .function decl) ∈ c.history.made)
    (hparams : ∀ p ∈ decl.params, c.store.holds f p.lexeme = true) :
    (Node.stmts decl.body).Ready c [] (f :: env) := by
  obtain ⟨⟨w, site, n⟩, rfl, hready⟩ := h
  have hchild : Visit.Child ⟨w, site, _⟩
      ⟨w.enterFunction kind decl, .function decl :: site, .stmts decl.body⟩ := .function
  refine ⟨_, rfl, hready.known.child hchild, .cons hmade hready.aligned, ?_⟩
  rw [Walk.owners_enterFunction]
  have hcovers : Covers c.store _ [] (f :: env) ((fun _ => none) :: w.owners) :=
    hready.covers.cons (fun _ _ h => absurd h (by simp))
      fun j name h => h.child (k := 1) hchild rfl
  -- The walk declares the parameters one by one, but the frame held them all from the start.
  have hpromised : Covers c.store _ (decl.params.map Token.lexeme) (f :: env) _ :=
    hcovers.promise fun _ h => absurd h List.not_mem_nil
  refine (hpromised.foldl_declare fun name hname => List.mem_map_of_mem hname).fulfil
    fun x hx => ?_
  obtain ⟨p, hp, rfl⟩ := List.mem_map.1 hx
  exact ⟨f, rfl, hparams p hp⟩

/-- A function under its name, which is held already. -/
theorem Node.Ready.named (hname : decl.name? = some name)
    (h : (Node.stmt (.funDecl decl)).Ready c [] env)
    (hheld : ∃ f, env[0]? = some f ∧ c.store.holds f name.lexeme = true) :
    (Node.function .function decl).Ready c [] env := by
  obtain ⟨⟨w, site, n⟩, rfl, hready⟩ := h
  have hchild : Visit.Child ⟨w, site, _⟩
      ⟨w.nameFunction decl, site, .function .function decl⟩ := .named
  refine ⟨_, rfl, hready.known.child hchild, hready.aligned, ?_⟩
  rw [(Walk.passed_nameFunction _ _).owners_eq, hname]
  exact (hready.covers.mono (fun _ _ h => h)
    fun j name h => h.child (k := 0) hchild rfl).declare (.inl hheld)

/-- The methods of a class, in a frame that holds `this`. -/
theorem Class.Sound.methods {cls : Class} (h : cls.Sound c)
    (hmade : (f :: cls.env, .methods cls.name cls.methods) ∈ c.history.made)
    (hthis : c.store.holds f "this" = true) :
    (Node.functions cls.methods).Ready c [] (f :: cls.env) := by
  obtain ⟨⟨w, site, n⟩, name, hn, hname, hknown, haligned, hcovers⟩ := h
  cases hn
  have hchild : Visit.Child ⟨w, site, _⟩ ⟨w.enterClass name,
      .methods name.lexeme cls.methods :: site, .functions cls.methods⟩ := .methods
  -- The name in the record of the frame is that of the class, not of its token.
  rw [← hname] at hmade
  refine ⟨_, rfl, hknown.child hchild, .cons hmade haligned, ?_⟩
  rw [Walk.owners_enterClass]
  refine hcovers.cons (fun x token hx => ?_) fun j name h => h.child (k := 1) hchild rfl
  unfold Walk.thisOwner at hx
  split at hx
  · next heq =>
    rw [heq]
    exact hthis
  · cases hx

/-- One of some methods. -/
theorem Node.Ready.method {decls : List FunDecl} (hc : c.Lawful)
    (h : (Node.functions decls).Ready c [] env) (hd : decl ∈ decls) :
    ∃ kind, (Node.function kind decl).Ready c [] env := by
  induction decls with
  | nil => exact absurd hd List.not_mem_nil
  | cons first decls ih =>
    rcases List.mem_cons.1 hd with rfl | hd
    · exact ⟨_, h.part hc fun _ => ⟨_, .method⟩⟩
    · exact ih (h.part hc fun _ => ⟨_, .nextMethods⟩) hd

end Parts

end Scriptlet
