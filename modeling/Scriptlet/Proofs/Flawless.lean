import Scriptlet.Proofs.Contents
import Scriptlet.Proofs.Diagnostics
import Scriptlet.Proofs.This

namespace Scriptlet

/-!
# Trees that nothing is wrong with

Where requests run sources only if nothing is wrong with them, everything that a session executes
was found to be without a flaw by the resolution walk.

* `Visit.Flawless` — the walk finds nothing wrong with what it comes to.
* `Node.Flawless b` — it does so in a body of kind `b`. The parts of such a tree are without a flaw
  in the same body, and the body of a function in its own (`Node.Flawless.part`).
* `Corpus.flawless` — trees without a flaw, each in the body that runs it.
* `Request.checks` — a request that runs a source only if nothing is wrong with it.
* `Request.checks_brings` — such requests bring only trees without a flaw.
-/

/-! ### The body that a walk is in -/

/-- The kind of body that the parts of a tree stand in, if the tree stands in `b`. -/
def Node.bodyInside (b : Body) : Node → Body
  | .function kind _ => kind
  | _ => b

namespace Walk

theorem body_eq {w w' : Walk} (h : w'.context = w.context) : w'.body = w.body :=
  congrArg Prod.fst h

theorem Part.body {w w' : Walk} {n n' : Node} (h : w.Part n w' n') :
    w'.body = n.bodyInside w.body := by
  cases h with
  | right | logicalRight | chosenTrue | arguments | fieldValue | nextArguments | whenTrue
  | loopBody => exact body_eq (context_expr _ _)
  | chosenFalse => exact body_eq ((context_expr _ _).trans (context_expr _ _))
  | whenFalse => exact body_eq ((context_stmt _ _).trans (context_expr _ _))
  | returned => exact body_eq (context_checkReturn _ _ _)
  | nextMethods => exact body_eq (context_function _ _ _)
  | _ => rfl

end Walk

/-! ### Trees without a flaw -/

/-- The walk finds nothing wrong with what it comes to. -/
structure Visit.Flawless (v : Visit) : Prop where
  lawful : v.Lawful Token.Spelled
  clean : (v.walk.past v.node).Clean

namespace Visit

variable {v u : Visit}

theorem Flawless.child (hv : v.Flawless) (h : v.Child u) : u.Flawless :=
  ⟨hv.lawful.child h, hv.clean.of_grows h.grows⟩

theorem Child.body (h : v.Child u) : u.walk.body = v.node.bodyInside v.walk.body := by
  cases h with
  | part h => exact h.body
  | initializer => exact Walk.body_eq (Walk.onlyScopes_declare _ _).context
  | @named w site decl =>
    show (w.nameFunction decl).body = w.body
    unfold Walk.nameFunction
    split
    · exact Walk.body_eq (Walk.onlyScopes_introduce w _).context
    · rfl
  | rest => exact Walk.body_eq (Walk.context_stmt _ _)
  | block => rfl
  | function => exact Walk.body_eq (Walk.passed_foldl_introduce _ _).context_eq
  | @methods w site name decls =>
    exact congrArg Prod.fst (Walk.onlyScopes_introduce { w with inClass := true } name).context

end Visit

/-- The walk finds nothing wrong with a tree that it comes to in a body of the kind. -/
def Node.Flawless (b : Body) (n : Node) : Prop :=
  ∃ v : Visit, v.Flawless ∧ v.node = n ∧ v.walk.body = b

variable {b : Body} {s : Session} {r : Request}

/-- The parts of a tree without a flaw are without a flaw. -/
theorem Node.Flawless.part {n part : Node} (hn : n.Flawless b) (hpart : part ∈ n.children) :
    part.Flawless (n.bodyInside b) := by
  obtain ⟨v, hv, rfl, rfl⟩ := hn
  obtain ⟨u, hu, rfl⟩ := Visit.exists_child hpart
  exact ⟨u, hv.child hu, rfl, hu.body⟩

/-- One of some statements. -/
theorem Node.Flawless.statement {ss : List Stmt} (hss : (Node.stmts ss).Flawless b) {s : Stmt}
    (hs : s ∈ ss) : (Node.stmt s).Flawless b := by
  induction ss with
  | nil => exact absurd hs List.not_mem_nil
  | cons first ss ih =>
    obtain rfl | hs := List.mem_cons.1 hs
    · exact hss.part List.mem_cons_self
    · exact ih (hss.part (.tail _ (.head _))) hs

/-- A tree without a flaw, in whatever body it stands. -/
def Node.FlawlessSomewhere (n : Node) : Prop := ∃ b, n.Flawless b

/-- A `return` without a flaw stands in a function, and with a value in no initializer. -/
theorem Node.Flawless.ret {keyword : Token} {e : Option Expr}
    (h : (Node.stmt (.ret keyword e)).Flawless b) :
    b ≠ .topLevel ∧ (e.isSome = true → b ≠ .initializer) := by
  obtain ⟨⟨w, site, n⟩, ⟨-, hclean⟩, rfl, rfl⟩ := h
  have hcheck : (w.checkReturn keyword e.isSome).Clean := by
    cases e with
    | none => exact hclean
    | some e => exact Walk.Clean.of_expr hclean
  unfold Walk.Clean Walk.checkReturn at hcheck
  show w.body ≠ .topLevel ∧ (e.isSome = true → w.body ≠ .initializer)
  refine ⟨fun htop => ?_, fun hvalue hinit => ?_⟩
  · simp only [if_pos htop] at hcheck
    split at hcheck <;> simp at hcheck
  · simp [hvalue, hinit] at hcheck

/-- The kind of body that a function has, or that of the program if there is none. -/
def Body.ofRunning : Option Closure → Body
  | none => .topLevel
  | some c => c.kind

/-- Trees without a flaw, each in the body that runs it. A `return` is in a body that may return,
    and brings a value only if the body may return one. -/
def Corpus.flawless : Corpus where
  known := Node.FlawlessSomewhere
  inside c n := n.Flawless (Body.ofRunning c)
  returned c v :=
    Body.ofRunning c ≠ .topLevel ∧ (Body.ofRunning c = .initializer → v = .nil)
  handsDown := by
    rintro n ⟨b, hn⟩ part hpart
    exact ⟨_, hn.part hpart⟩
  known_of_inside h := ⟨_, h⟩
  part := by
    intro c n part h hcode hpart
    cases n with
    | function | functions => cases hcode
    | _ => exact h.part hpart
  body := by
    rintro c ⟨b, h⟩
    exact h.part (List.mem_singleton_self _)
  ret h := ⟨h.ret.1, fun _ => rfl⟩
  retValue _ h := ⟨h.ret.1, fun hinit => absurd hinit (h.ret.2 rfl)⟩

/-! ### Requests that check their sources -/

/-- A request that runs a source only if nothing is wrong with it. -/
def Request.checks : Request → Bool
  | .run _ | .analyze _ | .native _ => true
  | .force _ | .exec _ | .unresolved _ => false

/-- An accepted source consists of statements without a flaw. -/
theorem Session.flawless_of_accepted {source : String}
    (h : (s.analyze source).1.report.hadError = false) :
    (Node.stmts (s.analyze source).1.statements).Flawless .topLevel := by
  refine ⟨s.program source, ⟨(s.program_spec source).1, ?_⟩, rfl, rfl⟩
  have hempty : (s.analyze source).1.report.errors.isEmpty = true := by
    simpa [Report.hadError, Report.isEmpty] using h
  exact Array.isEmpty_iff_size_eq_zero.1 hempty

theorem Request.job_of_checks (hr : r.checks = true) {job : Job} (hj : r.job? s = some job) :
    job.alone = false ∧ (Node.stmts job.statements).Flawless .topLevel := by
  cases r with
  | run source =>
    simp only [Request.job?] at hj
    split at hj
    · cases hj
    · next haccepted =>
      cases hj
      exact ⟨rfl, Session.flawless_of_accepted (Bool.eq_false_iff.2 haccepted)⟩
  | analyze | native => cases hj
  | force | exec | unresolved => cases hr

/-- Whatever such a request runs is without a flaw. -/
theorem Request.checks_brings (hr : r.checks = true) : r.Brings (Corpus.flawless.inside none) :=
  fun _ _ hj => (Request.job_of_checks hr hj).2

end Scriptlet
