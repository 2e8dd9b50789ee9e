import Scriptlet.Proofs.Contents
import Scriptlet.Proofs.Paths
import Scriptlet.Proofs.Reading
import Scriptlet.Proofs.Scoping

namespace Scriptlet

/-!
# The shape of programs

What later passes take for granted about the trees they are handed.

* `Node.InShape` — operators are operators, named functions have names, and no declaration is a
  branch or the body of a loop; `Node.Formed.inShape` — well-formed trees are in shape throughout.
* `Node.Listed` — a statement is an element of the program, of a block or of the body of a
  function; `Node.Formed.listed_of_isDeclaration` — every declaration is.
* `State.misapplies`, `State.Trees.misapplies_step` — no step applies an operator that is none.
* `Program.parsed_in_shape` — programs are in shape even if something is wrong with them, so no
  session ever applies such an operator.
-/

/-! ### Parts in shape -/

namespace Node

variable {T : Token → Prop} {root n : Node} {p q : Path} {s : Stmt} {ss : List Stmt}

/-- A part of a tree whose own tokens and names are what later passes rely on. -/
def InShape : Node → Prop
  | .expr (.unary op _) => op.is .bang = true ∨ op.is .minus = true
  | .expr (.binary _ op _) => ∃ s ∈ Symbol.binaryOperators, op.is s = true
  | .expr (.logical _ op _) => op.is .andKw = true ∨ op.is .orKw = true
  | .stmt (.funDecl decl) => decl.name?.isSome = true
  | .stmt (.classDecl _ methods) => ∀ f ∈ methods, f.name?.isSome = true
  | .stmt (.ifElse _ whenTrue whenFalse) =>
    whenTrue.isDeclaration = false ∧ ∀ s ∈ whenFalse, s.isDeclaration = false
  | .stmt (.whileLoop _ body) => body.isDeclaration = false
  | _ => True

theorem Formed.inShape (h : n.Formed T) : n.InShape := by
  cases n with
  | expr e =>
    cases e with
    | unary op e =>
      obtain ⟨⟨-, s, hs, hop⟩, -⟩ := h
      rcases List.mem_pair.1 hs with rfl | rfl
      · exact .inl hop
      · exact .inr hop
    | binary a op b => exact h.2.1.2
    | logical a op b =>
      obtain ⟨-, ⟨-, s, hs, hop⟩, -⟩ := h
      rcases List.mem_pair.1 hs with rfl | rfl
      · exact .inr hop
      · exact .inl hop
    | _ => trivial
  | stmt s =>
    cases s with
    | funDecl decl => exact h.2
    | classDecl name methods => exact h.2.2
    | ifElse c a b =>
      cases b with
      | none => exact ⟨h.2.2, by simp⟩
      | some b => exact ⟨h.2.1.2, by simpa using h.2.2.2⟩
    | whileLoop c a => exact h.2.2
    | _ => trivial
  | exprs | stmts | function | functions => trivial

/-! ### Where declarations stand -/

/-- The statements at `q` are all those of the program, of a block or of a function. -/
def IsBody (root : Node) (q : Path) (ss : List Stmt) : Prop :=
  q = [] ∨ ∃ p, q = p ++ [0] ∧ (root.at? p = some (.stmt (.block ss)) ∨
    ∃ kind decl, root.at? p = some (.function kind decl) ∧ decl.body = ss)

/-- The statement at `p` is an element of such a list: from the list, one goes to the rest as
    often as there are elements in front of it, and then to the first. -/
def Listed (root : Node) (p : Path) (s : Stmt) : Prop :=
  ∃ q i ss, root.at? q = some (.stmts ss) ∧ root.IsBody q ss ∧ ss[i]? = some s ∧
    p = q ++ List.replicate i 1 ++ [0]

/-- Lists of statements stand in blocks, in functions and in other such lists. -/
theorem eq_of_stmts_mem_children {i : Nat} (h : n.children[i]? = some (.stmts ss)) :
    i = 0 ∧ (n = .stmt (.block ss) ∨ ∃ kind decl, n = .function kind decl ∧ decl.body = ss) ∨
      i = 1 ∧ ∃ s, n = .stmts (s :: ss) := by
  cases n with
  | expr e => cases e <;> rcases i with _ | _ | _ | i <;> cases h
  | exprs es => cases es <;> rcases i with _ | _ | i <;> cases h
  | stmt s =>
    cases s with
    | block body =>
      rcases i with _ | i <;> cases h
      exact .inl ⟨rfl, .inl rfl⟩
    | varDecl name e => cases e <;> rcases i with _ | i <;> cases h
    | ret keyword e => cases e <;> rcases i with _ | i <;> cases h
    | ifElse c a b => cases b <;> rcases i with _ | _ | _ | i <;> cases h
    | expr | print | whileLoop | funDecl | classDecl => rcases i with _ | _ | i <;> cases h
  | stmts ss' =>
    cases ss' with
    | nil => cases h
    | cons s ss' =>
      rcases i with _ | _ | i <;> cases h
      exact .inr ⟨rfl, s, rfl⟩
  | function kind decl =>
    rcases i with _ | i <;> cases h
    exact .inl ⟨rfl, .inr ⟨kind, decl, rfl, rfl⟩⟩
  | functions fs => cases fs <;> rcases i with _ | _ | i <;> cases h

/-- In a tree in shape, a declaration is the first element of a list. -/
theorem InShape.eq_of_declaration_mem_children {i : Nat} (hn : n.InShape)
    (h : n.children[i]? = some (.stmt s)) (hs : s.isDeclaration = true) :
    i = 0 ∧ ∃ ss, n = .stmts (s :: ss) := by
  cases n with
  | expr e => cases e <;> rcases i with _ | _ | _ | i <;> cases h
  | exprs es => cases es <;> rcases i with _ | _ | i <;> cases h
  | stmt s' =>
    cases s' with
    -- Branches and bodies of loops are no declarations.
    | ifElse c a b =>
      cases b with
      | none =>
        rcases i with _ | _ | i <;> cases h
        exact absurd hs (by simp [hn.1])
      | some b =>
        rcases i with _ | _ | _ | i <;> cases h
        · exact absurd hs (by simp [hn.1])
        · exact absurd hs (by simp [hn.2 s rfl])
    | whileLoop c a =>
      rcases i with _ | _ | i <;> cases h
      exact absurd hs (by simp [show s.isDeclaration = false from hn])
    | varDecl name e => cases e <;> rcases i with _ | i <;> cases h
    | ret keyword e => cases e <;> rcases i with _ | i <;> cases h
    | expr | print | block | funDecl | classDecl => rcases i with _ | i <;> cases h
  | stmts ss =>
    cases ss with
    | nil => cases h
    | cons s' ss =>
      rcases i with _ | _ | i <;> cases h
      exact ⟨rfl, ss, rfl⟩
  | function kind decl => rcases i with _ | i <;> cases h
  | functions fs => cases fs <;> rcases i with _ | _ | i <;> cases h

/-- Each list of statements in a program is the end of the whole list of a body. -/
theorem exists_isBody {program : List Stmt} (hq : (Node.stmts program).at? q = some (.stmts ss)) :
    ∃ q₀ i ss₀, (Node.stmts program).at? q₀ = some (.stmts ss₀) ∧
      (Node.stmts program).IsBody q₀ ss₀ ∧ ss₀.drop i = ss ∧ q = q₀ ++ List.replicate i 1 := by
  induction q using List.reverseRecOn generalizing ss with
  | nil => exact ⟨[], 0, ss, hq, .inl rfl, rfl, rfl⟩
  | append_singleton q j ih =>
    rw [at?_concat] at hq
    obtain ⟨n, hn, hchild⟩ := Option.bind_eq_some_iff.1 hq
    obtain ⟨rfl, hbody⟩ | ⟨rfl, s, rfl⟩ := eq_of_stmts_mem_children hchild
    -- The list of a block or of a function is a whole one.
    · refine ⟨q ++ [0], 0, ss, by rw [at?_concat, hn]; exact hchild, .inr ⟨q, rfl, ?_⟩, rfl,
        (List.append_nil _).symm⟩
      obtain rfl | ⟨kind, decl, rfl, hdecl⟩ := hbody
      · exact .inl hn
      · exact .inr ⟨kind, decl, hn, hdecl⟩
    -- The rest of a list belongs to the same whole as the list.
    · obtain ⟨q₀, i, ss₀, hat, hbody, hdrop, rfl⟩ := ih hn
      refine ⟨q₀, i + 1, ss₀, hat, hbody, ?_, ?_⟩
      · rw [← List.drop_drop, hdrop]
        rfl
      · rw [List.replicate_succ', List.append_assoc]

/-- **Declarations are listed.** In a well-formed program, a declaration is an element of the
    program, of a block or of the body of a function. -/
theorem Formed.listed_of_isDeclaration {program : List Stmt} (h : (Node.stmts program).Formed T)
    (hp : (Node.stmts program).at? p = some (.stmt s)) (hs : s.isDeclaration = true) :
    (Node.stmts program).Listed p s := by
  cases p using List.reverseRecOn with
  | nil => cases hp
  | append_singleton p j =>
    rw [at?_concat] at hp
    obtain ⟨n, hn, hchild⟩ := Option.bind_eq_some_iff.1 hp
    obtain ⟨rfl, ss, rfl⟩ := (h.at? hn).inShape.eq_of_declaration_mem_children hchild hs
    obtain ⟨q, i, ss₀, hat, hbody, hdrop, rfl⟩ := exists_isBody hn
    refine ⟨q, i, ss₀, hat, hbody, ?_, rfl⟩
    have hfirst : (ss₀.drop i)[0]? = some s := by rw [hdrop]; rfl
    simpa using hfirst

end Node

/-! ### Operators that are none -/

/-- The fault says that an operator is none. -/
def RuntimeFault.isMisapplied : RuntimeFault → Bool
  | .invalidUnary | .invalidBinary => true
  | _ => false

/-- The run was ended by an operator that is none. -/
def State.misapplies : State → Bool
  | .failed (.runtime _ fault) _ => fault.isMisapplied
  | _ => false

/-- The fault says that an operator does not take such operands. -/
def RuntimeFault.isOfOperands : RuntimeFault → Bool
  | .operandNotNumber | .operandsNotNumbers | .operandsNotAddable | .divideByZero => true
  | _ => false

namespace Value

variable {op : Token} {a b v : Value} {fault : RuntimeFault}

theorem eq_of_numbers (h : numbers a b = .error fault) : fault = .operandsNotNumbers := by
  unfold numbers at h
  split at h
  · cases h
  · cases h
    rfl

theorem isOfOperands_of_arithmetic {f : Float → Float → Float}
    (h : arithmetic f a b = .error fault) : fault.isOfOperands = true := by
  unfold arithmetic at h
  split at h
  · cases h
  · next hnumbers =>
    cases h
    rw [eq_of_numbers hnumbers]
    rfl

theorem isOfOperands_of_order {r : Float → Float → Bool} (h : order r a b = .error fault) :
    fault.isOfOperands = true := by
  unfold order at h
  split at h
  · cases h
  · next hnumbers =>
    cases h
    rw [eq_of_numbers hnumbers]
    rfl

theorem isOfOperands_of_divide (h : divide a b = .error fault) : fault.isOfOperands = true := by
  unfold divide at h
  split at h
  · split at h
    · cases h
      rfl
    · cases h
  · next hnumbers =>
    cases h
    rw [eq_of_numbers hnumbers]
    rfl

theorem isOfOperands_of_add (h : add a b = .error fault) : fault.isOfOperands = true := by
  unfold add at h
  split at h
  case h_4 =>
    cases h
    rfl
  all_goals cases h

/-- A unary operator does not take its operand, unless it is none. -/
theorem fault_of_applyUnary (h : v.applyUnary op = .error fault) :
    fault.isOfOperands = true ∨
      fault = .invalidUnary ∧ op.is .bang = false ∧ op.is .minus = false := by
  unfold applyUnary at h
  split at h
  · unfold negate at h
    split at h
    · cases h
    · cases h
      exact .inl rfl
  · cases h
  · next hminus hbang =>
    cases h
    exact .inr ⟨rfl, eq_false_of_ne_true fun his => hbang (Token.kind_of_is his),
      eq_false_of_ne_true fun his => hminus (Token.kind_of_is his)⟩

/-- A binary operator does not take its operands, unless it is none. -/
theorem fault_of_applyBinary (h : a.applyBinary op b = .error fault) :
    fault.isOfOperands = true ∨
      fault = .invalidBinary ∧ ∀ s ∈ Symbol.binaryOperators, op.is s = false := by
  unfold applyBinary at h
  split at h
  · cases h
  · exact .inl (isOfOperands_of_add h)
  · exact .inl (isOfOperands_of_arithmetic h)
  · exact .inl (isOfOperands_of_arithmetic h)
  · exact .inl (isOfOperands_of_divide h)
  · exact .inl (isOfOperands_of_order h)
  · exact .inl (isOfOperands_of_order h)
  · exact .inl (isOfOperands_of_order h)
  · exact .inl (isOfOperands_of_order h)
  · cases h
  · cases h
  · cases h
    refine .inr ⟨rfl, fun s hs => eq_false_of_ne_true fun his => ?_⟩
    have hkind := Token.kind_of_is his
    simp only [Symbol.binaryOperators, List.mem_cons, List.not_mem_nil, or_false] at hs
    rcases hs with rfl | rfl | rfl | rfl | rfl | rfl | rfl | rfl | rfl | rfl | rfl <;>
      contradiction

end Value

section Runs

variable {T : Token → Prop} {host : Host} {sink : Sink} {t : State} {m : Machine} {alone : Bool}

/-- **No step applies an operator that is none**, on well-formed trees. -/
theorem State.Trees.misapplies_step (ht : t.Trees (.formed T)) (hno : t.misapplies = false)
    (host : Host) : (Scriptlet.step host t).misapplies = false := by
  have hoperands {fault : RuntimeFault} (h : fault.isOfOperands = true) :
      fault.isMisapplied = false := by cases fault <;> first | rfl | cases h
  have hcall {fault : RuntimeFault} (h : fault.isOfCall = true) :
      fault.isMisapplied = false := by cases fault <;> first | rfl | cases h
  obtain ⟨-, hsame⟩ | ⟨c, m, -, hgoes⟩ := t.step_cases host
  · rw [hsame]
    exact hno
  · generalize Scriptlet.step host t = t' at hgoes ⊢
    cases hgoes with
    | failed hfaults =>
      cases hfaults with
      | unary h =>
        obtain ⟨-, -, ⟨e, he⟩, -⟩ := ht
        have hformed : (Node.expr (.unary _ e)).Formed T := he
        -- A fault is about the operand, or the token is neither of the two operators.
        obtain h | ⟨rfl, hbang, hminus⟩ := Value.fault_of_applyUnary h
        · exact hoperands h
        · obtain hop | hop := hformed.inShape
          · cases hbang.symm.trans hop
          · cases hminus.symm.trans hop
      | binary h =>
        obtain ⟨-, -, -, ⟨a, b, he⟩, -⟩ := ht
        have hformed : (Node.expr (.binary a _ b)).Formed T := he
        obtain h | ⟨rfl, hnone⟩ := Value.fault_of_applyBinary h
        · exact hoperands h
        · obtain ⟨s, hs, hop⟩ := hformed.inShape
          cases (hnone s hs).symm.trans hop
      | callee h | argument h => exact hcall h
      | property h => obtain rfl | rfl := h <;> rfl
      | read | this | assign | owner => rfl
    | _ => rfl

theorem State.Trees.misapplies_steps (ht : t.Trees (.formed T)) (hno : t.misapplies = false)
    (host : Host) (n : Nat) : ((Scriptlet.step host)^[n] t).misapplies = false := by
  induction n with
  | zero => exact hno
  | succ n ih =>
    rw [Function.iterate_succ_apply']
    exact (ht.steps host n).misapplies_step ih host

theorem Machine.misapplies_begin (m : Machine) (alone : Bool) (s : Stmt) :
    (m.begin alone s).misapplies = false := by
  unfold Machine.begin
  split <;> rfl

theorem Machine.Passes.misapplies {ss : List Stmt} {made made' : List Making}
    (ht : Machine.Passes host alone ss m made t made') (hm : m.Trees (Node.Formed T))
    (hss : Stmt.FormedAll T ss) : t.misapplies = false := by
  induction ht with
  | now n =>
    have hbegin := Machine.Trees.begin (C := .formed T) hm alone hss.1
    exact hbegin.misapplies_steps (Machine.misapplies_begin _ alone _) host n
  | later fuel hnext _ ih =>
    exact ih (Machine.Trees.goOn (C := .formed T) hm hss.1 hnext) hss.2

/-- Whatever a session runs, no operator that is none is ever applied. -/
theorem Session.Moment.misapplies {rs : List Request} {h : History}
    (ht : Session.Moment host sink rs t h) (hnatives : ∀ r ∈ rs, r.DefinesOnly Native.Honest) :
    t.misapplies = false := by
  obtain ⟨hs, hj, hp⟩ := ht
  have hbefore := hs.trees (C := .formed Token.Spelled) (fun r _ => r.brings_formed)
    (List.forall_mem_append.1 hnatives).1
  exact hp.misapplies (Request.trees_job hbefore hj) (Request.brings_formed _ _ _ hj)

end Runs

/-! ### Programs and sessions -/

/-- **Programs are in shape**, even those about which something is reported. Every part of the
    program that a token list yields is in shape, and every declaration in it is an element of the
    program, of a block or of the body of a function. So no session whose functions of the host
    are `Native.Honest` ever comes to a unary or binary operator that is none. -/
theorem Program.parsed_in_shape :
    (∀ (tokens : List Token) (nextNode : NodeId) (report : Report) (p : Path) (n : Node),
      (Node.stmts (parse tokens nextNode report).statements).at? p = some n →
      n.InShape ∧ ∀ s, n = .stmt s → s.isDeclaration = true →
        (Node.stmts (parse tokens nextNode report).statements).Listed p s) ∧
    ∀ (host : Host) (sink : Sink) (rs : List Request) (t : State) (h : History),
      (∀ r ∈ rs, r.DefinesOnly Native.Honest) → Session.Moment host sink rs t h → ∀ op m,
        t ≠ .failed (.runtime op .invalidUnary) m ∧
          t ≠ .failed (.runtime op .invalidBinary) m := by
  constructor
  · intro tokens nextNode report p n hp
    have hformed : (Node.stmts (parse tokens nextNode report).statements).Formed fun _ => True :=
      (built_parse tokens nextNode report fun _ _ => trivial).1
    refine ⟨(hformed.at? hp).inShape, ?_⟩
    rintro s rfl hs
    exact hformed.listed_of_isDeclaration hp hs
  · intro host sink rs t h hnatives ht op m
    have hno := ht.misapplies hnatives
    constructor
    · rintro rfl
      cases hno
    · rintro rfl
      cases hno

/-- A method that declares a variable behind a statement that cannot be read. -/
def Program.declaredBehindError : List Token :=
  Token.ofSource "class A \x7b m() \x7b print + 1; var x = -1; \x7d \x7d"

/-- The sign of something that is no number. -/
def Session.signOfNil : String := "-nil;"

/-- A part of a tree that is a declaration. -/
def Node.isDeclaration : Node → Bool
  | .stmt s => s.isDeclaration
  | _ => false

/-- A run that failed for the lack of a number. -/
def State.lacksNumber : State → Bool
  | .failed (.runtime _ .operandNotNumber) _ => true
  | _ => false

theorem State.eq_of_lacksNumber {t : State} (h : t.lacksNumber = true) :
    ∃ op m, t = .failed (.runtime op .operandNotNumber) m := by
  unfold lacksNumber at h
  split at h
  · exact ⟨_, _, rfl⟩
  · cases h

/-- The declaration is the first element of the body of the method, for the statement in front of
    it is left out. The sign cannot be applied, but it is a sign. -/
theorem Program.parsed_in_shape_declaredBehindError :
    (∃ s, (parse declaredBehindError 0 .empty).report.size = 1 ∧
      (Node.stmts (parse declaredBehindError 0 .empty).statements).at? [0, 0, 0, 0, 0] =
        some (.stmt s) ∧ s.isDeclaration = true ∧
      (Node.stmts (parse declaredBehindError 0 .empty).statements).Listed [0, 0, 0, 0, 0] s) ∧
    ∃ t h, Session.Moment (Host.usual fun _ => 0) Sink.unbounded [.force Session.signOfNil] t h ∧
      (∃ op m, t = .failed (.runtime op .operandNotNumber) m) ∧
      ∀ op m, t ≠ .failed (.runtime op .invalidUnary) m := by
  constructor
  · have hfound : ((Node.stmts (parse declaredBehindError 0 .empty).statements).at?
        [0, 0, 0, 0, 0]).any Node.isDeclaration = true := by decide +kernel
    obtain ⟨n, hn, hdecl⟩ := (Option.any_eq_true _ _).1 hfound
    cases n with
    | stmt s =>
      exact ⟨s, by decide +kernel, hn, hdecl,
        (parsed_in_shape.1 _ _ _ _ _ hn).2 s rfl hdecl⟩
    | _ => cases hdecl
  · have hs : ((Session.new Sink.unbounded).analyze Session.signOfNil).1.statements.isEmpty =
        false := by decide +kernel
    obtain ⟨h, ht⟩ := Session.moment_firstState (Host.usual fun _ => 0) hs 4
    have hfails : ((step (Host.usual fun _ => 0))^[4]
        (Session.firstState Sink.unbounded Session.signOfNil)).lacksNumber = true := by
      decide +kernel
    exact ⟨_, h, ht, State.eq_of_lacksNumber hfails,
      fun op m => (parsed_in_shape.2 _ _ _ _ _ (by simp [Request.DefinesOnly]) ht op m).1⟩

end Scriptlet
