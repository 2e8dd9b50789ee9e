import Scriptlet.Proofs.Contents
import Scriptlet.Proofs.Paths

namespace Scriptlet

/-!
# The function that is running

A run evaluates and executes parts of the innermost function that is running, or parts of the
program if none is. What is left to be done once that function has ended are parts of the function
around it, and so on.

* `Node.Part` — a part of a tree, however deep.
* `ExprCont.Awaits`, `State.Evaluates` — the expression that is being evaluated.
* `History.Reads` — a part of a program that a session has read; `History.corpus` — such parts,
  each in the function that it is a part of.
-/

/-! ### Parts of a tree -/

/-- A part of a tree, however deep. -/
def Node.Part (root n : Node) : Prop := ∃ path, root.at? path = some n

namespace Node.Part

variable {root n part : Node}

/-- A tree is a part of itself. -/
theorem refl (n : Node) : n.Part n := ⟨[], rfl⟩

/-- The children of a part are parts. -/
theorem child (h : root.Part n) (hpart : part ∈ n.children) : root.Part part := by
  obtain ⟨path, hpath⟩ := h
  obtain ⟨i, hi⟩ := List.mem_iff_getElem?.1 hpart
  refine ⟨path ++ [i], ?_⟩
  rw [Node.at?_concat, hpath]
  exact hi

/-- The parts of a part are parts. -/
theorem trans (h : root.Part n) (hpart : n.Part part) : root.Part part := by
  obtain ⟨path, hpath⟩ := h
  obtain ⟨path', hpath'⟩ := hpart
  refine ⟨path ++ path', ?_⟩
  rw [Node.at?_append, hpath]
  exact hpath'

end Node.Part

/-! ### What is running -/

/-- A function as a part of the tree it stands in. -/
def Closure.node (c : Closure) : Node := .function c.kind c.decl

/-- The tree that is run: a function, or else the program. -/
def Node.running (program : List Stmt) : Option Closure → Node
  | none => .stmts program
  | some c => c.node

/-! ### The expression that is being evaluated -/

/-- The expression that a value is handed to. An argument is handed to the call that has evaluated
    as many before it, and whose other arguments are left. -/
inductive ExprCont.Awaits : Expr → ExprCont → Prop
  | assign {id name value k} : Awaits (.assign id name value) (.assign id name k)
  | unary {op operand k} : Awaits (.unary op operand) (.unary op k)
  | left {left op right k} : Awaits (.binary left op right) (.left op right k)
  | right {left op right first k} : Awaits (.binary left op right) (.right first op k)
  | logical {left op right k} : Awaits (.logical left op right) (.logical op right k)
  | choose {condition question whenTrue whenFalse k} :
      Awaits (.conditional condition question whenTrue whenFalse) (.choose whenTrue whenFalse k)
  | callee {callee paren arguments k} :
      Awaits (.call callee paren arguments) (.callee paren arguments k)
  | argument {callee paren v before after k} {es : List Expr} {e : Expr}
      (h : es.length = before.length) :
      Awaits (.call callee paren (es ++ e :: after)) (.argument v paren before after k)
  | property {object name k} : Awaits (.get object name) (.property name k)
  | fieldOwner {object name value k} : Awaits (.set object name value) (.fieldOwner name value k)
  | fieldValue {object name value id k} : Awaits (.set object name value) (.fieldValue id name k)

/-- The expression whose evaluation the next step starts or goes on with. -/
inductive State.Evaluates : State → Expr → Prop
  | start {e k m} : Evaluates (.eval e k m) e
  | goOn {e v k m} (h : k.Awaits e) : Evaluates (.value v k m) e

/-! ### Programs that were read -/

/-- A part of a program that was read. -/
def History.Reads (h : History) (n : Node) : Prop := ∃ p ∈ h.programs, p.node.Part n

namespace History.Reads

variable {h : History} {n n' : Node}

/-- The parts of what was read were read. -/
theorem part (hn : h.Reads n) (hpart : n.Part n') : h.Reads n' := by
  obtain ⟨p, hp, hn⟩ := hn
  exact ⟨p, hp, hn.trans hpart⟩

/-- What was read stays read when more is. -/
theorem append (hn : h.Reads n) (programs : List Visit) (made : List Making) :
    History.Reads ⟨h.programs ++ programs, made⟩ n := by
  obtain ⟨p, hp, hn⟩ := hn
  exact ⟨p, List.mem_append_left _ hp, hn⟩

end History.Reads

/-- `Reads` goes down the tree, as a `Corpus` needs. -/
theorem History.handsDown_reads (h : History) : Node.HandsDown h.Reads :=
  fun _ hn _ hpart => hn.part ((Node.Part.refl _).child hpart)

/-- Parts of programs that were read, each in the function that it is a part of, or else in
    `program`. -/
def History.corpus (h : History) (program : List Stmt) : Corpus where
  known := h.Reads
  inside c n := h.Reads (Node.running program c) ∧ (Node.running program c).Part n
  returned _ _ := True
  handsDown := h.handsDown_reads
  known_of_inside h := h.1.part h.2
  part h _ hpart := ⟨h.1, h.2.child hpart⟩
  body h := ⟨h, (Node.Part.refl _).child (List.mem_singleton_self _)⟩
  ret _ := trivial
  retValue _ _ := trivial

end Scriptlet
