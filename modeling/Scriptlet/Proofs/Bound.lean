import Scriptlet.Proofs.Progress

namespace Scriptlet

/-!
# Higher bounds

A rule that ends without having reached its bound ends in the same way with every higher bound,
so what is read does not depend on how many tokens stand behind the end token.

* `Rule.run_program_unique` — bounds within which a program is read lead to the same end, by the
  contracts of `Rule.advances`.
* `Program.parse_eq_of_run` — a run of the rules within any bound is the run that `parse` makes.
* `Program.endPosition`, `Program.upToEnd`, `Program.parse_upToEnd` — nothing behind the first end
  token is read.
-/

/-! ### Programs -/

/-- Two bounds within which a program is read lead to the same end. -/
theorem Rule.run_program_unique {n m : Nat} {c c₁ c₂ : Cursor} {ss₁ ss₂ : List Stmt}
    (h₁ : (program n).run c = (.ok ss₁, c₁)) (h₂ : (program m).run c = (.ok ss₂, c₂)) :
    ss₁ = ss₂ ∧ c₁ = c₂ := by
  have hrun {k : Nat} {ss : List Stmt} {c' : Cursor} (h : (program k).run c = (.ok ss, c'))
      (hk : k ≤ max n m) : (program (max n m)).run c = (.ok ss, c') :=
    (Parse.Ensures.of_run (advances_program hk c) h).2.2
  have heq := (hrun h₁ (Nat.le_max_left n m)).symm.trans (hrun h₂ (Nat.le_max_right n m))
  cases heq
  exact ⟨rfl, rfl⟩

namespace Program

/-- A run of the rules within some bound is the run of the whole reading. -/
theorem parse_eq_of_run {tokens : List Token} {nextNode : NodeId} {report : Report} {n : Nat}
    {statements : List Stmt} {c : Cursor}
    (h : (Rule.program n).run (start tokens nextNode report) = (.ok statements, c)) :
    parse tokens nextNode report = ⟨statements, c.report, c.nextNode⟩ := by
  obtain ⟨statements', c', hrun, hparse⟩ := run_program tokens nextNode report
  obtain ⟨rfl, rfl⟩ := Rule.run_program_unique h hrun
  exact hparse

/-- The position of the first end token; in a list without one, the length. -/
def endPosition (tokens : List Token) : Nat := (tokens.takeWhile (!·.isEof)).length

/-- The tokens up to the first end token, and that one. -/
def upToEnd (tokens : List Token) : List Token := tokens.take (endPosition tokens + 1)

theorem upToEnd_cons (t : Token) (ts : List Token) :
    upToEnd (t :: ts) = if t.isEof then [t] else t :: upToEnd ts := by
  unfold upToEnd endPosition
  cases h : t.isEof <;> simp [h]

theorem takeWhile_upToEnd (tokens : List Token) :
    (upToEnd tokens).takeWhile (!·.isEof) = tokens.takeWhile (!·.isEof) := by
  induction tokens with
  | nil => rfl
  | cons t ts ih =>
    rw [upToEnd_cons]
    cases h : t.isEof <;> simp [h, ih]

theorem endToken_upToEnd (tokens : List Token) : endToken (upToEnd tokens) = endToken tokens := by
  unfold endToken
  induction tokens with
  | nil => rfl
  | cons t ts ih =>
    rw [upToEnd_cons]
    cases h : t.isEof <;> simp [h, ih]

/-- **Nothing behind the end.** What is read depends only on the tokens up to the first end
    token, and on that one. -/
theorem parse_upToEnd (tokens : List Token) (nextNode : NodeId) (report : Report) :
    parse (upToEnd tokens) nextNode report = parse tokens nextNode report := by
  obtain ⟨statements, c, hrun, hparse⟩ := run_program tokens nextNode report
  rw [hparse]
  refine parse_eq_of_run (n := fuel tokens.length) ?_
  rw [start, takeWhile_upToEnd, endToken_upToEnd]
  exact hrun

end Program

end Scriptlet
