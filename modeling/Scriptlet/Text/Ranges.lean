namespace Scriptlet.Text

/-!
# Runs of character codes

A set of character codes, kept as the lengths of its runs: how many codes from zero on are out of
the set, how many from there on are in it, how many are out of it again, and so on.

* `Ranges` — the lengths. Any list of lengths tells a set.
* `Ranges.contains` — look-up, which walks along the runs up to the one that the code is in.
* `Ranges.contains_iff` — a code is found exactly if it lies in a run that is in the set.
-/

/-- Whether a code lies in a run of the set, the first run being out of it. -/
def liesIn (n : Nat) : List Nat → Bool
  | out :: inside :: rest =>
    if n < out then false
    else if n < out + inside then true
    else liesIn (n - (out + inside)) rest
  | _ => false

/-- A set of character codes: the lengths of the runs that are out of it and in it, by turns. -/
structure Ranges where
  runs : List Nat

namespace Ranges

/-- Whether the code is in the set. -/
def contains (s : Ranges) (n : Nat) : Bool := liesIn n s.runs

end Ranges

/-- Where the `k`-th run starts: behind all runs in front of it. -/
def runStart : List Nat → Nat → Nat
  | run :: runs, k + 1 => run + runStart runs k
  | _, _ => 0

/-- `liesIn` by its recursion: a code behind the first two runs is counted from there on. -/
theorem liesIn_iff (n : Nat) (runs : List Nat) :
    liesIn n runs = true ↔
      ∃ k, runStart runs (2 * k + 1) ≤ n ∧ n < runStart runs (2 * k + 2) := by
  fun_induction liesIn n runs with
  | case1 n out inside rest hout =>
    refine iff_of_false Bool.false_ne_true ?_
    rintro ⟨k, hfirst, -⟩
    rw [runStart] at hfirst
    omega
  | case2 n out inside rest hout hin =>
    refine iff_of_true rfl ⟨0, ?_⟩
    simp only [runStart]
    omega
  | case3 n out inside rest hout hin ih =>
    rw [ih]
    constructor
    · rintro ⟨k, hfirst, hlast⟩
      refine ⟨k + 1, ?_⟩
      simp only [Nat.mul_succ, runStart]
      omega
    · rintro ⟨_ | k, hfirst, hlast⟩
      · -- the first run of the set lies in front of the code
        simp only [runStart] at hlast
        omega
      · simp only [Nat.mul_succ, runStart] at hfirst hlast
        exact ⟨k, by omega, by omega⟩
  | case4 runs n hshort =>
    refine iff_of_false Bool.false_ne_true ?_
    rintro ⟨k, hfirst, hlast⟩
    -- with less than two runs, both starts are the end of all of them
    cases runs with
    | nil => simp [runStart] at hlast
    | cons out runs =>
      cases runs with
      | nil =>
        simp only [runStart] at hfirst hlast
        omega
      | cons inside rest => exact absurd rfl (hshort out inside rest)

/-- **Look-up is membership.** A code is found exactly if one of the runs of the set holds it. -/
theorem Ranges.contains_iff (s : Ranges) (n : Nat) :
    s.contains n = true ↔
      ∃ k, runStart s.runs (2 * k + 1) ≤ n ∧ n < runStart s.runs (2 * k + 2) :=
  liesIn_iff n s.runs

end Scriptlet.Text
