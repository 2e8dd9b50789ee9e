import Scriptlet.Proofs.CallLimit

namespace Scriptlet

/-!
# Turns of loops, and runs by other steps

A loop with an increment takes **turns**: its body runs, and then the increment, both right in the
scopes that the loop stands in. Trees have no node for that. Here a tree that no source gives stands
for a turn, and there are steps by which it is one.

* `Stmt.turn`, `Stmt.turn?` — the tree that stands for a turn; `Stmt.Formed.turn?_eq_none` — no tree
  of a source is one.
* `stepTurns` — the step of a machine that takes turns.
* `Machine.Executes`, `Machine.Interprets`, `Machine.Writes` — what comes of statements and programs
  by whatever steps; `Machine.executes_iff`, `Machine.interprets_iff`, `Machine.writes_iff` — by the
  usual steps it is what comes of them otherwise.
-/

/-! ### Turns -/

/-- A turn of a loop: its body, and the increment behind it. What marks it is a function whose name
    is no name. -/
def Stmt.turn (body : Stmt) (increment : Expr) : Stmt :=
  .ifElse (.function (.mk (some ⟨.eof, "", 0⟩) [] [])) body (some (.expr increment))

/-- The body and the increment, if the statement stands for a turn. -/
def Stmt.turn? : Stmt → Option (Stmt × Expr)
  | .ifElse mark body (some (.expr increment)) =>
    match mark with
    | .function (.mk (some ⟨.eof, _, _⟩) _ _) => some (body, increment)
    | _ => none
  | _ => none

/-- No tree of a source stands for a turn. -/
theorem Stmt.Formed.turn?_eq_none {T : Token → Prop} {s : Stmt} (hs : s.Formed T) :
    s.turn? = none := by
  unfold Stmt.turn?
  split
  · split
    · obtain ⟨⟨hname, -⟩, -⟩ := hs
      cases (hname _ rfl).2
    · rfl
  · rfl

/-- The step of a machine that takes turns: it executes the body, and has the increment left. -/
def stepTurns (host : Host) : State → State
  | .exec s k m =>
    match s.turn? with
    | some (body, increment) => .exec body (.sequence [.expr increment] k) m
    | none => step host (.exec s k m)
  | t => step host t

/-! ### Runs -/

/-- By steps of the kind `next`, the statement ends with `p`. -/
def Machine.Executes (next : State → State) (m : Machine) (s : Stmt)
    (p : Outcome Flow × Machine) : Prop :=
  ∃ n, (next^[n] (.exec s .done m)).isFinal = true ∧
    (next^[n] (.exec s .done m)).ending? = some p

/-- Statements are executed up to the first error, and the output is flushed. -/
inductive Machine.Interprets (next : State → State) :
    Machine → List Stmt → Outcome Unit → Machine → Prop
  | nil {m} : Interprets next m [] (m.flush (.finished ())) m
  | next {m s f m' ss o m''} (h : m.Executes next s (.finished f, m'))
      (hrest : Interprets next m' ss o m'') : Interprets next m (s :: ss) o m''
  | failed {m s e m' ss} (h : m.Executes next s (.failed e, m')) :
      Interprets next m (s :: ss) (Machine.flush { m' with env := Machine.globals } (.failed e))
        { m' with env := Machine.globals }
  | desync {m s d m' ss} (h : m.Executes next s (.desync d, m')) :
      Interprets next m (s :: ss) (.desync d) m'

/-- At some moment while statements are executed one after the other, the sink is this one. -/
inductive Machine.Writes (next : State → State) : Machine → List Stmt → Sink → Prop
  | now {m s ss} (n : Nat) :
      Writes next m (s :: ss) (next^[n] (.exec s .done m)).machine.sink
  | later {m s f m' ss sink} (h : m.Executes next s (.finished f, m'))
      (hrest : Writes next m' ss sink) : Writes next m (s :: ss) sink

section Usual

variable {host : Host} {m m' : Machine} {s : Stmt} {ss : List Stmt}

theorem Machine.executes_iff {p : Outcome Flow × Machine} :
    m.Executes (step host) s p ↔ ∃ fuel, m.execute host fuel s = some p := by
  unfold Machine.Executes
  simp only [Machine.execute_eq_bind, Machine.begin_false]
  constructor
  · rintro ⟨n, hfinal, hending⟩
    exact ⟨n, by rw [runSteps_of_isFinal hfinal]; exact hending⟩
  · rintro ⟨fuel, h⟩
    obtain ⟨t, hrun, hending⟩ := Option.bind_eq_some_iff.1 h
    obtain ⟨rfl, hfinal⟩ := eq_iterate_of_runSteps hrun
    exact ⟨fuel, hfinal, hending⟩

theorem Machine.interprets_iff {o : Outcome Unit} :
    m.Interprets (step host) ss o m' ↔ ∃ fuel, m.interpret host fuel ss = some (o, m') := by
  constructor
  · intro h
    induction h with
    | nil => exact ⟨0, rfl⟩
    | next h _ ih =>
      obtain ⟨fuel, hfirst⟩ := Machine.executes_iff.1 h
      obtain ⟨fuel', hrest⟩ := ih
      -- More fuel does not change how a run ends, so the larger one serves both.
      refine ⟨max fuel fuel', ?_⟩
      unfold Machine.interpret
      rw [Machine.execute_of_le hfirst (Nat.le_max_left _ _)]
      exact Machine.interpret_of_le hrest (Nat.le_max_right _ _)
    | failed h | desync h =>
      obtain ⟨fuel, hfirst⟩ := Machine.executes_iff.1 h
      refine ⟨fuel, ?_⟩
      unfold Machine.interpret
      rw [hfirst]
  · rintro ⟨fuel, h⟩
    induction ss generalizing m with
    | nil =>
      cases h
      exact .nil
    | cons s ss ih =>
      unfold Machine.interpret at h
      cases hfirst : m.execute host fuel s with
      | none =>
        rw [hfirst] at h
        cases h
      | some p =>
        rw [hfirst] at h
        have hexec := Machine.executes_iff.2 ⟨fuel, hfirst⟩
        obtain ⟨o', m₁⟩ := p
        cases o' with
        | finished f => exact .next hexec (ih h)
        | failed e =>
          cases h
          exact .failed hexec
        | desync d =>
          cases h
          exact .desync hexec

theorem Machine.writes_iff {sink : Sink} :
    m.Writes (step host) ss sink ↔ m.Shows host false ss sink := by
  constructor
  · intro h
    induction h with
    | now n => exact Machine.shows_cons.2 (.inl ⟨n, by rw [Machine.begin_false]⟩)
    | later h _ ih =>
      obtain ⟨fuel, hfirst⟩ := Machine.executes_iff.1 h
      refine Machine.shows_cons.2 (.inr ⟨fuel, _, ?_, ih⟩)
      unfold Machine.goOn
      rw [if_neg Bool.false_ne_true, hfirst]
  · intro h
    induction ss generalizing m with
    | nil => exact absurd h Machine.not_shows_nil
    | cons s ss ih =>
      obtain ⟨n, rfl⟩ | ⟨fuel, m', hnext, hrest⟩ := Machine.shows_cons.1 h
      · rw [Machine.begin_false]
        exact .now n
      · obtain ⟨f, hfirst⟩ := Machine.execute_of_goOn hnext
        exact .later (Machine.executes_iff.2 ⟨fuel, hfirst⟩) (ih hrest)

end Usual

end Scriptlet
