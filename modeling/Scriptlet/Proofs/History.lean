import Mathlib.Logic.Function.Iterate
import Scriptlet.Proofs.Visit
import Scriptlet.Session

namespace Scriptlet

/-!
# Sessions and their moments

What happens in a session, moment by moment.

* `State.makes` — the environments that a step makes, each with the construct it is made for.
* `Machine.Passes`, `Machine.Finishes` — the states that a program passes, and the one in which it
  comes to its end.
* `Request`, `Request.perform` — the ways in which a session is used, and what each one does;
  `Request.perform_cases` — what that comes down to.
* `History` — the programs that a session has read, and the environments that it has made.
* `Session.After` — the sessions that come out of a list of requests.
* `Session.Moment` — the states that are passed while the last one of some requests is performed.
-/

/-! ### Environments made by a step -/

/-- An environment, and what it was made for. -/
abbrev Making := Env × Construct

namespace Step

/-- A method of a class is bound to an object. -/
def bindMakes (cls : Class) (m : Machine) : Making :=
  (m.store.frames.size :: cls.env, .methods cls.name cls.methods)

/-- A property is read: a method that is found in place of a field is bound. -/
def propertyMakes (object : Value) (name : Token) (m : Machine) : List Making :=
  match object with
  | .object id cls =>
    match (m.store.fields id)[name.lexeme]? with
    | some _ => []
    | none =>
      match cls.method? name.lexeme with
      | some _ => [bindMakes cls m]
      | none => []
  | _ => []

/-- A value is called: a function is entered, or the initializer of a class is bound and
    entered. -/
def callMakes (host : Host) (callee : Value) (count : Nat) (m : Machine) : List Making :=
  let f := m.store.frames.size
  match callee with
  | .function _ closure =>
    match refusal? host m closure.arity count with
    | some _ => []
    | none => [(f :: closure.env, .function closure.decl)]
  | .classObj _ cls =>
    match refusal? host m cls.arity count with
    | some _ => []
    | none =>
      match cls.initializer? with
      | none => []
      | some initializer =>
        [bindMakes cls m, ((f + 1) :: f :: cls.env, .function initializer.decl)]
  | _ => []

end Step

namespace State

/-- The environments that the next step makes, in the order in which it makes them. -/
def makes (host : Host) : State → List Making
  | .exec (.block body) _ m => [(m.store.frames.size :: m.env, .block body)]
  | .value v (.callee _ [] _) m => Step.callMakes host v 0 m
  | .value _ (.argument callee _ before [] _) m =>
    Step.callMakes host callee (before.length + 1) m
  | .value v (.property name _) m => Step.propertyMakes v name m
  | _ => []

/-- The environments made by the next `n` steps. -/
def makesIn (host : Host) : Nat → State → List Making
  | 0, _ => []
  | n + 1, t => t.makes host ++ makesIn host n (step host t)

/-- A variable was not where its depth says. -/
def isDesync : State → Bool
  | .desync _ _ => true
  | _ => false

end State

section Runs

variable {host : Host} {t : State}

/-- A finished run stays as it is. -/
theorem step_of_isFinal (h : t.isFinal = true) : step host t = t := by
  unfold State.isFinal at h
  split at h
  · rfl
  · rfl
  · rfl
  · rfl
  · cases h

theorem iterate_step_of_isFinal (h : t.isFinal = true) (n : Nat) : (step host)^[n] t = t :=
  Function.iterate_fixed (step_of_isFinal h) n

/-- `runSteps` makes as many steps as there is fuel, and tells whether the run is over then. -/
theorem runSteps_eq (host : Host) (fuel : Nat) (t : State) : runSteps host fuel t =
    if ((step host)^[fuel] t).isFinal then some ((step host)^[fuel] t) else none := by
  induction fuel generalizing t with
  | zero => rfl
  | succ fuel ih =>
    unfold runSteps
    by_cases hfinal : t.isFinal = true
    · rw [if_pos hfinal, iterate_step_of_isFinal hfinal, if_pos hfinal]
    · rw [if_neg hfinal, ih]
      rfl

/-- A run that finishes is as many steps as there is fuel. -/
theorem eq_iterate_of_runSteps {fuel : Nat} {t' : State}
    (h : runSteps host fuel t = some t') : t' = (step host)^[fuel] t ∧ t'.isFinal = true := by
  rw [runSteps_eq] at h
  split at h
  · next hfinal =>
    cases h
    exact ⟨rfl, hfinal⟩
  · cases h

/-- And a run that is over after `n` steps finishes with that fuel. -/
theorem runSteps_of_isFinal {n : Nat} (h : ((step host)^[n] t).isFinal = true) :
    runSteps host n t = some ((step host)^[n] t) := by
  rw [runSteps_eq, if_pos h]

end Runs

/-- Nothing can be run after a variable was not where its depth says. -/
def Outcome.isDesync {α : Type} : Outcome α → Bool
  | .desync _ => true
  | _ => false

/-! ### Programs, statement by statement -/

namespace Machine

/-- The state in which a statement starts. On its own, an expression is only evaluated. -/
def begin (alone : Bool) (s : Stmt) (m : Machine) : State :=
  match alone, s with
  | true, .expr e => .eval e .done m
  | _, s => .exec s .done m

theorem begin_false (m : Machine) (s : Stmt) : m.begin false s = .exec s .done m := by
  cases s <;> rfl

/-- The machine with which the statement behind `s` starts, if there is to be one. Statements on
    their own follow each other also behind errors. -/
def goOn (host : Host) (fuel : Nat) (alone : Bool) (s : Stmt) (m : Machine) : Option Machine :=
  if alone then
    match Session.result host fuel s m with
    | some (.ok _, m) => some m
    | _ => none
  else
    match m.execute host fuel s with
    | some (.finished _, m) => some m
    | _ => none

/-- The environments made by a program. -/
def makesBy (host : Host) (fuel : Nat) (alone : Bool) : List Stmt → Machine → List Making
  | [], _ => []
  | s :: rest, m =>
    (begin alone s m).makesIn host fuel ++
      match goOn host fuel alone s m with
      | some m => makesBy host fuel alone rest m
      | none => []

/-- The states that a program passes, each with the environments made up to it. -/
inductive Passes (host : Host) (alone : Bool) :
    List Stmt → Machine → List Making → State → List Making → Prop
  | now {s rest m made} (n : Nat) :
      Passes host alone (s :: rest) m made ((step host)^[n] (begin alone s m))
        (made ++ (begin alone s m).makesIn host n)
  | later {s rest m m' made t made'} (fuel : Nat) (h : goOn host fuel alone s m = some m')
      (ht : Passes host alone rest m' (made ++ (begin alone s m).makesIn host fuel) t made') :
      Passes host alone (s :: rest) m made t made'

/-- At some moment while the statements `ss` are run, `sink` has got what was written. So runs that
    do not end can be compared by what they write, too. -/
def Shows (host : Host) (alone : Bool) (ss : List Stmt) (m : Machine) (sink : Sink) : Prop :=
  ∃ t made, Passes host alone ss m [] t made ∧ t.machine.sink = sink

section Shows

variable {host : Host} {alone : Bool} {s : Stmt} {ss : List Stmt} {m : Machine} {sink : Sink}

/-- `Passes` comes to the same states whatever was made before. -/
theorem Passes.exists_from {made made' : List Making} {t : State}
    (h : Passes host alone ss m made t made') (other : List Making) :
    ∃ other', Passes host alone ss m other t other' := by
  induction h generalizing other with
  | now n => exact ⟨_, .now n⟩
  | later fuel hnext _ ih =>
    obtain ⟨other', h⟩ := ih _
    exact ⟨other', .later fuel hnext h⟩

theorem not_shows_nil : ¬ m.Shows host alone [] sink := by
  rintro ⟨t, made, h, -⟩
  cases h

/-- `Shows` statement by statement: while the first one runs, or behind it. -/
theorem shows_cons : m.Shows host alone (s :: ss) sink ↔
    (∃ n, ((step host)^[n] (m.begin alone s)).machine.sink = sink) ∨
      ∃ fuel m', m.goOn host fuel alone s = some m' ∧ m'.Shows host alone ss sink := by
  constructor
  · rintro ⟨t, made, h, hsink⟩
    cases h with
    | now n => exact .inl ⟨n, hsink⟩
    | later fuel hnext h =>
      obtain ⟨made', h⟩ := h.exists_from []
      exact .inr ⟨fuel, _, hnext, t, made', h, hsink⟩
  · rintro (⟨n, hsink⟩ | ⟨fuel, m', hnext, t, made, h, hsink⟩)
    · exact ⟨_, _, .now n, hsink⟩
    · obtain ⟨made', h⟩ := h.exists_from _
      exact ⟨t, made', .later fuel hnext h, hsink⟩

end Shows

end Machine

section Before

variable {host : Host} {t : State}

/-- Before a run is over it was at some last state that was not. -/
theorem State.exists_before_final (hlive : t.isFinal = false) {n : Nat}
    (hn : ((step host)^[n] t).isFinal = true) :
    ∃ i, ((step host)^[i] t).isFinal = false ∧
      step host ((step host)^[i] t) = (step host)^[n] t := by
  induction n with
  | zero => exact absurd (hlive.symm.trans hn) Bool.false_ne_true
  | succ n ih =>
    rw [Function.iterate_succ_apply'] at hn ⊢
    cases hfinal : ((step host)^[n] t).isFinal with
    | false => exact ⟨n, hfinal, rfl⟩
    | true =>
      rw [step_of_isFinal hfinal]
      exact ih hfinal

theorem Machine.isFinal_begin (m : Machine) (alone : Bool) (s : Stmt) :
    (m.begin alone s).isFinal = false := by
  unfold Machine.begin
  split <;> rfl

/-- Before the end of a statement, the program passes a state that comes to it. -/
theorem Machine.Passes.exists_before {alone : Bool} {ss : List Stmt} {m : Machine}
    {made made' : List Making} (hp : Machine.Passes host alone ss m made t made')
    (ht : t.isFinal = true) :
    ∃ t₀ made₀, Machine.Passes host alone ss m made t₀ made₀ ∧ t₀.isFinal = false ∧
      step host t₀ = t := by
  induction hp with
  | @now s rest m made n =>
    obtain ⟨i, hlive, hi⟩ := State.exists_before_final (m.isFinal_begin alone s) ht
    exact ⟨_, _, .now i, hlive, hi⟩
  | later fuel hnext _ ih =>
    obtain ⟨t₀, made₀, hp₀, hlive, hstep⟩ := ih ht
    exact ⟨t₀, made₀, .later fuel hnext hp₀, hlive, hstep⟩

end Before

/-! ### How programs end -/

/-- How a statement ended, if it has. -/
def State.ending? : State → Option (Outcome Flow × Machine)
  | .flow f _ m => some (.finished f, m)
  | .failed e m => some (.failed e, m)
  | .desync d m => some (.desync d, m)
  | _ => none

/-- How a statement on its own ended, if it has. -/
def State.result? : State → Option (Except Desync Result × Machine)
  | .value v _ m => some (.ok (.value v), m)
  | .flow f _ m => some (.ok (.flow f), m)
  | .failed e m => some (.ok (.failed e), m)
  | .desync d m => some (.error d, m)
  | _ => none

section Endings

variable {host : Host} {fuel : Nat} {m m' : Machine} {s : Stmt} {t : State} {alone : Bool}

variable {ss : List Stmt} {o : Outcome Unit}

theorem Machine.execute_eq_bind (m : Machine) (s : Stmt) :
    m.execute host fuel s = (runSteps host fuel (m.begin false s)).bind State.ending? := by
  rw [Machine.begin_false]
  unfold Machine.execute
  cases runSteps host fuel (.exec s .done m) with
  | none => rfl
  | some t => cases t <;> rfl

/-- The run of a statement that is executed. -/
theorem Machine.runSteps_of_execute {o : Outcome Flow}
    (hexec : m.execute host fuel s = some (o, m')) :
    ∃ t, runSteps host fuel (m.begin false s) = some t ∧ t.machine = m' ∧
      t.isDesync = o.isDesync := by
  rw [Machine.execute_eq_bind] at hexec
  obtain ⟨t, hrun, hend⟩ := Option.bind_eq_some_iff.1 hexec
  refine ⟨t, hrun, ?_⟩
  cases t with
  | eval | exec | value => cases hend
  | flow | failed | desync => cases hend; exact ⟨rfl, rfl⟩

/-- The run of a statement on its own. -/
theorem Session.exists_of_result {p : Except Desync Result × Machine}
    (h : Session.result host fuel s m = some p) :
    ∃ t, runSteps host fuel (m.begin true s) = some t ∧ t.result? = some p := by
  cases s with
  | expr e =>
    refine (Option.bind_eq_some_iff (x := runSteps host fuel (.eval e .done m))).1 ?_
    unfold Session.result Machine.evaluate at h
    simp only at h
    generalize runSteps host fuel (.eval e .done m) = r at h ⊢
    cases r with
    | none => cases h
    | some t => cases t <;> first | exact h | cases h
  | _ =>
    refine (Option.bind_eq_some_iff (x := runSteps host fuel (.exec _ .done m))).1 ?_
    unfold Session.result Machine.execute at h
    simp only at h
    generalize runSteps host fuel (.exec _ .done m) = r at h ⊢
    cases r with
    | none => cases h
    | some t => cases t <;> first | exact h | cases h

theorem Session.runSteps_of_result {r : Except Desync Result}
    (hresult : Session.result host fuel s m = some (r, m')) :
    ∃ t, runSteps host fuel (m.begin true s) = some t ∧ t.machine = m' ∧
      t.isDesync = !r.isOk := by
  obtain ⟨t, hrun, hend⟩ := Session.exists_of_result hresult
  refine ⟨t, hrun, ?_⟩
  cases t with
  | eval | exec => cases hend
  | value | flow | failed | desync => cases hend; exact ⟨rfl, rfl⟩

/-- The run of a statement that lets the program go on. -/
theorem Machine.runSteps_of_goOn (hnext : m.goOn host fuel alone s = some m') :
    ∃ t, runSteps host fuel (m.begin alone s) = some t ∧ t.machine = m' ∧
      t.isDesync = false := by
  unfold Machine.goOn at hnext
  cases alone with
  | true =>
    simp only [if_true] at hnext
    split at hnext
    · next hresult => cases hnext; exact Session.runSteps_of_result hresult
    · cases hnext
  | false =>
    simp only [Bool.false_eq_true, if_false] at hnext
    split at hnext
    · next hexec => cases hnext; exact Machine.runSteps_of_execute hexec
    · cases hnext

/-- A program comes to its end in the state. Behind its last statement nothing is left to be
    done. -/
inductive Machine.Finishes (host : Host) (fuel : Nat) (alone : Bool) :
    List Stmt → Machine → State → Prop
  | nil {m : Machine} : Finishes host fuel alone [] m (.flow .normal .done m)
  | last {s rest m t} (hrun : runSteps host fuel (m.begin alone s) = some t)
      (hend : m.goOn host fuel alone s = none) : Finishes host fuel alone (s :: rest) m t
  | next {s rest m m' t} (hnext : m.goOn host fuel alone s = some m')
      (h : Finishes host fuel alone rest m' t) : Finishes host fuel alone (s :: rest) m t

/-- A program passes the state in which it ends, unless it runs out of statements. -/
theorem Machine.Finishes.exists_passes (h : m.Finishes host fuel alone ss t)
    (ht : ∀ m, t ≠ .flow .normal .done m) (made : List Making) :
    ∃ made', Machine.Passes host alone ss m made t made' := by
  induction h generalizing made with
  | nil => exact absurd rfl (ht _)
  | last hrun _ =>
    obtain ⟨rfl, -⟩ := eq_iterate_of_runSteps hrun
    exact ⟨_, .now fuel⟩
  | next hnext _ ih =>
    obtain ⟨made', hp⟩ := ih ht _
    exact ⟨made', .later fuel hnext hp⟩

/-- How a program closes in its last state, and on which machine. -/
inductive State.Closes : State → Outcome Unit → Machine → Prop
  | finished {f k m} : Closes (.flow f k m) (m.flush (.finished ())) m
  | failed {e m} : Closes (.failed e m)
      (Machine.flush { m with env := Machine.globals } (.failed e))
      { m with env := Machine.globals }
  | desync {d m} : Closes (.desync d m) (.desync d) m

theorem Machine.finishes_of_interpret (hrun : m.interpret host fuel ss = some (o, m')) :
    ∃ t, m.Finishes host fuel false ss t ∧ t.Closes o m' := by
  induction ss generalizing m with
  | nil =>
    cases hrun
    exact ⟨_, .nil, .finished⟩
  | cons s ss ih =>
    unfold Machine.interpret at hrun
    cases hexec : m.execute host fuel s with
    | none =>
      rw [hexec] at hrun
      cases hrun
    | some p =>
      have hgoOn : m.goOn host fuel false s =
          match m.execute host fuel s with
          | some (.finished _, m) => some m
          | _ => none := rfl
      rw [hexec] at hrun hgoOn
      rw [Machine.execute_eq_bind] at hexec
      obtain ⟨t, hsteps, hend⟩ := Option.bind_eq_some_iff.1 hexec
      cases t with
      | eval | exec | value => cases hend
      -- A `return` outside of functions does not end the program either.
      | flow =>
        cases hend
        obtain ⟨t, hrest, hcloses⟩ := ih hrun
        exact ⟨t, .next hgoOn hrest, hcloses⟩
      | failed =>
        cases hend
        cases hrun
        exact ⟨_, .last hsteps hgoOn, .failed⟩
      | desync =>
        cases hend
        cases hrun
        exact ⟨_, .last hsteps hgoOn, .desync⟩

theorem Machine.not_isDesync_flush (m : Machine) (ho : o.isDesync = false) :
    (m.flush o).isDesync = false := by
  unfold Machine.flush
  split
  · rfl
  · exact ho

theorem State.Closes.isDesync_eq (h : t.Closes o m) : o.isDesync = t.isDesync := by
  cases h with
  | finished | failed => exact Machine.not_isDesync_flush _ rfl
  | desync => rfl

theorem State.Closes.machine_eq (h : t.Closes o m) :
    m = t.machine ∨ m = { t.machine with env := Machine.globals } := by
  cases h with
  | finished | desync => exact .inl rfl
  | failed => exact .inr rfl

theorem Session.finishes_of_results {rs : Except Desync (List (Result × Machine))}
    (hrun : Session.results host fuel ss m = some (rs, m')) :
    ∃ t, m.Finishes host fuel true ss t ∧ t.machine = m' ∧ t.isDesync = !rs.isOk := by
  induction ss generalizing m rs with
  | nil =>
    cases hrun
    exact ⟨_, .nil, rfl, rfl⟩
  | cons s ss ih =>
    unfold Session.results at hrun
    cases hresult : Session.result host fuel s m with
    | none =>
      rw [hresult] at hrun
      cases hrun
    | some p =>
      have hgoOn : m.goOn host fuel true s =
          match Session.result host fuel s m with
          | some (.ok _, m) => some m
          | _ => none := rfl
      obtain ⟨r, m₁⟩ := p
      rw [hresult] at hrun hgoOn
      obtain ⟨t, hsteps, hend⟩ := Session.runSteps_of_result hresult
      cases r with
      | error d =>
        cases hrun
        exact ⟨t, .last hsteps hgoOn, hend⟩
      | ok r =>
        -- The result of the first statement is put in front, if all others have one.
        have hrest : ∃ rs', Session.results host fuel ss m₁ = some (rs', m') ∧
            rs'.isOk = rs.isOk := by
          simp only at hrun
          split at hrun
          · next hresults =>
            cases hrun
            exact ⟨_, hresults, rfl⟩
          · exact ⟨_, hrun, rfl⟩
        obtain ⟨rs', hresults, hok⟩ := hrest
        obtain ⟨t, hfinishes, hmachine, hdesync⟩ := ih hresults
        exact ⟨t, .next hgoOn hfinishes, hmachine, hok ▸ hdesync⟩

end Endings

/-! ### Requests -/

/-- Numbers, texts and the like, which refer to nothing. -/
def Value.isPlain : Value → Bool
  | .nil | .bool _ | .number _ | .string _ => true
  | _ => false

/-- A function of the host that yields plain values or what it was given. -/
def Native.Honest (n : Native) : Prop :=
  match n.action with
  | .clock => True
  | .apply f => ∀ arguments v, f arguments = .ok v → v.isPlain = true ∨ v ∈ arguments

/-- What a session is asked to do. -/
inductive Request where
  /-- Run a source if nothing is wrong with it. -/
  | run (source : String)
  /-- Run a source whatever is wrong with it. -/
  | force (source : String)
  /-- Run the statements of a source on their own. -/
  | exec (source : String)
  /-- Run a source whose names are left unresolved. -/
  | unresolved (source : String)
  /-- Resolve the names of a source, and do not run it. -/
  | analyze (source : String)
  /-- Define a function of the host. -/
  | native (native : Native)

/-- If a request defines a function of the host, that function satisfies `P`. Theorems on sessions
    name in this way what they ask of the functions that their requests define. -/
def Request.DefinesOnly (P : Native → Prop) : Request → Prop
  | .native n => P n
  | _ => True

theorem Request.DefinesOnly.imp {P Q : Native → Prop} {r : Request} (h : r.DefinesOnly P)
    (hPQ : ∀ n, P n → Q n) : r.DefinesOnly Q := by
  cases r with
  | native n => exact hPQ n h
  | _ => trivial

/-- Statements, and the machine on which they are to run. -/
structure Job where
  alone : Bool
  statements : List Stmt
  machine : Machine

/-- The visit of the program in a source. -/
def Session.program (s : Session) (source : String) : Visit :=
  let a := (s.parse source).1
  ⟨Resolution.start s.machine.depths a.report, [], .stmts a.statements⟩

namespace Request

/-- The program that a request reads. -/
def program? (s : Session) : Request → Option Visit
  | .run source | .force source | .exec source | .unresolved source | .analyze source =>
    some (s.program source)
  | .native _ => none

/-- What a request runs. -/
def job? (s : Session) : Request → Option Job
  | .run source =>
    let (a, s) := s.analyze source
    if a.report.hadError then none else some ⟨false, a.statements, s.machine⟩
  | .force source =>
    let (a, s) := s.analyze source
    some ⟨false, a.statements, s.machine⟩
  | .exec source =>
    let (a, s) := s.analyze source
    some ⟨true, a.statements, s.machine⟩
  | .unresolved source =>
    let (a, s) := s.parse source
    some ⟨false, a.statements, s.machine⟩
  | .analyze _ => none
  | .native _ => none

/-- At some moment while the request is performed, `sink` has got what was written. -/
def Shows (host : Host) (r : Request) (s : Session) (sink : Sink) : Prop :=
  ∃ job, r.job? s = some job ∧ job.machine.Shows host job.alone job.statements sink

/-- The environments that a request makes. -/
def makes (host : Host) (fuel : Nat) (s : Session) (r : Request) : List Making :=
  match r.job? s with
  | some job => job.machine.makesBy host fuel job.alone job.statements
  | none => []

/-- Do what is asked, and tell whether the session goes on. -/
def perform (host : Host) (fuel : Nat) (s : Session) : Request → Option (Bool × Session)
  | .run source =>
    match s.run host fuel source with
    | some (.rejected _, s) => some (true, s)
    | some (.ran o, s) => some (!o.isDesync, s)
    | none => none
  | .force source =>
    let (a, s) := s.analyze source
    (s.interpret host fuel a.statements).map fun (o, s) => (!o.isDesync, s)
  | .exec source =>
    let (a, s) := s.analyze source
    match Session.results host fuel a.statements s.machine with
    | some (.ok _, machine) => some (true, { s with machine })
    | some (.error _, machine) => some (false, { s with machine })
    | none => none
  | .unresolved source =>
    let (a, s) := s.parse source
    (s.interpret host fuel a.statements).map fun (o, s) => (!o.isDesync, s)
  | .analyze source => some (true, (s.analyze source).2)
  | .native n => some (true, s.defineNative n)

/-- What a request runs are the statements of its source, and it starts on the machine of the
    session. The names of the source are resolved, unless the request asks for the contrary. -/
theorem job_cases {s : Session} {r : Request} {job : Job} (hj : r.job? s = some job) :
    ∃ source, r.program? s = some (s.program source) ∧
      job.statements = (s.parse source).1.statements ∧
      (job.machine = (s.analyze source).2.machine ∨
        r = .unresolved source ∧ job.machine = s.machine) := by
  cases r with
  | run source =>
    simp only [Request.job?] at hj
    split at hj
    · cases hj
    · cases hj
      exact ⟨source, rfl, rfl, .inl rfl⟩
  | force source | exec source =>
    cases hj
    exact ⟨source, rfl, rfl, .inl rfl⟩
  | unresolved source =>
    cases hj
    exact ⟨source, rfl, rfl, .inr ⟨rfl, rfl⟩⟩
  | analyze | native => cases hj

/-- **What a request does.** It runs something and leaves the machine behind, or it reads a source
    that it does not run, or it defines a function of the host. -/
theorem perform_cases {host : Host} {fuel : Nat} {s s' : Session} {r : Request}
    {goesOn : Bool} (hr : r.perform host fuel s = some (goesOn, s')) :
    (∃ job t source, r.job? s = some job ∧
        job.machine.Finishes host fuel job.alone job.statements t ∧ goesOn = !t.isDesync ∧
        (s'.machine = t.machine ∨ s'.machine = { t.machine with env := Machine.globals }) ∧
        r.program? s = some (s.program source) ∧ s'.nextNode = (s.parse source).2.nextNode) ∨
      (∃ source, r.job? s = none ∧ r.program? s = some (s.program source) ∧ goesOn = true ∧
        s' = (s.analyze source).2) ∨
      ∃ n, r = .native n ∧ goesOn = true ∧ s' = s.defineNative n := by
  -- A program that is run leaves everything but the machine as it was.
  have hinterpret {s₁ : Session} {ss : List Stmt} {o : Outcome Unit}
      (h : s₁.interpret host fuel ss = some (o, s')) :
      ∃ t, s₁.machine.Finishes host fuel false ss t ∧ (!o.isDesync) = !t.isDesync ∧
        (s'.machine = t.machine ∨ s'.machine = { t.machine with env := Machine.globals }) ∧
        s'.nextNode = s₁.nextNode := by
    unfold Session.interpret at h
    split at h
    · next hrun =>
      cases h
      obtain ⟨t, hfinishes, hcloses⟩ := Machine.finishes_of_interpret hrun
      exact ⟨t, hfinishes, by rw [hcloses.isDesync_eq], hcloses.machine_eq, rfl⟩
    · cases h
  cases r with
  | run source =>
    by_cases herror : (s.analyze source).1.report.hadError = true
    · simp only [Request.perform, Session.run, herror, if_true] at hr
      cases hr
      exact .inr (.inl ⟨source, if_pos herror, rfl, rfl, rfl⟩)
    · simp only [Request.perform, Session.run, herror] at hr
      cases hrun : (s.analyze source).2.interpret host fuel (s.analyze source).1.statements with
      | none =>
        simp only [hrun] at hr
        cases hr
      | some result =>
        simp only [hrun] at hr
        cases hr
        obtain ⟨t, hfinishes, hgoesOn, hmachine, hnode⟩ := hinterpret hrun
        exact .inl ⟨⟨false, _, _⟩, t, source, if_neg herror, hfinishes, hgoesOn, hmachine, rfl,
          hnode⟩
  | force source | unresolved source =>
    obtain ⟨⟨o, s₁⟩, hrun, heq⟩ := Option.map_eq_some_iff.1 hr
    obtain ⟨rfl, rfl⟩ := Prod.mk.inj heq
    obtain ⟨t, hfinishes, hgoesOn, hmachine, hnode⟩ := hinterpret hrun
    exact .inl ⟨_, t, source, rfl, hfinishes, hgoesOn, hmachine, rfl, hnode⟩
  | exec source =>
    have hresults {rs : Except Desync (List (Result × Machine))} {m : Machine}
        (hrun : Session.results host fuel (s.analyze source).1.statements
          (s.analyze source).2.machine = some (rs, m)) :
        ∃ t, (s.analyze source).2.machine.Finishes host fuel true
            (s.analyze source).1.statements t ∧ rs.isOk = !t.isDesync ∧ m = t.machine := by
      obtain ⟨t, hfinishes, rfl, hdesync⟩ := Session.finishes_of_results hrun
      exact ⟨t, hfinishes, by rw [hdesync, Bool.not_not], rfl⟩
    unfold Request.perform at hr
    simp only at hr
    split at hr
    · next hrun =>
      cases hr
      obtain ⟨t, hfinishes, hok, hmachine⟩ := hresults hrun
      exact .inl ⟨_, t, source, rfl, hfinishes, hok, .inl hmachine, rfl, rfl⟩
    · next hrun =>
      cases hr
      obtain ⟨t, hfinishes, hok, hmachine⟩ := hresults hrun
      exact .inl ⟨_, t, source, rfl, hfinishes, hok, .inl hmachine, rfl, rfl⟩
    · cases hr
  | analyze source =>
    cases hr
    exact .inr (.inl ⟨source, rfl, rfl, rfl, rfl⟩)
  | native n =>
    cases hr
    exact .inr (.inr ⟨n, rfl, rfl, rfl⟩)

end Request

/-! ### Sessions -/

/-- What has happened in a session. -/
structure History where
  /-- The programs that were read, as the resolution walk comes to them. -/
  programs : List Visit
  /-- The environments that were made, in this order. -/
  made : List Making

namespace Session

/-- A session after some requests, with what has happened in it. -/
inductive After (host : Host) (sink : Sink) : List Request → Session → History → Prop
  | new : After host sink [] (Session.new sink) ⟨[], []⟩
  | next {rs s h r s'} {fuel : Nat} (hs : After host sink rs s h)
      (hr : r.perform host fuel s = some (true, s')) :
      After host sink (rs ++ [r]) s'.takeOutput.2
        ⟨h.programs ++ (r.program? s).toList, h.made ++ r.makes host fuel s⟩

/-- A state that is passed while the last of some requests is performed, with what has happened
    up to it. -/
inductive Moment (host : Host) (sink : Sink) : List Request → State → History → Prop
  | mk {rs s h r job t made} (hs : After host sink rs s h) (hj : r.job? s = some job)
      (ht : Machine.Passes host job.alone job.statements job.machine h.made t made) :
      Moment host sink (rs ++ [r]) t ⟨h.programs ++ (r.program? s).toList, made⟩

section Programs

variable {host : Host} {sink : Sink} {rs : List Request} {s : Session} {h : History} {r : Request}

/-- The programs of a session were read from sources, each in a session of its own time. -/
theorem After.exists_program (hs : After host sink rs s h) :
    ∀ p ∈ h.programs, ∃ s' source, p = Session.program s' source := by
  induction hs with
  | new => exact fun p hp => absurd hp List.not_mem_nil
  | @next rs s h r s' fuel _ _ ih =>
    intro p hp
    obtain hp | hp := List.mem_append.1 hp
    · exact ih p hp
    · cases r with
      | native => cases hp
      | run source | force source | exec source | unresolved source | analyze source =>
        cases List.mem_singleton.1 hp
        exact ⟨s, source, rfl⟩

theorem Moment.exists_program {t : State} (ht : Moment host sink rs t h) :
    ∀ p ∈ h.programs, ∃ s' source, p = Session.program s' source := by
  obtain ⟨hs, hj, -⟩ := ht
  obtain ⟨source, hprogram, -⟩ := Request.job_cases hj
  intro p hp
  obtain hp | hp := List.mem_append.1 hp
  · exact hs.exists_program p hp
  · rw [hprogram] at hp
    exact ⟨_, source, List.mem_singleton.1 hp⟩

end Programs

end Session

end Scriptlet
