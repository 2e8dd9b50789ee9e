import Scriptlet.Proofs.Control

namespace Scriptlet

/-!
# The states that a session passes

* `State.trace`, `Machine.trace`, `Session.trace` — the states that are passed one after the other,
  if each statement is given a bound on the number of its steps.
* `Session.exists_moment` — each of them is a moment of the session, and the environments made up
  to it are those that the states before it made.
* `Linked` — what is stored at the end of a step is what is stored at the beginning of the next
  one, unless functions of the host are defined between them.
* `Session.exists_linked` — the states that a session passes are linked.
-/

/-! ### Traces -/

/-- The next `n` states. -/
def State.trace (host : Host) : Nat → State → List State
  | 0, _ => []
  | n + 1, t => t :: trace host n (step host t)

/-- The states that a program passes. -/
def Machine.trace (host : Host) (fuel : Nat) (alone : Bool) : List Stmt → Machine → List State
  | [], _ => []
  | s :: rest, m =>
    (begin alone s m).trace host fuel ++
      match goOn host fuel alone s m with
      | some m => trace host fuel alone rest m
      | none => []

/-- The states that are passed while a request is performed. -/
def Request.trace (host : Host) (fuel : Nat) (s : Session) (r : Request) : List State :=
  match r.job? s with
  | some job => job.machine.trace host fuel job.alone job.statements
  | none => []

/-- The states that are passed while requests are performed, as long as the session goes on. -/
def Session.trace (host : Host) (fuel : Nat) : List Request → Session → List State
  | [], _ => []
  | r :: rs, s =>
    r.trace host fuel s ++
      match r.perform host fuel s with
      | some (true, s) => trace host fuel rs s.takeOutput.2
      | _ => []

section Traces

variable {host : Host} {fuel : Nat} {t u : State} {past rest : List State}

theorem State.makesIn_eq (t : State) (n : Nat) :
    t.makesIn host n = (t.trace host n).flatMap (State.makes host) := by
  induction n generalizing t with
  | zero => rfl
  | succ n ih => rw [State.makesIn, State.trace, List.flatMap_cons, ih]

theorem Machine.makesBy_eq (alone : Bool) (ss : List Stmt) (m : Machine) :
    m.makesBy host fuel alone ss = (m.trace host fuel alone ss).flatMap (State.makes host) := by
  induction ss generalizing m with
  | nil => rfl
  | cons s ss ih =>
    rw [Machine.makesBy, Machine.trace, List.flatMap_append, State.makesIn_eq]
    cases m.goOn host fuel alone s with
    | none => rfl
    | some m' => exact congrArg _ (ih m')

theorem Request.makes_eq (r : Request) (s : Session) :
    r.makes host fuel s = (r.trace host fuel s).flatMap (State.makes host) := by
  unfold Request.makes Request.trace
  cases r.job? s with
  | none => rfl
  | some job => exact Machine.makesBy_eq job.alone job.statements job.machine

/-- What stands in two lists, one behind the other, stands in the first or in the second. -/
theorem append_eq_append_cons {α : Type} {xs ys past rest : List α} {a : α}
    (h : xs ++ ys = past ++ a :: rest) :
    (∃ rest', xs = past ++ a :: rest') ∨ ∃ past', past = xs ++ past' ∧ ys = past' ++ a :: rest := by
  obtain ⟨past', hpast, hys⟩ | ⟨rest', hxs, hrest⟩ := List.append_eq_append_iff.1 h
  · exact .inr ⟨past', hpast, hys⟩
  · cases rest' with
    | nil => exact .inr ⟨[], by simpa using hxs.symm, hrest.symm⟩
    | cons b rest' =>
      cases hrest
      exact .inl ⟨rest', hxs⟩

/-- A state of a trace comes after as many steps as there are states before it. -/
theorem State.exists_steps_of_trace {n : Nat} (h : t.trace host n = past ++ u :: rest) :
    ∃ i, u = (step host)^[i] t ∧ past = t.trace host i := by
  induction n generalizing t past with
  | zero => simp [State.trace] at h
  | succ n ih =>
    cases past with
    | nil => exact ⟨0, (List.cons.inj h).1.symm, rfl⟩
    | cons first past =>
      obtain ⟨rfl, hrest⟩ := List.cons.inj h
      obtain ⟨i, hu, hpast⟩ := ih hrest
      exact ⟨i + 1, hu, congrArg _ hpast⟩

theorem Machine.passes_of_trace {alone : Bool} {ss : List Stmt} {m : Machine}
    (h : m.trace host fuel alone ss = past ++ t :: rest) (made : List Making) :
    Machine.Passes host alone ss m made t (made ++ past.flatMap (State.makes host)) := by
  induction ss generalizing m past made with
  | nil => simp [Machine.trace] at h
  | cons s ss ih =>
    obtain ⟨rest', hfirst⟩ | ⟨past', rfl, hrest⟩ := append_eq_append_cons h
    · obtain ⟨i, rfl, rfl⟩ := State.exists_steps_of_trace hfirst
      rw [← State.makesIn_eq]
      exact .now i
    · cases hnext : m.goOn host fuel alone s with
      | none => simp [hnext] at hrest
      | some m' =>
        simp only [hnext] at hrest
        rw [List.flatMap_append, ← State.makesIn_eq, ← List.append_assoc]
        exact .later fuel hnext (ih hrest _)

/-- **The states of a trace are moments of the session.** -/
theorem Session.exists_moment {sink : Sink} {rs₀ rs : List Request} {s : Session} {h : History}
    (hs : Session.After host sink rs₀ s h) (htrace : s.trace host fuel rs = past ++ t :: rest) :
    ∃ rs' h', Session.Moment host sink rs' t h' ∧ (∀ r ∈ rs', r ∈ rs₀ ++ rs) ∧
      h'.made = h.made ++ past.flatMap (State.makes host) := by
  induction rs generalizing rs₀ s h past with
  | nil => simp [Session.trace] at htrace
  | cons r rs ih =>
    -- Either the first request is in progress, or it is over and the rest is traced.
    obtain ⟨rest', hfirst⟩ | ⟨past', rfl, hrest⟩ := append_eq_append_cons htrace
    · unfold Request.trace at hfirst
      cases hjob : r.job? s with
      | none => simp [hjob] at hfirst
      | some job =>
        simp only [hjob] at hfirst
        refine ⟨rs₀ ++ [r], _, .mk hs hjob (Machine.passes_of_trace hfirst h.made), ?_, rfl⟩
        intro r' hr'
        obtain hr' | hr' := List.mem_append.1 hr'
        · exact List.mem_append_left _ hr'
        · cases List.mem_singleton.1 hr'
          exact List.mem_append_right _ List.mem_cons_self
    · cases hr : r.perform host fuel s with
      | none => simp [hr] at hrest
      | some result =>
        obtain ⟨goesOn, s'⟩ := result
        cases goesOn with
        | false => simp [hr] at hrest
        | true =>
          simp only [hr] at hrest
          obtain ⟨rs', h', hmoment, hmem, hmade⟩ := ih (.next hs hr) hrest
          refine ⟨rs', h', hmoment, by simpa using hmem, ?_⟩
          rw [hmade, List.flatMap_append, Request.makes_eq, List.append_assoc]

end Traces

/-! ### Stores between states -/

/-- The first store is that in which the first state begins, the last one that in which the last
    state ends, and each state begins where the one before it ended. Functions of the host may be
    defined between states. -/
inductive Linked (host : Host) : Store → List State → Store → Prop
  | nil {s} : Linked host s [] s
  | step {t ts s'} (h : Linked host (step host t).machine.store ts s') :
      Linked host t.machine.store (t :: ts) s'
  | native {s x v ts s'} (h : Linked host (s.define 0 x v) ts s') : Linked host s ts s'

section Links

variable {host : Host} {s s' s'' : Store}

theorem Linked.append {ts ts' : List State} (h : Linked host s ts s')
    (h' : Linked host s' ts' s'') : Linked host s (ts ++ ts') s'' := by
  induction h with
  | nil => exact h'
  | step _ ih => exact .step (ih h')
  | native _ ih => exact .native (ih h')

theorem State.linked_trace (host : Host) (t : State) (n : Nat) :
    Linked host t.machine.store (t.trace host n) ((step host)^[n] t).machine.store := by
  induction n generalizing t with
  | zero => exact .nil
  | succ n ih => exact .step (ih _)

theorem Machine.linked_begin (host : Host) (alone : Bool) (s : Stmt) (m : Machine) (n : Nat) :
    Linked host m.store ((m.begin alone s).trace host n)
      ((step host)^[n] (m.begin alone s)).machine.store := by
  have h := (m.begin alone s).linked_trace host n
  rwa [m.machine_begin] at h

/-- The states of a program, and what is stored when it comes to its end. -/
theorem Machine.exists_linked (host : Host) (fuel : Nat) (alone : Bool) (m : Machine)
    (ss : List Stmt) :
    ∃ s', Linked host m.store (m.trace host fuel alone ss) s' ∧
      ∀ t, m.Finishes host fuel alone ss t → t.machine.store = s' := by
  induction ss generalizing m with
  | nil =>
    refine ⟨m.store, .nil, fun t ht => ?_⟩
    cases ht
    rfl
  | cons s ss ih =>
    have hfirst := m.linked_begin host alone s fuel
    unfold Machine.trace
    cases hnext : m.goOn host fuel alone s with
    | none =>
      refine ⟨_, hfirst.append .nil, fun t ht => ?_⟩
      cases ht with
      | last hrun _ =>
        obtain ⟨rfl, -⟩ := eq_iterate_of_runSteps hrun
        rfl
      | next hnext' _ => cases hnext.symm.trans hnext'
    | some m₁ =>
      obtain ⟨t, hrun, rfl, -⟩ := Machine.runSteps_of_goOn hnext
      obtain ⟨rfl, -⟩ := eq_iterate_of_runSteps hrun
      obtain ⟨s', hrest, hend⟩ := ih ((step host)^[fuel] (m.begin alone s)).machine
      refine ⟨s', hfirst.append hrest, fun t ht => ?_⟩
      cases ht with
      | last _ hnone => cases hnext.symm.trans hnone
      | next hnext' hrest' =>
        cases hnext.symm.trans hnext'
        exact hend t hrest'

end Links

section Sessions

variable {host : Host} {fuel : Nat} {r : Request} {s s' : Session}

/-- The states of a request, and what is stored at its end. -/
theorem Request.exists_linked (host : Host) (fuel : Nat) (r : Request) (s : Session) :
    ∃ store, Linked host s.machine.store (r.trace host fuel s) store ∧
      ∀ s', r.perform host fuel s = some (true, s') → s'.machine.store = store := by
  unfold Request.trace
  cases hj : r.job? s with
  | none =>
    cases r with
    -- Of the requests without a job, only this one changes what is stored.
    | native n =>
      refine ⟨s.machine.store.define 0 n.name (.native s.machine.natives.size), .native .nil, ?_⟩
      intro s' hr
      cases hr
      rfl
    | _ =>
      refine ⟨s.machine.store, .nil, fun s' hr => ?_⟩
      obtain ⟨job, _, _, hj', -⟩ | ⟨source, -, -, -, rfl⟩ | ⟨n, hr, -⟩ :=
        Request.perform_cases hr
      · cases hj.symm.trans hj'
      · rfl
      · cases hr
  | some job =>
    have hstore : job.machine.store = s.machine.store := by
      obtain ⟨source, -, -, hmachine | ⟨-, hmachine⟩⟩ := Request.job_cases hj
      · rw [hmachine]
        rfl
      · rw [hmachine]
    obtain ⟨store, hlinked, hend⟩ := job.machine.exists_linked host fuel job.alone job.statements
    rw [hstore] at hlinked
    refine ⟨store, hlinked, fun s' hr => ?_⟩
    obtain ⟨job', t, source, hj', hfinishes, -, hmachine, -⟩ | ⟨source, hj', -⟩ |
      ⟨n, rfl, -⟩ := Request.perform_cases hr
    · cases hj.symm.trans hj'
      rw [← hend t hfinishes]
      obtain hmachine | hmachine := hmachine
      · rw [hmachine]
      · rw [hmachine]
    · cases hj.symm.trans hj'
    · cases hj

/-- **What is stored goes from state to state** along the trace of a session. -/
theorem Session.exists_linked (host : Host) (fuel : Nat) (rs : List Request) (s : Session) :
    ∃ store, Linked host s.machine.store (s.trace host fuel rs) store := by
  induction rs generalizing s with
  | nil => exact ⟨_, .nil⟩
  | cons r rs ih =>
    obtain ⟨store, hfirst, hend⟩ := r.exists_linked host fuel s
    unfold Session.trace
    split
    · next s' hr =>
      obtain ⟨store', hrest⟩ := ih s'.takeOutput.2
      rw [← hend s' hr] at hfirst
      exact ⟨store', hfirst.append hrest⟩
    · exact ⟨store, hfirst.append .nil⟩

end Sessions

end Scriptlet
