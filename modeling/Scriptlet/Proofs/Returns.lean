import Scriptlet.Proofs.Control
import Scriptlet.Proofs.Flawless

namespace Scriptlet

/-!
# Returns stay inside of calls

The walk accepts `return` only in functions, and a value only where the function is no
initializer. What it saw in the tree, the continuation shows of the run: a `return` is on its way
only inside of a call, and it brings nothing out of an initializer.

* `State.Trees.exists_call` — where all code in progress is without a flaw in the body it is run
  in, a `return` is inside of a call.
* `Machine.interpretWith` — a program, where something may be done about a `return` that comes out
  of a statement.
* `Session.no_return_escapes` — in accepted programs, nothing ever comes out.
-/

mutual

/-- The innermost function that is running is that of the innermost call. -/
theorem ExprCont.head?_calls : ∀ k : ExprCont, k.calls.head? = k.running?
  | .done => rfl
  | .assign _ _ k | .unary _ k | .left _ _ k | .right _ _ k | .logical _ _ k | .choose _ _ k
  | .callee _ _ k | .argument _ _ _ _ k | .property _ k | .fieldOwner _ _ k | .fieldValue _ _ k
  | .construct _ k => k.head?_calls
  | .discard k | .print k | .define _ k | .branch _ _ k | .test _ _ k | .ret k => k.head?_calls

theorem StmtCont.head?_calls : ∀ k : StmtCont, k.calls.head? = k.running?
  | .done | .leaveCall _ _ _ => rfl
  | .sequence _ k | .leaveBlock _ k | .again _ _ k => k.head?_calls

end

/-- A `return` is on its way only inside of a call, and brings nothing out of an initializer. -/
theorem State.Trees.exists_call {v : Value} {k : StmtCont} {m : Machine}
    (h : (State.flow (.returned v) k m).Trees .flawless) :
    ∃ callee, k.calls.head? = some callee ∧ (callee.isInitializer = true → v = .nil) := by
  obtain ⟨-, ⟨-, htop, hvalue⟩, -⟩ := h
  rw [k.head?_calls]
  cases hrunning : k.running? with
  | none =>
    rw [hrunning] at htop
    exact absurd rfl htop
  | some callee =>
    refine ⟨callee, rfl, fun hinit => hvalue ?_⟩
    rw [hrunning]
    exact if_pos hinit

/-! ### Programs -/

namespace Machine

/-- Execute statements like `interpret`, and do as `escape` says where a statement ends with a
    `return`. -/
def interpretWith (escape : Value → Machine → Option (Outcome Unit × Machine)) (host : Host)
    (fuel : Nat) : List Stmt → Machine → Option (Outcome Unit × Machine)
  | [], m => some (m.flush (.finished ()), m)
  | s :: rest, m =>
    match execute host fuel s m with
    | none => none
    | some (.finished .normal, m) => interpretWith escape host fuel rest m
    | some (.finished (.returned v), m) => escape v m
    | some (.failed e, m) =>
      let m := { m with env := globals }
      some (m.flush (.failed e), m)
    | some (.desync d, m) => some (.desync d, m)

variable {m m' : Machine} {host : Host} {fuel : Nat}

/-- Out of a statement without a flaw comes no `return`. -/
theorem Trees.execute_ne_returned (hm : m.Trees Node.FlawlessSomewhere) {s : Stmt}
    (hs : (Node.stmt s).Flawless .topLevel) (v : Value) :
    m.execute host fuel s ≠ some (.finished (.returned v), m') := by
  intro hexec
  unfold execute at hexec
  split at hexec
  · next f k m₁ hrun =>
    cases hexec
    obtain ⟨ht, hfinal⟩ := eq_iterate_of_runSteps hrun
    have htrees := State.Trees.steps (C := .flawless) (t := .exec s .done m) ⟨hm, hs, trivial⟩ host
      fuel
    rw [← ht] at htrees
    -- The run is finished, so no call is left that the `return` could be in.
    obtain ⟨callee, hcall, -⟩ := htrees.exists_call
    cases k with
    | done => cases hcall
    | _ => cases hfinal
  · cases hexec
  · cases hexec
  · cases hexec

theorem Trees.interpretWith_eq (hm : m.Trees Node.FlawlessSomewhere) {ss : List Stmt}
    (hss : (Node.stmts ss).Flawless .topLevel)
    (escape : Value → Machine → Option (Outcome Unit × Machine)) :
    m.interpretWith escape host fuel ss = m.interpret host fuel ss := by
  induction ss generalizing m with
  | nil => rfl
  | cons s ss ih =>
    have hs : (Node.stmt s).Flawless .topLevel := hss.part List.mem_cons_self
    have hrest : (Node.stmts ss).Flawless .topLevel := hss.part (by simp [Node.children])
    unfold interpretWith Machine.interpret
    cases hexec : m.execute host fuel s with
    | none => rfl
    | some result =>
      obtain ⟨o, m₁⟩ := result
      cases o with
      | finished f =>
        cases f with
        | normal =>
          obtain ⟨t, hrun, rfl, -⟩ := Machine.runSteps_of_execute hexec
          exact ih (Machine.Trees.finish (C := .flawless) hm hs hrun) hrest
        | returned v => exact absurd hexec (hm.execute_ne_returned hs v)
      | failed e => rfl
      | desync d => rfl

end Machine

/-! ### Sessions -/

/-- A machine that a session comes to, between two requests or in the middle of one. -/
inductive Session.Reaches (host : Host) (sink : Sink) (rs : List Request) : Machine → Prop
  | after {s h} (hs : Session.After host sink rs s h) : Reaches host sink rs s.machine
  | during {t h} (ht : Session.Moment host sink rs t h) : Reaches host sink rs t.machine

theorem Session.Reaches.trees {host : Host} {sink : Sink} {rs : List Request} {m : Machine}
    {C : Corpus} (hm : Session.Reaches host sink rs m)
    (hrs : ∀ r ∈ rs, r.Brings (C.inside none))
    (hnatives : ∀ r ∈ rs, r.DefinesOnly Native.Honest) : m.Trees C.known := by
  cases hm with
  | after hs => exact hs.trees hrs hnatives
  | during ht => exact (ht.trees hrs hnatives).machine

/-- **No `return` escapes.** Let requests run sources only if nothing is wrong with them, let them
    define functions of the host that are `Native.Honest`, and let nothing be wrong with some
    source. Whatever machine the session has come to, a statement of the source ends normally on it,
    with an error, or with a variable out of place. On the way there, a `return` is inside of a
    call, and it brings nothing out of an initializer. So it is all the same what is done about a
    `return` that comes out of a statement. -/
theorem Session.no_return_escapes {host : Host} {sink : Sink} {rs : List Request}
    (hrs : ∀ r ∈ rs, r.checks = true) (hnatives : ∀ r ∈ rs, r.DefinesOnly Native.Honest)
    {m : Machine} (hm : Session.Reaches host sink rs m) {s : Session}
    {source : String} (hsource : (s.analyze source).1.report.hadError = false) :
    (∀ st ∈ (s.analyze source).1.statements,
      (∀ fuel o m', m.execute host fuel st = some (o, m') →
        o = .finished .normal ∨ (∃ e, o = .failed e) ∨ ∃ d, o = .desync d) ∧
      ∀ n v k m', (step host)^[n] (.exec st .done m) = .flow (.returned v) k m' →
        ∃ callee, k.calls.head? = some callee ∧ (callee.isInitializer = true → v = .nil)) ∧
    ∀ fuel escape, m.interpretWith escape host fuel (s.analyze source).1.statements =
      m.interpret host fuel (s.analyze source).1.statements := by
  have htrees := hm.trees (C := .flawless) (fun r hr => Request.checks_brings (hrs r hr)) hnatives
  have hflawless := Session.flawless_of_accepted hsource
  refine ⟨fun st hst => ?_, fun fuel escape => htrees.interpretWith_eq hflawless escape⟩
  have hst : (Node.stmt st).Flawless .topLevel := hflawless.statement hst
  refine ⟨fun fuel o m' hexec => ?_, fun n v k m' hstate => ?_⟩
  · cases o with
    | finished f =>
      cases f with
      | normal => exact .inl rfl
      | returned v => exact absurd hexec (htrees.execute_ne_returned hst v)
    | failed e => exact .inr (.inl ⟨e, rfl⟩)
    | desync d => exact .inr (.inr ⟨d, rfl⟩)
  · have hsteps := State.Trees.steps (C := .flawless) (t := .exec st .done m) ⟨htrees, hst, trivial⟩
      host n
    rw [hstate] at hsteps
    exact hsteps.exists_call

/-- An initializer that returns early, called by a function that returns the new object. -/
def Session.earlyInitializer : String :=
  "class A \x7b init() \x7b return; \x7d \x7d fun f() \x7b return A(); \x7d"

/-- A state in which a `return` is on its way out of an initializer. -/
def State.leavesInitializer : State → Bool
  | .flow (.returned _) k _ => k.calls.head?.any (·.isInitializer)
  | _ => false

theorem State.exists_of_leavesInitializer {t : State} (h : t.leavesInitializer = true) :
    ∃ v k m, t = .flow (.returned v) k m ∧ k.calls.head?.any (·.isInitializer) = true := by
  cases t with
  | flow f k m =>
    cases f with
    | normal => cases h
    | returned v => exact ⟨v, k, m, rfl, h⟩
  | _ => cases h

/-- Where the two are known, the function is called, and the `return` of the initializer is on its
    way with `nil`; the statement ends all the same. -/
theorem Session.no_return_escapes_earlyInitializer :
    ∃ m, Session.Reaches (Host.usual fun _ => 0) Sink.unbounded [.run Session.earlyInitializer] m ∧
      ∃ st ∈ ((Session.new Sink.unbounded).analyze "f();").1.statements,
        (∃ k m', (step (Host.usual fun _ => 0))^[11] (.exec st .done m) =
          .flow (.returned .nil) k m' ∧ k.calls.head?.any (·.isInitializer) = true) ∧
        ∃ m', m.execute (Host.usual fun _ => 0) 40 st = some (.finished .normal, m') := by
  have hfirst : ((Request.run Session.earlyInitializer).perform (Host.usual fun _ => 0) 30
      (Session.new Sink.unbounded)).any (fun r => r.1 &&
        ((Session.new Sink.unbounded).analyze "f();").1.statements.any (fun st =>
          State.leavesInitializer ((step (Host.usual fun _ => 0))^[11]
            (.exec st .done r.2.takeOutput.2.machine)) &&
          (r.2.takeOutput.2.machine.execute (Host.usual fun _ => 0) 40 st).any
            (·.1.isFinished))) = true := by decide +kernel
  obtain ⟨⟨goesOn, s⟩, hperform, hs⟩ := (Option.any_eq_true _ _).1 hfirst
  obtain ⟨rfl, hs⟩ := Bool.and_eq_true_iff.1 hs
  obtain ⟨st, hst, hs⟩ := List.any_eq_true.1 hs
  obtain ⟨hleaves, hends⟩ := Bool.and_eq_true_iff.1 hs
  have hreaches := Session.Reaches.after (Session.After.next .new hperform)
  have hsource : ((Session.new Sink.unbounded).analyze "f();").1.report.hadError = false := by
    decide +kernel
  have hchecks : ∀ r ∈ [Request.run Session.earlyInitializer], r.checks = true := by
    intro r hr
    cases List.mem_singleton.1 hr
    rfl
  obtain ⟨hexec, hreturn⟩ := (Session.no_return_escapes hchecks
    (by simp [Request.DefinesOnly]) hreaches hsource).1 st hst
  refine ⟨_, hreaches, st, hst, ?_, ?_⟩
  · obtain ⟨v, k, m', hstate, hcall⟩ := State.exists_of_leavesInitializer hleaves
    obtain ⟨callee, hcallee, hnil⟩ := hreturn 11 v k m' hstate
    rw [hcallee] at hcall
    cases hnil hcall
    exact ⟨k, m', hstate, by rw [hcallee]; exact hcall⟩
  · obtain ⟨⟨o, m'⟩, hend, hfinished⟩ := (Option.any_eq_true _ _).1 hends
    obtain rfl | ⟨e, rfl⟩ | ⟨d, rfl⟩ := hexec 40 o m' hend
    · exact ⟨m', hend⟩
    · cases hfinished
    · cases hfinished

end Scriptlet
