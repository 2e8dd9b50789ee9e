import Scriptlet.Proofs.CallLimit

namespace Scriptlet

/-!
# How control moves

What runs do to the continuation, whatever the values and the store are.

* `State.Above base` — everything in progress stands above the continuation `base`.
* `State.Above.step`, `State.Above.steps` — so it stays, until something is handed to `base`.
-/

/-! ### Above a continuation -/

namespace Cont

/-- The continuation is `base`, or control comes from it to `base` unless the run is over
    before. -/
inductive Under (base : Cont) : Cont → Prop
  | refl : Under base base
  | part {c c'} (h : c.rest? = some c') (hc : Under base c') : Under base c

variable {base c c' : Cont}

/-- What is above something above `base` is above `base`. -/
theorem Under.trans (h : base.Under c) (h' : c.Under c') : base.Under c' := by
  induction h' with
  | refl => exact h
  | part hrest _ ih => exact .part hrest ih

/-- What is above `base` and not `base` itself is above it without its innermost part. -/
theorem Under.rest (h : base.Under c) (hne : c ≠ base) :
    ∃ c', c.rest? = some c' ∧ base.Under c' := by
  cases h with
  | refl => exact absurd rfl hne
  | part hrest hc => exact ⟨_, hrest, hc⟩

/-- The rest of a continuation is smaller. -/
theorem sizeOf_lt_of_rest? (h : c.rest? = some c') : sizeOf c' < sizeOf c := by
  cases c with
  | expr k | stmt k =>
    cases k with
    | done => cases h
    | _ =>
      cases h
      simp +arith

/-- A continuation is not above what is left of it. -/
theorem not_under_rest (h : c.rest? = some c') : ¬ c.Under c' := by
  have hle {base c : Cont} (hc : base.Under c) : sizeOf base ≤ sizeOf c := by
    induction hc with
    | refl => exact Nat.le_refl _
    | part hrest _ ih => exact ih.trans (sizeOf_lt_of_rest? hrest).le
  intro hc
  have hlt := sizeOf_lt_of_rest? h
  have hle := hle hc
  omega

end Cont

namespace State

/-- Everything in progress stands above `base`, unless the run is over. -/
def Above (base : Cont) : State → Prop
  | .eval _ k _ => base.Under (.expr k)
  | .exec _ k _ => base.Under (.stmt k)
  | .value _ k _ => base.Under (.expr k)
  | .flow _ k _ => base.Under (.stmt k)
  | .failed _ _ => True
  | .desync _ _ => True

/-- A value, or the end of a statement, is handed on to `base`. -/
def HandsTo (base : Cont) : State → Prop
  | .value _ k _ => .expr k = base
  | .flow _ k _ => .stmt k = base
  | _ => False

variable {base c : Cont} {t : State}

/-- States above something above `base` are above `base`. -/
theorem Above.mono (h : t.Above c) (hc : base.Under c) : t.Above base := by
  cases t with
  | eval | exec | value | flow => exact hc.trans h
  | failed | desync => trivial

/-- A state that hands something to `base` is above it. -/
theorem HandsTo.above (h : t.HandsTo base) : t.Above base := by
  cases t with
  | value | flow =>
    cases h
    exact .refl
  | eval | exec | failed | desync => exact h.elim

end State

/-- What is put upon a continuation stands above it. -/
theorem Cont.Grows.under {host : Host} {c c' : Cont} {m m' : Machine}
    (h : c.Grows host m c' m') : c.Under c' := by
  induction h with
  | refl => exact .refl
  | alter _ _ ih => exact ih
  | part _ hrest _ ih => exact .part hrest ih
  | block _ ih => exact .part rfl ih
  | call _ _ ih => exact .part rfl ih

/-- A step goes on above what it has not taken away. -/
theorem State.Goes.above {host : Host} {c : Cont} {m : Machine} {t t' : State}
    (h : t.Goes host c m t') : t'.Above c := by
  cases h with
  | eval hg | exec hg | value hg | flow hg => exact hg.under
  | wrote heq => exact heq ▸ .refl
  | full | failed | desync => trivial

section Runs

variable {base : Cont} {t : State}

/-- **A step stays above** a continuation to which nothing is handed. -/
theorem State.Above.step (ht : t.Above base) (host : Host) (hnot : ¬ t.HandsTo base) :
    (Scriptlet.step host t).Above base := by
  cases t with
  | eval e k m => exact (State.Drops.eval.goes host).above.mono ht
  | exec s k m => exact (State.Drops.exec.goes host).above.mono ht
  | value v k m =>
    obtain ⟨c, hrest, hc⟩ := Cont.Under.rest ht hnot
    exact ((State.Drops.value hrest).goes host).above.mono hc
  | flow f k m =>
    obtain ⟨c, hrest, hc⟩ := Cont.Under.rest ht hnot
    exact ((State.Drops.flow hrest).goes host).above.mono hc
  | failed | desync => trivial

/-- **A run stays above** a continuation until something is handed to it. -/
theorem State.Above.steps (ht : t.Above base) (host : Host) (n : Nat) :
    (∃ j < n, ((Scriptlet.step host)^[j] t).HandsTo base) ∨
      ((Scriptlet.step host)^[n] t).Above base := by
  induction n with
  | zero => exact .inr ht
  | succ n ih =>
    obtain ⟨j, hj, hhands⟩ | hn := ih
    · exact .inl ⟨j, Nat.lt_succ_of_lt hj, hhands⟩
    · by_cases hhands : ((Scriptlet.step host)^[n] t).HandsTo base
      · exact .inl ⟨n, Nat.lt_succ_self n, hhands⟩
      · right
        rw [Function.iterate_succ_apply']
        exact hn.step host hhands

/-- What is handed to the end of everything stays there. -/
theorem State.HandsTo.isFinal (h : t.HandsTo base) (hbase : base.rest? = none) :
    t.isFinal = true := by
  cases t with
  | value _ k m | flow _ k m =>
    cases h
    cases k with
    | done => rfl
    | _ => cases hbase
  | eval | exec | failed | desync => exact h.elim

/-- A run stays above a continuation behind which nothing is left. -/
theorem State.Above.steps_end (ht : t.Above base) (hbase : base.rest? = none) (host : Host)
    (n : Nat) : ((Scriptlet.step host)^[n] t).Above base := by
  obtain ⟨j, hj, hhands⟩ | hn := ht.steps host n
  · rw [iterate_step_eq_of_le (hhands.isFinal hbase) hj.le]
    exact hhands.above
  · exact hn

/-! ### How runs end -/

variable {host : Host} {fuel : Nat} {t' : State}

/-- A value cannot come to the end of a statement. -/
theorem Cont.not_under_stmtDone : ¬ (Cont.stmt .done).Under (.expr .done) := by
  rintro (_ | ⟨hrest, -⟩)
  cases hrest

/-- A statement cannot come to the end of an expression. -/
theorem Cont.not_under_exprDone : ¬ (Cont.expr .done).Under (.stmt .done) := by
  rintro (_ | ⟨hrest, -⟩)
  cases hrest

/-- `steps_end`, for a run to its end. -/
theorem State.Above.runSteps (ht : t.Above base) (hbase : base.rest? = none)
    (hrun : runSteps host fuel t = some t') : t'.Above base ∧ t'.isFinal = true := by
  obtain ⟨rfl, hfinal⟩ := eq_iterate_of_runSteps hrun
  exact ⟨ht.steps_end hbase host fuel, hfinal⟩

/-- A statement ends in one of the ways in which statements end. -/
theorem State.Above.exists_ending (ht : t.Above (.stmt .done)) (hfinal : t.isFinal = true) :
    ∃ r, t.ending? = some r := by
  cases t with
  | eval | exec => cases hfinal
  | value v k m =>
    cases k with
    | done => exact absurd ht Cont.not_under_stmtDone
    | _ => cases hfinal
  | flow | failed | desync => exact ⟨_, rfl⟩

/-- A finished run has a result. -/
theorem State.exists_result (hfinal : t.isFinal = true) : ∃ r, t.result? = some r := by
  cases t with
  | eval | exec => cases hfinal
  | value | flow | failed | desync => exact ⟨_, rfl⟩

/-- An expression on its own is evaluated from where it begins. -/
theorem Machine.evaluate_eq_bind (m : Machine) (e : Expr) :
    Session.result host fuel (.expr e) m =
      (Scriptlet.runSteps host fuel (m.begin true (.expr e))).bind State.result? := by
  have hbegin : (State.eval e .done m).Above (.expr .done) := .refl
  have hstart : m.begin true (.expr e) = .eval e .done m := rfl
  rw [hstart]
  unfold Session.result Machine.evaluate
  simp only
  cases hrun : Scriptlet.runSteps host fuel (.eval e .done m) with
  | none => rfl
  | some t =>
    obtain ⟨habove, hfinal⟩ := hbegin.runSteps rfl hrun
    cases t with
    | eval | exec => cases hfinal
    | flow f k m =>
      cases k with
      | done => exact absurd habove Cont.not_under_exprDone
      | _ => cases hfinal
    | value | failed | desync => rfl

/-- How a statement on its own ends, if it is executed. -/
def Outcome.result : Outcome Flow × Machine → Except Desync Result × Machine
  | (.finished f, m) => (.ok (.flow f), m)
  | (.failed e, m) => (.ok (.failed e), m)
  | (.desync d, m) => (.error d, m)

/-- A statement is executed from where it begins. -/
theorem Machine.map_execute_eq_bind (m : Machine) (s : Stmt) :
    (m.execute host fuel s).map Outcome.result =
      (Scriptlet.runSteps host fuel (.exec s .done m)).bind State.result? := by
  have hbegin : (State.exec s .done m).Above (.stmt .done) := .refl
  unfold Machine.execute
  cases hrun : Scriptlet.runSteps host fuel (.exec s .done m) with
  | none => rfl
  | some t =>
    obtain ⟨habove, hfinal⟩ := hbegin.runSteps rfl hrun
    cases t with
    | eval | exec => cases hfinal
    | value v k m =>
      cases k with
      | done => exact absurd habove Cont.not_under_stmtDone
      | _ => cases hfinal
    | flow | failed | desync => rfl

/-- A statement on its own is run from where it begins. -/
theorem Session.result_eq_bind (m : Machine) (s : Stmt) :
    Session.result host fuel s m =
      (Scriptlet.runSteps host fuel (m.begin true s)).bind State.result? := by
  cases s with
  | expr e => exact m.evaluate_eq_bind e
  | _ =>
    refine Eq.trans ?_ (m.map_execute_eq_bind _)
    unfold Session.result
    simp only
    split <;> next hrun => rw [hrun]; rfl

end Runs

end Scriptlet
