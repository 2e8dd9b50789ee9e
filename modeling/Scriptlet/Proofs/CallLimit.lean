import Scriptlet.Proofs.Restoration

namespace Scriptlet

/-!
# The limit on calls in progress

* `State.calls` — the calls in progress; `State.Returns.callDepth_eq` — the machine counts them.
* `State.callDepth_le_steps`, `State.begins_steps` — the count stays within the limit, and nothing
  that was written is taken back.
* `step_eq_or_refused` — a higher limit changes nothing but a step that the lower one refuses.
* `Machine.Overflows` — the runs in which a call is refused because of the limit.
* `Machine.call_limit_only_cuts` — a run under a lower limit is the run under a higher one, or a
  beginning of it that ends with a stack overflow.
-/

/-! ### Counting calls -/

/-- The calls of functions in progress, the innermost first. A class with an initializer is in
    progress as long as the call of its initializer is; without one it yields its object at
    once. -/
def State.calls : State → List Closure
  | .eval _ k _ => k.calls
  | .exec _ k _ => k.calls
  | .value _ k _ => k.calls
  | .flow _ k _ => k.calls
  | .failed _ _ => []
  | .desync _ _ => []

variable {t : State} {host : Host}

/-- What comes back to a standing without calls has as many calls in progress as are counted. -/
theorem State.Returns.callDepth_eq {st : Standing} (ht : t.Returns st) (hst : st.calls = 0)
    (hdesync : t.isDesync = false) : t.machine.callDepth = t.calls.length := by
  cases t with
  | eval | exec | value | flow =>
    have hcount := Standing.Awaits.calls ht
    rwa [hst, Nat.zero_add] at hcount
  | failed e m =>
    have hcount : m.callDepth = st.calls := congrArg Standing.calls ht
    exact hcount.trans hst
  | desync => cases hdesync

/-! ### The count of calls -/

/-- `Step.refusal?` refuses a call when the limit is reached, so one step stays within it. -/
theorem State.callDepth_le_step (ht : t.machine.callDepth ≤ host.maxCalls) :
    (step host t).machine.callDepth ≤ host.maxCalls := by
  obtain hquiet | ⟨text, hquiet⟩ := t.quiet_step host
  · exact hquiet.calls ht
  · exact hquiet.calls ht

/-- A run stays within the limit on calls, since each step does. -/
theorem State.callDepth_le_steps (ht : t.machine.callDepth ≤ host.maxCalls) (n : Nat) :
    ((step host)^[n] t).machine.callDepth ≤ host.maxCalls :=
  Function.Iterate.rec (fun t : State => t.machine.callDepth ≤ _) ht
    (fun _ => State.callDepth_le_step) n

/-- **Calls are counted**, and there are never more of them than the host allows. -/
theorem Machine.Passes.calls_counted {alone : Bool} {ss : List Stmt} {m : Machine}
    {made made' : List Making} (hm : m.AtRest) (ht : Machine.Passes host alone ss m made t made') :
    (t.isDesync = false → t.machine.callDepth = t.calls.length) ∧
      t.machine.callDepth ≤ host.maxCalls := by
  induction ht with
  | @now s rest m made n =>
    refine ⟨((m.returns_begin alone s).steps host n).callDepth_eq hm.calls, ?_⟩
    apply State.callDepth_le_steps
    rw [m.machine_begin, hm.calls]
    exact Nat.zero_le _
  | later fuel hnext _ ih => exact ih (hm.of_standing (Machine.standing_goOn hnext))

/-! ### Output only grows -/

/-- Everything written to the first sink is written to the second one, and maybe more. -/
def Sink.Begins (s s' : Sink) : Prop := ∃ more, s'.written = s.written ++ more

namespace Sink.Begins

/-- Nothing is written. -/
theorem refl (s : Sink) : s.Begins s := ⟨ByteArray.empty, ByteArray.append_empty.symm⟩

/-- What is written behind what was written. -/
theorem trans {s₁ s₂ s₃ : Sink} (h₁₂ : s₁.Begins s₂) (h₂₃ : s₂.Begins s₃) : s₁.Begins s₃ := by
  obtain ⟨more, h⟩ := h₁₂
  obtain ⟨more', h'⟩ := h₂₃
  exact ⟨more ++ more', by rw [h', h, ByteArray.append_assoc]⟩

/-- `Sink.write` takes what there is room for, behind what is there. -/
theorem write (s : Sink) (text : String) : s.Begins (s.write text).2 := by
  unfold Sink.write
  simp only
  split
  · exact ⟨_, rfl⟩
  · split <;> exact ⟨_, rfl⟩

end Sink.Begins

/-- One step writes at most one text. -/
theorem State.begins_step (host : Host) (t : State) :
    t.machine.sink.Begins (step host t).machine.sink := by
  obtain hquiet | ⟨text, hquiet⟩ := t.quiet_step host
  · rw [hquiet.sink]
    exact .refl _
  · rw [hquiet.sink]
    exact .write _ _

section Output

variable {host : Host} {fuel : Nat}

variable {t : State} {n n' : Nat} {m m' : Machine} {s : Stmt} {ss : List Stmt} {o : Outcome Unit}

/-- Nothing that a run has written is taken back. -/
theorem State.begins_steps (t : State) (n : Nat) :
    t.machine.sink.Begins ((step host)^[n] t).machine.sink :=
  Function.Iterate.rec (fun t' : State => t.machine.sink.Begins t'.machine.sink) (.refl _)
    (fun t' h => h.trans (t'.begins_step host)) n

/-- Behind its last step, a run does not change. -/
theorem iterate_step_eq_of_le (h : ((step host)^[n] t).isFinal = true) (hn : n ≤ n') :
    (step host)^[n'] t = (step host)^[n] t := by
  obtain ⟨d, rfl⟩ := Nat.exists_eq_add_of_le' hn
  rw [Function.iterate_add_apply, iterate_step_of_isFinal h]

/-- A run has one end. -/
theorem iterate_step_eq_of_isFinal (h : ((step host)^[n] t).isFinal = true)
    (h' : ((step host)^[n'] t).isFinal = true) : (step host)^[n] t = (step host)^[n'] t := by
  obtain hn | hn := Nat.le_total n n'
  · exact (iterate_step_eq_of_le h hn).symm
  · exact iterate_step_eq_of_le h' hn

/-- What is written at some moment of a run is written at its end. -/
theorem State.begins_last {last : Nat} (hlast : ((step host)^[last] t).isFinal = true) (n : Nat) :
    ((step host)^[n] t).machine.sink.Begins ((step host)^[last] t).machine.sink := by
  obtain hn | hn := Nat.le_total n last
  · obtain ⟨d, rfl⟩ := Nat.exists_eq_add_of_le' hn
    rw [Function.iterate_add_apply]
    exact State.begins_steps _ d
  · rw [iterate_step_eq_of_le hlast hn]
    exact .refl _

/-- The state in which a statement ended, and how it ended. -/
theorem Machine.ending_of_execute {r : Outcome Flow × Machine}
    (h : m.execute host fuel s = some r) :
    ((step host)^[fuel] (m.begin false s)).isFinal = true ∧
      ((step host)^[fuel] (m.begin false s)).ending? = some r := by
  rw [Machine.execute_eq_bind] at h
  obtain ⟨t, hrun, hend⟩ := Option.bind_eq_some_iff.1 h
  obtain ⟨rfl, hfinal⟩ := eq_iterate_of_runSteps hrun
  exact ⟨hfinal, hend⟩

/-- A statement whose run is over after `n` steps is executed with that fuel. -/
theorem Machine.execute_of_isFinal
    (h : ((step host)^[n] (m.begin false s)).isFinal = true) :
    m.execute host n s = ((step host)^[n] (m.begin false s)).ending? := by
  rw [Machine.execute_eq_bind, runSteps_of_isFinal h]
  rfl

/-- More fuel does not change how a statement ends. -/
theorem Machine.execute_unique {m₁ m₂ : Machine} {fuel' : Nat} {o₁ o₂ : Outcome Flow}
    (h₁ : m.execute host fuel s = some (o₁, m₁)) (h₂ : m.execute host fuel' s = some (o₂, m₂)) :
    o₁ = o₂ ∧ m₁ = m₂ := by
  obtain ⟨hfinal₁, hend₁⟩ := Machine.ending_of_execute h₁
  obtain ⟨hfinal₂, hend₂⟩ := Machine.ending_of_execute h₂
  rw [iterate_step_eq_of_isFinal hfinal₁ hfinal₂] at hend₁
  exact Prod.mk.inj (Option.some.inj (hend₁.symm.trans hend₂))

/-- What is written at some moment of a statement is written at its end. -/
theorem Machine.begins_execute {o : Outcome Flow} (h : m.execute host fuel s = some (o, m'))
    (n : Nat) : ((step host)^[n] (m.begin false s)).machine.sink.Begins m'.sink := by
  obtain ⟨t, hrun, rfl, -⟩ := Machine.runSteps_of_execute h
  obtain ⟨rfl, hfinal⟩ := eq_iterate_of_runSteps hrun
  exact State.begins_last hfinal n

/-- What a program does behind its first statement: it goes on, or it writes nothing more. -/
theorem Machine.first_of_interpret (h : m.interpret host fuel (s :: ss) = some (o, m')) :
    ∃ o₁ m₁, m.execute host fuel s = some (o₁, m₁) ∧
      ((∃ f, o₁ = .finished f) ∧ m₁.interpret host fuel ss = some (o, m') ∨
        (∀ f, o₁ ≠ .finished f) ∧ m'.sink = m₁.sink) := by
  unfold Machine.interpret at h
  split at h
  · cases h
  · next hexec => exact ⟨_, _, hexec, .inl ⟨⟨_, rfl⟩, h⟩⟩
  · next hexec =>
    refine ⟨_, _, hexec, .inr ⟨nofun, ?_⟩⟩
    cases h
    rfl
  · next hexec =>
    cases h
    exact ⟨_, _, hexec, .inr ⟨nofun, rfl⟩⟩

/-- What was written in front of a program stays written to its end. -/
theorem Machine.begins_interpret (h : m.interpret host fuel ss = some (o, m')) :
    m.sink.Begins m'.sink := by
  induction ss generalizing m with
  | nil =>
    cases h
    exact .refl _
  | cons s ss ih =>
    obtain ⟨o₁, m₁, hexec, hrest⟩ := Machine.first_of_interpret h
    have hfirst := Machine.begins_execute hexec 0
    rw [Function.iterate_zero_apply, Machine.machine_begin] at hfirst
    obtain ⟨-, h⟩ | ⟨-, hsink⟩ := hrest
    · exact hfirst.trans (ih h)
    · exact hsink ▸ hfirst

/-- The program goes on behind a statement that has finished. -/
theorem Machine.execute_of_goOn (h : m.goOn host fuel false s = some m') :
    ∃ f, m.execute host fuel s = some (.finished f, m') := by
  unfold Machine.goOn at h
  rw [if_neg Bool.false_ne_true] at h
  split at h
  · next f _ hexec =>
    cases h
    exact ⟨f, hexec⟩
  · cases h

/-- What is written at some moment of a program stays written to its end. -/
theorem Machine.Passes.begins {made made' : List Making}
    (ht : Machine.Passes host false ss m made t made')
    (h : m.interpret host fuel ss = some (o, m')) :
    t.machine.sink.Begins m'.sink := by
  induction ht with
  | now n =>
    obtain ⟨o₁, m₁, hexec, ⟨-, h⟩ | ⟨-, hsink⟩⟩ := Machine.first_of_interpret h
    · exact (Machine.begins_execute hexec n).trans (Machine.begins_interpret h)
    · exact hsink ▸ Machine.begins_execute hexec n
  | later fuel' hnext _ ih =>
    obtain ⟨f, hexec'⟩ := Machine.execute_of_goOn hnext
    obtain ⟨o₁, m₁, hexec, hrest⟩ := Machine.first_of_interpret h
    obtain ⟨rfl, rfl⟩ := Machine.execute_unique hexec hexec'
    obtain ⟨-, h⟩ | ⟨hnot, -⟩ := hrest
    · exact ih h
    · exact absurd rfl (hnot f)

end Output

/-! ### Two limits -/

/-- A call was refused because too many were in progress. -/
def Error.isOverflow : Error → Bool
  | .runtime _ .stackOverflow => true
  | _ => false

/-- The run has ended with a call that was refused. -/
def State.isOverflow : State → Bool
  | .failed e _ => e.isOverflow
  | _ => false

/-- The outcome is that of a call that was refused. -/
def Outcome.isOverflow {α : Type} : Outcome α → Bool
  | .failed e => e.isOverflow
  | _ => false

section Limits

variable {clock : Nat → Float} {L L' : Nat}

namespace Step

/-- A call that the higher limit refuses is refused by the lower one, for the same reason or for its
    limit. -/
theorem refusal?_eq_or (clock : Nat → Float) (hL : L ≤ L') (m : Machine) (expected got : Nat) :
    refusal? ⟨L', clock⟩ m expected got = refusal? ⟨L, clock⟩ m expected got ∨
      refusal? ⟨L, clock⟩ m expected got = some .stackOverflow := by
  unfold refusal?
  split
  · exact .inl rfl
  · by_cases hroom : L ≤ m.callDepth
    · exact .inr (if_pos hroom)
    · exact .inl ((if_neg fun h => hroom (hL.trans h)).trans (if_neg hroom).symm)

/-- The host matters for a call only, and the limit only when it refuses the call. -/
theorem call_eq_or_refused (hL : L ≤ L') (callee : Value) (paren : Token)
    (arguments : List Value) (k : ExprCont) (m : Machine) :
    call ⟨L', clock⟩ callee paren arguments k m = call ⟨L, clock⟩ callee paren arguments k m ∨
      call ⟨L, clock⟩ callee paren arguments k m = faultAt paren .stackOverflow k m := by
  cases callee with
  | function id callee | classObj id callee =>
    unfold call
    obtain hsame | hrefused := refusal?_eq_or clock hL m callee.arity arguments.length
    · exact .inl (by simp only [hsame])
    · exact .inr (by simp only [hrefused])
  | nil | bool | number | string | native | object => exact .inl rfl

/-- The last argument starts the call, and the others do not look at the limit. -/
theorem nextArgument_eq_or_refused (hL : L ≤ L') (callee : Value) (paren : Token)
    (before : List Value) (after : List Expr) (k : ExprCont) (m : Machine) :
    nextArgument ⟨L', clock⟩ callee paren before after k m =
        nextArgument ⟨L, clock⟩ callee paren before after k m ∨
      nextArgument ⟨L, clock⟩ callee paren before after k m =
        faultAt paren .stackOverflow k m := by
  cases after with
  | nil => exact call_eq_or_refused hL callee paren _ k m
  | cons e after => exact .inl rfl

end Step

/-- **Two limits.** A higher limit changes a step only if the lower one refuses a call in it, and
    then nothing is written. -/
theorem step_eq_or_refused (clock : Nat → Float) (hL : L ≤ L') (t : State) :
    step ⟨L', clock⟩ t = step ⟨L, clock⟩ t ∨
      (step ⟨L, clock⟩ t).isOverflow = true ∧
        (step ⟨L, clock⟩ t).machine.sink = t.machine.sink := by
  have hrefused {t' : State} {paren : Token} {k : ExprCont} {m : Machine}
      (h : t' = Step.faultAt paren .stackOverflow k m) :
      t'.isOverflow = true ∧ t'.machine.sink = m.sink := by
    subst h
    refine ⟨rfl, ?_⟩
    show (k.unwind m).sink = m.sink
    rw [k.unwind_eq_left]
  cases t with
  | value v k m =>
    cases k with
    | callee paren arguments k =>
      exact (Step.nextArgument_eq_or_refused hL v paren [] arguments k m).imp_right hrefused
    | argument callee paren before after k =>
      exact (Step.nextArgument_eq_or_refused hL callee paren (v :: before) after k m).imp_right
        hrefused
    | _ => exact .inl rfl
  | eval | exec | flow | failed | desync => exact .inl rfl

/-- The refused call ends the run. -/
theorem State.isFinal_of_isOverflow {t : State} (h : t.isOverflow = true) : t.isFinal = true := by
  cases t with
  | failed => rfl
  | eval | exec | value | flow | desync => cases h

/-- Under a lower limit a run goes as under a higher one, up to the call that is refused. -/
theorem iterate_step_eq_or_refused (hL : L ≤ L') (t : State) (n : Nat) :
    ((step ⟨L, clock⟩)^[n] t).isOverflow = false ∧
        (step ⟨L', clock⟩)^[n] t = (step ⟨L, clock⟩)^[n] t ∨
      ((step ⟨L, clock⟩)^[n] t).isOverflow = true ∧
        ∃ j, ((step ⟨L', clock⟩)^[j] t).machine.sink =
          ((step ⟨L, clock⟩)^[n] t).machine.sink := by
  induction n generalizing t with
  | zero =>
    rw [Function.iterate_zero_apply, Function.iterate_zero_apply]
    cases hover : t.isOverflow with
    | false => exact .inl ⟨rfl, rfl⟩
    | true => exact .inr ⟨rfl, 0, rfl⟩
  | succ n ih =>
    rw [Function.iterate_succ_apply, Function.iterate_succ_apply]
    obtain hsame | ⟨hover, hsink⟩ := step_eq_or_refused clock hL t
    · rw [hsame]
      refine (ih (step ⟨L, clock⟩ t)).imp_right fun ⟨hover, j, hj⟩ => ⟨hover, j + 1, ?_⟩
      rw [Function.iterate_succ_apply, hsame]
      exact hj
    · rw [iterate_step_of_isFinal (State.isFinal_of_isOverflow hover)]
      exact .inr ⟨hover, 0, hsink.symm⟩

end Limits

/-! ### Programs under two limits -/

/-- A state that a program passes. -/
def Machine.Reaches (host : Host) (ss : List Stmt) (m : Machine) (t : State) : Prop :=
  ∃ made made', Machine.Passes host false ss m made t made'

/-- At some moment of the program a call is refused because too many are in progress. -/
def Machine.Overflows (host : Host) (ss : List Stmt) (m : Machine) : Prop :=
  ∃ t, m.Reaches host ss t ∧ t.isOverflow = true

section Programs

variable {host : Host} {fuel : Nat} {m m' : Machine} {s : Stmt} {ss : List Stmt} {t : State}

namespace Machine.Reaches

/-- The states of the first statement. -/
theorem now (s : Stmt) (ss : List Stmt) (m : Machine) (n : Nat) :
    m.Reaches host (s :: ss) ((step host)^[n] (m.begin false s)) := ⟨[], _, .now n⟩

/-- The states behind a statement that has finished. -/
theorem later {f : Flow} (hexec : m.execute host fuel s = some (.finished f, m'))
    (h : m'.Reaches host ss t) : m.Reaches host (s :: ss) t := by
  obtain ⟨_, _, hpasses⟩ := h
  obtain ⟨made₁, hrest⟩ := hpasses.exists_from ([] ++ (m.begin false s).makesIn host fuel)
  refine ⟨[], made₁, .later fuel ?_ hrest⟩
  unfold Machine.goOn
  rw [if_neg Bool.false_ne_true, hexec]

/-- A state that is passed belongs to the first statement or to what is behind it. -/
theorem first_or_rest (h : m.Reaches host (s :: ss) t) :
    (∃ n, t = (step host)^[n] (m.begin false s)) ∨
      ∃ fuel f m', m.execute host fuel s = some (.finished f, m') ∧ m'.Reaches host ss t := by
  obtain ⟨_, _, hpasses⟩ := h
  cases hpasses with
  | now n => exact .inl ⟨n, rfl⟩
  | later fuel hnext hrest =>
    obtain ⟨f, hexec⟩ := Machine.execute_of_goOn hnext
    exact .inr ⟨fuel, f, _, hexec, _, _, hrest⟩

end Machine.Reaches

/-- More fuel does not change the end of a statement. -/
theorem Machine.execute_of_le {fuel' : Nat} {p : Outcome Flow × Machine}
    (h : m.execute host fuel s = some p) (hle : fuel ≤ fuel') :
    m.execute host fuel' s = some p := by
  obtain ⟨hfinal, hend⟩ := Machine.ending_of_execute h
  have heq := iterate_step_eq_of_le hfinal hle
  rw [Machine.execute_of_isFinal (heq ▸ hfinal), heq]
  exact hend

/-- More fuel does not change the end of a program. -/
theorem Machine.interpret_of_le {fuel' : Nat} {p : Outcome Unit × Machine}
    (h : m.interpret host fuel ss = some p) (hle : fuel ≤ fuel') :
    m.interpret host fuel' ss = some p := by
  induction ss generalizing m with
  | nil => exact h
  | cons s ss ih =>
    unfold Machine.interpret at h ⊢
    cases hexec : m.execute host fuel s with
    | none =>
      rw [hexec] at h
      cases h
    | some q =>
      rw [Machine.execute_of_le hexec hle]
      rw [hexec] at h
      obtain ⟨_ | _ | _, m₁⟩ := q
      · exact ih h
      · exact h
      · exact h

/-- The machine at the end of a run, and whether a call was refused. -/
theorem State.eq_of_ending? {o : Outcome Flow} (h : t.ending? = some (o, m)) :
    m = t.machine ∧ o.isOverflow = t.isOverflow := by
  cases t with
  | eval | exec | value => cases h
  | flow | failed | desync =>
    cases h
    exact ⟨rfl, rfl⟩

/-- Where the first statement does not overflow, only what is behind it can. -/
theorem Machine.Overflows.rest {o : Outcome Flow} (h : m.Overflows host (s :: ss))
    (hexec : m.execute host fuel s = some (o, m')) (ho : o.isOverflow = false) :
    (∃ f, o = .finished f) ∧ m'.Overflows host ss := by
  obtain ⟨t, hreach, hover⟩ := h
  obtain ⟨n, rfl⟩ | ⟨fuel', f, m₁, hexec', hrest⟩ := hreach.first_or_rest
  · obtain ⟨hfinal, hend⟩ := Machine.ending_of_execute hexec
    rw [iterate_step_eq_of_isFinal (State.isFinal_of_isOverflow hover) hfinal,
      ← (State.eq_of_ending? hend).2, ho] at hover
    cases hover
  · obtain ⟨rfl, rfl⟩ := Machine.execute_unique hexec hexec'
    exact ⟨⟨f, rfl⟩, t, hrest, hover⟩

/-- A flush makes no overflow out of something else. -/
theorem Machine.isOverflow_flush (m : Machine) (o : Outcome Unit) :
    (m.flush o).isOverflow = true → o.isOverflow = true := by
  unfold Machine.flush
  split
  · intro h
    cases h
  · exact id

/-- A failed flush is the only thing that takes the place of an outcome. -/
theorem Machine.flush_eq_or (m : Machine) (o : Outcome Unit) :
    m.flush o = o ∨ m.sink.flushFails = true ∧ m.flush o = .failed (.output .flushFailed) := by
  unfold Machine.flush
  split
  · next hflush => exact .inr ⟨hflush, rfl⟩
  · exact .inl rfl

end Programs

section Limits

variable {clock : Nat → Float} {L L' fuel : Nat} {m m₁ : Machine}

/-- A statement under two limits. -/
theorem Machine.execute_eq_or_refused (hL : L ≤ L') {s : Stmt} {o : Outcome Flow}
    (h : m.execute ⟨L, clock⟩ fuel s = some (o, m₁)) :
    o.isOverflow = false ∧ m.execute ⟨L', clock⟩ fuel s = some (o, m₁) ∨
      o.isOverflow = true ∧
        ∃ j, ((step ⟨L', clock⟩)^[j] (m.begin false s)).machine.sink = m₁.sink := by
  obtain ⟨hfinal, hend⟩ := Machine.ending_of_execute h
  obtain ⟨hmachine, hoverflow⟩ := State.eq_of_ending? hend
  rw [hoverflow, hmachine]
  refine (iterate_step_eq_or_refused hL (m.begin false s) fuel).imp_left fun ⟨hover, hsame⟩ => ?_
  refine ⟨hover, ?_⟩
  rw [Machine.execute_of_isFinal (hsame ▸ hfinal), hsame, ← hmachine]
  exact hend

/-- A program under two limits. Either it ends under the higher limit as it does under the lower
    one, or a call is refused under the lower limit and what was written until then is written
    at some moment under the higher one. -/
theorem Machine.interpret_eq_or_refused (hL : L ≤ L') {ss : List Stmt} {o : Outcome Unit}
    (h : m.interpret ⟨L, clock⟩ fuel ss = some (o, m₁)) :
    (¬ m.Overflows ⟨L, clock⟩ ss ∧ o.isOverflow = false ∧
        m.interpret ⟨L', clock⟩ fuel ss = some (o, m₁)) ∨
      m.Overflows ⟨L, clock⟩ ss ∧
        (o.isOverflow = true ∨
          m.sink.flushFails = true ∧ o = .failed (.output .flushFailed)) ∧
        ∃ t, m.Reaches ⟨L', clock⟩ ss t ∧ t.machine.sink = m₁.sink := by
  induction ss generalizing m with
  | nil =>
    cases h
    refine .inl ⟨?_, ?_, rfl⟩
    · rintro ⟨t, ⟨_, _, hpasses⟩, -⟩
      cases hpasses
    · refine Bool.eq_false_iff.2 fun hover => ?_
      cases Machine.isOverflow_flush _ _ hover
  | cons s ss ih =>
    cases hexec : m.execute ⟨L, clock⟩ fuel s with
    | none =>
      simp only [Machine.interpret, hexec] at h
      cases h
    | some r =>
      obtain ⟨o₁, m'⟩ := r
      obtain ⟨hfirst, hsame⟩ | ⟨hover, j, hj⟩ := Machine.execute_eq_or_refused hL hexec
      · simp only [Machine.interpret, hexec, hsame] at h ⊢
        cases o₁ with
        -- No call was refused so far, so both runs go on from the same machine.
        | finished f =>
          obtain ⟨hnot, hrest⟩ | ⟨⟨t, ht, hover⟩, ho, t', ht', hsink⟩ := ih h
          · exact .inl ⟨fun hover => hnot (hover.rest hexec rfl).2, hrest⟩
          · have hflush : m'.sink.flushFails = m.sink.flushFails :=
              congrArg (·.2.2) (Machine.fixed_execute hexec)
            exact .inr ⟨⟨t, ht.later hexec, hover⟩, hflush ▸ ho, t', ht'.later hsame, hsink⟩
        -- The statements behind an error are not executed, so none of their calls is refused.
        | failed e =>
          cases h
          refine .inl ⟨fun hover => ?_, ?_, rfl⟩
          · obtain ⟨⟨f, hf⟩, -⟩ := hover.rest hexec hfirst
            cases hf
          · exact Bool.eq_false_iff.2 fun hover =>
              Bool.eq_false_iff.1 hfirst (Machine.isOverflow_flush _ _ hover)
        | desync d =>
          cases h
          refine .inl ⟨fun hover => ?_, rfl, rfl⟩
          obtain ⟨⟨f, hf⟩, -⟩ := hover.rest hexec hfirst
          cases hf
      · -- The refused call ends the program under the lower limit.
        cases o₁ with
        | finished | desync => cases hover
        | failed e =>
          simp only [Machine.interpret, hexec] at h
          cases h
          refine .inr ⟨⟨_, .now s ss m fuel, ?_⟩, ?_, _, .now s ss m j, hj⟩
          · rw [← (State.eq_of_ending? (Machine.ending_of_execute hexec).2).2]
            exact hover
          · have hflush : m'.sink.flushFails = m.sink.flushFails :=
              congrArg (·.2.2) (Machine.fixed_execute hexec)
            rw [← hflush]
            refine (Machine.flush_eq_or { m' with env := globals } (.failed e)).imp_left
              fun hsame => ?_
            rw [hsame]
            exact hover

end Limits

/-- **The limit on calls only cuts runs off.** At every moment of a program that starts at rest
    the machine counts the calls in progress, and there are at most `L` of them. And for limits
    `L ≤ L'`, whatever the program and the machine, where the run under `L` ends:

    * if no call was refused because of `L`, then the run under `L'` ends with the same outcome
      on the same machine, its output included;
    * if one was refused, then what was written under `L` is written under `L'` at some moment,
      and if the run under `L'` ends, it begins what is written there;
    * the run under `L` ends with that error only if a call was refused, and if one was refused,
      with that error, unless a failed flush takes its place;
    * so, where the output can be flushed, the first clause holds of every run under `L` whose
      outcome is not that error. -/
theorem Machine.call_limit_only_cuts (clock : Nat → Float) :
    (∀ (L : Nat) (alone : Bool) (ss : List Stmt) (m : Machine) (made made' : List Making)
        (t : State), m.AtRest → Machine.Passes ⟨L, clock⟩ alone ss m made t made' →
      (t.isDesync = false → t.machine.callDepth = t.calls.length) ∧ t.machine.callDepth ≤ L) ∧
    (∀ (L L' fuel : Nat) (ss : List Stmt) (m m₁ : Machine) (o : Outcome Unit), L ≤ L' →
        m.interpret ⟨L, clock⟩ fuel ss = some (o, m₁) →
      (¬ m.Overflows ⟨L, clock⟩ ss → m.interpret ⟨L', clock⟩ fuel ss = some (o, m₁)) ∧
      (m.Overflows ⟨L, clock⟩ ss →
        (∃ t, m.Reaches ⟨L', clock⟩ ss t ∧ t.machine.sink.written = m₁.sink.written) ∧
        ∀ (fuel' : Nat) (o' : Outcome Unit) (m₂ : Machine),
          m.interpret ⟨L', clock⟩ fuel' ss = some (o', m₂) → m₁.sink.Begins m₂.sink) ∧
      (o.isOverflow = true → m.Overflows ⟨L, clock⟩ ss) ∧
      (m.Overflows ⟨L, clock⟩ ss →
        o.isOverflow = true ∨ o = .failed (.output .flushFailed)) ∧
      (m.sink.flushFails = false → o.isOverflow = false →
        m.interpret ⟨L', clock⟩ fuel ss = some (o, m₁))) := by
  refine ⟨fun _ _ _ _ _ _ _ hm ht => ht.calls_counted hm,
    fun L L' fuel ss m m₁ o hL hrun => ?_⟩
  obtain ⟨hnot, ho, hsame⟩ | ⟨hover, ho, t, ⟨made, made', ht⟩, hsink⟩ :=
    Machine.interpret_eq_or_refused hL hrun
  · refine ⟨fun _ => hsame, fun hover => absurd hover hnot, fun ho' => ?_,
      fun hover => absurd hover hnot, fun _ _ => hsame⟩
    rw [ho] at ho'
    cases ho'
  · refine ⟨fun hnot => absurd hover hnot, fun _ => ⟨⟨t, ⟨made, made', ht⟩, ?_⟩, ?_⟩,
      fun _ => hover, fun _ => ho.imp_right And.right, fun hflush ho' => ?_⟩
    · rw [hsink]
    · intro fuel' o' m₂ hrun'
      rw [← hsink]
      exact ht.begins hrun'
    · -- A flush that succeeds leaves the error of the refused call in place.
      obtain hover' | ⟨hfails, -⟩ := ho
      · cases ho'.symm.trans hover'
      · cases hflush.symm.trans hfails

/-- Whether a run came to its end. -/
def Outcome.isFinished {α : Type} : Outcome α → Bool
  | .finished _ => true
  | .failed _ | .desync _ => false

/-- A function that prints and calls itself once, so that two calls are in progress. -/
def Session.twoCalls : String :=
  "\x7b fun g(a) \x7b print a; if (a) g(false); \x7d g(true); \x7d"

/-- With two calls allowed, two are in progress at some moment and the run ends well; so it does
    with three. With one call allowed the second one is refused, and the output is a beginning of
    what two calls print. -/
theorem Machine.call_limit_only_cuts_twoCalls :
    ∃ (m : Machine) (ss : List Stmt) (host : Nat → Host),
      (∃ t made, Machine.Passes (host 2) false ss m [] t made ∧ t.calls.length = 2 ∧
        t.machine.callDepth = 2) ∧
      ∃ (o : Outcome Unit) (m₁ m₂ : Machine),
        m.interpret (host 1) 40 ss = some (o, m₁) ∧ o.isOverflow = true ∧
        m.interpret (host 2) 40 ss = some (.finished (), m₂) ∧ m₁.sink.Begins m₂.sink ∧
        m.interpret (host 3) 40 ss = some (.finished (), m₂) := by
  let clock : Nat → Float := fun _ => 0
  let a := (Session.new Sink.unbounded).analyze Session.twoCalls
  let m := a.2.machine
  let s := a.1.statements.headD (.block [])
  have hmoment : ((step ⟨2, clock⟩)^[24] (m.begin false s)).isDesync = false ∧
      ((step ⟨2, clock⟩)^[24] (m.begin false s)).calls.length = 2 := by decide +kernel
  have hone : (m.interpret ⟨1, clock⟩ 40 [s]).any (fun r => r.1.isOverflow) = true := by
    decide +kernel
  have htwo : (m.interpret ⟨2, clock⟩ 40 [s]).any (fun r => r.1.isFinished) = true := by
    decide +kernel
  obtain ⟨⟨o₁, m₁⟩, hrun₁, ho₁⟩ := (Option.any_eq_true _ _).1 hone
  obtain ⟨⟨o₂, m₂⟩, hrun₂, ho₂⟩ := (Option.any_eq_true _ _).1 htwo
  obtain ⟨hcalls, hruns⟩ := Machine.call_limit_only_cuts clock
  cases o₂ with
  | failed | desync => cases ho₂
  | finished u =>
    obtain ⟨-, hcut, hover, -⟩ := hruns 1 2 40 [s] m m₁ o₁ (by decide) hrun₁
    obtain ⟨-, -, -, -, hsame⟩ := hruns 2 3 40 [s] m m₂ _ (by decide) hrun₂
    have hpasses : Machine.Passes ⟨2, clock⟩ false [s] m []
        ((step ⟨2, clock⟩)^[24] (m.begin false s)) _ := .now 24
    have hcount := (hcalls 2 false [s] m _ _ _ ⟨rfl, rfl⟩ hpasses).1 hmoment.1
    refine ⟨m, [s], (⟨·, clock⟩), ⟨_, _, hpasses, hmoment.2, hcount.trans hmoment.2⟩,
      o₁, m₁, m₂, hrun₁, ho₁, hrun₂, (hcut (hover ho₁)).2 40 _ m₂ hrun₂, hsame rfl rfl⟩

end Scriptlet
