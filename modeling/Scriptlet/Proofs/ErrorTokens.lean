import Scriptlet.Proofs.Running
import Scriptlet.Proofs.Shapes
import Scriptlet.Proofs.Trace

namespace Scriptlet

/-!
# The tokens that runtime errors carry

* `Expr.token?` — the token that an expression shows when its evaluation has no result.
* `State.Faults.exists_evaluated` — a step that ends in a runtime error was evaluating an expression
  of what is running, and the error carries its token.
* `Session.trees_corpus` — whatever a session comes across is a part of what is running then.
* `Session.runtime_errors_point_into_programs` — so the token comes out of a source of the session.
-/

/-! ### Tokens and faults -/

/-- The token that an expression shows when its evaluation has no result. -/
def Expr.token? : Expr → Option Token
  | .variable _ name => some name
  | .thisRef _ keyword => some keyword
  | .assign _ name _ => some name
  | .unary op _ => some op
  | .binary _ op _ => some op
  | .call _ paren _ => some paren
  | .get _ name => some name
  | .set _ name _ => some name
  | _ => none

def Expr.isCall : Expr → Bool
  | .call _ _ _ => true
  | _ => false

variable {fault : RuntimeFault} {t : Token} {T : Token → Prop} {e : Expr}

/-- A fault that an operator shows is not one of a call. -/
theorem RuntimeFault.isOfCall_eq_false (h : fault.isOfOperands = true ∨ fault.isMisapplied = true) :
    fault.isOfCall = false := by
  cases fault <;> first | rfl | simp [isOfOperands, isMisapplied] at h

/-! ### Steps that end in an error -/

/-- **Where an error comes from.** A step that ends in a runtime error was evaluating an expression
    of what is running, and the error carries its token. It is a fault of a call if and only if the
    expression is one. -/
theorem State.Faults.exists_evaluated {C : Corpus} {t : State} {token : Token}
    (h : t.Faults token fault) (ht : t.Trees C) :
    ∃ e, t.Evaluates e ∧ C.inside t.running? (.expr e) ∧ e.token? = some token ∧
      fault.isOfCall = e.isCall := by
  cases h with
  | read | this => exact ⟨_, .start, ht.2.1, rfl, rfl⟩
  | assign =>
    obtain ⟨-, -, ⟨e, he⟩, -⟩ := ht
    exact ⟨_, .goOn .assign, he, rfl, rfl⟩
  | unary h =>
    obtain ⟨-, -, ⟨e, he⟩, -⟩ := ht
    refine ⟨_, .goOn .unary, he, rfl, RuntimeFault.isOfCall_eq_false ?_⟩
    exact (Value.fault_of_applyUnary h).imp_right fun h => by rw [h.1]; rfl
  | binary h =>
    obtain ⟨-, -, -, ⟨a, b, he⟩, -⟩ := ht
    refine ⟨_, .goOn .right, he, rfl, RuntimeFault.isOfCall_eq_false ?_⟩
    exact (Value.fault_of_applyBinary h).imp_right fun h => by rw [h.1]; rfl
  | callee h =>
    obtain ⟨-, -, ⟨e, he⟩, -⟩ := ht
    exact ⟨_, .goOn .callee, he, rfl, h⟩
  | argument h =>
    obtain ⟨-, -, -, -, ⟨e, es, hlength, he⟩, -⟩ := ht
    -- The argument at hand is the last one that is not left.
    obtain rfl | ⟨es, arg, rfl⟩ := List.eq_nil_or_concat es
    · cases hlength
    · rw [List.concat_append] at he
      rw [List.length_concat] at hlength
      exact ⟨_, .goOn (.argument (Nat.succ.inj hlength)), he, rfl, h⟩
  | property h =>
    obtain ⟨-, -, ⟨e, he⟩, -⟩ := ht
    obtain rfl | rfl := h <;> exact ⟨_, .goOn .property, he, rfl, rfl⟩
  | owner =>
    obtain ⟨-, -, ⟨e, he⟩, -⟩ := ht
    exact ⟨_, .goOn .fieldOwner, he, rfl, rfl⟩

/-! ### Programs that were read -/

/-- The source that a request reads. -/
def Request.source? : Request → Option String
  | .run source => some source
  | .force source => some source
  | .exec source => some source
  | .unresolved source => some source
  | .analyze source => some source
  | .native _ => none

theorem Request.exists_program {s : Session} {r : Request} {p : Visit}
    (hp : r.program? s = some p) : ∃ source, r.source? = some source ∧ p = s.program source := by
  cases r with
  | native => cases hp
  | run source | force source | exec source | unresolved source | analyze source =>
    cases hp
    exact ⟨source, rfl, rfl⟩

section Trees

variable {P Q : Node → Prop}

theorem Value.Trees.mono {v : Value} (hv : v.Trees P) (h : ∀ n, P n → Q n) : v.Trees Q := by
  cases v with
  | nil | bool | number | string | native => trivial
  | function | classObj | object => exact h _ hv

theorem Machine.Trees.mono {m : Machine} (hm : m.Trees P) (h : ∀ n, P n → Q n) : m.Trees Q :=
  ⟨fun f x v hv => (hm.frames f x v hv).mono h, fun id x v hv => (hm.fields id x v hv).mono h,
    hm.natives⟩

end Trees

section Sessions

variable {host : Host} {sink : Sink} {rs : List Request} {s : Session} {h : History} {r : Request}
  {t : State}

/-- What a request runs is the program that it reads. -/
theorem Request.reads_job {job : Job} (hj : r.job? s = some job) (programs : List Visit)
    (made : List Making) :
    History.Reads ⟨programs ++ (r.program? s).toList, made⟩ (.stmts job.statements) := by
  obtain ⟨source, hprogram, hstatements, -⟩ := Request.job_cases hj
  refine ⟨s.program source, ?_, ?_⟩
  · rw [hprogram]
    exact List.mem_append_right _ (List.mem_singleton_self _)
  · rw [hstatements]
    exact Node.Part.refl _

/-- Between requests, everything stored refers to programs that were read. -/
theorem Session.After.trees_reads (hs : Session.After host sink rs s h)
    (hnatives : ∀ r ∈ rs, r.DefinesOnly Native.Honest) : s.machine.Trees h.Reads := by
  induction hs with
  | new => exact Machine.trees_new _ sink
  | @next rs s h r s' fuel _ hr ih =>
    let h' : History := ⟨h.programs ++ (r.program? s).toList, h.made ++ r.makes host fuel s⟩
    suffices s'.machine.Trees h'.Reads from this.congr rfl rfl
    obtain ⟨hnatives, hnative⟩ := List.forall_mem_append.1 hnatives
    have hbefore : s.machine.Trees h'.Reads := (ih hnatives).mono fun n hn => hn.append _ _
    refine Request.trees_perform (C := .all h'.handsDown_reads) hbefore (fun job hj => ?_)
      (List.forall_mem_singleton.1 hnative) hr
    exact Request.reads_job hj _ _

/-- At every moment, everything at hand is a part of what is running. -/
theorem Session.trees_corpus (hs : Session.After host sink rs s h)
    (hnatives : ∀ r ∈ rs, r.DefinesOnly Native.Honest) {job : Job}
    (hj : r.job? s = some job) {made : List Making}
    (hp : Machine.Passes host job.alone job.statements job.machine h.made t made) :
    t.Trees (History.corpus ⟨h.programs ++ (r.program? s).toList, made⟩ job.statements) := by
  refine hp.trees (Request.trees_job ?_ hj) ⟨Request.reads_job hj _ _, Node.Part.refl _⟩
  exact (hs.trees_reads hnatives).mono fun n hn => hn.append _ _

/-- A part of what is running is a part of a program that was read: of the last one, if no function
    is running, and else of the one that the function is a part of. -/
theorem Request.exists_program_of_running {job : Job} (hj : r.job? s = some job)
    {programs : List Visit} {made : List Making} {c : Option Closure} {n : Node}
    (hn : (History.corpus ⟨programs ++ (r.program? s).toList, made⟩ job.statements).inside c n) :
    ∃ p ∈ programs ++ (r.program? s).toList, p.node.Part n ∧
      (c = none → (programs ++ (r.program? s).toList).getLast? = some p) ∧
      ∀ c', c = some c' → p.node.Part c'.node ∧ c'.node.Part n := by
  cases c with
  | none =>
    obtain ⟨source, hprogram, hstatements, -⟩ := Request.job_cases hj
    obtain ⟨-, hn⟩ := hn
    rw [hprogram]
    refine ⟨s.program source, List.mem_append_right _ (List.mem_singleton_self _), ?_,
      fun _ => List.getLast?_concat, fun c hsome => by cases hsome⟩
    rw [hstatements] at hn
    exact hn
  | some c =>
    obtain ⟨⟨p, hp, hc⟩, hn⟩ := hn
    refine ⟨p, hp, hc.trans hn, (nomatch ·), fun c' heq => ?_⟩
    cases heq
    exact ⟨hc, hn⟩

/-- The programs of a session were read from the sources of its requests. -/
theorem Session.After.exists_source (hs : Session.After host sink rs s h) :
    ∀ p ∈ h.programs, ∃ r ∈ rs, ∃ s source, r.source? = some source ∧
      p = Session.program s source := by
  induction hs with
  | new => exact fun p hp => absurd hp List.not_mem_nil
  | @next rs s h r s' fuel _ _ ih =>
    intro p hp
    obtain hp | hp := List.mem_append.1 hp
    · obtain ⟨r', hr', hread⟩ := ih p hp
      exact ⟨r', List.mem_append_left _ hr', hread⟩
    · obtain ⟨source, hsource, hprogram⟩ := Request.exists_program (Option.mem_toList.1 hp)
      exact ⟨r, List.mem_append_right _ (List.mem_singleton_self r), s, source, hsource, hprogram⟩

theorem Session.Moment.exists_source (ht : Session.Moment host sink rs t h) :
    ∀ p ∈ h.programs, ∃ r ∈ rs, ∃ s source, r.source? = some source ∧
      p = Session.program s source := by
  obtain ⟨hs, hj, -⟩ := ht
  intro p hp
  obtain hp | hp := List.mem_append.1 hp
  · obtain ⟨r', hr', hread⟩ := hs.exists_source p hp
    exact ⟨r', List.mem_append_left _ hr', hread⟩
  · obtain ⟨source, hsource, hprogram⟩ := Request.exists_program (Option.mem_toList.1 hp)
    exact ⟨_, List.mem_append_right _ (List.mem_singleton_self _), _, source, hsource, hprogram⟩

end Sessions

/-! ### Tokens of a source -/

/-- The tokens of a tree are tokens of the source it was read from. -/
theorem Session.formed_program (s : Session) (source : String) :
    (s.program source).node.Formed (· ∈ Token.ofSource source) :=
  (Program.built_parse (T := (· ∈ Token.ofSource source)) _ _ _ fun _ h => h).1

theorem Token.IsOneOf.isEof_eq_false {symbols : List Symbol} (h : t.IsOneOf T symbols) :
    t.isEof = false := by
  obtain ⟨-, s, -, hs⟩ := h
  obtain ⟨kind, lexeme, line⟩ := t
  cases kind with
  | eof => cases hs
  | _ => rfl

theorem Token.IsName.isEof_eq_false (h : t.IsName T) : t.isEof = false := by
  obtain ⟨kind, lexeme, line⟩ := t
  cases kind with
  | eof => cases h.2
  | _ => rfl

/-- The token that a well-formed expression shows; that of a call is a closing parenthesis. -/
theorem Expr.Formed.token {token : Token} (he : e.Formed T) (htoken : e.token? = some token) :
    T token ∧ token.isEof = false ∧ (e.isCall = true → token.is .rightParen = true) := by
  cases e with
  | literal | group | logical | conditional | function => cases htoken
  | «variable» =>
    cases htoken
    exact ⟨he.1, he.isEof_eq_false, fun hcall => by cases hcall⟩
  | thisRef =>
    cases htoken
    exact ⟨he.1, he.isEof_eq_false, fun hcall => by cases hcall⟩
  | assign | unary =>
    cases htoken
    exact ⟨he.1.1, he.1.isEof_eq_false, fun hcall => by cases hcall⟩
  | binary | set =>
    cases htoken
    exact ⟨he.2.1.1, he.2.1.isEof_eq_false, fun hcall => by cases hcall⟩
  | get =>
    cases htoken
    exact ⟨he.2.1, he.2.isEof_eq_false, fun hcall => by cases hcall⟩
  | call =>
    cases htoken
    obtain ⟨-, hparen, -⟩ := he
    refine ⟨hparen.1, hparen.isEof_eq_false, fun _ => ?_⟩
    obtain ⟨-, s, hs, his⟩ := hparen
    cases List.mem_singleton.1 hs
    exact his

theorem Expr.isCall_iff {token : Token} (h : e.token? = some token) :
    e.isCall = true ↔ ∃ callee arguments, e = .call callee token arguments := by
  constructor
  · intro hcall
    cases e with
    | call callee paren arguments =>
      cases h
      exact ⟨callee, arguments, rfl⟩
    | _ => cases hcall
  · rintro ⟨callee, arguments, rfl⟩
    rfl

/-! ### Errors that are shown -/

/-- The token and the cause of a runtime error. -/
def Error.runtime? : Error → Option (Token × RuntimeFault)
  | .runtime token fault => some (token, fault)
  | _ => none

def Outcome.error? {α : Type} : Outcome α → Option Error
  | .failed e => some e
  | _ => none

def Result.error? : Result → Option Error
  | .failed e => some e
  | _ => none

/-- The errors that a request ends with: that of its program, or those of its statements. -/
def Request.errors (host : Host) (fuel : Nat) (s : Session) : Request → List Error
  | .run source =>
    match s.run host fuel source with
    | some (.ran o, _) => o.error?.toList
    | _ => []
  | .force source =>
    match (s.analyze source).2.interpret host fuel (s.analyze source).1.statements with
    | some (o, _) => o.error?.toList
    | none => []
  | .exec source =>
    match Session.results host fuel (s.analyze source).1.statements
        (s.analyze source).2.machine with
    | some (.ok rs, _) => rs.filterMap (·.1.error?)
    | _ => []
  | .unresolved source =>
    match (s.parse source).2.interpret host fuel (s.parse source).1.statements with
    | some (o, _) => o.error?.toList
    | none => []
  | .analyze _ => []
  | .native _ => []

/-- The runtime errors that a request ends with. -/
def Request.runtimeErrors (host : Host) (fuel : Nat) (s : Session) (r : Request) :
    List (Token × RuntimeFault) :=
  (r.errors host fuel s).filterMap Error.runtime?

section Shown

variable {host : Host} {fuel : Nat} {m m' : Machine} {e : Error}

variable {o : Outcome Unit} {token : Token} {fault : RuntimeFault} {ss : List Stmt}

/-- A flushed output takes the place of what was there before, if it fails. -/
theorem Machine.eq_of_flush (h : m.flush o = .failed (.runtime token fault)) :
    o = .failed (.runtime token fault) := by
  unfold Machine.flush at h
  split at h
  · cases h
  · exact h

theorem Machine.exists_passes_of_interpret
    (h : m.interpret host fuel ss = some (.failed (.runtime token fault), m'))
    (made : List Making) :
    ∃ m'' made', Machine.Passes host false ss m made (.failed (.runtime token fault) m'')
      made' := by
  obtain ⟨t, hfinishes, hcloses⟩ := Machine.finishes_of_interpret h
  generalize ho : Outcome.failed (.runtime token fault) = o at hcloses
  cases hcloses with
  | finished => cases Machine.eq_of_flush ho.symm
  | failed =>
    cases Machine.eq_of_flush ho.symm
    obtain ⟨made', hpasses⟩ := hfinishes.exists_passes (by rintro _ ⟨⟩) made
    exact ⟨_, made', hpasses⟩
  | desync => cases ho

theorem Machine.exists_passes_of_results {rs : List (Result × Machine)}
    (h : Session.results host fuel ss m = some (.ok rs, m')) (hmem : e ∈ rs.filterMap (·.1.error?))
    (made : List Making) :
    ∃ m'' made', Machine.Passes host true ss m made (.failed e m'') made' := by
  induction ss generalizing m rs made with
  | nil =>
    cases h
    cases hmem
  | cons s ss ih =>
    unfold Session.results at h
    split at h
    · cases h
    · cases h
    · next r m₁ hresult =>
      split at h
      · next hresults =>
        cases h
        have hnext : m.goOn host fuel true s = some m₁ := by
          unfold Machine.goOn
          rw [if_pos rfl, hresult]
        obtain ⟨p, hp, herror⟩ := List.mem_filterMap.1 hmem
        obtain rfl | hp := List.mem_cons.1 hp
        · -- The first statement is at its error after as many steps as there is fuel.
          obtain ⟨t, hrun, hend⟩ := Session.exists_of_result hresult
          obtain ⟨rfl, -⟩ := eq_iterate_of_runSteps hrun
          cases r with
          | value | flow => cases herror
          | failed e' =>
            cases herror
            have hpasses : Machine.Passes host true (s :: ss) m made
                ((step host)^[fuel] (m.begin true s)) _ := .now fuel
            have hstate : (step host)^[fuel] (m.begin true s) = .failed e m₁ := by
              generalize (step host)^[fuel] (m.begin true s) = t at hend
              cases t with
              | failed => cases hend; rfl
              | _ => cases hend
            rw [hstate] at hpasses
            exact ⟨m₁, _, hpasses⟩
        · obtain ⟨m'', made', hpasses⟩ := ih hresults (List.mem_filterMap.2 ⟨p, hp, herror⟩) _
          exact ⟨m'', made', .later fuel hnext hpasses⟩
      · next hother => exact absurd h (hother rs m')

theorem Session.interpret_machine {s s' : Session} (h : s.interpret host fuel ss = some (o, s')) :
    s.machine.interpret host fuel ss = some (o, s'.machine) := by
  unfold Session.interpret at h
  split at h
  · next hrun =>
    cases h
    exact hrun
  · cases h

/-- A runtime error that a request ends with is one that its job has come to. -/
theorem Request.exists_passes_of_runtimeErrors {s : Session} {r : Request}
    (h : (token, fault) ∈ r.runtimeErrors host fuel s) (made : List Making) :
    ∃ job m made', r.job? s = some job ∧ Machine.Passes host job.alone job.statements job.machine
      made (.failed (.runtime token fault) m) made' := by
  replace h : Error.runtime token fault ∈ r.errors host fuel s := by
    obtain ⟨e, he, heq⟩ := List.mem_filterMap.1 h
    cases e with
    | runtime => cases heq; exact he
    | _ => cases heq
  have failed {o : Outcome Unit} (ho : Error.runtime token fault ∈ o.error?.toList) :
      o = .failed (.runtime token fault) := by
    cases o with
    | failed e =>
      cases List.mem_singleton.1 ho
      rfl
    | finished | desync => cases ho
  cases r with
  | run source =>
    simp only [Request.errors, Session.run] at h
    -- A program with errors is not executed, so that it shows no runtime error.
    by_cases herror : (s.analyze source).1.report.hadError = true
    · simp only [herror, if_true] at h
      cases h
    · simp only [herror] at h
      cases hrun : (s.analyze source).2.interpret host fuel (s.analyze source).1.statements with
      | none =>
        simp only [hrun] at h
        cases h
      | some result =>
        simp only [hrun] at h
        obtain ⟨o, s'⟩ := result
        cases failed h
        obtain ⟨m, made', hpasses⟩ :=
          Machine.exists_passes_of_interpret (Session.interpret_machine hrun) made
        exact ⟨⟨false, _, _⟩, m, made', if_neg herror, hpasses⟩
  | force source | unresolved source =>
    simp only [Request.errors] at h
    split at h
    · next hrun =>
      cases failed h
      obtain ⟨m, made', hpasses⟩ :=
        Machine.exists_passes_of_interpret (Session.interpret_machine hrun) made
      exact ⟨⟨false, _, _⟩, m, made', rfl, hpasses⟩
    · cases h
  | exec source =>
    simp only [Request.errors] at h
    split at h
    · next hrun =>
      obtain ⟨m, made', hpasses⟩ := Machine.exists_passes_of_results hrun h made
      exact ⟨⟨true, _, _⟩, m, made', rfl, hpasses⟩
    · cases h
  | analyze | native => cases h

end Shown

/-! ### Sessions -/

/-- **Runtime errors point into programs.** An error that a request ends with was come to at some
    moment of the session. If the functions of the host are `Native.Honest`, then the state before
    it was evaluating an expression, and the error carries the token of that expression. The
    expression is a part of a program that the session has read: of the one that was read last, if
    that itself was running, and else of the function that was running, which is a part of it. So
    the token, with its text and its line, is one of the tokens of a source of the session, and not
    the one that ends it. Errors of calls, and no others, come from calls, and carry their closing
    parenthesis. -/
theorem Session.runtime_errors_point_into_programs (host : Host) (sink : Sink)
    (rs : List Request) :
    (∀ s h r fuel token fault, Session.After host sink rs s h →
      (token, fault) ∈ r.runtimeErrors host fuel s →
      ∃ m h', Session.Moment host sink (rs ++ [r]) (.failed (.runtime token fault) m) h') ∧
    ∀ token fault m h, (∀ r ∈ rs, r.DefinesOnly Native.Honest) →
      Session.Moment host sink rs (.failed (.runtime token fault) m) h →
      ∃ t h' e p source, Session.Moment host sink rs t h' ∧ h'.programs = h.programs ∧
        t.isFinal = false ∧ step host t = .failed (.runtime token fault) m ∧
        t.Evaluates e ∧ e.token? = some token ∧
        p ∈ h.programs ∧ p.node.Part (.expr e) ∧
        (t.running? = none → h.programs.getLast? = some p) ∧
        (∀ c, t.running? = some c → p.node.Part c.node ∧ c.node.Part (.expr e)) ∧
        (∃ r ∈ rs, ∃ s, r.source? = some source ∧ p = Session.program s source) ∧
        token ∈ Token.ofSource source ∧ token.isEof = false ∧
        (fault.isOfCall = true ↔ ∃ callee arguments, e = .call callee token arguments) ∧
        (fault.isOfCall = true → token.is .rightParen = true) := by
  constructor
  · intro s h r fuel token fault hs herror
    obtain ⟨job, m, made', hj, hpasses⟩ := Request.exists_passes_of_runtimeErrors herror h.made
    exact ⟨m, _, .mk hs hj hpasses⟩
  · intro token fault m h hnatives hfailed
    obtain ⟨hs, hj, hpasses⟩ := hfailed
    obtain ⟨t, made, hbefore, hlive, hstep⟩ := hpasses.exists_before rfl
    have hmoment := Session.Moment.mk hs hj hbefore
    obtain ⟨e, hevaluates, hpart, htoken, hcall⟩ :=
      (State.faults_of_step hlive hstep).exists_evaluated
        (Session.trees_corpus hs (List.forall_mem_append.1 hnatives).1 hj hbefore)
    obtain ⟨p, hp, hep, hlast, hfunction⟩ := Request.exists_program_of_running hj hpart
    obtain ⟨r, hr, s, source, hsource, rfl⟩ := hmoment.exists_source p hp
    obtain ⟨path, hpath⟩ := hep
    have hformed : e.Formed (· ∈ Token.ofSource source) := (s.formed_program source).at? hpath
    obtain ⟨hmem, heof, hparen⟩ := hformed.token htoken
    refine ⟨t, _, e, _, source, hmoment, rfl, hlive, hstep, hevaluates, htoken, hp, ⟨path, hpath⟩,
      hlast, hfunction, ⟨r, hr, s, hsource, rfl⟩, hmem, heof, ?_, hcall ▸ hparen⟩
    rw [hcall]
    exact Expr.isCall_iff htoken

/-- A function that calls what it is given, and a later source that gives it a number. -/
def Session.callsWhatIsGiven : List String :=
  ["fun f(g) \x7b\n  return g(1);\n\x7d", "f(2);"]

/-- The error that the second source ends with carries a token of the first one. -/
theorem Session.runtime_errors_point_into_programs_callsWhatIsGiven :
    ∃ s h token t e callee arguments,
      Session.After (Host.usual fun _ => 0) Sink.unbounded [.run Session.callsWhatIsGiven[0]] s h ∧
      (token, .notCallable) ∈
        (Request.run Session.callsWhatIsGiven[1]).runtimeErrors (Host.usual fun _ => 0) 30 s ∧
      token.line = 2 ∧ token ∈ Token.ofSource Session.callsWhatIsGiven[0] ∧
      State.Evaluates t e ∧ e = .call callee token arguments ∧ token.is .rightParen = true := by
  let host := Host.usual fun _ => 0
  let first := Request.run Session.callsWhatIsGiven[0]
  let second := Request.run Session.callsWhatIsGiven[1]
  have hcheck : (first.perform host 30 (Session.new Sink.unbounded)).any (fun p => p.1 &&
      (second.runtimeErrors host 30 p.2.takeOutput.2).any fun q =>
        q.1.line = 2 && q.2 = .notCallable) = true := by decide +kernel
  have hlines : (Token.ofSource Session.callsWhatIsGiven[1]).all (·.line = 1) = true := by
    decide +kernel
  obtain ⟨p, hp, hcheck⟩ := (Option.any_eq_true _ _).1 hcheck
  obtain ⟨hgoes, hcheck⟩ := Bool.and_eq_true_iff.1 hcheck
  obtain ⟨q, hq, hcheck⟩ := List.any_eq_true.1 hcheck
  obtain ⟨hline, hfault⟩ := Bool.and_eq_true_iff.1 hcheck
  obtain ⟨goesOn, s⟩ := p
  obtain ⟨token, fault⟩ := q
  cases hgoes
  cases of_decide_eq_true hfault
  have hs : Session.After host Sink.unbounded [first] s.takeOutput.2 _ := .next .new hp
  obtain ⟨m, h, hmoment⟩ :=
    (Session.runtime_errors_point_into_programs host Sink.unbounded [first]).1 _ _ second 30 _ _ hs
      hq
  obtain ⟨t, -, e, -, source, -, -, -, -, hevaluates, -, -, -, -, -, ⟨r, hr, -, hsource, -⟩, hmem,
    -, hcall, hparen⟩ :=
    (Session.runtime_errors_point_into_programs host Sink.unbounded [first, second]).2 _ _ _ _
      (by simp [Request.DefinesOnly, first, second]) hmoment
  obtain ⟨callee, arguments, he⟩ := hcall.1 rfl
  refine ⟨_, _, token, t, e, callee, arguments, hs, hq, of_decide_eq_true hline, ?_, hevaluates, he,
    hparen rfl⟩
  -- No token of the second source is on the second line.
  obtain rfl | rfl := List.mem_pair.1 hr
  · cases hsource
    exact hmem
  · cases hsource
    have hone := of_decide_eq_true (List.all_eq_true.1 hlines token hmem)
    exact absurd (hone.symm.trans (of_decide_eq_true hline)) (by decide)

end Scriptlet
