import Scriptlet.Proofs.Concatenation
import Scriptlet.Proofs.Diagnostics
import Scriptlet.Proofs.Restoration
import Scriptlet.Proofs.SilentRequests
import Scriptlet.Proofs.Turns

namespace Scriptlet

/-!
# Programs split between two sources

Two sources that are accepted may be run one after the other, or together with a line end between
them. It comes out the same, but for the lines of the second one.

* `Visit.Told.append`, `Walk.like_start` — the walk over statements, and over those behind them.
* `Session.Joins` — the tokens of two programs, one behind the other.
* `Session.Joins.analyzeTokens` — both programs are analysed as each on its own.
* `Session.Joins.runTokens` — and so they run, if the first one finishes.
* `Session.Joins.shows_iff` — and so they write while they run, whether they end or not.
* `Session.After.like` — a session that is reached by requests is like itself.
* `Session.split_keeps_run` — so splitting a program does not change it.
-/

/-! ### Walks over one program behind the other -/

theorem Walk.stmts_append (ss ss' : List Stmt) (w : Walk) :
    w.stmts (ss ++ ss') = (w.stmts ss).stmts ss' := by
  induction ss generalizing w with
  | nil => rfl
  | cons s ss ih => exact ih (w.stmt s)

/-- A table that holds what is recorded for statements holds it for the first and the last of
    them. -/
theorem Visit.Told.append {table : Depths} {w : Walk} {site : List Construct}
    {ss ss' : List Stmt} (h : Visit.Told table ⟨w, site, .stmts (ss ++ ss')⟩) :
    Visit.Told table ⟨w, site, .stmts ss⟩ ∧ Visit.Told table ⟨w.stmts ss, site, .stmts ss'⟩ := by
  obtain ⟨hnodup, hfresh, htold⟩ := h
  simp only [Node.ids, Stmt.idsAll_append] at hnodup hfresh htold
  obtain ⟨hfirst, hsecond, hdisjoint⟩ := List.nodup_append.1 hnodup
  have hpast : w.past (.stmts (ss ++ ss')) = (w.stmts ss).stmts ss' := Walk.stmts_append ss ss' w
  constructor
  · refine ⟨hfirst, fun i hi => hfresh i (List.mem_append_left _ hi), fun i hi => ?_⟩
    -- What comes last has other numbers.
    rw [htold i (List.mem_append_left _ hi), hpast]
    exact Walk.depths_stmts _ _ fun hi' => hdisjoint i hi i hi' rfl
  · refine ⟨hsecond, fun i hi => ?_, fun i hi => ?_⟩
    · show (w.stmts ss).depths[i]? = none
      rw [Walk.depths_stmts _ _ fun hi' => hdisjoint i hi' i hi rfl]
      exact hfresh i (List.mem_append_right _ hi)
    · rw [htold i (List.mem_append_right _ hi), hpast]
      rfl

/-- Behind a program about which nothing is reported, a walk is as at its start. -/
theorem Walk.like_start (τ : TokenLikeness) {depths depths' : Depths} {report : Report}
    {ss : List Stmt} (h : ((Resolution.start depths' report).stmts ss).report = .empty) :
    Walk.Like τ (Resolution.start depths .empty) ((Resolution.start depths' report).stmts ss) := by
  have howners := Walk.owners_stmts ss (Resolution.start depths' report)
  have hcontext := Walk.context_stmts ss (Resolution.start depths' report)
  generalize (Resolution.start depths' report).stmts ss = w at h howners hcontext ⊢
  obtain ⟨hbody, hinClass⟩ := Prod.mk.inj hcontext
  have hscopes : w.scopes = [] := by
    have hlength := congrArg List.length howners
    rw [Owners.length_foldl_declare, Walk.owners, List.length_map] at hlength
    exact List.length_eq_zero_iff.1 hlength
  refine ⟨?_, hbody, hinClass, ?_⟩
  · rw [hscopes]
    exact .nil
  · rw [h]
    exact .nil

/-! ### Analyses of one program behind the other -/

namespace Session

variable {τ : TokenLikeness} {T : Token → Prop} {s t u : Session}
  {body tokens moved : List Token} {last : Token} {report : Report}

/-- If nothing is wrong with a program, nothing was wrong before, nor when it was read. -/
theorem report_parseTokens_eq (h : (s.analyzeTokens tokens report).1.report = .empty) :
    report = .empty ∧ (s.parseTokens tokens report).1.report = .empty := by
  have hwalk := (Walk.passed_stmts (s.parseTokens tokens report).1.statements
    (Resolution.start s.machine.depths (s.parseTokens tokens report).1.report)).grows.size_le
  have hread := Program.size_le_parse tokens s.nextNode report
  have hsize : (s.analyzeTokens tokens report).1.report.size = 0 := by
    rw [h]
    rfl
  have hparsed : (s.parseTokens tokens report).1.report.size = 0 :=
    Nat.le_zero.1 (hwalk.trans hsize.le)
  exact ⟨Report.eq_empty (Nat.le_zero.1 (hread.trans hparsed.le)), Report.eq_empty hparsed⟩

/-- The walk over a program, and one over a part of another program that is read alike. -/
theorem follows_visit (hτ : τ.Ordered) (hs : s.Fresh) (tokens : List Token) (report : Report)
    {v : Visit}
    (hread : Node.Alike τ (s.visit tokens report).node v.node)
    (hwalk : Walk.Like τ (s.visit tokens report).walk v.walk) (hv : v.Told u.machine.depths)
    (hids : ∀ i ∈ v.node.ids, i < u.nextNode) :
    Walk.Follows τ ((s.analyzeTokens tokens report).2.SameDepth u) [] (s.visit tokens report)
      v := by
  refine Walk.follows hτ (hread []) ⟨hwalk, hs.told tokens report, hv, fun i hi i' hi' heq => ?_⟩
  exact ⟨_, ⟨((s.visit_spec tokens report).2.1 i hi).2, rfl⟩, hids i' hi', heq⟩

/-- What is reported about a program depends neither on the session nor on the lines of its
    tokens. -/
theorem report_analyzeTokens_of_rel (hτ : τ.Ordered) (hs : s.Fresh) (ht : t.Fresh)
    (hmoved : List.Forall₂ τ.rel tokens moved) (hend : tokens.any (·.isEof) = true)
    (h : (s.analyzeTokens tokens .empty).1.report = .empty) :
    (t.analyzeTokens moved .empty).1.report = .empty := by
  have hnothing : Report.Like (.raw τ) .empty .empty := .nil
  obtain ⟨hread, hreport⟩ := Program.parse_alike hmoved hend hnothing s.nextNode t.nextNode
  have hfollows := follows_visit (u := (t.analyzeTokens moved .empty).2)
    (v := t.visit moved .empty) hτ hs tokens .empty hread ⟨.nil, rfl, rfl, hreport⟩
    (ht.told moved .empty) fun i hi => ((t.visit_spec moved .empty).2.1 i hi).2
  exact hfollows.walks.report.eq_empty h

/-- The tokens of one program, and behind them tokens that stand for those of a second one. Nothing
    is wrong with either program. -/
structure Joins (s : Session) (T : Token → Prop) (τ : TokenLikeness) (body : List Token)
    (last : Token) (tokens moved : List Token) : Prop where
  goesOn : ∀ t ∈ body, t.isEof = false
  isEof : last.isEof = true
  known : ∀ t ∈ body ++ [last], T t
  ends : tokens.any (·.isEof) = true
  stands : List.Forall₂ τ.rel tokens moved
  first : (s.analyzeTokens (body ++ [last]) .empty).1.report = .empty
  second : (s.analyzeTokens tokens .empty).1.report = .empty

/-- **A program behind another is analysed as on its own.** Nothing is reported about both of them,
    and the same depths are recorded for their statements. -/
theorem Joins.analyzeTokens (h : s.Joins T τ body last tokens moved) (hs : s.Fresh)
    (hτ : τ.Ordered) :
    let first := s.analyzeTokens (body ++ [last]) .empty
    let both := s.analyzeTokens (body ++ moved) .empty
    both.1.report = .empty ∧ ∃ ss ss', both.1.statements = ss ++ ss' ∧
      Node.Like (Session.likeness (.same T) first.2 both.2) [] (.stmts first.1.statements)
        (.stmts ss) ∧
      ∀ t : Session, t.Fresh →
        let second := t.analyzeTokens tokens .empty
        second.1.report = .empty ∧
          Node.Like (Session.likeness τ second.2 both.2) [] (.stmts second.1.statements)
            (.stmts ss') := by
  intro first both
  obtain ⟨hreport, ss, ss', hss, hread, hread'⟩ := Program.parse_append h.goesOn h.isEof h.known
    h.ends h.stands (report_parseTokens_eq h.first).2 (report_parseTokens_eq h.second).2 s.nextNode
  have hvisit : s.visit (body ++ moved) .empty =
      ⟨Resolution.start s.machine.depths .empty, [], .stmts (ss ++ ss')⟩ := by
    unfold visit parseTokens
    simp only [hreport, hss]
  have htold := hs.told (body ++ moved) .empty
  have hids := fun i hi => ((s.visit_spec (body ++ moved) .empty).2.1 i hi).2
  rw [hvisit] at htold hids
  simp only [Node.ids, Stmt.idsAll_append] at hids
  obtain ⟨htold, htold'⟩ := htold.append
  have hstart {t : Session} {tokens : List Token}
      (h : (t.analyzeTokens tokens .empty).1.report = .empty) :
      (t.visit tokens .empty).walk = Resolution.start t.machine.depths .empty :=
    congrArg _ (report_parseTokens_eq h).2
  -- The walk comes to the first statements as to the first program …
  have hwalk : Walk.Like (.same T) (s.visit (body ++ [last]) .empty).walk
      (Resolution.start s.machine.depths .empty) := by
    rw [hstart h.first]
    exact ⟨.nil, rfl, rfl, .nil⟩
  have hfirst := follows_visit (u := both.2) (v := ⟨_, [], .stmts ss⟩) TokenLikeness.ordered_same hs
    _ .empty hread hwalk htold fun i hi => hids i (List.mem_append_left _ hi)
  -- … and with nothing reported about it, to the others as to the second one.
  let rest : Visit := ⟨(Resolution.start s.machine.depths .empty).stmts ss, [], .stmts ss'⟩
  have hsecond (t : Session) (ht : t.Fresh) :
      (t.analyzeTokens tokens .empty).1.report = .empty ∧
        Walk.Follows τ ((t.analyzeTokens tokens .empty).2.SameDepth both.2) []
          (t.visit tokens .empty) rest := by
    have haccepted := report_analyzeTokens_of_rel TokenLikeness.ordered_same hs ht
      (TokenLikeness.forall₂_same fun t _ => trivial) h.ends h.second
    have hwalk' : Walk.Like τ (t.visit tokens .empty).walk rest.walk := by
      rw [hstart haccepted]
      exact Walk.like_start τ (hfirst.walks.report.eq_empty h.first)
    exact ⟨haccepted, follows_visit hτ ht tokens .empty (hread' t.nextNode) hwalk' htold'
      fun i hi => hids i (List.mem_append_right _ hi)⟩
  refine ⟨?_, ss, ss', hss, hfirst.like, fun t ht => ⟨(hsecond t ht).1, (hsecond t ht).2.like⟩⟩
  have hboth : both.1.report = ((s.visit (body ++ moved) .empty).walk.past
    (s.visit (body ++ moved) .empty).node).report := rfl
  rw [hboth, hvisit]
  show (Walk.stmts (ss ++ ss') _).report = .empty
  rw [Walk.stmts_append]
  exact (hsecond s hs).2.walks.report.eq_empty h.second

end Session

/-! ### Runs of one program behind the other -/

/-- Where the output can be flushed, statements run like the first of them and, if these finish, the
    others on the machine they leave. -/
theorem Machine.interpret_append {host : Host} {fuel : Nat} (ss ss' : List Stmt) {m : Machine}
    (hflush : m.sink.flushFails = false) :
    m.interpret host fuel (ss ++ ss') =
      match m.interpret host fuel ss with
      | some (.finished _, m') => m'.interpret host fuel ss'
      | r => r := by
  induction ss generalizing m with
  | nil =>
    -- The flush behind the first statements is the only thing that the whole run lacks.
    have hfinished : m.interpret host fuel [] = some (.finished (), m) := by
      simp [Machine.interpret, Machine.flush, hflush]
    rw [hfinished]
    rfl
  | cons s ss ih =>
    rw [List.cons_append, Machine.interpret, Machine.interpret]
    cases hexec : m.execute host fuel s with
    | none => rfl
    | some p =>
      obtain ⟨o, m₁⟩ := p
      have hflush₁ : m₁.sink.flushFails = false :=
        (congrArg (·.2.2) (Machine.fixed_execute hexec)).trans hflush
      cases o with
      | finished flow => exact ih hflush₁
      | failed e =>
        -- Both runs end here, and neither flush hides the error.
        have hfailed : ({ m₁ with env := globals } : Machine).flush (.failed e) = .failed e := by
          simp [Machine.flush, hflush₁]
        simp only [hfailed]
      | desync d => rfl

/-- The same for what is written meanwhile, by `Machine.Writes`. -/
theorem Machine.writes_append {host : Host} (ss ss' : List Stmt) {m : Machine} {sink : Sink}
    (hflush : m.sink.flushFails = false) :
    m.Writes (step host) (ss ++ ss') sink ↔ m.Writes (step host) ss sink ∨
      ∃ m', m.Interprets (step host) ss (.finished ()) m' ∧ m'.Writes (step host) ss' sink := by
  constructor
  · intro h
    induction ss generalizing m with
    | nil =>
      have hfinished : m.flush (.finished ()) = .finished () := by simp [Machine.flush, hflush]
      exact .inr ⟨m, hfinished ▸ .nil, h⟩
    | cons s ss ih =>
      cases h with
      | now n => exact .inl (.now n)
      | later hfirst hrest =>
        obtain ⟨fuel, hexec⟩ := Machine.executes_iff.1 hfirst
        have hfixed := congrArg (·.2.2) (Machine.fixed_execute hexec)
        obtain hss | ⟨m', hss, hss'⟩ := ih (hfixed.trans hflush) hrest
        · exact .inl (.later hfirst hss)
        · exact .inr ⟨m', .next hfirst hss, hss'⟩
  · rintro (h | ⟨m', hss, hss'⟩)
    · induction h with
      | now n => exact .now n
      | later hfirst _ ih =>
        obtain ⟨fuel, hexec⟩ := Machine.executes_iff.1 hfirst
        exact .later hfirst (ih ((congrArg (·.2.2) (Machine.fixed_execute hexec)).trans hflush))
    · -- Statements that finish met no error, which would show in the outcome.
      generalize ho : Outcome.finished () = o at hss
      induction hss with
      | nil => exact hss'
      | next hfirst _ ih =>
        obtain ⟨fuel, hexec⟩ := Machine.executes_iff.1 hfirst
        exact .later hfirst
          (ih ((congrArg (·.2.2) (Machine.fixed_execute hexec)).trans hflush) hss' ho)
      | failed =>
        unfold Machine.flush at ho
        split at ho <;> cases ho
      | desync => cases ho

theorem Machine.shows_append {host : Host} (ss ss' : List Stmt) {m : Machine} {sink : Sink}
    (hflush : m.sink.flushFails = false) :
    m.Shows host false (ss ++ ss') sink ↔ m.Shows host false ss sink ∨
      ∃ fuel m', m.interpret host fuel ss = some (.finished (), m') ∧
        m'.Shows host false ss' sink := by
  simp only [← Machine.writes_iff, Machine.writes_append ss ss' hflush, Machine.interprets_iff]
  refine or_congr Iff.rfl ⟨?_, ?_⟩
  · rintro ⟨m', ⟨fuel, hss⟩, hss'⟩
    exact ⟨fuel, m', hss, hss'⟩
  · rintro ⟨fuel, m', hss, hss'⟩
    exact ⟨m', ⟨fuel, hss⟩, hss'⟩

/-- Tokens that stand for each other in one way or the other. -/
def TokenLikeness.or (τ τ' : TokenLikeness) : TokenLikeness where
  rel t t' := τ.rel t t' ∨ τ'.rel t t'
  kind_eq h := h.elim τ.kind_eq τ'.kind_eq
  lexeme_eq h := h.elim τ.lexeme_eq τ'.lexeme_eq

/-- Some tokens, and what stands for them some lines further down. -/
def TokenLikeness.down (T : Token → Prop) (lines : Nat) : TokenLikeness where
  rel t t' := t' = t.down lines ∧ T t
  kind_eq h := h.1 ▸ rfl
  lexeme_eq h := h.1 ▸ rfl

theorem TokenLikeness.ordered_down {T : Token → Prop} {lines : Nat} : (down T lines).Ordered := by
  rintro t _ u _ ⟨rfl, -⟩ ⟨rfl, -⟩
  exact Nat.add_lt_add_iff_right

namespace Session

/-- Run the program in a token list, unless something is wrong with it. -/
def runTokens (host : Host) (fuel : Nat) (tokens : List Token) (s : Session) :
    Option (Verdict × Session) :=
  let (a, s) := s.analyzeTokens tokens .empty
  if a.report.hadError then some (.rejected a.report, s)
  else (s.interpret host fuel a.statements).map fun (o, s) => (.ran o, s)

/-- What comes out of a run and, if that finished, of something behind it. -/
def andThen (next : Session → Option (Verdict × Session)) :
    Option (Verdict × Session) → Option (Verdict × Session)
  | some (.ran (.finished ()), s) => next s
  | ended => ended

/-- Runs that ended alike, the sessions being alike but for the numbers of nodes and for tokens that
    stand for each other. -/
inductive RanAlike (τ : TokenLikeness) : Verdict × Session → Verdict × Session → Prop
  | ran {o o' s s'}
      (h : Outcome.LikeWith (Session.likeness τ s s') (o, s.machine) (o', s'.machine)) :
      RanAlike τ (.ran o, s) (.ran o', s')

variable {τ τ' : TokenLikeness} {T : Token → Prop} {s : Session} {body tokens moved : List Token}
  {last : Token} {host : Host} {fuel : Nat}

theorem runTokens_eq (h : (s.analyzeTokens tokens .empty).1.report = .empty) :
    s.runTokens host fuel tokens =
      ((s.analyzeTokens tokens .empty).2.machine.interpret host fuel
        (s.analyzeTokens tokens .empty).1.statements).map fun (o, machine) =>
          (.ran o, { (s.analyzeTokens tokens .empty).2 with machine }) := by
  have haccepted : (s.analyzeTokens tokens .empty).1.report.hadError = false := by
    rw [h]
    rfl
  unfold runTokens Session.interpret
  simp only [haccepted, Bool.false_eq_true, if_false]
  cases Machine.interpret host fuel _ (s.analyzeTokens tokens .empty).2.machine with
  | none => rfl
  | some p => rfl

theorem RanAlike.withMachine {s' : Session} {o o' : Outcome Unit} {m m' : Machine}
    (h : Outcome.LikeWith (Session.likeness τ s s') (o, m) (o', m'))
    (hdepths : m.depths = s.machine.depths) (hdepths' : m'.depths = s'.machine.depths) :
    RanAlike τ (.ran o, { s with machine := m }) (.ran o', { s' with machine := m' }) := by
  constructor
  rw [Session.likeness_withMachine τ hdepths hdepths']
  exact h

/-- A program is run in one session, and statements like its own on a machine of another. -/
theorem rel_runTokens {t both : Session} {frames : List Bool} {m' : Machine} {ss' : List Stmt}
    (hm : Machine.Like (Session.likeness τ' (t.analyzeTokens tokens .empty).2 both) frames []
      (t.analyzeTokens tokens .empty).2.machine m')
    (hdepths' : m'.depths = both.machine.depths)
    (haccepted : (t.analyzeTokens tokens .empty).1.report = .empty)
    (hlike : Node.Like (Session.likeness τ' (t.analyzeTokens tokens .empty).2 both) []
      (.stmts (t.analyzeTokens tokens .empty).1.statements) (.stmts ss')) :
    Option.Rel (RanAlike τ') (t.runTokens host fuel tokens)
      ((m'.interpret host fuel ss').map fun (o, machine) => (.ran o, { both with machine })) := by
  rw [runTokens_eq haccepted]
  refine rel_map ?_ (hm.interpret_fixed host fuel hlike)
  rintro ⟨o, m₁⟩ ⟨o', m₁'⟩ ⟨hended, hfixed, hfixed'⟩
  exact .withMachine hended (Prod.mk.inj hfixed).1 ((Prod.mk.inj hfixed').1.trans hdepths')

section Joined

variable (h : s.Joins T τ body last tokens moved) (hself : Session.Like T s s)
  (hblind : ∀ (i : Nat) native, s.machine.natives[i]? = some native →
    ∀ node, native.Blind (.plain τ' node))
  (hflush : s.machine.sink.flushFails = false) (hτ : τ.Ordered)
  (hsame : ∀ {t t'}, (TokenLikeness.same T).rel t t' → τ'.rel t t')
  (hrel : ∀ {t t'}, τ.rel t t' → τ'.rel t t')

include h hself hblind hτ hsame hrel

/-- The statements of both programs are like those of the first one, started on machines that are
    alike, and behind them like those of the second one. That one is read in the session which the
    first one leaves, and there the machines are alike again. -/
theorem Joins.like :
    let first := s.analyzeTokens (body ++ [last]) .empty
    let both := s.analyzeTokens (body ++ moved) .empty
    both.1.report = .empty ∧ ∃ ss ss', both.1.statements = ss ++ ss' ∧
      (∃ frames, Machine.Like (Session.likeness τ' first.2 both.2) frames [] first.2.machine
        both.2.machine) ∧
      Node.Like (Session.likeness τ' first.2 both.2) [] (.stmts first.1.statements) (.stmts ss) ∧
      ∀ {frames m m'}, Machine.Like (Session.likeness τ' first.2 both.2) frames [] m m' →
        m.fixed = first.2.machine.fixed → m'.fixed = both.2.machine.fixed →
        let second := ({ first.2 with machine := m } : Session).analyzeTokens tokens .empty
        second.1.report = .empty ∧
          Machine.Like (Session.likeness τ' second.2 both.2) frames [] second.2.machine m' ∧
          Node.Like (Session.likeness τ' second.2 both.2) [] (.stmts second.1.statements)
            (.stmts ss') := by
  intro first both
  obtain ⟨hboth, ss, ss', hss, hlike, hlike'⟩ := h.analyzeTokens hself.fresh hτ
  -- The machine is like itself, and so it is with the depths of either analysis.
  obtain ⟨frames, hm⟩ := hself.machine
  have hstart : Machine.Like (Session.likeness τ' first.2 both.2) frames [] first.2.machine
      both.2.machine := by
    refine hm.imp hsame (fun hnode => ?_) ?_ fun i native hi => hblind i native hi _
    · exact (SameDepth.analyzeTokens hnode _ _).analyzeTokens_right _ _
    · rintro id id' d ⟨⟨-, hd⟩, -, hd'⟩
      exact ⟨hd, hd'⟩
  refine ⟨hboth, ss, ss', hss, ⟨frames, hstart⟩, hlike.imp hsame id, ?_⟩
  intro frames m m' hm hfixed hfixed'
  obtain ⟨hdepths, hrest⟩ := Prod.mk.inj hfixed
  obtain ⟨hdepths', -⟩ := Prod.mk.inj hfixed'
  let t : Session := { first.2 with machine := m }
  have ht : t.Fresh := by
    intro i hi
    show m.depths[i]? = none
    rw [hdepths]
    exact hself.fresh.analyzeTokens (body ++ [last]) .empty i hi
  have hnatives : ∀ (i : Nat) native, m.natives[i]? = some native →
      ∀ node, native.Blind (.plain τ' node) := by
    intro i native hi
    rw [(Prod.mk.inj hrest).1] at hi
    exact hblind i native hi
  obtain ⟨haccepted, hlike'⟩ := hlike' t ht
  rw [← Session.likeness_withMachine τ' hdepths (rfl : both.2.machine.depths = _)] at hm
  refine ⟨haccepted, ?_, hlike'.imp hrel id⟩
  refine hm.imp id (fun hnode => SameDepth.analyzeTokens (s := t) hnode tokens .empty) ?_
    fun i native hi => hnatives i native hi _
  rintro id id' d ⟨⟨-, hd⟩, -, hd'⟩
  exact ⟨hd, (congrArg (·[id']?) hdepths').trans hd'⟩

include hflush

/-- **A program behind another runs as on its own,** if the other finishes. -/
theorem Joins.runTokens :
    Option.Rel (RanAlike τ')
      (andThen (·.runTokens host fuel tokens) (s.runTokens host fuel (body ++ [last])))
      (s.runTokens host fuel (body ++ moved)) := by
  obtain ⟨hboth, ss, ss', hss, ⟨frames, hm⟩, hlike, hsecond⟩ :=
    h.like hself hblind hτ hsame hrel
  rw [runTokens_eq h.first, runTokens_eq hboth, hss,
    Machine.interpret_append (m := (s.analyzeTokens (body ++ moved) .empty).2.machine) _ _ hflush]
  generalize s.analyzeTokens (body ++ [last]) .empty = first at *
  generalize s.analyzeTokens (body ++ moved) .empty = both at *
  refine rel_elim (hm.interpret_fixed host fuel hlike) .none fun p p' hended => ?_
  obtain ⟨hended, hfixed, hfixed'⟩ := hended
  have hdepths := (Prod.mk.inj hfixed).1
  have hdepths' := (Prod.mk.inj hfixed').1
  cases hended with
  | failed he hm => exact .some (.withMachine (.failed he hm) hdepths hdepths')
  | desync hd hm => exact .some (.withMachine (.desync hd hm) hdepths hdepths')
  | finished hm =>
    obtain ⟨haccepted, hm, hlike'⟩ := hsecond hm hfixed hfixed'
    exact rel_runTokens hm hdepths' haccepted hlike'

/-- So at some moment both programs have written what the first one has written at some moment or,
    if it finishes, the second one behind it. -/
theorem Joins.shows_iff (host : Host) (written : Sink) :
    let first := s.analyzeTokens (body ++ [last]) .empty
    let both := s.analyzeTokens (body ++ moved) .empty
    both.2.machine.Shows host false both.1.statements written ↔
      first.2.machine.Shows host false first.1.statements written ∨
        ∃ fuel s₁, s.runTokens host fuel (body ++ [last]) = some (.ran (.finished ()), s₁) ∧
          (s₁.analyzeTokens tokens .empty).1.report.hadError = false ∧
          (s₁.analyzeTokens tokens .empty).2.machine.Shows host false
            (s₁.analyzeTokens tokens .empty).1.statements written := by
  intro first both
  obtain ⟨hboth, ss, ss', hss, ⟨frames, hm⟩, hlike, hsecond⟩ :=
    h.like hself hblind hτ hsame hrel
  rw [hss, Machine.shows_append (m := both.2.machine) _ _ hflush,
    ← hm.shows_iff host false hlike written]
  refine or_congr Iff.rfl (exists_congr fun fuel => ?_)
  rw [runTokens_eq h.first]
  have hrun := hm.interpret_fixed host fuel hlike
  show _ ↔ ∃ s₁, (first.2.machine.interpret host fuel first.1.statements).map
    (fun (o, machine) => (Verdict.ran o, { first.2 with machine })) = _ ∧ _
  generalize first.2.machine.interpret host fuel first.1.statements = r at hrun ⊢
  generalize both.2.machine.interpret host fuel ss = r' at hrun ⊢
  cases hrun with
  | none => simp
  | @some p p' hended =>
    obtain ⟨o, m⟩ := p
    obtain ⟨o', m'⟩ := p'
    obtain ⟨hended, hfixed, hfixed'⟩ := hended
    cases hended with
    | failed | desync => simp
    | finished hm =>
      obtain ⟨haccepted, hm, hlike'⟩ := hsecond hm hfixed hfixed'
      have hshows := hm.shows_iff host false hlike' written
      constructor
      · rintro ⟨_, ⟨⟩, hwritten⟩
        exact ⟨_, rfl, congrArg Report.hadError haccepted, hshows.2 hwritten⟩
      · rintro ⟨_, ⟨⟩, -, hwritten⟩
        exact ⟨_, rfl, hshows.1 hwritten⟩

end Joined

end Session

/-! ### Sessions between requests -/

/-- A function of the host that looks neither at the numbers of the nodes in its arguments nor at
    their tokens. -/
def Native.IgnoresPlaces (native : Native) : Prop := ∀ τ node, native.Blind (.plain τ node)

/-- If a request defines a function of the host, that looks neither at numbers of nodes nor at
    tokens. -/
abbrev Request.IgnoresPlaces (r : Request) : Prop := r.DefinesOnly Native.IgnoresPlaces

namespace Session.After

variable {host : Host} {sink : Sink} {rs : List Request} {s : Session} {h : History}

/-- The functions of the host are the clock and those that requests define. -/
theorem natives {P : Native → Prop} (hs : Session.After host sink rs s h)
    (hclock : P ⟨"clock", 0, .clock⟩) (hrs : ∀ r ∈ rs, r.DefinesOnly P) :
    ∀ native ∈ s.machine.natives, P native := by
  induction hs with
  | new =>
    intro native hnative
    rw [Array.mem_singleton.1 hnative]
    exact hclock
  | @next rs s h r s' fuel hs hr ih =>
    obtain ⟨hbefore, hlast⟩ := List.forall_mem_append.1 hrs
    have hsame (heq : s'.machine.natives = s.machine.natives) :
        ∀ native ∈ s'.takeOutput.2.machine.natives, P native := by
      intro native hnative
      have hnative : native ∈ s'.machine.natives := hnative
      rw [heq] at hnative
      exact ih hbefore native hnative
    -- What runs does so on a machine with the functions of the session.
    have hjob {job : Job} (hj : r.job? s = some job) : job.machine.natives = s.machine.natives := by
      obtain ⟨source, -, -, hm | ⟨-, hm⟩⟩ := Request.job_cases hj
      · rw [hm]
        rfl
      · rw [hm]
    obtain ⟨job, _, source, hj, -⟩ | ⟨source, -, -, -, rfl⟩ | ⟨n, rfl, -, rfl⟩ :=
      Request.perform_cases hr
    · exact hsame ((congrArg (·.2.1) (Request.fixed_perform hr hj)).trans (hjob hj))
    · exact hsame rfl
    · intro native hnative
      have hnative : native ∈ s.machine.natives.push n := hnative
      obtain hnative | rfl := Array.mem_push.1 hnative
      · exact ih hbefore native hnative
      · exact hlast _ (List.mem_singleton_self _)

/-- A session is like itself, since a new one is and all requests keep that. -/
theorem like {T : Token → Prop} (hs : Session.After host sink rs s h)
    (hT : ∀ r ∈ rs, ∀ t ∈ r.tokens, T t) (hrs : ∀ r ∈ rs, r.IgnoresNumbers) :
    Session.Like T s s := by
  induction hs with
  | new => exact Session.like_new T sink
  | @next rs s h r s' fuel hs hr ih =>
    obtain ⟨hT, hT'⟩ := List.forall_mem_append.1 hT
    obtain ⟨hrs, hr'⟩ := List.forall_mem_append.1 hrs
    have hrespond := (ih hT hrs).respond host fuel (hT' r (List.mem_singleton_self r))
      (hr' r (List.mem_singleton_self r))
    rw [Request.perform_eq_respond] at hr
    obtain ⟨⟨answer, s₁⟩, hanswer, heq⟩ := Option.map_eq_some_iff.1 hr
    obtain ⟨hgoesOn, rfl⟩ := Prod.mk.inj heq
    rw [hanswer] at hrespond
    cases hrespond with
    | some hagrees => exact (hagrees.session hgoesOn).takeOutput

end Session.After

namespace Session

variable {host : Host} {fuel : Nat} {s : Session} {source source' : String}

/-- A source without lexical errors is analysed and run as a token list. -/
theorem analyze_eq_analyzeTokens (h : Error.ofSource source = []) :
    s.analyze source = s.analyzeTokens (Token.ofSource source) .empty := by
  have hlexical : lexicalReport source = .empty := by
    unfold lexicalReport
    rw [h]
    rfl
  exact congrArg (s.analyzeTokens (Token.ofSource source)) hlexical

theorem run_eq_runTokens (h : Error.ofSource source = []) :
    s.run host fuel source = s.runTokens host fuel (Token.ofSource source) := by
  unfold run runTokens
  rw [analyze_eq_analyzeTokens h]
  simp only
  split
  · rfl
  · cases (s.analyzeTokens (Token.ofSource source) .empty).2.interpret host fuel _ with
    | none => rfl
    | some p => rfl

/-- What is accepted has no lexical errors. -/
theorem ofSource_eq_nil (h : (s.analyze source).1.report.hadError = false) :
    Error.ofSource source = [] ∧
      (s.analyzeTokens (Token.ofSource source) .empty).1.report = .empty := by
  have hempty : (s.analyze source).1.report = .empty :=
    Report.eq_empty (Array.isEmpty_iff_size_eq_zero.1 ((Bool.not_eq_false' _).mp h))
  have herrors : Error.ofSource source = [] :=
    congrArg (·.errors.toList) (report_parseTokens_eq hempty).1
  exact ⟨herrors, analyze_eq_analyzeTokens herrors ▸ hempty⟩

/-- To run a source shows what its statements show, if it is accepted, and else nothing. -/
theorem shows_run_iff {written : Sink} :
    (Request.run source).Shows host s written ↔ (s.analyze source).1.report.hadError = false ∧
      (s.analyze source).2.machine.Shows host false (s.analyze source).1.statements written := by
  unfold Request.Shows Request.job?
  cases h : (s.analyze source).1.report.hadError <;> simp [h]

section Lines

variable {T : Token → Prop} {τ : TokenLikeness} (τ' : TokenLikeness) {tokens : List Token}
  (hself : Session.Like T s s)
  (hblind : ∀ (i : Nat) native, s.machine.natives[i]? = some native → native.IgnoresPlaces)
  (hflush : s.machine.sink.flushFails = false) (hτ : τ.Ordered)
  (hsame : ∀ {t t'}, (TokenLikeness.same T).rel t t' → τ'.rel t t')
  (hrel : ∀ {t t'}, τ.rel t t' → τ'.rel t t')
  (haccepted : (s.analyze source).1.report.hadError = false)
  (haccepted' : (s.analyze source').1.report.hadError = false)
  (hT : ∀ t ∈ Token.ofSource source, T t) (hends : tokens.any (·.isEof) = true)
  (hmoved : List.Forall₂ τ.rel tokens
    ((Token.ofSource source').map (Token.down (linesOf source))))
  (hsecond : (s.analyzeTokens tokens .empty).1.report = .empty)

include haccepted haccepted' hT hends hmoved hsecond

/-- The tokens of two sources that are accepted, with a line end between them, and a token list that
    stands for the second one. -/
theorem exists_joins :
    ∃ body last, Token.ofSource source = body ++ [last] ∧
      Error.ofSource (joinLines source source') = [] ∧
      Token.ofSource (joinLines source source') =
        body ++ (Token.ofSource source').map (Token.down (linesOf source)) ∧
      s.Joins T τ body last tokens
        ((Token.ofSource source').map (Token.down (linesOf source))) := by
  obtain ⟨herrors, hfirst⟩ := ofSource_eq_nil haccepted
  obtain ⟨herrors', -⟩ := ofSource_eq_nil haccepted'
  obtain ⟨body, last, hsource, hbody, htokens⟩ :=
    Token.exists_ofSource_joinLines herrors source'
  rw [hsource] at hT hfirst
  exact ⟨body, ⟨.eof, "", last⟩, hsource, Error.ofSource_joinLines herrors herrors', htokens, hbody,
    rfl, hT, hends, hmoved, hfirst, hsecond⟩

include hself hblind hflush hτ hsame hrel

theorem run_joinLines (host : Host) (fuel : Nat) :
    (s.analyze (joinLines source source')).1.report.hadError = false ∧
      Option.Rel (RanAlike τ') (andThen (·.runTokens host fuel tokens) (s.run host fuel source))
        (s.run host fuel (joinLines source source')) := by
  obtain ⟨body, last, hsource, hjoined, htokens, hjoins⟩ :=
    exists_joins haccepted haccepted' hT hends hmoved hsecond
  rw [analyze_eq_analyzeTokens hjoined, run_eq_runTokens (ofSource_eq_nil haccepted).1,
    run_eq_runTokens hjoined, hsource, htokens]
  refine ⟨?_, hjoins.runTokens hself (fun i native hi => hblind i native hi τ') hflush hτ hsame
    hrel⟩
  rw [(hjoins.analyzeTokens hself.fresh hτ).1]
  rfl

theorem shows_joinLines (htokens : tokens = Token.ofSource source') (host : Host)
    (written : Sink) :
    (Request.run (joinLines source source')).Shows host s written ↔
      (Request.run source).Shows host s written ∨
        ∃ fuel s₁, s.run host fuel source = some (.ran (.finished ()), s₁) ∧
          (Request.run source').Shows host s₁ written := by
  obtain ⟨body, last, hsource, hjoined, hboth, hjoins⟩ :=
    exists_joins haccepted haccepted' hT hends hmoved hsecond
  have haccepts : (s.analyze (joinLines source source')).1.report.hadError = false :=
    (run_joinLines τ' hself hblind hflush hτ hsame hrel haccepted haccepted' hT hends hmoved
      hsecond host 0).1
  have herrors := (ofSource_eq_nil haccepted).1
  have herrors' := (ofSource_eq_nil haccepted').1
  subst htokens
  have hshows := hjoins.shows_iff hself (fun i native hi => hblind i native hi τ') hflush hτ hsame
    hrel host written
  simp only [← hsource, ← hboth, ← analyze_eq_analyzeTokens hjoined,
    ← analyze_eq_analyzeTokens herrors, ← analyze_eq_analyzeTokens herrors',
    ← run_eq_runTokens herrors] at hshows
  simpa only [shows_run_iff, haccepts, haccepted, true_and] using hshows

end Lines

end Session

/-- **Splitting a program between two sources does not change it.** Let two sources be accepted in a
    session whose output can be flushed and whose functions of the host look neither at numbers of
    nodes nor at tokens. Then the two with a line end between them are accepted, and they run like
    the first one and, if that finishes, the second one: with the same output, the same outcome, and
    globals that are alike with all that can be reached from them. Tokens of the second source stand
    `lines` lines further down, and all others are the same. Which tokens these are is told by a
    second comparison: if the tokens of the second source are moved down before they are read, then
    nothing differs but the numbers of nodes. Runs that do not end are told by what they have
    written at some moment: the two together what the first one has, or what the second one has
    behind it. -/
theorem Session.split_keeps_run {host : Host} {sink : Sink} {rs : List Request} {s : Session}
    {h : History} {source source' : String} (hs : Session.After host sink rs s h)
    (hnatives : ∀ r ∈ rs, r.IgnoresPlaces) (hflush : s.machine.sink.flushFails = false)
    (haccepted : (s.analyze source).1.report.hadError = false)
    (haccepted' : (s.analyze source').1.report.hadError = false) :
    let joined := source ++ "\n" ++ source'
    let lines := 1 + source.toList.count '\n'
    let earlier t := (∃ r ∈ rs, t ∈ r.tokens) ∨ t ∈ Token.ofSource source
    let later := Token.ofSource source'
    (s.analyze joined).1.report.hadError = false ∧ (∀ host fuel,
      Option.Rel (RanAlike (.or (.same earlier) (.down (· ∈ later) lines)))
        (andThen (·.run host fuel source') (s.run host fuel source)) (s.run host fuel joined) ∧
      Option.Rel (RanAlike (.same fun _ => True))
        (andThen (·.runTokens host fuel (later.map (Token.down lines))) (s.run host fuel source))
        (s.run host fuel joined)) ∧
    ∀ host written, (Request.run joined).Shows host s written ↔
      (Request.run source).Shows host s written ∨
        ∃ fuel s₁, s.run host fuel source = some (.ran (.finished ()), s₁) ∧
          (Request.run source').Shows host s₁ written := by
  intro joined lines earlier later
  obtain ⟨herrors', hsecond⟩ := ofSource_eq_nil haccepted'
  have hblind : ∀ (i : Nat) native, s.machine.natives[i]? = some native →
      native.IgnoresPlaces := by
    intro i native hi
    refine hs.natives (fun τ node f hf => ?_) hnatives native (Array.mem_of_getElem? hi)
    cases hf
  have hnumbers : ∀ r ∈ rs, r.IgnoresNumbers :=
    fun r hr => (hnatives r hr).imp fun n hn T node => hn _ node
  have hself : Session.Like earlier s s := hs.like (fun r hr t ht => .inl ⟨r, hr, ht⟩) hnumbers
  have hself' : Session.Like (fun _ => True) s s := hs.like (fun _ _ _ _ => trivial) hnumbers
  have hdown : List.Forall₂ (TokenLikeness.down (· ∈ later) lines).rel later
      (later.map (Token.down lines)) :=
    List.forall₂_map_right_iff.2 (List.forall₂_same.2 fun t ht => ⟨rfl, ht⟩)
  have hends := Token.any_isEof_ofSource source'
  have hends' : (later.map (Token.down lines)).any (·.isEof) = true := by
    rw [List.any_map]
    exact hends
  have hmoved := report_analyzeTokens_of_rel TokenLikeness.ordered_down hself.fresh hself.fresh
    hdown hends hsecond
  -- The second source as it is, and with its tokens moved down before they are read.
  have hsplit := run_joinLines (.or (.same earlier) (.down (· ∈ later) lines)) hself hblind hflush
    TokenLikeness.ordered_down .inl .inr haccepted haccepted' (fun t ht => .inr ht) hends hdown
    hsecond
  have hsplit' := run_joinLines (.same fun _ => True) hself' hblind hflush
    TokenLikeness.ordered_same id id haccepted haccepted' (fun _ _ => trivial) hends'
    (TokenLikeness.forall₂_same fun _ _ => trivial) hmoved
  refine ⟨(hsplit host 0).1, fun host fuel => ⟨?_, (hsplit' host fuel).2⟩, fun host written => ?_⟩
  · have hrun : (fun t : Session => t.run host fuel source') =
        fun t => t.runTokens host fuel later := funext fun t => run_eq_runTokens herrors'
    rw [hrun]
    exact (hsplit host fuel).2
  · exact shows_joinLines (.or (.same earlier) (.down (· ∈ later) lines)) hself hblind hflush
      TokenLikeness.ordered_down .inl .inr haccepted haccepted' (fun t ht => .inr ht) hends hdown
      hsecond rfl host written

theorem Native.ignoresPlaces_first : Native.first.IgnoresPlaces := by
  rintro τ node f ⟨⟩ frames _ _ (_ | ⟨h, _⟩)
  · exact .ok .nil
  · exact .ok h

/-- The run ended with an error at a token on the given line. -/
def Verdict.failsOn (line : Nat) : Verdict → Bool
  | .ran (.failed (.runtime t _)) => t.line == line
  | _ => false

/-- A function that calls one declared earlier. -/
def Session.firstPart : String :=
  "fun f(x) \x7b\n  print first(x);\n  return g(x);\n\x7d"

/-- Two calls of it, and a third one of what it returned, which fails. -/
def Session.secondPart : String := "f(true);\nf(nil)();"

/-- The failure on line 2 of the second source is one on line 6 of both together. -/
theorem Session.split_keeps_run_failsOn :
    let host := Host.usual fun _ => 0
    let rs := [.native .first, .run "fun g(x) \x7b return x; \x7d"]
    let earlier t := (∃ r ∈ rs, t ∈ r.tokens) ∨ t ∈ Token.ofSource Session.firstPart
    let later := Token.ofSource Session.secondPart
    let joined := Session.firstPart ++ "\n" ++ Session.secondPart
    ∃ s h, Session.After host Sink.unbounded rs s h ∧
      (s.analyze joined).1.report.hadError = false ∧
      ∃ p p',
        andThen (·.run host 100 Session.secondPart) (s.run host 100 Session.firstPart) = some p ∧
        s.run host 100 joined = some p' ∧
        (p.1.failsOn 2 && p.2.takeOutput.1 == "true\nnil\n") = true ∧ p'.1.failsOn 6 = true ∧
        RanAlike (.or (.same earlier) (.down (· ∈ later) 4)) p p' := by
  intro host rs earlier later joined
  have hnatives : ∀ r ∈ rs, r.IgnoresPlaces := by
    intro r hr
    obtain rfl | rfl : r = .native .first ∨
        r = .run "fun g(x) \x7b return x; \x7d" := by simpa [rs] using hr
    · exact Native.ignoresPlaces_first
    · trivial
  have hlines : 1 + Session.firstPart.toList.count '\n' = 4 := by decide +kernel
  have hreached :
      ((Request.native .first).perform host 10
        (Session.new Sink.unbounded)).any (fun r => r.1 &&
          ((Request.run "fun g(x) \x7b return x; \x7d").perform host 10 r.2.takeOutput.2).any
            (fun r => r.1 && !r.2.takeOutput.2.machine.sink.flushFails &&
              !(r.2.takeOutput.2.analyze Session.firstPart).1.report.hadError &&
              !(r.2.takeOutput.2.analyze Session.secondPart).1.report.hadError &&
              (andThen (·.run host 100 Session.secondPart)
                (r.2.takeOutput.2.run host 100 Session.firstPart)).any
                (fun p => p.1.failsOn 2 && p.2.takeOutput.1 == "true\nnil\n") &&
              (r.2.takeOutput.2.run host 100 joined).any (·.1.failsOn 6))) = true := by
    decide +kernel
  obtain ⟨⟨goesOn, s₁⟩, hdefine, hreached⟩ := (Option.any_eq_true _ _).1 hreached
  obtain ⟨rfl, hreached⟩ := Bool.and_eq_true_iff.1 hreached
  obtain ⟨⟨goesOn, s⟩, hrun, hreached⟩ := (Option.any_eq_true _ _).1 hreached
  simp only [Bool.and_eq_true, Bool.not_eq_true'] at hreached
  obtain ⟨⟨⟨⟨⟨rfl, hflush⟩, haccepted⟩, haccepted'⟩, hsplit⟩, hjoined⟩ := hreached
  obtain ⟨p, hp, hsplit⟩ := (Option.any_eq_true _ _).1 hsplit
  obtain ⟨p', hp', hjoined⟩ := (Option.any_eq_true _ _).1 hjoined
  have hafter : Session.After host Sink.unbounded rs s.takeOutput.2 _ :=
    Session.After.next (Session.After.next .new hdefine) hrun
  obtain ⟨hbothAccepted, hboth⟩ :=
    Session.split_keeps_run hafter hnatives hflush haccepted haccepted'
  have halike := (hboth.1 host 100).1
  rw [hp, hp', hlines] at halike
  cases halike with
  | some halike =>
    refine ⟨s.takeOutput.2, _, hafter, hbothAccepted, p, p', hp, hp', ?_, hjoined, halike⟩
    simpa using hsplit

end Scriptlet
