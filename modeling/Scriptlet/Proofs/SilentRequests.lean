import Scriptlet.Program.Outline
import Scriptlet.Proofs.AlikeSessions
import Scriptlet.Proofs.Control

namespace Scriptlet

/-!
# Requests that leave no trace

A source that is rejected, or only analysed, records depths and takes up numbers of nodes. Nothing
of this can be seen afterwards.

* `Sight` — what can be seen of a value from outside of a session.
* `Request.respond` — a request as `Request.perform` does it, with all that is answered;
  `Session.serve` — a list of requests, with the answer to each and the text printed meanwhile.
* `Session.Like.serve` — sessions that differ in the numbers of nodes answer the same.
* `Session.silent_leaves_no_trace` — so all other answers are the same with and without a request
  that is rejected.
-/

/-! ### What is answered -/

/-- What can be seen of a value from outside: the number of a function, class or object, its
    environment and its code cannot. -/
inductive Sight where
  | nil
  | bool (b : Bool)
  | number (x : Float)
  | string (s : String)
  /-- The name of a function of the host, and how many arguments it takes. -/
  | native (native? : Option (String × Nat))
  | function (name? : Option String) (arity : Nat) (isInitializer : Bool)
  | classObj (name : String) (arity : Nat)
  /-- The name of the class, and those of the fields. -/
  | object (name : String) (fields : List String)

def Value.sight (m : Machine) : Value → Sight
  | .nil => .nil
  | .bool b => .bool b
  | .number x => .number x
  | .string s => .string s
  | .native index => .native (m.natives[index]?.map fun native => (native.name, native.arity))
  | .function _ f => .function f.name? f.arity f.isInitializer
  | .classObj _ k => .classObj k.name k.arity
  | .object id k => .object k.name (m.store.fields id).keys

/-- What can be seen of how a statement on its own ended. -/
inductive ResultSight where
  | value (v : Sight)
  | normal
  | returned (v : Sight)
  | failed (e : Error)

def Result.sight (m : Machine) : Result → ResultSight
  | .value v => .value (v.sight m)
  | .flow .normal => .normal
  | .flow (.returned v) => .returned (v.sight m)
  | .failed e => .failed e

/-- What can be seen of the results of statements that were run on their own. -/
def Session.sights (rs : Except Desync (List (Result × Machine))) :
    Except Desync (List ResultSight) :=
  rs.map fun rs => rs.map fun (r, m) => r.sight m

/-- The answer to a request. -/
inductive Answer where
  /-- A source was run unless something is wrong with it. -/
  | verdict (v : Verdict)
  /-- A source was run whatever is wrong with it. -/
  | forced (report : Report) (outcome : Outcome Unit)
  /-- The statements of a source were run on their own. -/
  | listed (report : Report) (results : Except Desync (List ResultSight))
  /-- A source was resolved; each statement is shown with the depths of its nodes. -/
  | analyzed (report : Report) (statements : List String)
  | defined

/-- Nothing can be run after a variable was not where its depth says. -/
def Answer.goesOn : Answer → Bool
  | .verdict (.ran o) | .forced _ o => !o.isDesync
  | .listed _ rs => rs.isOk
  | _ => true

/-- Do what is asked, and answer. -/
def Request.respond (host : Host) (fuel : Nat) (s : Session) : Request → Option (Answer × Session)
  | .run source => (s.run host fuel source).map fun (v, s) => (.verdict v, s)
  | .force source =>
    let (a, s) := s.analyze source
    (s.interpret host fuel a.statements).map fun (o, s) => (.forced a.report o, s)
  | .exec source =>
    let (a, s) := s.analyze source
    (Session.results host fuel a.statements s.machine).map fun (rs, machine) =>
      (.listed a.report (Session.sights rs), { s with machine })
  | .unresolved source =>
    let (a, s) := s.parse source
    (s.interpret host fuel a.statements).map fun (o, s) => (.forced a.report o, s)
  | .analyze source =>
    let (a, s) := s.analyze source
    some (.analyzed a.report (Outline.stmts (.depth (s.machine.depths[·]?)) a.statements), s)
  | .native n => some (.defined, s.defineNative n)

theorem Request.respond_run (host : Host) (fuel : Nat) (s : Session) (source : String) :
    (Request.run source).respond host fuel s =
      if (s.analyze source).1.report.hadError then
        some (.verdict (.rejected (s.analyze source).1.report), (s.analyze source).2)
      else
        ((s.analyze source).2.interpret host fuel (s.analyze source).1.statements).map
          fun (o, s) => (.verdict (.ran o), s) := by
  unfold respond Session.run
  simp only
  split
  · rfl
  · cases (s.analyze source).2.interpret host fuel (s.analyze source).1.statements <;> rfl

/-- To answer a request is to perform it. -/
theorem Request.perform_eq_respond (host : Host) (fuel : Nat) (s : Session) (r : Request) :
    r.perform host fuel s = (r.respond host fuel s).map fun (answer, s) => (answer.goesOn, s) := by
  cases r with
  | run source =>
    simp only [perform, respond]
    cases s.run host fuel source with
    | none => rfl
    | some ended =>
      obtain ⟨_ | _, _⟩ := ended <;> rfl
  | force source | unresolved source =>
    simp only [perform, respond, Option.map_map]
    rfl
  | exec source =>
    simp only [perform, respond]
    cases Session.results host fuel (s.analyze source).1.statements
        (s.analyze source).2.machine with
    | none => rfl
    | some ended =>
      obtain ⟨_ | _, _⟩ := ended <;> rfl
  | analyze | native => rfl

/-- The answer to a request, and the text printed meanwhile. -/
structure Reply where
  answer : Answer
  output : String

/-- Answer one request after the other. The list of replies ends where a request does not end with
    the steps allowed, or where nothing can be run any more; else there is a session behind it. -/
def Session.serve (host : Host) (fuel : Nat) :
    List Request → Session → List (Option Reply) × Option Session
  | [], s => ([], some s)
  | r :: rs, s =>
    match r.respond host fuel s with
    | none => ([none], none)
    | some (answer, s) =>
      let (output, s) := s.takeOutput
      if answer.goesOn then
        let (replies, last) := serve host fuel rs s
        (some ⟨answer, output⟩ :: replies, last)
      else ([some ⟨answer, output⟩], none)

/-! ### Texts and sights that are the same -/

/-- The texts of a part of a tree. -/
def Outline.texts (mark : Mark) : Node → List String
  | .expr e => [expr mark e]
  | .exprs es => exprs mark es
  | .stmt s => [stmt mark s]
  | .stmts ss => stmts mark ss
  | .function _ decl => [function mark decl]
  | .functions decls => functions mark decls

section Sights

variable {T : Token → Prop} {node : NodeId → NodeId → Option Nat → Prop}

/-- The same tokens, with the same marks behind nodes that stand for each other. -/
theorem Node.Like.texts_eq {mark mark' : Outline.Mark}
    (hmark : ∀ {id id' d}, node id id' d → mark' id' = mark id) {around : List Bool} {n n' : Node}
    (h : Node.Like (.plain (.same T) node) around n n') :
    Outline.texts mark' n' = Outline.texts mark n := by
  have hrefers {around : List Bool} {id id' : NodeId} {t t' : Token}
      (h : (Likeness.plain (.same T) node).Refers around id id' t t') :
      t' = t ∧ mark' id' = mark id := by
    refine ⟨h.rel.1, ?_⟩
    cases h with
    | bound h => exact hmark h
    | free h => exact hmark h
  have hnames {marked : Bool} {t t' : Token}
      (h : (Likeness.plain (.same T) node).Names marked t t') : t' = t :=
    (Likeness.names_plain_iff.1 h).1
  induction h with
  | literal | noExprs | noStmts | noFunctions => rfl
  | read h | thisRef h =>
    obtain ⟨rfl, hid⟩ := hrefers h
    simp only [Outline.texts, Outline.expr, hid]
  | assign h _ ihe =>
    obtain ⟨rfl, hid⟩ := hrefers h
    simp only [Outline.texts, Outline.expr, List.cons.injEq, and_true] at ihe ⊢
    rw [hid, ihe]
  | group _ ihe | lambda _ ihe =>
    simp only [Outline.texts, Outline.expr, List.cons.injEq, and_true] at ihe ⊢
    rw [ihe]
  | unary ht _ ihe | get ht _ ihe =>
    cases ht.1
    simp only [Outline.texts, Outline.expr, List.cons.injEq, and_true] at ihe ⊢
    rw [ihe]
  | binary ht _ _ iha ihb | logical ht _ _ iha ihb | set ht _ _ iha ihb | call ht _ _ iha ihb =>
    cases ht.1
    simp only [Outline.texts, Outline.expr, List.cons.injEq, and_true] at iha ihb ⊢
    rw [iha, ihb]
  | conditional ht _ _ _ ihc iha ihb =>
    cases ht.1
    simp only [Outline.texts, Outline.expr, List.cons.injEq, and_true] at ihc iha ihb ⊢
    rw [ihc, iha, ihb]
  | exprs _ _ ihe ihes =>
    simp only [Outline.texts, Outline.exprs, List.cons.injEq, and_true] at ihe ihes ⊢
    exact ⟨ihe, ihes⟩
  | expr _ ihe | print _ ihe | block _ _ ihe | funDecl _ _ ihe =>
    simp only [Outline.texts, Outline.stmt, List.cons.injEq, and_true] at ihe ⊢
    rw [ihe]
  | varDecl hname =>
    cases hnames hname
    rfl
  | varInit hname _ ihe =>
    cases hnames hname
    simp only [Outline.texts, Outline.stmt, List.cons.injEq, and_true] at ihe ⊢
    rw [ihe]
  | ifThen _ _ ihc iha | whileLoop _ _ ihc iha =>
    simp only [Outline.texts, Outline.stmt, List.cons.injEq, and_true] at ihc iha ⊢
    rw [ihc, iha]
  | ifElse _ _ _ ihc iha ihb =>
    simp only [Outline.texts, Outline.stmt, List.cons.injEq, and_true] at ihc iha ihb ⊢
    rw [ihc, iha, ihb]
  | ret ht =>
    cases ht.1
    rfl
  | retValue ht _ ihe | classDecl ht _ _ ihe =>
    cases ht.1
    simp only [Outline.texts, Outline.stmt, List.cons.injEq, and_true] at ihe ⊢
    rw [ihe]
  | stmts _ _ ihs ihss =>
    simp only [Outline.texts, Outline.stmts, List.cons.injEq, and_true] at ihs ihss ⊢
    exact ⟨ihs, ihss⟩
  | @function _ _ decl decl' marked hname hparams _ ihbody =>
    obtain ⟨name?, params, body⟩ := decl
    obtain ⟨name?', params', body'⟩ := decl'
    have hparams' : params = params' :=
      List.forall₂_eq_eq_eq ▸ hparams.imp fun _ _ h => (hnames h).symm
    have hname' : name?' = name? := by
      have hname : Option.Rel (TokenLikeness.same T).rel name? name?' := hname
      cases hname with
      | some ht => rw [ht.1]
      | none => rfl
    have hbody : Outline.stmts mark' body' = Outline.stmts mark body := ihbody
    subst hparams' hname'
    simp only [Outline.texts, Outline.function]
    rw [hbody]
  | functions _ _ ihf ihfs =>
    simp only [Outline.texts, Outline.functions, List.cons.injEq, and_true] at ihf ihfs ⊢
    exact ⟨ihf, ihfs⟩

variable {c : Likeness} {frames around : List Bool} {m m' : Machine}

/-- Values that are alike cannot be told apart from outside. -/
theorem Value.Like.sight_eq {v v' : Value} (h : Value.Like c frames v v')
    (hm : Machine.Like c frames around m m') : v'.sight m' = v.sight m := by
  cases h with
  | nil | bool | number | string => rfl
  | native index =>
    unfold Value.sight
    rw [hm.natives]
  | function h =>
    have hname : ∀ {f f' : Closure}, Closure.Like c frames f f' → f'.name? = f.name? := by
      intro f f' h
      obtain ⟨_, -, hcode⟩ := h.code
      exact hcode.label?_eq
    unfold Value.sight
    simp only
    rw [hname h, h.arity_eq, h.isInitializer]
  | classObj h =>
    unfold Value.sight
    simp only
    rw [h.name, h.arity_eq]
  | @object id k k' h =>
    unfold Value.sight
    simp only
    rw [h.name, keys_eq_of_rel (hm.store.fields id)]

end Sights

/-! ### Answers that are the same -/

section Answers

variable {T : Token → Prop} {node : NodeId → NodeId → Option Nat → Prop} {s s' : Session}

theorem Result.Like.sight_eq {frames around : List Bool} {m m' : Machine} {r r' : Result}
    (h : Result.Like (.plain (.same T) node) frames r r')
    (hm : Machine.Like (.plain (.same T) node) frames around m m') :
    r'.sight m' = r.sight m := by
  cases h with
  | value hv => exact congrArg ResultSight.value (hv.sight_eq hm)
  | flow hf =>
    cases hf with
    | normal => rfl
    | returned hv => exact congrArg ResultSight.returned (hv.sight_eq hm)
  | failed he =>
    rw [he.eq_of_same]
    rfl

/-- The same is answered, and the sessions behind it have printed the same; if they go on, they are
    alike. -/
structure Session.Agrees (T : Token → Prop) {α : Type} (goesOn : α → Bool) (p p' : α × Session) :
    Prop where
  answer : p'.1 = p.1
  sink : p'.2.machine.sink = p.2.machine.sink
  session : goesOn p.1 = true → Session.Like T p.2 p'.2

theorem Session.Agrees.map {α β : Type} {goesOn : α → Bool} {goesOn' : β → Bool}
    {p p' : α × Session} (h : Session.Agrees T goesOn p p') (f : α → β)
    (hf : ∀ a, goesOn' (f a) = goesOn a) :
    Session.Agrees T goesOn' (f p.1, p.2) (f p'.1, p'.2) :=
  ⟨congrArg f h.answer, h.sink, fun hgoesOn => h.session ((hf p.1).symm.trans hgoesOn)⟩

namespace Session.Like

theorem sink_eq (h : Session.Like T s s') : s'.machine.sink = s.machine.sink := by
  obtain ⟨frames, hm⟩ := h.machine
  exact hm.sink

/-- Behind a run the sessions are alike again. -/
theorem withMachine (h : Session.Like T s s') {frames : List Bool} {m m' : Machine}
    (hm : Machine.Like (Session.likeness (.same T) s s') frames [] m m')
    (hfixed : m.fixed = s.machine.fixed) (hfixed' : m'.fixed = s'.machine.fixed) :
    Session.Like T { s with machine := m } { s' with machine := m' } := by
  obtain ⟨hdepths, hrest⟩ := Prod.mk.inj hfixed
  obtain ⟨hnatives, -⟩ := Prod.mk.inj hrest
  obtain ⟨hdepths', -⟩ := Prod.mk.inj hfixed'
  refine ⟨⟨frames, ?_⟩, ?_, ?_, ?_⟩
  · rw [Session.likeness_withMachine _ hdepths hdepths']
    exact hm
  · simp only [hnatives]
    exact h.natives
  · simp only [Session.Fresh, hdepths]
    exact h.fresh
  · simp only [Session.Fresh, hdepths']
    exact h.fresh'

/-- Statements that are alike are run with the same outcome. -/
theorem interpret (h : Session.Like T s s') (host : Host) (fuel : Nat) {ss ss' : List Stmt}
    (hss : Node.Like (Session.likeness (.same T) s s') [] (.stmts ss) (.stmts ss')) :
    Option.Rel (Session.Agrees T fun o => !o.isDesync) (s.interpret host fuel ss)
      (s'.interpret host fuel ss') := by
  obtain ⟨frames, hm⟩ := h.machine
  unfold Session.interpret
  refine rel_elim (hm.interpret_fixed host fuel hss) .none fun p p' hend => .some ?_
  obtain ⟨hend, hfixed, hfixed'⟩ := hend
  cases hend with
  | finished hm => exact ⟨rfl, hm.sink, fun _ => h.withMachine hm hfixed hfixed'⟩
  | failed he hm =>
    cases he.eq_of_same
    exact ⟨rfl, hm.sink, fun _ => h.withMachine hm hfixed hfixed'⟩
  | desync hd hm =>
    cases hd.eq_of_plain
    exact ⟨rfl, hm.sink, fun hgoesOn => by cases hgoesOn⟩

/-- Statements that are alike have the same results on their own. -/
theorem results (h : Session.Like T s s') (host : Host) (fuel : Nat) {ss ss' : List Stmt}
    (hss : Node.Like (Session.likeness (.same T) s s') [] (.stmts ss) (.stmts ss')) :
    Option.Rel (fun p p' => Session.Agrees T Except.isOk
        (Session.sights p.1, { s with machine := p.2 })
        (Session.sights p'.1, { s' with machine := p'.2 }))
      (Session.results host fuel ss s.machine) (Session.results host fuel ss' s'.machine) := by
  obtain ⟨frames, hm⟩ := h.machine
  refine rel_imp (fun hrun => ?_) (rel_attach (hm.results host fuel hss))
  obtain ⟨hend, hr, hr'⟩ := hrun
  have hfixed := Session.fixed_results hr
  have hfixed' := Session.fixed_results hr'
  cases hend with
  | ok hrs hm =>
    refine ⟨congrArg Except.ok ?_, hm.sink, fun _ => h.withMachine hm hfixed hfixed'⟩
    clear hfixed hfixed' hr hr'
    induction hrs with
    | nil => rfl
    | cons hp _ ih =>
      obtain ⟨_, hresult, hmachine⟩ := hp
      exact congrArg₂ List.cons (hresult.sight_eq hmachine) ih
  | error hd hm =>
    cases hd.eq_of_plain
    exact ⟨rfl, hm.sink, fun hgoesOn => by cases hgoesOn⟩

/-- One more function of the host. -/
theorem defineNative (h : Session.Like T s s') {native : Native}
    (hnative : native.IgnoresNumbers) :
    Session.Like T (s.defineNative native) (s'.defineNative native) := by
  obtain ⟨frames, hm⟩ := h.machine
  have hnatives : ∀ (i : Nat) n, (s.machine.natives.push native)[i]? = some n →
      n.IgnoresNumbers := by
    intro i n hn
    rw [Array.getElem?_push] at hn
    split at hn
    · cases hn
      exact hnative
    · exact h.natives i n hn
  have hdefined := hm.defineIn hm.store.globals (.native s.machine.natives.size) native.name
  rw [Likeness.name_false] at hdefined
  refine ⟨⟨frames, ?_⟩, hnatives, h.fresh, h.fresh'⟩
  unfold Session.defineNative Machine.defineNative
  rw [hm.natives]
  exact { hdefined with
    natives := rfl
    blind := fun i n hn => hnatives i n hn T _ }

theorem takeOutput (h : Session.Like T s s') :
    Session.Like T s.takeOutput.2 s'.takeOutput.2 := by
  obtain ⟨frames, hm⟩ := h.machine
  exact ⟨⟨frames, { hm with sink := congrArg Sink.drain hm.sink }⟩, h.natives, h.fresh, h.fresh'⟩

end Session.Like

/-- The tokens of the source of a request. -/
def Request.tokens : Request → List Token
  | .run source | .force source | .exec source | .unresolved source | .analyze source =>
    Token.ofSource source
  | .native _ => []

/-- If a request defines a function of the host, that does not look at the numbers of nodes. -/
abbrev Request.IgnoresNumbers (r : Request) : Prop := r.DefinesOnly Native.IgnoresNumbers

/-- **Sessions that differ in the numbers of nodes answer the same.** -/
theorem Session.Like.respond (h : Session.Like T s s') (host : Host) (fuel : Nat) {r : Request}
    (hT : ∀ t ∈ r.tokens, T t) (hnative : r.IgnoresNumbers) :
    Option.Rel (Session.Agrees T Answer.goesOn) (r.respond host fuel s)
      (r.respond host fuel s') := by
  cases r with
  | run source =>
    obtain ⟨hlike, hs⟩ := h.analyze hT
    rw [Request.respond_run, Request.respond_run, Session.report_analyze_eq h.fresh h.fresh']
    split
    · exact .some ⟨rfl, hs.sink_eq, fun _ => hs⟩
    · exact rel_map (fun hend => hend.map (Answer.verdict ∘ Verdict.ran) fun _ => rfl)
        (hs.interpret host fuel hlike)
  | force source =>
    obtain ⟨hlike, hs⟩ := h.analyze hT
    unfold Request.respond
    simp only
    rw [Session.report_analyze_eq h.fresh h.fresh']
    exact rel_map (fun hend => hend.map (Answer.forced _) fun _ => rfl)
      (hs.interpret host fuel hlike)
  | exec source =>
    obtain ⟨hlike, hs⟩ := h.analyze hT
    unfold Request.respond
    simp only
    rw [Session.report_analyze_eq h.fresh h.fresh']
    exact rel_map (fun hend => hend.map (Answer.listed _) fun _ => rfl)
      (hs.results host fuel hlike)
  | unresolved source =>
    obtain ⟨hlike, hs⟩ := h.parse hT
    unfold Request.respond
    simp only
    rw [Session.report_parse_eq s s']
    exact rel_map (fun hend => hend.map (Answer.forced _) fun _ => rfl)
      (hs.interpret host fuel hlike)
  | analyze source =>
    obtain ⟨hlike, hs⟩ := h.analyze hT
    have htexts : Outline.stmts (.depth ((s'.analyze source).2.machine.depths[·]?))
          (s'.analyze source).1.statements =
        Outline.stmts (.depth ((s.analyze source).2.machine.depths[·]?))
          (s.analyze source).1.statements := by
      -- The nodes differ in their numbers, but not in the depths recorded for these.
      refine hlike.texts_eq fun hnode => ?_
      obtain ⟨⟨-, hd⟩, -, hd'⟩ := hnode
      simp only [Outline.Mark.depth, hd, hd']
    refine .some ⟨?_, hs.sink_eq, fun _ => hs⟩
    exact congrArg₂ Answer.analyzed (Session.report_analyze_eq h.fresh h.fresh' source) htexts
  | native n =>
    have hs := h.defineNative hnative
    exact .some ⟨rfl, hs.sink_eq, fun _ => hs⟩

theorem Session.Like.serve (h : Session.Like T s s') (host : Host) (fuel : Nat)
    {rs : List Request} (hT : ∀ r ∈ rs, ∀ t ∈ r.tokens, T t) (hrs : ∀ r ∈ rs, r.IgnoresNumbers) :
    (s'.serve host fuel rs).1 = (s.serve host fuel rs).1 ∧
      Option.Rel (Session.Like T) (s.serve host fuel rs).2 (s'.serve host fuel rs).2 := by
  induction rs generalizing s s' with
  | nil => exact ⟨rfl, .some h⟩
  | cons r rs ih =>
    obtain ⟨hTr, hTrs⟩ := List.forall_mem_cons.1 hT
    obtain ⟨hr, hrs⟩ := List.forall_mem_cons.1 hrs
    have hfirst := h.respond host fuel hTr hr
    unfold Session.serve
    generalize r.respond host fuel s = x at hfirst ⊢
    generalize r.respond host fuel s' = x' at hfirst ⊢
    cases hfirst with
    | none => exact ⟨rfl, .none⟩
    | @some p p' hend =>
      obtain ⟨answer, s₁⟩ := p
      obtain ⟨answer', s₁'⟩ := p'
      obtain ⟨hanswer, hsink, hsession⟩ := hend
      cases hanswer
      have houtput : s₁'.takeOutput.1 = s₁.takeOutput.1 := congrArg Sink.text hsink
      simp only [houtput]
      split
      · next hgoesOn =>
        obtain ⟨hreplies, hlast⟩ := ih (hsession hgoesOn).takeOutput hTrs hrs
        exact ⟨congrArg (List.cons _) hreplies, hlast⟩
      · exact ⟨rfl, .none⟩

/-- In sessions that are alike, a request runs nothing, or statements that are alike on machines
    that are alike. -/
theorem Session.Like.job? (h : Session.Like T s s') {r : Request} (hT : ∀ t ∈ r.tokens, T t) :
    Option.Rel (fun job job' => job'.alone = job.alone ∧ ∃ c frames,
        Node.Like c [] (.stmts job.statements) (.stmts job'.statements) ∧
        Machine.Like c frames [] job.machine job'.machine) (r.job? s) (r.job? s') := by
  cases r with
  | run source =>
    obtain ⟨hlike, hs⟩ := h.analyze hT
    obtain ⟨frames, hm⟩ := hs.machine
    unfold Request.job?
    simp only
    rw [Session.report_analyze_eq h.fresh h.fresh']
    split
    · exact .none
    · exact .some ⟨rfl, _, frames, hlike, hm⟩
  | force source | exec source =>
    obtain ⟨hlike, hs⟩ := h.analyze hT
    obtain ⟨frames, hm⟩ := hs.machine
    exact .some ⟨rfl, _, frames, hlike, hm⟩
  | unresolved source =>
    obtain ⟨hlike, hs⟩ := h.parse hT
    obtain ⟨frames, hm⟩ := hs.machine
    exact .some ⟨rfl, _, frames, hlike, hm⟩
  | analyze | native => exact .none

/-- So while a request is performed, also one that does not end, the same is written in both. -/
theorem Session.Like.shows_iff (h : Session.Like T s s') (host : Host) {r : Request}
    (hT : ∀ t ∈ r.tokens, T t) (sink : Sink) : r.Shows host s sink ↔ r.Shows host s' sink := by
  have hjob := h.job? hT
  unfold Request.Shows
  generalize r.job? s = job at hjob ⊢
  generalize r.job? s' = job' at hjob ⊢
  cases hjob with
  | none => simp
  | some hjob =>
    obtain ⟨halone, c, frames, hss, hm⟩ := hjob
    simpa [halone] using hm.shows_iff host _ hss sink

end Answers

/-! ### Requests that leave no trace -/

/-- A request that reads a source and does not run it: it rejects the source, or only analyses
    it. -/
inductive Request.SilentIn (s : Session) : Request → Prop
  | rejected {source : String} (h : (s.analyze source).1.report.hadError = true) :
      SilentIn s (.run source)
  | analyzed (source : String) : SilentIn s (.analyze source)

section Silent

variable {host : Host} {fuel : Nat} {s : Session} {T : Token → Prop}

variable {s' : Session} {rs : List Request}

/-- Such a request leaves nothing behind but the recorded depths and the numbers given out. -/
theorem Request.SilentIn.respond {x : Request} (h : x.SilentIn s) :
    ∃ answer source, x.respond host fuel s = some (answer, (s.analyze source).2) ∧
      answer.goesOn = true := by
  cases h with
  | @rejected source h =>
    rw [Request.respond_run, if_pos h]
    exact ⟨_, source, rfl, rfl⟩
  | analyzed source => exact ⟨_, source, rfl, rfl⟩

/-- A session is like one that has read a source. -/
theorem Session.Like.analyze_right (h : Session.Like T s s') (source : String) :
    Session.Like T s (s'.analyze source).2 := by
  obtain ⟨frames, hm⟩ := h.machine
  refine ⟨⟨frames, ?_⟩, h.natives, h.fresh, h.fresh'.analyzeTokens _ _⟩
  refine hm.imp id (fun hnode => Session.SameDepth.analyzeTokens_right hnode _ _) ?_
    fun i native hi => h.natives i native hi T _
  rintro id id' d ⟨⟨-, hd⟩, -, hd'⟩
  exact ⟨hd, hd'⟩

/-- A session from which all that was printed has been taken is like one from which it will be. -/
theorem Session.Like.takeOutput_right (h : Session.Like T s s')
    (hsink : s.machine.sink.drain = s.machine.sink) : Session.Like T s s'.takeOutput.2 := by
  obtain ⟨frames, hm⟩ := h.machine
  have hdrained : s'.machine.sink.drain = s.machine.sink := by rw [hm.sink, hsink]
  exact ⟨⟨frames, { hm with sink := hdrained }⟩, h.natives, h.fresh, h.fresh'⟩

/-- A new session is like itself. -/
theorem Session.like_new (T : Token → Prop) (sink : Sink) :
    Session.Like T (Session.new sink) (Session.new sink) := by
  have hclock : ∀ (i : Nat) native, (Machine.new sink).natives[i]? = some native →
      native.IgnoresNumbers := by
    intro i native hi T node f hf
    cases i with
    | succ i => cases hi
    | zero =>
      cases hi
      cases hf
  have hempty : (Session.new sink).Fresh := fun i _ => Std.TreeMap.getElem?_emptyc
  refine ⟨⟨[false], ?_⟩, hclock, hempty, hempty⟩
  refine Machine.like_new sink ∅ ?_
  rintro id id' d ⟨⟨-, hd⟩, -, hd'⟩
  exact ⟨hd, hd'⟩

theorem Session.serve_append (rs rs' : List Request) (s : Session) :
    s.serve host fuel (rs ++ rs') =
      match s.serve host fuel rs with
      | (replies, none) => (replies, none)
      | (replies, some s) => (replies ++ (s.serve host fuel rs').1, (s.serve host fuel rs').2) := by
  induction rs generalizing s with
  | nil => rfl
  | cons r rs ih =>
    rw [List.cons_append, Session.serve, Session.serve]
    cases r.respond host fuel s with
    | none => rfl
    | some p =>
      obtain ⟨answer, s₁⟩ := p
      simp only [ih]
      split
      · generalize Session.serve host fuel rs s₁.takeOutput.2 = served
        obtain ⟨replies, _ | last⟩ := served <;> rfl
      · rfl

theorem Session.serve_append_of_none (h : (s.serve host fuel rs).2 = none) (rs' : List Request) :
    s.serve host fuel (rs ++ rs') = s.serve host fuel rs := by
  rw [Session.serve_append]
  generalize s.serve host fuel rs = served at h ⊢
  obtain ⟨replies, last⟩ := served
  cases h
  rfl

theorem Session.serve_append_of_some (h : (s.serve host fuel rs).2 = some s') (rs' : List Request) :
    s.serve host fuel (rs ++ rs') =
      ((s.serve host fuel rs).1 ++ (s'.serve host fuel rs').1, (s'.serve host fuel rs').2) := by
  rw [Session.serve_append]
  generalize s.serve host fuel rs = served at h ⊢
  obtain ⟨replies, last⟩ := served
  cases h
  rfl

/-- Behind requests that were all answered there are as many replies, and all that was printed has
    been taken away. -/
theorem Session.serve_spec (h : (s.serve host fuel rs).2 = some s') :
    (s.serve host fuel rs).1.length = rs.length ∧
      (s.machine.sink.drain = s.machine.sink → s'.machine.sink.drain = s'.machine.sink) := by
  induction rs generalizing s with
  | nil =>
    cases h
    exact ⟨rfl, id⟩
  | cons r rs ih =>
    rw [Session.serve] at h ⊢
    cases hr : r.respond host fuel s with
    | none =>
      rw [hr] at h
      cases h
    | some p =>
      obtain ⟨answer, s₁⟩ := p
      rw [hr] at h
      simp only at h ⊢
      split at h
      · next hgoesOn =>
        rw [if_pos hgoesOn]
        obtain ⟨hlength, hdrained⟩ := ih h
        exact ⟨congrArg (· + 1) hlength, fun _ => hdrained rfl⟩
      · cases h

end Silent

/-- **A rejected source leaves no trace.** Put a request that rejects its source, or only analyses
    it, at any place of a session whose functions of the host do not look at the numbers of nodes.
    If the session has ended before that place, nothing changes. Else the request is answered and
    prints nothing, each other request is answered as without it and prints the same, and the
    sessions behind all of them differ in the numbers of nodes only: their globals and all that can
    be reached from them are alike, with the same depths recorded. While a later request `r` is
    performed, the same is written with and without `x`, also if `r` does not end. -/
theorem Session.silent_leaves_no_trace (host : Host) (fuel : Nat) (sink : Sink)
    (before after : List Request) (x : Request)
    (hnatives : ∀ r ∈ before ++ after, r.IgnoresNumbers) :
    let start := Session.new sink.drain
    let without := start.serve host fuel (before ++ after)
    let served := start.serve host fuel (before ++ x :: after)
    ((start.serve host fuel before).2 = none → served = without) ∧
    ∀ s, (start.serve host fuel before).2 = some s → x.SilentIn s →
      ∃ answer, (x.respond host fuel s).map Prod.fst = some answer ∧
        served.1 = without.1.take before.length ++
          some ⟨answer, ""⟩ :: without.1.drop before.length ∧
        Option.Rel (Session.Like fun _ => True) without.2 served.2 ∧
        ∀ first r rest, after = first ++ r :: rest →
          Option.Rel (fun s₁ s₂ => ∀ written, r.Shows host s₁ written ↔ r.Shows host s₂ written)
            (start.serve host fuel (before ++ first)).2
            (start.serve host fuel (before ++ x :: first)).2 := by
  intro start without served
  obtain ⟨hbefore, hafter⟩ := List.forall_mem_append.1 hnatives
  refine ⟨fun hended => ?_, fun s hreached hx => ?_⟩
  · exact (Session.serve_append_of_none hended _).trans
      (Session.serve_append_of_none hended _).symm
  obtain ⟨hlength, hdrained⟩ := Session.serve_spec hreached
  have hsink : s.machine.sink.drain = s.machine.sink := hdrained rfl
  -- The session is like itself, since a new one is.
  have hself : Session.Like (fun _ => True) s s := by
    have hlast := ((Session.like_new (fun _ => True) sink.drain).serve host fuel
      (fun _ _ _ _ => trivial) hbefore).2
    rw [hreached] at hlast
    cases hlast with
    | some h => exact h
  obtain ⟨answer, source, hrespond, hgoesOn⟩ : ∃ answer source,
      x.respond host fuel s = some (answer, (s.analyze source).2) ∧ answer.goesOn = true :=
    hx.respond
  -- So it is like the one that has read the source and printed nothing.
  have hlike : Session.Like (fun _ => True) s (s.analyze source).2.takeOutput.2 :=
    (hself.analyze_right source).takeOutput_right hsink
  have houtput : (s.analyze source).2.takeOutput.1 = "" := by
    show s.machine.sink.text = ""
    rw [← hsink]
    show Text.Utf8.decodeCut ByteArray.empty = ""
    decide +kernel
  have hserve (rs : List Request) (hrs : ∀ r ∈ rs, r.IgnoresNumbers) :
      (s.serve host fuel (x :: rs)).1 = some ⟨answer, ""⟩ :: (s.serve host fuel rs).1 ∧
        Option.Rel (Session.Like fun _ => True) (start.serve host fuel (before ++ rs)).2
          (start.serve host fuel (before ++ x :: rs)).2 := by
    obtain ⟨hreplies, hlast⟩ := hlike.serve host fuel (fun _ _ _ _ => trivial) hrs
    rw [Session.serve_append_of_some hreached, Session.serve_append_of_some hreached, Session.serve,
      hrespond]
    simp only [hgoesOn, if_true, houtput, hreplies]
    exact ⟨trivial, hlast⟩
  obtain ⟨hreplies, hlast⟩ := hserve after hafter
  refine ⟨answer, by rw [hrespond]; rfl, ?_, hlast, fun first r rest heq => ?_⟩
  · show (start.serve host fuel (before ++ x :: after)).1 =
      (start.serve host fuel (before ++ after)).1.take before.length ++
        some ⟨answer, ""⟩ :: (start.serve host fuel (before ++ after)).1.drop before.length
    rw [Session.serve_append_of_some hreached, Session.serve_append_of_some hreached, hreplies,
      ← hlength, List.take_left, List.drop_left]
  · have hfirst : ∀ r ∈ first, r.IgnoresNumbers := fun r hr =>
      hafter r (heq ▸ List.mem_append_left _ hr)
    exact rel_imp (fun hlike => hlike.shows_iff host fun _ _ => trivial) (hserve first hfirst).2

/-- A function of the host that yields its first argument. -/
def Native.first : Native := ⟨"first", 1, .apply fun arguments => .ok (arguments.head?.getD .nil)⟩

theorem Native.ignoresNumbers_first : Native.first.IgnoresNumbers := by
  rintro T node f ⟨⟩ frames _ _ (_ | ⟨h, _⟩)
  · exact .ok .nil
  · exact .ok h

/-- A source that is rejected: its local variable is never read. -/
def Session.unreadLocal : String := "\x7b var a = f; \x7d"

/-- A function that was declared before a source is rejected prints the same after it. -/
theorem Session.silent_leaves_no_trace_unreadLocal :
    let start := Session.new Sink.unbounded.drain
    let host := Host.usual fun _ => 0
    let before := [.native .first, .run "fun f() \x7b print true; \x7d"]
    let after := [.run "first(f)();", .analyze "\x7b var a = f; print a; \x7d"]
    let without := start.serve host 100 (before ++ after)
    ∃ s, (start.serve host 100 before).2 = some s ∧
      (Request.run Session.unreadLocal).SilentIn s ∧
      without.1.map (·.map Reply.output) = [some "", some "", some "true\n", some ""] ∧
      ∃ answer, (start.serve host 100 (before ++ .run Session.unreadLocal :: after)).1 =
        without.1.take 2 ++ some ⟨answer, ""⟩ :: without.1.drop 2 := by
  intro start host before after without
  have hnatives : ∀ r ∈ before ++ after, r.IgnoresNumbers := by
    intro r hr
    simp only [before, after, List.cons_append, List.nil_append, List.mem_cons,
      List.not_mem_nil, or_false] at hr
    rcases hr with rfl | rfl | rfl | rfl
    · exact Native.ignoresNumbers_first
    all_goals trivial
  have hrejected : (start.serve host 100 before).2.any
      (fun s => (s.analyze Session.unreadLocal).1.report.hadError) = true := by decide +kernel
  have hprinted : without.1.map (·.map Reply.output) =
      [some "", some "", some "true\n", some ""] := by decide +kernel
  obtain ⟨s, hs, herror⟩ := (Option.any_eq_true _ _).1 hrejected
  obtain ⟨-, htrace⟩ := Session.silent_leaves_no_trace host 100 Sink.unbounded before after
    (.run Session.unreadLocal) hnatives
  obtain ⟨answer, -, hserved, -⟩ := htrace s hs (.rejected herror)
  exact ⟨s, hs, .rejected herror, hprinted, answer, hserved⟩

end Scriptlet
