import Scriptlet.Proofs.AlikeResolution
import Scriptlet.Proofs.Lockstep
import Scriptlet.Proofs.Restoration
import Scriptlet.Proofs.Sessions

namespace Scriptlet

/-!
# Sessions that are alike

What a session has read and run before decides about the numbers of the nodes that it reads next,
and about nothing else that can be told.

* `Machine.Like.imp` — machines stay alike when more nodes and tokens stand for each other.
* `TokenLikeness.same` — the comparison in which each token stands for itself.
* `Session.visit` — the program in a token list; `Session.Fresh` — nothing is recorded for the
  numbers that are yet to be given out, so that all that is recorded for a program is its own.
* `Session.Like` — sessions that differ in the numbers of nodes only. They stay so when a source is
  analysed (`Session.Like.analyze`) or only read (`Session.Like.parse`).
* `Session.report_analyze_eq` — what is wrong with a source does not depend on the session.
-/

/-! ### Other numbers and tokens -/

section Imp

variable {τ τ' : TokenLikeness} {node node' : NodeId → NodeId → Option Nat → Prop}
  (hτ : ∀ {t t'}, τ.rel t t' → τ'.rel t t')
  (hnode : ∀ {id id' d}, node id id' d → node' id id' d)

include hτ hnode

variable {around frames : List Bool}

theorem Likeness.Refers.imp {id id' : NodeId} {t t' : Token}
    (h : (plain τ node).Refers around id id' t t') :
    (plain τ' node').Refers around id id' t t' := by
  have ht := hτ h.rel
  cases h with
  | bound h => exact .bound (hnode h) trivial (names_plain_iff.2 ht)
  | free h => exact .free (hnode h) ht

/-- Trees stay alike when more nodes and tokens stand for each other. -/
theorem Node.Like.imp {n n' : Node} (h : Node.Like (.plain τ node) around n n') :
    Node.Like (.plain τ' node') around n n' := by
  have names {marked : Bool} {t t' : Token} (h : (Likeness.plain τ node).Names marked t t') :
      (Likeness.plain τ' node').Names marked t t' :=
    Likeness.names_plain_iff.2 (hτ (Likeness.names_plain_iff.1 h))
  induction h with
  | literal => exact .literal
  | group _ ihe => exact .group ihe
  | read h => exact .read (h.imp hτ hnode)
  | thisRef h => exact .thisRef (h.imp hτ hnode)
  | assign h _ ihe => exact .assign (h.imp hτ hnode) ihe
  | unary ht _ ihe => exact .unary (hτ ht) ihe
  | binary ht _ _ iha ihb => exact .binary (hτ ht) iha ihb
  | logical ht _ _ iha ihb => exact .logical (hτ ht) iha ihb
  | conditional ht _ _ _ ihc iha ihb => exact .conditional (hτ ht) ihc iha ihb
  | call ht _ _ ihe ihes => exact .call (hτ ht) ihe ihes
  | get ht _ ihe => exact .get (hτ ht) ihe
  | set ht _ _ iha ihb => exact .set (hτ ht) iha ihb
  | lambda _ ihf => exact .lambda ihf
  | noExprs => exact .noExprs
  | exprs _ _ ihe ihes => exact .exprs ihe ihes
  | expr _ ihe => exact .expr ihe
  | print _ ihe => exact .print ihe
  | varDecl hname => exact .varDecl (names hname)
  | varInit hname _ ihe => exact .varInit (names hname) ihe
  | block marked _ ihbody => exact .block marked ihbody
  | ifThen _ _ ihc iha => exact .ifThen ihc iha
  | ifElse _ _ _ ihc iha ihb => exact .ifElse ihc iha ihb
  | whileLoop _ _ ihc iha => exact .whileLoop ihc iha
  | funDecl _ _ ihf => exact .funDecl (Likeness.name_plain _ _) ihf
  | ret ht => exact .ret (hτ ht)
  | retValue ht _ ihe => exact .retValue (hτ ht) ihe
  | classDecl ht _ _ ihmethods => exact .classDecl (hτ ht) (Likeness.name_plain _ _) ihmethods
  | noStmts => exact .noStmts
  | stmts _ _ ihs ihss => exact .stmts ihs ihss
  | function marked hname hparams _ ihbody =>
    exact .function marked (rel_imp hτ hname) (hparams.imp fun _ _ => names) ihbody
  | noFunctions => exact .noFunctions
  | functions _ _ ihf ihfs => exact .functions ihf ihfs

theorem Class.Like.imp {k k' : Class} (h : Class.Like (.plain τ node) frames k k') :
    Class.Like (.plain τ' node') frames k k' := by
  obtain ⟨around, hmarked, hcode⟩ := h.code
  exact ⟨h.name, h.env, around, hmarked, hcode.imp hτ hnode⟩

theorem Value.Like.imp {v v' : Value} (h : Value.Like (.plain τ node) frames v v') :
    Value.Like (.plain τ' node') frames v v' := by
  cases h with
  | nil => exact .nil
  | bool b => exact .bool b
  | number x => exact .number x
  | string s => exact .string s
  | native index => exact .native index
  | function h =>
    obtain ⟨around, hmarked, hcode⟩ := h.code
    exact .function ⟨h.env, h.isInitializer, around, hmarked, hcode.imp hτ hnode⟩
  | classObj h => exact .classObj (h.imp hτ hnode)
  | object h => exact .object (h.imp hτ hnode)

/-- Machines stay alike when more is recorded, as long as nothing recorded changes. -/
theorem Machine.Like.imp {m m' : Machine} (h : Machine.Like (.plain τ node) frames around m m')
    {depths depths' : Depths}
    (hdepths : ∀ {id id' d}, node' id id' d → depths[id]? = d ∧ depths'[id']? = d)
    (hblind : ∀ (i : Nat) native, m.natives[i]? = some native → native.Blind (.plain τ' node')) :
    Machine.Like (.plain τ' node') frames around { m with depths }
      { m' with depths := depths' } := by
  refine { h with store := ⟨h.store.size, h.store.size', h.store.globals, ?_, h.store.objects, ?_⟩,
                  depths := hdepths, blind := hblind }
  · intro f marked hf x
    have hvalues := h.store.values hf x
    rw [Likeness.name_plain] at hvalues ⊢
    exact rel_imp (·.imp hτ hnode) hvalues
  · exact fun id x => rel_imp (·.imp hτ hnode) (h.store.fields id x)

end Imp

/-- **Programs that are alike run alike.** Either none of them ends with the steps allowed, or both
    end alike, and no run changes what no step does. -/
theorem Machine.Like.interpret_fixed {c : Likeness} {frames : List Bool} {m m' : Machine}
    {ss ss' : List Stmt} (hm : Machine.Like c frames [] m m') (host : Host) (fuel : Nat)
    (hss : Node.Like c [] (.stmts ss) (.stmts ss')) :
    Option.Rel
      (fun p p' => Outcome.LikeWith c p p' ∧ p.2.fixed = m.fixed ∧ p'.2.fixed = m'.fixed)
      (m.interpret host fuel ss) (m'.interpret host fuel ss') := by
  refine rel_imp (fun h => ?_) (rel_attach (hm.interpret host fuel hss))
  exact ⟨h.1, Machine.fixed_interpret h.2.1, Machine.fixed_interpret h.2.2⟩

/-! ### The same tokens -/

/-- Tokens of some sources, which stand for themselves. -/
def TokenLikeness.same (T : Token → Prop) : TokenLikeness where
  rel t t' := t' = t ∧ T t
  kind_eq h := congrArg Token.kind h.1
  lexeme_eq h := congrArg Token.lexeme h.1

section Same

variable {T : Token → Prop} {node : NodeId → NodeId → Option Nat → Prop}

theorem TokenLikeness.ordered_same : (same T).Ordered := by
  rintro t _ u _ ⟨rfl, -⟩ ⟨rfl, -⟩
  exact Iff.rfl

theorem TokenLikeness.forall₂_same {tokens : List Token} (h : ∀ t ∈ tokens, T t) :
    List.Forall₂ (same T).rel tokens tokens :=
  List.forall₂_same.2 fun t ht => ⟨rfl, h t ht⟩

theorem Error.Like.eq_of_same {e e' : Error} (h : Error.Like (.plain (.same T) node) e e') :
    e' = e := by
  cases h with
  | lexical | output => rfl
  | grammar fault ht | scope fault ht | runtime fault ht =>
    cases ht.1
    rfl

theorem Report.Like.eq_of_same {r r' : Report} (h : Report.Like (.raw (.same T)) r r') :
    r' = r := by
  have herrors : r.errors.toList = r'.errors.toList :=
    List.forall₂_eq_eq_eq ▸ h.imp fun _ _ he => he.eq_of_same.symm
  obtain ⟨errors⟩ := r
  obtain ⟨errors'⟩ := r'
  cases Array.toList_inj.1 herrors
  rfl

/-- What is wrong with a segment is a lexical fault. -/
theorem exists_lexical {segs : List Segment} {line : Nat} {e : Error}
    (h : Item.error e ∈ itemsFrom line segs) : ∃ line fault, e = .lexical line fault := by
  induction segs generalizing line with
  | nil => cases List.mem_singleton.1 h
  | cons s segs ih =>
    unfold itemsFrom at h
    simp only at h
    split at h
    · exact ih h
    · obtain h | h := List.mem_cons.1 h
      · cases h
      · exact ih h
    · obtain h | h := List.mem_cons.1 h
      · cases h
        exact ⟨_, _, rfl⟩
      · exact ih h

/-- The lexical errors of a source name no tokens. -/
theorem Report.like_lexicalReport (τ : TokenLikeness) (source : String) :
    Report.Like (.raw τ) (Session.lexicalReport source) (Session.lexicalReport source) := by
  refine List.forall₂_same.2 fun e he => ?_
  have he : e ∈ Error.ofSource source := he
  obtain ⟨item, hitem, herror⟩ := List.mem_filterMap.1 he
  cases item with
  | token t => cases herror
  | error e' =>
    cases herror
    obtain ⟨line, fault, rfl⟩ := exists_lexical hitem
    exact .lexical line fault

theorem Desync.Like.eq_of_plain {τ : TokenLikeness} {d d' : Desync}
    (h : Desync.Like (.plain τ node) d d') : d' = d := by
  obtain ⟨access, name⟩ := d
  obtain ⟨access', name'⟩ := d'
  obtain ⟨haccess, -, marked, hname⟩ := h
  cases haccess
  cases hname.trans (Likeness.name_plain marked name)
  rfl

end Same

/-! ### Reading a source -/

/-- Nodes of two sessions whose numbers are given out, with the same depth recorded for both. -/
def Session.SameDepth (s s' : Session) (id id' : NodeId) (d : Option Nat) : Prop :=
  (id < s.nextNode ∧ s.machine.depths[id]? = d) ∧ id' < s'.nextNode ∧ s'.machine.depths[id']? = d

/-- The comparison of two sessions: such nodes stand for each other. -/
def Session.likeness (τ : TokenLikeness) (s s' : Session) : Likeness := .plain τ (s.SameDepth s')

/-- It rests on the recorded depths alone. -/
theorem Session.likeness_withMachine (τ : TokenLikeness) {s s' : Session} {m m' : Machine}
    (h : m.depths = s.machine.depths) (h' : m'.depths = s'.machine.depths) :
    Session.likeness τ { s with machine := m } { s' with machine := m' } =
      Session.likeness τ s s' := by
  unfold Session.likeness Session.SameDepth
  simp only [h, h']

/-- A function of the host that does not look at the numbers of the nodes in its arguments. -/
def Native.IgnoresNumbers (native : Native) : Prop :=
  ∀ T node, native.Blind (.plain (.same T) node)

/-- Nothing is recorded for numbers that are not given out. -/
def Session.Fresh (s : Session) : Prop := ∀ i, s.nextNode ≤ i → s.machine.depths[i]? = none

/-- Sessions that differ in the numbers of nodes only. -/
structure Session.Like (T : Token → Prop) (s s' : Session) : Prop where
  machine : ∃ frames, Machine.Like (Session.likeness (.same T) s s') frames [] s.machine s'.machine
  natives : ∀ (i : Nat) native, s.machine.natives[i]? = some native → native.IgnoresNumbers
  fresh : s.Fresh
  fresh' : s'.Fresh

section Reading

variable {T : Token → Prop} {s s' : Session} {source : String}

/-- The visit of the program in a token list; `report` holds what was found before. -/
def Session.visit (s : Session) (tokens : List Token) (report : Report) : Visit :=
  let a := (s.parseTokens tokens report).1
  ⟨Resolution.start s.machine.depths a.report, [], .stmts a.statements⟩

/-- A token list gives its program numbers, all of them new. -/
theorem Session.visit_spec (s : Session) (tokens : List Token) (report : Report) :
    (s.visit tokens report).node.ids.Nodup ∧
      (∀ i ∈ (s.visit tokens report).node.ids,
        s.nextNode ≤ i ∧ i < (s.parseTokens tokens report).2.nextNode) ∧
      s.nextNode ≤ (s.parseTokens tokens report).2.nextNode := by
  obtain ⟨-, ⟨hnodup, hrange⟩, hle⟩ :=
    Program.built_parse (T := fun _ => True) tokens s.nextNode report fun _ _ => trivial
  exact ⟨hnodup, hrange, hle⟩

/-- Depths are recorded for the nodes of the program that is read, and for no other. -/
theorem Session.depths_analyzeTokens (s : Session) (tokens : List Token) (report : Report)
    {i : NodeId} (hi : i ∉ (s.visit tokens report).node.ids) :
    (s.analyzeTokens tokens report).2.machine.depths[i]? = s.machine.depths[i]? :=
  Walk.depths_stmts _ _ hi

/-- Nodes with the same depth keep it when a program is read. -/
theorem Session.SameDepth.analyzeTokens {id id' : NodeId} {d : Option Nat}
    (h : s.SameDepth s' id id' d) (tokens : List Token) (report : Report) :
    (s.analyzeTokens tokens report).2.SameDepth s' id id' d := by
  obtain ⟨⟨hid, hd⟩, h'⟩ := h
  refine ⟨⟨Nat.lt_of_lt_of_le hid (s.visit_spec tokens report).2.2, ?_⟩, h'⟩
  rw [s.depths_analyzeTokens_of_lt tokens report hid, hd]

theorem Session.SameDepth.analyzeTokens_right {id id' : NodeId} {d : Option Nat}
    (h : s.SameDepth s' id id' d) (tokens : List Token) (report : Report) :
    s.SameDepth (s'.analyzeTokens tokens report).2 id id' d := by
  obtain ⟨h, hid', hd'⟩ := h
  refine ⟨h, Nat.lt_of_lt_of_le hid' (s'.visit_spec tokens report).2.2, ?_⟩
  rw [s'.depths_analyzeTokens_of_lt tokens report hid', hd']

namespace Session.Fresh

theorem analyzeTokens (h : s.Fresh) (tokens : List Token) (report : Report) :
    (s.analyzeTokens tokens report).2.Fresh := by
  intro i hi
  obtain ⟨-, hrange, hle⟩ := s.visit_spec tokens report
  have hi : (s.parseTokens tokens report).2.nextNode ≤ i := hi
  rw [s.depths_analyzeTokens tokens report fun hmem =>
    absurd (hrange i hmem).2 (Nat.not_lt.2 hi)]
  exact h i (Nat.le_trans hle hi)

theorem parse (h : s.Fresh) (source : String) : (s.parse source).2.Fresh :=
  fun i hi => h i (Nat.le_trans (s.visit_spec _ _).2.2 hi)

/-- The table of the session holds what is recorded for the program. -/
theorem told (h : s.Fresh) (tokens : List Token) (report : Report) :
    (s.visit tokens report).Told (s.analyzeTokens tokens report).2.machine.depths := by
  obtain ⟨hnodup, hrange, -⟩ := s.visit_spec tokens report
  exact ⟨hnodup, fun i hi => h i (hrange i hi).1, fun _ _ => rfl⟩

end Session.Fresh

/-- A source is read alike in two sessions, whatever numbers its nodes get. -/
theorem Session.alike_parse (s s' : Session) (hT : ∀ t ∈ Token.ofSource source, T t) :
    Node.Alike (.same T) (.stmts (s.parse source).1.statements)
        (.stmts (s'.parse source).1.statements) ∧
      Report.Like (.raw (.same T)) (s.parse source).1.report (s'.parse source).1.report :=
  Program.parse_alike (TokenLikeness.forall₂_same hT) (Token.any_isEof_ofSource source)
    (Report.like_lexicalReport _ source) s.nextNode s'.nextNode

/-- The walks over a source in two sessions. -/
theorem Session.follows_program {node : NodeId → NodeId → Option Nat → Prop} (hs : s.Fresh)
    (hs' : s'.Fresh) (hT : ∀ t ∈ Token.ofSource source, T t)
    (hnode : ∀ i ∈ (s.program source).node.ids, ∀ i' ∈ (s'.program source).node.ids,
      (s'.analyze source).2.machine.depths[i']? = (s.analyze source).2.machine.depths[i]? →
        ∃ d, node i i' d) :
    Walk.Follows (.same T) node [] (s.program source) (s'.program source) := by
  obtain ⟨hread, hreport⟩ := s.alike_parse s' hT
  exact Walk.follows TokenLikeness.ordered_same (hread [])
    ⟨⟨.nil, rfl, rfl, hreport⟩, hs.told _ _, hs'.told _ _, hnode⟩

namespace Session.Like

/-- Sessions stay alike when a source is read and tables are put in place of theirs in which nothing
    old is changed; with them, the statements of the source are alike. -/
theorem read (h : Session.Like T s s') (hT : ∀ t ∈ Token.ofSource source, T t)
    {depths depths' : Depths}
    (hold : ∀ i, i < s.nextNode → depths[i]? = s.machine.depths[i]?)
    (hold' : ∀ i, i < s'.nextNode → depths'[i]? = s'.machine.depths[i]?)
    (hnew : ∀ i, (s.parse source).2.nextNode ≤ i → depths[i]? = none)
    (hnew' : ∀ i, (s'.parse source).2.nextNode ≤ i → depths'[i]? = none)
    (hsame : ∀ i ∈ (s.program source).node.ids, ∀ i' ∈ (s'.program source).node.ids,
      (s'.analyze source).2.machine.depths[i']? = (s.analyze source).2.machine.depths[i]? →
        depths'[i']? = depths[i]?) :
    let t : Session := ⟨{ s.machine with depths }, (s.parse source).2.nextNode⟩
    let t' : Session := ⟨{ s'.machine with depths := depths' }, (s'.parse source).2.nextNode⟩
    Node.Like (Session.likeness (.same T) t t') [] (.stmts (s.parse source).1.statements)
        (.stmts (s'.parse source).1.statements) ∧
      Session.Like T t t' := by
  intro t t'
  obtain ⟨-, hrange, hle⟩ := s.program_spec source
  obtain ⟨-, hrange', hle'⟩ := s'.program_spec source
  refine ⟨?_, ?_, h.natives, hnew, hnew'⟩
  · refine (follows_program h.fresh h.fresh' hT fun i hi i' hi' hrecorded => ?_).like
    exact ⟨depths[i]?, ⟨(hrange i hi).2, rfl⟩, (hrange' i' hi').2, hsame i hi i' hi' hrecorded⟩
  · obtain ⟨frames, hm⟩ := h.machine
    refine ⟨frames, hm.imp id ?_ ?_ fun i native hi => h.natives i native hi T _⟩
    · rintro id id' d ⟨⟨hid, hd⟩, hid', hd'⟩
      refine ⟨⟨Nat.lt_of_lt_of_le hid hle, ?_⟩, Nat.lt_of_lt_of_le hid' hle', ?_⟩
      · rw [hold id hid, hd]
      · rw [hold' id' hid', hd']
    · rintro id id' d ⟨⟨-, hd⟩, -, hd'⟩
      exact ⟨hd, hd'⟩

theorem analyze (h : Session.Like T s s') (hT : ∀ t ∈ Token.ofSource source, T t) :
    Node.Like (Session.likeness (.same T) (s.analyze source).2 (s'.analyze source).2) []
        (.stmts (s.analyze source).1.statements) (.stmts (s'.analyze source).1.statements) ∧
      Session.Like T (s.analyze source).2 (s'.analyze source).2 := by
  exact h.read hT (fun _ hi => s.depths_analyzeTokens_of_lt _ _ hi)
    (fun _ hi => s'.depths_analyzeTokens_of_lt _ _ hi) (h.fresh.analyzeTokens _ _)
    (h.fresh'.analyzeTokens _ _) fun _ _ _ _ hrecorded => hrecorded

theorem parse (h : Session.Like T s s') (hT : ∀ t ∈ Token.ofSource source, T t) :
    Node.Like (Session.likeness (.same T) (s.parse source).2 (s'.parse source).2) []
        (.stmts (s.parse source).1.statements) (.stmts (s'.parse source).1.statements) ∧
      Session.Like T (s.parse source).2 (s'.parse source).2 := by
  -- Nothing is recorded for the nodes of the source, in either session.
  refine h.read hT (fun _ _ => rfl) (fun _ _ => rfl) (h.fresh.parse source)
    (h.fresh'.parse source) fun i hi i' hi' _ => ?_
  rw [h.fresh i ((s.program_spec source).2.1 i hi).1,
    h.fresh' i' ((s'.program_spec source).2.1 i' hi').1]

end Session.Like

/-- The reports of a source are the same in all sessions. -/
theorem Session.report_analyze_eq (hs : s.Fresh) (hs' : s'.Fresh) (source : String) :
    (s'.analyze source).1.report = (s.analyze source).1.report := by
  have hfollows : Walk.Follows (.same fun _ => True) (fun _ _ _ => True) [] (s.program source)
      (s'.program source) :=
    follows_program hs hs' (fun _ _ => trivial) fun _ _ _ _ _ => ⟨none, trivial⟩
  exact hfollows.walks.report.eq_of_same

theorem Session.report_parse_eq (s s' : Session) (source : String) :
    (s'.parse source).1.report = (s.parse source).1.report :=
  (s.alike_parse (T := fun _ => True) s' fun _ _ => trivial).2.eq_of_same

end Reading

end Scriptlet
