import Scriptlet.Proofs.Built
import Scriptlet.Proofs.RenamingWalk
import Scriptlet.Proofs.Unparse

namespace Scriptlet

/-!
# Runs of a renamed program

Lexical scoping up to renaming: a local variable or parameter of an accepted program may get any
name that does not occur in the program.

* `Outcome.SameBut` — the same outcome, but for the name of a variable that is out of place.
* `Session.renaming_keeps_run` — the renamed program is accepted with the same depths recorded, and
  on a new machine it writes the same output and ends in the same way, if it ends at all.
-/

/-! ### The name of the variable -/

/-- Variables and parameters have names. -/
theorem Node.Formed.isName {T : Token → Prop} {n : Node} (hn : n.Formed T) {t : Token}
    (ht : t ∈ n.variables) : t.IsName T := by
  have hbody : ∀ {ss : List Stmt}, Stmt.FormedAll T ss → t ∈ ss.filterMap Stmt.variableName? →
      t.IsName T := by
    intro ss hss ht
    obtain ⟨s, hs, hvariable⟩ := List.mem_filterMap.1 ht
    have hformed := Stmt.formed_of_mem hss hs
    cases s with
    | varDecl name init =>
      cases hvariable
      cases init with
      | none => exact hformed
      | some e => exact hformed.1
    | _ => cases hvariable
  cases n with
  | stmt s =>
    cases s with
    | block body => exact hbody hn ht
    | _ => cases ht
  | function kind decl =>
    cases decl
    rcases List.mem_append.1 ht with ht | ht
    · exact hn.2.1 t ht
    · exact hbody hn.2.2 ht
  | _ => cases ht

/-! ### The renamed program -/

/-- The same outcome, but for the name of a variable that is out of place. -/
inductive Outcome.SameBut (old new : String) {α : Type} : Outcome α → Outcome α → Prop
  | same (o : Outcome α) : SameBut old new o o
  | desync (access : Access) : SameBut old new (.desync ⟨access, old⟩) (.desync ⟨access, new⟩)

/-- Ends that are alike after a renaming: the same was written, and the outcomes are the same. -/
theorem Renaming.sameBut {r : Renaming} {hold : r.old ≠ "this"} {hnew : r.new ≠ "this"}
    {e e' : Outcome Unit × Machine} (h : Outcome.LikeWith (r.likeness hold hnew) e e') :
    e'.2.sink = e.2.sink ∧ Outcome.SameBut r.old r.new e.1 e'.1 := by
  cases h with
  | finished hm => exact ⟨hm.sink, .same _⟩
  | failed he hm =>
    refine ⟨hm.sink, ?_⟩
    cases he with
    | grammar fault ht | scope fault ht | runtime fault ht =>
      cases ht
      exact .same _
    | lexical line fault => exact .same _
    | output fault => exact .same _
  | @desync _ _ d d' _ _ hd hm =>
    refine ⟨hm.sink, ?_⟩
    obtain ⟨access, name⟩ := d
    obtain ⟨access', name'⟩ := d'
    obtain ⟨haccess, hused, marked, hname⟩ := hd
    cases haccess
    cases hname
    show Outcome.SameBut r.old r.new (.desync ⟨access, name⟩) (.desync ⟨access, r.name marked name⟩)
    cases marked with
    | false => exact .same _
    | true =>
      -- Only the old name is exchanged, as the new one is not in use.
      by_cases hname : name = r.old
      · subst hname
        have hswap : r.name true r.old = r.new := Equiv.swap_apply_left r.old r.new
        rw [hswap]
        exact .desync access
      · rw [r.name_of_ne hname hused]
        exact .same _

/-- The analysis of a source in a new session: what is parsed holds only tokens of the source, no
    two nodes have one number, and then its names are resolved. -/
theorem Session.exists_analyze_new (sink : Sink) (source : String) :
    ∃ (ss : List Stmt) (report : Report) (nextNode : NodeId),
      (Session.new sink).analyze source =
        (⟨ss, (Resolution.resolve ss ∅ report).2⟩,
          ⟨{ Machine.new sink with depths := (Resolution.resolve ss ∅ report).1 }, nextNode⟩) ∧
      (∀ T : Token → Prop, (∀ t ∈ Token.ofSource source, T t) → Stmt.FormedAll T ss) ∧
      (Stmt.idsAll ss).Nodup := by
  have hbuilt := fun (T : Token → Prop) (hT : ∀ t ∈ Token.ofSource source, T t) =>
    Program.built_parse (Token.ofSource source) 0 (lexicalReport source) hT
  let p := Program.parse (Token.ofSource source) 0 (lexicalReport source)
  have hids : (Stmt.idsAll p.statements).Nodup :=
    (hbuilt (fun _ => True) fun _ _ => trivial).2.1.1
  exact ⟨p.statements, p.report, p.nextNode, rfl, fun T hT => (hbuilt T hT).1, hids⟩

section

variable {r : Renaming} (hold : r.old ≠ "this") (hnew : r.new ≠ "this") {ss : List Stmt}
  {report : Report} {path : List Nat} {scope : Node} {name : Token}
  (hdepths : r.depths = (Walk.stmts ss (Resolution.start ∅ report)).depths)
  (hclean : (Walk.stmts ss (Resolution.start ∅ report)).Clean)
  (hformed : Stmt.FormedAll r.Allowed ss) (hids : (Stmt.idsAll ss).Nodup)
  (hscope : (Node.stmts ss).at? path = some scope) (hname : name ∈ scope.variables)
  (hlexeme : name.lexeme = r.old)

include hdepths hclean hformed hids hscope hname hlexeme

/-- A whole program that is accepted, and the renamed one. -/
theorem Renaming.follows_program :
    r.Follows (r.likeness hold hnew) [] (some path) ⟨Resolution.start ∅ report, [], .stmts ss⟩
      (Resolution.start ∅ .empty) := by
  have hwalks : r.Walks [] (Resolution.start ∅ report) (Resolution.start ∅ .empty) :=
    ⟨.nil, rfl, rfl, rfl, rfl⟩
  have htold : Visit.Told r.depths ⟨Resolution.start ∅ report, [], .stmts ss⟩ := by
    refine ⟨hids, fun i _ => Std.TreeMap.getElem?_emptyc, fun i _ => ?_⟩
    rw [hdepths]
    rfl
  have hdeclared : ∀ path', some path = some path' →
      ∃ scope, (Node.stmts ss).at? path' = some scope ∧
        ∃ t ∈ scope.variables, t.lexeme = r.old := by
    rintro _ ⟨⟩
    exact ⟨scope, hscope, name, hname, hlexeme⟩
  -- No name is exchanged among the globals.
  have hapt : ∀ s ∈ ss, r.Apt [] s := fun s _ t _ => rfl
  exact follows_stmts hold hnew ss ⟨hwalks, htold, hformed, hdeclared, hclean⟩ hapt

include hold hnew

theorem Renaming.resolve_program :
    Resolution.resolve (r.program path ss) ∅ .empty = (r.depths, .empty) := by
  have h := (follows_program hold hnew hdepths hclean hformed hids hscope hname hlexeme).walks
  refine Prod.ext ?_ (Report.eq_empty h.clean)
  rw [hdepths]
  exact h.depths

theorem Renaming.interpret_program (sink : Sink) (host : Host) (fuel : Nat) :
    Option.Rel (fun e e' => e'.2.sink = e.2.sink ∧ Outcome.SameBut r.old r.new e.1 e'.1)
      ({ Machine.new sink with depths := r.depths }.interpret host fuel ss)
      ({ Machine.new sink with depths := r.depths }.interpret host fuel (r.program path ss)) := by
  have h := (follows_program hold hnew hdepths hclean hformed hids hscope hname hlexeme).like
  have hrun := Machine.Like.interpret host fuel h (Machine.like_new sink r.depths id)
  exact rel_imp sameBut hrun

theorem Renaming.shows_program (sink : Sink) (host : Host) (written : Sink) :
    { Machine.new sink with depths := r.depths }.Shows host false ss written ↔
      { Machine.new sink with depths := r.depths }.Shows host false (r.program path ss) written :=
  have h := (follows_program hold hnew hdepths hclean hformed hids hscope hname hlexeme).like
  Machine.Like.shows_iff host false h (Machine.like_new sink r.depths id) written

end

/-- **Lexical scoping up to renaming.** Let a source be accepted without a report, let `name` be a
    variable or parameter that is declared in the scope at `path`, and let `new` be a name that is
    no token of the source and no keyword. If `name`, together with the nodes that are resolved to
    it, is exchanged for `new`, then `new` is declared in its place, nothing is reported for the
    renamed program, the same depths are recorded, and from a new machine it writes the same output
    and ends in the same way. If the program does not end, the renamed one does not end either, and
    while they run both write the same. -/
theorem Session.renaming_keeps_run {sink : Sink} {source : String} {path : List Nat} {scope : Node}
    {name : Token} {new : String}
    (haccepted : ((Session.new sink).analyze source).1.report.hadError = false)
    (hscope : (Node.stmts ((Session.new sink).analyze source).1.statements).at? path = some scope)
    (hname : name ∈ scope.variables) (hnew : ∀ t ∈ Token.ofSource source, t.lexeme ≠ new)
    (hkeyword : Symbol.keyword? new = none) :
    let statements := ((Session.new sink).analyze source).1.statements
    let machine := ((Session.new sink).analyze source).2.machine
    let renamed := (Renaming.mk name.lexeme new machine.depths).program path statements
    let resolved := Resolution.resolve renamed ∅ .empty
    (∃ scope', (Node.stmts renamed).at? path = some scope' ∧
      { name with lexeme := new } ∈ scope'.variables) ∧
    resolved = (machine.depths, .empty) ∧
    (∀ host fuel, Option.Rel
      (fun e e' => e'.2.sink = e.2.sink ∧ Outcome.SameBut name.lexeme new e.1 e'.1)
      (machine.interpret host fuel statements)
      ({ Machine.new sink with depths := resolved.1 }.interpret host fuel renamed)) ∧
    ∀ host written, machine.Shows host false statements written ↔
      { Machine.new sink with depths := resolved.1 }.Shows host false renamed written := by
  obtain ⟨ss, report, nextNode, hanalyze, hformed, hids⟩ :=
    Session.exists_analyze_new sink source
  rw [hanalyze] at haccepted hscope ⊢
  intro statements machine renamed resolved
  let r : Renaming := ⟨name.lexeme, new, machine.depths⟩
  have hclean : (Walk.stmts ss (Resolution.start ∅ report)).Clean :=
    Array.isEmpty_iff_size_eq_zero.1 ((Bool.not_eq_false' _).mp haccepted)
  have hallowed : Stmt.FormedAll r.Allowed ss :=
    hformed r.Allowed fun t ht => ⟨Token.spelled_ofSource source t ht, hnew t ht⟩
  have hisName : name.IsName r.Allowed :=
    Node.Formed.isName (Node.Formed.at? (n := .stmts ss) hallowed hscope) hname
  have hold : r.old ≠ "this" := hisName.1.1.ne_spelling hisName.2 (s := .thisKw) (by decide)
  have hthis : r.new ≠ "this" := by
    rintro rfl
    cases hkeyword
  have hresolved : resolved = (machine.depths, .empty) :=
    Renaming.resolve_program hold hthis rfl hclean hallowed hids hscope hname rfl
  refine ⟨?_, hresolved, fun host fuel => ?_, fun host written => ?_⟩
  · obtain ⟨around, hat⟩ := r.at?_node [] (.stmts ss) path hscope
    refine ⟨_, hat, ?_⟩
    rw [r.variables_node]
    exact List.mem_map.2 ⟨name, hname, if_pos ⟨rfl, rfl⟩⟩
  · rw [hresolved]
    exact Renaming.interpret_program hold hthis rfl hclean hallowed hids hscope hname rfl sink host
      fuel
  · rw [hresolved]
    exact Renaming.shows_program hold hthis rfl hclean hallowed hids hscope hname rfl sink host
      written

/-- A local variable shadows a global one that a function declared before it reads. -/
def Session.shadowed : String :=
  "var a; \x7b fun f() \x7b print a; \x7d var a = true; f(); print a; \x7d"

theorem Session.renaming_keeps_run_shadowed :
    let (analysis, session) := (Session.new Sink.unbounded).analyze Session.shadowed
    ∃ scope, (Node.stmts analysis.statements).at? [1, 0] = some scope ∧
      ∃ name ∈ scope.variables, name.lexeme = "a" ∧
        let renamed :=
          (Renaming.mk name.lexeme "b" session.machine.depths).program [1, 0] analysis.statements
        let resolved := Resolution.resolve renamed ∅ .empty
        resolved = (session.machine.depths, .empty) ∧
        ∃ last, ({ Machine.new Sink.unbounded with depths := resolved.1 }).interpret
            (Host.usual fun _ => 0) 300 renamed = some last ∧
          last.2.sink.written = "nil\ntrue\n".toUTF8 := by
  have haccepted : ((Session.new Sink.unbounded).analyze Session.shadowed).1.report.hadError =
      false := by decide +kernel
  have hnames : ((Node.stmts ((Session.new Sink.unbounded).analyze
      Session.shadowed).1.statements).at? [1, 0]).map (·.variables.map Token.lexeme) =
      some ["a"] := by decide +kernel
  have hnew : (Token.ofSource Session.shadowed).all (·.lexeme ≠ "b") = true := by decide +kernel
  have hwritten : (((Session.new Sink.unbounded).analyze Session.shadowed).2.machine.interpret
      (Host.usual fun _ => 0) 300 ((Session.new Sink.unbounded).analyze
        Session.shadowed).1.statements).map (·.2.sink.written) =
      some "nil\ntrue\n".toUTF8 := by decide +kernel
  obtain ⟨scope, hscope, hlexemes⟩ := Option.map_eq_some_iff.1 hnames
  obtain ⟨name, hname, hlexeme⟩ : ∃ name ∈ scope.variables, name.lexeme = "a" :=
    List.mem_map.1 (hlexemes ▸ List.mem_singleton_self "a")
  obtain ⟨-, hresolved, hrun, -⟩ := Session.renaming_keeps_run haccepted hscope hname
    (fun t ht => of_decide_eq_true (List.all_eq_true.1 hnew t ht)) (by decide)
  refine ⟨scope, hscope, name, hname, hlexeme, hresolved, ?_⟩
  obtain ⟨e, he, hsink⟩ := Option.map_eq_some_iff.1 hwritten
  obtain ⟨e', he', hsame, -⟩ := exists_of_rel (hrun (Host.usual fun _ => 0) 300) he
  exact ⟨e', he', by rw [hsame, hsink]⟩

end Scriptlet
