import Mathlib.Data.List.Flatten
import Mathlib.Data.List.Perm.Subperm
import Scriptlet.Proofs.Sessions

namespace Scriptlet

/-!
# Numbers of nodes

The depths of all programs are kept in one table, by the numbers of the nodes. Numbers are handed
out once, also across programs, so no entry is ever in the way of another.

* `Program.parseAll` — token lists that are read one after another.
* `Program.numbers_are_apart` — every node of all programs has a number of its own, nothing is
  recorded twice, and what was recorded stays.
-/

/-! ### What the walk records -/

/-- Where no node has two entries, each entry can be looked up. -/
theorem Depths.getElem?_record {depths : Depths} {notes : List Note} {note : Note}
    (hnodup : (notes.map Prod.fst).Nodup) (hnote : note ∈ notes) :
    (depths.record notes)[note.1]? = some note.2 := by
  induction notes generalizing depths with
  | nil => cases hnote
  | cons first notes ih =>
    obtain ⟨hfirst, hnodup⟩ := List.nodup_cons.1 hnodup
    obtain rfl | hnote := List.mem_cons.1 hnote
    · calc (depths.record (note :: notes))[note.1]?
        _ = (depths.insert note.1 note.2)[note.1]? := Depths.getElem?_record_of_notMem hfirst
        _ = some note.2 := Std.TreeMap.getElem?_insert_self
    · exact ih hnodup hnote

/-! ### Programs one after another -/

/-- The numbers of the variable nodes of a program. -/
def Parsed.ids (p : Parsed) : List NodeId := Stmt.idsAll p.statements

/-- Token lists are read one after another, each with what was found wrong with it before. -/
def Program.parseAll : List (List Token × Report) → NodeId → List Parsed
  | [], _ => []
  | (tokens, report) :: rest, nextNode =>
    let p := Program.parse tokens nextNode report
    p :: Program.parseAll rest p.nextNode

namespace Resolution

/-- Programs are resolved one after another, in one table. -/
def resolveAll : List Parsed → Depths → Depths
  | [], depths => depths
  | p :: ps, depths => resolveAll ps (resolve p.statements depths p.report).1

/-- What the walk over each of some programs has noted, while they are resolved one after
    another. -/
def notesAll : List Parsed → Depths → List Note
  | [], _ => []
  | p :: ps, depths =>
    (Walk.stmts p.statements (start depths p.report)).notes.toList ++
      notesAll ps (resolve p.statements depths p.report).1

/-- The walk over a program notes at most one entry for each of its nodes, and `resolve` yields the
    table with these entries: `Walk.Passed.exists_notes`, from `start` on. -/
theorem notes_stmts (ss : List Stmt) (depths : Depths) (report : Report) :
    let notes := (Walk.stmts ss (start depths report)).notes.toList
    (notes.map Prod.fst).Sublist (Stmt.idsAll ss) ∧
      (resolve ss depths report).1 = depths.record notes := by
  obtain ⟨notes, hnotes, hsub, hdepths⟩ := (Walk.passed_stmts ss (start depths report)).exists_notes
  rw [show (start depths report).notes.toList ++ notes = notes from rfl] at hnotes
  rw [hnotes]
  exact ⟨hsub, hdepths⟩

theorem resolveAll_append (ps ps' : List Parsed) (depths : Depths) :
    resolveAll (ps ++ ps') depths = resolveAll ps' (resolveAll ps depths) := by
  induction ps generalizing depths with
  | nil => rfl
  | cons p ps ih => exact ih _

theorem resolveAll_eq (ps : List Parsed) (depths : Depths) :
    resolveAll ps depths = depths.record (notesAll ps depths) := by
  induction ps generalizing depths with
  | nil => rfl
  | cons p ps ih =>
    rw [resolveAll, ih, notesAll, Depths.record_append,
      ← (notes_stmts p.statements depths p.report).2]

theorem sublist_notesAll (ps : List Parsed) (depths : Depths) :
    ((notesAll ps depths).map Prod.fst).Sublist (ps.flatMap Parsed.ids) := by
  induction ps generalizing depths with
  | nil => exact List.Sublist.refl _
  | cons p ps ih =>
    rw [notesAll, List.map_append, List.flatMap_cons]
    exact (notes_stmts p.statements depths p.report).1.append (ih _)

/-- Programs leave the entries of all other nodes alone. -/
theorem getElem?_resolveAll_of_notMem {ps : List Parsed} {depths : Depths} {i : NodeId}
    (hi : i ∉ ps.flatMap Parsed.ids) : (resolveAll ps depths)[i]? = depths[i]? := by
  rw [resolveAll_eq]
  exact Depths.getElem?_record_of_notMem fun h => hi ((sublist_notesAll ps depths).subset h)

end Resolution

/-- The numbers of programs that are read one after another follow one another. -/
theorem Program.numbered_parseAll (inputs : List (List Token × Report)) (nextNode : NodeId) :
    ∃ last, nextNode ≤ last ∧
      Numbered nextNode last ((Program.parseAll inputs nextNode).flatMap Parsed.ids) := by
  induction inputs generalizing nextNode with
  | nil => exact ⟨nextNode, Nat.le_refl _, Numbered.nil⟩
  | cons input inputs ih =>
    obtain ⟨tokens, report⟩ := input
    obtain ⟨-, hfirst, hle⟩ :=
      Program.built_parse (T := fun _ => True) tokens nextNode report fun _ _ => trivial
    obtain ⟨last, hle', hrest⟩ := ih (Program.parse tokens nextNode report).nextNode
    exact ⟨last, hle.trans hle', hfirst.append hrest hle hle'⟩

/-- Any of some programs, each at most once and in any order, have distinct numbers if all have. -/
theorem Parsed.nodup_of_subperm {ps ps' : List Parsed} (h : ps'.Subperm ps)
    (hnodup : (ps.flatMap Parsed.ids).Nodup) : (ps'.flatMap Parsed.ids).Nodup := by
  obtain ⟨qs, hperm, hsub⟩ := h
  exact (hperm.flatMap_right Parsed.ids).nodup_iff.1 (hnodup.sublist (hsub.flatMap _))

/-- **Numbers never collide.** Token lists, malformed ones too, are read one after another. Every
    variable node that comes out has a number of its own. Let any of these programs be resolved,
    each at most once and in any order, in one table: nothing is recorded twice for a number, all
    that is recorded is found in the table in the end, and no program changes what the table says
    about the nodes of those before it. Nor does a token list that is analysed in a session change
    what is recorded for any program of the session. -/
theorem Program.numbers_are_apart (inputs : List (List Token × Report)) (nextNode : NodeId) :
    ((Program.parseAll inputs nextNode).flatMap Parsed.ids).Nodup ∧
      (∀ (ps : List Parsed) (depths : Depths), ps.Subperm (Program.parseAll inputs nextNode) →
        ((Resolution.notesAll ps depths).map Prod.fst).Nodup ∧
        Resolution.resolveAll ps depths = depths.record (Resolution.notesAll ps depths) ∧
        (∀ note ∈ Resolution.notesAll ps depths,
          (Resolution.resolveAll ps depths)[note.1]? = some note.2) ∧
        ∀ earlier later, ps = earlier ++ later → ∀ p ∈ earlier, ∀ i ∈ p.ids,
          (Resolution.resolveAll ps depths)[i]? = (Resolution.resolveAll earlier depths)[i]?) ∧
      ∀ host sink rs s h, Session.After host sink rs s h →
        ∀ p ∈ h.programs, ∀ i ∈ p.node.ids, ∀ tokens report,
          (s.analyzeTokens tokens report).2.machine.depths[i]? = s.machine.depths[i]? := by
  obtain ⟨last, -, hnodup, -⟩ := Program.numbered_parseAll inputs nextNode
  refine ⟨hnodup, fun ps depths hps => ?_, ?_⟩
  · have hapart := Parsed.nodup_of_subperm hps hnodup
    have hnotes := hapart.sublist (Resolution.sublist_notesAll ps depths)
    refine ⟨hnotes, Resolution.resolveAll_eq ps depths, fun note hnote => ?_, ?_⟩
    · rw [Resolution.resolveAll_eq]
      exact Depths.getElem?_record hnotes hnote
    · rintro earlier later rfl p hp i hi
      rw [Resolution.resolveAll_append]
      rw [List.flatMap_append] at hapart
      exact Resolution.getElem?_resolveAll_of_notMem
        ((List.nodup_append'.1 hapart).2.2 (List.mem_flatMap.2 ⟨p, hp, hi⟩))
  · intro host sink rs s h hs p hp i hi tokens report
    exact s.depths_analyzeTokens_of_lt tokens report (hs.ids_lt p hp i hi)

/-- A block that uses its variable. -/
def Session.usedInBlock : String := "\x7b var a; a = a; \x7d"

/-- A source that breaks off behind a block with a function in it. -/
def Session.brokenOff : String := "\x7b var b; print fun (c) \x7b return b; \x7d; \x7d b = ("

/-- The one that breaks off is read second and resolved first, and keeps its depth when the other
    is resolved. In a session, the other keeps its depth when the one that breaks off is
    analysed. -/
theorem Program.numbers_are_apart_brokenOff :
    let ps := (Program.parseAll [(Token.ofSource Session.usedInBlock, .empty),
      (Token.ofSource Session.brokenOff, .empty)] 7).reverse
    (ps.flatMap Parsed.ids = [10, 8, 9] ∧ (Resolution.resolveAll ps ∅)[10]? = some 1 ∧
      (Resolution.resolveAll (ps.take 1) ∅)[10]? = some 1) ∧
    ∃ s h, Session.After (Host.usual fun _ => 0) Sink.unbounded [.analyze Session.usedInBlock] s h ∧
      s.machine.depths[1]? = some 0 ∧
      (s.analyze Session.brokenOff).2.machine.depths[1]? = some 0 := by
  obtain ⟨-, hresolved, hsession⟩ := Program.numbers_are_apart
    [(Token.ofSource Session.usedInBlock, .empty), (Token.ofSource Session.brokenOff, .empty)] 7
  have hperform : (Request.analyze Session.usedInBlock).perform (Host.usual fun _ => 0) 0
      (Session.new Sink.unbounded) =
        some (true, ((Session.new Sink.unbounded).analyze Session.usedInBlock).2) := rfl
  have hafter := Session.After.next .new hperform
  refine ⟨?_, _, _, hafter, ?_⟩
  · obtain ⟨-, -, hfound, hkept⟩ := hresolved _ ∅ (List.reverse_perm _).subperm
    have hsome := hfound (10, 1) (by decide +kernel)
    refine ⟨by decide +kernel, hsome, ?_⟩
    obtain ⟨p, hp, hi⟩ := List.mem_flatMap.1 (show 10 ∈ ((Program.parseAll
      [(Token.ofSource Session.usedInBlock, .empty), (Token.ofSource Session.brokenOff, .empty)]
        7).reverse.take 1).flatMap Parsed.ids by decide +kernel)
    exact (hkept _ _ (List.take_append_drop 1 _).symm p hp 10 hi).symm.trans hsome
  · have hdepth : ((Session.new Sink.unbounded).analyze
        Session.usedInBlock).2.takeOutput.2.machine.depths[1]? = some 0 := by decide +kernel
    refine ⟨hdepth, ?_⟩
    exact (hsession _ _ _ _ _ hafter _ (List.mem_singleton_self _) 1
      (by decide +kernel) _ _).trans hdepth

end Scriptlet
