import Mathlib.Data.List.TakeWhile
import Scriptlet.Program.PositionParser
import Scriptlet.Proofs.Bound
import Scriptlet.Proofs.Soundness

namespace Scriptlet

/-!
# Positions stay inside

Reading by position does what reading from the front of a list does, and its record shows that it
never leaves the list.

* `Reader.Event.Within` — no position lies behind the first end token, no token is looked up outside
  of the list, and a declaration that starts in front of the end moves on.
* `Reader.Agrees` — a reader stands where a cursor does, with nothing else on its record.
* `Reading.Follows` — a rule over positions does what a rule does; with one lemma per building
  block.
* `ByPosition.follows` — every rule over positions follows the rule that it is named after.
* `Program.positions_within` — so for every token list.
-/

/-! ### The first end token -/

namespace Program

/-- `endToken` is the token at `endPosition`, or one made up for a list without an end. -/
theorem endToken_eq (tokens : List Token) :
    endToken tokens = tokens[endPosition tokens]?.getD ⟨.eof, "", 0⟩ := by
  unfold endToken endPosition
  induction tokens with
  | nil => rfl
  | cons t ts ih => cases h : t.isEof <;> simp [h, ih]

/-- It is an end token in either case. -/
theorem isEof_endToken (tokens : List Token) : (endToken tokens).isEof = true := by
  unfold endToken
  cases h : tokens.find? (·.isEof) with
  | none => rfl
  | some t => exact List.find?_some h

/-- So `primary` fails on it. -/
theorem kind_endToken (tokens : List Token) : (endToken tokens).kind = .eof := by
  have h := isEof_endToken tokens
  unfold Token.isEof at h
  split at h
  · assumption
  · exact absurd h Bool.false_ne_true

/-- The end is not outside of the list. -/
theorem endPosition_le (tokens : List Token) : endPosition tokens ≤ tokens.length :=
  (List.takeWhile_prefix _).length_le

end Program

/-! ### Readers and cursors -/

/-- What may be on the record of a reader. -/
def Reader.Event.Within (tokens : List Token) : Reader.Event → Prop
  | .moved i => i ≤ Program.endPosition tokens
  | .looked i => i < tokens.length
  | .declared first last => first < Program.endPosition tokens → first < last

/-- A reader that stands where a cursor does. -/
structure Reader.Agrees (tokens : List Token) (r : Reader) (c : Cursor) : Prop where
  list : r.tokens = tokens
  current : r.current ≤ Program.endPosition tokens
  rest : c.rest = (tokens.takeWhile (!·.isEof)).drop r.current
  stop : c.stop = Program.endToken tokens
  nextNode : c.nextNode = r.nextNode
  report : c.report = r.report
  events : ∀ e ∈ r.events, e.Within tokens

/-- To look behind the next token is to look at the next one from there. -/
theorem Reader.checkNext_eq (r : Reader) (p : Token → Bool) :
    r.checkNext p = Reader.check { r with current := r.current + 1 } p := by
  unfold Reader.checkNext Reader.check Reader.atEnd Reader.peek
  cases r.tokens[r.current + 1]? <;> rfl

namespace Reader.Agrees

variable {tokens rest : List Token} {r : Reader} {c : Cursor} {t : Token}

/-- `Reader.new` stands where `Program.start` does. -/
theorem start (tokens : List Token) (nextNode : NodeId) (report : Report) :
    (Reader.new tokens nextNode report).Agrees tokens (Program.start tokens nextNode report) :=
  ⟨rfl, Nat.zero_le _, rfl, rfl, rfl, rfl, fun _ he => absurd he List.not_mem_nil⟩

variable (h : r.Agrees tokens c)

include h

/-- Where nothing is left to be read, the position is that of the end. -/
theorem current_eq (hrest : c.rest = []) :
    r.current = Program.endPosition tokens := by
  have hdrop := h.rest.symm.trans hrest
  rw [List.drop_eq_nil_iff] at hdrop
  exact Nat.le_antisymm h.current hdrop

/-- What is left to be read is what stands between the position and the end. -/
theorem length_rest :
    c.rest.length = Program.endPosition tokens - r.current := by
  rw [h.rest, List.length_drop]
  rfl

/-- The next token is at the position, and is no end token. -/
theorem at_current (hrest : c.rest = t :: rest) :
    r.current < Program.endPosition tokens ∧ tokens[r.current]? = some t ∧ t.isEof = false := by
  have hget : (tokens.takeWhile (!·.isEof))[r.current]? = some t := by
    rw [← List.head?_drop, ← h.rest, hrest]
    rfl
  obtain ⟨hlt, -⟩ := List.getElem?_eq_some_iff.1 hget
  have hmem := List.mem_takeWhile_imp (List.mem_of_getElem? hget)
  refine ⟨hlt, ?_, by simpa using hmem⟩
  obtain ⟨us, hus⟩ := List.takeWhile_prefix (l := tokens) (!·.isEof)
  calc tokens[r.current]?
    _ = (tokens.takeWhile (!·.isEof) ++ us)[r.current]? := by rw [hus]
    _ = some t := (List.getElem?_append_left hlt).trans hget

/-- Both look at the same next token, at the end as well. -/
theorem peek_eq : r.peek = c.peek := by
  unfold Reader.peek Cursor.peek
  rw [h.list]
  cases hrest : c.rest with
  | nil => rw [h.current_eq hrest, ← Program.endToken_eq, h.stop, List.headD_nil]
  | cons t rest => rw [(h.at_current hrest).2.1, Option.getD_some, List.headD_cons]

/-- Both see the end at the same time. -/
theorem atEnd_eq : r.atEnd = c.rest.isEmpty := by
  unfold Reader.atEnd
  rw [h.peek_eq, Cursor.peek]
  cases hrest : c.rest with
  | nil => rw [List.headD_nil, h.stop, Program.isEof_endToken, List.isEmpty_nil]
  | cons t rest => rw [List.headD_cons, (h.at_current hrest).2.2, List.isEmpty_cons]

/-- `Reader.check` looks at the next token. -/
theorem check_cons (hrest : c.rest = t :: rest) (p : Token → Bool) :
    r.check p = p t := by
  unfold Reader.check
  rw [h.atEnd_eq, h.peek_eq, Cursor.peek, hrest]
  rfl

/-- `Reader.check` finds no token at the end. -/
theorem check_nil (hrest : c.rest = []) (p : Token → Bool) :
    r.check p = false := by
  unfold Reader.check
  rw [h.atEnd_eq, hrest]
  rfl

/-- In front of a symbol, `Reader.check` sees what `Cursor.at` does. -/
theorem check_symbol (s : Symbol) : r.check (·.is s) = c.at s := by
  unfold Cursor.at
  cases hrest : c.rest with
  | nil => exact h.check_nil hrest _
  | cons t rest => exact h.check_cons hrest _

/-- Behind the next token, both stand in front of the one behind it. -/
theorem next (hrest : c.rest = t :: rest) :
    Reader.Agrees tokens { r with current := r.current + 1 } (c.moveTo rest) := by
  refine ⟨h.list, (h.at_current hrest).1, ?_, h.stop, h.nextNode, h.report, h.events⟩
  rw [← List.drop_drop, ← h.rest, hrest]
  rfl

/-- Both report the same. -/
theorem add (e : Error) :
    Reader.Agrees tokens { r with report := r.report.add e }
      { c with report := c.report.add e } :=
  { h with report := congrArg (·.add e) h.report }

/-- The record may go on with what is within. -/
theorem record {e : Event} (he : e.Within tokens) :
    (r.record e).Agrees tokens c :=
  { h with events := List.forall_mem_cons.2 ⟨he, h.events⟩ }

end Reader.Agrees

/-- Behind `Cursor.atNamedFunction`, `accept` finds the keyword. -/
theorem Cursor.exists_of_atNamedFunction {c : Cursor} (h : c.atNamedFunction = true) :
    ∃ t rest, c.rest = t :: rest ∧ t.is .funKw = true := by
  unfold Cursor.atNamedFunction at h
  split at h
  · next t name rest hrest => exact ⟨t, name :: rest, hrest, (Bool.and_eq_true_iff.1 h).1⟩
  · exact absurd h Bool.false_ne_true

theorem Parse.run_get (c : Cursor) : (get : Parse Cursor).run c = (.ok c, c) := rfl

/-- `accept` reads the symbol that it asks for. -/
theorem Parse.run_accept {c : Cursor} {s : Symbol} {t : Token} {rest : List Token}
    (hrest : c.rest = t :: rest) (ht : t.is s = true) :
    (accept s).run c = (.ok (some t), c.moveTo rest) := by
  unfold accept acceptIf
  rw [run_bind, run_get]
  dsimp only
  rw [hrest]
  dsimp only
  rw [if_pos ht]
  rfl

/-! ### Building blocks -/

/-- A rule over positions and a rule that end alike: the reader stands where the cursor does. -/
inductive Reading.Ends {α : Type} (tokens : List Token) :
    Except Reader.Stop α × Reader → Except Halt α × Cursor → Prop
  | ok {a r c} (h : Reader.Agrees tokens r c) : Ends tokens (.ok a, r) (.ok a, c)
  | error {e r c} (h : Reader.Agrees tokens r c) :
      Ends tokens (.error (.error e), r) (.error (.error e), c)
  | outOfFuel {r c} (h : Reader.Agrees tokens r c) :
      Ends tokens (.error .outOfFuel, r) (.error .outOfFuel, c)

/-- A rule over positions that ends like a rule wherever it starts like it. -/
def Reading.Follows {α : Type} (tokens : List Token) (q : Reading α) (p : Parse α) : Prop :=
  ∀ r c, Reader.Agrees tokens r c → Reading.Ends tokens (q.run r) (p.run c)

namespace Reading

variable {α β : Type} {tokens rest : List Token} {r : Reader} {c : Cursor} {t : Token}

/-- `Reading` is a state under exceptions: one rule, and the next one if it yields something. -/
theorem run_bind (q : Reading α) (f : α → Reading β) (r : Reader) :
    (q >>= f).run r =
      match q.run r with
      | (.ok a, r') => (f a).run r'
      | (.error h, r') => (.error h, r') := by
  show ExceptT.bindCont f (q r).1 (q r).2 = match q r with
    | (.ok a, r') => (f a).run r'
    | (.error h, r') => (.error h, r')
  rcases q r with ⟨_ | _, _⟩ <;> rfl

theorem run_get (r : Reader) : (get : Reading Reader).run r = (.ok r, r) := rfl

theorem run_report (e : Error) (r : Reader) :
    (report e).run r = (.ok (), { r with report := r.report.add e }) := rfl

theorem run_record (e : Reader.Event) (r : Reader) :
    (record e).run r = (.ok (), r.record e) := rfl

/-- An error goes to the handler, with the reader as the error left it. -/
theorem run_tryCatch (q : Reading α) (handler : Reader.Stop → Reading α) (r : Reader) :
    (tryCatch q handler).run r =
      match q.run r with
      | (.ok a, r') => (.ok a, r')
      | (.error stop, r') => (handler stop).run r' := by
  show ExceptT.tryCatch q handler r = match q r with
    | (.ok a, r') => (.ok a, r')
    | (.error stop, r') => handler stop r'
  unfold ExceptT.tryCatch
  simp only [ExceptT.mk, bind, StateT.bind]
  rcases q r with ⟨_ | _, _⟩ <;> rfl

variable {q q' : Reading α} {p p' : Parse α}

theorem follows_pure (a : α) : Follows tokens (pure a) (pure a) := fun _ _ h => .ok h

theorem follows_outOfFuel : Follows tokens (throw .outOfFuel : Reading α) (throw .outOfFuel) :=
  fun _ _ h => .outOfFuel h

/-- One rule after the other. -/
theorem Follows.bind {f : α → Reading β} {g : α → Parse β} (hq : Follows tokens q p)
    (hf : ∀ a, Follows tokens (f a) (g a)) : Follows tokens (q >>= f) (p >>= g) := by
  intro r c h
  rw [run_bind, Parse.run_bind]
  have hends := hq r c h
  generalize q.run r = x at hends ⊢
  generalize p.run c = y at hends ⊢
  cases hends with
  | ok h => exact hf _ _ _ h
  | error h => exact .error h
  | outOfFuel h => exact .outOfFuel h

theorem Follows.map {f : α → β} (hq : Follows tokens q p) :
    Follows tokens (f <$> q) (f <$> p) := by
  rw [map_eq_pure_bind, map_eq_pure_bind]
  exact hq.bind fun a => follows_pure (f a)

theorem Follows.ite {b : Prop} [Decidable b] (hq : Follows tokens q p)
    (hq' : Follows tokens q' p') :
    Follows tokens (if b then q else q') (if b then p else p') := by
  split
  · exact hq
  · exact hq'

/-- Two ways to the same continuation. -/
theorem Follows.join {b : Prop} [Decidable b] {f : α → Reading β} {g : α → Parse β}
    (hq : Follows tokens q p) (hq' : Follows tokens q' p')
    (hf : ∀ a, Follows tokens (f a) (g a)) :
    Follows tokens (if b then q >>= f else q' >>= f) (if b then p >>= g else p' >>= g) :=
  Follows.ite (hq.bind hf) (hq'.bind hf)

/-! ### Looking at tokens -/

/-- The building blocks: `atEnd` over positions follows `Parse.atEnd`, and so on. -/
theorem follows_atEnd : Follows tokens atEnd Parse.atEnd := by
  intro r c h
  show Ends tokens (.ok r.atEnd, r) (.ok c.rest.isEmpty, c)
  rw [h.atEnd_eq]
  exact .ok h

theorem follows_check (s : Symbol) : Follows tokens (check s) (Parse.check s) := by
  intro r c h
  show Ends tokens (.ok (r.check (·.is s)), r) (.ok (c.at s), c)
  rw [h.check_symbol]
  exact .ok h

/-- In front of a named function, the next token is the keyword. -/
theorem follows_atNamedFunction
    (hq : ∀ r c t rest, r.Agrees tokens c → c.rest = t :: rest → t.is .funKw = true →
      Ends tokens (q.run r) (p.run c))
    (hq' : Follows tokens q' p') :
    Follows tokens (atNamedFunction >>= fun b => if b = true then q else q')
      (get >>= fun c => if c.atNamedFunction = true then p else p') := by
  intro r c h
  show Ends tokens ((if (r.check (·.is .funKw) && r.checkNext (·.isIdentifier)) = true then q
    else q').run r) ((if c.atNamedFunction = true then p else p').run c)
  have heq : (r.check (·.is .funKw) && r.checkNext (·.isIdentifier)) = c.atNamedFunction := by
    unfold Cursor.atNamedFunction
    cases hrest : c.rest with
    | nil => rw [h.check_nil hrest, Bool.false_and]
    | cons t rest =>
      rw [h.check_cons hrest, Reader.checkNext_eq]
      cases rest with
      | nil => rw [(h.next hrest).check_nil rfl, Bool.and_false]
      | cons t' rest => rw [(h.next hrest).check_cons rfl]
  rw [heq]
  split
  · next hnamed =>
    obtain ⟨t, rest, hrest, ht⟩ := Cursor.exists_of_atNamedFunction hnamed
    exact hq r c t rest h hrest ht
  · exact hq' r c h

theorem follows_report (e : Error) : Follows tokens (report e) (Parse.report e) :=
  fun _ _ h => .ok (h.add e)

theorem follows_reportHere (fault : GrammarFault) :
    Follows tokens (reportHere fault) (Parse.reportHere fault) := by
  intro r c h
  show Ends tokens (.ok (), { r with report := r.report.add (.grammar (.token r.peek) fault) })
    (.ok (), { c with report := c.report.add (.grammar (.token c.peek) fault) })
  rw [h.peek_eq]
  exact .ok (h.add _)

theorem follows_fail (what : Expected) :
    Follows tokens (fail what : Reading α) (Parse.fail what) := by
  intro r c h
  show Ends tokens (.error (.error (.grammar (.token r.peek) (.expected what))), r)
    (.error (.error (.grammar (.token c.peek) (.expected what))), c)
  rw [h.peek_eq]
  exact .error h

theorem follows_freshNode : Follows tokens freshNode Parse.freshNode := by
  intro r c h
  show Ends tokens (.ok r.nextNode, { r with nextNode := r.nextNode + 1 })
    (.ok c.nextNode, { c with nextNode := c.nextNode + 1 })
  rw [h.nextNode]
  exact .ok { h with nextNode := rfl }

/-! ### Reading tokens -/

/-- In front of the first token, the next one is yielded and nothing is looked up. -/
theorem run_previous_zero (hi : r.current = 0) : previous.run r = (.ok r.peek, r) := by
  obtain ⟨tokens, current, nextNode, report, events⟩ := r
  cases hi
  rfl

/-- The token in front of a position where a cursor stands is in the list. -/
theorem run_previous_of_agrees {i : Nat} (h : r.Agrees tokens c) (hi : r.current = i + 1)
    (ht : tokens[i]? = some t) :
    ∃ r', previous.run r = (.ok t, r') ∧ r'.Agrees tokens c ∧ r'.current = r.current := by
  have hrun : previous.run r = (.ok t, r.record (.looked i)) := by
    unfold previous
    rw [run_bind, run_get]
    dsimp only
    rw [hi]
    dsimp only
    rw [run_bind, run_record]
    dsimp only
    rw [h.list, ht]
    rfl
  exact ⟨_, hrun, h.record (List.getElem?_eq_some_iff.1 ht).1, rfl⟩

/-- In front of the end, a step is taken, and the token behind it is yielded. -/
theorem run_advance (h : r.Agrees tokens c) (hrest : c.rest = t :: rest) :
    ∃ r', advance.run r = (.ok t, r') ∧ r'.Agrees tokens (c.moveTo rest) ∧
      r'.current = r.current + 1 := by
  obtain ⟨hlt, ht, -⟩ := h.at_current hrest
  have hstep : step.run r = (.ok (), Reader.record { r with current := r.current + 1 }
      (.moved (r.current + 1))) := by
    unfold step
    rw [run_bind]
    show (unless r.atEnd do set _ : Reading PUnit).run r = _
    rw [h.atEnd_eq, hrest]
    rfl
  have hnext := (h.next hrest).record (e := .moved (r.current + 1)) hlt
  obtain ⟨r', hrun, h', hcurrent⟩ := run_previous_of_agrees hnext rfl ht
  refine ⟨r', ?_, h', hcurrent⟩
  unfold advance
  rw [run_bind, hstep]
  exact hrun

/-- At the end, no step is taken. -/
theorem run_advance_nil (h : r.Agrees tokens c) (hrest : c.rest = []) :
    ∃ t r', advance.run r = (.ok t, r') ∧ r'.Agrees tokens c := by
  have hstep : step.run r = (.ok (), r) := by
    unfold step
    rw [run_bind]
    show (unless r.atEnd do set _ : Reading PUnit).run r = _
    rw [h.atEnd_eq, hrest]
    rfl
  have hadvance : advance.run r = previous.run r := by
    unfold advance
    rw [run_bind, hstep]
  rw [hadvance]
  cases hi : r.current with
  | zero => exact ⟨r.peek, r, run_previous_zero hi, h⟩
  | succ i =>
    have hlt : i < tokens.length := by
      have hle := h.current.trans (Program.endPosition_le tokens)
      omega
    obtain ⟨r', hrun, h', -⟩ := run_previous_of_agrees h hi (List.getElem?_eq_getElem hlt)
    exact ⟨_, r', hrun, h'⟩

/-- What is read where a token is in front is read by both. -/
theorem follows_advance_bind {f : Token → Reading α} (h : r.Agrees tokens c)
    (hrest : c.rest = t :: rest) (hf : Follows tokens (f t) p) :
    Ends tokens ((advance >>= f).run r) (p.run (c.moveTo rest)) := by
  obtain ⟨r', hrun, h', -⟩ := run_advance h hrest
  rw [run_bind, hrun]
  exact hf r' _ h'

/-- A token is read if it passes the test, and only then is the reader moved. -/
theorem follows_acceptIf (p : Token → Bool) :
    Follows tokens (acceptIf p) (Parse.acceptIf p) := by
  intro r c h
  unfold acceptIf Parse.acceptIf
  rw [run_bind, run_get, Parse.run_bind, Parse.run_get]
  dsimp only
  cases hrest : c.rest with
  | nil =>
    rw [h.check_nil hrest]
    exact .ok h
  | cons t rest =>
    rw [h.check_cons hrest]
    dsimp only
    cases p t with
    | false => exact .ok h
    | true =>
      show Ends tokens ((some <$> advance : Reading (Option Token)).run r)
        ((pure (some t) : Parse (Option Token)).run (c.moveTo rest))
      rw [map_eq_pure_bind]
      exact follows_advance_bind h hrest (follows_pure (some t))

/-- Both branch on the same symbol. -/
theorem Follows.branch {s : Symbol} {found : Token → Reading α} {found' : Token → Parse α}
    {other : Reading α} {other' : Parse α} (hfound : ∀ t, Follows tokens (found t) (found' t))
    (hother : Follows tokens other other') :
    Follows tokens (branch s found other) (Parse.branch s found' other') :=
  (follows_acceptIf _).bind fun
    | some t => hfound t
    | none => hother

theorem follows_expect (s : Symbol) (what : Expected) :
    Follows tokens (expect s what) (Parse.expect s what) :=
  Follows.branch follows_pure (follows_fail what)

theorem follows_expectName (what : Expected) :
    Follows tokens (expectName what) (Parse.expectName what) :=
  (follows_acceptIf _).bind fun
    | some t => follows_pure t
    | none => follows_fail what

/-! ### Going on after an error -/

/-- At the end there is nothing to skip. -/
theorem run_resume_nil (h : r.Agrees tokens c) (hrest : c.rest = []) (n : Nat) :
    (resume (n + 1)).run r = (.ok (), r) := by
  rw [resume, run_bind]
  show (if r.atEnd = true then pure () else _ : Reading Unit).run r = _
  rw [h.atEnd_eq, hrest]
  rfl

/-- Behind a token, both go on to the next statement. -/
theorem run_resume {n i : Nat} (h : r.Agrees tokens c) (hi : r.current = i + 1)
    (ht : tokens[i]? = some t) (hn : c.rest.length < n) :
    ∃ r', (resume n).run r = (.ok (), r') ∧
      r'.Agrees tokens (c.moveTo (resumeAfter t c.rest)) := by
  -- The token behind which the reader stands becomes the next one with each step.
  induction n generalizing r c i t with
  | zero => omega
  | succ n ih =>
    cases hrest : c.rest with
    | nil =>
      refine ⟨r, run_resume_nil h hrest n, ?_⟩
      show r.Agrees tokens (c.moveTo [])
      rw [← hrest]
      exact h
    | cons u rest =>
      rw [resume, run_bind]
      show ∃ r', (if r.atEnd = true then _ else _ : Reading Unit).run r = _ ∧ _
      rw [h.atEnd_eq, hrest]
      obtain ⟨r₁, hprevious, h₁, hcurrent₁⟩ := run_previous_of_agrees h hi ht
      have hu : tokens[r.current]? = some u := (h.at_current hrest).2.1
      have hpeek : r₁.peek = u := by
        rw [h₁.peek_eq, Cursor.peek, hrest, List.headD_cons]
      rw [List.isEmpty_cons, if_neg Bool.false_ne_true, run_bind, hprevious]
      show ∃ r', (if (t.is .semicolon || r₁.peek.startsStatement) = true then _ else _ :
        Reading Unit).run r₁ = _ ∧ _
      rw [hpeek, resumeAfter]
      split
      · refine ⟨r₁, rfl, ?_⟩
        rw [← hrest]
        exact h₁
      · obtain ⟨r₂, hadvance, h₂, hcurrent₂⟩ := run_advance h₁ hrest
        rw [run_bind, hadvance]
        rw [hrest, List.length_cons] at hn
        exact ih h₂ (hcurrent₂.trans (by rw [hcurrent₁])) hu (Nat.lt_of_succ_lt_succ hn)

/-- `synchronize` skips one token and resumes. -/
theorem run_synchronize_of_advance {r₁ : Reader} (h : advance.run r = (.ok t, r₁)) :
    synchronize.run r = (resume (r₁.tokens.length + 1)).run r₁ := by
  unfold synchronize
  rw [run_bind, h]
  dsimp only
  rw [run_bind, run_get]

/-- Both skip the token at which a declaration failed and go on to the next statement. -/
theorem run_synchronize (h : r.Agrees tokens c) :
    ∃ r', synchronize.run r = (.ok (), r') ∧
      r'.Agrees tokens (c.moveTo (Scriptlet.synchronize c.rest)) := by
  cases hrest : c.rest with
  | nil =>
    obtain ⟨t, r₁, hadvance, h₁⟩ := run_advance_nil h hrest
    rw [run_synchronize_of_advance hadvance]
    refine ⟨r₁, run_resume_nil h₁ hrest _, ?_⟩
    show r₁.Agrees tokens (c.moveTo [])
    rw [← hrest]
    exact h₁
  | cons t rest =>
    obtain ⟨r₁, hadvance, h₁, hcurrent⟩ := run_advance h hrest
    have hlength : rest.length < r₁.tokens.length + 1 := by
      have hle : rest.length ≤ (tokens.takeWhile (!·.isEof)).length := by
        rw [show rest = _ from h₁.rest]
        exact (List.drop_suffix _ _).length_le
      rw [h₁.list]
      exact Nat.lt_succ_of_le (hle.trans (List.takeWhile_prefix _).length_le)
    rw [run_synchronize_of_advance hadvance]
    exact run_resume h₁ hcurrent (h.at_current hrest).2.1 hlength

end Reading

/-! ### Every rule -/

namespace ByPosition

open Reading

variable {tokens : List Token}

/-- By induction on the bound, for `parametersFrom` is not part of the mutual block. -/
theorem follows_parametersFrom (n count : Nat) :
    Follows tokens (parametersFrom n count) (Rule.parametersFrom n count) := by
  induction n generalizing count with
  | zero => exact follows_outOfFuel
  | succ n ih =>
    have hname : Follows tokens (expectName .paramName) _ := follows_expectName _
    have hrest := hname.bind fun param =>
      (Follows.branch (s := .comma) (fun _ => ih (count + 1)) (follows_pure [])).bind fun rest =>
        follows_pure (param :: rest)
    exact Follows.ite ((follows_reportHere _).bind fun _ => hrest) hrest

theorem follows_parameters (n : Nat) : Follows tokens (parameters n) (Rule.parameters n) :=
  (follows_check _).bind fun _ =>
    Follows.join (follows_pure _) (follows_parametersFrom n 0) fun _ =>
      (follows_expect _ _).bind fun _ => follows_pure _

/-- The target decides, which is the same tree on both sides. -/
theorem follows_assignTo (target : Expr) (equals : Token) (value : Expr) :
    Follows tokens (assignTo target equals value) (Rule.assignTo target equals value) := by
  cases target with
  | «variable» id name => exact follows_freshNode.bind fun _ => follows_pure _
  | get object name => exact follows_pure _
  | _ => exact (follows_report _).bind fun _ => follows_pure _

/-- All rules over positions with the same bound follow their rules. -/
structure AllFollow (tokens : List Token) (n : Nat) : Prop where
  declaration : Follows tokens (declaration n) (Rule.declaration n)
  declarationOrStatement :
    Follows tokens (declarationOrStatement n) (Rule.declarationOrStatement n)
  classDeclaration : Follows tokens (classDeclaration n) (Rule.classDeclaration n)
  methods : Follows tokens (methods n) (Rule.methods n)
  function : ∀ f, Follows tokens (function n f) (Rule.function n f)
  varDeclaration : Follows tokens (varDeclaration n) (Rule.varDeclaration n)
  statement : Follows tokens (statement n) (Rule.statement n)
  printStatement : Follows tokens (printStatement n) (Rule.printStatement n)
  expressionStatement : Follows tokens (expressionStatement n) (Rule.expressionStatement n)
  forStatement : Follows tokens (forStatement n) (Rule.forStatement n)
  ifStatement : Follows tokens (ifStatement n) (Rule.ifStatement n)
  whileStatement : Follows tokens (whileStatement n) (Rule.whileStatement n)
  returnStatement : ∀ t, Follows tokens (returnStatement n t) (Rule.returnStatement n t)
  block : Follows tokens (block n) (Rule.block n)
  declarations : Follows tokens (declarations n) (Rule.declarations n)
  expression : Follows tokens (expression n) (Rule.expression n)
  commaRest : ∀ e, Follows tokens (commaRest n e) (Rule.commaRest n e)
  assignment : Follows tokens (assignment n) (Rule.assignment n)
  conditional : ∀ e t, Follows tokens (conditional n e t) (Rule.conditional n e t)
  tier : ∀ t, Follows tokens (tier n t) (Rule.tier n t)
  tierRest : ∀ t e, Follows tokens (tierRest n t e) (Rule.tierRest n t e)
  operand : ∀ t, Follows tokens (operand n t) (Rule.operand n t)
  unary : Follows tokens (unary n) (Rule.unary n)
  callRest : ∀ e, Follows tokens (callRest n e) (Rule.callRest n e)
  argumentsFrom : ∀ count, Follows tokens (argumentsFrom n count) (Rule.argumentsFrom n count)
  primary : Follows tokens (primary n) (Rule.primary n)

/-- What a declaration over positions does, by what `declarationOrStatement` does. -/
theorem run_declaration (n : Nat) (r : Reader) :
    (declaration (n + 1)).run r =
      match (declarationOrStatement n).run r with
      | (.ok s, r') => (.ok (some s), r'.record (.declared r.current r'.current))
      | (.error (.error e), r') =>
        match Reading.synchronize.run { r' with report := r'.report.add e } with
        | (.ok _, r'') => (.ok none, r''.record (.declared r.current r''.current))
        | (.error stop, r'') => (.error stop, r'')
      | (.error stop, r') => (.error stop, r') := by
  rw [declaration, run_bind]
  show (tryCatch (some <$> declarationOrStatement n) _ >>= _ : Reading (Option Stmt)).run r = _
  rw [run_bind, run_tryCatch, map_eq_pure_bind, run_bind]
  cases (declarationOrStatement n).run r with
  | mk x r' =>
    rcases x with (e | _ | _) | s
    case error.error =>
      dsimp only
      rw [run_bind, run_report]
      dsimp only
      rw [run_bind]
      rcases Reading.synchronize.run { r' with report := r'.report.add e } with ⟨_ | _, _⟩ <;> rfl
    all_goals rfl

variable {n : Nat}

/-- A declaration in front of the end moves on. -/
theorem within_declared {r r' : Reader} {c c' : Cursor} {x : Option Stmt}
    (h : r.Agrees tokens c) (h' : r'.Agrees tokens c')
    (hrun : (Rule.declaration n).run c = (.ok x, c')) :
    (Reader.Event.declared r.current r'.current).Within tokens := by
  intro hlt
  have hlength := h.length_rest
  have hlength' := h'.length_rest
  have hne : c.rest ≠ [] := by
    intro hnil
    rw [hnil, List.length_nil] at hlength
    omega
  -- Fewer tokens are left, so the position is higher.
  have hall := Rule.advances (Nat.le_refl n)
  have hless := (Parse.Ensures.of_run (hall.declaration c true fun _ => hne) hrun).2.1 rfl
  omega

section

variable (ih : AllFollow tokens n)

include ih

/-- Both record where a declaration ends, or resume behind its error. -/
theorem follows_declaration :
    Follows tokens (declaration (n + 1)) (Rule.declaration (n + 1)) := by
  intro r c h
  have hrun := Rule.run_declaration n c
  rw [run_declaration]
  have hends := ih.declarationOrStatement r c h
  generalize (declarationOrStatement n).run r = x at hends ⊢
  generalize (Rule.declarationOrStatement n).run c = y at hends hrun
  cases hends with
  | ok h' =>
    rw [hrun]
    exact .ok (h'.record (within_declared h h' hrun))
  | error h' =>
    obtain ⟨r'', hsync, h''⟩ := run_synchronize (h'.add _)
    rw [hrun]
    dsimp only
    rw [hsync]
    exact .ok (h''.record (within_declared h h'' hrun))
  | outOfFuel h' =>
    rw [hrun]
    exact .outOfFuel h'

/-- The keyword `fun` is read by `advance` here and by `accept` there. -/
theorem follows_declarationOrStatement :
    Follows tokens (declarationOrStatement (n + 1)) (Rule.declarationOrStatement (n + 1)) := by
  rw [declarationOrStatement, Rule.declarationOrStatement]
  refine Follows.branch (fun _ => ih.classDeclaration) (follows_atNamedFunction ?_ ?_)
  · intro r c t rest h hrest ht
    rw [Parse.run_bind, Parse.run_accept hrest ht]
    exact follows_advance_bind h hrest ((ih.function _).bind fun _ => follows_pure _)
  · exact Follows.branch (fun _ => ih.varDeclaration) ih.statement

theorem follows_forStatement :
    Follows tokens (forStatement (n + 1)) (Rule.forStatement (n + 1)) := by
  rw [forStatement, Rule.forStatement]
  refine (follows_expect _ _).bind fun _ => Follows.bind ?_ fun initializer => ?_
  · exact Follows.branch (fun _ => follows_pure none) <|
      Follows.branch (fun _ => ih.varDeclaration.map) ih.expressionStatement.map
  refine (follows_check _).bind fun _ => Follows.join (follows_pure _) ih.expression.map fun _ => ?_
  refine (follows_expect _ _).bind fun _ => (follows_check _).bind fun _ =>
    Follows.join (follows_pure _) ih.expression.map fun _ => ?_
  exact (follows_expect _ _).bind fun _ => ih.statement.bind fun _ => follows_pure _

theorem follows_argumentsFrom (count : Nat) :
    Follows tokens (argumentsFrom (n + 1) count) (Rule.argumentsFrom (n + 1) count) := by
  have hrest := ih.assignment.bind fun argument =>
    (Follows.branch (s := .comma) (fun _ => ih.argumentsFrom (count + 1))
      (follows_pure [])).bind fun rest => follows_pure (argument :: rest)
  exact Follows.ite ((follows_reportHere _).bind fun _ => hrest) hrest

theorem follows_callRest (e : Expr) :
    Follows tokens (callRest (n + 1) e) (Rule.callRest (n + 1) e) := by
  rw [callRest, Rule.callRest]
  refine Follows.branch (fun _ => (follows_check _).bind fun _ => ?_) <|
    Follows.branch (fun _ => (follows_expectName _).bind fun _ => ih.callRest _) (follows_pure e)
  exact Follows.join (follows_pure _) (ih.argumentsFrom 0) fun _ =>
    (follows_expect _ _).bind fun _ => ih.callRest _

/-- Both branch on the kind of the next token. -/
theorem follows_primary :
    Follows tokens (primary (n + 1)) (Rule.primary (n + 1)) := by
  intro r c h
  rw [primary, Rule.primary, run_bind, Parse.run_bind, run_get, Parse.run_get]
  dsimp only
  have hfail : Ends tokens ((fail .expression : Reading Expr).run r) _ := follows_fail _ r c h
  cases hrest : c.rest with
  | nil =>
    have hend : r.peek.kind = .eof := by
      rw [h.peek_eq, Cursor.peek, hrest, List.headD_nil, h.stop, Program.kind_endToken]
    rw [hend]
    exact hfail
  | cons t rest =>
    have hpeek : r.peek = t := by rw [h.peek_eq, Cursor.peek, hrest, List.headD_cons]
    rw [hpeek]
    -- Every arm that does not fail first reads `t`.
    have hskip : ∀ {f : Token → Reading Expr} {p : Parse Expr}, Follows tokens (f t) p →
        Ends tokens ((advance >>= f).run r) ((do set (c.moveTo rest); p : Parse Expr).run c) := by
      intro f p hf
      show Ends tokens _ (p.run (c.moveTo rest))
      exact follows_advance_bind h hrest hf
    dsimp only
    cases t.kind with
    | symbol s =>
      cases s with
      | falseKw | trueKw | nilKw => exact hskip (follows_pure _)
      | thisKw => exact hskip (follows_freshNode.bind fun _ => follows_pure _)
      | leftParen =>
        exact hskip (ih.expression.bind fun _ => (follows_expect _ _).bind fun _ => follows_pure _)
      | funKw =>
        exact hskip <| (follows_expect _ _).bind fun _ => (follows_parameters n).bind fun _ =>
          (follows_expect _ _).bind fun _ => ih.block.bind fun _ => follows_pure _
      | _ => exact hfail
    | number x | string x => exact hskip (follows_pure _)
    | identifier => exact hskip (follows_freshNode.bind fun _ => follows_pure _)
    | eof => exact hfail

end

/-- **By position.** Every rule over positions follows the rule that it is named after. -/
theorem follows (tokens : List Token) (n : Nat) : AllFollow tokens n := by
  induction n with
  | zero => constructor <;> intros <;> exact follows_outOfFuel
  | succ n ih =>
    constructor
    case declaration => exact follows_declaration ih
    case declarationOrStatement => exact follows_declarationOrStatement ih
    case classDeclaration =>
      exact (follows_expectName _).bind fun _ => (follows_expect _ _).bind fun _ =>
        ih.methods.bind fun _ => (follows_expect _ _).bind fun _ => follows_pure _
    case methods =>
      exact (follows_check _).bind fun _ => follows_atEnd.bind fun _ =>
        Follows.ite (follows_pure _) <|
          (ih.function _).bind fun _ => ih.methods.bind fun _ => follows_pure _
    case function =>
      exact fun _ => (follows_expectName _).bind fun _ => (follows_expect _ _).bind fun _ =>
        (follows_parameters n).bind fun _ => (follows_expect _ _).bind fun _ =>
          ih.block.bind fun _ => follows_pure _
    case varDeclaration =>
      exact (follows_expectName _).bind fun _ =>
        (Follows.branch (fun _ => ih.expression.map) (follows_pure _)).bind fun _ =>
          (follows_expect _ _).bind fun _ => follows_pure _
    case statement =>
      exact Follows.branch (fun _ => ih.forStatement) <|
        Follows.branch (fun _ => ih.ifStatement) <|
        Follows.branch (fun _ => ih.whileStatement) <|
        Follows.branch (fun t => ih.returnStatement t) <|
        Follows.branch (fun _ => ih.block.map) <|
        Follows.branch (fun _ => ih.printStatement) ih.expressionStatement
    case printStatement =>
      exact ih.expression.bind fun _ => (follows_expect _ _).bind fun _ => follows_pure _
    case expressionStatement =>
      exact ih.expression.bind fun _ => (follows_expect _ _).bind fun _ => follows_pure _
    case forStatement => exact follows_forStatement ih
    case ifStatement =>
      exact (follows_expect _ _).bind fun _ => ih.expression.bind fun _ =>
        (follows_expect _ _).bind fun _ => ih.statement.bind fun _ =>
          (Follows.branch (fun _ => ih.statement.map) (follows_pure _)).bind fun _ =>
            follows_pure _
    case whileStatement =>
      exact (follows_expect _ _).bind fun _ => ih.expression.bind fun _ =>
        (follows_expect _ _).bind fun _ => ih.statement.bind fun _ => follows_pure _
    case returnStatement =>
      exact fun _ => (follows_check _).bind fun _ =>
        Follows.join (follows_pure _) ih.expression.map fun _ =>
          (follows_expect _ _).bind fun _ => follows_pure _
    case block =>
      exact ih.declarations.bind fun _ => (follows_expect _ _).bind fun _ => follows_pure _
    case declarations =>
      exact (follows_check _).bind fun _ => follows_atEnd.bind fun _ =>
        Follows.ite (follows_pure _) <|
          ih.declaration.bind fun _ => ih.declarations.bind fun _ => follows_pure _
    case expression => exact ih.assignment.bind fun _ => ih.commaRest _
    case commaRest =>
      exact fun _ => Follows.branch (fun _ => ih.assignment.bind fun _ => ih.commaRest _)
        (follows_pure _)
    case assignment =>
      exact (ih.tier _).bind fun _ =>
        Follows.branch (fun _ => ih.assignment.bind fun _ => follows_assignTo _ _ _) <|
          Follows.branch (fun _ => ih.conditional _ _) (follows_pure _)
    case conditional =>
      exact fun _ _ => ih.assignment.bind fun _ => (follows_expect _ _).bind fun _ =>
        ih.assignment.bind fun _ => follows_pure _
    case tier => exact fun t => (ih.operand t).bind fun _ => ih.tierRest _ _
    case tierRest =>
      exact fun t _ => (follows_acceptIf _).bind fun
        | some _ => (ih.operand t).bind fun _ => ih.tierRest _ _
        | none => follows_pure _
    case operand =>
      rintro (_ | _ | _ | _ | _ | _)
      case factor => exact ih.unary
      all_goals exact ih.tier _
    case unary =>
      exact (follows_acceptIf _).bind fun
        | some _ => ih.unary.bind fun _ => follows_pure _
        | none => ih.primary.bind fun _ => ih.callRest _
    case callRest => exact follows_callRest ih
    case argumentsFrom => exact follows_argumentsFrom ih
    case primary => exact follows_primary ih

/-- `AllFollow.declaration`, until the end. -/
theorem follows_program (n : Nat) : Follows tokens (program n) (Rule.program n) := by
  induction n with
  | zero => exact follows_outOfFuel
  | succ n ih =>
    exact follows_atEnd.bind fun _ => Follows.ite (follows_pure _) <|
      (follows tokens n).declaration.bind fun _ => ih.bind fun _ => follows_pure _

end ByPosition

/-! ### Whole token lists -/

/-- **Reading stays inside.** The rules over positions read every token list to its end, whatever
    its kinds are and whether or not it has an end token. They yield what `parse` yields. On their
    record, no position lies behind the first end token, no token is looked up outside of the list,
    and every declaration asked for in front of the end moves on. What stands behind the first end
    token does not matter. -/
theorem Program.positions_within (tokens : List Token) (nextNode : NodeId) (report : Report) :
    ∃ statements r,
      (ByPosition.program (fuel tokens.length)).run (Reader.new tokens nextNode report) =
        (.ok statements, r) ∧
      parse tokens nextNode report = ⟨statements, r.report, r.nextNode⟩ ∧
      r.current = endPosition tokens ∧
      (∀ e ∈ r.events, e.Within tokens) ∧
      parse (upToEnd tokens) nextNode report = parse tokens nextNode report := by
  obtain ⟨statements, c, hrun, hparse⟩ := run_program tokens nextNode report
  have hends := ByPosition.follows_program (fuel tokens.length) _ _
    (Reader.Agrees.start tokens nextNode report)
  have hsound := (Rule.sound_program (fuel tokens.length) _).of_run hrun
  rw [hrun] at hends
  generalize (ByPosition.program (fuel tokens.length)).run _ = x at hends ⊢
  cases hends with
  | @ok _ r _ h =>
    refine ⟨statements, r, rfl, ?_, h.current_eq hsound.2, h.events, parse_upToEnd ..⟩
    rw [hparse, h.report, h.nextNode]

end Scriptlet
