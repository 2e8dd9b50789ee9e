import Mathlib.Logic.Basic
import Scriptlet.Program.Parser

namespace Scriptlet

/-!
# Reasoning about rules

What a rule of the grammar does to the cursor, as conditions on its two ways to end.

* `Parse.Ensures p c Q stop` — from the cursor `c`, the rule `p` either yields a tree and a cursor
  that satisfy `Q`, or stops in a way that satisfies `stop`.
* `ensures_bind`, `ensures_branch`, … — one equivalence per building block, so that `simp` takes a
  rule apart into conditions on the rules it calls.
* `Parse.Yields p c Q` — if `p` yields a tree from `c`, then as `Q` says; with one lemma per
  building block for proofs that follow a rule from token to token.
* `Rule.ensures_declaration` — the one rule that goes on after an error.
-/

/-! ### The next token -/

namespace Cursor

/-- The cursor behind the next token, in front of `rest`. -/
def moveTo (c : Cursor) (rest : List Token) : Cursor := { c with rest := rest }

@[simp]
theorem rest_moveTo (c : Cursor) (rest : List Token) : (c.moveTo rest).rest = rest := rfl

@[simp]
theorem stop_moveTo (c : Cursor) (rest : List Token) : (c.moveTo rest).stop = c.stop := rfl

@[simp]
theorem nextNode_moveTo (c : Cursor) (rest : List Token) :
    (c.moveTo rest).nextNode = c.nextNode := rfl

@[simp]
theorem report_moveTo (c : Cursor) (rest : List Token) : (c.moveTo rest).report = c.report := rfl

/-- The next token, if there is one, does not satisfy `p`. -/
def Lacks (c : Cursor) (p : Token → Bool) : Prop := ∀ t rest, c.rest = t :: rest → p t = false

/-- A cursor stands at the symbol `s` exactly if it does not lack it. -/
theorem lacks_is_iff (c : Cursor) (s : Symbol) : c.Lacks (·.is s) ↔ c.at s = false := by
  unfold Lacks Cursor.at
  cases hrest : c.rest with
  | nil => simp
  | cons t rest => simp

end Cursor

namespace Parse

variable {α β : Type} {p : Parse α} {c : Cursor}
variable {Q Q' : α → Cursor → Prop} {R : β → Cursor → Prop} {stop stop' : Halt → Cursor → Prop}

/-- From `c`, the rule ends with a tree as `Q` says or without one as `stop` says. -/
def Ensures (p : Parse α) (c : Cursor) (Q : α → Cursor → Prop) (stop : Halt → Cursor → Prop) :
    Prop :=
  match p.run c with
  | (.ok a, c') => Q a c'
  | (.error h, c') => stop h c'

variable {c' : Cursor} {b : Prop} {s : Symbol} {q : Token → Bool} {what : Expected}

/-- Weaker conditions are ensured as well. -/
theorem Ensures.mono (h : p.Ensures c Q stop) (hQ : ∀ a c', Q a c' → Q' a c')
    (hstop : ∀ h c', stop h c' → stop' h c') : p.Ensures c Q' stop' := by
  unfold Ensures at h ⊢
  split at h
  · next a c' hrun => exact hQ a c' h
  · next e c' hrun => exact hstop e c' h

/-- Two guarantees hold together. -/
theorem Ensures.and (h : p.Ensures c Q stop) (h' : p.Ensures c Q' stop') :
    p.Ensures c (fun a c' => Q a c' ∧ Q' a c') (fun e c' => stop e c' ∧ stop' e c') := by
  unfold Ensures at h h' ⊢
  split at h
  · next a c' hrun => rw [hrun] at h'; exact ⟨h, h'⟩
  · next e c' hrun => rw [hrun] at h'; exact ⟨h, h'⟩

/-- What is ensured holds at the end of a run that yields a tree. -/
theorem Ensures.of_run {a : α} (h : p.Ensures c Q stop) (hrun : p.run c = (.ok a, c')) :
    Q a c' := by
  unfold Ensures at h
  rw [hrun] at h
  exact h

/-! ### Sequences, results and stops -/

/-- A sequence runs its second part from where the first one ended. -/
theorem run_bind (p : Parse α) (f : α → Parse β) (c : Cursor) :
    (p >>= f).run c =
      match p.run c with
      | (.ok a, c') => (f a).run c'
      | (.error h, c') => (.error h, c') := by
  show ExceptT.bindCont f (p c).1 (p c).2 = match p c with
    | (.ok a, c') => (f a).run c'
    | (.error h, c') => (.error h, c')
  rcases p c with ⟨_ | _, _⟩ <;> rfl

/-- The second rule starts where the first one ends. -/
@[simp]
theorem ensures_bind {f : α → Parse β} :
    (p >>= f).Ensures c R stop ↔ p.Ensures c (fun a c' => (f a).Ensures c' R stop) stop := by
  unfold Ensures
  rw [run_bind]
  rcases p.run c with ⟨_ | _, _⟩ <;> rfl

@[simp]
theorem ensures_pure {a : α} : (pure a : Parse α).Ensures c Q stop ↔ Q a c := Iff.rfl

@[simp]
theorem ensures_map {f : α → β} :
    (f <$> p).Ensures c R stop ↔ p.Ensures c (fun a c' => R (f a) c') stop := by
  rw [map_eq_pure_bind, ensures_bind]
  rfl

@[simp]
theorem ensures_get {Q : Cursor → Cursor → Prop} :
    (get : Parse Cursor).Ensures c Q stop ↔ Q c c := Iff.rfl

@[simp]
theorem ensures_set {c₁ : Cursor} {Q : PUnit → Cursor → Prop} :
    (set c₁ : Parse PUnit).Ensures c Q stop ↔ Q ⟨⟩ c₁ := Iff.rfl

/-- A choice that is made before anything is read. -/
@[simp]
theorem ensures_ite [Decidable b] {q : Parse α} :
    (if b then p else q).Ensures c Q stop ↔
      (b → p.Ensures c Q stop) ∧ (¬ b → q.Ensures c Q stop) := by
  by_cases hb : b <;> simp [hb]

/-! ### Looking at the next token -/

@[simp]
theorem ensures_atEnd {Q : Bool → Cursor → Prop} :
    atEnd.Ensures c Q stop ↔ Q c.rest.isEmpty c := Iff.rfl

@[simp]
theorem ensures_check {Q : Bool → Cursor → Prop} :
    (check s).Ensures c Q stop ↔ Q (c.at s) c := Iff.rfl

@[simp]
theorem ensures_report {e : Error} {Q : Unit → Cursor → Prop} :
    (report e).Ensures c Q stop ↔ Q () { c with report := c.report.add e } := Iff.rfl

/-- A fault is reported at the next token, and reading goes on. -/
@[simp]
theorem ensures_reportHere {fault : GrammarFault} {Q : Unit → Cursor → Prop} :
    (reportHere fault).Ensures c Q stop ↔
      Q () { c with report := c.report.add (.grammar (.token c.peek) fault) } := Iff.rfl

/-- Nodes are numbered in the order in which they are made. -/
@[simp]
theorem ensures_freshNode {Q : NodeId → Cursor → Prop} :
    freshNode.Ensures c Q stop ↔ Q c.nextNode { c with nextNode := c.nextNode + 1 } := Iff.rfl

/-! ### Reading tokens -/

/-- A token is read if it passes the test `q`; otherwise nothing is. -/
@[simp]
theorem ensures_acceptIf {Q : Option Token → Cursor → Prop} :
    (acceptIf q).Ensures c Q stop ↔
      (∀ t rest, c.rest = t :: rest → q t = true → Q (some t) (c.moveTo rest)) ∧
        (c.Lacks q → Q none c) := by
  unfold acceptIf Cursor.Lacks
  rw [ensures_bind, ensures_get]
  cases hrest : c.rest with
  | nil => simp
  | cons t rest =>
    cases hq : q t
    · simp [hq]
    · simp [hq, Cursor.moveTo]

/-- The symbol `s` is read and `found` follows it, or `other` reads from here. -/
@[simp]
theorem ensures_branch {found : Token → Parse α} {other : Parse α} :
    (branch s found other).Ensures c Q stop ↔
      (∀ t rest, c.rest = t :: rest → t.is s = true →
        (found t).Ensures (c.moveTo rest) Q stop) ∧
        (c.at s = false → other.Ensures c Q stop) := by
  unfold branch accept
  rw [ensures_bind, ensures_acceptIf, Cursor.lacks_is_iff]

/-- Where the symbol `s` is missing, `expect` stops with an error at the next token. -/
@[simp]
theorem ensures_expect {Q : Token → Cursor → Prop} :
    (expect s what).Ensures c Q stop ↔
      (∀ t rest, c.rest = t :: rest → t.is s = true → Q t (c.moveTo rest)) ∧
        (c.at s = false → stop (.error (.grammar (.token c.peek) (.expected what))) c) := by
  unfold expect
  rw [ensures_branch]
  rfl

/-- So does `expectName` where a name is missing. -/
@[simp]
theorem ensures_expectName {Q : Token → Cursor → Prop} :
    (expectName what).Ensures c Q stop ↔
      (∀ t rest, c.rest = t :: rest → t.isIdentifier = true → Q t (c.moveTo rest)) ∧
        (c.Lacks (·.isIdentifier) →
          stop (.error (.grammar (.token c.peek) (.expected what))) c) := by
  unfold expectName
  rw [ensures_bind, ensures_acceptIf]
  rfl

/-! ### Trees only -/

/-- If the rule yields a tree from `c`, then as `Q` says. -/
def Yields (p : Parse α) (c : Cursor) (Q : α → Cursor → Prop) : Prop :=
  p.Ensures c Q fun _ _ => True

/-- `Ensures.mono`, with nothing said of stops. -/
theorem Yields.mono (h : p.Yields c Q) (hQ : ∀ a c', Q a c' → Q' a c') : p.Yields c Q' :=
  Ensures.mono h hQ fun _ _ _ => trivial

theorem Yields.of_run {a : α} (h : p.Yields c Q) (hrun : p.run c = (.ok a, c')) :
    Q a c' := Ensures.of_run h hrun

/-- `Ensures.and`, with nothing said of stops. -/
theorem Yields.and (h : p.Yields c Q) (h' : p.Yields c Q') :
    p.Yields c fun a c' => Q a c' ∧ Q' a c' :=
  Ensures.mono (Ensures.and h h') (fun _ _ h => h) fun _ _ _ => trivial

/-- A tree of the sequence comes from a tree of its first rule. -/
theorem Yields.bind {f : α → Parse β} (h : p.Yields c Q)
    (hf : ∀ a c', Q a c' → (f a).Yields c' R) : (p >>= f).Yields c R :=
  ensures_bind.2 (Ensures.mono h hf fun _ _ _ => trivial)

theorem Yields.map {f : α → β} (h : p.Yields c Q)
    (hf : ∀ a c', Q a c' → R (f a) c') : (f <$> p).Yields c R :=
  ensures_map.2 (Ensures.mono h hf fun _ _ _ => trivial)

/-- What comes before does not matter. -/
theorem yields_bind {f : α → Parse β} (hf : ∀ a c', (f a).Yields c' R) :
    (p >>= f).Yields c R := by
  refine Yields.bind (Q := fun _ _ => True) ?_ fun a c' _ => hf a c'
  unfold Yields Ensures
  split <;> trivial

/-- A rule that stops yields nothing to speak of. -/
theorem yields_throw {h : Halt} : (throw h : Parse α).Yields c Q := trivial

theorem yields_fail : (fail what : Parse α).Yields c Q := trivial

/-- `ensures_acceptIf` for a rule that goes on with what was read. -/
theorem yields_acceptIf_bind {f : Option Token → Parse β}
    (hsome : ∀ t rest, c.rest = t :: rest → q t = true → (f (some t)).Yields (c.moveTo rest) R)
    (hnone : c.Lacks q → (f none).Yields c R) : (acceptIf q >>= f).Yields c R :=
  ensures_bind.2 (ensures_acceptIf.2 ⟨hsome, hnone⟩)

/-- `ensures_branch`, one way at a time. -/
theorem yields_branch {found : Token → Parse α} {other : Parse α}
    (hfound : ∀ t rest, c.rest = t :: rest → t.is s = true → (found t).Yields (c.moveTo rest) Q)
    (hother : c.at s = false → other.Yields c Q) : (branch s found other).Yields c Q :=
  ensures_branch.2 ⟨hfound, hother⟩

/-- Behind `expect`, the symbol was there. -/
theorem yields_expect_bind {f : Token → Parse β}
    (hf : ∀ t rest, c.rest = t :: rest → t.is s = true → (f t).Yields (c.moveTo rest) R) :
    (expect s what >>= f).Yields c R :=
  ensures_bind.2 (ensures_expect.2 ⟨hf, fun _ => trivial⟩)

/-- Behind `expectName`, a name was there. -/
theorem yields_expectName_bind {f : Token → Parse β}
    (hf : ∀ t rest, c.rest = t :: rest → t.isIdentifier = true → (f t).Yields (c.moveTo rest) R) :
    (expectName what >>= f).Yields c R :=
  ensures_bind.2 (ensures_expectName.2 ⟨hf, fun _ => trivial⟩)

theorem Yields.ite [Decidable b] {q : Parse α} (hp : b → p.Yields c Q) (hq : ¬ b → q.Yields c Q) :
    (if b then p else q).Yields c Q :=
  ensures_ite.2 ⟨hp, hq⟩

/-- An optional part: `none` if the next token is the symbol `s`, otherwise what `p` yields. -/
theorem yields_unless {a₀ : α} {k : α → Parse β}
    (hp : c.at s = false → p.Yields c Q) (hnone : c.at s = true → Q a₀ c)
    (hk : ∀ a c', Q a c' → (k a).Yields c' R) :
    (check s >>= fun found => if found = true then pure a₀ >>= k else p >>= k).Yields c R := by
  refine ensures_bind.2 (ensures_check.2 (Yields.ite (fun h => ?_) (fun h => ?_)))
  · exact Yields.bind (ensures_pure.2 (hnone h)) hk
  · exact (hp (eq_false_of_ne_true h)).bind hk

end Parse

/-! ### Going on after an error -/

namespace Rule

/-- A declaration that cannot be read is reported and dropped; the cursor then stands at the next
    statement. -/
theorem run_declaration (n : Nat) (c : Cursor) :
    (declaration (n + 1)).run c =
      match (declarationOrStatement n).run c with
      | (.ok s, c') => (.ok (some s), c')
      | (.error .outOfFuel, c') => (.error .outOfFuel, c')
      | (.error (.error e), c') =>
        (.ok none, { c' with report := c'.report.add e, rest := synchronize c'.rest }) := by
  rw [declaration]
  cases hrun : (declarationOrStatement n).run c with
  | mk r c' =>
    have hrun : declarationOrStatement n c = (r, c') := hrun
    rcases r with (_ | _) | _ <;>
      simp [tryCatch, tryCatchThe, MonadExceptOf.tryCatch, ExceptT.tryCatch, ExceptT.run,
        ExceptT.mk, bind, ExceptT.bind, StateT.bind, ExceptT.bindCont, hrun, pure,
        EarlyReturnT.return] <;>
      rfl

/-- What a declaration ensures, by what `declarationOrStatement` does. -/
@[simp]
theorem ensures_declaration {n : Nat} {c : Cursor} {Q : Option Stmt → Cursor → Prop}
    {stop : Halt → Cursor → Prop} :
    (declaration (n + 1)).Ensures c Q stop ↔
      (declarationOrStatement n).Ensures c (fun s c' => Q (some s) c')
        (fun h c' => match h with
          | .outOfFuel => stop .outOfFuel c'
          | .error e => Q none
              { c' with report := c'.report.add e, rest := synchronize c'.rest }) := by
  unfold Parse.Ensures
  rw [run_declaration]
  rcases (declarationOrStatement n).run c with ⟨(_ | _) | _, _⟩ <;> rfl

end Rule

end Scriptlet
