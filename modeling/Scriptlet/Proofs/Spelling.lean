import Mathlib.Data.List.Basic
import Scriptlet.Token.Lexer

namespace Scriptlet

/-!
# Spelling of tokens

The text of a token that was read from a source is the one that its kind asks for.

* `Token.Spelled` — a symbol has its own spelling, and a name is no keyword.
* `Token.spelled_ofSource` — all tokens of a source are so.
-/

/-- The text of a token of some kind. -/
def Kind.Spells (kind : Kind) (text : String) : Prop :=
  match kind with
  | .symbol s => text = s.spelling
  | .identifier => Symbol.keyword? text = none
  | _ => True

/-- A token whose text is the one that its kind asks for. -/
def Token.Spelled (t : Token) : Prop := t.kind.Spells t.lexeme

namespace Token.Spelled

variable {t : Token}

theorem lexeme_of_is {s : Symbol} (h : t.Spelled) (hs : t.is s = true) : t.lexeme = s.spelling := by
  unfold Token.is at hs
  split at hs
  · next s' hk =>
    have hs' : s' = s := of_decide_eq_true hs
    unfold Spelled at h
    rw [hk, hs'] at h
    exact h
  · cases hs

theorem ne_spelling (h : t.Spelled) (ht : t.isIdentifier = true) {s : Symbol}
    (hs : s ∈ Symbol.keywords) : t.lexeme ≠ s.spelling := by
  unfold Token.isIdentifier at ht
  split at ht
  · next hk =>
    unfold Spelled at h
    rw [hk] at h
    intro heq
    have := List.find?_eq_none.1 h s hs
    simp [heq] at this
  · cases ht

end Token.Spelled

namespace Segment

/-- A segment that stands for a token is spelled as the token is. -/
def Spelled (s : Segment) : Prop :=
  ∀ kind, s.meaning = .token kind → kind.Spells (String.ofList s.text)

theorem spelled_ofSymbol {text : List Char} {s : Symbol} (h : String.ofList text = s.spelling) :
    (ofSymbol text s).Spelled := by
  intro kind hk
  cases hk
  exact h

theorem spelled_word (c : Char) (cs : List Char) : (word c cs).Spelled := by
  unfold word
  simp only
  split
  · next s hs =>
    have h := List.find?_some hs
    simp only [decide_eq_true_eq] at h
    exact spelled_ofSymbol h.symm
  · next hs =>
    intro kind hk
    cases hk
    exact hs

/-- The first segment of a text. -/
theorem spelled_first (c : Char) (cs : List Char) : (first c cs).Spelled := by
  unfold first
  split
  · next s hs =>
    refine spelled_ofSymbol ?_
    unfold punctuator? at hs
    split at hs <;> cases hs <;> rfl
  · split
    · next short long hs =>
      unfold comparison? at hs
      unfold comparison
      split at hs <;> cases hs <;> split <;> exact spelled_ofSymbol rfl
    · split
      · unfold slash
        split
        · exact fun kind hk => by cases hk
        · exact spelled_ofSymbol rfl
      · split
        · exact fun kind hk => by cases hk
        · split
          · unfold string
            simp only
            split <;> intro kind hk <;> cases hk
            trivial
          · split
            · unfold number
              simp only
              split
              · split <;> intro kind hk <;> cases hk <;> trivial
              · intro kind hk
                cases hk
                trivial
            · split
              · exact spelled_word c cs
              · exact fun kind hk => by cases hk

end Segment

theorem spelled_segmentsAfter (skip : Nat) (text : List Char) :
    ∀ s ∈ segmentsAfter skip text, s.Spelled := by
  induction text generalizing skip with
  | nil => exact fun s hs => absurd hs List.not_mem_nil
  | cons c cs ih =>
    cases skip with
    | zero => exact List.forall_mem_cons.2 ⟨Segment.spelled_first c cs, ih _⟩
    | succ n => exact ih n

/-- The tokens of spelled segments are spelled. -/
theorem spelled_itemsFrom (segments : List Segment) (line : Nat)
    (h : ∀ s ∈ segments, s.Spelled) : ∀ t, Item.token t ∈ itemsFrom line segments → t.Spelled := by
  induction segments generalizing line with
  | nil =>
    intro t ht
    cases List.mem_singleton.1 ht
    trivial
  | cons s rest ih =>
    obtain ⟨hs, hrest⟩ := List.forall_mem_cons.1 h
    intro t ht
    unfold itemsFrom at ht
    simp only at ht
    split at ht
    · exact ih _ hrest t ht
    · next kind hk =>
      rcases List.mem_cons.1 ht with heq | ht
      · cases heq
        exact hs kind hk
      · exact ih _ hrest t ht
    · rcases List.mem_cons.1 ht with heq | ht
      · cases heq
      · exact ih _ hrest t ht

/-- **Tokens are spelled.** Every token of a source has the text that its kind asks for. -/
theorem Token.spelled_ofSource (source : String) : ∀ t ∈ Token.ofSource source, t.Spelled := by
  intro t ht
  obtain ⟨item, hitem, heq⟩ := List.mem_filterMap.1 ht
  cases item with
  | error e => cases heq
  | token t' =>
    cases heq
    exact spelled_itemsFrom _ _ (spelled_segmentsAfter 0 _) t hitem

end Scriptlet
