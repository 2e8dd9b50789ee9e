import Scriptlet.Proofs.Concatenation

namespace Scriptlet

/-!
# Other blanks between tokens

The texts of the tokens of a source are read as the same tokens again when single blanks are put
between them, whatever stood there before.

* `Lexeme.longest_before_blank` — in front of a blank, or at the end of a text, a lexeme that stands
  for a token is the longest one; so it is read as a whole (`segments_before_blank`).
* `segments_intercalate` — the segments of such lexemes with blanks between them.
* `Token.respaced_alike` — the tokens of a source, with blanks between them.
-/

/-! ### Lexemes in front of a blank -/

namespace Lexeme

variable {text seg : List Char} {m : Meaning} {kind : Kind}

theorem no_space_of_digit {d : Char} (h : IsDigit d) : d ≠ ' ' := by
  rintro rfl
  exact absurd h.1 (by decide)

theorem no_space_of_word {d : Char} (h : continuesName d = true) : d ≠ ' ' := by
  rintro rfl
  revert h
  decide

/-- The lexemes with a blank in them: blanks, comments and strings. -/
theorem cases_of_space (h : Lexeme seg m) (hspace : ' ' ∈ seg) :
    seg = [' '] ∨ (∃ body, '\n' ∉ body ∧ seg = '/' :: '/' :: body) ∨
      ∃ body, '"' ∉ body ∧ seg = '"' :: body ++ ['"'] := by
  cases h with
  | @mark s _ hs hspelled =>
    have hnone : ∀ s ∈ Symbol.marks, ' ' ∉ s.spelling.toList := by decide +kernel
    rw [← String.toList_ofList (l := seg), hspelled] at hspace
    exact absurd hspace (hnone s hs)
  | blank _ => exact .inl (by rw [List.mem_singleton.1 hspace])
  | comment hbody => exact .inr (.inl ⟨_, hbody, rfl⟩)
  | string hbody => exact .inr (.inr ⟨_, hbody, rfl⟩)
  | whole _ hdigits => exact absurd rfl (no_space_of_digit (hdigits _ hspace))
  | decimal _ hdigits _ hfraction =>
    obtain hmem | hmem := List.mem_append.1 hspace
    · exact absurd rfl (no_space_of_digit (hdigits _ hmem))
    · obtain heq | hmem := List.mem_cons.1 hmem
      · exact absurd heq (by decide)
      · exact absurd rfl (no_space_of_digit (hfraction _ hmem))
  | keyword hs hspelled =>
    obtain ⟨c, cs, rfl, hc, hcs⟩ := letters_of_keyword hs hspelled
    obtain rfl | hmem := List.mem_cons.1 hspace
    · exact absurd hc (by decide)
    · exact absurd rfl (no_space_of_word (hcs _ hmem))
  | @name c cs hc hcs _ =>
    obtain rfl | hmem := List.mem_cons.1 hspace
    · exact absurd (startsName_iff.2 hc) (by decide)
    · exact absurd rfl (no_space_of_word (continuesName_iff.2 (hcs _ hmem)))

/-- A lexeme that starts with a quote ends with the next one. -/
theorem string_of_quote {cs : List Char} (h : Lexeme ('"' :: cs) m) :
    ∃ body, '"' ∉ body ∧ cs = body ++ ['"'] := by
  have hfirst := h.covered (List.prefix_refl _)
  obtain hlexeme | ⟨-, hfault⟩ | ⟨hquote, -⟩ := Segment.first_cases '"' cs
  · -- The first segment is the string up to the next quote, and the lexeme is not longer.
    have hlonger := (Segment.first_text_isPrefix '"' cs).length_le
    have htext : (Segment.first '"' cs).text = '"' :: cs :=
      (Segment.first_text_isPrefix '"' cs).eq_of_length
        (Nat.le_antisymm hlonger hfirst.length_le)
    have hstring : Segment.first '"' cs = Segment.string cs := rfl
    rw [hstring] at htext hfirst
    unfold Segment.string at htext hfirst
    simp only at htext hfirst
    split at htext
    · refine ⟨_, fun hmem => ?_, (List.cons.inj htext).2.symm⟩
      simpa using List.mem_takeWhile_imp hmem
    · next hlong =>
      rw [if_neg hlong] at hfirst
      exact absurd rfl (hfirst.no_fault _)
  · exact absurd (congrArg Segment.meaning hfault) (hfirst.no_fault _)
  · exact absurd rfl hquote

/-- **In front of a blank** a lexeme that stands for a token is the longest one. -/
theorem longest_before_blank (h : Lexeme text (.token kind)) {rest : List Char}
    (hrest : rest.head? = none ∨ rest.head? = some ' ') :
    Segment.Longest ⟨text, .token kind⟩ (text ++ rest) := by
  refine ⟨h, List.prefix_append _ _, fun {seg m} hseg hstart => ?_⟩
  by_contra hlonger
  have hlt : text.length < seg.length := Nat.lt_of_not_le hlonger
  cases rest with
  | nil =>
    rw [List.append_nil] at hstart
    exact hlonger hstart.length_le
  | cons d more =>
    obtain hnone | hsome := hrest
    · cases hnone
    · cases hsome
      -- A longer lexeme would go on with the blank.
      have hwith : text ++ [' '] <+: seg := by
        refine List.prefix_of_prefix_length_le ?_ hstart ?_
        · exact ⟨more, by rw [List.append_assoc, List.singleton_append]⟩
        · rw [List.length_append, List.length_singleton]
          exact hlt
      have hspace : ' ' ∈ seg := hwith.subset (by simp)
      obtain ⟨c, cs, rfl⟩ := List.exists_cons_of_ne_nil h.ne_nil
      obtain rfl | ⟨body, hbody, rfl⟩ | ⟨body, hbody, rfl⟩ := hseg.cases_of_space hspace
      · simp at hlt
      · obtain ⟨rfl, htail⟩ := List.cons_prefix_cons.1 hwith
        cases cs with
        | nil => exact absurd (List.cons_prefix_cons.1 htail).1 (by decide)
        | cons c cs =>
          obtain ⟨rfl, hcs⟩ := List.cons_prefix_cons.1 htail
          -- Two slashes start a comment, which stands for no token.
          have hnone : '\n' ∉ cs := fun hmem =>
            hbody (hcs.subset (List.mem_append_left _ hmem))
          cases h.meaning_unique (.comment hnone)
      · obtain ⟨rfl, htail⟩ := List.cons_prefix_cons.1 hwith
        obtain ⟨inner, -, rfl⟩ := h.string_of_quote
        -- The string ends with its second quote, and a longer one would have a third.
        have hinner : inner ++ ['"'] <+: body := by
          refine List.prefix_of_prefix_length_le ((List.prefix_append _ _).trans htail)
            (List.prefix_append _ _) ?_
          have hle := htail.length_le
          simp only [List.append_eq, List.length_append, List.length_singleton] at hle ⊢
          omega
        exact hbody (hinner.subset (by simp))

end Lexeme

/-! ### Segments with blanks between them -/

theorem segments_before_blank {text rest : List Char} {kind : Kind}
    (h : Lexeme text (.token kind)) (hrest : rest.head? = none ∨ rest.head? = some ' ') :
    segments (text ++ rest) = ⟨text, .token kind⟩ :: segments rest := by
  obtain ⟨c, cs, rfl⟩ := List.exists_cons_of_ne_nil h.ne_nil
  have hfirst : Segment.first c (cs ++ rest) = ⟨c :: cs, .token kind⟩ :=
    (h.longest_before_blank hrest).eq_first
  have htext : (Segment.first c (cs ++ rest)).text ++ rest = c :: (cs ++ rest) := by
    rw [hfirst]
    rfl
  rw [List.cons_append, segments_of_first htext, hfirst]

theorem segments_blank (rest : List Char) :
    segments (' ' :: rest) = ⟨[' '], .nothing⟩ :: segments rest := by
  have htext : (Segment.first ' ' rest).text ++ rest = ' ' :: rest := rfl
  exact segments_of_first htext

/-- A segment that stands for a token, with a text that is a lexeme. -/
structure Segment.IsToken (s : Segment) : Prop where
  lexeme : Lexeme s.text s.meaning
  token : ∃ kind, s.meaning = .token kind

/-- Lexemes that stand for tokens, with blanks between them, are read one by one. -/
theorem segments_intercalate {segs : List Segment} (h : ∀ s ∈ segs, s.IsToken) :
    segments (List.intercalate [' '] (segs.map Segment.text)) =
      segs.intersperse ⟨[' '], .nothing⟩ := by
  induction segs with
  | nil => rfl
  | cons s segs ih =>
    obtain ⟨⟨hlexeme, kind, hkind⟩, hsegs⟩ := List.forall_mem_cons.1 h
    obtain ⟨text, meaning⟩ := s
    cases hkind
    cases segs with
    | nil =>
      have hone : segments (text ++ []) = _ := segments_before_blank hlexeme (.inl rfl)
      rw [List.append_nil] at hone
      rw [List.map_singleton, List.intercalate_singleton, hone, segments]
      rfl
    | cons s' segs =>
      have hjoined : List.intercalate [' '] ((⟨text, .token kind⟩ :: s' :: segs).map
          Segment.text) =
          text ++ ' ' :: List.intercalate [' '] ((s' :: segs).map Segment.text) := by
        simp only [List.map_cons, List.intercalate_cons_cons, List.append_assoc,
          List.singleton_append]
      rw [hjoined, segments_before_blank hlexeme (.inr rfl), segments_blank, ih hsegs]
      rfl

theorem eq_or_mem_of_mem_intersperse {α : Type} {a sep : α} {as : List α}
    (h : a ∈ as.intersperse sep) : a = sep ∨ a ∈ as := by
  induction as with
  | nil => cases h
  | cons b as ih =>
    cases as with
    | nil => exact .inr h
    | cons b' as =>
      rw [List.intersperse_cons_cons] at h
      obtain rfl | rfl | h := List.mem_cons.1 h |>.imp_right List.mem_cons.1
      · exact .inr List.mem_cons_self
      · exact .inl rfl
      · exact (ih h).imp_right (List.mem_cons_of_mem _)

/-! ### What tokens show -/

/-- Kind, literal value included, and text of a token. -/
def Token.shown (t : Token) : Kind × String := (t.kind, t.lexeme)

/-- Kind and text of the token that a segment stands for. -/
def Segment.shown? (s : Segment) : Option (Kind × String) :=
  match s.meaning with
  | .token kind => some (kind, String.ofList s.text)
  | _ => none

/-- The tokens of segments, on whatever line these start. -/
theorem shown_itemsFrom (segs : List Segment) (line : Nat) :
    ((itemsFrom line segs).filterMap Item.token?).map Token.shown =
      segs.filterMap Segment.shown? ++ [(.eof, "")] := by
  induction segs generalizing line with
  | nil => rfl
  | cons s segs ih =>
    obtain ⟨text, meaning⟩ := s
    cases meaning with
    | nothing => exact ih _
    | token kind => exact congrArg (_ :: ·) (ih _)
    | fault fault => exact ih _

/-- Blanks show nothing. -/
theorem shown_intersperse (segs : List Segment) :
    (segs.intersperse ⟨[' '], .nothing⟩).filterMap Segment.shown? =
      segs.filterMap Segment.shown? := by
  induction segs with
  | nil => rfl
  | cons s segs ih =>
    cases segs with
    | nil => rfl
    | cons s' segs =>
      rw [List.intersperse_cons_cons, List.filterMap_cons, List.filterMap_cons, ih,
        List.filterMap_cons]
      rfl

/-- The segment stands for a token. -/
def Segment.standsForToken (s : Segment) : Bool := s.shown?.isSome

theorem Segment.isToken_of_mem {text : List Char} {s : Segment}
    (hs : s ∈ (segments text).filter standsForToken) : s.IsToken := by
  obtain ⟨hmem, htoken⟩ := List.mem_filter.1 hs
  obtain ⟨p, hp⟩ := Option.isSome_iff_exists.1 htoken
  have hkind : ∃ kind, s.meaning = .token kind := by
    unfold shown? at hp
    split at hp
    · next kind hkind => exact ⟨kind, hkind⟩
    · cases hp
  refine ⟨?_, hkind⟩
  refine LongestCuts.forall_segments
    (P := fun s => (∃ kind, s.meaning = .token kind) → Lexeme s.text s.meaning)
    (fun _ h _ => h) ?_ (longestCuts_segments text) s hmem hkind
  rintro _ _ _ ⟨_, hfault⟩
  cases hfault

theorem filterMap_shown?_filter (segs : List Segment) :
    (segs.filter Segment.standsForToken).filterMap Segment.shown? =
      segs.filterMap Segment.shown? := by
  rw [List.filterMap_filter]
  refine List.filterMap_congr fun s _ => ?_
  unfold Segment.standsForToken
  cases s.shown? <;> rfl

/-- The texts of the tokens that segments stand for. -/
theorem map_text_filter (segs : List Segment) :
    (segs.filter Segment.standsForToken).map Segment.text =
      (segs.filterMap Segment.shown?).map (·.2.toList) := by
  induction segs with
  | nil => rfl
  | cons s segs ih =>
    obtain ⟨text, meaning⟩ := s
    cases meaning with
    | nothing => exact ih
    | token kind =>
      refine Eq.trans (congrArg (text :: ·) ih) ?_
      show _ = (String.ofList text).toList :: _
      rw [String.toList_ofList]
    | fault fault => exact ih

/-! ### Sources -/

/-- The tokens of a source, the one that ends it apart. -/
def Token.bodyOfSource (source : String) : List Token := (Token.ofSource source).dropLast

/-- The texts of tokens, with single blanks between them. -/
def Token.spaced (ts : List Token) : String := " ".intercalate (ts.map (·.lexeme))

theorem Token.shown_bodyOfSource (source : String) :
    (Token.bodyOfSource source).map Token.shown =
      (segments source.toList).filterMap Segment.shown? := by
  have hall : (Token.ofSource source).map Token.shown = _ :=
    shown_itemsFrom (segments source.toList) 1
  unfold Token.bodyOfSource
  rw [List.map_dropLast, hall, List.dropLast_concat]

/-- **Reading does not depend on blanks.** The texts of the tokens of a source, the one that ends it
    apart, are put together with single blanks between them. Nothing is wrong with what comes out,
    even if something was wrong with the source, and its tokens are of the same kinds, with the same
    texts and the same literal values, followed by the token that ends it. -/
theorem Token.respaced_alike (source : String) :
    (∃ last, Token.ofSource source = Token.bodyOfSource source ++ [⟨.eof, "", last⟩]) ∧
    Error.ofSource (Token.spaced (Token.bodyOfSource source)) = [] ∧
    (Token.ofSource (Token.spaced (Token.bodyOfSource source))).map Token.shown =
      (Token.bodyOfSource source).map Token.shown ++ [(.eof, "")] := by
  have htokens : ∀ s ∈ (segments source.toList).filter Segment.standsForToken, s.IsToken :=
    fun s hs => Segment.isToken_of_mem hs
  have htext : (Token.spaced (Token.bodyOfSource source)).toList =
      List.intercalate [' '] (((segments source.toList).filter Segment.standsForToken).map
        Segment.text) := by
    unfold Token.spaced
    rw [String.toList_intercalate, map_text_filter, ← Token.shown_bodyOfSource, List.map_map,
      List.map_map]
    rfl
  have hsegs : segments (Token.spaced (Token.bodyOfSource source)).toList =
      ((segments source.toList).filter Segment.standsForToken).intersperse
        ⟨[' '], .nothing⟩ := by
    rw [htext, segments_intercalate htokens]
  refine ⟨?_, ?_, ?_⟩
  · obtain ⟨body, last, hbody, -⟩ := Token.exists_ofSource source
    refine ⟨last, ?_⟩
    unfold Token.bodyOfSource
    rw [hbody, List.dropLast_concat]
  · refine (errors_itemsFrom_eq_nil_iff _ _).2 ?_
    rw [hsegs]
    intro s hs fault hfault
    obtain rfl | hmem := eq_or_mem_of_mem_intersperse hs
    · cases hfault
    · obtain ⟨kind, hkind⟩ := (htokens s hmem).token
      rw [hkind] at hfault
      cases hfault
  · unfold Token.ofSource Token.scan
    rw [shown_itemsFrom, hsegs, shown_intersperse, filterMap_shown?_filter,
      Token.shown_bodyOfSource]

/-- Marks that stood close together, a character that is none of a token, and a comment. -/
example : Token.spaced (Token.bodyOfSource "x!==1.y @\"a b\"// z") = "x != = 1 . y \"a b\"" := by
  decide +kernel

end Scriptlet
