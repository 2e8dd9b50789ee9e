import Mathlib.Data.List.Forall2
import Scriptlet.Proofs.Bytes

namespace Scriptlet

/-!
# The lexer takes the longest match

* `Lexeme` — the lexical grammar: which texts stand for something, and for what.
* `LongestCuts` — a text cut into segments, each of them the longest that the grammar has at its
  place.
* `Lexeme.covered` — no lexeme at the start of a text is longer than the first segment.
* `Segment.first_cases` — the first segment is a lexeme, or there is none.
* `longestCuts_iff` — so the segments of a text are its only cut of this kind.
* `Token.scan_longest_match` — a source is read as it is cut, character by character and byte by
  byte.
-/

/-! ### The lexical grammar -/

/-- The digits of ASCII. -/
def IsDigit (c : Char) : Prop := '0' ≤ c ∧ c ≤ '9'

/-- The letters of ASCII, and the underscore. -/
def IsLetter (c : Char) : Prop := ('A' ≤ c ∧ c ≤ 'Z') ∨ ('a' ≤ c ∧ c ≤ 'z') ∨ c = '_'

/-- The lexical grammar: a text, and what it stands for. -/
inductive Lexeme : List Char → Meaning → Prop
  | mark {s : Symbol} {text : List Char} (hs : s ∈ Symbol.marks)
      (h : String.ofList text = s.spelling) : Lexeme text (.token (.symbol s))
  | blank {c : Char} (h : c ∈ [' ', '\r', '\t', '\n']) : Lexeme [c] .nothing
  | comment {text : List Char} (h : '\n' ∉ text) : Lexeme ('/' :: '/' :: text) .nothing
  | string {text : List Char} (h : '"' ∉ text) :
      Lexeme ('"' :: text ++ ['"']) (.token (.string (String.ofList text)))
  | whole {digits : List Char} (hne : digits ≠ []) (h : ∀ d ∈ digits, IsDigit d) :
      Lexeme digits (.token (.number (Decimal.read digits [])))
  | decimal {digits fraction : List Char} (hne : digits ≠ []) (h : ∀ d ∈ digits, IsDigit d)
      (hne' : fraction ≠ []) (h' : ∀ d ∈ fraction, IsDigit d) :
      Lexeme (digits ++ '.' :: fraction) (.token (.number (Decimal.read digits fraction)))
  | keyword {s : Symbol} {text : List Char} (hs : s ∈ Symbol.keywords)
      (h : String.ofList text = s.spelling) : Lexeme text (.token (.symbol s))
  | name {c : Char} {cs : List Char} (hc : IsLetter c) (hcs : ∀ d ∈ cs, IsLetter d ∨ IsDigit d)
      (h : ∀ s ∈ Symbol.keywords, s.spelling ≠ String.ofList (c :: cs)) :
      Lexeme (c :: cs) (.token .identifier)

/-- The segment is a lexeme at the start of the text, and no lexeme there is longer. -/
structure Segment.Longest (s : Segment) (text : List Char) : Prop where
  lexeme : Lexeme s.text s.meaning
  start : s.text <+: text
  longest : ∀ {seg m}, Lexeme seg m → seg <+: text → seg.length ≤ s.text.length

/-- A text, cut into the longest lexemes. Where there is none, a quote takes the whole rest and
    any other character stands alone, and both are at fault. -/
inductive LongestCuts : List Char → List Segment → Prop
  | nil : LongestCuts [] []
  | lexeme {s rest segs} (hs : s.Longest (s.text ++ rest)) (hrest : LongestCuts rest segs) :
      LongestCuts (s.text ++ rest) (s :: segs)
  | unterminated {rest} (h : ∀ seg m, Lexeme seg m → ¬ seg <+: '"' :: rest) :
      LongestCuts ('"' :: rest) [⟨'"' :: rest, .fault .unterminatedString⟩]
  | unexpected {c rest segs} (hc : c ≠ '"') (h : ∀ seg m, Lexeme seg m → ¬ seg <+: c :: rest)
      (hrest : LongestCuts rest segs) :
      LongestCuts (c :: rest) (⟨[c], .fault (.unexpectedCharacter c)⟩ :: segs)

/-! ### Classes of characters -/

section Classes

variable {c : Char}

/-- `Char.isDigit` decides the class `IsDigit` of the grammar. -/
theorem isDigit_iff : c.isDigit = true ↔ IsDigit c := by
  simp only [Char.isDigit, Bool.and_eq_true, decide_eq_true_eq]
  exact Iff.rfl

/-- `startsName` decides the class `IsLetter`. -/
theorem startsName_iff : startsName c = true ↔ IsLetter c := by
  simp only [startsName, ByteCursor.isAlpha_eq, Bool.or_eq_true, Bool.and_eq_true,
    decide_eq_true_eq, or_assoc]
  exact Iff.rfl

/-- `continuesName` decides what is in either class. -/
theorem continuesName_iff : continuesName c = true ↔ IsLetter c ∨ IsDigit c := by
  rw [← startsName_iff, ← isDigit_iff]
  simp only [continuesName, startsName, Char.isAlphanum, Bool.or_eq_true, decide_eq_true_eq]
  exact or_right_comm

end Classes

/-! ### The first segment, by its first character -/

namespace Segment

variable {c : Char}

/-- A character that is a symbol alone is cut as that symbol. -/
theorem first_of_punctuator {s : Symbol} (h : punctuator? c = some s) (cs : List Char) :
    first c cs = ofSymbol [c] s := by
  unfold first
  rw [h]

/-- `<`, `>`, `=` and `!` are cut by `comparison`. -/
theorem first_of_comparison {short long : Symbol} (h : comparison? c = some (short, long))
    (cs : List Char) : first c cs = comparison c short long cs := by
  have hnone : punctuator? c = none := by
    unfold comparison? at h
    split at h <;> cases h <;> rfl
  unfold first
  rw [hnone, h]

/-- A blank is cut alone and skipped. -/
theorem first_of_blank (h : c ∈ [' ', '\r', '\t', '\n']) (cs : List Char) :
    first c cs = ⟨[c], .nothing⟩ := by
  simp only [List.mem_cons, List.not_mem_nil, or_false] at h
  obtain rfl | rfl | rfl | rfl := h <;> rfl

/-- A digit or letter is no symbol, and starts none. -/
theorem plain_of_continuesName (h : continuesName c = true) :
    punctuator? c = none ∧ comparison? c = none ∧ c ≠ '/' ∧
      (c = ' ' || c = '\r' || c = '\t' || c = '\n') = false ∧ c ≠ '"' := by
  have hne {d : Char} (hd : continuesName d = false) : c ≠ d := by
    rintro rfl
    rw [hd] at h
    cases h
  refine ⟨?_, ?_, hne rfl, ?_, hne rfl⟩
  · unfold punctuator?
    split <;> first | rfl | exact absurd h (by decide)
  · unfold comparison?
    split <;> first | rfl | exact absurd h (by decide)
  · simp [hne (d := ' ') rfl, hne (d := '\r') rfl, hne (d := '\t') rfl, hne (d := '\n') rfl]

/-- A digit is cut by `number`. -/
theorem first_of_digit (h : c.isDigit = true) (cs : List Char) : first c cs = number c cs := by
  obtain ⟨hmark, hcomparison, hslash, hblank, hquote⟩ :=
    plain_of_continuesName (continuesName_iff.2 (.inr (isDigit_iff.1 h)))
  unfold first
  rw [hmark, hcomparison]
  simp only
  rw [if_neg hslash, hblank, if_neg Bool.false_ne_true, if_neg hquote, if_pos h]

/-- A letter is cut by `word`. -/
theorem first_of_letter (h : startsName c = true) (cs : List Char) : first c cs = word c cs := by
  have hletter := startsName_iff.1 h
  obtain ⟨hmark, hcomparison, hslash, hblank, hquote⟩ :=
    plain_of_continuesName (continuesName_iff.2 (.inl hletter))
  have hdigit : ¬ c.isDigit = true := by
    intro hd
    obtain ⟨hlow, hhigh⟩ := isDigit_iff.1 hd
    obtain ⟨hupper, -⟩ | ⟨hlower, -⟩ | rfl := hletter
    · exact absurd (Char.le_trans hupper hhigh) (by decide)
    · exact absurd (Char.le_trans hlower hhigh) (by decide)
    · exact absurd hd (by decide)
  unfold first
  rw [hmark, hcomparison]
  simp only
  rw [if_neg hslash, hblank, if_neg Bool.false_ne_true, if_neg hquote, if_neg hdigit, if_pos h]

end Segment

/-! ### No lexeme is longer -/

/-- The segment is no fault, at least as long as the text, and if not longer, then of the same
    meaning. -/
structure Segment.Covers (s : Segment) (text : List Char) (m : Meaning) : Prop where
  length_le : text.length ≤ s.text.length
  meaning_eq : s.text.length = text.length → s.meaning = m
  no_fault : ∀ f, s.meaning ≠ .fault f

namespace Segment.Covers

/-- A segment that is no fault covers itself. -/
theorem refl {text : List Char} {m : Meaning} (h : ∀ f, m ≠ .fault f) :
    Segment.Covers ⟨text, m⟩ text m := ⟨Nat.le_refl _, fun _ => rfl, h⟩

/-- A segment that is no fault covers all shorter lexemes. -/
theorem longer {s : Segment} {text : List Char} {m : Meaning}
    (hlt : text.length < s.text.length) (h : ∀ f, s.meaning ≠ .fault f) : s.Covers text m :=
  ⟨Nat.le_of_lt hlt, fun heq => absurd heq (Nat.ne_of_gt hlt), h⟩

end Segment.Covers

variable {text : List Char} {m : Meaning} {segs : List Segment}

/-- How the marks are spelled: a character that is always alone, one that may stand before an
    equals sign, both of these, or the slash. -/
theorem Symbol.mark_cases {s : Symbol} (h : s ∈ Symbol.marks) :
    (∃ c, String.ofList [c] = s.spelling ∧ punctuator? c = some s) ∨
    (∃ c long, String.ofList [c] = s.spelling ∧ comparison? c = some (s, long)) ∨
    (∃ c short, String.ofList [c, '='] = s.spelling ∧ comparison? c = some (short, s)) ∨
    s = .slash := by
  cases s with
  | leftParen => exact .inl ⟨'(', rfl, rfl⟩
  | rightParen => exact .inl ⟨')', rfl, rfl⟩
  | leftBrace => exact .inl ⟨'\x7b', rfl, rfl⟩
  | rightBrace => exact .inl ⟨'\x7d', rfl, rfl⟩
  | comma => exact .inl ⟨',', rfl, rfl⟩
  | dot => exact .inl ⟨'.', rfl, rfl⟩
  | minus => exact .inl ⟨'-', rfl, rfl⟩
  | plus => exact .inl ⟨'+', rfl, rfl⟩
  | semicolon => exact .inl ⟨';', rfl, rfl⟩
  | star => exact .inl ⟨'*', rfl, rfl⟩
  | question => exact .inl ⟨'?', rfl, rfl⟩
  | colon => exact .inl ⟨':', rfl, rfl⟩
  | bang => exact .inr (.inl ⟨'!', _, rfl, rfl⟩)
  | equal => exact .inr (.inl ⟨'=', _, rfl, rfl⟩)
  | less => exact .inr (.inl ⟨'<', _, rfl, rfl⟩)
  | greater => exact .inr (.inl ⟨'>', _, rfl, rfl⟩)
  | bangEqual => exact .inr (.inr (.inl ⟨'!', _, rfl, rfl⟩))
  | equalEqual => exact .inr (.inr (.inl ⟨'=', _, rfl, rfl⟩))
  | lessEqual => exact .inr (.inr (.inl ⟨'<', _, rfl, rfl⟩))
  | greaterEqual => exact .inr (.inr (.inl ⟨'>', _, rfl, rfl⟩))
  | slash => exact .inr (.inr (.inr rfl))
  | _ => exact absurd h (by decide)

namespace Lexeme

variable {c : Char} {cs text : List Char}

/-- A token is no fault. -/
theorem token_ne_fault {kind : Kind} (f : LexicalFault) : Meaning.token kind ≠ .fault f := by
  intro h
  cases h

/-- What is skipped is no fault. -/
theorem nothing_ne_fault (f : LexicalFault) : Meaning.nothing ≠ .fault f := by
  intro h
  cases h

/-- By `mark_cases`: a mark is cut as it is, as a longer mark, or with the comment it starts. -/
theorem covered_mark {s : Symbol} (hs : s ∈ Symbol.marks) (h : String.ofList text = s.spelling)
    (hstart : text <+: c :: cs) : (Segment.first c cs).Covers text (.token (.symbol s)) := by
  obtain ⟨d, hd, hmark⟩ | ⟨d, long, hd, hmark⟩ | ⟨d, short, hd, hmark⟩ | rfl := Symbol.mark_cases hs
  · cases String.ofList_inj.1 (h.trans hd.symm)
    obtain ⟨rfl, -⟩ := List.cons_prefix_cons.1 hstart
    rw [Segment.first_of_punctuator hmark]
    exact .refl token_ne_fault
  · cases String.ofList_inj.1 (h.trans hd.symm)
    obtain ⟨rfl, -⟩ := List.cons_prefix_cons.1 hstart
    rw [Segment.first_of_comparison hmark]
    unfold Segment.comparison
    split
    · exact .longer (Nat.lt_succ_self _) token_ne_fault
    · exact .refl token_ne_fault
  · cases String.ofList_inj.1 (h.trans hd.symm)
    obtain ⟨rfl, ⟨rest, rfl⟩⟩ := List.cons_prefix_cons.1 hstart
    rw [Segment.first_of_comparison hmark]
    exact .refl token_ne_fault
  · have hslash : String.ofList ['/'] = Symbol.slash.spelling := rfl
    cases String.ofList_inj.1 (h.trans hslash.symm)
    obtain ⟨rfl, -⟩ := List.cons_prefix_cons.1 hstart
    show (Segment.slash cs).Covers ['/'] _
    unfold Segment.slash
    split
    · -- The second slash makes a comment of it, which is longer.
      refine .longer ?_ nothing_ne_fault
      simp
    · exact .refl token_ne_fault

/-- What has a property throughout is no longer than the longest beginning with it. -/
theorem prefix_takeWhile {α : Type} {p : α → Bool} {l l' : List α} (h : ∀ a ∈ l, p a = true)
    (hstart : l <+: l') : l <+: l'.takeWhile p := by
  obtain ⟨rest, rfl⟩ := hstart
  rw [List.takeWhile_append_of_pos h]
  exact List.prefix_append _ _

/-- A comment is cut with the rest of its line. -/
theorem covered_comment (h : '\n' ∉ text) (hstart : '/' :: '/' :: text <+: c :: cs) :
    (Segment.first c cs).Covers ('/' :: '/' :: text) .nothing := by
  obtain ⟨rfl, ⟨rest, rfl⟩⟩ := List.cons_prefix_cons.1 hstart
  have hbody : ∀ d ∈ '/' :: text, decide (d ≠ '\n') = true :=
    List.forall_mem_cons.2 ⟨by decide, fun d hd => decide_eq_true fun heq => h (heq ▸ hd)⟩
  show Segment.Covers ⟨'/' :: ('/' :: text ++ rest).takeWhile (· ≠ '\n'), .nothing⟩ _ _
  refine ⟨?_, fun _ => rfl, nothing_ne_fault⟩
  rw [List.length_cons, List.length_cons]
  exact Nat.succ_le_succ (prefix_takeWhile hbody (List.prefix_append _ _)).length_le

/-- A string is cut as it is, for it ends at the first quote. -/
theorem covered_string (h : '"' ∉ text) (hstart : '"' :: text ++ ['"'] <+: c :: cs) :
    (Segment.first c cs).Covers ('"' :: text ++ ['"']) (.token (.string (String.ofList text))) := by
  obtain ⟨rfl, ⟨rest, rfl⟩⟩ := List.cons_prefix_cons.1 hstart
  have hbody : ∀ d ∈ text, decide (d ≠ '"') = true :=
    fun d hd => decide_eq_true fun heq => h (heq ▸ hd)
  have htake : (text ++ ['"'] ++ rest).takeWhile (fun d => decide (d ≠ '"')) = text := by
    rw [List.append_assoc, List.takeWhile_append_of_pos hbody, List.singleton_append,
      List.takeWhile_cons_of_neg (by decide), List.append_nil]
  show (Segment.string (text ++ ['"'] ++ rest)).Covers _ _
  unfold Segment.string
  simp only
  rw [htake, if_pos (by simp)]
  exact .refl token_ne_fault

/-- What the number at the start of a text is, with and without a fraction. -/
theorem number_cases (hc : c.isDigit = true) (cs : List Char) :
    (∃ d rest, (c :: cs).dropWhile Char.isDigit = '.' :: d :: rest ∧ d.isDigit = true ∧
      Segment.number c cs =
        ⟨(c :: cs).takeWhile Char.isDigit ++ '.' :: (d :: rest).takeWhile Char.isDigit,
          .token (.number (Decimal.read ((c :: cs).takeWhile Char.isDigit)
            ((d :: rest).takeWhile Char.isDigit)))⟩) ∨
    ((∀ d rest, (c :: cs).dropWhile Char.isDigit = '.' :: d :: rest → d.isDigit = false) ∧
      Segment.number c cs = ⟨(c :: cs).takeWhile Char.isDigit,
        .token (.number (Decimal.read ((c :: cs).takeWhile Char.isDigit) []))⟩) := by
  rw [List.takeWhile_cons_of_pos hc, List.dropWhile_cons_of_pos hc]
  unfold Segment.number
  simp only
  split
  · next d rest hrest =>
    by_cases hd : d.isDigit = true
    · rw [if_pos hd]
      refine .inl ⟨d, rest, hrest, hd, ?_⟩
      rw [List.takeWhile_cons_of_pos hd]
    · rw [if_neg hd]
      refine .inr ⟨fun d' rest' hrest' => ?_, rfl⟩
      rw [hrest] at hrest'
      cases hrest'
      exact Bool.eq_false_iff.2 hd
  · next hnone => exact .inr ⟨fun d rest hrest => absurd hrest (hnone d rest), rfl⟩

/-- A text that starts with digits has a digit first. -/
theorem isDigit_of_start {digits : List Char} (hne : digits ≠ [])
    (h : ∀ d ∈ digits, d.isDigit = true) (hstart : digits <+: c :: cs) : c.isDigit = true := by
  cases digits with
  | nil => exact absurd rfl hne
  | cons d digits =>
    obtain ⟨rfl, -⟩ := List.cons_prefix_cons.1 hstart
    exact h d List.mem_cons_self

/-- Digits are cut with all digits behind them, and a fraction if there is one. -/
theorem covered_whole {digits : List Char} (hne : digits ≠ []) (h : ∀ d ∈ digits, IsDigit d)
    (hstart : digits <+: c :: cs) :
    (Segment.first c cs).Covers digits (.token (.number (Decimal.read digits []))) := by
  have hdigits : ∀ d ∈ digits, d.isDigit = true := fun d hd => isDigit_iff.2 (h d hd)
  have hc := isDigit_of_start hne hdigits hstart
  have hwhole := prefix_takeWhile hdigits hstart
  rw [Segment.first_of_digit hc]
  obtain ⟨d, rest, -, -, hnumber⟩ | ⟨-, hnumber⟩ := number_cases hc cs
  · rw [hnumber]
    refine .longer ?_ token_ne_fault
    have hle := hwhole.length_le
    simp only [List.length_append, List.length_cons]
    omega
  · rw [hnumber]
    refine ⟨hwhole.length_le, fun hlength => ?_, token_ne_fault⟩
    have heq := hwhole.eq_of_length hlength.symm
    rw [← heq]

/-- Digits with a fraction are cut with all digits behind them. -/
theorem covered_decimal {digits fraction : List Char} (hne : digits ≠ [])
    (h : ∀ d ∈ digits, IsDigit d) (hne' : fraction ≠ []) (h' : ∀ d ∈ fraction, IsDigit d)
    (hstart : digits ++ '.' :: fraction <+: c :: cs) :
    (Segment.first c cs).Covers (digits ++ '.' :: fraction)
      (.token (.number (Decimal.read digits fraction))) := by
  have hdigits : ∀ d ∈ digits, d.isDigit = true := fun d hd => isDigit_iff.2 (h d hd)
  have hfraction : ∀ d ∈ fraction, d.isDigit = true := fun d hd => isDigit_iff.2 (h' d hd)
  have hc := isDigit_of_start hne hdigits ((List.prefix_append _ _).trans hstart)
  obtain ⟨more, hmore⟩ := hstart
  -- The point is no digit, so the whole part ends there and the fraction follows.
  have htake : (c :: cs).takeWhile Char.isDigit = digits := by
    rw [← hmore, List.append_assoc, List.takeWhile_append_of_pos hdigits, List.cons_append,
      List.takeWhile_cons_of_neg (by decide), List.append_nil]
  have hdrop : (c :: cs).dropWhile Char.isDigit = '.' :: (fraction ++ more) := by
    rw [← hmore, List.append_assoc, List.dropWhile_append_of_pos hdigits, List.cons_append,
      List.dropWhile_cons_of_neg (by decide)]
  have hlong := prefix_takeWhile hfraction (List.prefix_append fraction more)
  rw [Segment.first_of_digit hc]
  obtain ⟨d, rest, hrest, hd, hnumber⟩ | ⟨hnone, -⟩ := number_cases hc cs
  · rw [hdrop] at hrest
    obtain ⟨-, hrest⟩ := List.cons.inj hrest
    rw [hnumber, htake, ← hrest]
    refine ⟨?_, fun hlength => ?_, token_ne_fault⟩
    · have hle := hlong.length_le
      simp only [List.length_append, List.length_cons]
      omega
    · simp only [List.length_append, List.length_cons] at hlength
      rw [← hlong.eq_of_length (by omega)]
  · cases fraction with
    | nil => exact absurd rfl hne'
    | cons d fraction =>
      have hd := hnone d (fraction ++ more) hdrop
      rw [hfraction d List.mem_cons_self] at hd
      cases hd

/-- What a word stands for. -/
def wordMeaning (text : List Char) : Meaning :=
  match Symbol.keyword? (String.ofList text) with
  | some s => .token (.symbol s)
  | none => .token .identifier

/-- `Segment.word`, with its meaning told by `wordMeaning`. -/
theorem word_eq (c : Char) (cs : List Char) : Segment.word c cs =
    ⟨c :: cs.takeWhile continuesName, wordMeaning (c :: cs.takeWhile continuesName)⟩ := by
  unfold Segment.word wordMeaning
  simp only
  cases Symbol.keyword? (String.ofList (c :: cs.takeWhile continuesName)) <;> rfl

/-- No word is a fault. -/
theorem wordMeaning_ne_fault (text : List Char) (f : LexicalFault) :
    wordMeaning text ≠ .fault f := by
  unfold wordMeaning
  split <;> exact token_ne_fault f

/-- The spelling of a keyword means that keyword. -/
theorem wordMeaning_keyword {s : Symbol} (hs : s ∈ Symbol.keywords)
    (h : String.ofList text = s.spelling) : wordMeaning text = .token (.symbol s) := by
  have hkeyword : ∀ s ∈ Symbol.keywords, Symbol.keyword? s.spelling = some s := by decide
  unfold wordMeaning
  rw [h, hkeyword s hs]

/-- A word that spells no keyword is a name. -/
theorem wordMeaning_name (h : ∀ s ∈ Symbol.keywords, s.spelling ≠ String.ofList text) :
    wordMeaning text = .token .identifier := by
  have hnone : Symbol.keyword? (String.ofList text) = none :=
    List.find?_eq_none.2 fun s hs => by simpa using h s hs
  unfold wordMeaning
  rw [hnone]

/-- A word is cut with all letters and digits behind it. -/
theorem covered_word (hc : startsName c = true) (h : ∀ d ∈ text, continuesName d = true)
    (hstart : text <+: cs) :
    (Segment.first c cs).Covers (c :: text) (wordMeaning (c :: text)) := by
  have hlong := prefix_takeWhile h hstart
  rw [Segment.first_of_letter hc, word_eq]
  refine ⟨Nat.succ_le_succ hlong.length_le, fun hlength => ?_, wordMeaning_ne_fault _⟩
  rw [hlong.eq_of_length (Nat.succ.inj hlength).symm]

/-- A keyword is spelled like a name. -/
theorem letters_of_keyword {s : Symbol} (hs : s ∈ Symbol.keywords)
    (h : String.ofList text = s.spelling) :
    ∃ c cs, text = c :: cs ∧ startsName c = true ∧ ∀ d ∈ cs, continuesName d = true := by
  have hletters : ∀ s ∈ Symbol.keywords, s.spelling.toList.head?.any startsName = true ∧
      s.spelling.toList.tail.all continuesName = true := by decide +kernel
  obtain ⟨hhead, htail⟩ := hletters s hs
  rw [← h, String.toList_ofList] at hhead htail
  cases text with
  | nil => cases hhead
  | cons c cs => exact ⟨c, cs, rfl, hhead, List.all_eq_true.1 htail⟩

/-- **Maximal munch.** No lexeme at the start of a text is longer than the first segment, and
    one of the same length has its meaning. -/
theorem covered {m : Meaning} (h : Lexeme text m) (hstart : text <+: c :: cs) :
    (Segment.first c cs).Covers text m := by
  cases h with
  | mark hs htext => exact covered_mark hs htext hstart
  | blank hblank =>
    obtain ⟨rfl, -⟩ := List.cons_prefix_cons.1 hstart
    rw [Segment.first_of_blank hblank]
    exact .refl nothing_ne_fault
  | comment htext => exact covered_comment htext hstart
  | string htext => exact covered_string htext hstart
  | whole hne hdigits => exact covered_whole hne hdigits hstart
  | decimal hne hdigits hne' hfraction => exact covered_decimal hne hdigits hne' hfraction hstart
  | keyword hs htext =>
    obtain ⟨d, ds, rfl, hd, hds⟩ := letters_of_keyword hs htext
    obtain ⟨rfl, hrest⟩ := List.cons_prefix_cons.1 hstart
    rw [← wordMeaning_keyword hs htext]
    exact covered_word hd hds hrest
  | name hc hcs hnone =>
    obtain ⟨rfl, hrest⟩ := List.cons_prefix_cons.1 hstart
    rw [← wordMeaning_name hnone]
    exact covered_word (startsName_iff.2 hc) (fun d hd => continuesName_iff.2 (hcs d hd)) hrest

end Lexeme

/-! ### The first segment is a lexeme -/

namespace Segment

/-- `Segment.word` cuts a keyword or a name. -/
theorem lexeme_word {c : Char} (hc : startsName c = true) (cs : List Char) :
    Lexeme (word c cs).text (word c cs).meaning := by
  have hcs : ∀ d ∈ cs.takeWhile continuesName, IsLetter d ∨ IsDigit d :=
    fun d hd => continuesName_iff.1 (List.mem_takeWhile_imp hd)
  unfold word
  simp only
  split
  · next s hs =>
    have hspelled := List.find?_some hs
    exact .keyword (List.mem_of_find?_eq_some hs) (of_decide_eq_true hspelled).symm
  · next hnone =>
    refine .name (startsName_iff.1 hc) hcs fun s hs => ?_
    simpa using List.find?_eq_none.1 hnone s hs

/-- `Segment.number` cuts a number. -/
theorem lexeme_number {c : Char} (hc : c.isDigit = true) (cs : List Char) :
    Lexeme (number c cs).text (number c cs).meaning := by
  have hdigits {l : List Char} : ∀ d ∈ l.takeWhile Char.isDigit, IsDigit d :=
    fun d hd => isDigit_iff.1 (List.mem_takeWhile_imp hd)
  have hne {d : Char} (hd : d.isDigit = true) (l : List Char) :
      (d :: l).takeWhile Char.isDigit ≠ [] := by
    rw [List.takeWhile_cons_of_pos hd]
    exact List.cons_ne_nil _ _
  obtain ⟨d, rest, -, hd, hnumber⟩ | ⟨-, hnumber⟩ := Lexeme.number_cases hc cs
  · rw [hnumber]
    exact .decimal (hne hc cs) hdigits (hne hd rest) hdigits
  · rw [hnumber]
    exact .whole (hne hc cs) hdigits

/-- `Segment.slash` cuts a comment or the mark `/`. -/
theorem lexeme_slash (cs : List Char) : Lexeme (slash cs).text (slash cs).meaning := by
  unfold slash
  split
  · next rest =>
    rw [List.takeWhile_cons_of_pos (by decide)]
    exact .comment fun hmem => by simpa using List.mem_takeWhile_imp hmem
  · exact .mark (s := .slash) (by decide) rfl

/-- `Segment.string` cuts a string, or the rest of the text if no quote ends it. -/
theorem string_cases (cs : List Char) :
    Lexeme (string cs).text (string cs).meaning ∨
      string cs = ⟨'"' :: cs, .fault .unterminatedString⟩ := by
  unfold string
  simp only
  split
  · exact .inl (.string fun hmem => by simpa using List.mem_takeWhile_imp hmem)
  · exact .inr rfl

/-- The first segment of a text is a lexeme, or it is at fault: the rest of the text behind a
    quote, or one character. -/
theorem first_cases (c : Char) (cs : List Char) :
    Lexeme (first c cs).text (first c cs).meaning ∨
      (c = '"' ∧ first c cs = ⟨c :: cs, .fault .unterminatedString⟩) ∨
      (c ≠ '"' ∧ first c cs = ⟨[c], .fault (.unexpectedCharacter c)⟩) := by
  unfold first
  split
  · next s hs =>
    left
    unfold punctuator? at hs
    split at hs <;> cases hs <;> exact .mark (by decide) rfl
  · split
    · next short long hs =>
      left
      unfold comparison? at hs
      unfold comparison
      split at hs <;> cases hs <;> split <;> exact .mark (by decide) rfl
    · split
      · exact .inl (lexeme_slash cs)
      · split
        · next hblank => exact .inl (.blank (by simpa [or_assoc] using hblank))
        · split
          · next hquote =>
            subst hquote
            exact (string_cases cs).imp_right fun h => .inl ⟨rfl, h⟩
          · next hquote =>
            split
            · next hdigit => exact .inl (lexeme_number hdigit cs)
            · split
              · next hname => exact .inl (lexeme_word hname cs)
              · exact .inr (.inr ⟨hquote, rfl⟩)

end Segment

/-! ### Cuts -/

/-- Lexemes are not empty, so the text gets shorter with each. -/
theorem Lexeme.ne_nil (h : Lexeme text m) : text ≠ [] := by
  have hspelling (s : Symbol) : s.spelling ≠ String.ofList [] := by cases s <;> decide
  cases h with
  | @mark s _ _ htext | @keyword s _ _ htext =>
    rintro rfl
    exact hspelling s htext.symm
  | whole hne => exact hne
  | blank | comment | string | name => exact List.cons_ne_nil _ _
  | decimal => simp

namespace Segment

variable {c : Char} {cs : List Char}

/-- By `Lexeme.covered`, no lexeme is longer than a first segment that is one. -/
theorem longest_first (h : Lexeme (first c cs).text (first c cs).meaning) :
    (first c cs).Longest (c :: cs) :=
  ⟨h, first_text_isPrefix c cs, fun hm hstart => (hm.covered hstart).length_le⟩

/-- If the first segment is a fault, no lexeme starts the text. -/
theorem no_lexeme_of_fault {f : LexicalFault} (h : (first c cs).meaning = .fault f) :
    ∀ seg m, Lexeme seg m → ¬ seg <+: c :: cs :=
  fun _ _ hm hstart => (hm.covered hstart).no_fault f h

/-- The longest lexeme at the start of a text is the first segment. -/
theorem Longest.eq_first {s : Segment} (h : s.Longest (c :: cs)) : first c cs = s := by
  have hcover := h.lexeme.covered h.start
  have hlexeme : Lexeme (first c cs).text (first c cs).meaning := by
    obtain hlexeme | ⟨-, hfault⟩ | ⟨-, hfault⟩ := first_cases c cs
    · exact hlexeme
    · exact absurd (congrArg Segment.meaning hfault) (hcover.no_fault _)
    · exact absurd (congrArg Segment.meaning hfault) (hcover.no_fault _)
  have hlength : (first c cs).text.length = s.text.length :=
    Nat.le_antisymm (h.longest hlexeme (first_text_isPrefix c cs)) hcover.length_le
  have htext : (first c cs).text = s.text :=
    (List.prefix_of_prefix_length_le (first_text_isPrefix c cs) h.start hlength.le).eq_of_length
      hlength
  have hmeaning := hcover.meaning_eq hlength
  cases s
  cases hfirst : first c cs
  rw [hfirst] at htext hmeaning
  cases htext
  cases hmeaning
  rfl

end Segment

/-- By induction on the cut: its first segment is the one that `first` makes. -/
theorem LongestCuts.eq_segments (h : LongestCuts text segs) : segs = segments text := by
  induction h with
  | nil => rfl
  | @lexeme s rest segs hs _ ih =>
    cases htext : s.text ++ rest with
    | nil => exact absurd (List.append_eq_nil_iff.1 htext).1 hs.lexeme.ne_nil
    | cons c cs =>
      rw [htext] at hs
      have hfirst := hs.eq_first
      rw [segments_of_first (by rw [hfirst]; exact htext), hfirst, ih]
  | @unterminated rest h =>
    obtain hlexeme | ⟨-, hfirst⟩ | ⟨hquote, -⟩ := Segment.first_cases '"' rest
    · exact absurd (Segment.first_text_isPrefix _ _) (h _ _ hlexeme)
    · have hall : (Segment.first '"' rest).text ++ [] = '"' :: rest := by
        rw [hfirst, List.append_nil]
      rw [segments_of_first hall, hfirst]
      rfl
    · exact absurd rfl hquote
  | @unexpected c rest segs hc h _ ih =>
    obtain hlexeme | ⟨hquote, -⟩ | ⟨-, hfirst⟩ := Segment.first_cases c rest
    · exact absurd (Segment.first_text_isPrefix _ _) (h _ _ hlexeme)
    · exact absurd hquote hc
    · have hone : (Segment.first c rest).text ++ rest = c :: rest := by rw [hfirst]; rfl
      rw [segments_of_first hone, hfirst, ih]

/-- By induction on the length of the text, with `first_cases` for its start. -/
theorem longestCuts_segments (text : List Char) : LongestCuts text (segments text) := by
  induction hn : text.length using Nat.strongRecOn generalizing text with
  | ind n ih =>
    cases text with
    | nil => exact .nil
    | cons c cs =>
      obtain ⟨rest, hrest⟩ := Segment.first_text_isPrefix c cs
      have hcuts : LongestCuts rest (segments rest) := by
        refine ih rest.length ?_ rest rfl
        have hpos := List.length_pos_iff.2 (Segment.first_text_ne_nil c cs)
        rw [← hn, ← hrest, List.length_append]
        omega
      rw [segments_of_first hrest]
      obtain hlexeme | ⟨rfl, hfirst⟩ | ⟨hc, hfirst⟩ := Segment.first_cases c cs
      · have hlongest := Segment.longest_first hlexeme
        rw [← hrest] at hlongest ⊢
        exact .lexeme hlongest hcuts
      · have hnone := Segment.no_lexeme_of_fault (congrArg Segment.meaning hfirst)
        rw [hfirst] at hrest ⊢
        have hend : rest = [] := by simpa using hrest
        rw [hend]
        exact .unterminated hnone
      · have hnone := Segment.no_lexeme_of_fault (congrArg Segment.meaning hfirst)
        rw [hfirst] at hrest ⊢
        cases hrest
        exact .unexpected hc hnone hcuts

/-- **One cut.** The segments of a text are its only cut into the longest lexemes. -/
theorem longestCuts_iff : LongestCuts text segs ↔ segs = segments text := by
  refine ⟨LongestCuts.eq_segments, ?_⟩
  rintro rfl
  exact longestCuts_segments text

/-- The text of a lexeme determines what it stands for. -/
theorem Lexeme.meaning_unique {m' : Meaning} (h : Lexeme text m) (h' : Lexeme text m') :
    m = m' := by
  cases text with
  | nil => exact absurd rfl h.ne_nil
  | cons c cs =>
    have hlength {m : Meaning} (h : Lexeme (c :: cs) m) :
        (Segment.first c cs).text.length = (c :: cs).length :=
      Nat.le_antisymm (Segment.first_text_isPrefix c cs).length_le
        (h.covered (List.prefix_refl _)).length_le
    rw [← (h.covered (List.prefix_refl _)).meaning_eq (hlength h),
      ← (h'.covered (List.prefix_refl _)).meaning_eq (hlength h')]

/-- What holds of lexemes and of faults holds of every segment of a cut. -/
theorem LongestCuts.forall_segments {P : Segment → Prop}
    (hlexeme : ∀ s, Lexeme s.text s.meaning → P s) (hfault : ∀ c cs f, P ⟨c :: cs, .fault f⟩)
    (h : LongestCuts text segs) : ∀ s ∈ segs, P s := by
  induction h with
  | nil => exact List.forall_mem_nil _
  | lexeme hs _ ih => exact List.forall_mem_cons.2 ⟨hlexeme _ hs.lexeme, ih⟩
  | unterminated => exact List.forall_mem_cons.2 ⟨hfault _ _ _, List.forall_mem_nil _⟩
  | unexpected _ _ _ ih => exact List.forall_mem_cons.2 ⟨hfault _ _ _, ih⟩

/-! ### Items of a cut -/

/-- A blank or a comment. -/
def Segment.isSilent (s : Segment) : Bool :=
  match s.meaning with
  | .nothing => true
  | _ => false

/-- The item shows the segment: a token of its kind with its text, or an error with its fault. -/
def Segment.ShownBy (s : Segment) (item : Item) : Prop :=
  match s.meaning, item with
  | .token kind, .token t => t.kind = kind ∧ t.lexeme = String.ofList s.text
  | .fault fault, .error e => ∃ line, e = .lexical line fault
  | _, _ => False

/-- No lexeme stands for the end of a source. -/
theorem Lexeme.ne_eof (h : Lexeme text m) : m ≠ .token .eof := by
  intro heq
  cases h <;> cases heq

/-- The items of segments: one for each of them that is not silent, and at last the token that
    ends the source. -/
theorem itemsFrom_shown (h : ∀ s ∈ segs, s.meaning ≠ .token .eof) (line : Nat) :
    ∃ items last, itemsFrom line segs = items ++ [.token ⟨.eof, "", last⟩] ∧
      List.Forall₂ Segment.ShownBy (segs.filter (!·.isSilent)) items ∧
      ∀ t, Item.token t ∈ items → t.isEof = false := by
  induction segs generalizing line with
  | nil => exact ⟨[], line, rfl, .nil, fun t ht => absurd ht List.not_mem_nil⟩
  | cons s segs ih =>
    obtain ⟨hs, hsegs⟩ := List.forall_mem_cons.1 h
    obtain ⟨items, last, hitems, hshown, heof⟩ := ih hsegs (line + s.newlines)
    obtain ⟨text, meaning⟩ := s
    cases meaning with
    | nothing => exact ⟨items, last, hitems, hshown, heof⟩
    | token kind =>
      let line' := line + Segment.newlines ⟨text, .token kind⟩
      refine ⟨.token ⟨kind, String.ofList text, line'⟩ :: items, last,
        congrArg (_ :: ·) hitems, .cons ⟨rfl, rfl⟩ hshown, fun t ht => ?_⟩
      obtain heq | ht := List.mem_cons.1 ht
      · cases heq
        cases kind with
        | eof => exact absurd rfl hs
        | symbol | identifier | string | number => rfl
      · exact heof t ht
    | fault fault =>
      let line' := line + Segment.newlines ⟨text, .fault fault⟩
      refine ⟨.error (.lexical line' fault) :: items, last,
        congrArg (_ :: ·) hitems, .cons ⟨line', rfl⟩ hshown, fun t ht => ?_⟩
      obtain heq | ht := List.mem_cons.1 ht
      · cases heq
      · exact heof t ht

/-- **Longest match.** Every source has exactly one cut into the longest lexemes of the grammar,
    in which the text of a lexeme determines what it stands for. The cut consists of segments
    that are not empty and together are the source. The items of the source show, in order, the
    segments that are neither blanks nor comments, and behind them comes one token that ends the
    source, and no other. Read byte by byte, the source gives out these items one after the
    other, and then nothing; no part of it is ever asked for that starts or ends inside of a
    character. -/
theorem Token.scan_longest_match (source : String) :
    (∀ text m m', Lexeme text m → Lexeme text m' → m = m') ∧
    ∃ segs, (∀ segs', LongestCuts source.toList segs' ↔ segs' = segs) ∧
      segs.flatMap Segment.text = source.toList ∧ (∀ s ∈ segs, s.text ≠ []) ∧
      (∃ items last, Token.scan source = items ++ [.token ⟨.eof, "", last⟩] ∧
        List.Forall₂ Segment.ShownBy (segs.filter (!·.isSilent)) items ∧
        ∀ t, Item.token t ∈ items → t.isEof = false) ∧
      ∀ n, (ByteCursor.new source).nth? n = some ((Token.scan source)[n]?) := by
  have hcuts := longestCuts_segments source.toList
  have hne := hcuts.forall_segments (fun _ h => h.ne_nil) fun _ _ _ => List.cons_ne_nil _ _
  have heof : ∀ s ∈ segments source.toList, s.meaning ≠ .token .eof := by
    refine hcuts.forall_segments (fun _ h => h.ne_eof) fun _ _ _ heq => ?_
    cases heq
  exact ⟨fun _ _ _ h h' => h.meaning_unique h', segments source.toList,
    fun _ => longestCuts_iff, flatMap_text_segments _, hne, itemsFrom_shown heof 1,
    ByteCursor.nth?_new source⟩

/-- A point behind digits that no digit follows, a name, three characters that could be cut in two
    ways, and a character of two bytes. -/
def Token.dotAfterDigits : String := "1.x!==é"

/-- That source has this cut and no other, a name is all that its third segment can be, and behind
    the token that ends it there is nothing. -/
theorem Token.scan_longest_match_dotAfterDigits :
    (∃ segs, (∀ segs', LongestCuts Token.dotAfterDigits.toList segs' ↔ segs' = segs) ∧
      segs.map (fun s => String.ofList s.text) = ["1", ".", "x", "!=", "=", "é"]) ∧
    (∀ m, Lexeme ['x'] m → m = .token .identifier) ∧
    (ByteCursor.new Token.dotAfterDigits).nth? 7 = some none := by
  obtain ⟨hmeaning, segs, hcuts, -, -, -, hbytes⟩ :=
    Token.scan_longest_match Token.dotAfterDigits
  refine ⟨⟨segs, hcuts, ?_⟩, fun m h => ?_, ?_⟩
  · have hsegs := (hcuts _).1 (longestCuts_segments _)
    rw [← hsegs]
    decide +kernel
  · refine hmeaning ['x'] m _ h (.name (.inr (.inl (by decide))) (List.forall_mem_nil _) ?_)
    decide
  · have hlength : (Token.scan Token.dotAfterDigits).length = 7 := by decide +kernel
    rw [hbytes, List.getElem?_eq_none (Nat.le_of_eq hlength)]

end Scriptlet
