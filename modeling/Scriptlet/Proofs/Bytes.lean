import Mathlib.Data.List.TakeWhile
import Scriptlet.Token.ByteCursor

namespace Scriptlet

/-!
# A source read byte by byte

The cursor over the bytes of a source reads the same items as the lexer, which reads characters.

* `Text.Utf8.encode` — the bytes of a text; `utf8EncodeChar_cases` — those of one character.
* `ByteCursor.skipWhile_at`, `stringEnd_at`, `slice?_at` — a loop that starts between two
  characters ends between two characters, and the part of the source up to there is a text.
* `ByteCursor.cut?_at` — the segment at a byte is the first segment of the text from there on.
* `ByteCursor.nth?_new` — one by one, the items are those of the lexer, and then there is none.
-/

/-! ### Bytes of characters -/

/-- The bytes of a text. -/
def Text.Utf8.encode (cs : List Char) : List UInt8 := cs.flatMap String.utf8EncodeChar

namespace Text.Utf8

@[simp]
theorem encode_nil : encode [] = [] := rfl

/-- The bytes of the first character stand first. -/
theorem encode_cons (c : Char) (cs : List Char) :
    encode (c :: cs) = String.utf8EncodeChar c ++ encode cs := List.flatMap_cons

@[simp]
theorem encode_append (cs ds : List Char) : encode (cs ++ ds) = encode cs ++ encode ds :=
  List.flatMap_append

/-- `encode` gives the bytes that `String.toByteArray` holds. -/
theorem toByteArray_ofList (cs : List Char) :
    (String.ofList cs).toByteArray = (encode cs).toByteArray := String.toByteArray_ofList

/-- And as many as `String.utf8ByteSize` counts. -/
theorem utf8ByteSize_ofList (cs : List Char) :
    (String.ofList cs).utf8ByteSize = (encode cs).length := by
  rw [← String.size_toByteArray, toByteArray_ofList, List.size_toByteArray]

/-- The bytes that the cursor reads of `source`. -/
theorem data_toByteArray (source : String) :
    source.toByteArray.data.toList = encode source.toList := by
  have hsource : source.toByteArray = (encode source.toList).toByteArray := by
    rw [← toByteArray_ofList, String.ofList_toList]
  rw [hsource, List.data_toByteArray]

/-- All bytes but the first of a character are of this form. -/
theorem continues_ofNat (n : Nat) : continues (UInt8.ofNat (n % 64 + 128)) = true := by
  have hn : n % 64 + 128 < 256 := by omega
  simp [continues, UInt8.le_iff_toNat_le, UInt8.lt_iff_toNat_lt, Nat.mod_eq_of_lt hn]
  omega

theorem ofUInt8_val (b : UInt8) : (Char.ofUInt8 b).val.toNat = b.toNat := rfl

/-- **Bytes of a character.** A character of ASCII is the one byte with its code. Any other one
    is a byte that starts it and bytes that carry it on. -/
theorem utf8EncodeChar_cases (c : Char) :
    (c.val.toNat < 128 ∧ ∃ b, String.utf8EncodeChar c = [b] ∧ Char.ofUInt8 b = c) ∨
    (128 ≤ c.val.toNat ∧ ∃ b bs, String.utf8EncodeChar c = b :: bs ∧ 192 ≤ b.toNat ∧
      ∀ x ∈ bs, continues x = true) := by
  have hfirst (n base : Nat) (hn : n < 256 - base) (hbase : 192 ≤ base) :
      192 ≤ (UInt8.ofNat (n + base)).toNat := by
    rw [UInt8.toNat_ofNat', Nat.mod_eq_of_lt (by omega)]
    omega
  have htail (n : Nat) {bs : List UInt8} (hbs : ∀ x ∈ bs, continues x = true) :
      ∀ x ∈ UInt8.ofNat (n % 64 + 128) :: bs, continues x = true :=
    List.forall_mem_cons.2 ⟨continues_ofNat n, hbs⟩
  -- A character takes one to four bytes, and `htail` serves all but the first of them.
  unfold String.utf8EncodeChar
  simp only
  by_cases hone : c.val.toNat ≤ 127
  · refine .inl ⟨by omega, UInt8.ofNat c.val.toNat, if_pos hone, ?_⟩
    apply Char.ext
    apply UInt32.toNat_inj.1
    rw [ofUInt8_val, UInt8.toNat_ofNat', Nat.mod_eq_of_lt (by omega)]
  · refine .inr ⟨by omega, ?_⟩
    rw [if_neg hone]
    by_cases htwo : c.val.toNat ≤ 2047
    · rw [if_pos htwo]
      exact ⟨_, _, rfl, hfirst _ _ (by omega) (by decide), htail _ (List.forall_mem_nil _)⟩
    · rw [if_neg htwo]
      by_cases hthree : c.val.toNat ≤ 65535
      · rw [if_pos hthree]
        exact ⟨_, _, rfl, hfirst _ _ (by omega) (by decide),
          htail _ (htail _ (List.forall_mem_nil _))⟩
      · rw [if_neg hthree]
        exact ⟨_, _, rfl, hfirst _ _ (by omega) (by decide),
          htail _ (htail _ (htail _ (List.forall_mem_nil _)))⟩

/-- Bytes that carry a character on lie between those of ASCII and those that start one. -/
theorem le_of_continues {b : UInt8} (h : continues b = true) : 128 ≤ b.toNat ∧ b.toNat < 192 := by
  simpa [continues, UInt8.le_iff_toNat_le, UInt8.lt_iff_toNat_lt] using h

/-- No first byte of a character carries one on. -/
theorem continues_eq_false {b : UInt8} (h : b.toNat < 128 ∨ 192 ≤ b.toNat) :
    continues b = false := by
  refine Bool.eq_false_iff.2 fun hb => ?_
  have := le_of_continues hb
  omega

section Classes

variable {r : Char → Bool} {v : Bool}

/-- A class of characters that has all characters above ASCII or none of them sees the same in
    the first byte of a character and in the character. -/
theorem apply_head_encode (hr : ∀ c : Char, 128 ≤ c.val.toNat → r c = v) (c : Char) :
    ∃ b bs, String.utf8EncodeChar c = b :: bs ∧ r (Char.ofUInt8 b) = r c ∧
      ∀ x ∈ bs, r (Char.ofUInt8 x) = r c := by
  obtain ⟨-, b, hc, hb⟩ | ⟨hwide, b, bs, hc, hb, hbs⟩ := utf8EncodeChar_cases c
  · exact ⟨b, [], hc, by rw [hb], List.forall_mem_nil _⟩
  · refine ⟨b, bs, hc, ?_, fun x hx => ?_⟩
    · rw [hr c hwide, hr _ (by rw [ofUInt8_val]; omega)]
    · rw [hr c hwide, hr _ (by rw [ofUInt8_val]; exact (le_of_continues (hbs x hx)).1)]

/-- For such a class, a loop over bytes stops where the loop over characters does. -/
theorem takeWhile_encode (hr : ∀ c : Char, 128 ≤ c.val.toNat → r c = v) (cs : List Char) :
    (encode cs).takeWhile (r ∘ Char.ofUInt8) = encode (cs.takeWhile r) := by
  induction cs with
  | nil => rfl
  | cons c cs ih =>
    obtain ⟨b, bs, hc, hb, hbs⟩ := apply_head_encode hr c
    rw [encode_cons, hc]
    cases hrc : r c with
    | false =>
      rw [List.takeWhile_cons_of_neg (by rw [hrc]; exact Bool.false_ne_true), encode_nil,
        List.cons_append]
      exact List.takeWhile_cons_of_neg
        (by rw [Function.comp_apply, hb, hrc]; exact Bool.false_ne_true)
    | true =>
      have hall : ∀ x ∈ b :: bs, (r ∘ Char.ofUInt8) x = true :=
        List.forall_mem_cons.2 ⟨hb.trans hrc, fun x hx => (hbs x hx).trans hrc⟩
      rw [List.takeWhile_append_of_pos hall, ih, List.takeWhile_cons_of_pos hrc, encode_cons, hc]

end Classes

/-- A line end is one byte, and its code stands in no other character. -/
theorem count_encode (cs : List Char) :
    (encode cs).countP (fun b => Char.ofUInt8 b = '\n') = cs.count '\n' := by
  induction cs with
  | nil => rfl
  | cons c cs ih =>
    have hwide (d : Char) (hd : 128 ≤ d.val.toNat) : decide (d = '\n') = false := by
      refine decide_eq_false fun heq => ?_
      rw [heq] at hd
      revert hd
      decide
    rw [encode_cons, List.countP_append, ih, List.count_cons]
    obtain ⟨-, b, hc, hb⟩ | ⟨hc', b, bs, hc, hb, hbs⟩ := utf8EncodeChar_cases c
    · rw [hc, List.countP_singleton, hb, Nat.add_comm]
      simp
    · have hnone : (b :: bs).countP (fun b => Char.ofUInt8 b = '\n') = 0 := by
        refine List.countP_eq_zero.2 fun x hx => ?_
        have hx' : 128 ≤ (Char.ofUInt8 x).val.toNat := by
          rw [ofUInt8_val]
          obtain rfl | hx := List.mem_cons.1 hx
          · omega
          · exact (le_of_continues (hbs x hx)).1
        rw [hwide _ hx']
        exact Bool.false_ne_true
      have hne : c ≠ '\n' := of_decide_eq_false (hwide c hc')
      rw [hc, hnone, Nat.zero_add]
      simp [hne]

end Text.Utf8

/-! ### Segments behind a segment -/

/-- The first segment of a text, and the segments of what stands behind it. -/
theorem segments_of_first {c : Char} {cs post : List Char}
    (h : (Segment.first c cs).text ++ post = c :: cs) :
    segments (c :: cs) = Segment.first c cs :: segments post := by
  rw [segments_cons]
  conv => lhs; rw [← h]
  rw [List.drop_left]

/-! ### Places between characters -/

namespace ByteCursor

open Text.Utf8

section Loops

variable {source : String}

/-- The bound of the loops of the cursor. -/
theorem utf8ByteSize_eq (source : String) :
    source.utf8ByteSize = (encode source.toList).length := by
  rw [← utf8ByteSize_ofList, String.ofList_toList]

/-- Behind the end, `byte` reads zero. -/
theorem byte_eq (source : String) (i : Nat) :
    byte source i = (encode source.toList)[i]?.getD 0 := by
  unfold byte
  rw [← Array.getElem?_toList, data_toByteArray]

/-- The bytes from an index on, its own byte first. -/
theorem drop_encode {i : Nat} (hi : i < source.utf8ByteSize) :
    (encode source.toList).drop i = byte source i :: (encode source.toList).drop (i + 1) := by
  rw [utf8ByteSize_eq] at hi
  rw [List.drop_eq_getElem_cons hi, byte_eq, List.getElem?_eq_getElem hi]
  rfl

/-- The loop of `skipWhile` in terms of `List.takeWhile`. -/
theorem skipWhile_eq (source : String) (p : UInt8 → Bool) (i : Nat) :
    skipWhile source p i = i + (((encode source.toList).drop i).takeWhile p).length := by
  fun_induction skipWhile source p i with
  | case1 i hi hp ih =>
    rw [ih, drop_encode hi, List.takeWhile_cons_of_pos hp, List.length_cons]
    omega
  | case2 i hi hp =>
    rw [drop_encode hi, List.takeWhile_cons_of_neg hp]
    rfl
  | case3 i hi =>
    rw [utf8ByteSize_eq] at hi
    rw [List.drop_eq_nil_of_le (Nat.le_of_not_lt hi)]
    rfl

/-- The loop of `stringEnd` stops in front of a quote and counts the line ends before it. -/
theorem stringEnd_eq (source : String) (i line : Nat) :
    stringEnd source i line =
      let body := ((encode source.toList).drop i).takeWhile ((· ≠ '"') ∘ Char.ofUInt8)
      (i + body.length, line + body.countP (fun b => Char.ofUInt8 b = '\n')) := by
  have hgo (i : Nat) (hquote : ¬ peek source i = '"') :
      ((fun c : Char => decide (c ≠ '"')) ∘ Char.ofUInt8) (byte source i) = true :=
    decide_eq_true hquote
  fun_induction stringEnd source i line with
  | case1 i line hi hquote =>
    have hstop : ¬ ((fun c : Char => decide (c ≠ '"')) ∘ Char.ofUInt8) (byte source i) = true := by
      simpa [peek] using hquote
    rw [drop_encode hi, List.takeWhile_cons_of_neg hstop]
    rfl
  | case2 i line hi hquote hline ih =>
    rw [drop_encode hi, List.takeWhile_cons_of_pos (hgo i hquote)]
    refine Eq.trans ih (Prod.ext ?_ ?_)
    · simp only [List.length_cons]
      omega
    · simp only [List.countP_cons, show Char.ofUInt8 (byte source i) = '\n' from hline, decide_true,
        if_true]
      omega
  | case3 i line hi hquote hline ih =>
    rw [drop_encode hi, List.takeWhile_cons_of_pos (hgo i hquote)]
    refine Eq.trans ih (Prod.ext ?_ ?_)
    · simp only [List.length_cons]
      omega
    · have hbyte : ¬ Char.ofUInt8 (byte source i) = '\n' := hline
      simp only [List.countP_cons, decide_eq_false hbyte, Bool.false_eq_true, if_false,
        Nat.add_zero]
  | case4 i line hi =>
    rw [utf8ByteSize_eq] at hi
    rw [List.drop_eq_nil_of_le (Nat.le_of_not_lt hi)]
    rfl

end Loops

section Places

variable {source : String} {pre rest mid post : List Char}

/-- At the place behind the text `pre`, the bytes of `rest` come next. -/
theorem drop_at (h : source.toList = pre ++ rest) :
    (encode source.toList).drop (encode pre).length = encode rest := by
  rw [h, encode_append, List.drop_left]

/-- There is a byte at a place iff there is a character behind it. -/
theorem lt_utf8ByteSize_iff (h : source.toList = pre ++ rest) :
    (encode pre).length < source.utf8ByteSize ↔ rest ≠ [] := by
  rw [utf8ByteSize_eq, h, encode_append, List.length_append]
  cases rest with
  | nil => simp
  | cons c rest =>
    obtain ⟨-, b, hc, -⟩ | ⟨-, b, bs, hc, -⟩ := utf8EncodeChar_cases c <;>
      simp [encode_cons, hc]

/-- The byte at a place is the first one of the text behind it. -/
theorem byte_at (h : source.toList = pre ++ rest) :
    byte source (encode pre).length = (encode rest).head?.getD 0 := by
  rw [byte_eq, h, encode_append, List.getElem?_append_right (Nat.le_refl _), Nat.sub_self,
    List.head?_eq_getElem?]

/-- A class of characters of ASCII sees the same in the next byte and in the next character;
    behind the end there is none, and the zero there is not in the class. -/
theorem peek_at {r : Char → Bool} (hr : ∀ c : Char, 128 ≤ c.val.toNat → r c = false)
    (hzero : r (Char.ofUInt8 0) = false) (h : source.toList = pre ++ rest) :
    r (peek source (encode pre).length) = rest.head?.any r := by
  unfold peek
  rw [byte_at h]
  cases rest with
  | nil => exact hzero
  | cons c rest =>
    obtain ⟨b, bs, hc, hb, -⟩ := apply_head_encode hr c
    rw [encode_cons, hc]
    exact hb

/-- `skipWhile` goes from a place to a place, over the characters of the class. -/
theorem skipWhile_at {r : Char → Bool} {v : Bool}
    (hr : ∀ c : Char, 128 ≤ c.val.toNat → r c = v) (h : source.toList = pre ++ rest) :
    skipWhile source (r ∘ Char.ofUInt8) (encode pre).length =
      (encode (pre ++ rest.takeWhile r)).length := by
  rw [skipWhile_eq, drop_at h, takeWhile_encode hr, encode_append, List.length_append]

/-- `stringEnd` goes from a place to a place, and counts the line ends in between. -/
theorem stringEnd_at (h : source.toList = pre ++ rest) (line : Nat) :
    stringEnd source (encode pre).length line =
      ((encode (pre ++ rest.takeWhile (· ≠ '"'))).length,
        line + (rest.takeWhile (· ≠ '"')).count '\n') := by
  have hquote (c : Char) (hc : 128 ≤ c.val.toNat) : decide (c ≠ '"') = true := by
    refine decide_eq_true fun heq => ?_
    rw [heq] at hc
    revert hc
    decide
  rw [stringEnd_eq, drop_at h]
  simp only
  rw [takeWhile_encode hquote, count_encode, encode_append, List.length_append]

/-- The bytes that carry a character on end where the next character starts. -/
theorem skipWhile_continues_at {c : Char} (h : source.toList = pre ++ c :: rest) :
    skipWhile source continues ((encode pre).length + 1) = (encode (pre ++ [c])).length := by
  have hnext : (encode rest).takeWhile continues = [] := by
    cases rest with
    | nil => rfl
    | cons d rest =>
      rw [encode_cons]
      obtain ⟨hd, b, hb, rfl⟩ | ⟨-, b, bs, hb, hlow, -⟩ := utf8EncodeChar_cases d <;>
        rw [hb, List.cons_append]
      · refine List.takeWhile_cons_of_neg ?_
        rw [continues_eq_false (.inl hd)]
        exact Bool.false_ne_true
      · refine List.takeWhile_cons_of_neg ?_
        rw [continues_eq_false (.inr hlow)]
        exact Bool.false_ne_true
  have hdrop : (encode source.toList).drop ((encode pre).length + 1) =
      (String.utf8EncodeChar c).tail ++ encode rest := by
    rw [← List.drop_drop, drop_at h, encode_cons]
    obtain ⟨-, b, hc, -⟩ | ⟨-, b, bs, hc, -⟩ := utf8EncodeChar_cases c <;> rw [hc] <;> rfl
  have htail : ∀ x ∈ (String.utf8EncodeChar c).tail, continues x = true := by
    obtain ⟨-, b, hc, -⟩ | ⟨-, b, bs, hc, -, hbs⟩ := utf8EncodeChar_cases c <;> rw [hc]
    · exact List.forall_mem_nil _
    · exact hbs
  rw [skipWhile_eq, hdrop, List.takeWhile_append_of_pos htail, hnext, List.append_nil,
    encode_append, encode_cons, encode_nil, List.append_nil, List.length_append, List.length_tail]
  obtain ⟨-, b, hc, -⟩ | ⟨-, b, bs, hc, -⟩ := utf8EncodeChar_cases c <;>
    rw [hc, List.length_cons] <;> omega

/-- A place is a position at which `String` can be cut. -/
theorem isValid_at (h : source.toList = pre ++ rest) :
    (⟨(encode pre).length⟩ : String.Pos.Raw).IsValid source := by
  refine String.Pos.Raw.isValid_iff_exists_append.2 ⟨String.ofList pre, String.ofList rest, ?_, ?_⟩
  · rw [← String.ofList_append, ← h, String.ofList_toList]
  · rw [← utf8ByteSize_ofList]
    rfl

/-- The bytes between two places are those of the text between them. -/
theorem extract_at (h : source.toList = pre ++ mid ++ post) :
    source.toByteArray.extract (encode pre).length (encode (pre ++ mid)).length =
      (String.ofList mid).toByteArray := by
  apply ByteArray.ext
  apply Array.toList_inj.1
  rw [ByteArray.data_extract, Array.toList_extract, data_toByteArray, data_toByteArray,
    String.toList_ofList, h]
  simp

/-- **Slices.** Between two characters a source can be cut, and what stands between two such
    places is a text. -/
theorem slice?_at (h : source.toList = pre ++ mid ++ post) :
    slice? source (encode pre).length (encode (pre ++ mid)).length = some (String.ofList mid) := by
  have hle : (encode pre).length ≤ (encode (pre ++ mid)).length := by
    rw [encode_append, List.length_append]
    exact Nat.le_add_right _ _
  have hstart : source.toList = pre ++ (mid ++ post) := by rw [h, List.append_assoc]
  unfold slice?
  rw [if_pos ⟨hle, isValid_at hstart, isValid_at h⟩, extract_at h]
  unfold String.fromUTF8?
  rw [dif_pos (String.ofList mid).isValidUTF8]
  rfl

end Places

/-! ### Characters above ASCII -/

/-- `Char.isAlpha`, unfolded. -/
theorem isAlpha_eq (c : Char) : c.isAlpha =
    (decide (c.val ≥ 'A'.val ∧ c.val ≤ 'Z'.val) ||
      (decide (c.val ≥ 'a'.val) && decide (c.val ≤ 'z'.val))) := rfl

section Wide

variable {c : Char} (hc : 128 ≤ c.val.toNat)

include hc

/-- A character above ASCII is none of those that the lexer knows. -/
theorem ne_of_wide {d : Char} (hd : d.val.toNat < 128) : c ≠ d := by
  intro heq
  rw [heq] at hc
  omega

/-- It is no digit. -/
theorem isDigit_of_wide : c.isDigit = false := by
  have hnine : ¬ c.val ≤ 57 := by
    rw [UInt32.le_iff_toNat_le]
    have : (57 : UInt32).toNat = 57 := rfl
    omega
  simp [Char.isDigit, hnine]

/-- It is no letter of `Char.isAlpha`. -/
theorem isAlpha_of_wide : c.isAlpha = false := by
  have hupper : ¬ c.val ≤ 90 := by
    rw [UInt32.le_iff_toNat_le]
    have : (90 : UInt32).toNat = 90 := rfl
    omega
  have hlower : ¬ c.val ≤ 122 := by
    rw [UInt32.le_iff_toNat_le]
    have : (122 : UInt32).toNat = 122 := rfl
    omega
  simp [isAlpha_eq, hupper, hlower]

/-- It starts no name. -/
theorem startsName_of_wide : startsName c = false := by
  have hne : c ≠ '_' := ne_of_wide hc (by decide)
  simp [startsName, isAlpha_of_wide hc, hne]

/-- It ends a name. -/
theorem continuesName_of_wide : continuesName c = false := by
  have hne : c ≠ '_' := ne_of_wide hc (by decide)
  simp [continuesName, Char.isAlphanum, isAlpha_of_wide hc, isDigit_of_wide hc, hne]

/-- It is no punctuator. -/
theorem punctuator?_of_wide : punctuator? c = none := by
  unfold punctuator?
  split <;> first | rfl | exact absurd hc (by decide)

/-- It starts no comparison. -/
theorem comparison?_of_wide : comparison? c = none := by
  unfold comparison?
  split <;> first | rfl | exact absurd hc (by decide)

/-- No character above ASCII starts anything. -/
theorem first_of_wide (cs : List Char) :
    Segment.first c cs = ⟨[c], .fault (.unexpectedCharacter c)⟩ := by
  have hne {d : Char} (hd : d.val.toNat < 128) : c ≠ d := ne_of_wide hc hd
  unfold Segment.first
  rw [punctuator?_of_wide hc, comparison?_of_wide hc]
  simp [hne, isDigit_of_wide hc, startsName_of_wide hc]

end Wide

/-- The cursor, at such a byte, branches as far as `unexpected?`. -/
theorem cut?_of_wide {source : String} {start line : Nat}
    (h : 128 ≤ (peek source start).val.toNat) :
    cut? source start line = unexpected? source start line := by
  have hne {d : Char} (hd : d.val.toNat < 128) : peek source start ≠ d := ne_of_wide h hd
  unfold cut?
  simp only
  rw [punctuator?_of_wide h, comparison?_of_wide h]
  simp [hne, isDigit_of_wide h, startsName_of_wide h]

/-! ### Cuts -/

/-- A segment behind the text `pre`, as the cursor cuts it. -/
def cutOf (pre : List Char) (line : Nat) (s : Segment) : Cut :=
  ⟨(encode (pre ++ s.text)).length, line + s.newlines, s.meaning⟩

section Cuts

variable {source : String} {pre rest : List Char} {c : Char} {line : Nat}

/-- A character of ASCII moves the place by one byte. -/
theorem length_encode_ascii (hc : c.val.toNat < 128) (pre : List Char) :
    (encode (pre ++ [c])).length = (encode pre).length + 1 := by
  obtain ⟨-, b, hb, -⟩ | ⟨hwide, -⟩ := utf8EncodeChar_cases c
  · rw [encode_append, encode_cons, hb, List.length_append]
    rfl
  · omega

/-- The cursor sees a character of ASCII as it is. -/
theorem peek_ascii (hc : c.val.toNat < 128) (h : source.toList = pre ++ c :: rest) :
    peek source (encode pre).length = c := by
  unfold peek
  rw [byte_at h, encode_cons]
  obtain ⟨-, b, hb, hbc⟩ | ⟨hwide, -⟩ := utf8EncodeChar_cases c
  · rw [hb]
    exact hbc
  · omega

/-- Of any other character it sees a byte that is not of ASCII either. -/
theorem peek_wide (hc : 128 ≤ c.val.toNat) (h : source.toList = pre ++ c :: rest) :
    128 ≤ (peek source (encode pre).length).val.toNat := by
  unfold peek
  rw [byte_at h, encode_cons, ofUInt8_val]
  obtain ⟨hascii, -⟩ | ⟨-, b, bs, hb, hlow, -⟩ := utf8EncodeChar_cases c
  · omega
  · rw [hb]
    exact Nat.le_trans (by decide) hlow

/-- Looking one character ahead. -/
theorem peek_eq_iff (h : source.toList = pre ++ rest) {d : Char} (hd : d.val.toNat < 128)
    (hzero : d ≠ Char.ofUInt8 0) :
    peek source (encode pre).length = d ↔ rest.head? = some d := by
  have hpeek := peek_at (r := fun c => decide (c = d))
    (fun c hc => decide_eq_false (ne_of_wide hc hd)) (decide_eq_false hzero.symm) h
  simpa [Option.any_eq_true] using congrArg (· = true) hpeek

/-- The place behind the next character. -/
theorem behind (h : source.toList = pre ++ c :: rest) : source.toList = (pre ++ [c]) ++ rest := by
  rw [h, List.append_assoc, List.singleton_append]

/-- A segment without a line end stays on its line. -/
theorem cutOf_eq {s : Segment} (hline : '\n' ∉ s.text) :
    cutOf pre line s = ⟨(encode (pre ++ s.text)).length, line, s.meaning⟩ := by
  have hnone : s.newlines = 0 := List.count_eq_zero.2 hline
  rw [cutOf, hnone, Nat.add_zero]

/-- A segment of one character. -/
theorem cutOf_one (hc : c.val.toNat < 128) (hline : c ≠ '\n') (meaning : Meaning) :
    cutOf pre line ⟨[c], meaning⟩ = ⟨(encode pre).length + 1, line, meaning⟩ := by
  rw [cutOf_eq (by simp [hline.symm]), length_encode_ascii hc]

/-- `comparison` cuts what `Segment.comparison` does: it takes the `=` that follows. -/
theorem comparison_at (hc : c.val.toNat < 128) (hline : c ≠ '\n')
    (h : source.toList = pre ++ c :: rest) (short long : Symbol) :
    comparison source (encode pre).length line short long =
      cutOf pre line (Segment.comparison c short long rest) := by
  have hnext := peek_eq_iff (behind h) (d := '=') (by decide) (by decide)
  have hend := lt_utf8ByteSize_iff (behind h)
  rw [length_encode_ascii hc] at hnext hend
  unfold comparison Segment.comparison
  split
  · next hlong =>
    rw [Bool.and_eq_true, decide_eq_true_eq, hnext] at hlong
    cases rest with
    | nil => cases hlong.1
    | cons d rest =>
      cases hlong.1
      show _ = cutOf pre line ⟨[c, '='], .token (.symbol long)⟩
      rw [cutOf_eq (by simp [hline.symm]), List.append_cons, length_encode_ascii (by decide),
        length_encode_ascii hc]
  · next hshort =>
    split
    · next rest =>
      refine absurd ?_ hshort
      rw [Bool.and_eq_true, decide_eq_true_eq, hnext, decide_eq_true_eq, hend]
      exact ⟨rfl, List.cons_ne_nil _ _⟩
    · exact (cutOf_one hc hline _).symm

/-- `slash` cuts what `Segment.slash` does: a comment up to the end of its line, or a slash. -/
theorem slash_at (h : source.toList = pre ++ '/' :: rest) :
    slash source (encode pre).length line = cutOf pre line (Segment.slash rest) := by
  have hnext := peek_eq_iff (behind h) (d := '/') (by decide) (by decide)
  have hskip := skipWhile_at (r := fun c => decide (c ≠ '\n'))
    (fun c hc => decide_eq_true (ne_of_wide hc (by decide))) (behind h)
  rw [length_encode_ascii (by decide)] at hnext hskip
  unfold slash Segment.slash
  split
  · next hcomment =>
    rw [hnext] at hcomment
    cases rest with
    | nil => cases hcomment
    | cons d rest =>
      cases hcomment
      show _ = cutOf pre line ⟨'/' :: ('/' :: rest).takeWhile (· ≠ '\n'), .nothing⟩
      have hline : '\n' ∉ '/' :: ('/' :: rest).takeWhile (· ≠ '\n') := by
        rintro (_ | ⟨_, hmem⟩)
        simpa using List.mem_takeWhile_imp hmem
      rw [cutOf_eq hline, List.append_cons, ← hskip]
      rfl
  · next hslash =>
    split
    · next rest => exact absurd (hnext.2 rfl) hslash
    · exact (cutOf_one (by decide) (by decide) _).symm

/-- A list behind its longest beginning with a property: it is over, or the next element does not
    have the property. -/
theorem dropWhile_cases {α : Type} (p : α → Bool) (l : List α) :
    l.dropWhile p = [] ∧ l.takeWhile p = l ∨
      ∃ a l', l.dropWhile p = a :: l' ∧ p a = false ∧ l = l.takeWhile p ++ a :: l' := by
  have hsplit := List.takeWhile_append_dropWhile (p := p) (l := l)
  cases hdrop : l.dropWhile p with
  | nil =>
    rw [hdrop, List.append_nil] at hsplit
    exact .inl ⟨rfl, hsplit⟩
  | cons a l' =>
    have hhead := List.head?_dropWhile_not p l
    rw [hdrop] at hsplit hhead
    exact .inr ⟨a, l', rfl, hhead, hsplit.symm⟩

/-- `string?` cuts what `Segment.string` does, with the line ends inside of the string. -/
theorem string?_at (h : source.toList = pre ++ '"' :: rest) :
    string? source (encode pre).length line = some (cutOf pre line (Segment.string rest)) := by
  have hquote := stringEnd_at (behind h) line
  rw [length_encode_ascii (by decide)] at hquote
  unfold string? Segment.string
  rw [hquote]
  simp only
  obtain ⟨-, hall⟩ | ⟨d, post, -, hd, hsplit⟩ := dropWhile_cases (fun c => decide (c ≠ '"')) rest
  · -- No quote follows: the text up to the end is at fault.
    have hplace : source.toList = (pre ++ ['"'] ++ rest) ++ [] := by
      rw [List.append_nil]
      exact behind h
    have hend : source.utf8ByteSize ≤ (encode (pre ++ ['"'] ++ rest)).length :=
      Nat.le_of_not_lt fun hlt => (lt_utf8ByteSize_iff hplace).1 hlt rfl
    have hnewlines : ('"' :: rest).count '\n' = rest.count '\n' :=
      List.count_cons_of_ne (by decide)
    rw [hall, if_pos hend, if_neg (Nat.lt_irrefl _)]
    show _ = some (Cut.mk (encode (pre ++ '"' :: rest)).length (line + ('"' :: rest).count '\n') _)
    rw [hnewlines, List.append_cons pre '"' rest]
  · have hd : d = '"' := by simpa using hd
    subst hd
    generalize rest.takeWhile (fun c => decide (c ≠ '"')) = body at hsplit ⊢
    subst hsplit
    -- Otherwise the slice ends in front of the quote, and the segment behind it.
    have hplace : source.toList = (pre ++ ['"'] ++ body) ++ '"' :: post := by
      rw [behind h, List.append_assoc (pre ++ ['"'])]
    have hlt := (lt_utf8ByteSize_iff hplace).2 (List.cons_ne_nil _ _)
    have hslice := slice?_at hplace
    rw [length_encode_ascii (by decide) pre] at hslice
    have hlong : body.length < (body ++ '"' :: post).length := by simp
    have hnewlines : ('"' :: body ++ ['"']).count '\n' = body.count '\n' := by simp
    rw [if_neg (Nat.not_le.2 hlt), if_pos hlong, hslice]
    show some (Cut.mk _ _ _) = some (Cut.mk (encode (pre ++ ('"' :: body ++ ['"']))).length
      (line + ('"' :: body ++ ['"']).count '\n') _)
    rw [hnewlines, List.cons_append, List.append_cons pre '"' (body ++ ['"']),
      ← List.append_assoc (pre ++ ['"']), length_encode_ascii (by decide) (pre ++ ['"'] ++ body)]

/-- `numberEnd` stops where the text of `Segment.number` does. -/
theorem numberEnd_at (hc : c.val.toNat < 128) (h : source.toList = pre ++ c :: rest) :
    numberEnd source (encode pre).length =
      (encode (pre ++ (Segment.number c rest).text)).length := by
  have hdigit (d : Char) (hd : 128 ≤ d.val.toNat) : d.isDigit = false := isDigit_of_wide hd
  have hpoint := skipWhile_at hdigit (behind h)
  rw [length_encode_ascii hc] at hpoint
  unfold numberEnd Segment.number
  simp only
  rw [hpoint]
  generalize hwhole : pre ++ [c] ++ rest.takeWhile Char.isDigit = whole
  have hplace : source.toList = whole ++ rest.dropWhile Char.isDigit := by
    rw [← hwhole, behind h, List.append_assoc (pre ++ [c]), List.takeWhile_append_dropWhile]
  have htext : pre ++ c :: rest.takeWhile Char.isDigit = whole := by rw [← hwhole, List.append_cons]
  have hdot := peek_eq_iff hplace (d := '.') (by decide) (by decide)
  split
  · next hfraction =>
    rw [Bool.and_eq_true, decide_eq_true_eq, hdot] at hfraction
    obtain ⟨hhead, hafter⟩ := hfraction
    cases hrest : rest.dropWhile Char.isDigit with
    | nil =>
      rw [hrest] at hhead
      cases hhead
    | cons d fraction =>
      rw [hrest] at hhead hplace
      cases hhead
      have hnext := peek_at hdigit (by decide) (behind hplace)
      have hstop := skipWhile_at hdigit (behind hplace)
      rw [length_encode_ascii (by decide)] at hnext hstop
      rw [hnext] at hafter
      cases fraction with
      | nil => cases hafter
      | cons d fraction =>
        have hd : d.isDigit = true := hafter
        simp only [hd, if_true]
        rw [hstop, List.takeWhile_cons_of_pos hd, ← List.append_assoc pre, htext,
          List.append_cons whole '.' (d :: fraction.takeWhile Char.isDigit)]
  · next hnone =>
    split
    · next d fraction hrest =>
      split
      · next hd =>
        -- A point and a digit behind it would have been seen.
        rw [hrest] at hplace hdot
        have hnext := peek_at hdigit (by decide) (behind hplace)
        rw [length_encode_ascii (by decide)] at hnext
        refine absurd ?_ hnone
        rw [Bool.and_eq_true, decide_eq_true_eq, hdot, hnext]
        exact ⟨rfl, hd⟩
      · rw [htext]
    · rw [htext]

/-- The text and the value of a number. -/
theorem number_meaning (hc : c.isDigit = true) (rest : List Char) :
    (Segment.number c rest).meaning =
      .token (.number (numberValue (Segment.number c rest).text)) := by
  have hwhole : ∀ d ∈ c :: rest.takeWhile Char.isDigit, d.isDigit = true :=
    List.forall_mem_cons.2 ⟨hc, fun d hd => List.mem_takeWhile_imp hd⟩
  have hvalue : numberValue (c :: rest.takeWhile Char.isDigit) =
      Decimal.read (c :: rest.takeWhile Char.isDigit) [] := by
    unfold numberValue
    rw [List.takeWhile_eq_self_iff.2 hwhole, List.dropWhile_eq_nil_iff.2 hwhole]
    rfl
  unfold Segment.number
  simp only
  split
  · next d fraction _ =>
    split
    · unfold numberValue
      rw [List.takeWhile_append_of_pos hwhole, List.dropWhile_append_of_pos hwhole,
        List.takeWhile_cons_of_neg (by decide), List.dropWhile_cons_of_neg (by decide),
        List.append_nil]
      rfl
    · rw [hvalue]
  · rw [hvalue]

/-- No digit and no point is a line end. -/
theorem not_mem_number (hc : c.isDigit = true) (rest : List Char) :
    '\n' ∉ (Segment.number c rest).text := by
  have hdigits {l : List Char} : '\n' ∉ l.takeWhile Char.isDigit := fun hmem =>
    absurd (List.mem_takeWhile_imp hmem) (by decide)
  have hfirst {d : Char} (hd : d.isDigit = true) : '\n' ≠ d := by
    rintro rfl
    revert hd
    decide
  unfold Segment.number
  simp only
  split
  · split
    · next hd => simp [hdigits, hfirst hc, hfirst hd]
    · simp [hdigits, hfirst hc]
  · simp [hdigits, hfirst hc]

/-- `number?` cuts what `Segment.number` does, and reads its value from the slice. -/
theorem number?_at (hc : c.val.toNat < 128) (hdigit : c.isDigit = true)
    (h : source.toList = pre ++ c :: rest) :
    number? source (encode pre).length line = some (cutOf pre line (Segment.number c rest)) := by
  obtain ⟨post, hpost⟩ := Segment.number_text_isPrefix c rest
  have hsplit : source.toList = pre ++ (Segment.number c rest).text ++ post := by
    rw [h, ← hpost, List.append_assoc]
  unfold number?
  simp only
  rw [numberEnd_at hc h, slice?_at hsplit, cutOf_eq (not_mem_number hdigit rest),
    number_meaning hdigit rest, Option.map_some, String.toList_ofList]

/-- `word` cuts what `Segment.word` does, and finds the same keywords. -/
theorem word_at (hc : c.val.toNat < 128) (hname : startsName c = true)
    (h : source.toList = pre ++ c :: rest) :
    word source (encode pre).length line = cutOf pre line (Segment.word c rest) := by
  have hstop := skipWhile_at (fun _ => continuesName_of_wide) (behind h)
  rw [length_encode_ascii hc, List.append_assoc, List.singleton_append] at hstop
  have hline : '\n' ∉ c :: rest.takeWhile continuesName := by
    rintro (_ | ⟨_, hmem⟩)
    · revert hname
      decide
    · exact absurd (List.mem_takeWhile_imp hmem) (by decide)
  -- A keyword has the bytes of the word iff it has its characters.
  have hkeyword : Symbol.keywords.find? (fun s => s.spelling.toByteArray.data =
      (source.toByteArray.extract (encode pre).length
        (encode (pre ++ c :: rest.takeWhile continuesName)).length).data) =
      Symbol.keyword? (String.ofList (c :: rest.takeWhile continuesName)) := by
    have hsplit : source.toList = pre ++ (c :: rest.takeWhile continuesName) ++
        rest.dropWhile continuesName := by
      rw [h, List.append_assoc, List.cons_append, List.takeWhile_append_dropWhile]
    rw [extract_at hsplit]
    simp only [← ByteArray.ext_iff, String.toByteArray_inj]
    rfl
  unfold word Segment.word
  simp only
  rw [hstop, hkeyword]
  cases Symbol.keyword? (String.ofList (c :: rest.takeWhile continuesName)) with
  | some s => exact (cutOf_eq (s := Segment.ofSymbol _ s) hline).symm
  | none => exact (cutOf_eq (s := ⟨_, _⟩) hline).symm

/-- `unexpected?` takes a whole character, with all its bytes. -/
theorem unexpected?_at (hline : c ≠ '\n') (h : source.toList = pre ++ c :: rest) :
    unexpected? source (encode pre).length line =
      some (cutOf pre line ⟨[c], .fault (.unexpectedCharacter c)⟩) := by
  unfold unexpected?
  simp only
  rw [skipWhile_continues_at h, slice?_at (behind h), Option.map_some, String.toList_ofList,
    cutOf_eq (by simp [hline.symm])]

/-- **Cuts.** Between two characters the segment that the cursor cuts off is the first segment of
    the text from there on. -/
theorem cut?_at (h : source.toList = pre ++ c :: rest) :
    cut? source (encode pre).length line = some (cutOf pre line (Segment.first c rest)) := by
  -- A character of ASCII is one byte, on which both sides branch in the same order.
  by_cases hc : c.val.toNat < 128
  · have hpeek := peek_ascii hc h
    unfold cut? Segment.first
    simp only
    rw [hpeek]
    cases hmark : punctuator? c with
    | some s =>
      have hline : c ≠ '\n' := by
        rintro rfl
        cases hmark
      exact congrArg some (cutOf_one hc hline _).symm
    | none =>
      cases hcomparison : comparison? c with
      | some symbols =>
        have hline : c ≠ '\n' := by
          rintro rfl
          cases hcomparison
        exact congrArg some (comparison_at hc hline h symbols.1 symbols.2)
      | none =>
        simp only
        by_cases hslash : c = '/'
        · subst hslash
          exact congrArg some (slash_at h)
        · rw [if_neg hslash, if_neg hslash]
          by_cases hline : c = '\n'
          · subst hline
            show some (Cut.mk ((encode pre).length + 1) (line + 1) .nothing) =
              some (Cut.mk (encode (pre ++ ['\n'])).length (line + ['\n'].count '\n') .nothing)
            rw [length_encode_ascii hc]
            rfl
          · cases hblank : c = ' ' || c = '\r' || c = '\t' with
            | true =>
              rw [if_pos rfl, if_pos (Bool.or_eq_true _ _ ▸ .inl rfl)]
              exact congrArg some (cutOf_one hc hline _).symm
            | false =>
              rw [if_neg Bool.false_ne_true, if_neg hline, Bool.false_or, decide_eq_false hline,
                if_neg Bool.false_ne_true]
              by_cases hquote : c = '"'
              · subst hquote
                exact string?_at h
              · rw [if_neg hquote, if_neg hquote]
                by_cases hdigit : c.isDigit = true
                · rw [if_pos hdigit, if_pos hdigit]
                  exact number?_at hc hdigit h
                · rw [if_neg hdigit, if_neg hdigit]
                  by_cases hname : startsName c = true
                  · rw [if_pos hname, if_pos hname]
                    exact congrArg some (word_at hc hname h)
                  · rw [if_neg hname, if_neg hname]
                    exact unexpected?_at hline h
  · have hwide : 128 ≤ c.val.toNat := Nat.le_of_not_lt hc
    -- Any other one is unexpected, and so is its first byte.
    rw [cut?_of_wide (peek_wide hwide h), first_of_wide hwide]
    exact unexpected?_at (ne_of_wide hwide (by decide)) h

end Cuts

/-! ### Items -/

/-- The cursor stands between two characters, with the text `rest` behind it. -/
structure Stands (c : ByteCursor) (rest : List Char) : Prop where
  done : c.done = false
  place : ∃ pre, c.source.toList = pre ++ rest ∧ c.curr = (encode pre).length

/-- What a call of `next?` gives out in front of the text `rest`: the first of its items. Behind
    it the cursor stands in front of the other ones, or it is done. -/
structure Gives (c : ByteCursor) (rest : List Char) (item : Item) (c' : ByteCursor) : Prop where
  next : c.next? = some (some item, c')
  items : (itemsFrom c.line (segments rest) = [item] ∧ c'.done = true) ∨
    ∃ rest', c'.Stands rest' ∧
      itemsFrom c.line (segments rest) = item :: itemsFrom c'.line (segments rest')

variable {c : ByteCursor} {rest : List Char}

/-- One turn of the loop in `next?`, in front of the character `d`. -/
theorem next?_at {pre post : List Char} {d : Char} (hdone : c.done = false)
    (hplace : c.source.toList = pre ++ d :: rest) (hcurr : c.curr = (encode pre).length)
    (hpost : (Segment.first d rest).text ++ post = d :: rest) :
    c.next? =
      let cut := cutOf pre c.line (Segment.first d rest)
      let behind := { c with curr := cut.stop, line := cut.line }
      match (Segment.first d rest).meaning with
      | .nothing => behind.next?
      | .token kind =>
        some (some (.token ⟨kind, String.ofList (Segment.first d rest).text, cut.line⟩), behind)
      | .fault fault => some (some (.error (.lexical cut.line fault)), behind) := by
  have hundone : ¬ c.done = true := by rw [hdone]; exact Bool.false_ne_true
  have hlt : c.curr < c.source.utf8ByteSize := by
    rw [hcurr]
    exact (lt_utf8ByteSize_iff hplace).2 (List.cons_ne_nil _ _)
  have hcut : cut? c.source c.curr c.line = some (cutOf pre c.line (Segment.first d rest)) := by
    rw [hcurr]
    exact cut?_at hplace
  have hslice : slice? c.source c.curr (cutOf pre c.line (Segment.first d rest)).stop =
      some (String.ofList (Segment.first d rest).text) := by
    rw [hcurr]
    exact slice?_at (by rw [hplace, ← hpost, List.append_assoc])
  rw [next?, if_neg hundone, if_pos hlt]
  split
  · next hnone =>
    rw [hcut] at hnone
    cases hnone
  · next cut hsome =>
    rw [hcut] at hsome
    cases hsome
    rw [hslice]
    rfl

/-- A source is never left without an answer: there is always a next item. -/
theorem Stands.gives (h : c.Stands rest) : ∃ item c', c.Gives rest item c' := by
  induction hn : rest.length using Nat.strongRecOn generalizing c rest with
  | ind n ih =>
    obtain ⟨hdone, pre, hplace, hcurr⟩ := h
    cases rest with
    | nil =>
      have hundone : ¬ c.done = true := by rw [hdone]; exact Bool.false_ne_true
      have hend : ¬ c.curr < c.source.utf8ByteSize := by
        rw [hcurr]
        exact fun hlt => (lt_utf8ByteSize_iff hplace).1 hlt rfl
      refine ⟨.token ⟨.eof, "", c.line⟩, { c with done := true }, ?_, .inl ⟨rfl, rfl⟩⟩
      rw [next?, if_neg hundone, if_neg hend]
    | cons d rest =>
      obtain ⟨post, hpost⟩ := Segment.first_text_isPrefix d rest
      have hnext := next?_at hdone hplace hcurr hpost
      have hshorter : post.length < n := by
        have hpos := List.length_pos_iff.2 (Segment.first_text_ne_nil d rest)
        rw [← hn, ← hpost, List.length_append]
        omega
      let cut := cutOf pre c.line (Segment.first d rest)
      have hbehind : Stands { c with curr := cut.stop, line := cut.line } post :=
        ⟨hdone, pre ++ (Segment.first d rest).text,
          by rw [List.append_assoc, hpost]; exact hplace, rfl⟩
      have hitems : itemsFrom c.line (segments (d :: rest)) =
          match (Segment.first d rest).meaning with
          | .nothing => itemsFrom cut.line (segments post)
          | .token kind => .token ⟨kind, String.ofList (Segment.first d rest).text, cut.line⟩ ::
              itemsFrom cut.line (segments post)
          | .fault fault => .error (.lexical cut.line fault) ::
              itemsFrom cut.line (segments post) := by
        rw [segments_of_first hpost]
        rfl
      cases hmeaning : (Segment.first d rest).meaning with
      | nothing =>
        -- Blanks and comments are passed over, and the rest is shorter.
        obtain ⟨item, c', hrest⟩ := ih _ hshorter hbehind rfl
        rw [hmeaning] at hnext hitems
        refine ⟨item, c', hnext.trans hrest.next, ?_⟩
        rw [hitems]
        exact hrest.items
      | token kind =>
        rw [hmeaning] at hnext hitems
        exact ⟨_, _, hnext, .inr ⟨post, hbehind, hitems⟩⟩
      | fault fault =>
        rw [hmeaning] at hnext hitems
        exact ⟨_, _, hnext, .inr ⟨post, hbehind, hitems⟩⟩

/-- Behind the end token, `next?` gives out nothing. -/
theorem nth?_of_done (h : c.done = true) (n : Nat) : c.nth? n = some none := by
  have hnext : c.next? = some (none, c) := by rw [next?, if_pos h]
  induction n with
  | zero => rw [nth?, hnext]; rfl
  | succ n ih => rw [nth?, hnext]; exact ih

/-- The items of `rest` come one after the other, by induction on their number. -/
theorem Stands.nth? (h : c.Stands rest) (n : Nat) :
    c.nth? n = some ((itemsFrom c.line (segments rest))[n]?) := by
  induction n generalizing c rest with
  | zero =>
    obtain ⟨item, c', hnext, hitems⟩ := h.gives
    rw [ByteCursor.nth?, hnext]
    obtain ⟨hlast, -⟩ | ⟨rest', -, hmore⟩ := hitems
    · rw [hlast]; rfl
    · rw [hmore]; rfl
  | succ n ih =>
    obtain ⟨item, c', hnext, hitems⟩ := h.gives
    rw [ByteCursor.nth?, hnext]
    show c'.nth? n = _
    obtain ⟨hlast, hdone⟩ | ⟨rest', hstands, hmore⟩ := hitems
    · rw [hlast, nth?_of_done hdone]
      rfl
    · rw [hmore, ih hstands]
      rfl

/-- **Byte by byte.** The calls of `next?` give out the items of the source one after the other,
    and then nothing, and no part of the source is asked for that starts or ends inside of a
    character. -/
theorem nth?_new (source : String) (n : Nat) :
    (new source).nth? n = some ((Token.scan source)[n]?) :=
  Stands.nth? ⟨rfl, [], rfl, rfl⟩ n

end ByteCursor

end Scriptlet
