import Scriptlet.Proofs.LongestMatch

namespace Scriptlet

/-!
# Lines

The line of each item is the one on which its text ends, counted from one.

* `ByteCursor.newlines` — the line ends among the first bytes of a source.
* `ByteCursor.before?` — the cursor with which an item is asked for.
* `Item.OnItsLine` — the text of an item ends right in front of a byte, and the item has the line
  that the line ends in front of this byte tell.
* `ByteCursor.Counts` — a cursor whose line is right; `ByteCursor.Counts.gives` — so is the line of
  the item that it gives out, and the line of the cursor behind it.
* `Token.lines_are_exact` — so all lines are right, and they never fall.
-/

/-! ### Line ends -/

namespace ByteCursor

open Text.Utf8

/-- How many of the first `n` bytes of a source are line ends. -/
def newlines (source : String) (n : Nat) : Nat :=
  (source.toByteArray.data.toList.take n).count 10

theorem ofUInt8_eq_newline_iff (b : UInt8) : Char.ofUInt8 b = '\n' ↔ b = 10 := by
  constructor
  · intro h
    have hval : (Char.ofUInt8 b).val.toNat = ('\n').val.toNat := congrArg (·.val.toNat) h
    rw [ofUInt8_val] at hval
    exact UInt8.toNat_inj.1 hval
  · rintro rfl
    rfl

/-- Between two characters, the line ends in front are those of the text in front. -/
theorem newlines_at {source : String} {pre rest : List Char} (h : source.toList = pre ++ rest) :
    newlines source (encode pre).length = pre.count '\n' := by
  unfold newlines
  rw [data_toByteArray, h, encode_append, List.take_left, ← count_encode]
  refine List.countP_congr fun b _ => ?_
  rw [decide_eq_true_eq, beq_iff_eq, ofUInt8_eq_newline_iff]

/-- The cursor with which the call of `next?` number `n`, counted from zero, is made. -/
def before? (c : ByteCursor) : Nat → Option ByteCursor
  | 0 => some c
  | n + 1 => c.next?.bind fun r => r.2.before? n

theorem nth?_eq_bind_before? (c : ByteCursor) (n : Nat) :
    c.nth? n = (c.before? n).bind fun c => c.next?.map (·.1) := by
  induction n generalizing c with
  | zero => rfl
  | succ n ih =>
    rw [nth?, before?]
    cases c.next? with
    | none => rfl
    | some r => exact ih r.2

end ByteCursor

/-! ### Items on their lines -/

/-- The line of an item. -/
def Item.line : Item → Nat
  | .token t => t.line
  | .error e => e.line?.getD 0

/-- The text of the item ends right in front of the byte `stop` of the source, and its line is one
    plus the number of line ends: up to the end of a token, in front of a character that starts
    nothing, and in the whole source if a string is not closed. -/
def Item.OnItsLine (source : String) (stop : Nat) : Item → Prop
  | .token t =>
    ByteCursor.slice? source (stop - t.lexeme.utf8ByteSize) stop = some t.lexeme ∧
      t.line = 1 + ByteCursor.newlines source stop ∧
      (t.isEof = true → stop = source.utf8ByteSize)
  | .error (.lexical line (.unexpectedCharacter c)) =>
    ByteCursor.slice? source (stop - c.utf8Size) stop = some (String.ofList [c]) ∧
      line = 1 + ByteCursor.newlines source (stop - c.utf8Size)
  | .error (.lexical line .unterminatedString) =>
    stop = source.utf8ByteSize ∧ line = 1 + ByteCursor.newlines source source.utf8ByteSize
  | .error _ => False

namespace ByteCursor

open Text.Utf8

/-- The cursor stands between two characters, on the line that the text in front of it ends on. -/
structure Counts (c : ByteCursor) (pre rest : List Char) : Prop where
  done : c.done = false
  place : c.source.toList = pre ++ rest
  curr : c.curr = (encode pre).length
  line : c.line = 1 + pre.count '\n'

theorem counts_new (source : String) : (new source).Counts [] source.toList := ⟨rfl, rfl, rfl, rfl⟩

/-- Behind a text, the place where it starts. -/
theorem length_encode_sub (pre text : List Char) :
    (encode (pre ++ text)).length - (String.ofList text).utf8ByteSize = (encode pre).length := by
  rw [utf8ByteSize_ofList, encode_append, List.length_append, Nat.add_sub_cancel]

section Items

variable {source : String} {pre text rest : List Char}

variable {line : Nat}

theorem onItsLine_token (h : source.toList = pre ++ text ++ rest) {kind : Kind}
    (hkind : kind ≠ .eof) (hline : line = 1 + pre.count '\n' + text.count '\n') :
    Item.OnItsLine source (encode (pre ++ text)).length
      (.token ⟨kind, String.ofList text, line⟩) := by
  refine ⟨?_, ?_, fun heof => ?_⟩
  · simp only [length_encode_sub]
    exact slice?_at h
  · rw [newlines_at h, List.count_append, ← Nat.add_assoc]
    exact hline
  · cases kind with
    | eof => exact absurd rfl hkind
    | symbol | identifier | string | number => cases heof

theorem onItsLine_unexpected {c : Char} (h : source.toList = pre ++ [c] ++ rest)
    (hline : line = 1 + pre.count '\n') :
    Item.OnItsLine source (encode (pre ++ [c])).length
      (.error (.lexical line (.unexpectedCharacter c))) := by
  have hsize : (encode (pre ++ [c])).length - c.utf8Size = (encode pre).length := by
    have hbytes : (encode [c]).length = c.utf8Size := by
      rw [encode_cons, encode_nil, List.append_nil, String.length_utf8EncodeChar]
    rw [encode_append, List.length_append, hbytes, Nat.add_sub_cancel]
  have hbefore : source.toList = pre ++ ([c] ++ rest) := by rw [h, List.append_assoc]
  refine ⟨?_, ?_⟩
  · rw [hsize]
    exact slice?_at h
  · rw [hsize, newlines_at hbefore]
    exact hline

theorem onItsLine_unterminated (h : source.toList = pre ++ text)
    (hline : line = 1 + pre.count '\n' + text.count '\n') :
    Item.OnItsLine source (encode (pre ++ text)).length
      (.error (.lexical line .unterminatedString)) := by
  have hall : source.toList = (pre ++ text) ++ [] := by rw [h, List.append_nil]
  have hsize : source.utf8ByteSize = (encode (pre ++ text)).length := by
    rw [utf8ByteSize_eq, h]
  refine ⟨hsize.symm, ?_⟩
  rw [hsize, newlines_at hall, List.count_append, ← Nat.add_assoc]
  exact hline

theorem onItsLine_eof (h : source.toList = pre) (hline : line = 1 + pre.count '\n') :
    Item.OnItsLine source (encode pre).length (.token ⟨.eof, "", line⟩) := by
  have hall : source.toList = pre ++ [] ++ [] := by rw [h, List.append_nil, List.append_nil]
  have hbefore : source.toList = pre ++ [] := by rw [h, List.append_nil]
  refine ⟨?_, ?_, fun _ => ?_⟩
  · have hempty := slice?_at hall
    rw [List.append_nil] at hempty
    exact hempty
  · rw [newlines_at hbefore]
    exact hline
  · rw [utf8ByteSize_eq, h]

/-- The item of a segment that is not silent. A fault is on the line on which its text ends, since
    a character that starts nothing is no line end. -/
theorem onItsLine_first {d : Char} {ds : List Char} (h : source.toList = pre ++ d :: ds)
    (hrest : (Segment.first d ds).text ++ rest = d :: ds)
    (hline : line = 1 + pre.count '\n' + (Segment.first d ds).newlines) :
    (∀ kind, (Segment.first d ds).meaning = .token kind →
      Item.OnItsLine source (encode (pre ++ (Segment.first d ds).text)).length
        (.token ⟨kind, String.ofList (Segment.first d ds).text, line⟩)) ∧
    ∀ fault, (Segment.first d ds).meaning = .fault fault →
      Item.OnItsLine source (encode (pre ++ (Segment.first d ds).text)).length
        (.error (.lexical line fault)) := by
  have hplace : source.toList = pre ++ (Segment.first d ds).text ++ rest := by
    rw [h, ← hrest, List.append_assoc]
  obtain hlexeme | ⟨rfl, hfirst⟩ | ⟨-, hfirst⟩ := Segment.first_cases d ds
  · refine ⟨fun kind hkind => onItsLine_token hplace ?_ hline, fun fault hfault => ?_⟩
    · rintro rfl
      exact hlexeme.ne_eof hkind
    · exact absurd (Segment.first_text_isPrefix d ds)
        (Segment.no_lexeme_of_fault hfault _ _ hlexeme)
  · -- The rest of the source belongs to the string that is not closed.
    rw [hfirst] at hline ⊢
    refine ⟨fun kind hkind => (by cases hkind), fun fault hfault => ?_⟩
    cases hfault
    exact onItsLine_unterminated h hline
  · rw [hfirst] at hline hplace ⊢
    refine ⟨fun kind hkind => (by cases hkind), fun fault hfault => ?_⟩
    cases hfault
    have hnone : Segment.newlines ⟨[d], .fault (.unexpectedCharacter d)⟩ = 0 := by
      have hne : d ≠ '\n' := by
        rintro rfl
        cases hfirst
      exact List.count_eq_zero.2 (by simp [hne.symm])
    rw [hnone, Nat.add_zero] at hline
    exact onItsLine_unexpected hplace hline

end Items

/-! ### Calls -/

/-- **One call.** A cursor on its line gives out an item on its line, and the cursor behind the item
    is on its line again, or the source is over. -/
theorem Counts.gives {c : ByteCursor} {pre rest : List Char} (h : c.Counts pre rest) :
    ∃ item c', c.next? = some (some item, c') ∧ c'.source = c.source ∧
      item.OnItsLine c.source c'.curr ∧
      (c'.done = true ∨ ∃ pre' rest', c'.Counts pre' rest') := by
  -- Blanks and comments are passed over inside of the call, so the induction is on the rest.
  induction hn : rest.length using Nat.strongRecOn generalizing c pre rest with
  | ind n ih =>
    obtain ⟨hdone, hplace, hcurr, hline⟩ := h
    cases rest with
    | nil =>
      have hundone : ¬ c.done = true := by
        rw [hdone]
        exact Bool.false_ne_true
      have hend : ¬ c.curr < c.source.utf8ByteSize := by
        rw [hcurr]
        exact fun hlt => (lt_utf8ByteSize_iff hplace).1 hlt rfl
      rw [List.append_nil] at hplace
      refine ⟨.token ⟨.eof, "", c.line⟩, { c with done := true }, ?_, rfl, ?_, .inl rfl⟩
      · rw [next?, if_neg hundone, if_neg hend]
      · show Item.OnItsLine c.source c.curr _
        rw [hcurr]
        exact onItsLine_eof hplace hline
    | cons d ds =>
      obtain ⟨post, hpost⟩ := Segment.first_text_isPrefix d ds
      have hnext := next?_at hdone hplace hcurr hpost
      let cut := cutOf pre c.line (Segment.first d ds)
      have hcut : cut.line = 1 + pre.count '\n' + (Segment.first d ds).newlines :=
        congrArg (· + _) hline
      have hbehind : Counts { c with curr := cut.stop, line := cut.line }
          (pre ++ (Segment.first d ds).text) post := by
        refine ⟨hdone, ?_, rfl, ?_⟩
        · rw [List.append_assoc, hpost]
          exact hplace
        · rw [List.count_append, ← Nat.add_assoc]
          exact hcut
      obtain ⟨htoken, hfault⟩ := onItsLine_first hplace hpost hcut
      cases hmeaning : (Segment.first d ds).meaning with
      | nothing =>
        have hshorter : post.length < n := by
          have hpos := List.length_pos_iff.2 (Segment.first_text_ne_nil d ds)
          rw [← hn, ← hpost, List.length_append]
          omega
        obtain ⟨item, c', hitem, hmore⟩ := ih _ hshorter hbehind rfl
        rw [hmeaning] at hnext
        exact ⟨item, c', hnext.trans hitem, hmore⟩
      | token kind =>
        rw [hmeaning] at hnext
        exact ⟨_, _, hnext, rfl, htoken kind hmeaning, .inr ⟨_, _, hbehind⟩⟩
      | fault fault =>
        rw [hmeaning] at hnext
        exact ⟨_, _, hnext, rfl, hfault fault hmeaning, .inr ⟨_, _, hbehind⟩⟩

theorem next?_of_done {c : ByteCursor} (h : c.done = true) : c.next? = some (none, c) := by
  rw [next?, if_pos h]

/-- All cursors with which items are asked for are on their lines, until the source is over. -/
theorem exists_before? {c : ByteCursor} (h : c.done = true ∨ ∃ pre rest, c.Counts pre rest)
    (n : Nat) :
    ∃ c', c.before? n = some c' ∧ c'.source = c.source ∧
      (c'.done = true ∨ ∃ pre' rest', c'.Counts pre' rest') := by
  induction n generalizing c with
  | zero => exact ⟨c, rfl, rfl, h⟩
  | succ n ih =>
    obtain hdone | ⟨pre, rest, hcounts⟩ := h
    · rw [before?, next?_of_done hdone]
      exact ih (.inl hdone)
    · obtain ⟨item, c₁, hnext, hsource, -, hc₁⟩ := hcounts.gives
      obtain ⟨c', hc', hsource', hmore⟩ := ih hc₁
      rw [before?, hnext]
      exact ⟨c', hc', hsource'.trans hsource, hmore⟩

end ByteCursor

/-! ### Lines of a source -/

theorem le_line_of_mem_itemsFrom {segs : List Segment} {line : Nat} {item : Item}
    (h : item ∈ itemsFrom line segs) : line ≤ item.line := by
  induction segs generalizing line with
  | nil =>
    cases List.mem_singleton.1 h
    exact Nat.le_refl _
  | cons s segs ih =>
    have hline : line ≤ line + s.newlines := Nat.le_add_right _ _
    unfold itemsFrom at h
    simp only at h
    split at h
    · exact hline.trans (ih h)
    · obtain rfl | h := List.mem_cons.1 h
      · exact hline
      · exact hline.trans (ih h)
    · obtain rfl | h := List.mem_cons.1 h
      · exact hline
      · exact hline.trans (ih h)

/-- Lines do not fall from one item to another behind it. -/
theorem pairwise_line_itemsFrom (segs : List Segment) (line : Nat) :
    (itemsFrom line segs).Pairwise fun a b => a.line ≤ b.line := by
  induction segs generalizing line with
  | nil => exact List.pairwise_singleton _ _
  | cons s segs ih =>
    unfold itemsFrom
    simp only
    split
    · exact ih _
    · exact List.pairwise_cons.2 ⟨fun b hb => le_line_of_mem_itemsFrom hb, ih _⟩
    · exact List.pairwise_cons.2 ⟨fun b hb => le_line_of_mem_itemsFrom hb, ih _⟩

/-- **Lines are exact.** Each item of a source is given out by one call on the cursor over its
    bytes. Where this call leaves the cursor, the text of the item ends, and the line of the item is
    one plus the number of line ends among the bytes up to there, for the end of the source among
    all of them; that of a character that starts nothing, among the bytes in front of it; that of a
    string that is not closed, among all bytes. From one item to the next, lines do not fall. -/
theorem Token.lines_are_exact (source : String) :
    (∀ n item, (Token.scan source)[n]? = some item →
      ∃ c c', (ByteCursor.new source).before? n = some c ∧ c.next? = some (some item, c') ∧
        item.OnItsLine source c'.curr) ∧
    (Token.scan source).Pairwise fun a b => a.line ≤ b.line := by
  refine ⟨fun n item hitem => ?_, pairwise_line_itemsFrom _ _⟩
  obtain ⟨c, hc, hsource, hcounts⟩ :=
    ByteCursor.exists_before? (.inr ⟨_, _, ByteCursor.counts_new source⟩) n
  have hnth := ByteCursor.nth?_new source n
  rw [ByteCursor.nth?_eq_bind_before?, hc, hitem] at hnth
  have hgiven : c.next?.map (·.1) = some (some item) := hnth
  obtain hdone | ⟨pre, rest, hcounts⟩ := hcounts
  · rw [ByteCursor.next?_of_done hdone] at hgiven
    cases hgiven
  · obtain ⟨item', c', hnext, -, honLine, -⟩ := hcounts.gives
    rw [hnext] at hgiven
    cases hgiven
    rw [hsource] at honLine
    exact ⟨c, c', hc, hnext, honLine⟩

/-- A comment, a string of two lines, a character that starts nothing, and a string that is not
    closed. -/
def Token.linesOfAllKinds : String := "// a\n\"b\nc\" é \"d\n"

/-- The string ends on the third line, the character stands there, and the last string starts there
    but is reported on the last line. -/
theorem Token.lines_are_exact_linesOfAllKinds :
    (Token.scan Token.linesOfAllKinds).map Item.line = [3, 3, 4, 4] ∧
    ∃ item c c', (Token.scan Token.linesOfAllKinds)[2]? = some item ∧
      (ByteCursor.new Token.linesOfAllKinds).before? 2 = some c ∧
      c.next? = some (some item, c') ∧ item.OnItsLine Token.linesOfAllKinds c'.curr := by
  have hlines : (Token.scan Token.linesOfAllKinds).map Item.line = [3, 3, 4, 4] := by
    decide +kernel
  obtain ⟨item, hitem⟩ : ∃ item, (Token.scan Token.linesOfAllKinds)[2]? = some item := by
    refine ⟨_, List.getElem?_eq_getElem ?_⟩
    have hlength := congrArg List.length hlines
    rw [List.length_map] at hlength
    rw [hlength]
    decide
  obtain ⟨c, c', hbefore, hnext, honLine⟩ :=
    (Token.lines_are_exact Token.linesOfAllKinds).1 2 item hitem
  exact ⟨hlines, item, c, c', hitem, hbefore, hnext, honLine⟩

end Scriptlet
