import Scriptlet.Text.Utf8
import Scriptlet.Token.Lexer

namespace Scriptlet

/-!
# Reading tokens from bytes

The items of a source one by one, by a cursor that walks over the bytes of the source. It looks
at most two bytes ahead, and takes a byte for the character with the same code: all characters
that decide where a token ends have one byte.

* `ByteCursor.skipWhile`, `ByteCursor.stringEnd` — the loops that look for the end of a token.
* `ByteCursor.slice?` — a part of the source, from one byte to another; there is none if one of
  them lies inside of a character.
* `ByteCursor.cut?` — where the token at a byte ends, and what it is.
* `ByteCursor.next?` — the next item. Behind the token that ends the source there is none.
-/

/-- A place in a source, and the line it lies on. -/
structure ByteCursor where
  source : String
  /-- The next byte to be looked at. -/
  curr : Nat
  line : Nat
  /-- The token that ends the source was given out. -/
  done : Bool

namespace ByteCursor

/-- A cursor in front of a source. -/
def new (source : String) : ByteCursor := ⟨source, 0, 1, false⟩

/-! ### Bytes -/

/-- The byte at an index; behind the last one it is zero. -/
def byte (source : String) (i : Nat) : UInt8 := source.toByteArray.data[i]?.getD 0

/-- The character with the code of the byte at an index. -/
def peek (source : String) (i : Nat) : Char := Char.ofUInt8 (byte source i)

/-- The first index from `i` on whose byte does not have the property, or the end. -/
def skipWhile (source : String) (p : UInt8 → Bool) (i : Nat) : Nat :=
  if i < source.utf8ByteSize then
    if p (byte source i) then skipWhile source p (i + 1) else i
  else i
termination_by source.utf8ByteSize - i

/-- The index of the first quote from `i` on, or the end, and the line on which it lies. -/
def stringEnd (source : String) (i line : Nat) : Nat × Nat :=
  if i < source.utf8ByteSize then
    if peek source i = '"' then (i, line)
    else if peek source i = '\n' then stringEnd source (i + 1) (line + 1)
    else stringEnd source (i + 1) line
  else (i, line)
termination_by source.utf8ByteSize - i

/-- The text from the byte `a` up to the byte `b`; none if one of them does not start a
    character. -/
def slice? (source : String) (a b : Nat) : Option String :=
  if a ≤ b ∧ (⟨a⟩ : String.Pos.Raw).IsValid source ∧ (⟨b⟩ : String.Pos.Raw).IsValid source then
    String.fromUTF8? (source.toByteArray.extract a b)
  else none

/-! ### Cuts -/

/-- Where a segment ends, on which line, and what the segment stands for. -/
structure Cut where
  stop : Nat
  line : Nat
  meaning : Meaning

/-- The string that starts at a byte. -/
def string? (source : String) (start line : Nat) : Option Cut :=
  let (quote, line) := stringEnd source (start + 1) line
  if source.utf8ByteSize ≤ quote then some ⟨quote, line, .fault .unterminatedString⟩
  else (slice? source (start + 1) quote).map fun text => ⟨quote + 1, line, .token (.string text)⟩

/-- Where the number that starts at a byte ends: a point belongs to it only if a digit follows. -/
def numberEnd (source : String) (start : Nat) : Nat :=
  let digits := skipWhile source (Char.isDigit ∘ Char.ofUInt8)
  let point := digits (start + 1)
  if peek source point = '.' && (peek source (point + 1)).isDigit then digits (point + 1)
  else point

/-- The value of a number: a point stands behind the digits of its whole part, if at all. -/
def numberValue (text : List Char) : Float :=
  Decimal.read (text.takeWhile Char.isDigit) ((text.dropWhile Char.isDigit).drop 1)

/-- The number that starts at a byte. -/
def number? (source : String) (start line : Nat) : Option Cut :=
  let stop := numberEnd source start
  (slice? source start stop).map fun text =>
    ⟨stop, line, .token (.number (numberValue text.toList))⟩

/-- The name or keyword that starts at a byte. -/
def word (source : String) (start line : Nat) : Cut :=
  let stop := skipWhile source (continuesName ∘ Char.ofUInt8) (start + 1)
  let bytes := source.toByteArray.extract start stop
  match Symbol.keywords.find? (·.spelling.toByteArray.data = bytes.data) with
  | some s => ⟨stop, line, .token (.symbol s)⟩
  | none => ⟨stop, line, .token .identifier⟩

/-- What starts with a slash. -/
def slash (source : String) (start line : Nat) : Cut :=
  if peek source (start + 1) = '/' then
    ⟨skipWhile source (Char.ofUInt8 · ≠ '\n') (start + 1), line, .nothing⟩
  else ⟨start + 1, line, .token (.symbol .slash)⟩

/-- What starts with a symbol that an equals sign may follow. -/
def comparison (source : String) (start line : Nat) (short long : Symbol) : Cut :=
  if peek source (start + 1) = '=' && start + 1 < source.utf8ByteSize then
    ⟨start + 2, line, .token (.symbol long)⟩
  else ⟨start + 1, line, .token (.symbol short)⟩

/-- A character that starts nothing. The bytes that carry it on belong to it. -/
def unexpected? (source : String) (start line : Nat) : Option Cut :=
  let stop := skipWhile source Text.Utf8.continues (start + 1)
  match (slice? source start stop).map String.toList with
  | some [c] => some ⟨stop, line, .fault (.unexpectedCharacter c)⟩
  | _ => none

/-- The segment that starts at a byte; none if a part of the source is asked for that does not
    start and end with whole characters. -/
def cut? (source : String) (start line : Nat) : Option Cut :=
  let c := peek source start
  match punctuator? c with
  | some s => some ⟨start + 1, line, .token (.symbol s)⟩
  | none =>
    match comparison? c with
    | some (short, long) => some (comparison source start line short long)
    | none =>
      if c = '/' then some (slash source start line)
      else if c = ' ' || c = '\r' || c = '\t' then some ⟨start + 1, line, .nothing⟩
      else if c = '\n' then some ⟨start + 1, line + 1, .nothing⟩
      else if c = '"' then string? source start line
      else if c.isDigit then number? source start line
      else if startsName c then some (word source start line)
      else unexpected? source start line

/-! ### Every segment has a byte -/

theorem le_skipWhile (source : String) (p : UInt8 → Bool) (i : Nat) :
    i ≤ skipWhile source p i := by
  fun_induction skipWhile source p i with
  | case1 i _ _ ih => omega
  | case2 | case3 => exact Nat.le_refl _

theorem le_stringEnd (source : String) (i line : Nat) : i ≤ (stringEnd source i line).1 := by
  fun_induction stringEnd source i line with
  | case2 i line _ _ _ ih => exact Nat.le_of_succ_le ih
  | case3 i line _ _ _ ih => exact Nat.le_of_succ_le ih
  | case1 | case4 => exact Nat.le_refl _

theorem lt_numberEnd (source : String) (start : Nat) : start < numberEnd source start := by
  have hpoint := le_skipWhile source (Char.isDigit ∘ Char.ofUInt8) (start + 1)
  unfold numberEnd
  simp only
  split
  · have hstop := le_skipWhile source (Char.isDigit ∘ Char.ofUInt8)
      (skipWhile source (Char.isDigit ∘ Char.ofUInt8) (start + 1) + 1)
    omega
  · omega

theorem lt_stop_of_cut? {source : String} {start line : Nat} {cut : Cut}
    (h : cut? source start line = some cut) : start < cut.stop := by
  unfold cut? at h
  simp only at h
  split at h
  · cases h
    exact Nat.lt_succ_self _
  · split at h
    · cases h
      unfold comparison
      split
      · exact Nat.lt_add_of_pos_right Nat.two_pos
      · exact Nat.lt_succ_self _
    · split at h
      · cases h
        unfold slash
        split
        · exact le_skipWhile source _ (start + 1)
        · exact Nat.lt_succ_self _
      · split at h
        · cases h
          exact Nat.lt_succ_self _
        · split at h
          · cases h
            exact Nat.lt_succ_self _
          · split at h
            · have hquote := le_stringEnd source (start + 1) line
              unfold string? at h
              simp only at h
              split at h
              · cases h
                exact hquote
              · obtain ⟨text, -, rfl⟩ := Option.map_eq_some_iff.1 h
                exact Nat.lt_succ_of_lt hquote
            · split at h
              · obtain ⟨text, -, rfl⟩ := Option.map_eq_some_iff.1 h
                exact lt_numberEnd source start
              · split at h
                · cases h
                  unfold word
                  simp only
                  split <;> exact le_skipWhile source _ (start + 1)
                · unfold unexpected? at h
                  simp only at h
                  split at h
                  · cases h
                    exact le_skipWhile source _ (start + 1)
                  · cases h

/-! ### Items -/

/-- The next item of the source, and the cursor behind it; no item behind the token that ends
    the source. There is no result at all if a part of the source is asked for that does not
    start and end with whole characters. -/
def next? (c : ByteCursor) : Option (Option Item × ByteCursor) :=
  if c.done then some (none, c)
  else if c.curr < c.source.utf8ByteSize then
    match _h : cut? c.source c.curr c.line with
    | none => none
    | some cut =>
      let behind := { c with curr := cut.stop, line := cut.line }
      match cut.meaning with
      | .nothing => behind.next?
      | .token kind =>
        (slice? c.source c.curr cut.stop).map fun lexeme =>
          (some (.token ⟨kind, lexeme, cut.line⟩), behind)
      | .fault fault => some (some (.error (.lexical cut.line fault)), behind)
  else some (some (.token ⟨.eof, "", c.line⟩), { c with done := true })
termination_by c.source.utf8ByteSize - c.curr
decreasing_by
  have hstop := lt_stop_of_cut? ‹cut? _ _ _ = some cut›
  omega

/-- What the call of `next?` number `n`, counted from zero, gives out. -/
def nth? (c : ByteCursor) : Nat → Option (Option Item)
  | 0 => c.next?.map (·.1)
  | n + 1 => c.next?.bind fun r => r.2.nth? n

end ByteCursor

end Scriptlet
