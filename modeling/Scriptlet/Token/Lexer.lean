import Scriptlet.Error

namespace Scriptlet

/-!
# Reading tokens

A source text falls into consecutive segments, each as long as possible; blanks and comments
stand for nothing, all others for a token or an error.

* `Segment.first` — the first segment of a text.
* `segments` — all of them; together they are the text (`flatMap_text_segments`).
* `Item` — a token or an error.
* `Token.scan` — the items of a source, with the line on which each segment ends, and the token
  that ends the source.
-/

/-! ### Segments -/

/-- What a segment of a source stands for. -/
inductive Meaning where
  /-- A blank, a line end or a comment. -/
  | nothing
  | token (kind : Kind)
  | fault (fault : LexicalFault)
  deriving Repr

/-- A piece of source text and what it stands for. -/
structure Segment where
  text : List Char
  meaning : Meaning
  deriving Repr

/-- A letter or an underscore. -/
def startsName (c : Char) : Bool := c.isAlpha || c = '_'

/-- A letter, a digit or an underscore. -/
def continuesName (c : Char) : Bool := c.isAlphanum || c = '_'

/-- The symbols of one character that start no longer one. -/
def punctuator? : Char → Option Symbol
  | '(' => some .leftParen
  | ')' => some .rightParen
  | '\x7b' => some .leftBrace
  | '\x7d' => some .rightBrace
  | ',' => some .comma
  | '.' => some .dot
  | '-' => some .minus
  | '+' => some .plus
  | ';' => some .semicolon
  | '*' => some .star
  | '?' => some .question
  | ':' => some .colon
  | _ => none

/-- The symbols that an equals sign may follow: alone, and with it. -/
def comparison? : Char → Option (Symbol × Symbol)
  | '!' => some (.bang, .bangEqual)
  | '=' => some (.equal, .equalEqual)
  | '<' => some (.less, .lessEqual)
  | '>' => some (.greater, .greaterEqual)
  | _ => none

namespace Segment

/-- A segment that is a symbol. -/
def ofSymbol (text : List Char) (s : Symbol) : Segment := ⟨text, .token (.symbol s)⟩

/-- The string that starts here, the quote being read; without a second quote the whole rest is
    at fault. -/
def string (cs : List Char) : Segment :=
  let body := cs.takeWhile (· ≠ '"')
  if body.length < cs.length then
    ⟨'"' :: body ++ ['"'], .token (.string (String.ofList body))⟩
  else ⟨'"' :: cs, .fault .unterminatedString⟩

/-- The number that starts with the digit `c`: a point belongs to it only if a digit follows. -/
def number (c : Char) (cs : List Char) : Segment :=
  let whole := c :: cs.takeWhile Char.isDigit
  match cs.dropWhile Char.isDigit with
  | '.' :: d :: rest =>
    if d.isDigit then
      let fraction := d :: rest.takeWhile Char.isDigit
      ⟨whole ++ '.' :: fraction, .token (.number (Decimal.read whole fraction))⟩
    else ⟨whole, .token (.number (Decimal.read whole []))⟩
  | _ => ⟨whole, .token (.number (Decimal.read whole []))⟩

/-- The name or keyword that starts with `c`. -/
def word (c : Char) (cs : List Char) : Segment :=
  let text := c :: cs.takeWhile continuesName
  match Symbol.keyword? (String.ofList text) with
  | some s => ofSymbol text s
  | none => ⟨text, .token .identifier⟩

/-- What starts with a slash: a comment up to the end of the line, or the symbol. -/
def slash (cs : List Char) : Segment :=
  match cs with
  | '/' :: _ => ⟨'/' :: cs.takeWhile (· ≠ '\n'), .nothing⟩
  | _ => ofSymbol ['/'] .slash

/-- What starts with a symbol that an equals sign may follow. -/
def comparison (c : Char) (short long : Symbol) (cs : List Char) : Segment :=
  match cs with
  | '=' :: _ => ofSymbol [c, '='] long
  | _ => ofSymbol [c] short

/-- The first segment of the text `c :: cs`. -/
def first (c : Char) (cs : List Char) : Segment :=
  match punctuator? c with
  | some s => ofSymbol [c] s
  | none =>
    match comparison? c with
    | some (short, long) => comparison c short long cs
    | none =>
      if c = '/' then slash cs
      else if c = ' ' || c = '\r' || c = '\t' || c = '\n' then ⟨[c], .nothing⟩
      else if c = '"' then string cs
      else if c.isDigit then number c cs
      else if startsName c then word c cs
      else ⟨[c], .fault (.unexpectedCharacter c)⟩

/-- The line ends in a segment. -/
def newlines (s : Segment) : Nat := s.text.count '\n'

end Segment

/-- The segments of a text behind its first `skip` characters. -/
def segmentsAfter (skip : Nat) : List Char → List Segment
  | [] => []
  | c :: cs =>
    match skip with
    | n + 1 => segmentsAfter n cs
    | 0 =>
      let s := Segment.first c cs
      s :: segmentsAfter (s.text.length - 1) cs

/-- The segments of a text. -/
def segments (text : List Char) : List Segment := segmentsAfter 0 text

/-! ### The segments are the text -/

namespace Segment

/-- A string is the start of the text it was read from. -/
theorem string_text_isPrefix (cs : List Char) : (string cs).text <+: '"' :: cs := by
  unfold string
  simp only
  split
  · next h =>
    have hsplit := List.takeWhile_append_dropWhile (p := fun c => decide (c ≠ '"')) (l := cs)
    cases hd : cs.dropWhile (fun c => decide (c ≠ '"')) with
    | nil =>
      rw [hd, List.append_nil] at hsplit
      rw [hsplit] at h
      exact absurd h (Nat.lt_irrefl _)
    | cons d rest =>
      have hq : d = '"' := by
        have := List.head?_dropWhile_not (fun c => decide (c ≠ '"')) cs
        rw [hd] at this
        simpa using this
      subst hq
      rw [hd] at hsplit
      exact ⟨rest, by simpa using hsplit⟩
  · exact List.prefix_refl _

/-- A number is the start of the text it was read from. -/
theorem number_text_isPrefix (c : Char) (cs : List Char) : (number c cs).text <+: c :: cs := by
  have hsplit := List.takeWhile_append_dropWhile (p := Char.isDigit) (l := cs)
  have hwhole : c :: cs.takeWhile Char.isDigit <+: c :: cs :=
    ⟨cs.dropWhile Char.isDigit, by simp [hsplit]⟩
  unfold number
  simp only
  split
  · next d rest hd =>
    split
    · rw [hd] at hsplit
      refine ⟨rest.dropWhile Char.isDigit, ?_⟩
      conv => rhs; rw [← hsplit]
      simp [List.takeWhile_append_dropWhile]
    · exact hwhole
  · exact hwhole

/-- The first segment is the start of the text. -/
theorem first_text_isPrefix (c : Char) (cs : List Char) : (first c cs).text <+: c :: cs := by
  have one : ∀ l, [c] <+: c :: l := fun l => ⟨l, rfl⟩
  unfold first
  split
  · exact one cs
  · split
    · unfold comparison
      split
      · exact ⟨_, rfl⟩
      · exact one cs
    · split
      · next h =>
        subst h
        unfold slash
        split
        · exact List.cons_prefix_cons.2 ⟨rfl, List.takeWhile_prefix _⟩
        · exact one cs
      · split
        · exact one cs
        · split
          · next h => subst h; exact string_text_isPrefix cs
          · split
            · exact number_text_isPrefix c cs
            · split
              · have hword : c :: cs.takeWhile continuesName <+: c :: cs :=
                  List.cons_prefix_cons.2 ⟨rfl, List.takeWhile_prefix _⟩
                unfold word
                simp only
                split <;> exact hword
              · exact one cs

/-- No segment is empty. -/
theorem first_text_ne_nil (c : Char) (cs : List Char) : (first c cs).text ≠ [] := by
  unfold first comparison slash string number word ofSymbol
  simp only
  (repeat' split) <;> simp

end Segment

/-- To skip characters is to start behind them. -/
theorem segmentsAfter_eq (skip : Nat) (text : List Char) :
    segmentsAfter skip text = segments (text.drop skip) := by
  induction text generalizing skip with
  | nil => simp [segments, segmentsAfter]
  | cons c cs ih =>
    cases skip with
    | zero => rfl
    | succ n => simpa [segmentsAfter] using ih n

/-- The first segment, and the segments of what stands behind it. -/
theorem segments_cons (c : Char) (cs : List Char) :
    segments (c :: cs) =
      Segment.first c cs :: segments ((c :: cs).drop (Segment.first c cs).text.length) := by
  have hne := Segment.first_text_ne_nil c cs
  cases htext : (Segment.first c cs).text with
  | nil => exact absurd htext hne
  | cons d ds =>
    show Segment.first c cs :: segmentsAfter ((Segment.first c cs).text.length - 1) cs = _
    rw [segmentsAfter_eq, htext]
    rfl

/-- **Nothing is lost.** The segments of a text, one after the other, are the text. -/
theorem flatMap_text_segments (text : List Char) :
    (segments text).flatMap Segment.text = text := by
  induction hn : text.length using Nat.strongRecOn generalizing text with
  | ind n ih =>
    cases text with
    | nil => rfl
    | cons c cs =>
      obtain ⟨rest, hrest⟩ := Segment.first_text_isPrefix c cs
      have hne := Segment.first_text_ne_nil c cs
      have hdrop : (c :: cs).drop (Segment.first c cs).text.length = rest := by
        rw [← hrest]; simp
      have hlen : rest.length < n := by
        have := congrArg List.length hrest
        have hpos := List.length_pos_iff.2 hne
        simp only [List.length_append] at this
        omega
      rw [segments_cons, List.flatMap_cons, hdrop, ih rest.length hlen rest rfl, hrest]

/-! ### Items -/

/-- A token, or what stands in its place where there is none. -/
inductive Item where
  | token (t : Token)
  | error (e : Error)
  deriving Repr

/-- The items of the segments, the first of which starts on the given line. -/
def itemsFrom (line : Nat) : List Segment → List Item
  | [] => [.token ⟨.eof, "", line⟩]
  | s :: rest =>
    let line := line + s.newlines
    match s.meaning with
    | .nothing => itemsFrom line rest
    | .token kind => .token ⟨kind, String.ofList s.text, line⟩ :: itemsFrom line rest
    | .fault fault => .error (.lexical line fault) :: itemsFrom line rest

namespace Token

/-- The items of a source text, up to the token that ends it. -/
def scan (source : String) : List Item := itemsFrom 1 (segments source.toList)

end Token

/-- The token of an item, if it is one. -/
def Item.token? : Item → Option Token
  | .token t => some t
  | .error _ => none

/-- The error of an item, if it is one. -/
def Item.error? : Item → Option Error
  | .token _ => none
  | .error e => some e

/-- The tokens of a source. -/
def Token.ofSource (source : String) : List Token := (scan source).filterMap Item.token?

/-- The lexical errors of a source. -/
def Error.ofSource (source : String) : List Error := (Token.scan source).filterMap Item.error?

end Scriptlet
