import Scriptlet.Text.Combining
import Scriptlet.Text.Nongraphic

namespace Scriptlet.Text

/-!
# Quoted text

Text between double quotes, with the characters that could not stand there written as escapes.

* `quoted` — short escapes for quote, backslash, line feed, carriage return, tab, backspace and
  form feed; any other character below the space as four hexadecimal digits.
* `inspected` — short escapes for quote, backslash, line feed, carriage return, tab and NUL; any
  other character that a reader could not see for itself as its number in braces.
-/

/-- Lower-case hexadecimal digits, filled up with zeros to `width`. -/
def hex (width n : Nat) : List Char :=
  let ds := Nat.toDigits 16 n
  List.replicate (width - ds.length) '0' ++ ds

/-- Put the escaped text between double quotes. -/
def quoteWith (escape : Char → List Char) (s : String) : String :=
  String.ofList ('"' :: s.toList.flatMap escape ++ ['"'])

/-- The form of a character in `quoted` text. -/
def quotedChar (c : Char) : List Char :=
  if c = '"' then ['\\', '"']
  else if c = '\\' then ['\\', '\\']
  else if c = '\n' then ['\\', 'n']
  else if c = '\r' then ['\\', 'r']
  else if c = '\t' then ['\\', 't']
  else if c.toNat = 8 then ['\\', 'b']
  else if c.toNat = 12 then ['\\', 'f']
  else if c.toNat < 32 then ['\\', 'u'] ++ hex 4 c.toNat
  else [c]

/-- Text as a quoted string of a data format: all characters from the space on stand for
    themselves, quote and backslash apart. -/
def quoted (s : String) : String := quoteWith quotedChar s

/-- The letters that hold the place of a missing part of a syllable and show nothing. -/
def fillers : Ranges where
  runs := [0x115f, 2, 0x2003, 1, 0xce3b, 1]

/-- Whether a reader sees the character for itself: it has a shape, and does not melt into the
    character in front of it. -/
def isDistinct (c : Char) : Bool :=
  !(nongraphic.contains c.toNat || combining.contains c.toNat || fillers.contains c.toNat)

/-- The form of a character in `inspected` text. -/
def inspectedChar (c : Char) : List Char :=
  if c = '"' then ['\\', '"']
  else if c = '\\' then ['\\', '\\']
  else if c = '\n' then ['\\', 'n']
  else if c = '\r' then ['\\', 'r']
  else if c = '\t' then ['\\', 't']
  else if c.toNat = 0 then ['\\', '0']
  else if isDistinct c then [c]
  else ['\\', 'u', '\x7b'] ++ hex 0 c.toNat ++ ['\x7d']

/-- Text as a message shows it to a reader. -/
def inspected (s : String) : String := quoteWith inspectedChar s

end Scriptlet.Text
