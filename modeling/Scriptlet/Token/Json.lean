import Scriptlet.Text.Quoted
import Scriptlet.Token

namespace Scriptlet.Token

/-!
# Token lists as JSON

A token list in the indented form of JSON, two blanks per level, one object per token with the
fields `token_type`, `lexeme` and `line`. The type of a literal is an object that holds its value.
-/

/-- A number in JSON; an infinite or undefined one is `null`. -/
def jsonNumber (x : Float) : String := if Decimal.isFinite x then Decimal.compact x else "null"

/-- An object with one field, the third level of the list. -/
private def single (key value : String) : String :=
  "\x7b\n      " ++ Text.quoted key ++ ": " ++ value ++ "\n    \x7d"

/-- The type of a token: its name, or an object with the name and value of a literal. -/
def jsonKind (k : Kind) : String :=
  match k with
  | .number x => single k.name (jsonNumber x)
  | .string s => single k.name (Text.quoted s)
  | _ => Text.quoted k.name

/-- A token as an entry of the list. -/
def json (t : Token) : String :=
  "  \x7b\n    \"token_type\": " ++ jsonKind t.kind ++
    ",\n    \"lexeme\": " ++ Text.quoted t.lexeme ++
    ",\n    \"line\": " ++ toString t.line ++ "\n  \x7d"

/-- A token list. -/
def jsonList (tokens : List Token) : String :=
  if tokens.isEmpty then "[]" else "[\n" ++ ",\n".intercalate (tokens.map json) ++ "\n]"

end Scriptlet.Token
