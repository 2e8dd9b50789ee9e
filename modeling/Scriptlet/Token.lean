import Scriptlet.Decimal.Notation

namespace Scriptlet

/-!
# Tokens

The terminal symbols of the language and the pieces of source text that stand for them.

* `Symbol` — the terminals with one fixed spelling: punctuators, operators and keywords.
* `Kind` — what a token is: a symbol, a name, a literal with its value, or the end of the
  source. `Kind.same` compares kinds and leaves the literal values out.
* `Token` — a kind with the text it was read from and the line on which that text ends.
-/

/-! ### Symbols -/

/-- The terminals that are always spelled the same way. -/
inductive Symbol where
  | leftParen | rightParen | leftBrace | rightBrace | comma | dot | minus | plus | semicolon
  | slash | star | question | colon
  | bang | bangEqual | equal | equalEqual | greater | greaterEqual | less | lessEqual
  | andKw | classKw | elseKw | falseKw | funKw | forKw | ifKw | nilKw | orKw | printKw
  | returnKw | superKw | thisKw | trueKw | varKw | whileKw
  deriving DecidableEq, Repr

namespace Symbol

/-- The text of a symbol in a source. -/
def spelling : Symbol → String
  | leftParen => "(" | rightParen => ")" | leftBrace => "\x7b" | rightBrace => "\x7d"
  | comma => "," | dot => "." | minus => "-" | plus => "+" | semicolon => ";"
  | slash => "/" | star => "*" | question => "?" | colon => ":"
  | bang => "!" | bangEqual => "!=" | equal => "=" | equalEqual => "=="
  | greater => ">" | greaterEqual => ">=" | less => "<" | lessEqual => "<="
  | andKw => "and" | classKw => "class" | elseKw => "else" | falseKw => "false"
  | funKw => "fun" | forKw => "for" | ifKw => "if" | nilKw => "nil" | orKw => "or"
  | printKw => "print" | returnKw => "return" | superKw => "super" | thisKw => "this"
  | trueKw => "true" | varKw => "var" | whileKw => "while"

/-- The name under which token lists show a symbol. -/
def name : Symbol → String
  | leftParen => "LEFT_PAREN" | rightParen => "RIGHT_PAREN"
  | leftBrace => "LEFT_BRACE" | rightBrace => "RIGHT_BRACE"
  | comma => "COMMA" | dot => "DOT" | minus => "MINUS" | plus => "PLUS"
  | semicolon => "SEMICOLON" | slash => "SLASH" | star => "STAR"
  | question => "QUESTION" | colon => "COLON"
  | bang => "BANG" | bangEqual => "BANG_EQUAL" | equal => "EQUAL" | equalEqual => "EQUAL_EQUAL"
  | greater => "GREATER" | greaterEqual => "GREATER_EQUAL"
  | less => "LESS" | lessEqual => "LESS_EQUAL"
  | andKw => "AND" | classKw => "CLASS" | elseKw => "ELSE" | falseKw => "FALSE"
  | funKw => "FUN" | forKw => "FOR" | ifKw => "IF" | nilKw => "NIL" | orKw => "OR"
  | printKw => "PRINT" | returnKw => "RETURN" | superKw => "SUPER" | thisKw => "THIS"
  | trueKw => "TRUE" | varKw => "VAR" | whileKw => "WHILE"

/-- The symbols that are spelled like names. -/
def keywords : List Symbol :=
  [andKw, classKw, elseKw, falseKw, funKw, forKw, ifKw, nilKw, orKw, printKw, returnKw, superKw,
    thisKw, trueKw, varKw, whileKw]

/-- The symbols made of other characters than letters. -/
def marks : List Symbol :=
  [leftParen, rightParen, leftBrace, rightBrace, comma, dot, minus, plus, semicolon, slash, star,
    question, colon, bang, bangEqual, equal, equalEqual, greater, greaterEqual, less, lessEqual]

/-- The keyword with the given spelling. -/
def keyword? (word : String) : Option Symbol := keywords.find? (·.spelling = word)

/-- The symbol with the given name in token lists. -/
def named? (name : String) : Option Symbol := (marks ++ keywords).find? (·.name = name)

end Symbol

/-! ### Kinds and tokens -/

/-- What a token is. -/
inductive Kind where
  | symbol (s : Symbol)
  | identifier
  | string (value : String)
  | number (value : Float)
  | eof
  deriving Repr

/-- Whether two kinds agree up to the values of literals. -/
def Kind.same : Kind → Kind → Bool
  | .symbol a, .symbol b => a = b
  | .identifier, .identifier => true
  | .string _, .string _ => true
  | .number _, .number _ => true
  | .eof, .eof => true
  | _, _ => false

/-- The name under which token lists show a kind. -/
def Kind.name : Kind → String
  | .symbol s => s.name
  | .identifier => "IDENTIFIER"
  | .string _ => "STRING"
  | .number _ => "NUMBER"
  | .eof => "EOF"

/-- A piece of source text that stands for a terminal. -/
structure Token where
  kind : Kind
  /-- The text itself, quotes included for strings. -/
  lexeme : String
  /-- The line on which the text ends, counted from one. -/
  line : Nat
  deriving Repr

namespace Token

/-- Whether the token ends the source. -/
def isEof (t : Token) : Bool :=
  match t.kind with
  | .eof => true
  | _ => false

/-- Whether the token is the symbol `s`. -/
def is (t : Token) (s : Symbol) : Bool :=
  match t.kind with
  | .symbol s' => s' = s
  | _ => false

/-- Whether the token is a name. -/
def isIdentifier (t : Token) : Bool :=
  match t.kind with
  | .identifier => true
  | _ => false

/-- Tokens agree if their kinds do up to literal values, and their texts and lines do. -/
def same (a b : Token) : Bool := a.kind.same b.kind && a.lexeme = b.lexeme && a.line = b.line

/-- A number in a token list: a whole number below `2 ^ 63` with all its digits and `.0`, without
    a sign if it is zero; any other number in plain notation. -/
def numberText (x : Float) : String :=
  if Decimal.isFinite x then
    match (Decimal.Dyadic.ofFloat x).nat? with
    | some 0 => "0.0"
    | some n => if n < Nat.pow 2 63 then Decimal.signed x (toString n ++ ".0") else Decimal.plain x
    | none => Decimal.plain x
  else Decimal.plain x

/-- The value of a literal token as text; `null` for all others. -/
def valueText (t : Token) : String :=
  match t.kind with
  | .string value => value
  | .number value => numberText value
  | _ => "null"

/-- A token in a token list: kind, text and value. -/
def display (t : Token) : String := t.kind.name ++ " " ++ t.lexeme ++ " " ++ t.valueText

end Token

end Scriptlet
