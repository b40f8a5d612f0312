import SpeechMarkup.Position
import SpeechMarkup.Binary64.Decimal

/-!
# Tokens

A source is a sequence of numbers, strings and the seven special characters
`,` `{` `}` `[` `]` `<` `>`.  Whatever is neither a number nor a special
character is a string, so that phoneme symbols, command names and file names
are all strings.
-/

namespace SpeechMarkup

/-- What a token is, with its value where it has one. -/
inductive Token.Kind
  | int (value : Int)
  | float (value : Binary64)
  | str (text : String)
  | comma
  | leftBrace
  | rightBrace
  | leftBracket
  | rightBracket
  | leftChevron
  | rightChevron
  | eof
deriving Repr, DecidableEq

/-- A token and the place of its first code point. -/
structure Token where
  kind : Token.Kind
  pos : Position
deriving Repr, DecidableEq

namespace Token.Kind

/-- The token that a special character stands for. -/
def special? : Char → Option Token.Kind
  | ',' => some comma
  | '{' => some leftBrace
  | '}' => some rightBrace
  | '[' => some leftBracket
  | ']' => some rightBracket
  | '<' => some leftChevron
  | '>' => some rightChevron
  | _ => none

/-- A token as diagnostics name it. -/
def render : Token.Kind → String
  | int v => "INT '" ++ toString v ++ "'"
  | float v => "FLOAT '" ++ v.plain ++ "'"
  | str s => "STRING '" ++ s ++ "'"
  | comma => "','"
  | leftBrace => "'\x7b'"
  | rightBrace => "'\x7d'"
  | leftBracket => "'['"
  | rightBracket => "']'"
  | leftChevron => "'<'"
  | rightChevron => "'>'"
  | eof => "end of input"

end Token.Kind

end SpeechMarkup
