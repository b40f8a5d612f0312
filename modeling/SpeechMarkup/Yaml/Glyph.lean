/-!
# Located characters

Where a character of a YAML text stands decides what it means: the column tells the
nesting of blocks, and a key ends on the line on which it starts.  `Glyph.ofText`
gives every character its place and reads each way to end a line as one character,
so that a reader goes through a `List Glyph` and always knows where it is.
-/

namespace SpeechMarkup

namespace Yaml

/-- A character of a text and where it stands. -/
structure Glyph where
  char : Char
  line : Nat
  column : Nat
  /-- How many bytes of the text stand before it. -/
  offset : Nat
deriving Repr, DecidableEq

/-- The characters that may stand in a text. -/
def isAllowed (c : Char) : Bool :=
  let n := c.toNat
  n = 0x9 || n = 0xa || n = 0xd || (0x20 ≤ n && n ≤ 0x7e) || n = 0x85
    || (0xa0 ≤ n && n ≤ 0xd7ff) || (0xe000 ≤ n && n ≤ 0xfffd) || 0x10000 ≤ n

def isBlank (c : Char) : Bool :=
  c = ' ' || c = '\t'

/-- The characters that end a line, once the ways to write a line feed are one. -/
def isBreak (c : Char) : Bool :=
  c = '\n' || c = '\u2028' || c = '\u2029'

/-- The characters of names: letters, digits, the underscore and the hyphen. -/
def isWord (c : Char) : Bool :=
  c.isAlphanum || c = '_' || c = '-'

/-- The characters that structure flow collections. -/
def isFlowMark (c : Char) : Bool :=
  [',', '[', ']', '{', '}'].contains c

/-- The value of a hexadecimal digit. -/
def hexDigit? (c : Char) : Option Nat :=
  if c.isDigit then some (c.toNat - '0'.toNat)
  else if 'a' ≤ c && c ≤ 'f' then some (c.toNat - 'a'.toNat + 10)
  else if 'A' ≤ c && c ≤ 'F' then some (c.toNat - 'A'.toNat + 10)
  else none

/-- The value of a number in hexadecimal digits. -/
def hexNumber? (digits : List Char) : Option Nat :=
  digits.foldlM (fun n c => (hexDigit? c).map (16 * n + ·)) 0

namespace Glyph

def isBlank (g : Glyph) : Bool :=
  Yaml.isBlank g.char

def isBreak (g : Glyph) : Bool :=
  Yaml.isBreak g.char

/-- The characters from a place on.  A carriage return, a line feed, both in this
order, and a next line character are all read as one line feed. -/
def locate (line column offset : Nat) : List Char → List Glyph
  | [] => []
  | '\r' :: '\n' :: cs => ⟨'\n', line, column, offset⟩ :: locate (line + 1) 0 (offset + 2) cs
  | c :: cs =>
      let char := if c = '\r' || c = '\u0085' then '\n' else c
      let rest :=
        if Yaml.isBreak char then locate (line + 1) 0 (offset + c.utf8Size) cs
        else locate line (column + 1) (offset + c.utf8Size) cs
      ⟨char, line, column, offset⟩ :: rest

/-- The located characters of a text, if all of them may stand in one. -/
def ofText? (text : String) : Option (List Glyph) :=
  if text.toList.all isAllowed then some (locate 0 0 0 text.toList) else none

/-- The characters without their places. -/
def chars (gs : List Glyph) : List Char :=
  gs.map (·.char)

/-- Whether the next character is one of the given ones. -/
def startsWith (cs : List Char) : List Glyph → Bool
  | [] => false
  | g :: _ => cs.contains g.char

/-- Whether the text ends here, or a blank or a line end follows. -/
def atGap : List Glyph → Bool
  | [] => true
  | g :: _ => g.isBlank || g.isBreak

/-- Whether the text ends here, or a line end follows. -/
def atLineEnd : List Glyph → Bool
  | [] => true
  | g :: _ => g.isBreak

/-- Whether one of the marks between documents stands here: the given character
three times at the start of a line, with a gap behind. -/
def atMark (mark : Char) : List Glyph → Bool
  | [] => false
  | g :: gs => g.column = 0 && chars ((g :: gs).take 3) = [mark, mark, mark] && atGap (gs.drop 2)

/-- Whether a document starts or ends here. -/
def atDocumentMark (gs : List Glyph) : Bool :=
  atMark '-' gs || atMark '.' gs

/-- Drops blanks. -/
def dropBlanks (gs : List Glyph) : List Glyph :=
  gs.dropWhile (·.isBlank)

/-- What stands before the end of the line is a comment at most; the line behind. -/
def nextLine? (gs : List Glyph) : Option (List Glyph) :=
  let gs := dropBlanks gs
  let gs := if startsWith ['#'] gs then gs.dropWhile (!·.isBreak) else gs
  if atLineEnd gs then some (gs.drop 1) else none

end Glyph

end Yaml

end SpeechMarkup
