import SpeechMarkup.Yaml.Glyph

/-!
# Scalars

The ways to write a text in YAML: plain, in single or double quotes, and as a block
of lines.  All but the blocks fold their lines: one line end between two characters
reads as a space, and of several the first is dropped.  A separator of lines or
paragraphs does not fold.

Each reader takes the characters behind the mark that announces the scalar and gives
the text with the characters that follow it, or `none` if the scalar is malformed.
-/

namespace SpeechMarkup

namespace Yaml

/-- What stands between two visible characters of a scalar. -/
inductive Gap
  /-- Blanks on one line. -/
  | blanks (text : List Char)
  /-- Line ends, the first of which is missing if it was escaped. -/
  | lines (first : Option Char) (more : List Char)
deriving Repr, DecidableEq

namespace Gap

def empty : Gap :=
  .blanks []

def isEmpty : Gap → Bool
  | .blanks text => text.isEmpty
  | .lines _ _ => false

/-- Whether the gap reaches a further line. -/
def isCrossing : Gap → Bool
  | .blanks _ => false
  | .lines _ _ => true

/-- A further blank or line end.  Blanks beside a line end do not count. -/
def push : Gap → Char → Gap
  | .blanks text, c => if isBreak c then .lines (some c) [] else .blanks (text ++ [c])
  | .lines first more, c => .lines first (if isBreak c then more ++ [c] else more)

/-- What the gap reads as. -/
def text : Gap → List Char
  | .blanks text => text
  | .lines (some '\n') [] => [' ']
  | .lines (some '\n') more => more
  | .lines first more => first.toList ++ more

/-- A text, last character first, with the gap behind it. -/
def onto (g : Gap) (done : List Char) : List Char :=
  g.text.reverseAux done

end Gap

/--
The rest of a plain scalar, the gap behind it, and what follows the gap.  A further
line has to start at column `least` or behind it, except inside a flow collection,
and a tab cannot stand before that column.  The scalar ends at a comment, at a colon
that a gap follows, and inside a flow collection at its marks; there a colon right
before a mark is a fault.
-/
def plain (flow : Bool) (least : Nat) (done : List Char) (gap : Gap) :
    List Glyph → Option (List Char × Gap × List Glyph)
  | [] => some (done.reverse, gap, [])
  | g :: gs =>
    if g.isBlank || g.isBreak then
      if g.char = '\t' && gap.isCrossing && g.column < least then none
      else plain flow least done (gap.push g.char) gs
    else if (gap.isCrossing && !flow && g.column < least) || Glyph.atDocumentMark (g :: gs)
        || (g.char = '#' && !gap.isEmpty) then
      some (done.reverse, gap, g :: gs)
    else if flow && g.char = ':' && Glyph.startsWith [',', '?', '[', ']', '{', '}'] gs then none
    else if (g.char = ':' && Glyph.atGap gs) || (flow && isFlowMark g.char) then
      some (done.reverse, gap, g :: gs)
    else plain flow least (g.char :: gap.onto done) .empty gs

/-- The rest of a scalar in single quotes.  A quote in it is written twice. -/
def singleQuoted (done : List Char) (gap : Gap) : List Glyph → Option (List Char × List Glyph)
  | [] => none
  | g :: gs =>
    if g.isBlank || g.isBreak then singleQuoted done (gap.push g.char) gs
    else if Glyph.atDocumentMark (g :: gs) then none
    else if g.char = '\'' then
      match gs with
      | [] => some ((gap.onto done).reverse, [])
      | h :: hs =>
        if h.char = '\'' then singleQuoted ('\'' :: gap.onto done) .empty hs
        else some ((gap.onto done).reverse, h :: hs)
    else singleQuoted (g.char :: gap.onto done) .empty gs

/-- The character that a one-letter escape stands for. -/
def escape? : Char → Option Char
  | '0' => some '\x00'
  | 'a' => some '\x07'
  | 'b' => some '\x08'
  | 't' => some '\t'
  | '\t' => some '\t'
  | 'n' => some '\n'
  | 'v' => some '\x0b'
  | 'f' => some '\x0c'
  | 'r' => some '\r'
  | 'e' => some '\x1b'
  | ' ' => some ' '
  | '"' => some '"'
  | '/' => some '/'
  | '\\' => some '\\'
  | 'N' => some '\u0085'
  | '_' => some '\u00a0'
  | 'L' => some '\u2028'
  | 'P' => some '\u2029'
  | _ => none

/-- How many hexadecimal digits an escape takes that names a character by its code. -/
def codeLength? : Char → Option Nat
  | 'x' => some 2
  | 'u' => some 4
  | 'U' => some 8
  | _ => none

/-- The character with a code in hexadecimal digits. -/
def codeChar? (digits : List Char) : Option Char :=
  (hexNumber? digits).bind fun code =>
    if code.isValidChar then some (Char.ofNat code) else none

/-- The rest of a scalar in double quotes.  An escaped line end is dropped with the
blanks that follow it. -/
def doubleQuoted (done : List Char) (gap : Gap) : List Glyph → Option (List Char × List Glyph)
  | [] => none
  | g :: gs =>
    if g.isBlank || g.isBreak then doubleQuoted done (gap.push g.char) gs
    else if Glyph.atDocumentMark (g :: gs) then none
    else if g.char = '"' then some ((gap.onto done).reverse, gs)
    else if g.char = '\\' then
      match gs with
      | [] => none
      | h :: hs =>
        if h.isBreak then doubleQuoted (gap.onto done) (.lines none []) hs
        else
          match codeLength? h.char with
          | some n =>
            if hs.length < n then none
            else
              match codeChar? (Glyph.chars (hs.take n)) with
              | some c => doubleQuoted (c :: gap.onto done) .empty (hs.drop n)
              | none => none
          | none =>
            match escape? h.char with
            | some c => doubleQuoted (c :: gap.onto done) .empty hs
            | none => none
    else doubleQuoted (g.char :: gap.onto done) .empty gs
termination_by gs => gs.length
decreasing_by
  all_goals simp only [List.length_cons, List.length_drop]
  all_goals omega

/-- What becomes of the line ends behind a block of lines. -/
inductive Chomping
  /-- None of them counts. -/
  | strip
  /-- The first of them counts. -/
  | clip
  /-- All of them count. -/
  | keep
deriving Repr, DecidableEq

/-- What the first line of a block says of it: what becomes of its end, and, if it is
given, how far its lines are indented. -/
structure BlockHeader where
  chomping : Chomping := .clip
  indent : Option Nat := none
deriving Repr, DecidableEq

namespace BlockHeader

/-- A sign that tells the chomping. -/
def sign? : List Glyph → Option (Chomping × List Glyph)
  | [] => none
  | g :: gs =>
    if g.char = '+' then some (.keep, gs)
    else if g.char = '-' then some (.strip, gs)
    else none

/-- A digit that tells the indentation, which is 1 at least. -/
def digit? : List Glyph → Option (Nat × List Glyph)
  | [] => none
  | g :: gs => if g.char.isDigit then some (g.char.toNat - '0'.toNat, gs) else none

/-- The header in front of a block and the lines behind it: a sign and a digit in
either order, each of which may be missing. -/
def read (gs : List Glyph) : Option (BlockHeader × List Glyph) := do
  let (header, gs) : BlockHeader × List Glyph :=
    match sign? gs with
    | some (chomping, gs) =>
      match digit? gs with
      | some (n, gs) => (⟨chomping, some n⟩, gs)
      | none => (⟨chomping, none⟩, gs)
    | none =>
      match digit? gs with
      | some (n, gs) =>
        match sign? gs with
        | some (chomping, gs) => (⟨chomping, some n⟩, gs)
        | none => (⟨.clip, some n⟩, gs)
      | none => ({}, gs)
  if header.indent = some 0 then none
  else
    let gs ← Glyph.nextLine? gs
    some (header, gs)

end BlockHeader

/-- The lines of a block that are read, last character first, with the line end behind
them, the line ends of the empty lines that follow, and whether the last line read
starts with a blank. -/
structure BlockText where
  done : List Char := []
  lineEnd : Option Char := none
  emptyLines : List Char := []
  isBlankLed : Bool := false
deriving Repr, DecidableEq

/-- Drops the indentation of the next line that is not empty.  It gives the line ends
passed and the greatest column reached.  If the indentation is not known, all spaces
belong to it.  A tab in it is a fault. -/
def dropIndent (indent : Option Nat) (ends : List Char) (deepest : Nat) :
    List Glyph → Option (List Char × Nat × List Glyph)
  | [] => some (ends, deepest, [])
  | g :: gs =>
    let isInside := indent.all (g.column < ·)
    if isInside && g.char = ' ' then dropIndent indent ends deepest gs
    else if isInside && g.char = '\t' then none
    else if g.isBreak then dropIndent indent (ends ++ [g.char]) (max deepest g.column) gs
    else some (ends, max deepest g.column, g :: gs)

/-- The lines of a block from one on that stands in column `indent`. -/
def blockLines (folded : Bool) (indent : Nat) (t : BlockText) (gs : List Glyph) :
    Nat → Option (BlockText × List Glyph)
  | 0 => some (t, gs)
  | fuel + 1 =>
    match gs with
    | [] => some (t, [])
    | g :: _ =>
      if g.column ≠ indent then some (t, gs)
      else
        let joint :=
          if folded && t.lineEnd = some '\n' && !t.isBlankLed && !g.isBlank then
            if t.emptyLines.isEmpty then [' '] else t.emptyLines
          else t.lineEnd.toList ++ t.emptyLines
        let line := Glyph.chars (gs.takeWhile (!·.isBreak))
        let behind := gs.dropWhile (!·.isBreak)
        match dropIndent (some indent) [] 0 (behind.drop 1) with
        | none => none
        | some (ends, _, rest) =>
          let t := {
            done := (joint ++ line).reverseAux t.done
            lineEnd := (Glyph.chars behind).head?
            emptyLines := ends
            isBlankLed := g.isBlank }
          blockLines folded indent t rest fuel

/-- A block of lines, from its header on.  Its lines stand behind the columns of the
blocks around it; `least` is the first such column. -/
def blockScalar (folded : Bool) (least : Nat) (gs : List Glyph) :
    Option (List Char × List Glyph) := do
  let (header, gs) ← BlockHeader.read gs
  let given := header.indent.map (least - 1 + ·)
  let (ends, deepest, gs) ← dropIndent given [] 0 gs
  let indent := given.getD (max (max deepest least) 1)
  let (t, gs) ← blockLines folded indent { emptyLines := ends } gs gs.length
  let tail :=
    match header.chomping with
    | .strip => []
    | .clip => t.lineEnd.toList
    | .keep => t.lineEnd.toList ++ t.emptyLines
  return (t.done.reverse ++ tail, gs)

end Yaml

end SpeechMarkup
