import SpeechMarkup.Yaml.Glyph

/-!
# Anchors, tags and directives

What stands before a value or before a document: an anchor names a value so that an
alias can repeat it, a tag gives a value a type, and a directive states the version
of YAML or names a family of tags.  Of a tag only its handle is kept, which has to be
known; what the tag means does not matter here.
-/

namespace SpeechMarkup

namespace Yaml

/-- The name of an anchor or an alias, behind its mark, and what follows it. -/
def name? (gs : List Glyph) : Option (String × List Glyph) :=
  let word := gs.takeWhile fun g => isWord g.char
  let rest := gs.drop word.length
  if word.isEmpty then none
  else if Glyph.atGap rest
      || Glyph.startsWith ['?', ':', ',', ']', '}', '%', '@', '\x60'] rest then
    some (String.ofList (Glyph.chars word), rest)
  else none

/-- How many octets follow an octet that starts the encoding of a character. -/
def octetsBehind? (n : Nat) : Option Nat :=
  if n < 0x80 then some 0
  else if n < 0xc0 then none
  else if n < 0xe0 then some 1
  else if n < 0xf0 then some 2
  else if n < 0xf8 then some 3
  else none

/-- The characters of a tag, besides the percent sign of an escaped octet.  In angle
brackets it may hold commas and square brackets. -/
def isTagChar (bracketed : Bool) (c : Char) : Bool :=
  isWord c
    || [';', '/', '?', ':', '@', '&', '=', '+', '$', '.', '!', '~', '*', '\'', '(', ')'].contains c
    || (bracketed && [',', '[', ']'].contains c)

/-- What follows the characters of a tag.  Octets are escaped by a percent sign and
two digits, and those of one character stand together; `owed` of them are missing. -/
def dropTag? (bracketed : Bool) (owed : Nat) : List Glyph → Option (List Glyph)
  | [] => if owed = 0 then some [] else none
  | g :: gs =>
    if g.char = '%' then
      match gs with
      | a :: b :: rest =>
        match hexNumber? [a.char, b.char], owed with
        | none, _ => none
        | some n, 0 =>
          match octetsBehind? n with
          | some more => dropTag? bracketed more rest
          | none => none
        | some n, more + 1 =>
          if 0x80 ≤ n && n < 0xc0 then dropTag? bracketed more rest else none
      | _ => none
    else if 0 < owed then none
    else if isTagChar bracketed g.char then dropTag? bracketed 0 gs
    else some (g :: gs)

/-- What follows the characters of a tag, of which there is one at least. -/
def dropSuffix? (bracketed : Bool) (gs : List Glyph) : Option (List Glyph) :=
  (dropTag? bracketed 0 gs).bind fun rest => if rest.length < gs.length then some rest else none

/-- The handle in front of a tag, from an exclamation mark on, and what follows it.
It is whole if an exclamation mark ends it, too. -/
def handle : List Glyph → String × Bool × List Glyph
  | [] => ("", false, [])
  | mark :: gs =>
    let word := gs.takeWhile fun g => isWord g.char
    let rest := gs.drop word.length
    match rest with
    | [] => (String.ofList (Glyph.chars (mark :: word)), false, [])
    | g :: hs =>
      if g.char = '!' then (String.ofList (Glyph.chars (mark :: word) ++ ['!']), true, hs)
      else (String.ofList (Glyph.chars (mark :: word)), false, g :: hs)

/-- The handle of a tag, from its exclamation mark on, and what follows the tag.  A
tag in angle brackets has no handle, and one without a second exclamation mark has
the handle `!`. -/
def tag? (flow : Bool) (gs : List Glyph) : Option (Option String × List Glyph) := do
  let (name, rest) ←
    if Glyph.startsWith ['<'] (gs.drop 1) then do
      let rest ← dropSuffix? true (gs.drop 2)
      if Glyph.startsWith ['>'] rest then some (none, rest.drop 1) else none
    else
      match handle gs with
      | (name, true, rest) => (dropSuffix? false rest).map (some name, ·)
      | (_, false, rest) => (dropTag? false 0 rest).map (some "!", ·)
  if Glyph.atGap rest || (flow && Glyph.startsWith [','] rest) then some (name, rest) else none

/-- What a line says of the document behind it. -/
inductive Directive
  | version
  /-- The handle stands for a family of tags. -/
  | tags (handle : String)
deriving Repr, DecidableEq

namespace Directive

/-- A number of nine digits at most, and what follows it. -/
def number? (gs : List Glyph) : Option (Nat × List Glyph) :=
  let digits := gs.takeWhile (·.char.isDigit)
  if digits.isEmpty || 9 < digits.length then none
  else
    let value := digits.foldl (fun n g => 10 * n + (g.char.toNat - '0'.toNat)) 0
    some (value, gs.drop digits.length)

/-- The version of YAML, which is 1.1 or 1.2. -/
def version? (gs : List Glyph) : Option (List Glyph) := do
  let (major, gs) ← number? (Glyph.dropBlanks gs)
  if !Glyph.startsWith ['.'] gs then none
  else
    let (minor, gs) ← number? (gs.drop 1)
    if major = 1 && (minor = 1 || minor = 2) then some gs else none

/-- A handle and the tags it stands for. -/
def tags? (gs : List Glyph) : Option (String × List Glyph) := do
  let gs := Glyph.dropBlanks gs
  if !Glyph.startsWith ['!'] gs then none
  else
    let (name, isWhole, gs) := handle gs
    if !isWhole && name ≠ "!" then none
    else if (Glyph.dropBlanks gs).length = gs.length then none
    else
      let gs ← dropSuffix? true (Glyph.dropBlanks gs)
      if Glyph.atGap gs then some (name, gs) else none

/-- A directive, behind its percent sign, and the line that follows. -/
def read (gs : List Glyph) : Option (Directive × List Glyph) := do
  let word := gs.takeWhile fun g => isWord g.char
  let gs := gs.drop word.length
  if !Glyph.atGap gs then none
  else
    let (directive, gs) ←
      match String.ofList (Glyph.chars word) with
      | "YAML" => (version? gs).map (Directive.version, ·)
      | "TAG" => (tags? gs).map fun (name, gs) => (Directive.tags name, gs)
      | _ => none
    let gs ← Glyph.nextLine? gs
    some (directive, gs)

end Directive

end Yaml

end SpeechMarkup
