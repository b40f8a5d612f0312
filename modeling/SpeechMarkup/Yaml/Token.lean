import SpeechMarkup.Yaml.Property
import SpeechMarkup.Yaml.Scalar

/-!
# Tokens of YAML

The tokens of a text make its nesting explicit: a block collection is announced where
its column shows and is closed where a smaller column shows, and a key is announced
in front of what stands before a colon.  Since the colon comes behind the key, the
reader remembers the token that may turn out to be a key, its `Candidate`, and
announces it later.

`Token.ofText?` is `none` if the text has a fault that does not depend on the order of
its tokens.
-/

namespace SpeechMarkup

namespace Yaml

/-- A token of a text. -/
inductive Token
  | directive (directive : Directive)
  | documentStart
  | documentEnd
  | blockSequence
  | blockMapping
  /-- The end of a block sequence or mapping. -/
  | blockEnd
  | flowSequence
  | flowSequenceEnd
  | flowMapping
  | flowMappingEnd
  /-- The dash in front of an entry. -/
  | dash
  | comma
  /-- What stands in front of a key. -/
  | key
  /-- What stands in front of the value of a key. -/
  | value
  | anchor (name : String)
  | alias (name : String)
  | tag (handle : Option String)
  | scalar (text : String) (plain : Bool)
deriving Repr, DecidableEq

/-- A token that is a key if a colon follows. -/
structure Candidate where
  /-- How many tokens stand before it. -/
  number : Nat
  /-- The first character. -/
  start : Glyph
  /-- Nothing but a key can stand in its place. -/
  required : Bool
deriving Repr, DecidableEq

/-- A key ends on its line, and within as many bytes. -/
def keyLimit : Nat := 1024

/-- The candidate at a later place, where it may be out of reach; there is a fault if
it had to be a key. -/
def Candidate.reach? (g : Glyph) : Option Candidate → Option (Option Candidate)
  | none => some none
  | some k =>
    if k.start.line < g.line || k.start.offset + keyLimit < g.offset then
      if k.required then none else some none
    else some (some k)

/-- What is known in front of the next token. -/
structure Layout where
  /-- The tokens read, last first. -/
  tokens : List Token := []
  /-- The columns of the open blocks, the innermost first. -/
  blocks : List Nat := []
  /-- The candidate in the innermost collection. -/
  candidate : Option Candidate := none
  /-- The candidates around the open flow collections, the innermost first. -/
  outer : List (Option Candidate) := []
  /-- Whether the next token can be a key or start a block. -/
  keyAllowed : Bool := true
deriving Repr

namespace Layout

/-- Whether a flow collection is open. -/
def isFlow (s : Layout) : Bool :=
  !s.outer.isEmpty

/-- The first column that belongs to the innermost block. -/
def least (s : Layout) : Nat :=
  match s.blocks with
  | [] => 0
  | column :: _ => column + 1

def push (s : Layout) (t : Token) : Layout :=
  { s with tokens := t :: s.tokens }

/-- A token in front of the last tokens, behind the first `number` ones. -/
def insert (s : Layout) (number : Nat) (t : Token) : Layout :=
  let later := s.tokens.length - number
  { s with tokens := s.tokens.take later ++ t :: s.tokens.drop later }

/-- Closes the blocks for which `isClosed` holds of their column, from inside. -/
def close (s : Layout) (isClosed : Nat → Bool) : Layout :=
  if s.isFlow then s
  else
    let closed := s.blocks.takeWhile isClosed
    { s with
      tokens := closed.map (fun _ => Token.blockEnd) ++ s.tokens
      blocks := s.blocks.drop closed.length }

/-- Opens a block in a column that lies behind those of the open blocks, and announces
it behind the first `number` tokens. -/
def openAt (s : Layout) (column number : Nat) (t : Token) : Layout :=
  if s.isFlow || column < s.least then s
  else { s.insert number t with blocks := column :: s.blocks }

/-- Opens a block in front of the next token. -/
def openHere (s : Layout) (g : Glyph) (t : Token) : Layout :=
  s.openAt g.column s.tokens.length t

/-- No colon followed, so that the candidate is no key. -/
def forget? (s : Layout) : Option Layout :=
  match s.candidate with
  | some k => if k.required then none else some { s with candidate := none }
  | none => some s

/-- The next token, which starts here, is a candidate if a key is allowed. -/
def remember? (s : Layout) (g : Glyph) : Option Layout :=
  if s.keyAllowed then
    s.forget?.map fun s => { s with
      candidate := some {
        number := s.tokens.length
        start := g
        required := !s.isFlow && g.column + 1 = s.least } }
  else some s

/-- The candidates at a later place. -/
def reach? (s : Layout) (g : Glyph) : Option Layout := do
  let candidate ← Candidate.reach? g s.candidate
  let outer ← s.outer.mapM (Candidate.reach? g)
  return { s with candidate := candidate, outer := outer }

/-- Whether the next token can be a key. -/
def allow (s : Layout) (keyAllowed : Bool) : Layout :=
  { s with keyAllowed := keyAllowed }

/-- A mark or a directive at the start of a line ends all blocks. -/
def endBlocks? (s : Layout) : Option Layout :=
  ((s.close fun _ => true).forget?).map (·.allow false)

/-- The start of a flow collection, which is a candidate itself. -/
def openFlow? (s : Layout) (g : Glyph) (t : Token) : Option Layout :=
  (s.remember? g).map fun s =>
    { s with candidate := none, outer := s.candidate :: s.outer, keyAllowed := true }.push t

/-- The end of a flow collection. -/
def closeFlow? (s : Layout) (t : Token) : Option Layout :=
  s.forget?.map fun s =>
    match s.outer with
    | [] => (s.allow false).push t
    | candidate :: outer =>
      { s with candidate := candidate, outer := outer, keyAllowed := false }.push t

/-- A mark that starts an entry of a block: a dash, or a question mark in front of a
key. -/
def entry? (s : Layout) (g : Glyph) (block t : Token) (keyAllowed : Bool) : Option Layout :=
  if !s.isFlow && !s.keyAllowed then none
  else (s.openHere g block).forget?.map fun s => (s.allow keyAllowed).push t

/-- The colon in front of a value.  It makes the candidate a key, which may be the
first of a block mapping. -/
def colon? (s : Layout) (g : Glyph) : Option Layout :=
  match s.candidate with
  | some k =>
    let s := (s.insert k.number .key).openAt k.start.column k.number .blockMapping
    some ({ s with candidate := none, keyAllowed := false }.push .value)
  | none =>
    if !s.isFlow && !s.keyAllowed then none
    else some (((s.openHere g .blockMapping).allow !s.isFlow).push .value)

/-- A token that may be a key, with the characters behind it. -/
def content? (s : Layout) (g : Glyph) (found : Option (Token × List Glyph)) :
    Option (Layout × List Glyph) := do
  let s ← s.remember? g
  let (t, rest) ← found
  return ((s.allow false).push t, rest)

/-- A plain scalar.  If its gap reaches a further line, a key is allowed there. -/
def plain? (s : Layout) (g : Glyph) (gs : List Glyph) : Option (Layout × List Glyph) := do
  let s ← s.remember? g
  let (text, gap, rest) ← plain s.isFlow s.least [] .empty (g :: gs)
  return ((s.allow gap.isCrossing).push (.scalar (String.ofList text) true), rest)

/-- A scalar that is a block of lines. -/
def block? (s : Layout) (folded : Bool) (gs : List Glyph) : Option (Layout × List Glyph) := do
  let s ← s.forget?
  let (text, rest) ← blockScalar folded s.least gs
  return ((s.allow true).push (.scalar (String.ofList text) false), rest)

/-- The characters that announce something other than a plain scalar. -/
def isIndicator (c : Char) : Bool :=
  isFlowMark c
    || ['-', '?', ':', '#', '&', '*', '!', '|', '>', '\'', '"', '%', '@', '\x60'].contains c

/-- Whether a plain scalar starts with a character, in front of the given ones. -/
def startsPlain (flow : Bool) (g : Glyph) (gs : List Glyph) : Bool :=
  if g.isBlank || g.isBreak then false
  else if g.char = '-' then !Glyph.atGap gs
  else if g.char = '?' || g.char = ':' then !flow && !Glyph.atGap gs
  else !isIndicator g.char

/-- The next token, which starts with the given character. -/
def step? (s : Layout) (g : Glyph) (gs : List Glyph) : Option (Layout × List Glyph) :=
  let wide := s.isFlow || Glyph.atGap gs
  let quoted := fun (read : Option (List Char × List Glyph)) =>
    s.content? g (read.map fun (text, rest) => (Token.scalar (String.ofList text) false, rest))
  let here := fun (next : Option Layout) => next.map (·, gs)
  if g.column = 0 && g.char = '%' then do
    let s ← s.endBlocks?
    let (directive, rest) ← Directive.read gs
    return (s.push (.directive directive), rest)
  else if Glyph.atMark '-' (g :: gs) then
    s.endBlocks?.map fun s => (s.push .documentStart, gs.drop 2)
  else if Glyph.atMark '.' (g :: gs) then
    s.endBlocks?.map fun s => (s.push .documentEnd, gs.drop 2)
  else if g.char = '-' && Glyph.atGap gs then here (s.entry? g .blockSequence .dash true)
  else if g.char = '?' && wide then here (s.entry? g .blockMapping .key !s.isFlow)
  else if g.char = ':' && wide then here (s.colon? g)
  else if startsPlain s.isFlow g gs then s.plain? g gs
  else
    match g.char with
    | '[' => here (s.openFlow? g .flowSequence)
    | '{' => here (s.openFlow? g .flowMapping)
    | ']' => here (s.closeFlow? .flowSequenceEnd)
    | '}' => here (s.closeFlow? .flowMappingEnd)
    | ',' => here (s.forget?.map fun s => (s.allow true).push .comma)
    | '*' => s.content? g ((name? gs).map fun (name, rest) => (.alias name, rest))
    | '&' => s.content? g ((name? gs).map fun (name, rest) => (.anchor name, rest))
    | '!' => s.content? g ((tag? s.isFlow (g :: gs)).map fun (name, rest) => (.tag name, rest))
    | '|' => if s.isFlow then none else s.block? false gs
    | '>' => if s.isFlow then none else s.block? true gs
    | '\'' => quoted (singleQuoted [] .empty gs)
    | '"' => quoted (doubleQuoted [] .empty gs)
    | _ => none

/-- Drops what stands between tokens, and tells whether a key is allowed behind it: a
new line allows one outside flow collections.  Where a key is allowed, a tab does not
count as a blank.  A byte order mark can start a line. -/
def dropGap (flow keyAllowed inComment : Bool) : List Glyph → Bool × List Glyph
  | [] => (keyAllowed, [])
  | g :: gs =>
    if g.isBreak then dropGap flow (keyAllowed || !flow) false gs
    else if inComment || g.char = '#' then dropGap flow keyAllowed true gs
    else if g.char = ' ' || (g.char = '\t' && (flow || !keyAllowed))
        || (g.char = '\ufeff' && g.column = 0) then
      dropGap flow keyAllowed false gs
    else (keyAllowed, g :: gs)

/-- The tokens of a text, the rest of which is given. -/
def finish? (s : Layout) (gs : List Glyph) : Nat → Option (List Token)
  | 0 => none
  | fuel + 1 =>
    let (keyAllowed, gs) := dropGap s.isFlow s.keyAllowed false gs
    let s := s.allow keyAllowed
    match gs with
    | [] => ((s.close fun _ => true).forget?).map (·.tokens.reverse)
    | g :: gs => do
        let s ← s.reach? g
        let (s, rest) ← (s.close (g.column < ·)).step? g gs
        s.finish? rest fuel

end Layout

/-- The tokens of a text. -/
def Token.ofText? (text : String) : Option (List Token) :=
  (Glyph.ofText? text).bind fun gs => ({} : Layout).finish? gs (gs.length + 1)

end Yaml

end SpeechMarkup
