import SpeechMarkup.Yaml
import SpeechMarkup.Yaml.Token

/-!
# Reading documents

The tokens of a text are read as one document by recursion over their nesting.  A
text holds at most one document; without any, it holds nothing.

An anchor gets the number of the names that are taken when it is met.  Where a name is
taken again, the anchors behind may so share a number, and the last of them is the one
that the aliases of that number repeat.
-/

namespace SpeechMarkup

namespace Yaml

/-- The tokens that are left, and what is known of anchors and tags. -/
structure Cursor where
  tokens : List Token
  /-- The handles that tags may have. -/
  handles : List String := ["!", "!!"]
  /-- The names of anchors, with their numbers. -/
  names : List (String × Nat) := []
  /-- How many anchors were met. -/
  count : Nat := 0
  /-- The values of anchors that are read to their end. -/
  anchored : List Anchored := []
deriving Repr

namespace Cursor

/-- Whether the next token is one of the given ones. -/
def isAt (c : Cursor) (ts : List Token) : Bool :=
  match c.tokens with
  | [] => false
  | t :: _ => ts.contains t

def skip (c : Cursor) : Cursor :=
  { c with tokens := c.tokens.drop 1 }

/-- The tag in front of a value, if there is one.  It is a fault if its handle is not
known. -/
def tag? (c : Cursor) : Option (Bool × Cursor) :=
  match c.tokens with
  | .tag handle :: _ =>
    if handle.all c.handles.contains then some (true, c.skip) else none
  | _ => some (false, c)

/-- The anchor in front of a value, if there is one. -/
def anchor (c : Cursor) : Option String × Cursor :=
  match c.tokens with
  | .anchor name :: _ => (some name, c.skip)
  | _ => (none, c)

/-- The anchor and the tag in front of a value, in either order, and whether there is
one of them. -/
def properties? (c : Cursor) : Option (Option String × Bool × Cursor) := do
  match c.anchor with
  | (some name, c) =>
    let (_, c) ← c.tag?
    return (some name, true, c)
  | (none, c) =>
    let (isTagged, c) ← c.tag?
    if isTagged then
      let (name, c) := c.anchor
      return (name, true, c)
    else return (none, false, c)

/-- Numbers the anchor of a value, if it has one.  The number and the order are those
that the value gets. -/
def number (c : Cursor) : Option String → Option (Nat × Nat) × Cursor
  | none => (none, c)
  | some name =>
    let number := c.names.length
    (some (number, c.count),
      { c with
        names := (name, number) :: c.names.filter (·.1 ≠ name)
        count := c.count + 1 })

/-- Keeps the value of an anchor. -/
def keep (c : Cursor) (place : Option (Nat × Nat)) (value : Yaml) : Cursor :=
  match place with
  | none => c
  | some (number, order) => { c with anchored := ⟨number, order, value⟩ :: c.anchored }

end Cursor

mutual

/-- A value.  A block collection can be one if `block` holds, and a sequence whose
dashes stand in the column of the key if `dashes` holds. -/
def node (block dashes : Bool) (c : Cursor) : Nat → Option (Yaml × Cursor)
  | 0 => none
  | fuel + 1 =>
    match c.tokens with
    | .alias name :: _ => (c.names.lookup name).map fun number => (.alias number, c.skip)
    | _ => do
      let (name, isNamed, c) ← c.properties?
      let (place, c) := c.number name
      let (value, c) ← content block dashes isNamed c fuel
      return (value, c.keep place value)
termination_by structural fuel => fuel

/-- A value behind its anchor and tag.  If it has one of them, it may be left out. -/
def content (block dashes isNamed : Bool) (c : Cursor) : Nat → Option (Yaml × Cursor)
  | 0 => none
  | fuel + 1 =>
    let missing := if isNamed then some (nothing, c) else none
    match c.tokens with
    | .scalar text plain :: _ => some (.scalar text plain, c.skip)
    | .flowSequence :: _ => flowItems true [] c.skip fuel
    | .flowMapping :: _ => flowEntries true [] c.skip fuel
    | .blockSequence :: _ => if block then blockItems [] c.skip fuel else missing
    | .blockMapping :: _ => if block then blockEntries [] c.skip fuel else missing
    | .dash :: _ => if dashes then dashItems [] c fuel else missing
    | _ => missing
termination_by structural fuel => fuel

/-- A value, or nothing in front of the given tokens. -/
def nodeBefore (ends : List Token) (block dashes : Bool) (c : Cursor) :
    Nat → Option (Yaml × Cursor)
  | 0 => none
  | fuel + 1 => if c.isAt ends then some (nothing, c) else node block dashes c fuel
termination_by structural fuel => fuel

/-- What a key is followed by: its value, which is missing in front of the given
tokens, or nothing. -/
def right (ends : List Token) (block : Bool) (c : Cursor) : Nat → Option (Yaml × Cursor)
  | 0 => none
  | fuel + 1 =>
    if c.isAt [.value] then nodeBefore ends block block c.skip fuel else some (nothing, c)
termination_by structural fuel => fuel

/-- The rest of a block sequence. -/
def blockItems (done : List Yaml) (c : Cursor) : Nat → Option (Yaml × Cursor)
  | 0 => none
  | fuel + 1 =>
    match c.tokens with
    | .dash :: _ => do
      let (item, c) ← nodeBefore [.dash, .blockEnd] true false c.skip fuel
      blockItems (item :: done) c fuel
    | .blockEnd :: _ => some (.sequence done.reverse, c.skip)
    | _ => none
termination_by structural fuel => fuel

/-- The rest of a sequence whose dashes stand in the column of the key. -/
def dashItems (done : List Yaml) (c : Cursor) : Nat → Option (Yaml × Cursor)
  | 0 => none
  | fuel + 1 =>
    match c.tokens with
    | .dash :: _ => do
      let (item, c) ← nodeBefore [.dash, .key, .value, .blockEnd] true false c.skip fuel
      dashItems (item :: done) c fuel
    | _ => some (.sequence done.reverse, c)
termination_by structural fuel => fuel

/-- The rest of a block mapping. -/
def blockEntries (done : List (Yaml × Yaml)) (c : Cursor) : Nat → Option (Yaml × Cursor)
  | 0 => none
  | fuel + 1 =>
    match c.tokens with
    | .key :: _ => do
      let ends := [Token.key, .value, .blockEnd]
      let (key, c) ← nodeBefore ends true true c.skip fuel
      let (value, c) ← right ends true c fuel
      blockEntries ((key, value) :: done) c fuel
    | .blockEnd :: _ => some (.mapping done.reverse, c.skip)
    | _ => none
termination_by structural fuel => fuel

/-- The rest of a flow sequence.  A pair of a key and a value in it is a mapping of
one entry; where its key is left out, the token behind is passed over. -/
def flowItems (isFirst : Bool) (done : List Yaml) (c : Cursor) : Nat → Option (Yaml × Cursor)
  | 0 => none
  | fuel + 1 =>
    if c.isAt [.flowSequenceEnd] then some (.sequence done.reverse, c.skip)
    else if !isFirst && !c.isAt [.comma] then none
    else
      let c := if isFirst then c else c.skip
      match c.tokens with
      | .flowSequenceEnd :: _ => some (.sequence done.reverse, c.skip)
      | .key :: _ => do
        let c := c.skip
        let (key, c) ←
          if c.isAt [.value, .comma, .flowSequenceEnd] then some (nothing, c.skip)
          else node false false c fuel
        let (value, c) ← right [.comma, .flowSequenceEnd] false c fuel
        flowItems false (.mapping [(key, value)] :: done) c fuel
      | _ => do
        let (item, c) ← node false false c fuel
        flowItems false (item :: done) c fuel
termination_by structural fuel => fuel

/-- The rest of a flow mapping. -/
def flowEntries (isFirst : Bool) (done : List (Yaml × Yaml)) (c : Cursor) :
    Nat → Option (Yaml × Cursor)
  | 0 => none
  | fuel + 1 =>
    if c.isAt [.flowMappingEnd] then some (.mapping done.reverse, c.skip)
    else if !isFirst && !c.isAt [.comma] then none
    else
      let c := if isFirst then c else c.skip
      match c.tokens with
      | .flowMappingEnd :: _ => some (.mapping done.reverse, c.skip)
      | .key :: _ => do
        let (key, c) ← nodeBefore [.value, .comma, .flowMappingEnd] false false c.skip fuel
        let (value, c) ← right [.comma, .flowMappingEnd] false c fuel
        flowEntries false ((key, value) :: done) c fuel
      | _ => do
        let (key, c) ← node false false c fuel
        flowEntries false ((key, nothing) :: done) c fuel
termination_by structural fuel => fuel

end

namespace Document

/-- The directives in front of a document, and the tokens behind them. -/
def directives : List Token → List Directive × List Token
  | .directive d :: ts => ((directives ts).map (d :: ·) id)
  | ts => ([], ts)

/-- The handles that directives name.  No handle is named twice, and the version is
given once at most. -/
def handles? (ds : List Directive) : Option (List String) :=
  if ds.eraseDups.length = ds.length then
    some (ds.filterMap fun
      | .tags handle => some handle
      | .version => none)
  else none

/-- The document of a list of tokens.  Directives need a mark behind them, and behind
a mark the value may be left out. -/
def ofTokens? (ts : List Token) : Option Document := do
  let fuel := 4 * ts.length + 4
  let (ds, rest) := directives ts
  let handles ← handles? ds
  let c : Cursor := { tokens := rest, handles := handles ++ ["!", "!!"] }
  let (root, c) ←
    if c.isAt [.documentStart] then
      let c := c.skip
      if c.tokens.all (· = .documentEnd) then some (nothing, c) else node true false c fuel
    else if ts.isEmpty then some (nothing, c)
    else if !ds.isEmpty then none
    else node true false c fuel
  if c.tokens.all (· = .documentEnd) then some ⟨root, c.anchored⟩ else none

/-- The document of a text. -/
def ofText? (text : String) : Option Document :=
  (Token.ofText? text).bind ofTokens?

end Document

end Yaml

end SpeechMarkup
