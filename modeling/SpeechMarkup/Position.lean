/-!
# Places in a source text

Every token, node and diagnostic carries the place where it starts.  A place
counts code points: how many of the text come before it, how many line feeds
are among those, and how many code points follow the last of these line feeds.

* `Position.advance` passes one code point.
* `Position.after` passes a run of them, so that `after` of a concatenation is
  `after` twice (`Position.after_append`).
* `Position.render` is the form used in diagnostics, counted from one.
-/

namespace SpeechMarkup

/-- A place in a named text; the file is empty for text held in memory. -/
structure Position where
  file : String := ""
  index : Nat := 0
  line : Nat := 0
  column : Nat := 0
deriving Repr, DecidableEq

namespace Position

/-- The first place of the text named `file`. -/
def start (file : String) : Position :=
  { file := file }

/-- The place behind one code point. -/
def advance (p : Position) (c : Char) : Position :=
  if c = '\n' then
    { p with index := p.index + 1, line := p.line + 1, column := 0 }
  else
    { p with index := p.index + 1, column := p.column + 1 }

/-- The place behind a run of code points. -/
def after (p : Position) (cs : List Char) : Position :=
  cs.foldl advance p

@[simp] theorem after_nil (p : Position) : p.after [] = p := rfl

@[simp] theorem after_cons (p : Position) (c : Char) (cs : List Char) :
    p.after (c :: cs) = (p.advance c).after cs := rfl

theorem after_append (p : Position) (xs ys : List Char) :
    p.after (xs ++ ys) = (p.after xs).after ys := by
  simp [after, List.foldl_append]

/-- Line and column counted from one; text held in memory is called `<text>`. -/
def render (p : Position) : String :=
  let file := if p.file.isEmpty then "<text>" else p.file
  file ++ ":" ++ toString (p.line + 1) ++ ":" ++ toString (p.column + 1)

end Position

/-- A value together with the place it belongs to. -/
structure Located (α : Type) where
  pos : Position
  value : α
deriving Repr, DecidableEq

/-- A text that is being read: what is left of it, and the place reached. -/
structure Cursor where
  rest : List Char
  pos : Position
deriving Repr, DecidableEq

namespace Cursor

/-- A cursor before the first code point of `text`. -/
def ofText (text : String) (file : String) : Cursor :=
  ⟨text.toList, Position.start file⟩

/-- The code point under the cursor. -/
def current (c : Cursor) : Option Char :=
  c.rest.head?

/-- The code point behind the one under the cursor. -/
def next (c : Cursor) : Option Char :=
  c.rest.tail.head?

def atEnd (c : Cursor) : Bool :=
  c.rest.isEmpty

/-- One code point on; at the end of the text the cursor stays. -/
def advance (c : Cursor) : Cursor :=
  match c.rest with
  | [] => c
  | ch :: rest => ⟨rest, c.pos.advance ch⟩

/-- `n` code points on. -/
def advanceBy (c : Cursor) : Nat → Cursor
  | 0 => c
  | n + 1 => c.advance.advanceBy n

end Cursor

end SpeechMarkup
