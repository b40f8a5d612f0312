/-!
# YAML values

A value of a YAML document is a scalar, a sequence or a mapping, or an alias for a
value of the document that an anchor names.  An alias may stand inside the value that
it repeats, so that values are not unfolded: `Yaml.Document.resolve` looks one alias
up.
-/

namespace SpeechMarkup

/-- A YAML value. -/
inductive Yaml
  /-- A scalar, which is written plain or in some other way. -/
  | scalar (text : String) (plain : Bool)
  | sequence (items : List Yaml)
  | mapping (entries : List (Yaml × Yaml))
  /-- The value of the anchor with a number. -/
  | alias (number : Nat)
deriving Repr

namespace Yaml

/-- The value of a place where nothing is written. -/
def nothing : Yaml :=
  .scalar "" true

/-- A value with an anchor. -/
structure Anchored where
  /-- The number of the anchor. -/
  number : Nat
  /-- How many anchors stand before it in the document. -/
  order : Nat
  value : Yaml
deriving Repr

/-- The value of a document and those of its anchors. -/
structure Document where
  root : Yaml
  anchored : List Anchored := []
deriving Repr

namespace Document

/-- Of the anchors with a number, the last one. -/
def last? (number : Nat) (anchored : List Anchored) : Option Anchored :=
  anchored.foldl
    (fun best a =>
      if a.number = number && best.all (·.order < a.order) then some a else best)
    none

/-- The value that an alias stands for, and any other value itself. -/
def resolve (d : Document) : Yaml → Yaml
  | .alias number => ((last? number d.anchored).map (·.value)).getD nothing
  | value => value

end Document

end Yaml

end SpeechMarkup
