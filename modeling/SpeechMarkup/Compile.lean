import SpeechMarkup.Expansion

/-!
# Compilation

A program is compiled node by node.  Each node of the top level that stands for
some text gives one chunk, which goes to a sink as a whole; a node whose expansion
fails gives none.

* `Sink` collects chunks, possibly only a limited number of them.
* `process` expands nodes into a sink.
* `Source.compile` compiles a text.
-/

namespace SpeechMarkup

/-- The chunks taken so far, and how many may be taken in all. -/
structure Sink where
  chunks : Array String := #[]
  limit : Option Nat := none
deriving Repr, DecidableEq

namespace Sink

/-- Whether no more chunks may be taken. -/
def isFull (sink : Sink) : Bool :=
  match sink.limit with
  | some n => n ≤ sink.chunks.size
  | none => false

/-- Takes one more chunk. -/
def push (sink : Sink) (chunk : String) : Sink :=
  { sink with chunks := sink.chunks.push chunk }

/-- All chunks in one text. -/
def text (sink : Sink) : String :=
  String.join sink.chunks.toList

end Sink

/-- How a compilation ended, and what it left behind. -/
structure Outcome where
  result : Except Diagnostic Unit
  sink : Sink
  store : Store
deriving Repr

/-- Expands nodes up to the end marker, each into a chunk of its own. -/
def emitNodes (files : Files) (enter : Expansion.Enter) (scope : Scope) :
    List Node → Sink → Store → Outcome
  | [], sink, store => ⟨.ok (), sink, store⟩
  | .stop _ :: _, sink, store => ⟨.ok (), sink, store⟩
  | n :: ns, sink, store =>
    match (Expansion.expandNode files enter scope n).run store with
    | (.error d, store) => ⟨.error d, sink, store⟩
    | (.ok text, store) =>
      if text.isEmpty then emitNodes files enter scope ns sink store
      else if sink.isFull then ⟨.error ⟨n.pos, .io .sinkFull⟩, sink, store⟩
      else emitNodes files enter scope ns (sink.push text) store

/-- Expands nodes in a scope. -/
def process (files : Files) (scope : Scope) (nodes : List Node) (sink : Sink)
    (store : Store) : Outcome :=
  let room := Expansion.room files store nodes
  emitNodes files (Expansion.nest files room) scope nodes sink store

/-- A text to compile, with its path if it is a file's. -/
structure Source where
  text : String
  path : Option String := none
deriving Repr, DecidableEq

namespace Source

/-- The name that places in the text carry. -/
def fileId (source : Source) : String :=
  source.path.getD ""

/-- The directory of the file. -/
def dir? (source : Source) : Option String :=
  source.path.bind Path.parent?

/-- The scope in which the text is expanded. -/
def scope (source : Source) (store : Store) : Scope :=
  match source.path with
  | some path => (Scope.start store).forFile store path
  | none => Scope.start store

/-- Compiles a text into a sink. -/
def compile (files : Files) (source : Source) (sink : Sink) (store : Store) : Outcome :=
  match Node.ofText source.text source.fileId with
  | .error d => ⟨.error d, sink, store⟩
  | .ok nodes => process files (source.scope store) nodes sink store

end Source

end SpeechMarkup
