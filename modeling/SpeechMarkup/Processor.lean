import SpeechMarkup.Compile

/-!
# Processors

A processor expands programs one after the other.  It keeps its scope, its sink and its
store from one program to the next, also where a program fails.

The scope is changed in place.  Where a processor comes to an import it puts the file on
top of those being read and goes to its directory, and where it comes to a call of a phrase
it puts the phrase on top of those being replayed; when it is through with the nodes it
takes the file or phrase off again, whatever came of them.

* `Processor.between` does some work in a changed scope and changes the scope back.
* `Processor.expandNode` expands a node so, and `Processor.process` a program.
-/

namespace SpeechMarkup

namespace Scope

/-- Puts a file on top of those being read and goes to its directory. -/
def pushFile (path : String) (scope : Scope) : Scope :=
  { scope with
    dir := (Path.parent? path).getD ""
    reading := path :: scope.reading }

/-- Takes a file off those being read and goes back to the directory `dir`. -/
def popFile (dir : String) (scope : Scope) : Scope :=
  { scope with
    dir := dir
    reading := scope.reading.tail }

/-- Puts a phrase on top of those being replayed. -/
def pushPhrase (name : String) (scope : Scope) : Scope :=
  { scope with replaying := name :: scope.replaying }

/-- Takes a phrase off those being replayed. -/
def popPhrase (scope : Scope) : Scope :=
  { scope with replaying := scope.replaying.tail }

end Scope

/-- A scope, a sink and a store that are used again and again. -/
structure Processor where
  scope : Scope
  sink : Sink := {}
  store : Store
deriving Repr

/-- A computation that may change the scope and the store, and may fail; a failure keeps
the changes made before it. -/
abbrev Work := ExceptT Diagnostic (StateM (Scope × Store))

namespace Work

/-- Leaves the scope to itself. -/
def ofRun {α : Type} (m : Run α) : Work α :=
  ExceptT.mk fun (scope, s) =>
    let (result, t) := m.run s
    (result, scope, t)

def changeScope (f : Scope → Scope) : Work Unit :=
  modify fun (scope, s) => (f scope, s)

/-- Carries work out and holds its result back, a failure included. -/
def attempt {α : Type} (w : Work α) : Work (Except Diagnostic α) :=
  ExceptT.mk fun context =>
    let (result, context) := w.run context
    (.ok result, context)

/-- Gives a result that was held back. -/
def release {α : Type} (result : Except Diagnostic α) : Work α :=
  ExceptT.mk fun context => (result, context)

end Work

namespace Processor

open Expansion (locate)

/-- Work in a scope that `push` makes of the present one; `pop` undoes that when the work
has ended, with a failure or not. -/
def between {α : Type} (push pop : Scope → Scope) (w : Work α) : Work α := do
  Work.changeScope push
  let result ← Work.attempt w
  Work.changeScope pop
  Work.release result

variable (files : Files)

/-- What a processor does with nodes that come from a file or a phrase. -/
abbrev Enter := List Node → Work String

variable (enter : Enter)

/-- Expands the nodes of a file in the place of the command that imports it. -/
def importFile (pos : Position) (name : String) : Work String := do
  let (scope, s) ← get
  match locate files scope s name with
  | none => Work.ofRun (Run.fail pos (.resolution (.missingImport name)))
  | some path =>
    if scope.reading.contains path then
      Work.ofRun (Run.fail pos (.resolution (.circularImport path)))
    else
      let text ← Work.ofRun (Run.lift pos (fun e => .io (.unreadable path e)) (files.read path))
      match Node.ofText text path with
      | .error d => throw d
      | .ok nodes => between (Scope.pushFile path) (Scope.popFile scope.dir) (enter nodes)

/-- Expands a built-in phoneme, or calls a phrase or sound. -/
def phoneme (p : Phoneme) : Work String := do
  let (scope, s) ← get
  let millis := p.duration.toMillis s.unit
  if isBuiltinPhoneme p.symbol then pure (speak p.symbol millis p.pitch)
  else
    match s.phrase? p.symbol with
    | some body =>
      if scope.replaying.contains p.symbol then
        Work.ofRun (Run.fail p.pos (.resolution (.selfReference p.symbol)))
      else between (Scope.pushPhrase p.symbol) Scope.popPhrase (enter body)
    | none =>
      match s.sound? p.symbol with
      | some sound => Work.ofRun (Run.lift p.pos .runtime (expandSound p sound millis))
      | none => Work.ofRun (Run.fail p.pos (.resolution (.unknownSymbol p.symbol)))

/-- Plays a recorded file under the path where it was found. -/
def play (pos : Position) (name : String) (more : List Param) : Work String := do
  let (scope, _) ← get
  Work.ofRun (Expansion.play files scope pos name more)

/-- A command that the compiler carries out itself and that holds no nodes. -/
def directive (pos : Position) (name : String) (params : List Param) : Command → Work String
  | .bpm => do
      let bpm ← Work.ofRun (intParam pos name params)
      Work.ofRun (Expansion.setTempo bpm)
  | .importFile => do importFile files enter pos (← Work.ofRun (textParam pos name params))
  | .name => do
      let voice ← Work.ofRun (textParam pos name params)
      Work.ofRun (Expansion.selectVoice pos params voice)
  | .play => do play files pos (← Work.ofRun (textParam pos name params)) params.tail
  | other => Work.ofRun (Run.fail pos (.rule (.noHandler name other)))

mutual

/-- The instructions that a node stands for. -/
def expandNode : Node → Work String
  | .command pos name params context =>
    match commandFault? name params context with
    | some fault => Work.ofRun (Run.fail pos (.rule fault))
    | none =>
      match Command.ofName? name with
      | none => Work.ofRun (Run.fail pos (.rule (.unknownCommand name)))
      | some command =>
        match command.behavior with
        | .bypass => pure (Node.command pos name params context).render
        | .ignore => pure ""
        | .register => Work.ofRun (Expansion.register (.command pos name params context))
        | .specialized =>
          if command = .loop then do
            let count ← Work.ofRun (Expansion.loopCount pos name params)
            let body ← expandNodes context
            Work.ofRun (Run.lift pos .runtime (repeatText count body))
          else directive files enter pos name params command
  | .voice v =>
    match voiceFault? v with
    | some fault => Work.ofRun (Run.fail v.pos (.rule fault))
    | none => Work.ofRun (Expansion.register (.voice v))
  | .phoneme p => phoneme enter p
  | .stop _ => pure ""

/-- The instructions that nodes stand for, one after the other. -/
def expandNodes : List Node → Work String
  | [] => pure ""
  | n :: ns => do
      let text ← expandNode n
      let more ← expandNodes ns
      pure (text ++ more)

end

/-- Expands the nodes of a file or phrase, with room for so many more inside. -/
def nest : Nat → Enter
  | 0, nodes => Work.ofRun (Run.fail (nodes.head?.elim {} Node.pos) (.runtime .nestedTooDeep))
  | room + 1, nodes => expandNodes files (nest room) nodes

/-- Expands nodes up to the end marker, each into a chunk of its own. -/
def emitNodes : List Node → Processor → Except Diagnostic Unit × Processor
  | [], p => (.ok (), p)
  | .stop _ :: _, p => (.ok (), p)
  | n :: ns, p =>
    match (expandNode files enter n).run (p.scope, p.store) with
    | (.error d, scope, store) => (.error d, { p with scope, store })
    | (.ok text, scope, store) =>
      let p := { p with scope, store }
      if text.isEmpty then emitNodes ns p
      else if p.sink.isFull then (.error ⟨n.pos, .io .sinkFull⟩, p)
      else emitNodes ns { p with sink := p.sink.push text }

/-- Expands a program; gives its result and the processor as it is then. -/
def process (nodes : List Node) (p : Processor) : Except Diagnostic Unit × Processor :=
  emitNodes files (nest files (Expansion.room files p.store nodes)) nodes p

/-- The processor behind programs that were expanded one after the other, whether they
failed or not. -/
def after (programs : List (List Node)) (p : Processor) : Processor :=
  programs.foldl (fun p nodes => (process files nodes p).2) p

/-- A processor for text held in memory. -/
def start (store : Store) (sink : Sink) : Processor :=
  { scope := Scope.start store, sink, store }

/-- The processor inside the file that is named relative to the working directory. -/
def forFile (path : String) (p : Processor) : Processor :=
  { p with scope := p.scope.forFile p.store path }

end Processor

end SpeechMarkup
