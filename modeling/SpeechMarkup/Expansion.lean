import SpeechMarkup.Diagnostic
import SpeechMarkup.Instruction

/-!
# Expansion of nodes

Expanding a node gives the engine instructions it stands for and may change the
store.  Changes stay in force when the expansion fails.

Two things an expansion meets are not part of the node: the text of an imported
file and the body of a phrase.  `expandNode` recurses over the node alone and
hands those two to its argument `enter`; `nest` supplies it, and descends one
level of a given room each time.  An import is refused if its file is being read
already, a phrase if it is being replayed already, so that the room of
`Expansion.room` is never used up.
-/

namespace SpeechMarkup

/-- Where an expansion stands. -/
structure Scope where
  /-- The directory in which files are searched first. -/
  dir : String
  /-- The files being read, the innermost first. -/
  reading : List String := []
  /-- The phrases being replayed, the innermost first. -/
  replaying : List String := []
deriving Repr, DecidableEq

namespace Scope

/-- The scope of text held in memory. -/
def start (s : Store) : Scope :=
  { dir := s.workDir }

/-- The scope inside the file that is named relative to the working directory. -/
def forFile (scope : Scope) (s : Store) (path : String) : Scope :=
  let path := Path.absolute s.workDir path
  { scope with
    dir := (Path.parent? path).getD scope.dir
    reading := path :: scope.reading }

/-- The scope inside an imported file. -/
def enterFile? (scope : Scope) (path : String) : Option Scope :=
  if scope.reading.contains path then none
  else
    some { scope with
      dir := (Path.parent? path).getD ""
      reading := path :: scope.reading }

/-- The scope inside the body of a phrase. -/
def enterPhrase? (scope : Scope) (name : String) : Option Scope :=
  if scope.replaying.contains name then none
  else some { scope with replaying := name :: scope.replaying }

end Scope

/-- A computation that may change the store and may fail; a failure keeps the
changes made before it. -/
abbrev Run := ExceptT Diagnostic (StateM Store)

namespace Run

def fail {α : Type} (pos : Position) (fault : Fault) : Run α :=
  throw ⟨pos, fault⟩

/-- Passes an outcome on, placing a fault. -/
def lift {α ε : Type} (pos : Position) (fault : ε → Fault) : Except ε α → Run α
  | .ok a => pure a
  | .error e => fail pos (fault e)

end Run

/-- The length of a consonant in a sound, in milliseconds. -/
def consonantMillis : Int := 15

/-- The consonants at both ends of a sound, and what lies between them. -/
def soundParts (sound : List Phoneme) :
    List Phoneme × List Phoneme × List Phoneme :=
  let consonant := fun p : Phoneme => isConsonant p.symbol
  let tail := (sound.dropWhile consonant).reverse
  (sound.takeWhile consonant, (tail.dropWhile consonant).reverse,
    (tail.takeWhile consonant).reverse)

/--
The instructions for a sound of the given length.  The consonants at its ends get
`consonantMillis` each, and the vowels share what is left evenly and take the
pitch of the call.
-/
def expandSound (call : Phoneme) (sound : List Phoneme) (millis : Int) :
    Except RuntimeFault String :=
  let (lead, middle, trail) := soundParts sound
  let minimum := consonantMillis * (lead.length + trail.length : Nat)
  if millis < minimum then .error (.soundTooShort call.symbol minimum millis)
  else if middle.isEmpty then .error (.soundWithoutVowels call.symbol)
  else
    let each := Int.tdiv (millis - minimum) middle.length
    let edge := fun p : Phoneme => speak p.symbol consonantMillis 0
    .ok
      (String.join (lead.map edge)
        ++ String.join (middle.map fun p => speak p.symbol each call.pitch)
        ++ String.join (trail.map edge))

/-- The instructions that set every parameter of a declared voice. -/
def voiceInstructions (settings : VoiceSettings) : String :=
  String.join
    (voiceParams.map fun p =>
      match settings.get? p.name with
      | some value => setVoiceParam p.name value
      | none => "")

/-- A text `count` times over, unless the result would not fit a signed word. -/
def repeatText (count : Nat) (body : String) : Except RuntimeFault String :=
  if body.isEmpty then .ok ""
  else if maxWord < (body.utf8ByteSize * count : Nat) then
    .error (.loopTooLarge count body.utf8ByteSize)
  else .ok (String.join (List.replicate count body))

/-- The first parameter as a whole number. -/
def intParam (pos : Position) (name : String) (params : List Param) : Run Int :=
  match params with
  | .int v :: _ => pure v
  | _ => Run.fail pos (.rule (.paramNeeded name "INT"))

/-- The first parameter as a text. -/
def textParam (pos : Position) (name : String) (params : List Param) : Run String :=
  match params with
  | .str s :: _ => pure s
  | _ => Run.fail pos (.rule (.paramNeeded name "STRING"))

namespace Expansion

variable (files : Files)

/-- The first directory's path for `name` that names a file. -/
def resolve (dirs : List String) (name : String) : Option String :=
  (dirs.map fun dir => Path.absolute dir name).find? files.isFile

/-- The path of a file searched from a scope. -/
def locate (scope : Scope) (s : Store) (name : String) : Option String :=
  resolve files (scope.dir :: s.searchDirs) name

/-- Stores a definition. -/
def register (node : Node) : Run String := do
  let s ← get
  let t ← Run.lift node.pos .registration (s.define node)
  set t
  pure ""

def setTempo (bpm : Int) : Run String := do
  modify (·.setTempo bpm)
  pure ""

/-- Selects a voice: a built-in one by its name, a declared one by its values. -/
def selectVoice (pos : Position) (params : List Param) (name : String) : Run String := do
  if isBuiltinVoice name then pure (Node.command pos "name" params []).render
  else
    let s ← get
    match s.voice? name with
    | some settings => pure (voiceInstructions settings)
    | none => Run.fail pos (.resolution (.unknownVoice name))

/-- Plays a recorded file under the path where it was found. -/
def play (scope : Scope) (pos : Position) (name : String) (more : List Param) :
    Run String := do
  let s ← get
  match locate files scope s name with
  | some path => pure (Node.command pos "play" (.str path :: more) []).render
  | none => Run.fail pos (.resolution (.missingSound name))

/-- What an expansion does with nodes that come from a file or a phrase. -/
abbrev Enter := Scope → List Node → Run String

variable (enter : Enter)

/-- Expands the nodes of a file in the place of the command that imports it. -/
def importFile (scope : Scope) (pos : Position) (name : String) : Run String := do
  let s ← get
  match locate files scope s name with
  | none => Run.fail pos (.resolution (.missingImport name))
  | some path =>
    match scope.enterFile? path with
    | none => Run.fail pos (.resolution (.circularImport path))
    | some inner =>
      let text ← Run.lift pos (fun e => .io (.unreadable path e)) (files.read path)
      match Node.ofText text path with
      | .error d => throw d
      | .ok nodes => enter inner nodes

/-- Expands a built-in phoneme, or calls a phrase or sound. -/
def phoneme (scope : Scope) (p : Phoneme) : Run String := do
  let s ← get
  let millis := p.duration.toMillis s.unit
  if isBuiltinPhoneme p.symbol then pure (speak p.symbol millis p.pitch)
  else
    match s.phrase? p.symbol with
    | some body =>
      match scope.enterPhrase? p.symbol with
      | some inner => enter inner body
      | none => Run.fail p.pos (.resolution (.selfReference p.symbol))
    | none =>
      match s.sound? p.symbol with
      | some sound => Run.lift p.pos .runtime (expandSound p sound millis)
      | none => Run.fail p.pos (.resolution (.unknownSymbol p.symbol))

/-- A command that the compiler carries out itself and that holds no nodes. -/
def directive (scope : Scope) (pos : Position) (name : String) (params : List Param) :
    Command → Run String
  | .bpm => do setTempo (← intParam pos name params)
  | .importFile => do importFile files enter scope pos (← textParam pos name params)
  | .name => do selectVoice pos params (← textParam pos name params)
  | .play => do play files scope pos (← textParam pos name params) params.tail
  | other => Run.fail pos (.rule (.noHandler name other))

/-- The number of times a loop is run. -/
def loopCount (pos : Position) (name : String) (params : List Param) : Run Nat := do
  let count ← intParam pos name params
  if count < 0 then Run.fail pos (.rule (.negativeCount count)) else pure count.toNat

mutual

/-- The instructions that a node stands for. -/
def expandNode (scope : Scope) : Node → Run String
  | .command pos name params context =>
    match commandFault? name params context with
    | some fault => Run.fail pos (.rule fault)
    | none =>
      match Command.ofName? name with
      | none => Run.fail pos (.rule (.unknownCommand name))
      | some command =>
        match command.behavior with
        | .bypass => pure (Node.command pos name params context).render
        | .ignore => pure ""
        | .register => register (.command pos name params context)
        | .specialized =>
          if command = .loop then do
            let count ← loopCount pos name params
            let body ← expandNodes scope context
            Run.lift pos .runtime (repeatText count body)
          else directive files enter scope pos name params command
  | .voice v =>
    match voiceFault? v with
    | some fault => Run.fail v.pos (.rule fault)
    | none => register (.voice v)
  | .phoneme p => phoneme enter scope p
  | .stop _ => pure ""

/-- The instructions that nodes stand for, one after the other. -/
def expandNodes (scope : Scope) : List Node → Run String
  | [] => pure ""
  | n :: ns => do
      let text ← expandNode scope n
      let more ← expandNodes scope ns
      pure (text ++ more)

end

/-- Expands the nodes of a file or phrase, with room for so many more inside. -/
def nest : Nat → Enter
  | 0, _, nodes => Run.fail (nodes.head?.elim {} Node.pos) (.runtime .nestedTooDeep)
  | room + 1, scope, nodes => expandNodes files (nest room) scope nodes

mutual

/-- The number of phrases that a node defines, at any depth. -/
def phraseCount : Node → Nat
  | .command _ name _ context => (if name = "phrase" then 1 else 0) + phraseCounts context
  | .phoneme _ => 0
  | .voice _ => 0
  | .stop _ => 0

/-- The number of phrases that nodes define, at any depth. -/
def phraseCounts : List Node → Nat
  | [] => 0
  | n :: ns => phraseCount n + phraseCounts ns

end

/-- The number of stored phrases and of those that their bodies define. -/
def storedCount : List (String × List Node) → Nat
  | [] => 0
  | (_, body) :: rest => 1 + phraseCounts body + storedCount rest

/-- The number of bytes in texts, of which each phrase takes some. -/
def totalLength : List String → Nat
  | [] => 0
  | text :: rest => text.utf8ByteSize + totalLength rest

/--
Room for all imports and replays that a run can nest: every file once, and every
phrase once that is stored or can be defined by a stored phrase, by the nodes, or
by a text that can be read.
-/
def room (s : Store) (nodes : List Node) : Nat :=
  files.depth + storedCount s.phrases + phraseCounts nodes + totalLength files.texts

end Expansion

end SpeechMarkup
