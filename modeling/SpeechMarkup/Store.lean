import SpeechMarkup.Node
import SpeechMarkup.Path

/-!
# Definitions and tempo

The store is what a compilation leaves behind: the length of a beat, where files
are searched, and every phrase, sound and voice defined so far.  Definitions are
write-once.  Phrases and sounds share one space of names, which also holds the
built-in phonemes; voices have a space of their own.
-/

namespace SpeechMarkup

/-- Why a node cannot be stored as a definition. -/
inductive RegistrationFault
  | builtinVoice (name : String)
  | repeatedVoice (name : String)
  | missingName (command : String)
  | isPhoneme (command name : String)
  | isPhrase (command name : String)
  | isSound (command name : String)
  | notDefinition (what : String)
deriving Repr, DecidableEq

def RegistrationFault.message : RegistrationFault → String
  | builtinVoice name => "cannot overwrite default voice '" ++ name ++ "'"
  | repeatedVoice name => "voice '" ++ name ++ "' is already registered"
  | missingName command => command ++ " is missing its name"
  | isPhoneme command name =>
      "cannot register " ++ command ++ " '" ++ name ++ "' - it is a phoneme"
  | isPhrase command name =>
      "cannot register " ++ command ++ " '" ++ name ++ "' - it is already a registered phrase"
  | isSound command name =>
      "cannot register " ++ command ++ " '" ++ name ++ "' - it is already a registered sound"
  | notDefinition what => "cannot register '" ++ what ++ "'"

/-- What a compilation knows. -/
structure Store where
  /-- Milliseconds for one unit of length. -/
  unit : Binary64 := Binary64.ofInt 1
  /-- The working directory, as it was given. -/
  workDir : String
  /-- The directories in which files are searched. -/
  searchDirs : List String
  phrases : List (String × List Node) := []
  sounds : List (String × List Phoneme) := []
  voices : List (String × VoiceSettings) := []
deriving Repr

namespace Store

/-- A store without definitions.  The working directory is searched first, and
other directories are taken relative to it. -/
def new (workDir : String) (includes : List String) : Store :=
  { workDir := workDir
    searchDirs := workDir :: includes.map (Path.absolute workDir) }

/-- Sets the tempo in beats per minute; zero goes back to milliseconds. -/
def setTempo (s : Store) (bpm : Int) : Store :=
  { s with
    unit := if bpm = 0 then Binary64.ofInt 1 else Binary64.ofInt 60000 / Binary64.ofInt bpm }

def phrase? (s : Store) (name : String) : Option (List Node) :=
  s.phrases.lookup name

def sound? (s : Store) (name : String) : Option (List Phoneme) :=
  s.sounds.lookup name

def voice? (s : Store) (name : String) : Option VoiceSettings :=
  s.voices.lookup name

/-- What a phrase or sound cannot be called by the given name for. -/
def nameFault? (s : Store) (command name : String) : Option RegistrationFault :=
  if isBuiltinPhoneme name then some (.isPhoneme command name)
  else if (s.phrase? name).isSome then some (.isPhrase command name)
  else if (s.sound? name).isSome then some (.isSound command name)
  else none

/-- The phonemes among nodes. -/
def phonemes (nodes : List Node) : List Phoneme :=
  nodes.filterMap fun
    | .phoneme p => some p
    | _ => none

def defineVoice (s : Store) (v : Voice) : Except RegistrationFault Store :=
  if isBuiltinVoice v.name then .error (.builtinVoice v.name)
  else if (s.voice? v.name).isSome then .error (.repeatedVoice v.name)
  else
    let settings := VoiceSettings.default.override v.settings
    .ok { s with voices := s.voices ++ [(v.name, settings)] }

/-- Stores the block of a `phrase` or `sound` command under its first parameter. -/
def defineNamed (s : Store) (command : String) (params : List Param) (context : List Node) :
    Except RegistrationFault Store :=
  match params with
  | .str name :: _ =>
    match s.nameFault? command name with
    | some fault => .error fault
    | none =>
      if command = "phrase" then
        .ok { s with phrases := s.phrases ++ [(name, context)] }
      else
        .ok { s with sounds := s.sounds ++ [(name, phonemes context)] }
  | _ => .error (.missingName command)

/-- Stores a definition. -/
def define (s : Store) : Node → Except RegistrationFault Store
  | .voice v => s.defineVoice v
  | .command _ name params context =>
      if name = "phrase" ∨ name = "sound" then s.defineNamed name params context
      else .error (.notDefinition name)
  | .phoneme _ => .error (.notDefinition "phoneme")
  | .stop _ => .error (.notDefinition "phoneme")

end Store

end SpeechMarkup
