import SpeechMarkup.Command.Rules
import SpeechMarkup.Files
import SpeechMarkup.Node.Parse
import SpeechMarkup.Store
import SpeechMarkup.Token.Scan

/-!
# Diagnostics

A compilation stops at its first fault.  A fault belongs to one of seven kinds,
and is reported with the place it belongs to.
-/

namespace SpeechMarkup

/-- Why a name cannot be resolved. -/
inductive ResolutionFault
  | circularImport (path : String)
  | missingImport (name : String)
  | missingSound (name : String)
  | unknownVoice (name : String)
  | selfReference (name : String)
  | unknownSymbol (symbol : String)
deriving Repr, DecidableEq

def ResolutionFault.message : ResolutionFault → String
  | circularImport path => "circular import of '" ++ path ++ "'"
  | missingImport name => "could not import file '" ++ name ++ "' - file not found"
  | missingSound name => "could not play file '" ++ name ++ "' - file not found"
  | unknownVoice name => "voice '" ++ name ++ "' is not defined"
  | selfReference name => "phrase '" ++ name ++ "' refers to itself"
  | unknownSymbol symbol => "unrecognized phoneme, sound, or phrase '" ++ symbol ++ "'"

/-- Why a program that is well formed cannot be carried out. -/
inductive RuntimeFault
  | loopTooLarge (count bytes : Nat)
  | soundTooShort (sound : String) (minimum got : Int)
  | soundWithoutVowels (sound : String)
  /-- Imports and replays are nested beyond the room that was set aside. -/
  | nestedTooDeep
deriving Repr, DecidableEq

def RuntimeFault.message : RuntimeFault → String
  | loopTooLarge count bytes =>
      "loop x" ++ toString count ++ " of " ++ toString bytes ++ " bytes is too large to expand"
  | soundTooShort sound minimum got =>
      "sound '" ++ sound ++ "' must have minimum length " ++ toString minimum ++ "ms - got "
        ++ toString got ++ "ms"
  | soundWithoutVowels sound => "sound '" ++ sound ++ "' has no vowels"
  | nestedTooDeep => "imports and phrases are nested too deep"

/-- Why reading a file or writing compiled text failed. -/
inductive IoFault
  | unreadable (path : String) (cause : FileFault)
  | sinkFull
deriving Repr, DecidableEq

def IoFault.message : IoFault → String
  | unreadable path cause => "could not read '" ++ path ++ "': " ++ cause.message
  | sinkFull => "could not write compiled output: sink is full"

/-- Why a compilation stops. -/
inductive Fault
  | lexical (fault : LexFault)
  | grammar (fault : SyntaxFault)
  | rule (fault : RuleFault)
  | registration (fault : RegistrationFault)
  | resolution (fault : ResolutionFault)
  | runtime (fault : RuntimeFault)
  | io (fault : IoFault)
deriving Repr, DecidableEq

namespace Fault

/-- The kind of a fault. -/
def kind : Fault → String
  | lexical _ => "LexError"
  | grammar _ => "SyntaxError"
  | rule _ => "ValidationError"
  | registration _ => "RegistrationError"
  | resolution _ => "ResolutionError"
  | runtime _ => "RuntimeError"
  | io _ => "IoError"

def message : Fault → String
  | lexical f => f.message
  | grammar f => f.message
  | rule f => f.message
  | registration f => f.message
  | resolution f => f.message
  | runtime f => f.message
  | io f => f.message

end Fault

/-- A fault and where it is reported. -/
abbrev Diagnostic := Located Fault

namespace Diagnostic

def kind (d : Diagnostic) : String :=
  d.value.kind

def message (d : Diagnostic) : String :=
  d.value.message

def render (d : Diagnostic) : String :=
  "[" ++ d.pos.render ++ "] " ++ d.kind ++ ": " ++ d.message

end Diagnostic

/-- The nodes of a text whose places name `file`. -/
def Node.ofText (text file : String) : Except Diagnostic (List Node) :=
  match Token.ofText text file with
  | .error e => .error ⟨e.pos, .lexical e.value⟩
  | .ok tokens =>
    match Node.ofTokens tokens with
    | .error e => .error ⟨e.pos, .grammar e.value⟩
    | .ok nodes => .ok nodes

end SpeechMarkup
