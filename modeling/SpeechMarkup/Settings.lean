import SpeechMarkup.Disk
import SpeechMarkup.Yaml.Parse

/-!
# Settings

Where files are searched, where compiled text goes, and how source files are
called.  Settings are read from a YAML mapping; a key that is missing keeps its
default, and a key that is not known is passed over.
-/

namespace SpeechMarkup

/-- The settings of the command line. -/
structure Settings where
  /-- Directories searched for files, behind the working directory. -/
  includeDirs : List String := ["lib"]
  /-- Where compiled text is written. -/
  buildDir : String := "build"
  /-- The suffix of source files. -/
  extension : String := "opendec"
deriving Repr, DecidableEq

namespace Settings

/-- The settings file of a project, in the working directory. -/
def localFile : String := "opendec.yaml"

/-- The settings file of a user, in the home directory. -/
def userFile : String := ".opendec/config.yaml"

/-- Why there are no settings. -/
inductive Fault
  | unreadable (cause : FileFault)
  /-- The text is not a mapping, or a value in it is not of its shape. -/
  | invalid (text : String)
deriving Repr, DecidableEq

/-- How a fault is told.  What is wrong with a text is told in the words of those who read
it. -/
def Fault.message (words : String → String) : Fault → String
  | unreadable cause => cause.message
  | invalid text => words text

/-- The text of a scalar. -/
def text? (d : Yaml.Document) (value : Yaml) : Option String :=
  match d.resolve value with
  | .scalar text _ => some text
  | _ => none

/-- The texts of a sequence of scalars; a value that is left out has none. -/
def texts? (d : Yaml.Document) (value : Yaml) : Option (List String) :=
  match d.resolve value with
  | .sequence items => items.mapM (text? d)
  | .scalar text plain => if text.isEmpty && plain then some [] else none
  | _ => none

/-- One entry of the mapping; `seen` holds the keys before it. -/
def set? (s : Settings) (d : Yaml.Document) (seen : List String) (key : String)
    (value : Yaml) : Option Settings :=
  if ["include_dirs", "build_dir", "extension"].contains key then
    if seen.contains key then none
    else if key = "include_dirs" then
      (texts? d value).map fun dirs => { s with includeDirs := dirs }
    else if key = "build_dir" then
      (text? d value).map fun dir => { s with buildDir := dir }
    else
      (text? d value).map fun suffix => { s with extension := suffix }
  else some s

/-- The entries of a mapping, one after the other. -/
def setAll? (s : Settings) (d : Yaml.Document) (seen : List String) :
    List (Yaml × Yaml) → Option Settings
  | [] => some s
  | (key, value) :: rest => do
      let key ← text? d key
      let s ← s.set? d seen key value
      setAll? s d (key :: seen) rest

/-- The settings that a document holds; an empty document holds the defaults. -/
def ofDocument? (d : Yaml.Document) : Option Settings :=
  match d.root with
  | .mapping entries => setAll? {} d [] entries
  | .scalar text plain => if text.isEmpty && plain then some {} else none
  | _ => none

def ofText? (text : String) : Option Settings :=
  (Yaml.Document.ofText? text).bind ofDocument?

/-- The settings in a text, or in one that could not be read. -/
def ofRead : Except FileFault String → Except Fault Settings
  | .error e => .error (.unreadable e)
  | .ok text =>
    match ofText? text with
    | some s => .ok s
    | none => .error (.invalid text)

/-- The settings in a file. -/
def read (d : Disk) (path : String) : Except Fault Settings :=
  ofRead (d.read path)

/-- The settings of the project, or else those of the user, if they are valid. -/
def find? (d : Disk) (home : Option String) : Option Settings :=
  if d.isFile localFile then (read d localFile).toOption
  else home.bind fun dir => (read d (Path.join dir userFile)).toOption

/-- Where the compiled text of a source file goes. -/
def compiledPath (s : Settings) (source : String) : String :=
  Path.join s.buildDir ((Path.stem? source).getD "out" ++ ".opendec.compiled")

/-- Where the compiled text of the `number`th source goes if it is no file. -/
def inlinePath (s : Settings) (number : Nat) : String :=
  Path.join s.buildDir ("inline-" ++ toString number ++ ".opendec.compiled")

end Settings

end SpeechMarkup
