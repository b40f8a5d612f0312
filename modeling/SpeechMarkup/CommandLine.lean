import SpeechMarkup.Arguments
import SpeechMarkup.Settings
import SpeechMarkup.Target

/-!
# The command line

A run reads settings, collects sources, and compiles each from a new store, into a
file of the build directory or to standard output.  It is a function of the
arguments and of the disk, and reports what it wrote, what it logged and how it
ended.  `words` are what is said of a text that holds no settings.

`runWith` is a run with settings and options, however these were found.

Sources are the arguments that name files, the arguments that do not (as program
text), or, without arguments, the files with the source suffix in the working
directory and in `src`.
-/

namespace SpeechMarkup

/-- The levels of log lines that a run always shows. -/
inductive LogLevel
  | warn
  | error
deriving Repr, DecidableEq

/-- What a run did. -/
structure Report where
  exit : Nat := 0
  stdout : String := ""
  log : List (LogLevel × String) := []
  disk : Disk
deriving Repr

/-- How a log line shows a character.  Those that a terminal may obey are written by
their codes: escape, bell, backspace, form feed, delete, and the second set of control
characters. -/
def shown (c : Char) : String :=
  let digits := String.ofList (Nat.toDigits 16 c.toNat)
  if c = '\x07' || c = '\x08' || c = '\x0c' then "\\x0" ++ digits
  else if c = '\x1b' || c = '\x7f' then "\\x" ++ digits
  else if 0x80 ≤ c.toNat && c.toNat ≤ 0x9f then "\\u\x7b" ++ digits ++ "\x7d"
  else String.singleton c

/-- A message as a log line shows it. -/
def logText (message : String) : String :=
  String.join (message.toList.map shown)

namespace Report

def warn (r : Report) (message : String) : Report :=
  { r with log := r.log ++ [(.warn, logText message)] }

/-- The run ends with an error. -/
def fail (r : Report) (message : String) : Report :=
  { r with exit := 1, log := r.log ++ [(.error, logText message)] }

end Report

namespace CommandLine

def versionText : String := "opendec 0.1.0\n"

def helpText : String :=
  "Compile OpenDec speech markup into engine instructions

Usage: opendec [OPTIONS] [SOURCES]...

Arguments:
  [SOURCES]...  Source files or inline OpenDec text (default: discover sources)

Options:
  -I, --include <DIR>    Additional include directory for imports and played files
  -o, --build-dir <DIR>  Directory for compiled files
      --stdout           Write compiled output to stdout instead of the build directory
  -v, --verbose...       Increase log verbosity (-v info, -vv debug)
      --config <FILE>    Config file (default: ./opendec.yaml, then ~/.opendec/config.yaml)
  -h, --help             Print help
  -V, --version          Print version
"

/-- The code points that count as blanks in an argument. -/
def isBlank (c : Char) : Bool :=
  let n := c.toNat
  (0x9 ≤ n && n ≤ 0xd) || n = 0x20 || n = 0x85 || n = 0xa0 || n = 0x1680
    || (0x2000 ≤ n && n ≤ 0x200a) || n = 0x2028 || n = 0x2029 || n = 0x202f
    || n = 0x205f || n = 0x3000

/-- Whether an argument that names no file was meant to: it has the source suffix
and no blank. -/
def meansFile (extension arg : String) : Bool :=
  ('.' :: extension.toList).isSuffixOf arg.toList && !arg.toList.any isBlank

/-- Sources collected so far and the report that goes with them, or a report that
ends the run. -/
abbrev Collected := Except Report (List Source × Report)

/-- Adds the file at a path. -/
def readSource (path : String) (sources : List Source) (r : Report) : Collected :=
  match Source.read r.disk path with
  | .ok source => .ok (sources ++ [source], r)
  | .error e => .error (r.fail ("Reading " ++ path ++ ": " ++ e.message))

/-- The sources that arguments name. -/
def collect (extension : String) : List String → List Source → Report → Collected
  | [], sources, r => .ok (sources, r)
  | arg :: args, sources, r =>
    if r.disk.isFile arg then
      match readSource arg sources r with
      | .ok (sources, r) => collect extension args sources r
      | .error r => .error r
    else if meansFile extension arg then
      collect extension args sources
        (r.warn ("skipping missing source file '" ++ arg ++ "'"))
    else collect extension args (sources ++ [⟨arg, none⟩]) r

/-- The paths of the source files in a directory, in the order of their names. -/
def sourceFiles (extension : String) (d : Disk) (dir : String) : List String :=
  if d.isDir dir then
    let names := (d.list dir).filter fun name => (Path.cutSuffix name).2 = some extension
    let paths := (names.mergeSort fun a b => a ≤ b).map fun name => Path.join dir name
    paths.filter d.isFile
  else []

/-- Adds the files at paths. -/
def readSources : List String → List Source → Report → Collected
  | [], sources, r => .ok (sources, r)
  | path :: paths, sources, r =>
    match readSource path sources r with
    | .ok (sources, r) => readSources paths sources r
    | .error r => .error r

/-- The source files of the working directory and of `src`. -/
def discover (extension : String) (r : Report) : Collected :=
  readSources
    (sourceFiles extension r.disk "." ++ sourceFiles extension r.disk "src") [] r

/-- How diagnostics name the `number`th source. -/
def sourceName (source : Source) (number : Nat) : String :=
  match source.path with
  | some path => path
  | none => "inline source #" ++ toString number

/-- Compiles a source to standard output, where it appears if it has no fault. -/
def compileToStdout (settings : Settings) (source : Source) (number : Nat) (r : Report) :
    Except Report Report :=
  let outcome := source.compileOn r.disk settings.includeDirs
  match outcome.result with
  | .ok _ => .ok { r with stdout := r.stdout ++ outcome.sink.text }
  | .error e =>
      .error (r.fail ("Compiling " ++ sourceName source number ++ ": " ++ e.render))

/-- Where the compiled text of a source goes. -/
def target (settings : Settings) (source : Source) (number : Nat) : String :=
  match source.path with
  | some path => settings.compiledPath path
  | none => settings.inlinePath number

/-- Compiles a source into its file, which is emptied before and holds the chunks
before the fault if there is one. -/
def compileToFile (settings : Settings) (source : Source) (number : Nat) (r : Report) :
    Except Report Report :=
  match r.disk.makeDirs settings.buildDir with
  | .error e =>
      .error (r.fail ("Creating build directory " ++ settings.buildDir ++ ": " ++ e.message))
  | .ok d =>
    let path := target settings source number
    match source.compileInto d settings.includeDirs path with
    | .error e =>
        .error ({ r with disk := d }.fail ("Creating " ++ path ++ ": " ++ e.message))
    | .ok (outcome, d) =>
      let r := { r with disk := d }
      match outcome.result with
      | .ok _ => .ok r
      | .error e =>
          .error (r.fail ("Compiling " ++ sourceName source number ++ ": " ++ e.render))

/-- Compiles sources one after the other, up to the first with a fault. -/
def compileAll (settings : Settings) (toStdout : Bool) :
    List Source → Nat → Report → Report
  | [], _, r => r
  | source :: sources, number, r =>
    let step := if toStdout then compileToStdout else compileToFile
    match step settings source number r with
    | .ok r => compileAll settings toStdout sources (number + 1) r
    | .error r => r

/-- The settings with those changed that options change. -/
def adjust (s : Settings) (options : Options) : Settings :=
  { s with
    includeDirs := s.includeDirs ++ options.includes
    buildDir := options.buildDir.getD s.buildDir }

/-- The sources that a run is to compile. -/
def plan (s : Settings) (options : Options) (d : Disk) : Collected :=
  let r : Report := { disk := d }
  match options.includes.find? fun dir => !d.isDir dir with
  | some dir => .error (r.fail ("include directory '" ++ dir ++ "' does not exist"))
  | none =>
    if options.sources.isEmpty then discover s.extension r
    else collect s.extension options.sources [] r

/-- Carries out what options ask for with the settings. -/
def runWith (s : Settings) (options : Options) (d : Disk) : Report :=
  match plan s options d with
  | .error r => r
  | .ok ([], r) => r.warn "no sources to compile"
  | .ok (sources, r) => compileAll (adjust s options) options.toStdout sources 1 r

/-- The settings that options ask for, or those found on the disk.  Without the settings
that were asked for, the fault and the path where it lies. -/
def settings (options : Options) (d : Disk) (home : Option String) :
    Except (String × Settings.Fault) Settings :=
  match options.config with
  | some path => (Settings.read d path).mapError fun fault => (path, fault)
  | none => .ok ((Settings.find? d home).getD {})

/-- Carries out what options ask for. -/
def runOptions (options : Options) (d : Disk) (home : Option String)
    (words : String → String) : Report :=
  match settings options d home with
  | .error (path, fault) =>
      Report.fail { disk := d } ("Reading config " ++ path ++ ": " ++ fault.message words)
  | .ok s => runWith s options d

/-- A run with the given arguments. -/
def run (args : List String) (d : Disk) (home : Option String)
    (words : String → String) : Report :=
  match Request.ofArguments args with
  | .run options => runOptions options d home words
  | .help => { disk := d, stdout := helpText }
  | .version => { disk := d, stdout := versionText }
  | .misuse => { disk := d, exit := 2 }

end CommandLine

end SpeechMarkup
