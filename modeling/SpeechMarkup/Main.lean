import SpeechMarkup.CommandLine

/-!
# The program

Loads the files that a run can ask for into a disk, runs on that disk, and carries
out what changed.  A run asks for the files that its arguments and settings name,
for those in the working directory and in `src`, and for those that the strings of
a text it has read name, searched from the directories it searches.
-/

namespace SpeechMarkup

namespace Program

/-- The path of a list of names. -/
def pathOf (names : List String) : String :=
  "/" ++ "/".intercalate names

/-- What stands at a path; anything that cannot be read counts as missing. -/
def entryAt (path : String) : IO (Option Entry) := do
  try
    let real ← IO.FS.realPath path
    match (← real.metadata).type with
    | .dir => return some .directory
    | .file =>
      match String.fromUTF8? (← IO.FS.readBinFile real) with
      | some text => return some (.text text)
      | none => return some .binary
    | _ => return none
  catch _ => return none

/-- Loads what stands under names, unless it is known. -/
def fetch (d : Disk) (names : List String) : IO Disk := do
  if (d.entry? names).isSome then return d
  match ← entryAt (pathOf names) with
  | some e => return d.put names e
  | none => return d

/-- Loads what a path leads to, and everything on the way. -/
def load (d : Disk) (path : String) : IO Disk := do
  let mut d := d
  let mut names : List String := []
  for s in Path.split (Path.join d.workDir path).toList do
    if s = ['.', '.'] then names := names.dropLast
    else if Path.isReal s then
      names := names ++ [String.ofList s]
      d ← fetch d names
  return d

/-- Loads what is in a directory. -/
def loadDir (d : Disk) (dir : String) : IO Disk := do
  let d ← load d dir
  if !d.isDir dir then return d
  let mut d := d
  for e in ← (← IO.FS.realPath (Path.join d.workDir dir)).readDir do
    d ← load d (Path.join dir e.fileName)
  return d

/-- The strings of a text; one without tokens is never expanded. -/
def strings (text : String) : List String :=
  match Token.ofText text "" with
  | .error _ => []
  | .ok tokens => tokens.filterMap fun t =>
      match t.kind with
      | .str s => some s
      | _ => none

/-- The directories that hold loaded files. -/
def fileDirs (d : Disk) : List String :=
  (d.entries.filterMap fun (names, e) =>
    match e with
    | .directory => none
    | _ => some (pathOf names.dropLast)).eraseDups

/-- Loads the files that texts name, then those that these name, and so on. -/
partial def loadNamed (d : Disk) (dirs texts : List String) : IO Disk := do
  let mut more := d
  for text in texts ++ d.texts do
    for name in strings text do
      for dir in dirs ++ fileDirs d do
        more ← load more (Path.absolute dir name)
  if more.entries.length = d.entries.length then return d
  loadNamed more dirs texts

/-- The disk as far as a run with the given options can see it. -/
def snapshot (options : Options) (home : Option String) : IO Disk := do
  let mut d : Disk := ⟨[], (← IO.currentDir).toString⟩
  d ← load d "."
  d ← load d Settings.localFile
  if let some dir := home then d ← load d (Path.join dir Settings.userFile)
  if let some path := options.config then d ← load d path
  let settings := match CommandLine.settings options d home with
    | .ok s => CommandLine.adjust s options
    | .error _ => {}
  let includes := settings.includeDirs
  for path in includes ++ options.sources do
    d ← load d path
  d ← loadDir d settings.buildDir
  if options.sources.isEmpty then
    d ← loadDir d "."
    d ← loadDir d "src"
  let dirs := d.workDir :: includes.map (Path.absolute d.workDir)
  loadNamed d dirs options.sources

/-- Carries out what a run changed. -/
def commit (before after : Disk) : IO Unit := do
  for (names, e) in after.entries do
    if before.entry? names ≠ some e then
      match e with
      | .directory => IO.FS.createDirAll (pathOf names)
      | .text content => IO.FS.writeFile (pathOf names) content
      | .binary => pure ()

/-- What is said of a text that holds no settings. -/
def words (_ : String) : String :=
  "invalid settings"

def levelName : LogLevel → String
  | .warn => "WARN"
  | .error => "ERROR"

end Program

end SpeechMarkup

open SpeechMarkup in
def main (args : List String) : IO UInt32 := do
  let home ← IO.getEnv "HOME"
  let before ← match Request.ofArguments args with
    | .run options => Program.snapshot options home
    | _ => pure ⟨[], "/"⟩
  let report := CommandLine.run args before home Program.words
  Program.commit before report.disk
  IO.print report.stdout
  for (level, message) in report.log do
    IO.eprintln (Program.levelName level ++ " " ++ message)
  if report.exit = 2 then IO.eprintln "For more information, try '--help'."
  return report.exit.toUInt32
