/-!
# File paths

Paths are texts whose segments are divided by slashes.  Two texts can mean the
same path: repeated slashes, a slash at the end and segments that are a single
dot say nothing, except for a dot at the very start of a relative path.

* `Path.normal` drops what says nothing; a segment of two dots stays.
* `Path.absolute` places a path under a directory and drops what says nothing.
* `Path.parent?`, `Path.fileName?` and `Path.stem?` take a text apart as it is
  written.
-/

namespace SpeechMarkup
namespace Path

/-- The segments of a path; there is one more than there are slashes. -/
def split : List Char → List (List Char)
  | [] => [[]]
  | c :: cs =>
      if c = '/' then [] :: split cs
      else
        match split cs with
        | [] => [[c]]
        | s :: ss => (c :: s) :: ss

/-- Segments with slashes between them. -/
def unsplit : List (List Char) → List Char
  | [] => []
  | [s] => s
  | s :: ss => s ++ '/' :: unsplit ss

/-- Whether a segment names something: it is neither empty nor a single dot. -/
def isReal (s : List Char) : Bool :=
  !s.isEmpty && s ≠ ['.']

/-- How a path starts. -/
inductive Lead
  /-- With a slash. -/
  | root
  /-- With a segment that is a single dot. -/
  | here
  /-- With any other segment. -/
  | bare
deriving Repr, DecidableEq

/-- How a path starts, and the segments behind that. -/
def anatomy (cs : List Char) : Lead × List (List Char) :=
  match cs with
  | '/' :: rest => (.root, split rest)
  | cs =>
    match split cs with
    | ['.'] :: body => (.here, body)
    | body => (.bare, body)

/-- The path that starts with `lead` and goes on with `body`. -/
def assemble (lead : Lead) (body : List (List Char)) : List Char :=
  match lead with
  | .root => '/' :: unsplit body
  | .here => unsplit (['.'] :: body)
  | .bare => unsplit body

/-- A path without what says nothing. -/
def normal (path : String) : String :=
  let (lead, body) := anatomy path.toList
  String.ofList (assemble lead (body.filter isReal))

def isAbsolute (path : String) : Bool :=
  path.toList.head? = some '/'

/-- `path` placed under `base`; a path that starts with a slash stands alone. -/
def join (base path : String) : String :=
  if isAbsolute path then path
  else if base.isEmpty || base.toList.getLast? = some '/' then base ++ path
  else base ++ "/" ++ path

/-- `path` under `base`, without what says nothing. -/
def absolute (base path : String) : String :=
  normal (join base path)

/-- Segments without those at the end that say nothing. -/
def trimEnd (body : List (List Char)) : List (List Char) :=
  (body.reverse.dropWhile fun s => !isReal s).reverse

/-- The text before the last segment that names something. -/
def parent? (path : String) : Option String :=
  let (lead, body) := anatomy path.toList
  let named := trimEnd body
  if named.isEmpty then
    if lead = .here then some "" else none
  else
    some (String.ofList (assemble lead (trimEnd named.dropLast)))

/-- The last segment, if it names something other than the directory above. -/
def fileName? (path : String) : Option String :=
  let (_, body) := anatomy path.toList
  match (trimEnd body).getLast? with
  | some s => if s = ['.', '.'] then none else some (String.ofList s)
  | none => none

/-- A file name cut at its last dot; a dot at its start does not count. -/
def cutSuffix (name : String) : String × Option String :=
  let back := name.toList.reverse
  match back.dropWhile (· ≠ '.') with
  | [] => (name, none)
  | _ :: before =>
      if before.isEmpty then (name, none)
      else
        (String.ofList before.reverse,
          some (String.ofList (back.takeWhile (· ≠ '.')).reverse))

/-- The file name without its suffix. -/
def stem? (path : String) : Option String :=
  (fileName? path).map fun name => (cutSuffix name).1

end Path
end SpeechMarkup
