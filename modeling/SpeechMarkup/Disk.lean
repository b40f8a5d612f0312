import SpeechMarkup.Files
import SpeechMarkup.Path

/-!
# Directory trees

A disk holds files and directories under the names that lead to them from the
root, and has a working directory for relative paths.  There are no links, so a
path is followed by walking its segments: two dots lead one directory up, and
every segment but the last has to be a directory.

A path of `pathLimit` bytes or more names nothing.  This is what bounds the number
of paths that name files (`Disk.length_le_of_isFile`), since one file has a path
through every detour that two dots allow.
-/

namespace SpeechMarkup

/-- What stands under a name. -/
inductive Entry
  | text (content : String)
  /-- A file whose bytes are not UTF-8. -/
  | binary
  | directory
deriving Repr, DecidableEq

/-- Paths have fewer bytes than this. -/
def pathLimit : Nat := 4096

/-- Names in a directory have at most this many bytes. -/
def nameLimit : Nat := 255

/-- A directory tree and a place in it. -/
structure Disk where
  /-- Files and directories under the names that lead to them. -/
  entries : List (List String × Entry)
  /-- The absolute path of the working directory. -/
  workDir : String
deriving Repr, DecidableEq

namespace Disk

/-- What stands at the end of a list of names; the root is a directory. -/
def entry? (d : Disk) (names : List String) : Option Entry :=
  if names.isEmpty then some .directory else d.entries.lookup names

/-- Follows segments from the directory `at`. -/
def walk (d : Disk) : List (List Char) → List String → Except FileFault (List String)
  | [], here => .ok here
  | s :: ss, here =>
    if d.entry? here ≠ some .directory then .error .notDirectory
    else if !Path.isReal s then d.walk ss here
    else if s = ['.', '.'] then d.walk ss here.dropLast
    else
      let name := String.ofList s
      if nameLimit < name.utf8ByteSize then .error .nameTooLong
      else
        match d.entry? (here ++ [name]) with
        | none => .error .notFound
        | some _ => d.walk ss (here ++ [name])

/-- The directory that a path starts from. -/
def base (d : Disk) (path : String) : Except FileFault (List String) :=
  if pathLimit ≤ path.utf8ByteSize then .error .nameTooLong
  else if path.isEmpty then .error .notFound
  else if Path.isAbsolute path then .ok []
  else d.walk (Path.split d.workDir.toList) []

/-- The names that a path leads to. -/
def resolve (d : Disk) (path : String) : Except FileFault (List String) :=
  match d.base path with
  | .error e => .error e
  | .ok here => d.walk (Path.split path.toList) here

/-- What a path leads to. -/
def lookup (d : Disk) (path : String) : Option Entry :=
  match d.resolve path with
  | .ok names => d.entry? names
  | .error _ => none

def isFile (d : Disk) (path : String) : Bool :=
  match d.lookup path with
  | some (.text _) => true
  | some .binary => true
  | _ => false

def isDir (d : Disk) (path : String) : Bool :=
  d.lookup path = some .directory

/-- The text of a file. -/
def read (d : Disk) (path : String) : Except FileFault String :=
  match d.resolve path with
  | .error e => .error e
  | .ok names =>
    match d.entry? names with
    | some (.text content) => .ok content
    | some .binary => .error .notText
    | some .directory => .error .isDirectory
    | none => .error .notFound

/-- The names in a directory. -/
def list (d : Disk) (path : String) : List String :=
  match d.resolve path with
  | .error _ => []
  | .ok names =>
    d.entries.filterMap fun (key, _) =>
      match key.getLast? with
      | some name => if key.dropLast = names then some name else none
      | none => none

section Reading

/-- The texts of all files. -/
def texts (d : Disk) : List String :=
  d.entries.filterMap fun (_, e) =>
    match e with
    | .text content => some content
    | _ => none

theorem mem_texts
    (d : Disk)
    (path text : String)
    (h : d.read path = .ok text) :
    text ∈ d.texts := by
  unfold read at h
  split at h
  · cases h
  · rename_i names _
    split at h
    · rename_i content hentry
      obtain rfl := Except.ok.inj h
      unfold entry? at hentry
      split at hentry
      · cases hentry
      · exact List.mem_filterMap.2 ⟨_, mem_of_lookup_eq_some hentry, rfl⟩
    · cases h
    · cases h
    · cases h

/-- The characters below a code point. -/
noncomputable def charsBelow (bound : Nat) : List Char :=
  (List.range bound).map Char.ofNat

/-- The texts of at most so many characters, each below a code point. -/
noncomputable def textsBelow (bound : Nat) : Nat → List (List Char)
  | 0 => [[]]
  | n + 1 => [] :: (charsBelow bound).flatMap fun c => (textsBelow bound n).map (c :: ·)

theorem mem_charsBelow
    {bound : Nat}
    {c : Char}
    (h : c.toNat < bound) :
    c ∈ charsBelow bound :=
  List.mem_map.2 ⟨c.toNat, List.mem_range.2 h, Char.ofNat_toNat c⟩

theorem mem_textsBelow
    {bound : Nat} :
    ∀ (n : Nat) (cs : List Char), (∀ c ∈ cs, c.toNat < bound) → cs.length ≤ n →
      cs ∈ textsBelow bound n
  | 0, cs, _, h => by
      obtain rfl := List.length_eq_zero_iff.1 (Nat.le_zero.1 h)
      simp [textsBelow]
  | n + 1, [], _, _ => by simp [textsBelow]
  | n + 1, c :: cs, hc, h => by
      have htail := mem_textsBelow n cs
        (fun d hd => hc d (List.mem_cons_of_mem _ hd)) (Nat.le_of_succ_le_succ h)
      have hhead := mem_charsBelow (hc c (by simp))
      refine List.mem_cons_of_mem _ (List.mem_flatMap.2 ⟨c, hhead, ?_⟩)
      exact List.mem_map.2 ⟨cs, htail, rfl⟩

theorem length_flatMap_map
    (cs : List Char)
    (ts : List (List Char)) :
    (cs.flatMap fun c => ts.map (c :: ·)).length = cs.length * ts.length := by
  induction cs with
  | nil => simp
  | cons c cs ih => simp [ih, Nat.succ_mul, Nat.add_comm]

theorem length_textsBelow_le (bound n : Nat) :
    (textsBelow bound n).length ≤ Nat.pow (bound + 1) n := by
  induction n with
  | zero => simp [textsBelow]
  | succ n ih =>
      have hpos : 0 < Nat.pow (bound + 1) n := Nat.pow_pos (Nat.succ_pos _)
      have hchars : (charsBelow bound).length = bound := by simp [charsBelow]
      have hmul := Nat.mul_le_mul_left bound ih
      have hpow : Nat.pow (bound + 1) (n + 1) =
          bound * Nat.pow (bound + 1) n + Nat.pow (bound + 1) n := by
        rw [← Nat.succ_mul]
        exact Nat.mul_comm _ _
      simp only [textsBelow, List.length_cons, length_flatMap_map, hchars]
      omega

theorem toNat_lt (c : Char) : c.toNat < 0x110000 := by
  have hvalid := c.valid
  simp only [UInt32.isValidChar, Nat.isValidChar] at hvalid
  show c.val.toNat < _
  omega

theorem length_toList_le (s : String) : s.toList.length ≤ s.utf8ByteSize := by
  have hlist : ∀ cs : List Char, cs.length ≤ (String.ofList cs).utf8ByteSize := by
    intro cs
    induction cs with
    | nil => simp
    | cons c cs ih =>
        have hpos := Char.utf8Size_pos c
        have happ : String.ofList (c :: cs) = String.singleton c ++ String.ofList cs := by
          apply String.toList_injective
          simp
        rw [happ, String.utf8ByteSize_append, String.utf8ByteSize_singleton]
        simp only [List.length_cons]
        omega
  simpa using hlist s.toList

theorem utf8ByteSize_lt_of_isFile
    {d : Disk}
    {path : String}
    (h : d.isFile path = true) :
    path.utf8ByteSize < pathLimit := by
  refine Decidable.byContradiction fun hlong => ?_
  simp [isFile, lookup, resolve, base, Nat.not_lt.1 hlong] at h

/-- More than the number of paths. -/
def pathCount : Nat := Nat.pow (0x110000 + 1) pathLimit

theorem length_le_of_isFile
    (d : Disk)
    (chain : List String)
    (hnodup : chain.Nodup)
    (hfile : ∀ p ∈ chain, d.isFile p = true) :
    chain.length ≤ pathCount := by
  have hsub : chain ⊆ (textsBelow 0x110000 pathLimit).map String.ofList := by
    intro p hp
    have hbytes := utf8ByteSize_lt_of_isFile (hfile p hp)
    have hlen := Nat.le_trans (length_toList_le p) (Nat.le_of_lt hbytes)
    have hmem := mem_textsBelow pathLimit p.toList (fun c _ => toNat_lt c) hlen
    exact List.mem_map.2 ⟨p.toList, hmem, by simp⟩
  have hle := hnodup.length_le_of_subset hsub
  rw [List.length_map] at hle
  unfold pathCount
  exact Nat.le_trans hle (length_textsBelow_le 0x110000 pathLimit)

/-- A disk as files to read from. -/
def files (d : Disk) : Files where
  isFile := d.isFile
  read := d.read
  depth := pathCount
  texts := d.texts
  length_le_depth := d.length_le_of_isFile
  mem_texts := d.mem_texts

end Reading

section Writing

/-- Puts an entry under names, in the place of an earlier one. -/
def put (d : Disk) (names : List String) (e : Entry) : Disk :=
  if d.entries.any (·.1 = names) then
    { d with entries := d.entries.map fun p => if p.1 = names then (names, e) else p }
  else { d with entries := d.entries ++ [(names, e)] }

/-- Puts an entry under names, with the directories above it. -/
def add (d : Disk) (names : List String) (e : Entry) : Disk :=
  let above := (List.range names.length).map fun n => names.take n
  let d := above.foldl
    (fun d dir => if (d.entry? dir).isSome then d else d.put dir .directory) d
  d.put names e

/-- The names that the last segment of a path stands for, whether it exists or
not; no names if it is no name of its own. -/
def place (d : Disk) (path : String) : Except FileFault (Option (List String)) :=
  let segments := Path.split path.toList
  match d.base path with
  | .error e => .error e
  | .ok here =>
    match d.walk segments.dropLast here with
    | .error e => .error e
    | .ok dir =>
      if d.entry? dir ≠ some .directory then .error .notDirectory
      else
        match segments.getLast? with
        | none => .ok none
        | some s =>
          if !Path.isReal s || s = ['.', '.'] then .ok none
          else if nameLimit < (String.ofList s).utf8ByteSize then .error .nameTooLong
          else .ok (some (dir ++ [String.ofList s]))

/-- A path without slashes at its end, unless it has nothing else. -/
def dropEndSlashes (path : String) : String :=
  let kept := (path.toList.reverse.dropWhile (· = '/')).reverse
  if kept.isEmpty then path else String.ofList kept

/-- Makes an empty file, or empties one; gives the names it stands under.  A path
with a slash at its end can only name a directory. -/
def create (d : Disk) (path : String) : Except FileFault (List String × Disk) :=
  match d.place (dropEndSlashes path) with
  | .error e => .error e
  | .ok none => .error .isDirectory
  | .ok (some names) =>
    if path.toList.getLast? = some '/' || d.entry? names = some .directory then
      .error .isDirectory
    else .ok (names, d.put names (.text ""))

/-- Makes one directory. -/
def makeDir (d : Disk) (path : String) : Except FileFault Disk :=
  match d.place (dropEndSlashes path) with
  | .error e => .error e
  | .ok none => .error .exists
  | .ok (some names) =>
    if (d.entry? names).isSome then .error .exists else .ok (d.put names .directory)

/-- Makes a directory and those above it that are missing; a directory that is
there already is no fault.  `fuel` bounds the number of directories above. -/
def makeDirsWith (d : Disk) (path : String) : Nat → Except FileFault Disk
  | 0 => .error .notFound
  | fuel + 1 =>
    if path.isEmpty then .ok d
    else
      match d.makeDir path with
      | .ok d => .ok d
      | .error .notFound =>
        match Path.parent? path with
        | none => .error .notFound
        | some above =>
          match d.makeDirsWith above fuel with
          | .error e => .error e
          | .ok d =>
            match d.makeDir path with
            | .ok d => .ok d
            | .error e => if d.isDir path then .ok d else .error e
      | .error e => if d.isDir path then .ok d else .error e

/-- Makes a directory and those above it that are missing. -/
def makeDirs (d : Disk) (path : String) : Except FileFault Disk :=
  d.makeDirsWith path (path.length + 1)

/-- The text files of `d` that `before` does not hold in the same way. -/
def changes (before d : Disk) : List (List String × String) :=
  d.entries.filterMap fun (names, e) =>
    match e with
    | .text content =>
        if before.entry? names = some (.text content) then none else some (names, content)
    | _ => none

end Writing

end Disk

end SpeechMarkup
