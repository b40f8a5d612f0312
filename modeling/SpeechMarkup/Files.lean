import SpeechMarkup.Path

/-!
# What can be read

A run reads files through `Files`: which paths name a file, and what each holds.
Two things are known of every such collection, and both are part of its type:

* `depth` bounds the number of different paths that name files, so that imports
  cannot nest without end;
* `texts` lists what reading can give.

`Listing` is a collection kept in memory.  It is kept under normal paths, whichever way
they are written, and a look-up asks for a normal path.
-/

namespace SpeechMarkup

/-- Why a file cannot be read or written. -/
inductive FileFault
  /-- A listed file has no contents. -/
  | absent
  | notFound
  | exists
  | notDirectory
  | isDirectory
  | nameTooLong
  /-- The contents are not UTF-8. -/
  | notText
deriving Repr, DecidableEq

def FileFault.message : FileFault → String
  | absent => "no such file"
  | notFound => "No such file or directory (os error 2)"
  | .exists => "File exists (os error 17)"
  | notDirectory => "Not a directory (os error 20)"
  | isDirectory => "Is a directory (os error 21)"
  | nameTooLong => "File name too long (os error 36)"
  | notText => "stream did not contain valid UTF-8"

/-- What a look-up finds is an entry of the list. -/
theorem mem_of_lookup_eq_some
    {α β : Type}
    [BEq α]
    [LawfulBEq α]
    {entries : List (α × β)}
    {key : α}
    {value : β}
    (h : entries.lookup key = some value) :
    (key, value) ∈ entries := by
  obtain ⟨before, after, rfl, -⟩ := List.lookup_eq_some_iff.1 h
  exact List.mem_append_right before List.mem_cons_self

/-- Files that can be read. -/
structure Files where
  isFile : String → Bool
  read : String → Except FileFault String
  /-- No more than this many different paths name files. -/
  depth : Nat
  /-- Every text that reading a file gives is among these. -/
  texts : List String
  length_le_depth :
    ∀ chain : List String, chain.Nodup → (∀ p ∈ chain, isFile p = true) →
      chain.length ≤ depth
  mem_texts : ∀ path text, read path = .ok text → text ∈ texts

/-- Files kept in memory under normal paths.  A path without a text names a file that
cannot be read. -/
structure Listing where
  entries : List (String × Option String)
deriving Repr, DecidableEq

namespace Listing

def remove (l : Listing) (path : String) : Listing :=
  ⟨l.entries.filter (·.1 ≠ Path.normal path)⟩

/-- Sets what is listed under a path. -/
def write (l : Listing) (path : String) (text : Option String) : Listing :=
  ⟨(l.remove path).entries ++ [(Path.normal path, text)]⟩

def ofList (entries : List (String × Option String)) : Listing :=
  entries.foldl (fun l (path, text) => l.write path text) ⟨[]⟩

def isFile (l : Listing) (path : String) : Bool :=
  (l.entries.lookup path).isSome

def read (l : Listing) (path : String) : Except FileFault String :=
  match l.entries.lookup path with
  | some (some text) => .ok text
  | _ => .error .absent

def texts (l : Listing) : List String :=
  l.entries.filterMap (·.2)

theorem length_le_of_isFile
    (l : Listing)
    (chain : List String)
    (hnodup : chain.Nodup)
    (hfile : ∀ p ∈ chain, l.isFile p = true) :
    chain.length ≤ l.entries.length := by
  have hsub : chain ⊆ l.entries.map (·.1) := by
    intro p hp
    obtain ⟨text, htext⟩ := Option.isSome_iff_exists.1 (hfile p hp)
    exact List.mem_map_of_mem (f := (·.1)) (mem_of_lookup_eq_some htext)
  simpa using hnodup.length_le_of_subset hsub

theorem mem_texts
    (l : Listing)
    (path text : String)
    (h : l.read path = .ok text) :
    text ∈ l.texts := by
  unfold read at h
  split at h
  · rename_i t ht
    obtain rfl := Except.ok.inj h
    exact List.mem_filterMap.2 ⟨_, mem_of_lookup_eq_some ht, rfl⟩
  · cases h

/-- A listing as files to read from. -/
def files (l : Listing) : Files where
  isFile := l.isFile
  read := l.read
  depth := l.entries.length
  texts := l.texts
  length_le_depth := l.length_le_of_isFile
  mem_texts := l.mem_texts

end Listing

end SpeechMarkup
