import SpeechMarkup.Compile
import SpeechMarkup.Disk

/-!
# Compiling on a disk

Sources are read from a disk, find their imports on it, and are compiled into a
file of it.  Every compilation here starts from a new store.

The file that takes the compiled text is emptied before the compilation starts and
is written through a buffer, so a source that imports its own target finds there the
chunks that have left the buffer.  Whatever the result, the file holds the chunks
that were taken in the end.
-/

namespace SpeechMarkup

/-- A text that is written through a buffer. -/
structure Buffered where
  /-- What has left the buffer. -/
  written : String := ""
  /-- What stands in the buffer. -/
  held : String := ""
deriving Repr, DecidableEq

namespace Buffered

/-- How many bytes the buffer holds. -/
def capacity : Nat := 8192

/-- All that was written, in the buffer or not. -/
def text (b : Buffered) : String :=
  b.written ++ b.held

/-- Empties the buffer. -/
def flush (b : Buffered) : Buffered :=
  ⟨b.text, ""⟩

/-- Writes a chunk.  The buffer is emptied if the chunk does not fit behind what it
holds, and a chunk that would fill it alone does not go through it. -/
def write (b : Buffered) (chunk : String) : Buffered :=
  let fitted := if capacity < b.held.utf8ByteSize + chunk.utf8ByteSize then b.flush else b
  if capacity ≤ chunk.utf8ByteSize then ⟨fitted.text ++ chunk, ""⟩
  else { fitted with held := fitted.held ++ chunk }

end Buffered

namespace Source

/-- The source in a file; the places in it are named by the path as given. -/
def read (d : Disk) (path : String) : Except FileFault Source :=
  match d.read path with
  | .ok text => .ok ⟨text, some path⟩
  | .error e => .error e

/-- Compiles a source with the files of a disk. -/
def compileOn (d : Disk) (includes : List String) (source : Source) : Outcome :=
  source.compile d.files {} (Store.new d.workDir includes)

/-- Expands nodes up to the end marker into the file under the given names.  Each node
finds in that file what has left its buffer. -/
def processInto (d : Disk) (names : List String) (scope : Scope) :
    List Node → Buffered → Sink → Store → Outcome
  | [], _, sink, store => ⟨.ok (), sink, store⟩
  | .stop _ :: _, _, sink, store => ⟨.ok (), sink, store⟩
  | n :: ns, target, sink, store =>
    let taken := sink.chunks.size
    let outcome := process (d.put names (.text target.written)).files scope [n] sink store
    match outcome.result with
    | .error e => ⟨.error e, outcome.sink, outcome.store⟩
    | .ok _ =>
      let target := outcome.sink.chunks.foldl Buffered.write target taken
      processInto d names scope ns target outcome.sink outcome.store

/-- Compiles a source into the file at a path; gives the disk that this leaves. -/
def compileInto (d : Disk) (includes : List String) (path : String) (source : Source) :
    Except FileFault (Outcome × Disk) :=
  match d.create path with
  | .error e => .error e
  | .ok (names, d) =>
    let store := Store.new d.workDir includes
    let outcome : Outcome :=
      match Node.ofText source.text source.fileId with
      | .error e => ⟨.error e, {}, store⟩
      | .ok nodes => processInto d names (source.scope store) nodes {} {} store
    .ok (outcome, d.put names (.text outcome.sink.text))

end Source

end SpeechMarkup
