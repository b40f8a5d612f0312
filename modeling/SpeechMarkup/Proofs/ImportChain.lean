import SpeechMarkup.Proofs.Nesting
import SpeechMarkup.Proofs.Paths
import SpeechMarkup.Target

/-!
# The files being read

An import is refused if its path is one of those being read.  Paths are compared as
texts, and a text keeps its segments of two dots.

* `Disk.sameFile_iff`: on a disk, paths from the root are paths of the same file if they
  lead to the same names.
* `Scope.Placed` is the invariant on scopes: the paths being read are different and clean.
* `Expansion.refused_iff`: which imports are refused.
* `importChain_iff` is the main result.  The comparison of texts tells files apart as long
  as no path goes up, and `importChain_up` is a file that is read inside itself.
-/

namespace SpeechMarkup

namespace Disk

section SameFile

variable {d : Disk} {p q : String}

/-- Two paths lead to one file. -/
def SameFile (d : Disk) (p q : String) : Prop :=
  d.isFile p = true ∧ d.resolve p = d.resolve q

theorem walk_eq_ok
    {segs : List (List Char)}
    {here names : List String}
    (h : d.walk segs here = .ok names) :
    names = (segs.filter Path.isReal).foldl Path.follow here := by
  induction segs generalizing here with
  | nil =>
      rw [walk] at h
      exact (Except.ok.inj h).symm
  | cons s segs ih =>
      rw [walk] at h
      split at h
      · cases h
      · split at h
        · rename_i hreal
          rw [List.filter_cons_of_neg (by simpa using hreal)]
          exact ih h
        · rename_i hreal
          rw [List.filter_cons_of_pos (by simpa using hreal), List.foldl_cons, Path.follow]
          split at h
          · rename_i hup
            rw [if_pos hup]
            exact ih h
          · rename_i hup
            rw [if_neg hup]
            dsimp only at h
            split at h
            · cases h
            · split at h
              · cases h
              · exact ih h

/-- A path from the root leads where its text says. -/
theorem resolve_eq_ok
    {names : List String}
    (hp : Path.isAbsolute p = true)
    (h : d.resolve p = .ok names) :
    names = Path.names p := by
  unfold resolve base at h
  rw [if_pos hp] at h
  split at h
  · cases h
  · rename_i here hhere
    split at hhere
    · cases hhere
    · split at hhere
      · cases hhere
      · obtain rfl := Except.ok.inj hhere
        exact walk_eq_ok h

theorem resolve_of_isFile
    (h : d.isFile p = true) :
    ∃ names, d.resolve p = .ok names ∧ names ≠ [] := by
  unfold isFile lookup at h
  cases hnames : d.resolve p with
  | error e => simp [hnames] at h
  | ok names =>
      refine ⟨names, rfl, ?_⟩
      rintro rfl
      simp [hnames, entry?] at h

theorem SameFile.names_eq
    (hp : Path.isAbsolute p = true)
    (hq : Path.isAbsolute q = true)
    (h : d.SameFile p q) :
    Path.names p = Path.names q := by
  obtain ⟨hfile, heq⟩ := h
  obtain ⟨names, hnames, -⟩ := resolve_of_isFile hfile
  rw [← resolve_eq_ok hp hnames, ← resolve_eq_ok hq (heq ▸ hnames)]

theorem SameFile.isFile
    (h : d.SameFile p q) :
    d.isFile q = true := by
  obtain ⟨hfile, heq⟩ := h
  unfold Disk.isFile lookup at hfile ⊢
  rwa [← heq]

/-- Paths from the root to files are paths of the same file if they lead to the same
names. -/
theorem sameFile_iff
    (hp : Path.isAbsolute p = true)
    (hq : Path.isAbsolute q = true) :
    d.SameFile p q ↔
      d.isFile p = true ∧ d.isFile q = true ∧ Path.names p = Path.names q := by
  constructor
  · intro h
    exact ⟨h.1, h.isFile, h.names_eq hp hq⟩
  · rintro ⟨hfile, hfile', hnames⟩
    obtain ⟨names, hp', -⟩ := resolve_of_isFile hfile
    obtain ⟨names', hq', -⟩ := resolve_of_isFile hfile'
    refine ⟨hfile, ?_⟩
    rw [hp', hq', resolve_eq_ok hp hp', resolve_eq_ok hq hq', hnames]

/-- A file lies in a directory with a path. -/
theorem exists_parent_of_isFile
    (hp : Path.isAbsolute p = true)
    (hfile : d.isFile p = true) :
    ∃ parent, Path.parent? p = some parent := by
  cases hparent : Path.parent? p with
  | some parent => exact ⟨parent, rfl⟩
  | none =>
      obtain ⟨names, hnames, hne⟩ := resolve_of_isFile hfile
      refine absurd (resolve_eq_ok hp hnames) ?_
      rw [Path.names, Path.segments_eq_nil_of_parent? hp hparent]
      exact hne

end SameFile

end Disk

section Places

/-- A store that searches where a new store with these directories does. -/
def Store.Searches (workDir : String) (includes : List String) (s : Store) : Prop :=
  s.workDir = workDir ∧ s.searchDirs = (Store.new workDir includes).searchDirs

theorem Store.Searches.new (workDir : String) (includes : List String) :
    (Store.new workDir includes).Searches workDir includes :=
  ⟨rfl, rfl⟩

variable {workDir : String} {includes : List String}

theorem Store.Searches.define
    {s t : Store}
    {n : Node}
    (h : s.Searches workDir includes)
    (hdefine : s.define n = .ok t) :
    t.Searches workDir includes := by
  rcases Store.define_eq_ok hdefine with
    ⟨pos, name, more, context, rfl, -, rfl⟩ | ⟨pos, name, more, context, rfl, -, rfl⟩ |
    ⟨v, rfl, -, -, rfl⟩
  · exact h
  · exact h
  · exact h

theorem Store.Searches.isAbsolute
    {s : Store}
    (hwork : Path.isAbsolute workDir = true)
    (h : s.Searches workDir includes)
    {dir : String}
    (hdir : dir ∈ s.searchDirs) :
    Path.isAbsolute dir = true := by
  rw [h.2] at hdir
  rcases List.mem_cons.1 hdir with rfl | hdir
  · exact hwork
  · obtain ⟨path, -, rfl⟩ := List.mem_map.1 hdir
    exact (Path.clean_absolute path hwork).isAbsolute

/-- A scope whose directory is given from the root, and whose files are read under
different clean paths. -/
structure Scope.Placed (scope : Scope) : Prop where
  dir : Path.isAbsolute scope.dir = true
  clean : ∀ p ∈ scope.reading, Path.Clean p
  nodup : scope.reading.Nodup

theorem Source.placed_scope
    (source : Source)
    {store : Store}
    (hwork : Path.isAbsolute workDir = true)
    (hstore : store.Searches workDir includes) :
    (source.scope store).Placed := by
  have hstart : Path.isAbsolute store.workDir = true := hstore.1 ▸ hwork
  cases hpath : source.path with
  | none =>
      simp only [Source.scope, hpath, Scope.start]
      exact ⟨hstart, by simp, by simp⟩
  | some path =>
      have hclean := Path.clean_absolute path hstart
      simp only [Source.scope, hpath, Scope.start, Scope.forFile]
      refine ⟨?_, by simpa using hclean, by simp⟩
      cases hparent : Path.parent? (Path.absolute store.workDir path) with
      | none => exact hstart
      | some parent => exact Path.isAbsolute_of_parent? hclean.isAbsolute hparent

end Places

namespace Expansion

section Chain

variable {d : Disk} {workDir : String} {includes : List String}
variable {scope inner : Scope} {nodes body : List Node} {s u : Store}

/-- Files are found under clean paths. -/
theorem locate_clean
    {files : Files}
    {name path : String}
    (hwork : Path.isAbsolute workDir = true)
    (hscope : scope.Placed)
    (hs : s.Searches workDir includes)
    (h : locate files scope s name = some path) :
    Path.Clean path := by
  obtain ⟨dir, hdir, rfl⟩ := List.mem_map.1 (List.mem_of_find?_eq_some h)
  have habsolute : Path.isAbsolute dir = true := by
    rcases List.mem_cons.1 hdir with rfl | hdir
    · exact hscope.dir
    · exact hs.isAbsolute hwork hdir
  exact Path.clean_absolute name habsolute

/-- Importing a file keeps a scope placed. -/
theorem placed_enterFile?
    {path : String}
    (hscope : scope.Placed)
    (hclean : Path.Clean path)
    (hfile : d.isFile path = true)
    (h : scope.enterFile? path = some inner) :
    inner.Placed := by
  obtain ⟨hfresh, rfl⟩ := Scope.enterFile?_eq_some h
  obtain ⟨parent, hparent⟩ := Disk.exists_parent_of_isFile hclean.isAbsolute hfile
  refine ⟨?_, ?_, List.nodup_cons.2 ⟨hfresh, hscope.nodup⟩⟩
  · rw [hparent]
    exact Path.isAbsolute_of_parent? hclean.isAbsolute hparent
  · exact List.forall_mem_cons.2 ⟨hclean, hscope.clean⟩

theorem nest_searches
    (files : Files)
    (room : Nat)
    (scope : Scope)
    (nodes : List Node) :
    (nest files room scope nodes).Keeps (Store.Searches workDir includes)
      (fun _ => True) fun _ => True :=
  nest_keeps_store (fun _ _ _ hs _ ht => hs.define ht) (fun _ _ hs => hs) room scope nodes

/-- A call keeps what is known of the scope and the store. -/
theorem Calls.placed
    {room : Nat}
    (hwork : Path.isAbsolute workDir = true)
    (hscope : scope.Placed)
    (hs : s.Searches workDir includes)
    (h : Calls d.files (nest d.files room) scope nodes s inner body u) :
    inner.Placed ∧ u.Searches workDir includes := by
  induction h with
  | @next n ns body s t u text inner hrun _ ih =>
      have hkeeps : (expandNode d.files (nest d.files room) scope n).Keeps
          (Store.Searches workDir includes) (fun _ => True) fun _ => True :=
        expandNode_keeps_store (fun _ _ _ hs _ ht => hs.define ht) (fun _ _ hs => hs)
          (nest_searches d.files room) n
      have ht := (hkeeps s hs).1
      rw [hrun] at ht
      exact ih ht
  | loop _ _ ih => exact ih hs
  | file hlocate hinner _ _ =>
      have hclean := locate_clean hwork hscope hs hlocate
      exact ⟨placed_enterFile? hscope hclean (isFile_of_locate hlocate) hinner, hs⟩
  | phrase _ _ hinner =>
      obtain ⟨-, rfl⟩ := Scope.enterPhrase?_eq_some hinner
      exact ⟨⟨hscope.dir, hscope.clean, hscope.nodup⟩, hs⟩

/-- At every depth the scope is placed, and the store searches where it did. -/
theorem Descent.placed
    {room depth : Nat}
    (hwork : Path.isAbsolute workDir = true)
    (hscope : scope.Placed)
    (hs : s.Searches workDir includes)
    (h : Descent d.files room scope nodes s depth inner body u) :
    inner.Placed ∧ u.Searches workDir includes := by
  induction h with
  | here => exact ⟨hscope, hs⟩
  | enter hcall _ ih =>
      obtain ⟨hmid, ht⟩ := hcall.placed hwork hscope hs
      exact ih hmid ht

/-- Different paths of the same file: one of them goes up. -/
theorem eq_of_sameFile
    {p q : String}
    (hp : Path.Clean p)
    (hq : Path.Clean q)
    (hup : Path.goesUp p = false)
    (hup' : Path.goesUp q = false)
    (h : d.SameFile p q) :
    p = q :=
  hp.eq_of_names_eq hq hup hup' (h.names_eq hp.isAbsolute hq.isAbsolute)

end Chain

section Refusal

variable {files : Files} {scope : Scope} {s : Store} {name path : String}

/-- The import of `name` is refused as that of a file being read: whatever the expansion
of files would do, the run fails and changes nothing. -/
def Refused
    (files : Files)
    (scope : Scope)
    (s : Store)
    (pos : Position)
    (name path : String) : Prop :=
  ∀ enter : Enter, (importFile files enter scope pos name).run s =
    (.error ⟨pos, .resolution (.circularImport path)⟩, s)

/-- An import is refused if its path, as a text, is one of those being read. -/
theorem refused_iff
    (pos : Position)
    (hlocate : locate files scope s name = some path) :
    Refused files scope s pos name path ↔ path ∈ scope.reading := by
  constructor
  · intro h
    by_contra hfresh
    -- Where files would be expanded to nothing, only reading the file can fail.
    have hrun := congrArg Prod.fst (h fun _ _ => pure "")
    simp only [importFile, Run.run_bind, Run.run_get, hlocate, Scope.enterFile?,
      List.contains_iff_mem, hfresh, if_false] at hrun
    cases hread : files.read path with
    | error e => simp [hread] at hrun
    | ok text =>
        simp only [hread, Run.run_lift_ok] at hrun
        cases hnodes : Node.ofText text path with
        | ok nodes => simp [hnodes] at hrun
        | error e =>
            simp only [hnodes, Run.run_throw, Except.error.injEq] at hrun
            rcases ofText_error hnodes with ⟨fault, hfault⟩ | ⟨fault, hfault⟩
            · simp [hrun] at hfault
            · simp [hrun] at hfault
  · intro hmem enter
    simp [importFile, Run.run_bind, hlocate, Scope.enterFile?, hmem]

end Refusal

end Expansion

section Main

open Expansion

/--
At every point of a run, the files are read under different texts.  Two of these are paths
of the same file exactly if they lead to the same names, and then one of them goes up.
A file is refused exactly if its path is one of these texts; where no path goes up, exactly
if it is one of the files being read.
-/
theorem importChain_iff
    (d : Disk)
    (includes : List String)
    (source : Source)
    (store : Store)
    (nodes : List Node)
    (hwork : Path.isAbsolute d.workDir = true)
    (hstore : store.Searches d.workDir includes)
    {room depth : Nat}
    {inner : Scope}
    {body : List Node}
    {u : Store}
    (h : Descent d.files room (source.scope store) nodes store depth inner body u) :
    inner.reading.Nodup ∧
      (∀ p ∈ inner.reading, ∀ q ∈ inner.reading, d.SameFile p q ↔
        d.isFile p = true ∧ d.isFile q = true ∧ Path.names p = Path.names q) ∧
      (inner.reading.Pairwise fun p q =>
        d.SameFile p q → Path.goesUp p = true ∨ Path.goesUp q = true) ∧
      u.Searches d.workDir includes ∧
      ∀ (v : Store) pos name path, v.Searches d.workDir includes →
        locate d.files inner v name = some path →
        (Refused d.files inner v pos name path ↔ path ∈ inner.reading) ∧
        ((∃ p ∈ inner.reading, d.SameFile p path) ↔
          ∃ p ∈ inner.reading, d.isFile p = true ∧ Path.names p = Path.names path) ∧
        ((∀ p ∈ path :: inner.reading, Path.goesUp p = false) →
          (Refused d.files inner v pos name path ↔ ∃ p ∈ inner.reading, d.SameFile p path)) := by
  obtain ⟨hinner, hu⟩ := h.placed hwork (source.placed_scope hwork hstore) hstore
  refine ⟨hinner.nodup, ?_, ?_, hu, ?_⟩
  · intro p hp q hq
    exact Disk.sameFile_iff (hinner.clean p hp).isAbsolute (hinner.clean q hq).isAbsolute
  · refine hinner.nodup.imp_of_mem ?_
    intro p q hp hq hne hsame
    by_contra hup
    simp only [not_or, Bool.not_eq_true] at hup
    exact hne (eq_of_sameFile (hinner.clean p hp) (hinner.clean q hq) hup.1 hup.2 hsame)
  · intro v pos name path hv hlocate
    have hclean := locate_clean hwork hinner hv hlocate
    have hfile : d.isFile path = true := isFile_of_locate hlocate
    have hrefused := refused_iff pos hlocate
    refine ⟨hrefused, ?_, ?_⟩
    · constructor
      · rintro ⟨p, hp, hsame⟩
        exact ⟨p, hp, hsame.1, hsame.names_eq (hinner.clean p hp).isAbsolute hclean.isAbsolute⟩
      · rintro ⟨p, hp, hisFile, hnames⟩
        have habsolute := (hinner.clean p hp).isAbsolute
        have hsame := (Disk.sameFile_iff habsolute hclean.isAbsolute).2 ⟨hisFile, hfile, hnames⟩
        exact ⟨p, hp, hsame⟩
    · intro hup
      obtain ⟨hup, hreading⟩ := List.forall_mem_cons.1 hup
      rw [hrefused]
      constructor
      · intro hmem
        exact ⟨path, hmem, hfile, rfl⟩
      · rintro ⟨p, hp, hsame⟩
        rw [← eq_of_sameFile (hinner.clean p hp) hclean (hreading p hp) hup hsame]
        exact hp

/-- The file that the first node imports. -/
def importedFirst? : List Node → Option String
  | .command _ name [.str path] [] :: _ => if name = "import" then some path else none
  | _ => none

theorem ofText_of_importedFirst?
    {text file path : String}
    (h : (Node.ofText text file).toOption.bind importedFirst? = some path) :
    ∃ pos ns, Node.ofText text file = .ok (.command pos "import" [.str path] [] :: ns) := by
  cases hnodes : Node.ofText text file with
  | error e => simp [hnodes, Except.toOption] at h
  | ok nodes =>
      simp only [hnodes, Except.toOption, Option.bind_some] at h
      unfold importedFirst? at h
      split at h
      · split at h
        · rename_i pos _ _ ns hname
          obtain rfl := Option.some.inj h
          exact ⟨pos, ns, by rw [hname]⟩
        · cases h
      · cases h

/-- A run goes down into the file that the first node imports. -/
theorem descent_of_importedFirst?
    {files : Files}
    {scope inner : Scope}
    {s : Store}
    {text file name path text' : String}
    (hfirst : (Node.ofText text file).toOption.bind importedFirst? = some name)
    (hlocate : locate files scope s name = some path)
    (hinner : scope.enterFile? path = some inner)
    (hread : files.read path = .ok text')
    (hbody : ((Node.ofText text' path).toOption.bind importedFirst?).isSome = true) :
    ∃ nodes body, Node.ofText text file = .ok nodes ∧
      Descent files 1 scope nodes s 1 inner body s := by
  obtain ⟨pos, ns, hnodes⟩ := ofText_of_importedFirst? hfirst
  obtain ⟨next, hnext⟩ := Option.isSome_iff_exists.1 hbody
  obtain ⟨pos', ns', hbody⟩ := ofText_of_importedFirst? hnext
  exact ⟨_, _, hnodes, .enter (.file hlocate hinner hread hbody) .here⟩

/-- Files that import each other, and files that import themselves by a way up. -/
def loops : Disk where
  entries :=
    [(["work"], .directory), (["work", "sub"], .directory),
      (["work", "m"], .text "[:import n]"), (["work", "n"], .text "[:import m]"),
      (["work", "up"], .text "[:import sub/../up]"),
      (["work", "twice"], .text "[:phrase hi] \x7b aa \x7d [:import sub/../twice]")]
  workDir := "/work"

theorem importChain_crossed :
    ∃ source nodes body,
      Source.read loops "m" = .ok source ∧
      Node.ofText source.text source.fileId = .ok nodes ∧
      Descent loops.files 1 (source.scope (Store.new "/work" [])) nodes (Store.new "/work" []) 1
        ⟨"/work", ["/work/n", "/work/m"], []⟩ body (Store.new "/work" []) ∧
      ∀ pos, Refused loops.files ⟨"/work", ["/work/n", "/work/m"], []⟩ (Store.new "/work" [])
        pos "m" "/work/m" := by
  have hlocate : locate loops.files ⟨"/work", ["/work/m"], []⟩ (Store.new "/work" []) "n" =
      some "/work/n" := by
    decide +kernel
  have hread : loops.files.read "/work/n" = .ok "[:import m]" := by rfl
  obtain ⟨nodes, body, hnodes, hdescent⟩ :
      ∃ nodes body, Node.ofText "[:import n]" "m" = .ok nodes ∧
        Descent loops.files 1 (Source.scope ⟨"[:import n]", some "m"⟩ (Store.new "/work" [])) nodes
          (Store.new "/work" []) 1 ⟨"/work", ["/work/n", "/work/m"], []⟩ body
          (Store.new "/work" []) :=
    descent_of_importedFirst? (by decide +kernel) hlocate (by decide +kernel) hread
      (by decide +kernel)
  have hstore := Store.Searches.new "/work" []
  obtain ⟨-, -, -, -, himport⟩ := importChain_iff loops [] _ _ _ (by decide) hstore hdescent
  refine ⟨⟨"[:import n]", some "m"⟩, nodes, body, by rfl, hnodes, hdescent, fun pos => ?_⟩
  obtain ⟨hrefused, -, -⟩ := himport _ pos "m" "/work/m" hstore (by decide +kernel)
  exact hrefused.2 (by simp)

/-- A way up is not seen.  The file is read again inside itself, and where it defines a
phrase it fails on its own definition. -/
theorem importChain_up :
    (∃ source nodes body,
      Source.read loops "up" = .ok source ∧
      Node.ofText source.text source.fileId = .ok nodes ∧
      Descent loops.files 1 (source.scope (Store.new "/work" [])) nodes (Store.new "/work" []) 1
        ⟨"/work/sub/..", ["/work/sub/../up", "/work/up"], []⟩ body (Store.new "/work" []) ∧
      loops.SameFile "/work/sub/../up" "/work/up") ∧
    ∃ source,
      Source.read loops "twice" = .ok source ∧
      (source.compileOn loops []).result =
        .error ⟨⟨"/work/sub/../twice", 0, 0, 0⟩, .registration (.isPhrase "phrase" "hi")⟩ := by
  have hlocate : locate loops.files ⟨"/work", ["/work/up"], []⟩ (Store.new "/work" [])
      "sub/../up" = some "/work/sub/../up" := by
    decide +kernel
  have hread : loops.files.read "/work/sub/../up" = .ok "[:import sub/../up]" := by rfl
  obtain ⟨nodes, body, hnodes, hdescent⟩ :
      ∃ nodes body, Node.ofText "[:import sub/../up]" "up" = .ok nodes ∧
        Descent loops.files 1
          (Source.scope ⟨"[:import sub/../up]", some "up"⟩ (Store.new "/work" [])) nodes
          (Store.new "/work" []) 1 ⟨"/work/sub/..", ["/work/sub/../up", "/work/up"], []⟩ body
          (Store.new "/work" []) :=
    descent_of_importedFirst? (by decide +kernel) hlocate (by decide +kernel) hread
      (by decide +kernel)
  refine ⟨⟨⟨"[:import sub/../up]", some "up"⟩, nodes, body, by rfl, hnodes, hdescent, ?_⟩, ?_⟩
  · exact ⟨by decide +kernel, by decide +kernel⟩
  · exact ⟨⟨"[:phrase hi] \x7b aa \x7d [:import sub/../twice]", some "twice"⟩, by rfl,
      by decide +kernel⟩

end Main

end SpeechMarkup
