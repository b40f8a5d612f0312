import SpeechMarkup.Proofs.Resolution
import SpeechMarkup.Proofs.Unbounded

/-!
# Spellings of paths

A path can be written in many ways.  Placing it under a directory from the root leaves one of
them, so that paths can be compared and looked up as texts.

* `Path.components` are the parts that a path is made of, and `Path.Canonical` are the paths from
  the root that are written with nothing else.
* `Path.Padded` adds to a path one thing that says nothing: a dot, a slash behind a slash, or a
  slash at the end.  `Path.Respelled` are the spellings that differ in such things.
* `Path.segments_absolute` says what `Path.absolute` keeps, and `Path.absolute_respelled` that it
  does not see the spelling.
* `Expansion.locate_respelled`: a file is found under the same path whichever way its name and
  the directory are written.
* `Path.absolute_canonical` is the main result.
-/

namespace SpeechMarkup

namespace Path

section Components

/-- A part of a path. -/
inductive Component
  /-- The root, from which the path is given. -/
  | root
  /-- The directory itself, where a relative path starts with it. -/
  | here
  /-- The directory above. -/
  | up
  | name (text : String)
deriving Repr, DecidableEq

def Component.ofSegment (s : List Char) : Component :=
  if s = ['.', '.'] then .up else .name (String.ofList s)

/-- The parts of a path.  An empty segment is none, and a single dot is one only at the start of a
relative path. -/
def components (path : String) : List Component :=
  (if isAbsolute path then [.root]
    else if (split path.toList).head? = some ['.'] then [.here]
    else []) ++ (segments path).map .ofSegment

/-- A path from the root without empty segments, single dots and a slash at its end.  The root
itself is a single slash. -/
structure Canonical (path : String) : Prop where
  isAbsolute : isAbsolute path = true
  segments : path ≠ "/" → ∀ s ∈ split path.toList.tail, s ≠ [] ∧ s ≠ ['.']
  ending : path ≠ "/" → path.toList.getLast? ≠ some '/'

theorem Component.ofSegment_injective : Function.Injective ofSegment := by
  intro s s' h
  unfold ofSegment at h
  split at h
  · split at h
    · simp_all
    · cases h
  · split at h
    · cases h
    · exact String.ofList_injective (Component.name.inj h)

theorem Component.ofSegment_ne_here (s : List Char) : ofSegment s ≠ .here := by
  unfold ofSegment
  split <;> simp

theorem components_of_isAbsolute
    {path : String}
    (h : isAbsolute path = true) :
    components path = .root :: (segments path).map .ofSegment := by
  simp [components, h]

/-- Without the dot at its start, a relative path is made of its segments that name something. -/
theorem components_of_relative
    {path : String}
    (h : isAbsolute path = false) :
    (components path).filter (· ≠ .here) = (segments path).map .ofSegment := by
  have hnames : ((segments path).map Component.ofSegment).filter (· ≠ .here) =
      (segments path).map .ofSegment := by
    refine List.filter_eq_self.2 fun c hc => ?_
    obtain ⟨s, -, rfl⟩ := List.mem_map.1 hc
    simpa using Component.ofSegment_ne_here s
  unfold components
  rw [h, if_neg (by simp), List.filter_append, hnames]
  split <;> simp

theorem isReal_iff {s : List Char} : isReal s = true ↔ s ≠ [] ∧ s ≠ ['.'] := by
  simp [isReal]

/-- In a clean path nothing is written but its segments. -/
theorem Clean.canonical
    {path : String}
    (h : Clean path) :
    Canonical path := by
  have htext : path.toList = '/' :: unsplit (segments path) := by
    rw [← toList_normal h.isAbsolute, h.normal]
  have hsegments : path ≠ "/" → ∀ s ∈ split path.toList.tail, s ≠ [] ∧ s ≠ ['.'] := by
    intro hroot s hs
    have hne : segments path ≠ [] := by
      intro hnil
      refine hroot (String.toList_injective ?_)
      rw [htext, hnil]
      rfl
    have hslash : ∀ s ∈ segments path, '/' ∉ s := fun s hs =>
      not_slash_mem_of_mem_split (List.mem_of_mem_filter hs)
    rw [htext, List.tail_cons, split_unsplit hne hslash] at hs
    exact isReal_iff.1 (List.mem_filter.1 hs).2
  refine ⟨h.isAbsolute, hsegments, fun hroot hlast => ?_⟩
  -- a slash at the end has an empty segment behind it
  obtain ⟨front, hfront⟩ := List.getLast?_eq_some_iff.1 hlast
  cases front with
  | nil => exact hroot (String.toList_injective hfront)
  | cons c front =>
      have hempty : [] ∈ split path.toList.tail := by
        rw [hfront, List.cons_append, List.tail_cons, split_append_cons_slash]
        simp [split]
      exact (hsegments hroot [] hempty).1 rfl

end Components

section Spellings

/-- The second text is the first with one thing more that says nothing. -/
inductive Padded : String → String → Prop
  /-- A dot and a slash, at the start of a relative path or behind a slash. -/
  | dotBefore
      {front back : String}
      (h : front.toList.getLast? = some '/' ∨ front = "" ∧ isAbsolute back = false) :
      Padded (front ++ back) (front ++ "./" ++ back)
  /-- A slash and a dot, at the end of a path or before a slash. -/
  | dotBehind
      {front back : String}
      (hfront : front ≠ "")
      (hback : back = "" ∨ isAbsolute back = true) :
      Padded (front ++ back) (front ++ "/." ++ back)
  /-- A dot between two slashes, behind the last slash, or in an empty path. -/
  | dotBetween
      {front back : String}
      (hfront : front.toList.getLast? = some '/' ∨ front = "" ∧ back = "")
      (hback : back = "" ∨ isAbsolute back = true) :
      Padded (front ++ back) (front ++ "." ++ back)
  /-- A slash behind a slash. -/
  | slash
      {front back : String} :
      Padded (front ++ "/" ++ back) (front ++ "//" ++ back)
  /-- A slash at the end. -/
  | ending
      {path : String}
      (h : path ≠ "") :
      Padded path (path ++ "/")

/-- Spellings of one path. -/
def Respelled : String → String → Prop :=
  Relation.EqvGen Padded

/-- Paths that start alike and have the same segments that name something. -/
structure SameSegments (p q : String) : Prop where
  isAbsolute : isAbsolute q = isAbsolute p
  segments : segments q = segments p

theorem SameSegments.refl (p : String) : SameSegments p p := ⟨rfl, rfl⟩

theorem SameSegments.symm
    {p q : String}
    (h : SameSegments p q) :
    SameSegments q p :=
  ⟨h.isAbsolute.symm, h.segments.symm⟩

theorem SameSegments.trans
    {p q r : String}
    (h : SameSegments p q)
    (h' : SameSegments q r) :
    SameSegments p r :=
  ⟨h'.isAbsolute.trans h.isAbsolute, h'.segments.trans h.segments⟩

/-- What is written behind the start of a path does not change how it starts. -/
theorem sameSegments_append
    {front back back' : String}
    (hne : front ≠ "")
    (h : segments (front ++ back') = segments (front ++ back)) :
    SameSegments (front ++ back) (front ++ back') := by
  have hne' : front.toList ≠ [] := by simpa using hne
  refine ⟨?_, h⟩
  simp [isAbsolute, String.toList_append, List.head?_append_of_ne_nil _ hne']

/-- A path that ends with a slash is something and the slash. -/
theorem eq_append_slash
    {path : String}
    (h : path.toList.getLast? = some '/') :
    path ≠ "" ∧ ∃ front, path = front ++ "/" := by
  obtain ⟨cs, hcs⟩ := List.getLast?_eq_some_iff.1 h
  refine ⟨?_, String.ofList cs, String.toList_injective (by simp [hcs])⟩
  rintro rfl
  cases h

theorem eq_slash_append
    {path : String}
    (h : isAbsolute path = true) :
    ∃ back, path = "/" ++ back := by
  obtain ⟨rest, hrest⟩ := toList_eq_of_isAbsolute h
  exact ⟨String.ofList rest, String.toList_injective (by simp [hrest])⟩

/-- What says nothing changes no segment that names something. -/
theorem Padded.sameSegments
    {p q : String}
    (h : Padded p q) :
    SameSegments p q := by
  cases h with
  | @dotBefore front back h =>
      rcases h with hslash | ⟨rfl, hback⟩
      · obtain ⟨hne, start, hfront⟩ := eq_append_slash hslash
        rw [String.append_assoc]
        refine sameSegments_append hne ?_
        simp [hfront, segments, split_append_cons_slash, split, isReal]
      · refine ⟨?_, ?_⟩
        · rw [String.empty_append, String.empty_append, hback]
          simp [isAbsolute]
        · simp [segments, split, isReal]
  | @dotBehind front back hne hback =>
      rw [String.append_assoc]
      refine sameSegments_append hne ?_
      rcases hback with rfl | hback
      · simp [segments, split_append_cons_slash, split, isReal]
      · obtain ⟨rest, rfl⟩ := eq_slash_append hback
        simp [segments, split_append_cons_slash, split, isReal]
  | @dotBetween front back hfront hback =>
      rcases hfront with hslash | ⟨rfl, rfl⟩
      · obtain ⟨hne, start, hfront⟩ := eq_append_slash hslash
        rw [String.append_assoc]
        refine sameSegments_append hne ?_
        rcases hback with rfl | hback
        · simp [hfront, segments, split_append_cons_slash, split, isReal]
        · obtain ⟨rest, rfl⟩ := eq_slash_append hback
          simp [hfront, segments, split_append_cons_slash, split, isReal]
      · exact ⟨rfl, rfl⟩
  | @slash front back =>
      by_cases hne : front = ""
      · subst hne
        exact ⟨by simp [isAbsolute], by simp [segments, split, isReal]⟩
      · rw [String.append_assoc, String.append_assoc]
        refine sameSegments_append hne ?_
        simp [segments, split_append_cons_slash, split, isReal]
  | ending hne =>
      have hslash : SameSegments (p ++ "") (p ++ "/") :=
        sameSegments_append hne (by simp [segments, split_append_cons_slash, split, isReal])
      rwa [String.append_empty] at hslash

theorem Respelled.sameSegments
    {p q : String}
    (h : Respelled p q) :
    SameSegments p q := by
  induction h with
  | rel _ _ h => exact h.sameSegments
  | refl p => exact .refl p
  | symm _ _ _ ih => exact ih.symm
  | trans _ _ _ _ _ ih ih' => exact ih.trans ih'

end Spellings

section Absolute

/-- Under a directory from the root, a relative path goes on behind it, and any other stands
alone. -/
theorem segments_join
    {base : String}
    (path : String)
    (h : isAbsolute base = true) :
    segments (join base path) =
      if isAbsolute path then segments path else segments base ++ segments path := by
  have hne : base.isEmpty = false := by
    obtain ⟨rest, hrest⟩ := toList_eq_of_isAbsolute h
    rw [← Bool.not_eq_true, String.isEmpty_iff]
    rintro rfl
    cases hrest
  unfold join
  split
  · rfl
  · split
    · rename_i hend
      have hslash : base.toList.getLast? = some '/' := by simpa [hne] using hend
      obtain ⟨-, front, rfl⟩ := eq_append_slash hslash
      simp [segments, split_append_cons_slash, split, isReal]
    · simp [segments, split_append_cons_slash]

theorem segments_absolute
    {base : String}
    (path : String)
    (h : isAbsolute base = true) :
    segments (absolute base path) =
      if isAbsolute path then segments path else segments base ++ segments path := by
  rw [absolute, segments_normal (isAbsolute_join path h), segments_join path h]

/-- The parts of a path under a directory from the root. -/
theorem components_absolute
    {base : String}
    (path : String)
    (h : isAbsolute base = true) :
    components (absolute base path) =
      if isAbsolute path then components path
      else components base ++ (components path).filter (· ≠ .here) := by
  rw [components_of_isAbsolute (clean_absolute path h).isAbsolute, segments_absolute path h]
  split
  · rename_i hpath
    rw [components_of_isAbsolute hpath]
  · rename_i hpath
    rw [components_of_isAbsolute h, components_of_relative (by simpa using hpath),
      List.map_append, List.cons_append]

/-- Normal paths are known by their parts. -/
theorem Clean.eq_of_components_eq
    {p q : String}
    (hp : Clean p)
    (hq : Clean q)
    (h : components p = components q) :
    p = q := by
  rw [components_of_isAbsolute hp.isAbsolute, components_of_isAbsolute hq.isAbsolute] at h
  exact hp.eq_of_segments_eq hq
    (Component.ofSegment_injective.list_map (List.cons.inj h).2)

/-- A directory from the root and a path under it can be written in any way. -/
theorem absolute_respelled
    {base base' path path' : String}
    (h : isAbsolute base = true)
    (hbase : Respelled base base')
    (hpath : Respelled path path') :
    absolute base' path' = absolute base path := by
  have h' : isAbsolute base' = true := hbase.sameSegments.isAbsolute.trans h
  refine (clean_absolute path' h').eq_of_segments_eq (clean_absolute path h) ?_
  rw [segments_absolute path' h', segments_absolute path h, hbase.sameSegments.segments,
    hpath.sameSegments.segments, hpath.sameSegments.isAbsolute]

end Absolute

end Path

namespace Expansion

section Finding

variable {files : Files} {reading replaying : List String} {s : Store}
variable {dir dir' name name' : String}

/-- A file is found under the same path whichever way its name and the directory are written. -/
theorem locate_respelled
    (hdir : Path.isAbsolute dir = true)
    (hdirs : ∀ d ∈ s.searchDirs, Path.isAbsolute d = true)
    (hdir' : Path.Respelled dir dir')
    (hname : Path.Respelled name name') :
    locate files ⟨dir', reading, replaying⟩ s name' =
      locate files ⟨dir, reading, replaying⟩ s name := by
  have hrest : s.searchDirs.map (Path.absolute · name') = s.searchDirs.map (Path.absolute · name) :=
    List.map_congr_left fun d hd => Path.absolute_respelled (hdirs d hd) (.refl d) hname
  rw [locate, locate, resolve, resolve, List.map_cons, List.map_cons, hrest,
    Path.absolute_respelled hdir hdir' hname]

/-- What a recorded file stands for. -/
theorem expand_play
    (files : Files)
    (scope : Scope)
    (pos : Position)
    (name : String)
    (s : Store) :
    expand files scope (.command pos "play" [.str name] []) s =
      match locate files scope s name with
      | none => (.error ⟨pos, .resolution (.missingSound name)⟩, s)
      | some path => (.ok (Node.command pos "play" [.str path] []).render, s) := by
  have hrun : expandNode files (unbounded files) scope (.command pos "play" [.str name] []) =
      play files scope pos name [] := by
    rw [expandNode]
    rfl
  rw [expand_eq, hrun, play, Run.run_bind, Run.run_get]
  dsimp only
  cases locate files scope s name <;> rfl

/-- From two scopes, two names of a file to import or to play are treated alike. -/
structure TreatsAlike (files : Files) (s : Store) (scope scope' : Scope) (name name' : String) :
    Prop where
  /-- They lead to the same path, as a text, or to none. -/
  located : locate files scope' s name' = locate files scope s name
  /-- The import of a file that is found does the same. -/
  imported : ∀ pos path, locate files scope s name = some path →
    expand files scope' (.command pos "import" [.str name'] []) s =
      expand files scope (.command pos "import" [.str name] []) s
  /-- A file that is being read is refused. -/
  refused : ∀ pos path, locate files scope s name = some path → path ∈ scope.reading →
    expand files scope' (.command pos "import" [.str name'] []) s =
      (.error ⟨pos, .resolution (.circularImport path)⟩, s)
  /-- The recorded file is played under the same path. -/
  played : ∀ pos path, locate files scope s name = some path →
    expand files scope' (.command pos "play" [.str name'] []) s =
      expand files scope (.command pos "play" [.str name] []) s
  /-- A file that is not found is reported under its name as it is written. -/
  missing : ∀ pos, locate files scope s name = none →
    expand files scope' (.command pos "import" [.str name'] []) s =
        (.error ⟨pos, .resolution (.missingImport name')⟩, s) ∧
      expand files scope' (.command pos "play" [.str name'] []) s =
        (.error ⟨pos, .resolution (.missingSound name')⟩, s)

/-- The directory of a scope is of no account once a file is found. -/
theorem treatsAlike_of_locate
    (h : locate files ⟨dir', reading, replaying⟩ s name' =
      locate files ⟨dir, reading, replaying⟩ s name) :
    TreatsAlike files s ⟨dir, reading, replaying⟩ ⟨dir', reading, replaying⟩ name name' := by
  have henter : ∀ path, (Scope.mk dir' reading replaying).enterFile? path =
      (Scope.mk dir reading replaying).enterFile? path := fun _ => rfl
  refine ⟨h, ?_, ?_, ?_, ?_⟩
  · intro pos path hpath
    simp only [expand_import, h, hpath, henter]
  · intro pos path hpath hreading
    have hrefused : (Scope.mk dir' reading replaying).enterFile? path = none := by
      simp [Scope.enterFile?, hreading]
    simp only [expand_import, h, hpath, hrefused]
  · intro pos path hpath
    simp only [expand_play, h, hpath, Node.render]
  · intro pos hnone
    simp only [expand_import, expand_play, h, hnone, and_self]

end Finding

end Expansion

namespace Path

/--
Placed under a directory from the root, every path becomes canonical, and stays as it is under
whatever directory it is placed then.  The text does not depend on how the directory and the path
are written: it is made of the parts of a path from the root, or else of those of the directory
and of the path without single dots, and it is the only such text.  So a file that is compiled is
read under one path, and a file to import or to play is searched, compared with those being read
and looked up under one path, whichever way its name is written.
-/
theorem absolute_canonical
    {base : String}
    (hbase : isAbsolute base = true)
    (path : String) :
    Canonical (absolute base path) ∧
      (∀ other, absolute other (absolute base path) = absolute base path) ∧
      (components (absolute base path) =
        if isAbsolute path then components path
        else components base ++ (components path).filter (· ≠ .here)) ∧
      (∀ base' path', isAbsolute base' = true →
        components (absolute base' path') = components (absolute base path) →
        absolute base' path' = absolute base path) ∧
      ∀ base' path', Respelled base base' → Respelled path path' →
        absolute base' path' = absolute base path ∧
        (∀ s : Store, s.workDir = base →
          (Scope.start s).forFile s path' = (Scope.start s).forFile s path) ∧
        ∀ (files : Files) (s : Store) (reading replaying : List String),
          (∀ dir ∈ s.searchDirs, isAbsolute dir = true) →
          Expansion.TreatsAlike files s ⟨base, reading, replaying⟩ ⟨base', reading, replaying⟩
            path path' := by
  have hclean := clean_absolute path hbase
  refine ⟨hclean.canonical, hclean.absolute_eq, components_absolute path hbase, ?_, ?_⟩
  · intro base' path' hbase' hcomponents
    exact (clean_absolute path' hbase').eq_of_components_eq hclean hcomponents
  · intro base' path' hbase' hpath'
    refine ⟨absolute_respelled hbase hbase' hpath', ?_, ?_⟩
    · rintro s rfl
      unfold Scope.forFile
      rw [absolute_respelled hbase (.refl _) hpath']
    · intro files s reading replaying hdirs
      exact Expansion.treatsAlike_of_locate
        (Expansion.locate_respelled hbase hdirs hbase' hpath')

/-- A tune in a directory. -/
def shelved : Listing where
  entries := [("/work/lib/tune", some "aa")]

/-- A tune is refused inside itself, under another spelling of its name and from another spelling
of the directory. -/
theorem absolute_canonical_shelved :
    absolute "/./work/" "./lib/./tune" = "/work/lib/tune" ∧
      components (absolute "/work" "lib/tune") = [.root, .name "work", .name "lib", .name "tune"] ∧
      Expansion.expand shelved.files ⟨"/./work/", ["/work/lib/tune"], []⟩
          (.command {} "import" [.str "./lib/./tune"] []) (Store.new "/work" []) =
        (.error ⟨{}, .resolution (.circularImport "/work/lib/tune")⟩, Store.new "/work" []) := by
  have hbase : Respelled "/work" "/./work/" := by
    refine .trans _ "/./work" _ (.rel _ _ ?_) (.rel _ _ ?_)
    · exact @Padded.dotBefore "/" "work" (by decide)
    · exact .ending (by decide)
  have hpath : Respelled "lib/tune" "./lib/./tune" := by
    refine .trans _ "./lib/tune" _ (.rel _ _ ?_) (.rel _ _ ?_)
    · exact @Padded.dotBefore "" "lib/tune" (by decide)
    · exact @Padded.dotBehind "./lib" "/tune" (by decide) (by decide)
  have hroot : isAbsolute "/work" = true := by decide
  have hlocate : Expansion.locate shelved.files ⟨"/work", ["/work/lib/tune"], []⟩
      (Store.new "/work" []) "lib/tune" = some "/work/lib/tune" := by
    decide +kernel
  obtain ⟨-, -, hcomponents, -, hspelling⟩ := absolute_canonical hroot "lib/tune"
  obtain ⟨htext, -, halike⟩ := hspelling "/./work/" "./lib/./tune" hbase hpath
  have htreats := halike shelved.files (Store.new "/work" []) ["/work/lib/tune"] [] (by decide)
  refine ⟨?_, ?_, ?_⟩
  · rw [htext]
    decide
  · rw [hcomponents]
    decide
  · exact htreats.refused {} "/work/lib/tune" hlocate (by decide)

end Path

end SpeechMarkup
