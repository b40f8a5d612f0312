import SpeechMarkup.Proofs.Correspondence
import SpeechMarkup.Proofs.Paths

/-!
# Imports in place

An import is refused if its file is being read, and a call if its phrase is being
replayed.  A run with fewer such guards does the same until one of them is met, and the
expansion of an import is what a compilation of its file gives, which has none.

* `guarding` is the correspondence between scopes of which the first guards against more
  files and phrases.
* `Expansion.expandAll_of_guards`: the guards change nothing, or end the run.
* `Source.whole_compile`: what a compilation hands over makes up the text of its nodes.
* `import_inPlace` is the main result.  It leaves out a file at the root, which has no
  directory: `import_inPlace_root` imports such a file.
-/

namespace SpeechMarkup

open Expansion

section Guards

/-- The first scope guards against all that the second does, and otherwise only against
`paths` and `names`. -/
structure Scope.Guards (paths names : List String) (scope scope' : Scope) : Prop where
  dir : scope'.dir = scope.dir
  reading : ∀ x ∈ scope'.reading, x ∈ scope.reading
  paths : ∀ x ∈ scope.reading, x ∈ scope'.reading ∨ x ∈ paths
  replaying : ∀ x ∈ scope'.replaying, x ∈ scope.replaying
  names : ∀ x ∈ scope.replaying, x ∈ scope'.replaying ∨ x ∈ names

/-- A fault of a guard against `paths` or `names`. -/
def Fault.OfGuards (paths names : List String) (fault : Fault) : Prop :=
  (∃ x ∈ paths, fault = .resolution (.circularImport x)) ∨
    ∃ x ∈ names, fault = .resolution (.selfReference x)

variable {files : Files} {paths names : List String} {scope scope' : Scope}

/-- What is put on both lists is not among the extra entries of the first. -/
theorem mem_cons_or
    {a : String}
    {l l' extra : List String}
    (h : ∀ x ∈ l, x ∈ l' ∨ x ∈ extra) :
    ∀ x ∈ a :: l, x ∈ a :: l' ∨ x ∈ extra := by
  intro x hx
  rcases List.mem_cons.1 hx with rfl | hx
  · exact Or.inl List.mem_cons_self
  · exact (h x hx).imp_left (List.mem_cons_of_mem a)

theorem Scope.Guards.enterFile?
    (h : scope.Guards paths names scope')
    (path : String) :
    Matches (Scope.Guards paths names)
      (Fault.OfGuards paths names (.resolution (.circularImport path)))
      (scope.enterFile? path) (scope'.enterFile? path) := by
  unfold Scope.enterFile?
  simp only [List.contains_iff_mem]
  by_cases hold : path ∈ scope'.reading
  · rw [if_pos (h.reading path hold), if_pos hold]
    exact .none
  · by_cases hnew : path ∈ scope.reading
    · rw [if_pos hnew]
      exact .excused (Or.inl ⟨path, (h.paths path hnew).resolve_left hold, rfl⟩)
    · rw [if_neg hnew, if_neg hold]
      exact .some ⟨rfl, List.cons_subset_cons path h.reading, mem_cons_or h.paths, h.replaying,
        h.names⟩

theorem Scope.Guards.enterPhrase?
    (h : scope.Guards paths names scope')
    (name : String) :
    Matches (Scope.Guards paths names)
      (Fault.OfGuards paths names (.resolution (.selfReference name)))
      (scope.enterPhrase? name) (scope'.enterPhrase? name) := by
  unfold Scope.enterPhrase?
  simp only [List.contains_iff_mem]
  by_cases hold : name ∈ scope'.replaying
  · rw [if_pos (h.replaying name hold), if_pos hold]
    exact .none
  · by_cases hnew : name ∈ scope.replaying
    · rw [if_pos hnew]
      exact .excused (Or.inr ⟨name, (h.names name hnew).resolve_left hold, rfl⟩)
    · rw [if_neg hnew, if_neg hold]
      exact .some ⟨h.dir, h.reading, h.paths, List.cons_subset_cons name h.replaying,
        mem_cons_or h.names⟩

/-- Runs of the same nodes from the same store, of which the first guards against more. -/
def guarding (files : Files) (paths names : List String) : Correspondence files where
  places := Eq
  scopes := Scope.Guards paths names
  stores := Eq
  excused := Fault.OfGuards paths names
  lost := fun _ => False
  refl := fun _ => rfl
  unit := by
    rintro s _ rfl
    rfl
  tempo := by
    rintro s _ bpm rfl
    rfl
  define := by
    rintro s _ n n' rfl hn
    obtain rfl := hn.eq
    cases hdefine : s.define n with
    | ok t => exact Or.inl ⟨t, t, rfl, rfl, rfl⟩
    | error fault => exact Or.inr (Or.inl ⟨fault, rfl, Or.inl rfl⟩)
  phrase := by
    rintro s _ name rfl
    exact .refl (fun body => Node.Alike.refl_all (fun _ => rfl) body) _
  sound := by
    rintro s _ name rfl
    exact .refl (fun _ => List.forall₂_same.2 fun _ _ => ⟨rfl, rfl, rfl, rfl⟩) _
  voice := by
    rintro s _ name rfl
    exact .refl (fun _ => rfl) _
  locate := by
    rintro scope scope' s _ name hscope rfl
    unfold locate
    rw [hscope.dir]
    exact .refl (fun _ => rfl) _
  enterFile := fun path hscope => hscope.enterFile? path
  enterPhrase := fun name hscope => hscope.enterPhrase? name
  lost_define := fun _ _ _ h _ => h
  lost_tempo := fun _ _ h => h

/-- Outcomes that correspond are the same, or a guard ended the first run. -/
theorem eq_of_guarding
    {out out' : Except Diagnostic String × Store}
    (h : (guarding files paths names).Outcomes out out') :
    out = out' ∨ ∃ d t, out = (.error d, t) ∧ d.value.OfGuards paths names := by
  cases h with
  | ok ht =>
      obtain rfl : _ = _ := ht
      exact Or.inl rfl
  | @error d d' t t' hvalue hpos ht =>
      obtain ⟨pos, value⟩ := d
      obtain ⟨pos', value'⟩ := d'
      obtain rfl : pos = pos' := hpos
      obtain rfl : value' = value := hvalue
      obtain rfl : t = t' := ht
      exact Or.inl rfl
  | excused hd => exact Or.inr ⟨_, _, rfl, hd⟩
  | lost ht => cases ht

/-- Guards change nothing, or end the run. -/
theorem Expansion.expandAll_of_guards
    (h : scope.Guards paths names scope')
    (nodes : List Node)
    (s : Store) :
    expandAll files scope nodes s = expandAll files scope' nodes s ∨
      ∃ d t, expandAll files scope nodes s = (.error d, t) ∧ d.value.OfGuards paths names := by
  have hnodes := Node.Alike.refl_all (fun pos => Eq.refl pos) nodes
  exact eq_of_guarding ((guarding files paths names).expandAll_follows h hnodes rfl)

theorem Expansion.expand_of_guards
    (h : scope.Guards paths names scope')
    (n : Node)
    (s : Store) :
    expand files scope n s = expand files scope' n s ∨
      ∃ d t, expand files scope n s = (.error d, t) ∧ d.value.OfGuards paths names :=
  eq_of_guarding ((guarding files paths names).expand_follows h (.refl (fun _ => rfl) n) rfl)

end Guards

section Wholes

variable {files : Files} {enter : Enter} {scope : Scope}

/-- The outcome of a run with what it handed over as one text. -/
def Outcome.whole (out : Outcome) : Except Diagnostic String × Store :=
  (out.result.map fun _ => out.sink.text, out.store)

/-- A sink without a limit gets all that the nodes before the end marker stand for. -/
theorem whole_emitNodes
    {nodes : List Node}
    {sink : Sink}
    {s : Store}
    (pos : Position)
    (hnodes : ∀ n ∈ nodes, n.isStop = false)
    (hlimit : sink.limit = none) :
    (emitNodes files enter scope (nodes ++ [.stop pos]) sink s).whole =
      (((expandNodes files enter scope nodes).run s).1.map (sink.text ++ ·),
        ((expandNodes files enter scope nodes).run s).2) := by
  induction nodes generalizing sink s with
  | nil =>
      rw [List.nil_append, expandNodes, emitNodes, Run.run_pure]
      simp [Outcome.whole, Except.map]
  | cons n ns ih =>
      obtain ⟨hn, hns⟩ := List.forall_mem_cons.1 hnodes
      have hstop : ∀ pos, n ≠ .stop pos := by
        rintro pos rfl
        cases hn
      rw [List.cons_append, expandNodes, Run.run_bind]
      rcases hrun : (expandNode files enter scope n).run s with ⟨d | text, t⟩
      · rw [emitNodes_of_error hstop hrun]
        rfl
      · have hfull : sink.isFull = false := by simp [Sink.isFull, hlimit]
        have hrest : (emitNodes files enter scope (n :: (ns ++ [.stop pos])) sink s).whole =
            (((expandNodes files enter scope ns).run t).1.map (sink.text ++ text ++ ·),
              ((expandNodes files enter scope ns).run t).2) := by
          rw [emitNodes_of_ok hstop hrun, hfull]
          by_cases hempty : text.isEmpty = true
          · have htext : text = "" := by simpa using hempty
            rw [if_pos hempty, ih hns hlimit, htext, String.append_empty]
          · have hlimit' : (sink.push text).limit = none := hlimit
            rw [if_neg hempty, if_neg (by simp), ih hns hlimit', Sink.text_push]
        rw [hrest]
        dsimp only
        rw [Run.run_bind]
        rcases (expandNodes files enter scope ns).run t with ⟨d | more, u⟩
        · rfl
        · simp [Except.map, String.append_assoc]

theorem whole_process
    {ts : List Token}
    {nodes : List Node}
    (hnodes : Node.ofTokens ts = .ok nodes)
    (files : Files)
    (scope : Scope)
    (s : Store) :
    (process files scope nodes {} s).whole = expandAll files scope nodes s := by
  obtain ⟨pos, hstop⟩ := Node.untilStop_of_ofTokens hnodes
  have huntil := Node.isStop_untilStop nodes
  rw [hstop, expandAll_stop, process_eq, whole_emitNodes pos huntil rfl, ← expandAll_eq]
  rcases expandAll files scope (Node.untilStop nodes) s with ⟨d | text, t⟩
  · rfl
  · simp [Except.map, Sink.text]

/-- What a compilation hands over makes up the text of its nodes. -/
theorem Source.whole_compile
    {source : Source}
    {nodes : List Node}
    (hnodes : Node.ofText source.text source.fileId = .ok nodes)
    (files : Files)
    (s : Store) :
    (source.compile files {} s).whole = expandAll files (source.scope s) nodes s := by
  obtain ⟨ts, -, hts⟩ := ofTokens_of_ofText hnodes
  rw [Source.compile, hnodes]
  exact whole_process hts files (source.scope s) s

end Wholes

section Imports

variable {files : Files} {scope : Scope} {s : Store} {name path : String}

theorem clean_of_locate
    (hlocate : locate files scope s name = some path)
    (habsolute : Path.isAbsolute path = true) :
    Path.Clean path := by
  obtain ⟨dir, -, rfl⟩ := List.mem_map.1 (List.mem_of_find?_eq_some hlocate)
  exact ⟨habsolute, Path.normal_normal (Path.isAbsolute_of_isAbsolute_normal habsolute)⟩

/-- A file that lies in a directory is compiled in the scope of an import of it, without the
guards of the files and phrases around it. -/
theorem guards_scope
    {inner : Scope}
    (content : String)
    (s : Store)
    (hpath : Path.Clean path)
    (hroot : path ≠ "/")
    (hinner : scope.enterFile? path = some inner) :
    inner.Guards scope.reading scope.replaying ((Source.mk content (some path)).scope s) := by
  obtain ⟨-, rfl⟩ := Scope.enterFile?_eq_some hinner
  obtain ⟨parent, hparent⟩ := hpath.exists_parent? hroot
  simp only [Source.scope, Scope.start, Scope.forFile, hpath.absolute_eq, hparent]
  refine ⟨rfl, ?_, ?_, ?_, ?_⟩
  · simp
  · simp
  · simp
  · simp

/-- An import that succeeds has read its file, and the file was not being read before. -/
theorem read_of_expand_import
    {pos : Position}
    {text : String}
    {t : Store}
    (hlocate : locate files scope s name = some path)
    (h : expand files scope (.command pos "import" [.str name] []) s = (.ok text, t)) :
    path ∉ scope.reading ∧ ∃ content, files.read path = .ok content := by
  rw [expand_import, hlocate] at h
  dsimp only at h
  cases hinner : scope.enterFile? path with
  | none =>
      rw [hinner] at h
      cases h
  | some inner =>
      rw [hinner] at h
      refine ⟨(Scope.enterFile?_eq_some hinner).1, ?_⟩
      cases hread : files.read path with
      | error e =>
          rw [hread] at h
          cases h
      | ok content => exact ⟨content, rfl⟩

theorem enterFile?_of_notMem
    (h : path ∉ scope.reading) :
    ∃ inner, scope.enterFile? path = some inner := by
  unfold Scope.enterFile?
  rw [if_neg (by simpa using h)]
  exact ⟨_, rfl⟩

/-- The import of a file gives what the compilation of the file gives, or one of the guards
around it ends it. -/
theorem expand_import_eq_whole
    {content : String}
    (pos : Position)
    (hlocate : locate files scope s name = some path)
    (hpath : Path.Clean path)
    (hroot : path ≠ "/")
    (hfresh : path ∉ scope.reading)
    (hread : files.read path = .ok content) :
    expand files scope (.command pos "import" [.str name] []) s =
        ((Source.mk content (some path)).compile files {} s).whole ∨
      ∃ d t, expand files scope (.command pos "import" [.str name] []) s = (.error d, t) ∧
        d.value.OfGuards scope.reading scope.replaying := by
  obtain ⟨inner, hinner⟩ := enterFile?_of_notMem hfresh
  rw [expand_import, hlocate]
  dsimp only
  rw [hinner, hread]
  dsimp only
  cases hnodes : Node.ofText content path with
  | error d =>
      left
      have hcompile : (Source.mk content (some path)).compile files {} s = ⟨.error d, {}, s⟩ := by
        simp [Source.compile, Source.fileId, hnodes]
      rw [hcompile]
      rfl
  | ok nodes =>
      have hwhole : ((Source.mk content (some path)).compile files {} s).whole =
          expandAll files ((Source.mk content (some path)).scope s) nodes s :=
        Source.whole_compile hnodes files s
      rw [hwhole]
      exact expandAll_of_guards (guards_scope content s hpath hroot hinner) nodes s

/-- A run that hands over one text has succeeded. -/
theorem Outcome.eq_of_whole_eq_ok
    {out : Outcome}
    {text : String}
    {t : Store}
    (h : out.whole = (.ok text, t)) :
    out = ⟨.ok (), out.sink, t⟩ ∧ out.sink.text = text := by
  obtain ⟨result, sink, store⟩ := out
  cases result with
  | error d => cases h
  | ok u =>
      obtain ⟨htext, rfl⟩ := Prod.mk.inj h
      exact ⟨rfl, Except.ok.inj htext⟩

/--
An import of a file other than the root that succeeds does what a compilation of the file
does from the same store: the chunks make up the text of the import, and the stores left
behind are the same.  A file that is not being read and that cannot be scanned or parsed
gives the same error in both.  In general the import gives what the compilation gives, or
the guard of a file being read or of a phrase being replayed ends it.
-/
theorem import_inPlace
    (pos : Position)
    (hlocate : locate files scope s name = some path)
    (habsolute : Path.isAbsolute path = true) :
    (path ≠ "/" → ∀ text t,
      expand files scope (.command pos "import" [.str name] []) s = (.ok text, t) →
      ∃ content sink, files.read path = .ok content ∧
        (Source.mk content (some path)).compile files {} s = ⟨.ok (), sink, t⟩ ∧
        sink.text = text) ∧
    (path ∉ scope.reading → ∀ content, files.read path = .ok content →
      (∀ d, Node.ofText content path = .error d →
        expand files scope (.command pos "import" [.str name] []) s = (.error d, s) ∧
          (Source.mk content (some path)).compile files {} s = ⟨.error d, {}, s⟩) ∧
      (path ≠ "/" →
        expand files scope (.command pos "import" [.str name] []) s =
            ((Source.mk content (some path)).compile files {} s).whole ∨
          ∃ d t, expand files scope (.command pos "import" [.str name] []) s = (.error d, t) ∧
            d.value.OfGuards scope.reading scope.replaying)) := by
  have hpath := clean_of_locate hlocate habsolute
  constructor
  · intro hroot text t hrun
    obtain ⟨hfresh, content, hread⟩ := read_of_expand_import hlocate hrun
    rcases expand_import_eq_whole pos hlocate hpath hroot hfresh hread with heq | ⟨d, u, hfail, -⟩
    · obtain ⟨hcompile, htext⟩ := Outcome.eq_of_whole_eq_ok (heq.symm.trans hrun)
      exact ⟨content, _, hread, hcompile, htext⟩
    · cases hrun.symm.trans hfail
  · intro hfresh content hread
    constructor
    · intro d hd
      obtain ⟨inner, hinner⟩ := enterFile?_of_notMem hfresh
      constructor
      · rw [expand_import, hlocate]
        dsimp only
        rw [hinner, hread]
        dsimp only
        rw [hd]
      · simp [Source.compile, Source.fileId, hd]
    · intro hroot
      exact expand_import_eq_whole pos hlocate hpath hroot hfresh hread

/-- A tune that imports a part from its own directory, and a tune with an open block. -/
def tunes : Listing where
  entries :=
    [("/work/lib/tune", some "[:phrase up] \x7b aa t \x7d [:import part] up"),
      ("/work/lib/part", some "[:bpm 60] t<1>"),
      ("/work/lib/open", some "[:loop 2] \x7b aa")]

/-- Inside a file and a phrase, the first tune gives its text, and the second its error. -/
theorem import_inPlace_tune :
    (∃ content sink t,
      tunes.files.read "/work/lib/tune" = .ok content ∧
      expand tunes.files ⟨"/work", ["/work/main"], ["hi"]⟩
          (.command {} "import" [.str "lib/tune"] []) (Store.new "/work" []) =
        (.ok "[t<1000>][aa][t]", t) ∧
      (Source.mk content (some "/work/lib/tune")).compile tunes.files {} (Store.new "/work" []) =
        ⟨.ok (), sink, t⟩ ∧
      sink.text = "[t<1000>][aa][t]") ∧
    ∃ content d,
      tunes.files.read "/work/lib/open" = .ok content ∧
      d.kind = "SyntaxError" ∧
      expand tunes.files ⟨"/work", ["/work/main"], ["hi"]⟩
          (.command {} "import" [.str "lib/open"] []) (Store.new "/work" []) =
        (.error d, Store.new "/work" []) ∧
      (Source.mk content (some "/work/lib/open")).compile tunes.files {} (Store.new "/work" []) =
        ⟨.error d, {}, Store.new "/work" []⟩ := by
  constructor
  · have htext : (expand tunes.files ⟨"/work", ["/work/main"], ["hi"]⟩
        (.command {} "import" [.str "lib/tune"] []) (Store.new "/work" [])).1 =
        .ok "[t<1000>][aa][t]" := by
      decide +kernel
    have hlocate : locate tunes.files ⟨"/work", ["/work/main"], ["hi"]⟩ (Store.new "/work" [])
        "lib/tune" = some "/work/lib/tune" := by
      decide +kernel
    have hrun : expand tunes.files ⟨"/work", ["/work/main"], ["hi"]⟩
        (.command {} "import" [.str "lib/tune"] []) (Store.new "/work" []) =
        (.ok "[t<1000>][aa][t]", _) := Prod.ext htext rfl
    obtain ⟨hsame, -⟩ := import_inPlace {} hlocate (by decide +kernel)
    obtain ⟨content, sink, hread, hcompile, hsink⟩ := hsame (by decide) _ _ hrun
    exact ⟨content, sink, _, hread, hrun, hcompile, hsink⟩
  · have hlocate : locate tunes.files ⟨"/work", ["/work/main"], ["hi"]⟩ (Store.new "/work" [])
        "lib/open" = some "/work/lib/open" := by
      decide +kernel
    have hkind : (match Node.ofText "[:loop 2] \x7b aa" "/work/lib/open" with
        | .ok _ => none
        | .error d => some d.kind) = some "SyntaxError" := by
      decide +kernel
    cases hnodes : Node.ofText "[:loop 2] \x7b aa" "/work/lib/open" with
    | ok nodes =>
        rw [hnodes] at hkind
        cases hkind
    | error d =>
        rw [hnodes] at hkind
        have hread : tunes.files.read "/work/lib/open" = .ok "[:loop 2] \x7b aa" := by rfl
        obtain ⟨-, hfresh⟩ := import_inPlace {} hlocate (by decide +kernel)
        obtain ⟨himport, hcompile⟩ := (hfresh (by decide) _ hread).1 d hnodes
        exact ⟨_, d, hread, Option.some.inj hkind, himport, hcompile⟩

/-- A file at the root, and two files that it can mean. -/
def rooted : Listing where
  entries := [("/", some "[:import x]"), ("x", some "aa"), ("/work/x", some "t")]

/-- A file at the root has no directory.  What it imports is searched in no directory if it is
imported, and in the working directory if it is compiled. -/
theorem import_inPlace_root :
    Path.isAbsolute (Store.new "/work" []).workDir = true ∧
      locate rooted.files ⟨"/work", [], []⟩ (Store.new "/work" []) "/" = some "/" ∧
      Path.isAbsolute "/" = true ∧
      rooted.files.read "/" = .ok "[:import x]" ∧
      (expand rooted.files ⟨"/work", [], []⟩ (.command {} "import" [.str "/"] [])
        (Store.new "/work" [])).1 = .ok "[aa]" ∧
      ((Source.mk "[:import x]" (some "/")).compile rooted.files {}
        (Store.new "/work" [])).sink.text = "[t]" := by
  refine ⟨?_, ?_, ?_, ?_, ?_, ?_⟩
  · decide
  · decide +kernel
  · decide
  · rfl
  · decide +kernel
  · decide +kernel

end Imports

end SpeechMarkup
