import SpeechMarkup.Proofs.Splicing

/-!
# Files that a run finds

A run knows of the files only what its imports and plays find.  Where two collections of
files differ, and no import or play of the run leads there, the run is the same.

* `Expansion.Finds` says which paths the imports and plays of a run find, at any depth.
* `Files.AgreeOff` says that files differ only at hidden paths.
* `Expansion.expandAll_agree` and `process_agree` are the main results.
-/

namespace SpeechMarkup

open Expansion

/-- A node that looks for a file. -/
inductive Node.LooksFor : Node → String → Prop
  | importing (pos : Position) (name : String) :
      LooksFor (.command pos "import" [.str name] []) name
  | playing (pos : Position) (name : String) :
      LooksFor (.command pos "play" [.str name] []) name

/-- While `nodes` are expanded in `scope` from the store `s`, an import or play finds the
file at `path`. -/
def Expansion.Finds (files : Files) (scope : Scope) (nodes : List Node) (s : Store)
    (path : String) : Prop :=
  ∃ inner n u name, Reaches files scope nodes s inner n u ∧ n.LooksFor name ∧
    locate files inner u name = some path

/-- The first files hold what the others hold, except at hidden paths, where they may hold
something else or something more. -/
structure Files.AgreeOff (hidden : String → Prop) (files files' : Files) : Prop where
  isFile : ∀ path, ¬ hidden path → files.isFile path = true → files'.isFile path = true
  read : ∀ path, ¬ hidden path → files.isFile path = true → files'.read path = files.read path
  more : ∀ path, files'.isFile path = true → files.isFile path = true

namespace Expansion

section Agreement

variable {hidden : String → Prop} {files files' : Files} {scope inner : Scope}
variable {nodes ns body : List Node} {n : Node} {s t u : Store} {name path text : String}

theorem Finds.next
    (hrun : expand files scope n s = (.ok text, t))
    (h : Finds files scope ns t path) :
    Finds files scope (n :: ns) s path := by
  obtain ⟨inner, m, u, name, hreach, hlooks, hlocate⟩ := h
  exact ⟨inner, m, u, name, .next hrun hreach, hlooks, hlocate⟩

theorem Finds.of_calls
    (hcall : Calls files (unbounded files) scope nodes s inner body u)
    (h : Finds files inner body u path) :
    Finds files scope nodes s path := by
  obtain ⟨inner', m, v, name, hreach, hlooks, hlocate⟩ := h
  exact ⟨inner', m, v, name, .of_calls hcall hreach, hlooks, hlocate⟩

theorem locate_agree
    (hagree : files.AgreeOff hidden files')
    (hfound : ∀ path, locate files scope s name = some path → ¬ hidden path) :
    locate files' scope s name = locate files scope s name := by
  cases hlocate : locate files scope s name with
  | none =>
      rw [locate, resolve, List.find?_eq_none] at hlocate ⊢
      exact fun path hpath hfile => hlocate path hpath (hagree.more path hfile)
  | some path =>
      have hvisible := hfound path hlocate
      rw [locate, resolve, List.find?_eq_some_iff_append] at hlocate ⊢
      obtain ⟨hfile, before, after, hsplit, hbefore⟩ := hlocate
      refine ⟨hagree.isFile path hvisible hfile, before, after, hsplit, ?_⟩
      intro other hother
      have hnone := hbefore other hother
      rw [Bool.not_eq_true'] at hnone ⊢
      exact Bool.eq_false_iff.2 fun hfile' =>
        Bool.eq_false_iff.1 hnone (hagree.more other hfile')

/-- A node that does not lead to a hidden path finds the same in both. -/
theorem locate_agree_of_finds
    (hagree : files.AgreeOff hidden files')
    (hlooks : n.LooksFor name)
    (hfound : ∀ path, Finds files scope (n :: ns) s path → ¬ hidden path) :
    locate files' scope s name = locate files scope s name :=
  locate_agree hagree fun path hlocate =>
    hfound path ⟨scope, n, s, name, .here, hlooks, hlocate⟩

/-- Two collections of files give the same run. -/
def SameRun (files files' : Files) (scope : Scope) (nodes : List Node) (s : Store) : Prop :=
  expandAll files' scope nodes s = expandAll files scope nodes s

theorem sameRun_of_nodes
    (hnodes : ∀ n ∈ nodes, ∀ ns s,
      (∀ inner body u, Calls files (unbounded files) scope (n :: ns) s inner body u →
        SameRun files files' inner body u) →
      (∀ path, Finds files scope (n :: ns) s path → ¬ hidden path) →
      expand files' scope n s = expand files scope n s)
    (hcalls : ∀ inner body u, Calls files (unbounded files) scope nodes s inner body u →
      SameRun files files' inner body u)
    (hfound : ∀ path, Finds files scope nodes s path → ¬ hidden path) :
    SameRun files files' scope nodes s := by
  induction nodes generalizing s with
  | nil => simp [SameRun]
  | cons n ns ih =>
      obtain ⟨hn, hns⟩ := List.forall_mem_cons.1 hnodes
      unfold SameRun
      rw [expandAll_cons, expandAll_cons, hn ns s hcalls hfound]
      rcases hrun : expand files scope n s with ⟨d | text, t⟩
      · rfl
      · have hrun' := (expand_eq files scope n s).symm.trans hrun
        have htail : SameRun files files' scope ns t :=
          ih hns (fun inner body u hcall => hcalls inner body u (.next hrun' hcall))
            fun path hfinds => hfound path (hfinds.next hrun)
        dsimp only
        rw [htail]

/-- The step: a node is expanded alike if all that it enters is. -/
theorem expand_agree_of_calls
    (hagree : files.AgreeOff hidden files')
    (n : Node)
    (ns : List Node)
    (s : Store)
    (hcalls : ∀ inner body u, Calls files (unbounded files) scope (n :: ns) s inner body u →
      SameRun files files' inner body u)
    (hfound : ∀ path, Finds files scope (n :: ns) s path → ¬ hidden path) :
    expand files' scope n s = expand files scope n s := by
  induction n using stepInduction scope generalizing ns s with
  | broken n fault _ hrun => rw [expand_eq, expand_eq, hrun, hrun]
  | bypass pos name params command _ _ _ hrun => rw [expand_eq, expand_eq, hrun, hrun]
  | ignore pos name params command _ _ hrun => rw [expand_eq, expand_eq, hrun, hrun]
  | defining n _ _ hrun => rw [expand_eq, expand_eq, hrun, hrun]
  | loop pos count context hfault ih hrun =>
      have hbody : SameRun files files' scope context s := by
        refine sameRun_of_nodes ih
          (fun inner body u hcall => hcalls inner body u (.loop hfault hcall)) ?_
        rintro path ⟨inner, m, u, name, hreach, hlooks, hlocate⟩
        exact hfound path ⟨inner, m, u, name, .loop hfault hreach, hlooks, hlocate⟩
      rw [expand_loop hfault, expand_loop hfault, hbody]
  | bpm pos v _ _ hrun => rw [expand_eq, expand_eq, hrun, hrun]
  | importing pos name hrun =>
      rw [expand_import, expand_import,
        locate_agree_of_finds hagree (.importing pos name) hfound]
      cases hlocate : locate files scope s name with
      | none => rfl
      | some path =>
          have hvisible : ¬ hidden path :=
            hfound path ⟨scope, _, s, name, .here, .importing pos name, hlocate⟩
          have hread := hagree.read path hvisible (isFile_of_locate hlocate)
          dsimp only
          rw [hread]
          cases hinner : scope.enterFile? path with
          | none => rfl
          | some inner =>
              cases htext : files.read path with
              | error e => rfl
              | ok text =>
                  dsimp only
                  cases hbody : Node.ofText text path with
                  | error d => rfl
                  | ok body =>
                      exact hcalls inner body s (.file hlocate hinner htext hbody)
  | naming pos name _ hrun => rw [expand_eq, expand_eq, hrun, hrun]
  | playing pos name hrun =>
      rw [expand_eq, expand_eq, hrun, hrun, play, play, Run.run_bind, Run.run_bind,
        Run.run_get]
      dsimp only
      rw [locate_agree_of_finds hagree (.playing pos name) hfound]
  | speaking p hrun =>
      rw [expand_phoneme, expand_phoneme]
      split
      · rfl
      · rename_i hsymbol
        cases hbody : s.phrase? p.symbol with
        | none => rfl
        | some body =>
            dsimp only
            cases hinner : scope.enterPhrase? p.symbol with
            | none => rfl
            | some inner =>
                exact hcalls inner body s (.phrase (by simpa using hsymbol) hbody hinner)
  | stop pos hrun => rw [expand_eq, expand_eq, hrun, hrun]

/-- A run that finds no hidden path does not depend on what is there. -/
theorem expandAll_agree
    (hagree : files.AgreeOff hidden files')
    (hfound : ∀ path, Finds files scope nodes s path → ¬ hidden path) :
    SameRun files files' scope nodes s := by
  have hstep : ∀ scope nodes s,
      (∀ inner body u, Calls files (unbounded files) scope nodes s inner body u →
        (∀ path, Finds files inner body u path → ¬ hidden path) →
        SameRun files files' inner body u) →
      (∀ path, Finds files scope nodes s path → ¬ hidden path) →
      SameRun files files' scope nodes s := by
    intro scope nodes s ih hfound
    have hcalls : ∀ inner body u, Calls files (unbounded files) scope nodes s inner body u →
        SameRun files files' inner body u := fun inner body u hcall =>
      ih inner body u hcall fun path hfinds => hfound path (hfinds.of_calls hcall)
    exact sameRun_of_nodes (fun n _ => expand_agree_of_calls hagree n) hcalls hfound
  exact callInduction hstep scope nodes s hfound

theorem expand_agree
    (hagree : files.AgreeOff hidden files')
    (hfound : ∀ path, Finds files scope (n :: ns) s path → ¬ hidden path) :
    expand files' scope n s = expand files scope n s :=
  expand_agree_of_calls hagree n ns s
    (fun _ _ _ hcall => expandAll_agree hagree fun path hfinds =>
      hfound path (hfinds.of_calls hcall)) hfound

end Agreement

end Expansion

section Emission

variable {hidden : String → Prop} {files files' : Files} {scope : Scope} {nodes ns : List Node}
variable {n : Node} {s : Store}

theorem process_cons
    (hstop : ∀ pos, n ≠ .stop pos)
    (sink : Sink) :
    process files scope (n :: ns) sink s =
      match expand files scope n s with
      | (.error d, t) => ⟨.error d, sink, t⟩
      | (.ok text, t) =>
        if text.isEmpty then process files scope ns sink t
        else if sink.isFull then ⟨.error ⟨n.pos, .io .sinkFull⟩, sink, t⟩
        else process files scope ns (sink.push text) t := by
  rw [process_eq]
  have hrun := expand_eq files scope n s
  rcases hexpand : expand files scope n s with ⟨d | text, t⟩
  · rw [hexpand] at hrun
    exact emitNodes_of_error hstop hrun.symm
  · rw [hexpand] at hrun
    rw [emitNodes_of_ok hstop hrun.symm, ← process_eq, ← process_eq]

/-- A whole run that finds no hidden path does not depend on what is there. -/
theorem process_agree
    (hagree : files.AgreeOff hidden files')
    (hfound : ∀ path, Finds files scope nodes s path → ¬ hidden path)
    (sink : Sink) :
    process files' scope nodes sink s = process files scope nodes sink s := by
  induction nodes generalizing sink s with
  | nil => simp [process, emitNodes]
  | cons n ns ih =>
      by_cases hstop : ∃ pos, n = .stop pos
      · obtain ⟨pos, rfl⟩ := hstop
        simp [process, emitNodes]
      · have hstop' : ∀ pos, n ≠ .stop pos := fun pos hpos => hstop ⟨pos, hpos⟩
        rw [process_cons hstop', process_cons hstop', expand_agree hagree hfound]
        rcases hrun : expand files scope n s with ⟨d | text, t⟩
        · rfl
        · have htail : ∀ path, Finds files scope ns t path → ¬ hidden path :=
            fun path hfinds => hfound path (hfinds.next hrun)
          dsimp only
          rw [ih htail, ih htail]

end Emission

end SpeechMarkup
