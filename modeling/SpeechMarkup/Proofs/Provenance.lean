import SpeechMarkup.Proofs.Origins
import SpeechMarkup.Proofs.Placement

/-!
# Where diagnostics point

Every diagnostic of a compilation points into the text that it names, which is that of the
program or of a file that was imported on the way.  Nodes keep their places when they are stored
as phrases, so this also holds where a phrase is called from another file.

* `Expansion.Imports` says which files a run imports, and what it reads in them.
* `Known` are places in texts that are known, and `Store.Placed` says that the stored phrases
  stand at such places.
* `Expansion.Traced` says this of the store that a run leaves, and that its fault points into a
  known text.  `Expansion.tracked_of_nodes` and `Expansion.traced_of_expand` are the steps of a
  run, and `Expansion.expandAll_traced` is the run.
* `compile_pointsInto` is the main result.
-/

namespace SpeechMarkup

section Known

variable {known : String → String → Prop} {s t : Store} {n : Node}

/-- A token of a known text starts at the place. -/
def Known (known : String → String → Prop) (pos : Position) : Prop :=
  ∃ text, known pos.file text ∧ StartsToken text pos

/-- The nodes of stored phrases stand at places of some sort. -/
def Store.Placed (P : Position → Prop) (s : Store) : Prop :=
  ∀ e ∈ s.phrases, ∀ n ∈ e.2, n.Placed P

/-- A definition takes its nodes along. -/
theorem Store.Placed.define
    {P : Position → Prop}
    (hs : s.Placed P)
    (hn : n.Placed P)
    (hdefine : s.define n = .ok t) :
    t.Placed P := by
  rcases Store.define_eq_ok hdefine with
    ⟨pos, name, more, context, rfl, -, rfl⟩ | ⟨pos, name, more, context, rfl, -, rfl⟩ |
    ⟨v, rfl, -, -, rfl⟩
  · intro e he
    rcases List.mem_append.1 he with he | he
    · exact hs e he
    · rw [List.mem_singleton.1 he]
      cases hn with
      | command _ hcontext => exact hcontext
  · exact hs
  · exact hs

theorem placed_of_known
    {text path : String}
    {nodes : List Node}
    (hknown : known path text)
    (h : Node.ofText text path = .ok nodes) :
    ∀ n ∈ nodes, n.Placed (Known known) := by
  intro n hn
  refine (Node.placed_of_ofText h n hn).imp ?_
  rintro pos ⟨rfl, htoken⟩
  exact ⟨text, hknown, htoken⟩

end Known

namespace Expansion

section Imports

variable {files : Files} {scope inner : Scope} {nodes ns body : List Node} {n : Node}
variable {s t u : Store} {path text : String}

/-- While `nodes` are expanded in `scope` from the store `s`, the run comes to an import of the
file `path` and reads `text` in it. -/
def Imports (files : Files) (scope : Scope) (nodes : List Node) (s : Store)
    (path text : String) : Prop :=
  ∃ inner pos name u middle,
    Reaches files scope nodes s inner (.command pos "import" [.str name] []) u ∧
    locate files inner u name = some path ∧ inner.enterFile? path = some middle ∧
    files.read path = .ok text

theorem Imports.next
    {output : String}
    (hrun : expand files scope n s = (.ok output, t))
    (h : Imports files scope ns t path text) :
    Imports files scope (n :: ns) s path text := by
  obtain ⟨inner, pos, name, u, middle, hreaches, hfile⟩ := h
  exact ⟨inner, pos, name, u, middle, .next hrun hreaches, hfile⟩

theorem Imports.loop
    {pos : Position}
    {count : Int}
    (hfault : commandFault? "loop" [.int count] body = none)
    (h : Imports files scope body s path text) :
    Imports files scope (.command pos "loop" [.int count] body :: ns) s path text := by
  obtain ⟨inner, pos, name, u, middle, hreaches, hfile⟩ := h
  exact ⟨inner, pos, name, u, middle, .loop hfault hreaches, hfile⟩

theorem Imports.of_calls
    (hcall : Calls files (unbounded files) scope nodes s inner body u)
    (h : Imports files inner body u path text) :
    Imports files scope nodes s path text := by
  obtain ⟨inner, pos, name, v, middle, hreaches, hfile⟩ := h
  exact ⟨inner, pos, name, v, middle, .of_calls hcall hreaches, hfile⟩

end Imports

section Tracing

variable {known : String → String → Prop} {files : Files} {scope : Scope}

/-- The run leaves a store whose phrases stand in known texts, and if it fails, the fault points
into a known text. -/
structure Traced (known : String → String → Prop)
    (out : Except Diagnostic String × Store) : Prop where
  store : out.2.Placed (Known known)
  fault : ∀ d, out.1 = .error d → ∃ text, known d.pos.file text ∧ d.PointsInto text

theorem Traced.ok
    {output : String}
    {s : Store}
    (hs : s.Placed (Known known)) :
    Traced known (.ok output, s) := by
  refine ⟨hs, ?_⟩
  rintro d ⟨⟩

theorem Traced.fail
    {pos : Position}
    {fault : Fault}
    {s : Store}
    (hs : s.Placed (Known known))
    (hpos : Known known pos) :
    Traced known (.error ⟨pos, fault⟩, s) := by
  refine ⟨hs, ?_⟩
  rintro d ⟨⟩
  obtain ⟨text, hknown, htoken⟩ := hpos
  exact ⟨text, hknown, StartsToken.pointsInto htoken⟩

/-- What fails at one place only is traced if that place is known. -/
theorem Traced.of_run
    {m : Run String}
    {pos : Position}
    {s : Store}
    (hkeeps : m.Keeps (Store.Placed (Known known)) (fun _ => True) fun _ => True)
    (hfail : ∀ d t, m.run s = (.error d, t) → d.pos = pos)
    (hs : s.Placed (Known known))
    (hpos : Known known pos) :
    Traced known (m.run s) := by
  obtain ⟨hstore, -⟩ := hkeeps s hs
  rcases hrun : m.run s with ⟨d | output, t⟩
  · rw [hrun] at hstore
    obtain rfl := hfail d t hrun
    exact .fail hstore hpos
  · rw [hrun] at hstore
    exact .ok hstore

/-- The run is traced if all that it imports is known, and all that it starts with. -/
def Tracked (known : String → String → Prop) (files : Files) (scope : Scope)
    (nodes : List Node) (s : Store) : Prop :=
  (∀ path text, Imports files scope nodes s path text → known path text) →
  (∀ n ∈ nodes, n.Placed (Known known)) → s.Placed (Known known) →
  Traced known (expandAll files scope nodes s)

/-- The step from node to node. -/
theorem tracked_of_nodes
    {nodes : List Node}
    {s : Store}
    (hnodes : ∀ n ∈ nodes, ∀ ns s,
      (∀ inner body u, Calls files (unbounded files) scope (n :: ns) s inner body u →
        Tracked known files inner body u) →
      (∀ path text, Imports files scope (n :: ns) s path text → known path text) →
      n.Placed (Known known) → s.Placed (Known known) →
      Traced known (expand files scope n s))
    (hcalls : ∀ inner body u, Calls files (unbounded files) scope nodes s inner body u →
      Tracked known files inner body u) :
    Tracked known files scope nodes s := by
  intro himports hplaced hs
  induction nodes generalizing s with
  | nil =>
      rw [expandAll_nil]
      exact .ok hs
  | cons n ns ih =>
      obtain ⟨hn, hns⟩ := List.forall_mem_cons.1 hnodes
      obtain ⟨hplace, hplaces⟩ := List.forall_mem_cons.1 hplaced
      have htraced := hn ns s hcalls himports hplace hs
      rcases hhead : expand files scope n s with ⟨e | output, t⟩
      · rw [expandAll_cons_of_error hhead]
        rw [hhead] at htraced
        exact htraced
      · rw [hhead] at htraced
        have htail : Traced known (expandAll files scope ns t) := by
          refine ih hns ?_ ?_ hplaces htraced.store
          · intro inner body u hcall
            exact hcalls inner body u (.next ((expand_eq _ _ _ _).symm.trans hhead) hcall)
          · intro path text himport
            exact himports path text (.next hhead himport)
        rw [expandAll_cons, hhead]
        dsimp only
        rcases hrest : expandAll files scope ns t with ⟨e | more, u⟩
        · rw [hrest] at htail
          exact htail
        · rw [hrest] at htail
          exact .ok htail.store

/-- A node fails where it stands, in nodes that it holds, or in those that it calls. -/
theorem traced_of_expand
    (n : Node)
    (ns : List Node)
    (s : Store)
    (hcalls : ∀ inner body u, Calls files (unbounded files) scope (n :: ns) s inner body u →
      Tracked known files inner body u)
    (himports : ∀ path text, Imports files scope (n :: ns) s path text → known path text)
    (hn : n.Placed (Known known))
    (hs : s.Placed (Known known)) :
    Traced known (expand files scope n s) := by
  induction n using stepInduction scope generalizing ns s with
  | broken n fault hfault hrun =>
      rw [expand_eq, hrun]
      refine .fail hs (hn.pos ?_)
      cases n <;> first | rfl | cases hfault
  | bypass pos name params command _ _ _ hrun =>
      rw [expand_eq, hrun]
      exact .ok hs
  | ignore pos name params command _ _ hrun =>
      rw [expand_eq, hrun]
      exact .ok hs
  | defining n _ hdefinition hrun =>
      have hpos : Known known n.pos := hn.pos (by cases hdefinition <;> rfl)
      rw [expand_eq, hrun]
      refine .of_run ?_ ?_ hs hpos
      · exact register_keeps (fun _ _ => trivial) trivial fun _ _ hs hdefine => hs.define hn hdefine
      · intro d t hfail
        obtain ⟨fault, -, rfl⟩ := register_error hfail
        rfl
  | loop pos count context hfault ih hrun =>
      cases hn with
      | command hpos hcontext =>
          have hcalls' : ∀ inner body u,
              Calls files (unbounded files) scope context s inner body u →
              Tracked known files inner body u :=
            fun inner body u hcall => hcalls inner body u (.loop hfault hcall)
          have htraced := tracked_of_nodes ih hcalls'
            (fun path text himport => himports path text (.loop hfault himport)) hcontext hs
          rw [expand_loop hfault]
          rcases hbody : expandAll files scope context s with ⟨e | text, t⟩
          · rw [hbody] at htraced
            exact htraced
          · rw [hbody] at htraced
            dsimp only
            cases repeatText count.toNat text with
            | ok output => exact .ok htraced.store
            | error fault => exact .fail htraced.store hpos
  | bpm pos v _ _ hrun =>
      rw [expand_eq, hrun]
      exact .ok hs
  | importing pos name hrun =>
      have hpos : Known known pos := hn.pos rfl
      rw [expand_import]
      split
      · exact .fail hs hpos
      · rename_i path hlocate
        split
        · exact .fail hs hpos
        · rename_i inner hinner
          split
          · exact .fail hs hpos
          · rename_i text hread
            have hknown : known path text :=
              himports path text ⟨scope, pos, name, s, inner, .here, hlocate, hinner, hread⟩
            split
            · rename_i d hfault
              obtain ⟨hfile, hpoints⟩ := Diagnostic.pointsInto_of_ofText hfault
              refine ⟨hs, ?_⟩
              rintro e ⟨⟩
              exact ⟨text, hfile ▸ hknown, hpoints⟩
            · rename_i body hbody
              have hcall : Calls files (unbounded files) scope
                  (.command pos "import" [.str name] [] :: ns) s inner body s :=
                .file hlocate hinner hread hbody
              exact hcalls inner body s hcall
                (fun path text himport => himports path text (.of_calls hcall himport))
                (placed_of_known hknown hbody) hs
  | naming pos name _ hrun =>
      rw [expand_eq, hrun]
      refine .of_run ?_ ?_ hs (hn.pos rfl)
      · exact selectVoice_keeps (fun _ _ => trivial) (fun _ => trivial) fun _ _ _ _ => trivial
      · intro d t hfail
        rw [selectVoice_error hfail]
        rfl
  | playing pos name hrun =>
      rw [expand_eq, hrun]
      refine .of_run ?_ ?_ hs (hn.pos rfl)
      · exact play_keeps (fun _ _ => trivial) fun _ _ _ _ => trivial
      · intro d t hfail
        rw [play_error hfail]
        rfl
  | speaking p hrun =>
      have hpos : Known known p.pos := hn.pos rfl
      rw [expand_phoneme]
      split
      · exact .ok hs
      · rename_i hbuiltin
        split
        · rename_i body hbody
          split
          · rename_i inner hinner
            have hcall : Calls files (unbounded files) scope (.phoneme p :: ns) s inner body s :=
              .phrase (by simpa using hbuiltin) hbody hinner
            exact hcalls inner body s hcall
              (fun path text himport => himports path text (.of_calls hcall himport))
              (hs _ (mem_of_lookup_eq_some hbody)) hs
          · exact .fail hs hpos
        · split
          · rename_i sound hsound
            cases expandSound p sound (p.duration.toMillis s.unit) with
            | ok output => exact .ok hs
            | error fault => exact .fail hs hpos
          · exact .fail hs hpos
  | stop pos hrun =>
      rw [expand_eq, hrun]
      exact .ok hs

/-- A run that starts in known texts, and imports no others, ends in known texts. -/
theorem expandAll_traced
    {nodes : List Node}
    {s : Store}
    (himports : ∀ path text, Imports files scope nodes s path text → known path text)
    (hnodes : ∀ n ∈ nodes, n.Placed (Known known))
    (hs : s.Placed (Known known)) :
    Traced known (expandAll files scope nodes s) := by
  have hstep : ∀ scope nodes s,
      (∀ inner body u, Calls files (unbounded files) scope nodes s inner body u →
        Tracked known files inner body u) →
      Tracked known files scope nodes s := fun _ _ _ hcalls =>
    tracked_of_nodes (fun n _ => traced_of_expand n) hcalls
  exact callInduction hstep scope nodes s himports hnodes hs

end Tracing

end Expansion

open Expansion

section Compilations

variable {files : Files} {scope : Scope} {nodes : List Node} {s : Store} {d : Diagnostic}

theorem mem_of_expanded
    {e : Expanded}
    (h : e ∈ (course files scope nodes s).expanded) :
    e.node ∈ nodes := by
  induction nodes generalizing s with
  | nil => cases h
  | cons n ns ih =>
      rcases hhead : expand files scope n s with ⟨d | text, t⟩
      · rw [course_cons_of_error hhead] at h
        cases h
      · rw [course_cons_of_ok hhead] at h
        rcases List.mem_cons.1 h with rfl | h
        · exact List.mem_cons_self
        · exact List.mem_cons_of_mem n (ih h)

/-- A program fails at one of its own nodes if the sink is full, and else in a known text. -/
theorem process_pointsInto
    {known : String → String → Prop}
    {sink : Sink}
    (himports : ∀ path text,
      Imports files scope (Node.untilStop nodes) s path text → known path text)
    (hnodes : ∀ n ∈ nodes, n.Placed (Known known))
    (hs : s.Placed (Known known))
    (h : (process files scope nodes sink s).result = .error d) :
    ∃ text, known d.pos.file text ∧ d.PointsInto text := by
  have huntil : ∀ n ∈ Node.untilStop nodes, n.Placed (Known known) := fun n hn =>
    hnodes n (List.takeWhile_subset _ hn)
  rw [process_eq_deliver] at h
  rcases deliver_error h with ⟨e, he, rfl⟩ | ⟨t, ht⟩
  · have hmem := mem_of_expanded he
    obtain ⟨text, hknown, htoken⟩ :=
      (huntil _ hmem).pos (Node.isStop_untilStop nodes _ hmem)
    exact ⟨text, hknown, StartsToken.pointsInto htoken⟩
  · have htraced := expandAll_traced himports huntil hs
    rw [expandAll_of_course_fault ht] at htraced
    exact htraced.fault d rfl

/-- The compilation of the source, from the store `s`, imports the file `path` and reads `text`
in it. -/
def Source.Imports (files : Files) (source : Source) (s : Store) (path text : String) : Prop :=
  ∃ nodes, Node.ofText source.text source.fileId = .ok nodes ∧
    Expansion.Imports files (source.scope s) (Node.untilStop nodes) s path text

/--
A compilation from a new store that fails reports a fault in the text of the program, under the
name of the program, or in the text of a file that it imports, under the path of that file.  The
place of the fault is a place in that text, where a token starts unless the text cannot be
scanned.
-/
theorem compile_pointsInto
    {files : Files}
    {source : Source}
    {sink : Sink}
    {workDir : String}
    {includes : List String}
    {d : Diagnostic}
    (h : (source.compile files sink (Store.new workDir includes)).result = .error d) :
    (d.pos.file = source.fileId ∧ d.PointsInto source.text) ∨
      ∃ text, source.Imports files (Store.new workDir includes) d.pos.file text ∧
        d.PointsInto text := by
  unfold Source.compile at h
  split at h
  · rename_i e he
    obtain rfl := Except.error.inj h
    exact Or.inl (Diagnostic.pointsInto_of_ofText he)
  · rename_i nodes hnodes
    let known : String → String → Prop := fun path text =>
      (path = source.fileId ∧ text = source.text) ∨
        source.Imports files (Store.new workDir includes) path text
    have hplaced : ∀ n ∈ nodes, n.Placed (Known known) :=
      placed_of_known (Or.inl ⟨rfl, rfl⟩) hnodes
    have hstore : (Store.new workDir includes).Placed (Known known) := by
      rintro e ⟨⟩
    obtain ⟨text, hknown, hpoints⟩ := process_pointsInto
      (fun path text himport => Or.inr ⟨nodes, hnodes, himport⟩) hplaced hstore h
    rcases hknown with ⟨hfile, rfl⟩ | himport
    · exact Or.inl ⟨hfile, hpoints⟩
    · exact Or.inr ⟨text, himport, hpoints⟩

/-- A file that defines a phrase with an unknown symbol in its second line. -/
def songbook : Listing :=
  .ofList [("/work/lib", some "[:phrase hi] \x7b\n  aa zz \x7d")]

/-- A program that calls the phrase. -/
def singing : Source where
  text := "[:import lib] hi"

/-- The fault lies in the phrase, and not where it is called. -/
theorem compile_pointsInto_songbook :
    ∃ d text,
      (singing.compile songbook.files {} (Store.new "/work" [])).result = .error d ∧
      d.kind = "ResolutionError" ∧ d.pos = ⟨"/work/lib", 20, 1, 5⟩ ∧
      singing.Imports songbook.files (Store.new "/work" []) "/work/lib" text ∧
      d.PointsInto text := by
  have hfault : (singing.compile songbook.files {} (Store.new "/work" [])).result =
      .error ⟨⟨"/work/lib", 20, 1, 5⟩, .resolution (.unknownSymbol "zz")⟩ := by
    decide +kernel
  rcases compile_pointsInto hfault with ⟨hfile, -⟩ | ⟨text, himports, hpoints⟩
  · exact absurd hfile (by decide)
  · exact ⟨_, text, hfault, rfl, rfl, himports, hpoints⟩

end Compilations

end SpeechMarkup
