import SpeechMarkup.Proofs.Unbounded

/-!
# Where a fault comes from

An expansion that fails has come to a node that fails on its own account, perhaps deep inside
of files and phrases.  What a node can fail with is settled by the form of the node.

* `Expansion.Reaches` says which nodes a run comes to, at any depth.
* `Expansion.Raises` lists what a node can fail with on its own account.
* `Expansion.exists_origin`: a run that fails comes to a node that raises the fault.
* `origin_of_process` is the same for a program that is handed to a sink.
-/

namespace SpeechMarkup

namespace Expansion

section Reaching

/--
While `nodes` are expanded in `scope` from the store `s`, the run comes to the node `n` in
the scope `inner` and the store `u`.
-/
inductive Reaches (files : Files) : Scope → List Node → Store → Scope → Node → Store → Prop
  | here
      {scope : Scope}
      {n : Node}
      {ns : List Node}
      {s : Store} :
      Reaches files scope (n :: ns) s scope n s
  | next
      {scope inner : Scope}
      {m n : Node}
      {ns : List Node}
      {s t u : Store}
      {text : String}
      (hrun : expand files scope m s = (.ok text, t))
      (h : Reaches files scope ns t inner n u) :
      Reaches files scope (m :: ns) s inner n u
  | loop
      {scope inner : Scope}
      {pos : Position}
      {count : Int}
      {n : Node}
      {context ns : List Node}
      {s u : Store}
      (hfault : commandFault? "loop" [.int count] context = none)
      (h : Reaches files scope context s inner n u) :
      Reaches files scope (.command pos "loop" [.int count] context :: ns) s inner n u
  | file
      {scope middle inner : Scope}
      {pos : Position}
      {name path text : String}
      {n : Node}
      {ns body : List Node}
      {s u : Store}
      (hlocate : locate files scope s name = some path)
      (hmiddle : scope.enterFile? path = some middle)
      (hread : files.read path = .ok text)
      (hbody : Node.ofText text path = .ok body)
      (h : Reaches files middle body s inner n u) :
      Reaches files scope (.command pos "import" [.str name] [] :: ns) s inner n u
  | phrase
      {scope middle inner : Scope}
      {p : Phoneme}
      {n : Node}
      {ns body : List Node}
      {s u : Store}
      (hsymbol : isBuiltinPhoneme p.symbol = false)
      (hbody : s.phrase? p.symbol = some body)
      (hmiddle : scope.enterPhrase? p.symbol = some middle)
      (h : Reaches files middle body s inner n u) :
      Reaches files scope (.phoneme p :: ns) s inner n u

variable {files : Files} {scope inner : Scope} {nodes body : List Node} {n : Node} {s u : Store}

theorem Reaches.of_calls
    (hcall : Calls files (unbounded files) scope nodes s inner body u)
    {inner' : Scope}
    {v : Store}
    (h : Reaches files inner body u inner' n v) :
    Reaches files scope nodes s inner' n v := by
  induction hcall with
  | next hrun _ ih => exact .next ((expand_eq _ _ _ _).trans hrun) (ih h)
  | loop hfault _ ih => exact .loop hfault (ih h)
  | file hlocate hinner hread hbody => exact .file hlocate hinner hread hbody h
  | phrase hsymbol hbody hinner => exact .phrase hsymbol hbody hinner h

end Reaching

section Raising

/-- What a node that a run comes to in the store `s` can fail with on its own account. -/
inductive Raises (s : Store) : Node → Diagnostic → Prop
  | rule
      {n : Node}
      {fault : RuleFault}
      (h : n.check = .error ⟨n.pos, fault⟩) :
      Raises s n ⟨n.pos, .rule fault⟩
  | definition
      {n : Node}
      {fault : RegistrationFault}
      (hn : n.IsDefinition)
      (h : s.define n = .error fault) :
      Raises s n ⟨n.pos, .registration fault⟩
  | loop
      {pos : Position}
      {count : Int}
      {context : List Node}
      {fault : RuntimeFault} :
      Raises s (.command pos "loop" [.int count] context) ⟨pos, .runtime fault⟩
  | missingImport
      {pos : Position}
      {name : String} :
      Raises s (.command pos "import" [.str name] []) ⟨pos, .resolution (.missingImport name)⟩
  | circularImport
      {pos : Position}
      {name path : String} :
      Raises s (.command pos "import" [.str name] []) ⟨pos, .resolution (.circularImport path)⟩
  | unreadable
      {pos : Position}
      {name path : String}
      {cause : FileFault} :
      Raises s (.command pos "import" [.str name] []) ⟨pos, .io (.unreadable path cause)⟩
  | unparsed
      {pos : Position}
      {name path text : String}
      {d : Diagnostic}
      (h : Node.ofText text path = .error d) :
      Raises s (.command pos "import" [.str name] []) d
  | unknownVoice
      {pos : Position}
      {name : String} :
      Raises s (.command pos "name" [.str name] []) ⟨pos, .resolution (.unknownVoice name)⟩
  | missingSound
      {pos : Position}
      {name : String} :
      Raises s (.command pos "play" [.str name] []) ⟨pos, .resolution (.missingSound name)⟩
  | selfReference
      {p : Phoneme} :
      Raises s (.phoneme p) ⟨p.pos, .resolution (.selfReference p.symbol)⟩
  | sound
      {p : Phoneme}
      {fault : RuntimeFault} :
      Raises s (.phoneme p) ⟨p.pos, .runtime fault⟩
  | unknownSymbol
      {p : Phoneme} :
      Raises s (.phoneme p) ⟨p.pos, .resolution (.unknownSymbol p.symbol)⟩

variable {files : Files} {scope : Scope} {s t : Store} {d : Diagnostic}

theorem register_error
    {n : Node}
    (h : (register n).run s = (.error d, t)) :
    ∃ fault, s.define n = .error fault ∧ d = ⟨n.pos, .registration fault⟩ := by
  rw [register, Run.run_bind, Run.run_get] at h
  dsimp only at h
  cases hdefine : s.define n with
  | ok t =>
      rw [hdefine] at h
      cases h
  | error fault =>
      rw [hdefine] at h
      cases h
      exact ⟨fault, rfl, rfl⟩

theorem selectVoice_error
    {pos : Position}
    {params : List Param}
    {name : String}
    (h : (selectVoice pos params name).run s = (.error d, t)) :
    d = ⟨pos, .resolution (.unknownVoice name)⟩ := by
  unfold selectVoice at h
  split at h
  · cases h
  · rw [Run.run_bind, Run.run_get] at h
    dsimp only at h
    cases hvoice : s.voice? name with
    | some settings =>
        rw [hvoice] at h
        cases h
    | none =>
        rw [hvoice] at h
        cases h
        rfl

theorem play_error
    {pos : Position}
    {name : String}
    {more : List Param}
    (h : (play files scope pos name more).run s = (.error d, t)) :
    d = ⟨pos, .resolution (.missingSound name)⟩ := by
  rw [play, Run.run_bind, Run.run_get] at h
  dsimp only at h
  cases hlocate : locate files scope s name with
  | some path =>
      rw [hlocate] at h
      cases h
  | none =>
      rw [hlocate] at h
      cases h
      rfl

theorem lift_runtime_error
    {pos : Position}
    {result : Except RuntimeFault String}
    (h : (Run.lift pos .runtime result).run s = (.error d, t)) :
    ∃ fault, d = ⟨pos, .runtime fault⟩ := by
  cases result with
  | ok text => cases h
  | error fault =>
      cases h
      exact ⟨fault, rfl⟩

/-- An import fails before it enters the file, or in the nodes of the file. -/
theorem expand_import_error
    {pos : Position}
    {name : String}
    (h : expand files scope (.command pos "import" [.str name] []) s = (.error d, t)) :
    Raises s (.command pos "import" [.str name] []) d ∨
      ∃ path inner text body, locate files scope s name = some path ∧
        scope.enterFile? path = some inner ∧ files.read path = .ok text ∧
        Node.ofText text path = .ok body ∧ expandAll files inner body s = (.error d, t) := by
  rw [expand_import] at h
  split at h
  · cases h
    exact Or.inl .missingImport
  · rename_i path hlocate
    split at h
    · cases h
      exact Or.inl .circularImport
    · rename_i inner hinner
      split at h
      · cases h
        exact Or.inl .unreadable
      · rename_i text hread
        split at h
        · rename_i e he
          cases h
          exact Or.inl (.unparsed he)
        · rename_i body hbody
          exact Or.inr ⟨path, inner, text, body, hlocate, hinner, hread, hbody, h⟩

/-- A phoneme fails where it stands, or in the body of the phrase that it calls. -/
theorem expand_phoneme_error
    {p : Phoneme}
    (h : expand files scope (.phoneme p) s = (.error d, t)) :
    Raises s (.phoneme p) d ∨
      ∃ inner body, isBuiltinPhoneme p.symbol = false ∧ s.phrase? p.symbol = some body ∧
        scope.enterPhrase? p.symbol = some inner ∧
        expandAll files inner body s = (.error d, t) := by
  rw [expand_phoneme] at h
  split at h
  · cases h
  · rename_i hbuiltin
    split at h
    · rename_i body hbody
      split at h
      · rename_i inner hinner
        exact Or.inr ⟨inner, body, by simpa using hbuiltin, hbody, hinner, h⟩
      · cases h
        exact Or.inl .selfReference
    · split at h
      · obtain ⟨fault, rfl⟩ := lift_runtime_error h
        exact Or.inl .sound
      · cases h
        exact Or.inl .unknownSymbol

end Raising

section Origins

variable {files : Files} {scope : Scope}

/-- The run comes to a node that raises the fault. -/
def HasOrigin (files : Files) (scope : Scope) (nodes : List Node) (s : Store)
    (d : Diagnostic) : Prop :=
  ∃ inner n u, Reaches files scope nodes s inner n u ∧ Raises u n d

/-- Every fault that the run can fail with is raised by a node that it comes to. -/
def Accounts (files : Files) (scope : Scope) (nodes : List Node) (s : Store) : Prop :=
  ∀ d t, expandAll files scope nodes s = (.error d, t) → HasOrigin files scope nodes s d

theorem HasOrigin.of_calls
    {inner : Scope}
    {nodes body : List Node}
    {s u : Store}
    {d : Diagnostic}
    (hcall : Calls files (unbounded files) scope nodes s inner body u)
    (h : HasOrigin files inner body u d) :
    HasOrigin files scope nodes s d := by
  obtain ⟨inner', n, v, hreach, hraises⟩ := h
  exact ⟨inner', n, v, .of_calls hcall hreach, hraises⟩

/-- The step from node to node: the first one that fails ends the run. -/
theorem accounts_of_nodes
    {nodes : List Node}
    {s : Store}
    (hnodes : ∀ n ∈ nodes, ∀ ns s,
      (∀ inner body u, Calls files (unbounded files) scope (n :: ns) s inner body u →
        Accounts files inner body u) →
      ∀ d t, expand files scope n s = (.error d, t) → HasOrigin files scope (n :: ns) s d)
    (hcalls : ∀ inner body u, Calls files (unbounded files) scope nodes s inner body u →
      Accounts files inner body u) :
    Accounts files scope nodes s := by
  induction nodes generalizing s with
  | nil =>
      intro d t hrun
      rw [expandAll_nil] at hrun
      cases hrun
  | cons n ns ih =>
      obtain ⟨hn, hns⟩ := List.forall_mem_cons.1 hnodes
      intro d t hrun
      rcases hhead : expand files scope n s with ⟨e | text, u⟩
      · rw [expandAll_cons_of_error hhead] at hrun
        cases hrun
        exact hn ns s hcalls d t hhead
      · rw [expandAll_cons, hhead] at hrun
        dsimp only at hrun
        rcases htail : expandAll files scope ns u with ⟨e | more, v⟩
        · rw [htail] at hrun
          cases hrun
          have hcalls' : ∀ inner body w, Calls files (unbounded files) scope ns u inner body w →
              Accounts files inner body w := fun inner body w hcall =>
            hcalls inner body w (.next ((expand_eq _ _ _ _).symm.trans hhead) hcall)
          obtain ⟨inner, m, w, hreach, hraises⟩ := ih hns hcalls' d t htail
          exact ⟨inner, m, w, .next hhead hreach, hraises⟩
        · rw [htail] at hrun
          cases hrun

/-- A node fails on its own account, or in nodes that it holds or calls. -/
theorem hasOrigin_of_expand
    (n : Node)
    (ns : List Node)
    (s : Store)
    (hcalls : ∀ inner body u, Calls files (unbounded files) scope (n :: ns) s inner body u →
      Accounts files inner body u)
    (d : Diagnostic)
    (t : Store)
    (hfail : expand files scope n s = (.error d, t)) :
    HasOrigin files scope (n :: ns) s d := by
  -- The induction is for loops; what files and phrases hold is left to `hcalls`.
  induction n using stepInduction scope generalizing ns s d t with
  | broken n fault hfault hrun =>
      rw [expand_eq, hrun] at hfail
      cases hfail
      exact ⟨scope, n, s, .here, .rule (Node.check_eq_error_iff.2 ⟨hfault, rfl⟩)⟩
  | bypass pos name params command _ _ _ hrun =>
      rw [expand_eq, hrun] at hfail
      cases hfail
  | ignore pos name params command _ _ hrun =>
      rw [expand_eq, hrun] at hfail
      cases hfail
  | defining n _ hdefinition hrun =>
      rw [expand_eq, hrun] at hfail
      obtain ⟨fault, hfault, rfl⟩ := register_error hfail
      exact ⟨scope, n, s, .here, .definition hdefinition hfault⟩
  | loop pos count context hfault ih hrun =>
      rw [expand_loop hfault] at hfail
      rcases hbody : expandAll files scope context s with ⟨e | text, u⟩
      · rw [hbody] at hfail
        cases hfail
        have hcontext : Accounts files scope context s :=
          accounts_of_nodes ih fun inner body u hcall => hcalls inner body u (.loop hfault hcall)
        obtain ⟨inner, m, u, hreach, hraises⟩ := hcontext d t hbody
        exact ⟨inner, m, u, .loop hfault hreach, hraises⟩
      · rw [hbody] at hfail
        obtain ⟨fault, rfl⟩ := lift_runtime_error hfail
        exact ⟨scope, _, s, .here, .loop⟩
  | bpm pos v _ _ hrun =>
      rw [expand_eq, hrun] at hfail
      cases hfail
  | importing pos name hrun =>
      rcases expand_import_error hfail with hraises |
        ⟨path, inner, text, body, hlocate, hinner, hread, hbody, hrest⟩
      · exact ⟨scope, _, s, .here, hraises⟩
      · have hcall : Calls files (unbounded files) scope
            (.command pos "import" [.str name] [] :: ns) s inner body s :=
          .file hlocate hinner hread hbody
        exact (hcalls inner body s hcall d t hrest).of_calls hcall
  | naming pos name _ hrun =>
      rw [expand_eq, hrun] at hfail
      obtain rfl := selectVoice_error hfail
      exact ⟨scope, _, s, .here, .unknownVoice⟩
  | playing pos name hrun =>
      rw [expand_eq, hrun] at hfail
      obtain rfl := play_error hfail
      exact ⟨scope, _, s, .here, .missingSound⟩
  | speaking p hrun =>
      rcases expand_phoneme_error hfail with hraises | ⟨inner, body, hsymbol, hbody, hinner, hrest⟩
      · exact ⟨scope, _, s, .here, hraises⟩
      · have hcall : Calls files (unbounded files) scope (.phoneme p :: ns) s inner body s :=
          .phrase hsymbol hbody hinner
        exact (hcalls inner body s hcall d t hrest).of_calls hcall
  | stop pos hrun =>
      rw [expand_eq, hrun] at hfail
      cases hfail

/-- A run that fails comes to a node that raises the fault. -/
theorem exists_origin
    {nodes : List Node}
    {s t : Store}
    {d : Diagnostic}
    (h : expandAll files scope nodes s = (.error d, t)) :
    HasOrigin files scope nodes s d := by
  have hstep : ∀ scope nodes s,
      (∀ inner body u, Calls files (unbounded files) scope nodes s inner body u →
        Accounts files inner body u) →
      Accounts files scope nodes s := fun _ _ _ hcalls =>
    accounts_of_nodes (fun n _ => hasOrigin_of_expand n) hcalls
  exact callInduction hstep scope nodes s d t h

end Origins

end Expansion

open Expansion

section Runs

variable {files : Files} {scope : Scope} {nodes : List Node} {s : Store} {d : Diagnostic}

theorem expandAll_of_course_fault
    {t : Store}
    (h : (course files scope nodes s).fault = some (d, t)) :
    expandAll files scope nodes s = (.error d, t) := by
  induction nodes generalizing s with
  | nil => cases h
  | cons n ns ih =>
      rcases hhead : expand files scope n s with ⟨e | text, u⟩
      · rw [course_cons_of_error hhead] at h
        cases h
        exact expandAll_cons_of_error hhead
      · rw [course_cons_of_ok hhead] at h
        rw [expandAll_cons, hhead]
        dsimp only
        rw [ih h]

theorem deliver_error
    {fault : Option (Diagnostic × Store)}
    {es : List Expanded}
    {sink : Sink}
    (h : (deliver fault es sink s).result = .error d) :
    (∃ e ∈ es, d = ⟨e.node.pos, .io .sinkFull⟩) ∨ ∃ t, fault = some (d, t) := by
  induction es generalizing sink s with
  | nil =>
      cases fault with
      | none => cases h
      | some e =>
          obtain ⟨e, t⟩ := e
          cases h
          exact Or.inr ⟨t, rfl⟩
  | cons e es ih =>
      have hlater : (∃ e' ∈ es, d = ⟨e'.node.pos, .io .sinkFull⟩) →
          ∃ e' ∈ e :: es, d = ⟨e'.node.pos, .io .sinkFull⟩ :=
        fun ⟨e', he', hd⟩ => ⟨e', List.mem_cons_of_mem e he', hd⟩
      rw [deliver] at h
      split at h
      · exact (ih h).imp_left hlater
      · split at h
        · cases h
          exact Or.inl ⟨e, List.mem_cons_self, rfl⟩
        · exact (ih h).imp_left hlater

/-- A program fails for a sink that is full, or with a fault that a node before its end
raises. -/
theorem origin_of_process
    {sink : Sink}
    (h : (process files scope nodes sink s).result = .error d) :
    d.value = .io .sinkFull ∨ HasOrigin files scope (Node.untilStop nodes) s d := by
  rw [process_eq_deliver] at h
  rcases deliver_error h with ⟨e, -, rfl⟩ | ⟨t, ht⟩
  · exact Or.inl rfl
  · exact Or.inr (exists_origin (expandAll_of_course_fault ht))

end Runs

end SpeechMarkup
