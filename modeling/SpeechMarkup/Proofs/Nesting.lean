import SpeechMarkup.Proofs.PhraseNames
import SpeechMarkup.Proofs.Steps

/-!
# Imports and replays end

An import enters a file that is not being read, a replay enters a phrase that is not
being replayed.  Files are finitely many, and so are the names that a phrase can have.

* `Expansion.left` counts the files and phrases that can still be entered; each call
  takes one from it (`Expansion.Calls.within`).
* `Expansion.nest_congr`: enough room is as good as any more.
* `Expansion.Descent` follows the imports and replays that are nested in a run.
* `process_depth_bounded` is the main result.
-/

namespace SpeechMarkup

namespace Expansion

section Measure

/-- Nodes define phrases only under names of `N`. -/
def NodesWithin (N : Set String) (nodes : List Node) : Prop :=
  ∀ x ∈ Node.phraseNamesAll nodes, x ∈ N

/-- Phrases are stored only under names of `N`, and define phrases only under these. -/
def StoreWithin (N : Set String) (s : Store) : Prop :=
  ∀ e ∈ s.phrases, e.1 ∈ N ∧ NodesWithin N e.2

/-- Files define phrases only under names of `N`. -/
def FilesWithin (N : Set String) (files : Files) : Prop :=
  ∀ path text body, files.isFile path = true → files.read path = .ok text →
    Node.ofText text path = .ok body → NodesWithin N body

/-- The number of imports and replays that can still be entered from a scope. -/
noncomputable def left (N : Set String) (files : Files) (scope : Scope) : Nat :=
  (filePaths files \ {path | path ∈ scope.reading}).ncard +
    (N \ {name | name ∈ scope.replaying}).ncard

variable {N : Set String} {files : Files} {scope inner : Scope}

theorem ncard_diff_cons
    {A : Set String}
    {xs : List String}
    {x : String}
    (hfinite : A.Finite)
    (hmem : x ∈ A)
    (hfresh : x ∉ xs) :
    (A \ {y | y ∈ x :: xs}).ncard + 1 = (A \ {y | y ∈ xs}).ncard := by
  have hset : A \ {y | y ∈ x :: xs} = (A \ {y | y ∈ xs}) \ {x} := by
    ext y
    simp only [Set.mem_sdiff, Set.mem_ofPred_eq, List.mem_cons, Set.mem_singleton_iff, not_or]
    tauto
  rw [hset]
  exact Set.ncard_sdiff_singleton_add_one ⟨hmem, hfresh⟩ hfinite.sdiff

theorem isFile_of_locate
    {s : Store}
    {name path : String}
    (h : locate files scope s name = some path) :
    files.isFile path = true :=
  List.find?_some h

/-- Each import takes one from what is left. -/
theorem left_enterFile?
    (N : Set String)
    {path : String}
    (hfile : files.isFile path = true)
    (h : scope.enterFile? path = some inner) :
    left N files inner + 1 = left N files scope := by
  obtain ⟨hfresh, rfl⟩ := Scope.enterFile?_eq_some h
  have hcard := ncard_diff_cons (finite_filePaths files) hfile hfresh
  unfold left
  dsimp only
  omega

/-- Each replay takes one from what is left. -/
theorem left_enterPhrase?
    (files : Files)
    {name : String}
    (hN : N.Finite)
    (hname : name ∈ N)
    (h : scope.enterPhrase? name = some inner) :
    left N files inner + 1 = left N files scope := by
  obtain ⟨hfresh, rfl⟩ := Scope.enterPhrase?_eq_some h
  have hcard := ncard_diff_cons hN hname hfresh
  unfold left
  dsimp only
  omega

theorem left_le (hN : N.Finite) (scope : Scope) :
    left N files scope ≤ (filePaths files).ncard + N.ncard := by
  unfold left
  have hfiles := Set.ncard_le_ncard (Set.sdiff_subset (s := filePaths files)
    (t := {path | path ∈ scope.reading})) (finite_filePaths files)
  have hnames := Set.ncard_le_ncard (Set.sdiff_subset (s := N)
    (t := {name | name ∈ scope.replaying})) hN
  omega

theorem NodesWithin.mem
    {nodes : List Node}
    (h : NodesWithin N nodes)
    {n : Node}
    (hn : n ∈ nodes) :
    NodesWithin N [n] := by
  intro x hx
  rw [Node.mem_phraseNamesAll] at hx
  obtain ⟨m, hm, hx⟩ := hx
  rw [List.mem_singleton.1 hm] at hx
  exact h x (Node.mem_phraseNamesAll.2 ⟨n, hn, hx⟩)

theorem NodesWithin.tail
    {n : Node}
    {nodes : List Node}
    (h : NodesWithin N (n :: nodes)) :
    NodesWithin N nodes := by
  intro x hx
  exact h x (List.mem_append_right _ hx)

theorem NodesWithin.context
    {pos : Position}
    {name : String}
    {params : List Param}
    {context : List Node}
    (h : NodesWithin N [.command pos name params context]) :
    NodesWithin N context := by
  intro x hx
  refine h x ?_
  simp [Node.phraseNamesAll, Node.phraseNames, hx]

theorem StoreWithin.of_phrases_eq
    {s t : Store}
    (h : StoreWithin N s)
    (heq : t.phrases = s.phrases) :
    StoreWithin N t := by
  unfold StoreWithin
  rw [heq]
  exact h

/-- Definitions stay within the names. -/
theorem StoreWithin.define
    {s t : Store}
    {n : Node}
    (h : StoreWithin N s)
    (hn : NodesWithin N [n])
    (hdefine : s.define n = .ok t) :
    StoreWithin N t := by
  rcases Store.define_eq_ok hdefine with
    ⟨pos, name, more, context, rfl, -, rfl⟩ | ⟨pos, name, more, context, rfl, -, rfl⟩ |
    ⟨v, rfl, -, -, rfl⟩
  · intro e he
    rcases List.mem_append.1 he with he | he
    · exact h e he
    · rw [List.mem_singleton.1 he]
      refine ⟨hn name ?_, hn.context⟩
      simp [Node.phraseNamesAll, Node.phraseNames, Param.str?]
  · exact h.of_phrases_eq rfl
  · exact h.of_phrases_eq rfl

end Measure

section Runs

variable {N : Set String} {files : Files}

/-- Expanding a node stays within the names, and fails for want of room only where
entering a file or phrase does. -/
theorem expandNode_within
    {enter : Enter}
    {scope : Scope}
    {E : Diagnostic → Prop}
    (n : Node)
    (hN : N.Finite)
    (hfiles : FilesWithin N files)
    (hn : NodesWithin N [n])
    (hE : ∀ d, d.value ≠ .runtime .nestedTooDeep → E d)
    (henter : ∀ inner body, left N files inner < left N files scope → NodesWithin N body →
      (enter inner body).Keeps (StoreWithin N) (fun _ => True) E) :
    (expandNode files enter scope n).Keeps (StoreWithin N) (fun _ => True) E := by
  induction n using stepInduction scope with
  | broken n fault _ hrun =>
      rw [hrun]
      exact Run.Keeps.fail (hE _ (by simp))
  | bypass pos name params command _ _ _ hrun =>
      rw [hrun]
      exact Run.Keeps.pure trivial
  | ignore pos name params command _ _ hrun =>
      rw [hrun]
      exact Run.Keeps.pure trivial
  | defining n _ _ hrun =>
      rw [hrun]
      exact register_keeps hE trivial fun s t hs ht => hs.define hn ht
  | loop pos count context _ ih hrun =>
      rw [hrun]
      refine loop_keeps hE (fun _ _ _ _ => trivial) ?_
      refine expandNodes_keeps trivial (fun _ _ _ _ => trivial) fun m hm => ?_
      exact ih m hm (hn.context.mem hm)
  | bpm pos v _ _ hrun =>
      rw [hrun]
      exact setTempo_keeps trivial fun s hs => hs.of_phrases_eq rfl
  | importing pos name hrun =>
      rw [hrun]
      refine importFile_keeps hE ?_
      intro s path inner text body _ hpath hinner hread hbody
      have hfile := isFile_of_locate hpath
      have hleft := left_enterFile? N hfile hinner
      exact henter inner body (by omega) (hfiles path text body hfile hread hbody)
  | naming pos name _ hrun =>
      rw [hrun]
      exact selectVoice_keeps hE (fun _ => trivial) fun _ _ _ _ => trivial
  | playing pos name hrun =>
      rw [hrun]
      exact play_keeps hE fun _ _ _ _ => trivial
  | speaking p hrun =>
      rw [hrun]
      refine phoneme_keeps hE (fun _ _ _ => trivial) ?_ fun _ _ _ _ _ _ => trivial
      intro s body inner hs hbody hinner
      obtain ⟨hname, hnodes⟩ := hs _ (mem_of_lookup_eq_some hbody)
      have hleft := left_enterPhrase? files hN hname hinner
      exact henter inner body (by omega) hnodes
  | stop pos hrun =>
      rw [hrun]
      exact Run.Keeps.pure trivial

/-- Nested runs stay within the names, and do not want for room if they have more than
what is left. -/
theorem nest_within
    (hN : N.Finite)
    (hfiles : FilesWithin N files)
    (room : Nat)
    (scope : Scope)
    (nodes : List Node)
    (hnodes : NodesWithin N nodes) :
    (nest files room scope nodes).Keeps (StoreWithin N) (fun _ => True)
      fun d => left N files scope < room → d.value ≠ .runtime .nestedTooDeep := by
  induction room generalizing scope nodes with
  | zero => exact Run.Keeps.fail fun hlt => absurd hlt (Nat.not_lt_zero _)
  | succ room ih =>
      refine expandNodes_keeps trivial (fun _ _ _ _ => trivial) fun n hn => ?_
      refine expandNode_within n hN hfiles (hnodes.mem hn) (fun d hd _ => hd) ?_
      intro inner body hleft hbody
      refine (ih inner body hbody).mono fun d hd hlt => hd ?_
      omega

/-- What a call finds: a store and nodes within the names, and less that is left. -/
theorem Calls.within
    {enter : Enter}
    {scope inner : Scope}
    {nodes body : List Node}
    {s u : Store}
    (hN : N.Finite)
    (hfiles : FilesWithin N files)
    (henter : ∀ inner body, NodesWithin N body →
      (enter inner body).Keeps (StoreWithin N) (fun _ => True) fun _ => True)
    (hnodes : NodesWithin N nodes)
    (hs : StoreWithin N s)
    (h : Calls files enter scope nodes s inner body u) :
    NodesWithin N body ∧ StoreWithin N u ∧ left N files inner < left N files scope := by
  induction h with
  | @next n ns body s t u text inner hrun _ ih =>
      have hkeeps : (expandNode files enter scope n).Keeps (StoreWithin N) (fun _ => True)
          fun _ => True :=
        expandNode_within n hN hfiles (hnodes.mem List.mem_cons_self) (fun _ _ => trivial)
          fun inner body _ => henter inner body
      have ht := (hkeeps s hs).1
      rw [hrun] at ht
      exact ih hnodes.tail ht
  | loop _ _ ih =>
      have hhead := hnodes.mem List.mem_cons_self
      exact ih hhead.context hs
  | file hlocate hinner hread hbody =>
      have hfile := isFile_of_locate hlocate
      have hleft := left_enterFile? N hfile hinner
      exact ⟨hfiles _ _ _ hfile hread hbody, hs, by omega⟩
  | phrase _ hbody hinner =>
      obtain ⟨hname, hnodes'⟩ := hs _ (mem_of_lookup_eq_some hbody)
      have hleft := left_enterPhrase? files hN hname hinner
      exact ⟨hnodes', hs, by omega⟩

theorem nest_keeps_within
    (hN : N.Finite)
    (hfiles : FilesWithin N files)
    (room : Nat) :
    ∀ inner body, NodesWithin N body →
      (nest files room inner body).Keeps (StoreWithin N) (fun _ => True) fun _ => True := by
  intro inner body hbody
  exact (nest_within hN hfiles room inner body hbody).mono fun _ _ => trivial

/-- Enough room is as good as any more. -/
theorem nest_congr
    (hN : N.Finite)
    (hfiles : FilesWithin N files)
    {room room' : Nat}
    {scope : Scope}
    {nodes : List Node}
    {s : Store}
    (hroom : left N files scope < room)
    (hroom' : left N files scope < room')
    (hnodes : NodesWithin N nodes)
    (hs : StoreWithin N s) :
    (nest files room scope nodes).run s = (nest files room' scope nodes).run s := by
  induction room generalizing room' scope nodes s with
  | zero => exact absurd hroom (Nat.not_lt_zero _)
  | succ room ih =>
      cases room' with
      | zero => exact absurd hroom' (Nat.not_lt_zero _)
      | succ room' =>
          refine expandNodes_congr fun inner body u hcall => ?_
          obtain ⟨hbody, hu, hleft⟩ :=
            hcall.within hN hfiles (nest_keeps_within hN hfiles room) hnodes hs
          exact ih (by omega) (by omega) hbody hu

/--
While `nodes` are expanded in `scope` from the store `s`, with room for so many nested
entries, the nodes `body` are expanded in the scope `inner` and the store `u`, inside
`depth` imports and replays.
-/
inductive Descent (files : Files) :
    Nat → Scope → List Node → Store → Nat → Scope → List Node → Store → Prop
  | here
      {room : Nat}
      {scope : Scope}
      {nodes : List Node}
      {s : Store} :
      Descent files room scope nodes s 0 scope nodes s
  | enter
      {room depth : Nat}
      {scope mid inner : Scope}
      {nodes body body' : List Node}
      {s t u : Store}
      (hcall : Calls files (nest files (room + 1)) scope nodes s mid body t)
      (hrest : Descent files room mid body t depth inner body' u) :
      Descent files (room + 1) scope nodes s (depth + 1) inner body' u

/-- A call pushes a path that names a file or the name of a phrase, and it was not there. -/
theorem Calls.fresh
    {enter : Enter}
    {scope inner : Scope}
    {nodes body : List Node}
    {s u : Store}
    (hu : StoreWithin N u)
    (h : Calls files enter scope nodes s inner body u) :
    (∃ path ∈ filePaths files, path ∉ scope.reading ∧
        inner.reading = path :: scope.reading ∧ inner.replaying = scope.replaying) ∨
      ∃ name ∈ N, name ∉ scope.replaying ∧
        inner.reading = scope.reading ∧ inner.replaying = name :: scope.replaying := by
  induction h with
  | next _ _ ih => exact ih hu
  | loop _ _ ih => exact ih hu
  | @file pos name path text ns body s inner hlocate hinner hread hbody =>
      obtain ⟨hfresh, rfl⟩ := Scope.enterFile?_eq_some hinner
      exact Or.inl ⟨path, isFile_of_locate hlocate, hfresh, rfl, rfl⟩
  | @phrase p ns body s inner hsymbol hbody hinner =>
      obtain ⟨hfresh, rfl⟩ := Scope.enterPhrase?_eq_some hinner
      exact Or.inr ⟨p.symbol, (hu _ (mem_of_lookup_eq_some hbody)).1, hfresh, rfl, rfl⟩

/-- `top` is `base` with `pushed` put in front, none of it twice and none of it there
before. -/
def Pushes (base pushed top : List String) : Prop :=
  top = pushed ++ base ∧ pushed.Nodup ∧ pushed.Disjoint base

theorem Pushes.refl (base : List String) : Pushes base [] base :=
  ⟨rfl, List.nodup_nil, List.disjoint_nil_left base⟩

theorem Pushes.after
    {base pushed top : List String}
    {x : String}
    (hfresh : x ∉ base)
    (h : Pushes (x :: base) pushed top) :
    Pushes base (pushed ++ [x]) top := by
  obtain ⟨htop, hnodup, hdisjoint⟩ := h
  obtain ⟨hx, hbase⟩ := List.disjoint_cons_right.1 hdisjoint
  refine ⟨by simp [htop], ?_, ?_⟩
  · rw [List.nodup_append]
    refine ⟨hnodup, List.nodup_singleton x, ?_⟩
    rintro y hy z hz rfl
    exact hx (List.mem_singleton.1 hz ▸ hy)
  · rw [List.disjoint_append_left]
    exact ⟨hbase, by simpa using hfresh⟩

/-- Nested imports and replays push paths of files and names of phrases, of which none
is pushed twice or was there before. -/
theorem Descent.pushes
    {room depth : Nat}
    {scope inner : Scope}
    {nodes body : List Node}
    {s u : Store}
    (hN : N.Finite)
    (hfiles : FilesWithin N files)
    (hnodes : NodesWithin N nodes)
    (hs : StoreWithin N s)
    (h : Descent files room scope nodes s depth inner body u) :
    ∃ paths names, Pushes scope.reading paths inner.reading ∧
      Pushes scope.replaying names inner.replaying ∧
      (∀ path ∈ paths, path ∈ filePaths files) ∧ (∀ name ∈ names, name ∈ N) ∧
      depth = paths.length + names.length := by
  induction h with
  | here => exact ⟨[], [], Pushes.refl _, Pushes.refl _, by simp, by simp, rfl⟩
  | enter hcall _ ih =>
      obtain ⟨hbody, ht, -⟩ := hcall.within hN hfiles (nest_keeps_within hN hfiles _) hnodes hs
      obtain ⟨paths, names, hpaths, hnames, hfile, hmem, hdepth⟩ := ih hbody ht
      rcases hcall.fresh ht with
        ⟨path, hisFile, hfresh, hmid, hmid'⟩ | ⟨name, hname, hfresh, hmid, hmid'⟩
      · rw [hmid] at hpaths
        rw [hmid'] at hnames
        refine ⟨paths ++ [path], names, hpaths.after hfresh, hnames, ?_, hmem, ?_⟩
        · simpa [or_imp, forall_and] using ⟨hfile, hisFile⟩
        · simp only [List.length_append, List.length_singleton]
          omega
      · rw [hmid] at hpaths
        rw [hmid'] at hnames
        refine ⟨paths, names ++ [name], hpaths, hnames.after hfresh, hfile, ?_, ?_⟩
        · simpa [or_imp, forall_and] using ⟨hmem, hname⟩
        · simp only [List.length_append, List.length_singleton]
          omega

theorem length_le_ncard
    {A : Set String}
    {xs : List String}
    (hA : A.Finite)
    (hnodup : xs.Nodup)
    (hmem : ∀ x ∈ xs, x ∈ A) :
    xs.length ≤ A.ncard := by
  have hsub : (xs.toFinset : Set String) ⊆ A := by
    intro x hx
    exact hmem x (List.mem_toFinset.1 hx)
  have hcard := Set.ncard_le_ncard hsub hA
  rwa [Set.ncard_coe_finset, List.toFinset_card_of_nodup hnodup] at hcard

end Runs

end Expansion

section Process

open Expansion

/--
Every run ends.  Along every branch of nested imports and replays each path that is
pushed is new, and so is each name; the branch is no longer than there are files and
names of phrases.  Any room that covers these gives the same outcome, which is never for
want of room.
-/
theorem process_depth_bounded
    (files : Files)
    (scope : Scope)
    (nodes : List Node)
    (sink : Sink)
    (store : Store) :
    (filePaths files).Finite ∧ (phraseNames files store nodes).Finite ∧
      (∀ room depth inner body u, Descent files room scope nodes store depth inner body u →
        ∃ paths names, Pushes scope.reading paths inner.reading ∧
          Pushes scope.replaying names inner.replaying ∧
          (∀ path ∈ paths, path ∈ filePaths files) ∧
          (∀ name ∈ names, name ∈ phraseNames files store nodes) ∧
          depth = paths.length + names.length ∧ depth ≤ nestingBound files store nodes) ∧
      (∀ room, nestingBound files store nodes ≤ room →
        emitNodes files (nest files room) scope nodes sink store =
          process files scope nodes sink store) ∧
      ∀ d, (process files scope nodes sink store).result = .error d →
        d.value ≠ .runtime .nestedTooDeep := by
  have hN := finite_phraseNames files store nodes
  have hF := finite_filePaths files
  have hfiles : FilesWithin (phraseNames files store nodes) files :=
    fun path text body hfile hread hbody x hx =>
      Or.inr (Or.inr ⟨path, text, body, hfile, hread, hbody, hx⟩)
  have hnodes : NodesWithin (phraseNames files store nodes) nodes := fun x hx => Or.inr (Or.inl hx)
  have hstore : StoreWithin (phraseNames files store nodes) store := fun e he =>
    ⟨Or.inl ⟨e, he, Or.inl rfl⟩, fun x hx => Or.inl ⟨e, he, Or.inr hx⟩⟩
  have hleft : left (phraseNames files store nodes) files scope ≤ nestingBound files store nodes :=
    left_le hN scope
  have hroom := nestingBound_le_room files store nodes
  refine ⟨hF, hN, ?_, ?_, ?_⟩
  · intro room depth inner body u hdescent
    obtain ⟨paths, names, hpaths, hnames, hfile, hname, hdepth⟩ :=
      hdescent.pushes hN hfiles hnodes hstore
    refine ⟨paths, names, hpaths, hnames, hfile, hname, hdepth, ?_⟩
    have hlength := length_le_ncard hF hpaths.2.1 hfile
    have hlength' := length_le_ncard hN hnames.2.1 hname
    unfold nestingBound
    omega
  · intro room hle
    refine emitNodes_congr fun inner body u hcall => ?_
    obtain ⟨hbody, hu, hlt⟩ :=
      hcall.within hN hfiles (nest_keeps_within hN hfiles room) hnodes hstore
    exact nest_congr hN hfiles (by omega) (by omega) hbody hu
  · intro d hd
    have hstep : ∀ n ∈ nodes,
        (expandNode files (nest files (room files store nodes)) scope n).Keeps
          (StoreWithin (phraseNames files store nodes)) (fun _ => True)
          fun d => d.value ≠ .runtime .nestedTooDeep := by
      intro n hn
      refine expandNode_within n hN hfiles (hnodes.mem hn) (fun _ h => h) ?_
      intro inner body hlt hbody
      refine (nest_within hN hfiles _ inner body hbody).mono fun d hd => hd ?_
      omega
    exact (emitNodes_keeps (by simp) hstep hstore).2.2 d hd

end Process

end SpeechMarkup
