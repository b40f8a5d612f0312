import Mathlib.Data.Set.Card
import SpeechMarkup.Disk
import SpeechMarkup.Expansion
import SpeechMarkup.Proofs.RoundTrip

/-!
# The names that phrases can have

A run registers only phrases that stand in the store, in the nodes or in a file, so that
it can be known beforehand which names they have.

* `Node.phraseNames` are the names that a node defines at any depth.
* `words` are the words of a text; the names that it defines are among them, and it has
  no more of them than bytes.
* `Expansion.phraseNames` are the names that phrases can have in a run, and
  `Expansion.nestingBound` counts them together with the files.
-/

namespace SpeechMarkup

namespace Node

mutual

/-- The names of the phrases that a node defines, at any depth. -/
def phraseNames : Node → List String
  | .command _ name params context =>
      (if name = "phrase" then (params.head?.bind Param.str?).toList else []) ++
        phraseNamesAll context
  | .phoneme _ => []
  | .voice _ => []
  | .stop _ => []

/-- The names of the phrases that nodes define, at any depth. -/
def phraseNamesAll : List Node → List String
  | [] => []
  | n :: ns => phraseNames n ++ phraseNamesAll ns

end

theorem mem_phraseNamesAll
    {x : String}
    {ns : List Node} :
    x ∈ phraseNamesAll ns ↔ ∃ n ∈ ns, x ∈ n.phraseNames := by
  induction ns with
  | nil => simp [phraseNamesAll]
  | cons n ns ih => simp [phraseNamesAll, ih]

mutual

theorem length_phraseNames_le (n : Node) :
    n.phraseNames.length ≤ Expansion.phraseCount n := by
  match n with
  | .command pos name params context =>
      have hcontext := length_phraseNamesAll_le context
      have hname : (params.head?.bind Param.str?).toList.length ≤ 1 := by
        cases params.head?.bind Param.str? <;> simp
      rw [phraseNames, Expansion.phraseCount, List.length_append]
      split
      · omega
      · simpa using hcontext
  | .phoneme _ => simp [phraseNames]
  | .voice _ => simp [phraseNames]
  | .stop _ => simp [phraseNames]

theorem length_phraseNamesAll_le (ns : List Node) :
    (phraseNamesAll ns).length ≤ Expansion.phraseCounts ns := by
  match ns with
  | [] => simp [phraseNamesAll]
  | n :: ns =>
      have hn := length_phraseNames_le n
      have hns := length_phraseNamesAll_le ns
      rw [phraseNamesAll, Expansion.phraseCounts, List.length_append]
      omega

end

/-- The names of phrases are among the words that a node is built from. -/
theorem Formed.phraseNames
    {K : Token.Kind → Prop}
    {n : Node}
    (h : n.Formed K) :
    ∀ x ∈ n.phraseNames, K (.str x) := by
  induction h with
  | @command pos name params context _ _ _ hparams _ ih =>
      intro x hx
      rw [Node.phraseNames, List.mem_append] at hx
      rcases hx with hx | hx
      · split at hx
        · obtain ⟨p, hp, hstr⟩ := Option.bind_eq_some_iff.1 (Option.mem_toList.1 hx)
          have hmem : p ∈ params := List.mem_of_mem_head? hp
          have hp' := hparams p hmem
          cases p with
          | int v => cases hstr
          | float v => cases hstr
          | str t =>
              obtain rfl := Option.some.inj hstr
              exact hp'
        · cases hx
      · obtain ⟨m, hm, hx⟩ := mem_phraseNamesAll.1 hx
        exact ih m hm x hx
  | phoneme _ => simp [Node.phraseNames]
  | voice _ => simp [Node.phraseNames]

end Node

section Words

open Scan

def Token.Kind.str? : Token.Kind → Option String
  | .str s => some s
  | _ => none

/-- The words among the tokens of a text. -/
def words (text : String) : List String :=
  ((kinds? text.toList).getD []).filterMap Token.Kind.str?

theorem length_words_le_length (cs : List Char) :
    (((kinds? cs).getD []).filterMap Token.Kind.str?).length ≤ cs.length := by
  induction cs using scanInduction with
  | nil => simp [Token.Kind.str?]
  | cons c cs ih =>
      have hrest := step_rest_length_le c cs
      rw [List.length_cons]
      cases hstep : step c cs with
      | skip gap rest =>
          rw [hstep] at ih hrest
          rw [kinds?_of_skip hstep]
          dsimp only [Step.rest] at ih hrest
          omega
      | token kind lexeme gap rest =>
          rw [hstep] at ih hrest
          rw [kinds?_of_token hstep]
          dsimp only [Step.rest] at ih hrest
          cases hks : kinds? rest with
          | none => simp
          | some ks =>
              rw [hks] at ih
              have hcons : ((kind :: ks).filterMap Token.Kind.str?).length ≤
                  (ks.filterMap Token.Kind.str?).length + 1 := by
                rw [List.filterMap_cons]
                split <;> simp
              simp only [Option.map_some, Option.getD_some] at ih ⊢
              omega
      | fault before cause read rest =>
          have hnone : kinds? (c :: cs) = none := by
            rw [kinds?, tokens_cons, hstep]
            rfl
          simp [hnone]

/-- A text has no more words than bytes. -/
theorem length_words_le (text : String) :
    (words text).length ≤ text.utf8ByteSize :=
  Nat.le_trans (length_words_le_length text.toList) (Disk.length_toList_le text)

/-- The names of phrases in a text are words of it, wherever it is read. -/
theorem mem_words_of_ofText
    {text file : String}
    {nodes : List Node}
    (h : Node.ofText text file = .ok nodes) :
    ∀ x ∈ Node.phraseNamesAll nodes, x ∈ words text := by
  have hkinds : ∀ ks, kinds? text.toList = some ks →
      ∀ k ∈ ks, ∀ x, k = .str x → x ∈ words text := by
    rintro ks hks k hk x rfl
    refine List.mem_filterMap.2 ⟨.str x, ?_, rfl⟩
    simpa [hks] using hk
  obtain ⟨body, stop, rfl, hformed⟩ := Node.formed_of_ofText (by simp) hkinds h
  intro x hx
  obtain ⟨n, hn, hx⟩ := Node.mem_phraseNamesAll.1 hx
  rcases List.mem_append.1 hn with hn | hn
  · exact (hformed n hn).phraseNames x hx x rfl
  · rw [List.mem_singleton.1 hn] at hx
    simp [Node.phraseNames] at hx

end Words

namespace Expansion

section Names

/-- The paths that name files. -/
def filePaths (files : Files) : Set String :=
  {path | files.isFile path = true}

/-- The names that phrases can have in a run: those of the phrases that are stored, and
those of the phrases that a stored body, the nodes or a file define. -/
def phraseNames (files : Files) (s : Store) (nodes : List Node) : Set String :=
  {x | (∃ e ∈ s.phrases, x = e.1 ∨ x ∈ Node.phraseNamesAll e.2) ∨
    x ∈ Node.phraseNamesAll nodes ∨
    ∃ path text body, files.isFile path = true ∧ files.read path = .ok text ∧
      Node.ofText text path = .ok body ∧ x ∈ Node.phraseNamesAll body}

/-- The number of imports and replays that can be nested in a run. -/
noncomputable def nestingBound (files : Files) (s : Store) (nodes : List Node) : Nat :=
  (filePaths files).ncard + (phraseNames files s nodes).ncard

theorem finite_filePaths (files : Files) : (filePaths files).Finite := by
  by_contra hinfinite
  obtain ⟨paths, hsub, hcard⟩ :=
    Set.Infinite.exists_subset_card_eq hinfinite (files.depth + 1)
  have hle := files.length_le_depth paths.toList paths.nodup_toList fun path hpath =>
    hsub (Finset.mem_coe.2 (Finset.mem_toList.1 hpath))
  rw [Finset.length_toList] at hle
  omega

theorem ncard_filePaths_le (files : Files) : (filePaths files).ncard ≤ files.depth := by
  have hfinite := finite_filePaths files
  rw [Set.ncard_eq_toFinset_card _ hfinite, ← Finset.length_toList]
  refine files.length_le_depth _ (Finset.nodup_toList _) ?_
  intro path hpath
  exact hfinite.mem_toFinset.1 (Finset.mem_toList.1 hpath)

/-- The names that phrases can have, in a list that may repeat them. -/
def nameList (files : Files) (s : Store) (nodes : List Node) : List String :=
  s.phrases.flatMap (fun e => e.1 :: Node.phraseNamesAll e.2) ++
    (Node.phraseNamesAll nodes ++ files.texts.flatMap words)

theorem mem_nameList_of_mem_phraseNames
    {files : Files}
    {s : Store}
    {nodes : List Node}
    {x : String}
    (h : x ∈ phraseNames files s nodes) :
    x ∈ nameList files s nodes := by
  rcases h with ⟨e, he, hx⟩ | hx | ⟨path, text, body, -, hread, hbody, hx⟩
  · refine List.mem_append_left _ (List.mem_flatMap.2 ⟨e, he, ?_⟩)
    rcases hx with rfl | hx
    · simp
    · exact List.mem_cons_of_mem _ hx
  · exact List.mem_append_right _ (List.mem_append_left _ hx)
  · refine List.mem_append_right _ (List.mem_append_right _ (List.mem_flatMap.2 ⟨text, ?_, ?_⟩))
    · exact files.mem_texts path text hread
    · exact mem_words_of_ofText hbody x hx

theorem length_nameList_le (files : Files) (s : Store) (nodes : List Node) :
    (nameList files s nodes).length ≤
      storedCount s.phrases + phraseCounts nodes + totalLength files.texts := by
  have hstored : ∀ phrases : List (String × List Node),
      (phrases.flatMap fun e => e.1 :: Node.phraseNamesAll e.2).length ≤ storedCount phrases := by
    intro phrases
    induction phrases with
    | nil => simp
    | cons e rest ih =>
        have hbody := Node.length_phraseNamesAll_le e.2
        simp only [List.flatMap_cons, List.length_append, List.length_cons, storedCount]
        omega
  have htexts : ∀ texts : List String, (texts.flatMap words).length ≤ totalLength texts := by
    intro texts
    induction texts with
    | nil => simp
    | cons text rest ih =>
        have hwords := length_words_le text
        simp only [List.flatMap_cons, List.length_append, totalLength]
        omega
  have hnodes := Node.length_phraseNamesAll_le nodes
  have hs := hstored s.phrases
  have ht := htexts files.texts
  simp only [nameList, List.length_append]
  omega

theorem finite_phraseNames (files : Files) (s : Store) (nodes : List Node) :
    (phraseNames files s nodes).Finite :=
  (nameList files s nodes).finite_toSet.subset fun _ hx => mem_nameList_of_mem_phraseNames hx

/-- The room that a run sets aside is enough. -/
theorem nestingBound_le_room (files : Files) (s : Store) (nodes : List Node) :
    nestingBound files s nodes ≤ room files s nodes := by
  have hfiles := ncard_filePaths_le files
  have hnames : (phraseNames files s nodes).ncard ≤ (nameList files s nodes).length := by
    have hsub : phraseNames files s nodes ⊆ (nameList files s nodes).toFinset := by
      intro x hx
      exact List.mem_toFinset.2 (mem_nameList_of_mem_phraseNames hx)
    have hcard := Set.ncard_le_ncard hsub (Finset.finite_toSet _)
    rw [Set.ncard_coe_finset] at hcard
    exact Nat.le_trans hcard (List.toFinset_card_le _)
  have hlength := length_nameList_le files s nodes
  unfold nestingBound room
  omega

end Names

end Expansion

end SpeechMarkup
