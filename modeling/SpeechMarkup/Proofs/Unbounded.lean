import SpeechMarkup.Proofs.Chunks

/-!
# Expansion without a bound

The room for nested files and phrases is a device of the recursion.  Once it is enough it
cannot be told from any other, so that it can be left out of what is said about runs.

* `Expansion.unbounded` enters files and phrases with all the room they need, and
  `Expansion.expand`, `Expansion.expandAll` and `process` are the runs that enter them so
  (`Expansion.expand_eq`, `Expansion.expandAll_eq`, `process_eq`).
* `Expansion.expand_phoneme`, `Expansion.expand_loop` and `Expansion.expand_import` say what
  the nodes that hold or call others stand for.
* `Expansion.callInduction`: what holds of a run if it holds of all that the run enters,
  holds of every run.
-/

namespace SpeechMarkup

namespace Expansion

section Unbounded

/-- Expands the nodes of files and phrases with all the room they need. -/
def unbounded (files : Files) : Enter :=
  fun scope nodes => ExceptT.mk fun s => expandAll files scope nodes s

@[simp] theorem run_unbounded
    (files : Files)
    (scope : Scope)
    (nodes : List Node)
    (s : Store) :
    (unbounded files scope nodes).run s = expandAll files scope nodes s :=
  Run.run_mk (fun s => expandAll files scope nodes s) s

variable {N : Set String} {files : Files} {scope inner : Scope} {nodes body : List Node}
variable {s u : Store}

/-- More room than what is left is all the room that nodes need. -/
theorem nest_eq_expandAll
    {room : Nat}
    (hN : N.Finite)
    (hfiles : FilesWithin N files)
    (hroom : left N files scope < room)
    (hnodes : NodesWithin N nodes)
    (hs : StoreWithin N s) :
    (nest files room scope nodes).run s = expandAll files scope nodes s := by
  have hmore : left N files scope < room + nestingBound files s nodes + 1 := by omega
  rw [nest_congr hN hfiles hroom hmore hnodes hs]
  exact expandNodes_of_room (by omega)

theorem nest_eq_unbounded_of_calls
    {room : Nat}
    (hroom : nestingBound files s nodes ≤ room)
    (hcall : Calls files (nest files room) scope nodes s inner body u) :
    (nest files room inner body).run u = (unbounded files inner body).run u := by
  have hN := finite_phraseNames files s nodes
  have hfiles := filesWithin_phraseNames files s nodes
  obtain ⟨hbody, hu, hlt⟩ := hcall.within hN hfiles (nest_keeps_within hN hfiles room)
    (nodesWithin_phraseNames files s nodes) (storeWithin_phraseNames files s nodes)
  have hleft : left (phraseNames files s nodes) files scope ≤ nestingBound files s nodes :=
    left_le hN scope
  rw [run_unbounded]
  exact nest_eq_expandAll hN hfiles (by omega) hbody hu

theorem expand_eq (files : Files) (scope : Scope) (n : Node) (s : Store) :
    expand files scope n s = (expandNode files (unbounded files) scope n).run s :=
  expandNode_congr n [] s fun _ _ _ hcall =>
    nest_eq_unbounded_of_calls (nestingBound_le_room files s [n]) hcall

theorem expandAll_eq (files : Files) (scope : Scope) (nodes : List Node) (s : Store) :
    expandAll files scope nodes s = (expandNodes files (unbounded files) scope nodes).run s :=
  expandNodes_congr fun _ _ _ hcall =>
    nest_eq_unbounded_of_calls (nestingBound_le_room files s nodes) hcall

@[simp] theorem expandAll_nil (files : Files) (scope : Scope) (s : Store) :
    expandAll files scope [] s = (.ok "", s) := by
  rw [expandAll_eq, expandNodes]
  rfl

theorem expandAll_cons
    (files : Files)
    (scope : Scope)
    (n : Node)
    (ns : List Node)
    (s : Store) :
    expandAll files scope (n :: ns) s =
      match expand files scope n s with
      | (.error d, t) => (.error d, t)
      | (.ok text, t) =>
          match expandAll files scope ns t with
          | (.error d, u) => (.error d, u)
          | (.ok more, u) => (.ok (text ++ more), u) := by
  rw [expandAll_eq, expandNodes, Run.run_bind, ← expand_eq]
  rcases expand files scope n s with ⟨d | text, t⟩
  · rfl
  · dsimp only
    rw [Run.run_bind, ← expandAll_eq]
    rcases expandAll files scope ns t with ⟨d | more, u⟩ <;> rfl

theorem expandAll_cons_of_error
    {n : Node}
    {ns : List Node}
    {t : Store}
    {d : Diagnostic}
    (h : expand files scope n s = (.error d, t)) :
    expandAll files scope (n :: ns) s = (.error d, t) := by
  rw [expandAll_cons, h]

/-- What a phoneme stands for: itself, or a phrase or sound that it calls. -/
theorem expand_phoneme
    (files : Files)
    (scope : Scope)
    (p : Phoneme)
    (s : Store) :
    expand files scope (.phoneme p) s =
      if isBuiltinPhoneme p.symbol then
        (.ok (speak p.symbol (p.duration.toMillis s.unit) p.pitch), s)
      else
        match s.phrase? p.symbol with
        | some body =>
          match scope.enterPhrase? p.symbol with
          | some inner => expandAll files inner body s
          | none => (.error ⟨p.pos, .resolution (.selfReference p.symbol)⟩, s)
        | none =>
          match s.sound? p.symbol with
          | some sound =>
            (Run.lift p.pos .runtime
              (expandSound p sound (p.duration.toMillis s.unit))).run s
          | none => (.error ⟨p.pos, .resolution (.unknownSymbol p.symbol)⟩, s) := by
  rw [expand_eq, expandNode, phoneme, Run.run_bind, Run.run_get]
  dsimp only
  split
  · rfl
  · cases s.phrase? p.symbol with
    | some body =>
        dsimp only
        cases scope.enterPhrase? p.symbol with
        | some inner => exact run_unbounded files inner body s
        | none => rfl
    | none =>
        dsimp only
        cases s.sound? p.symbol <;> rfl

/-- What a call of a phrase stands for. -/
theorem expand_phrase
    {p : Phoneme}
    (hsymbol : isBuiltinPhoneme p.symbol = false)
    (hbody : s.phrase? p.symbol = some body) :
    expand files scope (.phoneme p) s =
      match scope.enterPhrase? p.symbol with
      | some inner => expandAll files inner body s
      | none => (.error ⟨p.pos, .resolution (.selfReference p.symbol)⟩, s) := by
  rw [expand_phoneme, if_neg (by simp [hsymbol]), hbody]

/-- What a loop stands for. -/
theorem expand_loop
    {pos : Position}
    {count : Int}
    {context : List Node}
    (hfault : commandFault? "loop" [.int count] context = none) :
    expand files scope (.command pos "loop" [.int count] context) s =
      match expandAll files scope context s with
      | (.ok text, t) => (Run.lift pos .runtime (repeatText count.toNat text)).run t
      | (.error d, t) => (.error d, t) := by
  have hname : Command.ofName? "loop" = some .loop := by decide
  obtain ⟨v, hv, hmin, -⟩ := params_of_intIn ((commandFault?_eq_none hfault hname).2.1 _ rfl)
  obtain rfl : count = v := by simpa using hv
  rw [expand_eq, expandNode, hfault]
  simp only [hname, Command.behavior, if_true, loopCount_of_nonneg pos "loop" hmin, pure_bind]
  rw [Run.run_bind, ← expandAll_eq]
  rcases expandAll files scope context s with ⟨d | text, t⟩ <;> rfl

/-- What an import stands for. -/
theorem expand_import
    (files : Files)
    (scope : Scope)
    (pos : Position)
    (name : String)
    (s : Store) :
    expand files scope (.command pos "import" [.str name] []) s =
      match locate files scope s name with
      | none => (.error ⟨pos, .resolution (.missingImport name)⟩, s)
      | some path =>
        match scope.enterFile? path with
        | none => (.error ⟨pos, .resolution (.circularImport path)⟩, s)
        | some inner =>
          match files.read path with
          | .error e => (.error ⟨pos, .io (.unreadable path e)⟩, s)
          | .ok content =>
            match Node.ofText content path with
            | .error d => (.error d, s)
            | .ok nodes => expandAll files inner nodes s := by
  have hrun : expandNode files (unbounded files) scope (.command pos "import" [.str name] []) =
      importFile files (unbounded files) scope pos name := by
    rw [expandNode]
    rfl
  rw [expand_eq, hrun, importFile, Run.run_bind, Run.run_get]
  dsimp only
  cases locate files scope s name with
  | none => rfl
  | some path =>
      dsimp only
      cases scope.enterFile? path with
      | none => rfl
      | some inner =>
          cases files.read path with
          | error e => rfl
          | ok content =>
              dsimp only
              rw [Run.run_bind, Run.run_lift_ok]
              dsimp only
              cases Node.ofText content path with
              | error d => rfl
              | ok nodes => exact run_unbounded files inner nodes s

theorem unbounded_keeps_within
    (hN : N.Finite)
    (hfiles : FilesWithin N files)
    (hbody : NodesWithin N body) :
    (unbounded files inner body).Keeps (StoreWithin N) (fun _ => True) fun _ => True := by
  intro s hs
  rw [run_unbounded, expandAll]
  exact nest_keeps_within hN hfiles (room files s body + 1) inner body hbody s hs

/-- What is entered is always a run for which less is left: what holds of a run if it holds
of all runs that it enters, holds of every run. -/
theorem callInduction
    {motive : Scope → List Node → Store → Prop}
    (step : ∀ scope nodes s,
      (∀ inner body u, Calls files (unbounded files) scope nodes s inner body u →
        motive inner body u) →
      motive scope nodes s)
    (scope : Scope)
    (nodes : List Node)
    (s : Store) :
    motive scope nodes s := by
  have hN := finite_phraseNames files s nodes
  have hfiles := filesWithin_phraseNames files s nodes
  have hall : ∀ k scope body u, left (phraseNames files s nodes) files scope = k →
      NodesWithin (phraseNames files s nodes) body →
      StoreWithin (phraseNames files s nodes) u → motive scope body u := by
    intro k
    induction k using Nat.strong_induction_on with
    | _ k ih =>
        intro scope body u hk hbody hu
        refine step scope body u fun inner body' u' hcall => ?_
        obtain ⟨hbody', hu', hlt⟩ := hcall.within hN hfiles
          (fun _ _ hb => unbounded_keeps_within hN hfiles hb) hbody hu
        exact ih _ (hk ▸ hlt) inner body' u' rfl hbody' hu'
  exact hall _ scope nodes s rfl (nodesWithin_phraseNames files s nodes)
    (storeWithin_phraseNames files s nodes)

/-- What definitions that keep the rules and changes of tempo keep is kept by every run. -/
theorem unbounded_keeps_store
    {I : Store → Prop}
    (hdefine : ∀ s t n, I s → n.ruleFault? = none → s.define n = .ok t → I t)
    (htempo : ∀ s bpm, I s → I (s.setTempo bpm))
    (scope : Scope)
    (nodes : List Node) :
    (unbounded files scope nodes).Keeps I (fun _ => True) fun _ => True := by
  intro s hs
  rw [run_unbounded, expandAll]
  exact nest_keeps_store hdefine htempo (room files s nodes + 1) scope nodes s hs

end Unbounded

end Expansion

open Expansion

theorem process_eq
    (files : Files)
    (scope : Scope)
    (nodes : List Node)
    (sink : Sink)
    (s : Store) :
    process files scope nodes sink s =
      emitNodes files (unbounded files) scope nodes sink s :=
  emitNodes_congr fun _ _ _ hcall =>
    nest_eq_unbounded_of_calls (nestingBound_le_room files s nodes) hcall

end SpeechMarkup
