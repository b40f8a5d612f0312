import SpeechMarkup.Proofs.Places

/-!
# Programs without their places

Places are taken out of nodes, and what is left decides what a run does.

* `Node.unplaced` is a node without places, and `Node.alike_iff_unplaced` says that nodes
  differ only in places exactly if they are equal without them.
* `Store.SameUnplaced` relates stores in which every look-up finds the same without places.
  The order in which the definitions were made does not count.
* `Store.sameUnplaced_iff_like`: this is to be alike by name, anywhere.
* `process_unplaced` is the main result: places decide nothing but where an error is reported.
-/

namespace SpeechMarkup

open Expansion

section Nodes

def Phoneme.unplaced (p : Phoneme) : Phoneme :=
  { p with pos := {} }

def Voice.unplaced (v : Voice) : Voice :=
  { v with pos := {} }

mutual

/-- A node with every place in it set to the start of a text. -/
def Node.unplaced : Node → Node
  | .command _ name params context => .command {} name params (unplacedAll context)
  | .phoneme p => .phoneme p.unplaced
  | .voice v => .voice v.unplaced
  | .stop _ => .stop {}

/-- Nodes with every place in them set to the start of a text. -/
def Node.unplacedAll : List Node → List Node
  | [] => []
  | n :: ns => unplaced n :: unplacedAll ns

end

theorem Phoneme.alike_iff_unplaced (p q : Phoneme) :
    p.Alike Anywhere q ↔ q.unplaced = p.unplaced := by
  cases p
  cases q
  simp only [unplaced, Phoneme.mk.injEq, true_and]
  constructor
  · rintro ⟨-, hsymbol, hduration, hpitch⟩
    exact ⟨hsymbol, hduration, hpitch⟩
  · rintro ⟨hsymbol, hduration, hpitch⟩
    exact ⟨trivial, hsymbol, hduration, hpitch⟩

theorem Voice.alike_iff_unplaced (v w : Voice) :
    v.Alike Anywhere w ↔ w.unplaced = v.unplaced := by
  cases v
  cases w
  simp only [unplaced, Voice.mk.injEq, true_and]
  constructor
  · rintro ⟨-, hname, hsettings⟩
    exact ⟨hname, hsettings⟩
  · rintro ⟨hname, hsettings⟩
    exact ⟨trivial, hname, hsettings⟩

mutual

/-- Nodes differ only in places exactly if they are equal without them. -/
theorem Node.alike_iff_unplaced (n m : Node) :
    n.Alike Anywhere m ↔ m.unplaced = n.unplaced := by
  cases n with
  | command pos name params context =>
      cases m with
      | command pos' name' params' context' =>
          have hcontext := Node.alikeAll_iff_unplaced context context'
          simp only [Node.unplaced, Node.command.injEq, true_and]
          constructor
          · rintro ⟨-, halike⟩
            exact ⟨rfl, rfl, hcontext.1 halike⟩
          · rintro ⟨rfl, rfl, heq⟩
            exact .command trivial (hcontext.2 heq)
      | _ => exact ⟨(nomatch ·), (nomatch ·)⟩
  | phoneme p =>
      cases m with
      | phoneme q =>
          simp only [Node.unplaced, Node.phoneme.injEq, ← Phoneme.alike_iff_unplaced]
          exact ⟨fun | .phoneme h => h, .phoneme⟩
      | _ => exact ⟨(nomatch ·), (nomatch ·)⟩
  | voice v =>
      cases m with
      | voice w =>
          simp only [Node.unplaced, Node.voice.injEq, ← Voice.alike_iff_unplaced]
          exact ⟨fun | .voice h => h, .voice⟩
      | _ => exact ⟨(nomatch ·), (nomatch ·)⟩
  | stop pos =>
      cases m with
      | stop pos' => exact ⟨fun _ => rfl, fun _ => .stop trivial⟩
      | _ => exact ⟨(nomatch ·), (nomatch ·)⟩

theorem Node.alikeAll_iff_unplaced (ns ms : List Node) :
    List.Forall₂ (Node.Alike Anywhere) ns ms ↔ Node.unplacedAll ms = Node.unplacedAll ns := by
  match ns, ms with
  | [], [] => simp [Node.unplacedAll]
  | [], m :: ms => simp [Node.unplacedAll]
  | n :: ns, [] => simp [Node.unplacedAll]
  | n :: ns, m :: ms =>
      simp only [Node.unplacedAll, List.forall₂_cons, List.cons.injEq,
        Node.alike_iff_unplaced n m, Node.alikeAll_iff_unplaced ns ms]

end

theorem Phoneme.alikeAll_iff_unplaced (ps qs : List Phoneme) :
    List.Forall₂ (Phoneme.Alike Anywhere) ps qs ↔
      qs.map Phoneme.unplaced = ps.map Phoneme.unplaced := by
  induction ps generalizing qs with
  | nil => cases qs <;> simp
  | cons p ps ih =>
      cases qs with
      | nil => simp
      | cons q qs => simp [Phoneme.alike_iff_unplaced, ih]

end Nodes

section Stores

/-- Stores that hold the same without places: every look-up finds the same. -/
structure Store.SameUnplaced (s t : Store) : Prop where
  unit : t.unit = s.unit
  workDir : t.workDir = s.workDir
  searchDirs : t.searchDirs = s.searchDirs
  phrase : ∀ name,
    (t.phrase? name).map Node.unplacedAll = (s.phrase? name).map Node.unplacedAll
  sound : ∀ name,
    (t.sound? name).map (List.map Phoneme.unplaced) =
      (s.sound? name).map (List.map Phoneme.unplaced)
  voice : ∀ name, t.voice? name = s.voice? name

/-- What is found under each name is the same without places exactly if it differs only in
places. -/
theorem Store.sameUnplaced_iff_like
    {s t : Store} :
    s.SameUnplaced t ↔ s.Like .byName Anywhere t := by
  rw [Store.like_byName_iff Node.alikeAll_iff_unplaced Phoneme.alikeAll_iff_unplaced]
  constructor
  · intro h
    exact ⟨h.unit, h.workDir, h.searchDirs, h.phrase, h.sound, h.voice⟩
  · rintro ⟨hunit, hworkDir, hsearchDirs, hphrase, hsound, hvoice⟩
    exact ⟨hunit, hworkDir, hsearchDirs, hphrase, hsound, hvoice⟩

end Stores

section Runs

/-- What is left of an error without its place. -/
def Diagnostic.unplaced (d : Diagnostic) : String × String :=
  (d.kind, d.message)

/--
Places decide nothing but where an error is reported.  Nodes that are the same without places,
expanded in one scope into one sink from stores that are the same without places, give the same
chunks; both runs succeed, or both fail with the same kind of error and the same message; and
the stores that they leave are the same without places.
-/
theorem process_unplaced
    {nodes nodes' : List Node}
    {s t : Store}
    (files : Files)
    (scope : Scope)
    (sink : Sink)
    (hnodes : Node.unplacedAll nodes' = Node.unplacedAll nodes)
    (hstores : s.SameUnplaced t) :
    (process files scope nodes' sink t).sink = (process files scope nodes sink s).sink ∧
      (process files scope nodes' sink t).result.mapError Diagnostic.unplaced =
        (process files scope nodes sink s).result.mapError Diagnostic.unplaced ∧
      (process files scope nodes sink s).store.SameUnplaced
        (process files scope nodes' sink t).store := by
  have halike := (Node.alikeAll_iff_unplaced _ _).2 hnodes
  have hlike := process_like (fun _ => trivial) files scope sink halike
    (Store.sameUnplaced_iff_like.1 hstores)
  generalize process files scope nodes sink s = out at hlike ⊢
  generalize process files scope nodes' sink t = out' at hlike ⊢
  cases hlike with
  | ok h => exact ⟨rfl, rfl, Store.sameUnplaced_iff_like.2 h⟩
  | @error d d' _ _ _ hvalue _ h =>
      have hsame : Diagnostic.unplaced d' = Diagnostic.unplaced d := by
        simp only [Diagnostic.unplaced, Diagnostic.kind, Diagnostic.message, hvalue]
      exact ⟨rfl, congrArg Except.error hsame, Store.sameUnplaced_iff_like.2 h⟩

/-- A call of a phrase, a loop over a sound and a call of something unknown, all at one
place. -/
def chant (pos : Position) : List Node :=
  [.phoneme { pos, symbol := "hi" },
    .command pos "loop" [.int 2] [.phoneme { pos, symbol := "ba", duration := .int 20 }],
    .phoneme { pos, symbol := "zz" }]

/-- Phrases under the given names, in that order, and a sound, all defined at one place. -/
def chantStore (pos : Position) (names : List String) : Store :=
  { Store.new "/work" [] with
    phrases := names.map fun name => (name, [.phoneme { pos, symbol := "aa" }])
    sounds := [("ba", [{ pos, symbol := "b" }, { pos, symbol := "aa" }])] }

theorem sameUnplaced_chantStore (pos pos' : Position) :
    (chantStore pos ["hi", "ho"]).SameUnplaced (chantStore pos' ["ho", "hi"]) where
  unit := rfl
  workDir := rfl
  searchDirs := rfl
  phrase := by
    intro name
    simp only [Store.phrase?, chantStore, List.map_cons, List.map_nil, List.lookup_cons]
    cases name == "hi" <;> cases name == "ho" <;> rfl
  sound := by
    intro name
    simp only [Store.sound?, chantStore, List.lookup_cons]
    cases name == "ba" <;> rfl
  voice := fun _ => rfl

theorem process_unplaced_chant :
    (process (Listing.files ⟨[]⟩) ⟨"/work", [], []⟩ (chant ⟨"/work/m", 9, 2, 3⟩) {}
        (chantStore ⟨"/work/n", 5, 1, 0⟩ ["ho", "hi"])).sink =
      (process (Listing.files ⟨[]⟩) ⟨"/work", [], []⟩ (chant {}) {}
        (chantStore {} ["hi", "ho"])).sink ∧
    (process (Listing.files ⟨[]⟩) ⟨"/work", [], []⟩ (chant ⟨"/work/m", 9, 2, 3⟩) {}
        (chantStore ⟨"/work/n", 5, 1, 0⟩ ["ho", "hi"])).result.mapError Diagnostic.unplaced =
      .error ("ResolutionError", "unrecognized phoneme, sound, or phrase 'zz'") := by
  have hnodes : Node.unplacedAll (chant ⟨"/work/m", 9, 2, 3⟩) = Node.unplacedAll (chant {}) := rfl
  obtain ⟨hsink, hresult, -⟩ := process_unplaced (Listing.files ⟨[]⟩) ⟨"/work", [], []⟩ {} hnodes
    (sameUnplaced_chantStore {} ⟨"/work/n", 5, 1, 0⟩)
  refine ⟨hsink, hresult.trans ?_⟩
  decide +kernel

end Runs

end SpeechMarkup
