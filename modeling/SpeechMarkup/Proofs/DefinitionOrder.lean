import SpeechMarkup.Proofs.Additions
import SpeechMarkup.Proofs.Places

/-!
# The order of definitions

Definitions are stored one after the other, and each is held against those before it.  Whether
all of them can be stored, and what the names stand for then, depends on the set of the
definitions alone.

* `Store.defineAll` stores definitions in the order of a list.
* `Store.Admits` says without an order when this succeeds: in each space of names, no name is
  given twice and every name can be given (`Store.defineAll_eq_ok_iff`).
* `Store.definition?_of_defineAll` says without an order what the names stand for afterwards.
* `Store.SameLookups` relates stores in which every look-up finds the same, and
  `Source.compile_of_sameLookups` says that this is all a compilation sees of a store.
* `defineAll_anyOrder` is the main result.
-/

namespace SpeechMarkup

open Expansion

section Names

/-- The name that a node gives in the space of the kind. -/
def Node.nameIn? : Definition.Kind → Node → Option String
  | .voice, .voice v => some v.name
  | .voice, _ => none
  | _, .command _ what (.str name :: _) _ =>
      if what = "phrase" ∨ what = "sound" then some name else none
  | _, _ => none

/-- In each space, the names that the nodes give differ from each other, and every one can be
given in the store. -/
def Store.Admits (s : Store) (nodes : List Node) : Prop :=
  ∀ kind, (nodes.filterMap (Node.nameIn? kind)).Nodup ∧
    ∀ name ∈ nodes.filterMap (Node.nameIn? kind), s.Free kind name

variable {s t : Store} {n : Node} {nodes : List Node} {kind other : Definition.Kind}
variable {name : String} {d : Definition}

theorem Definition.Kind.Shares.refl (kind : Definition.Kind) : kind.Shares kind := by
  cases kind <;> simp [Shares]

theorem Node.Defines.nameIn?_of_shares
    (h : n.Defines kind name d)
    (hshares : kind.Shares other) :
    n.nameIn? other = some name := by
  cases h <;> cases other <;> simp_all [Node.nameIn?, Definition.Kind.Shares]

theorem Node.Defines.nameIn?_of_not_shares
    (h : n.Defines kind name d)
    (hshares : ¬ kind.Shares other) :
    n.nameIn? other = none := by
  cases h <;> cases other <;> simp_all [Node.nameIn?, Definition.Kind.Shares]

/-- Kinds that share their names have the same free names. -/
theorem Store.Free.of_shares
    (h : s.Free kind name)
    (hshares : kind.Shares other) :
    s.Free other name := by
  cases kind <;> cases other <;> simp_all [Store.Free, Definition.Kind.Shares]

/-- A definition takes its own name in its space, and no other name. -/
theorem Store.Adds.free_iff
    {x : String}
    (h : s.Adds kind name d t) :
    t.Free other x ↔ s.Free other x ∧ ¬ (kind.Shares other ∧ x = name) := by
  rw [Store.free_iff, Store.free_iff]
  by_cases hnew : kind.Shares other ∧ x = name
  · obtain ⟨hshares, rfl⟩ := hnew
    refine iff_of_false ?_ fun hfree => hfree.2 ⟨hshares, rfl⟩
    rintro ⟨-, hnone⟩
    cases h.added.symm.trans (hnone kind hshares.symm)
  · have hkept : ∀ k, other.Shares k → t.definition? k x = s.definition? k x := by
      intro k hk
      refine h.others k x fun heq => ?_
      obtain ⟨rfl, rfl⟩ := Prod.mk.inj heq
      exact hnew ⟨hk.symm, rfl⟩
    rw [and_iff_left hnew]
    refine and_congr_right fun _ => forall₂_congr fun k hk => ?_
    rw [hkept k hk]

theorem Store.Admits.free
    (h : s.Admits (n :: nodes))
    (hn : n.Defines kind name d) :
    s.Free kind name := by
  refine (h kind).2 name ?_
  rw [List.filterMap_cons_some (hn.nameIn?_of_shares (.refl kind))]
  exact List.mem_cons_self

/-- What a store admits behind a definition is what the store with the definition admits. -/
theorem Store.Adds.admits_cons_iff
    (h : s.Adds kind name d t)
    (hn : n.Defines kind name d)
    (hfree : s.Free kind name) :
    s.Admits (n :: nodes) ↔ t.Admits nodes := by
  refine forall_congr' fun other => ?_
  by_cases hshares : kind.Shares other
  · rw [List.filterMap_cons_some (hn.nameIn?_of_shares hshares), List.nodup_cons,
      List.forall_mem_cons]
    constructor
    · rintro ⟨⟨hnotMem, hnodup⟩, -, hall⟩
      refine ⟨hnodup, fun x hx => h.free_iff.2 ⟨hall x hx, ?_⟩⟩
      rintro ⟨-, rfl⟩
      exact hnotMem hx
    · rintro ⟨hnodup, hall⟩
      refine ⟨⟨fun hmem => ?_, hnodup⟩, hfree.of_shares hshares, fun x hx => ?_⟩
      · exact (h.free_iff.1 (hall name hmem)).2 ⟨hshares, rfl⟩
      · exact (h.free_iff.1 (hall x hx)).1
  · rw [List.filterMap_cons_none (hn.nameIn?_of_not_shares hshares)]
    refine and_congr_right fun _ => forall₂_congr fun x _ => ?_
    rw [h.free_iff]
    exact ⟨fun hx => ⟨hx, fun hnew => hshares hnew.1⟩, fun hx => hx.1⟩

/-- The order of the nodes does not matter. -/
theorem Store.Admits.of_perm
    {order : List Node}
    (h : s.Admits nodes)
    (hperm : order.Perm nodes) :
    s.Admits order := by
  intro kind
  obtain ⟨hnodup, hall⟩ := h kind
  have hnames := hperm.filterMap (Node.nameIn? kind)
  exact ⟨hnames.nodup_iff.2 hnodup, fun x hx => hall x (hnames.mem_iff.1 hx)⟩

end Names

section Storing

/-- Stores definitions one after the other, up to the first that is refused. -/
def Store.defineAll (s : Store) (nodes : List Node) : Except RegistrationFault Store :=
  nodes.foldlM Store.define s

variable {s t u : Store} {n : Node} {nodes : List Node} {kind : Definition.Kind}
variable {name : String} {d : Definition}

theorem Store.defineAll_cons_eq_ok :
    s.defineAll (n :: nodes) = .ok t ↔ ∃ u, s.define n = .ok u ∧ u.defineAll nodes = .ok t := by
  rw [Store.defineAll, List.foldlM_cons]
  cases s.define n with
  | error fault => simp [bind, Except.bind]
  | ok u => simp [bind, Except.bind, Store.defineAll]

theorem Node.Defines.free_of_define
    (h : n.Defines kind name d)
    (hdefine : s.define n = .ok t) :
    s.Free kind name := by
  obtain ⟨kind', name', d', hdefines, hfree, -⟩ := Store.define_adds hdefine
  obtain ⟨rfl, rfl, -⟩ := h.unique hdefines
  exact hfree

/-- Definitions are all stored exactly if the store admits them. -/
theorem Store.defineAll_eq_ok_iff
    (hnodes : ∀ n ∈ nodes, ∃ kind name d, n.Defines kind name d) :
    (∃ t, s.defineAll nodes = .ok t) ↔ s.Admits nodes := by
  induction nodes generalizing s with
  | nil => exact ⟨fun _ kind => ⟨List.nodup_nil, by simp⟩, fun _ => ⟨s, rfl⟩⟩
  | cons n ns ih =>
      obtain ⟨⟨kind, name, d, hn⟩, hns⟩ := List.forall_mem_cons.1 hnodes
      by_cases hfree : s.Free kind name
      · obtain ⟨u, hu, hadds⟩ := hn.define_of_free hfree
        rw [hadds.admits_cons_iff hn hfree, ← ih hns]
        refine exists_congr fun t => ?_
        rw [Store.defineAll_cons_eq_ok, hu]
        simp
      · refine iff_of_false ?_ fun hadmits => hfree (hadmits.free hn)
        rintro ⟨t, ht⟩
        obtain ⟨u, hu, -⟩ := Store.defineAll_cons_eq_ok.1 ht
        exact hfree (hn.free_of_define hu)

/-- What names stand for when one more definition is stored. -/
theorem Store.definition?_of_define
    (h : s.define n = .ok t)
    (kind : Definition.Kind)
    (name : String)
    (d : Definition) :
    t.definition? kind name = some d ↔
      n.Defines kind name d ∨ s.definition? kind name = some d := by
  obtain ⟨kind', name', d', hdefines, hfree, hadds⟩ := Store.define_adds h
  by_cases hsame : (kind, name) = (kind', name')
  · obtain ⟨rfl, rfl⟩ := Prod.mk.inj hsame
    rw [hadds.added, hfree.definition?_eq_none]
    constructor
    · intro hd
      obtain rfl := Option.some.inj hd
      exact Or.inl hdefines
    · rintro (hd | hd)
      · rw [(hdefines.unique hd).2.2]
      · cases hd
  · rw [hadds.others kind name hsame]
    refine ⟨Or.inr, ?_⟩
    rintro (hd | hd)
    · obtain ⟨rfl, rfl, -⟩ := hdefines.unique hd
      exact absurd rfl hsame
    · exact hd

/-- What names stand for when definitions are stored: what the definitions say, and what they
stood for before. -/
theorem Store.definition?_of_defineAll
    (h : s.defineAll nodes = .ok t)
    (kind : Definition.Kind)
    (name : String)
    (d : Definition) :
    t.definition? kind name = some d ↔
      (∃ n ∈ nodes, n.Defines kind name d) ∨ s.definition? kind name = some d := by
  induction nodes generalizing s with
  | nil =>
      obtain rfl := Except.ok.inj h
      simp
  | cons n ns ih =>
      obtain ⟨u, hu, hrest⟩ := Store.defineAll_cons_eq_ok.1 h
      rw [ih hrest, Store.definition?_of_define hu, List.exists_mem_cons_iff]
      exact or_assoc.symm.trans (or_congr_left or_comm)

/-- Definitions change neither the tempo nor the directories. -/
theorem Store.settings_of_defineAll
    (h : s.defineAll nodes = .ok t) :
    t.unit = s.unit ∧ t.workDir = s.workDir ∧ t.searchDirs = s.searchDirs := by
  induction nodes generalizing s with
  | nil =>
      obtain rfl := Except.ok.inj h
      exact ⟨rfl, rfl, rfl⟩
  | cons n ns ih =>
      obtain ⟨u, hu, hrest⟩ := Store.defineAll_cons_eq_ok.1 h
      obtain ⟨_, _, _, -, -, hadds⟩ := Store.define_adds hu
      obtain ⟨hunit, hworkDir, hsearchDirs⟩ := ih hrest
      exact ⟨hunit.trans hadds.unit, hworkDir.trans hadds.workDir,
        hsearchDirs.trans hadds.searchDirs⟩

end Storing

section Lookups

/-- Stores with the same tempo and directories in which every look-up finds the same. -/
structure Store.SameLookups (s t : Store) : Prop where
  unit : t.unit = s.unit
  workDir : t.workDir = s.workDir
  searchDirs : t.searchDirs = s.searchDirs
  phrase : ∀ name, t.phrase? name = s.phrase? name
  sound : ∀ name, t.sound? name = s.sound? name
  voice : ∀ name, t.voice? name = s.voice? name

variable {s t : Store} {order order' : List Node}

theorem Store.definition?_eq_iff :
    (∀ kind name, t.definition? kind name = s.definition? kind name) ↔
      (∀ name, t.phrase? name = s.phrase? name) ∧ (∀ name, t.sound? name = s.sound? name) ∧
        ∀ name, t.voice? name = s.voice? name := by
  have hphrase : Function.Injective Definition.phrase := fun _ _ h => Definition.phrase.inj h
  have hsound : Function.Injective Definition.sound := fun _ _ h => Definition.sound.inj h
  have hvoice : Function.Injective Definition.voice := fun _ _ h => Definition.voice.inj h
  constructor
  · intro h
    exact ⟨fun name => Option.map_injective hphrase (h .phrase name),
      fun name => Option.map_injective hsound (h .sound name),
      fun name => Option.map_injective hvoice (h .voice name)⟩
  · rintro ⟨h, h', h''⟩ (_ | _ | _) name
    · simp [Store.definition?, h]
    · simp [Store.definition?, h']
    · simp [Store.definition?, h'']

theorem Store.SameLookups.of_definition?
    (hunit : t.unit = s.unit)
    (hworkDir : t.workDir = s.workDir)
    (hsearchDirs : t.searchDirs = s.searchDirs)
    (h : ∀ kind name d, t.definition? kind name = some d ↔ s.definition? kind name = some d) :
    s.SameLookups t := by
  obtain ⟨hphrase, hsound, hvoice⟩ :=
    Store.definition?_eq_iff.1 fun kind name => Option.ext (h kind name)
  exact ⟨hunit, hworkDir, hsearchDirs, hphrase, hsound, hvoice⟩

/-- The same definitions stored in two orders. -/
theorem Store.sameLookups_of_perm
    {u : Store}
    (hperm : order'.Perm order)
    (ht : s.defineAll order = .ok t)
    (hu : s.defineAll order' = .ok u) :
    t.SameLookups u := by
  obtain ⟨hunit, hworkDir, hsearchDirs⟩ := Store.settings_of_defineAll ht
  obtain ⟨hunit', hworkDir', hsearchDirs'⟩ := Store.settings_of_defineAll hu
  refine .of_definition? (hunit'.trans hunit.symm) (hworkDir'.trans hworkDir.symm)
    (hsearchDirs'.trans hsearchDirs.symm) fun kind name d => ?_
  rw [Store.definition?_of_defineAll ht, Store.definition?_of_defineAll hu]
  simp only [hperm.mem_iff]

theorem Node.alike_eq : Node.Alike Eq = Eq := by
  funext n m
  refine propext ⟨Node.Alike.eq, ?_⟩
  rintro rfl
  exact .refl (fun _ => rfl) n

theorem Phoneme.alike_eq : Phoneme.Alike Eq = Eq := by
  funext p q
  refine propext ⟨?_, ?_⟩
  · rintro ⟨hpos, hsymbol, hduration, hpitch⟩
    cases p
    cases q
    simp_all
  · rintro rfl
    exact ⟨rfl, rfl, rfl, rfl⟩

/-- Look-ups find the same exactly if stores are alike by name, with every place as it is. -/
theorem Store.sameLookups_iff_like :
    s.SameLookups t ↔ s.Like .byName Eq t := by
  have hnodes : ∀ ns ms, List.Forall₂ (Node.Alike Eq) ns ms ↔ id ms = id ns := by
    intro ns ms
    rw [Node.alike_eq, List.forall₂_eq_eq_eq]
    exact eq_comm
  have hparts : ∀ ps qs, List.Forall₂ (Phoneme.Alike Eq) ps qs ↔ id qs = id ps := by
    intro ps qs
    rw [Phoneme.alike_eq, List.forall₂_eq_eq_eq]
    exact eq_comm
  simp only [Store.like_byName_iff hnodes hparts, Option.map_id, id_eq]
  constructor
  · intro h
    exact ⟨h.unit, h.workDir, h.searchDirs, h.phrase, h.sound, h.voice⟩
  · rintro ⟨hunit, hworkDir, hsearchDirs, hphrase, hsound, hvoice⟩
    exact ⟨hunit, hworkDir, hsearchDirs, hphrase, hsound, hvoice⟩

end Lookups

section Runs

/-- A compilation sees of a store only what its look-ups find. -/
theorem Source.compile_of_sameLookups
    {s t : Store}
    (files : Files)
    (source : Source)
    (sink : Sink)
    (h : s.SameLookups t) :
    (source.compile files sink t).result = (source.compile files sink s).result ∧
      (source.compile files sink t).sink = (source.compile files sink s).sink ∧
      (source.compile files sink s).store.SameLookups (source.compile files sink t).store := by
  unfold Source.compile
  cases Node.ofText source.text source.fileId with
  | error d => exact ⟨rfl, rfl, h⟩
  | ok nodes =>
      dsimp only
      rw [source.scope_of_workDir h.workDir]
      have hlike := process_like (fun _ => rfl) files (source.scope s) sink
        (Node.Alike.refl_all (fun _ => rfl) nodes) (Store.sameLookups_iff_like.1 h)
      generalize process files (source.scope s) nodes sink s = out at hlike ⊢
      generalize process files (source.scope s) nodes sink t = out' at hlike ⊢
      cases hlike with
      | ok h => exact ⟨rfl, rfl, Store.sameLookups_iff_like.2 h⟩
      | @error d d' _ _ _ hvalue hpos h =>
          obtain ⟨pos, fault⟩ := d
          obtain ⟨pos', fault'⟩ := d'
          obtain rfl : pos = pos' := hpos
          obtain rfl : fault' = fault := hvalue
          exact ⟨rfl, rfl, Store.sameLookups_iff_like.2 h⟩

/--
The order of definitions does not matter.  Phrases and sounds that have a name, and voices, can be
stored in one order exactly if they can be in every other, and that is if the store admits them:
the names of the phrases and sounds differ, and none is a phoneme or taken in the store, and so do
those of the voices, of which none is built in or taken.  The stores that two orders lead to find
the same under every name, and every compilation from them ends with the same result, hands over
the same chunks and leaves stores that find the same.
-/
theorem defineAll_anyOrder
    {s : Store}
    {nodes : List Node}
    (hnodes : ∀ n ∈ nodes, ∃ kind name d, n.Defines kind name d) :
    (∀ order, order.Perm nodes → ((∃ t, s.defineAll order = .ok t) ↔ s.Admits nodes)) ∧
      ∀ order order' t u, order.Perm nodes → order'.Perm nodes →
        s.defineAll order = .ok t → s.defineAll order' = .ok u →
        t.SameLookups u ∧
          ∀ (files : Files) (source : Source) (sink : Sink),
            (source.compile files sink u).result = (source.compile files sink t).result ∧
              (source.compile files sink u).sink = (source.compile files sink t).sink ∧
              (source.compile files sink t).store.SameLookups
                (source.compile files sink u).store := by
  refine ⟨fun order horder => ?_, fun order order' t u horder horder' ht hu => ?_⟩
  · have hdefine : ∀ n ∈ order, ∃ kind name d, n.Defines kind name d :=
      fun n hn => hnodes n (horder.mem_iff.1 hn)
    rw [Store.defineAll_eq_ok_iff hdefine]
    exact ⟨fun h => h.of_perm horder.symm, fun h => h.of_perm horder⟩
  · have hsame := Store.sameLookups_of_perm (horder'.trans horder.symm) ht hu
    exact ⟨hsame, fun files source sink => source.compile_of_sameLookups files sink hsame⟩

/-- A phrase that calls a phrase, which calls a sound, and a voice with the name of a phrase;
each call stands before the definition of what it calls. -/
def couplet : List Node :=
  [.command {} "phrase" [.str "hi"] [.phoneme { pos := {}, symbol := "lo" }],
    .command {} "phrase" [.str "lo"] [.phoneme { pos := {}, symbol := "tah", duration := .int 60 }],
    .command {} "sound" [.str "tah"]
      [.phoneme { pos := {}, symbol := "t" }, .phoneme { pos := {}, symbol := "aa" }],
    .voice { pos := {}, name := "lo", settings := .empty }]

/-- A call of the first phrase, and one of something unknown. -/
def coupletCalls : Source where
  text := "hi zz"

theorem defineAll_anyOrder_couplet :
    ∃ t u,
      (Store.new "/work" []).defineAll couplet = .ok t ∧
      (Store.new "/work" []).defineAll couplet.reverse = .ok u ∧
      t.SameLookups u ∧
      (coupletCalls.compile (Listing.files ⟨[]⟩) {} u).sink.chunks.toList = ["[t<15>][aa<45>]"] ∧
      (coupletCalls.compile (Listing.files ⟨[]⟩) {} u).result =
        .error ⟨⟨"", 3, 0, 3⟩, .resolution (.unknownSymbol "zz")⟩ := by
  have hnodes : ∀ n ∈ couplet, ∃ kind name d, n.Defines kind name d := by
    simp only [couplet, List.forall_mem_cons, List.not_mem_nil, false_implies, implies_true,
      and_true]
    exact ⟨⟨_, _, _, .phrase⟩, ⟨_, _, _, .phrase⟩, ⟨_, _, _, .sound⟩, ⟨_, _, _, .voice⟩⟩
  obtain ⟨hiff, hsame⟩ := defineAll_anyOrder (s := Store.new "/work" []) hnodes
  obtain ⟨t, ht⟩ : ∃ t, (Store.new "/work" []).defineAll couplet = .ok t := ⟨_, rfl⟩
  have hadmits := (hiff couplet (.refl _)).1 ⟨t, ht⟩
  obtain ⟨u, hu⟩ := (hiff couplet.reverse couplet.reverse_perm).2 hadmits
  obtain ⟨hlookups, hcompile⟩ :=
    hsame couplet couplet.reverse t u (.refl _) couplet.reverse_perm ht hu
  obtain ⟨hresult, hsink, -⟩ := hcompile (Listing.files ⟨[]⟩) coupletCalls {}
  obtain rfl := Except.ok.inj ht
  refine ⟨_, u, ht, hu, hlookups, ?_, ?_⟩
  · rw [hsink]
    decide +kernel
  · rw [hresult]
    decide +kernel

end Runs

end SpeechMarkup
