import SpeechMarkup.Proofs.Correspondence
import SpeechMarkup.Proofs.Definitions

/-!
# Further definitions and directories

A compilation that succeeds does not notice what it does not need: definitions under names
that it does not give, and directories that are searched behind all others.

* `Store.Plus` adds definitions and directories to a store.
* `Store.Plus.define`: what can be stored under a name that is not added can be stored
  beside the additions.
* `adding` is the correspondence between runs from a store and from one with additions.
* `compile_plus` is the main result.
-/

namespace SpeechMarkup

open Expansion

section Names

/-- Phrases and sounds share one space of names, and voices have their own. -/
def Definition.Kind.Shares : Definition.Kind → Definition.Kind → Prop
  | .voice, other => other = .voice
  | _, other => other ≠ .voice

/-- Whether a name in the space of the kind is built in. -/
def Definition.Kind.isBuiltin : Definition.Kind → String → Bool
  | .voice, name => isBuiltinVoice name
  | _, name => isBuiltinPhoneme name

variable {s t : Store} {n : Node} {kind other : Definition.Kind} {name : String} {d : Definition}

theorem Definition.Kind.Shares.symm
    (h : kind.Shares other) :
    other.Shares kind := by
  cases kind <;> cases other <;> simp_all [Shares]

/-- A name can be given if it is not built in and no definition of its space has it. -/
theorem Store.free_iff :
    s.Free kind name ↔ kind.isBuiltin name = false ∧
      ∀ other, kind.Shares other → s.definition? other name = none := by
  have hspace : (∀ other : Definition.Kind, other ≠ .voice → s.definition? other name = none) ↔
      s.phrase? name = none ∧ s.sound? name = none := by
    constructor
    · intro h
      exact ⟨by simpa [Store.definition?] using h .phrase (by simp),
        by simpa [Store.definition?] using h .sound (by simp)⟩
    · rintro ⟨hphrase, hsound⟩ (_ | _ | _) hother
      · simp [Store.definition?, hphrase]
      · simp [Store.definition?, hsound]
      · exact absurd rfl hother
  cases kind with
  | phrase => exact and_congr_right fun _ => hspace.symm
  | sound => exact and_congr_right fun _ => hspace.symm
  | voice => simp [Store.Free, Definition.Kind.isBuiltin, Definition.Kind.Shares, Store.definition?]

/-- A name that can be given in a store could be given in every store that it extends. -/
theorem Store.Free.of_extends
    (hextends : s.Extends t)
    (h : t.Free kind name) :
    s.Free kind name := by
  obtain ⟨hbuiltin, hnone⟩ := Store.free_iff.1 h
  refine Store.free_iff.2 ⟨hbuiltin, fun other hshares => ?_⟩
  cases hd : s.definition? other name with
  | none => rfl
  | some d => cases (hextends other name d hd).symm.trans (hnone other hshares)

theorem Node.Defines.unique
    {name' : String}
    {d' : Definition}
    (h : n.Defines kind name d)
    (h' : n.Defines other name' d') :
    other = kind ∧ name' = name ∧ d' = d := by
  generalize hn : n = m at h'
  cases h with
  | phrase =>
      cases h' with
      | phrase =>
          cases hn
          exact ⟨rfl, rfl, rfl⟩
      | sound => simp at hn
      | voice => cases hn
  | sound =>
      cases h' with
      | phrase => simp at hn
      | sound =>
          cases hn
          exact ⟨rfl, rfl, rfl⟩
      | voice => cases hn
  | voice =>
      cases h' with
      | phrase => cases hn
      | sound => cases hn
      | voice =>
          cases hn
          exact ⟨rfl, rfl, rfl⟩

/-- A definition of a name that can be given is stored. -/
theorem Node.Defines.define_of_free
    (h : n.Defines kind name d)
    (hfree : s.Free kind name) :
    ∃ t, s.define n = .ok t ∧ s.Adds kind name d t := by
  have hstored : ∃ t, s.define n = .ok t := by
    cases h with
    | phrase =>
        obtain ⟨hbuiltin, hphrase, hsound⟩ := hfree
        simp [Store.define, Store.defineNamed, Store.nameFault?, hbuiltin, hphrase, hsound]
    | sound =>
        obtain ⟨hbuiltin, hphrase, hsound⟩ := hfree
        simp [Store.define, Store.defineNamed, Store.nameFault?, hbuiltin, hphrase, hsound]
    | voice =>
        obtain ⟨hbuiltin, hvoice⟩ := hfree
        simp [Store.define, Store.defineVoice, hbuiltin, hvoice]
  obtain ⟨t, ht⟩ := hstored
  obtain ⟨kind', name', d', hdefines, -, hadds⟩ := Store.define_adds ht
  obtain ⟨rfl, rfl, rfl⟩ := h.unique hdefines
  exact ⟨t, ht, hadds⟩

end Names

section Stores

/-- The store `s'` is `s` with the definitions `more` under names that `s` does not define,
and with `dirs` behind the directories of `s`. -/
structure Store.Plus (more : Definition.Kind → String → Option Definition) (dirs : List String)
    (s s' : Store) : Prop where
  unit : s'.unit = s.unit
  workDir : s'.workDir = s.workDir
  searchDirs : s'.searchDirs = s.searchDirs ++ dirs
  definitions : ∀ kind name,
    s'.definition? kind name = (s.definition? kind name).or (more kind name)
  others : ∀ kind name, more kind name ≠ none → s.definition? kind name = none

/-- Every name that an addition has can be given. -/
def Store.Leaves (more : Definition.Kind → String → Option Definition) (s : Store) : Prop :=
  ∀ kind name, more kind name ≠ none → s.Free kind name

variable {more : Definition.Kind → String → Option Definition} {dirs : List String}
variable {s s' t : Store} {n : Node} {kind : Definition.Kind} {name : String}

theorem Definition.isBuiltin_of_wellFormed
    {d : Definition}
    (hd : s.definition? kind name = some d)
    (h : d.WellFormed name) :
    kind.isBuiltin name = false := by
  cases kind with
  | phrase =>
      obtain ⟨body, -, rfl⟩ := Option.map_eq_some_iff.1 hd
      exact h.2
  | sound =>
      obtain ⟨parts, -, rfl⟩ := Option.map_eq_some_iff.1 hd
      exact h.2.1
  | voice =>
      obtain ⟨settings, -, rfl⟩ := Option.map_eq_some_iff.1 hd
      exact h.2.1

/-- In a valid store, the definition of a name leaves no room for another one in its space. -/
theorem Store.Valid.definition?_eq_none
    {other : Definition.Kind}
    (hs : s.Valid)
    (hd : s.definition? kind name ≠ none)
    (hshares : kind.Shares other)
    (hother : other ≠ kind) :
    s.definition? other name = none := by
  have hapart := hs.apart name
  cases kind <;> cases other <;>
    simp_all [Store.definition?, Definition.Kind.Shares]

/-- What is added to a valid store takes names that could be given. -/
theorem Store.Plus.leaves
    (h : s.Plus more dirs s')
    (hs' : s'.Valid) :
    s.Leaves more := by
  intro kind name hmore
  obtain ⟨d, hd⟩ := Option.ne_none_iff_exists'.1 hmore
  have hdefinition : s'.definition? kind name = some d := by
    rw [h.definitions, h.others kind name hmore, hd]
    rfl
  refine Store.free_iff.2 ⟨?_, fun other hshares => ?_⟩
  · exact Definition.isBuiltin_of_wellFormed hdefinition (hs'.wellFormed kind name d hdefinition)
  · by_cases hother : other = kind
    · rw [hother]
      exact h.others kind name hmore
    · have hsome : s'.definition? kind name ≠ none := by simp [hdefinition]
      have hnone := hs'.definition?_eq_none hsome hshares hother
      rw [h.definitions] at hnone
      exact (Option.or_eq_none_iff.1 hnone).1

/-- What is stored under a name that is not added is stored beside the additions too. -/
theorem Store.Plus.define
    (h : s.Plus more dirs s')
    (hdefine : s.define n = .ok t)
    (ht : t.Leaves more) :
    ∃ t', s'.define n = .ok t' ∧ t.Plus more dirs t' := by
  obtain ⟨kind, name, d, hdefines, hfree, hadds⟩ := Store.define_adds hdefine
  obtain ⟨hbuiltin, hnone⟩ := Store.free_iff.1 hfree
  -- an addition in the space of the name would have its name taken in `t`
  have hmore : ∀ other, kind.Shares other → more other name = none := by
    intro other hshares
    by_contra hne
    have htaken := (Store.free_iff.1 (ht other name hne)).2 kind hshares.symm
    cases hadds.added.symm.trans htaken
  have hfree' : s'.Free kind name := by
    refine Store.free_iff.2 ⟨hbuiltin, fun other hshares => ?_⟩
    rw [h.definitions, hnone other hshares, hmore other hshares]
    rfl
  obtain ⟨t', hdefine', hadds'⟩ := hdefines.define_of_free hfree'
  refine ⟨t', hdefine', ?_, ?_, ?_, ?_, ?_⟩
  · rw [hadds'.unit, h.unit, hadds.unit]
  · rw [hadds'.workDir, h.workDir, hadds.workDir]
  · rw [hadds'.searchDirs, h.searchDirs, hadds.searchDirs]
  · intro other x
    by_cases hsame : (other, x) = (kind, name)
    · obtain ⟨rfl, rfl⟩ := Prod.mk.inj hsame
      rw [hadds'.added, hadds.added]
      rfl
    · rw [hadds'.others other x hsame, h.definitions, hadds.others other x hsame]
  · intro other x hne
    exact (ht other x hne).definition?_eq_none

end Stores

section Runs

variable {more : Definition.Kind → String → Option Definition} {dirs : List String}
variable {s s' t : Store}

theorem Store.Plus.extends
    (h : s.Plus more dirs s') :
    s.Extends s' := by
  intro kind name d hd
  rw [h.definitions, hd]
  rfl

/-- A file that is found is found first, whatever other directories there are. -/
theorem resolve_append
    {files : Files}
    {name path : String}
    {dirs : List String}
    (more : List String)
    (h : resolve files dirs name = some path) :
    resolve files (dirs ++ more) name = some path := by
  rw [resolve] at h
  rw [resolve, List.map_append, List.find?_append, h]
  rfl

/-- Runs from a store and from one with additions.  Nothing is said of the second run if the
first one fails, or gives a name that an addition has. -/
def adding (files : Files) (more : Definition.Kind → String → Option Definition)
    (dirs : List String) : Correspondence files where
  places := Eq
  scopes := Eq
  stores := fun s s' => s.Plus more dirs s' ∧ s.Leaves more
  excused := fun _ => True
  lost := fun s => ¬ s.Leaves more
  refl := fun _ => rfl
  unit := fun h => h.1.unit
  tempo := by
    rintro s s' bpm ⟨h, hleaves⟩
    exact ⟨⟨rfl, h.workDir, h.searchDirs, h.definitions, h.others⟩, hleaves⟩
  define := by
    rintro s s' n n' ⟨h, hleaves⟩ hn
    obtain rfl := hn.eq
    cases hdefine : s.define n with
    | error fault => exact Or.inr (Or.inl ⟨fault, rfl, Or.inr trivial⟩)
    | ok t =>
        by_cases ht : t.Leaves more
        · obtain ⟨t', hdefine', hplus⟩ := h.define hdefine ht
          exact Or.inl ⟨t, t', rfl, hdefine', hplus, ht⟩
        · exact Or.inr (Or.inr ⟨t, rfl, ht⟩)
  phrase := by
    rintro s s' name ⟨h, hleaves⟩
    cases hbody : s.phrase? name with
    | some body =>
        rw [h.extends.phrase? hbody]
        exact .some (Node.Alike.refl_all (fun _ => rfl) body)
    | none =>
        -- a phrase that is added takes the place of no sound
        by_cases hmore : more .phrase name = none
        · have hnone : s'.phrase? name = none := by
            simpa [Store.definition?, hbody, hmore] using h.definitions .phrase name
          rw [hnone]
          exact .none
        · exact .excused ⟨(hleaves .phrase name hmore).2.2, trivial⟩
  sound := by
    rintro s s' name ⟨h, -⟩
    cases hparts : s.sound? name with
    | some parts =>
        rw [h.extends.sound? hparts]
        exact .some (List.forall₂_same.2 fun _ _ => ⟨rfl, rfl, rfl, rfl⟩)
    | none => exact .excused trivial
  voice := by
    rintro s s' name ⟨h, -⟩
    cases hsettings : s.voice? name with
    | some settings =>
        rw [h.extends.voice? hsettings]
        exact .some rfl
    | none => exact .excused trivial
  locate := by
    rintro scope _ s s' name rfl ⟨h, -⟩
    cases hfound : Expansion.locate files scope s name with
    | none => exact .excused ⟨trivial, trivial⟩
    | some path =>
        have hfound' : Expansion.locate files scope s' name = some path := by
          rw [Expansion.locate, h.searchDirs]
          exact resolve_append dirs hfound
        rw [hfound']
        exact .some rfl
  enterFile := by
    rintro scope _ path rfl
    exact .refl (fun _ => rfl) _
  enterPhrase := by
    rintro scope _ name rfl
    exact .refl (fun _ => rfl) _
  lost_define := by
    intro s t n hs hdefine ht
    have hextends : s.Extends t := Store.Extends.define (fun _ _ _ hd => hd) hdefine
    exact hs fun kind name hmore => (ht kind name hmore).of_extends hextends
  lost_tempo := fun _ _ h => h

/-- A run that succeeds, and gives no name that an addition has, goes the same way with the
additions. -/
theorem process_plus
    {files : Files}
    {scope : Scope}
    {nodes : List Node}
    {sink sink' : Sink}
    (hplus : s.Plus more dirs s')
    (hs : s.Leaves more)
    (hrun : process files scope nodes sink s = ⟨.ok (), sink', t⟩)
    (ht : t.Leaves more) :
    ∃ t', process files scope nodes sink s' = ⟨.ok (), sink', t'⟩ ∧ t.Plus more dirs t' := by
  have hnodes := Node.Alike.refl_all (fun pos => Eq.refl pos) nodes
  have hends : (adding files more dirs).Ends (process files scope nodes sink s)
      (process files scope nodes sink s') :=
    (adding files more dirs).process_follows sink rfl hnodes ⟨hplus, hs⟩
  rw [hrun] at hends
  generalize process files scope nodes sink s' = out at hends ⊢
  cases hends with
  | ok h => exact ⟨_, rfl, h.1⟩
  | lost h => exact absurd ht h

/--
A compilation that succeeds also succeeds from a valid store with further definitions and with
further directories behind the others, and hands over the same chunks.  The names of the
further definitions must still be free in the store that it leaves behind, which is to say
that it gives none of them itself.  The store that the second compilation leaves behind is
that of the first with the same additions.
-/
theorem compile_plus
    {files : Files}
    {source : Source}
    {sink sink' : Sink}
    (hplus : s.Plus more dirs s')
    (hs' : s'.Valid)
    (hrun : source.compile files sink s = ⟨.ok (), sink', t⟩)
    (hnames : ∀ kind name, more kind name ≠ none → t.Free kind name) :
    ∃ t', source.compile files sink s' = ⟨.ok (), sink', t'⟩ ∧ t.Plus more dirs t' := by
  rw [Source.compile] at hrun
  cases hnodes : Node.ofText source.text source.fileId with
  | error d =>
      rw [hnodes] at hrun
      cases hrun
  | ok nodes =>
      rw [hnodes] at hrun
      obtain ⟨t', hrun', hplus'⟩ := process_plus hplus (hplus.leaves hs') hrun hnames
      refine ⟨t', ?_, hplus'⟩
      rw [Source.compile, hnodes, source.scope_of_workDir hplus.workDir]
      exact hrun'

/-- A store with a phrase. -/
def plain : Store where
  workDir := "/work"
  searchDirs := ["/work"]
  phrases := [("lo", [.phoneme ⟨{}, "t", .int 0, 0⟩])]

/-- One more phrase, which calls what nobody defines. -/
def extraPhrase : Definition.Kind → String → Option Definition
  | .phrase, name =>
      if name = "hi" then some (.phrase [.phoneme ⟨{}, "nobody", .int 0, 0⟩]) else none
  | _, _ => none

/-- The store with the further phrase, and with a further directory. -/
def enlarged : Store :=
  { plain with
    searchDirs := ["/work", "/lib"]
    phrases := plain.phrases ++ [("hi", [.phoneme ⟨{}, "nobody", .int 0, 0⟩])] }

theorem eq_of_extraPhrase
    {kind : Definition.Kind}
    {name : String}
    (h : extraPhrase kind name ≠ none) :
    kind = .phrase ∧ name = "hi" := by
  cases kind with
  | phrase =>
      refine ⟨rfl, ?_⟩
      by_contra hne
      exact h (by simp [extraPhrase, hne])
  | sound => exact absurd rfl h
  | voice => exact absurd rfl h

theorem plus_enlarged : plain.Plus extraPhrase ["/lib"] enlarged := by
  refine ⟨rfl, rfl, rfl, ?_, ?_⟩
  · rintro (_ | _ | _) name
    · have hlookup : enlarged.phrase? name =
          if name = "hi" then some [.phoneme ⟨{}, "nobody", .int 0, 0⟩]
          else plain.phrase? name :=
        lookup_append_of_none _ rfl name
      by_cases hname : name = "hi"
      · subst hname
        rfl
      · simp [Store.definition?, hlookup, hname, extraPhrase]
    · rfl
    · rfl
  · intro kind name hname
    obtain ⟨rfl, rfl⟩ := eq_of_extraPhrase hname
    rfl

theorem valid_enlarged : enlarged.Valid :=
  .of_phrases rfl rfl (by decide +kernel)

/-- A file of the same name in two directories. -/
def twoParts : Listing where
  entries := [("/work/part", some "aa"), ("/lib/part", some "t")]

/-- A call and an import. -/
def bridge : Source where
  text := "lo [:import part]"

theorem compile_plus_enlarged :
    ∃ sink t t',
      bridge.compile twoParts.files {} plain = ⟨.ok (), sink, t⟩ ∧
      bridge.compile twoParts.files {} enlarged = ⟨.ok (), sink, t'⟩ ∧
      sink.chunks.toList = ["[t]", "[aa]"] ∧
      t.Plus extraPhrase ["/lib"] t' := by
  have hresult : (bridge.compile twoParts.files {} plain).result = .ok () := by
    decide +kernel
  have hchunks : (bridge.compile twoParts.files {} plain).sink.chunks.toList =
      ["[t]", "[aa]"] := by
    decide +kernel
  have hphrase : ((bridge.compile twoParts.files {} plain).store.phrase? "hi").isNone = true := by
    decide +kernel
  have hsound : ((bridge.compile twoParts.files {} plain).store.sound? "hi").isNone = true := by
    decide +kernel
  have hnames : ∀ kind name, extraPhrase kind name ≠ none →
      (bridge.compile twoParts.files {} plain).store.Free kind name := by
    intro kind name hname
    obtain ⟨rfl, rfl⟩ := eq_of_extraPhrase hname
    exact ⟨by decide +kernel, by simpa using hphrase, by simpa using hsound⟩
  have hrun : bridge.compile twoParts.files {} plain =
      ⟨.ok (), (bridge.compile twoParts.files {} plain).sink,
        (bridge.compile twoParts.files {} plain).store⟩ := by
    rw [← hresult]
  obtain ⟨t', hrun', hplus⟩ := compile_plus plus_enlarged valid_enlarged hrun hnames
  exact ⟨_, _, t', hrun, hrun', hchunks, hplus⟩

end Runs

end SpeechMarkup
