import SpeechMarkup.Proofs.Output

/-!
# Stored definitions

A definition is stored once and stays as it is.  This file says what a single definition
changes in a store, and draws from it what every compilation leaves behind.

* `Store.definition?` looks up a phrase, sound or voice, and `Store.Free` are the names
  that can still be given.
* `Expansion.register_run` is the step: a definition is refused and changes nothing, or
  it gives a meaning to one free name (`Store.Adds`).
* `Store.Valid` is the invariant on stores, and `Store.Extends` says that definitions are
  kept.  A definition that keeps the rules preserves both, and so does every run.
* `Compiled` lists the stores that compilations leave behind, and
  `Compiled.valid_writeOnce` is the main result.
-/

namespace SpeechMarkup

/-- An entry under a new key changes no other look-up. -/
theorem lookup_append_of_none
    {α : Type}
    {entries : List (String × α)}
    {key : String}
    (value : α)
    (h : entries.lookup key = none)
    (x : String) :
    (entries ++ [(key, value)]).lookup x = if x = key then some value else entries.lookup x := by
  rw [List.lookup_append, lookup_cons_ite, List.lookup_nil]
  by_cases hx : x = key
  · rw [if_pos hx, if_pos hx, hx, h, Option.none_or]
  · rw [if_neg hx, if_neg hx, Option.or_none]

namespace VoiceSettings

section Keys

/-- The parameters that are set after values were put in one after the other. -/
theorem isSome_get?_foldl_insert
    (pairs : List (String × Int))
    (settings : VoiceSettings)
    (x : String) :
    ((pairs.foldl (fun s (k, v) => s.insert k v) settings).get? x).isSome = true ↔
      (settings.get? x).isSome = true ∨ x ∈ pairs.map Prod.fst := by
  induction pairs generalizing settings with
  | nil => simp
  | cons e rest ih =>
      rw [List.foldl_cons, ih, get?_insert, List.map_cons, List.mem_cons]
      by_cases hx : x = e.1
      · simp [hx]
      · simp [hx]

/-- A value for every parameter, within its limits, and for nothing else. -/
structure Complete (settings : VoiceSettings) : Prop where
  keys : ∀ key, (settings.get? key).isSome = true ↔ key ∈ voiceParams.map VoiceParam.name
  values : ∀ p ∈ voiceParams, ∀ value, settings.get? p.name = some value →
    p.min ≤ value ∧ value ≤ p.max

theorem isSome_get?_default (key : String) :
    (default.get? key).isSome = true ↔ key ∈ voiceParams.map VoiceParam.name := by
  have hnone : (empty.get? key).isSome = false := rfl
  rw [default, ofList, isSome_get?_foldl_insert, hnone, List.map_map]
  simp [Function.comp_def]

/-- The defaults with values within their limits in place of some make up a voice. -/
theorem complete_override
    {settings : VoiceSettings}
    (h : settings.InRange) :
    (default.override settings).Complete := by
  have hrange : (default.override settings).InRange := default_inRange.foldl_insert h
  refine ⟨?_, ?_⟩
  · intro key
    rw [override, isSome_get?_foldl_insert, isSome_get?_default]
    constructor
    · rintro (hkey | hkey)
      · exact hkey
      · obtain ⟨e, he, rfl⟩ := List.mem_map.1 hkey
        obtain ⟨p, hp, -⟩ := h e he
        obtain ⟨hmem, hname⟩ := voiceParam?_eq_some_iff.1 hp
        exact hname ▸ List.mem_map_of_mem hmem
    · exact Or.inl
  · intro p hp value hvalue
    obtain ⟨q, hq, hmin, hmax⟩ := hrange _ (mem_of_lookup_eq_some hvalue)
    have hrow := voiceParam?_eq_some_iff.2 ⟨hp, rfl⟩
    obtain rfl := Option.some.inj (hrow.symm.trans hq)
    exact ⟨hmin, hmax⟩

end Keys

end VoiceSettings

section Names

/-- What a name can stand for. -/
inductive Definition
  | phrase (body : List Node)
  | sound (parts : List Phoneme)
  | voice (settings : VoiceSettings)

/-- The kinds of definitions. -/
inductive Definition.Kind
  | phrase
  | sound
  | voice
deriving Repr, DecidableEq

/-- What a name stands for as a phrase, sound or voice. -/
def Store.definition? (s : Store) : Definition.Kind → String → Option Definition
  | .phrase, name => (s.phrase? name).map .phrase
  | .sound, name => (s.sound? name).map .sound
  | .voice, name => (s.voice? name).map .voice

/-- Whether a name can be given: a phrase and a sound must not share one, nor have the
name of a phoneme. -/
def Store.Free (s : Store) : Definition.Kind → String → Prop
  | .voice, name => isBuiltinVoice name = false ∧ s.voice? name = none
  | _, name => isBuiltinPhoneme name = false ∧ s.phrase? name = none ∧ s.sound? name = none

/-- The node gives the name its meaning.  A phrase keeps its nodes as they are, and a voice
takes the defaults for what it does not set. -/
inductive Node.Defines : Node → Definition.Kind → String → Definition → Prop
  | phrase
      {pos : Position}
      {name : String}
      {more : List Param}
      {context : List Node} :
      Defines (.command pos "phrase" (.str name :: more) context) .phrase name (.phrase context)
  | sound
      {pos : Position}
      {name : String}
      {more : List Param}
      {context : List Node} :
      Defines (.command pos "sound" (.str name :: more) context) .sound name
        (.sound (Store.phonemes context))
  | voice
      {v : Voice} :
      Defines (.voice v) .voice v.name (.voice (VoiceSettings.default.override v.settings))

/-- The store `t` is `s` with a meaning for one more name, and no other change. -/
structure Store.Adds (s : Store) (kind : Definition.Kind) (name : String) (d : Definition)
    (t : Store) : Prop where
  added : t.definition? kind name = some d
  others : ∀ kind' name', (kind', name') ≠ (kind, name) →
    t.definition? kind' name' = s.definition? kind' name'
  unit : t.unit = s.unit
  workDir : t.workDir = s.workDir
  searchDirs : t.searchDirs = s.searchDirs

theorem Store.Free.definition?_eq_none
    {s : Store}
    {kind : Definition.Kind}
    {name : String}
    (h : s.Free kind name) :
    s.definition? kind name = none := by
  cases kind with
  | phrase => simp [Store.definition?, h.2.1]
  | sound => simp [Store.definition?, h.2.2]
  | voice => simp [Store.definition?, h.2]

theorem Store.nameFault?_eq_none
    {s : Store}
    {command name : String}
    (h : s.nameFault? command name = none) :
    isBuiltinPhoneme name = false ∧ s.phrase? name = none ∧ s.sound? name = none := by
  unfold Store.nameFault? at h
  split at h
  · cases h
  · rename_i hphoneme
    split at h
    · cases h
    · rename_i hphrase
      split at h
      · cases h
      · rename_i hsound
        exact ⟨by simpa using hphoneme, by simpa using hphrase, by simpa using hsound⟩

/-- A definition that is stored gives a meaning to one free name. -/
theorem Store.define_adds
    {s t : Store}
    {n : Node}
    (h : s.define n = .ok t) :
    ∃ kind name d, n.Defines kind name d ∧ s.Free kind name ∧ s.Adds kind name d t := by
  rcases Store.define_eq_ok h with
    ⟨pos, name, more, context, rfl, hfault, rfl⟩ | ⟨pos, name, more, context, rfl, hfault, rfl⟩ |
    ⟨v, rfl, hbuiltin, hnew, rfl⟩
  · have hfree := Store.nameFault?_eq_none hfault
    have hlookup := lookup_append_of_none context hfree.2.1
    refine ⟨.phrase, name, .phrase context, .phrase, hfree, ⟨?_, ?_, rfl, rfl, rfl⟩⟩
    · simp [Store.definition?, Store.phrase?, hlookup]
    · rintro (_ | _ | _) x hx
      · have hne : x ≠ name := fun hname => hx (by rw [hname])
        simp [Store.definition?, Store.phrase?, hlookup, hne]
      · rfl
      · rfl
  · have hfree := Store.nameFault?_eq_none hfault
    have hlookup := lookup_append_of_none (Store.phonemes context) hfree.2.2
    refine ⟨.sound, name, .sound (Store.phonemes context), .sound, hfree, ⟨?_, ?_, rfl, rfl, rfl⟩⟩
    · simp [Store.definition?, Store.sound?, hlookup]
    · rintro (_ | _ | _) x hx
      · rfl
      · have hne : x ≠ name := fun hname => hx (by rw [hname])
        simp [Store.definition?, Store.sound?, hlookup, hne]
      · rfl
  · have hlookup := lookup_append_of_none (VoiceSettings.default.override v.settings) hnew
    refine ⟨.voice, v.name, _, .voice, ⟨hbuiltin, hnew⟩, ⟨?_, ?_, rfl, rfl, rfl⟩⟩
    · simp [Store.definition?, Store.voice?, hlookup]
    · rintro (_ | _ | _) x hx
      · rfl
      · rfl
      · have hne : x ≠ v.name := fun hname => hx (by rw [hname])
        simp [Store.definition?, Store.voice?, hlookup, hne]

/-- Storing a definition fails and changes nothing, or gives a meaning to one free name. -/
theorem Expansion.register_run (s : Store) (n : Node) :
    (∃ d, (register n).run s = (.error d, s)) ∨
      ∃ kind name d t, (register n).run s = (.ok "", t) ∧ n.Defines kind name d ∧
        s.Free kind name ∧ s.Adds kind name d t := by
  rw [register, Run.run_bind, Run.run_get]
  dsimp only
  rw [Run.run_bind]
  cases hdefine : s.define n with
  | error fault => exact Or.inl ⟨⟨n.pos, .registration fault⟩, rfl⟩
  | ok t =>
      obtain ⟨kind, name, d, hdefines, hfree, hadds⟩ := Store.define_adds hdefine
      exact Or.inr ⟨kind, name, d, t, rfl, hdefines, hfree, hadds⟩

end Names

section Invariant

/-- What is known of a definition that is stored under a name. -/
def Definition.WellFormed (name : String) : Definition → Prop
  | .phrase _ => isIdentifier name = true ∧ isBuiltinPhoneme name = false
  | .sound parts =>
      isIdentifier name = true ∧ isBuiltinPhoneme name = false ∧ SoundShape parts
  | .voice settings =>
      isIdentifier name = true ∧ isBuiltinVoice name = false ∧ settings.Complete

/-- What every compilation leaves in a store. -/
structure Store.Valid (s : Store) : Prop where
  /-- No name is both a phrase and a sound. -/
  apart : ∀ name, s.phrase? name = none ∨ s.sound? name = none
  wellFormed : ∀ kind name d, s.definition? kind name = some d → d.WellFormed name

/-- Every definition of `s` stands in `t` as it was. -/
def Store.Extends (s t : Store) : Prop :=
  ∀ kind name d, s.definition? kind name = some d → t.definition? kind name = some d

theorem Store.Extends.refl (s : Store) : s.Extends s :=
  fun _ _ _ hd => hd

theorem Store.Extends.trans
    {r s t : Store}
    (hrs : r.Extends s)
    (hst : s.Extends t) :
    r.Extends t :=
  fun kind name d hd => hst kind name d (hrs kind name d hd)

theorem Store.Extends.phrase?
    {s t : Store}
    {name : String}
    {body : List Node}
    (h : s.Extends t)
    (hbody : s.phrase? name = some body) :
    t.phrase? name = some body := by
  simpa [Store.definition?] using h .phrase name (.phrase body) (by simp [Store.definition?, hbody])

theorem Store.Extends.sound?
    {s t : Store}
    {name : String}
    {parts : List Phoneme}
    (h : s.Extends t)
    (hparts : s.sound? name = some parts) :
    t.sound? name = some parts := by
  simpa [Store.definition?] using h .sound name (.sound parts) (by simp [Store.definition?, hparts])

theorem Store.Extends.voice?
    {s t : Store}
    {name : String}
    {settings : VoiceSettings}
    (h : s.Extends t)
    (hsettings : s.voice? name = some settings) :
    t.voice? name = some settings := by
  simpa [Store.definition?] using
    h .voice name (.voice settings) (by simp [Store.definition?, hsettings])

theorem Store.Valid.new (workDir : String) (includes : List String) :
    (Store.new workDir includes).Valid := by
  refine ⟨fun name => Or.inl rfl, ?_⟩
  rintro (_ | _ | _) name d hd
  · cases hd
  · cases hd
  · cases hd

/-- A store of phrases is valid if their names are. -/
theorem Store.Valid.of_phrases
    {s : Store}
    (hsounds : s.sounds = [])
    (hvoices : s.voices = [])
    (hnames : ∀ name ∈ s.phrases.map Prod.fst,
      isIdentifier name = true ∧ isBuiltinPhoneme name = false) :
    s.Valid := by
  refine ⟨fun name => Or.inr (by simp [Store.sound?, hsounds]), ?_⟩
  rintro (_ | _ | _) name d hd
  · obtain ⟨body, hbody, rfl⟩ := Option.map_eq_some_iff.1 hd
    exact hnames name (List.mem_map_of_mem (mem_of_lookup_eq_some hbody))
  · simp [Store.definition?, Store.sound?, hsounds] at hd
  · simp [Store.definition?, Store.voice?, hvoices] at hd

theorem identifier_of_commandFault?
    {command name : String}
    {more : List Param}
    {context : List Node}
    (hcommand : command = "phrase" ∨ command = "sound")
    (h : commandFault? command (.str name :: more) context = none) :
    isIdentifier name = true := by
  have hparams : paramsFault? command [.identifier] (.str name :: more) = none := by
    rcases hcommand with rfl | rfl
    · have hname : Command.ofName? "phrase" = some .phrase := by decide
      exact (commandFault?_eq_none h hname).2.1 _ rfl
    · have hname : Command.ofName? "sound" = some .sound := by decide
      exact (commandFault?_eq_none h hname).2.1 _ rfl
  obtain ⟨s, hs, hidentifier⟩ := params_of_identifier hparams
  simp only [List.cons.injEq, Param.str.injEq] at hs
  exact hs.1 ▸ hidentifier

/-- What a node that keeps the rules gives a free name is well formed. -/
theorem Node.Defines.wellFormed
    {s : Store}
    {n : Node}
    {kind : Definition.Kind}
    {name : String}
    {d : Definition}
    (h : n.Defines kind name d)
    (hrules : n.ruleFault? = none)
    (hfree : s.Free kind name) :
    d.WellFormed name := by
  cases h with
  | phrase => exact ⟨identifier_of_commandFault? (Or.inl rfl) hrules, hfree.1⟩
  | sound =>
      exact ⟨identifier_of_commandFault? (Or.inr rfl) hrules, hfree.1,
        soundShape_of_commandFault? hrules⟩
  | @voice v =>
      have hidentifier : isIdentifier v.name = true := by
        by_contra hnot
        simp [Node.ruleFault?, voiceFault?, hnot] at hrules
      exact ⟨hidentifier, hfree.1,
        VoiceSettings.complete_override (VoiceSettings.inRange_of_voiceFault? hrules)⟩

theorem Store.Valid.define
    {s t : Store}
    {n : Node}
    (h : s.Valid)
    (hrules : n.ruleFault? = none)
    (hdefine : s.define n = .ok t) :
    t.Valid := by
  obtain ⟨kind, name, d, hdefines, hfree, hadds⟩ := Store.define_adds hdefine
  refine ⟨?_, ?_⟩
  · intro x
    have hphrase : (.phrase, x) ≠ (kind, name) → s.phrase? x = none → t.phrase? x = none := by
      intro hne hnone
      simpa [Store.definition?, hnone] using hadds.others .phrase x hne
    have hsound : (.sound, x) ≠ (kind, name) → s.sound? x = none → t.sound? x = none := by
      intro hne hnone
      simpa [Store.definition?, hnone] using hadds.others .sound x hne
    by_cases hnew : (.phrase, x) = (kind, name)
    · obtain ⟨rfl, rfl⟩ := Prod.mk.inj hnew
      exact Or.inr (hsound (by simp) hfree.2.2)
    · by_cases hnew' : (.sound, x) = (kind, name)
      · obtain ⟨rfl, rfl⟩ := Prod.mk.inj hnew'
        exact Or.inl (hphrase (by simp) hfree.2.1)
      · exact (h.apart x).imp (hphrase hnew) (hsound hnew')
  · intro kind' name' d' hd'
    by_cases hsame : (kind', name') = (kind, name)
    · obtain ⟨rfl, rfl⟩ := Prod.mk.inj hsame
      obtain rfl := Option.some.inj (hadds.added.symm.trans hd')
      exact hdefines.wellFormed hrules hfree
    · rw [hadds.others kind' name' hsame] at hd'
      exact h.wellFormed kind' name' d' hd'

theorem Store.Extends.define
    {r s t : Store}
    {n : Node}
    (h : r.Extends s)
    (hdefine : s.define n = .ok t) :
    r.Extends t := by
  obtain ⟨kind, name, d, -, hfree, hadds⟩ := Store.define_adds hdefine
  intro kind' name' d' hd'
  have hold := h kind' name' d' hd'
  by_cases hsame : (kind', name') = (kind, name)
  · obtain ⟨rfl, rfl⟩ := Prod.mk.inj hsame
    rw [hfree.definition?_eq_none] at hold
    cases hold
  · rw [hadds.others kind' name' hsame, hold]

end Invariant

section Runs

/-- The stores that compilations leave behind, one after the other, whatever they read and
write and however they end. -/
inductive Compiled (workDir : String) (includes : List String) : Store → Prop
  | new : Compiled workDir includes (Store.new workDir includes)
  | compile
      {store : Store}
      (files : Files)
      (source : Source)
      (sink : Sink)
      (h : Compiled workDir includes store) :
      Compiled workDir includes (source.compile files sink store).store

theorem Compiled.valid
    {workDir : String}
    {includes : List String}
    {s : Store}
    (h : Compiled workDir includes s) :
    s.Valid := by
  induction h with
  | new => exact Store.Valid.new workDir includes
  | compile files source sink _ ih =>
      exact source.compile_keeps_store (fun _ _ _ hs hrules hdefine => hs.define hrules hdefine)
        (fun _ _ hs => ⟨hs.apart, hs.wellFormed⟩) files sink ih

/-- A compilation leaves every definition as it was. -/
theorem Source.compile_extends
    (files : Files)
    (source : Source)
    (sink : Sink)
    (s : Store) :
    s.Extends (source.compile files sink s).store :=
  source.compile_keeps_store (fun _ _ _ hs _ hdefine => hs.define hdefine)
    (fun _ _ hs => hs) files sink fun _ _ _ hd => hd

/--
In every store that compilations leave behind, phrases and sounds have different names,
every name is an identifier and none is built in, sounds are consonants around vowels, and
voices have one value for each parameter, within its limits.  A further compilation leaves
every definition as it was.  A definition that is refused leaves any store as it was, and
one that is stored gives a meaning to one free name and changes nothing else.
-/
theorem Compiled.valid_writeOnce
    {workDir : String}
    {includes : List String}
    {s : Store}
    (h : Compiled workDir includes s) :
    s.Valid ∧
      (∀ (files : Files) (source : Source) (sink : Sink),
        s.Extends (source.compile files sink s).store) ∧
      ∀ (u : Store) (n : Node),
        (∀ d t, (Expansion.register n).run u = (.error d, t) → t = u) ∧
        ∀ text t, (Expansion.register n).run u = (.ok text, t) →
          ∃ kind name d, n.Defines kind name d ∧ u.Free kind name ∧ u.Adds kind name d t := by
  refine ⟨h.valid, fun files source sink => source.compile_extends files sink s, ?_⟩
  intro u n
  rcases Expansion.register_run u n with
    ⟨e, hrun⟩ | ⟨kind, name, d, v, hrun, hdefines, hfree, hadds⟩
  · refine ⟨?_, ?_⟩
    · intro d t ht
      exact (congrArg Prod.snd (hrun.symm.trans ht)).symm
    · intro text t ht
      cases hrun.symm.trans ht
  · refine ⟨?_, ?_⟩
    · intro d' t ht
      cases hrun.symm.trans ht
    · intro text t ht
      obtain rfl : v = t := congrArg Prod.snd (hrun.symm.trans ht)
      exact ⟨kind, name, d, hdefines, hfree, hadds⟩

/-- A sound and a voice, and a phrase that a fault follows. -/
def definitions : Source where
  text := "[:sound tah] \x7b t aa \x7d [:voice robo] \x7b sx 0 \x7d [:phrase hi] \x7b tah \x7d zz"

theorem valid_writeOnce_definitions :
    ∃ s parts settings,
      (definitions.compile (Listing.files ⟨[]⟩) ⟨#[], none⟩ (Store.new "/work" [])).store = s ∧
        s.sound? "tah" = some parts ∧ SoundShape parts ∧
        s.voice? "robo" = some settings ∧ settings.Complete ∧
        (definitions.compile (Listing.files ⟨[]⟩) ⟨#[], none⟩ s).store.sound? "tah" =
          some parts := by
  have hsound : ((definitions.compile (Listing.files ⟨[]⟩) ⟨#[], none⟩
      (Store.new "/work" [])).store.sound? "tah").isSome = true := by
    decide +kernel
  have hvoice : ((definitions.compile (Listing.files ⟨[]⟩) ⟨#[], none⟩
      (Store.new "/work" [])).store.voice? "robo").isSome = true := by
    decide +kernel
  obtain ⟨parts, hparts⟩ := Option.isSome_iff_exists.1 hsound
  obtain ⟨settings, hsettings⟩ := Option.isSome_iff_exists.1 hvoice
  have hstore : Compiled "/work" []
      (definitions.compile (Listing.files ⟨[]⟩) ⟨#[], none⟩ (Store.new "/work" [])).store :=
    .compile (Listing.files ⟨[]⟩) definitions ⟨#[], none⟩ .new
  obtain ⟨hvalid, hextends, -⟩ := hstore.valid_writeOnce
  have hsound' := congrArg (Option.map Definition.sound) hparts
  have hvoice' := congrArg (Option.map Definition.voice) hsettings
  have hagain := hextends (Listing.files ⟨[]⟩) definitions ⟨#[], none⟩ .sound "tah" _ hsound'
  refine ⟨_, parts, settings, rfl, hparts, ?_, hsettings, ?_, ?_⟩
  · exact (hvalid.wellFormed .sound "tah" _ hsound').2.2
  · exact (hvalid.wellFormed .voice "robo" _ hvoice').2.2
  · simpa [Store.definition?] using hagain

end Runs

end SpeechMarkup
