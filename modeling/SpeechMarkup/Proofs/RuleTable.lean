import SpeechMarkup.Proofs.Inspection
import SpeechMarkup.Proofs.Output

/-!
# The table of commands

What a command may look like is laid down in a table, which gives the parameters and the block
of each command by its name.  This file states the table without regard to the order in which
anything is checked, and shows that the rules accept what stands in it and nothing else.

* `Identifier` says which texts can be names, and `isIdentifier_iff` that the rules agree.
* `Row` is the table, and `Node.Lawful` extends it to all nodes.
* `row_of_commandFault?` and `Row.commandFault?_eq_none` are the two directions.
* `check_decides_table` is the main result.
-/

namespace SpeechMarkup

section Identifiers

/-- An ASCII letter. -/
def IsLetter (c : Char) : Prop :=
  ('A' ≤ c ∧ c ≤ 'Z') ∨ ('a' ≤ c ∧ c ≤ 'z')

/-- An ASCII digit. -/
def IsDigit (c : Char) : Prop :=
  '0' ≤ c ∧ c ≤ '9'

/-- A text that can be a name. -/
inductive Identifier : String → Prop
  | letter
      {s : String}
      {c : Char}
      (hs : s.toList = [c])
      (hc : IsLetter c) :
      Identifier s
  | word
      {s : String}
      (hlength : 2 ≤ s.length)
      (hchars : ∀ c ∈ s.toList, IsLetter c ∨ IsDigit c ∨ c = '_')
      (hfirst : ∀ c ∈ s.toList.head?, ¬ IsDigit c) :
      Identifier s

theorem isAlpha_iff (c : Char) : c.isAlpha = true ↔ IsLetter c := by
  change (decide ('A' ≤ c ∧ c ≤ 'Z') || ('a' ≤ c && c ≤ 'z')) = true ↔ _
  simp only [Bool.or_eq_true, Bool.and_eq_true, decide_eq_true_eq, IsLetter]

theorem isDigit_iff (c : Char) : c.isDigit = true ↔ IsDigit c := by
  change ('0' ≤ c && c ≤ '9') = true ↔ _
  simp only [Bool.and_eq_true, decide_eq_true_eq, IsDigit]

/-- A letter is no digit. -/
theorem IsLetter.not_isDigit
    {c : Char}
    (h : IsLetter c) :
    ¬ IsDigit c := by
  rintro ⟨-, hdigit⟩
  rcases h with ⟨hletter, -⟩ | ⟨hletter, -⟩
  · exact absurd (Char.le_trans hletter hdigit) (by decide)
  · exact absurd (Char.le_trans hletter hdigit) (by decide)

theorem isIdentifier_cons_cons
    {s : String}
    {c d : Char}
    {cs : List Char}
    (hs : s.toList = c :: d :: cs) :
    isIdentifier s = true ↔
      (IsLetter c ∨ c = '_') ∧ ∀ e ∈ d :: cs, IsLetter e ∨ IsDigit e ∨ e = '_' := by
  simp only [isIdentifier, hs, Bool.and_eq_true, Bool.or_eq_true, decide_eq_true_eq,
    List.all_eq_true, Char.isAlphanum, isAlpha_iff, isDigit_iff, or_assoc]

theorem identifier_cons_cons
    {s : String}
    {c d : Char}
    {cs : List Char}
    (hs : s.toList = c :: d :: cs) :
    Identifier s ↔
      (IsLetter c ∨ c = '_') ∧ ∀ e ∈ d :: cs, IsLetter e ∨ IsDigit e ∨ e = '_' := by
  have hmark : ¬ IsDigit '_' := by
    rw [← isDigit_iff]
    decide
  constructor
  · intro h
    cases h with
    | letter hone => simp [hs] at hone
    | word hlength hchars hfirst =>
        rw [hs] at hchars hfirst
        obtain ⟨hc, hrest⟩ := List.forall_mem_cons.1 hchars
        exact ⟨hc.imp_right fun h => h.resolve_left (hfirst c rfl), hrest⟩
  · rintro ⟨hc, hrest⟩
    refine .word ?_ ?_ ?_
    · simp [← String.length_toList, hs]
    · rw [hs]
      exact List.forall_mem_cons.2 ⟨hc.imp_right Or.inr, hrest⟩
    · intro e he
      obtain rfl : c = e := by simpa [hs] using he
      rcases hc with hc | rfl
      · exact hc.not_isDigit
      · exact hmark

/-- The rules take for a name what can be one. -/
theorem isIdentifier_iff (s : String) : isIdentifier s = true ↔ Identifier s := by
  have hlength := String.length_toList (s := s)
  -- The empty text, one character, and more of them.
  cases hs : s.toList with
  | nil =>
      refine ⟨fun h => by simp [isIdentifier, hs] at h, fun h => ?_⟩
      cases h with
      | letter hone => simp [hs] at hone
      | word htwo =>
          rw [hs] at hlength
          simp at hlength
          omega
  | cons c cs =>
      cases cs with
      | nil =>
          have hletter : isIdentifier s = true ↔ IsLetter c := by
            simp only [isIdentifier, hs, isAlpha_iff]
          rw [hletter]
          refine ⟨.letter hs, fun h => ?_⟩
          cases h with
          | letter hone hc => simp_all
          | word htwo =>
              rw [hs] at hlength
              simp at hlength
              omega
      | cons d cs => rw [isIdentifier_cons_cons hs, identifier_cons_cons hs]

end Identifiers

section Table

/-- The commands whose parameter is a keyword, and the keywords of each. -/
def keywords : List (String × List String) :=
  [("error", ["ignore", "speak", "tone"]),
    ("pronounce", ["alternate", "primary", "name", "noun", "adjective", "verb"]),
    ("punct", ["none", "some", "all", "pass"]),
    ("say", ["clause", "word", "letter", "filtered", "line"]),
    ("skip", ["punct", "rule", "all", "off", "cpg", "none"])]

/--
The table of commands: the parameters and the block that a command may have, by its name.
Whole numbers are words, so that the count of a loop has an upper limit, too.
-/
inductive Row : String → List Param → List Node → Prop
  | number
      {name : String}
      {v : Int}
      (hname : name ∈ ["comma", "cp", "period", "pp", "pitch"]) :
      Row name [.int v] []
  | dv
      {p : VoiceParam}
      {v : Int}
      (hp : p ∈ voiceParams)
      (hmin : p.min ≤ v)
      (hmax : v ≤ p.max) :
      Row "dv" [.str p.name, .int v] []
  | keyword
      {name option : String}
      {options : List String}
      (hname : (name, options) ∈ keywords)
      (h : option ∈ options) :
      Row name [.str option] []
  | mode
      {option state : String}
      (hoption : option ∈ ["math", "europe", "spell", "name", "citation", "latin", "table"])
      (hstate : state ∈ ["on", "off", "set"]) :
      Row "mode" [.str option, .str state] []
  | name
      {voice : String}
      (h : Identifier voice) :
      Row "name" [.str voice] []
  | nameAlias
      {name : String}
      {params : List Param}
      (hname : name ∈ ["nb", "nd", "nf", "nh", "nk", "np", "nr", "nu", "nw"]) :
      Row name params []
  | phoneme
      {state : String}
      (hstate : state ∈ ["on", "off"]) :
      Row "phoneme" [.str "arpabet", .str state] []
  | file
      {name path : String}
      (hname : name ∈ ["play", "import"]) :
      Row name [.str path] []
  | rate
      {v : Int}
      (hmin : 75 ≤ v)
      (hmax : v ≤ 600) :
      Row "rate" [.int v] []
  | tone
      {frequency length : Int} :
      Row "tone" [.int frequency, .int length] []
  | volume
      {option : String}
      {v : Int}
      (h : option ∈ ["up", "lup", "rup", "down", "ldown", "rdown", "set", "lset", "rset"])
      (hmin : 0 ≤ v)
      (hmax : v ≤ 100) :
      Row "volume" [.str option, .int v] []
  | stereo
      {left right : Int}
      (hleft : 0 ≤ left ∧ left ≤ 100)
      (hright : 0 ≤ right ∧ right ≤ 100) :
      Row "volume" [.str "sset", .int left, .int right] []
  | bpm
      {v : Int}
      (hmin : 0 ≤ v)
      (hmax : v ≤ 60000) :
      Row "bpm" [.int v] []
  | loop
      {count : Int}
      {context : List Node}
      (hcount : 0 ≤ count)
      (hword : count ≤ maxWord) :
      Row "loop" [.int count] context
  | phrase
      {phrase : String}
      {context : List Node}
      (hname : Identifier phrase)
      (hcontext : context ≠ []) :
      Row "phrase" [.str phrase] context
  | sound
      {sound : String}
      {phonemes : List Phoneme}
      (hname : Identifier sound)
      (hshape : SoundShape phonemes) :
      Row "sound" [.str sound] (phonemes.map .phoneme)

/-- A node that the table allows.  Phonemes are looked up when they are expanded. -/
inductive Node.Lawful : Node → Prop
  | command
      {pos : Position}
      {name : String}
      {params : List Param}
      {context : List Node}
      (h : Row name params context) :
      Lawful (.command pos name params context)
  | voice
      {v : Voice}
      (hname : Identifier v.name)
      (hsettings : ∀ e ∈ v.settings.entries,
        ∃ p ∈ voiceParams, p.name = e.1 ∧ p.min ≤ e.2 ∧ e.2 ≤ p.max) :
      Lawful (.voice v)
  | phoneme
      {p : Phoneme} :
      Lawful (.phoneme p)
  | stop
      {pos : Position} :
      Lawful (.stop pos)

end Table

section Params

variable {name : String} {params : List Param}

theorem params_of_anyInt
    (h : paramsFault? name [.anyInt] params = none) :
    ∃ v, params = [.int v] := by
  obtain ⟨p, rfl, htakes⟩ := params_of_singleton h
  obtain ⟨v, rfl⟩ := Slot.takes_anyInt.1 htakes
  exact ⟨v, rfl⟩

theorem params_of_oneOf
    {options : List String}
    (h : paramsFault? name [.oneOf options] params = none) :
    ∃ s, params = [.str s] ∧ s ∈ options := by
  obtain ⟨p, rfl, htakes⟩ := params_of_singleton h
  obtain ⟨s, rfl, hs⟩ := Slot.takes_oneOf.1 htakes
  exact ⟨s, rfl, hs⟩

end Params

section Blocks

/-- A block whose classes can be told holds nothing but phonemes. -/
theorem eq_map_of_soundClasses
    {name : String}
    {nodes : List Node}
    {classes : List PhonemeClass}
    (h : soundClasses name nodes = .ok classes) :
    nodes = (Store.phonemes nodes).map .phoneme := by
  induction nodes generalizing classes with
  | nil => rfl
  | cons n ns ih =>
      obtain ⟨p, kind, rest, rfl, -, hrest, -⟩ := soundClasses_cons_eq_ok h
      exact congrArg (Node.phoneme p :: ·) (ih hrest)

/-- Phonemes of one class in front of a block. -/
theorem soundClasses_append
    {kind : PhonemeClass}
    {ps : List Phoneme}
    (name : String)
    (hkind : kind = .consonant ∨ kind = .vowel)
    (hps : ∀ p ∈ ps, classify p.symbol = some kind)
    (rest : List Node) :
    soundClasses name (ps.map .phoneme ++ rest) =
      (soundClasses name rest).map (List.replicate ps.length kind ++ ·) := by
  induction ps with
  | nil => cases hrest : soundClasses name rest <;> simp [hrest, Except.map]
  | cons p ps ih =>
      obtain ⟨hp, hps⟩ := List.forall_mem_cons.1 hps
      have hstep : soundClasses name (.phoneme p :: (ps.map .phoneme ++ rest)) =
          (soundClasses name (ps.map .phoneme ++ rest)).map (kind :: ·) := by
        rcases hkind with rfl | rfl <;> rw [soundClasses, hp]
      rw [List.map_cons, List.cons_append, hstep, ih hps]
      cases soundClasses name rest with
      | error e => rfl
      | ok ks => rfl

theorem isSoundPattern_replicate (lead middle trail : Nat) :
    isSoundPattern (List.replicate lead .consonant ++
      (List.replicate (middle + 1) .vowel ++ List.replicate trail .consonant)) = true := by
  simp [isSoundPattern, List.replicate_succ]

theorem soundFault?_of_shape
    {ps : List Phoneme}
    (h : SoundShape ps)
    (name : String) :
    soundFault? name (ps.map .phoneme) = none := by
  obtain ⟨lead, v, middle, trail, rfl, hlead, hvowels, htrail⟩ := h
  have hclasses : soundClasses name ((lead ++ (v :: middle ++ trail)).map .phoneme) =
      .ok (List.replicate lead.length .consonant ++
        (List.replicate (middle.length + 1) .vowel ++
          List.replicate trail.length .consonant)) := by
    rw [List.map_append, soundClasses_append name (.inl rfl) hlead, List.map_append,
      soundClasses_append name (.inr rfl) hvowels, ← List.append_nil (trail.map _),
      soundClasses_append name (.inl rfl) htrail]
    simp [soundClasses, Except.map]
  rw [soundFault?, hclasses]
  simp only [isSoundPattern_replicate, if_true]

theorem sound_of_contextFault?
    {name sound : String}
    {context : List Node}
    (h : contextFault? .sound name [.str sound] context = none) :
    ∃ phonemes, context = phonemes.map .phoneme ∧ SoundShape phonemes := by
  simp only [contextFault?, firstText] at h
  split at h
  · cases h
  · refine ⟨Store.phonemes context, ?_, soundShape_of_soundFault? h⟩
    unfold soundFault? at h
    split at h
    · cases h
    · exact eq_map_of_soundClasses ‹_›

end Blocks

section Deciding

variable {name : String} {params : List Param} {context : List Node}

/-- The parameters of `dv`. -/
theorem params_of_dv
    {slots : List Slot}
    (hslots : Command.dv.slots params = some slots)
    (h : paramsFault? name slots params = none) :
    ∃ p ∈ voiceParams, ∃ v, params = [.str p.name, .int v] ∧ p.min ≤ v ∧ v ≤ p.max := by
  obtain rfl := Option.some.inj hslots
  obtain ⟨first, rest, rfl, hfirst, hrest⟩ := params_of_cons h
  obtain ⟨key, rfl, hkey⟩ := Slot.takes_oneOf.1 hfirst
  obtain ⟨p, hp, rfl⟩ := List.mem_map.1 hkey
  dsimp only at hrest
  rw [voiceParam?_eq_some_iff.2 ⟨hp, rfl⟩] at hrest
  obtain ⟨v, rfl, hrange⟩ := params_of_intIn hrest
  exact ⟨p, hp, v, rfl, hrange⟩

/-- The two forms of `volume`. -/
theorem row_of_volume
    (h : ∀ slots, Command.volume.slots params = some slots →
      paramsFault? "volume" slots params = none) :
    Row "volume" params [] := by
  simp only [Command.slots] at h
  split at h
  · obtain ⟨first, rest, rfl, hfirst, hrest⟩ := params_of_cons (h _ rfl)
    obtain ⟨second, more, rfl, hsecond, hmore⟩ := params_of_cons hrest
    obtain ⟨option, rfl, hoption⟩ := Slot.takes_oneOf.1 hfirst
    obtain rfl := List.mem_singleton.1 hoption
    obtain ⟨left, rfl, hleft⟩ := Slot.takes_intIn.1 hsecond
    obtain ⟨right, rfl, hright⟩ := params_of_intIn hmore
    exact .stereo hleft hright
  · obtain ⟨first, rest, rfl, hfirst, hrest⟩ := params_of_cons (h _ rfl)
    obtain ⟨option, rfl, hoption⟩ := Slot.takes_oneOf.1 hfirst
    obtain ⟨v, rfl, hmin, hmax⟩ := params_of_intIn hrest
    exact .volume hoption hmin hmax

/-- A command that takes no block stands in the table if its parameters keep the rules. -/
theorem row_of_plain
    {command : Command}
    (hname : name ∈ command.names)
    (hplain : command.takesContext = false)
    (hparams : ∀ slots, command.slots params = some slots →
      paramsFault? name slots params = none) :
    Row name params [] := by
  cases command
  case comma | cp | period | pp | pitch =>
    obtain rfl := List.mem_singleton.1 hname
    obtain ⟨v, rfl⟩ := params_of_anyInt (hparams _ rfl)
    exact .number (by decide)
  case dv =>
    obtain rfl := List.mem_singleton.1 hname
    obtain ⟨p, hp, v, rfl, hmin, hmax⟩ := params_of_dv rfl (hparams _ rfl)
    exact .dv hp hmin hmax
  case error | pronounce | punct | say | skip =>
    obtain rfl := List.mem_singleton.1 hname
    obtain ⟨option, rfl, hoption⟩ := params_of_oneOf (hparams _ rfl)
    exact .keyword (by decide) hoption
  case mode =>
    obtain rfl := List.mem_singleton.1 hname
    obtain ⟨first, rest, rfl, hfirst, hrest⟩ := params_of_cons (hparams _ rfl)
    obtain ⟨option, rfl, hoption⟩ := Slot.takes_oneOf.1 hfirst
    obtain ⟨state, rfl, hstate⟩ := params_of_oneOf hrest
    exact .mode hoption hstate
  case name =>
    obtain rfl := List.mem_singleton.1 hname
    obtain ⟨voice, rfl, hvoice⟩ := params_of_identifier (hparams _ rfl)
    exact .name ((isIdentifier_iff voice).1 hvoice)
  case nameAlias =>
    exact .nameAlias hname
  case phoneme =>
    obtain rfl := List.mem_singleton.1 hname
    obtain ⟨first, rest, rfl, hfirst, hrest⟩ := params_of_cons (hparams _ rfl)
    obtain ⟨option, rfl, hoption⟩ := Slot.takes_oneOf.1 hfirst
    obtain rfl := List.mem_singleton.1 hoption
    obtain ⟨state, rfl, hstate⟩ := params_of_oneOf hrest
    exact .phoneme hstate
  case play | importFile =>
    obtain rfl := List.mem_singleton.1 hname
    obtain ⟨path, rfl⟩ := params_of_anyText (hparams _ rfl)
    exact .file (by decide)
  case rate =>
    obtain rfl := List.mem_singleton.1 hname
    obtain ⟨v, rfl, hmin, hmax⟩ := params_of_intIn (hparams _ rfl)
    exact .rate hmin hmax
  case tone =>
    obtain rfl := List.mem_singleton.1 hname
    obtain ⟨first, rest, rfl, hfirst, hrest⟩ := params_of_cons (hparams _ rfl)
    obtain ⟨frequency, rfl⟩ := Slot.takes_anyInt.1 hfirst
    obtain ⟨length, rfl⟩ := params_of_anyInt hrest
    exact .tone
  case volume =>
    obtain rfl := List.mem_singleton.1 hname
    exact row_of_volume hparams
  case bpm =>
    obtain rfl := List.mem_singleton.1 hname
    obtain ⟨v, rfl, hmin, hmax⟩ := params_of_intIn (hparams _ rfl)
    exact .bpm hmin hmax
  case loop | phrase | sound | voice => cases hplain

/-- A command that keeps the rules stands in the table. -/
theorem row_of_commandFault?
    (h : commandFault? name params context = none) :
    Row name params context := by
  cases hcommand : Command.ofName? name with
  | none => simp [commandFault?, hcommand] at h
  | some command =>
      have hname := Command.mem_names_of_ofName? hcommand
      obtain ⟨hcontext, hparams, hblock⟩ := (commandFault?_eq_none_iff hname).1 h
      cases command
      case loop =>
        obtain rfl := List.mem_singleton.1 hname
        obtain ⟨count, rfl, hmin, hmax⟩ := params_of_intIn (hparams _ rfl)
        exact .loop hmin hmax
      case phrase =>
        obtain rfl := List.mem_singleton.1 hname
        obtain ⟨phrase, rfl, hphrase⟩ := params_of_identifier (hparams _ rfl)
        refine .phrase ((isIdentifier_iff phrase).1 hphrase) ?_
        rintro rfl
        cases hblock
      case sound =>
        obtain rfl := List.mem_singleton.1 hname
        obtain ⟨sound, rfl, hsound⟩ := params_of_identifier (hparams _ rfl)
        obtain ⟨phonemes, rfl, hshape⟩ := sound_of_contextFault? hblock
        exact .sound ((isIdentifier_iff sound).1 hsound) hshape
      case voice => cases hblock
      -- All other commands take no block.
      all_goals
        obtain rfl := hcontext rfl
        exact row_of_plain hname rfl hparams

/-- A command that stands in the table keeps the rules. -/
theorem Row.commandFault?_eq_none
    (h : Row name params context) :
    commandFault? name params context = none := by
  cases h with
  | number hname =>
      simp only [List.mem_cons, List.not_mem_nil, or_false] at hname
      have htakes {v : Int} : List.Forall₂ (Slot.Takes name) [.anyInt] [.int v] :=
        .cons (Slot.takes_anyInt.2 ⟨v, rfl⟩) .nil
      rcases hname with rfl | rfl | rfl | rfl | rfl
      · exact commandFault?_of_takes .comma (.head _) (fun _ => rfl) rfl htakes rfl
      · exact commandFault?_of_takes .cp (.head _) (fun _ => rfl) rfl htakes rfl
      · exact commandFault?_of_takes .period (.head _) (fun _ => rfl) rfl htakes rfl
      · exact commandFault?_of_takes .pp (.head _) (fun _ => rfl) rfl htakes rfl
      · exact commandFault?_of_takes .pitch (.head _) (fun _ => rfl) rfl htakes rfl
  | @dv p v hp hmin hmax =>
      have hslots : Command.dv.slots [.str p.name, .int v] =
          some [.oneOf (voiceParams.map (·.name)), .intIn p.min p.max] := by
        simp only [Command.slots, voiceParam?_eq_some_iff.2 ⟨hp, rfl⟩]
      exact commandFault?_of_takes .dv (.head _) (fun _ => rfl) hslots
        (.cons (Slot.takes_oneOf.2 ⟨_, rfl, List.mem_map_of_mem hp⟩)
          (.cons (Slot.takes_intIn.2 ⟨v, rfl, hmin, hmax⟩) .nil)) rfl
  | @keyword _ option options hname h =>
      have htakes : List.Forall₂ (Slot.Takes name) [.oneOf options] [.str option] :=
        .cons (Slot.takes_oneOf.2 ⟨option, rfl, h⟩) .nil
      simp only [keywords, List.mem_cons, Prod.mk.injEq, List.not_mem_nil, or_false] at hname
      rcases hname with ⟨rfl, rfl⟩ | ⟨rfl, rfl⟩ | ⟨rfl, rfl⟩ | ⟨rfl, rfl⟩ | ⟨rfl, rfl⟩
      · exact commandFault?_of_takes .error (.head _) (fun _ => rfl) rfl htakes rfl
      · exact commandFault?_of_takes .pronounce (.head _) (fun _ => rfl) rfl htakes rfl
      · exact commandFault?_of_takes .punct (.head _) (fun _ => rfl) rfl htakes rfl
      · exact commandFault?_of_takes .say (.head _) (fun _ => rfl) rfl htakes rfl
      · exact commandFault?_of_takes .skip (.head _) (fun _ => rfl) rfl htakes rfl
  | mode hoption hstate =>
      exact commandFault?_of_takes .mode (.head _) (fun _ => rfl) rfl
        (.cons (Slot.takes_oneOf.2 ⟨_, rfl, hoption⟩)
          (.cons (Slot.takes_oneOf.2 ⟨_, rfl, hstate⟩) .nil)) rfl
  | name h =>
      exact commandFault?_of_takes .name (.head _) (fun _ => rfl) rfl
        (.cons (Slot.takes_identifier.2 ⟨_, rfl, (isIdentifier_iff _).2 h⟩) .nil) rfl
  | nameAlias hname =>
      refine (commandFault?_eq_none_iff (show name ∈ Command.nameAlias.names from hname)).2 ?_
      refine ⟨fun _ => rfl, ?_, rfl⟩
      intro slots hslots
      cases hslots
  | phoneme hstate =>
      exact commandFault?_of_takes .phoneme (.head _) (fun _ => rfl) rfl
        (.cons (Slot.takes_oneOf.2 ⟨_, rfl, .head _⟩)
          (.cons (Slot.takes_oneOf.2 ⟨_, rfl, hstate⟩) .nil)) rfl
  | @file _ path hname =>
      have htakes : List.Forall₂ (Slot.Takes name) [.anyText] [.str path] :=
        .cons (Slot.takes_anyText.2 ⟨path, rfl⟩) .nil
      simp only [List.mem_cons, List.not_mem_nil, or_false] at hname
      rcases hname with rfl | rfl
      · exact commandFault?_of_takes .play (.head _) (fun _ => rfl) rfl htakes rfl
      · exact commandFault?_of_takes .importFile (.head _) (fun _ => rfl) rfl htakes rfl
  | rate hmin hmax =>
      exact commandFault?_of_takes .rate (.head _) (fun _ => rfl) rfl
        (.cons (Slot.takes_intIn.2 ⟨_, rfl, hmin, hmax⟩) .nil) rfl
  | tone =>
      exact commandFault?_of_takes .tone (.head _) (fun _ => rfl) rfl
        (.cons (Slot.takes_anyInt.2 ⟨_, rfl⟩) (.cons (Slot.takes_anyInt.2 ⟨_, rfl⟩) .nil)) rfl
  | volume h hmin hmax =>
      exact commandFault?_of_takes .volume (.head _) (fun _ => rfl) rfl
        (.cons (Slot.takes_oneOf.2 ⟨_, rfl, h⟩)
          (.cons (Slot.takes_intIn.2 ⟨_, rfl, hmin, hmax⟩) .nil)) rfl
  | stereo hleft hright =>
      exact commandFault?_of_takes .volume (.head _) (fun _ => rfl) rfl
        (.cons (Slot.takes_oneOf.2 ⟨_, rfl, .head _⟩)
          (.cons (Slot.takes_intIn.2 ⟨_, rfl, hleft⟩)
            (.cons (Slot.takes_intIn.2 ⟨_, rfl, hright⟩) .nil))) rfl
  | bpm hmin hmax =>
      exact commandFault?_of_takes .bpm (.head _) (fun _ => rfl) rfl
        (.cons (Slot.takes_intIn.2 ⟨_, rfl, hmin, hmax⟩) .nil) rfl
  | loop hcount hword =>
      exact commandFault?_of_takes .loop (.head _) (fun h => absurd h (by decide)) rfl
        (.cons (Slot.takes_intIn.2 ⟨_, rfl, hcount, hword⟩) .nil) rfl
  | phrase hname hcontext =>
      refine commandFault?_of_takes .phrase (.head _) (fun h => absurd h (by decide)) rfl
        (.cons (Slot.takes_identifier.2 ⟨_, rfl, (isIdentifier_iff _).2 hname⟩) .nil) ?_
      simp [contextFault?, hcontext]
  | @sound sound phonemes hname hshape =>
      refine commandFault?_of_takes .sound (.head _) (fun h => absurd h (by decide)) rfl
        (.cons (Slot.takes_identifier.2 ⟨_, rfl, (isIdentifier_iff _).2 hname⟩) .nil) ?_
      have hsome : (phonemes.map Node.phoneme).isEmpty = false := by
        obtain ⟨lead, v, middle, trail, rfl, -⟩ := hshape
        simp
      simp only [contextFault?, hsome, firstText, soundFault?_of_shape hshape, Bool.false_eq_true,
        if_false]

/-- A voice keeps the rules if its name can be one and its values are in the table. -/
theorem voiceFault?_eq_none_iff
    {v : Voice} :
    voiceFault? v = none ↔ (Node.voice v).Lawful := by
  constructor
  · intro h
    have hname : isIdentifier v.name = true := by
      by_contra hnot
      simp [voiceFault?, hnot] at h
    refine .voice ((isIdentifier_iff _).1 hname) fun e he => ?_
    obtain ⟨p, hp, hrange⟩ := VoiceSettings.inRange_of_voiceFault? h e he
    obtain ⟨hmem, hkey⟩ := voiceParam?_eq_some_iff.1 hp
    exact ⟨p, hmem, hkey, hrange⟩
  · intro h
    cases h with
    | voice hname hsettings =>
        rw [voiceFault?, if_pos ((isIdentifier_iff _).2 hname), List.findSome?_eq_none_iff]
        rintro ⟨key, value⟩ he
        obtain ⟨p, hp, hkey, hmin, hmax⟩ := hsettings _ he
        have hrow : voiceParam? key = some p := voiceParam?_eq_some_iff.2 ⟨hp, hkey⟩
        simp only [settingFault?, hrow]
        rw [if_neg]
        omega

/-- A node keeps the rules exactly if the table allows it. -/
theorem Node.ruleFault?_eq_none_iff (n : Node) : n.ruleFault? = none ↔ n.Lawful := by
  cases n with
  | command pos name params context =>
      constructor
      · intro h
        exact .command (row_of_commandFault? h)
      · intro h
        cases h with
        | command hrow => exact hrow.commandFault?_eq_none
  | voice v => exact voiceFault?_eq_none_iff
  | phoneme p => exact ⟨fun _ => .phoneme, fun _ => rfl⟩
  | stop pos => exact ⟨fun _ => .stop, fun _ => rfl⟩

/--
The check of a node accepts it exactly if the table allows it: a phoneme and the end of a
program always, a voice by its name and its values, and a command by its row, in which `voice`
does not occur.  A node that is not accepted is reported at its own place for a rule that it
breaks.  The same outcome comes from looking at the parameters by their positions, of which
none is ever missing.  A name is one letter, or at least two letters, digits and underscores of
which the first is no digit.
-/
theorem check_decides_table (n : Node) :
    (n.check = .ok () ↔ n.Lawful) ∧
      (∀ e, n.check = .error e →
        e.pos = n.pos ∧ Diagnostic.kind ⟨e.pos, .rule e.value⟩ = "ValidationError") ∧
      n.inspect = n.check.mapError (fun e => .broken e.value) ∧
      (∀ position, n.inspect ≠ .error (.missing position)) ∧
      ∀ s, isIdentifier s = true ↔ Identifier s := by
  refine ⟨Node.check_eq_ok_iff.trans n.ruleFault?_eq_none_iff, ?_, n.inspect_eq,
    n.inspect_ne_missing, isIdentifier_iff⟩
  intro e he
  exact ⟨(Node.check_eq_error_iff.1 he).2, rfl⟩

end Deciding

end SpeechMarkup
