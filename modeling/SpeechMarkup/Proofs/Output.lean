import SpeechMarkup.Proofs.Groups
import SpeechMarkup.Proofs.Lengths

/-!
# Texts made of instructions

* `Output` is the text of instructions one after the other.
* A loop repeats them (`output_repeatText`).
* A sound that keeps the rules is consonants around vowels and is spoken in phonemes
  (`SoundShape`, `output_expandSound`).
* A voice whose values are within their limits is set by commands that keep the rules
  (`VoiceSettings.InRange`, `output_voiceInstructions`).
-/

namespace SpeechMarkup

open Scan

section Output

/-- A text that is made of instructions. -/
def Output (text : String) : Prop :=
  ∃ gs, (∀ g ∈ gs, IsGroup g ∧ Instruction g) ∧ String.join gs = text

theorem Output.empty : Output "" :=
  ⟨[], by simp, rfl⟩

theorem Output.append
    {a b : String}
    (ha : Output a)
    (hb : Output b) :
    Output (a ++ b) := by
  obtain ⟨gs, hgs, rfl⟩ := ha
  obtain ⟨hs, hhs, rfl⟩ := hb
  refine ⟨gs ++ hs, ?_, by simp [String.join_append]⟩
  intro g hg
  rcases List.mem_append.1 hg with hg | hg
  · exact hgs g hg
  · exact hhs g hg

theorem Output.single
    {g : String}
    (hgroup : IsGroup g)
    (h : Instruction g) :
    Output g :=
  ⟨[g], by simpa using ⟨hgroup, h⟩, by simp⟩

theorem Output.join
    {texts : List String}
    (h : ∀ t ∈ texts, Output t) :
    Output (String.join texts) := by
  induction texts with
  | nil => exact Output.empty
  | cons t ts ih =>
      obtain ⟨ht, hts⟩ := List.forall_mem_cons.1 h
      rw [String.join_cons]
      exact ht.append (ih hts)

theorem output_repeatText
    {count : Nat}
    {body text : String}
    (hbody : Output body)
    (h : repeatText count body = .ok text) :
    Output text := by
  unfold repeatText at h
  split at h
  · obtain rfl := Except.ok.inj h
    exact Output.empty
  · split at h
    · cases h
    · obtain rfl := Except.ok.inj h
      apply Output.join
      intro t ht
      rw [List.eq_of_mem_replicate ht]
      exact hbody

theorem Spoken.output
    {symbol : String}
    {millis pitch : Int}
    (h : Spoken symbol millis pitch) :
    Output (speak symbol millis pitch) :=
  Output.single h.isGroup (.phoneme h)

end Output

section Sounds

/-- Consonants, then vowels, then consonants. -/
def SoundShape (sound : List Phoneme) : Prop :=
  ∃ lead v middle trail, sound = lead ++ (v :: middle ++ trail) ∧
    (∀ p ∈ lead, classify p.symbol = some .consonant) ∧
    (∀ p ∈ v :: middle, classify p.symbol = some .vowel) ∧
    ∀ p ∈ trail, classify p.symbol = some .consonant

/-- A block whose classes can be told starts with a phoneme of a class. -/
theorem soundClasses_cons_eq_ok
    {name : String}
    {n : Node}
    {ns : List Node}
    {classes : List PhonemeClass}
    (h : soundClasses name (n :: ns) = .ok classes) :
    ∃ p kind rest, n = .phoneme p ∧ classify p.symbol = some kind ∧
      soundClasses name ns = .ok rest ∧ classes = kind :: rest := by
  cases n with
  | command pos name' params context => cases h
  | voice v => cases h
  | stop pos => cases h
  | phoneme p =>
      have hcons : ∀ kind, classify p.symbol = some kind →
          (soundClasses name ns).map (kind :: ·) = .ok classes →
          ∃ q kind rest, Node.phoneme p = .phoneme q ∧ classify q.symbol = some kind ∧
            soundClasses name ns = .ok rest ∧ classes = kind :: rest := by
        intro kind hkind hmap
        cases hrest : soundClasses name ns with
        | error e => simp [hrest, Except.map] at hmap
        | ok rest =>
            rw [hrest] at hmap
            exact ⟨p, kind, rest, rfl, hkind, rfl, (Except.ok.inj hmap).symm⟩
      unfold soundClasses at h
      split at h
      · exact hcons _ ‹_› h
      · exact hcons _ ‹_› h
      · cases h

theorem map_classify_of_soundClasses
    {name : String}
    {nodes : List Node}
    {classes : List PhonemeClass}
    (h : soundClasses name nodes = .ok classes) :
    (Store.phonemes nodes).map (fun p => classify p.symbol) = classes.map some := by
  induction nodes generalizing classes with
  | nil =>
      obtain rfl := Except.ok.inj h
      rfl
  | cons n ns ih =>
      obtain ⟨p, kind, rest, rfl, hkind, hrest, rfl⟩ := soundClasses_cons_eq_ok h
      show classify p.symbol :: (Store.phonemes ns).map _ = _
      rw [hkind, ih hrest]
      rfl

theorem classify_of_map_eq
    {ps : List Phoneme}
    {kinds : List PhonemeClass}
    {kind : PhonemeClass}
    (h : ps.map (fun p => classify p.symbol) = kinds.map some)
    (hkinds : kinds.all (· = kind) = true) :
    ∀ p ∈ ps, classify p.symbol = some kind := by
  intro p hp
  have hmem := List.mem_map_of_mem (f := fun p : Phoneme => classify p.symbol) hp
  rw [h] at hmem
  obtain ⟨k, hk, hkind⟩ := List.mem_map.1 hmem
  have hall := List.all_eq_true.1 hkinds k hk
  rw [← hkind, of_decide_eq_true hall]

/-- The block of a sound that keeps the rules has the shape of one. -/
theorem soundShape_of_soundFault?
    {name : String}
    {nodes : List Node}
    (h : soundFault? name nodes = none) :
    SoundShape (Store.phonemes nodes) := by
  unfold soundFault? at h
  split at h
  · cases h
  · rename_i classes hclasses
    split at h
    · rename_i hpattern
      have hmap := map_classify_of_soundClasses hclasses
      obtain ⟨hvowels, htrail⟩ := Bool.and_eq_true_iff.1 hpattern
      have hparts : classes.map some =
          (classes.takeWhile (· = .consonant)).map some ++
            (((classes.dropWhile (· = .consonant)).takeWhile (· = .vowel)).map some ++
              ((classes.dropWhile (· = .consonant)).dropWhile (· = .vowel)).map some) := by
        rw [← List.map_append, ← List.map_append, List.takeWhile_append_dropWhile,
          List.takeWhile_append_dropWhile]
      rw [hparts] at hmap
      obtain ⟨lead, rest, hsplit, hlead, hrest⟩ := List.map_eq_append_iff.1 hmap
      obtain ⟨middle, trail, rfl, hmiddle, htrail'⟩ := List.map_eq_append_iff.1 hrest
      have hvowel := classify_of_map_eq hmiddle List.all_takeWhile
      refine ⟨lead, ?_⟩
      cases middle with
      | nil =>
          have hnone : (classes.dropWhile (· = .consonant)).takeWhile (· = .vowel) = [] := by
            simpa using hmiddle.symm
          simp [hnone] at hvowels
      | cons v middle =>
          exact ⟨v, middle, trail, hsplit, classify_of_map_eq hlead List.all_takeWhile, hvowel,
            classify_of_map_eq htrail' htrail⟩
    · cases h

theorem soundShape_of_commandFault?
    {params : List Param}
    {context : List Node}
    (h : commandFault? "sound" params context = none) :
    SoundShape (Store.phonemes context) := by
  have hcommand : Command.ofName? "sound" = some .sound := by decide
  obtain ⟨-, -, hcontext⟩ := commandFault?_eq_none h hcommand
  simp only [contextFault?] at hcontext
  split at hcontext
  · cases hcontext
  · exact soundShape_of_soundFault? hcontext

/-- The parts of a sound are what the rules find in it from left to right. -/
theorem soundParts_append
    {lead middle trail : List Phoneme}
    {v : Phoneme}
    (hlead : ∀ p ∈ lead, classify p.symbol = some .consonant)
    (hvowels : ∀ p ∈ v :: middle, classify p.symbol = some .vowel)
    (htrail : ∀ p ∈ trail, classify p.symbol = some .consonant) :
    soundParts (lead ++ (v :: middle ++ trail)) = (lead, v :: middle, trail) := by
  have hconsonant : ∀ ps : List Phoneme, (∀ p ∈ ps, classify p.symbol = some .consonant) →
      ∀ p ∈ ps, isConsonant p.symbol = true := by
    intro ps hps p hp
    simp [isConsonant, hps p hp]
  have hvowel : ∀ p ∈ v :: middle, isConsonant p.symbol = false := by
    intro p hp
    simp [isConsonant, hvowels p hp]
  have hfirst : isConsonant v.symbol = false := hvowel v List.mem_cons_self
  obtain ⟨w, ws, hlast⟩ : ∃ w ws, (v :: middle).reverse = w :: ws :=
    List.exists_cons_of_ne_nil (by simp)
  have hend : isConsonant w.symbol = false :=
    hvowel w (List.mem_reverse.1 (hlast ▸ List.mem_cons_self))
  have htrail' : ∀ p ∈ trail.reverse, isConsonant p.symbol = true := fun p hp =>
    hconsonant trail htrail p (List.mem_reverse.1 hp)
  -- the lead is taken from the front up to the first vowel, the trail from the back
  have hfront : (lead ++ (v :: middle ++ trail)).dropWhile (fun p => isConsonant p.symbol) =
      v :: middle ++ trail := by
    rw [List.dropWhile_append_of_pos (hconsonant lead hlead), List.cons_append,
      List.dropWhile_cons, if_neg (by simp [hfirst])]
  have htaken : (lead ++ (v :: middle ++ trail)).takeWhile (fun p => isConsonant p.symbol) =
      lead := by
    rw [List.takeWhile_append_of_pos (hconsonant lead hlead), List.cons_append,
      List.takeWhile_cons, if_neg (by simp [hfirst]), List.append_nil]
  have hback : (v :: middle ++ trail).reverse = trail.reverse ++ w :: ws := by
    rw [List.reverse_append, hlast]
  have hdropped : (trail.reverse ++ w :: ws).dropWhile (fun p => isConsonant p.symbol) =
      w :: ws := by
    rw [List.dropWhile_append_of_pos htrail', List.dropWhile_cons, if_neg (by simp [hend])]
  have hkept : (trail.reverse ++ w :: ws).takeWhile (fun p => isConsonant p.symbol) =
      trail.reverse := by
    rw [List.takeWhile_append_of_pos htrail', List.takeWhile_cons, if_neg (by simp [hend]),
      List.append_nil]
  simp only [soundParts]
  rw [hfront, htaken, hback, hdropped, hkept, ← hlast, List.reverse_reverse,
    List.reverse_reverse]

theorem soundParts_of_shape
    {sound : List Phoneme}
    (h : SoundShape sound) :
    (∀ p ∈ (soundParts sound).1, classify p.symbol = some .consonant) ∧
      (∀ p ∈ (soundParts sound).2.1, classify p.symbol = some .vowel) ∧
      ∀ p ∈ (soundParts sound).2.2, classify p.symbol = some .consonant := by
  obtain ⟨lead, v, middle, trail, rfl, hlead, hvowels, htrail⟩ := h
  rw [soundParts_append hlead hvowels htrail]
  exact ⟨hlead, hvowels, htrail⟩

theorem classify_of_hasNoLength
    {symbol : String}
    (h : hasNoLength symbol = true) :
    classify symbol = some .symbol := by
  have hall : ∀ s ∈ lengthless, classify s = some .symbol := by decide
  exact hall symbol (by simpa [hasNoLength] using h)

/-- A sound of the right shape is spoken in instructions. -/
theorem output_expandSound
    {call : Phoneme}
    {sound : List Phoneme}
    {millis : Int}
    {text : String}
    (hshape : SoundShape sound)
    (hpitch : 0 ≤ call.pitch)
    (h : expandSound call sound millis = .ok text) :
    Output text := by
  obtain ⟨hlead, hmiddle, htrail⟩ := soundParts_of_shape hshape
  unfold expandSound at h
  dsimp only at h
  split at h
  · cases h
  · rename_i hlong
    split at h
    · cases h
    · obtain rfl := Except.ok.inj h
      have hedge : ∀ p : Phoneme, classify p.symbol = some .consonant →
          Output (speak p.symbol consonantMillis 0) := by
        intro p hp
        refine Spoken.output
          ⟨by simp [isBuiltinPhoneme, hp], by decide, by decide, ?_, fun _ => rfl⟩
        intro hlength
        rw [classify_of_hasNoLength hlength] at hp
        cases hp
      have hvowel : ∀ (p : Phoneme) (each : Int), classify p.symbol = some .vowel → 0 ≤ each →
          Output (speak p.symbol each call.pitch) := by
        intro p each hp heach
        refine Spoken.output ⟨by simp [isBuiltinPhoneme, hp], heach, hpitch, ?_, ?_⟩
        · intro hlength
          rw [classify_of_hasNoLength hlength] at hp
          cases hp
        · simp [hasNoPitch, hp]
      refine Output.append (Output.append ?_ ?_) ?_
      · apply Output.join
        intro t ht
        obtain ⟨p, hp, rfl⟩ := List.mem_map.1 ht
        exact hedge p (hlead p hp)
      · apply Output.join
        intro t ht
        obtain ⟨p, hp, rfl⟩ := List.mem_map.1 ht
        refine hvowel p _ (hmiddle p hp) (Int.tdiv_nonneg ?_ (by simp))
        omega
      · apply Output.join
        intro t ht
        obtain ⟨p, hp, rfl⟩ := List.mem_map.1 ht
        exact hedge p (htrail p hp)

end Sounds

section Voices

/-- Every value is within the limits of its parameter. -/
def VoiceSettings.InRange (settings : VoiceSettings) : Prop :=
  ∀ e ∈ settings.entries, ∃ p, voiceParam? e.1 = some p ∧ p.min ≤ e.2 ∧ e.2 ≤ p.max

/-- A voice parameter is found in the table under its name. -/
theorem voiceParam?_eq_some_iff
    {name : String}
    {p : VoiceParam} :
    voiceParam? name = some p ↔ p ∈ voiceParams ∧ p.name = name := by
  have hrow : ∀ p ∈ voiceParams, voiceParam? p.name = some p := by decide
  constructor
  · intro h
    exact ⟨List.mem_of_find?_eq_some h, by simpa using List.find?_some h⟩
  · rintro ⟨hp, rfl⟩
    exact hrow p hp

theorem VoiceSettings.InRange.foldl_insert
    {pairs : List (String × Int)}
    {settings : VoiceSettings}
    (hsettings : settings.InRange)
    (hpairs : ∀ e ∈ pairs, ∃ p, voiceParam? e.1 = some p ∧ p.min ≤ e.2 ∧ e.2 ≤ p.max) :
    (pairs.foldl (fun s (k, v) => s.insert k v) settings).InRange := by
  induction pairs generalizing settings with
  | nil => exact hsettings
  | cons e rest ih =>
      obtain ⟨he, hrest⟩ := List.forall_mem_cons.1 hpairs
      refine ih ?_ hrest
      intro e' he'
      rcases VoiceSettings.mem_insertEntry he' with rfl | hmem
      · exact he
      · exact hsettings e' hmem

theorem VoiceSettings.default_inRange : VoiceSettings.default.InRange := by
  have hdefaults : ∀ p ∈ voiceParams, p.min ≤ p.default ∧ p.default ≤ p.max := by
    decide
  refine InRange.foldl_insert (fun e he => ?_) fun e he => ?_
  · cases he
  · obtain ⟨p, hp, rfl⟩ := List.mem_map.1 he
    exact ⟨p, voiceParam?_eq_some_iff.2 ⟨hp, rfl⟩, hdefaults p hp⟩

theorem VoiceSettings.inRange_of_voiceFault?
    {v : Voice}
    (h : voiceFault? v = none) :
    v.settings.InRange := by
  unfold voiceFault? at h
  split at h
  · rintro ⟨key, value⟩ he
    have hfault : settingFault? v.name key value = none :=
      List.findSome?_eq_none_iff.1 h (key, value) he
    unfold settingFault? at hfault
    split at hfault
    · cases hfault
    · rename_i p hp
      split at hfault
      · cases hfault
      · rename_i hwithin
        exact ⟨p, hp, by omega, by omega⟩
  · cases h

/-- The values of a voice are set by commands that keep the rules. -/
theorem output_setVoiceParam
    {name : String}
    {value : Int}
    {p : VoiceParam}
    (hp : voiceParam? name = some p)
    (hmin : p.min ≤ value)
    (hmax : value ≤ p.max) :
    Output (setVoiceParam name value) := by
  have hall : ∀ q ∈ voiceParams, 0 ≤ q.min ∧ q.name.toList.all isWordChar = true := by
    decide
  have hmem : p ∈ voiceParams := List.mem_of_find?_eq_some hp
  have hname : p.name = name := by simpa using List.find?_some hp
  obtain ⟨hzero, hchars⟩ := hall p hmem
  have htext : setVoiceParam name value =
      (Node.command {} "dv" [.str name, .int value] []).render := by
    apply String.toList_injective
    simp [setVoiceParam, Node.render, Param.render]
  have hcommand : Command.ofName? "dv" = some .dv := by decide
  have hrules : commandFault? "dv" [.str name, .int value] [] = none := by
    have hlisted : ∃ q ∈ voiceParams, q.name = name := ⟨p, hmem, hname⟩
    have hwithin : ¬ (value < p.min ∨ p.max < value) := by omega
    simp [commandFault?, hcommand, Command.takesContext, Command.slots, hp, paramsFault?,
      typeFault?, valueFault?, Slot.typeName, Param.typeName, Slot.valueFault?, contextFault?,
      hlisted, hwithin]
  have hparams : ∀ q ∈ [Param.str name, Param.int value], Unbracketed q.render := by
    intro q hq
    apply unbracketed_of_wordChars
    rcases List.mem_cons.1 hq with rfl | hq
    · rw [← hname]
      exact List.all_eq_true.1 hchars
    · rw [List.mem_singleton.1 hq]
      intro c hc
      exact isWordChar_of_isDigit (isDigit_of_mem_toString (by omega) hc)
  rw [htext]
  exact Output.single (isGroup_render_command hcommand hparams)
    (.command hcommand hrules (Or.inl rfl))

theorem output_voiceInstructions
    {settings : VoiceSettings}
    (h : settings.InRange) :
    Output (voiceInstructions settings) := by
  apply Output.join
  intro t ht
  obtain ⟨p, hp, rfl⟩ := List.mem_map.1 ht
  split
  · rename_i value hvalue
    obtain ⟨q, hq, hmin, hmax⟩ := h _ (mem_of_lookup_eq_some hvalue)
    exact output_setVoiceParam hq hmin hmax
  · exact Output.empty

end Voices

end SpeechMarkup
