import Mathlib.Data.Rat.Floor
import SpeechMarkup.Proofs.Output

/-!
# The time of a sound

The rules read the phonemes of a sound from left to right: consonants, vowels, consonants.
An expansion looks for the consonants from both ends.  On a sound that keeps the rules both
find the same parts, and the length of a call is shared out among all phonemes of the sound.

* `expandSound_of_shape` says what a sound that keeps the rules stands for, phoneme by
  phoneme.
* `share_bounds`: vowels that share what is left evenly leave less than a millisecond each
  unused.
* `expandSoundInWords` is the expansion by positions in the sound, in the arithmetic of signed
  words, and `expandSoundInWords_eq` says that it never leaves their range.
* `expandSound_conserves` is the main result.
-/

namespace SpeechMarkup

section Sharing

/-- The number of phonemes of a class in a sound. -/
def classCount (kind : PhonemeClass) (sound : List Phoneme) : Nat :=
  sound.countP fun p => classify p.symbol = some kind

/-- The instruction for one phoneme of a sound whose vowels last `each` milliseconds. -/
def speakPart (each pitch : Int) (p : Phoneme) : String :=
  if classify p.symbol = some .consonant then speak p.symbol 15 0
  else speak p.symbol each pitch

theorem classCount_append (kind : PhonemeClass) (xs ys : List Phoneme) :
    classCount kind (xs ++ ys) = classCount kind xs + classCount kind ys :=
  List.countP_append

/-- Phonemes of one class count for that class only. -/
theorem classCount_of_classify
    {kind : PhonemeClass}
    {ps : List Phoneme}
    (h : ∀ p ∈ ps, classify p.symbol = some kind)
    (other : PhonemeClass) :
    classCount other ps = if other = kind then ps.length else 0 := by
  unfold classCount
  by_cases hkind : other = kind
  · rw [if_pos hkind, List.countP_eq_length]
    intro p hp
    simp [h p hp, hkind]
  · rw [if_neg hkind, List.countP_eq_zero]
    intro p hp
    simpa [h p hp] using Ne.symm hkind

theorem map_speakPart_consonants
    {ps : List Phoneme}
    (each pitch : Int)
    (h : ∀ p ∈ ps, classify p.symbol = some .consonant) :
    ps.map (speakPart each pitch) = ps.map fun p => speak p.symbol consonantMillis 0 := by
  refine List.map_congr_left fun p hp => ?_
  rw [speakPart, if_pos (h p hp), consonantMillis]

theorem map_speakPart_vowels
    {ps : List Phoneme}
    (each pitch : Int)
    (h : ∀ p ∈ ps, classify p.symbol = some .vowel) :
    ps.map (speakPart each pitch) = ps.map fun p => speak p.symbol each pitch := by
  refine List.map_congr_left fun p hp => ?_
  rw [speakPart, if_neg (by simp [h p hp])]

/-- The consonants of a sound are those at its ends, and the vowels those between them. -/
theorem classCount_parts
    {lead vowels trail : List Phoneme}
    (hlead : ∀ p ∈ lead, classify p.symbol = some .consonant)
    (hvowels : ∀ p ∈ vowels, classify p.symbol = some .vowel)
    (htrail : ∀ p ∈ trail, classify p.symbol = some .consonant) :
    classCount .consonant (lead ++ (vowels ++ trail)) = lead.length + trail.length ∧
      classCount .vowel (lead ++ (vowels ++ trail)) = vowels.length := by
  simp [classCount_append, classCount_of_classify hlead, classCount_of_classify hvowels,
    classCount_of_classify htrail]

/-- All phonemes of a sound that keeps the rules are consonants or vowels, and there is a
vowel among them. -/
theorem classCount_of_shape
    {sound : List Phoneme}
    (h : SoundShape sound) :
    1 ≤ classCount .vowel sound ∧
      classCount .consonant sound + classCount .vowel sound = sound.length := by
  obtain ⟨lead, v, middle, trail, rfl, hlead, hvowels, htrail⟩ := h
  obtain ⟨hconsonants, hcount⟩ := classCount_parts hlead hvowels htrail
  rw [hconsonants, hcount]
  simp only [List.length_append, List.length_cons]
  omega

/-- A sound that keeps the rules is too short for its consonants, or is spoken phoneme by
phoneme. -/
theorem expandSound_of_shape
    {sound : List Phoneme}
    (h : SoundShape sound)
    (call : Phoneme)
    (millis : Int) :
    expandSound call sound millis =
      if millis < 15 * classCount .consonant sound then
        .error (.soundTooShort call.symbol (15 * classCount .consonant sound) millis)
      else
        .ok (String.join (sound.map (speakPart
          ((millis - 15 * classCount .consonant sound) / classCount .vowel sound)
          call.pitch))) := by
  obtain ⟨lead, v, middle, trail, rfl, hlead, hvowels, htrail⟩ := h
  obtain ⟨hconsonants, hcount⟩ := classCount_parts hlead hvowels htrail
  rw [hconsonants, hcount]
  simp only [expandSound, soundParts_append hlead hvowels htrail, consonantMillis]
  split
  · rfl
  · rename_i hlong
    have hquotient : Int.tdiv (millis - 15 * ((lead.length + trail.length : Nat) : Int))
        ((v :: middle).length : Int) =
        (millis - 15 * ((lead.length + trail.length : Nat) : Int)) /
          ((v :: middle).length : Int) :=
      Int.tdiv_eq_ediv_of_nonneg (by omega)
    rw [hquotient, List.isEmpty_cons, if_neg (by simp), List.map_append, List.map_append,
      map_speakPart_consonants _ _ hlead, map_speakPart_vowels _ _ hvowels,
      map_speakPart_consonants _ _ htrail, String.join_append, String.join_append,
      String.append_assoc]
    rfl

/-- Shares of what is left over make up all of it but less than one millisecond each. -/
theorem share_bounds
    {left : Int}
    {count : Nat}
    (hleft : 0 ≤ left)
    (hcount : 1 ≤ count) :
    0 ≤ left / count ∧ left - count < count * (left / count) ∧ count * (left / count) ≤ left := by
  have hpos : (0 : Int) < count := by omega
  refine ⟨Int.ediv_nonneg hleft (by omega), ?_, Int.mul_ediv_self_le (by omega)⟩
  have hlt := Int.lt_mul_ediv_self_add (x := left) hpos
  omega

end Sharing

section Words

/-- A whole number that a signed word of 64 bits can hold. -/
def IsWord (x : Int) : Prop :=
  minWord ≤ x ∧ x ≤ maxWord

instance (x : Int) : Decidable (IsWord x) :=
  inferInstanceAs (Decidable (_ ∧ _))

/-- The result of an operation on words, if it is a word. -/
def word? (x : Int) : Option Int :=
  if IsWord x then some x else none

/-- A quotient of words, rounded toward zero. -/
def quotient? (x y : Int) : Option Int :=
  if y = 0 then none else word? (x.tdiv y)

/-- A difference of positions. -/
def difference? (i j : Nat) : Option Nat :=
  if j ≤ i then some (i - j) else none

/-- The elements from position `i` up to position `j`, if both lie in the list. -/
def slice? {α : Type} (xs : List α) (i j : Nat) : Option (List α) :=
  if i ≤ j ∧ j ≤ xs.length then some ((xs.take j).drop i) else none

theorem word?_of_nonneg
    {x : Int}
    (hnonneg : 0 ≤ x)
    (hmax : x ≤ maxWord) :
    word? x = some x := by
  have hmin : minWord ≤ x := by
    unfold minWord
    omega
  exact if_pos ⟨hmin, hmax⟩

theorem quotient?_of_pos
    {x y : Int}
    (hy : 0 < y)
    (hnonneg : 0 ≤ x)
    (hmax : x ≤ maxWord) :
    quotient? x y = some (x.tdiv y) := by
  have hle : x.tdiv y ≤ x := Int.tdiv_le_self y hnonneg
  rw [quotient?, if_neg (by omega), word?_of_nonneg (Int.tdiv_nonneg hnonneg hy.le) (by omega)]

theorem slice?_of_append
    {α : Type}
    {xs before part after : List α}
    {i j : Nat}
    (h : before ++ (part ++ after) = xs)
    (hi : i = before.length)
    (hj : j = i + part.length) :
    slice? xs i j = some part := by
  subst h hi hj
  have hrange : before.length ≤ before.length + part.length ∧
      before.length + part.length ≤ (before ++ (part ++ after)).length := by
    simp only [List.length_append]
    omega
  rw [slice?, if_pos hrange, List.take_length_add_append, List.drop_left, List.take_left]

/--
The instructions for a sound of the given length, by positions in the sound and in the
arithmetic of words.  There is no result at all where a position lies outside of the sound or
the result of an operation is not a word.
-/
def expandSoundInWords (call : Phoneme) (sound : List Phoneme) (millis : Int) :
    Option (Except RuntimeFault String) := do
  let consonant := fun p : Phoneme => isConsonant p.symbol
  let edge := fun p : Phoneme => speak p.symbol consonantMillis 0
  let lead := (sound.takeWhile consonant).length
  let rest ← slice? sound lead sound.length
  let trail := (rest.reverse.takeWhile consonant).length
  let last ← difference? sound.length trail
  let vowels ← slice? sound lead last
  let consonants ← word? (lead + trail : Nat)
  let minimum ← word? (consonantMillis * consonants)
  if millis < minimum then pure (.error (.soundTooShort call.symbol minimum millis))
  else if vowels.isEmpty then pure (.error (.soundWithoutVowels call.symbol))
  else do
    let remaining ← word? (millis - minimum)
    let count ← word? (vowels.length : Nat)
    let each ← quotient? remaining count
    let first ← slice? sound 0 lead
    let final ← slice? sound last sound.length
    pure (.ok
      (String.join (first.map edge)
        ++ String.join (vowels.map fun p => speak p.symbol each call.pitch)
        ++ String.join (final.map edge)))

/-- The parts of a sound make it up, and its ends are found from the front and the back. -/
theorem eq_of_soundParts
    {sound lead middle trail : List Phoneme}
    (h : soundParts sound = (lead, middle, trail)) :
    lead ++ (middle ++ trail) = sound ∧
      sound.takeWhile (fun p => isConsonant p.symbol) = lead ∧
      (middle ++ trail).reverse.takeWhile (fun p => isConsonant p.symbol) = trail.reverse := by
  simp only [soundParts, Prod.mk.injEq] at h
  obtain ⟨hlead, hmiddle, htrail⟩ := h
  have hrest : sound.dropWhile (fun p => isConsonant p.symbol) = middle ++ trail := by
    rw [← hmiddle, ← htrail, ← List.reverse_append, List.takeWhile_append_dropWhile,
      List.reverse_reverse]
  refine ⟨?_, hlead, ?_⟩
  · rw [← hlead, ← hrest, List.takeWhile_append_dropWhile]
  · rw [← hrest]
    exact List.reverse_eq_iff.1 htrail

/-- Every position lies in the sound and every result is a word, if the sound is not of
astronomical length. -/
theorem expandSoundInWords_eq
    (call : Phoneme)
    {sound : List Phoneme}
    {millis : Int}
    (hlength : sound.length < 2 ^ 59)
    (hmillis : IsWord millis) :
    expandSoundInWords call sound millis = some (expandSound call sound millis) := by
  rcases hparts : soundParts sound with ⟨lead, middle, trail⟩
  obtain ⟨hjoin, hlead, htrail⟩ := eq_of_soundParts hparts
  have htotal : sound.length = lead.length + middle.length + trail.length := by
    rw [← hjoin, List.length_append, List.length_append, Nat.add_assoc]
  -- the slices are the parts
  have hrest : slice? sound lead.length sound.length = some (middle ++ trail) := by
    have hwhole : lead ++ (middle ++ trail ++ []) = sound := by rw [List.append_nil, hjoin]
    refine slice?_of_append hwhole rfl ?_
    rw [htotal, List.length_append, Nat.add_assoc]
  have hlast : difference? sound.length trail.length = some (lead.length + middle.length) := by
    rw [difference?, if_pos (by omega), htotal, Nat.add_sub_cancel]
  have hvowels : slice? sound lead.length (lead.length + middle.length) = some middle :=
    slice?_of_append hjoin rfl rfl
  have hfirst : slice? sound 0 lead.length = some lead := by
    have hwhole : [] ++ (lead ++ (middle ++ trail)) = sound := by rw [List.nil_append, hjoin]
    exact slice?_of_append hwhole rfl (Nat.zero_add _).symm
  have hfinal : slice? sound (lead.length + middle.length) sound.length = some trail := by
    have hwhole : lead ++ middle ++ (trail ++ []) = sound := by
      rw [List.append_nil, List.append_assoc, hjoin]
    exact slice?_of_append hwhole List.length_append.symm htotal
  -- the numbers of phonemes, and the least length of the sound, are words
  obtain ⟨consonants, hconsonants⟩ : ∃ c : Int, c = (lead.length + trail.length : Nat) := ⟨_, rfl⟩
  obtain ⟨count, hcount⟩ : ∃ v : Int, v = middle.length := ⟨_, rfl⟩
  have hminimum : 0 ≤ consonantMillis * consonants ∧ consonantMillis * consonants ≤ maxWord := by
    unfold consonantMillis maxWord
    omega
  have hword : word? consonants = some consonants :=
    word?_of_nonneg (by omega) (by unfold maxWord; omega)
  have hword' : word? count = some count :=
    word?_of_nonneg (by omega) (by unfold maxWord; omega)
  simp only [expandSoundInWords, expandSound, hparts, hlead, hrest, htrail, List.length_reverse,
    hlast, hvowels, ← hconsonants, ← hcount, hword, word?_of_nonneg hminimum.1 hminimum.2,
    Option.bind_eq_bind, Option.bind_some]
  split
  · rfl
  · rename_i hlong
    split
    · rfl
    · rename_i hnonempty
      have hpos : 0 < middle.length := List.length_pos_iff.2 (by simpa using hnonempty)
      have hremaining : 0 ≤ millis - consonantMillis * consonants := by omega
      have hfits : millis - consonantMillis * consonants ≤ maxWord := by
        have hmax := hmillis.2
        omega
      rw [word?_of_nonneg hremaining hfits, hword', Option.bind_some, Option.bind_some,
        quotient?_of_pos (by omega) hremaining hfits, hfirst, hfinal]
      rfl

end Words

section Conserving

theorem phonemes_map_phoneme (sound : List Phoneme) :
    Store.phonemes (sound.map .phoneme) = sound := by
  induction sound with
  | nil => rfl
  | cons p sound ih => exact congrArg (p :: ·) ih

theorem soundShape_of_check
    {pos : Position}
    {params : List Param}
    {sound : List Phoneme}
    (h : (Node.command pos "sound" params (sound.map .phoneme)).check = .ok ()) :
    SoundShape sound := by
  have hshape := soundShape_of_commandFault? (Node.check_eq_ok_iff.1 h)
  rwa [phonemes_map_phoneme] at hshape

/--
A call of a sound that keeps the rules, with `c` consonants and `v` vowels, fails and stands
for nothing if it is shorter than 15 milliseconds for each consonant.  Otherwise it stands for
one instruction for each phoneme of the sound, in their order: the consonants last 15
milliseconds and have no pitch, the vowels share what is left evenly and have the pitch of the
call, and all of them together last as long as the call but for less than `v` milliseconds.
A sound is never found to have no vowels, and neither its positions nor any number on the way
are out of range.
-/
theorem expandSound_conserves
    {pos : Position}
    {params : List Param}
    {sound : List Phoneme}
    {c v : Nat}
    (hrules : (Node.command pos "sound" params (sound.map .phoneme)).check = .ok ())
    (hc : classCount .consonant sound = c)
    (hv : classCount .vowel sound = v)
    (call : Phoneme)
    (millis : Int) :
    1 ≤ v ∧ c + v = sound.length ∧
      (millis < 15 * c →
        expandSound call sound millis = .error (.soundTooShort call.symbol (15 * c) millis)) ∧
      (15 * c ≤ millis →
        ∃ each : Int, each = ⌊((millis - 15 * c : Int) : ℚ) / v⌋ ∧ 0 ≤ each ∧
          expandSound call sound millis =
            .ok (String.join (sound.map (speakPart each call.pitch))) ∧
          millis - v < 15 * c + v * each ∧ 15 * c + v * each ≤ millis) ∧
      (∀ name, expandSound call sound millis ≠ .error (.soundWithoutVowels name)) ∧
      (sound.length < 2 ^ 59 → IsWord millis →
        expandSoundInWords call sound millis = some (expandSound call sound millis)) := by
  have hshape := soundShape_of_check hrules
  obtain ⟨hvowel, htotal⟩ := classCount_of_shape hshape
  have hexpand := expandSound_of_shape hshape call millis
  rw [hc, hv] at htotal hexpand
  rw [hv] at hvowel
  refine ⟨hvowel, htotal, ?_, ?_, ?_,
    fun hlength hmillis => expandSoundInWords_eq call hlength hmillis⟩
  · intro hshort
    rw [hexpand, if_pos hshort]
  · intro hlong
    obtain ⟨hnonneg, hlower, hupper⟩ := share_bounds (show 0 ≤ millis - 15 * c by omega) hvowel
    refine ⟨(millis - 15 * c) / v, (Rat.floor_intCast_div_natCast _ v).symm, hnonneg, ?_, ?_, ?_⟩
    · rw [hexpand, if_neg (by omega)]
    · omega
    · omega
  · intro name
    rw [hexpand]
    split
    · simp
    · simp

/-- Three consonants, two vowels and a consonant. -/
def strain : List Phoneme :=
  ["s", "t", "r", "aa", "iy", "n"].map fun symbol => { pos := {}, symbol }

/-- A call of 107 milliseconds has 47 for two vowels, and one of 59 is too short for four
consonants. -/
theorem expandSound_conserves_strain :
    (Node.command {} "sound" [.str "str"] (strain.map .phoneme)).check = .ok () ∧
      expandSound ⟨{}, "str", .int 107, 5⟩ strain 107 =
        .ok "[s<15>][t<15>][r<15>][aa<23,5>][iy<23,5>][n<15>]" ∧
      expandSound ⟨{}, "str", .int 59, 5⟩ strain 59 = .error (.soundTooShort "str" 60 59) ∧
      expandSoundInWords ⟨{}, "str", .int 107, 5⟩ strain 107 =
        some (expandSound ⟨{}, "str", .int 107, 5⟩ strain 107) := by
  have hrules : (Node.command {} "sound" [.str "str"] (strain.map .phoneme)).check = .ok () := by
    rw [Node.check_eq_ok_iff]
    decide +kernel
  have hc : classCount .consonant strain = 4 := by decide +kernel
  have hv : classCount .vowel strain = 2 := by decide +kernel
  obtain ⟨-, -, -, hlong, -, hwords⟩ :=
    expandSound_conserves hrules hc hv ⟨{}, "str", .int 107, 5⟩ 107
  obtain ⟨-, -, hshort, -⟩ := expandSound_conserves hrules hc hv ⟨{}, "str", .int 59, 5⟩ 59
  obtain ⟨each, heach, -, hexpand, -⟩ := hlong (by decide)
  obtain rfl : each = 23 := by
    rw [heach]
    norm_num [Int.floor_eq_iff]
  refine ⟨hrules, ?_, hshort (by decide), hwords (by decide) (by decide)⟩
  rw [hexpand]
  decide +kernel

end Conserving

end SpeechMarkup
