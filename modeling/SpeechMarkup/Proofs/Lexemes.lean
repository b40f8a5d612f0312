import SpeechMarkup.Token.Scan
import SpeechMarkup.Proofs.DecimalText

/-!
# Lexemes

The texts that the scanner reads as one token, and the tokens it can make.

* `Scan.Lexed` is what is known of every token of a text: a string is a word, a
  whole number fits a signed word, and no number is negative
  (`Scan.lexed_of_tokens`).
* `Scan.Reads` says that a text is read as tokens of given kinds wherever a
  delimiter follows.  It is built up from the left: words and numbers by
  `Scan.reads_word`, `Scan.reads_whole` and `Scan.reads_decimal`, blanks and
  special characters by `Reads.blank` and `Reads.special`.

Both follow the scanner's own steps (`Scan.scanInduction`).
-/

namespace SpeechMarkup

/-- Lists that are cut before their first member with `p` are cut at the same place. -/
theorem append_inj_of_cut
    {α : Type}
    (p : α → Prop)
    {x y u v : List α}
    (hx : ∀ c ∈ x, ¬ p c)
    (hy : ∀ c ∈ y, ¬ p c)
    (hu : ∀ c ∈ u.head?, p c)
    (hv : ∀ c ∈ v.head?, p c)
    (h : x ++ u = y ++ v) :
    x = y ∧ u = v := by
  induction x generalizing y with
  | nil =>
      cases y with
      | nil => exact ⟨rfl, h⟩
      | cons d y =>
          rw [List.nil_append] at h
          exact absurd (hu d (by simp [h])) (hy d (by simp))
  | cons c x ih =>
      cases y with
      | nil =>
          rw [List.nil_append] at h
          exact absurd (hv c (by simp [← h])) (hx c (by simp))
      | cons d y =>
          obtain ⟨rfl, htail⟩ := List.cons.inj h
          obtain ⟨rfl, huv⟩ := ih (fun e he => hx e (by simp [he]))
            (fun e he => hy e (by simp [he])) htail
          exact ⟨rfl, huv⟩

namespace Scan

/-- No slash of the text opens a comment. -/
def CommentFree : List Char → Prop
  | [] => True
  | c :: cs =>
      (c = '/' → cs.head? ≠ some '/' ∧ cs.head? ≠ some '*') ∧ CommentFree cs

/-- The characters that a word can have. -/
def isWordChar (c : Char) : Bool :=
  !isBreak c || c = '/'

/-- A text that can be the text of a string token. -/
structure IsWord (cs : List Char) : Prop where
  ne_nil : cs ≠ []
  chars : ∀ c ∈ cs, isWordChar c = true
  head : ∀ c, cs.head? = some c → c.isDigit = false
  comment : CommentFree cs

/-- A text before which every token ends: it is empty, or it starts with a blank
or a special character. -/
def Delimits : List Char → Prop
  | [] => True
  | c :: _ => isWordChar c = false

theorem Delimits.append
    {xs ys : List Char}
    (hx : Delimits xs)
    (hy : Delimits ys) :
    Delimits (xs ++ ys) := by
  cases xs with
  | nil => exact hy
  | cons c cs => exact hx

/-- The blanks and the special characters. -/
def delimiters : List Char :=
  [' ', '\t', '\r', '\n', ',', '{', '}', '[', ']', '<', '>']

theorem mem_delimiters_of_special
    {c : Char}
    {kind : Token.Kind}
    (h : Token.Kind.special? c = some kind) :
    c ∈ delimiters := by
  unfold Token.Kind.special? at h
  split at h <;> simp_all [delimiters]

theorem isWordChar_eq_false_iff (c : Char) :
    isWordChar c = false ↔ c ∈ delimiters := by
  constructor
  · intro h
    simp only [isWordChar, isBreak, isBlank, Bool.or_eq_false_iff, Bool.not_eq_false',
      Bool.or_eq_true, decide_eq_true_eq, decide_eq_false_iff_not] at h
    obtain ⟨((hblank | hslash) | hspecial), hne⟩ := h
    · rcases hblank with ((rfl | rfl) | rfl) | rfl <;> decide
    · exact absurd hslash hne
    · obtain ⟨kind, hkind⟩ := Option.isSome_iff_exists.1 hspecial
      exact mem_delimiters_of_special hkind
  · intro h
    have hall : delimiters.all (fun d => !isWordChar d) = true := by decide
    simpa using List.all_eq_true.1 hall c h

theorem isWordChar_of_isDigit
    {c : Char}
    (h : c.isDigit = true) :
    isWordChar c = true := by
  by_contra hnot
  have hmem := (isWordChar_eq_false_iff c).1 (by simpa using hnot)
  have hall : delimiters.all (fun d => !d.isDigit) = true := by decide
  have hdigit := List.all_eq_true.1 hall c hmem
  rw [h] at hdigit
  cases hdigit

section Words

theorem word_cons
    {c : Char}
    {cs : List Char}
    (hchar : isWordChar c = true)
    (hslash : c = '/' → cs.head? ≠ some '/' ∧ cs.head? ≠ some '*') :
    word (c :: cs) = Word.cons c (word cs) := by
  conv_lhs => unfold word
  split
  · simp_all
  · simp_all
  · simp_all
  · rename_i heq
    obtain ⟨rfl, rfl⟩ := List.cons.inj heq
    have hbreak : (isBreak c && c ≠ '/') = false := by
      simp only [isWordChar] at hchar
      cases hb : isBreak c <;> simp_all
    rw [hbreak]
    rfl

theorem word_of_delimits
    {rest : List Char}
    (h : Delimits rest) :
    word rest = .ok ⟨[], [], rest⟩ := by
  cases rest with
  | nil => rfl
  | cons c cs =>
      simp only [Delimits, isWordChar, Bool.or_eq_false_iff, Bool.not_eq_false',
        decide_eq_false_iff_not] at h
      obtain ⟨hbreak, hslash⟩ := h
      unfold word
      split
      · simp_all
      · simp_all
      · simp_all
      · rename_i heq
        obtain ⟨rfl, rfl⟩ := List.cons.inj heq
        simp [hbreak, hslash]

/-- A word that is followed by a delimiter is read as it stands. -/
theorem word_append_of_delimits
    {w rest : List Char}
    (hchars : ∀ c ∈ w, isWordChar c = true)
    (hcomment : CommentFree w)
    (hrest : Delimits rest) :
    word (w ++ rest) = .ok ⟨w, [], rest⟩ := by
  induction w with
  | nil => exact word_of_delimits hrest
  | cons c cs ih =>
      have htail := ih (fun d hd => hchars d (List.mem_cons_of_mem _ hd)) hcomment.2
      have hslash : c = '/' →
          (cs ++ rest).head? ≠ some '/' ∧ (cs ++ rest).head? ≠ some '*' := by
        intro hc
        cases cs with
        | cons d ds => exact hcomment.1 hc
        | nil =>
            cases rest with
            | nil => simp
            | cons d ds =>
                simp only [Delimits] at hrest
                constructor
                · rintro h
                  obtain rfl : d = '/' := by simpa using h
                  simp [isWordChar] at hrest
                · rintro h
                  obtain rfl : d = '*' := by simpa using h
                  revert hrest
                  decide
      rw [List.cons_append, word_cons (hchars c (by simp)) hslash, htail]
      rfl

/-- What is read as a word has only characters of words and opens no comment. -/
theorem chars_of_word
    {cs : List Char}
    {w : Word}
    (h : word cs = .ok w) :
    (∀ c ∈ w.text, isWordChar c = true) ∧ CommentFree w.text := by
  fun_induction word cs generalizing w with
  | case1 => cases h; simp [CommentFree]
  | case2 more => cases h; simp [CommentFree]
  | case3 more body rest hb => cases h; simp [CommentFree]
  | case4 => cases h
  | case5 => cases h; simp [CommentFree]
  | case6 c cs hline hblock hbreak ih =>
      obtain ⟨v, hv, rfl⟩ := Word.cons_eq_ok h
      obtain ⟨hchars, hcomment⟩ := ih hv
      have hchar : isWordChar c = true := by
        simp only [isWordChar]
        cases hb : isBreak c <;> simp_all
      refine ⟨?_, ?_, hcomment⟩
      · intro d hd
        rcases List.mem_cons.1 hd with rfl | hd
        · exact hchar
        · exact hchars d hd
      · -- the next code point of the word is the next one of the text
        intro hc
        have hsplit := word_append hv
        constructor
        · intro hhead
          cases htext : v.text with
          | nil => simp [htext] at hhead
          | cons d ds =>
              obtain rfl : d = '/' := by simpa [htext] using hhead
              rw [htext] at hsplit
              exact hline _ hc hsplit.symm
        · intro hhead
          cases htext : v.text with
          | nil => simp [htext] at hhead
          | cons d ds =>
              obtain rfl : d = '*' := by simpa [htext] using hhead
              rw [htext] at hsplit
              exact hblock _ hc hsplit.symm

end Words

section Steps

/-- A token kind as the scanner makes them. -/
def Lexed : Token.Kind → Prop
  | .int v => 0 ≤ v ∧ v ≤ maxWord
  | .float x => x.negative = false ∧ x.rank ≤ Binary64.infinityRank
  | .str s => IsWord s.toList
  | _ => True

theorem lexed_of_special
    {c : Char}
    {kind : Token.Kind}
    (h : Token.Kind.special? c = some kind) :
    Lexed kind := by
  unfold Token.Kind.special? at h
  split at h <;> cases h <;> trivial

theorem lexed_of_wholeNumber
    {literal rest lexeme gap more : List Char}
    {kind : Token.Kind}
    (h : wholeNumber literal rest = .token kind lexeme gap more) :
    Lexed kind := by
  unfold wholeNumber at h
  split at h
  · rename_i hle
    cases h
    exact ⟨Int.natCast_nonneg _, hle⟩
  · cases h

theorem malformed_ne_token
    (pointed : Bool)
    (literal : List Char)
    (c : Char)
    (cs lexeme gap rest : List Char)
    (kind : Token.Kind) :
    malformed pointed literal c cs ≠ .token kind lexeme gap rest := by
  unfold malformed
  split <;> simp

theorem lexed_ofDigits (whole part : List Char) :
    Lexed (.float (Binary64.ofDigits whole part)) := by
  refine ⟨Binary64.negative_ofRatio _ _ _, ?_⟩
  rw [Binary64.ofDigits, Decimal.nearest, Binary64.rank_ofRatio]
  exact Binary64.rankOfRatio_le_infinityRank _ _

theorem lexed_of_number
    {cs lexeme gap rest : List Char}
    {kind : Token.Kind}
    (h : number cs = .token kind lexeme gap rest) :
    Lexed kind := by
  unfold number at h
  split at h
  · exact lexed_of_wholeNumber h
  · dsimp only at h
    split at h
    · split at h
      · cases h
        exact lexed_ofDigits _ _
      · split at h
        · cases h
          exact lexed_ofDigits _ _
        · exact absurd h (malformed_ne_token _ _ _ _ _ _ _ _)
    · split at h
      · exact lexed_of_wholeNumber h
      · exact absurd h (malformed_ne_token _ _ _ _ _ _ _ _)

/-- Every token that a step finds has the form of its kind. -/
theorem lexed_of_step
    {c : Char}
    {cs lexeme gap rest : List Char}
    {kind : Token.Kind}
    (h : step c cs = .token kind lexeme gap rest) :
    Lexed kind := by
  unfold step at h
  split at h
  · cases h
  · split at h
    · rename_i k hspecial
      cases h
      exact lexed_of_special hspecial
    · split at h
      · exact lexed_of_number h
      · rename_i hdigit
        split at h
        · cases h
        · rename_i w hword
          split at h
          · cases h
          · rename_i hne
            cases h
            obtain ⟨hchars, hcomment⟩ := chars_of_word hword
            have hhead : ∀ d, w.text.head? = some d → d.isDigit = false := by
              intro d hd
              have hsplit := word_append hword
              cases htext : w.text with
              | nil => simp [htext] at hd
              | cons e es =>
                  rw [htext] at hsplit hd
                  obtain rfl : e = d := by simpa using hd
                  obtain ⟨rfl, -⟩ := List.cons.inj hsplit
                  simpa using hdigit
            show IsWord (String.ofList w.text).toList
            rw [String.toList_ofList]
            exact ⟨by simpa using hne, hchars, hhead, hcomment⟩

end Steps

section Runs

theorem tokens_nil (pos : Position) :
    tokens ⟨[], pos⟩ = (.ok [⟨.eof, pos⟩], ⟨[], pos⟩) := by
  rw [tokens]

/-- What the scanner does is decided by the step at the head of the text. -/
theorem tokens_cons
    (c : Char)
    (cs : List Char)
    (pos : Position) :
    tokens ⟨c :: cs, pos⟩ =
      match step c cs with
      | .skip gap rest => tokens ⟨rest, pos.after gap⟩
      | .token kind lexeme gap rest =>
          let next := tokens ⟨rest, (pos.after lexeme).after gap⟩
          (next.1.map (⟨kind, pos⟩ :: ·), next.2)
      | .fault before cause read rest =>
          (.error ⟨pos.after before, cause⟩, ⟨rest, pos.after read⟩) := by
  rw [tokens]
  dsimp only
  split <;> simp_all

/-- Induction along the steps of the scanner. -/
@[elab_as_elim]
theorem scanInduction
    {motive : List Char → Prop}
    (nil : motive [])
    (cons : ∀ c cs, motive (step c cs).rest → motive (c :: cs))
    (cs : List Char) :
    motive cs := by
  induction hn : cs.length using Nat.strong_induction_on generalizing cs with
  | _ n ih =>
      cases cs with
      | nil => exact nil
      | cons c cs =>
          have hle := step_rest_length_le c cs
          rw [List.length_cons] at hn
          exact cons c cs (ih (step c cs).rest.length (by omega) _ rfl)

/-- Every token of a text has the form of its kind. -/
theorem lexed_of_tokens
    {cs : List Char}
    {pos : Position}
    {ts : List Token}
    (h : (tokens ⟨cs, pos⟩).1 = .ok ts) :
    ∀ t ∈ ts, Lexed t.kind := by
  induction cs using scanInduction generalizing pos ts with
  | nil =>
      rw [tokens_nil] at h
      obtain rfl := Except.ok.inj h
      simp [Lexed]
  | cons c cs ih =>
      rw [tokens_cons] at h
      cases hstep : step c cs with
      | skip gap rest =>
          rw [hstep] at h ih
          exact ih h
      | token kind lexeme gap rest =>
          rw [hstep] at h ih
          dsimp only at h
          cases hnext : (tokens ⟨rest, (pos.after lexeme).after gap⟩).1 with
          | error e => simp [hnext, Except.map] at h
          | ok us =>
              rw [hnext] at h
              obtain rfl := Except.ok.inj h
              intro t ht
              rcases List.mem_cons.1 ht with rfl | ht
              · exact lexed_of_step hstep
              · exact ih hnext t ht
      | fault before cause read rest =>
          rw [hstep] at h
          cases h

/-- The kinds of the tokens of a text, if it has tokens. -/
def kinds? (cs : List Char) : Option (List Token.Kind) :=
  (tokens ⟨cs, {}⟩).1.toOption.map (List.map Token.kind)

/-- The kinds of the tokens do not depend on the place where the text starts. -/
theorem kinds?_eq
    (cs : List Char)
    (pos : Position) :
    (tokens ⟨cs, pos⟩).1.toOption.map (List.map Token.kind) = kinds? cs := by
  unfold kinds?
  generalize ({} : Position) = start
  induction cs using scanInduction generalizing pos start with
  | nil => simp [tokens_nil, Except.toOption]
  | cons c cs ih =>
      rw [tokens_cons, tokens_cons]
      cases hstep : step c cs with
      | skip gap rest =>
          rw [hstep] at ih
          exact ih _ _
      | token kind lexeme gap rest =>
          rw [hstep] at ih
          have hnext := ih ((pos.after lexeme).after gap) ((start.after lexeme).after gap)
          dsimp only [Step.rest] at hnext ⊢
          cases hp : (tokens ⟨rest, (pos.after lexeme).after gap⟩).1 <;>
            cases hq : (tokens ⟨rest, (start.after lexeme).after gap⟩).1 <;>
            simp_all [Except.map, Except.toOption]
      | fault before cause read rest => rfl

@[simp] theorem kinds?_nil : kinds? [] = some [.eof] := by
  simp [kinds?, tokens_nil, Except.toOption]

theorem kinds?_of_skip
    {c : Char}
    {cs gap rest : List Char}
    (h : step c cs = .skip gap rest) :
    kinds? (c :: cs) = kinds? rest := by
  rw [kinds?, tokens_cons, h]
  exact kinds?_eq rest _

theorem kinds?_of_token
    {c : Char}
    {cs lexeme gap rest : List Char}
    {kind : Token.Kind}
    (h : step c cs = .token kind lexeme gap rest) :
    kinds? (c :: cs) = (kinds? rest).map (kind :: ·) := by
  rw [kinds?, tokens_cons, h, ← kinds?_eq rest ((({} : Position).after lexeme).after gap)]
  dsimp only
  cases (tokens ⟨rest, (({} : Position).after lexeme).after gap⟩).1 <;> rfl

end Runs

section Reading

/-- The text is read as tokens of these kinds wherever a delimiter follows. -/
def Reads (cs : List Char) (ks : List Token.Kind) : Prop :=
  ∀ rest, Delimits rest → kinds? (cs ++ rest) = (kinds? rest).map (ks ++ ·)

theorem Reads.kinds?_eq_some
    {cs : List Char}
    {ks : List Token.Kind}
    (h : Reads cs ks) :
    kinds? cs = some (ks ++ [.eof]) := by
  simpa using h [] trivial

theorem Reads.nil : Reads [] [] := by
  intro rest _
  simp

theorem Reads.blank
    {c : Char}
    {cs : List Char}
    {ks : List Token.Kind}
    (hc : isBlank c = true)
    (h : Reads cs ks) :
    Reads (c :: cs) ks := by
  intro rest hrest
  have hstep : step c (cs ++ rest) = .skip [c] (cs ++ rest) := by
    simp [step, hc]
  rw [List.cons_append, kinds?_of_skip hstep]
  exact h rest hrest

theorem isBlank_of_special
    {c : Char}
    {kind : Token.Kind}
    (h : Token.Kind.special? c = some kind) :
    isBlank c = false := by
  unfold Token.Kind.special? at h
  split at h <;> simp_all [isBlank]

theorem Reads.special
    {c : Char}
    {kind : Token.Kind}
    {cs : List Char}
    {ks : List Token.Kind}
    (hc : Token.Kind.special? c = some kind)
    (h : Reads cs ks) :
    Reads (c :: cs) (kind :: ks) := by
  intro rest hrest
  have hstep : step c (cs ++ rest) = .token kind [c] [] (cs ++ rest) := by
    simp [step, isBlank_of_special hc, hc]
  rw [List.cons_append, kinds?_of_token hstep, h rest hrest, Option.map_map]
  rfl

theorem Reads.append
    {xs ys : List Char}
    {ks ls : List Token.Kind}
    (hx : Reads xs ks)
    (hy : Reads ys ls)
    (hdelim : Delimits ys) :
    Reads (xs ++ ys) (ks ++ ls) := by
  intro rest hrest
  rw [List.append_assoc, hx (ys ++ rest) (hdelim.append hrest), hy rest hrest, Option.map_map]
  congr 1
  funext ts
  simp

theorem Reads.of_step
    {c : Char}
    {cs : List Char}
    {kind : Token.Kind}
    (h : ∀ rest, Delimits rest → step c (cs ++ rest) = .token kind (c :: cs) [] rest) :
    Reads (c :: cs) [kind] := by
  intro rest hrest
  rw [List.cons_append, kinds?_of_token (h rest hrest)]
  rfl

theorem not_blank_of_wordChar
    {c : Char}
    (h : isWordChar c = true) :
    isBlank c = false ∧ Token.Kind.special? c = none := by
  unfold isWordChar isBreak at h
  cases hblank : isBlank c with
  | true =>
      rw [hblank] at h
      obtain rfl : c = '/' := by simpa using h
      exact absurd hblank (by decide)
  | false =>
      refine ⟨rfl, ?_⟩
      cases hspecial : Token.Kind.special? c with
      | none => rfl
      | some kind =>
          rw [hblank, hspecial] at h
          obtain rfl : c = '/' := by simpa using h
          simp [Token.Kind.special?] at hspecial

/-- A word is read as a string token. -/
theorem reads_word
    {w : List Char}
    (hw : IsWord w) :
    Reads w [.str (String.ofList w)] := by
  cases w with
  | nil => exact absurd rfl hw.ne_nil
  | cons c cs =>
      apply Reads.of_step
      intro rest hrest
      obtain ⟨hblank, hspecial⟩ := not_blank_of_wordChar (hw.chars c (by simp))
      have hword := word_append_of_delimits hw.chars hw.comment hrest
      rw [List.cons_append] at hword
      simp [step, hblank, hspecial, hw.head c rfl, hword]

/-- A run of characters with `p` is cut off before the first one without. -/
theorem takeWhile_dropWhile_append
    {p : Char → Bool}
    {run rest : List Char}
    (hrun : ∀ c ∈ run, p c = true)
    (hrest : ∀ c, rest.head? = some c → p c = false) :
    (run ++ rest).takeWhile p = run ∧ (run ++ rest).dropWhile p = rest := by
  induction run with
  | nil =>
      cases rest with
      | nil => simp
      | cons c cs => simp [hrest c rfl]
  | cons d run ih =>
      have htail := ih fun c hc => hrun c (List.mem_cons_of_mem _ hc)
      have hd : p d = true := hrun d (by simp)
      simp [hd, htail]

/-- A text before which a number ends: it is empty, or it starts with a blank, a special
character or a slash. -/
def EndsNumber (rest : List Char) : Prop :=
  ∀ c, rest.head? = some c → isBreak c = true

theorem EndsNumber.of_delimits
    {rest : List Char}
    (h : Delimits rest) :
    EndsNumber rest := by
  intro c hc
  cases rest with
  | nil => cases hc
  | cons d ds =>
      obtain rfl : d = c := by simpa using hc
      simp only [Delimits, isWordChar, Bool.or_eq_false_iff, Bool.not_eq_false'] at h
      exact h.1

theorem not_numeral_of_isBreak
    {c : Char}
    (h : isBreak c = true) :
    c.isDigit = false ∧ c ≠ '.' := by
  by_cases hslash : c = '/'
  · subst hslash
    decide
  · have hmem := (isWordChar_eq_false_iff c).1 (by simp [isWordChar, h, hslash])
    have hall : delimiters.all (fun d => !d.isDigit && d != '.') = true := by decide
    simpa using List.all_eq_true.1 hall c hmem

theorem EndsNumber.not_digit
    {rest : List Char}
    (h : EndsNumber rest) :
    ∀ c, rest.head? = some c → c.isDigit = false :=
  fun c hc => (not_numeral_of_isBreak (h c hc)).1

theorem step_of_digit
    {c : Char}
    (cs : List Char)
    (hc : c.isDigit = true) :
    step c cs = number (c :: cs) := by
  obtain ⟨hblank, hspecial⟩ := not_blank_of_wordChar (isWordChar_of_isDigit hc)
  simp [step, hblank, hspecial, hc]

theorem number_whole
    {ds rest : List Char}
    (hds : ∀ c ∈ ds, c.isDigit = true)
    (hle : (digitsValue ds : Int) ≤ maxWord)
    (hrest : EndsNumber rest) :
    number (ds ++ rest) = .token (.int (digitsValue ds)) ds [] rest := by
  obtain ⟨htake, hdrop⟩ := takeWhile_dropWhile_append hds hrest.not_digit
  rw [number]
  dsimp only
  rw [htake, hdrop]
  cases rest with
  | nil => simp [wholeNumber, hle]
  | cons d more =>
      have hbreak := hrest d rfl
      have hpoint := (not_numeral_of_isBreak hbreak).2
      simp [hpoint, hbreak, wholeNumber, hle]

theorem number_decimal
    {whole part rest : List Char}
    (hwhole : ∀ c ∈ whole, c.isDigit = true)
    (hpart : ∀ c ∈ part, c.isDigit = true)
    (hrest : EndsNumber rest) :
    number (whole ++ '.' :: part ++ rest) =
      .token (.float (Binary64.ofDigits whole part)) (whole ++ '.' :: part) [] rest := by
  have hpoint : ∀ d, ('.' :: (part ++ rest)).head? = some d → d.isDigit = false := by
    intro d hd
    obtain rfl : '.' = d := by simpa using hd
    rfl
  obtain ⟨htake, hdrop⟩ := takeWhile_dropWhile_append hwhole hpoint
  obtain ⟨htake', hdrop'⟩ := takeWhile_dropWhile_append hpart hrest.not_digit
  rw [List.append_assoc, List.cons_append, number]
  dsimp only
  rw [htake, hdrop]
  dsimp only
  rw [if_pos rfl, htake', hdrop']
  cases rest with
  | nil => rfl
  | cons d more => simp [hrest d rfl]

/-- A run of digits is read as a whole number. -/
theorem reads_whole
    {ds : List Char}
    (hne : ds ≠ [])
    (hds : ∀ c ∈ ds, c.isDigit = true)
    (hle : (digitsValue ds : Int) ≤ maxWord) :
    Reads ds [.int (digitsValue ds)] := by
  cases ds with
  | nil => exact absurd rfl hne
  | cons c cs =>
      apply Reads.of_step
      intro rest hrest
      rw [step_of_digit _ (hds c (by simp)), ← List.cons_append]
      exact number_whole hds hle (EndsNumber.of_delimits hrest)

/-- Digits with a point are read as a number with a point. -/
theorem reads_decimal
    {whole part : List Char}
    (hne : whole ≠ [])
    (hwhole : ∀ c ∈ whole, c.isDigit = true)
    (hpart : ∀ c ∈ part, c.isDigit = true) :
    Reads (whole ++ '.' :: part) [.float (Binary64.ofDigits whole part)] := by
  cases whole with
  | nil => exact absurd rfl hne
  | cons c cs =>
      rw [List.cons_append]
      apply Reads.of_step
      intro rest hrest
      rw [step_of_digit _ (hwhole c (by simp)), ← List.cons_append, ← List.cons_append]
      exact number_decimal hwhole hpart (EndsNumber.of_delimits hrest)

end Reading

end Scan
end SpeechMarkup
