import SpeechMarkup.Token

/-!
# Reading tokens

The scanner works on the list of code points that are left.  `Scan.step` looks
at the head of a non-empty text and finds one of three things there:

* a gap: one blank, or a comment;
* a token, possibly with a comment that touches its end;
* a fault.

Each time it names the code points that are read and those that are left, and it
reads at least one (`Scan.step_rest_length_le`).  `Scan.tokens` repeats the step
up to the end of the text or the first fault, and gives back the cursor it
reached, so that reading can go on behind a fault.
-/

namespace SpeechMarkup

/-- Why a text has no tokens. -/
inductive LexFault
  /-- A block comment runs to the end of the text. -/
  | unclosedComment
  /-- A number has two points. -/
  | secondPoint (literal : String)
  /-- A character that no number has stands in a number, which had a point or not. -/
  | strayCharacter (pointed : Bool) (literal : String) (char : Char)
  /-- A whole number does not fit a signed word. -/
  | outOfRange (literal : String)
deriving Repr, DecidableEq

def LexFault.message : LexFault → String
  | unclosedComment => "block comment is never closed"
  | secondPoint literal =>
      "invalid FLOAT '" ++ literal ++ "' - can only have a single '.'"
  | strayCharacter pointed literal char =>
      "invalid " ++ (if pointed then "FLOAT" else "INT") ++ " '" ++ literal ++ "' - '"
        ++ String.singleton char ++ "' is not a legal number character"
  | outOfRange literal => "INT '" ++ literal ++ "' is out of range"

namespace Scan

def isBlank (c : Char) : Bool :=
  c = ' ' || c = '\t' || c = '\r' || c = '\n'

/-- The characters that end a number, and a string unless it goes on behind a slash. -/
def isBreak (c : Char) : Bool :=
  isBlank c || c = '/' || (Token.Kind.special? c).isSome

/-- The end of a block comment with its closing mark, and what follows. -/
def blockEnd : List Char → Option (List Char × List Char)
  | [] => none
  | '*' :: '/' :: rest => some (['*', '/'], rest)
  | c :: rest => (blockEnd rest).map fun (body, rest) => (c :: body, rest)

/-- A word, the comment that touches its end, and what follows both. -/
structure Word where
  text : List Char
  gap : List Char
  rest : List Char
deriving Repr, DecidableEq

/-- A word with one more code point in front, or a longer text before a comment
that is never closed. -/
def Word.cons (c : Char) : Except (List Char) Word → Except (List Char) Word
  | .ok w => .ok { w with text := c :: w.text }
  | .error before => .error (c :: before)

/--
The word at the head of a text.  A slash belongs to the word unless it opens a
comment; a comment ends the word and is read with it.  If that comment is never
closed, the result is the text before it.
-/
def word : List Char → Except (List Char) Word
  | [] => .ok ⟨[], [], []⟩
  | '/' :: '/' :: more =>
      .ok ⟨[], '/' :: '/' :: more.takeWhile (· ≠ '\n'), more.dropWhile (· ≠ '\n')⟩
  | '/' :: '*' :: more =>
      match blockEnd more with
      | some (body, rest) => .ok ⟨[], '/' :: '*' :: body, rest⟩
      | none => .error []
  | c :: cs =>
      if isBreak c && c ≠ '/' then .ok ⟨[], [], c :: cs⟩
      else Word.cons c (word cs)

/-- What stands at the head of a text. -/
inductive Step
  /-- A blank or a comment. -/
  | skip (gap rest : List Char)
  /-- A token with its text and the comment that touches its end. -/
  | token (kind : Token.Kind) (lexeme gap rest : List Char)
  /-- A fault, reported behind `before`, after which `rest` is left of the text. -/
  | fault (before : List Char) (cause : LexFault) (read rest : List Char)
deriving Repr, DecidableEq

def Step.rest : Step → List Char
  | skip _ rest => rest
  | token _ _ _ rest => rest
  | fault _ _ _ rest => rest

/-- The fault of a number `literal` that is followed by `c :: cs`, where `c` is no
break character.  The number is reported together with the word it runs into. -/
def malformed (pointed : Bool) (literal : List Char) (c : Char) (cs : List Char) : Step :=
  match word (c :: cs) with
  | .error before => .fault (literal ++ before) .unclosedComment (literal ++ c :: cs) []
  | .ok w =>
      let text := String.ofList (literal ++ w.text)
      let cause :=
        if pointed && c = '.' then LexFault.secondPoint text
        else LexFault.strayCharacter pointed text c
      .fault [] cause (literal ++ w.text ++ w.gap) w.rest

/-- A number without a point, or its fault. -/
def wholeNumber (literal rest : List Char) : Step :=
  if (digitsValue literal : Int) ≤ maxWord then
    .token (.int (digitsValue literal)) literal [] rest
  else
    .fault [] (.outOfRange (String.ofList literal)) literal rest

/-- The number at the head of a text that starts with a digit. -/
def number (cs : List Char) : Step :=
  let whole := cs.takeWhile Char.isDigit
  match cs.dropWhile Char.isDigit with
  | [] => wholeNumber whole []
  | c :: rest =>
    if c = '.' then
      let part := rest.takeWhile Char.isDigit
      let literal := whole ++ '.' :: part
      let value := Binary64.ofDigits whole part
      match rest.dropWhile Char.isDigit with
      | [] => .token (.float value) literal [] []
      | d :: rest =>
        if isBreak d then .token (.float value) literal [] (d :: rest)
        else malformed true literal d rest
    else if isBreak c then wholeNumber whole (c :: rest)
    else malformed false whole c rest

/-- What stands at the head of the text `c :: cs`. -/
def step (c : Char) (cs : List Char) : Step :=
  if isBlank c then .skip [c] cs
  else
    match Token.Kind.special? c with
    | some kind => .token kind [c] [] cs
    | none =>
      if c.isDigit then number (c :: cs)
      else
        match word (c :: cs) with
        | .error before => .fault before .unclosedComment (c :: cs) []
        | .ok w =>
          if w.text.isEmpty then .skip w.gap w.rest
          else .token (.str (String.ofList w.text)) w.text w.gap w.rest

section Progress

/-- A closed block comment and what follows it make up the text. -/
theorem blockEnd_append
    {cs body rest : List Char}
    (h : blockEnd cs = some (body, rest)) :
    body ++ rest = cs := by
  fun_induction blockEnd cs generalizing body rest with
  | case1 => simp at h
  | case2 r =>
      simp only [Option.some.injEq, Prod.mk.injEq] at h
      obtain ⟨rfl, rfl⟩ := h
      rfl
  | case3 c r _ ih =>
      obtain ⟨⟨b, t⟩, hbt, heq⟩ := Option.map_eq_some_iff.1 h
      simp only [Prod.mk.injEq] at heq
      obtain ⟨rfl, rfl⟩ := heq
      simp [ih hbt]

theorem Word.cons_eq_ok
    {c : Char}
    {r : Except (List Char) Word}
    {w : Word}
    (h : Word.cons c r = .ok w) :
    ∃ v, r = .ok v ∧ w = { v with text := c :: v.text } := by
  cases r with
  | ok v => exact ⟨v, rfl, (Except.ok.inj h).symm⟩
  | error before => cases h

/-- Nothing of a text is lost when a word is read. -/
theorem word_append
    {cs : List Char}
    {w : Word}
    (h : word cs = .ok w) :
    w.text ++ w.gap ++ w.rest = cs := by
  fun_induction word cs generalizing w with
  | case1 => cases h; rfl
  | case2 more => cases h; simp
  | case3 more body rest hb =>
      cases h
      simp [blockEnd_append hb]
  | case4 => cases h
  | case5 => cases h; rfl
  | case6 c cs _ _ _ ih =>
      obtain ⟨v, hv, rfl⟩ := Word.cons_eq_ok h
      simpa using ih hv

/-- A word takes at least the first code point, unless that is a break other
than a slash. -/
theorem word_rest_length_le
    {c : Char}
    {cs : List Char}
    {w : Word}
    (hc : (isBreak c && c ≠ '/') = false)
    (h : word (c :: cs) = .ok w) :
    w.rest.length ≤ cs.length := by
  have hread : 0 < w.text.length + w.gap.length := by
    unfold word at h
    split at h
    · simp_all
    · cases h; simp
    · split at h
      · cases h; simp
      · cases h
    · rename_i heq
      obtain ⟨rfl, rfl⟩ := List.cons.inj heq
      rw [hc, if_neg (by simp)] at h
      obtain ⟨v, hv, rfl⟩ := Word.cons_eq_ok h
      simp only [List.length_cons]
      omega
  have hsplit := congrArg List.length (word_append h)
  simp only [List.length_append, List.length_cons] at hsplit
  omega

theorem malformed_rest_length_le
    (pointed : Bool)
    (literal : List Char)
    (c : Char)
    (cs : List Char) :
    (malformed pointed literal c cs).rest.length ≤ (c :: cs).length := by
  unfold malformed
  split
  · simp [Step.rest]
  · rename_i w hw
    have hsplit := congrArg List.length (word_append hw)
    simp only [List.length_append] at hsplit
    simp only [Step.rest]
    omega

theorem wholeNumber_rest (literal rest : List Char) :
    (wholeNumber literal rest).rest = rest := by
  unfold wholeNumber
  split <;> rfl

theorem number_rest_length_le (cs : List Char) :
    (number cs).rest.length ≤ (cs.dropWhile Char.isDigit).length := by
  unfold number
  split
  · simp [wholeNumber_rest]
  · rename_i c rest heq
    rw [heq]
    have hpart := (List.dropWhile_sublist (l := rest) Char.isDigit).length_le
    dsimp only
    split
    · split
      · simp [Step.rest]
      · rename_i d tail htail
        rw [htail] at hpart
        split
        · simp only [Step.rest, List.length_cons] at hpart ⊢
          omega
        · refine Nat.le_trans (malformed_rest_length_le _ _ _ _) ?_
          simp only [List.length_cons] at hpart ⊢
          omega
    · split
      · simp [wholeNumber_rest]
      · exact malformed_rest_length_le _ _ _ _

/-- Each step reads at least one code point. -/
theorem step_rest_length_le (c : Char) (cs : List Char) :
    (step c cs).rest.length ≤ cs.length := by
  unfold step
  split
  · simp [Step.rest]
  · rename_i hblank
    split
    · simp [Step.rest]
    · rename_i hspecial
      split
      · rename_i hdigit
        refine Nat.le_trans (number_rest_length_le _) ?_
        rw [List.dropWhile_cons_of_pos hdigit]
        exact (List.dropWhile_sublist _).length_le
      · split
        · simp [Step.rest]
        · rename_i w hw
          have hc : (isBreak c && c ≠ '/') = false := by
            simp [isBreak, hblank, hspecial]
          have hle := word_rest_length_le hc hw
          split <;> simpa [Step.rest] using hle

end Progress

/--
The tokens from the cursor to the end of the text, closed by an `eof` token, or
the first fault; and the cursor reached.
-/
def tokens (c : Cursor) : Except (Located LexFault) (List Token) × Cursor :=
  match _hrest : c.rest with
  | [] => (.ok [⟨.eof, c.pos⟩], c)
  | ch :: cs =>
    match _hstep : step ch cs with
    | .skip gap rest => tokens ⟨rest, c.pos.after gap⟩
    | .token kind lexeme gap rest =>
        let (result, stop) := tokens ⟨rest, (c.pos.after lexeme).after gap⟩
        (result.map (⟨kind, c.pos⟩ :: ·), stop)
    | .fault before cause read rest =>
        (.error ⟨c.pos.after before, cause⟩, ⟨rest, c.pos.after read⟩)
termination_by c.rest.length
decreasing_by
  all_goals
    have hle := step_rest_length_le ch cs
    rw [_hstep] at hle
    simp only [Step.rest] at hle
    simp only [_hrest, List.length_cons]
    omega

end Scan

/-- The tokens of a whole text whose places name `file`. -/
def Token.ofText (text : String) (file : String) :
    Except (Located LexFault) (List Token) :=
  (Scan.tokens (Cursor.ofText text file)).1

end SpeechMarkup
