import SpeechMarkup.Proofs.Lexemes

/-!
# The layout of a text

A text is a sequence of pieces: the lexemes of its tokens, and the blanks and comments
that make up the gaps before, between and behind them.

* `Piece.Fits` says what a piece is, and what may stand behind it.
* `Layout.Valid` and `Layout.text`: pieces that fit one another, and the text they make.
* `Layout.tokens` are the tokens of a layout, at the places of their lexemes.
* `Layout.eq_of_text_eq`: a text has one layout at most.
-/

namespace SpeechMarkup

open Scan

section Characters

def blanks : List Char :=
  [' ', '\t', '\r', '\n']

def specials : List (Char × Token.Kind) :=
  [(',', .comma), ('{', .leftBrace), ('}', .rightBrace), ('[', .leftBracket),
    (']', .rightBracket), ('<', .leftChevron), ('>', .rightChevron)]

/-- The next code point, if there is one, is among `cs`. -/
def NextIn (cs rest : List Char) : Prop :=
  ∀ c ∈ rest.head?, c ∈ cs

theorem isBlank_iff (c : Char) :
    isBlank c = true ↔ c ∈ blanks := by
  simp [isBlank, blanks, or_assoc]

theorem special?_eq_lookup (c : Char) :
    Token.Kind.special? c = specials.lookup c := by
  unfold Token.Kind.special?
  split <;> try rfl
  rw [eq_comm, List.lookup_eq_none_iff]
  simp_all [specials]

theorem isWordChar_iff (c : Char) :
    isWordChar c = true ↔ c ∉ delimiters := by
  rw [← isWordChar_eq_false_iff, Bool.not_eq_false]

theorem delimits_iff (rest : List Char) :
    Delimits rest ↔ NextIn delimiters rest := by
  cases rest with
  | nil => simp [Delimits, NextIn]
  | cons c rest => simp [Delimits, NextIn, isWordChar_eq_false_iff]

theorem endsNumber_iff (rest : List Char) :
    EndsNumber rest ↔ NextIn ('/' :: delimiters) rest := by
  have hbreak : ∀ c, isBreak c = true ↔ c ∈ '/' :: delimiters := by
    intro c
    rw [List.mem_cons, ← isWordChar_eq_false_iff, isWordChar]
    by_cases hslash : c = '/'
    · subst hslash
      decide
    · simp [hslash]
  exact forall_congr' fun c => imp_congr_right fun _ => hbreak c

end Characters

section Pieces

def OpensComment (cs : List Char) : Prop :=
  ['/', '/'] <+: cs ∨ ['/', '*'] <+: cs

theorem OpensComment.eq_cons
    {cs : List Char}
    (h : OpensComment cs) :
    ∃ more, cs = '/' :: more := by
  rcases h with ⟨more, rfl⟩ | ⟨more, rfl⟩
  · exact ⟨_, rfl⟩
  · exact ⟨_, rfl⟩

/-- A string that can stand before `rest`.  Its slashes open no comment, also not
together with `rest`, and it is as long as it can be. -/
structure IsString (text rest : List Char) : Prop where
  ne_nil : text ≠ []
  chars : ∀ c ∈ text, c ∉ delimiters
  head : ∀ c ∈ text.head?, c.isDigit = false
  -- `a///b` is `a` and a comment, and not `a/` and a comment
  slashes : ∀ u v, text = u ++ '/' :: v →
    (v ++ rest).head? ≠ some '/' ∧ (v ++ rest).head? ≠ some '*'
  maximal : NextIn delimiters rest ∨ OpensComment rest

theorem IsString.wordChars
    {text rest : List Char}
    (h : IsString text rest) :
    ∀ c ∈ text, isWordChar c = true :=
  fun c hc => (isWordChar_iff c).2 (h.chars c hc)

theorem IsString.boundary
    {text rest : List Char}
    (h : IsString text rest) :
    Delimits rest ∨ OpensComment rest :=
  h.maximal.imp_left (delimits_iff rest).2

/-- A part of a text: a gap, or the lexeme of a token. -/
inductive Piece
  | blank (c : Char)
  /-- A comment up to the end of its line, without its opening slashes. -/
  | line (body : List Char)
  /-- A comment between its opening and closing marks. -/
  | block (body : List Char)
  | special (mark : Char)
  | whole (digits : List Char)
  | decimal (front back : List Char)
  | string (text : List Char)

namespace Piece

def text : Piece → List Char
  | blank c => [c]
  | line body => '/' :: '/' :: body
  | block body => '/' :: '*' :: (body ++ ['*', '/'])
  | special mark => [mark]
  | whole digits => digits
  | decimal front back => front ++ '.' :: back
  | string text => text

/-- What the token of a lexeme is; gaps have no token. -/
def kind? : Piece → Option Token.Kind
  | blank _ => none
  | line _ => none
  | block _ => none
  | special mark => specials.lookup mark
  | whole digits => some (.int (digitsValue digits))
  | decimal front back => some (.float (Binary64.ofDigits front back))
  | string text => some (.str (String.ofList text))

/-- Whether a piece is well formed and can stand before `rest`. -/
def Fits : Piece → List Char → Prop
  | blank c, _ => c ∈ blanks
  | line body, rest => '\n' ∉ body ∧ NextIn ['\n'] rest
  | block body, _ => ¬ ['*', '/'] <:+: body
  | special mark, _ => (specials.lookup mark).isSome = true
  | whole digits, rest =>
      digits ≠ [] ∧ (∀ c ∈ digits, c.isDigit = true) ∧ digitsValue digits < 2 ^ 63 ∧
        NextIn ('/' :: delimiters) rest
  | decimal front back, rest =>
      front ≠ [] ∧ (∀ c ∈ front, c.isDigit = true) ∧ (∀ c ∈ back, c.isDigit = true) ∧
        NextIn ('/' :: delimiters) rest
  | string text, rest => IsString text rest

end Piece

end Pieces

namespace Layout

section Layouts

/-- The text that pieces make up. -/
def text (ps : List Piece) : List Char :=
  ps.flatMap Piece.text

/-- Each piece fits what stands behind it. -/
def Valid : List Piece → Prop
  | [] => True
  | p :: ps => p.Fits (text ps) ∧ Valid ps

/-- The place behind the text `before`: the code points in it, the line feeds among
them, and the code points behind the last line feed. -/
def place (file : String) (before : List Char) : Position where
  file := file
  index := before.length
  line := before.count '\n'
  column := (before.reverse.takeWhile (· ≠ '\n')).length

/-- The tokens of pieces that stand behind the text `before`, closed by an `eof`. -/
def tokens (file : String) (before : List Char) : List Piece → List Token
  | [] => [⟨.eof, place file before⟩]
  | p :: ps =>
      (p.kind?.map fun kind => ⟨kind, place file before⟩).toList ++
        tokens file (before ++ p.text) ps

end Layouts

section Runs

theorem blockEnd_append_close
    {body : List Char}
    (h : ¬ ['*', '/'] <:+: body)
    (rest : List Char) :
    blockEnd (body ++ '*' :: '/' :: rest) = some (body ++ ['*', '/'], rest) := by
  induction body with
  | nil => rfl
  | cons c body ih =>
      rw [List.infix_cons_iff, not_or] at h
      have hopen : ∀ more, c = '*' → body ++ '*' :: '/' :: rest = '/' :: more → False := by
        intro more hc hmore
        subst hc
        cases body with
        | nil => simp at hmore
        | cons d body =>
            obtain rfl : d = '/' := (List.cons.inj hmore).1
            exact h.1 (by simp)
      rw [List.cons_append, blockEnd.eq_3 c _ hopen, ih h.2]
      rfl

/-- A run of characters of strings is read in front of what follows. -/
theorem word_append_foldr
    {w rest : List Char}
    (hchars : ∀ c ∈ w, isWordChar c = true)
    (hslashes : ∀ u v, w = u ++ '/' :: v →
      (v ++ rest).head? ≠ some '/' ∧ (v ++ rest).head? ≠ some '*') :
    word (w ++ rest) = w.foldr Word.cons (word rest) := by
  induction w with
  | nil => rfl
  | cons c w ih =>
      have hhead : c = '/' → (w ++ rest).head? ≠ some '/' ∧ (w ++ rest).head? ≠ some '*' := by
        rintro rfl
        exact hslashes [] w rfl
      have htail := ih (fun d hd => hchars d (List.mem_cons_of_mem _ hd)) (by
        rintro u v rfl
        exact hslashes (c :: u) v rfl)
      rw [List.cons_append, word_cons (hchars c (by simp)) hhead, htail, List.foldr_cons]

theorem foldr_cons_ok
    (w : List Char)
    (v : Word) :
    w.foldr Word.cons (.ok v) = .ok { v with text := w ++ v.text } := by
  induction w with
  | nil => rfl
  | cons c w ih => rw [List.foldr_cons, ih]; rfl

theorem foldr_cons_error
    (w before : List Char) :
    w.foldr Word.cons (.error before) = .error (w ++ before) := by
  induction w with
  | nil => rfl
  | cons c w ih => rw [List.foldr_cons, ih]; rfl

/-- Where a string ends, no more of a string follows. -/
theorem word_of_boundary
    {rest : List Char}
    (h : Delimits rest ∨ OpensComment rest) :
    (∃ gap more, word rest = .ok ⟨[], gap, more⟩) ∨ word rest = .error [] := by
  rcases h with h | ⟨more, rfl⟩ | ⟨more, rfl⟩
  · exact Or.inl ⟨[], rest, word_of_delimits h⟩
  · exact Or.inl ⟨_, _, rfl⟩
  · rw [List.cons_append, List.singleton_append, word]
    cases blockEnd more with
    | none => exact Or.inr rfl
    | some found => exact Or.inl ⟨_, _, rfl⟩

theorem word_of_isString
    {w rest : List Char}
    (h : IsString w rest) :
    (∃ gap more, word (w ++ rest) = .ok ⟨w, gap, more⟩) ∨ word (w ++ rest) = .error w := by
  rw [word_append_foldr h.wordChars h.slashes]
  rcases word_of_boundary h.boundary with ⟨gap, more, hrest⟩ | hrest
  · exact Or.inl ⟨gap, more, by rw [hrest, foldr_cons_ok, List.append_nil]⟩
  · exact Or.inr (by rw [hrest, foldr_cons_error, List.append_nil])

end Runs

section Unambiguity

/-- The forms of pieces that the first code points of a text tell apart. -/
inductive Form
  | blank
  | line
  | block
  | special
  | number
  | string

def Form.of : Piece → Form
  | .blank _ => .blank
  | .line _ => .line
  | .block _ => .block
  | .special _ => .special
  | .whole _ => .number
  | .decimal _ _ => .number
  | .string _ => .string

def Form.ofText : List Char → Form
  | '/' :: '/' :: _ => .line
  | '/' :: '*' :: _ => .block
  | c :: _ =>
      if isBlank c then .blank
      else if (Token.Kind.special? c).isSome then .special
      else if c.isDigit then .number
      else .string
  | [] => .string

theorem Form.ofText_cons
    {c : Char}
    {cs : List Char}
    (h : c = '/' → cs.head? ≠ some '/' ∧ cs.head? ≠ some '*') :
    Form.ofText (c :: cs) =
      if isBlank c then .blank
      else if (Token.Kind.special? c).isSome then .special
      else if c.isDigit then .number
      else .string := by
  unfold Form.ofText
  split <;> simp_all

theorem Form.ofText_of_digit
    {c : Char}
    (cs : List Char)
    (h : c.isDigit = true) :
    Form.ofText (c :: cs) = .number := by
  obtain ⟨hblank, hspecial⟩ := not_blank_of_wordChar (isWordChar_of_isDigit h)
  rw [Form.ofText_cons (by rintro rfl; cases h)]
  simp [hblank, hspecial, h]

theorem Form.ofText_of_fits
    {p : Piece}
    {rest : List Char}
    (h : p.Fits rest) :
    Form.ofText (p.text ++ rest) = Form.of p := by
  cases p with
  | blank c =>
      have hblank := (isBlank_iff c).2 h
      rw [Piece.text, List.singleton_append, Form.ofText_cons (by rintro rfl; cases hblank)]
      simp [hblank, Form.of]
  | line body => rfl
  | block body => rfl
  | special mark =>
      obtain ⟨kind, hspecial⟩ := Option.isSome_iff_exists.1 h
      rw [← special?_eq_lookup] at hspecial
      rw [Piece.text, List.singleton_append, Form.ofText_cons (by rintro rfl; cases hspecial)]
      simp [isBlank_of_special hspecial, hspecial, Form.of]
  | whole digits =>
      obtain ⟨c, cs, rfl⟩ := List.exists_cons_of_ne_nil h.1
      exact Form.ofText_of_digit (cs ++ rest) (h.2.1 c (by simp))
  | decimal front back =>
      obtain ⟨c, cs, rfl⟩ := List.exists_cons_of_ne_nil h.1
      exact Form.ofText_of_digit (cs ++ '.' :: back ++ rest) (h.2.1 c (by simp))
  | string w =>
      have hstring : IsString w rest := h
      obtain ⟨c, cs, rfl⟩ := List.exists_cons_of_ne_nil hstring.ne_nil
      obtain ⟨hblank, hspecial⟩ := not_blank_of_wordChar (hstring.wordChars c (by simp))
      have hdigit := hstring.head c (by simp)
      have hslash : c = '/' → _ := fun hc => hstring.slashes [] cs (by rw [hc]; rfl)
      rw [Piece.text, List.cons_append, Form.ofText_cons hslash]
      simp [hblank, hspecial, hdigit, Form.of]

variable {r s : List Char}

theorem line_append_inj
    {body body' : List Char}
    (hp : (Piece.line body).Fits r)
    (hq : (Piece.line body').Fits s)
    (h : body ++ r = body' ++ s) :
    body = body' ∧ r = s :=
  append_inj_of_cut (· = '\n') (fun _ hc => ne_of_mem_of_not_mem hc hp.1)
    (fun _ hc => ne_of_mem_of_not_mem hc hq.1) (by simpa [NextIn] using hp.2)
    (by simpa [NextIn] using hq.2) h

theorem digits_append_inj
    {ds es : List Char}
    (hds : ∀ c ∈ ds, c.isDigit = true)
    (hes : ∀ c ∈ es, c.isDigit = true)
    (hr : ∀ c ∈ r.head?, c.isDigit = false)
    (hs : ∀ c ∈ s.head?, c.isDigit = false)
    (h : ds ++ r = es ++ s) :
    ds = es ∧ r = s :=
  append_inj_of_cut (·.isDigit = false) (by simpa using hds) (by simpa using hes) hr hs h

theorem not_digit_of_nextIn
    (h : NextIn ('/' :: delimiters) r) :
    ∀ c ∈ r.head?, c.isDigit = false :=
  ((endsNumber_iff r).2 h).not_digit

theorem whole_ne_decimal
    {digits front back : List Char}
    (hp : (Piece.whole digits).Fits r)
    (hq : (Piece.decimal front back).Fits s) :
    (Piece.whole digits).text ++ r ≠ (Piece.decimal front back).text ++ s := by
  intro h
  rw [Piece.text, Piece.text, List.append_assoc] at h
  obtain ⟨-, rfl⟩ := digits_append_inj hp.2.1 hq.2.1 (not_digit_of_nextIn hp.2.2.2)
    (by rintro c ⟨⟩; rfl) h
  exact absurd (hp.2.2.2 '.' rfl) (by decide)

theorem decimal_append_inj
    {front back front' back' : List Char}
    (hp : (Piece.decimal front back).Fits r)
    (hq : (Piece.decimal front' back').Fits s)
    (h : front ++ '.' :: back ++ r = front' ++ '.' :: back' ++ s) :
    front = front' ∧ back = back' ∧ r = s := by
  rw [List.append_assoc, List.append_assoc] at h
  obtain ⟨hfront, htail⟩ := digits_append_inj hp.2.1 hq.2.1 (by rintro c ⟨⟩; rfl)
    (by rintro c ⟨⟩; rfl) h
  obtain ⟨hback, hrest⟩ := digits_append_inj hp.2.2.1 hq.2.2.1 (not_digit_of_nextIn hp.2.2.2)
    (not_digit_of_nextIn hq.2.2.2) (List.cons.inj htail).2
  exact ⟨hfront, hback, hrest⟩

theorem block_append_inj
    {body body' : List Char}
    (hp : (Piece.block body).Fits r)
    (hq : (Piece.block body').Fits s)
    (h : body ++ '*' :: '/' :: r = body' ++ '*' :: '/' :: s) :
    body = body' ∧ r = s := by
  have hend := blockEnd_append_close hp r
  rw [h, blockEnd_append_close hq s] at hend
  simpa [eq_comm] using hend

theorem string_append_inj
    {w v : List Char}
    (hw : IsString w r)
    (hv : IsString v s)
    (h : w ++ r = v ++ s) :
    w = v ∧ r = s := by
  have hwv : w = v := by
    rcases word_of_isString hw with ⟨gap, more, hr⟩ | hr <;>
      rcases word_of_isString hv with ⟨gap', more', hs⟩ | hs <;>
      simp_all
  subst hwv
  exact ⟨rfl, List.append_cancel_left h⟩

/-- A text starts with one piece at most. -/
theorem piece_append_inj
    {p q : Piece}
    (hp : p.Fits r)
    (hq : q.Fits s)
    (h : p.text ++ r = q.text ++ s) :
    p = q ∧ r = s := by
  have hform : Form.of p = Form.of q := by
    rw [← Form.ofText_of_fits hp, h, Form.ofText_of_fits hq]
  cases p with
  | blank c =>
      cases q with
      | blank d =>
          obtain ⟨rfl, rfl⟩ := List.cons.inj h
          exact ⟨rfl, rfl⟩
      | _ => cases hform
  | line body =>
      cases q with
      | line body' =>
          obtain ⟨rfl, rfl⟩ := line_append_inj hp hq (List.cons.inj (List.cons.inj h).2).2
          exact ⟨rfl, rfl⟩
      | _ => cases hform
  | block body =>
      cases q with
      | block body' =>
          have htext : body ++ '*' :: '/' :: r = body' ++ '*' :: '/' :: s := by
            simpa [Piece.text] using h
          obtain ⟨rfl, rfl⟩ := block_append_inj hp hq htext
          exact ⟨rfl, rfl⟩
      | _ => cases hform
  | special mark =>
      cases q with
      | special mark' =>
          obtain ⟨rfl, rfl⟩ := List.cons.inj h
          exact ⟨rfl, rfl⟩
      | _ => cases hform
  | whole digits =>
      cases q with
      | whole digits' =>
          obtain ⟨rfl, rfl⟩ := digits_append_inj hp.2.1 hq.2.1 (not_digit_of_nextIn hp.2.2.2)
            (not_digit_of_nextIn hq.2.2.2) h
          exact ⟨rfl, rfl⟩
      | decimal front back => exact absurd h (whole_ne_decimal hp hq)
      | _ => cases hform
  | decimal front back =>
      cases q with
      | whole digits => exact absurd h.symm (whole_ne_decimal hq hp)
      | decimal front' back' =>
          obtain ⟨rfl, rfl, rfl⟩ := decimal_append_inj hp hq h
          exact ⟨rfl, rfl⟩
      | _ => cases hform
  | string w =>
      cases q with
      | string v =>
          obtain ⟨rfl, rfl⟩ := string_append_inj hp hq h
          exact ⟨rfl, rfl⟩
      | _ => cases hform

theorem text_ne_nil
    {p : Piece}
    (h : p.Fits r) :
    p.text ≠ [] := by
  cases p with
  | whole digits => exact h.1
  | decimal front back => simp [Piece.text]
  | string w => exact h.ne_nil
  | _ => simp [Piece.text]

/-- A text has one layout at most. -/
theorem eq_of_text_eq
    {ps qs : List Piece}
    (hps : Valid ps)
    (hqs : Valid qs)
    (h : text ps = text qs) :
    ps = qs := by
  induction ps generalizing qs with
  | nil =>
      cases qs with
      | nil => rfl
      | cons q qs =>
          have hnil := List.append_eq_nil_iff.1 h.symm
          exact absurd hnil.1 (text_ne_nil hqs.1)
  | cons p ps ih =>
      cases qs with
      | nil =>
          have hnil := List.append_eq_nil_iff.1 h
          exact absurd hnil.1 (text_ne_nil hps.1)
      | cons q qs =>
          obtain ⟨rfl, htail⟩ := piece_append_inj hps.1 hqs.1 h
          rw [ih hps.2 hqs.2 htail]

end Unambiguity

end Layout

end SpeechMarkup
