import SpeechMarkup.Proofs.Concatenation

/-!
# Spacing

What stands between the lexemes of a text does not matter, as long as it keeps them apart.
A gap does so if it starts with a blank: then no slash at the end of a string can become a
part of a comment.

* `Layout.Gap` and `Layout.LastGap` say what can stand between lexemes and behind the last.
* `Layout.Respaced` relates lexemes to the texts that hold them, in their order and apart.
* `Piece.Fits.of_nextIn`: a lexeme can stand before every delimiter.
* `Token.ofText_of_respaced` is the main result.
-/

namespace SpeechMarkup

open Scan

section Lexemes

/-- Whether a piece is the lexeme of a token. -/
def Piece.isLexeme (p : Piece) : Bool :=
  p.kind?.isSome

def Piece.isSpecial : Piece → Bool
  | special _ => true
  | _ => false

/-- The lexemes of a layout. -/
def Layout.lexemes (ps : List Piece) : List Piece :=
  ps.filter Piece.isLexeme

variable {p : Piece} {text rest rest' : List Char}

theorem NextIn.endsNumber
    (h : NextIn delimiters rest) :
    NextIn ('/' :: delimiters) rest :=
  fun c hc => List.mem_cons_of_mem _ (h c hc)

theorem IsString.of_nextIn
    (h : IsString text rest)
    (hrest : NextIn delimiters rest') :
    IsString text rest' where
  ne_nil := h.ne_nil
  chars := h.chars
  head := h.head
  slashes := by
    intro u v htext
    cases v with
    | nil =>
        -- the slash is the last character, and what follows is a delimiter
        constructor
        · intro hhead
          exact absurd (hrest '/' hhead) (by decide)
        · intro hhead
          exact absurd (hrest '*' hhead) (by decide)
    | cons c v => exact h.slashes u (c :: v) htext
  maximal := Or.inl hrest

/-- A lexeme can stand before every delimiter, wherever it was found. -/
theorem Piece.Fits.of_nextIn
    (h : p.Fits rest)
    (hp : p.isLexeme = true)
    (hrest : NextIn delimiters rest') :
    p.Fits rest' := by
  cases p with
  | blank c => cases hp
  | line body => cases hp
  | block body => cases hp
  | special mark => exact h
  | whole digits => exact ⟨h.1, h.2.1, h.2.2.1, hrest.endsNumber⟩
  | decimal front back => exact ⟨h.1, h.2.1, h.2.2.1, hrest.endsNumber⟩
  | string w => exact IsString.of_nextIn h hrest

/-- A special character can stand before everything. -/
theorem Piece.Fits.of_isSpecial
    (h : p.Fits rest)
    (hp : p.isSpecial = true)
    (rest' : List Char) :
    p.Fits rest' := by
  cases p with
  | special mark => exact h
  | _ => cases hp

/-- Everything can stand before a special character. -/
theorem Piece.Fits.nextIn_of_isSpecial
    (h : p.Fits rest)
    (hp : p.isSpecial = true)
    (rest' : List Char) :
    NextIn delimiters (p.text ++ rest') := by
  cases p with
  | special mark =>
      obtain ⟨kind, hkind⟩ := Option.isSome_iff_exists.1 h
      rintro c ⟨⟩
      exact mem_delimiters_of_special ((special?_eq_lookup mark).trans hkind)
  | _ => cases hp

end Lexemes

namespace Layout

section Gaps

/-- Blanks, comments up to the end of their line, and closed comments. -/
inductive Gap : List Char → Prop
  | nil : Gap []
  | blank
      {c : Char}
      {rest : List Char}
      (hc : c ∈ blanks)
      (h : Gap rest) :
      Gap (c :: rest)
  | line
      {body rest : List Char}
      (hbody : '\n' ∉ body)
      (h : Gap rest) :
      Gap ('/' :: '/' :: (body ++ '\n' :: rest))
  | block
      {body rest : List Char}
      (hbody : ¬ ['*', '/'] <:+: body)
      (h : Gap rest) :
      Gap ('/' :: '*' :: (body ++ '*' :: '/' :: rest))

/-- A gap at the end of a text, where the last comment may have no line feed. -/
inductive LastGap : List Char → Prop
  | closed
      {gap : List Char}
      (h : Gap gap) :
      LastGap gap
  | line
      {gap body : List Char}
      (h : Gap gap)
      (hbody : '\n' ∉ body) :
      LastGap (gap ++ '/' :: '/' :: body)

def StartsBlank (gap : List Char) : Prop :=
  ∃ c ∈ blanks, gap.head? = some c

/-- Lexemes with a gap behind each.  A gap starts with a blank; next to a special character
and at the end of the text it may be empty. -/
inductive Spaced : List Piece → List Char → Prop
  | last
      {p : Piece}
      {gap : List Char}
      (hgap : LastGap gap)
      (hstart : StartsBlank gap ∨ gap = []) :
      Spaced [p] (p.text ++ gap)
  | cons
      {p q : Piece}
      {ps : List Piece}
      {gap rest : List Char}
      (hgap : Gap gap)
      (hstart : StartsBlank gap ∨ gap = [] ∧ (p.isSpecial = true ∨ q.isSpecial = true))
      (h : Spaced (q :: ps) rest) :
      Spaced (p :: q :: ps) (p.text ++ (gap ++ rest))

/-- A text that holds the lexemes and gaps.  Any gap can stand before the first lexeme. -/
inductive Respaced : List Piece → List Char → Prop
  | empty
      {gap : List Char}
      (hgap : LastGap gap) :
      Respaced [] gap
  | lexemes
      {ps : List Piece}
      {gap rest : List Char}
      (hgap : Gap gap)
      (h : Spaced ps rest) :
      Respaced ps (gap ++ rest)

theorem StartsBlank.nextIn
    {gap : List Char}
    (h : StartsBlank gap)
    (rest : List Char) :
    NextIn delimiters (gap ++ rest) := by
  obtain ⟨c, hc, hhead⟩ := h
  obtain ⟨more, rfl⟩ := List.head?_eq_some_iff.1 hhead
  have hsub : blanks ⊆ delimiters := by decide
  rintro d ⟨⟩
  exact hsub hc

/-- A gap is made of pieces without tokens, and every layout can follow it. -/
theorem Gap.exists_pieces
    {gap : List Char}
    (h : Gap gap) :
    ∃ gs, text gs = gap ∧ gs.filterMap Piece.kind? = [] ∧
      ∀ ps, Valid ps → Valid (gs ++ ps) := by
  induction h with
  | nil => exact ⟨[], rfl, rfl, fun _ hps => hps⟩
  | @blank c _ hc _ ih =>
      obtain ⟨gs, rfl, hkinds, hvalid⟩ := ih
      exact ⟨.blank c :: gs, rfl, hkinds, fun ps hps => ⟨hc, hvalid ps hps⟩⟩
  | @line body _ hbody _ ih =>
      obtain ⟨gs, rfl, hkinds, hvalid⟩ := ih
      refine ⟨.line body :: .blank '\n' :: gs, by simp [text, Piece.text], hkinds, ?_⟩
      intro ps hps
      have hfits : (Piece.line body).Fits (text (.blank '\n' :: (gs ++ ps))) :=
        ⟨hbody, by simp [NextIn, text, Piece.text]⟩
      exact ⟨hfits, by simp [Piece.Fits, blanks], hvalid ps hps⟩
  | @block body _ hbody _ ih =>
      obtain ⟨gs, rfl, hkinds, hvalid⟩ := ih
      exact ⟨.block body :: gs, by simp [text, Piece.text], hkinds,
        fun ps hps => ⟨hbody, hvalid ps hps⟩⟩

theorem LastGap.exists_pieces
    {gap : List Char}
    (h : LastGap gap) :
    ∃ gs, text gs = gap ∧ gs.filterMap Piece.kind? = [] ∧ Valid gs := by
  cases h with
  | closed h =>
      obtain ⟨gs, htext, hkinds, hvalid⟩ := h.exists_pieces
      have hgs := hvalid [] trivial
      rw [List.append_nil] at hgs
      exact ⟨gs, htext, hkinds, hgs⟩
  | @line gap body h hbody =>
      obtain ⟨gs, rfl, hkinds, hvalid⟩ := h.exists_pieces
      refine ⟨gs ++ [.line body], by rw [text_append]; simp [text, Piece.text], ?_, ?_⟩
      · rw [List.filterMap_append, hkinds]
        rfl
      · exact hvalid _ ⟨⟨hbody, by simp [NextIn, text]⟩, trivial⟩

end Gaps

section Spacing

variable {ps : List Piece} {cs : List Char}

/-- Lexemes of a text, each of which can stand somewhere. -/
def Lexical (ps : List Piece) : Prop :=
  ∀ p ∈ ps, p.isLexeme = true ∧ ∃ rest, p.Fits rest

theorem Valid.lexical
    (h : Valid ps) :
    Lexical (lexemes ps) := by
  induction ps with
  | nil => simp [Lexical, lexemes]
  | cons p ps ih =>
      intro q hq
      obtain ⟨hmem, hlexeme⟩ := List.mem_filter.1 hq
      refine ⟨hlexeme, ?_⟩
      rcases List.mem_cons.1 hmem with rfl | hmem
      · exact ⟨text ps, h.1⟩
      · exact (ih h.2 q (List.mem_filter.2 ⟨hmem, hlexeme⟩)).2

/-- Lexemes that are spaced are the lexemes of a layout. -/
theorem Spaced.exists_layout
    (h : Spaced ps cs)
    (hps : Lexical ps) :
    ∃ qs, Valid qs ∧ text qs = cs ∧ qs.filterMap Piece.kind? = ps.filterMap Piece.kind? := by
  induction h with
  | @last p gap hgap hstart =>
      obtain ⟨gs, rfl, hkinds, hvalid⟩ := hgap.exists_pieces
      obtain ⟨hlexeme, rest, hfits⟩ := hps p (by simp)
      have hnext : NextIn delimiters (text gs) := by
        rcases hstart with hstart | hempty
        · have hblank := hstart.nextIn []
          rwa [List.append_nil] at hblank
        · rw [hempty]
          simp [NextIn]
      refine ⟨p :: gs, ⟨hfits.of_nextIn hlexeme hnext, hvalid⟩, rfl, ?_⟩
      rw [← List.singleton_append, List.filterMap_append, hkinds, List.append_nil]
  | @cons p q ps gap rest hgap hstart hrest ih =>
      obtain ⟨hp, hps⟩ := List.forall_mem_cons.1 hps
      obtain ⟨qs, hvalid, rfl, hkinds⟩ := ih hps
      obtain ⟨gs, rfl, hnone, hbefore⟩ := hgap.exists_pieces
      obtain ⟨hlexeme, more, hfits⟩ := hp
      -- the blank, or one of the two special characters, keeps `p` apart from what follows
      have hfits' : p.Fits (text gs ++ text qs) := by
        rcases hstart with hstart | ⟨hempty, hspecial | hspecial⟩
        · exact hfits.of_nextIn hlexeme (hstart.nextIn _)
        · exact hfits.of_isSpecial hspecial _
        · obtain ⟨-, rest, hnext⟩ := hps q (by simp)
          refine hfits.of_nextIn hlexeme ?_
          rw [hempty, List.nil_append]
          generalize text qs = cs at hrest
          cases hrest with
          | last => exact hnext.nextIn_of_isSpecial hspecial _
          | cons => exact hnext.nextIn_of_isSpecial hspecial _
      refine ⟨p :: (gs ++ qs), ⟨?_, hbefore qs hvalid⟩, ?_, ?_⟩
      · rw [text_append]
        exact hfits'
      · rw [← List.singleton_append, text_append, text_append]
        simp [text]
      · rw [List.filterMap_cons, List.filterMap_append, hnone, List.nil_append, hkinds,
          ← List.filterMap_cons]

theorem Respaced.exists_layout
    (h : Respaced ps cs)
    (hps : Lexical ps) :
    ∃ qs, Valid qs ∧ text qs = cs ∧ qs.filterMap Piece.kind? = ps.filterMap Piece.kind? := by
  cases h with
  | empty hgap =>
      obtain ⟨gs, htext, hkinds, hvalid⟩ := hgap.exists_pieces
      exact ⟨gs, hvalid, htext, hkinds⟩
  | lexemes hgap h =>
      obtain ⟨qs, hvalid, rfl, hkinds⟩ := h.exists_layout hps
      obtain ⟨gs, rfl, hnone, hbefore⟩ := hgap.exists_pieces
      refine ⟨gs ++ qs, hbefore qs hvalid, text_append gs qs, ?_⟩
      rw [List.filterMap_append, hnone, List.nil_append, hkinds]

theorem filterMap_lexemes (ps : List Piece) :
    (lexemes ps).filterMap Piece.kind? = ps.filterMap Piece.kind? := by
  induction ps with
  | nil => rfl
  | cons p ps ih =>
      cases hkind : p.kind? with
      | none => simpa [lexemes, Piece.isLexeme, hkind] using ih
      | some kind => simpa [lexemes, Piece.isLexeme, hkind] using ih

theorem map_kind_tokens
    (file : String)
    (before : List Char)
    (ps : List Piece) :
    (tokens file before ps).map Token.kind = ps.filterMap Piece.kind? ++ [.eof] := by
  induction ps generalizing before with
  | nil => rfl
  | cons p ps ih =>
      cases hkind : p.kind? with
      | none => simp [tokens, hkind, ih]
      | some kind => simp [tokens, hkind, ih]

theorem dropLast_tokens
    (file : String)
    (before : List Char)
    (p : Piece)
    (ps : List Piece) :
    (tokens file before (p :: ps)).dropLast =
      (p.kind?.map fun kind => ⟨kind, place file before⟩).toList ++
        (tokens file (before ++ p.text) ps).dropLast := by
  have hne : tokens file (before ++ p.text) ps ≠ [] := by
    intro hnil
    have hkinds := map_kind_tokens file (before ++ p.text) ps
    simp [hnil] at hkinds
  rw [tokens, List.dropLast_append_of_ne_nil hne]

/-- The lexemes stand in the text where their tokens are placed. -/
theorem lexemes_at_places
    (file : String)
    (before : List Char)
    (ps : List Piece) :
    List.Forall₂ (fun p t => p.kind? = some t.kind ∧
        p.text <+: (before ++ text ps).drop t.pos.index)
      (lexemes ps) (tokens file before ps).dropLast := by
  induction ps generalizing before with
  | nil => exact .nil
  | cons p ps ih =>
      have hrest := ih (before ++ p.text)
      have htext : before ++ p.text ++ text ps = before ++ text (p :: ps) := by
        simp [text]
      rw [htext] at hrest
      rw [dropLast_tokens]
      cases hkind : p.kind? with
      | none =>
          have hskip : lexemes (p :: ps) = lexemes ps := by simp [lexemes, Piece.isLexeme, hkind]
          rw [hskip]
          exact hrest
      | some kind =>
          have hcons : lexemes (p :: ps) = p :: lexemes ps := by
            simp [lexemes, Piece.isLexeme, hkind]
          rw [hcons]
          refine .cons ⟨hkind, ?_⟩ hrest
          simp [place, text]

end Spacing

end Layout

/--
Lexemes may be spaced anew.  A text that is scanned holds a lexeme for each of its tokens, at
the token's place.  Every text that holds these lexemes in their order, kept apart by blanks,
with comments among them, or by nothing where one of the two is a special character, is
scanned as well, and has tokens of the same kinds and values.
-/
theorem Token.ofText_of_respaced
    {source file : String}
    {ts : List Token}
    (h : Token.ofText source file = .ok ts) :
    ∃ ps, Layout.Valid ps ∧ Layout.text ps = source.toList ∧
      List.Forall₂ (fun p t => p.kind? = some t.kind ∧
          p.text <+: source.toList.drop t.pos.index)
        (Layout.lexemes ps) ts.dropLast ∧
      ∀ source' file', Layout.Respaced (Layout.lexemes ps) source'.toList →
        ∃ ts', Token.ofText source' file' = .ok ts' ∧
          ts'.map Token.kind = ts.map Token.kind := by
  obtain ⟨ps, hps, htext, rfl⟩ := Layout.exists_of_ofText h
  refine ⟨ps, hps, htext, ?_, ?_⟩
  · rw [← htext]
    exact Layout.lexemes_at_places file [] ps
  · intro source' file' hspaced
    obtain ⟨qs, hqs, htext', hkinds⟩ := hspaced.exists_layout hps.lexical
    refine ⟨Layout.tokens file' [] qs, Layout.ofText_of_valid file' hqs htext', ?_⟩
    rw [Layout.map_kind_tokens, Layout.map_kind_tokens, hkinds, Layout.filterMap_lexemes]

/-- The layout of `x/y,5// end`. -/
def shortLine : List Piece :=
  [.string ['x', '/', 'y'], .special ',', .whole ['5'], .line [' ', 'e', 'n', 'd']]

theorem valid_shortLine : Layout.Valid shortLine := by
  have hslashes : ∀ u v, ['x', '/', 'y'] = u ++ '/' :: v → v = ['y'] := by
    intro u v h
    rcases u with _ | ⟨c, _ | ⟨d, _ | ⟨e, u⟩⟩⟩ <;> simp_all
  refine ⟨⟨by decide, by simp [delimiters], by simp, ?_, ?_⟩, rfl, ?_, ?_, trivial⟩
  · intro u v h
    rw [hslashes u v h]
    decide
  · exact Or.inl (by rintro c ⟨⟩; decide)
  · exact ⟨by decide, by simp, by decide, by rintro c ⟨⟩; decide⟩
  · exact ⟨by decide, by rintro c ⟨⟩⟩

/-- The string and the comma keep apart with a comment between them, and the number needs
no blank behind the comma. -/
theorem ofText_of_respaced_shortLine :
    ∃ ts ts', Token.ofText "x/y,5// end" "" = .ok ts ∧
      Token.ofText "//a\nx/y /**/ ,5" "song" = .ok ts' ∧
      ts.map Token.kind = [.str "x/y", .comma, .int 5, .eof] ∧
      ts'.map Token.kind = ts.map Token.kind := by
  have hread : Token.ofText "x/y,5// end" "" = .ok (Layout.tokens "" [] shortLine) :=
    Layout.ofText_of_valid "" valid_shortLine (by decide)
  obtain ⟨ps, hps, htext, -, hspaced⟩ := Token.ofText_of_respaced hread
  obtain rfl : ps = shortLine :=
    Layout.eq_of_text_eq hps valid_shortLine (htext.trans (by decide))
  have hnew : Layout.Respaced (Layout.lexemes shortLine) "//a\nx/y /**/ ,5".toList := by
    have hlast : Layout.Spaced [.whole ['5']] ['5'] := .last (.closed .nil) (Or.inr rfl)
    have hcomma : Layout.Spaced [.special ',', .whole ['5']] [',', '5'] :=
      .cons .nil (Or.inr ⟨rfl, Or.inl rfl⟩) hlast
    have hcomment : Layout.Gap ('/' :: '*' :: ([] ++ '*' :: '/' :: [' '])) :=
      .block (by decide) (.blank (by decide) .nil)
    have hgap : Layout.Gap [' ', '/', '*', '*', '/', ' '] := .blank (by decide) hcomment
    have hline : Layout.Gap ('/' :: '/' :: (['a'] ++ '\n' :: [])) := .line (by decide) .nil
    have hstring : Layout.Spaced [.string ['x', '/', 'y'], .special ',', .whole ['5']]
        (['x', '/', 'y'] ++ ([' ', '/', '*', '*', '/', ' '] ++ [',', '5'])) :=
      .cons hgap (Or.inl ⟨' ', by decide, rfl⟩) hcomma
    exact .lexemes hline hstring
  obtain ⟨ts', hts', hkinds⟩ := hspaced _ "song" hnew
  exact ⟨_, ts', hread, hts', by decide, hkinds⟩

end SpeechMarkup
