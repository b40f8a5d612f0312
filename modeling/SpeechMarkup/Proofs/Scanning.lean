import SpeechMarkup.Proofs.Layout

/-!
# Scanning layouts

The scanner accepts exactly the texts that have a layout, and finds its tokens.

* `Layout.tokens_piece`: a piece that fits what follows is read, whatever that is.
* `Layout.piece_of_skip` and `Layout.pieces_of_token`: what a step of the scanner reads
  are pieces.  A string and the comment that touches its end are two.
* `Token.ofText_iff_layout` is the main result.
-/

namespace SpeechMarkup

open Scan

namespace Layout

section Places

theorem place_append_singleton
    (file : String)
    (before : List Char)
    (c : Char) :
    place file (before ++ [c]) = (place file before).advance c := by
  by_cases hc : c = '\n'
  · simp [place, Position.advance, hc]
  · simp [place, Position.advance, hc]

/-- Counting is what the scanner's cursor does step by step. -/
theorem after_start
    (file : String)
    (before : List Char) :
    (Position.start file).after before = place file before := by
  induction before using List.reverseRecOn with
  | nil => rfl
  | append_singleton before c ih =>
      rw [Position.after_append, ih, place_append_singleton]
      rfl

theorem after_place
    (file : String)
    (before cs : List Char) :
    (place file before).after cs = place file (before ++ cs) := by
  rw [← after_start, ← after_start, Position.after_append]

end Places

section Reading

theorem step_slash (cs : List Char) :
    step '/' cs =
      match word ('/' :: cs) with
      | .error before => .fault before .unclosedComment ('/' :: cs) []
      | .ok w =>
          if w.text.isEmpty then .skip w.gap w.rest
          else .token (.str (String.ofList w.text)) w.text w.gap w.rest := rfl

theorem step_line
    {body rest : List Char}
    (hbody : '\n' ∉ body)
    (hrest : NextIn ['\n'] rest) :
    step '/' ('/' :: (body ++ rest)) = .skip ('/' :: '/' :: body) rest := by
  have hrun : ∀ c ∈ body, decide (c ≠ '\n') = true := by
    intro c hc
    simpa using ne_of_mem_of_not_mem hc hbody
  obtain ⟨htake, hdrop⟩ := takeWhile_dropWhile_append hrun (by simpa [NextIn] using hrest)
  rw [step_slash, word, htake, hdrop]
  rfl

theorem step_block
    {body : List Char}
    (h : ¬ ['*', '/'] <:+: body)
    (rest : List Char) :
    step '/' ('*' :: (body ++ '*' :: '/' :: rest)) =
      .skip ('/' :: '*' :: (body ++ ['*', '/'])) rest := by
  rw [step_slash, word, blockEnd_append_close h]
  rfl

/-- A comment that stands where a string ends is skipped all the same if the scanner
starts there. -/
theorem tokens_of_boundary
    {rest gap more : List Char}
    (h : Delimits rest ∨ OpensComment rest)
    (hword : word rest = .ok ⟨[], gap, more⟩)
    (pos : Position) :
    Scan.tokens ⟨rest, pos⟩ = Scan.tokens ⟨more, pos.after gap⟩ := by
  rcases h with h | h
  · rw [word_of_delimits h] at hword
    cases hword
    rfl
  · obtain ⟨cs, rfl⟩ := h.eq_cons
    rw [tokens_cons, step_slash, hword]
    rfl

theorem tokens_of_unclosed
    {rest : List Char}
    (h : Delimits rest ∨ OpensComment rest)
    (hword : word rest = .error [])
    (pos : Position) :
    (Scan.tokens ⟨rest, pos⟩).1 = .error ⟨pos, .unclosedComment⟩ := by
  rcases h with h | h
  · rw [word_of_delimits h] at hword
    cases hword
  · obtain ⟨cs, rfl⟩ := h.eq_cons
    rw [tokens_cons, step_slash, hword]
    rfl

theorem tokens_string
    {w rest : List Char}
    (h : IsString w rest)
    (pos : Position) :
    (Scan.tokens ⟨w ++ rest, pos⟩).1 =
      (Scan.tokens ⟨rest, pos.after w⟩).1.map (⟨.str (String.ofList w), pos⟩ :: ·) := by
  obtain ⟨c, cs, rfl⟩ := List.exists_cons_of_ne_nil h.ne_nil
  obtain ⟨hblank, hspecial⟩ := not_blank_of_wordChar (h.wordChars c (by simp))
  have hdigit : c.isDigit = false := h.head c (by simp)
  have hword := word_append_foldr h.wordChars h.slashes
  rw [List.cons_append] at hword
  rcases word_of_boundary h.boundary with ⟨gap, more, hrest⟩ | hrest
  · rw [hrest, foldr_cons_ok, List.append_nil] at hword
    have hstep : step c (cs ++ rest) =
        .token (.str (String.ofList (c :: cs))) (c :: cs) gap more := by
      simp [step, hblank, hspecial, hdigit, hword]
    rw [List.cons_append, tokens_cons, hstep, tokens_of_boundary h.boundary hrest]
  · rw [hrest, foldr_cons_error, List.append_nil] at hword
    have hstep : step c (cs ++ rest) =
        .fault (c :: cs) .unclosedComment (c :: (cs ++ rest)) [] := by
      simp [step, hblank, hspecial, hdigit, hword]
    rw [List.cons_append, tokens_cons, hstep, tokens_of_unclosed h.boundary hrest]
    rfl

theorem tokens_of_skip
    {c : Char}
    {cs gap rest : List Char}
    (h : step c cs = .skip gap rest)
    (pos : Position) :
    Scan.tokens ⟨c :: cs, pos⟩ = Scan.tokens ⟨rest, pos.after gap⟩ := by
  rw [tokens_cons, h]

theorem tokens_of_token
    {c : Char}
    {cs lexeme rest : List Char}
    {kind : Token.Kind}
    (h : step c cs = .token kind lexeme [] rest)
    (pos : Position) :
    (Scan.tokens ⟨c :: cs, pos⟩).1 =
      (Scan.tokens ⟨rest, pos.after lexeme⟩).1.map (⟨kind, pos⟩ :: ·) := by
  rw [tokens_cons, h]
  rfl

/-- The scanner reads a piece that fits what follows, and goes on behind it. -/
theorem tokens_piece
    {p : Piece}
    {rest : List Char}
    (h : p.Fits rest)
    (pos : Position) :
    (Scan.tokens ⟨p.text ++ rest, pos⟩).1 =
      (Scan.tokens ⟨rest, pos.after p.text⟩).1.map
        ((p.kind?.map fun kind => ⟨kind, pos⟩).toList ++ ·) := by
  have hgap : ∀ r : Except (Located LexFault) (List Token), r.map ([] ++ ·) = r := by
    rintro (e | ts) <;> rfl
  cases p with
  | blank c =>
      have hblank := (isBlank_iff c).2 h
      have hstep : step c rest = .skip [c] rest := by simp [step, hblank]
      exact (congrArg Prod.fst (tokens_of_skip hstep pos)).trans (hgap _).symm
  | line body =>
      exact (congrArg Prod.fst (tokens_of_skip (step_line h.1 h.2) pos)).trans (hgap _).symm
  | block body =>
      have htext : (Piece.block body).text ++ rest =
          '/' :: '*' :: (body ++ '*' :: '/' :: rest) := by simp [Piece.text]
      rw [htext, tokens_of_skip (step_block h rest) pos]
      exact (hgap _).symm
  | special mark =>
      obtain ⟨kind, hlookup⟩ := Option.isSome_iff_exists.1 h
      have hspecial := (special?_eq_lookup mark).trans hlookup
      have hstep : step mark rest = .token kind [mark] [] rest := by
        simp [step, isBlank_of_special hspecial, hspecial]
      rw [Piece.kind?, hlookup]
      exact tokens_of_token hstep pos
  | whole digits =>
      obtain ⟨hne, hdigits, hlt, hrest⟩ := h
      obtain ⟨c, cs, rfl⟩ := List.exists_cons_of_ne_nil hne
      have hstep := step_of_digit (cs ++ rest) (hdigits c (by simp))
      have hword : (digitsValue (c :: cs) : Int) ≤ maxWord := by
        unfold maxWord
        omega
      rw [← List.cons_append, number_whole hdigits hword ((endsNumber_iff rest).2 hrest)] at hstep
      exact tokens_of_token hstep pos
  | decimal front back =>
      obtain ⟨hne, hfront, hback, hrest⟩ := h
      obtain ⟨c, cs, rfl⟩ := List.exists_cons_of_ne_nil hne
      have hstep := step_of_digit (cs ++ '.' :: back ++ rest) (hfront c (by simp))
      rw [← List.cons_append, ← List.cons_append, 
        number_decimal hfront hback ((endsNumber_iff rest).2 hrest)] at hstep
      exact tokens_of_token hstep pos
  | string w => exact tokens_string h pos

theorem tokens_of_valid
    {ps : List Piece}
    (h : Valid ps)
    (file : String)
    (before : List Char) :
    (Scan.tokens ⟨text ps, place file before⟩).1 = .ok (tokens file before ps) := by
  induction ps generalizing before with
  | nil => rw [text, List.flatMap_nil, tokens_nil, tokens]
  | cons p ps ih =>
      rw [text, List.flatMap_cons, ← text, tokens_piece h.1, after_place, ih h.2]
      rfl

end Reading

section Finding

theorem body_of_blockEnd
    {cs text rest : List Char}
    (h : blockEnd cs = some (text, rest)) :
    ∃ body, text = body ++ ['*', '/'] ∧ ¬ ['*', '/'] <:+: body := by
  fun_induction blockEnd cs generalizing text rest with
  | case1 => simp at h
  | case2 more =>
      simp only [Option.some.injEq, Prod.mk.injEq] at h
      obtain ⟨rfl, rfl⟩ := h
      exact ⟨[], rfl, by simp⟩
  | case3 c cs hopen ih =>
      obtain ⟨⟨b, t⟩, hb, heq⟩ := Option.map_eq_some_iff.1 h
      simp only [Prod.mk.injEq] at heq
      obtain ⟨rfl, rfl⟩ := heq
      obtain ⟨body, rfl, hbody⟩ := ih hb
      refine ⟨c :: body, rfl, ?_⟩
      rw [List.infix_cons_iff, not_or]
      refine ⟨?_, hbody⟩
      rintro ⟨more, hmore⟩
      obtain ⟨rfl, rfl⟩ := List.cons.inj hmore
      exact hopen _ rfl (blockEnd_append hb).symm

theorem boundary_of_word
    {cs : List Char}
    {w : Word}
    (h : word cs = .ok w) :
    (w.gap = [] ∧ Delimits w.rest) ∨
      (OpensComment (w.gap ++ w.rest) ∧ ∃ p : Piece, p.text = w.gap ∧ p.Fits w.rest) := by
  fun_induction word cs generalizing w with
  | case1 =>
      cases h
      exact Or.inl ⟨rfl, trivial⟩
  | case2 more =>
      cases h
      refine Or.inr ⟨Or.inl (by simp), .line (more.takeWhile (· ≠ '\n')), rfl, ?_, ?_⟩
      · intro hmem
        have hall := List.all_eq_true.1 List.all_takeWhile _ hmem
        simp at hall
      · intro c hc
        have hfirst := List.head?_dropWhile_not (p := fun d => decide (d ≠ '\n')) more
        rw [hc] at hfirst
        simpa using hfirst
  | case3 more text rest hend =>
      cases h
      obtain ⟨body, rfl, hbody⟩ := body_of_blockEnd hend
      exact Or.inr ⟨Or.inr (by simp), .block body, rfl, hbody⟩
  | case4 => cases h
  | case5 c cs _ _ hbreak =>
      cases h
      refine Or.inl ⟨rfl, ?_⟩
      show isWordChar c = false
      simpa [isWordChar] using hbreak
  | case6 c cs _ _ _ ih =>
      obtain ⟨v, hv, rfl⟩ := Word.cons_eq_ok h
      have hboundary := ih hv
      exact hboundary

theorem slashes_of_word
    {cs : List Char}
    {w : Word}
    (h : word cs = .ok w)
    {u v : List Char}
    (htext : w.text = u ++ '/' :: v) :
    (v ++ (w.gap ++ w.rest)).head? ≠ some '/' ∧ (v ++ (w.gap ++ w.rest)).head? ≠ some '*' := by
  fun_induction word cs generalizing w u v with
  | case1 => cases h; simp at htext
  | case2 more => cases h; simp at htext
  | case3 more text rest hend => cases h; simp at htext
  | case4 => cases h
  | case5 => cases h; simp at htext
  | case6 c cs hline hblock hbreak ih =>
      obtain ⟨x, hx, rfl⟩ := Word.cons_eq_ok h
      cases u with
      | nil =>
          obtain ⟨rfl, rfl⟩ := List.cons.inj htext
          have hsplit := word_append hx
          rw [List.append_assoc] at hsplit
          rw [hsplit]
          constructor
          · intro hhead
            obtain ⟨more, rfl⟩ := List.head?_eq_some_iff.1 hhead
            exact hline more rfl rfl
          · intro hhead
            obtain ⟨more, rfl⟩ := List.head?_eq_some_iff.1 hhead
            exact hblock more rfl rfl
      | cons d u =>
          obtain ⟨rfl, htail⟩ := List.cons.inj htext
          exact ih hx htail

theorem isString_of_word
    {c : Char}
    {cs : List Char}
    {w : Word}
    (hdigit : c.isDigit = false)
    (h : word (c :: cs) = .ok w)
    (hne : w.text ≠ []) :
    IsString w.text (w.gap ++ w.rest) where
  ne_nil := hne
  chars := fun c hc => (isWordChar_iff c).1 ((chars_of_word h).1 c hc)
  head := by
    obtain ⟨d, ds, htext⟩ := List.exists_cons_of_ne_nil hne
    have hsplit := word_append h
    rw [htext] at hsplit
    obtain ⟨rfl, -⟩ := List.cons.inj hsplit
    rw [htext]
    simpa using hdigit
  slashes := fun u v => slashes_of_word h
  maximal := by
    rcases boundary_of_word h with ⟨hgap, hrest⟩ | ⟨hopen, -⟩
    · rw [hgap]
      exact Or.inl ((delimits_iff w.rest).1 hrest)
    · exact Or.inr hopen

theorem wholeNumber_eq_token
    {digits after lexeme gap rest : List Char}
    {kind : Token.Kind}
    (h : wholeNumber digits after = .token kind lexeme gap rest) :
    digitsValue digits < 2 ^ 63 ∧ gap = [] ∧ rest = after := by
  unfold wholeNumber at h
  split at h
  · rename_i hle
    cases h
    unfold maxWord at hle
    exact ⟨by omega, rfl, rfl⟩
  · cases h

theorem piece_of_number
    {cs lexeme gap rest : List Char}
    {kind : Token.Kind}
    (hne : cs.takeWhile Char.isDigit ≠ [])
    (h : number cs = .token kind lexeme gap rest) :
    gap = [] ∧ ∃ p : Piece, p.text ++ rest = cs ∧ p.Fits rest := by
  have hdigits : ∀ (cs : List Char), ∀ d ∈ cs.takeWhile Char.isDigit, d.isDigit = true :=
    fun _ => List.all_eq_true.1 List.all_takeWhile
  have hsplit : _ = cs := List.takeWhile_append_dropWhile (p := Char.isDigit)
  unfold number at h
  split at h
  · rename_i hdrop
    obtain ⟨hlt, rfl, rfl⟩ := wholeNumber_eq_token h
    rw [hdrop] at hsplit
    exact ⟨rfl, .whole _, hsplit, hne, hdigits cs, hlt, by simp [NextIn]⟩
  · rename_i d more hdrop
    rw [hdrop] at hsplit
    dsimp only at h
    split at h
    · rename_i hpoint
      subst hpoint
      have hback : _ = more := List.takeWhile_append_dropWhile (p := Char.isDigit)
      have hend : gap = [] ∧ rest = more.dropWhile Char.isDigit ∧ EndsNumber rest := by
        split at h
        · rename_i hdrop'
          cases h
          exact ⟨rfl, hdrop'.symm, by simp [EndsNumber]⟩
        · rename_i e tail hdrop'
          split at h
          · rename_i hbreak
            cases h
            exact ⟨rfl, hdrop'.symm, by simpa [EndsNumber] using hbreak⟩
          · exact absurd h (malformed_ne_token _ _ _ _ _ _ _ _)
      obtain ⟨hgap, hrest, hends⟩ := hend
      refine ⟨hgap, .decimal _ _, ?_, hne, hdigits cs, hdigits more, (endsNumber_iff _).1 hends⟩
      rw [hrest, Piece.text, List.append_assoc, List.cons_append, hback, hsplit]
    · split at h
      · rename_i hbreak
        obtain ⟨hlt, rfl, rfl⟩ := wholeNumber_eq_token h
        exact ⟨rfl, .whole _, hsplit, hne, hdigits cs, hlt,
          (endsNumber_iff _).1 (by simpa [EndsNumber] using hbreak)⟩
      · exact absurd h (malformed_ne_token _ _ _ _ _ _ _ _)

theorem number_ne_skip (cs gap rest : List Char) :
    number cs ≠ .skip gap rest := by
  unfold number wholeNumber malformed
  grind

theorem piece_of_skip
    {c : Char}
    {cs gap rest : List Char}
    (h : step c cs = .skip gap rest) :
    ∃ p : Piece, p.text ++ rest = c :: cs ∧ p.Fits rest := by
  unfold step at h
  split at h
  · rename_i hblank
    cases h
    exact ⟨.blank c, rfl, (isBlank_iff c).1 hblank⟩
  · rename_i hblank
    split at h
    · cases h
    · rename_i hspecial
      split at h
      · exact absurd h (number_ne_skip _ _ _)
      · split at h
        · cases h
        · rename_i w hword
          split at h
          · rename_i hempty
            cases h
            have htext : w.text = [] := by simpa using hempty
            have hsplit := word_append hword
            rw [htext, List.nil_append] at hsplit
            rcases boundary_of_word hword with ⟨hgap, hrest⟩ | ⟨-, p, hp, hfits⟩
            · -- no comment and no string would leave a delimiter
              rw [hgap, List.nil_append] at hsplit
              rw [hsplit] at hrest
              simp [Delimits, isWordChar, isBreak, hblank, hspecial] at hrest
            · exact ⟨p, by rw [hp, hsplit], hfits⟩
          · cases h

theorem pieces_of_token
    {c : Char}
    {cs lexeme gap rest : List Char}
    {kind : Token.Kind}
    (h : step c cs = .token kind lexeme gap rest) :
    (∃ p : Piece, p.text ++ (gap ++ rest) = c :: cs ∧ p.Fits (gap ++ rest)) ∧
      (gap = [] ∨ ∃ q : Piece, q.text = gap ∧ q.Fits rest) := by
  unfold step at h
  split at h
  · cases h
  · split at h
    · rename_i hspecial
      cases h
      rw [special?_eq_lookup] at hspecial
      exact ⟨⟨.special c, rfl, by simp [Piece.Fits, hspecial]⟩, Or.inl rfl⟩
    · split at h
      · rename_i hdigit
        obtain ⟨rfl, hpiece⟩ := piece_of_number (by simp [hdigit]) h
        exact ⟨hpiece, Or.inl rfl⟩
      · rename_i hdigit
        split at h
        · cases h
        · rename_i w hword
          split at h
          · cases h
          · rename_i hne
            cases h
            have hstring := isString_of_word (by simpa using hdigit) hword (by simpa using hne)
            have hsplit := word_append hword
            rw [List.append_assoc] at hsplit
            refine ⟨⟨.string w.text, hsplit, hstring⟩, ?_⟩
            exact (boundary_of_word hword).imp And.left And.right

theorem exists_layout
    {cs : List Char}
    {pos : Position}
    {ts : List Token}
    (h : (Scan.tokens ⟨cs, pos⟩).1 = .ok ts) :
    ∃ ps, Valid ps ∧ text ps = cs := by
  induction cs using scanInduction generalizing pos ts with
  | nil => exact ⟨[], trivial, rfl⟩
  | cons c cs ih =>
      rw [tokens_cons] at h
      cases hstep : step c cs with
      | skip gap rest =>
          rw [hstep] at h ih
          obtain ⟨ps, hps, rfl⟩ := ih h
          obtain ⟨p, hp, hfits⟩ := piece_of_skip hstep
          exact ⟨p :: ps, ⟨hfits, hps⟩, hp⟩
      | token kind lexeme gap rest =>
          rw [hstep] at h ih
          dsimp only at h
          cases hnext : (Scan.tokens ⟨rest, (pos.after lexeme).after gap⟩).1 with
          | error e => simp [hnext, Except.map] at h
          | ok us =>
              obtain ⟨ps, hps, rfl⟩ := ih hnext
              obtain ⟨⟨p, hp, hfits⟩, hgap⟩ := pieces_of_token hstep
              rcases hgap with rfl | ⟨q, rfl, hq⟩
              · exact ⟨p :: ps, ⟨hfits, hps⟩, hp⟩
              · exact ⟨p :: q :: ps, ⟨hfits, hq, hps⟩, hp⟩
      | fault before cause read rest =>
          rw [hstep] at h
          cases h

theorem ofText_of_valid
    {source : String}
    {ps : List Piece}
    (file : String)
    (hps : Valid ps)
    (htext : text ps = source.toList) :
    Token.ofText source file = .ok (tokens file [] ps) := by
  have hread := tokens_of_valid hps file []
  rw [htext] at hread
  exact hread

theorem exists_of_ofText
    {source file : String}
    {ts : List Token}
    (h : Token.ofText source file = .ok ts) :
    ∃ ps, Valid ps ∧ text ps = source.toList ∧ ts = tokens file [] ps := by
  obtain ⟨ps, hps, htext⟩ := exists_layout h
  exact ⟨ps, hps, htext, Except.ok.inj (h.symm.trans (ofText_of_valid file hps htext))⟩

end Finding

end Layout

/-- The scanner accepts the texts that have a layout, and no others.  There is only one
layout, and what is read are its tokens. -/
theorem Token.ofText_iff_layout (text file : String) :
    (∀ ts, Token.ofText text file = .ok ts ↔
      ∃ ps, Layout.Valid ps ∧ Layout.text ps = text.toList ∧ ts = Layout.tokens file [] ps) ∧
    ∀ ps qs, Layout.Valid ps → Layout.Valid qs → Layout.text ps = text.toList →
      Layout.text qs = text.toList → ps = qs := by
  constructor
  · intro ts
    have hstart : Cursor.ofText text file = ⟨text.toList, Layout.place file []⟩ := rfl
    unfold Token.ofText
    rw [hstart]
    constructor
    · intro h
      obtain ⟨ps, hps, htext⟩ := Layout.exists_layout h
      rw [← htext, Layout.tokens_of_valid hps] at h
      exact ⟨ps, hps, htext, (Except.ok.inj h).symm⟩
    · rintro ⟨ps, hps, htext, rfl⟩
      rw [← htext]
      exact Layout.tokens_of_valid hps file []
  · intro ps qs hps hqs hp hq
    exact Layout.eq_of_text_eq hps hqs (hp.trans hq.symm)

end SpeechMarkup
