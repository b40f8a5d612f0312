import SpeechMarkup.Proofs.Lexemes
import SpeechMarkup.Proofs.ReadNodes

/-!
# How the text of a node is read

`Node.printed` lists the tokens that stand for the parts of a node.  The text of a
node that was built from tokens of a text is read as exactly these
(`reads_node`), whatever follows it behind a delimiter.  The tokens are the ones
the node was built from, up to the optional parts that the text leaves out and
the word `inf` for an infinite number.
-/

namespace SpeechMarkup

open Scan

section Tokens

/-- The token that the text of a number with a point is read as: an infinite number
is written as a word. -/
def Binary64.printed (x : Binary64) : Token.Kind :=
  if x.isInfinite then .str "inf" else .float x

/-- The token that the text of a parameter is read as. -/
def Param.printed : Param → Token.Kind
  | .int v => .int v
  | .float x => x.printed
  | .str s => .str s

/-- The token that the text of a length is read as. -/
def Duration.printed : Duration → Token.Kind
  | .int v => .int v
  | .float x => x.printed

/-- The token that a symbol is read as. -/
def symbolPrinted (symbol : String) : Token.Kind :=
  if symbol = "," then .comma else .str symbol

/-- The tokens that the text of a phoneme is read as. -/
def Phoneme.printed (p : Phoneme) : List Token.Kind :=
  let length := if p.duration.isShown then [p.duration.printed] else []
  let pitch := if p.pitch ≠ 0 then [.comma, .int p.pitch] else []
  if p.duration.isShown || p.pitch ≠ 0 then
    symbolPrinted p.symbol :: .leftChevron :: (length ++ (pitch ++ [.rightChevron]))
  else [symbolPrinted p.symbol]

/-- The tokens of values of voice parameters, with commas between them. -/
def pairsPrinted : List (String × Int) → List Token.Kind
  | [] => []
  | [(k, v)] => [.str k, .int v]
  | (k, v) :: rest => .str k :: .int v :: .comma :: pairsPrinted rest

/-- The tokens that the text of a voice declaration is read as. -/
def Voice.printed (v : Voice) : List Token.Kind :=
  .leftBracket :: .str ":voice" :: .str v.name :: .rightBracket ::
    (if v.settings.entries.isEmpty then []
      else .leftBrace :: (pairsPrinted v.settings.entries ++ [.rightBrace]))

mutual

/-- The tokens that the text of a node is read as. -/
def Node.printed : Node → List Token.Kind
  | .command _ name params context =>
      .leftBracket :: .str (":" ++ name) :: (params.map Param.printed ++ .rightBracket ::
        (if context.isEmpty then [] else .leftBrace :: (Node.printedAll context ++ [.rightBrace])))
  | .phoneme p => p.printed
  | .voice v => v.printed
  | .stop _ => []

/-- The tokens that the texts of nodes are read as. -/
def Node.printedAll : List Node → List Token.Kind
  | [] => []
  | n :: ns => n.printed ++ Node.printedAll ns

end

end Tokens

section Reading

theorem reads_int
    {v : Int}
    (h : Lexed (.int v)) :
    Reads (toString v).toList [.int v] := by
  obtain ⟨n, rfl⟩ := Int.eq_ofNat_of_zero_le h.1
  have htext : (toString (n : Int)).toList = Nat.toDigits 10 n := by
    show (Nat.repr n).toList = _
    exact Nat.toList_repr
  have hdigits : ∀ c ∈ Nat.toDigits 10 n, c.isDigit = true := by
    intro c hc
    exact Nat.isDigit_of_mem_toDigits (by decide) (by decide) hc
  have hreads := reads_whole Nat.toDigits_ne_nil hdigits
    (by rw [digitsValue_toDigits]; exact h.2)
  rw [htext]
  rwa [digitsValue_toDigits] at hreads

theorem reads_str
    {s : String}
    (h : Lexed (.str s)) :
    Reads s.toList [.str s] := by
  have hreads := reads_word (w := s.toList) h
  rwa [String.ofList_toList] at hreads

theorem reads_float
    {x : Binary64}
    (h : Lexed (.float x)) :
    Reads x.render.toList [x.printed] := by
  obtain ⟨hneg, hle⟩ := h
  rcases Nat.lt_or_eq_of_le hle with hfin | hinf
  · obtain ⟨whole, part, hne, hwhole, hpart, htext, hvalue⟩ := Binary64.render_toList hfin hneg
    have hprinted : x.printed = .float x := by
      have hnot : x.isInfinite = false := by
        simp only [Binary64.isInfinite, decide_eq_false_iff_not]
        omega
      simp [Binary64.printed, hnot]
    have hreads := reads_decimal hne hwhole hpart
    rw [hvalue] at hreads
    rwa [htext, hprinted]
  · have hprinted : x.printed = .str "inf" := by
      simp [Binary64.printed, Binary64.isInfinite, hinf]
    rw [Binary64.render_infinity hinf hneg, hprinted]
    have hchars : "inf".toList.all isWordChar = true := by decide
    have hword : IsWord "inf".toList :=
      ⟨by decide, List.all_eq_true.1 hchars, by simp, by simp [CommentFree]⟩
    exact reads_str hword

theorem reads_param
    {p : Param}
    (h : Lexed p.token) :
    Reads p.render.toList [p.printed] := by
  cases p with
  | int v => exact reads_int h
  | float x => exact reads_float h
  | str s => exact reads_str h

theorem reads_duration
    {d : Duration}
    (h : Lexed d.token) :
    Reads d.render.toList [d.printed] := by
  cases d with
  | int v => exact reads_int h
  | float x => exact reads_float h

theorem reads_symbol
    {s : String}
    (h : s = "," ∨ Lexed (.str s)) :
    Reads s.toList [symbolPrinted s] := by
  by_cases hcomma : s = ","
  · subst hcomma
    exact Reads.special rfl Reads.nil
  · have hreads := reads_str (h.resolve_left hcomma)
    simpa [symbolPrinted, hcomma] using hreads

theorem delimits_cons
    {c : Char}
    (hc : c ∈ delimiters)
    (cs : List Char) :
    Delimits (c :: cs) :=
  (isWordChar_eq_false_iff c).2 hc

/-- Parameters are written with a blank before each. -/
theorem reads_params
    {params : List Param}
    (h : ∀ p ∈ params, Lexed p.token) :
    Reads (params.flatMap fun p => ' ' :: p.render.toList) (params.map Param.printed) ∧
      Delimits (params.flatMap fun p => ' ' :: p.render.toList) := by
  induction params with
  | nil => exact ⟨Reads.nil, trivial⟩
  | cons p ps ih =>
      obtain ⟨hp, hps⟩ := List.forall_mem_cons.1 h
      obtain ⟨hreads, hdelim⟩ := ih hps
      refine ⟨?_, delimits_cons (by decide) _⟩
      exact Reads.blank rfl ((reads_param hp).append hreads hdelim)

theorem Reads.length
    {d : Duration}
    (h : d = .int 0 ∨ Lexed d.token)
    {cs : List Char}
    {ks : List Token.Kind}
    (hcs : Reads cs ks)
    (hdelim : Delimits cs) :
    Reads ((if d.isShown then d.render else "").toList ++ cs)
      ((if d.isShown then [d.printed] else []) ++ ks) := by
  cases hshown : d.isShown with
  | false => simpa using hcs
  | true =>
      have hlexed : Lexed d.token := by
        rcases h with rfl | h
        · simp [Duration.isShown] at hshown
        · exact h
      simpa using (reads_duration hlexed).append hcs hdelim

theorem reads_phoneme
    {p : Phoneme}
    (h : p.Formed Lexed) :
    Reads p.render.toList p.printed := by
  unfold Phoneme.render Phoneme.printed
  dsimp only
  split
  · have hclose : Reads ['>'] [.rightChevron] := Reads.special rfl Reads.nil
    have hpitch : Reads ((if p.pitch ≠ 0 then "," ++ toString p.pitch else "").toList ++ ['>'])
        ((if p.pitch ≠ 0 then [.comma, .int p.pitch] else []) ++ [.rightChevron]) ∧
        Delimits ((if p.pitch ≠ 0 then "," ++ toString p.pitch else "").toList ++ ['>']) := by
      by_cases hzero : p.pitch = 0
      · simpa [hzero] using And.intro hclose (delimits_cons (c := '>') (by decide) [])
      · have hint := (reads_int (h.pitch.resolve_left hzero)).append hclose
          (delimits_cons (by decide) _)
        have hcomma := Reads.special (c := ',') rfl hint
        simpa [hzero] using
          And.intro hcomma
            (delimits_cons (c := ',') (by decide) ((toString p.pitch).toList ++ ['>']))
    have hlength := Reads.length h.duration hpitch.1 hpitch.2
    have hopen := Reads.special (c := '<') rfl hlength
    have hall := (reads_symbol h.symbol).append hopen (delimits_cons (by decide) _)
    simpa using hall
  · exact reads_symbol h.symbol

theorem reads_pairs
    {entries : List (String × Int)}
    (hne : entries ≠ [])
    (h : ∀ e ∈ entries, Lexed (.str e.1) ∧ Lexed (.int e.2)) :
    Reads (", ".intercalate (entries.map fun (k, x) => k ++ " " ++ toString x)).toList
      (pairsPrinted entries) := by
  induction entries with
  | nil => exact absurd rfl hne
  | cons e rest ih =>
      obtain ⟨⟨hkey, hvalue⟩, hrest⟩ := List.forall_mem_cons.1 h
      obtain ⟨k, v⟩ := e
      cases rest with
      | nil =>
          have hpair := (reads_str hkey).append (Reads.blank (c := ' ') rfl (reads_int hvalue))
            (delimits_cons (by decide) _)
          simpa [pairsPrinted] using hpair
      | cons e' rest =>
          have htail := Reads.special (c := ',') rfl
            (Reads.blank (c := ' ') rfl (ih (by simp) hrest))
          have hpair := (reads_str hkey).append (Reads.blank (c := ' ') rfl
            ((reads_int hvalue).append htail (delimits_cons (by decide) _)))
            (delimits_cons (by decide) _)
          simpa [pairsPrinted, String.intercalate_cons_cons] using hpair

theorem reads_voice
    {v : Voice}
    (h : v.Formed Lexed) :
    Reads v.render.toList v.printed := by
  have hblock : Reads (if v.settings.entries.isEmpty then "" else
        " \x7b " ++ ", ".intercalate
          (v.settings.entries.map fun (k, x) => k ++ " " ++ toString x) ++ " \x7d").toList
      (if v.settings.entries.isEmpty then []
        else .leftBrace :: (pairsPrinted v.settings.entries ++ [.rightBrace])) := by
    cases hempty : v.settings.entries.isEmpty with
    | true => simpa using Reads.nil
    | false =>
        have hne : v.settings.entries ≠ [] := by
          rintro hnil
          simp [hnil] at hempty
        have hclose := Reads.blank (c := ' ') rfl (Reads.special (c := '}') rfl Reads.nil)
        have hbody := (reads_pairs hne h.settings).append hclose (delimits_cons (by decide) _)
        have hopen := Reads.blank (c := ' ') rfl
          (Reads.special (c := '{') rfl (Reads.blank (c := ' ') rfl hbody))
        simpa using hopen
  have hclose := Reads.special (c := ']') rfl hblock
  have hname := (reads_str h.name).append hclose (delimits_cons (by decide) _)
  have hkeyword := (reads_str h.keyword).append (Reads.blank (c := ' ') rfl hname)
    (delimits_cons (by decide) _)
  have hall := Reads.special (c := '[') rfl hkeyword
  simpa [Voice.render, Voice.printed] using hall

theorem reads_all
    {ns : List Node}
    (h : ∀ n ∈ ns, Reads n.render.toList n.printed) :
    Reads (Node.renderAll ns).toList (Node.printedAll ns) ∧
      Delimits (Node.renderAll ns).toList := by
  induction ns with
  | nil => exact ⟨by simpa [Node.renderAll, Node.printedAll] using Reads.nil,
      by simp [Node.renderAll, Delimits]⟩
  | cons n ns ih =>
      obtain ⟨hn, hns⟩ := List.forall_mem_cons.1 h
      obtain ⟨hreads, hdelim⟩ := ih hns
      constructor
      · have hall := Reads.blank (c := ' ') rfl (hn.append hreads hdelim)
        simpa [Node.renderAll, Node.printedAll] using hall
      · simpa [Node.renderAll] using delimits_cons (c := ' ') (by decide) _

/-- The text of a node is read as the tokens that stand for its parts. -/
theorem reads_node
    {n : Node}
    (h : n.Formed Lexed) :
    Reads n.render.toList n.printed := by
  induction h with
  | @command pos name params context keyword _ _ hparams _ ih =>
      have hblock : Reads (if context.isEmpty then "" else
            " \x7b" ++ Node.renderAll context ++ " \x7d").toList
          (if context.isEmpty then []
            else .leftBrace :: (Node.printedAll context ++ [.rightBrace])) := by
        cases context.isEmpty with
        | true => simpa using Reads.nil
        | false =>
            have hclose := Reads.blank (c := ' ') rfl (Reads.special (c := '}') rfl Reads.nil)
            have hbody := (reads_all ih).1.append hclose (delimits_cons (by decide) _)
            have hopen := Reads.blank (c := ' ') rfl (Reads.special (c := '{') rfl hbody)
            simpa using hopen
      have hclose := Reads.special (c := ']') rfl hblock
      have hhead := (reads_params hparams).1.append hclose (delimits_cons (by decide) _)
      have hkeyword := (reads_str keyword).append hhead
        ((reads_params hparams).2.append (delimits_cons (by decide) _))
      have hall := Reads.special (c := '[') rfl hkeyword
      cases hempty : context.isEmpty with
      | true => simpa [Node.render, Node.printed, hempty, List.flatMap_map] using hall
      | false => simpa [Node.render, Node.printed, hempty, List.flatMap_map] using hall
  | phoneme hp => exact reads_phoneme hp
  | voice hv => exact reads_voice hv

end Reading

end SpeechMarkup
