import SpeechMarkup.Proofs.Blame
import SpeechMarkup.Proofs.Chunks
import SpeechMarkup.Proofs.Scanning

/-!
# Places of tokens, nodes and faults

Everything that is read from a text carries a place in that text: nodes the place where one of
its tokens starts, and faults either such a place or the place of what could not be scanned.

* `Scan.Step.Within` says how a step of the scanner takes its text apart.
* `Layout.IsPlace` are the places in a text, and `Layout.placedIn_tokens` says that the scanner
  gives no others.
* `StartsToken` are the places where tokens start.
* `Node.Placed` says of a node that it stands, with all nodes in it, at places of some sort, and
  `Node.placed_of_ofText` that the nodes of a text stand where its tokens start.
* `Diagnostic.PointsInto` says that a fault is reported in a text, and
  `Diagnostic.pointsInto_of_ofText` that the faults of a text are.
-/

namespace SpeechMarkup

namespace Scan

section Steps

theorem isPrefix_of_word_error
    {cs before : List Char}
    (h : word cs = .error before) :
    before <+: cs := by
  fun_induction word cs generalizing before with
  | case1 => cases h
  | case2 => cases h
  | case3 => cases h
  | case4 =>
      obtain rfl := Except.error.inj h
      exact List.nil_prefix
  | case5 => cases h
  | case6 c cs _ _ _ ih =>
      cases hword : word cs with
      | ok w =>
          rw [hword] at h
          cases h
      | error more =>
          rw [hword] at h
          obtain rfl := Except.error.inj h
          exact (List.prefix_cons_inj c).2 (ih hword)

/-- What a step reads and leaves makes up the text; a fault lies in the text. -/
def Step.Within (text : List Char) : Step → Prop
  | .skip gap rest => gap ++ rest = text
  | .token _ lexeme gap rest => lexeme ++ (gap ++ rest) = text
  | .fault before _ _ _ => before <+: text

theorem wholeNumber_within
    {text literal rest : List Char}
    (h : literal ++ rest = text) :
    (wholeNumber literal rest).Within text := by
  unfold wholeNumber
  split
  · exact h
  · exact List.nil_prefix

theorem malformed_within
    {text literal cs : List Char}
    {c : Char}
    (pointed : Bool)
    (h : literal ++ c :: cs = text) :
    (malformed pointed literal c cs).Within text := by
  unfold malformed
  split
  · rename_i before hword
    rw [← h]
    exact (List.prefix_append_right_inj literal).2 (isPrefix_of_word_error hword)
  · exact List.nil_prefix

/-- A number is whole, or has a point, or runs into a character that no number has; it stands
at the head of its text. -/
theorem number_cases (cs : List Char) :
    (∃ literal rest, literal ++ rest = cs ∧ number cs = wholeNumber literal rest) ∨
      (∃ value literal rest, literal ++ rest = cs ∧
        number cs = .token (.float value) literal [] rest) ∨
      ∃ pointed literal c rest, literal ++ c :: rest = cs ∧
        number cs = malformed pointed literal c rest := by
  have hsplit : _ = cs := List.takeWhile_append_dropWhile (p := Char.isDigit)
  unfold number
  split
  · rename_i hdrop
    rw [hdrop] at hsplit
    exact Or.inl ⟨_, _, hsplit, rfl⟩
  · rename_i c rest hdrop
    rw [hdrop] at hsplit
    dsimp only
    split
    · rename_i hpoint
      subst hpoint
      have hback : _ = rest := List.takeWhile_append_dropWhile (p := Char.isDigit)
      have hliteral : cs.takeWhile Char.isDigit ++ '.' :: rest.takeWhile Char.isDigit ++
          rest.dropWhile Char.isDigit = cs := by
        rw [List.append_assoc, List.cons_append, hback, hsplit]
      split
      · rename_i hdrop'
        rw [hdrop'] at hliteral
        exact Or.inr (Or.inl ⟨_, _, _, hliteral, rfl⟩)
      · rename_i d tail hdrop'
        rw [hdrop'] at hliteral
        split
        · exact Or.inr (Or.inl ⟨_, _, _, hliteral, rfl⟩)
        · exact Or.inr (Or.inr ⟨_, _, _, _, hliteral, rfl⟩)
    · split
      · exact Or.inl ⟨_, _, hsplit, rfl⟩
      · exact Or.inr (Or.inr ⟨_, _, _, _, hsplit, rfl⟩)

theorem number_within (cs : List Char) :
    (number cs).Within cs := by
  rcases number_cases cs with
    ⟨literal, rest, hcs, hnumber⟩ | ⟨value, literal, rest, hcs, hnumber⟩ |
    ⟨pointed, literal, c, rest, hcs, hnumber⟩
  · rw [hnumber]
    exact wholeNumber_within hcs
  · rw [hnumber]
    exact hcs
  · rw [hnumber]
    exact malformed_within pointed hcs

/-- Each step stays in the text. -/
theorem step_within (c : Char) (cs : List Char) :
    (step c cs).Within (c :: cs) := by
  unfold step
  split
  · exact rfl
  · split
    · exact rfl
    · split
      · exact number_within (c :: cs)
      · split
        · rename_i before hword
          exact isPrefix_of_word_error hword
        · rename_i w hword
          have hsplit := word_append hword
          split
          · rename_i hempty
            have htext : w.text = [] := by simpa using hempty
            rwa [htext, List.nil_append] at hsplit
          · rwa [List.append_assoc] at hsplit

end Steps

end Scan

namespace Layout

open Scan

section Places

/-- A place in a text. -/
def IsPlace (file : String) (text : List Char) (pos : Position) : Prop :=
  ∃ before, before <+: text ∧ pos = place file before

/-- What the scanner gives stands at places in a text. -/
def PlacedIn (file : String) (text : List Char) :
    Except (Located LexFault) (List Token) → Prop
  | .ok ts => ∀ t ∈ ts, IsPlace file text t.pos
  | .error e => IsPlace file text e.pos

theorem PlacedIn.cons
    {file : String}
    {text : List Char}
    {result : Except (Located LexFault) (List Token)}
    {t : Token}
    (ht : IsPlace file text t.pos)
    (h : PlacedIn file text result) :
    PlacedIn file text (result.map (t :: ·)) := by
  cases result with
  | ok ts => exact List.forall_mem_cons.2 ⟨ht, h⟩
  | error e => exact h

/-- The scanner puts tokens and faults at places in the text. -/
theorem placedIn_tokens
    {text before cs : List Char}
    (file : String)
    (htext : before ++ cs = text) :
    PlacedIn file text (Scan.tokens ⟨cs, place file before⟩).1 := by
  -- what stands before the cursor and what is left always make up the text
  induction cs using scanInduction generalizing before with
  | nil =>
      rw [tokens_nil]
      intro t ht
      rw [List.mem_singleton.1 ht]
      exact ⟨before, htext ▸ List.prefix_append before [], rfl⟩
  | cons c cs ih =>
      have hwithin := step_within c cs
      rw [tokens_cons]
      cases hstep : step c cs with
      | skip gap rest =>
          rw [hstep] at ih hwithin
          have hsplit : gap ++ rest = c :: cs := hwithin
          dsimp only
          rw [after_place]
          exact ih (by rw [Step.rest, List.append_assoc, hsplit, htext])
      | token kind lexeme gap rest =>
          rw [hstep] at ih hwithin
          have hsplit : lexeme ++ (gap ++ rest) = c :: cs := hwithin
          dsimp only
          rw [after_place, after_place]
          refine PlacedIn.cons ⟨before, htext ▸ List.prefix_append before _, rfl⟩ (ih ?_)
          rw [Step.rest, List.append_assoc, List.append_assoc, hsplit, htext]
      | fault fore cause read rest =>
          rw [hstep] at hwithin
          have hprefix : fore <+: c :: cs := hwithin
          refine ⟨before ++ fore, ?_, after_place file before fore⟩
          rw [← htext]
          exact (List.prefix_append_right_inj before).2 hprefix

theorem placedIn_ofText (text file : String) :
    PlacedIn file text.toList (Token.ofText text file) :=
  placedIn_tokens file (List.nil_append text.toList)

end Places

end Layout

section Tokens

/-- A token of the text starts at the place, and not the `eof` behind them. -/
def StartsToken (text : String) (pos : Position) : Prop :=
  ∃ ts t, Token.ofText text pos.file = .ok ts ∧ t ∈ ts ∧ t.kind ≠ .eof ∧ t.pos = pos

variable {text file : String} {ts : List Token} {t : Token} {pos : Position}

theorem isPlace_of_mem
    (hts : Token.ofText text file = .ok ts)
    (ht : t ∈ ts) :
    Layout.IsPlace file text.toList t.pos := by
  have hplaced := Layout.placedIn_ofText text file
  rw [hts] at hplaced
  exact hplaced t ht

theorem startsToken_of_mem
    (hts : Token.ofText text file = .ok ts)
    (ht : t ∈ ts)
    (hkind : t.kind ≠ .eof) :
    t.pos.file = file ∧ StartsToken text t.pos := by
  obtain ⟨before, -, hpos⟩ := isPlace_of_mem hts ht
  have hfile : t.pos.file = file := by rw [hpos, Layout.place]
  exact ⟨hfile, ts, t, by rw [hfile, hts], ht, hkind, rfl⟩

theorem StartsToken.isPlace
    (h : StartsToken text pos) :
    Layout.IsPlace pos.file text.toList pos := by
  obtain ⟨ts, t, hts, ht, -, rfl⟩ := h
  exact isPlace_of_mem hts ht

end Tokens

section Nodes

/-- The node stands at a place of some sort, and so do the nodes in it.  The end of a program
may stand anywhere. -/
inductive Node.Placed (P : Position → Prop) : Node → Prop
  | command
      {pos : Position}
      {name : String}
      {params : List Param}
      {context : List Node}
      (hpos : P pos)
      (hcontext : ∀ n ∈ context, Node.Placed P n) :
      Node.Placed P (.command pos name params context)
  | phoneme
      {p : Phoneme}
      (hpos : P p.pos) :
      Node.Placed P (.phoneme p)
  | voice
      {v : Voice}
      (hpos : P v.pos) :
      Node.Placed P (.voice v)
  | stop
      {pos : Position} :
      Node.Placed P (.stop pos)

variable {P Q : Position → Prop} {n : Node}

theorem Node.Placed.pos
    (h : n.Placed P)
    (hstop : n.isStop = false) :
    P n.pos := by
  cases h with
  | command hpos _ => exact hpos
  | phoneme hpos => exact hpos
  | voice hpos => exact hpos
  | stop => cases hstop

theorem Node.Placed.imp
    (h : n.Placed P)
    (himp : ∀ pos, P pos → Q pos) :
    n.Placed Q := by
  induction h with
  | command hpos _ ih => exact .command (himp _ hpos) ih
  | phoneme hpos => exact .phoneme (himp _ hpos)
  | voice hpos => exact .voice (himp _ hpos)
  | stop => exact .stop

namespace Grammar

theorem start_of_mem
    {us : List Token}
    (hne : us ≠ [])
    (h : ∀ t ∈ us, P t.pos) :
    P (start us) := by
  cases us with
  | nil => exact absurd rfl hne
  | cons t us => exact h t List.mem_cons_self

mutual

/-- A derivation stands for a node that starts, as all nodes in it, where a token does. -/
theorem Item.node_placed
    (item : Item)
    {us : List Token}
    (hus : us.map Token.kind = item.yield)
    (h : ∀ t ∈ us, P t.pos) :
    (item.node us).Placed P := by
  have hstart : P (start us) := by
    obtain ⟨k, ks, hyield, -⟩ := item.yield_eq_cons
    refine start_of_mem ?_ h
    rintro rfl
    rw [hyield] at hus
    cases hus
  match item with
  | .command head =>
      rw [Item.node]
      exact .command hstart (by simp)
  | .block head items =>
      rw [Item.node]
      refine .command hstart (Item.nodes_placed items ?_ ?_)
      · rw [List.map_take, List.map_drop, hus, Item.yield]
        simp
      · intro t ht
        exact h t (List.mem_of_mem_drop (List.mem_of_mem_take ht))
  | .voice name body =>
      rw [Item.node]
      exact .voice hstart
  | .phoneme symbol chevrons =>
      rw [Item.node]
      exact .phoneme hstart

theorem Item.nodes_placed
    (items : List Item)
    {us : List Token}
    (hus : us.map Token.kind = Item.yields items)
    (h : ∀ t ∈ us, P t.pos) :
    ∀ n ∈ Item.nodes items us, n.Placed P := by
  match items with
  | [] => simp [Item.nodes]
  | item :: items =>
      rw [Item.nodes]
      refine List.forall_mem_cons.2 ⟨item.node_placed ?_ ?_, Item.nodes_placed items ?_ ?_⟩
      · rw [List.map_take, hus, Item.yields]
        simp
      · intro t ht
        exact h t (List.mem_of_mem_take ht)
      · rw [List.map_drop, hus, Item.yields]
        simp
      · intro t ht
        exact h t (List.mem_of_mem_drop ht)

end

end Grammar

/-- The nodes of a text stand where its tokens start. -/
theorem Node.placed_of_ofText
    {text file : String}
    {nodes : List Node}
    (h : Node.ofText text file = .ok nodes) :
    ∀ n ∈ nodes, n.Placed fun pos => pos.file = file ∧ StartsToken text pos := by
  obtain ⟨ts, hts, hnodes⟩ := Expansion.ofTokens_of_ofText h
  obtain ⟨items, hitems, rfl⟩ := Grammar.derivation_of_ofTokens hnodes
  intro n hn
  rcases List.mem_append.1 hn with hn | hn
  · refine Grammar.Item.nodes_placed items hitems.symm ?_ n hn
    intro t ht
    exact startsToken_of_mem hts (List.takeWhile_subset _ ht) (Grammar.content_eof_free ts t ht)
  · rw [List.mem_singleton.1 hn]
    exact .stop

end Nodes

section Faults

/-- A fault is reported in the text that its place names: at one of its code points or at its
end, with the line feeds before it counted and the code points behind the last of them.  A token
starts there, unless the fault is that the text has no tokens. -/
structure Diagnostic.PointsInto (text : String) (d : Diagnostic) : Prop where
  index_le : d.pos.index ≤ text.length
  line : d.pos.line = (text.toList.take d.pos.index).count '\n'
  column : d.pos.column =
    ((text.toList.take d.pos.index).reverse.takeWhile (· ≠ '\n')).length
  token : d.kind ≠ "LexError" → StartsToken text d.pos

theorem Diagnostic.pointsInto_of_isPlace
    {text : String}
    {d : Diagnostic}
    (h : Layout.IsPlace d.pos.file text.toList d.pos)
    (htoken : d.kind ≠ "LexError" → StartsToken text d.pos) :
    d.PointsInto text := by
  obtain ⟨before, hprefix, hpos⟩ := h
  have hbefore : text.toList.take d.pos.index = before := by
    rw [hpos]
    exact (List.prefix_iff_eq_take.1 hprefix).symm
  refine ⟨?_, ?_, ?_, htoken⟩
  · rw [hpos, ← String.length_toList]
    exact hprefix.length_le
  · rw [hbefore, hpos]
    rfl
  · rw [hbefore, hpos]
    rfl

theorem StartsToken.pointsInto
    {text : String}
    {d : Diagnostic}
    (h : StartsToken text d.pos) :
    d.PointsInto text :=
  Diagnostic.pointsInto_of_isPlace h.isPlace fun _ => h

/-- A text that cannot be read has a fault in the text. -/
theorem Diagnostic.pointsInto_of_ofText
    {text file : String}
    {d : Diagnostic}
    (h : Node.ofText text file = .error d) :
    d.pos.file = file ∧ d.PointsInto text := by
  unfold Node.ofText at h
  split at h
  · rename_i e he
    obtain rfl := Except.error.inj h
    have hplaced := Layout.placedIn_ofText text file
    rw [he] at hplaced
    have hfile : e.pos.file = file := by
      obtain ⟨before, -, hpos⟩ := hplaced
      rw [hpos, Layout.place]
    exact ⟨hfile, pointsInto_of_isPlace (hfile ▸ hplaced) fun hkind => absurd rfl hkind⟩
  · rename_i ts hts
    split at h
    · rename_i e he
      obtain rfl := Except.error.inj h
      obtain ⟨-, before, t, rest, rfl, hkind, hpos, -, -⟩ := Grammar.blamed_of_ofTokens he
      obtain ⟨hfile, htoken⟩ := startsToken_of_mem hts (t := t) (by simp) hkind
      rw [hpos] at hfile htoken
      exact ⟨hfile, htoken.pointsInto⟩
    · cases h

end Faults

end SpeechMarkup
