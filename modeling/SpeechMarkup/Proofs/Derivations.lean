import SpeechMarkup.Proofs.ReadParts

/-!
# Reading derivations

The reader accepts exactly the tokens that have a derivation, and builds its nodes.

* `reads` and `reads_all` read whole derivations, whatever is open around them.
* `Closes` says what has to stand between a point of a run and the end of the program,
  and `closes_of_items` that it stands there if the run ends well.
* `content` and `endPos` are the tokens of a program and the place where it ends.
* `ofTokens_iff_derivation` is the main result.
-/

namespace SpeechMarkup
namespace Grammar

open Parse

section Items

variable {stack : List Frame} {done body : List Node} {t : Token} {us vs more : List Token}

theorem items_phoneme
    {symbol : Symbol}
    {p : Phoneme}
    (hkind : t.kind = symbol.yield)
    (h : Parse.phoneme t.pos symbol.name us = .ok p more) :
    items stack done (t :: us) = items stack (.phoneme p :: done) more := by
  conv_lhs => rw [items.eq_def]
  cases symbol with
  | comma =>
      simp only [show t.kind = .comma from hkind]
      split <;> simp_all [Reading.ok, Symbol.name]
  | text s =>
      simp only [show t.kind = .str s from hkind]
      split <;> simp_all [Reading.ok, Symbol.name]

theorem nodes_cons_append
    {item : Item}
    {items : List Item}
    (hus : us.map Token.kind = item.yield) :
    Item.nodes (item :: items) (us ++ vs) = item.node us :: Item.nodes items vs := by
  have hlength : item.yield.length = us.length := by rw [← hus, List.length_map]
  rw [Item.nodes, hlength, List.take_left, List.drop_left]

theorem node_block
    {head : Head}
    {items : List Item}
    (more : List Token)
    (hus : (t :: us).map Token.kind = head.yield ++ [.leftBrace])
    (hvs : vs.map Token.kind = Item.yields items) :
    Item.node (.block head items) (t :: us ++ (vs ++ more)) =
      .command t.pos head.name head.params (Item.nodes items vs) := by
  have hopen : head.yield.length + 1 = (t :: us).length := by
    rw [← List.length_map Token.kind, hus]
    simp
  have hlength : (Item.yields items).length = vs.length := by rw [← hvs, List.length_map]
  rw [Item.node, hopen, List.drop_left, hlength, List.take_left]
  rfl

theorem ends_append
    (items : List Item)
    (hus : us.map Token.kind = Item.yields items)
    (hmore : Ends more) :
    Ends (us ++ more) := by
  cases items with
  | nil =>
      obtain rfl : us = [] := by simpa [Item.yields] using hus
      exact hmore
  | cons item items =>
      obtain ⟨k, ks, hyield, hbrace, hchevron, -⟩ := item.yield_eq_cons
      rw [Item.yields, hyield] at hus
      unfold Ends
      rw [peek_append hus]
      exact ⟨hbrace, hchevron⟩

mutual

/-- The tokens of a derivation are read as its node. -/
theorem reads
    (item : Item)
    {us more : List Token}
    (stack : List Frame)
    (done : List Node)
    (hus : us.map Token.kind = item.yield)
    (hmore : Ends more) :
    items stack done (us ++ more) = items stack (item.node us :: done) more := by
  match item with
  | .command head =>
      rw [Item.yield] at hus
      obtain ⟨t, vs, rfl, ht, -⟩ := map_kind_eq_cons hus
      have hread := bracket_reads more hus
      rw [accept_of_peek_ne hmore.1, Option.elim_none] at hread
      rw [Item.node]
      exact items_whole ht hread
  | .block head its =>
      rw [Item.yield] at hus
      obtain ⟨us₁, us₂, rfl, hus₁, hus₂⟩ := List.map_eq_append_iff.1 hus
      obtain ⟨brace, us₃, rfl, hbrace, hus₃⟩ := map_kind_eq_cons hus₂
      obtain ⟨us₄, us₅, rfl, hus₄, hus₅⟩ := List.map_eq_append_iff.1 hus₃
      obtain ⟨close, us₆, rfl, hclose, hus₆⟩ := map_kind_eq_cons hus₅
      obtain rfl : us₆ = [] := by simpa using hus₆
      obtain ⟨t, vs, rfl, ht, -⟩ := map_kind_eq_cons hus₁
      have hread := bracket_reads (brace :: (us₄ ++ close :: more)) hus₁
      rw [accept_of_kind hbrace, Option.elim_some] at hread
      have hends : Ends (close :: more) := by simp [Ends, peek, hclose]
      -- the bracket opens a frame, the items are read in it, and the brace closes it
      have hbody := reads_all its (⟨t.pos, head.name, head.params, done⟩ :: stack) [] hus₄ hends
      have hopen : (t :: (vs ++ [brace])).map Token.kind = head.yield ++ [.leftBrace] := by
        rw [← List.cons_append, List.map_append, hus₁, List.map_singleton, hbrace]
      have hnode := node_block [close] hopen hus₄
      have hsplit : t :: vs ++ brace :: (us₄ ++ [close]) =
          t :: (vs ++ [brace]) ++ (us₄ ++ [close]) := by simp
      calc items stack done (t :: vs ++ brace :: (us₄ ++ [close]) ++ more)
          = items stack done (t :: (vs ++ brace :: (us₄ ++ close :: more))) := by simp
        _ = items (⟨t.pos, head.name, head.params, done⟩ :: stack) []
              (us₄ ++ close :: more) := items_block ht hread
        _ = items stack
              (.command t.pos head.name head.params (Item.nodes its us₄) :: done) more := by
            rw [hbody, items_close hclose]
            simp
        _ = _ := by rw [hsplit, hnode]
  | .voice name body =>
      rw [Item.yield] at hus
      obtain ⟨t, vs, rfl, ht, -⟩ := map_kind_eq_cons hus
      rw [Item.node]
      exact items_whole ht (bracket_reads_voice hmore.1 hus)
  | .phoneme symbol chevrons =>
      rw [Item.yield] at hus
      obtain ⟨t, us₁, rfl, ht, hus₁⟩ := map_kind_eq_cons hus
      rw [Item.node]
      exact items_phoneme ht (phoneme_reads t.pos symbol.name hus₁ hmore.2)

theorem reads_all
    (its : List Item)
    {us more : List Token}
    (stack : List Frame)
    (done : List Node)
    (hus : us.map Token.kind = Item.yields its)
    (hmore : Ends more) :
    items stack done (us ++ more) =
      items stack ((Item.nodes its us).reverse ++ done) more := by
  match its with
  | [] =>
      obtain rfl : us = [] := by simpa [Item.yields] using hus
      simp [Item.nodes]
  | item :: its =>
      rw [Item.yields] at hus
      obtain ⟨us₁, us₂, rfl, hus₁, hus₂⟩ := List.map_eq_append_iff.1 hus
      have hends := ends_append its hus₂ hmore
      rw [List.append_assoc, reads item stack done hus₁ hends,
        reads_all its stack (item.node us₁ :: done) hus₂ hmore, nodes_cons_append hus₁]
      simp

end

end Items

section Runs

variable {stack : List Frame} {done body : List Node} {t : Token} {us vs : List Token}

/--
What stands between a point of a run and the end of the program, if the run ends
well: the rest of the innermost open block and its brace, and so on outwards, and
then the rest of the program.  `body` are the nodes of the whole program.
-/
inductive Closes : List Frame → List Node → List Token → List Node → Prop
  | program
      {done : List Node}
      {items : List Item}
      {us : List Token}
      (derived : us.map Token.kind = Item.yields items) :
      Closes [] done us (done.reverse ++ Item.nodes items us)
  | block
      {frame : Frame}
      {stack : List Frame}
      {done body : List Node}
      {items : List Item}
      {us vs : List Token}
      {t : Token}
      (derived : us.map Token.kind = Item.yields items)
      (brace : t.kind = .rightBrace)
      (outer : Closes stack
        (.command frame.pos frame.name frame.params (done.reverse ++ Item.nodes items us) ::
          frame.before) vs body) :
      Closes (frame :: stack) done (us ++ t :: vs) body

theorem Closes.cons
    {item : Item}
    (hus : us.map Token.kind = item.yield)
    (h : Closes stack (item.node us :: done) vs body) :
    Closes stack done (us ++ vs) body := by
  cases h with
  | @program _ items _ hvs =>
      have hderived : (us ++ vs).map Token.kind = Item.yields (item :: items) := by
        rw [List.map_append, hus, hvs, Item.yields]
      have hnodes : done.reverse ++ Item.nodes (item :: items) (us ++ vs) =
          (item.node us :: done).reverse ++ Item.nodes items vs := by
        rw [nodes_cons_append hus]
        simp
      rw [← hnodes]
      exact Closes.program hderived
  | @block frame stack _ _ items ws xs t hws hbrace houter =>
      have hderived : (us ++ ws).map Token.kind = Item.yields (item :: items) := by
        rw [List.map_append, hus, hws, Item.yields]
      rw [← List.append_assoc]
      refine Closes.block hderived hbrace ?_
      rw [nodes_cons_append hus]
      simpa using houter

theorem Closes.phoneme
    {symbol : Symbol}
    {chevrons : Option Chevrons}
    (hkind : t.kind = symbol.yield)
    (hus : us.map Token.kind = chevrons.elim [] Chevrons.yield)
    (h : Closes stack
      (.phoneme ⟨t.pos, symbol.name, lengthOf symbol.name chevrons,
        pitchOf symbol.name chevrons⟩ :: done) vs body) :
    Closes stack done (t :: us ++ vs) body := by
  have hyield : (t :: us).map Token.kind = (Item.phoneme symbol chevrons).yield := by
    rw [Item.yield, List.map_cons, hkind, hus]
  refine Closes.cons hyield ?_
  rw [Item.node]
  exact h

theorem Closes.enter
    {head : Head}
    (hus : (t :: us).map Token.kind = head.yield ++ [.leftBrace])
    (h : Closes (⟨t.pos, head.name, head.params, done⟩ :: stack) [] vs body) :
    Closes stack done (t :: us ++ vs) body := by
  cases h with
  | @block _ _ _ _ items ws xs close hws hclose houter =>
      have hnode := node_block [close] hus hws
      have hyield : (t :: us ++ (ws ++ [close])).map Token.kind =
          (Item.block head items).yield := by
        rw [List.map_append, hus, Item.yield]
        simp [hws, hclose]
      have hsplit : t :: us ++ (ws ++ close :: xs) = t :: us ++ (ws ++ [close]) ++ xs := by simp
      rw [hsplit]
      refine Closes.cons hyield ?_
      rw [hnode]
      exact houter

theorem Closes.nil (done : List Node) :
    Closes [] done [] done.reverse := by
  have hnil : [].map Token.kind = Item.yields [] := by rw [Item.yields, List.map_nil]
  have hcloses : Closes [] done [] (done.reverse ++ Item.nodes [] []) := Closes.program hnil
  rw [Item.nodes, List.append_nil] at hcloses
  exact hcloses

theorem Closes.leave
    {frame : Frame}
    (hkind : t.kind = .rightBrace)
    (h : Closes stack
      (.command frame.pos frame.name frame.params done.reverse :: frame.before) us body) :
    Closes (frame :: stack) done (t :: us) body := by
  have hnil : [].map Token.kind = Item.yields [] := by rw [Item.yields, List.map_nil]
  refine Closes.block hnil hkind ?_
  rw [Item.nodes, List.append_nil]
  exact h

/-- A run that ends well has read what it had to, up to the end of the program. -/
theorem closes_of_items
    {nodes : List Node}
    {ts : List Token}
    (h : (items stack done ts).result = .ok nodes) :
    ∃ us more body, ts = us ++ more ∧ peek more = .eof ∧ Closes stack done us body ∧
      nodes = body ++ [.stop (start more)] := by
  -- each step puts what it reads in front of what the rest of the run closes
  fun_induction items stack done ts with
  | case1 done =>
      obtain rfl := Except.ok.inj h
      exact ⟨[], [], done.reverse, rfl, rfl, Closes.nil done, rfl⟩
  | case2 => cases h
  | case3 done t ts hkind =>
      obtain rfl := Except.ok.inj h
      exact ⟨[], t :: ts, done.reverse, rfl, hkind, Closes.nil done, rfl⟩
  | case4 => cases h
  | case5 => cases h
  | case6 stack done t ts hkind node rest hread ih =>
      obtain ⟨us, rfl, item, hus, rfl⟩ := bracket_derived hkind hread
      obtain ⟨vs, more, body, rfl, hmore, hcloses, rfl⟩ := ih h
      exact ⟨t :: us ++ vs, more, body, by simp, hmore, hcloses.cons hus, rfl⟩
  | case7 stack done t ts hkind name ps rest hread ih =>
      obtain ⟨us, rfl, head, hus, rfl, rfl⟩ := bracket_derived hkind hread
      obtain ⟨vs, more, body, rfl, hmore, hcloses, rfl⟩ := ih h
      exact ⟨t :: us ++ vs, more, body, by simp, hmore, hcloses.enter hus, rfl⟩
  | case8 => cases h
  | case9 stack done t ts symbol hkind p rest hread ih =>
      obtain ⟨chevrons, us, rfl, hus, rfl⟩ := phoneme_derived hread
      obtain ⟨vs, more, body, rfl, hmore, hcloses, rfl⟩ := ih h
      have hsymbol : t.kind = Symbol.yield (.text symbol) := hkind
      exact ⟨t :: us ++ vs, more, body, by simp, hmore, hcloses.phoneme hsymbol hus, rfl⟩
  | case10 => cases h
  | case11 stack done t ts hkind p rest hread ih =>
      obtain ⟨chevrons, us, rfl, hus, rfl⟩ := phoneme_derived hread
      obtain ⟨vs, more, body, rfl, hmore, hcloses, rfl⟩ := ih h
      have hsymbol : t.kind = Symbol.yield .comma := hkind
      exact ⟨t :: us ++ vs, more, body, by simp, hmore, hcloses.phoneme hsymbol hus, rfl⟩
  | case12 => cases h
  | case13 done t ts hkind frame stack ih =>
      simp only [List.unattach_reverse, List.unattach_attach] at ih
      obtain ⟨vs, more, body, rfl, hmore, hcloses, rfl⟩ := ih h
      exact ⟨t :: vs, more, body, rfl, hmore, hcloses.leave hkind, rfl⟩
  | case14 => cases h
  | case15 => cases h

theorem Closes.eof_free
    (h : Closes stack done us body) :
    ∀ t ∈ us, t.kind ≠ .eof := by
  have hyields : ∀ {us : List Token} {items : List Item},
      us.map Token.kind = Item.yields items → ∀ t ∈ us, t.kind ≠ .eof := by
    intro us items hus t ht heof
    have hmem : .eof ∈ us.map Token.kind := List.mem_map.2 ⟨t, ht, heof⟩
    exact Item.eof_notMem_yields items (hus ▸ hmem)
  induction h with
  | program hus => exact hyields hus
  | block hus hbrace _ ih =>
      intro t ht
      rcases List.mem_append.1 ht with ht | ht
      · exact hyields hus t ht
      · rcases List.mem_cons.1 ht with rfl | ht
        · simp [hbrace]
        · exact ih t ht

end Runs

section Programs

/-- The tokens before the end of the program. -/
def content (ts : List Token) : List Token :=
  ts.takeWhile fun t => t.kind ≠ .eof

/-- Where the program ends: at its first `eof`, or at its last token if it has none. -/
def endPos (ts : List Token) : Position :=
  ((ts.find? fun t => t.kind = .eof).map Token.pos).getD (lastPos ts)

theorem content_eof_free (ts : List Token) :
    ∀ t ∈ content ts, t.kind ≠ .eof := by
  intro t ht
  simpa using List.all_eq_true.1 List.all_takeWhile t ht

theorem content_append
    {us more : List Token}
    (hus : ∀ t ∈ us, t.kind ≠ .eof)
    (hmore : peek more = .eof) :
    content (us ++ more) = us := by
  have hnil : content more = [] := by
    cases more with
    | nil => rfl
    | cons t more => simp [content, show t.kind = .eof from hmore]
  unfold content at hnil ⊢
  rw [List.takeWhile_append_of_pos (by simpa using hus), hnil, List.append_nil]

theorem closed_of_eof_free
    {ts : List Token}
    (h : ∀ t ∈ ts, t.kind ≠ .eof) :
    closed ts = ts ++ [⟨.eof, lastPos ts⟩] := by
  unfold closed
  split
  · rename_i hlast
    exact absurd rfl (h _ (List.mem_of_getLast? hlast))
  · rfl

theorem exists_closed_eq (ts : List Token) :
    ∃ extra, closed ts = ts ++ extra := by
  unfold closed
  split
  · exact ⟨[], by simp⟩
  · exact ⟨_, rfl⟩

theorem closed_eq_content (ts : List Token) :
    ∃ e rest, closed ts = content ts ++ e :: rest ∧ e.kind = .eof ∧ e.pos = endPos ts := by
  unfold endPos
  cases hfind : ts.find? fun t => t.kind = .eof with
  | none =>
      have hfree : ∀ t ∈ ts, t.kind ≠ .eof := by simpa using hfind
      have hcontent : content (ts ++ []) = ts := content_append hfree rfl
      rw [List.append_nil] at hcontent
      exact ⟨⟨.eof, lastPos ts⟩, [], by rw [hcontent, closed_of_eof_free hfree], rfl, rfl⟩
  | some e =>
      obtain ⟨he, us, vs, rfl, hus⟩ := List.find?_eq_some_iff_append.1 hfind
      have hkind : e.kind = .eof := by simpa using he
      have hcontent : content (us ++ e :: vs) = us :=
        content_append (by simpa using hus) hkind
      obtain ⟨extra, hextra⟩ := exists_closed_eq (us ++ e :: vs)
      exact ⟨e, vs ++ extra, by rw [hextra, hcontent]; simp, hkind, rfl⟩

theorem derivation_of_ofTokens
    {ts : List Token}
    {nodes : List Node}
    (h : Node.ofTokens ts = .ok nodes) :
    ∃ items, Item.yields items = (content ts).map Token.kind ∧
      nodes = Item.nodes items (content ts) ++ [.stop (endPos ts)] := by
  obtain ⟨e, rest, hclosed, hkind, hpos⟩ := closed_eq_content ts
  unfold Node.ofTokens program at h
  rw [hclosed] at h
  obtain ⟨us, more, body, hsplit, hmore, hcloses, rfl⟩ := closes_of_items h
  have hhead : ∀ t ∈ more.head?, t.kind = .eof := by
    cases more <;> simp_all [peek]
  obtain ⟨rfl, rfl⟩ := append_inj_of_cut (·.kind = .eof) (content_eof_free ts)
    hcloses.eof_free (by simp [hkind]) hhead hsplit
  cases hcloses with
  | @program _ items _ hus => exact ⟨items, hus.symm, by simp [start, hpos]⟩

theorem ofTokens_of_derivation
    {ts : List Token}
    {items : List Item}
    (h : Item.yields items = (content ts).map Token.kind) :
    Node.ofTokens ts = .ok (Item.nodes items (content ts) ++ [.stop (endPos ts)]) := by
  obtain ⟨e, rest, hclosed, hkind, hpos⟩ := closed_eq_content ts
  have hends : Ends (e :: rest) := by simp [Ends, peek, hkind]
  unfold Node.ofTokens program
  rw [hclosed, reads_all items [] [] h.symm hends, items_eof hkind, hpos]
  simp [Reading.ok]

/-- The reader accepts the tokens that have a derivation, and no others.  There is only
one derivation, and what is read are its nodes and an end marker. -/
theorem ofTokens_iff_derivation (ts : List Token) :
    (∀ nodes, Node.ofTokens ts = .ok nodes ↔
      ∃ items, Item.yields items = (content ts).map Token.kind ∧
        nodes = Item.nodes items (content ts) ++ [.stop (endPos ts)]) ∧
    ∀ items items', Item.yields items = (content ts).map Token.kind →
      Item.yields items' = (content ts).map Token.kind → items = items' := by
  constructor
  · intro nodes
    constructor
    · exact derivation_of_ofTokens
    · rintro ⟨items, hyields, rfl⟩
      exact ofTokens_of_derivation hyields
  · intro items items' h h'
    exact Item.yields_injective (h.trans h'.symm)

end Programs

end Grammar
end SpeechMarkup
