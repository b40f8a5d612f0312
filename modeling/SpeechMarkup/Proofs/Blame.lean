import SpeechMarkup.Proofs.Derivations

/-!
# Where a syntax fault is reported

A fault is reported at the first token of the innermost construct that cannot be read.  What
stands before that token is well formed as far as it goes, and has no part in the report.

* `Unclosed` are the beginnings of programs, with the number of blocks that are open at their
  end.
* `Passed` says of tokens that they were read as items, and `Trace` of all tokens before a
  point of a run how they were read: every frame of the stack has its bracket among them.
* `exists_blamed`: a run that fails from a point with a trace fails in the same way from the
  token that it blames.
* `syntaxFault_innermost` is the main result.
-/

namespace SpeechMarkup
namespace Grammar

open Parse

section Beginnings

/-- Tokens at whose end `depth` blocks are open: items, then the bracket of a command and its
opening brace, then items again, and so on. -/
inductive Unclosed : Nat → List Token.Kind → Prop
  | program
      (items : List Item) :
      Unclosed 0 (Item.yields items)
  | block
      {depth : Nat}
      {ks : List Token.Kind}
      (h : Unclosed depth ks)
      (head : Head)
      (items : List Item) :
      Unclosed (depth + 1) (ks ++ (head.yield ++ .leftBrace :: Item.yields items))

variable {depth : Nat} {ks : List Token.Kind} {us vs more : List Token} {t : Token}

theorem Unclosed.eof_notMem
    (h : Unclosed depth ks) :
    .eof ∉ ks := by
  induction h with
  | program items => exact Item.eof_notMem_yields items
  | block _ head items ih => simp [ih, eof_notMem_head head, Item.eof_notMem_yields items]

/-- The bracket of a command and its opening brace open a frame. -/
theorem items_open
    {head : Head}
    {stack : List Frame}
    {done : List Node}
    (hopen : (t :: us).map Token.kind = head.yield ++ [.leftBrace])
    (more : List Token) :
    items stack done (t :: (us ++ more)) =
      items (⟨t.pos, head.name, head.params, done⟩ :: stack) [] more := by
  obtain ⟨vs, ws, hsplit, hvs, hws⟩ := List.map_eq_append_iff.1 hopen
  obtain ⟨brace, xs, rfl, hbrace, hxs⟩ := map_kind_eq_cons hws
  obtain rfl : xs = [] := by simpa using hxs
  obtain ⟨t', vs', rfl, ht, -⟩ := map_kind_eq_cons hvs
  obtain ⟨rfl, hus⟩ := List.cons.inj (hsplit.trans (List.cons_append ..))
  subst hus
  have hread := bracket_reads (brace :: more) hvs
  rw [accept_of_kind hbrace, Option.elim_some] at hread
  rw [List.append_assoc]
  exact items_block ht hread

theorem Unclosed.exists_stack
    (h : Unclosed depth ks)
    (hus : us.map Token.kind = ks)
    (hmore : Ends more) :
    ∃ stack done, stack.length = depth ∧ items [] [] (us ++ more) = items stack done more := by
  induction h generalizing us more with
  | program its => exact ⟨[], _, rfl, reads_all its [] [] hus hmore⟩
  | @block depth ks _ head its ih =>
      obtain ⟨us₁, us₂, rfl, hus₁, hus₂⟩ := List.map_eq_append_iff.1 hus
      have hopen : head.yield ++ .leftBrace :: Item.yields its =
          head.yield ++ [.leftBrace] ++ Item.yields its := by simp
      rw [hopen] at hus₂
      obtain ⟨us₃, us₄, rfl, hus₃, hus₄⟩ := List.map_eq_append_iff.1 hus₂
      obtain ⟨t, us₅, rfl, ht, hus₅⟩ := map_kind_eq_cons hus₃
      have hends : Ends (t :: us₅ ++ us₄ ++ more) := by simp [Ends, peek, ht]
      obtain ⟨stack, done, hlength, hread⟩ := ih hus₁ hends
      refine ⟨⟨t.pos, head.name, head.params, done⟩ :: stack, (Item.nodes its us₄).reverse ++ [],
        by simp [hlength], ?_⟩
      calc items [] [] (us₁ ++ (t :: us₅ ++ us₄) ++ more)
          = items [] [] (us₁ ++ (t :: us₅ ++ us₄ ++ more)) := by simp
        _ = items stack done (t :: (us₅ ++ (us₄ ++ more))) := by rw [hread]; simp
        _ = items (⟨t.pos, head.name, head.params, done⟩ :: stack) [] (us₄ ++ more) :=
            items_open hus₃ (us₄ ++ more)
        _ = _ := reads_all its _ [] hus₄ hmore

/-- Behind as many closing braces as there are frames the program ends, and behind no other
number of them. -/
theorem items_braces
    {braces rest : List Token}
    {e : Token}
    (hbraces : ∀ b ∈ braces, b.kind = .rightBrace)
    (he : e.kind = .eof)
    (stack : List Frame)
    (done : List Node) :
    (∃ nodes, (items stack done (braces ++ e :: rest)).result = .ok nodes) ↔
      braces.length = stack.length := by
  induction braces generalizing stack done with
  | nil =>
      cases stack with
      | nil => simp [items_eof he, Reading.ok]
      | cons frame stack =>
          rw [items.eq_def]
          simp [he, Reading.fail]
  | cons b braces ih =>
      obtain ⟨hb, hbraces⟩ := List.forall_mem_cons.1 hbraces
      cases stack with
      | nil =>
          rw [items.eq_def]
          simp [hb, Reading.fail]
      | cons frame stack =>
          rw [List.cons_append, items_close hb, ih hbraces]
          simp

/-- The beginning of a program is completed by as many closing braces as there are blocks
open. -/
theorem Unclosed.ofTokens_iff
    (h : Unclosed depth (us.map Token.kind))
    {braces : List Token}
    (hbraces : ∀ b ∈ braces, b.kind = .rightBrace) :
    (∃ nodes, Node.ofTokens (us ++ braces) = .ok nodes) ↔ braces.length = depth := by
  have hfree : ∀ t ∈ us ++ braces, t.kind ≠ .eof := by
    intro t ht heof
    rcases List.mem_append.1 ht with ht | ht
    · exact h.eof_notMem (heof ▸ List.mem_map_of_mem ht)
    · rw [hbraces t ht] at heof
      cases heof
  have hends : Ends (braces ++ [⟨.eof, lastPos (us ++ braces)⟩]) := by
    cases braces with
    | nil => simp [Ends, peek]
    | cons b braces => simp [Ends, peek, hbraces b (by simp)]
  obtain ⟨stack, done, rfl, hread⟩ := h.exists_stack rfl hends
  rw [Node.ofTokens, Parse.program, closed_of_eof_free hfree, List.append_assoc, hread]
  exact items_braces hbraces rfl stack done

end Beginnings

section Traces

variable {stack : List Frame} {frame : Frame} {done : List Node}
variable {us vs more : List Token} {t : Token}

/-- The tokens `us` are read as items, whatever is open around them, if `more` follows. -/
structure Passed (us more : List Token) : Prop where
  derived : ∃ its, us.map Token.kind = Item.yields its
  read : ∃ nodes, ∀ stack done,
    items stack done (us ++ more) = items stack (nodes ++ done) more

/-- How the tokens `us` before a point of a run were read.  Each frame was opened by a bracket
among them, behind which items were read. -/
inductive Trace : List Frame → List Token → List Token → Prop
  | program
      {us more : List Token}
      (h : Passed us more) :
      Trace [] us more
  | block
      {frame : Frame}
      {stack : List Frame}
      {us vs ws more : List Token}
      {t : Token}
      {head : Head}
      (outer : Trace stack us (t :: vs ++ ws ++ more))
      (hpos : t.pos = frame.pos)
      (hopen : (t :: vs).map Token.kind = head.yield ++ [.leftBrace])
      (h : Passed ws more) :
      Trace (frame :: stack) (us ++ (t :: vs ++ ws)) more

theorem Passed.nil (more : List Token) : Passed [] more :=
  ⟨⟨[], by rw [Item.yields, List.map_nil]⟩, [], fun _ _ => rfl⟩

theorem Passed.append
    (hus : Passed us (vs ++ more))
    (hvs : Passed vs more) :
    Passed (us ++ vs) more := by
  obtain ⟨its, hits⟩ := hus.derived
  obtain ⟨its', hits'⟩ := hvs.derived
  obtain ⟨nodes, hread⟩ := hus.read
  obtain ⟨nodes', hread'⟩ := hvs.read
  refine ⟨⟨its ++ its', ?_⟩, nodes' ++ nodes, ?_⟩
  · rw [List.map_append, hits, hits', Item.yields_append]
  · intro stack done
    rw [List.append_assoc, hread, hread', List.append_assoc]

theorem Passed.item
    {item : Item}
    {node : Node}
    (hus : us.map Token.kind = item.yield)
    (hread : ∀ stack done, items stack done (us ++ more) = items stack (node :: done) more) :
    Passed us more :=
  ⟨⟨[item], by rw [hus, Item.yields, Item.yields, List.append_nil]⟩, [node], hread⟩

theorem Passed.phoneme
    {symbol : Symbol}
    {p : Phoneme}
    (hkind : t.kind = symbol.yield)
    (h : Parse.phoneme t.pos symbol.name us = .ok p more) :
    ∃ vs, us = vs ++ more ∧ Passed (t :: vs) more := by
  obtain ⟨chevrons, vs, rfl, hvs, rfl⟩ := phoneme_derived h
  have hyield : (t :: vs).map Token.kind = (Item.phoneme symbol chevrons).yield := by
    rw [Item.yield, List.map_cons, hkind, hvs]
  exact ⟨vs, rfl, Passed.item hyield fun _ _ => items_phoneme hkind h⟩

/-- A block that is read to its end is an item. -/
theorem Passed.block
    {head : Head}
    {close : Token}
    (hopen : (t :: us).map Token.kind = head.yield ++ [.leftBrace])
    (hclose : close.kind = .rightBrace)
    (h : Passed vs (close :: more)) :
    Passed (t :: us ++ vs ++ [close]) more := by
  obtain ⟨its, hits⟩ := h.derived
  obtain ⟨nodes, hread⟩ := h.read
  have hyield : (t :: us ++ vs ++ [close]).map Token.kind = (Item.block head its).yield := by
    rw [List.map_append, List.map_append, hopen, hits, Item.yield]
    simp [hclose]
  have hblock : ∀ stack done, items stack done (t :: us ++ vs ++ [close] ++ more) =
      items stack (.command t.pos head.name head.params nodes.reverse :: done) more := by
    intro stack done
    calc items stack done (t :: us ++ vs ++ [close] ++ more)
        = items stack done (t :: (us ++ (vs ++ close :: more))) := by simp
      _ = items (⟨t.pos, head.name, head.params, done⟩ :: stack) [] (vs ++ close :: more) :=
          items_open hopen (vs ++ close :: more)
      _ = _ := by rw [hread, items_close hclose, List.append_nil]
  exact Passed.item hyield hblock

theorem Trace.pass
    (h : Trace stack us (vs ++ more))
    (hvs : Passed vs more) :
    Trace stack (us ++ vs) more := by
  cases h with
  | program hus => exact .program (hus.append hvs)
  | @block frame stack us₁ us₂ ws _ t head outer hpos hopen hws =>
      have hsplit : us₁ ++ (t :: us₂ ++ ws) ++ vs = us₁ ++ (t :: us₂ ++ (ws ++ vs)) := by simp
      rw [hsplit]
      refine .block ?_ hpos hopen (hws.append hvs)
      rw [List.append_assoc] at outer ⊢
      rwa [List.append_assoc]

theorem Trace.enter
    {head : Head}
    (h : Trace stack us (t :: vs ++ more))
    (hpos : t.pos = frame.pos)
    (hopen : (t :: vs).map Token.kind = head.yield ++ [.leftBrace]) :
    Trace (frame :: stack) (us ++ (t :: vs)) more := by
  rw [← List.append_nil (t :: vs)]
  exact .block (by rwa [List.append_nil]) hpos hopen (.nil more)

theorem Trace.leave
    (h : Trace (frame :: stack) us (t :: more))
    (hkind : t.kind = .rightBrace) :
    Trace stack (us ++ [t]) more := by
  cases h with
  | @block _ _ us₁ us₂ ws _ t' head outer hpos hopen hws =>
      have hpassed := Passed.block hopen hkind hws
      have hsplit : us₁ ++ (t' :: us₂ ++ ws) ++ [t] = us₁ ++ (t' :: us₂ ++ ws ++ [t]) := by simp
      rw [hsplit]
      exact Trace.pass (by simpa using outer) hpassed

theorem Trace.unclosed
    (h : Trace stack us more) :
    Unclosed stack.length (us.map Token.kind) := by
  induction h with
  | program hus =>
      obtain ⟨its, hits⟩ := hus.derived
      rw [hits]
      exact .program its
  | @block frame stack us vs ws more t head _ _ hopen hws ih =>
      obtain ⟨its, hits⟩ := hws.derived
      have hsplit : (t :: vs ++ ws).map Token.kind =
          head.yield ++ .leftBrace :: Item.yields its := by
        rw [List.map_append, hopen, hits]
        simp
      rw [List.map_append, hsplit]
      exact ih.block head its

end Traces

section Blame

variable {stack : List Frame} {frame : Frame} {done : List Node}
variable {us ts rest : List Token} {t : Token} {pos : Position} {e : Located SyntaxFault}

/-- A reading that fails, fails at the given place. -/
def FailsAt {α : Type} (pos : Position) (r : Reading α) : Prop :=
  ∀ e, r.result = .error e → e.pos = pos

theorem FailsAt.ok {α : Type} {a : α} :
    FailsAt pos (.ok a rest) := by
  intro e h
  cases h

theorem FailsAt.fail {α : Type} {cause : SyntaxFault} :
    FailsAt pos (.fail pos cause rest : Reading α) := by
  intro e h
  obtain rfl := Except.error.inj h
  rfl

theorem FailsAt.map
    {α β : Type}
    {r : Reading α}
    (h : FailsAt pos r)
    (f : α → β) :
    FailsAt pos (r.map f) := by
  intro e he
  cases hr : r.result with
  | error e' =>
      rw [Reading.map, hr] at he
      obtain rfl := Except.error.inj he
      exact h _ hr
  | ok a =>
      rw [Reading.map, hr] at he
      cases he

theorem FailsAt.bind
    {α β : Type}
    {r : Reading α}
    {f : α → List Token → Reading β}
    (h : FailsAt pos r)
    (hf : ∀ a rest, FailsAt pos (f a rest)) :
    FailsAt pos (r.bind f) := by
  intro e he
  cases hr : r.result with
  | error e' =>
      rw [Reading.bind, hr] at he
      obtain rfl := Except.error.inj he
      exact h _ hr
  | ok a =>
      rw [Reading.bind, hr] at he
      exact hf a r.rest e he

theorem params_failsAt (name : String) (ts : List Token) :
    FailsAt pos (params pos name ts) := by
  fun_induction params pos name ts with
  | case1 => exact .fail
  | case2 => exact .ok
  | case3 _ _ _ _ ih => exact ih.map _
  | case4 _ _ _ _ ih => exact ih.map _
  | case5 _ _ _ _ ih => exact ih.map _
  | case6 => exact .fail
  | case7 => exact .fail

theorem voicePairs_failsAt (name : String) (settings : VoiceSettings) (ts : List Token) :
    FailsAt pos (voicePairs pos name settings ts) := by
  fun_induction voicePairs pos name settings ts with
  | case2 => exact .ok
  | case7 _ _ _ _ _ _ _ _ _ _ _ ih => exact ih
  | case8 _ _ _ _ _ _ _ _ _ _ _ ih => exact ih
  | _ => exact .fail

theorem voice_failsAt (ts : List Token) :
    FailsAt pos (Parse.voice pos ts) := by
  unfold Parse.voice
  split
  · split
    · exact .fail
    · split
      · exact .ok
      · split
        · exact .fail
        · exact (voicePairs_failsAt _ _ _).map _
  · exact .fail

theorem phoneme_failsAt (symbol : String) (ts : List Token) :
    FailsAt pos (Parse.phoneme pos symbol ts) := by
  unfold Parse.phoneme
  split
  · exact .ok
  · dsimp only
    split
    · exact .ok
    · exact .fail

/-- What an opening bracket starts fails at the bracket, unless it is in its block. -/
theorem bracket_failsAt (ts : List Token) :
    FailsAt pos (bracket pos ts) := by
  unfold bracket
  split
  · split
    · exact .fail
    · split
      · exact (voice_failsAt _).map _
      · refine (params_failsAt _ _).bind ?_
        intro ps rest
        split
        · exact .ok
        · exact .ok
  · exact .fail

/-- The fault `e` lies at a token of `ts` up to which a run has a trace, and is found again
when reading starts with that token. -/
def Blames (ts : List Token) (e : Located SyntaxFault) : Prop :=
  ∃ stack before t after, ts = before ++ t :: after ∧ Trace stack before (t :: after) ∧
    t.pos = e.pos ∧ (items [] [] (t :: after)).result = .error e

/-- A fault that does not depend on what is open, at the token where it is found. -/
theorem Blames.token
    (h : Trace stack us (t :: ts))
    (hpos : t.pos = e.pos)
    (hread : (items [] [] (t :: ts)).result = .error e) :
    Blames (us ++ t :: ts) e :=
  ⟨stack, us, t, ts, rfl, h, hpos, hread⟩

/-- A bracket that cannot be read is to blame itself. -/
theorem Blames.command
    (h : Trace stack us (t :: ts))
    (hkind : t.kind = .leftBracket)
    (hread : Parse.bracket t.pos ts = ⟨.error e, rest⟩) :
    Blames (us ++ t :: ts) e := by
  have hpos : e.pos = t.pos := bracket_failsAt ts e (by rw [hread])
  refine Blames.token h hpos.symm ?_
  rw [items.eq_def]
  simp only [hkind]
  split <;> simp_all

/-- A symbol is to blame for what stands between its chevrons. -/
theorem Blames.phoneme
    {symbol : Symbol}
    (h : Trace stack us (t :: ts))
    (hkind : t.kind = symbol.yield)
    (hread : Parse.phoneme t.pos symbol.name ts = ⟨.error e, rest⟩) :
    Blames (us ++ t :: ts) e := by
  have hpos : e.pos = t.pos := phoneme_failsAt symbol.name ts e (by rw [hread])
  refine Blames.token h hpos.symm ?_
  rw [items.eq_def]
  cases symbol with
  | comma =>
      simp only [show t.kind = .comma from hkind]
      split <;> simp_all [Symbol.name]
  | text s =>
      simp only [show t.kind = .str s from hkind]
      split <;> simp_all [Symbol.name]

/-- A fault in a block, at the bracket that opened it. -/
theorem Blames.bracket
    {cause : SyntaxFault}
    (h : Trace (frame :: stack) us ts)
    (hread : ∀ inner stack done,
      (items (inner :: stack) done ts).result = .error ⟨inner.pos, cause⟩) :
    Blames (us ++ ts) ⟨frame.pos, cause⟩ := by
  cases h with
  | @block _ _ us₁ us₂ ws _ t head outer hpos hopen hws =>
      obtain ⟨nodes, hpassed⟩ := hws.read
      refine ⟨stack, us₁, t, us₂ ++ ws ++ ts, by simp, outer, hpos, ?_⟩
      rw [List.append_assoc, items_open hopen, hpassed, hread, ← hpos]

/-- A run that fails from a point with a trace blames a token before or at that point. -/
theorem exists_blamed
    (h : (items stack done ts).result = .error e)
    (htrace : Trace stack us ts) :
    Blames (us ++ ts) e := by
  -- what a step reads moves to the trace
  fun_induction items stack done ts generalizing us with
  | case1 => cases h
  | case2 done frame stack =>
      obtain rfl := Except.error.inj h
      refine Blames.bracket htrace ?_
      intro inner stack done
      rw [items.eq_def]
      rfl
  | case3 => cases h
  | case4 done t ts hkind frame stack =>
      obtain rfl := Except.error.inj h
      refine Blames.bracket htrace ?_
      intro inner stack done
      rw [items.eq_def]
      simp only [hkind]
      rfl
  | case5 stack done t ts hkind e' rest hread =>
      obtain rfl := Except.error.inj h
      exact Blames.command htrace hkind hread
  | case6 stack done t ts hkind node rest hread ih =>
      obtain ⟨vs, rfl, item, hvs, rfl⟩ := bracket_derived hkind hread
      have hpassed : Passed (t :: vs) rest := Passed.item hvs fun _ _ => items_whole hkind hread
      have hblames := ih h (htrace.pass hpassed)
      simpa using hblames
  | case7 stack done t ts hkind name ps rest hread ih =>
      obtain ⟨vs, rfl, head, hvs, rfl, rfl⟩ := bracket_derived hkind hread
      have hblames := ih h (htrace.enter rfl hvs)
      simpa using hblames
  | case8 stack done t ts symbol hkind e' rest hread =>
      have hsymbol : t.kind = Symbol.yield (.text symbol) := hkind
      obtain rfl := Except.error.inj h
      exact Blames.phoneme htrace hsymbol hread
  | case9 stack done t ts symbol hkind p rest hread ih =>
      have hsymbol : t.kind = Symbol.yield (.text symbol) := hkind
      obtain ⟨vs, rfl, hpassed⟩ := Passed.phoneme hsymbol hread
      have hblames := ih h (htrace.pass hpassed)
      simpa using hblames
  | case10 stack done t ts hkind e' rest hread =>
      have hsymbol : t.kind = Symbol.yield .comma := hkind
      obtain rfl := Except.error.inj h
      exact Blames.phoneme htrace hsymbol hread
  | case11 stack done t ts hkind p rest hread ih =>
      have hsymbol : t.kind = Symbol.yield .comma := hkind
      obtain ⟨vs, rfl, hpassed⟩ := Passed.phoneme hsymbol hread
      have hblames := ih h (htrace.pass hpassed)
      simpa using hblames
  | case12 done t ts hkind =>
      obtain rfl := Except.error.inj h
      refine Blames.token htrace rfl ?_
      rw [items.eq_def]
      simp only [hkind]
      rfl
  | case13 done t ts hkind frame stack ih =>
      simp only [List.unattach_reverse, List.unattach_attach] at ih
      have hblames := ih h (htrace.leave hkind)
      simpa using hblames
  | case14 done t ts =>
      obtain rfl := Except.error.inj h
      refine Blames.token htrace rfl ?_
      rw [items.eq_def]
      split <;> simp_all [Reading.fail]
  | case15 done t ts frame stack =>
      obtain rfl := Except.error.inj h
      refine Blames.bracket htrace ?_
      intro inner stack done
      rw [items.eq_def]
      split <;> simp_all [Reading.fail]

end Blame

section Programs

theorem closed_append_cons
    (us : List Token)
    (t : Token)
    (ts : List Token) :
    closed (us ++ t :: ts) = us ++ closed (t :: ts) := by
  have hlast : (us ++ t :: ts).getLast? = (t :: ts).getLast? := by
    rw [List.getLast?_append_cons]
  unfold closed lastPos
  rw [hlast]
  split <;> simp

/-- What `closed` adds is read as an end. -/
theorem exists_split_of_closed
    {ts before after : List Token}
    {t : Token}
    (h : closed ts = before ++ t :: after)
    (ht : t.kind ≠ .eof) :
    ∃ rest, ts = before ++ t :: rest ∧ closed (t :: rest) = t :: after := by
  obtain ⟨extra, hextra, heof⟩ : ∃ extra, closed ts = ts ++ extra ∧ ∀ x ∈ extra, x.kind = .eof := by
    unfold closed
    split
    · exact ⟨[], by simp, by simp⟩
    · exact ⟨_, rfl, by simp⟩
  have hmem : t ∉ extra := fun hmem => ht (heof t hmem)
  rw [hextra] at h
  rcases List.append_eq_append_iff.1 h with ⟨us, rfl, rfl⟩ | ⟨us, rfl, hus⟩
  · exact absurd (by simp) hmem
  · cases us with
    | nil =>
        obtain rfl : t :: after = extra := hus
        exact absurd List.mem_cons_self hmem
    | cons u us =>
        obtain ⟨rfl, hafter⟩ := List.cons.inj hus
        rw [closed_append_cons] at hextra
        refine ⟨us, rfl, ?_⟩
        have hcancel := hextra.trans (List.append_assoc ..)
        rw [List.append_cancel_left hcancel, hus]

theorem blamed_of_ofTokens
    {ts : List Token}
    {e : Located SyntaxFault}
    (h : Node.ofTokens ts = .error e) :
    ∃ depth before t rest, ts = before ++ t :: rest ∧ t.kind ≠ .eof ∧ t.pos = e.pos ∧
      Unclosed depth (before.map Token.kind) ∧ Node.ofTokens (t :: rest) = .error e := by
  obtain ⟨stack, before, t, after, hsplit, htrace, hpos, hread⟩ :=
    exists_blamed h (.program (.nil (closed ts)))
  have hkind : t.kind ≠ .eof := by
    intro heof
    rw [items_eof heof] at hread
    cases hread
  obtain ⟨rest, rfl, hclosed⟩ := exists_split_of_closed hsplit hkind
  refine ⟨stack.length, before, t, rest, rfl, hkind, hpos, htrace.unclosed, ?_⟩
  rw [Node.ofTokens, Parse.program, hclosed]
  exact hread

end Programs

/-- A fault lies at a token before which everything is well formed, up to the blocks that are
open there and that as many braces close.  A program that starts with this token has the same
fault. -/
theorem syntaxFault_innermost
    {ts : List Token}
    {e : Located SyntaxFault}
    (h : Node.ofTokens ts = .error e) :
    ∃ j t depth, ts[j]? = some t ∧ e.pos = t.pos ∧
      Unclosed depth ((ts.take j).map Token.kind) ∧
      (∀ braces, (∀ b ∈ braces, b.kind = .rightBrace) →
        ((∃ nodes, Node.ofTokens (ts.take j ++ braces) = .ok nodes) ↔ braces.length = depth)) ∧
      Node.ofTokens (ts.drop j) = .error e := by
  obtain ⟨depth, before, t, rest, rfl, -, hpos, hunclosed, hread⟩ := blamed_of_ofTokens h
  refine ⟨before.length, t, depth, by simp, hpos.symm, ?_, ?_, ?_⟩
  · rwa [List.take_left]
  · intro braces hbraces
    rw [List.take_left]
    exact hunclosed.ofTokens_iff hbraces
  · rwa [List.drop_left]

/-- The tokens of `[:loop 2] { a [:loop 3] { < } }`, each with its number as its index. -/
def brokenLoop : List Token :=
  [.leftBracket, .str ":loop", .int 2, .rightBracket, .leftBrace, .str "a",
    .leftBracket, .str ":loop", .int 3, .rightBracket, .leftBrace, .leftChevron,
    .rightBrace, .rightBrace].zipIdx.map fun (kind, i) => ⟨kind, { index := i }⟩

/-- The fault in the inner block lies at the inner bracket, where one block is open. -/
theorem syntaxFault_innermost_brokenLoop :
    Node.ofTokens brokenLoop = .error ⟨{ index := 6 }, .contextItem .leftChevron⟩ ∧
    ∃ j t depth, brokenLoop[j]? = some t ∧ { index := 6 } = t.pos ∧
      Unclosed depth ((brokenLoop.take j).map Token.kind) ∧
      (∀ braces, (∀ b ∈ braces, b.kind = .rightBrace) →
        ((∃ nodes, Node.ofTokens (brokenLoop.take j ++ braces) = .ok nodes) ↔
          braces.length = depth)) ∧
      Node.ofTokens (brokenLoop.drop j) =
        .error ⟨{ index := 6 }, .contextItem .leftChevron⟩ := by
  have hfault : (match Node.ofTokens brokenLoop with
      | .ok _ => none
      | .error e => some e) = some ⟨{ index := 6 }, .contextItem .leftChevron⟩ := by
    decide +kernel
  have h : Node.ofTokens brokenLoop = .error ⟨{ index := 6 }, .contextItem .leftChevron⟩ := by
    split at hfault
    · cases hfault
    · rename_i e he
      rw [he, Option.some.inj hfault]
  exact ⟨h, syntaxFault_innermost h⟩

end Grammar
end SpeechMarkup
