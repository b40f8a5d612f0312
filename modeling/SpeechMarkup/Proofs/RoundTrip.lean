import SpeechMarkup.Diagnostic
import SpeechMarkup.Proofs.Reparse

/-!
# Printing and reading again

Nodes that were read from a text are written as text by `Node.render`.  Reading that
text again gives the same nodes exactly when no number in them is infinite: an
infinite number is written as a word.
-/

namespace SpeechMarkup

section Texts

open Scan

/-- The nodes of a text are built from the tokens of that text. -/
theorem Node.formed_of_ofText
    {K : Token.Kind → Prop}
    {text file : String}
    {nodes : List Node}
    (heof : K .eof)
    (hkinds : ∀ ks, kinds? text.toList = some ks → ∀ k ∈ ks, K k)
    (h : Node.ofText text file = .ok nodes) :
    ∃ body pos, nodes = body ++ [.stop pos] ∧ ∀ n ∈ body, n.Formed K := by
  unfold Node.ofText at h
  split at h
  · cases h
  · rename_i tokens htokens
    have hks : kinds? text.toList = some (tokens.map Token.kind) := by
      rw [← kinds?_eq _ (Cursor.ofText text file).pos]
      have hscan : (Scan.tokens ⟨text.toList, (Cursor.ofText text file).pos⟩).1 = .ok tokens :=
        htokens
      rw [hscan]
      rfl
    have hmem : ∀ t ∈ tokens, K t.kind := by
      intro t ht
      exact hkinds _ hks t.kind (List.mem_map_of_mem ht)
    split at h
    · cases h
    · rename_i nodes' hnodes
      obtain rfl := Except.ok.inj h
      exact Node.formed_of_ofTokens heof hmem hnodes

theorem lexed_of_kinds?
    {cs : List Char}
    {ks : List Token.Kind}
    (h : kinds? cs = some ks) :
    ∀ k ∈ ks, Lexed k := by
  unfold kinds? at h
  obtain ⟨ts, hts, rfl⟩ := Option.map_eq_some_iff.1 h
  have hscan : (tokens ⟨cs, {}⟩).1 = .ok ts := by
    cases hr : (tokens ⟨cs, {}⟩).1 with
    | error e => simp [hr, Except.toOption] at hts
    | ok us =>
        rw [hr] at hts
        exact congrArg Except.ok (Option.some.inj hts)
  intro k hk
  obtain ⟨t, ht, rfl⟩ := List.mem_map.1 hk
  exact lexed_of_tokens hscan t ht

/-- Nodes are read from a text that is read as the tokens of their parts. -/
theorem Node.ofText_of_reads
    (ns : List Node)
    {text : String}
    (hformed : ∀ n ∈ ns, n.Formed Lexed)
    (hfinite : ∀ n ∈ ns, n.holdsInfinity = false)
    (hreads : Reads text.toList (Node.printedAll ns))
    (file : String) :
    ∃ ms pos, Node.ofText text file = .ok (ms ++ [.stop pos]) ∧ Node.sameAll ms ns = true := by
  have hkinds := hreads.kinds?_eq_some
  rw [← kinds?_eq _ (Cursor.ofText text file).pos] at hkinds
  obtain ⟨ts, hts, hmap⟩ := Option.map_eq_some_iff.1 hkinds
  obtain ⟨us, vs, rfl, hus, hvs⟩ := List.map_eq_append_iff.1 hmap
  obtain ⟨t, ws, rfl, ht, hws⟩ := Parse.map_kind_eq_cons hvs
  obtain rfl : ws = [] := by simpa using hws
  have htokens : Token.ofText text file = .ok (us ++ [t]) := by
    unfold Token.ofText
    cases hr : (Scan.tokens (Cursor.ofText text file)).1 with
    | error e =>
        have hr' : (Scan.tokens ⟨text.toList, (Cursor.ofText text file).pos⟩).1 = .error e := hr
        simp [hr', Except.toOption] at hts
    | ok ts =>
        have hr' : (Scan.tokens ⟨text.toList, (Cursor.ofText text file).pos⟩).1 = .ok ts := hr
        rw [hr'] at hts
        exact congrArg Except.ok (Option.some.inj hts)
  have hclosed : Parse.closed (us ++ [t]) = us ++ [t] := by
    obtain ⟨kind, pos⟩ := t
    obtain rfl : kind = .eof := ht
    simp [Parse.closed]
  have hends : Parse.Ends [t] := by simp [Parse.Ends, Parse.peek, ht]
  obtain ⟨ms, hms, hread⟩ := Parse.rereads_all hformed
    (fun n hn => Parse.rereads (hformed n hn) (hfinite n hn)) [] [] hus hends
  have hnodes : Node.ofTokens (us ++ [t]) = .ok (ms ++ [.stop t.pos]) := by
    unfold Node.ofTokens Parse.program
    rw [hclosed, hread, Parse.items_eof ht]
    simp [Parse.Reading.ok]
  refine ⟨ms, t.pos, ?_, hms⟩
  unfold Node.ofText
  rw [htokens]
  dsimp only
  rw [hnodes]

theorem Reads.of_blank
    {cs : List Char}
    {ks : List Token.Kind}
    (h : Reads (' ' :: cs) ks) :
    Reads cs ks := by
  intro rest hrest
  have hstep : step ' ' (cs ++ rest) = .skip [' '] (cs ++ rest) := by
    simp [step, isBlank]
  rw [← kinds?_of_skip hstep]
  exact h rest hrest

theorem Node.renderAll_eq
    {ns : List Node}
    (h : ns ≠ []) :
    Node.renderAll ns = " " ++ " ".intercalate (ns.map Node.render) := by
  induction ns with
  | nil => exact absurd rfl h
  | cons n ns ih =>
      rw [Node.renderAll]
      cases ns with
      | nil => simp [Node.renderAll]
      | cons n' ns =>
          rw [ih (by simp)]
          simp [String.intercalate_cons_cons, String.append_assoc]

/-- Texts of nodes that are joined by blanks are read one after the other. -/
theorem reads_joined
    {ns : List Node}
    (h : ∀ n ∈ ns, n.Formed Lexed) :
    Reads (" ".intercalate (ns.map Node.render)).toList (Node.printedAll ns) := by
  have hall := (reads_all fun n hn => reads_node (h n hn)).1
  by_cases hne : ns = []
  · subst hne
    simpa [Node.printedAll] using Reads.nil
  · rw [Node.renderAll_eq hne] at hall
    exact Reads.of_blank (by simpa using hall)

end Texts

section Infinite

open Scan

/-- A token that stands for no infinite number. -/
def Token.Kind.Finite (k : Token.Kind) : Prop :=
  ∀ x, k = .float x → x.isInfinite = false

theorem Binary64.printed_finite (x : Binary64) : x.printed.Finite := by
  by_cases hx : x.isInfinite = true
  · simp [Binary64.printed, hx, Token.Kind.Finite]
  · simp [Binary64.printed, hx, Token.Kind.Finite]

theorem Param.printed_finite (p : Param) : p.printed.Finite := by
  cases p with
  | int v => simp [Param.printed, Token.Kind.Finite]
  | float x => exact Binary64.printed_finite x
  | str s => simp [Param.printed, Token.Kind.Finite]

theorem Duration.printed_finite (d : Duration) : d.printed.Finite := by
  cases d with
  | int v => simp [Duration.printed, Token.Kind.Finite]
  | float x => exact Binary64.printed_finite x

theorem Phoneme.printed_finite (p : Phoneme) : ∀ k ∈ p.printed, k.Finite := by
  have hsymbol : (symbolPrinted p.symbol).Finite := by
    unfold symbolPrinted
    split <;> simp [Token.Kind.Finite]
  have hduration := p.duration.printed_finite
  unfold Phoneme.printed
  dsimp only
  split
  · split <;> split <;> simp_all [Token.Kind.Finite]
  · simpa using hsymbol

theorem pairsPrinted_finite (entries : List (String × Int)) :
    ∀ k ∈ pairsPrinted entries, k.Finite := by
  fun_induction pairsPrinted entries with
  | case1 => simp
  | case2 key value => simp [Token.Kind.Finite]
  | case3 key value rest _ ih => simpa [Token.Kind.Finite] using ih

theorem Voice.printed_finite (v : Voice) : ∀ k ∈ v.printed, k.Finite := by
  have hpairs := pairsPrinted_finite v.settings.entries
  unfold Voice.printed
  split
  · simp [Token.Kind.Finite]
  · simpa [Token.Kind.Finite, or_imp, forall_and] using hpairs

theorem Node.printedAll_finite
    {ns : List Node}
    (h : ∀ n ∈ ns, ∀ k ∈ n.printed, k.Finite) :
    ∀ k ∈ Node.printedAll ns, k.Finite := by
  induction ns with
  | nil => simp [Node.printedAll]
  | cons n ns ih =>
      obtain ⟨hn, hns⟩ := List.forall_mem_cons.1 h
      intro k hk
      rw [Node.printedAll] at hk
      rcases List.mem_append.1 hk with hk | hk
      · exact hn k hk
      · exact ih hns k hk

/-- No text of a node shows an infinite number as a number. -/
theorem Node.printed_finite
    {K : Token.Kind → Prop}
    {n : Node}
    (h : n.Formed K) :
    ∀ k ∈ n.printed, k.Finite := by
  induction h with
  | @command pos name params context _ _ _ _ _ ih =>
      have hinner := Node.printedAll_finite ih
      have hparams : ∀ p ∈ params, p.printed.Finite := fun p _ => p.printed_finite
      rw [Node.printed]
      split
      · simpa [Token.Kind.Finite, or_imp, forall_and] using hparams
      · simpa [Token.Kind.Finite, or_imp, forall_and] using ⟨hparams, hinner⟩
  | @phoneme p _ =>
      rw [Node.printed]
      exact p.printed_finite
  | @voice v _ =>
      rw [Node.printed]
      exact v.printed_finite

/-- A node whose tokens are finite holds no infinite number. -/
theorem Node.holdsInfinity_of_finite
    {n : Node}
    (h : n.Formed Token.Kind.Finite) :
    n.holdsInfinity = false := by
  induction h with
  | @command pos name params context _ _ _ hparams _ ih =>
      have hfinite : ∀ p ∈ params, p.isInfinite = false := by
        intro p hp
        have hp := hparams p hp
        cases p with
        | int v => rfl
        | float x => exact hp x rfl
        | str s => rfl
      simpa [Node.holdsInfinity, Node.anyHoldsInfinity_eq_false_iff] using ⟨hfinite, ih⟩
  | @phoneme p hp =>
      rw [Node.holdsInfinity]
      rcases hp.duration with hzero | hfinite
      · rw [hzero]
        rfl
      · cases hd : p.duration with
        | int v => rfl
        | float x =>
            rw [hd] at hfinite
            exact hfinite x rfl
  | voice => rw [Node.holdsInfinity]

end Infinite

section Same

theorem Binary64.isInfinite_of_equal
    {x y : Binary64}
    (h : x.equal y = true) :
    x.isInfinite = y.isInfinite := by
  have hrank : x.rank = y.rank := by
    simp only [Binary64.equal, Bool.and_eq_true, Bool.or_eq_true, decide_eq_true_eq] at h
    rcases h.2 with ⟨hx, hy⟩ | ⟨-, hxy⟩
    · rw [hx, hy]
    · exact hxy
  simp [Binary64.isInfinite, hrank]

theorem Param.isInfinite_of_same
    {p q : Param}
    (h : p.same q = true) :
    p.isInfinite = q.isInfinite := by
  match p, q, h with
  | .int _, .int _, _ => rfl
  | .float _, .float _, h => exact Binary64.isInfinite_of_equal h
  | .str _, .str _, _ => rfl

theorem Duration.isInfinite_of_same
    {d e : Duration}
    (h : d.same e = true) :
    d.isInfinite = e.isInfinite := by
  match d, e, h with
  | .int _, .int _, _ => rfl
  | .float _, .float _, h => exact Binary64.isInfinite_of_equal h

theorem Param.any_isInfinite_of_sameAll
    {ps qs : List Param}
    (h : Param.sameAll ps qs = true) :
    ps.any Param.isInfinite = qs.any Param.isInfinite := by
  fun_induction Param.sameAll ps qs with
  | case1 => rfl
  | case2 p ps q qs ih =>
      obtain ⟨hhead, hrest⟩ := Bool.and_eq_true_iff.1 h
      rw [List.any_cons, List.any_cons, Param.isInfinite_of_same hhead, ih hrest]
  | case3 => cases h

theorem Node.eq_of_sameAll_singleton
    {ms : List Node}
    {n : Node}
    (h : Node.sameAll ms [n] = true) :
    ∃ m, ms = [m] ∧ m.same n = true := by
  rcases ms with _ | ⟨m, _ | ⟨m', ms⟩⟩
  · simp [Node.sameAll] at h
  · exact ⟨m, rfl, by simpa [Node.sameAll] using h⟩
  · simp [Node.sameAll] at h

mutual

/-- Nodes that are the same hold an infinite number together. -/
theorem Node.holdsInfinity_of_same
    (m n : Node)
    (h : m.same n = true) :
    m.holdsInfinity = n.holdsInfinity := by
  match m, n with
  | .command _ _ ps ms, .command _ _ qs ns =>
      simp only [Node.same, Bool.and_eq_true] at h
      obtain ⟨⟨-, hparams⟩, hcontext⟩ := h
      rw [Node.holdsInfinity, Node.holdsInfinity, Param.any_isInfinite_of_sameAll hparams,
        Node.anyHoldsInfinity_of_sameAll ms ns hcontext]
  | .phoneme p, .phoneme q =>
      simp only [Node.same, Phoneme.same, Bool.and_eq_true] at h
      rw [Node.holdsInfinity, Node.holdsInfinity, Duration.isInfinite_of_same h.1.2]
  | .voice _, .voice _ => rw [Node.holdsInfinity, Node.holdsInfinity]
  | .stop _, .stop _ => rw [Node.holdsInfinity, Node.holdsInfinity]

theorem Node.anyHoldsInfinity_of_sameAll
    (ms ns : List Node)
    (h : Node.sameAll ms ns = true) :
    Node.anyHoldsInfinity ms = Node.anyHoldsInfinity ns := by
  match ms, ns with
  | [], [] => rfl
  | m :: ms, n :: ns =>
      simp only [Node.sameAll, Bool.and_eq_true] at h
      rw [Node.anyHoldsInfinity, Node.anyHoldsInfinity, Node.holdsInfinity_of_same m n h.1,
        Node.anyHoldsInfinity_of_sameAll ms ns h.2]

end

end Same

section Main

open Scan

/-- A node that holds an infinite number is not read from its own text. -/
theorem Node.ofText_render_of_infinite
    {n : Node}
    (hformed : n.Formed Lexed)
    (hinfinite : n.holdsInfinity = true)
    (file : String)
    {m : Node}
    {pos : Position}
    (hread : Node.ofText n.render file = .ok [m, .stop pos]) :
    m.same n = false := by
  have hkinds : ∀ ks, kinds? n.render.toList = some ks → ∀ k ∈ ks, k.Finite := by
    intro ks hks k hk
    rw [(reads_node hformed).kinds?_eq_some] at hks
    obtain rfl := Option.some.inj hks
    rcases List.mem_append.1 hk with hk | hk
    · exact Node.printed_finite hformed k hk
    · rw [List.mem_singleton.1 hk]
      simp [Token.Kind.Finite]
  obtain ⟨body, stop, hbody, hfinite⟩ :=
    Node.formed_of_ofText (by simp [Token.Kind.Finite]) hkinds hread
  obtain rfl : body = [m] := by
    have hlist : [m] ++ [.stop pos] = body ++ [.stop stop] := hbody
    exact (List.append_inj' hlist rfl).1.symm
  have hm : m.holdsInfinity = false := Node.holdsInfinity_of_finite (hfinite m (by simp))
  by_contra hsame
  have heq := Node.holdsInfinity_of_same m n (by simpa using hsame)
  rw [hm, hinfinite] at heq
  cases heq

/-- Reading the text of a node gives that node, up to its place, and the end marker. -/
def Node.ReadsBack
    (n : Node)
    (file : String) : Prop :=
  ∃ m pos, Node.ofText n.render file = .ok [m, .stop pos] ∧ m.same n = true

/--
A node that was read from a text is read back from its own text exactly when it holds
no infinite number; the texts of such nodes can be joined by blanks.
-/
theorem Node.readsBack_iff_of_ofText
    (text file : String)
    (nodes : List Node)
    (h : Node.ofText text file = .ok nodes)
    (again : String) :
    ∃ body stop, nodes = body ++ [.stop stop] ∧
      (∀ n ∈ body, n.ReadsBack again ↔ n.holdsInfinity = false) ∧
      ((∀ n ∈ body, n.holdsInfinity = false) →
        ∃ ms pos, Node.ofText (" ".intercalate (body.map Node.render)) again =
            .ok (ms ++ [.stop pos]) ∧
          Node.sameAll ms body = true) := by
  obtain ⟨body, stop, rfl, hformed⟩ :=
    Node.formed_of_ofText trivial (fun ks hks => lexed_of_kinds? hks) h
  refine ⟨body, stop, rfl, ?_, ?_⟩
  · intro n hn
    constructor
    · rintro ⟨m, pos, hread, hsame⟩
      by_contra hinfinite
      have hdiffer := Node.ofText_render_of_infinite (hformed n hn) (by simpa using hinfinite)
        again hread
      rw [hsame] at hdiffer
      cases hdiffer
    · intro hfinite
      have hreads : Reads n.render.toList (Node.printedAll [n]) := by
        simpa [Node.printedAll] using reads_node (hformed n hn)
      obtain ⟨ms, pos, hread, hsame⟩ := Node.ofText_of_reads [n]
        (by simpa using hformed n hn) (by simpa using hfinite) hreads again
      obtain ⟨m, rfl, hm⟩ := Node.eq_of_sameAll_singleton hsame
      exact ⟨m, pos, hread, hm⟩
  · intro hfinite
    exact Node.ofText_of_reads body hformed hfinite (reads_joined hformed) again

/-- The nodes of a text given by its code points. -/
theorem Node.toOption_ofText_ofList
    (cs : List Char)
    (file : String) :
    (Node.ofText (String.ofList cs) file).toOption =
      (Scan.tokens ⟨cs, Position.start file⟩).1.toOption.bind fun ts =>
        (Node.ofTokens ts).toOption := by
  unfold Node.ofText Token.ofText Cursor.ofText
  rw [String.toList_ofList]
  cases (Scan.tokens ⟨cs, Position.start file⟩).1 with
  | error e => rfl
  | ok ts => cases hnodes : Node.ofTokens ts <;> simp [Except.toOption, hnodes]

/-- A command, a phrase, and a length that is too large for a finite number. -/
def overflowChars : List Char :=
  "[:rate 200] [:phrase hi] \x7b aa<2.5,30> , \x7d aa<".toList
    ++ List.replicate 310 '9' ++ ".0>".toList

theorem readsBack_overflow :
    ∃ rate phrase long stop,
      Node.ofText (String.ofList overflowChars) "song" = .ok [rate, phrase, long, .stop stop] ∧
        rate.ReadsBack "" ∧ phrase.ReadsBack "" ∧ ¬ long.ReadsBack "" := by
  obtain ⟨text, htext, hnumbers⟩ : ∃ text, text = String.ofList overflowChars ∧
      (Node.ofText text "song").toOption.map (List.map Node.holdsInfinity) =
        some [false, false, true, false] := by
    refine ⟨_, rfl, ?_⟩
    rw [Node.toOption_ofText_ofList]
    decide +kernel
  rw [← htext]
  cases h : Node.ofText text "song" with
  | error e => simp [h, Except.toOption] at hnumbers
  | ok nodes =>
      obtain ⟨body, stop, rfl, hback, -⟩ := Node.readsBack_iff_of_ofText _ _ nodes h ""
      rw [h] at hnumbers
      have hclosed : body.map Node.holdsInfinity ++ [false] = [false, false, true] ++ [false] := by
        simpa [Except.toOption, Node.holdsInfinity] using hnumbers
      have hbody := List.append_cancel_right hclosed
      obtain ⟨rate, body, rfl, hrate, hbody⟩ := List.map_eq_cons_iff.1 hbody
      obtain ⟨phrase, body, rfl, hphrase, hbody⟩ := List.map_eq_cons_iff.1 hbody
      obtain ⟨long, body, rfl, hlong, hbody⟩ := List.map_eq_cons_iff.1 hbody
      obtain rfl := List.map_eq_nil_iff.1 hbody
      refine ⟨rate, phrase, long, stop, rfl, ?_, ?_, ?_⟩
      · exact (hback rate (by simp)).2 hrate
      · exact (hback phrase (by simp)).2 hphrase
      · rw [hback long (by simp), hlong]
        simp

end Main

end SpeechMarkup
