import SpeechMarkup.Proofs.Definitions
import SpeechMarkup.Proofs.Derivations
import SpeechMarkup.Proofs.Places
import SpeechMarkup.Proofs.Scanning

/-!
# Programs one after the other

Two programs with a line feed between them are one program, which does what the two do one
after the other.

* `Layout.Valid.append_lineFeed`: no piece of the first text reaches over the line feed.
* `Grammar.Item.nodes_append` and `Grammar.Item.nodes_alike`: no item of the first program
  takes anything from the second, and the nodes differ only in places.
* `process_append`: nothing but the store passes from node to node.
* `compile_concat` is the main result.
-/

namespace SpeechMarkup

section Pieces

variable {rest : List Char} {ps qs : List Piece}

theorem NextIn.append_lineFeed
    {cs : List Char}
    (hcs : '\n' ∈ cs)
    (h : NextIn cs rest)
    (more : List Char) :
    NextIn cs (rest ++ '\n' :: more) := by
  cases rest with
  | nil =>
      rintro c ⟨⟩
      exact hcs
  | cons c rest => exact h

theorem OpensComment.append
    (h : OpensComment rest)
    (more : List Char) :
    OpensComment (rest ++ more) :=
  h.imp (·.trans (List.prefix_append rest more)) (·.trans (List.prefix_append rest more))

theorem head?_append_lineFeed
    {c : Char}
    {cs : List Char}
    (hc : c ≠ '\n')
    (h : cs.head? ≠ some c)
    (more : List Char) :
    (cs ++ '\n' :: more).head? ≠ some c := by
  cases cs with
  | nil => simpa using hc.symm
  | cons d cs => exact h

theorem IsString.append_lineFeed
    {text : List Char}
    (h : IsString text rest)
    (more : List Char) :
    IsString text (rest ++ '\n' :: more) where
  ne_nil := h.ne_nil
  chars := h.chars
  head := h.head
  slashes := by
    intro u v huv
    obtain ⟨hslash, hstar⟩ := h.slashes u v huv
    rw [← List.append_assoc]
    exact ⟨head?_append_lineFeed (by decide) hslash more,
      head?_append_lineFeed (by decide) hstar more⟩
  maximal := h.maximal.imp (·.append_lineFeed (by decide) more) (·.append _)

/-- A piece that can stand at the end of a text can stand at the end of a line. -/
theorem Piece.Fits.append_lineFeed
    {p : Piece}
    (h : p.Fits rest)
    (more : List Char) :
    p.Fits (rest ++ '\n' :: more) := by
  cases p with
  | blank c => exact h
  | line body => exact ⟨h.1, h.2.append_lineFeed (by decide) more⟩
  | block body => exact h
  | special mark => exact h
  | whole digits => exact ⟨h.1, h.2.1, h.2.2.1, h.2.2.2.append_lineFeed (by decide) more⟩
  | decimal front back =>
      exact ⟨h.1, h.2.1, h.2.2.1, h.2.2.2.append_lineFeed (by decide) more⟩
  | string text => exact IsString.append_lineFeed h more

namespace Layout

theorem text_append (ps qs : List Piece) :
    text (ps ++ qs) = text ps ++ text qs :=
  List.flatMap_append

/-- Layouts stand behind one another with a line feed between them. -/
theorem Valid.append_lineFeed
    (hps : Valid ps)
    (hqs : Valid qs) :
    Valid (ps ++ .blank '\n' :: qs) := by
  induction ps with
  | nil => exact ⟨by simp [Piece.Fits, blanks], hqs⟩
  | cons p ps ih =>
      rw [List.cons_append, Valid, text_append]
      exact ⟨hps.1.append_lineFeed (text qs), ih hps.2⟩

theorem kind?_ne_eof (p : Piece) : p.kind? ≠ some .eof := by
  cases p with
  | special mark =>
      intro h
      simpa [specials] using mem_of_lookup_eq_some h
  | _ => simp [Piece.kind?]

/-- Before its end, a layout has the tokens of its lexemes. -/
theorem content_tokens
    (file : String)
    (before : List Char)
    (ps : List Piece) :
    (Grammar.content (tokens file before ps)).map Token.kind = ps.filterMap Piece.kind? := by
  induction ps generalizing before with
  | nil => simp [tokens, Grammar.content]
  | cons p ps ih =>
      cases hkind : p.kind? with
      | none => simp [tokens, hkind, ih]
      | some kind =>
          have hne : kind ≠ .eof := by
            rintro rfl
            exact kind?_ne_eof p hkind
          have hcontent : Grammar.content (tokens file before (p :: ps)) =
              ⟨kind, place file before⟩ :: Grammar.content (tokens file (before ++ p.text) ps) := by
            simp [tokens, hkind, Grammar.content, hne]
          rw [hcontent, List.map_cons, ih, List.filterMap_cons, hkind]

end Layout

/-- Texts that can be scanned can be scanned one after the other. -/
theorem ofText_append_lineFeed
    {a b file : String}
    {ts us : List Token}
    (ha : Token.ofText a file = .ok ts)
    (hb : Token.ofText b file = .ok us) :
    ∃ vs, Token.ofText (a ++ "\n" ++ b) file = .ok vs ∧
      (Grammar.content vs).map Token.kind =
        (Grammar.content ts).map Token.kind ++ (Grammar.content us).map Token.kind := by
  obtain ⟨ps, hps, hptext, rfl⟩ := Layout.exists_of_ofText ha
  obtain ⟨qs, hqs, hqtext, rfl⟩ := Layout.exists_of_ofText hb
  have htext : (a ++ "\n" ++ b).toList = Layout.text (ps ++ .blank '\n' :: qs) := by
    rw [Layout.text_append, hptext]
    simp [Layout.text, Piece.text, ← hqtext]
  refine ⟨Layout.tokens file [] (ps ++ .blank '\n' :: qs), ?_, ?_⟩
  · exact Layout.ofText_of_valid file (hps.append_lineFeed hqs) htext.symm
  · rw [Layout.content_tokens, Layout.content_tokens, Layout.content_tokens,
      List.filterMap_append]
    rfl

end Pieces

namespace Grammar

section Items

theorem Item.nodes_append
    (as bs : List Item)
    (ts : List Token) :
    Item.nodes (as ++ bs) ts =
      Item.nodes as ts ++ Item.nodes bs (ts.drop (Item.yields as).length) := by
  induction as generalizing ts with
  | nil => simp [Item.nodes, Item.yields]
  | cons a as ih =>
      rw [List.cons_append, Item.nodes, Item.nodes, ih, Item.yields, List.length_append,
        List.drop_drop, List.cons_append]

mutual

/-- A derivation stands for the same node wherever its tokens stand. -/
theorem Item.node_alike
    (item : Item)
    (ts us : List Token) :
    (item.node ts).Alike Anywhere (item.node us) := by
  match item with
  | .command head =>
      rw [Item.node, Item.node]
      exact .command trivial .nil
  | .block head items =>
      rw [Item.node, Item.node]
      exact .command trivial (Item.nodes_alike items _ _)
  | .voice name body =>
      rw [Item.node, Item.node]
      exact .voice ⟨trivial, rfl, rfl⟩
  | .phoneme symbol chevrons =>
      rw [Item.node, Item.node]
      exact .phoneme ⟨trivial, rfl, rfl, rfl⟩

theorem Item.nodes_alike
    (items : List Item)
    (ts us : List Token) :
    List.Forall₂ (Node.Alike Anywhere) (Item.nodes items ts) (Item.nodes items us) := by
  match items with
  | [] =>
      rw [Item.nodes, Item.nodes]
      exact .nil
  | item :: items =>
      rw [Item.nodes, Item.nodes]
      exact .cons (Item.node_alike item _ _) (Item.nodes_alike items _ _)

end

end Items

end Grammar

section Nodes

theorem untilStop_append_stop
    {body : List Node}
    (pos : Position)
    (hbody : ∀ n ∈ body, n.isStop = false) :
    Node.untilStop (body ++ [.stop pos]) = body := by
  rw [Node.untilStop, List.takeWhile_append_of_pos (by simpa using hbody)]
  simp [Node.isStop]

/-- No derivation stands for an end marker. -/
theorem Grammar.Item.isStop_nodes
    (items : List Item)
    (ts : List Token) :
    ∀ n ∈ Item.nodes items ts, n.isStop = false := by
  induction items generalizing ts with
  | nil => simp [Item.nodes]
  | cons item items ih =>
      rw [Item.nodes]
      refine List.forall_mem_cons.2 ⟨?_, ih _⟩
      cases item <;> rw [Item.node] <;> rfl

/-- Programs one after the other have the nodes of the first, without its end marker, and
those of the second. -/
theorem nodes_append_lineFeed
    {a b file : String}
    {as bs : List Node}
    (ha : Node.ofText a file = .ok as)
    (hb : Node.ofText b file = .ok bs) :
    ∃ nodes, Node.ofText (a ++ "\n" ++ b) file = .ok nodes ∧
      List.Forall₂ (Node.Alike Anywhere) nodes (Node.untilStop as ++ bs) := by
  obtain ⟨ts, hts, has⟩ := Expansion.ofTokens_of_ofText ha
  obtain ⟨us, hus, hbs⟩ := Expansion.ofTokens_of_ofText hb
  obtain ⟨vs, hvs, hkinds⟩ := ofText_append_lineFeed hts hus
  obtain ⟨items, hitems, rfl⟩ := Grammar.derivation_of_ofTokens has
  obtain ⟨items', hitems', rfl⟩ := Grammar.derivation_of_ofTokens hbs
  have hyields : Grammar.Item.yields (items ++ items') =
      (Grammar.content vs).map Token.kind := by
    rw [Grammar.Item.yields_append, hitems, hitems', hkinds]
  have hread : Node.ofText (a ++ "\n" ++ b) file = .ok
      (Grammar.Item.nodes (items ++ items') (Grammar.content vs) ++
        [.stop (Grammar.endPos vs)]) := by
    simp only [Node.ofText, hvs, Grammar.ofTokens_of_derivation hyields]
  refine ⟨_, hread, ?_⟩
  rw [untilStop_append_stop _ (Grammar.Item.isStop_nodes items _), Grammar.Item.nodes_append,
    List.append_assoc]
  exact List.rel_append (Grammar.Item.nodes_alike items _ _)
    (List.rel_append (Grammar.Item.nodes_alike items' _ _) (.cons (.stop trivial) .nil))

end Nodes

open Expansion

section Runs

variable {files : Files} {enter : Enter} {scope : Scope}

/-- Goes on from the end of a run, unless it failed. -/
def Outcome.andThen (out : Outcome) (next : Sink → Store → Outcome) : Outcome :=
  match out.result with
  | .ok _ => next out.sink out.store
  | .error _ => out

theorem Outcome.andThen_congr
    {out : Outcome}
    {next next' : Sink → Store → Outcome}
    (h : next out.sink out.store = next' out.sink out.store) :
    out.andThen next = out.andThen next' := by
  unfold Outcome.andThen
  rw [h]

/-- Nothing but the sink and the store passes from the first nodes to those behind them. -/
theorem emitNodes_append
    {nodes : List Node}
    (hnodes : ∀ n ∈ nodes, n.isStop = false)
    (more : List Node)
    (sink : Sink)
    (s : Store) :
    emitNodes files enter scope (nodes ++ more) sink s =
      (emitNodes files enter scope nodes sink s).andThen (emitNodes files enter scope more) := by
  induction nodes generalizing sink s with
  | nil => rfl
  | cons n ns ih =>
      obtain ⟨hn, hns⟩ := List.forall_mem_cons.1 hnodes
      have hstop : ∀ pos, n ≠ .stop pos := by
        rintro pos rfl
        cases hn
      rw [List.cons_append]
      rcases hrun : (expandNode files enter scope n).run s with ⟨d | text, t⟩
      · rw [emitNodes_of_error hstop hrun, emitNodes_of_error hstop hrun]
        rfl
      · rw [emitNodes_of_ok hstop hrun, emitNodes_of_ok hstop hrun, ih hns, ih hns]
        split
        · rfl
        · split
          · rfl
          · rfl

theorem emitNodes_append_stop
    {nodes : List Node}
    (pos : Position)
    (hnodes : ∀ n ∈ nodes, n.isStop = false)
    (sink : Sink)
    (s : Store) :
    emitNodes files enter scope (nodes ++ [.stop pos]) sink s =
      emitNodes files enter scope nodes sink s := by
  rw [emitNodes_append hnodes]
  rcases emitNodes files enter scope nodes sink s with ⟨d | u, sink', t⟩ <;> rfl

/-- A program with more nodes in the place of its end marker. -/
theorem process_append
    {ts : List Token}
    {as : List Node}
    (ha : Node.ofTokens ts = .ok as)
    (files : Files)
    (scope : Scope)
    (bs : List Node)
    (sink : Sink)
    (s : Store) :
    process files scope (Node.untilStop as ++ bs) sink s =
      (process files scope as sink s).andThen (process files scope bs) := by
  obtain ⟨pos, hstop⟩ := Node.untilStop_of_ofTokens ha
  have huntil := Node.isStop_untilStop as
  have hfirst : process files scope as sink s =
      emitNodes files (unbounded files) scope (Node.untilStop as) sink s := by
    rw [process_eq, hstop, emitNodes_append_stop pos huntil, ← hstop]
  have hsecond : process files scope bs = emitNodes files (unbounded files) scope bs := by
    funext sink t
    exact process_eq files scope bs sink t
  rw [process_eq, emitNodes_append huntil, hfirst, hsecond]

end Runs

section Sources

theorem Source.compile_workDir
    (files : Files)
    (source : Source)
    (sink : Sink)
    (s : Store) :
    (source.compile files sink s).store.workDir = s.workDir := by
  refine source.compile_keeps_store (I := fun t => t.workDir = s.workDir) ?_ (fun _ _ ht => ht)
    files sink rfl
  intro t u n ht _ hdefine
  obtain ⟨_, _, _, _, _, hadds⟩ := Store.define_adds hdefine
  exact hadds.workDir.trans ht

/--
Two texts that can be scanned and parsed make up a program with a line feed between them.
Its nodes are those of the first text without the end marker and those of the second, up to
their places.  A compilation of it does what the compilations of the two texts do one after
the other: it hands over the same chunks, succeeds or has the same fault, and leaves the same
store behind, up to places.
-/
theorem compile_concat
    {a b : String}
    {path : Option String}
    {as bs : List Node}
    (ha : Node.ofText a (path.getD "") = .ok as)
    (hb : Node.ofText b (path.getD "") = .ok bs) :
    (∃ nodes, Node.ofText (a ++ "\n" ++ b) (path.getD "") = .ok nodes ∧
      List.Forall₂ (Node.Alike Anywhere) nodes (Node.untilStop as ++ bs)) ∧
    ∀ (files : Files) (sink : Sink) (s : Store),
      ((Source.mk (a ++ "\n" ++ b) path).compile files sink s).Alike
        (((Source.mk a path).compile files sink s).andThen fun sink t =>
          (Source.mk b path).compile files sink t) := by
  obtain ⟨nodes, hnodes, halike⟩ := nodes_append_lineFeed ha hb
  refine ⟨⟨nodes, hnodes, halike⟩, ?_⟩
  intro files sink s
  obtain ⟨ts, -, hts⟩ := ofTokens_of_ofText ha
  -- the second text is compiled in the scope of the first, since no run changes the directory
  have hscope := (Source.mk b path).scope_of_workDir
    ((Source.mk a path).compile_workDir files sink s)
  have hwhole : (Source.mk (a ++ "\n" ++ b) path).compile files sink s =
      process files ((Source.mk b path).scope s) nodes sink s := by
    rw [Source.compile, Source.fileId, hnodes]
    rfl
  have hfirst : (Source.mk a path).compile files sink s =
      process files ((Source.mk b path).scope s) as sink s := by
    rw [Source.compile, Source.fileId, ha]
    rfl
  have hsecond : ∀ sink t, (Source.mk b path).compile files sink t =
      process files ((Source.mk b path).scope t) bs sink t := by
    intro sink t
    rw [Source.compile, Source.fileId, hb]
  have hthen : (((Source.mk a path).compile files sink s).andThen fun sink t =>
      (Source.mk b path).compile files sink t) =
      process files ((Source.mk b path).scope s) (Node.untilStop as ++ bs) sink s := by
    rw [process_append hts, ← hfirst]
    refine Outcome.andThen_congr ?_
    rw [hsecond, hscope]
  rw [hwhole, hthen]
  exact process_alike files _ sink s halike

/-- A program that defines a phrase and ends in a comment. -/
def opening : String :=
  "[:bpm 60] [:phrase hi] \x7b aa<1> \x7d // hi"

/-- A program that calls the phrase. -/
def refrain : String :=
  "hi [:loop 2] \x7b t \x7d"

theorem compile_concat_refrain :
    (∃ nodes as bs,
      Node.ofText opening "/work/main" = .ok as ∧
      Node.ofText refrain "/work/main" = .ok bs ∧
      Node.ofText (opening ++ "\n" ++ refrain) "/work/main" = .ok nodes ∧
      List.Forall₂ (Node.Alike Anywhere) nodes (Node.untilStop as ++ bs)) ∧
    ((Source.mk (opening ++ "\n" ++ refrain) (some "/work/main")).compile (Listing.files ⟨[]⟩) {}
        (Store.new "/work" [])).Alike
      (((Source.mk opening (some "/work/main")).compile (Listing.files ⟨[]⟩) {}
        (Store.new "/work" [])).andThen fun sink t =>
          (Source.mk refrain (some "/work/main")).compile (Listing.files ⟨[]⟩) sink t) ∧
    ((Source.mk (opening ++ "\n" ++ refrain) (some "/work/main")).compile (Listing.files ⟨[]⟩) {}
      (Store.new "/work" [])).sink.chunks.toList = ["[aa<1000>]", "[t][t]"] := by
  have hread : ∀ text : String, (Node.ofText text "/work/main").toOption.isSome = true →
      ∃ nodes, Node.ofText text "/work/main" = .ok nodes := by
    intro text h
    cases hnodes : Node.ofText text "/work/main" with
    | ok nodes => exact ⟨nodes, rfl⟩
    | error d =>
        rw [hnodes] at h
        cases h
  obtain ⟨as, ha⟩ := hread opening (by decide +kernel)
  obtain ⟨bs, hb⟩ := hread refrain (by decide +kernel)
  obtain ⟨⟨nodes, hnodes, halike⟩, hruns⟩ :=
    @compile_concat opening refrain (some "/work/main") as bs ha hb
  refine ⟨⟨nodes, as, bs, ha, hb, hnodes, halike⟩, hruns _ _ _, ?_⟩
  decide +kernel

end Sources

end SpeechMarkup
