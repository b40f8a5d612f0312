import SpeechMarkup.Proofs.Concatenation
import SpeechMarkup.Proofs.RuleTable
import SpeechMarkup.Proofs.Splicing

/-!
# Selecting a declared voice

A voice is declared once and selected any number of times.  Each selection sets every parameter
of the table to the value that the declaration gave it, or else to its default.

* `VoiceSettings.ext_get?`: settings are determined by the values they give.
* `Voice.value` is the value of a parameter in a declared voice, and `ofText_setVoiceParam` says
  that the instruction for it is read again.
* `Store.Later` are the stores that can follow a store, within a run and after it.
* `Grammar.Item.Rearranged` relates derivations that list the values of voices in other orders
  or with other commas, and `compile_rearranged` says that runs cannot tell them apart.
* `selectVoice_sets_table` is the main result.
-/

namespace SpeechMarkup

section Settings

variable {α : Type} {key : String} {value : α} {l : List (String × α)}

theorem lookup_eq_some_iff_mem
    (h : (l.map Prod.fst).Nodup) :
    l.lookup key = some value ↔ (key, value) ∈ l := by
  constructor
  · exact mem_of_lookup_eq_some
  · induction l with
    | nil => simp
    | cons e l ih =>
        obtain ⟨k, v⟩ := e
        obtain ⟨hnew, hrest⟩ := List.nodup_cons.1 h
        intro hmem
        rw [lookup_cons_ite]
        rcases List.mem_cons.1 hmem with heq | hold
        · obtain ⟨rfl, rfl⟩ := Prod.mk.inj heq
          rw [if_pos rfl]
        · have hne : key ≠ k := by
            rintro rfl
            exact hnew (List.mem_map.2 ⟨_, hold, rfl⟩)
          rw [if_neg hne, ih hrest hold]

namespace VoiceSettings

theorem nodup_keys (settings : VoiceSettings) :
    (settings.entries.map Prod.fst).Nodup := by
  refine List.Pairwise.map Prod.fst ?_ settings.sorted
  intro a b hlt heq
  exact String.lt_irrefl _ (heq ▸ hlt)

theorem mem_entries_iff
    {settings : VoiceSettings}
    {value : Int} :
    (key, value) ∈ settings.entries ↔ settings.get? key = some value :=
  (lookup_eq_some_iff_mem settings.nodup_keys).symm

/-- Settings are determined by the values they give. -/
theorem ext_get?
    {s t : VoiceSettings}
    (h : ∀ key, s.get? key = t.get? key) :
    s = t := by
  have hmem : ∀ e, e ∈ s.entries ↔ e ∈ t.entries := by
    rintro ⟨key, value⟩
    rw [mem_entries_iff, mem_entries_iff, h]
  have hirrefl : Std.Irrefl fun a b : String × Int => a.1 < b.1 := ⟨fun a => String.lt_irrefl a.1⟩
  have hentries : s.entries = t.entries := by
    refine List.Subset.antisymm_of_pairwise s.sorted t.sorted ?_ ?_
    · exact fun e he => (hmem e).1 he
    · exact fun e he => (hmem e).2 he
  cases s
  cases t
  congr

/-- Values that are put in one after the other, under different names. -/
theorem get?_foldl_insert
    {pairs : List (String × Int)}
    (h : (pairs.map Prod.fst).Nodup)
    (settings : VoiceSettings)
    (x : String) :
    (pairs.foldl (fun s (k, v) => s.insert k v) settings).get? x =
      (pairs.lookup x).or (settings.get? x) := by
  induction pairs generalizing settings with
  | nil => simp
  | cons e rest ih =>
      obtain ⟨hnew, hrest⟩ := List.nodup_cons.1 h
      rw [List.foldl_cons, ih hrest, get?_insert, lookup_cons_ite]
      by_cases hx : x = e.1
      · have hnone : rest.lookup x = none := by
          rw [Option.eq_none_iff_forall_ne_some]
          intro v hv
          exact hnew (hx ▸ List.mem_map_of_mem (mem_of_lookup_eq_some hv))
        rw [hnone, if_pos hx, if_pos hx, Option.none_or, Option.some_or]
      · simp [hx]

theorem get?_override
    (s t : VoiceSettings)
    (x : String) :
    (s.override t).get? x = (t.get? x).or (s.get? x) :=
  get?_foldl_insert t.nodup_keys s x

theorem get?_default
    {p : VoiceParam}
    (hp : p ∈ voiceParams) :
    default.get? p.name = some p.default := by
  have hnames : ((voiceParams.map fun p => (p.name, p.default)).map Prod.fst).Nodup := by
    decide
  have hmem : (p.name, p.default) ∈ voiceParams.map fun p => (p.name, p.default) :=
    List.mem_map_of_mem hp
  rw [default, ofList, get?_foldl_insert hnames, (lookup_eq_some_iff_mem hnames).2 hmem,
    Option.some_or]

/-- The order in which values are listed does not matter. -/
theorem ofList_perm
    {pairs pairs' : List (String × Int)}
    (h : (pairs.map Prod.fst).Nodup)
    (hperm : pairs.Perm pairs') :
    ofList pairs = ofList pairs' := by
  have h' : (pairs'.map Prod.fst).Nodup := (hperm.map Prod.fst).nodup_iff.1 h
  refine ext_get? fun key => ?_
  rw [ofList, ofList, get?_foldl_insert h, get?_foldl_insert h']
  congr 1
  refine Option.ext fun value => ?_
  rw [lookup_eq_some_iff_mem h, lookup_eq_some_iff_mem h', hperm.mem_iff]

end VoiceSettings

end Settings

section Table

open Scan

variable {v : Voice} {p : VoiceParam} {x : Int}

/-- The value of a parameter in a declared voice. -/
def Voice.value (v : Voice) (p : VoiceParam) : Int :=
  (v.settings.get? p.name).getD p.default

theorem Voice.get?_override_default
    (v : Voice)
    (hp : p ∈ voiceParams) :
    (VoiceSettings.default.override v.settings).get? p.name = some (v.value p) := by
  rw [VoiceSettings.get?_override, VoiceSettings.get?_default hp, Voice.value]
  cases v.settings.get? p.name <;> rfl

theorem Voice.value_inRange
    (h : voiceFault? v = none)
    (hp : p ∈ voiceParams) :
    p.min ≤ v.value p ∧ v.value p ≤ p.max :=
  (VoiceSettings.complete_override (VoiceSettings.inRange_of_voiceFault? h)).values p hp _
    (v.get?_override_default hp)

theorem voiceInstructions_eq (v : Voice) :
    voiceInstructions (VoiceSettings.default.override v.settings) =
      String.join (voiceParams.map fun p => setVoiceParam p.name (v.value p)) := by
  unfold voiceInstructions
  congr 1
  refine List.map_congr_left fun p hp => ?_
  rw [v.get?_override_default hp]

theorem Scan.CommentFree.of_notMem
    {cs : List Char}
    (h : '/' ∉ cs) :
    CommentFree cs := by
  induction cs with
  | nil => trivial
  | cons c cs ih =>
      rw [List.mem_cons, not_or] at h
      exact ⟨fun hslash => absurd hslash.symm h.1, ih h.2⟩

/-- The command that sets a parameter can be read from a text. -/
theorem formed_dv
    (pos : Position)
    (hp : p ∈ voiceParams)
    (hmin : p.min ≤ x)
    (hmax : x ≤ p.max) :
    (Node.command pos "dv" [.str p.name, .int x] []).Formed Lexed := by
  have hwords : ∀ s ∈ ":dv" :: voiceParams.map VoiceParam.name,
      s.toList ≠ [] ∧ s.toList.all isWordChar = true ∧
        s.toList.head?.any Char.isDigit = false ∧ '/' ∉ s.toList := by
    decide
  have hrows : ∀ q ∈ voiceParams, 0 ≤ q.min ∧ q.max ≤ maxWord := by
    decide
  have hlexed : ∀ s ∈ ":dv" :: voiceParams.map VoiceParam.name, Lexed (.str s) := by
    intro s hs
    obtain ⟨hne, hchars, hhead, hslash⟩ := hwords s hs
    refine ⟨hne, List.all_eq_true.1 hchars, ?_, .of_notMem hslash⟩
    intro c hc
    rw [hc] at hhead
    exact hhead
  obtain ⟨hzero, hword⟩ := hrows p hp
  refine .command (hlexed _ List.mem_cons_self) (by decide) (by decide) ?_ (by simp)
  simp only [List.forall_mem_cons, List.not_mem_nil, false_imp_iff, implies_true, and_true]
  exact ⟨hlexed _ (List.mem_cons_of_mem _ (List.mem_map_of_mem hp)), by omega, by omega⟩

theorem eq_dv_of_same
    {m : Node}
    {pos : Position}
    {key : String}
    (h : m.same (.command pos "dv" [.str key, .int x] []) = true) :
    ∃ pos, m = .command pos "dv" [.str key, .int x] [] := by
  cases m with
  | command pos' name params context =>
      simp only [Node.same, Bool.and_eq_true, decide_eq_true_eq] at h
      obtain ⟨⟨rfl, hparams⟩, hcontext⟩ := h
      obtain rfl : context = [] := by
        cases context <;> simp_all [Node.sameAll]
      obtain rfl : params = [.str key, .int x] := by
        rcases params with _ | ⟨a, _ | ⟨b, _ | ⟨c, params⟩⟩⟩ <;> simp [Param.sameAll] at hparams
        cases a <;> cases b <;> simp_all [Param.same]
      exact ⟨pos', rfl⟩
  | phoneme p => cases h
  | voice v => cases h
  | stop pos => cases h

/-- The text that sets a parameter is read as one command, which keeps the rules. -/
theorem ofText_setVoiceParam
    (file : String)
    (hp : p ∈ voiceParams)
    (hmin : p.min ≤ x)
    (hmax : x ≤ p.max) :
    ∃ pos stop,
      Node.ofText (setVoiceParam p.name x) file =
        .ok [.command pos "dv" [.str p.name, .int x] [], .stop stop] ∧
      (Node.command pos "dv" [.str p.name, .int x] []).check = .ok () := by
  have hformed := formed_dv {} hp hmin hmax
  have htext : setVoiceParam p.name x =
      (Node.command {} "dv" [.str p.name, .int x] []).render := by
    apply String.toList_injective
    simp [setVoiceParam, Node.render, Param.render]
  have hreads : Reads (setVoiceParam p.name x).toList
      (Node.printedAll [.command {} "dv" [.str p.name, .int x] []]) := by
    rw [htext, Node.printedAll, Node.printedAll, List.append_nil]
    exact reads_node hformed
  obtain ⟨ms, stop, hread, hsame⟩ := Node.ofText_of_reads _ (by simpa using hformed)
    (by simp [Node.holdsInfinity, Node.anyHoldsInfinity, Param.isInfinite]) hreads file
  obtain ⟨m, rfl, hm⟩ := Node.eq_of_sameAll_singleton hsame
  obtain ⟨pos, rfl⟩ := eq_dv_of_same hm
  exact ⟨pos, stop, hread, Node.check_eq_ok_iff.2 (Row.dv hp hmin hmax).commandFault?_eq_none⟩

end Table

open Expansion

section Later

/-- The stores that can follow a store: definitions are made and the tempo is set, by
themselves or by a run, in which a node is come to or which has ended somehow. -/
inductive Store.Later (s : Store) : Store → Prop
  | refl : Later s s
  | define
      {t u : Store}
      {n : Node}
      (h : Later s t)
      (hdefine : t.define n = .ok u) :
      Later s u
  | tempo
      {t : Store}
      (h : Later s t)
      (bpm : Int) :
      Later s (t.setTempo bpm)
  | during
      {t u : Store}
      {files : Files}
      {scope inner : Scope}
      {nodes : List Node}
      {n : Node}
      (h : Later s t)
      (hreaches : Reaches files scope nodes t inner n u) :
      Later s u
  | expand
      {t : Store}
      (h : Later s t)
      (files : Files)
      (scope : Scope)
      (n : Node) :
      Later s (expand files scope n t).2
  | compile
      {t : Store}
      (h : Later s t)
      (files : Files)
      (source : Source)
      (sink : Sink) :
      Later s (source.compile files sink t).store

variable {s t u : Store} {v : Voice}

/-- What is defined stays defined. -/
theorem Store.Later.extends
    (h : s.Later t) :
    s.Extends t := by
  induction h with
  | refl => exact .refl s
  | define _ hdefine ih => exact ih.define hdefine
  | tempo _ bpm ih => exact ih
  | during _ hreaches ih => exact ih.trans hreaches.extends
  | expand _ files scope n ih => exact ih.trans (expand_extends files scope n _)
  | compile _ files source sink ih => exact ih.trans (source.compile_extends files sink _)

theorem Store.voice?_of_define
    (h : s.define (.voice v) = .ok t) :
    isBuiltinVoice v.name = false ∧
      t.voice? v.name = some (VoiceSettings.default.override v.settings) := by
  obtain ⟨kind, name, d, hdefines, hfree, hadds⟩ := Store.define_adds h
  cases hdefines with
  | voice => exact ⟨hfree.1, by simpa [Store.definition?] using hadds.added⟩

/-- The selection of a declared voice. -/
theorem expand_name
    {name : String}
    {settings : VoiceSettings}
    (hname : isIdentifier name = true)
    (hbuiltin : isBuiltinVoice name = false)
    (hvoice : s.voice? name = some settings)
    (files : Files)
    (scope : Scope)
    (pos : Position) :
    expand files scope (.command pos "name" [.str name] []) s =
      (.ok (voiceInstructions settings), s) := by
  have hrules : commandFault? "name" [.str name] [] = none :=
    (Row.name ((isIdentifier_iff name).1 hname)).commandFault?_eq_none
  have hrun : expandNode files (unbounded files) scope (.command pos "name" [.str name] []) =
      selectVoice pos [.str name] name := by
    rw [expandNode, hrules]
    rfl
  rw [expand_eq, hrun, selectVoice, if_neg (by simp [hbuiltin]), Run.run_bind, Run.run_get]
  dsimp only
  rw [hvoice]
  rfl

end Later

namespace Grammar

section Rearranging

/-- The values that the block of a voice lists, without regard to commas. -/
def VoiceBlock.pairs (block : VoiceBlock) : List (String × Int) :=
  block.settings.map fun s => (s.key, s.value)

/-- Derivations that list the values of voices in other orders or with other commas. -/
inductive Item.Rearranged : Item → Item → Prop
  | refl
      (item : Item) :
      Rearranged item item
  | block
      (head : Head)
      {items items' : List Item}
      (h : List.Forall₂ Rearranged items items') :
      Rearranged (.block head items) (.block head items')
  | voice
      (name : String)
      {block block' : VoiceBlock}
      (h : block.pairs.Perm block'.pairs) :
      Rearranged (.voice name (some block)) (.voice name (some block'))

theorem VoiceBlock.values_of_perm
    {block block' : VoiceBlock}
    (h : block.pairs.Perm block'.pairs) :
    block'.values = block.values := by
  have hkeys : (block.pairs.map Prod.fst).Nodup := by
    rw [VoiceBlock.pairs, List.map_map]
    exact block.distinct
  exact (VoiceSettings.ofList_perm hkeys h).symm

mutual

theorem Item.Rearranged.node_alike
    {item item' : Item}
    (h : item.Rearranged item')
    (ts us : List Token) :
    (item.node ts).Alike Anywhere (item'.node us) := by
  match item, item', h with
  | item, _, .refl _ => exact item.node_alike ts us
  | .block head items, .block _ items', .block _ h =>
      rw [Item.node, Item.node]
      exact .command trivial (Item.Rearranged.nodes_alike h _ _)
  | .voice name (some _), .voice _ (some _), .voice _ h =>
      rw [Item.node, Item.node]
      exact .voice ⟨trivial, rfl, VoiceBlock.values_of_perm h⟩

theorem Item.Rearranged.nodes_alike
    {items items' : List Item}
    (h : List.Forall₂ Item.Rearranged items items')
    (ts us : List Token) :
    List.Forall₂ (Node.Alike Anywhere) (Item.nodes items ts) (Item.nodes items' us) := by
  match items, items', h with
  | [], [], _ =>
      rw [Item.nodes, Item.nodes]
      exact .nil
  | item :: items, item' :: items', .cons hitem hitems =>
      rw [Item.nodes, Item.nodes]
      exact .cons (hitem.node_alike _ _) (Item.Rearranged.nodes_alike hitems _ _)

end

end Rearranging

end Grammar

section Sources

open Grammar

variable {text text' file : String} {ts ts' : List Token} {items items' : List Item}

/-- Programs that list the values of voices in other orders or with other commas have the same
nodes, up to places. -/
theorem ofText_rearranged
    (hts : Token.ofText text file = .ok ts)
    (hts' : Token.ofText text' file = .ok ts')
    (hitems : Item.yields items = (content ts).map Token.kind)
    (hitems' : Item.yields items' = (content ts').map Token.kind)
    (h : List.Forall₂ Item.Rearranged items items') :
    ∃ nodes nodes', Node.ofText text file = .ok nodes ∧ Node.ofText text' file = .ok nodes' ∧
      List.Forall₂ (Node.Alike Anywhere) nodes nodes' := by
  refine ⟨Item.nodes items (content ts) ++ [.stop (endPos ts)],
    Item.nodes items' (content ts') ++ [.stop (endPos ts')], ?_, ?_, ?_⟩
  · simp only [Node.ofText, hts, ofTokens_of_derivation hitems]
  · simp only [Node.ofText, hts', ofTokens_of_derivation hitems']
  · exact List.rel_append (Item.Rearranged.nodes_alike h _ _) (.cons (.stop trivial) .nil)

theorem compile_rearranged
    {path : Option String}
    {nodes nodes' : List Node}
    (hnodes : Node.ofText text (path.getD "") = .ok nodes)
    (hnodes' : Node.ofText text' (path.getD "") = .ok nodes')
    (h : List.Forall₂ (Node.Alike Anywhere) nodes nodes')
    (files : Files)
    (sink : Sink)
    (s : Store) :
    ((Source.mk text path).compile files sink s).Alike
      ((Source.mk text' path).compile files sink s) := by
  rw [Source.compile, Source.compile, Source.fileId, Source.fileId, hnodes, hnodes']
  exact process_alike files _ sink s h

/--
Once a voice that keeps the rules is stored, its selection in any later store gives one
instruction for each parameter of the table, in the order of the table, with the value that the
declaration gave it or else with its default.  Each of these is read again as one command that
keeps the rules.  Programs that list the values of their voices in other orders or with other
commas do the same.
-/
theorem selectVoice_sets_table
    {v : Voice}
    {s t u : Store}
    (hcheck : (Node.voice v).check = .ok ())
    (hdefine : s.define (.voice v) = .ok t)
    (hlater : t.Later u) :
    (∀ (files : Files) (scope : Scope) (pos : Position),
      expand files scope (.command pos "name" [.str v.name] []) u =
        (.ok (String.join (voiceParams.map fun p =>
          "[:dv " ++ p.name ++ " " ++
            toString ((v.settings.get? p.name).getD p.default) ++ "]")), u)) ∧
    (∀ p ∈ voiceParams, ∀ file, ∃ pos stop,
      Node.ofText ("[:dv " ++ p.name ++ " " ++
          toString ((v.settings.get? p.name).getD p.default) ++ "]") file =
        .ok [.command pos "dv" [.str p.name, .int ((v.settings.get? p.name).getD p.default)] [],
          .stop stop] ∧
      (Node.command pos "dv"
        [.str p.name, .int ((v.settings.get? p.name).getD p.default)] []).check = .ok ()) ∧
    ∀ (text text' : String) (path : Option String) (ts ts' : List Token)
        (items items' : List Item),
      Token.ofText text (path.getD "") = .ok ts →
      Token.ofText text' (path.getD "") = .ok ts' →
      Item.yields items = (content ts).map Token.kind →
      Item.yields items' = (content ts').map Token.kind →
      List.Forall₂ Item.Rearranged items items' →
      (∃ nodes nodes', Node.ofText text (path.getD "") = .ok nodes ∧
        Node.ofText text' (path.getD "") = .ok nodes' ∧
        List.Forall₂ (Node.Alike Anywhere) nodes nodes') ∧
      ∀ (files : Files) (sink : Sink) (r : Store),
        ((Source.mk text path).compile files sink r).Alike
          ((Source.mk text' path).compile files sink r) := by
  have hrules : voiceFault? v = none := Node.check_eq_ok_iff.1 hcheck
  refine ⟨?_, ?_, ?_⟩
  · intro files scope pos
    have hname : isIdentifier v.name = true := by
      cases voiceFault?_eq_none_iff.1 hrules with
      | voice hname _ => exact (isIdentifier_iff v.name).2 hname
    obtain ⟨hbuiltin, hvoice⟩ := Store.voice?_of_define hdefine
    rw [expand_name hname hbuiltin (hlater.extends.voice? hvoice), voiceInstructions_eq]
    rfl
  · intro p hp file
    obtain ⟨hmin, hmax⟩ := Voice.value_inRange hrules hp
    exact ofText_setVoiceParam file hp hmin hmax
  · intro text text' path ts ts' items items' hts hts' hitems hitems' h
    obtain ⟨nodes, nodes', hnodes, hnodes', halike⟩ :=
      ofText_rearranged hts hts' hitems hitems' h
    exact ⟨⟨nodes, nodes', hnodes, hnodes', halike⟩, compile_rearranged hnodes hnodes' halike⟩

/-- A voice that sets two parameters. -/
def robo : Voice where
  pos := {}
  name := "robo"
  settings := .ofList [("sx", 0), ("hs", 120)]

/-- A program that declares the voice and selects it, with its values in the given texts. -/
def roboSource (block : String) : String :=
  "[:voice robo] \x7b " ++ block ++ " \x7d [:name robo]"

/-- The derivation of such a program. -/
def roboItems (block : VoiceBlock) : List Item :=
  [.voice "robo" (some block), .command ⟨"name", [.str "robo"], by decide, by decide⟩]

/-- The instructions that select the voice. -/
def roboTexts : List String :=
  ["[:dv sx 0]", "[:dv hs 120]", "[:dv f4 3300]", "[:dv f5 3650]", "[:dv b4 260]",
    "[:dv b5 330]", "[:dv br 0]", "[:dv lx 0]", "[:dv sm 3]", "[:dv ri 100]", "[:dv nf 0]",
    "[:dv la 0]", "[:dv bf 18]", "[:dv hr 100]", "[:dv sr 32]", "[:dv as 100]", "[:dv qu 40]",
    "[:dv ap 122]", "[:dv pr 100]", "[:dv lo 86]", "[:dv gv 65]", "[:dv gh 70]", "[:dv gf 70]",
    "[:dv g1 68]", "[:dv g2 60]", "[:dv g3 48]", "[:dv g4 64]"]

theorem selectVoice_sets_table_robo :
    (∃ t, (Store.new "/work" []).define (.voice robo) = .ok t ∧
      expand (Listing.files ⟨[]⟩) ⟨"/work", [], []⟩ (.command {} "name" [.str "robo"] [])
          (t.setTempo 120) =
        (.ok (String.join roboTexts), t.setTempo 120)) ∧
    ((Source.mk (roboSource "sx 0, hs 120") none).compile (Listing.files ⟨[]⟩) {}
        (Store.new "/work" [])).Alike
      ((Source.mk (roboSource "hs 120 sx 0,") none).compile (Listing.files ⟨[]⟩) {}
        (Store.new "/work" [])) := by
  have hdefine : (Store.new "/work" []).define (.voice robo) = .ok _ := rfl
  obtain ⟨hselect, -, hrearranged⟩ :=
    selectVoice_sets_table rfl hdefine (.tempo .refl 120)
  have hread : ∀ text ks,
      (Token.ofText text "").toOption.map (fun ts => (content ts).map Token.kind) = some ks →
      ∃ ts, Token.ofText text "" = .ok ts ∧ ks = (content ts).map Token.kind := by
    intro text ks h
    cases hts : Token.ofText text "" with
    | ok ts =>
        rw [hts] at h
        exact ⟨ts, rfl, (Option.some.inj h).symm⟩
    | error e =>
        rw [hts] at h
        cases h
  let block : VoiceBlock := ⟨[⟨"sx", 0, true⟩, ⟨"hs", 120, false⟩], by simp, by decide⟩
  let block' : VoiceBlock := ⟨[⟨"hs", 120, false⟩, ⟨"sx", 0, true⟩], by simp, by decide⟩
  obtain ⟨ts, hts, hitems⟩ := hread (roboSource "sx 0, hs 120") (Item.yields (roboItems block))
    (by decide +kernel)
  obtain ⟨ts', hts', hitems'⟩ := hread (roboSource "hs 120 sx 0,") (Item.yields (roboItems block'))
    (by decide +kernel)
  have hperm : block.pairs.Perm block'.pairs := .swap _ _ _
  obtain ⟨-, hruns⟩ := hrearranged _ _ none ts ts' _ _ hts hts' hitems hitems'
    (.cons (.voice "robo" hperm) (.cons (.refl _) .nil))
  have htexts : (voiceParams.map fun p =>
      "[:dv " ++ p.name ++ " " ++ toString ((robo.settings.get? p.name).getD p.default) ++ "]") =
      roboTexts := by
    decide +kernel
  simp only [htexts] at hselect
  exact ⟨⟨_, hdefine, hselect _ _ _⟩, hruns _ _ _⟩

end Sources

end SpeechMarkup
