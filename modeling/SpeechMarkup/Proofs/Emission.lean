import SpeechMarkup.Proofs.Definitions
import SpeechMarkup.Proofs.Paths
import SpeechMarkup.Proofs.RoundTrip

/-!
# What reaches the engine

Text enters the output in six places: a command that is passed on, the selection of a
built-in voice, the values of a declared one, a recording, a phoneme and a sound.  In
each of them it is made of instructions, as long as everything that earlier runs have
stored is in order.

* `Store.InOrder` is the invariant on stores.  Every run keeps it, wherever its files lie.
* `OutputIn` says that a text is made of instructions if the directory of its scope can stand
  in one, since a recording is passed on with its path.
* `Expansion.expandNode_output` is the step, and `Expansion.nest_output` carries it
  through all imports and replays.
* `Compiled.output_groups` is the main result.
-/

namespace SpeechMarkup

open Scan

section Stores

/-- What every run leaves in a store, and every run relies on. -/
structure Store.InOrder (s : Store) : Prop where
  unit : s.unit.negative = false
  workDir : Unbracketed s.workDir
  searchDirs : ∀ dir ∈ s.searchDirs, Unbracketed dir
  phrases : ∀ e ∈ s.phrases, ∀ n ∈ e.2, n.Formed Lexed
  sounds : ∀ e ∈ s.sounds, SoundShape e.2
  voices : ∀ e ∈ s.voices, e.2.InRange

theorem Unbracketed.absolute
    {base path : String}
    (hbase : Unbracketed base)
    (hpath : Unbracketed path) :
    Unbracketed (Path.absolute base path) := by
  constructor
  · intro hmem
    rcases Path.mem_of_mem_absolute hmem with h | h | h | h
    · cases h
    · cases h
    · exact hbase.1 h
    · exact hpath.1 h
  · intro hmem
    rcases Path.mem_of_mem_absolute hmem with h | h | h | h
    · cases h
    · cases h
    · exact hbase.2 h
    · exact hpath.2 h

theorem Unbracketed.parent
    {path parent : String}
    (hpath : Unbracketed path)
    (h : Path.parent? path = some parent) :
    Unbracketed parent := by
  constructor
  · intro hmem
    rcases Path.mem_of_mem_parent? h hmem with h | h | h
    · cases h
    · cases h
    · exact hpath.1 h
  · intro hmem
    rcases Path.mem_of_mem_parent? h hmem with h | h | h
    · cases h
    · cases h
    · exact hpath.2 h

theorem Store.InOrder.new
    {workDir : String}
    {includes : List String}
    (hwork : Unbracketed workDir)
    (hincludes : ∀ dir ∈ includes, Unbracketed dir) :
    (Store.new workDir includes).InOrder where
  unit := Binary64.negative_ofInt (by decide)
  workDir := hwork
  searchDirs := by
    intro dir hdir
    rcases List.mem_cons.1 hdir with rfl | hdir
    · exact hwork
    · obtain ⟨path, hpath, rfl⟩ := List.mem_map.1 hdir
      exact hwork.absolute (hincludes path hpath)
  phrases := by simp [Store.new]
  sounds := by simp [Store.new]
  voices := by simp [Store.new]

/-- Storing a definition that was read from a text and keeps the rules leaves the store
in order. -/
theorem Store.InOrder.define
    {s t : Store}
    {n : Node}
    (h : s.InOrder)
    (hn : n.Formed Lexed)
    (hrules : n.ruleFault? = none)
    (hdefine : s.define n = .ok t) :
    t.InOrder := by
  rcases Store.define_eq_ok hdefine with
    ⟨pos, name, more, context, rfl, -, rfl⟩ | ⟨pos, name, more, context, rfl, -, rfl⟩ |
    ⟨v, rfl, -, -, rfl⟩
  · refine { h with phrases := ?_ }
    intro e he
    rcases List.mem_append.1 he with he | he
    · exact h.phrases e he
    · rw [List.mem_singleton.1 he]
      cases hn with
      | command _ _ _ _ hcontext => exact hcontext
  · refine { h with sounds := ?_ }
    intro e he
    rcases List.mem_append.1 he with he | he
    · exact h.sounds e he
    · rw [List.mem_singleton.1 he]
      exact soundShape_of_commandFault? hrules
  · refine { h with voices := ?_ }
    intro e he
    rcases List.mem_append.1 he with he | he
    · exact h.voices e he
    · rw [List.mem_singleton.1 he]
      exact VoiceSettings.default_inRange.foldl_insert
        (VoiceSettings.inRange_of_voiceFault? hrules)

theorem Store.InOrder.setTempo
    {s : Store}
    (h : s.InOrder)
    {bpm : Int}
    (hbpm : 0 ≤ bpm) :
    (s.setTempo bpm).InOrder :=
  { h with unit := s.negative_unit_setTempo hbpm }

end Stores

section Nodes

/-- A node as texts give them. -/
def Node.Legible (n : Node) : Prop :=
  (∃ pos, n = .stop pos) ∨ n.Formed Lexed

theorem Node.Legible.command
    {pos : Position}
    {name : String}
    {params : List Param}
    {context : List Node}
    (h : (Node.command pos name params context).Legible) :
    (∀ p ∈ params, Lexed p.token) ∧ ∀ n ∈ context, n.Formed Lexed := by
  rcases h with ⟨stop, hstop⟩ | hformed
  · cases hstop
  · cases hformed with
    | command _ _ _ hparams hcontext => exact ⟨hparams, hcontext⟩

theorem Node.Legible.phoneme
    {p : Phoneme}
    (h : (Node.phoneme p).Legible) :
    p.Formed Lexed := by
  rcases h with ⟨stop, hstop⟩ | hformed
  · cases hstop
  · cases hformed with
    | phoneme hp => exact hp

theorem Node.legible_of_ofText
    {text file : String}
    {nodes : List Node}
    (h : Node.ofText text file = .ok nodes) :
    ∀ n ∈ nodes, n.Legible := by
  obtain ⟨body, stop, rfl, hformed⟩ :=
    Node.formed_of_ofText trivial (fun ks hks => lexed_of_kinds? hks) h
  intro n hn
  rcases List.mem_append.1 hn with hn | hn
  · exact Or.inr (hformed n hn)
  · exact Or.inl ⟨stop, List.mem_singleton.1 hn⟩

theorem Phoneme.Formed.pitch_nonneg
    {p : Phoneme}
    (h : p.Formed Lexed) :
    0 ≤ p.pitch := by
  rcases h.pitch with hzero | hlexed
  · omega
  · exact hlexed.1

theorem Phoneme.Formed.duration_nonneg
    {p : Phoneme}
    (h : p.Formed Lexed) :
    p.duration.Nonneg := by
  rcases h.duration with hzero | hlexed
  · rw [hzero]
    exact Int.le_refl 0
  · cases hd : p.duration with
    | int v =>
        rw [hd] at hlexed
        exact hlexed.1
    | float x =>
        rw [hd] at hlexed
        exact hlexed.1

/-- A built-in phoneme that was read from a text is spoken as the engine takes it. -/
theorem Phoneme.Formed.spoken
    {p : Phoneme}
    (h : p.Formed Lexed)
    {unit : Binary64}
    (hunit : unit.negative = false)
    (hsymbol : isBuiltinPhoneme p.symbol = true) :
    Spoken p.symbol (p.duration.toMillis unit) p.pitch where
  builtin := hsymbol
  millis_nonneg := Duration.toMillis_nonneg h.duration_nonneg hunit
  pitch_nonneg := h.pitch_nonneg
  millis_zero := by
    intro hlength
    have hduration := congrArg Phoneme.duration h.restricted
    simp only [Parse.restrict, hlength, if_true] at hduration
    rw [← hduration, Duration.toMillis_zero]
  pitch_zero := by
    intro hpitch
    have hzero := congrArg Phoneme.pitch h.restricted
    simp only [Parse.restrict, hpitch, if_true] at hzero
    exact hzero.symm

end Nodes

namespace Expansion

section Steps

variable {files : Files} {enter : Enter} {scope : Scope}

/-- The text is made of instructions, if the directory of the scope can stand in one. -/
def OutputIn (scope : Scope) (text : String) : Prop :=
  Unbracketed scope.dir → Output text

theorem OutputIn.append
    {a b : String}
    (ha : OutputIn scope a)
    (hb : OutputIn scope b) :
    OutputIn scope (a ++ b) :=
  fun hdir => (ha hdir).append (hb hdir)

theorem locate_unbracketed
    {s : Store}
    {name path : String}
    (hs : s.InOrder)
    (hdir : Unbracketed scope.dir)
    (hname : Unbracketed name)
    (h : locate files scope s name = some path) :
    Unbracketed path := by
  obtain ⟨dir, hmem, rfl⟩ := List.mem_map.1 (List.mem_of_find?_eq_some h)
  rcases List.mem_cons.1 hmem with rfl | hmem
  · exact hdir.absolute hname
  · exact (hs.searchDirs dir hmem).absolute hname

/-- Expanding a node gives instructions and leaves the store in order, if entering files
and phrases does. -/
theorem expandNode_output
    (n : Node)
    (hn : n.Legible)
    (henter : ∀ inner body, (∀ m ∈ body, m.Legible) →
      (enter inner body).Keeps Store.InOrder (OutputIn inner) fun _ => True) :
    (expandNode files enter scope n).Keeps Store.InOrder (OutputIn scope) fun _ => True := by
  induction n using stepInduction scope with
  | broken n fault _ hrun =>
      rw [hrun]
      exact Run.Keeps.fail trivial
  | bypass pos name params command hcommand hbehavior hrules hrun =>
      have hparams : ∀ p ∈ params, Unbracketed p.render := fun p hp =>
        Param.unbracketed_render (hn.command.1 p hp)
      rw [hrun]
      exact Run.Keeps.pure fun _ => Output.single (isGroup_render_command hcommand hparams)
        (.command hcommand hrules (Or.inl hbehavior))
  | ignore pos name params command _ _ hrun =>
      rw [hrun]
      exact Run.Keeps.pure fun _ => Output.empty
  | defining n hrules _ hrun =>
      rw [hrun]
      refine register_keeps (fun _ _ => trivial) (fun _ => Output.empty) fun s t hs ht => ?_
      rcases hn with ⟨pos, rfl⟩ | hformed
      · cases ht
      · exact hs.define hformed hrules ht
  | loop pos count context _ ih hrun =>
      rw [hrun]
      refine loop_keeps (fun _ _ => trivial) (fun body text hbody htext hdir =>
        output_repeatText (hbody hdir) htext) ?_
      refine expandNodes_keeps (fun _ => Output.empty) (fun _ _ => OutputIn.append) fun m hm => ?_
      exact ih m hm (Or.inr (hn.command.2 m hm))
  | bpm pos v hv _ hrun =>
      rw [hrun]
      exact setTempo_keeps (fun _ => Output.empty) fun s hs => hs.setTempo hv
  | importing pos name hrun =>
      have hname : Unbracketed name := Param.unbracketed_render (hn.command.1 (.str name) (by simp))
      rw [hrun]
      refine importFile_keeps (fun _ _ => trivial) ?_
      intro s path inner text body hs hpath hinner _ hbody
      obtain ⟨-, rfl⟩ := Scope.enterFile?_eq_some hinner
      refine (henter _ body (Node.legible_of_ofText hbody)).mono_yield fun text htext hdir => ?_
      have hpath' := locate_unbracketed hs hdir hname hpath
      refine htext ?_
      cases hparent : Path.parent? path with
      | none => exact Unbracketed.empty
      | some parent => exact hpath'.parent hparent
  | naming pos name hname hrun =>
      rw [hrun]
      refine selectVoice_keeps (fun _ _ => trivial) ?_ ?_
      · intro hbuiltin _
        have hcommand : Command.ofName? "name" = some .name := by decide
        have hrules : commandFault? "name" [.str name] [] = none := by
          simp [commandFault?, hcommand, Command.takesContext, Command.slots, paramsFault?,
            typeFault?, valueFault?, Slot.typeName, Param.typeName, Slot.valueFault?,
            contextFault?, hname]
        have hparams : ∀ p ∈ [Param.str name], Unbracketed p.render := fun p hp =>
          Param.unbracketed_render (hn.command.1 p hp)
        exact Output.single (isGroup_render_command hcommand hparams)
          (.command hcommand hrules (Or.inr (Or.inr ⟨rfl, name, rfl, hbuiltin⟩)))
      · intro s settings hs hsettings _
        exact output_voiceInstructions (hs.voices _ (mem_of_lookup_eq_some hsettings))
  | playing pos name hrun =>
      have hname : Unbracketed name := Param.unbracketed_render (hn.command.1 (.str name) (by simp))
      rw [hrun]
      refine play_keeps (fun _ _ => trivial) ?_
      intro s path hs hpath hdir
      have hcommand : Command.ofName? "play" = some .play := by decide
      have hrules : commandFault? "play" [.str path] [] = none := by
        simp [commandFault?, hcommand, Command.takesContext, Command.slots, paramsFault?,
          typeFault?, valueFault?, Slot.typeName, Param.typeName, Slot.valueFault?,
          contextFault?]
      have hparams : ∀ p ∈ [Param.str path], Unbracketed p.render := by
        intro p hp
        rw [List.mem_singleton.1 hp]
        exact locate_unbracketed hs hdir hname hpath
      exact Output.single (isGroup_render_command hcommand hparams)
        (.command hcommand hrules (Or.inr (Or.inl rfl)))
  | speaking p hrun =>
      have hp := hn.phoneme
      rw [hrun]
      refine phoneme_keeps (fun _ _ => trivial) ?_ ?_ ?_
      · intro s hs hsymbol _
        exact (hp.spoken hs.unit hsymbol).output
      · intro s body inner hs hbody hinner
        obtain ⟨-, rfl⟩ := Scope.enterPhrase?_eq_some hinner
        refine henter _ body ?_
        intro m hm
        exact Or.inr (hs.phrases _ (mem_of_lookup_eq_some hbody) m hm)
      · intro s sound text hs hsound htext _
        exact output_expandSound (hs.sounds _ (mem_of_lookup_eq_some hsound)) hp.pitch_nonneg htext
  | stop pos hrun =>
      rw [hrun]
      exact Run.Keeps.pure fun _ => Output.empty

/-- Files and phrases nested to any depth give instructions. -/
theorem nest_output
    (room : Nat)
    (scope : Scope)
    (nodes : List Node)
    (hnodes : ∀ n ∈ nodes, n.Legible) :
    (nest files room scope nodes).Keeps Store.InOrder (OutputIn scope) fun _ => True := by
  induction room generalizing scope nodes with
  | zero => exact Run.Keeps.fail trivial
  | succ room ih =>
      refine expandNodes_keeps (fun _ => Output.empty) (fun _ _ => OutputIn.append) ?_
      intro n hn
      exact expandNode_output n (hnodes n hn) ih

end Steps

end Expansion

section Runs

theorem Source.unbracketed_dir
    {source : Source}
    {store : Store}
    (hstore : store.InOrder)
    (hpath : ∀ path ∈ source.path, Unbracketed path) :
    Unbracketed (source.scope store).dir := by
  cases hsource : source.path with
  | none =>
      simp only [Source.scope, hsource]
      exact hstore.workDir
  | some path =>
      simp only [Source.scope, hsource]
      have habsolute := hstore.workDir.absolute (hpath path (by simp [hsource]))
      unfold Scope.forFile
      dsimp only
      cases hparent : Path.parent? (Path.absolute store.workDir path) with
      | none => exact hstore.workDir
      | some parent => exact habsolute.parent hparent

/-- A compilation leaves the store in order, and gives instructions if its path can stand in
one. -/
theorem Source.compile_output
    (files : Files)
    (source : Source)
    (sink : Sink)
    {store : Store}
    (hstore : store.InOrder) :
    (source.compile files sink store).store.InOrder ∧
      ((∀ path ∈ source.path, Unbracketed path) →
        Output sink.text → Output (source.compile files sink store).sink.text) := by
  unfold Source.compile
  split
  · exact ⟨hstore, fun _ => id⟩
  · rename_i nodes hnodes
    have hstep : ∀ n ∈ nodes, (Expansion.expandNode files
        (Expansion.nest files (Expansion.room files store nodes)) (source.scope store) n).Keeps
          Store.InOrder (Expansion.OutputIn (source.scope store)) fun _ => True := by
      intro n hn
      exact Expansion.expandNode_output n (Node.legible_of_ofText hnodes n hn)
        (Expansion.nest_output _)
    obtain ⟨hleft, ⟨texts, htexts, hall⟩, -⟩ := emitNodes_keeps (fun _ => trivial) hstep hstore
    refine ⟨hleft, fun hpath hsink => ?_⟩
    have hdir := source.unbracketed_dir hstore hpath
    rw [process, htexts]
    exact hsink.append (Output.join fun text htext => hall text htext hdir)

theorem Compiled.inOrder
    {workDir : String}
    {includes : List String}
    {store : Store}
    (hwork : Unbracketed workDir)
    (hincludes : ∀ dir ∈ includes, Unbracketed dir)
    (h : Compiled workDir includes store) :
    store.InOrder := by
  induction h with
  | new => exact Store.InOrder.new hwork hincludes
  | compile files source sink _ ih => exact (source.compile_output files sink ih).1

/--
Everything that a compilation gives to the engine, also before a fault, splits in one
way into groups.  Each group is an instruction: a phoneme that the engine can speak, or
a command that keeps the rules and may be passed on.  What a phoneme instruction says
can be read off it; no group is a command that is held back, and none selects a voice
by name that is not built in.
-/
theorem Compiled.output_groups
    {workDir : String}
    {includes : List String}
    {store : Store}
    (hwork : Unbracketed workDir)
    (hincludes : ∀ dir ∈ includes, Unbracketed dir)
    (hstore : Compiled workDir includes store)
    (files : Files)
    (source : Source)
    (hpath : ∀ path ∈ source.path, Unbracketed path)
    (limit : Option Nat) :
    ∃ gs : List String,
      (∀ g ∈ gs, IsGroup g) ∧
      String.join gs = (source.compile files ⟨#[], limit⟩ store).sink.text ∧
      (∀ hs : List String, (∀ h ∈ hs, IsGroup h) →
        String.join hs = (source.compile files ⟨#[], limit⟩ store).sink.text → hs = gs) ∧
      (∀ g ∈ gs, Instruction g) ∧
      (∀ g ∈ gs, ∀ symbol symbol' millis millis' pitch pitch',
        Spoken symbol millis pitch → g = speak symbol millis pitch →
        Spoken symbol' millis' pitch' → g = speak symbol' millis' pitch' →
        symbol = symbol' ∧ millis = millis' ∧ pitch = pitch') ∧
      (∀ g ∈ gs, ∀ (n : Node) command, n.commandName?.bind Command.ofName? = some command →
        command ∈ withheld → g ≠ n.render) ∧
      ∀ g ∈ gs, ∀ pos voice more context, isBuiltinVoice voice = false →
        g ≠ (Node.command pos "name" (.str voice :: more) context).render := by
  have horder := hstore.inOrder hwork hincludes
  obtain ⟨gs, hgs, hjoin⟩ := (source.compile_output files ⟨#[], limit⟩ horder).2 hpath Output.empty
  refine ⟨gs, fun g hg => (hgs g hg).1, hjoin, ?_, fun g hg => (hgs g hg).2, ?_, ?_, ?_⟩
  · intro hs hhs hjoin'
    exact eq_of_join_eq hhs (fun g hg => (hgs g hg).1) (hjoin'.trans hjoin.symm)
  · intro g _ symbol symbol' millis millis' pitch pitch' h htext h' htext'
    exact h.eq_of_speak_eq h' (htext.symm.trans htext')
  · intro g hg n command hname hheld
    exact (hgs g hg).2.ne_render_of_withheld hname hheld
  · intro g hg pos voice more context hvoice
    exact (hgs g hg).2.ne_render_of_voice hvoice

/-- A loop, a phrase with its replay, and the choice of a voice. -/
def tune : Source where
  text := "[:loop 2] \x7b aa<100,5> \x7d [:phrase hi] \x7b t \x7d hi [:name Paul]"

theorem output_groups_tune :
    (tune.compile (Listing.files ⟨[]⟩) ⟨#[], none⟩ (Store.new "/work" [])).sink.text =
        "[aa<100,5>][aa<100,5>][t][:name Paul]" ∧
      ∀ g ∈ ["[aa<100,5>]", "[aa<100,5>]", "[t]", "[:name Paul]"], Instruction g := by
  have htext : (tune.compile (Listing.files ⟨[]⟩) ⟨#[], none⟩ (Store.new "/work" [])).sink.text =
      "[aa<100,5>][aa<100,5>][t][:name Paul]" := by
    decide +kernel
  have hwork : Unbracketed "/work" := ⟨by decide, by decide⟩
  have hgroups : ∀ g ∈ ["[aa<100,5>]", "[aa<100,5>]", "[t]", "[:name Paul]"], IsGroup g := by
    have hlong : IsGroup "[aa<100,5>]" :=
      ⟨"aa<100,5>", by decide, ⟨by decide, by decide⟩, by decide⟩
    have hplain : IsGroup "[t]" := ⟨"t", by decide, ⟨by decide, by decide⟩, by decide⟩
    have hvoice : IsGroup "[:name Paul]" :=
      ⟨":name Paul", by decide, ⟨by decide, by decide⟩, by decide⟩
    simp [hlong, hplain, hvoice]
  have hstore : Compiled "/work" [] (Store.new "/work" []) := .new
  obtain ⟨gs, -, -, hunique, hall, -⟩ := hstore.output_groups hwork (by simp)
    (Listing.files ⟨[]⟩) tune (by simp [tune]) none
  refine ⟨htext, ?_⟩
  rw [hunique _ hgroups (by rw [htext]; decide)]
  exact hall

end Runs

end SpeechMarkup
