import SpeechMarkup.Processor
import SpeechMarkup.Proofs.Steps

/-!
# The scope of a processor

A processor changes its scope while it works and finds it unchanged when it has ended,
whether the work failed or not, and however deep in files, loops and phrases it failed.

* `Work.Restores` says that some work does what a computation in a given scope does and
  leaves that scope behind.  `Processor.restores_between` is the rule for work in a changed
  scope, and the only place where a scope is changed back.
* `Processor.expandNode_restores` is the step, by the form of the node;
  `Processor.nest_restores` carries it into files and phrases, and `Processor.process_eq` to
  programs.
* `Processor.scope_restored` is the main result.
-/

namespace SpeechMarkup

namespace Work

section Laws

variable {α β : Type}

@[simp] theorem run_ofRun (m : Run α) (scope : Scope) (s : Store) :
    (ofRun m).run (scope, s) = ((m.run s).1, scope, (m.run s).2) := rfl

@[simp] theorem run_changeScope (f : Scope → Scope) (scope : Scope) (s : Store) :
    (changeScope f).run (scope, s) = (.ok (), f scope, s) := rfl

@[simp] theorem run_attempt (w : Work α) (context : Scope × Store) :
    (attempt w).run context = (.ok (w.run context).1, (w.run context).2) := rfl

@[simp] theorem run_release (result : Except Diagnostic α) (context : Scope × Store) :
    (release result).run context = (result, context) := rfl

theorem run_bind (w : Work α) (f : α → Work β) (context : Scope × Store) :
    (w >>= f).run context =
      match w.run context with
      | (.ok a, context) => (f a).run context
      | (.error d, context) => (.error d, context) := by
  show ExceptT.bindCont f (w.run context).1 (w.run context).2 = _
  rcases w.run context with ⟨_ | _, _⟩ <;> rfl

theorem run_get_bind (f : Scope × Store → Work β) (scope : Scope) (s : Store) :
    (get >>= f).run (scope, s) = (f (scope, s)).run (scope, s) := rfl

end Laws

section Restoring

variable {α β : Type}

/-- In every scope, the work does what the computation does there, and the scope is the
same when it has ended. -/
def Restores (w : Work α) (m : Scope → Run α) : Prop :=
  ∀ scope s, w.run (scope, s) = (((m scope).run s).1, scope, ((m scope).run s).2)

theorem restores_pure (a : α) : Restores (pure a) fun _ => pure a :=
  fun _ _ => rfl

theorem restores_ofRun (m : Run α) : Restores (ofRun m) fun _ => m :=
  fun _ _ => rfl

theorem Restores.bind
    {w : Work α}
    {m : Scope → Run α}
    {f : α → Work β}
    {g : α → Scope → Run β}
    (hw : Restores w m)
    (hf : ∀ a, Restores (f a) (g a)) :
    Restores (w >>= f) fun scope => m scope >>= fun a => g a scope := by
  intro scope s
  rw [run_bind, hw scope s, Run.run_bind]
  rcases (m scope).run s with ⟨d | a, t⟩
  · rfl
  · exact hf a scope t

end Restoring

end Work

namespace Processor

open Work

section Steps

variable {files : Files} {enter : Enter} {enter' : Expansion.Enter}

/-- Nodes of files and phrases are entered so that the scope is restored. -/
def Enters (enter : Enter) (enter' : Expansion.Enter) : Prop :=
  ∀ nodes, (enter nodes).Restores fun scope => enter' scope nodes

/-- Work that restores the changed scope leaves the scope as it was before the change, if
`pop` undoes `push`; whether the work fails makes no difference. -/
theorem restores_between
    {w : Work String}
    {m : Scope → Run String}
    {push pop : Scope → Scope}
    {scope : Scope}
    (s : Store)
    (hw : w.Restores m)
    (hpop : pop (push scope) = scope) :
    (between push pop w).run (scope, s) =
      (((m (push scope)).run s).1, scope, ((m (push scope)).run s).2) := by
  unfold between
  rw [run_bind, run_changeScope]
  dsimp only
  rw [run_bind, run_attempt, hw (push scope) s]
  dsimp only
  rw [run_bind, run_changeScope, hpop]
  exact run_release _ _

theorem importFile_restores
    (pos : Position)
    (name : String)
    (henter : Enters enter enter') :
    (importFile files enter pos name).Restores fun scope =>
      Expansion.importFile files enter' scope pos name := by
  intro scope s
  dsimp only
  rw [importFile, run_get_bind, Expansion.importFile, Run.run_bind, Run.run_get]
  dsimp only
  cases Expansion.locate files scope s name with
  | none => rfl
  | some path =>
      dsimp only [Scope.enterFile?]
      split
      · rfl
      · rw [run_bind, Run.run_bind, run_ofRun]
        cases files.read path with
        | error e => rfl
        | ok text =>
            rw [Run.run_lift_ok]
            dsimp only
            cases Node.ofText text path with
            | error d => rfl
            | ok nodes => exact restores_between s (henter nodes) rfl

theorem phoneme_restores
    (p : Phoneme)
    (henter : Enters enter enter') :
    (phoneme enter p).Restores fun scope => Expansion.phoneme enter' scope p := by
  intro scope s
  dsimp only
  rw [phoneme, run_get_bind, Expansion.phoneme, Run.run_bind, Run.run_get]
  dsimp only
  split
  · rfl
  · cases s.phrase? p.symbol with
    | some body =>
        dsimp only [Scope.enterPhrase?]
        split
        · rfl
        · exact restores_between s (henter body) rfl
    | none =>
        dsimp only
        cases s.sound? p.symbol <;> rfl

theorem play_restores
    (pos : Position)
    (name : String)
    (more : List Param) :
    (play files pos name more).Restores fun scope =>
      Expansion.play files scope pos name more :=
  fun _ _ => rfl

theorem directive_restores
    (pos : Position)
    (name : String)
    (params : List Param)
    (command : Command)
    (henter : Enters enter enter') :
    (directive files enter pos name params command).Restores fun scope =>
      Expansion.directive files enter' scope pos name params command := by
  cases command with
  | bpm => exact (restores_ofRun _).bind fun bpm => restores_ofRun _
  | importFile => exact (restores_ofRun _).bind fun file => importFile_restores pos file henter
  | name => exact (restores_ofRun _).bind fun voice => restores_ofRun _
  | play => exact (restores_ofRun _).bind fun file => play_restores pos file params.tail
  | _ => exact fun _ _ => rfl

/-- Lists of nodes restore the scope if every node does. -/
theorem expandNodes_restores_of_nodes
    {nodes : List Node}
    (hnodes : ∀ n ∈ nodes, (expandNode files enter n).Restores fun scope =>
      Expansion.expandNode files enter' scope n) :
    (expandNodes files enter nodes).Restores fun scope =>
      Expansion.expandNodes files enter' scope nodes := by
  induction nodes with
  | nil =>
      simp only [expandNodes, Expansion.expandNodes]
      exact restores_pure ""
  | cons n ns ih =>
      obtain ⟨hn, hns⟩ := List.forall_mem_cons.1 hnodes
      simp only [expandNodes, Expansion.expandNodes]
      exact hn.bind fun text => (ih hns).bind fun more => restores_pure (text ++ more)

/-- Every node restores the scope, if files and phrases do. -/
theorem expandNode_restores
    (henter : Enters enter enter')
    (n : Node) :
    (expandNode files enter n).Restores fun scope =>
      Expansion.expandNode files enter' scope n := by
  match n with
  | .command pos name params context =>
      have hbody : (expandNodes files enter context).Restores fun scope =>
          Expansion.expandNodes files enter' scope context :=
        expandNodes_restores_of_nodes fun m _ => expandNode_restores henter m
      simp only [expandNode, Expansion.expandNode]
      cases commandFault? name params context with
      | some fault => exact restores_ofRun _
      | none =>
          cases Command.ofName? name with
          | none => exact restores_ofRun _
          | some command =>
              dsimp only
              cases command.behavior with
              | bypass => exact restores_pure _
              | ignore => exact restores_pure ""
              | register => exact restores_ofRun _
              | specialized =>
                  by_cases hloop : command = .loop
                  · simp only [hloop, if_true]
                    exact (restores_ofRun _).bind fun count =>
                      hbody.bind fun body => restores_ofRun _
                  · simp only [hloop, if_false]
                    exact directive_restores pos name params command henter
  | .voice v =>
      simp only [expandNode, Expansion.expandNode]
      cases voiceFault? v with
      | some fault => exact restores_ofRun _
      | none => exact restores_ofRun _
  | .phoneme p =>
      simp only [expandNode, Expansion.expandNode]
      exact phoneme_restores p henter
  | .stop _ =>
      simp only [expandNode, Expansion.expandNode]
      exact restores_pure ""
termination_by sizeOf n
decreasing_by
  have hlt := List.sizeOf_lt_of_mem ‹m ∈ context›
  simp only [Node.command.sizeOf_spec]
  omega

end Steps

section Runs

variable (files : Files)

/-- Files and phrases restore the scope at every depth. -/
theorem nest_restores (room : Nat) :
    Enters (nest files room) (Expansion.nest files room) := by
  induction room with
  | zero => exact fun nodes => restores_ofRun _
  | succ room ih =>
      exact fun nodes => expandNodes_restores_of_nodes fun n _ => expandNode_restores ih n

theorem emitNodes_eq
    {enter : Enter}
    {enter' : Expansion.Enter}
    (henter : Enters enter enter')
    (nodes : List Node)
    (p : Processor) :
    emitNodes files enter nodes p =
      ((SpeechMarkup.emitNodes files enter' p.scope nodes p.sink p.store).result,
        ⟨p.scope, (SpeechMarkup.emitNodes files enter' p.scope nodes p.sink p.store).sink,
          (SpeechMarkup.emitNodes files enter' p.scope nodes p.sink p.store).store⟩) := by
  obtain ⟨scope, sink, s⟩ := p
  induction nodes generalizing sink s with
  | nil => rfl
  | cons n ns ih =>
      by_cases hstop : ∃ pos, n = .stop pos
      · obtain ⟨pos, rfl⟩ := hstop
        rfl
      · have hstop' : ∀ pos, n ≠ .stop pos := fun pos hpos => hstop ⟨pos, hpos⟩
        have hstep : (expandNode files enter n).run (scope, s) =
            (((Expansion.expandNode files enter' scope n).run s).1, scope,
              ((Expansion.expandNode files enter' scope n).run s).2) :=
          expandNode_restores henter n scope s
        rcases hrun : (Expansion.expandNode files enter' scope n).run s with ⟨d | text, t⟩
        · rw [hrun] at hstep
          rw [emitNodes_of_error hstop' hrun, emitNodes, hstep]
          exact hstop'
        · rw [hrun] at hstep
          rw [emitNodes_of_ok hstop' hrun, emitNodes, hstep]
          · dsimp only
            split
            · exact ih sink t
            · split
              · rfl
              · exact ih (sink.push text) t
          · exact hstop'

/-- A processor does with a program what is done with it in the scope of the processor, and
that scope is the same afterwards. -/
theorem process_eq (nodes : List Node) (p : Processor) :
    p.process files nodes =
      ((SpeechMarkup.process files p.scope nodes p.sink p.store).result,
        ⟨p.scope, (SpeechMarkup.process files p.scope nodes p.sink p.store).sink,
          (SpeechMarkup.process files p.scope nodes p.sink p.store).store⟩) :=
  emitNodes_eq files (nest_restores files _) nodes p

theorem scope_after (programs : List (List Node)) (p : Processor) :
    (p.after files programs).scope = p.scope := by
  unfold after
  induction programs generalizing p with
  | nil => rfl
  | cons nodes programs ih => rw [List.foldl_cons, ih, process_eq]

/--
A processor finds its scope unchanged behind every expansion, whatever came of it: behind
that of every node and of the nodes of every file and phrase, from every scope and store and
at every depth, and behind every program, however many were expanded before.  So a processor
does with a program what a new one would do in the same directory, with the same files and
phrases being read and replayed and with the sink and store as they are.
-/
theorem scope_restored :
    (∀ (room : Nat) (n : Node) (scope : Scope) (s : Store),
      ((expandNode files (nest files room) n).run (scope, s)).2.1 = scope) ∧
    (∀ (room : Nat) (nodes : List Node) (scope : Scope) (s : Store),
      ((nest files room nodes).run (scope, s)).2.1 = scope) ∧
    ∀ (p : Processor) (programs : List (List Node)) (nodes : List Node),
      ((p.after files programs).process files nodes).2.scope = p.scope ∧
      (p.after files programs).process files nodes =
        process files nodes
          { scope := p.scope
            sink := (p.after files programs).sink
            store := (p.after files programs).store } ∧
      (p.after files programs).process files nodes =
        ((SpeechMarkup.process files p.scope nodes (p.after files programs).sink
            (p.after files programs).store).result,
          ⟨p.scope,
            (SpeechMarkup.process files p.scope nodes (p.after files programs).sink
              (p.after files programs).store).sink,
            (SpeechMarkup.process files p.scope nodes (p.after files programs).sink
              (p.after files programs).store).store⟩) := by
  refine ⟨?_, ?_, ?_⟩
  · intro room n scope s
    rw [expandNode_restores (nest_restores files room) n scope s]
  · intro room nodes scope s
    rw [nest_restores files room nodes scope s]
  · intro p programs nodes
    have hscope := scope_after files programs p
    have hprocess := process_eq files nodes (p.after files programs)
    rw [hscope] at hprocess
    refine ⟨?_, ?_, hprocess⟩
    · rw [hprocess]
    · rw [hprocess, process_eq]

end Runs

end Processor

end SpeechMarkup
