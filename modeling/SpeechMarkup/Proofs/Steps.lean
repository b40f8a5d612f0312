import Mathlib.Tactic
import SpeechMarkup.Compile

/-!
# What expanding a node can do

`Expansion.expandNode` holds a node against the rules and then does one of eleven
things.  `Expansion.stepInduction` lists them once, with the form that the rules
leave to the parameters, and every statement about runs is an induction over that
list.

* `Run.Keeps` says what a computation preserves of the store and what it yields;
  `Expansion.expandNodes_keeps` carries it from single nodes to lists of nodes.
* `Expansion.Calls` says which nodes of files and phrases a run hands on, in which
  scope and store; a run depends on what becomes of them only there
  (`Expansion.expandNodes_congr`).
* `emitNodes_keeps` and `emitNodes_congr` carry both to whole runs.
-/

namespace SpeechMarkup

namespace Run

section Laws

variable {α β : Type}

@[simp] theorem run_pure (a : α) (s : Store) :
    (pure a : Run α).run s = (.ok a, s) := rfl

@[simp] theorem run_fail (pos : Position) (fault : Fault) (s : Store) :
    (fail pos fault : Run α).run s = (.error ⟨pos, fault⟩, s) := rfl

@[simp] theorem run_throw (d : Diagnostic) (s : Store) :
    (throw d : Run α).run s = (.error d, s) := rfl

@[simp] theorem run_get (s : Store) :
    (get : Run Store).run s = (.ok s, s) := rfl

@[simp] theorem run_set (t s : Store) :
    (set t : Run PUnit).run s = (.ok ⟨⟩, t) := rfl

@[simp] theorem run_modify (f : Store → Store) (s : Store) :
    (modify f : Run PUnit).run s = (.ok ⟨⟩, f s) := rfl

theorem run_mk (f : Store → Except Diagnostic α × Store) (s : Store) :
    (ExceptT.mk f : Run α).run s = f s := rfl

theorem run_bind (m : Run α) (f : α → Run β) (s : Store) :
    (m >>= f).run s =
      match m.run s with
      | (.ok a, t) => (f a).run t
      | (.error d, t) => (.error d, t) := by
  show ExceptT.bindCont f (m.run s).1 (m.run s).2 = _
  rcases m.run s with ⟨_ | _, _⟩ <;> rfl

@[simp] theorem run_lift_ok
    {ε : Type}
    (pos : Position)
    (fault : ε → Fault)
    (a : α)
    (s : Store) :
    (lift pos fault (.ok a)).run s = (.ok a, s) := rfl

@[simp] theorem run_lift_error
    {ε : Type}
    (pos : Position)
    (fault : ε → Fault)
    (e : ε)
    (s : Store) :
    (lift pos fault (.error e) : Run α).run s = (.error ⟨pos, fault e⟩, s) := rfl

end Laws

section Keeps

variable {α β : Type} {I : Store → Prop} {Q : α → Prop} {R : β → Prop} {E : Diagnostic → Prop}

/-- From a store with `I`, the computation ends in a store with `I`, yields only what
has `Q` and fails only with what has `E`. -/
def Keeps (I : Store → Prop) (m : Run α) (Q : α → Prop) (E : Diagnostic → Prop) : Prop :=
  ∀ s, I s → I (m.run s).2 ∧ (∀ a, (m.run s).1 = .ok a → Q a) ∧ ∀ d, (m.run s).1 = .error d → E d

theorem Keeps.pure {a : α} (h : Q a) : Keeps I (pure a) Q E := by
  intro s hs
  refine ⟨hs, ?_, ?_⟩
  · intro b hb
    rw [run_pure] at hb
    obtain rfl := Except.ok.inj hb
    exact h
  · intro d hd
    cases hd

theorem Keeps.throw {d : Diagnostic} (h : E d) : Keeps I (throw d) Q E := by
  intro s hs
  refine ⟨hs, ?_, ?_⟩
  · intro a ha
    cases ha
  · intro e he
    obtain rfl := Except.error.inj he
    exact h

theorem Keeps.fail
    {pos : Position}
    {fault : Fault}
    (h : E ⟨pos, fault⟩) :
    Keeps I (fail pos fault) Q E :=
  Keeps.throw h

theorem Keeps.mono
    {m : Run α}
    {E' : Diagnostic → Prop}
    (h : Keeps I m Q E)
    (hE : ∀ d, E d → E' d) :
    Keeps I m Q E' := by
  intro s hs
  obtain ⟨ht, hok, herror⟩ := h s hs
  exact ⟨ht, hok, fun d hd => hE d (herror d hd)⟩

theorem Keeps.mono_yield
    {m : Run α}
    {Q' : α → Prop}
    (h : Keeps I m Q E)
    (hQ : ∀ a, Q a → Q' a) :
    Keeps I m Q' E := by
  intro s hs
  obtain ⟨ht, hok, herror⟩ := h s hs
  exact ⟨ht, fun a ha => hQ a (hok a ha), herror⟩

theorem Keeps.get : Keeps I get I E := by
  intro s hs
  refine ⟨hs, ?_, ?_⟩
  · intro t ht
    obtain rfl := Except.ok.inj ht
    exact hs
  · intro d hd
    cases hd

theorem Keeps.set {t : Store} (h : I t) : Keeps I (set t) (fun _ => True) E := by
  intro s _
  refine ⟨h, fun _ _ => trivial, ?_⟩
  intro d hd
  cases hd

theorem Keeps.modify
    {f : Store → Store}
    (h : ∀ s, I s → I (f s)) :
    Keeps I (modify f) (fun _ => True) E := by
  intro s hs
  refine ⟨h s hs, fun _ _ => trivial, ?_⟩
  intro d hd
  cases hd

theorem Keeps.bind
    {m : Run α}
    {f : α → Run β}
    (hm : Keeps I m Q E)
    (hf : ∀ a, Q a → Keeps I (f a) R E) :
    Keeps I (m >>= f) R E := by
  intro s hs
  obtain ⟨ht, hok, herror⟩ := hm s hs
  rw [run_bind]
  rcases hrun : m.run s with ⟨a | a, t⟩
  · rw [hrun] at ht herror
    refine ⟨ht, ?_, ?_⟩
    · intro b hb
      cases hb
    · intro d hd
      obtain rfl := Except.error.inj hd
      exact herror a rfl
  · rw [hrun] at ht hok
    exact hf a (hok a rfl) t ht

theorem Keeps.lift
    {ε : Type}
    {pos : Position}
    {fault : ε → Fault}
    {r : Except ε α}
    (hok : ∀ a, r = .ok a → Q a)
    (herror : ∀ e, r = .error e → E ⟨pos, fault e⟩) :
    Keeps I (lift pos fault r) Q E := by
  cases r with
  | ok a => exact Keeps.pure (hok a rfl)
  | error e => exact Keeps.fail (herror e rfl)

end Keeps

end Run

section Rules

theorem Command.mem_names_of_ofName?
    {name : String}
    {command : Command}
    (h : Command.ofName? name = some command) :
    name ∈ command.names := by
  have hfound := List.find?_some h
  simpa using hfound

/-- A parameter is of its slot's type and has a value that the slot allows. -/
def Slot.Takes (command : String) (slot : Slot) (param : Param) : Prop :=
  slot.typeName = param.typeName ∧ slot.valueFault? command param = none

namespace Slot

section Takes

variable {name : String} {param : Param}

theorem takes_anyInt : Takes name .anyInt param ↔ ∃ v, param = .int v := by
  cases param <;> simp [Takes, typeName, Param.typeName, valueFault?]

theorem takes_intIn
    {min max : Int} :
    Takes name (.intIn min max) param ↔ ∃ v, param = .int v ∧ min ≤ v ∧ v ≤ max := by
  cases param <;> simp [Takes, typeName, Param.typeName, valueFault?]

theorem takes_anyText : Takes name .anyText param ↔ ∃ s, param = .str s := by
  cases param <;> simp [Takes, typeName, Param.typeName, valueFault?]

theorem takes_oneOf
    {options : List String} :
    Takes name (.oneOf options) param ↔ ∃ s, param = .str s ∧ s ∈ options := by
  cases param <;> simp [Takes, typeName, Param.typeName, valueFault?]

theorem takes_identifier :
    Takes name .identifier param ↔ ∃ s, param = .str s ∧ isIdentifier s = true := by
  cases param <;> simp [Takes, typeName, Param.typeName, valueFault?]

end Takes

end Slot

theorem typeFault?_cons_eq_none
    {name : String}
    {number : Nat}
    {slot : Slot}
    {slots : List Slot}
    {param : Param}
    {params : List Param} :
    typeFault? name number (slot :: slots) (param :: params) = none ↔
      slot.typeName = param.typeName ∧ typeFault? name (number + 1) slots params = none := by
  rw [typeFault?]
  split
  · rename_i htype
    simp [htype]
  · rename_i htype
    simp [htype]

theorem valueFault?_cons_eq_none
    {name : String}
    {slot : Slot}
    {slots : List Slot}
    {param : Param}
    {params : List Param} :
    valueFault? name (slot :: slots) (param :: params) = none ↔
      slot.valueFault? name param = none ∧ valueFault? name slots params = none := by
  rw [valueFault?]
  exact Option.or_eq_none_iff

theorem forall₂_takes_iff
    {name : String}
    {slots : List Slot}
    {params : List Param}
    (number : Nat) :
    List.Forall₂ (Slot.Takes name) slots params ↔
      params.length = slots.length ∧ typeFault? name number slots params = none ∧
        valueFault? name slots params = none := by
  induction slots generalizing number params with
  | nil => cases params <;> simp [typeFault?, valueFault?]
  | cons slot slots ih =>
      cases params with
      | nil => simp
      | cons param params =>
          rw [List.forall₂_cons, ih (number + 1), typeFault?_cons_eq_none,
            valueFault?_cons_eq_none, Slot.Takes, List.length_cons, List.length_cons,
            Nat.add_right_cancel_iff]
          tauto

/-- Parameters keep the rules if each is what its slot takes. -/
theorem paramsFault?_eq_none_iff
    {name : String}
    {slots : List Slot}
    {params : List Param} :
    paramsFault? name slots params = none ↔ List.Forall₂ (Slot.Takes name) slots params := by
  rw [forall₂_takes_iff 1, paramsFault?]
  by_cases hlength : params.length = slots.length
  · simp [hlength]
  · simp [hlength]

/-- The first parameter keeps its slot's rule, and the others keep theirs. -/
theorem params_of_cons
    {name : String}
    {slot : Slot}
    {slots : List Slot}
    {params : List Param}
    (h : paramsFault? name (slot :: slots) params = none) :
    ∃ p rest, params = p :: rest ∧ slot.Takes name p ∧ paramsFault? name slots rest = none := by
  obtain ⟨p, rest, hp, hrest, rfl⟩ := List.forall₂_cons_left_iff.1 (paramsFault?_eq_none_iff.1 h)
  exact ⟨p, rest, rfl, hp, paramsFault?_eq_none_iff.2 hrest⟩

theorem params_of_singleton
    {name : String}
    {slot : Slot}
    {params : List Param}
    (h : paramsFault? name [slot] params = none) :
    ∃ p, params = [p] ∧ slot.Takes name p := by
  obtain ⟨p, rest, rfl, hp, hrest⟩ := params_of_cons h
  obtain rfl := List.forall₂_nil_left_iff.1 (paramsFault?_eq_none_iff.1 hrest)
  exact ⟨p, rfl, hp⟩

theorem params_of_intIn
    {name : String}
    {min max : Int}
    {params : List Param}
    (h : paramsFault? name [.intIn min max] params = none) :
    ∃ v, params = [.int v] ∧ min ≤ v ∧ v ≤ max := by
  obtain ⟨p, rfl, htakes⟩ := params_of_singleton h
  obtain ⟨v, rfl, hrange⟩ := Slot.takes_intIn.1 htakes
  exact ⟨v, rfl, hrange⟩

theorem params_of_anyText
    {name : String}
    {params : List Param}
    (h : paramsFault? name [.anyText] params = none) :
    ∃ s, params = [.str s] := by
  obtain ⟨p, rfl, htakes⟩ := params_of_singleton h
  obtain ⟨s, rfl⟩ := Slot.takes_anyText.1 htakes
  exact ⟨s, rfl⟩

theorem params_of_identifier
    {name : String}
    {params : List Param}
    (h : paramsFault? name [.identifier] params = none) :
    ∃ s, params = [.str s] ∧ isIdentifier s = true := by
  obtain ⟨p, rfl, htakes⟩ := params_of_singleton h
  obtain ⟨s, rfl, hs⟩ := Slot.takes_identifier.1 htakes
  exact ⟨s, rfl, hs⟩

theorem Command.takesContext_of_bypass
    {command : Command}
    (h : command.behavior = .bypass) :
    command.takesContext = false := by
  cases command <;> simp_all [Command.behavior, Command.takesContext]

theorem Command.takesContext_of_ignore
    {command : Command}
    (h : command.behavior = .ignore) :
    command.takesContext = false := by
  cases command <;> simp_all [Command.behavior, Command.takesContext]

/-- What the rules leave of a command that keeps them. -/
theorem commandFault?_eq_none
    {name : String}
    {params : List Param}
    {context : List Node}
    {command : Command}
    (h : commandFault? name params context = none)
    (hname : Command.ofName? name = some command) :
    (command.takesContext = false → context = []) ∧
      (∀ slots, command.slots params = some slots → paramsFault? name slots params = none) ∧
      contextFault? command name params context = none := by
  unfold commandFault? at h
  rw [hname] at h
  dsimp only at h
  split at h
  · cases h
  · rename_i hcontext
    obtain ⟨hparams, hblock⟩ := Option.or_eq_none_iff.1 h
    refine ⟨?_, ?_, hblock⟩
    · intro htakes
      simpa [htakes] using hcontext
    · intro slots hslots
      simpa [hslots] using hparams

/-- No name stands for two commands. -/
theorem Command.ofName?_eq_some_iff
    {name : String}
    {command : Command} :
    Command.ofName? name = some command ↔ name ∈ command.names := by
  have hnames : ∀ c ∈ Command.all, ∀ x ∈ c.names, Command.ofName? x = some c := by decide
  have hall : ∀ c : Command, c ∈ Command.all := by
    intro c
    cases c <;> decide
  exact ⟨Command.mem_names_of_ofName?, hnames command (hall command) name⟩

/-- The rules of a command are those for its parameters and the one for its block. -/
theorem commandFault?_eq_none_iff
    {name : String}
    {params : List Param}
    {context : List Node}
    {command : Command}
    (hname : name ∈ command.names) :
    commandFault? name params context = none ↔
      (command.takesContext = false → context = []) ∧
        (∀ slots, command.slots params = some slots → paramsFault? name slots params = none) ∧
        contextFault? command name params context = none := by
  have hcommand := Command.ofName?_eq_some_iff.2 hname
  refine ⟨fun h => commandFault?_eq_none h hcommand, ?_⟩
  rintro ⟨hcontext, hparams, hblock⟩
  unfold commandFault?
  rw [hcommand]
  dsimp only
  rw [if_neg, hblock, Option.or_none]
  · cases hslots : command.slots params with
    | none => rfl
    | some slots => exact hparams slots hslots
  · cases htakes : command.takesContext with
    | false => simp [hcontext htakes]
    | true => simp

/-- A command whose parameters are what its slots take keeps the rules, if its block does. -/
theorem commandFault?_of_takes
    {name : String}
    {params : List Param}
    {context : List Node}
    {slots : List Slot}
    (command : Command)
    (hname : name ∈ command.names)
    (hcontext : command.takesContext = false → context = [])
    (hslots : command.slots params = some slots)
    (htakes : List.Forall₂ (Slot.Takes name) slots params)
    (hblock : contextFault? command name params context = none) :
    commandFault? name params context = none := by
  refine (commandFault?_eq_none_iff hname).2 ⟨hcontext, ?_, hblock⟩
  intro slots' hslots'
  obtain rfl := Option.some.inj (hslots.symm.trans hslots')
  exact paramsFault?_eq_none_iff.2 htakes

theorem Node.check_eq_ok_iff {n : Node} : n.check = .ok () ↔ n.ruleFault? = none := by
  unfold Node.check
  cases n.ruleFault? <;> simp

theorem Node.check_eq_error_iff
    {n : Node}
    {e : Located RuleFault} :
    n.check = .error e ↔ n.ruleFault? = some e.value ∧ e.pos = n.pos := by
  unfold Node.check
  cases n.ruleFault? with
  | none => simp
  | some fault =>
      obtain ⟨pos, value⟩ := e
      simp [Located.mk.injEq, and_comm, eq_comm]

end Rules

section Definitions

/-- A node that defines something: a phrase or sound that has a name, or a voice. -/
inductive Node.IsDefinition : Node → Prop
  | phrase
      {pos : Position}
      {name : String}
      {context : List Node} :
      IsDefinition (.command pos "phrase" [.str name] context)
  | sound
      {pos : Position}
      {name : String}
      {context : List Node} :
      IsDefinition (.command pos "sound" [.str name] context)
  | voice
      {v : Voice} :
      IsDefinition (.voice v)

/-- A command that keeps the rules and is to be stored is a definition. -/
theorem isDefinition_of_register
    {name : String}
    {params : List Param}
    {context : List Node}
    {command : Command}
    (pos : Position)
    (h : commandFault? name params context = none)
    (hname : Command.ofName? name = some command)
    (hbehavior : command.behavior = .register) :
    (Node.command pos name params context).IsDefinition := by
  have hnames := Command.mem_names_of_ofName? hname
  obtain ⟨-, hslots, hcontext⟩ := commandFault?_eq_none h hname
  cases command <;> simp only [Command.behavior, reduceCtorEq] at hbehavior
  case phrase =>
    obtain ⟨t, rfl, -⟩ := params_of_identifier (hslots _ rfl)
    obtain rfl := List.mem_singleton.1 hnames
    exact .phrase
  case sound =>
    obtain ⟨t, rfl, -⟩ := params_of_identifier (hslots _ rfl)
    obtain rfl := List.mem_singleton.1 hnames
    exact .sound
  case voice => cases hcontext

/-- Everything that storing a definition can do. -/
theorem Store.define_eq_ok
    {s t : Store}
    {n : Node}
    (h : s.define n = .ok t) :
    (∃ pos name more context, n = .command pos "phrase" (.str name :: more) context ∧
        s.nameFault? "phrase" name = none ∧
        t = { s with phrases := s.phrases ++ [(name, context)] }) ∨
      (∃ pos name more context, n = .command pos "sound" (.str name :: more) context ∧
        s.nameFault? "sound" name = none ∧
        t = { s with sounds := s.sounds ++ [(name, Store.phonemes context)] }) ∨
      ∃ v, n = .voice v ∧ isBuiltinVoice v.name = false ∧ s.voice? v.name = none ∧
        t = { s with
          voices := s.voices ++ [(v.name, VoiceSettings.default.override v.settings)] } := by
  cases n with
  | command pos name params context =>
      simp only [Store.define] at h
      split at h
      · rename_i hname
        unfold Store.defineNamed at h
        split at h
        · rename_i x more
          split at h
          · cases h
          · rename_i hfault
            rcases hname with rfl | rfl
            · exact Or.inl ⟨pos, x, more, context, rfl, hfault, (Except.ok.inj h).symm⟩
            · exact Or.inr (Or.inl ⟨pos, x, more, context, rfl, hfault, (Except.ok.inj h).symm⟩)
        · cases h
      · cases h
  | voice v =>
      simp only [Store.define, Store.defineVoice] at h
      split at h
      · cases h
      · rename_i hbuiltin
        split at h
        · cases h
        · rename_i hdeclared
          exact Or.inr (Or.inr ⟨v, rfl, by simpa using hbuiltin, by simpa using hdeclared,
            (Except.ok.inj h).symm⟩)
  | phoneme p => cases h
  | stop pos => cases h

end Definitions

section Scopes

theorem Scope.enterFile?_eq_some
    {scope : Scope}
    {path : String}
    {inner : Scope}
    (h : scope.enterFile? path = some inner) :
    path ∉ scope.reading ∧
      inner = { scope with
        dir := (Path.parent? path).getD ""
        reading := path :: scope.reading } := by
  unfold Scope.enterFile? at h
  split at h
  · cases h
  · rename_i hfresh
    exact ⟨by simpa using hfresh, (Option.some.inj h).symm⟩

theorem Scope.enterPhrase?_eq_some
    {scope : Scope}
    {name : String}
    {inner : Scope}
    (h : scope.enterPhrase? name = some inner) :
    name ∉ scope.replaying ∧ inner = { scope with replaying := name :: scope.replaying } := by
  unfold Scope.enterPhrase? at h
  split at h
  · cases h
  · rename_i hfresh
    exact ⟨by simpa using hfresh, (Option.some.inj h).symm⟩

end Scopes

namespace Expansion

section Steps

theorem loopCount_of_nonneg
    {count : Int}
    (pos : Position)
    (name : String)
    (h : 0 ≤ count) :
    loopCount pos name [.int count] = pure count.toNat := by
  have hnot : ¬ count < 0 := by omega
  simp [loopCount, intParam, hnot]

/--
Everything that expanding a node can do.  Each case holds the form of the node, what
the rules leave of it, and the computation it stands for, whatever the files are and
whatever is done with the nodes of files and phrases; a loop is the only node that expands
others directly.
-/
@[elab_as_elim]
theorem stepInduction
    (scope : Scope)
    {motive : Node → Prop}
    (broken : ∀ n fault, n.ruleFault? = some fault →
      (∀ files enter, expandNode files enter scope n = Run.fail n.pos (.rule fault)) → motive n)
    (bypass : ∀ pos name params command, Command.ofName? name = some command →
      command.behavior = .bypass → commandFault? name params [] = none →
      (∀ files enter, expandNode files enter scope (.command pos name params []) =
        pure (Node.command pos name params []).render) →
      motive (.command pos name params []))
    (ignore : ∀ pos name params command, Command.ofName? name = some command →
      command.behavior = .ignore →
      (∀ files enter, expandNode files enter scope (.command pos name params []) = pure "") →
      motive (.command pos name params []))
    (defining : ∀ n, n.ruleFault? = none → n.IsDefinition →
      (∀ files enter, expandNode files enter scope n = register n) → motive n)
    (loop : ∀ pos count context, commandFault? "loop" [.int count] context = none →
      (∀ n ∈ context, motive n) →
      (∀ files enter, expandNode files enter scope (.command pos "loop" [.int count] context) = do
        let body ← expandNodes files enter scope context
        Run.lift pos .runtime (repeatText count.toNat body)) →
      motive (.command pos "loop" [.int count] context))
    (bpm : ∀ pos v, 0 ≤ v → v ≤ 60000 →
      (∀ files enter, expandNode files enter scope (.command pos "bpm" [.int v] []) = setTempo v) →
      motive (.command pos "bpm" [.int v] []))
    (importing : ∀ pos name,
      (∀ files enter, expandNode files enter scope (.command pos "import" [.str name] []) =
        importFile files enter scope pos name) →
      motive (.command pos "import" [.str name] []))
    (naming : ∀ pos name, isIdentifier name = true →
      (∀ files enter, expandNode files enter scope (.command pos "name" [.str name] []) =
        selectVoice pos [.str name] name) →
      motive (.command pos "name" [.str name] []))
    (playing : ∀ pos name,
      (∀ files enter, expandNode files enter scope (.command pos "play" [.str name] []) =
        play files scope pos name []) →
      motive (.command pos "play" [.str name] []))
    (speaking : ∀ p,
      (∀ files enter, expandNode files enter scope (.phoneme p) = phoneme enter scope p) →
      motive (.phoneme p))
    (stop : ∀ pos, (∀ files enter, expandNode files enter scope (.stop pos) = pure "") →
      motive (.stop pos))
    (n : Node) :
    motive n := by
  match n with
  | .command pos name params context =>
      have hinner : ∀ m ∈ context, motive m := fun m hm =>
        stepInduction scope broken bypass ignore defining loop bpm importing naming
          playing speaking stop m
      cases hfault : commandFault? name params context with
      | some fault =>
          refine broken _ fault hfault fun files enter => ?_
          rw [expandNode, hfault]
          rfl
      | none =>
          cases hcommand : Command.ofName? name with
          | none => simp [commandFault?, hcommand] at hfault
          | some command =>
              have hname := Command.mem_names_of_ofName? hcommand
              obtain ⟨hblock, hslots, -⟩ := commandFault?_eq_none hfault hcommand
              cases hbehavior : command.behavior with
              | bypass =>
                  obtain rfl := hblock (Command.takesContext_of_bypass hbehavior)
                  refine bypass pos name params command hcommand hbehavior hfault
                    fun files enter => ?_
                  rw [expandNode, hfault]
                  simp only [hcommand, hbehavior]
              | ignore =>
                  obtain rfl := hblock (Command.takesContext_of_ignore hbehavior)
                  refine ignore pos name params command hcommand hbehavior fun files enter => ?_
                  rw [expandNode, hfault]
                  simp only [hcommand, hbehavior]
              | register =>
                  have hdefinition := isDefinition_of_register pos hfault hcommand hbehavior
                  refine defining _ hfault hdefinition fun files enter => ?_
                  rw [expandNode, hfault]
                  simp only [hcommand, hbehavior]
              | specialized =>
                  have hrun : ∀ files enter,
                      expandNode files enter scope (.command pos name params context) =
                        if command = .loop then do
                          let count ← loopCount pos name params
                          let body ← expandNodes files enter scope context
                          Run.lift pos .runtime (repeatText count body)
                        else directive files enter scope pos name params command := by
                    intro files enter
                    rw [expandNode, hfault]
                    simp only [hcommand, hbehavior]
                  cases command <;> simp only [Command.behavior, reduceCtorEq] at hbehavior
                  case name =>
                    obtain ⟨t, rfl, ht⟩ := params_of_identifier (hslots _ rfl)
                    obtain rfl := List.mem_singleton.1 hname
                    obtain rfl := hblock rfl
                    exact naming pos t ht hrun
                  case play =>
                    obtain ⟨t, rfl⟩ := params_of_anyText (hslots _ rfl)
                    obtain rfl := List.mem_singleton.1 hname
                    obtain rfl := hblock rfl
                    exact playing pos t hrun
                  case bpm =>
                    obtain ⟨v, rfl, hmin, hmax⟩ := params_of_intIn (hslots _ rfl)
                    obtain rfl := List.mem_singleton.1 hname
                    obtain rfl := hblock rfl
                    exact bpm pos v hmin hmax hrun
                  case importFile =>
                    obtain ⟨t, rfl⟩ := params_of_anyText (hslots _ rfl)
                    obtain rfl := List.mem_singleton.1 hname
                    obtain rfl := hblock rfl
                    exact importing pos t hrun
                  case loop =>
                    obtain ⟨v, rfl, hmin, -⟩ := params_of_intIn (hslots _ rfl)
                    obtain rfl := List.mem_singleton.1 hname
                    refine loop pos v context hfault hinner fun files enter => ?_
                    rw [hrun files enter, loopCount_of_nonneg pos "loop" hmin]
                    simp
  | .voice v =>
      cases hfault : voiceFault? v with
      | some fault =>
          refine broken _ fault hfault fun files enter => ?_
          rw [expandNode, hfault]
          rfl
      | none =>
          refine defining _ hfault .voice fun files enter => ?_
          rw [expandNode, hfault]
  | .phoneme p => exact speaking p fun files enter => by rw [expandNode]
  | .stop pos => exact stop pos fun files enter => by rw [expandNode]
termination_by sizeOf n
decreasing_by
  have hlt := List.sizeOf_lt_of_mem hm
  simp only [Node.command.sizeOf_spec]
  omega

end Steps

section Keeping

variable {files : Files} {enter : Enter} {scope : Scope}
variable {I : Store → Prop} {Q : String → Prop} {E : Diagnostic → Prop}

/-- What the expansion of every node keeps is kept by the expansion of all. -/
theorem expandNodes_keeps
    {nodes : List Node}
    (hempty : Q "")
    (happend : ∀ a b, Q a → Q b → Q (a ++ b))
    (h : ∀ n ∈ nodes, (expandNode files enter scope n).Keeps I Q E) :
    (expandNodes files enter scope nodes).Keeps I Q E := by
  induction nodes with
  | nil =>
      rw [expandNodes]
      exact Run.Keeps.pure hempty
  | cons n ns ih =>
      obtain ⟨hn, hns⟩ := List.forall_mem_cons.1 h
      rw [expandNodes]
      refine hn.bind fun text htext => ?_
      refine (ih hns).bind fun more hmore => ?_
      exact Run.Keeps.pure (happend text more htext hmore)

/-- A list of nodes, run over and over. -/
theorem loop_keeps
    {pos : Position}
    {count : Nat}
    {nodes : List Node}
    (hE : ∀ d, d.value ≠ .runtime .nestedTooDeep → E d)
    (hrepeat : ∀ body text, Q body → repeatText count body = .ok text → Q text)
    (h : (expandNodes files enter scope nodes).Keeps I Q E) :
    Run.Keeps I (do
      let body ← expandNodes files enter scope nodes
      Run.lift pos .runtime (repeatText count body)) Q E := by
  refine h.bind fun body hbody => ?_
  refine Run.Keeps.lift (fun text htext => hrepeat body text hbody htext) ?_
  intro fault hfault
  refine hE _ ?_
  unfold repeatText at hfault
  split at hfault
  · cases hfault
  · split at hfault
    · obtain rfl := Except.error.inj hfault
      simp
    · cases hfault

theorem register_keeps
    {n : Node}
    (hE : ∀ d, d.value ≠ .runtime .nestedTooDeep → E d)
    (hempty : Q "")
    (hdefine : ∀ s t, I s → s.define n = .ok t → I t) :
    (register n).Keeps I Q E := by
  refine Run.Keeps.get.bind fun s hs => ?_
  refine (Run.Keeps.lift (fun t ht => hdefine s t hs ht) ?_).bind fun t ht => ?_
  · intro fault _
    exact hE _ (by simp)
  · refine (Run.Keeps.set ht).bind fun _ _ => ?_
    exact Run.Keeps.pure hempty

theorem setTempo_keeps
    {bpm : Int}
    (hempty : Q "")
    (htempo : ∀ s, I s → I (s.setTempo bpm)) :
    (setTempo bpm).Keeps I Q E :=
  (Run.Keeps.modify htempo).bind fun _ _ => Run.Keeps.pure hempty

theorem selectVoice_keeps
    {pos : Position}
    {params : List Param}
    {name : String}
    (hE : ∀ d, d.value ≠ .runtime .nestedTooDeep → E d)
    (hbuiltin : isBuiltinVoice name = true → Q (Node.command pos "name" params []).render)
    (hdeclared : ∀ s settings, I s → s.voice? name = some settings →
      Q (voiceInstructions settings)) :
    (selectVoice pos params name).Keeps I Q E := by
  unfold selectVoice
  split
  · rename_i hname
    exact Run.Keeps.pure (hbuiltin hname)
  · refine Run.Keeps.get.bind fun s hs => ?_
    split
    · rename_i settings hsettings
      exact Run.Keeps.pure (hdeclared s settings hs hsettings)
    · exact Run.Keeps.fail (hE _ (by simp))

theorem play_keeps
    {pos : Position}
    {name : String}
    {more : List Param}
    (hE : ∀ d, d.value ≠ .runtime .nestedTooDeep → E d)
    (hplay : ∀ s path, I s → locate files scope s name = some path →
      Q (Node.command pos "play" (.str path :: more) []).render) :
    (play files scope pos name more).Keeps I Q E := by
  refine Run.Keeps.get.bind fun s hs => ?_
  split
  · rename_i path hpath
    exact Run.Keeps.pure (hplay s path hs hpath)
  · exact Run.Keeps.fail (hE _ (by simp))

/-- Texts are refused for their words or their grammar. -/
theorem ofText_error
    {text file : String}
    {d : Diagnostic}
    (h : Node.ofText text file = .error d) :
    (∃ fault, d.value = .lexical fault) ∨ ∃ fault, d.value = .grammar fault := by
  unfold Node.ofText at h
  split at h
  · obtain rfl := Except.error.inj h
    exact Or.inl ⟨_, rfl⟩
  · split at h
    · obtain rfl := Except.error.inj h
      exact Or.inr ⟨_, rfl⟩
    · cases h

theorem ofTokens_of_ofText
    {text file : String}
    {nodes : List Node}
    (h : Node.ofText text file = .ok nodes) :
    ∃ ts, Token.ofText text file = .ok ts ∧ Node.ofTokens ts = .ok nodes := by
  unfold Node.ofText at h
  split at h
  · cases h
  · rename_i ts hts
    split at h
    · cases h
    · rename_i found hfound
      obtain rfl := Except.ok.inj h
      exact ⟨ts, hts, hfound⟩

theorem importFile_keeps
    {pos : Position}
    {name : String}
    (hE : ∀ d, d.value ≠ .runtime .nestedTooDeep → E d)
    (hfile : ∀ s path inner text body, I s → locate files scope s name = some path →
      scope.enterFile? path = some inner → files.read path = .ok text →
      Node.ofText text path = .ok body → (enter inner body).Keeps I Q E) :
    (importFile files enter scope pos name).Keeps I Q E := by
  refine Run.Keeps.get.bind fun s hs => ?_
  split
  · exact Run.Keeps.fail (hE _ (by simp))
  · rename_i path hpath
    split
    · exact Run.Keeps.fail (hE _ (by simp))
    · rename_i inner hinner
      refine (Run.Keeps.lift (Q := fun text => files.read path = .ok text)
        (fun text htext => htext) ?_).bind fun text htext => ?_
      · intro fault _
        exact hE _ (by simp)
      · split
        · rename_i d hd
          refine Run.Keeps.throw (hE d ?_)
          rcases ofText_error hd with ⟨fault, hfault⟩ | ⟨fault, hfault⟩
          · simp [hfault]
          · simp [hfault]
        · rename_i body hbody
          exact hfile s path inner text body hs hpath hinner htext hbody

theorem expandSound_error
    {call : Phoneme}
    {sound : List Phoneme}
    {millis : Int}
    {fault : RuntimeFault}
    (h : expandSound call sound millis = .error fault) :
    fault ≠ .nestedTooDeep := by
  unfold expandSound at h
  dsimp only at h
  split at h
  · obtain rfl := Except.error.inj h
    simp
  · split at h
    · obtain rfl := Except.error.inj h
      simp
    · cases h

theorem phoneme_keeps
    {p : Phoneme}
    (hE : ∀ d, d.value ≠ .runtime .nestedTooDeep → E d)
    (hbuiltin : ∀ s, I s → isBuiltinPhoneme p.symbol = true →
      Q (speak p.symbol (p.duration.toMillis s.unit) p.pitch))
    (hphrase : ∀ s body inner, I s → s.phrase? p.symbol = some body →
      scope.enterPhrase? p.symbol = some inner → (enter inner body).Keeps I Q E)
    (hsound : ∀ s sound text, I s → s.sound? p.symbol = some sound →
      expandSound p sound (p.duration.toMillis s.unit) = .ok text → Q text) :
    (phoneme enter scope p).Keeps I Q E := by
  refine Run.Keeps.get.bind fun s hs => ?_
  dsimp only
  split
  · rename_i hsymbol
    exact Run.Keeps.pure (hbuiltin s hs hsymbol)
  · split
    · rename_i body hbody
      split
      · rename_i inner hinner
        exact hphrase s body inner hs hbody hinner
      · exact Run.Keeps.fail (hE _ (by simp))
    · split
      · rename_i sound hsound'
        refine Run.Keeps.lift (fun text htext => hsound s sound text hs hsound' htext) ?_
        intro fault hfault
        exact hE _ (by simpa using expandSound_error hfault)
      · exact Run.Keeps.fail (hE _ (by simp))

/-- What definitions that keep the rules and changes of tempo keep is kept by the expansion
of every node, if entering files and phrases keeps it. -/
theorem expandNode_keeps_store
    (hdefine : ∀ s t n, I s → n.ruleFault? = none → s.define n = .ok t → I t)
    (htempo : ∀ s bpm, I s → I (s.setTempo bpm))
    (henter : ∀ inner body, (enter inner body).Keeps I (fun _ => True) fun _ => True)
    (n : Node) :
    (expandNode files enter scope n).Keeps I (fun _ => True) fun _ => True := by
  have hE : ∀ d : Diagnostic, d.value ≠ .runtime .nestedTooDeep → True := fun _ _ => trivial
  induction n using stepInduction scope with
  | broken n fault _ hrun =>
      rw [hrun]
      exact Run.Keeps.fail trivial
  | bypass pos name params command _ _ _ hrun =>
      rw [hrun]
      exact Run.Keeps.pure trivial
  | ignore pos name params command _ _ hrun =>
      rw [hrun]
      exact Run.Keeps.pure trivial
  | defining n hrules _ hrun =>
      rw [hrun]
      exact register_keeps hE trivial fun s t hs ht => hdefine s t n hs hrules ht
  | loop pos count context _ ih hrun =>
      rw [hrun]
      refine loop_keeps hE (fun _ _ _ _ => trivial) ?_
      exact expandNodes_keeps trivial (fun _ _ _ _ => trivial) ih
  | bpm pos v _ _ hrun =>
      rw [hrun]
      exact setTempo_keeps trivial fun s hs => htempo s v hs
  | importing pos name hrun =>
      rw [hrun]
      exact importFile_keeps hE fun _ _ inner _ body _ _ _ _ _ => henter inner body
  | naming pos name _ hrun =>
      rw [hrun]
      exact selectVoice_keeps hE (fun _ => trivial) fun _ _ _ _ => trivial
  | playing pos name hrun =>
      rw [hrun]
      exact play_keeps hE fun _ _ _ _ => trivial
  | speaking p hrun =>
      rw [hrun]
      exact phoneme_keeps hE (fun _ _ _ => trivial) (fun _ body inner _ _ _ => henter inner body)
        fun _ _ _ _ _ _ => trivial
  | stop pos hrun =>
      rw [hrun]
      exact Run.Keeps.pure trivial

/-- What definitions that keep the rules and changes of tempo keep is kept by every nested
run. -/
theorem nest_keeps_store
    (hdefine : ∀ s t n, I s → n.ruleFault? = none → s.define n = .ok t → I t)
    (htempo : ∀ s bpm, I s → I (s.setTempo bpm))
    (room : Nat)
    (scope : Scope)
    (nodes : List Node) :
    (nest files room scope nodes).Keeps I (fun _ => True) fun _ => True := by
  induction room generalizing scope nodes with
  | zero => exact Run.Keeps.fail trivial
  | succ room ih =>
      refine expandNodes_keeps trivial (fun _ _ _ _ => trivial) fun n _ => ?_
      exact expandNode_keeps_store hdefine htempo ih n

end Keeping

section Calls

/--
While `nodes` are expanded in `scope` from the store `s`, the nodes `body` of a file or
phrase are handed to `enter` in the scope `inner` and the store `u`.
-/
inductive Calls (files : Files) (enter : Enter) (scope : Scope) :
    List Node → Store → Scope → List Node → Store → Prop
  | next
      {n : Node}
      {ns body : List Node}
      {s t u : Store}
      {text : String}
      {inner : Scope}
      (hrun : (expandNode files enter scope n).run s = (.ok text, t))
      (hcall : Calls files enter scope ns t inner body u) :
      Calls files enter scope (n :: ns) s inner body u
  | loop
      {pos : Position}
      {count : Int}
      {context ns body : List Node}
      {s u : Store}
      {inner : Scope}
      (hfault : commandFault? "loop" [.int count] context = none)
      (hcall : Calls files enter scope context s inner body u) :
      Calls files enter scope (.command pos "loop" [.int count] context :: ns) s inner body u
  | file
      {pos : Position}
      {name path text : String}
      {ns body : List Node}
      {s : Store}
      {inner : Scope}
      (hlocate : locate files scope s name = some path)
      (hinner : scope.enterFile? path = some inner)
      (hread : files.read path = .ok text)
      (hbody : Node.ofText text path = .ok body) :
      Calls files enter scope (.command pos "import" [.str name] [] :: ns) s inner body s
  | phrase
      {p : Phoneme}
      {ns body : List Node}
      {s : Store}
      {inner : Scope}
      (hsymbol : isBuiltinPhoneme p.symbol = false)
      (hbody : s.phrase? p.symbol = some body)
      (hinner : scope.enterPhrase? p.symbol = some inner) :
      Calls files enter scope (.phoneme p :: ns) s inner body s

variable {files : Files} {enter other : Enter} {scope : Scope}

theorem expandNodes_congr_of_nodes
    {nodes : List Node}
    {s : Store}
    (hnodes : ∀ n ∈ nodes, ∀ ns s,
      (∀ inner body u, Calls files enter scope (n :: ns) s inner body u →
        (enter inner body).run u = (other inner body).run u) →
      (expandNode files enter scope n).run s = (expandNode files other scope n).run s)
    (h : ∀ inner body u, Calls files enter scope nodes s inner body u →
      (enter inner body).run u = (other inner body).run u) :
    (expandNodes files enter scope nodes).run s =
      (expandNodes files other scope nodes).run s := by
  induction nodes generalizing s with
  | nil => rw [expandNodes, expandNodes]
  | cons n ns ih =>
      obtain ⟨hn, hns⟩ := List.forall_mem_cons.1 hnodes
      have hhead := hn ns s h
      rw [expandNodes, expandNodes, Run.run_bind, Run.run_bind, ← hhead]
      rcases hrun : (expandNode files enter scope n).run s with ⟨d | text, t⟩
      · rfl
      · have htail := ih hns fun inner body u hcall => h inner body u (.next hrun hcall)
        dsimp only
        rw [Run.run_bind, Run.run_bind, htail]

/-- A run depends on what is done with the nodes of files and phrases only at its
calls. -/
theorem expandNode_congr
    (n : Node)
    (ns : List Node)
    (s : Store)
    (h : ∀ inner body u, Calls files enter scope (n :: ns) s inner body u →
      (enter inner body).run u = (other inner body).run u) :
    (expandNode files enter scope n).run s = (expandNode files other scope n).run s := by
  induction n using stepInduction scope generalizing ns s with
  | broken n fault _ hrun => rw [hrun, hrun]
  | bypass pos name params command _ _ _ hrun => rw [hrun, hrun]
  | ignore pos name params command _ _ hrun => rw [hrun, hrun]
  | defining n _ _ hrun => rw [hrun, hrun]
  | loop pos count context hfault ih hrun =>
      rw [hrun, hrun, Run.run_bind, Run.run_bind]
      rw [expandNodes_congr_of_nodes ih fun inner body u hcall =>
        h inner body u (.loop hfault hcall)]
  | bpm pos v _ _ hrun => rw [hrun, hrun]
  | importing pos name hrun =>
      rw [hrun, hrun, importFile, importFile, Run.run_bind, Run.run_bind, Run.run_get]
      dsimp only
      split
      · rfl
      · rename_i path hlocate
        split
        · rfl
        · rename_i inner hinner
          cases hread : files.read path with
          | error e => rfl
          | ok text =>
              rw [Run.run_bind, Run.run_bind, Run.run_lift_ok]
              dsimp only
              split
              · rfl
              · rename_i body hbody
                exact h inner body s (.file hlocate hinner hread hbody)
  | naming pos name _ hrun => rw [hrun, hrun]
  | playing pos name hrun => rw [hrun, hrun]
  | speaking p hrun =>
      rw [hrun, hrun, phoneme, phoneme, Run.run_bind, Run.run_bind, Run.run_get]
      dsimp only
      split
      · rfl
      · rename_i hsymbol
        split
        · rename_i body hbody
          split
          · rename_i inner hinner
            exact h inner body s (.phrase (by simpa using hsymbol) hbody hinner)
          · rfl
        · rfl
  | stop pos hrun => rw [hrun, hrun]

theorem expandNodes_congr
    {nodes : List Node}
    {s : Store}
    (h : ∀ inner body u, Calls files enter scope nodes s inner body u →
      (enter inner body).run u = (other inner body).run u) :
    (expandNodes files enter scope nodes).run s =
      (expandNodes files other scope nodes).run s :=
  expandNodes_congr_of_nodes (fun n _ => expandNode_congr n) h

end Calls

end Expansion

section Emitting

open Expansion

variable {files : Files} {enter other : Enter} {scope : Scope}

theorem Sink.text_push (sink : Sink) (chunk : String) :
    (sink.push chunk).text = sink.text ++ chunk := by
  simp [Sink.push, Sink.text, String.join_append]

theorem emitNodes_of_error
    {n : Node}
    {ns : List Node}
    {sink : Sink}
    {s t : Store}
    {d : Diagnostic}
    (hstop : ∀ pos, n ≠ .stop pos)
    (hrun : (expandNode files enter scope n).run s = (.error d, t)) :
    emitNodes files enter scope (n :: ns) sink s = ⟨.error d, sink, t⟩ := by
  rw [emitNodes, hrun]
  exact hstop

theorem emitNodes_of_ok
    {n : Node}
    {ns : List Node}
    {sink : Sink}
    {s t : Store}
    {text : String}
    (hstop : ∀ pos, n ≠ .stop pos)
    (hrun : (expandNode files enter scope n).run s = (.ok text, t)) :
    emitNodes files enter scope (n :: ns) sink s =
      if text.isEmpty then emitNodes files enter scope ns sink t
      else if sink.isFull then ⟨.error ⟨n.pos, .io .sinkFull⟩, sink, t⟩
      else emitNodes files enter scope ns (sink.push text) t := by
  rw [emitNodes, hrun]
  exact hstop

theorem emitNodes_congr
    {nodes : List Node}
    {sink : Sink}
    {s : Store}
    (h : ∀ inner body u, Calls files enter scope nodes s inner body u →
      (enter inner body).run u = (other inner body).run u) :
    emitNodes files enter scope nodes sink s = emitNodes files other scope nodes sink s := by
  induction nodes generalizing sink s with
  | nil => simp [emitNodes]
  | cons n ns ih =>
      have hhead := expandNode_congr n ns s h
      have htail : ∀ sink t text, (expandNode files enter scope n).run s = (.ok text, t) →
          emitNodes files enter scope ns sink t = emitNodes files other scope ns sink t := by
        intro sink t text hrun
        exact ih fun inner body u hcall => h inner body u (.next hrun hcall)
      by_cases hstop : ∃ pos, n = .stop pos
      · obtain ⟨pos, rfl⟩ := hstop
        simp [emitNodes]
      · have hstop' : ∀ pos, n ≠ .stop pos := fun pos hpos => hstop ⟨pos, hpos⟩
        rcases hrun : (expandNode files enter scope n).run s with ⟨d | text, t⟩
        · rw [emitNodes_of_error hstop' hrun, emitNodes_of_error hstop' (hhead ▸ hrun)]
        · rw [emitNodes_of_ok hstop' hrun, emitNodes_of_ok hstop' (hhead ▸ hrun),
            htail sink t text hrun, htail (sink.push text) t text hrun]

/-- What the expansion of every node keeps is kept by a whole run, and every chunk is
what the expansion of a node yields. -/
theorem emitNodes_keeps
    {I : Store → Prop}
    {Q : String → Prop}
    {E : Diagnostic → Prop}
    {nodes : List Node}
    {sink : Sink}
    {s : Store}
    (hfull : ∀ pos, E ⟨pos, .io .sinkFull⟩)
    (hnodes : ∀ n ∈ nodes, (expandNode files enter scope n).Keeps I Q E)
    (hs : I s) :
    I (emitNodes files enter scope nodes sink s).store ∧
      (∃ texts, (emitNodes files enter scope nodes sink s).sink.text =
        sink.text ++ String.join texts ∧ ∀ t ∈ texts, Q t) ∧
      ∀ d, (emitNodes files enter scope nodes sink s).result = .error d → E d := by
  have hnone : ∀ sink : Sink, ∃ texts : List String,
      sink.text = sink.text ++ String.join texts ∧ ∀ t ∈ texts, Q t :=
    fun sink => ⟨[], by simp⟩
  fun_induction emitNodes files enter scope nodes sink s with
  | case1 sink s => exact ⟨hs, hnone sink, by simp⟩
  | case2 pos ns sink s => exact ⟨hs, hnone sink, by simp⟩
  | case3 n ns sink s _ d t hrun =>
      obtain ⟨ht, -, herror⟩ := hnodes n List.mem_cons_self s hs
      rw [hrun] at ht herror
      refine ⟨ht, hnone sink, ?_⟩
      intro d' hd'
      obtain rfl := Except.error.inj hd'
      exact herror d rfl
  | case4 n ns sink s _ text t hrun _ ih =>
      obtain ⟨ht, -⟩ := hnodes n List.mem_cons_self s hs
      rw [hrun] at ht
      exact ih (fun m hm => hnodes m (List.mem_cons_of_mem _ hm)) ht
  | case5 n ns sink s _ text t hrun _ _ =>
      obtain ⟨ht, -⟩ := hnodes n List.mem_cons_self s hs
      rw [hrun] at ht
      refine ⟨ht, hnone sink, ?_⟩
      intro d hd
      obtain rfl := Except.error.inj hd
      exact hfull n.pos
  | case6 n ns sink s _ text t hrun _ _ ih =>
      obtain ⟨ht, hok, -⟩ := hnodes n List.mem_cons_self s hs
      rw [hrun] at ht hok
      obtain ⟨hleft, ⟨texts, htexts, hall⟩, herror⟩ :=
        ih (fun m hm => hnodes m (List.mem_cons_of_mem _ hm)) ht
      refine ⟨hleft, ⟨text :: texts, ?_, ?_⟩, herror⟩
      · rw [htexts, Sink.text_push, String.join_cons, String.append_assoc]
      · exact List.forall_mem_cons.2 ⟨hok text rfl, hall⟩

theorem Source.scope_of_workDir
    {s t : Store}
    (source : Source)
    (h : t.workDir = s.workDir) :
    source.scope t = source.scope s := by
  unfold Source.scope Scope.start Scope.forFile
  rw [h]

/-- What definitions that keep the rules and changes of tempo keep is kept by every
compilation, also one that fails. -/
theorem Source.compile_keeps_store
    {I : Store → Prop}
    {s : Store}
    (hdefine : ∀ s t n, I s → n.ruleFault? = none → s.define n = .ok t → I t)
    (htempo : ∀ s bpm, I s → I (s.setTempo bpm))
    (files : Files)
    (source : Source)
    (sink : Sink)
    (hs : I s) :
    I (source.compile files sink s).store := by
  unfold Source.compile
  split
  · exact hs
  · rename_i nodes _
    have hnodes : ∀ n ∈ nodes, (expandNode files (nest files (room files s nodes))
        (source.scope s) n).Keeps I (fun _ => True) fun _ => True := fun n _ =>
      expandNode_keeps_store hdefine htempo (nest_keeps_store hdefine htempo _) n
    exact (emitNodes_keeps (fun _ => trivial) hnodes hs).1

end Emitting

end SpeechMarkup
