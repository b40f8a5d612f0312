import SpeechMarkup.Proofs.Context
import SpeechMarkup.Proofs.Inspection
import SpeechMarkup.Proofs.Origins

/-!
# What the rules leave to the expansion

The expansion of a node asks again for some of what the rules ask for: that the command is
known and has a handler, that a parameter is there and is of its type, that a count is not
negative, that a definition has a name.  None of these questions is ever answered in the
negative, since a node that breaks a rule is not expanded at all.

* `Fault.Defensive` collects the faults that the expansion keeps in reserve.
* `Node.ruleFault?_not_defensive` and `Node.IsDefinition.not_defensive`: neither the rules nor
  the store report one of them.
* `Expansion.Handled` says what the expansion of a command finds, and `handled_of_check` that
  the rules see to it.
* `rules_guard_expansion` is the main result.
-/

namespace SpeechMarkup

open Expansion

section Defence

/-- A fault by which the expansion of a node would report what the rules have to see to. -/
inductive Fault.Defensive : Fault → Prop
  | paramNeeded (name type : String) : Defensive (.rule (.paramNeeded name type))
  | negativeCount (count : Int) : Defensive (.rule (.negativeCount count))
  | noHandler (name : String) (command : Command) :
      Defensive (.rule (.noHandler name command))
  | missingName (command : String) : Defensive (.registration (.missingName command))
  | notDefinition (name : String) : Defensive (.registration (.notDefinition name))

variable {name : String} {params : List Param} {context : List Node} {fault : RuleFault}

theorem typeFault?_not_defensive
    {number : Nat}
    {slots : List Slot}
    (h : typeFault? name number slots params = some fault) :
    ¬ (Fault.rule fault).Defensive := by
  fun_induction typeFault? name number slots params with
  | case1 number slot slots param params _ ih => exact ih h
  | case2 =>
      cases h
      rintro ⟨⟩
  | case3 => cases h

theorem Slot.valueFault?_not_defensive
    {slot : Slot}
    {param : Param}
    (h : slot.valueFault? name param = some fault) :
    ¬ (Fault.rule fault).Defensive := by
  unfold Slot.valueFault? at h
  split at h
  · split at h <;> cases h
    rintro ⟨⟩
  · split at h <;> cases h
    rintro ⟨⟩
  · split at h <;> cases h
    rintro ⟨⟩
  · cases h

theorem valueFault?_not_defensive
    {slots : List Slot}
    (h : valueFault? name slots params = some fault) :
    ¬ (Fault.rule fault).Defensive := by
  fun_induction valueFault? name slots params with
  | case1 slot slots param params ih =>
      rcases Option.or_eq_some_iff.1 h with hslot | ⟨-, hslots⟩
      · exact Slot.valueFault?_not_defensive hslot
      · exact ih hslots
  | case2 => cases h

theorem paramsFault?_not_defensive
    {slots : List Slot}
    (h : paramsFault? name slots params = some fault) :
    ¬ (Fault.rule fault).Defensive := by
  unfold paramsFault? at h
  split at h
  · cases h
    rintro ⟨⟩
  · rcases Option.or_eq_some_iff.1 h with htypes | ⟨-, hvalues⟩
    · exact typeFault?_not_defensive htypes
    · exact valueFault?_not_defensive hvalues

theorem soundClasses_not_defensive
    (h : soundClasses name context = .error fault) :
    ¬ (Fault.rule fault).Defensive := by
  have hmap : ∀ {rest : List Node} {kind : PhonemeClass},
      (soundClasses name rest).map (kind :: ·) = .error fault →
      soundClasses name rest = .error fault := by
    intro rest kind hmap
    cases hrest : soundClasses name rest with
    | ok classes =>
        rw [hrest] at hmap
        cases hmap
    | error e =>
        rw [hrest] at hmap
        exact hmap
  fun_induction soundClasses name context with
  | case1 => cases h
  | case2 p rest _ ih => exact ih (hmap h)
  | case3 p rest _ ih => exact ih (hmap h)
  | case4 =>
      cases h
      rintro ⟨⟩
  | case5 =>
      cases h
      rintro ⟨⟩

theorem soundFault?_not_defensive
    (h : soundFault? name context = some fault) :
    ¬ (Fault.rule fault).Defensive := by
  unfold soundFault? at h
  split at h
  · cases h
    exact soundClasses_not_defensive ‹_›
  · split at h <;> cases h
    rintro ⟨⟩

theorem contextFault?_not_defensive
    {command : Command}
    (h : contextFault? command name params context = some fault) :
    ¬ (Fault.rule fault).Defensive := by
  unfold contextFault? at h
  split at h
  · split at h <;> cases h
    rintro ⟨⟩
  · split at h
    · cases h
      rintro ⟨⟩
    · exact soundFault?_not_defensive h
  · cases h
    rintro ⟨⟩
  · cases h

theorem commandFault?_not_defensive
    (h : commandFault? name params context = some fault) :
    ¬ (Fault.rule fault).Defensive := by
  unfold commandFault? at h
  split at h
  · cases h
    rintro ⟨⟩
  · split at h
    · cases h
      rintro ⟨⟩
    · rcases Option.or_eq_some_iff.1 h with hparams | ⟨-, hcontext⟩
      · split at hparams
        · cases hparams
        · exact paramsFault?_not_defensive hparams
      · exact contextFault?_not_defensive hcontext

theorem settingFault?_not_defensive
    {key : String}
    {value : Int}
    (h : settingFault? name key value = some fault) :
    ¬ (Fault.rule fault).Defensive := by
  unfold settingFault? at h
  split at h
  · cases h
    rintro ⟨⟩
  · split at h <;> cases h
    rintro ⟨⟩

theorem voiceFault?_not_defensive
    {v : Voice}
    (h : voiceFault? v = some fault) :
    ¬ (Fault.rule fault).Defensive := by
  unfold voiceFault? at h
  split at h
  · obtain ⟨⟨key, value⟩, -, hentry⟩ := List.exists_of_findSome?_eq_some h
    exact settingFault?_not_defensive hentry
  · cases h
    rintro ⟨⟩

/-- The rules do not speak for the expansion. -/
theorem Node.ruleFault?_not_defensive
    {n : Node}
    (h : n.ruleFault? = some fault) :
    ¬ (Fault.rule fault).Defensive := by
  cases n with
  | command pos name params context => exact commandFault?_not_defensive h
  | voice v => exact voiceFault?_not_defensive h
  | phoneme p => cases h
  | stop pos => cases h

theorem nameFault?_not_defensive
    {s : Store}
    {command : String}
    {fault : RegistrationFault}
    (h : s.nameFault? command name = some fault) :
    ¬ (Fault.registration fault).Defensive := by
  unfold Store.nameFault? at h
  split at h
  · cases h
    rintro ⟨⟩
  · split at h
    · cases h
      rintro ⟨⟩
    · split at h <;> cases h
      rintro ⟨⟩

/-- A definition is not refused for its form. -/
theorem Node.IsDefinition.not_defensive
    {s : Store}
    {n : Node}
    {fault : RegistrationFault}
    (hn : n.IsDefinition)
    (h : s.define n = .error fault) :
    ¬ (Fault.registration fault).Defensive := by
  cases hn with
  | phrase =>
      simp only [Store.define, Store.defineNamed, true_or, if_true] at h
      split at h
      · cases h
        exact nameFault?_not_defensive ‹_›
      · cases h
  | sound =>
      simp only [Store.define, Store.defineNamed, or_true, if_true] at h
      split at h
      · cases h
        exact nameFault?_not_defensive ‹_›
      · split at h <;> cases h
  | voice =>
      simp only [Store.define, Store.defineVoice] at h
      split at h
      · cases h
        rintro ⟨⟩
      · split at h <;> cases h
        rintro ⟨⟩

end Defence

section Guarding

/-- What a node raises on its own account is never a defence. -/
theorem Expansion.Raises.not_defensive
    {s : Store}
    {n : Node}
    {d : Diagnostic}
    (h : Raises s n d) :
    ¬ d.value.Defensive := by
  cases h with
  | rule h => exact Node.ruleFault?_not_defensive (Node.check_eq_error_iff.1 h).1
  | definition hn h => exact hn.not_defensive h
  | unparsed h =>
      rcases ofText_error h with ⟨fault, hfault⟩ | ⟨fault, hfault⟩
      · rw [hfault]
        rintro ⟨⟩
      · rw [hfault]
        rintro ⟨⟩
  | _ => rintro ⟨⟩

/-- Only a node that breaks a rule raises one. -/
theorem Expansion.Raises.check_eq_error
    {s : Store}
    {n : Node}
    {d : Diagnostic}
    {fault : RuleFault}
    (h : Raises s n d)
    (hd : d.value = .rule fault) :
    n.check = .error ⟨d.pos, fault⟩ := by
  cases h with
  | rule h =>
      cases hd
      exact h
  | unparsed h =>
      rcases ofText_error h with ⟨fault, hfault⟩ | ⟨fault, hfault⟩
      · cases hd.symm.trans hfault
      · cases hd.symm.trans hfault
  | _ => cases hd

/-- What becomes of a node that keeps the rules; phonemes and the end of a program are no
commands. -/
def Node.behavior? : Node → Option Behavior
  | .command _ name _ _ => (Command.ofName? name).map Command.behavior
  | .voice _ => some .register
  | .phoneme _ => none
  | .stop _ => none

/-- The commands that an expansion carries out itself, each with the parameter it looks for.
The one of `play` is overwritten, too. -/
inductive Expansion.Handled (pos : Position) (name : String) (params : List Param) :
    Command → Prop
  | bpm
      {v : Int}
      (h : intParam pos name params = pure v) :
      Handled pos name params .bpm
  | importFile
      {file : String}
      (h : textParam pos name params = pure file) :
      Handled pos name params .importFile
  | loop
      {count : Nat}
      (h : loopCount pos name params = pure count) :
      Handled pos name params .loop
  | name
      {voice : String}
      (h : textParam pos name params = pure voice) :
      Handled pos name params .name
  | play
      {file : String}
      (h : textParam pos name params = pure file)
      (hfirst : params[0]? = some (.str file)) :
      Handled pos name params .play

/-- A command that keeps the rules is known and has what its expansion looks for. -/
theorem handled_of_check
    {pos : Position}
    {name : String}
    {params : List Param}
    {context : List Node}
    (h : (Node.command pos name params context).check = .ok ()) :
    ∃ command, Command.ofName? name = some command ∧
      (command.behavior = .specialized → Handled pos name params command) := by
  have hfault : commandFault? name params context = none := Node.check_eq_ok_iff.1 h
  cases hcommand : Command.ofName? name with
  | none => simp [commandFault?, hcommand] at hfault
  | some command =>
      refine ⟨command, rfl, fun hbehavior => ?_⟩
      obtain ⟨-, hslots, -⟩ := commandFault?_eq_none hfault hcommand
      cases command <;> simp only [Command.behavior, reduceCtorEq] at hbehavior
      case bpm =>
        obtain ⟨v, rfl, -⟩ := params_of_intIn (hslots _ rfl)
        exact .bpm rfl
      case importFile =>
        obtain ⟨file, rfl⟩ := params_of_anyText (hslots _ rfl)
        exact .importFile rfl
      case loop =>
        obtain ⟨count, rfl, hmin, -⟩ := params_of_intIn (hslots _ rfl)
        exact .loop (loopCount_of_nonneg pos name hmin)
      case name =>
        obtain ⟨voice, rfl, -⟩ := params_of_identifier (hslots _ rfl)
        exact .name rfl
      case play =>
        obtain ⟨file, rfl⟩ := params_of_anyText (hslots _ rfl)
        exact .play rfl rfl

/-- A node that keeps the rules and is to be stored is a definition. -/
theorem isDefinition_of_check
    {n : Node}
    (h : n.check = .ok ())
    (hbehavior : n.behavior? = some .register) :
    n.IsDefinition := by
  cases n with
  | command pos name params context =>
      obtain ⟨command, hcommand, hregister⟩ := Option.map_eq_some_iff.1 hbehavior
      exact isDefinition_of_register pos (Node.check_eq_ok_iff.1 h) hcommand hregister
  | voice v => exact .voice
  | phoneme p => cases hbehavior
  | stop pos => cases hbehavior

theorem Diagnostic.rule_of_kind
    {d : Diagnostic}
    (h : d.kind = "ValidationError") :
    ∃ fault, d.value = .rule fault := by
  obtain ⟨pos, value⟩ := d
  cases value with
  | rule fault => exact ⟨fault, rfl⟩
  | _ => simp [Diagnostic.kind, Fault.kind] at h

theorem Node.isSome_commandName?_of_check
    {n : Node}
    {e : Located RuleFault}
    (h : n.check = .error e) :
    n.commandName?.isSome = true := by
  cases n with
  | command pos name params context => rfl
  | voice v => rfl
  | phoneme p => cases h
  | stop pos => cases h

/--
The rules leave nothing to find fault with.  A program that fails for a broken rule has come,
somewhere in its nodes or in those of a file or phrase, to a command or voice whose check fails
for that rule at that place, and no program fails with a fault that the expansion of a node
keeps in reserve.  A command that keeps the rules is known, and if it is carried out by the
expansion itself it has a handler and the parameter that the handler looks for.  A node that
keeps the rules and is to be stored is never refused for its form.  And the check of a node
looks at no parameter that is not there.
-/
theorem rules_guard_expansion :
    (∀ (files : Files) (p : Processor) (nodes : List Node) (d : Diagnostic),
      (p.process files nodes).1 = .error d →
        (d.kind = "ValidationError" →
          ∃ inner n u, Reaches files p.scope (Node.untilStop nodes) p.store inner n u ∧
            n.commandName?.isSome = true ∧
            ∃ fault, n.check = .error ⟨d.pos, fault⟩ ∧ d.value = .rule fault) ∧
        ¬ d.value.Defensive) ∧
    (∀ (pos : Position) (name : String) (params : List Param) (context : List Node),
      (Node.command pos name params context).check = .ok () →
        ∃ command, Command.ofName? name = some command ∧
          (command.behavior = .specialized → Handled pos name params command)) ∧
    (∀ (n : Node) (s : Store) (fault : RegistrationFault),
      n.check = .ok () → n.behavior? = some .register → s.define n = .error fault →
        ¬ (Fault.registration fault).Defensive) ∧
    ∀ n : Node, n.inspect = n.check.mapError (fun e => .broken e.value) ∧
      ∀ position, n.inspect ≠ .error (.missing position) := by
  refine ⟨?_, fun _ _ _ _ => handled_of_check, ?_, fun n => ⟨n.inspect_eq, n.inspect_ne_missing⟩⟩
  · intro files p nodes d hfail
    rw [Processor.process_eq] at hfail
    rcases origin_of_process hfail with hfull | ⟨inner, n, u, hreach, hraises⟩
    · refine ⟨fun hkind => ?_, ?_⟩
      · obtain ⟨fault, hfault⟩ := Diagnostic.rule_of_kind hkind
        cases hfull.symm.trans hfault
      · rw [hfull]
        rintro ⟨⟩
    · refine ⟨fun hkind => ?_, hraises.not_defensive⟩
      obtain ⟨fault, hfault⟩ := Diagnostic.rule_of_kind hkind
      have hcheck := hraises.check_eq_error hfault
      exact ⟨inner, n, u, hreach, Node.isSome_commandName?_of_check hcheck, fault, hcheck, hfault⟩
  · intro n s fault hcheck hbehavior hdefine
    exact (isDefinition_of_check hcheck hbehavior).not_defensive hdefine

/-- A loop in a stored phrase holds a rate that is too low. -/
def buried : Processor where
  scope := ⟨"/work", [], []⟩
  store :=
    { workDir := "/work"
      searchDirs := ["/work"]
      phrases := [("hi", [.command {} "loop" [.int 2]
        [.command { line := 3, column := 7 } "rate" [.int 5] []]])] }

/-- A call of the phrase fails for the rate, at the place of the command that sets it. -/
theorem rules_guard_expansion_buried :
    (buried.process (Listing.files ⟨[]⟩) [.phoneme ⟨{}, "hi", .int 0, 0⟩]).1 =
        .error ⟨{ line := 3, column := 7 }, .rule (.range "rate" 5 75 600)⟩ ∧
      ∃ inner n u, Reaches (Listing.files ⟨[]⟩) buried.scope [.phoneme ⟨{}, "hi", .int 0, 0⟩]
          buried.store inner n u ∧
        n.check = .error ⟨{ line := 3, column := 7 }, .range "rate" 5 75 600⟩ := by
  have hrun : (buried.process (Listing.files ⟨[]⟩) [.phoneme ⟨{}, "hi", .int 0, 0⟩]).1 =
      .error ⟨{ line := 3, column := 7 }, .rule (.range "rate" 5 75 600)⟩ := by
    decide +kernel
  obtain ⟨inner, n, u, hreach, -, fault, hcheck, hfault⟩ :=
    (rules_guard_expansion.1 _ _ _ _ hrun).1 rfl
  cases hfault
  exact ⟨hrun, inner, n, u, hreach, hcheck⟩

end Guarding

end SpeechMarkup
