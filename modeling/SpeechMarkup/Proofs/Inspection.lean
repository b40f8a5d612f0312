import SpeechMarkup.Proofs.Steps

/-!
# Rules by position

The rules can be held against a command in single checks, of which each looks for a parameter
at its position and takes it for granted that there is one.  This file writes them so, with an
outcome of its own for a parameter that is not there.  The checks come in an order in which
none is ever missing: the number of parameters is settled before the first one is looked at.

* `Inspection` is a course of checks, and `Node.inspect` those that a node has to pass.
* `Inspection.slotsFrom_eq` is the step from slot to slot: behind the checks of number and
  types every position is taken.
* `Node.inspect_eq` is the main result: the checks end with the fault that the rules find.
-/

namespace SpeechMarkup

/-- What ends a course of checks. -/
inductive Inspection.Stop
  /-- There is no parameter at the position. -/
  | missing (position : Nat)
  | broken (fault : RuleFault)
deriving Repr, DecidableEq

/-- A course of checks, which goes on to the next as long as nothing ends it. -/
abbrev Inspection := Except Inspection.Stop

namespace Inspection

section Checks

/-- Ends with the fault, if there is one. -/
def report : Option RuleFault → Inspection Unit
  | none => pure ()
  | some fault => throw (.broken fault)

variable (name : String) (params : List Param) (context : List Node)

def paramAt (position : Nat) : Inspection Param :=
  match params[position]? with
  | some param => pure param
  | none => throw (.missing position)

/-- The text at a position; a number counts as no text. -/
def textAt (position : Nat) : Inspection String := do
  let param ← paramAt params position
  pure (param.str?.getD "")

/-- The whole number at a position; all else counts as zero. -/
def intAt (position : Nat) : Inspection Int := do
  let param ← paramAt params position
  pure (param.int?.getD 0)

def keyword (position : Nat) (options : List String) : Inspection Unit := do
  let value ← textAt params position
  report (if options.contains value then none else some (.keyword name value options))

def range (position : Nat) (min max : Int) : Inspection Unit := do
  let value ← intAt params position
  report (if value < min ∨ max < value then some (.range name value min max) else none)

def identifier (position : Nat) : Inspection Unit := do
  let value ← textAt params position
  report (if isIdentifier value then none else some (.identifier name value))

/-- The number of parameters, then their types. -/
def shape (slots : List Slot) : Inspection Unit := do
  report (if params.length ≠ slots.length then
    some (.paramCount name slots.length params.length) else none)
  report (typeFault? name 1 slots params)

/-- The value at a position, by what its slot allows. -/
def slotAt (position : Nat) : Slot → Inspection Unit
  | .anyInt => pure ()
  | .intIn min max => range name params position min max
  | .anyText => pure ()
  | .oneOf options => keyword name params position options
  | .identifier => identifier name params position

/-- The values from a position on. -/
def slotsFrom : Nat → List Slot → Inspection Unit
  | _, [] => pure ()
  | position, slot :: slots => do
      slotAt name params position slot
      slotsFrom (position + 1) slots

/-- The parameters of a command.  The limits of the value of `dv` are those of the parameter
that stands before it. -/
def ofParams : Command → Inspection Unit
  | .dv => do
      shape name params [.anyText, .anyInt]
      keyword name params 0 (voiceParams.map (·.name))
      let key ← textAt params 0
      match voiceParam? key with
      | some p => range name params 1 p.min p.max
      | none => pure ()
  | command =>
      match command.slots params with
      | none => pure ()
      | some slots => do
          shape name params slots
          slotsFrom name params 0 slots

/-- A block that must not be empty. -/
def block : Inspection Unit :=
  if context.isEmpty then do
    let first ← textAt params 0
    report (some (.missingContext name first))
  else pure ()

/-- The block of a command. -/
def ofBlock : Command → Inspection Unit
  | .phrase => block name params context
  | .sound => do
      block name params context
      let sound ← textAt params 0
      report (soundFault? sound context)
  | .voice => report (some .voiceCommand)
  | _ => pure ()

/-- A command, its parameters and its block. -/
def ofCommand : Inspection Unit :=
  match Command.ofName? name with
  | none => report (some (.unknownCommand name))
  | some command =>
    if !command.takesContext && !context.isEmpty then report (some (.contextNotTaken name))
    else do
      ofParams name params command
      ofBlock name params context command

end Checks

end Inspection

/-- The checks that a node has to pass. -/
def Node.inspect : Node → Inspection Unit
  | .command _ name params context => Inspection.ofCommand name params context
  | .voice v => Inspection.report (voiceFault? v)
  | .phoneme _ => pure ()
  | .stop _ => pure ()

namespace Inspection

section Laws

variable {name : String} {params : List Param} {context : List Node}

@[simp] theorem report_none : report none = pure () := rfl

/-- The first of two faults is the one that is reported. -/
theorem report_bind (first second : Option RuleFault) :
    (do report first; report second) = report (first.or second) := by
  cases first with
  | none => rfl
  | some fault => rfl

theorem paramAt_of_getElem?
    {position : Nat}
    {param : Param}
    (h : params[position]? = some param) :
    paramAt params position = pure param := by
  rw [paramAt, h]

/-- The value at a position that is taken, by a parameter of the right type. -/
theorem slotAt_eq
    {position : Nat}
    {slot : Slot}
    {param : Param}
    (h : params[position]? = some param)
    (htype : slot.typeName = param.typeName) :
    slotAt name params position slot = report (slot.valueFault? name param) := by
  have hparam := paramAt_of_getElem? h
  cases slot <;> cases param <;>
    simp_all [slotAt, range, keyword, identifier, textAt, intAt, Slot.typeName, Param.typeName,
      Slot.valueFault?, Param.str?, Param.int?]

/-- Behind the checks of number and types, every position from the first on is taken. -/
theorem slotsFrom_eq
    {position number : Nat}
    {slots : List Slot}
    (hlength : (params.drop position).length = slots.length)
    (htypes : typeFault? name number slots (params.drop position) = none) :
    slotsFrom name params position slots =
      report (valueFault? name slots (params.drop position)) := by
  induction slots generalizing position number with
  | nil => rfl
  | cons slot slots ih =>
      obtain ⟨param, rest, hdrop⟩ : ∃ param rest, params.drop position = param :: rest :=
        List.exists_cons_of_length_eq_add_one hlength
      have hparam : params[position]? = some param := by
        rw [← List.head?_drop, hdrop]
        rfl
      have hrest : params.drop (position + 1) = rest := by
        rw [← List.tail_drop, hdrop]
        rfl
      rw [hdrop, List.length_cons, List.length_cons, Nat.add_right_cancel_iff] at hlength
      rw [hdrop, typeFault?_cons_eq_none] at htypes
      rw [← hrest] at hlength htypes
      rw [slotsFrom, slotAt_eq hparam htypes.1, ih hlength htypes.2, report_bind, hrest, hdrop,
        valueFault?]

/-- The checks of number, types and values find what the rules find. -/
theorem shape_slotsFrom_eq (slots : List Slot) :
    (do shape name params slots; slotsFrom name params 0 slots) =
      report (paramsFault? name slots params) := by
  unfold shape paramsFault?
  by_cases hlength : params.length = slots.length
  · simp only [hlength, ne_eq, not_true_eq_false, if_false, report_none, pure_bind]
    cases htypes : typeFault? name 1 slots params with
    | some fault => rfl
    | none =>
        have hvalues : slotsFrom name params 0 slots =
            report (valueFault? name slots (params.drop 0)) :=
          slotsFrom_eq hlength htypes
        rw [report_none, pure_bind, hvalues, Option.none_or, List.drop_zero]
  · simp only [hlength, ne_eq, not_false_eq_true, if_true]
    rfl

/-- What the rules find in the parameters of a command, which takes any if it has no row. -/
def rowFault? (name : String) (params : List Param) (command : Command) : Option RuleFault :=
  match command.slots params with
  | none => none
  | some slots => paramsFault? name slots params

/-- The limits of the second parameter of `dv` are looked up behind the check of the first. -/
theorem ofParams_dv_eq : ofParams name params .dv = report (rowFault? name params .dv) := by
  rcases params with _ | ⟨p, _ | ⟨q, _ | ⟨r, rest⟩⟩⟩
  · rfl
  · rfl
  · cases p with
    | int v => rfl
    | float x => rfl
    | str key =>
        -- No slot changes the type of its parameter, so the limits leave the check of types alone.
        cases hkey : voiceParam? key <;> cases q <;>
          simp [ofParams, rowFault?, Command.slots, hkey, shape, keyword, range, textAt, intAt,
            paramAt, paramsFault?, typeFault?, valueFault?, Slot.typeName, Slot.valueFault?,
            Param.typeName, Param.str?, Param.int?, report_bind]
  · rfl

theorem ofParams_eq (command : Command) :
    ofParams name params command = report (rowFault? name params command) := by
  by_cases hdv : command = .dv
  · rw [hdv, ofParams_dv_eq]
  · unfold ofParams rowFault?
    split
    · exact absurd rfl hdv
    · cases command.slots params with
      | none => rfl
      | some slots => exact shape_slotsFrom_eq slots

/-- The block of a command whose parameters keep the rules. -/
theorem ofBlock_eq
    {command : Command}
    (h : ∀ slots, command.slots params = some slots → paramsFault? name slots params = none) :
    ofBlock name params context command = report (contextFault? command name params context) := by
  cases command with
  | phrase =>
      obtain ⟨t, rfl, -⟩ := params_of_identifier (h _ rfl)
      simp only [ofBlock, block, contextFault?, firstText]
      split
      · rfl
      · rfl
  | sound =>
      obtain ⟨t, rfl, -⟩ := params_of_identifier (h _ rfl)
      simp only [ofBlock, block, contextFault?, firstText]
      split
      · rfl
      · rfl
  | voice => rfl
  | _ => rfl

theorem ofCommand_eq :
    ofCommand name params context = report (commandFault? name params context) := by
  unfold ofCommand commandFault?
  cases hname : Command.ofName? name with
  | none => rfl
  | some command =>
      dsimp only
      split
      · rfl
      · rw [ofParams_eq]
        change _ = report ((rowFault? name params command).or _)
        cases hrow : rowFault? name params command with
        | some fault => rfl
        | none =>
            rw [report_none, pure_bind, Option.none_or, ofBlock_eq]
            intro slots hslots
            simpa only [rowFault?, hslots] using hrow

end Laws

end Inspection

/-- The checks of a node end with the fault that the rules find, and never for a parameter that
is not there. -/
theorem Node.inspect_eq (n : Node) :
    n.inspect = n.check.mapError fun e => .broken e.value := by
  have hreport : n.inspect = Inspection.report n.ruleFault? := by
    cases n with
    | command pos name params context => exact Inspection.ofCommand_eq
    | voice v => rfl
    | phoneme p => rfl
    | stop pos => rfl
  rw [hreport, Node.check]
  cases n.ruleFault? <;> rfl

theorem Node.inspect_ne_missing
    (n : Node)
    (position : Nat) :
    n.inspect ≠ .error (.missing position) := by
  rw [n.inspect_eq]
  cases n.check with
  | ok a => simp [Except.mapError]
  | error e => simp [Except.mapError]

end SpeechMarkup
