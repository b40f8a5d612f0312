import SpeechMarkup.Command
import SpeechMarkup.Node

/-!
# Rules for commands and voices

Each command has a row that says how many parameters it takes, of which types,
and which values they may have; a few commands also have a rule for their block.
`Node.check` holds a node against its row and names the first rule that is
broken: first the block of a command that takes none, then the number of
parameters, then their types, then their values from left to right, and last the
block.
-/

namespace SpeechMarkup

/-- The rule that a node breaks. -/
inductive RuleFault
  | unknownCommand (name : String)
  | contextNotTaken (name : String)
  | paramCount (name : String) (expected got : Nat)
  | paramType (name : String) (number : Nat) (expected got : String)
  | keyword (name value : String) (options : List String)
  | range (name : String) (value min max : Int)
  | identifier (name value : String)
  | missingContext (name first : String)
  | soundItem (sound node : String)
  | soundClass (sound phoneme : String)
  | soundPattern (sound : String)
  | voiceCommand
  | voiceName (name : String)
  | voiceKey (name key : String)
  | voiceValue (name key : String) (value min max : Int)
  /-- The expansion of a command finds no parameter of the type it needs. -/
  | paramNeeded (name type : String)
  | negativeCount (count : Int)
  | noHandler (name : String) (command : Command)
deriving Repr, DecidableEq

def RuleFault.message : RuleFault → String
  | unknownCommand name => "unrecognized command '" ++ name ++ "'"
  | contextNotTaken name => "command '" ++ name ++ "' does not take a context"
  | paramCount name expected got =>
      "command '" ++ name ++ "' takes " ++ toString expected ++ " parameter(s) - got "
        ++ toString got
  | paramType name number expected got =>
      "command '" ++ name ++ "' parameter " ++ toString number ++ " must be " ++ expected
        ++ " - got " ++ got
  | keyword name value options =>
      "command '" ++ name ++ "' parameter '" ++ value
        ++ "' is not a valid keyword - expected one of " ++ "|".intercalate options
  | range name value min max =>
      "command '" ++ name ++ "' parameter value " ++ toString value ++ " must be between "
        ++ toString min ++ " and " ++ toString max
  | identifier name value =>
      "command '" ++ name ++ "' parameter '" ++ value ++ "' is not a valid name"
  | missingContext name first => name ++ " '" ++ first ++ "' is missing its context"
  | soundItem sound node =>
      "sound '" ++ sound ++ "' takes only phonemes - got '" ++ node ++ "'"
  | soundClass sound phoneme =>
      "sound '" ++ sound ++ "' can only contain vowel or consonant phonemes - got '"
        ++ phoneme ++ "'"
  | soundPattern sound =>
      "sound '" ++ sound ++ "' does not follow the consonant-vowel-consonant pattern"
  | voiceCommand => "voices must be declared as '[:voice NAME] \x7b ... \x7d'"
  | voiceName name => "voice name '" ++ name ++ "' is not a valid name"
  | voiceKey name key =>
      "voice '" ++ name ++ "' contains unrecognized parameter '" ++ key ++ "'"
  | voiceValue name key value min max =>
      "voice '" ++ name ++ "' parameter '" ++ key ++ "' value " ++ toString value
        ++ " is not within " ++ toString min ++ " - " ++ toString max
  | paramNeeded name type =>
      "command '" ++ name ++ "' expects " ++ (if type = "INT" then "an " else "a ") ++ type
        ++ " parameter"
  | negativeCount count => "loop count " ++ toString count ++ " must not be negative"
  | noHandler name command =>
      "command '" ++ name ++ "' (" ++ command.title ++ ") has no compiler handler"

/-- Whether a text can name a phrase, sound or voice: one letter, or at least two
letters, digits and underscores of which the first is no digit. -/
def isIdentifier (s : String) : Bool :=
  match s.toList with
  | [] => false
  | [c] => c.isAlpha
  | c :: cs => (c.isAlpha || c = '_') && cs.all fun d => d.isAlphanum || d = '_'

/-- What a parameter has to be. -/
inductive Slot
  | anyInt
  | intIn (min max : Int)
  | anyText
  | oneOf (options : List String)
  | identifier
deriving Repr, DecidableEq

namespace Slot

/-- The type a parameter has to have, as diagnostics name it. -/
def typeName : Slot → String
  | anyInt | intIn _ _ => "INT"
  | anyText | oneOf _ | identifier => "STRING"

/-- The rule on values that a parameter of the right type breaks. -/
def valueFault? (command : String) : Slot → Param → Option RuleFault
  | intIn min max, .int v =>
      if v < min ∨ max < v then some (.range command v min max) else none
  | oneOf options, .str s =>
      if options.contains s then none else some (.keyword command s options)
  | identifier, .str s =>
      if isIdentifier s then none else some (.identifier command s)
  | _, _ => none

end Slot

namespace Command

/-- The parameters of a command; a command with no row takes any.  The second
parameter of `dv` depends on the first, and `volume` has a form with three. -/
def slots (params : List Param) : Command → Option (List Slot)
  | comma | cp | period | pp | pitch => some [.anyInt]
  | play | importFile => some [.anyText]
  | tone => some [.anyInt, .anyInt]
  | dv =>
      let value :=
        match params with
        | .str key :: _ =>
          match voiceParam? key with
          | some p => Slot.intIn p.min p.max
          | none => .anyInt
        | _ => .anyInt
      some [.oneOf (voiceParams.map (·.name)), value]
  | error => some [.oneOf ["ignore", "speak", "tone"]]
  | mode =>
      some
        [.oneOf ["math", "europe", "spell", "name", "citation", "latin", "table"],
          .oneOf ["on", "off", "set"]]
  | name => some [.identifier]
  | phoneme => some [.oneOf ["arpabet"], .oneOf ["on", "off"]]
  | pronounce =>
      some [.oneOf ["alternate", "primary", "name", "noun", "adjective", "verb"]]
  | punct => some [.oneOf ["none", "some", "all", "pass"]]
  | rate => some [.intIn 75 600]
  | say => some [.oneOf ["clause", "word", "letter", "filtered", "line"]]
  | skip => some [.oneOf ["punct", "rule", "all", "off", "cpg", "none"]]
  | volume =>
      if params.length = 3 then
        some [.oneOf ["sset"], .intIn 0 100, .intIn 0 100]
      else
        some
          [.oneOf ["up", "lup", "rup", "down", "ldown", "rdown", "set", "lset", "rset"],
            .intIn 0 100]
  | bpm => some [.intIn 0 60000]
  | loop => some [.intIn 0 maxWord]
  | phrase | sound => some [.identifier]
  | nameAlias | voice => none

end Command

/-- The first parameter that is not of its slot's type; `number` counts from one. -/
def typeFault? (command : String) (number : Nat) :
    List Slot → List Param → Option RuleFault
  | slot :: slots, param :: params =>
      if slot.typeName = param.typeName then typeFault? command (number + 1) slots params
      else some (.paramType command number slot.typeName param.typeName)
  | _, _ => none

/-- The first parameter whose value its slot does not allow. -/
def valueFault? (command : String) : List Slot → List Param → Option RuleFault
  | slot :: slots, param :: params =>
      (slot.valueFault? command param).or (valueFault? command slots params)
  | _, _ => none

/-- The rule that a list of parameters breaks. -/
def paramsFault? (command : String) (slots : List Slot) (params : List Param) :
    Option RuleFault :=
  if params.length ≠ slots.length then
    some (.paramCount command slots.length params.length)
  else
    (typeFault? command 1 slots params).or (valueFault? command slots params)

/-- The classes of the phonemes of a sound, or the rule that one of them breaks. -/
def soundClasses (sound : String) : List Node → Except RuleFault (List PhonemeClass)
  | [] => .ok []
  | .phoneme p :: rest =>
      match classify p.symbol with
      | some .consonant => (soundClasses sound rest).map (.consonant :: ·)
      | some .vowel => (soundClasses sound rest).map (.vowel :: ·)
      | _ => .error (.soundClass sound p.render)
  | node :: _ => .error (.soundItem sound node.render)

/-- Consonants, then at least one vowel, then consonants. -/
def isSoundPattern (classes : List PhonemeClass) : Bool :=
  let tail := classes.dropWhile (· = .consonant)
  !(tail.takeWhile (· = .vowel)).isEmpty &&
    (tail.dropWhile (· = .vowel)).all (· = .consonant)

/-- The rule that the block of a sound breaks. -/
def soundFault? (sound : String) (context : List Node) : Option RuleFault :=
  match soundClasses sound context with
  | .error fault => some fault
  | .ok classes => if isSoundPattern classes then none else some (.soundPattern sound)

/-- The text of the first parameter. -/
def firstText (params : List Param) : String :=
  match params with
  | .str s :: _ => s
  | _ => ""

/-- The rule that the block of a command breaks. -/
def contextFault? (command : Command) (name : String) (params : List Param)
    (context : List Node) : Option RuleFault :=
  match command with
  | .phrase =>
      if context.isEmpty then some (.missingContext name (firstText params)) else none
  | .sound =>
      if context.isEmpty then some (.missingContext name (firstText params))
      else soundFault? (firstText params) context
  | .voice => some .voiceCommand
  | _ => none

/-- The rule that a command breaks. -/
def commandFault? (name : String) (params : List Param) (context : List Node) :
    Option RuleFault :=
  match Command.ofName? name with
  | none => some (.unknownCommand name)
  | some command =>
    if !command.takesContext && !context.isEmpty then some (.contextNotTaken name)
    else
      let fault? :=
        match command.slots params with
        | none => none
        | some slots => paramsFault? name slots params
      fault?.or (contextFault? command name params context)

/-- The rule that a value in a voice declaration breaks. -/
def settingFault? (voice key : String) (value : Int) : Option RuleFault :=
  match voiceParam? key with
  | none => some (.voiceKey voice key)
  | some p =>
    if value < p.min ∨ p.max < value then some (.voiceValue voice key value p.min p.max)
    else none

/-- The rule that a voice declaration breaks. -/
def voiceFault? (v : Voice) : Option RuleFault :=
  if isIdentifier v.name then
    v.settings.entries.findSome? fun (key, value) => settingFault? v.name key value
  else some (.voiceName v.name)

/-- The rule that a node breaks.  Phonemes are looked up when they are expanded. -/
def Node.ruleFault? : Node → Option RuleFault
  | .command _ name params context => commandFault? name params context
  | .voice v => voiceFault? v
  | .phoneme _ => none
  | .stop _ => none

/-- Whether a node keeps the rules; a fault is reported at the node's own place. -/
def Node.check (n : Node) : Except (Located RuleFault) Unit :=
  match n.ruleFault? with
  | some fault => .error ⟨n.pos, fault⟩
  | none => .ok ()

end SpeechMarkup
