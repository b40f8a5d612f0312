/-!
# Command-line arguments

Arguments are options and sources in any order.  An option that takes a value
takes it from the same argument, behind `=` or right behind its letter, or from
the next one, which must not look like an option itself.  Letters of options
without values can share one dash.  Behind `--` everything is a source.
-/

namespace SpeechMarkup

/-- What the arguments of a run ask for. -/
structure Options where
  sources : List String := []
  includes : List String := []
  buildDir : Option String := none
  toStdout : Bool := false
  config : Option String := none
deriving Repr, DecidableEq

/-- What the arguments amount to. -/
inductive Request
  | run (options : Options)
  | help
  | version
  /-- The arguments break a rule. -/
  | misuse
deriving Repr, DecidableEq

namespace Options

/-- The options that take a value. -/
inductive Valued
  | «include»
  | buildDir
  | config
deriving Repr, DecidableEq

/-- Gives an option its value, which must not be empty; only `include` can be given
more than once. -/
def give (o : Options) (option : Valued) (value : String) : Option Options :=
  if value.isEmpty then none
  else
    match option with
    | .include => some { o with includes := o.includes ++ [value] }
    | .buildDir =>
        if o.buildDir.isSome then none else some { o with buildDir := some value }
    | .config => if o.config.isSome then none else some { o with config := some value }

/-- Whether an argument looks like an option. -/
def looksLikeOption (arg : String) : Bool :=
  match arg.toList with
  | '-' :: _ :: _ => true
  | _ => false

/-- What an argument that looks like an option asks for. -/
inductive Meaning
  /-- Nothing that has a further effect. -/
  | plain
  | toStdout
  | help
  | version
  /-- An option and its value, which is still to come if it is missing. -/
  | valued (option : Valued) (value : Option String)
  | misuse
deriving Repr, DecidableEq

/-- The value right behind the letter of an option. -/
def attached (cs : List Char) : Option String :=
  match cs with
  | [] => none
  | '=' :: cs => some (String.ofList cs)
  | cs => some (String.ofList cs)

/-- Reads letters up to the first with a value or an effect of its own. -/
def letters : List Char → Meaning
  | [] => .plain
  | 'v' :: cs => letters cs
  | 'h' :: _ => .help
  | 'V' :: _ => .version
  | 'I' :: cs => .valued .include (attached cs)
  | 'o' :: cs => .valued .buildDir (attached cs)
  | _ => .misuse

/-- A long option and the value behind its `=`. -/
def cutValue (cs : List Char) : String × Option String :=
  let name := String.ofList (cs.takeWhile (· ≠ '='))
  match cs.dropWhile (· ≠ '=') with
  | [] => (name, none)
  | _ :: value => (name, some (String.ofList value))

/-- An option by its long name, with the value behind its `=`. -/
def long (name : String) (value : Option String) : Meaning :=
  match name, value with
  | "include", value => .valued .include value
  | "build-dir", value => .valued .buildDir value
  | "config", value => .valued .config value
  | "stdout", none => .toStdout
  | "verbose", none => .plain
  | "help", none => .help
  | "version", none => .version
  | _, _ => .misuse

/-- What an argument asks for that looks like an option. -/
def meaning (arg : String) : Meaning :=
  match arg.toList with
  | '-' :: '-' :: cs =>
      let (name, value) := cutValue cs
      long name value
  | _ :: cs => letters cs
  | [] => .misuse

/-- Reads arguments from left to right. -/
def read (o : Options) : List String → Request
  | [] => .run o
  | arg :: rest =>
    if arg = "--" then .run { o with sources := o.sources ++ rest }
    else if !looksLikeOption arg then read { o with sources := o.sources ++ [arg] } rest
    else
      match meaning arg with
      | .plain => read o rest
      | .toStdout => if o.toStdout then .misuse else read { o with toStdout := true } rest
      | .help => .help
      | .version => .version
      | .misuse => .misuse
      | .valued option (some value) =>
        match o.give option value with
        | some o => read o rest
        | none => .misuse
      | .valued option none =>
        match rest with
        | [] => .misuse
        | value :: rest =>
          if looksLikeOption value then .misuse
          else
            match o.give option value with
            | some o => read o rest
            | none => .misuse

end Options

/-- What the arguments of a run amount to. -/
def Request.ofArguments (args : List String) : Request :=
  Options.read {} args

end SpeechMarkup
