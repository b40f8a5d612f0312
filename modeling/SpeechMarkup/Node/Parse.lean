import SpeechMarkup.Node
import SpeechMarkup.Token.Scan

/-!
# Reading nodes

The grammar, with `S` for a string:

```text
program := item* eof
item    := command | voice | phoneme
command := '[' S param* ']' ('{' item* '}')?         S is ':' and a name
voice   := '[' ':voice' S ']' ('{' (S INT ','?)+ '}')?
phoneme := (S | ',') ('<' (INT | FLOAT)? (',' INT?)? '>')?
```

The reader keeps the commands whose blocks are open on a stack, so it needs no
recursion over the nesting: `Parse.items` reads one opening bracket, phoneme or
closing brace after the other.  Everything it calls reads a construct without
items inside.  A reading names the tokens it leaves, also when it fails.
-/

namespace SpeechMarkup

/-- Why a sequence of tokens is no program. -/
inductive SyntaxFault
  /-- No item starts with this token. -/
  | unexpected (got : Token.Kind)
  | commandName (got : Token.Kind)
  | missingColon (name : String)
  | emptyCommandName
  | unclosedCommand (name : String)
  | commandParam (got : Token.Kind)
  | unclosedContext
  | contextItem (got : Token.Kind)
  | unclosedPhoneme (symbol : String) (got : Token.Kind)
  | voiceName (got : Token.Kind)
  | voiceBracket (got : Token.Kind)
  | emptyVoice (name : String)
  | unclosedVoice (name : String)
  | voiceKey (got : Token.Kind)
  | voiceValue (key : String) (got : Token.Kind)
  | repeatedKey (name key : String)
deriving Repr, DecidableEq

def SyntaxFault.message : SyntaxFault → String
  | unexpected got => "unexpected " ++ got.render
  | commandName got => "expected STRING for command name, got " ++ got.render
  | missingColon name =>
      "command '" ++ name ++ "' must start with ':' - try ':" ++ name ++ "'"
  | emptyCommandName => "no command provided - only got ':'"
  | unclosedCommand name => "command ':" ++ name ++ "' is never closed with ']'"
  | commandParam got =>
      "command parameter can only be STRING, INT or FLOAT - got " ++ got.render
  | unclosedContext => "command context is never closed with '\x7d'"
  | contextItem got => "illegal " ++ got.render ++ " in command context"
  | unclosedPhoneme symbol got =>
      "missing '>' when parsing phoneme '" ++ symbol ++ "' - got " ++ got.render
  | voiceName got => "voice name must be STRING - got " ++ got.render
  | voiceBracket got => "voice command takes only one parameter - got " ++ got.render
  | emptyVoice name => "voice '" ++ name ++ "' has an empty parameter block"
  | unclosedVoice name => "voice '" ++ name ++ "' is never closed with '\x7d'"
  | voiceKey got => "voice parameter must be STRING - got " ++ got.render
  | voiceValue key got =>
      "voice parameter '" ++ key ++ "' value must be INT - got " ++ got.render
  | repeatedKey name key => "voice '" ++ name ++ "' sets parameter '" ++ key ++ "' twice"

namespace Parse

/-- What was read, or why it could not be, and the tokens that are left. -/
structure Reading (α : Type) where
  result : Except (Located SyntaxFault) α
  rest : List Token
deriving Repr

namespace Reading

variable {α β : Type}

def ok (value : α) (rest : List Token) : Reading α :=
  ⟨.ok value, rest⟩

def fail (pos : Position) (cause : SyntaxFault) (rest : List Token) : Reading α :=
  ⟨.error ⟨pos, cause⟩, rest⟩

def map (f : α → β) (r : Reading α) : Reading β :=
  ⟨r.result.map f, r.rest⟩

/-- Goes on with the tokens that are left, unless the first reading failed. -/
def bind (r : Reading α) (f : α → List Token → Reading β) : Reading β :=
  match r.result with
  | .ok a => f a r.rest
  | .error e => ⟨.error e, r.rest⟩

end Reading

/-- The kind of the next token; behind the last one there is `eof`. -/
def peek (ts : List Token) : Token.Kind :=
  match ts with
  | [] => .eof
  | t :: _ => t.kind

/-- Drops the next token if it is of the given kind. -/
def accept (kind : Token.Kind) (ts : List Token) : Option (List Token) :=
  match ts with
  | [] => none
  | t :: rest => if t.kind = kind then some rest else none

/-- The parameters of the command `name` up to its closing bracket. -/
def params (pos : Position) (name : String) : List Token → Reading (List Param)
  | [] => .fail pos (.unclosedCommand name) []
  | t :: ts =>
    match t.kind with
    | .rightBracket => .ok [] ts
    | .int v => (params pos name ts).map (.int v :: ·)
    | .float v => (params pos name ts).map (.float v :: ·)
    | .str s => (params pos name ts).map (.str s :: ·)
    | .eof => .fail pos (.unclosedCommand name) (t :: ts)
    | got => .fail pos (.commandParam got) (t :: ts)

/-- The settings of the voice `name` up to the closing brace of its block. -/
def voicePairs (pos : Position) (name : String) (settings : VoiceSettings) :
    List Token → Reading VoiceSettings
  | [] => .fail pos (.unclosedVoice name) []
  | t :: ts =>
    match t.kind with
    | .rightBrace => .ok settings ts
    | .eof => .fail pos (.unclosedVoice name) (t :: ts)
    | .str key =>
      match ts with
      | [] => .fail pos (.voiceValue key .eof) []
      | u :: us =>
        match u.kind with
        | .int value =>
          if settings.contains key then .fail pos (.repeatedKey name key) us
          else
            match us with
            | [] => .fail pos (.unclosedVoice name) []
            | c :: cs =>
              if c.kind = .comma then voicePairs pos name (settings.insert key value) cs
              else voicePairs pos name (settings.insert key value) (c :: cs)
        | got => .fail pos (.voiceValue key got) (u :: us)
    | got => .fail pos (.voiceKey got) (t :: ts)

/-- A voice declaration behind the word `:voice`. -/
def voice (pos : Position) (ts : List Token) : Reading Voice :=
  match ts with
  | ⟨.str name, _⟩ :: ts =>
    match accept .rightBracket ts with
    | none => .fail pos (.voiceBracket (peek ts)) ts
    | some ts =>
      match accept .leftBrace ts with
      | none => .ok ⟨pos, name, .empty⟩ ts
      | some ts =>
        if peek ts = .rightBrace then .fail pos (.emptyVoice name) ts
        else (voicePairs pos name .empty ts).map fun settings => ⟨pos, name, settings⟩
  | ts => .fail pos (.voiceName (peek ts)) ts

/-- The length behind an opening chevron, which may be missing. -/
def length (ts : List Token) : Duration × List Token :=
  match ts with
  | ⟨.int v, _⟩ :: ts => (.int v, ts)
  | ⟨.float v, _⟩ :: ts => (.float v, ts)
  | ts => (.int 0, ts)

/-- The pitch behind a length, which may be missing with or without its comma. -/
def pitch (ts : List Token) : Int × List Token :=
  match ts with
  | ⟨.comma, _⟩ :: ⟨.int v, _⟩ :: ts => (v, ts)
  | ⟨.comma, _⟩ :: ts => (0, ts)
  | ts => (0, ts)

/-- A phoneme with the length and pitch that its symbol can have. -/
def restrict (p : Phoneme) : Phoneme :=
  { p with
    duration := if hasNoLength p.symbol then .int 0 else p.duration
    pitch := if hasNoPitch p.symbol then 0 else p.pitch }

/-- A phoneme behind its symbol. -/
def phoneme (pos : Position) (symbol : String) (ts : List Token) : Reading Phoneme :=
  match accept .leftChevron ts with
  | none => .ok (restrict ⟨pos, symbol, .int 0, 0⟩) ts
  | some ts =>
    let (duration, ts) := length ts
    let (height, ts) := pitch ts
    match accept .rightChevron ts with
    | some ts => .ok (restrict ⟨pos, symbol, duration, height⟩) ts
    | none => .fail pos (.unclosedPhoneme symbol (peek ts)) ts

/-- What an opening bracket starts: a whole node, or a command whose block follows. -/
inductive Opening
  | whole (node : Node)
  | block (name : String) (params : List Param)
deriving Repr

/-- The name of a command without its colon. -/
def bareName (text : String) : Except SyntaxFault String :=
  match text.toList with
  | ':' :: [] => .error .emptyCommandName
  | ':' :: name => .ok (String.ofList name)
  | _ => .error (.missingColon text)

/-- A command or voice declaration behind its opening bracket, up to the opening
brace of its block if it has one. -/
def bracket (pos : Position) (ts : List Token) : Reading Opening :=
  match ts with
  | ⟨.str text, p⟩ :: rest =>
    match bareName text with
    | .error cause => .fail pos cause (⟨.str text, p⟩ :: rest)
    | .ok name =>
      if name = "voice" then (voice pos rest).map fun v => .whole (.voice v)
      else
        (params pos name rest).bind fun ps ts =>
          match accept .leftBrace ts with
          | some ts => .ok (.block name ps) ts
          | none => .ok (.whole (.command pos name ps [])) ts
  | ts => .fail pos (.commandName (peek ts)) ts

/-- A command whose block is being read, and the nodes before it, last first. -/
structure Frame where
  pos : Position
  name : String
  params : List Param
  before : List Node
deriving Repr

section Progress

theorem accept_length_lt
    {kind : Token.Kind}
    {ts rest : List Token}
    (h : accept kind ts = some rest) :
    rest.length < ts.length := by
  unfold accept at h
  split at h
  · cases h
  · split at h
    · cases h; simp
    · cases h

theorem params_rest_length_le
    (pos : Position)
    (name : String)
    (ts : List Token) :
    (params pos name ts).rest.length ≤ ts.length := by
  fun_induction params pos name ts with
  | case1 => simp [Reading.fail]
  | case2 => simp [Reading.ok]
  | case3 t ts v _ ih => simp only [Reading.map, List.length_cons]; omega
  | case4 t ts v _ ih => simp only [Reading.map, List.length_cons]; omega
  | case5 t ts s _ ih => simp only [Reading.map, List.length_cons]; omega
  | case6 => simp [Reading.fail]
  | case7 => simp [Reading.fail]

theorem voicePairs_rest_length_le
    (pos : Position)
    (name : String)
    (settings : VoiceSettings)
    (ts : List Token) :
    (voicePairs pos name settings ts).rest.length ≤ ts.length := by
  fun_induction voicePairs pos name settings ts <;>
    simp only [Reading.fail, Reading.ok, List.length_cons, List.length_nil] at * <;> omega

theorem voice_rest_length_le (pos : Position) (ts : List Token) :
    (voice pos ts).rest.length ≤ ts.length := by
  unfold voice
  split
  · rename_i name p ts
    split
    · simp [Reading.fail]
    · rename_i ts' hbracket
      have hlt := accept_length_lt hbracket
      simp only [List.length_cons]
      split
      · simp only [Reading.ok]; omega
      · rename_i ts'' hbrace
        have hlt' := accept_length_lt hbrace
        split
        · simp only [Reading.fail]; omega
        · have hpairs := voicePairs_rest_length_le pos name .empty ts''
          simp only [Reading.map]; omega
  · simp [Reading.fail]

theorem length_snd_length_le (ts : List Token) :
    (length ts).2.length ≤ ts.length := by
  unfold length
  split <;> simp

theorem pitch_snd_length_le (ts : List Token) :
    (pitch ts).2.length ≤ ts.length := by
  unfold pitch
  split <;> simp only [List.length_cons] <;> omega

theorem phoneme_rest_length_le
    (pos : Position)
    (symbol : String)
    (ts : List Token) :
    (phoneme pos symbol ts).rest.length ≤ ts.length := by
  unfold phoneme
  split
  · simp [Reading.ok]
  · rename_i ts' hchevron
    have hlt := accept_length_lt hchevron
    have hlength := length_snd_length_le ts'
    have hpitch := pitch_snd_length_le (length ts').2
    dsimp only
    split
    · rename_i ts'' hclose
      have hlt' := accept_length_lt hclose
      simp only [Reading.ok]; omega
    · simp only [Reading.fail]; omega

theorem bracket_rest_length_le (pos : Position) (ts : List Token) :
    (bracket pos ts).rest.length ≤ ts.length := by
  unfold bracket
  split
  · rename_i text p rest
    split
    · simp [Reading.fail]
    · rename_i name _
      split
      · have hvoice := voice_rest_length_le pos rest
        simp only [Reading.map, List.length_cons]; omega
      · have hparams := params_rest_length_le pos name rest
        simp only [Reading.bind, List.length_cons]
        split
        · split
          · rename_i ts' hbrace
            have hlt := accept_length_lt hbrace
            simp only [Reading.ok]; omega
          · simp only [Reading.ok]; omega
        · simp only; omega
  · simp [Reading.fail]

end Progress

/--
Reads items up to the end of the program.  `stack` holds the commands whose
blocks are open, the innermost first, and `done` the nodes read so far in the
innermost block, last first.
-/
def items (stack : List Frame) (done : List Node) (ts : List Token) :
    Reading (List Node) :=
  match ts with
  | [] =>
    match stack with
    | [] => .ok (done.reverse ++ [.stop {}]) []
    | frame :: _ => .fail frame.pos .unclosedContext []
  | t :: ts =>
    match t.kind with
    | .eof =>
      match stack with
      | [] => .ok (done.reverse ++ [.stop t.pos]) (t :: ts)
      | frame :: _ => .fail frame.pos .unclosedContext (t :: ts)
    | .leftBracket =>
      match _h : bracket t.pos ts with
      | ⟨.error e, rest⟩ => ⟨.error e, rest⟩
      | ⟨.ok (.whole node), rest⟩ => items stack (node :: done) rest
      | ⟨.ok (.block name ps), rest⟩ => items (⟨t.pos, name, ps, done⟩ :: stack) [] rest
    | .str symbol =>
      match _h : phoneme t.pos symbol ts with
      | ⟨.error e, rest⟩ => ⟨.error e, rest⟩
      | ⟨.ok p, rest⟩ => items stack (.phoneme p :: done) rest
    | .comma =>
      match _h : phoneme t.pos "," ts with
      | ⟨.error e, rest⟩ => ⟨.error e, rest⟩
      | ⟨.ok p, rest⟩ => items stack (.phoneme p :: done) rest
    | .rightBrace =>
      match stack with
      | [] => .fail t.pos (.unexpected .rightBrace) (t :: ts)
      | frame :: stack =>
          items stack
            (.command frame.pos frame.name frame.params done.reverse :: frame.before) ts
    | got =>
      match stack with
      | [] => .fail t.pos (.unexpected got) (t :: ts)
      | frame :: _ => .fail frame.pos (.contextItem got) (t :: ts)
termination_by ts.length
decreasing_by
  · have hle := bracket_rest_length_le t.pos ts
    rw [_h] at hle
    simp only [List.length_cons] at hle ⊢
    omega
  · have hle := bracket_rest_length_le t.pos ts
    rw [_h] at hle
    simp only [List.length_cons] at hle ⊢
    omega
  · have hle := phoneme_rest_length_le t.pos symbol ts
    rw [_h] at hle
    simp only [List.length_cons] at hle ⊢
    omega
  · have hle := phoneme_rest_length_le t.pos "," ts
    rw [_h] at hle
    simp only [List.length_cons] at hle ⊢
    omega
  · simp

/-- The place of the last token. -/
def lastPos (ts : List Token) : Position :=
  match ts.getLast? with
  | some t => t.pos
  | none => {}

/-- The tokens with an `eof` at the end; one that is missing stands where the
last token does. -/
def closed (ts : List Token) : List Token :=
  match ts.getLast? with
  | some ⟨.eof, _⟩ => ts
  | _ => ts ++ [⟨.eof, lastPos ts⟩]

/-- Reads a program from tokens that `closed` has prepared. -/
def program (ts : List Token) : Reading (List Node) :=
  items [] [] ts

end Parse

/-- The nodes of a sequence of tokens. -/
def Node.ofTokens (ts : List Token) : Except (Located SyntaxFault) (List Node) :=
  (Parse.program (Parse.closed ts)).result

end SpeechMarkup
