import SpeechMarkup.Position
import SpeechMarkup.Binary64.Decimal
import SpeechMarkup.VoiceSettings

/-!
# Nodes of a program

A program is a list of commands, phonemes and voice declarations, closed by an
end marker.  A command may hold a block of nodes of its own, its context.

* `Node.same` compares nodes without regard to places; numbers are compared by
  value, so that a number which is not one differs from itself.
* `Node.render` writes a node as source text.
* `Duration.toMillis` turns a length into milliseconds under a tempo.
-/

namespace SpeechMarkup

/-- A parameter of a command. -/
inductive Param
  | int (value : Int)
  | float (value : Binary64)
  | str (text : String)
deriving Repr, DecidableEq

namespace Param

/-- The type of a parameter as diagnostics name it. -/
def typeName : Param → String
  | int _ => "INT"
  | float _ => "FLOAT"
  | str _ => "STRING"

def int? : Param → Option Int
  | int v => some v
  | _ => none

def str? : Param → Option String
  | str s => some s
  | _ => none

def render : Param → String
  | int v => toString v
  | float v => v.render
  | str s => s

def same : Param → Param → Bool
  | int v, int w => v = w
  | float v, float w => v.equal w
  | str s, str t => s = t
  | _, _ => false

def sameAll : List Param → List Param → Bool
  | [], [] => true
  | p :: ps, q :: qs => p.same q && sameAll ps qs
  | _, _ => false

end Param

/-- A length: milliseconds, or beats once a tempo is set. -/
inductive Duration
  | int (value : Int)
  | float (value : Binary64)
deriving Repr, DecidableEq

namespace Duration

/-- The length as a number. -/
def beats : Duration → Binary64
  | int v => Binary64.ofInt v
  | float v => v

/-- Whole milliseconds when one unit lasts `unit` milliseconds. -/
def toMillis (d : Duration) (unit : Binary64) : Int :=
  (d.beats * unit).toWord

/-- Whether source text has to show the length; a whole zero is left out. -/
def isShown : Duration → Bool
  | int v => v ≠ 0
  | float _ => true

def render : Duration → String
  | int v => toString v
  | float v => v.render

def same : Duration → Duration → Bool
  | int v, int w => v = w
  | float v, float w => v.equal w
  | _, _ => false

end Duration

/-- A phoneme, or a call of a phrase or sound by its name. -/
structure Phoneme where
  pos : Position
  symbol : String
  duration : Duration := .int 0
  pitch : Int := 0
deriving Repr, DecidableEq

namespace Phoneme

def same (p q : Phoneme) : Bool :=
  p.symbol = q.symbol && p.duration.same q.duration && p.pitch = q.pitch

def render (p : Phoneme) : String :=
  let length := if p.duration.isShown then p.duration.render else ""
  let pitch := if p.pitch ≠ 0 then "," ++ toString p.pitch else ""
  if p.duration.isShown || p.pitch ≠ 0 then p.symbol ++ "<" ++ length ++ pitch ++ ">"
  else p.symbol

end Phoneme

/-- A voice declaration. -/
structure Voice where
  pos : Position
  name : String
  settings : VoiceSettings
deriving Repr, DecidableEq

namespace Voice

def same (v w : Voice) : Bool :=
  v.name = w.name && v.settings.entries = w.settings.entries

def render (v : Voice) : String :=
  let pairs := v.settings.entries.map fun (k, x) => k ++ " " ++ toString x
  let block := if pairs.isEmpty then "" else " \x7b " ++ ", ".intercalate pairs ++ " \x7d"
  "[:voice " ++ v.name ++ "]" ++ block

end Voice

/-- A node of a program. -/
inductive Node
  | command (pos : Position) (name : String) (params : List Param) (context : List Node)
  | phoneme (p : Phoneme)
  | voice (v : Voice)
  /-- The end of the program. -/
  | stop (pos : Position)
deriving Repr

namespace Node

/-- The place of a node. -/
def pos : Node → Position
  | command pos _ _ _ => pos
  | phoneme p => p.pos
  | voice v => v.pos
  | stop pos => pos

/-- The name of the command that a node invokes. -/
def commandName? : Node → Option String
  | command _ name _ _ => some name
  | voice _ => some "voice"
  | phoneme _ => none
  | stop _ => none

mutual

/-- Equality without regard to places. -/
def same : Node → Node → Bool
  | command _ name params context, command _ name' params' context' =>
      name = name' && Param.sameAll params params' && sameAll context context'
  | phoneme p, phoneme q => p.same q
  | voice v, voice w => v.same w
  | stop _, stop _ => true
  | _, _ => false

/-- Equality of lists of nodes without regard to places. -/
def sameAll : List Node → List Node → Bool
  | [], [] => true
  | n :: ns, m :: ms => same n m && sameAll ns ms
  | _, _ => false

end

mutual

/-- A node as source text; the end marker has none. -/
def render : Node → String
  | command _ name params context =>
      let head := "[:" ++ name ++ String.join (params.map fun p => " " ++ p.render) ++ "]"
      if context.isEmpty then head else head ++ " \x7b" ++ renderAll context ++ " \x7d"
  | phoneme p => p.render
  | voice v => v.render
  | stop _ => ""

/-- Nodes as source text, each with a blank in front. -/
def renderAll : List Node → String
  | [] => ""
  | n :: ns => " " ++ render n ++ renderAll ns

end

end Node

end SpeechMarkup
