/-!
# Commands

The commands a program can use, what becomes of each, and which of them may have
a block of nodes behind them.
-/

namespace SpeechMarkup

/-- The commands known to the compiler. -/
inductive Command
  | comma
  | cp
  | dv
  | error
  | mode
  | name
  /-- One of the short commands `nb`, `nd`, … that select a built-in voice. -/
  | nameAlias
  | period
  | pp
  | phoneme
  | pitch
  | play
  | pronounce
  | punct
  | rate
  | say
  | skip
  | tone
  | volume
  | bpm
  | importFile
  | loop
  | phrase
  | sound
  | voice
deriving Repr, DecidableEq

/-- What becomes of a command. -/
inductive Behavior
  /-- It is passed to the engine as written. -/
  | bypass
  /-- It is dropped: it would change engine state that compiled text relies on. -/
  | ignore
  /-- It defines something. -/
  | register
  /-- The compiler carries it out itself. -/
  | specialized
deriving Repr, DecidableEq

namespace Command

/-- All commands. -/
def all : List Command :=
  [comma, cp, dv, error, mode, name, nameAlias, period, pp, phoneme, pitch, play, pronounce,
    punct, rate, say, skip, tone, volume, bpm, importFile, loop, phrase, sound, voice]

/-- The names of the short commands that select a built-in voice. -/
def aliases : List String :=
  ["nb", "nd", "nf", "nh", "nk", "np", "nr", "nu", "nw"]

/-- The names that stand for a command. -/
def names : Command → List String
  | comma => ["comma"]
  | cp => ["cp"]
  | dv => ["dv"]
  | error => ["error"]
  | mode => ["mode"]
  | name => ["name"]
  | nameAlias => aliases
  | period => ["period"]
  | pp => ["pp"]
  | phoneme => ["phoneme"]
  | pitch => ["pitch"]
  | play => ["play"]
  | pronounce => ["pronounce"]
  | punct => ["punct"]
  | rate => ["rate"]
  | say => ["say"]
  | skip => ["skip"]
  | tone => ["tone"]
  | volume => ["volume"]
  | bpm => ["bpm"]
  | importFile => ["import"]
  | loop => ["loop"]
  | phrase => ["phrase"]
  | sound => ["sound"]
  | voice => ["voice"]

/-- How a diagnostic calls the command, by whichever name it was written. -/
def title : Command → String
  | nameAlias => "NameAlias"
  | c => (c.names.headD "").capitalize

/-- The command that a name stands for. -/
def ofName? (s : String) : Option Command :=
  all.find? fun c => c.names.contains s

def behavior : Command → Behavior
  | comma | cp | dv | error | nameAlias | period | pp | punct | rate | say | skip | tone
  | volume => .bypass
  | mode | phoneme | pitch | pronounce => .ignore
  | phrase | sound | voice => .register
  | bpm | importFile | loop | name | play => .specialized

/-- Whether a block of nodes may follow. -/
def takesContext : Command → Bool
  | loop | phrase | sound | voice => true
  | _ => false

end Command

end SpeechMarkup
