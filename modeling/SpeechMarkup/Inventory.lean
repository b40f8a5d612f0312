/-!
# What the speech engine has built in

The tables of this file are the engine's: its phonemes with their classes, its
voices, and the parameters that make up a voice with the values each may take.
-/

namespace SpeechMarkup

/-- The consonant phonemes. -/
def consonants : List String :=
  ["b", "ch", "d", "dh", "dx", "f", "g", "hx", "jh", "k", "l", "lx", "m", "n", "nx", "p",
    "r", "rx", "s", "sh", "t", "th", "tx", "v", "w", "yx", "z", "zh"]

/-- The vowel phonemes. -/
def vowels : List String :=
  ["aa", "ae", "ah", "ao", "aw", "ax", "ay", "eh", "el", "en", "er", "ey", "ih", "ir", "iy",
    "or", "ow", "oy", "rr", "uh", "ur", "uw", "yu"]

/-- Pauses, silence and stress marks. -/
def symbols : List String :=
  [",", ".", "_", "'", "`", "\""]

/-- The symbols that have no length. -/
def lengthless : List String :=
  [",", ".", "'", "`", "\""]

/-- The voices that can be selected without being declared. -/
def builtinVoices : List String :=
  ["Betty", "Dennis", "Frank", "Harry", "Kit", "Paul", "Rita", "Ursula", "Wendy"]

inductive PhonemeClass
  | consonant
  | vowel
  | symbol
deriving Repr, DecidableEq

/-- The class of a built-in phoneme. -/
def classify (s : String) : Option PhonemeClass :=
  if consonants.contains s then some .consonant
  else if vowels.contains s then some .vowel
  else if symbols.contains s then some .symbol
  else none

def isBuiltinPhoneme (s : String) : Bool :=
  (classify s).isSome

def isConsonant (s : String) : Bool :=
  classify s = some .consonant

/-- Whether a phoneme's length is always zero. -/
def hasNoLength (s : String) : Bool :=
  lengthless.contains s

/-- Whether a phoneme's pitch is always zero: consonants and symbols have none. -/
def hasNoPitch (s : String) : Bool :=
  match classify s with
  | some .consonant => true
  | some .symbol => true
  | _ => false

def isBuiltinVoice (name : String) : Bool :=
  builtinVoices.contains name

/-- A parameter of a voice: the values it may take, and the one it has in a
declared voice that does not set it. -/
structure VoiceParam where
  name : String
  min : Int
  max : Int
  default : Int
deriving Repr, DecidableEq

/-- The parameters of a voice, in the order in which a voice is selected. -/
def voiceParams : List VoiceParam :=
  [ -- vocal tract
    ⟨"sx", 0, 1, 1⟩,
    ⟨"hs", 65, 145, 100⟩,
    ⟨"f4", 2000, 4650, 3300⟩,
    ⟨"f5", 2500, 4950, 3650⟩,
    ⟨"b4", 100, 2048, 260⟩,
    ⟨"b5", 100, 2048, 330⟩,
    -- voicing source
    ⟨"br", 0, 72, 0⟩,
    ⟨"lx", 0, 100, 0⟩,
    ⟨"sm", 0, 100, 3⟩,
    ⟨"ri", 0, 100, 100⟩,
    ⟨"nf", 0, 100, 0⟩,
    ⟨"la", 0, 100, 0⟩,
    -- intonation
    ⟨"bf", 0, 40, 18⟩,
    ⟨"hr", 2, 100, 100⟩,
    ⟨"sr", 1, 100, 32⟩,
    ⟨"as", 0, 100, 100⟩,
    ⟨"qu", 0, 100, 40⟩,
    ⟨"ap", 50, 350, 122⟩,
    ⟨"pr", 0, 250, 100⟩,
    -- gains
    ⟨"lo", 0, 86, 86⟩,
    ⟨"gv", 0, 86, 65⟩,
    ⟨"gh", 0, 86, 70⟩,
    ⟨"gf", 0, 86, 70⟩,
    ⟨"g1", 0, 86, 68⟩,
    ⟨"g2", 0, 86, 60⟩,
    ⟨"g3", 0, 86, 48⟩,
    ⟨"g4", 0, 86, 64⟩ ]

/-- The row of a voice parameter. -/
def voiceParam? (name : String) : Option VoiceParam :=
  voiceParams.find? (·.name = name)

end SpeechMarkup
