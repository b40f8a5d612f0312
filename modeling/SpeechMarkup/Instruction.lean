import SpeechMarkup.Node

/-!
# Engine instructions

The engine reads a phoneme in brackets, with its length in milliseconds and its
pitch behind it in chevrons.  A zero is left out, and so are the chevrons if both
are zero.
-/

namespace SpeechMarkup

/-- The instruction that speaks one built-in phoneme. -/
def speak (symbol : String) (millis pitch : Int) : String :=
  let length := if millis ≠ 0 then toString millis else ""
  let height := if pitch ≠ 0 then "," ++ toString pitch else ""
  if millis ≠ 0 ∨ pitch ≠ 0 then "[" ++ symbol ++ "<" ++ length ++ height ++ ">]"
  else "[" ++ symbol ++ "]"

/-- The instruction that sets one parameter of the voice. -/
def setVoiceParam (name : String) (value : Int) : String :=
  "[:dv " ++ name ++ " " ++ toString value ++ "]"

end SpeechMarkup
