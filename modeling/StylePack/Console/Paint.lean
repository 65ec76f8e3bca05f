/-! Coloured text for terminals: a text between the sequence that switches a colour on and the one
that switches it off again. -/
namespace StylePack.Console

inductive Color
  | white
  | magenta
  | brightBlack
  | brightRed
  | brightGreen
  | brightYellow
  | brightMagenta
  | brightCyan
  | brightWhite
  deriving DecidableEq, Repr

/-- The number that a terminal knows a colour by. -/
def Color.code : Color → String
  | white => "37"
  | magenta => "35"
  | brightBlack => "90"
  | brightRed => "91"
  | brightGreen => "92"
  | brightYellow => "93"
  | brightMagenta => "95"
  | brightCyan => "96"
  | brightWhite => "97"

/-- A terminal's control sequence with a parameter. -/
def sequence (parameter : String) : String := "\x1b[" ++ parameter

def paint (color : Color) (text : String) : String :=
  sequence (color.code ++ "m") ++ text ++ sequence "39m"

def bold (text : String) : String := sequence "1m" ++ text ++ sequence "0m"

def underline (text : String) : String := sequence "4m" ++ text ++ sequence "0m"

/-- Puts the cursor to the first column and clears its line. -/
def clearLine : String := sequence "1G" ++ sequence "2K"

example : bold (paint .brightCyan "x") = "\x1b[1m\x1b[96mx\x1b[39m\x1b[0m" := by decide

end StylePack.Console
