/-!
Text in colour. A style begins and ends with an escape sequence; where the text itself ends all styles,
the style begins again.
-/

namespace ConfigChain.Command

/-- How a text stands out. -/
inductive Style where
  | brightBlue
  | cyan
  | yellow
  | green
  | dimmed
  | bold
  | boldGreen
  | boldRed
deriving DecidableEq, Repr

namespace Style

/-- The parameters of the escape sequence. -/
def parameters : Style → String
  | .brightBlue => "94"
  | .cyan => "36"
  | .yellow => "33"
  | .green => "32"
  | .dimmed => "2"
  | .bold => "1"
  | .boldGreen => "1;32"
  | .boldRed => "1;31"

/-- The sequence that begins a style. -/
def start (s : Style) : List Char := ['\x1b', '['] ++ s.parameters.toList ++ ['m']

/-- The sequence that ends all styles. -/
def reset : List Char := ['\x1b', '[', '0', 'm']

/-- A text in which a style begins again wherever all styles end. -/
def resumed (start : List Char) : List Char → List Char
  | '\x1b' :: '[' :: '0' :: 'm' :: rest => reset ++ start ++ resumed start rest
  | c :: rest => c :: resumed start rest
  | [] => []

/-- A text in a style, if there is colour at all. -/
def paint (s : Style) (colored : Bool) (text : String) : String :=
  if colored then String.ofList (s.start ++ resumed s.start text.toList ++ reset) else text

end Style

end ConfigChain.Command
