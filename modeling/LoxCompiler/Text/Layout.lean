/-! # Terminal text

Colours and fixed-width columns of the listings and messages.
-/

namespace LoxCompiler.Text

/-- The colours in use, from the terminal's palette. -/
inductive Colour where
  | red
  | green
  | yellow
  | blue

/-- The number of a colour in the terminal's palette. -/
def Colour.code : Colour → String
  | .red => "1"
  | .green => "2"
  | .yellow => "3"
  | .blue => "4"

/-- Write some text in a colour and switch back to the default colour after it. -/
def Colour.paint (colour : Colour) (text : String) : String :=
  "\x1b[38;5;" ++ colour.code ++ "m" ++ text ++ "\x1b[39m"

/-- Fill up to the given width on the left. Longer text is kept whole. -/
def fillLeft (fill : Char) (width : Nat) (text : String) : String :=
  "".pushn fill (width - text.length) ++ text

/-- Fill up to the given width with spaces on the right. Longer text is kept whole. -/
def fillRight (width : Nat) (text : String) : String :=
  text.pushn ' ' (width - text.length)

/-- A number in a column of four, aligned to the right. -/
def column (n : Nat) : String := fillLeft ' ' 4 (toString n)

/-- A code offset: four digits or more. -/
def offset (n : Nat) : String := fillLeft '0' 4 (toString n)

end LoxCompiler.Text
