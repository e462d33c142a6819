import ImportAtlas.Screen.Grid

/-!
# Drawing on a terminal

A grid is drawn row by row. The colours of the terminal are set only where they differ from those of
the cell that was drawn last, be it in the row above, and are reset at the end.

* `Colour.shade`: what a terminal shows for a colour.
* `TerminalCommand`: what can be sent to a terminal, with its `text`.
* `Grid.flush`: the commands that draw a grid.
-/

namespace ImportAtlas

/-- What a terminal can show: the colour of its own, one of its palette, or a mixture. -/
inductive Shade where
  | own
  | palette (n : Nat)
  | mixture (red green blue : Nat)
deriving DecidableEq, Repr

/-- Colours with a name are in the palette too. -/
def Colour.shade : Colour → Shade
  | reset => .own
  | black => .palette 0
  | darkRed => .palette 1
  | darkGreen => .palette 2
  | darkYellow => .palette 3
  | darkBlue => .palette 4
  | darkMagenta => .palette 5
  | darkCyan => .palette 6
  | grey => .palette 7
  | darkGrey => .palette 8
  | red => .palette 9
  | green => .palette 10
  | yellow => .palette 11
  | blue => .palette 12
  | magenta => .palette 13
  | cyan => .palette 14
  | white => .palette 15
  | rgb r g b => .mixture r.toNat g.toNat b.toNat
  | numbered n => .palette n.toNat

/-- What is sent to a terminal. -/
inductive TerminalCommand where
  /-- Moves the cursor to the first column of a row, counted from zero. -/
  | moveToRow (row : Nat)
  | setForeground (c : Colour)
  | setBackground (c : Colour)
  | print (c : Char)
  | resetColours
deriving DecidableEq, Repr

namespace TerminalCommand

def sequence (parameters : String) (last : Char) : List Char :=
  '\x1b' :: '[' :: parameters.toList ++ [last]

/-- The sequence that sets a colour, `own` being the parameter for that of the terminal and `other`
the one for all others. -/
def colourText (own other : String) : Shade → List Char
  | .own => sequence own 'm'
  | .palette n => sequence (other ++ ";5;" ++ n.repr) 'm'
  | .mixture red green blue =>
    sequence (other ++ ";2;" ++ red.repr ++ ";" ++ green.repr ++ ";" ++ blue.repr) 'm'

def text : TerminalCommand → List Char
  | moveToRow row => sequence ((row + 1).repr ++ ";1") 'H'
  | setForeground c => colourText "39" "38" c.shade
  | setBackground c => colourText "49" "48" c.shade
  | print c => [c]
  | resetColours => sequence "0" 'm'

end TerminalCommand

namespace Grid

/-- The commands that draw cells, `style` being that of the cell drawn before them, and the style
that is in force after them. -/
def drawCells (style : Option Style) : List Cell → List TerminalCommand × Option Style
  | [] => ([], style)
  | c :: cs =>
    let (commands, last) := drawCells (some c.style) cs
    let colours :=
      if style = some c.style then []
      else [.setForeground c.style.foreground, .setBackground c.style.background]
    (colours ++ .print c.char :: commands, last)

def drawRows (style : Option Style) (y : Nat) : List (List Cell) → List TerminalCommand
  | [] => [.resetColours]
  | r :: rs =>
    let (commands, last) := drawCells style r
    .moveToRow y :: commands ++ drawRows last (y + 1) rs

def flush (g : Grid) : List TerminalCommand :=
  drawRows none 0 g.rows

end Grid

end ImportAtlas
