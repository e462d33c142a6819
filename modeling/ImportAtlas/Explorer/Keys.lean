import ImportAtlas.Explorer.Basic

/-!
# Keys

What the events of a terminal mean to the explorer. Only the pressing of a key counts, and pasted
text, focus and the mouse mean nothing.
-/

namespace ImportAtlas

inductive Key where
  | up
  | down
  | left
  | right
  | enter
  | escape
  | backspace
  | pageUp
  | pageDown
  | char (c : Char)
  | other
deriving DecidableEq, Repr, Inhabited

/-- An event of a terminal. -/
inductive TerminalEvent where
  | key (key : Key) (control : Bool) (pressed : Bool)
  | resize (size : ScreenSize)
  | other
deriving DecidableEq, Repr, Inhabited

def Key.event? : Key → Option InputEvent
  | up | char 'k' => some .moveUp
  | down | char 'j' => some .moveDown
  | enter => some .select
  | escape | backspace => some .deselect
  | right | char ' ' | char 'l' => some .toggleExpand
  | char 'e' => some .toggleErrors
  | char 'o' => some .toggleOverview
  | pageUp => some .scrollUp
  | pageDown => some .scrollDown
  | char 'q' => some .quit
  | _ => none

def TerminalEvent.event? : TerminalEvent → Option InputEvent
  | key k control pressed =>
    if !pressed then none
    else if control && k == .char 'c' then some .quit
    else k.event?
  | resize size => some (.resize size)
  | other => none

end ImportAtlas
