import ImportAtlas.Screen.Terminal

/-!
# A terminal

What a program writes to a terminal is one character after the other. Most of them are shown, each
in one cell; those of an escape sequence are collected until it is complete, and then have an effect
on the cursor or on the colours.

* `Terminal.read`, `Terminal.receive` — what a character, and a text, does to a terminal;
* `Terminal.perform`, `Terminal.run` — the same for commands, without their texts;
* `Terminal.receive_flatMap_text` — the texts of commands have the effects of the commands.

The cursor may stand behind the last column: the line is continued below only when another
character comes. So the last cell of the screen can be filled without scrolling it.
-/

namespace ImportAtlas

/-- What a cell of a terminal shows: a character in two colours. -/
structure Glyph where
  char : Char
  foreground : Shade
  background : Shade
deriving DecidableEq, Repr

/-- What a terminal has read of an escape sequence. -/
inductive Reading where
  /-- Nothing; characters are shown. -/
  | text
  /-- The escape character. -/
  | escape
  /-- The beginning of a control sequence, with its parameters up to the last semicolon and the one
  after it. -/
  | sequence (parameters : List Nat) (last : Nat)
deriving DecidableEq, Repr

/-- A terminal: what it shows at each place, where the next character goes, and in which colours. -/
structure Terminal where
  size : ScreenSize
  cells : Nat → Nat → Glyph
  cursor : Point
  foreground : Shade
  background : Shade
  reading : Reading

/-- The characters that have an effect of their own instead of being shown. -/
def IsControl (c : Char) : Prop :=
  c.toNat < 32 ∨ 127 ≤ c.toNat ∧ c.toNat < 160

instance (c : Char) : Decidable (IsControl c) :=
  inferInstanceAs (Decidable (_ ∨ _))

namespace Terminal

variable {t : Terminal} {c : Char}

/-- What is shown at a place, if the terminal has it. -/
def glyph? (t : Terminal) (x y : Nat) : Option Glyph :=
  if x < t.size.columns ∧ y < t.size.rows then some (t.cells x y) else none

/-! ### The effects of characters -/

/-- Moves the cursor to a place, or as near to it as there is one. -/
def moveTo (t : Terminal) (x y : Nat) : Terminal :=
  { t with cursor := ⟨min x (t.size.columns - 1), min y (t.size.rows - 1)⟩ }

/-- Moves the cursor to the row below. Below the last row, all rows move up instead. -/
def lineFeed (t : Terminal) : Terminal :=
  if t.cursor.y + 1 < t.size.rows then { t with cursor := ⟨t.cursor.x, t.cursor.y + 1⟩ }
  else
    { t with
      cells := fun x y =>
        if y + 1 < t.size.rows then t.cells x (y + 1) else ⟨' ', .own, t.background⟩ }

/-- Back to the first column. -/
def carriageReturn (t : Terminal) : Terminal :=
  { t with cursor := ⟨0, t.cursor.y⟩ }

/-- Shows a character at the cursor, and moves the cursor on. -/
def write (t : Terminal) (c : Char) : Terminal :=
  { t with
    cells := fun x y =>
      if x = t.cursor.x ∧ y = t.cursor.y then ⟨c, t.foreground, t.background⟩ else t.cells x y
    cursor := ⟨t.cursor.x + 1, t.cursor.y⟩ }

/-- Shows a character, in the next line if this one is full. -/
def print (t : Terminal) (c : Char) : Terminal :=
  if t.cursor.x < t.size.columns then t.write c else t.lineFeed.carriageReturn.write c

/-- Sets colours. -/
def select (t : Terminal) : List Nat → Terminal
  | 38 :: 5 :: n :: parameters => select { t with foreground := .palette n } parameters
  | 48 :: 5 :: n :: parameters => select { t with background := .palette n } parameters
  | 38 :: 2 :: r :: g :: b :: parameters =>
    select { t with foreground := .mixture r g b } parameters
  | 48 :: 2 :: r :: g :: b :: parameters =>
    select { t with background := .mixture r g b } parameters
  | 0 :: parameters => select { t with foreground := .own, background := .own } parameters
  | 39 :: parameters => select { t with foreground := .own } parameters
  | 49 :: parameters => select { t with background := .own } parameters
  | _ :: parameters => select t parameters
  | [] => t

/-- Carries out a control sequence, which its last character names. Places are counted from one. -/
def control (t : Terminal) (parameters : List Nat) : Char → Terminal
  | 'H' => t.moveTo (parameters.getD 1 1 - 1) (parameters.getD 0 1 - 1)
  | 'm' => t.select parameters
  | _ => t

/-- One character of the text: part of an escape sequence, a control character, or one to be
shown. -/
def read (t : Terminal) (c : Char) : Terminal :=
  if c = '\x1b' then { t with reading := .escape }
  else
    match t.reading with
    | .text =>
      if c = '\n' then t.lineFeed
      else if c = '\r' then t.carriageReturn
      else if IsControl c then t
      else t.print c
    | .escape => { t with reading := if c = '[' then .sequence [] 0 else .text }
    | .sequence parameters last =>
      if c.isDigit then
        { t with reading := .sequence parameters (10 * last + (c.toNat - '0'.toNat)) }
      else if c = ';' then { t with reading := .sequence (parameters ++ [last]) 0 }
      else control { t with reading := .text } (parameters ++ [last]) c

/-- Reads a text. -/
def receive (t : Terminal) (text : List Char) : Terminal :=
  text.foldl read t

/-! ### The effects of commands -/

/-- What a terminal does at a command. -/
def perform (t : Terminal) : TerminalCommand → Terminal
  | .moveToRow row => t.moveTo 0 row
  | .setForeground c => { t with foreground := c.shade }
  | .setBackground c => { t with background := c.shade }
  | .print c => t.print c
  | .resetColours => { t with foreground := .own, background := .own }

/-- Some commands, one after the other. -/
def run (t : Terminal) (commands : List TerminalCommand) : Terminal :=
  commands.foldl perform t

@[simp] theorem receive_nil (t : Terminal) : t.receive [] = t := rfl

@[simp] theorem receive_cons (t : Terminal) (c : Char) (text : List Char) :
    t.receive (c :: text) = (t.read c).receive text := rfl

/-- Texts are received one after the other. -/
theorem receive_append (t : Terminal) (text text' : List Char) :
    t.receive (text ++ text') = (t.receive text).receive text' :=
  List.foldl_append

/-- Commands are run one after the other. -/
theorem run_append (t : Terminal) (commands commands' : List TerminalCommand) :
    t.run (commands ++ commands') = (t.run commands).run commands' :=
  List.foldl_append

/-- The terminal without what it has read of an escape sequence. -/
def ready (t : Terminal) : Terminal :=
  { t with reading := .text }

theorem ready_of_text (htext : t.reading = .text) : t.ready = t := by
  rw [ready, ← htext]

@[simp] theorem size_moveTo (t : Terminal) (x y : Nat) : (t.moveTo x y).size = t.size := rfl

/-- A character changes what is shown and moves the cursor, and nothing else. -/
theorem print_frame (t : Terminal) (c : Char) :
    ∃ cells cursor, t.print c = { t with cells := cells, cursor := cursor } := by
  unfold print
  split
  · exact ⟨_, _, rfl⟩
  · unfold lineFeed
    split
    · exact ⟨_, _, rfl⟩
    · exact ⟨_, _, rfl⟩

/-- A command does not leave the terminal in the midst of a sequence. -/
theorem reading_perform (t : Terminal) (command : TerminalCommand) :
    (t.perform command).reading = t.reading := by
  cases command with
  | print c =>
    obtain ⟨cells, cursor, hprint⟩ := print_frame t c
    rw [perform, hprint]
  | _ => rfl

/-! ### Reading the texts of commands -/

/-- A character that is no control character is shown. -/
theorem read_of_not_isControl (htext : t.reading = .text) (hc : ¬ IsControl c) :
    t.read c = t.print c := by
  -- the characters with an effect are control characters
  have hescape : c ≠ '\x1b' := fun h => hc (h ▸ by decide)
  have hfeed : c ≠ '\n' := fun h => hc (h ▸ by decide)
  have hreturn : c ≠ '\r' := fun h => hc (h ▸ by decide)
  rw [read, if_neg hescape, htext]
  dsimp only
  rw [if_neg hfeed, if_neg hreturn, if_neg hc]

/-- The digits of a parameter add up. -/
theorem receive_digits (parameters : List Nat) (last : Nat) {ds : List Char}
    (hds : ∀ d ∈ ds, d.isDigit) :
    ({ t with reading := .sequence parameters last }).receive ds =
      { t with reading := .sequence parameters (Nat.ofDigitChars 10 ds last) } := by
  induction ds generalizing last with
  | nil => rfl
  | cons d ds ih =>
    obtain ⟨hd, hds⟩ := List.forall_mem_cons.mp hds
    -- a digit does not begin another sequence
    have hescape : d ≠ '\x1b' := by
      rintro rfl
      exact absurd hd (by decide)
    rw [receive_cons, read, if_neg hescape]
    dsimp only
    rw [if_pos hd, ih _ hds, Nat.ofDigitChars_cons]

/-- A number in decimal notation is read as a parameter. -/
theorem receive_repr (parameters : List Nat) (n : Nat) :
    ({ t with reading := .sequence parameters 0 }).receive n.repr.toList =
      { t with reading := .sequence parameters n } := by
  have hdigits : ∀ d ∈ Nat.toDigits 10 n, d.isDigit := fun d hd =>
    Nat.isDigit_of_mem_toDigits (by decide) (by decide) hd
  rw [Nat.toList_repr, receive_digits _ _ hdigits, Nat.ofDigitChars_ten_toDigits]

/-- The text of parameters: numbers with semicolons between them. -/
def parameterText : Nat → List Nat → List Char
  | p, [] => p.repr.toList
  | p, q :: ps => p.repr.toList ++ ';' :: parameterText q ps

/-- The parameters of a sequence, and the character that ends it. -/
theorem receive_parameterText (parameters : List Nat) (p : Nat) (ps : List Nat) {last : Char}
    (hlast : last ≠ '\x1b' ∧ ¬ last.isDigit ∧ last ≠ ';') :
    ({ t with reading := .sequence parameters 0 }).receive (parameterText p ps ++ [last]) =
      t.ready.control (parameters ++ p :: ps) last := by
  obtain ⟨hescape, hdigit, hsemicolon⟩ := hlast
  induction ps generalizing parameters p with
  | nil =>
    rw [parameterText, receive_append, receive_repr, receive_cons, receive_nil, read,
      if_neg hescape]
    dsimp only
    rw [if_neg hdigit, if_neg hsemicolon]
    rfl
  | cons q ps ih =>
    -- the semicolon closes the first parameter
    have hclose : ({ t with reading := .sequence parameters p }).read ';' =
        { t with reading := .sequence (parameters ++ [p]) 0 } := rfl
    rw [parameterText, List.append_assoc, receive_append, receive_repr, List.cons_append,
      receive_cons, hclose, ih, List.append_assoc, List.singleton_append]

/-- A control sequence is carried out, and ends whatever was begun before it. -/
theorem receive_sequence (t : Terminal) (p : Nat) (ps : List Nat) {parameters : String}
    (hparameters : parameters.toList = parameterText p ps) {last : Char}
    (hlast : last ≠ '\x1b' ∧ ¬ last.isDigit ∧ last ≠ ';') :
    t.receive (TerminalCommand.sequence parameters last) = t.ready.control (p :: ps) last := by
  have hbegin : (t.read '\x1b').read '[' = { t with reading := .sequence [] 0 } := rfl
  calc t.receive (TerminalCommand.sequence parameters last)
    _ = ((t.read '\x1b').read '[').receive (parameterText p ps ++ [last]) := by
        rw [TerminalCommand.sequence, List.cons_append, List.cons_append, hparameters,
          receive_cons, receive_cons]
    _ = t.ready.control ([] ++ p :: ps) last := by
        rw [hbegin, receive_parameterText [] p ps hlast]

/-- The sequence for a colour is one that sets it, with the parameters that name it. -/
theorem receive_colourText (t : Terminal) {own other : String} {p q : Nat}
    (hown : own.toList = p.repr.toList) (hother : other.toList = q.repr.toList) (shade : Shade) :
    t.receive (TerminalCommand.colourText own other shade) = t.ready.select
      (match shade with
      | .own => [p]
      | .palette n => [q, 5, n]
      | .mixture red green blue => [q, 2, red, green, blue]) := by
  have hlast : 'm' ≠ '\x1b' ∧ ¬ 'm'.isDigit ∧ 'm' ≠ ';' := by decide
  cases shade with
  | own => exact receive_sequence t p [] hown hlast
  | palette n =>
    -- a number of the palette, or a mixture of three
    refine receive_sequence t q [5, n] ?_ hlast
    simp only [String.toList_append, hother, List.append_assoc]
    rfl
  | mixture red green blue =>
    refine receive_sequence t q [2, red, green, blue] ?_ hlast
    simp only [String.toList_append, hother, List.append_assoc]
    rfl

/-- **The text of a command** has the effect of the command. -/
theorem receive_text (t : Terminal) (command : TerminalCommand)
    (hprint : ∀ c, command = .print c → t.reading = .text ∧ ¬ IsControl c) :
    t.receive command.text = t.ready.perform command := by
  have hmove : 'H' ≠ '\x1b' ∧ ¬ 'H'.isDigit ∧ 'H' ≠ ';' := by decide
  cases command with
  | print c =>
    obtain ⟨htext, hc⟩ := hprint c rfl
    rw [ready_of_text htext]
    exact read_of_not_isControl htext hc
  | moveToRow row =>
    -- terminals count rows and columns from one
    have hplace : ((row + 1).repr ++ ";1").toList = parameterText (row + 1) [1] := by
      rw [String.toList_append]
      rfl
    exact receive_sequence t (row + 1) [1] hplace hmove
  | setForeground c =>
    rw [TerminalCommand.text, receive_colourText t (p := 39) (q := 38) (by decide) (by decide)]
    cases hshade : c.shade <;> simp only [perform, select, hshade]
  | setBackground c =>
    rw [TerminalCommand.text, receive_colourText t (p := 49) (q := 48) (by decide) (by decide)]
    cases hshade : c.shade <;> simp only [perform, select, hshade]
  | resetColours => exact receive_sequence t 0 [] (by decide) (by decide)

/-- The texts of commands, one after the other, have the effects of the commands. -/
theorem receive_flatMap_text (htext : t.reading = .text) (commands : List TerminalCommand)
    (hprint : ∀ c, .print c ∈ commands → ¬ IsControl c) :
    t.receive (commands.flatMap TerminalCommand.text) = t.run commands := by
  induction commands generalizing t with
  | nil => rfl
  | cons command commands ih =>
    have hhead : ∀ c, command = .print c → t.reading = .text ∧ ¬ IsControl c := by
      rintro c rfl
      exact ⟨htext, hprint c List.mem_cons_self⟩
    -- behind a command the terminal reads text again
    have hreading : (t.perform command).reading = .text := by
      rw [reading_perform, htext]
    rw [List.flatMap_cons, receive_append, receive_text t command hhead, ready_of_text htext]
    exact ih hreading fun c hc => hprint c (List.mem_cons_of_mem _ hc)

end Terminal

end ImportAtlas
