import ImportAtlas.Text.Number

/-!
# Command line grammar

The words of a command line are options, with or without a value, operands, and at the first level
the name of a command, after which the words belong to that command. An option that is missing its
value takes the next word; its value is judged when the next option or operand begins.

* `UsageFault`: why a command line is not understood, or not run.
* `Param`, `Level`: what may stand on a command line.
* `Level.scan`: reads words up to the name of a command.
-/

namespace ImportAtlas.CommandLine

/-- Why a command line is not understood, or only asks for help. -/
inductive UsageFault where
  | help
  | version
  | nothingGiven
  | missingCommand
  | unknownCommand
  | missingArgument
  | unknownArgument
  /-- A value is missing, empty, or none of those that are possible. -/
  | invalidValue
  /-- A value does not spell what it should. -/
  | malformedValue
  /-- An option without a value has one. -/
  | unneededValue
  /-- An option is given twice, or two exclude each other. -/
  | conflict
deriving DecidableEq, Repr, Inhabited

/-- The exit code of a fault; to ask for help is none. -/
def UsageFault.code : UsageFault → Nat
  | help | version => 0
  | _ => 2

/-- What a fault says, where it is no call for help. -/
def UsageFault.message : UsageFault → String
  | help | nothingGiven => "usage: dep-tree [OPTIONS] [COMMAND] [FILES]..."
  | version => "dep-tree"
  | missingCommand => "a command is missing"
  | unknownCommand => "there is no such command"
  | missingArgument => "an argument is missing"
  | unknownArgument => "there is no such argument"
  | invalidValue => "a value is none of those that are possible"
  | malformedValue => "a value cannot be read"
  | unneededValue => "an option has a value that it does not take"
  | conflict => "an option cannot be used here, or not twice"

/-- What a value must be. -/
inductive ValueKind where
  | path
  | text
  | oneOf (words : List String)
  | natural
deriving DecidableEq, Repr, Inhabited

/-- The number that a word spells: digits, perhaps after a plus sign, below `2 ^ 64`. -/
def natural? (word : String) : Option Nat :=
  let digits :=
    match word.toList with
    | '+' :: r => r
    | t => t
  if Text.isDigits digits && Text.natOfDigits 10 digits < Nat.pow 2 64 then
    some (Text.natOfDigits 10 digits)
  else none

/-- What is wrong with a value, if anything is. -/
def ValueKind.fault? (value : String) : ValueKind → Option UsageFault
  | path => if value.isEmpty then some .invalidValue else none
  | text => none
  | oneOf words => if words.contains value then none else some .invalidValue
  | natural => if (natural? value).isSome then none else some .malformedValue

/-- What an option is for. -/
inductive Role where
  | flag
  | value (kind : ValueKind)
  | help
  | version
deriving DecidableEq, Repr, Inhabited

/-- An option, or the operands of a command. -/
structure Param where
  name : String
  role : Role
  short : Option Char := none
  /-- It may be given more than once. -/
  repeats : Bool := false
deriving DecidableEq, Repr, Inhabited

/-- What may stand on one level of a command line. -/
structure Level where
  options : List Param
  operands : Option Param := none
  commands : List String := []
deriving Inhabited

/-- What has been read of a level. -/
structure Reading where
  /-- The options and operands that were given, with their values. -/
  given : List (String × List String) := []
  /-- What was begun last, with the values it has so far. -/
  current : Option (Param × List String) := none
  wantsValue : Bool := false
  onlyOperands : Bool := false
deriving Inhabited

namespace Reading

def has (s : Reading) (name : String) : Bool :=
  s.given.any (·.1 == name)

/-- The values of an option or of the operands, in the order of the words. -/
def valuesOf (s : Reading) (name : String) : List String :=
  s.given.flatMap fun (n, vs) => if n == name then vs else []

def give (s : Reading) (p : Param) (values : List String) : Except UsageFault Reading :=
  let add : Reading := { s with given := s.given ++ [(p.name, values)], wantsValue := false }
  let repeated := !p.repeats && s.has p.name
  match p.role with
  | .help => .error .help
  | .version => .error .version
  | .flag => if repeated then .error .conflict else .ok add
  | .value kind =>
    if values.isEmpty then .error .invalidValue
    else if repeated then .error .conflict
    else
      match values.findSome? fun v => kind.fault? v with
      | some f => .error f
      | none => .ok add

def settle (s : Reading) : Except UsageFault Reading :=
  match s.current with
  | none => .ok s
  | some (p, values) => { s with current := none }.give p values

/-- Begins an option, with the value that stands in the same word if one does. -/
def option (s : Reading) (p : Param) (value : Option String) : Except UsageFault Reading :=
  match p.role, value with
  | .value _, none => s.settle.map fun s => { s with current := some (p, []), wantsValue := true }
  | .value _, some v => s.settle.bind (·.give p [v])
  | _, some _ => .error .unneededValue
  | _, none => s.settle.bind (·.give p [])

def long (s : Reading) (l : Level) (text : List Char) : Except UsageFault Reading :=
  let name := String.ofList (text.takeWhile (· != '='))
  let value :=
    match text.dropWhile (· != '=') with
    | [] => none
    | _ :: v => some (String.ofList v)
  match l.options.find? (·.name == name) with
  | none => .error .unknownArgument
  | some p => s.option p value

/-- Options by their letters. What follows the letter of an option with a value is its value,
perhaps after an equals sign. -/
def letters (l : Level) (s : Reading) : List Char → Except UsageFault Reading
  | [] => .ok s
  | c :: r =>
    match l.options.find? (·.short == some c) with
    | none => .error .unknownArgument
    | some p =>
      match p.role, r with
      | .value _, [] => s.option p none
      | .value _, '=' :: v => s.option p (some (String.ofList v))
      | .value _, v => s.option p (some (String.ofList v))
      -- behind an option without a value more letters may follow
      | _, r => (s.option p none).bind fun s => letters l s r

def operand (s : Reading) (l : Level) (word : String) : Except UsageFault Reading :=
  match l.operands with
  | none =>
    if l.commands.isEmpty || (s.onlyOperands && l.commands.contains word) then
      .error .unknownArgument
    else .error .unknownCommand
  | some p =>
    let begun := s.current.any (·.1.name == p.name)
    if !p.repeats && (begun || s.has p.name) then .error .unknownArgument
    else
      match s.current with
      | some (q, values) =>
        -- operands that follow one another are given together
        if begun then .ok { s with current := some (q, values ++ [word]) }
        else s.settle.map fun s => { s with current := some (p, [word]) }
      | none => .ok { s with current := some (p, [word]) }

def word (s : Reading) (l : Level) (text : String) : Except UsageFault Reading :=
  if s.onlyOperands then s.operand l text
  else
    match text.toList with
    | ['-', '-'] => .ok { s with onlyOperands := true }
    | '-' :: '-' :: r => s.long l r
    | '-' :: c :: r => letters l s (c :: r)
    | _ =>
      match s.wantsValue, s.current with
      | true, some (p, values) =>
        .ok { s with current := some (p, values ++ [text]), wantsValue := false }
      | _, _ => s.operand l text

end Reading

/-- Reads words up to the name of a command: what was read, and the command with the words after
it. -/
def Level.scan (l : Level) (s : Reading) :
    List String → Except UsageFault (Reading × Option (String × List String))
  | [] => .ok (s, none)
  | w :: ws =>
    -- a value that is waited for may have the name of a command
    if !s.onlyOperands && !s.wantsValue && l.commands.contains w then .ok (s, some (w, ws))
    else (s.word l w).bind fun s => l.scan s ws

end ImportAtlas.CommandLine
