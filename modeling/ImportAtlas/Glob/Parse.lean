import ImportAtlas.Glob.Basic

/-!
# Reading globs

A pattern is read from left to right, one character at a time, with what is open kept beside it: the
branch that is being read, the groups around it, a class.

* `Glob.Fault`: why a text is no pattern, with its `message`.
* `Glob.parse`: the pattern that a text spells.
* `Glob.parseLenient`: the same, where a bracket that opens no class stands for itself.
-/

namespace ImportAtlas.Glob

/-- Why a text is no pattern. -/
inductive Fault where
  | unclosedClass
  | invalidRange (lo hi : Char)
  | unopenedGroup
  | unclosedGroup
  | danglingEscape
deriving DecidableEq, Repr, Inhabited

def Fault.reason : Fault → String
  | unclosedClass => "unclosed character class; missing ']'"
  | invalidRange lo hi =>
    "invalid range; '" ++ String.singleton lo ++ "' > '" ++ String.singleton hi ++ "'"
  | unopenedGroup =>
    "unopened alternate group; missing '\x7b' (maybe escape '\x7d' with '[\x7d]'?)"
  | unclosedGroup =>
    "unclosed alternate group; missing '\x7d' (maybe escape '\x7b' with '[\x7b]'?)"
  | danglingEscape => "dangling '\\'"

def Fault.message (pattern : String) (f : Fault) : String :=
  "error parsing glob '" ++ pattern ++ "': " ++ f.reason

/-- A group that is being read: the branch it stands in and its branches so far, both with the last
part first. -/
structure OpenGroup where
  outside : List Token
  branches : List (List Token)

/-- A class that is being read: its ranges so far, the last one first, and whether a `-` waits for
the upper end of a range. -/
structure OpenClass where
  /-- What follows the bracket that opened it. -/
  text : List Char
  negated : Bool
  ranges : List (Char × Char) := []
  inRange : Bool := false

/-- What is open in the middle of a pattern. -/
structure Reading where
  /-- The last character that was read. -/
  last : Option Char := none
  /-- The branch that is being read, last part first. -/
  branch : List Token := []
  /-- The groups around it, the innermost one first. -/
  groups : List OpenGroup := []
  openClass : Option OpenClass := none
  /-- Opening brackets stand for themselves. -/
  plainBrackets : Bool := false

namespace Reading

def push (s : Reading) (last : Char) (t : Token) : Reading :=
  { s with last := some last, branch := t :: s.branch }

/-- `**` as two single stars. -/
def pushTwoStars (s : Reading) : Reading :=
  (s.push '*' .anyRun).push '*' .anyRun

/-- Whether `**` may begin a component here. -/
def atComponentStart (s : Reading) : Bool :=
  s.last == some '/' || (!s.groups.isEmpty && (s.last == some ',' || s.last == some '\x7b'))

/-- `**` in the place of the part before it, which is a slash, or another `**`. -/
def pushDeep (s : Reading) (last : Char) (atEnd : Bool) : Reading :=
  let new := if atEnd then .deepEnd else .deepMiddle
  match s.branch with
  | .deepStart :: r => { s with last := some last, branch := .deepStart :: r }
  | .deepEnd :: r => { s with last := some last, branch := .deepEnd :: r }
  | _ :: r => { s with last := some last, branch := new :: r }
  | [] => { s with last := some last, branch := [new] }

def inClass (s : Reading) (k : OpenClass) (c : Char) : Except Fault Reading :=
  -- a `]` in front of all else is a member of the class, and so is a `-` at its end
  if c = ']' ∧ k.ranges ≠ [] then
    let ranges := if k.inRange then ('-', '-') :: k.ranges else k.ranges
    .ok { s.push ']' (.oneOf k.negated ranges.reverse) with openClass := none }
  else
    match k.ranges with
    | (lo, _) :: r =>
      if k.inRange then
        if c < lo then .error (.invalidRange lo c)
        else .ok { s with openClass := some { k with ranges := (lo, c) :: r, inRange := false } }
      else if c = '-' then .ok { s with openClass := some { k with inRange := true } }
      else .ok { s with openClass := some { k with ranges := (c, c) :: k.ranges } }
    | [] => .ok { s with openClass := some { k with ranges := [(c, c)] } }

def finish (s : Reading) : Except Fault (List Token) :=
  if s.openClass.isSome then .error .unclosedClass
  else if s.groups.isEmpty then .ok s.branch.reverse
  else .error .unclosedGroup

def read (s : Reading) : List Char → Except Fault Reading
  | [] => .ok s
  | c :: r =>
    match s.openClass with
    | some k => (s.inClass k c).bind fun s => read s r
    | none =>
      match c, r with
      | '?', r => read (s.push '?' .any) r
      -- two stars are special only as a whole component; elsewhere they are two single ones
      | '*', '*' :: r =>
        if s.branch.isEmpty then
          match r with
          | [] => read (s.push '*' .deepStart) []
          | '/' :: r => read (s.push '/' .deepStart) r
          | r => read s.pushTwoStars r
        else if s.atComponentStart then
          match r with
          | [] => read (s.pushDeep '*' true) []
          | '/' :: r => read (s.pushDeep '/' false) r
          | d :: r =>
            if !s.groups.isEmpty && (d == ',' || d == '\x7d') then
              read (s.pushDeep '*' true) (d :: r)
            else read s.pushTwoStars (d :: r)
        else read s.pushTwoStars r
      | '*', r => read (s.push '*' .anyRun) r
      | '[', r =>
        -- the text behind the bracket is kept, for the case that no bracket closes it
        if s.plainBrackets then read (s.push '[' (.literal '[')) r
        else
          match r with
          | '!' :: t => read { s with openClass := some { text := r, negated := true } } t
          | '^' :: t => read { s with openClass := some { text := r, negated := true } } t
          | t => read { s with openClass := some { text := r, negated := false } } t
      | '\x7b', r =>
        read { s with last := some '\x7b', branch := [], groups := ⟨s.branch, []⟩ :: s.groups } r
      | '\x7d', r =>
        match s.groups with
        | [] => .error .unopenedGroup
        | g :: gs =>
          let t := .group (s.branch.reverse :: g.branches).reverse
          read { s with last := some '\x7d', branch := t :: g.outside, groups := gs } r
      | ',', r =>
        match s.groups with
        -- outside all groups a comma is a character like any other
        | [] => read (s.push ',' (.literal ',')) r
        | g :: gs =>
          read { s with
            last := some ',', branch := []
            groups := { g with branches := s.branch.reverse :: g.branches } :: gs } r
      | '\\', [] => .error .danglingEscape
      | '\\', d :: r => read (s.push d (.literal d)) r
      | c, r => read (s.push c (.literal c)) r

/-- The end of a pattern with a class that was never closed: from the bracket that opened it on, all
opening brackets stand for themselves. -/
def reopen (s : Reading) : Except Fault Reading :=
  match s.openClass with
  | none => .ok s
  | some k =>
    ({ s with openClass := none, plainBrackets := true }.push '[' (.literal '[')).read k.text

end Reading

/-- The pattern that a text spells. -/
def parse (components : Bool) (pattern : String) : Except Fault Glob :=
  ((Reading.read {} pattern.toList).bind (·.finish)).map (⟨pattern, components, ·⟩)

/-- The pattern that a text spells, where a bracket that opens no class stands for itself. -/
def parseLenient (components : Bool) (pattern : String) : Except Fault Glob :=
  (((Reading.read {} pattern.toList).bind (·.reopen)).bind (·.finish)).map
    (⟨pattern, components, ·⟩)

end ImportAtlas.Glob
