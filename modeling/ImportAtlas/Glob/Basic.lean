import ImportAtlas.Text.Chars

/-!
# Globs

File name patterns: `*` and `?`, character classes, groups of alternatives, and `**` as a whole path
component. A pattern is matched against the bytes of a path: `?` stands for one byte, and a class
for one of the bytes of the characters it lists.

* `Glob.Token`: one part of a pattern; `Glob.rests`: what can be left of a text after the parts of a
  pattern have matched its beginning.
* `Glob.matches`: whether a pattern matches a whole text.
-/

namespace ImportAtlas

namespace Glob

abbrev Bytes := List UInt8

def bytesOf (t : List Char) : Bytes :=
  t.flatMap String.utf8EncodeChar

def slash : UInt8 := 47

/-- One part of a pattern. -/
inductive Token where
  | literal (c : Char)
  /-- `?` -/
  | any
  /-- `*` -/
  | anyRun
  /-- `**` and a slash, in front of all else: any number of components, or none. -/
  | deepStart
  /-- A slash and `**`, at the end: everything below. -/
  | deepEnd
  /-- `**` between slashes: any number of components, or none. -/
  | deepMiddle
  /-- A class of characters, given by ranges. -/
  | oneOf (negated : Bool) (ranges : List (Char × Char))
  /-- A group of alternatives. -/
  | group (branches : List (List Token))
deriving Repr, Inhabited

/-- Whether a byte belongs to a range of characters: one of the bytes of its ends, or between the
last byte of the lower end and the first byte of the upper end. -/
def inRange (r : Char × Char) (x : UInt8) : Bool :=
  let lo := String.utf8EncodeChar r.1
  let hi := String.utf8EncodeChar r.2
  lo.contains x || hi.contains x ||
    (r.1 != r.2 && lo.getLast?.any (· ≤ x) && hi.head?.any (x ≤ ·))

/-- A text and every shorter end of it. -/
def suffixes : Bytes → List Bytes
  | [] => [[]]
  | x :: r => (x :: r) :: suffixes r

/-- What is left after any number of bytes that are accepted. -/
def afterRun (accepts : UInt8 → Bool) : Bytes → List Bytes
  | [] => [[]]
  | x :: r => (x :: r) :: (if accepts x then afterRun accepts r else [])

/-- What is left after a slash, for every slash. -/
def afterSlashes : Bytes → List Bytes
  | [] => []
  | x :: r => if x = slash then r :: afterSlashes r else afterSlashes r

mutual

/-- Whether a token stands for nothing: a group without a branch that stands for something. -/
def isVoid : Token → Bool
  | .group branches => areVoid branches
  | _ => false

def isVoidBranch : List Token → Bool
  | [] => true
  | t :: ts => isVoid t && isVoidBranch ts

def areVoid : List (List Token) → Bool
  | [] => true
  | b :: bs => isVoidBranch b && areVoid bs

end

mutual

/-- What can be left of a text after a token has matched its beginning; `*` and `?` do not match a
slash when `components` is set. -/
def rests (components : Bool) : Token → Bytes → List Bytes
  | .literal c, t => (Text.dropStart? (String.utf8EncodeChar c) t).toList
  | .any, t =>
    match t with
    | [] => []
    | x :: r => if components && x = slash then [] else [r]
  | .anyRun, t => afterRun (fun x => !(components && x = slash)) t
  | .deepStart, t => t :: afterSlashes t
  | .deepEnd, t =>
    match t with
    | [] => []
    | x :: r => if x = slash then suffixes r else []
  -- both slashes may be the same one, with nothing between them
  | .deepMiddle, t =>
    match t with
    | [] => []
    | x :: r => if x = slash then r :: afterSlashes r else []
  | .oneOf negated ranges, t =>
    match t with
    | [] => []
    | x :: r => if ranges.any (inRange · x) != negated then [r] else []
  | .group branches, t =>
    if areVoid branches then [t] else restsOfBranches components branches t

/-- What can be left of some texts after the tokens of a branch, one after another. -/
def restsOfAll (components : Bool) : List Token → List Bytes → List Bytes
  | [], ts => ts
  -- a rest that can be reached in two ways is followed once, or a row of stars would take forever
  | k :: ks, ts => restsOfAll components ks (ts.flatMap fun t => rests components k t).eraseDups

/-- What can be left after one of the branches of a group. A branch that stands for nothing is not
one of its alternatives. -/
def restsOfBranches (components : Bool) : List (List Token) → Bytes → List Bytes
  | [], _ => []
  | b :: bs, t =>
    (if isVoidBranch b then [] else restsOfAll components b [t]) ++ restsOfBranches components bs t

end

end Glob

/-- A pattern as it was written, its parts, and whether `*` and `?` stay within a component. -/
structure Glob where
  pattern : String
  components : Bool
  tokens : List Glob.Token
deriving Inhabited

/-- Whether a pattern matches a whole text. A lone `**` matches everything. -/
def Glob.matches (g : Glob) (t : Glob.Bytes) : Bool :=
  match g.tokens with
  | [.deepStart] => true
  | ks => (Glob.restsOfAll g.components ks [t]).contains []

end ImportAtlas
