import ImportAtlas.Glob.Parse

/-!
# Sets of globs

A path is in a set when one of its patterns matches. A set looks at the name of a path's file
first where a pattern says how that name must end, and a path that ends with a step up has no such
name; so a pattern that ends with a literal dot does not match it, unless it is a literal text, or
`**` and a literal text of several components.

* `Glob.matchesInSet`: whether a pattern matches a text when it is one of a set.
* `Glob.anyMatches`: whether one of the patterns matches.
-/

namespace ImportAtlas.Glob

def isLiteral : Token → Bool
  | .literal _ => true
  | _ => false

/-- Whether a pattern says of the file name alone that it ends with a dot. -/
def namesFinalDot (tokens : List Token) : Bool :=
  (match tokens.getLast? with
    | some (.literal '.') => true
    | _ => false) &&
  !tokens.all isLiteral &&
  !(match tokens with
    | .deepStart :: r =>
      r.all isLiteral && r.any fun
        | .literal '/' => true
        | _ => false
    | _ => false)

/-- Whether the last component of a path is a step up. -/
def endsWithStepUp (t : Bytes) : Bool :=
  (bytesOf ['/', '.', '.']).isSuffixOf (slash :: t)

/-- Whether a pattern matches a text when it is one of a set. -/
def matchesInSet (g : Glob) (t : Bytes) : Bool :=
  !(endsWithStepUp t && namesFinalDot g.tokens) && g.matches t

def anyMatches (gs : List Glob) (t : Bytes) : Bool :=
  gs.any (matchesInSet · t)

end ImportAtlas.Glob
