import ImportAtlas.Glob.Set

/-!
# Ignore files

A file with a rule on each line says which files of its directory are to be left out. Every rule is
a pattern for the path below that directory; the last rule that matches decides.

* `IgnoreRule.ofLine?`: the rule that a line spells, if it spells one.
* `IgnoreRule.ofBytes`: the rules of a file.
* `IgnoreRule.verdict?`: what rules say of a path.
-/

namespace ImportAtlas

/-- What a rule says of the paths that it matches. -/
inductive IgnoreVerdict where
  | leaveOut
  | keep
deriving DecidableEq, Repr, Inhabited

/-- One rule of an ignore file. -/
structure IgnoreRule where
  glob : Glob
  verdict : IgnoreVerdict
  /-- The rule does not match files. -/
  onlyDirectories : Bool
deriving Inhabited

namespace IgnoreRule

/-- The text of a line that counts. Blanks at its end do not, unless the last one is escaped. -/
def content (line : List Char) : List Char :=
  if (Text.dropEnd? ['\\', ' '] line).isSome then line else Text.trimEnd line

/-- The mark in front of a rule: what the rule says, whether its pattern is fixed to the directory,
and the pattern. A backslash takes the meaning from a first `!` or `#`. -/
def mark : List Char → IgnoreVerdict × Bool × List Char
  | '\\' :: '!' :: r => (.leaveOut, false, '!' :: r)
  | '\\' :: '#' :: r => (.leaveOut, false, '#' :: r)
  | '!' :: '/' :: r => (.keep, true, r)
  | '!' :: r => (.keep, false, r)
  | '/' :: r => (.leaveOut, true, r)
  | r => (.leaveOut, false, r)

/-- A pattern without the slash at its end, and whether it had one. -/
def dropSlash (t : List Char) : List Char × Bool :=
  match Text.dropEnd? ['/'] t with
  | none => (t, false)
  | some front => ((Text.dropEnd? ['\\'] front).getD front, true)

/-- The pattern for the whole path below the directory. One without a slash matches at any depth,
and one that ends in `/**` does not match the directory itself. -/
def wholePath (fixed : Bool) (t : List Char) : List Char :=
  let anyDepth :=
    !fixed && !t.contains '/' && !Text.beginsWith ['*', '*', '/'] t && t != ['*', '*']
  let t := if anyDepth then '*' :: '*' :: '/' :: t else t
  if (Text.dropEnd? ['/', '*', '*'] t).isSome then t ++ ['/', '*'] else t

/-- The rule that a line spells: none for a comment, a blank line or a malformed pattern. -/
def ofLine? (line : List Char) : Option IgnoreRule :=
  if line.head? = some '#' then none
  else
    let text := content line
    if text.isEmpty then none
    else
      let (verdict, fixed, pattern) := mark text
      let (pattern, onlyDirectories) := dropSlash pattern
      match Glob.parseLenient true (String.ofList (wholePath fixed pattern)) with
      | .ok glob => some { glob, verdict, onlyDirectories }
      | .error _ => none

def cutBytes : List UInt8 → List (List UInt8)
  | [] => [[]]
  | 10 :: r => [] :: cutBytes r
  | x :: r =>
    match cutBytes r with
    | [] => [[x]]
    | l :: ls => (x :: l) :: ls

/-- The lines of a file, up to the first one that is no text. A newline ends a line, with one
carriage return before it if there is one. -/
def linesOf : List (List UInt8) → List (List Char)
  | [] => []
  | l :: ls =>
    match String.fromUTF8? ⟨l.toArray⟩ with
    | none => []
    -- the last line has no newline whose carriage return could be dropped
    | some s => (if ls.isEmpty then s.toList else Text.dropReturn s.toList) :: linesOf ls

/-- The rules of a file. Byte order marks in front of the first line do not belong to it. -/
def ofBytes (bytes : ByteArray) : List IgnoreRule :=
  match linesOf (cutBytes bytes.toList) with
  | [] => []
  | first :: rest => (first.dropWhile (· == '\ufeff') :: rest).filterMap ofLine?

/-- Whether a rule matches a path below its directory. -/
def matchesPath (r : IgnoreRule) (names : List String) (isDirectory : Bool) : Bool :=
  (!r.onlyDirectories || isDirectory) &&
    r.glob.matchesInSet (Glob.bytesOf ("/".intercalate names).toList)

/-- What rules say of a path below their directory: the last one that matches decides. -/
def verdict? (rules : List IgnoreRule) (names : List String) (isDirectory : Bool) :
    Option IgnoreVerdict :=
  (rules.reverse.find? (·.matchesPath names isDirectory)).map (·.verdict)

end IgnoreRule

end ImportAtlas
