import ImportAtlas.Text.Chars

/-!
# JSON values

A value as it stands in a text: numbers keep their spelling, and objects keep all their entries in
order. A string whose escapes name one half of a surrogate pair spells no text; it may stand in a
value, but nothing can be read from it.

* `Json`: the values.
* `Json.natural?`, `Json.text?` and their like: what a value stands for.
* `Json.fields?`: the fields of a record, written as an object or as an array in their order.
-/

namespace ImportAtlas

/-- A JSON value. -/
inductive Json where
  | null
  | bool (b : Bool)
  /-- A number, as it is written. -/
  | number (spelling : String)
  /-- A string, with its text if it spells one. -/
  | string (text : Option String)
  | array (items : List Json)
  | object (entries : List (Option String × Json))
deriving Repr, Inhabited

namespace Json

def ofText (s : String) : Json :=
  .string (some s)

def ofNat (n : Nat) : Json :=
  .number n.repr

/-- An object with entries in order. -/
def ofFields (fields : List (String × Json)) : Json :=
  .object (fields.map fun (k, v) => (some k, v))

def ofList {α : Type} (f : α → Json) (xs : List α) : Json :=
  .array (xs.map f)

/-! ### Reading values -/

def text? : Json → Option String
  | string t => t
  | _ => none

def bool? : Json → Option Bool
  | bool b => some b
  | _ => none

/-- A natural number of at most 64 bits, written without sign, point and exponent. -/
def natural? : Json → Option Nat
  | number s =>
    if s.toList.all Char.isDigit then
      match s.toNat? with
      | some n => if n < Nat.pow 2 64 then some n else none
      | none => none
    else none
  | _ => none

def items? : Json → Option (List Json)
  | array xs => some xs
  | _ => none

/-- The entries of an object, when all its keys are texts. -/
def entries? : Json → Option (List (String × Json))
  | object es => es.mapM fun (k, v) => k.map (·, v)
  | _ => none

def listOf? {α : Type} (f : Json → Option α) (j : Json) : Option (List α) :=
  j.items?.bind (·.mapM f)

/-- A value, or `null` for none. -/
def nullable? {α : Type} (f : Json → Option α) : Json → Option (Option α)
  | null => some none
  | j => (f j).map some

/-- The values of a record's fields in the order of their names, `none` for those it lacks. An
object may have other entries as well, but none of these twice; an array has the values of the first
fields. -/
structure Fields where
  values : List (Option Json)
  fromArray : Bool

def fields? (names : List String) : Json → Option Fields
  | array xs =>
    if xs.length ≤ names.length then
      some ⟨xs.map some ++ List.replicate (names.length - xs.length) none, true⟩
    else none
  | j => do
    let es ← j.entries?
    if names.any fun n => 1 < es.countP (·.1 == n) then none
    else return ⟨names.map fun n => es.lookup n, false⟩

def depth : Json → Nat
  | array xs => depthOfItems xs + 1
  | object es => depthOfEntries es + 1
  | _ => 0
where
  depthOfItems : List Json → Nat
    | [] => 0
    | x :: xs => max (depth x) (depthOfItems xs)
  depthOfEntries : List (Option String × Json) → Nat
    | [] => 0
    | (_, x) :: es => max (depth x) (depthOfEntries es)

end Json

end ImportAtlas
