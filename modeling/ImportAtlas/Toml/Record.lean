import ImportAtlas.Toml.Basic

/-!
# Records in TOML

What can be read from a value: texts, lists, and records, which may be written as a table or as an
array of their fields in order.

* `Toml.fields?`: the fields of a record.
* `Toml.choice?`: one of several words.
-/

namespace ImportAtlas.Toml

def text? : Toml → Option String
  | text s => some s
  | _ => none

def bool? : Toml → Option Bool
  | bool b => some b
  | _ => none

def items? : Toml → Option (List Toml)
  | array xs => some xs
  -- tables that were given one by one make an array too
  | tables ts => some (ts.map (.table .element))
  | _ => none

/-- The key under which a date shows its text where a table is asked for. -/
def dateTimeKey : String := "$__toml_private_datetime"

def entries? : Toml → Option Entries
  | table _ es => some es
  | dateTime s => some [(dateTimeKey, text s)]
  | _ => none

def listOf? {α : Type} (f : Toml → Option α) (x : Toml) : Option (List α) :=
  x.items?.bind (·.mapM f)

/-- The values of a record's fields in the order of their names, `none` for those it lacks. An array
has the values of the first fields, and values beyond the last one are passed over; a `closed`
record must not have other keys. -/
def fields? (closed : Bool) (names : List String) (x : Toml) : Option (List (Option Toml)) :=
  match x.items? with
  | some xs => some ((List.range names.length).map (xs[·]?))
  | none => do
    let es ← x.entries?
    if closed && !es.all fun (k, _) => names.contains k then none
    return names.map fun n => es.lookup n

/-- A value that must not be wrong but may be missing. -/
def orDefault {α : Type} (default : α) (f : Toml → Option α) : Option Toml → Option α
  | none => some default
  | some x => f x

/-- Whether a value is a table or an array without anything in it. -/
def isHollow : Toml → Bool
  | array xs => xs.isEmpty
  | table _ es => es.isEmpty
  | tables ts => ts.isEmpty
  | _ => false

/-- The word that stands for one of several choices: a text, or the only key of a table, which then
has no content. -/
def choice? : Toml → Option String
  | text s => some s
  | table _ [(k, v)] => if v.isHollow then some k else none
  | _ => none

end ImportAtlas.Toml
