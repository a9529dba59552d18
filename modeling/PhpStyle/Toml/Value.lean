/-!
# TOML values

The values of a TOML document and the rules about who may add to a table. A table
remembers how it came to be: a table that was written out under a header or as an
inline value is complete, a table that a longer name implied may still get its
header, and a table that dotted keys made may get more dotted keys.
-/

namespace PhpStyle.Toml

/-- How a table came to be. -/
inductive Origin where
  /-- By a header of its own. -/
  | header
  /-- As a part of the name in another table's header. -/
  | implied
  /-- By a dotted key. -/
  | dotted
  /-- Between braces. -/
  | inline
deriving DecidableEq, Repr, Inhabited

/-- A TOML value. -/
inductive Value where
  | string (content : String)
  | integer (value : Int)
  | float (written : String)
  | boolean (value : Bool)
  /-- A date, a time or both. -/
  | moment (written : String)
  | array (elements : List Value)
  | table (origin : Origin) (entries : List (String × Value))
  /-- Tables that were written one by one under headers of the same name. -/
  | tables (elements : List (List (String × Value)))
deriving Repr, Inhabited

/-- The entries of a table, in the order in which they were written. -/
abbrev Entries := List (String × Value)

/-- The name of an entry: the names of the tables around it and its own. -/
structure Key where
  path : List String
  name : String
deriving DecidableEq, Repr, Inhabited

namespace Entries

/-- Replaces the value of an entry. -/
def replace (entries : Entries) (name : String) (value : Value) : Entries :=
  entries.map fun entry => if entry.1 = name then (name, value) else entry

/-- Adds an entry, unless there is one of this name. -/
def add? (entries : Entries) (name : String) (value : Value) : Option Entries :=
  match entries.lookup name with
  | none => some (entries ++ [(name, value)])
  | some _ => none

/-- Changes the table to which a path of names leads and makes the tables on the way that do not
exist. Dotted keys may not pass through tables that have a header, and nothing passes through
inline tables or values. Of tables under headers of the same name the last one is meant. -/
def alterAt? (isDotted : Bool) (change : Origin → Entries → Option Entries) :
    List String → Origin → Entries → Option Entries
  | [], origin, entries => change origin entries
  | name :: path, _, entries =>
    match entries.lookup name with
    | none => do
      let origin := if isDotted then Origin.dotted else Origin.implied
      let inner ← alterAt? isDotted change path origin []
      some (entries ++ [(name, .table origin inner)])
    | some (.table origin inner) => do
      if origin = .inline ∨ (isDotted = true ∧ origin = .header) then none
      let inner ← alterAt? isDotted change path origin inner
      some (replace entries name (.table origin inner))
    | some (.tables elements) => do
      let last ← elements.getLast?
      let last ← alterAt? isDotted change path .header last
      some (replace entries name (.tables (elements.dropLast ++ [last])))
    | some _ => none

/-- Adds a value under a key. A dotted key adds only to tables that dotted keys have made. -/
def assign? (entries : Entries) (key : Key) (value : Value) : Option Entries :=
  alterAt? true
    (fun origin inner =>
      if key.path ≠ [] ∧ origin ≠ .dotted then none else add? inner key.name value)
    key.path .header entries

/-- Opens the table of a header. -/
def openTable? (entries : Entries) (key : Key) : Option Entries :=
  alterAt? false
    (fun _ inner =>
      match inner.lookup key.name with
      | none => some (inner ++ [(key.name, .table .header [])])
      | some (.table .implied content) => some (replace inner key.name (.table .header content))
      | some _ => none)
    key.path .header entries

/-- Opens one more of the tables under headers of the same name. -/
def openNextTable? (entries : Entries) (key : Key) : Option Entries :=
  alterAt? false
    (fun _ inner =>
      match inner.lookup key.name with
      | none => some (inner ++ [(key.name, .tables [[]])])
      | some (.tables elements) => some (replace inner key.name (.tables (elements ++ [[]])))
      | some _ => none)
    key.path .header entries

end Entries

end PhpStyle.Toml
