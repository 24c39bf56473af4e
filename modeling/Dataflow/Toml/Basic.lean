/-
TOML documents as trees, and how they grow line by line.

A table can be written in several ways, and how it was written decides what may be added to it later: a
table with a header of its own is defined once, a table that only the header of an inner table mentions may
still get its header, a table made by dotted keys may get further dotted keys, and a table in braces is
closed. Every growth answers `none` when it would define something twice or give a value fields.
-/

set_option autoImplicit false

namespace Dataflow

/-- How a table came into being. -/
inductive TableOrigin where
  /-- By a header of its own. -/
  | header
  /-- By the header of a table inside it. -/
  | implied
  /-- By a dotted key. -/
  | dotted
  /-- Written in braces. -/
  | braces
  deriving Repr, DecidableEq

/-- A TOML value. Floats and times are kept as they are written. -/
inductive Toml where
  | str (s : String)
  | int (n : Int)
  | bool (b : Bool)
  | float (text : String)
  | dateTime (text : String)
  | arr (items : List Toml)
  | table (origin : TableOrigin) (entries : List (String × Toml))
  /-- Tables that headers in double brackets made. -/
  | tables (elements : List (List (String × Toml)))

namespace Toml

/-- The entries of a table in their order. -/
abbrev Entries := List (String × Toml)

namespace Entries

/-- Replaces the value of a key. -/
def replace (es : Entries) (key : String) (v : Toml) : Entries :=
  es.map fun (k, w) => (k, if k = key then v else w)

/-- Changes the last of several tables. -/
def changeLast (f : Entries → Option Entries) (elements : List Entries) : Option (List Entries) := do
  let last ← f (← elements.getLast?)
  return elements.dropLast ++ [last]

/-- Adds a value under a dotted key, whose last part is `key`. The table that takes the value must have been
made by dotted keys; on the way there the key may pass through implied tables and the last of several
tables. -/
def putDotted : (path : List String) → (key : String) → Toml → Entries → Option Entries
  | [], key, v, es => if (es.lookup key).isSome then none else some (es ++ [(key, v)])
  | k :: path, key, v, es =>
    match es.lookup k with
    | none => do
      let inner ← putDotted path key v []
      return es ++ [(k, .table .dotted inner)]
    | some (.table origin inner) =>
      if origin = .dotted ∨ (origin = .implied ∧ path ≠ []) then do
        let inner ← putDotted path key v inner
        return es.replace k (.table origin inner)
      else none
    | some (.tables elements) =>
      if path = [] then none
      else do return es.replace k (.tables (← changeLast (putDotted path key v) elements))
    | some _ => none

/-- Changes the table that a path of headers leads to; of several tables it is the last one. -/
def within (f : Entries → Option Entries) : (path : List String) → Entries → Option Entries
  | [], es => f es
  | k :: path, es =>
    match es.lookup k with
    | none => do
      let inner ← within f path []
      return es ++ [(k, .table .implied inner)]
    | some (.table origin inner) =>
      if origin = .braces then none
      else do
        let inner ← within f path inner
        return es.replace k (.table origin inner)
    | some (.tables elements) => do
      return es.replace k (.tables (← changeLast (within f path) elements))
    | some _ => none

/-- Opens a table by its header. -/
def openTable (key : String) (es : Entries) : Option Entries :=
  match es.lookup key with
  | none => some (es ++ [(key, .table .header [])])
  | some (.table .implied inner) => some (es.replace key (.table .header inner))
  | some _ => none

/-- Opens a further table by a header in double brackets. -/
def openElement (key : String) (es : Entries) : Option Entries :=
  match es.lookup key with
  | none => some (es ++ [(key, .tables [[]])])
  | some (.tables elements) => some (es.replace key (.tables (elements ++ [[]])))
  | some _ => none

end Entries

end Toml

end Dataflow
