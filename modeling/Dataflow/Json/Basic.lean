/-
JSON documents as trees.

Integers are kept apart from floating-point numbers, because a reader of documents may accept only one of
the two, and single-precision numbers are kept apart from doubles, because they are written with fewer
digits. Objects are member lists in document order: which member wins when a name occurs twice is for the
reader to say.
-/

set_option autoImplicit false

namespace Dataflow

/-- A JSON document. -/
inductive Json where
  | null
  | bool (b : Bool)
  /-- A number written without fraction and exponent. -/
  | int (n : Int)
  | double (x : Float)
  | single (x : Float32)
  | str (s : String)
  | arr (items : List Json)
  | obj (members : List (String × Json))

instance : Inhabited Json := ⟨.null⟩

/-- What is wrong with a document: its text ends early, its text is not JSON, or its content does not have
the expected shape. -/
inductive JsonError where
  | truncated
  | malformed
  | mismatched
  deriving Repr, DecidableEq

namespace Json

/-- A natural number. -/
def nat (n : Nat) : Json := .int n

/-- The value of the first member called `name`. -/
def member? (name : String) : Json → Option Json
  | .obj members => members.lookup name
  | _ => none

mutual

/-- How deep arrays and objects nest. -/
def nesting : Json → Nat
  | .arr items => itemsNesting items + 1
  | .obj members => membersNesting members + 1
  | _ => 0

/-- The nesting of the deepest item. -/
def itemsNesting : List Json → Nat
  | [] => 0
  | j :: rest => max j.nesting (itemsNesting rest)

/-- The nesting of the deepest member. -/
def membersNesting : List (String × Json) → Nat
  | [] => 0
  | (_, j) :: rest => max j.nesting (membersNesting rest)

end

/-- Inserts a member into a list sorted by name, replacing a member of that name. -/
def insertMember (name : String) (j : Json) : List (String × Json) → List (String × Json)
  | [] => [(name, j)]
  | (other, k) :: rest =>
    if name < other then (name, j) :: (other, k) :: rest
    else if name = other then (name, j) :: rest
    else (other, k) :: insertMember name j rest

/-- An object with its members in ascending order of name; of two members of one name the later wins. -/
def sortedObj (members : List (String × Json)) : Json :=
  .obj (members.foldl (fun sorted (name, j) => insertMember name j sorted) [])

mutual

/-- The document with the members of every object sorted, the later of two equal names winning. -/
def sorted : Json → Json
  | .arr items => .arr (sortedItems items)
  | .obj members => sortedObj (sortedMembers members)
  | j => j

/-- Sorts every item. -/
def sortedItems : List Json → List Json
  | [] => []
  | j :: rest => j.sorted :: sortedItems rest

/-- Sorts every member's value. -/
def sortedMembers : List (String × Json) → List (String × Json)
  | [] => []
  | (name, j) :: rest => (name, j.sorted) :: sortedMembers rest

end

end Json

end Dataflow
