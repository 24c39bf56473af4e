/-
Text of values.

One rendering expands at most 256 values; further ones are written `...`, and so are values inside more
than 32 records. A record inside itself is written `<cycle>`. Unbound variables are written by their names
and cost nothing. Texts of values in faults are cut to 512 bytes.
-/
import Dataflow.Store.Variable
import Dataflow.Value

set_option autoImplicit false

namespace Dataflow

/-! ## Atoms -/

/-- The name of a variable. -/
def varName (x : VarId) : String := "_v" ++ toString x

/-- The text of a truth value. -/
def boolText (b : Bool) : String := if b then "true" else "false"

/-- The text of a token. -/
def tokenText (n : Nat) : String := "$token(" ++ toString n ++ ")"

/-- A string with its quotes escaped. -/
def escapeQuotes (s : String) : String :=
  String.ofList (s.toList.flatMap fun c => if c = '\'' then ['\\', '\''] else [c])

/-- The text of a literal. -/
def Literal.text : Literal → String
  | .bool b => boolText b
  | .null => "null"
  | .eof => "eof"
  | .str s => "'" ++ escapeQuotes s ++ "'"
  | .token n => tokenText n

/-- The text of a feature that stands alone. -/
def Feature.text : Feature → String
  | .str s => "'" ++ s ++ "'"
  | .int n => toString n.toInt
  | .bool b => boolText b
  | .eof => "eof"
  | .null => "null"
  | .token n => tokenText n

/-- The text of a feature as the key of a field: strings go without quotes. -/
def Feature.keyText : Feature → String
  | .str s => s
  | f => f.text

/-- The text of an object. -/
def Obj.text : Obj → String
  | .cell _ => "<cell>"
  | .actor a => "<actor " ++ a.address ++ ">"

/-- The text of a procedure. -/
def Proc.text : Proc → String
  | .closure _ => "<proc>"
  | .native n => "<proc " ++ n.name ++ ">"
  | .ofCell c p => "<proc " ++ (Obj.cell c).text ++ "." ++ p.name ++ ">"
  | .ofActor a p => "<proc " ++ (Obj.actor a).text ++ "." ++ p.name ++ ">"
  | .iter _ => "<iter>"
  | .actorMaker _ => "<actor_ctor>"

/-- What stands before the fields of a record. -/
def Literal.labelText : Literal → String
  | .null => ""
  | .str s => s ++ "#"
  | l => l.text ++ "#"

namespace Store

/-! ## Values -/

/-- Values inside more records than this are elided. -/
def displayDepth : Nat := 32

/-- A rendering expands this many values. -/
def displayNodes : Nat := 256

/-- The texts of the fields of a record, rendered one after the other; the second component is what is left
of the number of values that may be expanded. -/
def renderFields (render : Nat → Term → String × Nat) (isTuple : Bool) :
    List Field → Nat → List String × Nat
  | [], left => ([], left)
  | f :: rest, left =>
    let (text, left) := render left f.value
    let (texts, left) := renderFields render isTuple rest left
    ((if isTuple then text else f.feature.keyText ++ ": " ++ text) :: texts, left)

/-- The text of a record whose fields are rendered by `render`. -/
def renderRecord (render : Nat → Term → String × Nat) (r : Record) (left : Nat) : String × Nat :=
  let isTuple := r.isTuple
  let (texts, left) := renderFields render isTuple r.fields left
  let body := String.intercalate ", " texts
  (r.label.labelText ++ (if isTuple then "[" ++ body ++ "]" else "\x7b" ++ body ++ "\x7d"), left)

/-- Renders a term inside the records of `path`; at most `left` values are expanded. Every expansion uses one
of them up, so a `bound` of at least `left` on the nesting of expansions is never reached. -/
def render (σ : Store) : (bound : Nat) → (path : List RecordId) → (left : Nat) → Term → String × Nat
  | 0, _, left, t =>
    match σ.resolve t with
    | .var x => (varName x, left)
    | .val _ => ("...", left)
  | bound + 1, path, left, t =>
    match σ.resolve t with
    | .var x => (varName x, left)
    | .val v =>
      if left = 0 ∨ displayDepth < path.length then ("...", left)
      else
        let left := left - 1
        match v with
        | .lit l => (l.text, left)
        | .num n => (n.text, left)
        | .record r =>
          if path.contains r then ("<cycle>", left)
          else renderRecord (fun left t => σ.render bound (r :: path) left t) (σ.record r) left
        | .obj o => (o.text, left)
        | .proc p => (p.text, left)
        | .config _ => ("<actor_cfg>", left)
        | .failed f =>
          let (text, left) := σ.render bound path left (.val (σ.failure f).error)
          ("<failed " ++ text ++ ">", left)

/-- The text of a term. -/
def termText (σ : Store) (t : Term) : String := (σ.render displayNodes [] displayNodes t).1

/-- The text of a value. -/
def valueText (σ : Store) (v : Value) : String := σ.termText (.val v)

/-- The text of a record; the record itself is not counted. -/
def recordText (σ : Store) (r : RecordId) : String :=
  (renderRecord (fun left t => σ.render displayNodes [r] left t) (σ.record r) displayNodes).1

/-- The text of a failure. -/
def failureText (σ : Store) (f : FailureId) : String :=
  (σ.failure f).owner ++ " failed with " ++ σ.valueText (σ.failure f).error

end Store

/-! ## Faults -/

/-- Texts of values in faults have at most this many bytes. -/
def faultTextLimit : Nat := 512

/-- The longest beginning of a text that has at most `room` bytes. -/
def takeBytes : (room : Nat) → List Char → List Char
  | _, [] => []
  | room, c :: cs => if c.utf8Size ≤ room then c :: takeBytes (room - c.utf8Size) cs else []

/-- A text cut to the limit, at the end of a character; `...` marks a cut. -/
def capText (s : String) : String :=
  if s.utf8ByteSize ≤ faultTextLimit then s
  else String.ofList (takeBytes faultTextLimit s.toList) ++ "..."

namespace Fault

/-- A value that does not have a feature. -/
def missingFeature (f : Feature) (text : String) : Fault := .featureNotFound (capText f.text) (capText text)

/-- Two values that cannot be made equal. -/
def conflict (σ : Store) (a b : Value) : Fault :=
  .bindConflict (capText (σ.valueText a)) (capText (σ.valueText b))

/-- The name under which programs see the fault. -/
def name : Fault → String
  | .featureNotFound .. => "FeatureNotFound"
  | .indexOutOfBounds .. => "IndexOutOfBounds"
  | .invalidArgCount .. => "InvalidArgCount"
  | .cannotComplete _ => "CannotComplete"
  | .selfAsk _ => "SelfRefAsk"
  | .bindConflict .. => "BindConflict"
  | .typeMismatch .. => "TypeMismatch"
  | .identNotFound _ => "IdentNotFound"
  | .arithmetic _ => "Arithmetic"
  | .noMatch _ => "NoMatch"
  | .duplicateFeature _ | .askOutsideActor | .spawnOutsideSystem | .spawnRefused _ => "InvalidArgument"
  | .notInt32 _ => "NumberFormat"
  | .notAProc _ => "NotAProc"
  | .failedValue _ => "FailedValue"

/-- What an incomplete value is called. -/
def incompleteText : Incomplete → String
  | .cell => "Cell"
  | .cellProc => "Cell procedure"
  | .iterator => "iterator"

/-- The pieces that the text of a fault is put together from. -/
def pieces (σ : Store) : Fault → List String
  | .featureNotFound feature value => ["Feature not found: ", feature, " in ", value]
  | .indexOutOfBounds index count => ["Index out of bounds: ", toString index, " (field count ", toString count, ")"]
  | .invalidArgCount name expected actual =>
    ["Invalid argument count for ", name, ": expected ", toString expected, ", got ", toString actual]
  | .cannotComplete what => ["Cannot complete value: ", incompleteText what]
  | .selfAsk address => ["Actor ", address, " cannot ask itself"]
  | .bindConflict existing incoming => ["Bind conflict: ", existing, " is not ", incoming]
  | .typeMismatch expected actual => ["Type mismatch: expected ", expected, ", got ", actual]
  | .identNotFound x => ["Identifier not found: ", x]
  | .arithmetic failure => ["Arithmetic error: ", failure.text]
  | .noMatch value => ["No match found for ", value]
  | .duplicateFeature f => ["Invalid argument: duplicate feature ", f.text]
  | .askOutsideActor => ["Invalid argument: ask requires an actor context"]
  | .spawnOutsideSystem => ["Invalid argument: spawn requires an actor system"]
  | .spawnRefused reason => ["Invalid argument: ", reason]
  | .notInt32 text => ["Number format error: '", text, "' is not an Int32"]
  | .notAProc value => ["Not a procedure: ", value]
  | .failedValue f => ["Failed value: ", σ.failureText f]

/-- The fault in words. -/
def message (σ : Store) (f : Fault) : String := String.join (f.pieces σ)

end Fault

end Dataflow
