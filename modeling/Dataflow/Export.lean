/-
Values as JSON documents.

Tuples without a label become arrays and other records objects, with the label as the member `$label`; of two
members of one name the later one in the order of features stays. Numbers other than decimals become
numbers. Whatever has no counterpart in JSON is written as its kernel text, and values inside more than 64
records as `...`.
-/
import Dataflow.Display
import Dataflow.Json.Basic

set_option autoImplicit false

namespace Dataflow

/-- Values inside more records than this are elided. -/
def exportDepth : Nat := 64

/-- The document of a number. -/
def Num.toJson : Num → Json
  | .int32 n => .int n.toInt
  | .int64 n => .int n.toInt
  | .flt32 x => .double x.toFloat
  | .flt64 x => .double x
  | .dec128 d => .str d.text

namespace Store

/-- The document of a record whose fields have been exported. -/
def recordToJson (r : Record) (values : List Json) : Json :=
  if r.isTuple && r.label = .null then .arr values
  else
    let label := if r.label = .null then [] else [("$label", Json.str r.label.text)]
    .sortedObj (label ++ (r.fields.map fun f => f.feature.keyText).zip values)

/-- The document of a term inside `exportDepth + 1 - levels` records. -/
def toJsonWithin (σ : Store) : (levels : Nat) → Term → Json
  | 0, t =>
    match σ.resolve t with
    | .var x => .str (varName x)
    | .val _ => .str "..."
  | levels + 1, t =>
    match σ.resolve t with
    | .var x => .str (varName x)
    | .val v =>
      match v with
      | .lit (.bool b) => .bool b
      | .lit .null => .null
      | .lit (.str s) => .str s
      | .num n => n.toJson
      | .record r =>
        let record := σ.record r
        recordToJson record (record.fields.map fun f => σ.toJsonWithin levels f.value)
      | v => .str (σ.valueText v)

/-- The document of a value. -/
def toJson (σ : Store) (v : Value) : Json := σ.toJsonWithin (exportDepth + 1) (.val v)

end Store

end Dataflow
