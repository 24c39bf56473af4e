/-
Features and records.

Features are ordered by kind, strings first, and then by value. A record keeps its fields in strictly
ascending order of features; `build` is where this order comes from, and where a feature that occurs twice
is refused. That order is what looking a feature up relies on. A tuple is a record whose features are `0, 1, …`,
and the empty record is one.
-/
import Dataflow.Store.Basic

set_option autoImplicit false

namespace Dataflow

/-! ## Order of features -/

namespace Feature

/-- The position of the kind in the order of kinds. -/
def rank : Feature → Nat
  | .str _ => 0
  | .int _ => 1
  | .bool _ => 2
  | .eof => 3
  | .null => 4
  | .token _ => 5

/-- Order by kind, then by value: strings by their characters, `false` before `true`. -/
def compare : Feature → Feature → Ordering
  | .str a, .str b => Ord.compare a b
  | .int a, .int b => Ord.compare a.toInt b.toInt
  | .bool a, .bool b => Ord.compare a.toNat b.toNat
  | .token a, .token b => Ord.compare a b
  | a, b => Ord.compare a.rank b.rank

/-- The feature of the `i`-th component of a tuple. -/
def position (i : Nat) : Feature := .int (Int64.ofNat i)

/-- The place of a feature among features in ascending order, from `lo` on and before `hi`. The range is halved until
its middle is the feature, or nothing is left. -/
def search (features : List Feature) (f : Feature) (lo hi : Nat) : Option Nat :=
  if _h : lo < hi then
    let mid := lo + (hi - lo) / 2
    match features[mid]? with
    | none => none
    | some g =>
      match g.compare f with
      | .eq => some mid
      | .lt => search features f (mid + 1) hi
      | .gt => search features f lo mid
  else none
termination_by hi - lo

end Feature

namespace Literal

/-- Every literal is a feature. -/
def toFeature : Literal → Feature
  | .bool b => .bool b
  | .null => .null
  | .eof => .eof
  | .str s => .str s
  | .token n => .token n

end Literal

/-! ## Records -/

namespace Record

/-- The first feature that occurs twice in a row. -/
def repeated? : List Field → Option Feature
  | a :: b :: rest => if a.feature = b.feature then some a.feature else repeated? (b :: rest)
  | _ => none

/-- Fields in ascending order of features; fields of one feature stay in their order. -/
def sortFields (fields : List Field) : List Field :=
  fields.mergeSort fun a b => (a.feature.compare b.feature).isLE

/-- A record of the given fields, whatever their order. -/
def build (label : Literal) (fields : List Field) : Except Fault Record :=
  let sorted := sortFields fields
  match repeated? sorted with
  | some f => .error (.duplicateFeature f)
  | none => .ok ⟨label, sorted⟩

/-- Numbers values from `i` on. -/
def enumerate (i : Nat) : List Term → List Field
  | [] => []
  | v :: rest => ⟨.position i, v⟩ :: enumerate (i + 1) rest

/-- A tuple. -/
def tuple (label : Literal) (values : List Term) : Record := ⟨label, enumerate 0 values⟩

/-- Whether the features are `i, i + 1, …`. -/
def enumeratedFrom (i : Nat) : List Field → Bool
  | [] => true
  | f :: rest => f.feature = .position i && enumeratedFrom (i + 1) rest

/-- Whether the record is a tuple. -/
def isTuple (r : Record) : Bool := enumeratedFrom 0 r.fields

/-- The number of fields. -/
def count (r : Record) : Nat := r.fields.length

/-- The place of a feature among the fields. -/
def indexOf? (r : Record) (f : Feature) : Option Nat :=
  Feature.search (r.fields.map Field.feature) f 0 r.count

/-- The value of a feature. -/
def select? (r : Record) (f : Feature) : Option Term := do
  let i ← r.indexOf? f
  let field ← r.fields[i]?
  return field.value

/-- Whether the record has a feature. -/
def has (r : Record) (f : Feature) : Bool := (r.indexOf? f).isSome

/-- The fields of the first record and those of the second that the first does not have. -/
def mergeFields (r s : Record) : List Field :=
  r.fields ++ s.fields.filter fun field => !r.has field.feature

/-- The left-biased union of two records, with a null label. -/
def assign (r s : Record) : Except Fault Record := build .null (mergeFields r s)

/-- Records of one shape have the same label and the same features. -/
def sameShape (a b : Record) : Bool :=
  a.label = b.label && a.fields.map Field.feature == b.fields.map Field.feature

end Record

end Dataflow
