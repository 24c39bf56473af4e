/-
Instruction trees as JSON documents.

An instruction is an object whose member `op` names its kind; constants, operands and patterns are objects
with a single member that names their kind, and the constants `null` and `eof` may also be written as
strings. A label and the other branch of a `case` may be missing or `null`, a record pattern may leave out
its label and openness, and members that a document has in excess are ignored. Wherever a group of named
members is expected, an array of their values in the order of their declaration is accepted too.

A document that stands alone is read as a stream: what cannot start a constant, operand or pattern at all
makes it malformed, and so does a second member, or an item too many in an array. Inside an instruction the
same documents merely have the wrong shape; in exchange, a kind without content may be written with an empty
object as its content, and the kind of an inner instruction also as its number.
-/
import Dataflow.Code.Basic
import Dataflow.Json.Reader
import Dataflow.Number.Decimal.Reading

set_option autoImplicit false

namespace Dataflow

/-! ## Writing -/

namespace Scalar

/-- The document of a constant. -/
def toJson : Scalar → Json
  | .bool b => .obj [("bool", .bool b)]
  | .null => .str "null"
  | .eof => .str "eof"
  | .str s => .obj [("str", .str s)]
  | .num (.int32 n) => .obj [("int32", .int n.toInt)]
  | .num (.int64 n) => .obj [("int64", .int n.toInt)]
  | .num (.flt32 x) => .obj [("flt32", .single x)]
  | .num (.flt64 x) => .obj [("flt64", .double x)]
  | .num (.dec128 d) => .obj [("dec128", .str d.text)]

end Scalar

/-- The document of an operand. -/
def Operand.toJson : Operand → Json
  | .ident x => .obj [("ident", .str x)]
  | .lit s => .obj [("lit", s.toJson)]

/-- The document of an operand that may be missing. -/
def Operand.optionToJson : Option Operand → Json
  | none => .null
  | some a => a.toJson

mutual

/-- The document of a pattern; label and openness are always written. -/
def Pattern.toJson : Pattern → Json
  | .lit s => .obj [("lit", s.toJson)]
  | .ident x => .obj [("ident", .str x)]
  | .record label fields isOpen =>
    .obj [("rec", .obj [("label", label.toJson), ("fields", .arr (Pattern.fieldsToJson fields)),
      ("partial_arity", .bool isOpen)])]

/-- The documents of the fields of a pattern. -/
def Pattern.fieldsToJson : List (Scalar × Pattern) → List Json
  | [] => []
  | (feature, p) :: rest =>
    .obj [("feature", feature.toJson), ("pattern", p.toJson)] :: Pattern.fieldsToJson rest

end

/-- The name of an arithmetic operator. -/
def ArithOp.name : ArithOp → String
  | .add => "add" | .sub => "sub" | .mul => "mul" | .div => "div" | .mod => "mod"

/-- The name of an order relation. -/
def RelOp.name : RelOp → String
  | .lt => "lt" | .le => "le" | .gt => "gt" | .ge => "ge"

/-- A list of identifiers. -/
def identsToJson (xs : List Ident) : Json := .arr (xs.map .str)

/-- A list of operands. -/
def operandsToJson (as : List Operand) : Json := .arr (as.map Operand.toJson)

mutual

/-- The document of an instruction. -/
def Instr.toJson : Instr → Json
  | .skip => .obj [("op", .str "skip")]
  | .seq instrs => .obj [("op", .str "seq"), ("instrs", .arr (Instr.allToJson instrs))]
  | .fresh idents body =>
    .obj [("op", .str "local"), ("idents", identsToJson idents), ("body", body.toJson)]
  | .bind x y => .obj [("op", .str "bind"), ("x", .str x), ("y", y.toJson)]
  | .arith op a b x =>
    .obj [("op", .str "arith"), ("operator", .str op.name), ("a", a.toJson), ("b", b.toJson),
      ("x", .str x)]
  | .negate a x => .obj [("op", .str "negate"), ("a", a.toJson), ("x", .str x)]
  | .not a x => .obj [("op", .str "not"), ("a", a.toJson), ("x", .str x)]
  | .rel op a b x =>
    .obj [("op", .str "rel"), ("operator", .str op.name), ("a", a.toJson), ("b", b.toJson),
      ("x", .str x)]
  | .entails a b x => .obj [("op", .str "entails"), ("a", a.toJson), ("b", b.toJson), ("x", .str x)]
  | .disentails a b x =>
    .obj [("op", .str "disentails"), ("a", a.toJson), ("b", b.toJson), ("x", .str x)]
  | .cond test yes no =>
    .obj [("op", .str "if"), ("cond", test.toJson), ("then", yes.toJson), ("else", no.toJson)]
  | .case arg pattern yes no =>
    .obj [("op", .str "case"), ("arg", arg.toJson), ("pat", pattern.toJson), ("then", yes.toJson),
      ("else", Instr.optionToJson no)]
  | .attempt body caught handler =>
    .obj [("op", .str "try"), ("body", body.toJson), ("catch_ident", .str caught),
      ("handler", handler.toJson)]
  | .throw value => .obj [("op", .str "throw"), ("value", value.toJson)]
  | .apply proc args => .obj [("op", .str "apply"), ("proc", proc.toJson), ("args", operandsToJson args)]
  | .select record feature x =>
    .obj [("op", .str "select"), ("rec", record.toJson), ("feature", feature.toJson), ("x", .str x)]
  | .selectApply record feature args =>
    .obj [("op", .str "select_apply"), ("rec", record.toJson), ("feature", feature.toJson),
      ("args", operandsToJson args)]
  | .createRecord x label fields =>
    .obj [("op", .str "create_rec"), ("x", .str x), ("label", Operand.optionToJson label),
      ("fields", .arr (fields.map fun (feature, value) =>
        .obj [("feature", feature.toJson), ("value", value.toJson)]))]
  | .createTuple x label values =>
    .obj [("op", .str "create_tuple"), ("x", .str x), ("label", Operand.optionToJson label),
      ("values", operandsToJson values)]
  | .createProc x params body =>
    .obj [("op", .str "create_proc"), ("x", .str x),
      ("def", .obj [("params", identsToJson params), ("body", body.toJson)])]
  | .createActor x params body =>
    .obj [("op", .str "create_actor_ctor"), ("x", .str x),
      ("def", .obj [("params", identsToJson params), ("body", body.toJson)])]
  | .getCell cell x => .obj [("op", .str "get_cell"), ("cell", cell.toJson), ("x", .str x)]
  | .setCell cell value => .obj [("op", .str "set_cell"), ("cell", cell.toJson), ("value", value.toJson)]

/-- The documents of a list of instructions. -/
def Instr.allToJson : List Instr → List Json
  | [] => []
  | i :: rest => i.toJson :: Instr.allToJson rest

/-- The document of a branch that may be missing. -/
def Instr.optionToJson : Option Instr → Json
  | none => .null
  | some i => i.toJson

end

/-! ## Reading the parts of a document -/

namespace Json

/-- A string. -/
def asString : Json → Except JsonError String
  | .str s => .ok s
  | _ => .error .mismatched

/-- A truth value. -/
def asBool : Json → Except JsonError Bool
  | .bool b => .ok b
  | _ => .error .mismatched

/-- A natural number below `2^64`. -/
def asNat : Json → Except JsonError Nat
  | .int n => if 0 ≤ n then .ok n.toNat else .error .mismatched
  | _ => .error .mismatched

/-- An array. -/
def asArray : Json → Except JsonError (List Json)
  | .arr items => .ok items
  | _ => .error .mismatched

/-- A list of strings. -/
def asStrings (j : Json) : Except JsonError (List String) := do (← j.asArray).mapM asString

/-- A value that must be there. -/
def required : Option Json → Except JsonError Json
  | some j => .ok j
  | none => .error .mismatched

end Json

/-- Where a document stands. -/
inductive Standing where
  /-- It is read on its own, as a stream. -/
  | alone
  /-- It is part of an instruction. -/
  | inside
  deriving Repr, DecidableEq

namespace Standing

/-- What is wrong with a document that cannot start or end like this. -/
def misfit : Standing → JsonError
  | alone => .malformed
  | inside => .mismatched

/-- Reads the values of the members called `names`, each at most once, or the items of an array in that
order. Items in excess are found after the others have been read. -/
def fields {α : Type} (standing : Standing) (names : List String) (j : Json)
    (read : List (Option Json) → Except JsonError α) : Except JsonError α :=
  match j with
  | .obj members => do
    let values ← names.mapM fun name =>
      match members.filter fun m => m.1 = name with
      | [] => .ok none
      | [m] => .ok (some m.2)
      | _ => .error .mismatched
    read values
  | .arr items => do
    let a ← read (names.zipIdx.map fun (_, i) => items[i]?)
    if items.length ≤ names.length then return a else .error standing.misfit
  | _ => .error .mismatched

/-- Reads a tagged choice: the single member of an object, or a string for a tag without content. -/
def choice {α : Type} (standing : Standing) (j : Json)
    (read : String → Option Json → Except JsonError α) : Except JsonError α :=
  match j with
  | .str tag => read tag none
  | .obj [(tag, content)] => read tag (some content)
  | .obj ((tag, content) :: _) => do
    let _ ← read tag (some content)
    .error standing.misfit
  | _ => .error standing.misfit

/-- Whether the content of a tag says that there is none. -/
def isEmpty (standing : Standing) : Option Json → Bool
  | none | some .null => true
  | some (.obj []) => standing = .inside
  | _ => false

end Standing

/-! ## Constants, operands and patterns -/

namespace Scalar

/-- An integer constant within the bounds of its kind. -/
def boundedInt (least greatest : Int) : Json → Except JsonError Int
  | .int n => if least ≤ n ∧ n ≤ greatest then .ok n else .error .mismatched
  | _ => .error .mismatched

/-- The integer as the nearest double. -/
def intToDouble (n : Int) : Float :=
  if 0 ≤ n then (UInt64.ofNat n.toNat).toFloat else (Int64.ofInt n).toFloat

/-- The integer as the nearest single. -/
def intToSingle (n : Int) : Float32 :=
  if 0 ≤ n then (UInt64.ofNat n.toNat).toFloat32 else (Int64.ofInt n).toFloat32

/-- Any number as a double. -/
def readDouble : Json → Except JsonError Float
  | .int n => .ok (intToDouble n)
  | .double x => .ok x
  | .single x => .ok x.toFloat
  | _ => .error .mismatched

/-- Any number as a single. -/
def readSingle : Json → Except JsonError Float32
  | .int n => .ok (intToSingle n)
  | .double x => .ok x.toFloat32
  | .single x => .ok x
  | _ => .error .mismatched

/-- A decimal from a string or from a number. A float counts as the digits that the kernel writes for it. -/
def readDecimal (j : Json) : Except JsonError Decimal :=
  let decimal? := match j with
    | .str s => Decimal.ofString? s
    | .int n => Decimal.ofParts? (n < 0) n.natAbs 0
    | .double x => Decimal.ofPlain? (kernelLayout.double x).toList
    | .single x => Decimal.ofPlain? (kernelLayout.double x.toFloat).toList
    | _ => none
  decimal?.elim (.error .mismatched) .ok

/-- A constant of the given kind. -/
def ofTagged (standing : Standing) (tag : String) (content : Option Json) : Except JsonError Scalar :=
  match tag, content with
  | "null", content => if standing.isEmpty content then .ok .null else .error .mismatched
  | "eof", content => if standing.isEmpty content then .ok .eof else .error .mismatched
  | "bool", some j => return .bool (← j.asBool)
  | "str", some j => return .str (← j.asString)
  | "int32", some j => do
    let n ← boundedInt Int32.minValue.toInt Int32.maxValue.toInt j
    return .num (.int32 (Int32.ofInt n))
  | "int64", some j => do
    let n ← boundedInt Int64.minValue.toInt Int64.maxValue.toInt j
    return .num (.int64 (Int64.ofInt n))
  | "flt32", some j => return .num (.flt32 (← readSingle j))
  | "flt64", some j => return .num (.flt64 (← readDouble j))
  | "dec128", some j => return .num (.dec128 (← readDecimal j))
  | _, _ => .error .mismatched

/-- Reads a constant. -/
def ofJson (standing : Standing) (j : Json) : Except JsonError Scalar :=
  standing.choice j (ofTagged standing)

end Scalar

namespace Operand

/-- An operand of the given kind. -/
def ofTagged (standing : Standing) (tag : String) (content : Option Json) : Except JsonError Operand :=
  match tag, content with
  | "ident", some j => return .ident (← j.asString)
  | "lit", some j => return .lit (← Scalar.ofJson standing j)
  | _, _ => .error .mismatched

/-- Reads an operand. -/
def ofJson (standing : Standing) (j : Json) : Except JsonError Operand :=
  standing.choice j (ofTagged standing)

/-- Reads a list of operands. -/
def listOfJson (standing : Standing) (j : Json) : Except JsonError (List Operand) := do
  (← j.asArray).mapM (ofJson standing)

/-- Reads an operand that may be missing or `null`. -/
def ofOption : Option Json → Except JsonError (Option Operand)
  | none | some .null => .ok none
  | some j => return some (← ofJson .inside j)

/-- Reads a feature and a value. -/
def pairOfJson (j : Json) : Except JsonError (Operand × Operand) :=
  Standing.inside.fields ["feature", "value"] j fun
    | [feature, value] =>
      return (← ofJson .inside (← Json.required feature), ← ofJson .inside (← Json.required value))
    | _ => .error .mismatched

end Operand

namespace Pattern

/-- Reads the label of a record pattern. -/
def labelOf (standing : Standing) : Option Json → Except JsonError Scalar
  | none => .ok .null
  | some j => Scalar.ofJson standing j

/-- Reads the openness of a record pattern. -/
def openOf : Option Json → Except JsonError Bool
  | none => .ok false
  | some j => j.asBool

/-- Reads a field of a record pattern, its pattern with `read`. -/
def fieldOf (standing : Standing) (read : Json → Except JsonError Pattern) (j : Json) :
    Except JsonError (Scalar × Pattern) :=
  standing.fields ["feature", "pattern"] j fun
    | [feature, pattern] =>
      return (← Scalar.ofJson standing (← Json.required feature), ← read (← Json.required pattern))
    | _ => .error .mismatched

/-- Reads a pattern that nests at most `depth` deep. -/
def ofJsonWithin (standing : Standing) : (depth : Nat) → Json → Except JsonError Pattern
  | 0, _ => .error .mismatched
  | depth + 1, j => standing.choice j fun tag content =>
    match tag, content with
    | "lit", some j => return .lit (← Scalar.ofJson standing j)
    | "ident", some j => return .ident (← j.asString)
    | "rec", some j => standing.fields ["label", "fields", "partial_arity"] j fun
      | [label, fields, isOpen] => do
        let label ← labelOf standing label
        let items ← (← Json.required fields).asArray
        let fields ← items.mapM (fieldOf standing (ofJsonWithin standing depth))
        return .record label fields (← openOf isOpen)
      | _ => .error .mismatched
    | _, _ => .error .mismatched

/-- Reads a pattern. -/
def ofJson (standing : Standing) (j : Json) : Except JsonError Pattern := ofJsonWithin standing (j.nesting + 1) j

end Pattern

/-! ## Instructions -/

/-- Reads an arithmetic operator. -/
def ArithOp.ofJson (j : Json) : Except JsonError ArithOp :=
  Standing.inside.choice j fun tag content =>
    match ArithOp.all.find? fun op => op.name = tag with
    | some op => if Standing.inside.isEmpty content then .ok op else .error .mismatched
    | none => .error .mismatched

/-- Reads an order relation. -/
def RelOp.ofJson (j : Json) : Except JsonError RelOp :=
  Standing.inside.choice j fun tag content =>
    match RelOp.all.find? fun op => op.name = tag with
    | some op => if Standing.inside.isEmpty content then .ok op else .error .mismatched
    | none => .error .mismatched

namespace Instr

/-- The kinds of instructions with the names of their members, in the order of their declaration. -/
def kinds : List (String × List String) := [
  ("skip", []),
  ("seq", ["instrs"]),
  ("local", ["idents", "body"]),
  ("bind", ["x", "y"]),
  ("arith", ["operator", "a", "b", "x"]),
  ("negate", ["a", "x"]),
  ("not", ["a", "x"]),
  ("rel", ["operator", "a", "b", "x"]),
  ("entails", ["a", "b", "x"]),
  ("disentails", ["a", "b", "x"]),
  ("if", ["cond", "then", "else"]),
  ("case", ["arg", "pat", "then", "else"]),
  ("try", ["body", "catch_ident", "handler"]),
  ("throw", ["value"]),
  ("apply", ["proc", "args"]),
  ("select", ["rec", "feature", "x"]),
  ("select_apply", ["rec", "feature", "args"]),
  ("create_rec", ["x", "label", "fields"]),
  ("create_tuple", ["x", "label", "values"]),
  ("create_proc", ["x", "def"]),
  ("create_actor_ctor", ["x", "def"]),
  ("get_cell", ["cell", "x"]),
  ("set_cell", ["cell", "value"])]

/-- The kind that a document names. Inside an instruction the number of a kind names it too. -/
def kindOf (standing : Standing) : Json → Except JsonError (String × List String)
  | .str name =>
    match kinds.lookup name with
    | some members => .ok (name, members)
    | none => .error .mismatched
  | .int n =>
    match standing, kinds[n.toNat]? with
    | .inside, some kind => if 0 ≤ n then .ok kind else .error .mismatched
    | _, _ => .error .mismatched
  | _ => .error .mismatched

/-- The document of the kind of an instruction, and what is left of the document of the instruction. -/
def splitKind : Json → Except JsonError (Json × Json)
  | .obj members =>
    match members.filter fun m => m.1 = "op" with
    | [m] => .ok (m.2, .obj members)
    | _ => .error .mismatched
  | .arr (kind :: items) => .ok (kind, .arr items)
  | _ => .error .mismatched

/-- Reads the parameters and the body of a procedure. -/
def procOf (read : Json → Except JsonError Instr) (j : Json) : Except JsonError (List Ident × Instr) :=
  Standing.inside.fields ["params", "body"] j fun
    | [params, body] => return (← (← Json.required params).asStrings, ← read (← Json.required body))
    | _ => .error .mismatched

/-- Reads a branch that may be missing or `null`. -/
def branchOf (read : Json → Except JsonError Instr) : Option Json → Except JsonError (Option Instr)
  | none | some .null => .ok none
  | some j => return some (← read j)

/-- Reads the members of an instruction of the given kind, its parts with `read`. -/
def ofMembers (read : Json → Except JsonError Instr) (kind : String) (members : List (Option Json)) :
    Except JsonError Instr :=
  let need := Json.required
  let ident := fun (o : Option Json) => do (← need o).asString
  let operand := fun (o : Option Json) => do Operand.ofJson .inside (← need o)
  match kind, members with
  | "skip", _ => .ok .skip
  | "seq", [instrs] => return .seq (← (← (← need instrs).asArray).mapM read)
  | "local", [idents, body] => return .fresh (← (← need idents).asStrings) (← read (← need body))
  | "bind", [x, y] => return .bind (← ident x) (← operand y)
  | "arith", [op, a, b, x] =>
    return .arith (← ArithOp.ofJson (← need op)) (← operand a) (← operand b)
      (← ident x)
  | "rel", [op, a, b, x] =>
    return .rel (← RelOp.ofJson (← need op)) (← operand a) (← operand b)
      (← ident x)
  | "negate", [a, x] => return .negate (← operand a) (← ident x)
  | "not", [a, x] => return .not (← operand a) (← ident x)
  | "entails", [a, b, x] =>
    return .entails (← operand a) (← operand b) (← ident x)
  | "disentails", [a, b, x] =>
    return .disentails (← operand a) (← operand b) (← ident x)
  | "if", [test, yes, no] =>
    return .cond (← operand test) (← read (← need yes)) (← read (← need no))
  | "case", [arg, pattern, yes, no] =>
    return .case (← operand arg) (← Pattern.ofJson .inside (← need pattern)) (← read (← need yes))
      (← branchOf read no)
  | "try", [body, caught, handler] =>
    return .attempt (← read (← need body)) (← ident caught) (← read (← need handler))
  | "throw", [value] => return .throw (← operand value)
  | "apply", [proc, args] => return .apply (← operand proc) (← Operand.listOfJson .inside (← need args))
  | "select", [record, feature, x] =>
    return .select (← operand record) (← operand feature) (← ident x)
  | "select_apply", [record, feature, args] =>
    return .selectApply (← operand record) (← operand feature)
      (← Operand.listOfJson .inside (← need args))
  | "create_rec", [x, label, fields] =>
    return .createRecord (← ident x) (← Operand.ofOption label)
      (← (← (← need fields).asArray).mapM Operand.pairOfJson)
  | "create_tuple", [x, label, values] =>
    return .createTuple (← ident x) (← Operand.ofOption label)
      (← Operand.listOfJson .inside (← need values))
  | "create_proc", [x, proc] => do
    let (params, body) ← procOf read (← need proc)
    return .createProc (← ident x) params body
  | "create_actor_ctor", [x, proc] => do
    let (params, body) ← procOf read (← need proc)
    return .createActor (← ident x) params body
  | "get_cell", [cell, x] => return .getCell (← operand cell) (← ident x)
  | "set_cell", [cell, value] => return .setCell (← operand cell) (← operand value)
  | _, _ => .error .mismatched

/-- Reads an instruction that nests at most `depth` deep. -/
def ofJsonWithin : (depth : Nat) → Standing → Json → Except JsonError Instr
  | 0, _, _ => .error .mismatched
  | depth + 1, standing, j => do
    let (kind, rest) ← splitKind j
    let (name, members) ← kindOf standing kind
    Standing.inside.fields members rest (ofMembers (ofJsonWithin depth .inside) name)

/-- Reads an instruction that stands alone. -/
def ofJson (j : Json) : Except JsonError Instr := ofJsonWithin (j.nesting + 1) .alone j

end Instr

namespace Program

/-- Reads a program; its declarations may be missing. -/
def ofJson (j : Json) : Except JsonError Program :=
  Standing.alone.fields ["locals", "instr"] j fun
    | [locals, instr] => do
      let locals ← match locals with
        | none => pure []
        | some j => j.asStrings
      return ⟨locals, ← Instr.ofJson (← Json.required instr)⟩
    | _ => .error .mismatched

/-- Whether a program has a member of that name. -/
def hasMember (name : String) : Bool := name = "locals" || name = "instr"

/-- Reads a program from its text. Members that are none of a program's are skipped. -/
def parse (text : String) : Except JsonError Program := do
  ofJson (← Json.parseBy { wanted := hasMember } text)

end Program

end Dataflow
