/-
Instruction documents read back.

Reading follows writing member by member. The members of an instruction are named in the order in which their kind
declares them, so one lemma about `Standing.fields` finds all of them at once, whatever other members stand in front
(`Standing.fields_zip`); what is left of each kind is to read its parts. Constants come back as they were, except that a
decimal zero loses its sign: documents give the decimals as text, and that is how texts are read
(`Decimal.ofString?_text`). A double or single that is no number cannot be written at all and leaves `null` in the text,
which is why the theorem is about what a document still says once it is written (`Json.expressed`).
-/
import Dataflow.Code.Document
import Dataflow.Json.Printer
import Dataflow.Proofs.Constants
import Dataflow.Proofs.DecimalText

set_option autoImplicit false

namespace Dataflow

/-! ## What the text of a document says -/

/-- Whether a word stands for a number. -/
def BinaryWord.isFinite : BinaryWord → Bool
  | .finite .. => true
  | _ => false

/-- Whether a double is neither an infinity nor a NaN. -/
def finiteDouble (x : Float) : Bool := (BinaryFormat.double.decode x.toBits.toNat).isFinite

/-- Whether a single is neither an infinity nor a NaN. -/
def finiteSingle (x : Float32) : Bool := (BinaryFormat.single.decode x.toBits.toNat).isFinite

namespace Json

mutual

/-- The document that the text of a document expresses: infinities and NaNs are written as `null`. -/
def expressed : Json → Json
  | .double x => if finiteDouble x then .double x else .null
  | .single x => if finiteSingle x then .single x else .null
  | .arr items => .arr (itemsExpressed items)
  | .obj members => .obj (membersExpressed members)
  | j => j

/-- What the texts of the items express. -/
def itemsExpressed : List Json → List Json
  | [] => []
  | j :: rest => j.expressed :: itemsExpressed rest

/-- What the texts of the members express. -/
def membersExpressed : List (String × Json) → List (String × Json)
  | [] => []
  | (name, j) :: rest => (name, j.expressed) :: membersExpressed rest

end

mutual

/-- A document and what it expresses have the same text. -/
theorem text_expressed (j : Json) : j.expressed.text = j.text := by
  -- only a float can be without a layout
  cases j with
  | double x =>
    rw [expressed]
    split
    · rfl
    · next h =>
      rw [text, text, DecimalLayout.double, DecimalLayout.text]
      rw [finiteDouble] at h
      split
      · rfl
      · rfl
      · next hword => exact absurd (congrArg BinaryWord.isFinite hword) h
  | single x =>
    rw [expressed]
    split
    · rfl
    · next h =>
      rw [text, text, DecimalLayout.single, DecimalLayout.text]
      rw [finiteSingle] at h
      split
      · rfl
      · rfl
      · next hword => exact absurd (congrArg BinaryWord.isFinite hword) h
  | arr items => rw [expressed, text, text, itemTexts_expressed]
  | obj members => rw [expressed, text, text, memberTexts_expressed]
  | null | bool | int | str => rfl

theorem itemTexts_expressed (items : List Json) : itemTexts (itemsExpressed items) = itemTexts items := by
  cases items with
  | nil => rfl
  | cons j rest => rw [itemsExpressed, itemTexts, itemTexts, text_expressed j, itemTexts_expressed rest]

theorem memberTexts_expressed (members : List (String × Json)) :
    memberTexts (membersExpressed members) = memberTexts members := by
  cases members with
  | nil => rfl
  | cons m rest =>
    obtain ⟨name, j⟩ := m
    rw [membersExpressed, memberTexts, memberTexts, text_expressed j, memberTexts_expressed rest]

end

theorem itemsExpressed_eq_self {items : List Json} (h : ∀ j ∈ items, j.expressed = j) : itemsExpressed items = items := by
  induction items with
  | nil => rfl
  | cons j rest ih =>
    obtain ⟨hj, hrest⟩ := List.forall_mem_cons.mp h
    rw [itemsExpressed, hj, ih hrest]

end Json

/-! ## Documents without infinities and NaNs -/

/-- Whether a constant is no infinity and no NaN. -/
def Scalar.isFinite : Scalar → Bool
  | .num (.flt32 x) => finiteSingle x
  | .num (.flt64 x) => finiteDouble x
  | _ => true

/-- The constant without the sign that a decimal zero may have. -/
def Scalar.unsigned : Scalar → Scalar
  | .num (.dec128 d) => .num (.dec128 d.unsigned)
  | s => s

/-- The document of a scalar can be written as it is. Only a float that is not finite would be written differently. -/
theorem Scalar.expressed_toJson {s : Scalar} (h : s.isFinite = true) : s.toJson.expressed = s.toJson := by
  cases s with
  | bool | null | eof | str => rfl
  | num n =>
    cases n with
    | int32 | int64 | dec128 => rfl
    | flt32 x =>
      have hx : (Json.single x).expressed = .single x := if_pos h
      rw [toJson, Json.expressed, Json.membersExpressed, hx, Json.membersExpressed]
    | flt64 x =>
      have hx : (Json.double x).expressed = .double x := if_pos h
      rw [toJson, Json.expressed, Json.membersExpressed, hx, Json.membersExpressed]

theorem Operand.expressed_toJson {a : Operand} (h : ∀ s ∈ a.constants, s.isFinite = true) :
    a.toJson.expressed = a.toJson := by
  cases a with
  | ident => rfl
  | lit s =>
    rw [toJson, Json.expressed, Json.membersExpressed, Scalar.expressed_toJson (h s List.mem_cons_self),
      Json.membersExpressed]

theorem Operand.expressed_optionToJson {label : Option Operand}
    (h : ∀ s ∈ label.toList.flatMap constants, s.isFinite = true) :
    (optionToJson label).expressed = optionToJson label := by
  cases label with
  | none => rfl
  | some a => exact expressed_toJson fun s hs => h s (List.mem_flatMap.mpr ⟨a, List.mem_singleton_self a, hs⟩)

theorem expressed_identsToJson (xs : List Ident) : (identsToJson xs).expressed = identsToJson xs := by
  rw [identsToJson, Json.expressed, Json.itemsExpressed_eq_self]
  intro j hj
  obtain ⟨x, -, rfl⟩ := List.mem_map.mp hj
  rfl

theorem expressed_operandsToJson {as : List Operand} (h : ∀ s ∈ as.flatMap Operand.constants, s.isFinite = true) :
    (operandsToJson as).expressed = operandsToJson as := by
  rw [operandsToJson, Json.expressed, Json.itemsExpressed_eq_self]
  intro j hj
  obtain ⟨a, ha, rfl⟩ := List.mem_map.mp hj
  exact Operand.expressed_toJson fun s hs => h s (List.mem_flatMap.mpr ⟨a, ha, hs⟩)

mutual

/-- The document of a pattern can be written as it is if its constants can. -/
theorem Pattern.expressed_toJson {p : Pattern} (h : ∀ s ∈ p.constants, s.isFinite = true) :
    p.toJson.expressed = p.toJson := by
  cases p with
  | lit s =>
    have hs := Scalar.expressed_toJson (h s List.mem_cons_self)
    simp only [toJson, Json.expressed, Json.membersExpressed, hs]
  | ident => rfl
  | record label fields isOpen =>
    obtain ⟨hlabel, hfields⟩ := List.forall_mem_cons.mp h
    simp only [toJson, Json.expressed, Json.membersExpressed, Scalar.expressed_toJson hlabel,
      itemsExpressed_fieldsToJson hfields]

/-- The documents of the fields of a pattern can be written as they are if the constants can. -/
theorem Pattern.itemsExpressed_fieldsToJson {fields : List (Scalar × Pattern)}
    (h : ∀ s ∈ fieldConstants fields, s.isFinite = true) :
    Json.itemsExpressed (fieldsToJson fields) = fieldsToJson fields := by
  cases fields with
  | nil => rfl
  | cons field rest =>
    obtain ⟨feature, p⟩ := field
    obtain ⟨hfeature, h⟩ := List.forall_mem_cons.mp h
    obtain ⟨hp, hrest⟩ := List.forall_mem_append.mp h
    simp only [fieldsToJson, Json.itemsExpressed, Json.expressed, Json.membersExpressed,
      Scalar.expressed_toJson hfeature, expressed_toJson hp, itemsExpressed_fieldsToJson hrest]

end

mutual

/-- Without infinities and NaNs among its constants the document of an instruction is written as it is. -/
theorem Instr.expressed_toJson {i : Instr} (h : ∀ s ∈ i.constants, s.isFinite = true) :
    i.toJson.expressed = i.toJson := by
  -- each kind of instruction by its operands and its parts
  cases i with
  | skip => rfl
  | seq instrs => simp only [toJson, Json.expressed, Json.membersExpressed, itemsExpressed_allToJson h]
  | fresh _ body | createProc _ _ body | createActor _ _ body =>
    have hbody := expressed_toJson (i := body) h
    simp only [toJson, Json.expressed, Json.membersExpressed, expressed_identsToJson, hbody]
  | bind _ a | negate a _ | not a _ | throw a | getCell a _ =>
    simp only [toJson, Json.expressed, Json.membersExpressed, Operand.expressed_toJson h]
  | arith _ a b _ | rel _ a b _ | entails a b _ | disentails a b _ | select a b _ | setCell a b =>
    obtain ⟨ha, hb⟩ := List.forall_mem_append.mp h
    simp only [toJson, Json.expressed, Json.membersExpressed, Operand.expressed_toJson ha, Operand.expressed_toJson hb]
  | cond test yes no =>
    obtain ⟨h, hno⟩ := List.forall_mem_append.mp h
    obtain ⟨htest, hyes⟩ := List.forall_mem_append.mp h
    simp only [toJson, Json.expressed, Json.membersExpressed, Operand.expressed_toJson htest, expressed_toJson hyes,
      expressed_toJson hno]
  | case arg pattern yes no =>
    obtain ⟨h, hno⟩ := List.forall_mem_append.mp h
    obtain ⟨h, hyes⟩ := List.forall_mem_append.mp h
    obtain ⟨harg, hpattern⟩ := List.forall_mem_append.mp h
    simp only [toJson, Json.expressed, Json.membersExpressed, Operand.expressed_toJson harg,
      Pattern.expressed_toJson hpattern, expressed_toJson hyes, expressed_optionToJson hno]
  | attempt body _ handler =>
    obtain ⟨hbody, hhandler⟩ := List.forall_mem_append.mp h
    simp only [toJson, Json.expressed, Json.membersExpressed, expressed_toJson hbody, expressed_toJson hhandler]
  | apply proc args =>
    obtain ⟨hproc, hargs⟩ := List.forall_mem_append.mp h
    simp only [toJson, Json.expressed, Json.membersExpressed, Operand.expressed_toJson hproc,
      expressed_operandsToJson hargs]
  | selectApply record feature args =>
    obtain ⟨h, hargs⟩ := List.forall_mem_append.mp h
    obtain ⟨hrecord, hfeature⟩ := List.forall_mem_append.mp h
    simp only [toJson, Json.expressed, Json.membersExpressed, Operand.expressed_toJson hrecord,
      Operand.expressed_toJson hfeature, expressed_operandsToJson hargs]
  | createRecord _ label fields =>
    obtain ⟨hlabel, hfields⟩ := List.forall_mem_append.mp h
    -- the fields are pairs of operands
    have hpairs : Json.itemsExpressed (fields.map fun m => .obj [("feature", m.1.toJson), ("value", m.2.toJson)]) =
        fields.map fun m => .obj [("feature", m.1.toJson), ("value", m.2.toJson)] := by
      refine Json.itemsExpressed_eq_self fun j hj => ?_
      obtain ⟨m, hm, rfl⟩ := List.mem_map.mp hj
      have hm : ∀ s ∈ m.1.constants ++ m.2.constants, s.isFinite = true := fun s hs =>
        hfields s (List.mem_flatMap.mpr ⟨m, hm, hs⟩)
      obtain ⟨hfeature, hvalue⟩ := List.forall_mem_append.mp hm
      simp only [Json.expressed, Json.membersExpressed, Operand.expressed_toJson hfeature,
        Operand.expressed_toJson hvalue]
    simp only [toJson, Json.expressed, Json.membersExpressed, Operand.expressed_optionToJson hlabel, hpairs]
  | createTuple _ label values =>
    obtain ⟨hlabel, hvalues⟩ := List.forall_mem_append.mp h
    simp only [toJson, Json.expressed, Json.membersExpressed, Operand.expressed_optionToJson hlabel,
      expressed_operandsToJson hvalues]

theorem Instr.itemsExpressed_allToJson {is : List Instr} (h : ∀ s ∈ allConstants is, s.isFinite = true) :
    Json.itemsExpressed (allToJson is) = allToJson is := by
  cases is with
  | nil => rfl
  | cons i rest =>
    obtain ⟨hi, hrest⟩ := List.forall_mem_append.mp h
    rw [allToJson, Json.itemsExpressed, expressed_toJson hi, itemsExpressed_allToJson hrest]

theorem Instr.expressed_optionToJson {no : Option Instr} (h : ∀ s ∈ otherConstants no, s.isFinite = true) :
    (optionToJson no).expressed = optionToJson no := by
  cases no with
  | none => rfl
  | some i => exact expressed_toJson h

end

/-! ## Reading what was written -/

open Scalar (unsigned)

theorem asStrings_identsToJson (xs : List Ident) : (identsToJson xs).asStrings = .ok xs := by
  show (xs.map Json.str).mapM Json.asString = .ok xs
  induction xs with
  | nil => rfl
  | cons x xs ih => 
    rw [List.map_cons, List.mapM_cons, ih]
    rfl

/-- **A scalar is read back** from its document, wherever it stands, but for the sign of a zero. -/
theorem Scalar.ofJson_toJson (standing : Standing) (s : Scalar) : ofJson standing s.toJson = .ok s.unsigned := by
  cases s with
  | bool | null | eof | str => rfl
  | num n =>
    cases n with
    | int32 n =>
      -- an integer is within the bounds of its kind, and comes back from the exact one
      have hn : boundedInt Int32.minValue.toInt Int32.maxValue.toInt (.int n.toInt) = .ok n.toInt :=
        if_pos ⟨Int32.minValue_le_toInt n, Int32.toInt_le n⟩
      show (do return Scalar.num (.int32 (Int32.ofInt (← boundedInt _ _ (.int n.toInt))))) = _
      rw [hn]
      exact congrArg (fun n => Except.ok (Scalar.num (.int32 n))) (Int32.ofInt_toInt n)
    | int64 n =>
      have hn : boundedInt Int64.minValue.toInt Int64.maxValue.toInt (.int n.toInt) = .ok n.toInt :=
        if_pos ⟨Int64.minValue_le_toInt n, Int64.toInt_le n⟩
      show (do return Scalar.num (.int64 (Int64.ofInt (← boundedInt _ _ (.int n.toInt))))) = _
      rw [hn]
      exact congrArg (fun n => Except.ok (Scalar.num (.int64 n))) (Int64.ofInt_toInt n)
    | flt32 | flt64 => rfl
    | dec128 d =>
      -- a decimal is written as text, which is read with its scale
      show (do return Scalar.num (.dec128 (← readDecimal (.str d.text)))) = _
      rw [readDecimal]
      show (do return Scalar.num (.dec128 (← (Decimal.ofString? d.text).elim (Except.error JsonError.mismatched) Except.ok))) = _
      rw [Decimal.ofString?_text]
      rfl

theorem Operand.ofJson_toJson (standing : Standing) (a : Operand) :
    ofJson standing a.toJson = .ok (a.mapConstants unsigned) := by
  cases a with
  | ident => rfl
  | lit s =>
    show (do return Operand.lit (← Scalar.ofJson standing s.toJson)) = _
    rw [Scalar.ofJson_toJson]
    rfl

theorem Operand.listOfJson_operandsToJson (standing : Standing) (as : List Operand) :
    listOfJson standing (operandsToJson as) = .ok (as.map (mapConstants unsigned)) := by
  show (as.map toJson).mapM (ofJson standing) = _
  induction as with
  | nil => rfl
  | cons a as ih =>
    rw [List.map_cons, List.mapM_cons, ofJson_toJson, ih]
    rfl

theorem Operand.ofOption_optionToJson (label : Option Operand) :
    ofOption (some (optionToJson label)) = .ok (label.map (mapConstants unsigned)) := by
  cases label with
  | none => rfl
  | some a =>
    have hread : ofOption (some a.toJson) = (do return some (← ofJson .inside a.toJson)) := by
      cases a <;> rfl
    rw [optionToJson, hread, ofJson_toJson]
    rfl

theorem Operand.pairOfJson_toJson (m : Operand × Operand) :
    pairOfJson (.obj [("feature", m.1.toJson), ("value", m.2.toJson)]) =
      .ok (m.1.mapConstants unsigned, m.2.mapConstants unsigned) := by
  show (do return (← ofJson .inside m.1.toJson, ← ofJson .inside m.2.toJson)) = _
  rw [ofJson_toJson, ofJson_toJson]
  rfl

theorem Operand.mapM_pairOfJson (fields : List (Operand × Operand)) :
    (fields.map fun m => Json.obj [("feature", m.1.toJson), ("value", m.2.toJson)]).mapM pairOfJson =
      .ok (fields.map fun m => (m.1.mapConstants unsigned, m.2.mapConstants unsigned)) := by
  induction fields with
  | nil => rfl
  | cons m fields ih =>
    rw [List.map_cons, List.mapM_cons, pairOfJson_toJson, ih]
    rfl

mutual

/-- A pattern is read back from its document if the reader goes deep enough. -/
theorem Pattern.ofJsonWithin_toJson (standing : Standing) (p : Pattern) {depth : Nat} (h : p.toJson.nesting < depth) :
    ofJsonWithin standing depth p.toJson = .ok (p.mapConstants unsigned) := by
  obtain _ | depth := depth
  · exact absurd h (Nat.not_lt_zero _)
  cases p with
  | lit s =>
    show (do return Pattern.lit (← Scalar.ofJson standing s.toJson)) = _
    rw [Scalar.ofJson_toJson]
    rfl
  | ident => rfl
  | record label fields isOpen =>
    -- the fields are one level further down
    have hfields : Json.itemsNesting (fieldsToJson fields) ≤ depth := by
      simp only [toJson, Json.nesting, Json.membersNesting] at h
      omega
    show (do
      let label ← Scalar.ofJson standing label.toJson
      let fields ← (fieldsToJson fields).mapM (fieldOf standing (ofJsonWithin standing depth))
      return Pattern.record label fields isOpen) = _
    rw [Scalar.ofJson_toJson, mapM_fieldsToJson standing fields hfields]
    rfl

/-- The fields of a pattern are read back from their documents, one after the other. -/
theorem Pattern.mapM_fieldsToJson (standing : Standing) (fields : List (Scalar × Pattern)) {depth : Nat}
    (h : Json.itemsNesting (fieldsToJson fields) ≤ depth) :
    (fieldsToJson fields).mapM (fieldOf standing (ofJsonWithin standing depth)) =
      .ok (mapFieldConstants unsigned fields) := by
  cases fields with
  | nil => rfl
  | cons field rest =>
    obtain ⟨feature, p⟩ := field
    simp only [fieldsToJson, Json.itemsNesting, Json.nesting, Json.membersNesting] at h
    have hfield : fieldOf standing (ofJsonWithin standing depth)
        (.obj [("feature", feature.toJson), ("pattern", p.toJson)]) =
          .ok (feature.unsigned, p.mapConstants unsigned) := by
      show (do return (← Scalar.ofJson standing feature.toJson, ← ofJsonWithin standing depth p.toJson)) = _
      rw [Scalar.ofJson_toJson, ofJsonWithin_toJson standing p (by omega)]
      rfl
    rw [fieldsToJson, List.mapM_cons, hfield, mapM_fieldsToJson standing rest (by omega)]
    rfl

end

theorem Pattern.ofJson_toJson (standing : Standing) (p : Pattern) :
    ofJson standing p.toJson = .ok (p.mapConstants unsigned) :=
  ofJsonWithin_toJson standing p (Nat.lt_succ_self _)

theorem ArithOp.ofJson_name (op : ArithOp) : ArithOp.ofJson (.str op.name) = .ok op := by
  cases op <;> rfl

theorem RelOp.ofJson_name (op : RelOp) : RelOp.ofJson (.str op.name) = .ok op := by
  cases op <;> rfl

namespace Instr

theorem procOf_document {read : Json → Except JsonError Instr} {body i : Instr} (params : List Ident)
    (hbody : read body.toJson = .ok i) :
    procOf read (.obj [("params", identsToJson params), ("body", body.toJson)]) = .ok (params, i) := by
  show (do return (← (identsToJson params).asStrings, ← read body.toJson)) = _
  rw [asStrings_identsToJson, hbody]
  rfl

mutual

/-- An instruction is read from its document, wherever that stands and with whatever depth is allowed beyond its own. -/
theorem ofJsonWithin_toJson (standing : Standing) (i : Instr) {depth : Nat} (h : i.toJson.nesting < depth) :
    ofJsonWithin depth standing i.toJson = .ok (i.mapConstants unsigned) := by
  obtain _ | depth := depth
  · exact absurd h (Nat.not_lt_zero _)
  cases i with
  | skip => rfl
  | seq instrs =>
    have hinstrs : Json.itemsNesting (allToJson instrs) < depth := by
      -- what stands inside has a document of less nesting
      simp only [toJson, Json.nesting, Json.membersNesting] at h
      omega
    show (do return Instr.seq (← (allToJson instrs).mapM (ofJsonWithin depth .inside))) = _
    rw [mapM_allToJson instrs hinstrs]
    rfl
  | fresh idents body =>
    have hbody : body.toJson.nesting < depth := by
      simp only [toJson, Json.nesting, Json.membersNesting] at h
      omega
    show (do return Instr.fresh (← (identsToJson idents).asStrings) (← ofJsonWithin depth .inside body.toJson)) = _
    rw [asStrings_identsToJson, ofJsonWithin_toJson .inside body hbody]
    rfl
  | bind x y =>
    show (do return Instr.bind x (← Operand.ofJson .inside y.toJson)) = _
    rw [Operand.ofJson_toJson]
    rfl
  | arith op a b x =>
    show (do
      return Instr.arith (← ArithOp.ofJson (.str op.name)) (← Operand.ofJson .inside a.toJson)
        (← Operand.ofJson .inside b.toJson) x) = _
    rw [ArithOp.ofJson_name, Operand.ofJson_toJson, Operand.ofJson_toJson]
    rfl
  | negate a x =>
    show (do return Instr.negate (← Operand.ofJson .inside a.toJson) x) = _
    rw [Operand.ofJson_toJson]
    rfl
  | not a x =>
    show (do return Instr.not (← Operand.ofJson .inside a.toJson) x) = _
    rw [Operand.ofJson_toJson]
    rfl
  | rel op a b x =>
    show (do
      return Instr.rel (← RelOp.ofJson (.str op.name)) (← Operand.ofJson .inside a.toJson)
        (← Operand.ofJson .inside b.toJson) x) = _
    rw [RelOp.ofJson_name, Operand.ofJson_toJson, Operand.ofJson_toJson]
    rfl
  | entails a b x =>
    show (do return Instr.entails (← Operand.ofJson .inside a.toJson) (← Operand.ofJson .inside b.toJson) x) = _
    rw [Operand.ofJson_toJson, Operand.ofJson_toJson]
    rfl
  | disentails a b x =>
    show (do return Instr.disentails (← Operand.ofJson .inside a.toJson) (← Operand.ofJson .inside b.toJson) x) = _
    rw [Operand.ofJson_toJson, Operand.ofJson_toJson]
    rfl
  | cond test yes no =>
    simp only [toJson, Json.nesting, Json.membersNesting] at h
    show (do
      return Instr.cond (← Operand.ofJson .inside test.toJson) (← ofJsonWithin depth .inside yes.toJson)
        (← ofJsonWithin depth .inside no.toJson)) = _
    rw [Operand.ofJson_toJson, ofJsonWithin_toJson .inside yes (by omega), ofJsonWithin_toJson .inside no (by omega)]
    rfl
  | case arg pattern yes no =>
    simp only [toJson, Json.nesting, Json.membersNesting] at h
    show (do
      return Instr.case (← Operand.ofJson .inside arg.toJson) (← Pattern.ofJson .inside pattern.toJson)
        (← ofJsonWithin depth .inside yes.toJson) (← branchOf (ofJsonWithin depth .inside) (some (optionToJson no)))) = _
    rw [Operand.ofJson_toJson, Pattern.ofJson_toJson, ofJsonWithin_toJson .inside yes (by omega),
      branchOf_optionToJson no (by omega)]
    rfl
  | attempt body caught handler =>
    simp only [toJson, Json.nesting, Json.membersNesting] at h
    show (do
      return Instr.attempt (← ofJsonWithin depth .inside body.toJson) caught
        (← ofJsonWithin depth .inside handler.toJson)) = _
    rw [ofJsonWithin_toJson .inside body (by omega), ofJsonWithin_toJson .inside handler (by omega)]
    rfl
  | throw value =>
    show (do return Instr.throw (← Operand.ofJson .inside value.toJson)) = _
    rw [Operand.ofJson_toJson]
    rfl
  | apply proc args =>
    show (do
      return Instr.apply (← Operand.ofJson .inside proc.toJson)
        (← Operand.listOfJson .inside (operandsToJson args))) = _
    rw [Operand.ofJson_toJson, Operand.listOfJson_operandsToJson]
    rfl
  | select record feature x =>
    show (do
      return Instr.select (← Operand.ofJson .inside record.toJson) (← Operand.ofJson .inside feature.toJson)
        x) = _
    rw [Operand.ofJson_toJson, Operand.ofJson_toJson]
    rfl
  | selectApply record feature args =>
    show (do
      return Instr.selectApply (← Operand.ofJson .inside record.toJson)
        (← Operand.ofJson .inside feature.toJson) (← Operand.listOfJson .inside (operandsToJson args))) = _
    rw [Operand.ofJson_toJson, Operand.ofJson_toJson, Operand.listOfJson_operandsToJson]
    rfl
  | createRecord x label fields =>
    show (do
      return Instr.createRecord x (← Operand.ofOption (some (Operand.optionToJson label)))
        (← (fields.map fun (m : Operand × Operand) => Json.obj [("feature", m.1.toJson), ("value", m.2.toJson)]).mapM
          Operand.pairOfJson)) = _
    rw [Operand.ofOption_optionToJson, Operand.mapM_pairOfJson]
    rfl
  | createTuple x label values =>
    show (do
      return Instr.createTuple x (← Operand.ofOption (some (Operand.optionToJson label)))
        (← Operand.listOfJson .inside (operandsToJson values))) = _
    rw [Operand.ofOption_optionToJson, Operand.listOfJson_operandsToJson]
    rfl
  | createProc x params body =>
    -- a body is read with its parameters, in one document
    simp only [toJson, Json.nesting, Json.membersNesting] at h
    have hbody := ofJsonWithin_toJson .inside body (show body.toJson.nesting < depth by omega)
    show (do
      let (params, body) ← procOf (ofJsonWithin depth .inside)
        (.obj [("params", identsToJson params), ("body", body.toJson)])
      return Instr.createProc x params body) = _
    rw [procOf_document params hbody]
    rfl
  | createActor x params body =>
    simp only [toJson, Json.nesting, Json.membersNesting] at h
    have hbody := ofJsonWithin_toJson .inside body (show body.toJson.nesting < depth by omega)
    show (do
      let (params, body) ← procOf (ofJsonWithin depth .inside)
        (.obj [("params", identsToJson params), ("body", body.toJson)])
      return Instr.createActor x params body) = _
    rw [procOf_document params hbody]
    rfl
  | getCell cell x =>
    show (do return Instr.getCell (← Operand.ofJson .inside cell.toJson) x) = _
    rw [Operand.ofJson_toJson]
    rfl
  | setCell cell value =>
    show (do return Instr.setCell (← Operand.ofJson .inside cell.toJson) (← Operand.ofJson .inside value.toJson)) = _
    rw [Operand.ofJson_toJson, Operand.ofJson_toJson]
    rfl

theorem mapM_allToJson (is : List Instr) {depth : Nat} (h : Json.itemsNesting (allToJson is) < depth) :
    (allToJson is).mapM (ofJsonWithin depth .inside) = .ok (mapAllConstants unsigned is) := by
  cases is with
  | nil => rfl
  | cons i rest =>
    simp only [allToJson, Json.itemsNesting] at h
    rw [allToJson, List.mapM_cons, ofJsonWithin_toJson .inside i (by omega), mapM_allToJson rest (by omega)]
    rfl

/-- The other branch of an instruction is read back, and so is its absence. -/
theorem branchOf_optionToJson (no : Option Instr) {depth : Nat} (h : (optionToJson no).nesting < depth) :
    branchOf (ofJsonWithin depth .inside) (some (optionToJson no)) = .ok (mapOtherConstants unsigned no) := by
  cases no with
  | none => rfl
  | some i =>
    -- no instruction is written as null, which stands for a branch that is missing
    have hread : branchOf (ofJsonWithin depth .inside) (some i.toJson) =
        (do return some (← ofJsonWithin depth .inside i.toJson)) := by
      cases i <;> rfl
    rw [optionToJson, hread, ofJsonWithin_toJson .inside i h]
    rfl

end

/-! ## The round trip -/

/-- No constant is an infinity or a NaN. -/
def Finite (i : Instr) : Prop := ∀ s ∈ i.constants, s.isFinite = true

/-- The texts of the decimals among the constants are read as these decimals. -/
def DecimalsRead (i : Instr) : Prop := ∀ d, .num (.dec128 d) ∈ i.constants → Decimal.ofString? d.text = some d

/-- How `i'` is related to `i` if it was read from its document. -/
structure ReadBack (i i' : Instr) : Prop where
  /-- At most the signs of decimal zeros are lost. -/
  eq : i' = i.mapConstants unsigned
  /-- The procedures have the captures that they had. -/
  captures : i'.procs.map ProcDef.captures = i.procs.map ProcDef.captures
  /-- Nothing is lost where decimals are read from their texts as they were. -/
  exact : i.DecimalsRead → i' = i

/-- If the decimals are read back as they are, so is the instruction: only decimals have a sign that might be lost. -/
theorem DecimalsRead.mapConstants_unsigned {i : Instr} (h : i.DecimalsRead) : i.mapConstants unsigned = i := by
  refine mapConstants_eq_self fun s hs => ?_
  cases s with
  | bool | null | eof | str => rfl
  | num n =>
    cases n with
    | int32 | int64 | flt32 | flt64 => rfl
    | dec128 d =>
      have hd := (Decimal.ofString?_text d).symm.trans (h d hs)
      exact congrArg (fun d => Scalar.num (.dec128 d)) (Option.some.inj hd)

/-- An instruction is read back from what the text of its document says. -/
theorem readBack_of_finite {i : Instr} (h : i.Finite) : ∃ i', ofJson i.toJson.expressed = .ok i' ∧ i.ReadBack i' := by
  rw [expressed_toJson h]
  exact ⟨_, ofJsonWithin_toJson .alone i (Nat.lt_succ_self _), rfl, i.captures_procs_mapConstants,
    DecimalsRead.mapConstants_unsigned⟩

/-- **Documents of instructions round-trip.** An instruction without infinities and NaNs is read back from its document;
and what has been read from any document at all is read again from the document that it is written as. -/
theorem documents_round_trip :
    (∀ i : Instr, i.Finite → ∃ i', ofJson i.toJson.expressed = .ok i' ∧ i.ReadBack i') ∧
    ∀ (j : Json) (i : Instr), ofJson j = .ok i → i.Finite →
      ∃ i', (do ofJson (← ofJson j).toJson.expressed) = .ok i' ∧ i.ReadBack i' ∧
        (i.DecimalsRead → (do ofJson (← ofJson j).toJson.expressed) = ofJson j) := by
  refine ⟨fun i => readBack_of_finite, fun j i hj hi => ?_⟩
  obtain ⟨i', hread, hback⟩ := readBack_of_finite hi
  have hagain : (do ofJson (← ofJson j).toJson.expressed) = Except.ok i' := by
    rw [hj]
    exact hread
  refine ⟨i', hagain, hback, fun hdecimals => ?_⟩
  rw [hagain, hj, hback.exact hdecimals]

/-- A procedure with a decimal, whose captures are not written, and a document of a `case` that leaves out what it may
leave out and has a member in excess. -/
theorem documents_round_trip_example :
    let i : Instr := .createProc "p" ["x"] (.arith .mul (.ident "x")
      (.lit (.num (.dec128 ⟨true, 150, 2, by decide, by decide⟩))) "total")
    let j : Json := .obj [("pat", .obj [("rec", .obj [("fields", .arr [])])]), ("op", .str "case"), ("since", .int 7),
      ("arg", .obj [("lit", .obj [("null", .null)])]), ("then", .obj [("op", .str "skip")])]
    let k : Instr := .case (.lit .null) (.record .null [] false) .skip none
    ofJson i.toJson.expressed = .ok i ∧ i.procs.map ProcDef.captures = [["total"]] ∧
      ofJson j = .ok k ∧ (do ofJson (← ofJson j).toJson.expressed) = Except.ok k := by
  -- a procedure with a decimal in it, and a document with a member that nobody asks for
  intro i j k
  have hi : i.Finite := by
    intro s hs
    obtain rfl := List.mem_singleton.mp hs
    rfl
  have hdecimals : i.DecimalsRead := by
    intro d hd
    cases List.mem_singleton.mp hd
    rfl
  have hj : ofJson j = .ok k := rfl
  have hk : k.Finite := by
    intro s hs
    obtain rfl : s = .null := by
      simpa [k, constants, Operand.constants, Pattern.constants, Pattern.fieldConstants, otherConstants] using hs
    rfl
  have hkDecimals : k.DecimalsRead := by
    intro d hd
    simp [k, constants, Operand.constants, Pattern.constants, Pattern.fieldConstants, otherConstants] at hd
  obtain ⟨i', hread, hback⟩ := documents_round_trip.1 i hi
  obtain ⟨-, -, -, hagain⟩ := documents_round_trip.2 j k hj hk
  rw [hback.exact hdecimals] at hread
  exact ⟨hread, rfl, hj, (hagain hkDecimals).trans hj⟩

end Instr

end Dataflow
