/-
The constants of instructions.

An instruction is a shape with constants in it: in its operands, in its patterns and in the instructions inside.
`constants` lists them and `mapConstants` puts others in their places. A map that leaves each of them as it is leaves the
instruction as it is, and no map of constants changes which identifiers an instruction takes from around it: the captures
of a procedure depend on the shape alone.
-/
import Mathlib.Data.List.Basic
import Dataflow.Code.Scope

set_option autoImplicit false

namespace Dataflow

/-! ## Constants of instructions -/

/-- The constants of an operand. -/
def Operand.constants : Operand → List Scalar
  | .ident _ => []
  | .lit s => [s]

/-- The operand with `f` applied to its constants. -/
def Operand.mapConstants (f : Scalar → Scalar) : Operand → Operand
  | .ident x => .ident x
  | .lit s => .lit (f s)

mutual

/-- The constants of a pattern. -/
def Pattern.constants : Pattern → List Scalar
  | .lit s => [s]
  | .ident _ => []
  | .record label fields _ => label :: Pattern.fieldConstants fields

/-- The constants of the fields of a pattern. -/
def Pattern.fieldConstants : List (Scalar × Pattern) → List Scalar
  | [] => []
  | (feature, p) :: rest => feature :: p.constants ++ Pattern.fieldConstants rest

end

mutual

/-- The pattern with `f` applied to its constants. -/
def Pattern.mapConstants (f : Scalar → Scalar) : Pattern → Pattern
  | .lit s => .lit (f s)
  | .ident x => .ident x
  | .record label fields isOpen => .record (f label) (Pattern.mapFieldConstants f fields) isOpen

/-- The fields of a pattern with `f` applied to their constants. -/
def Pattern.mapFieldConstants (f : Scalar → Scalar) : List (Scalar × Pattern) → List (Scalar × Pattern)
  | [] => []
  | (feature, p) :: rest => (f feature, p.mapConstants f) :: Pattern.mapFieldConstants f rest

end

mutual

/-- The constants that an instruction names, in its patterns too. -/
def Instr.constants : Instr → List Scalar
  | .skip => []
  | .seq instrs => Instr.allConstants instrs
  | .fresh _ body => body.constants
  | .bind _ y => y.constants
  | .arith _ a b _ | .rel _ a b _ | .entails a b _ | .disentails a b _ => a.constants ++ b.constants
  | .negate a _ | .not a _ => a.constants
  | .cond test yes no => test.constants ++ yes.constants ++ no.constants
  | .case arg pattern yes no => arg.constants ++ pattern.constants ++ yes.constants ++ Instr.otherConstants no
  | .attempt body _ handler => body.constants ++ handler.constants
  | .throw value => value.constants
  | .apply proc args => proc.constants ++ args.flatMap Operand.constants
  | .select record feature _ => record.constants ++ feature.constants
  | .selectApply record feature args => record.constants ++ feature.constants ++ args.flatMap Operand.constants
  | .createRecord _ label fields =>
    label.toList.flatMap Operand.constants ++ fields.flatMap fun (feature, value) => feature.constants ++ value.constants
  | .createTuple _ label values => label.toList.flatMap Operand.constants ++ values.flatMap Operand.constants
  | .createProc _ _ body | .createActor _ _ body => body.constants
  | .getCell cell _ => cell.constants
  | .setCell cell value => cell.constants ++ value.constants

/-- The constants of a list of instructions. -/
def Instr.allConstants : List Instr → List Scalar
  | [] => []
  | i :: rest => i.constants ++ Instr.allConstants rest

/-- The constants of a branch that may be missing. -/
def Instr.otherConstants : Option Instr → List Scalar
  | none => []
  | some i => i.constants

end

mutual

/-- The instruction with `f` applied to its constants. -/
def Instr.mapConstants (f : Scalar → Scalar) : Instr → Instr
  | .skip => .skip
  | .seq instrs => .seq (Instr.mapAllConstants f instrs)
  | .fresh idents body => .fresh idents (body.mapConstants f)
  | .bind x y => .bind x (y.mapConstants f)
  | .arith op a b x => .arith op (a.mapConstants f) (b.mapConstants f) x
  | .negate a x => .negate (a.mapConstants f) x
  | .not a x => .not (a.mapConstants f) x
  | .rel op a b x => .rel op (a.mapConstants f) (b.mapConstants f) x
  | .entails a b x => .entails (a.mapConstants f) (b.mapConstants f) x
  | .disentails a b x => .disentails (a.mapConstants f) (b.mapConstants f) x
  | .cond test yes no => .cond (test.mapConstants f) (yes.mapConstants f) (no.mapConstants f)
  | .case arg pattern yes no =>
    .case (arg.mapConstants f) (pattern.mapConstants f) (yes.mapConstants f) (Instr.mapOtherConstants f no)
  | .attempt body caught handler => .attempt (body.mapConstants f) caught (handler.mapConstants f)
  | .throw value => .throw (value.mapConstants f)
  | .apply proc args => .apply (proc.mapConstants f) (args.map (Operand.mapConstants f))
  | .select record feature x => .select (record.mapConstants f) (feature.mapConstants f) x
  | .selectApply record feature args =>
    .selectApply (record.mapConstants f) (feature.mapConstants f) (args.map (Operand.mapConstants f))
  | .createRecord x label fields =>
    .createRecord x (label.map (Operand.mapConstants f))
      (fields.map fun (feature, value) => (feature.mapConstants f, value.mapConstants f))
  | .createTuple x label values =>
    .createTuple x (label.map (Operand.mapConstants f)) (values.map (Operand.mapConstants f))
  | .createProc x params body => .createProc x params (body.mapConstants f)
  | .createActor x params body => .createActor x params (body.mapConstants f)
  | .getCell cell x => .getCell (cell.mapConstants f) x
  | .setCell cell value => .setCell (cell.mapConstants f) (value.mapConstants f)

/-- The instructions with `f` applied to their constants. -/
def Instr.mapAllConstants (f : Scalar → Scalar) : List Instr → List Instr
  | [] => []
  | i :: rest => i.mapConstants f :: Instr.mapAllConstants f rest

/-- The branch, if there is one, with `f` applied to its constants. -/
def Instr.mapOtherConstants (f : Scalar → Scalar) : Option Instr → Option Instr
  | none => none
  | some i => some (i.mapConstants f)

end

/-! ## Instructions with other constants -/

section

variable {f : Scalar → Scalar}

theorem Operand.mapConstants_eq_self {a : Operand} (h : ∀ s ∈ a.constants, f s = s) : a.mapConstants f = a := by
  cases a with
  | ident => rfl
  | lit s => rw [mapConstants, h s List.mem_cons_self]

theorem Operand.map_mapConstants_eq_self {as : List Operand} (h : ∀ s ∈ as.flatMap constants, f s = s) :
    as.map (mapConstants f) = as := by
  refine (List.map_congr_left fun a ha => ?_).trans (List.map_id as)
  exact mapConstants_eq_self fun s hs => h s (List.mem_flatMap.mpr ⟨a, ha, hs⟩)

theorem Operand.optionMap_mapConstants_eq_self {label : Option Operand}
    (h : ∀ s ∈ label.toList.flatMap constants, f s = s) : label.map (mapConstants f) = label := by
  cases label with
  | none => rfl
  | some a =>
    refine congrArg some (mapConstants_eq_self fun s hs => ?_)
    exact h s (List.mem_flatMap.mpr ⟨a, List.mem_singleton_self a, hs⟩)

mutual

theorem Pattern.mapConstants_eq_self {p : Pattern} (h : ∀ s ∈ p.constants, f s = s) : p.mapConstants f = p := by
  cases p with
  | lit s => rw [mapConstants, h s List.mem_cons_self]
  | ident => rfl
  | record label fields isOpen =>
    obtain ⟨hlabel, hfields⟩ := List.forall_mem_cons.mp h
    rw [mapConstants, hlabel, mapFieldConstants_eq_self hfields]

theorem Pattern.mapFieldConstants_eq_self {fields : List (Scalar × Pattern)}
    (h : ∀ s ∈ fieldConstants fields, f s = s) : mapFieldConstants f fields = fields := by
  cases fields with
  | nil => rfl
  | cons field rest =>
    obtain ⟨feature, p⟩ := field
    obtain ⟨hfeature, h⟩ := List.forall_mem_cons.mp h
    obtain ⟨hp, hrest⟩ := List.forall_mem_append.mp h
    rw [mapFieldConstants, hfeature, mapConstants_eq_self hp, mapFieldConstants_eq_self hrest]

end

mutual

/-- An instruction is not changed by a function that changes none of its constants. -/
theorem Instr.mapConstants_eq_self {i : Instr} (h : ∀ s ∈ i.constants, f s = s) : i.mapConstants f = i := by
  cases i with
  | skip => rfl
  | seq instrs => rw [mapConstants, mapAllConstants_eq_self h]
  | fresh _ body | createProc _ _ body | createActor _ _ body => rw [mapConstants, mapConstants_eq_self (i := body) h]
  | bind _ a | negate a _ | not a _ | throw a | getCell a _ => rw [mapConstants, Operand.mapConstants_eq_self h]
  | arith _ a b _ | rel _ a b _ | entails a b _ | disentails a b _ | select a b _ | setCell a b =>
    obtain ⟨ha, hb⟩ := List.forall_mem_append.mp h
    rw [mapConstants, Operand.mapConstants_eq_self ha, Operand.mapConstants_eq_self hb]
  | cond test yes no =>
    obtain ⟨h, hno⟩ := List.forall_mem_append.mp h
    obtain ⟨htest, hyes⟩ := List.forall_mem_append.mp h
    rw [mapConstants, Operand.mapConstants_eq_self htest, mapConstants_eq_self hyes, mapConstants_eq_self hno]
  | case arg pattern yes no =>
    obtain ⟨h, hno⟩ := List.forall_mem_append.mp h
    obtain ⟨h, hyes⟩ := List.forall_mem_append.mp h
    obtain ⟨harg, hpattern⟩ := List.forall_mem_append.mp h
    rw [mapConstants, Operand.mapConstants_eq_self harg, Pattern.mapConstants_eq_self hpattern,
      mapConstants_eq_self hyes, mapOtherConstants_eq_self hno]
  | attempt body _ handler =>
    obtain ⟨hbody, hhandler⟩ := List.forall_mem_append.mp h
    rw [mapConstants, mapConstants_eq_self hbody, mapConstants_eq_self hhandler]
  | apply proc args =>
    obtain ⟨hproc, hargs⟩ := List.forall_mem_append.mp h
    rw [mapConstants, Operand.mapConstants_eq_self hproc, Operand.map_mapConstants_eq_self hargs]
  | selectApply record feature args =>
    obtain ⟨h, hargs⟩ := List.forall_mem_append.mp h
    obtain ⟨hrecord, hfeature⟩ := List.forall_mem_append.mp h
    rw [mapConstants, Operand.mapConstants_eq_self hrecord, Operand.mapConstants_eq_self hfeature,
      Operand.map_mapConstants_eq_self hargs]
  -- the pairs of a record are changed in both components
  | createRecord _ label fields =>
    obtain ⟨hlabel, hfields⟩ := List.forall_mem_append.mp h
    have hpairs : fields.map (fun m => (m.1.mapConstants f, m.2.mapConstants f)) = fields := by
      refine (List.map_congr_left fun m hm => ?_).trans (List.map_id fields)
      have hm : ∀ s ∈ m.1.constants ++ m.2.constants, f s = s := fun s hs =>
        hfields s (List.mem_flatMap.mpr ⟨m, hm, hs⟩)
      obtain ⟨hfeature, hvalue⟩ := List.forall_mem_append.mp hm
      rw [Operand.mapConstants_eq_self hfeature, Operand.mapConstants_eq_self hvalue, id]
    rw [mapConstants, Operand.optionMap_mapConstants_eq_self hlabel, hpairs]
  | createTuple _ label values =>
    obtain ⟨hlabel, hvalues⟩ := List.forall_mem_append.mp h
    rw [mapConstants, Operand.optionMap_mapConstants_eq_self hlabel, Operand.map_mapConstants_eq_self hvalues]

theorem Instr.mapAllConstants_eq_self {is : List Instr} (h : ∀ s ∈ allConstants is, f s = s) :
    mapAllConstants f is = is := by
  cases is with
  | nil => rfl
  | cons i rest =>
    obtain ⟨hi, hrest⟩ := List.forall_mem_append.mp h
    rw [mapAllConstants, mapConstants_eq_self hi, mapAllConstants_eq_self hrest]

theorem Instr.mapOtherConstants_eq_self {no : Option Instr} (h : ∀ s ∈ otherConstants no, f s = s) :
    mapOtherConstants f no = no := by
  cases no with
  | none => rfl
  | some i => rw [mapOtherConstants, mapConstants_eq_self h]

end

theorem Operand.free_mapConstants (a : Operand) : (a.mapConstants f).free = a.free := by
  cases a <;> rfl

theorem Operand.labelFree_mapConstants (label : Option Operand) :
    labelFree (label.map (mapConstants f)) = labelFree label := by
  cases label with
  | none => rfl
  | some a => exact a.free_mapConstants

theorem Operand.flatMap_free_mapConstants (as : List Operand) :
    (as.map (mapConstants f)).flatMap free = as.flatMap free := by
  rw [List.flatMap_map]
  exact List.flatMap_congr fun a _ => a.free_mapConstants

mutual

theorem Pattern.captures_mapConstants (p : Pattern) : (p.mapConstants f).captures = p.captures := by
  cases p with
  | lit | ident => rfl
  | record _ fields _ => exact fieldCaptures_mapConstants fields

theorem Pattern.fieldCaptures_mapConstants (fields : List (Scalar × Pattern)) :
    fieldCaptures (mapFieldConstants f fields) = fieldCaptures fields := by
  cases fields with
  | nil => rfl
  | cons field rest =>
    rw [mapFieldConstants, fieldCaptures, fieldCaptures, captures_mapConstants, fieldCaptures_mapConstants rest]

end

mutual

/-- Which identifiers an instruction takes from around it does not depend on its constants. -/
theorem Instr.free_mapConstants (i : Instr) : (i.mapConstants f).free = i.free := by
  cases i with
  | skip => rfl
  | seq instrs => exact allFree_mapConstants instrs
  | fresh _ body => rw [mapConstants, free, free, free_mapConstants body]
  | createProc _ _ body => rw [mapConstants, free, free, free_mapConstants body]
  | createActor _ _ body => rw [mapConstants, free, free, free_mapConstants body]
  | attempt body _ handler => rw [mapConstants, free, free, free_mapConstants body, free_mapConstants handler]
  | cond test yes no =>
    rw [mapConstants, free, free, Operand.free_mapConstants, free_mapConstants yes, free_mapConstants no]
  | case arg pattern yes no =>
    rw [mapConstants, free, free, Operand.free_mapConstants, Pattern.captures_mapConstants, free_mapConstants yes,
      otherFree_mapConstants no]
  | createRecord _ label fields =>
    rw [mapConstants, free, free, Operand.labelFree_mapConstants, List.flatMap_map]
    simp only [Operand.free_mapConstants]
  | bind | arith | negate | not | rel | entails | disentails | throw | apply | select | selectApply | createTuple
  | getCell | setCell =>
    simp only [mapConstants, free, Operand.free_mapConstants, Operand.labelFree_mapConstants,
      Operand.flatMap_free_mapConstants]

theorem Instr.allFree_mapConstants (is : List Instr) : allFree (mapAllConstants f is) = allFree is := by
  cases is with
  | nil => rfl
  | cons i rest => rw [mapAllConstants, allFree, allFree, free_mapConstants i, allFree_mapConstants rest]

theorem Instr.otherFree_mapConstants (no : Option Instr) : otherFree (mapOtherConstants f no) = otherFree no := by
  cases no with
  | none => rfl
  | some i => exact free_mapConstants i

end

/-! ## Procedures -/

mutual

/-- The procedures that an instruction defines, those inside of procedures too. -/
def Instr.procs : Instr → List ProcDef
  | .seq instrs => Instr.allProcs instrs
  | .fresh _ body => body.procs
  | .cond _ yes no => yes.procs ++ no.procs
  | .case _ _ yes no => yes.procs ++ Instr.otherProcs no
  | .attempt body _ handler => body.procs ++ handler.procs
  | .createProc _ params body | .createActor _ params body => ⟨params, body⟩ :: body.procs
  | _ => []

/-- The procedures that a list of instructions defines. -/
def Instr.allProcs : List Instr → List ProcDef
  | [] => []
  | i :: rest => i.procs ++ Instr.allProcs rest

/-- The procedures that a branch defines, if there is one. -/
def Instr.otherProcs : Option Instr → List ProcDef
  | none => []
  | some i => i.procs

end

theorem ProcDef.captures_mapConstants (params : List Ident) (body : Instr) :
    captures ⟨params, body.mapConstants f⟩ = captures ⟨params, body⟩ := by
  rw [captures, captures, body.free_mapConstants]

mutual

/-- Procedures have the same captures whatever the constants are. -/
theorem Instr.captures_procs_mapConstants (i : Instr) :
    (i.mapConstants f).procs.map ProcDef.captures = i.procs.map ProcDef.captures := by
  cases i with
  | seq instrs => exact captures_allProcs_mapAllConstants instrs
  | fresh _ body => exact captures_procs_mapConstants body
  | cond _ yes no =>
    simp only [mapConstants, procs, List.map_append, captures_procs_mapConstants yes, captures_procs_mapConstants no]
  | case _ _ yes no =>
    simp only [mapConstants, procs, List.map_append, captures_procs_mapConstants yes,
      captures_otherProcs_mapOtherConstants no]
  | attempt body _ handler =>
    simp only [mapConstants, procs, List.map_append, captures_procs_mapConstants body,
      captures_procs_mapConstants handler]
  | createProc _ params body | createActor _ params body =>
    simp only [mapConstants, procs, List.map_cons, ProcDef.captures_mapConstants, captures_procs_mapConstants body]
  | skip | bind | arith | negate | not | rel | entails | disentails | throw | apply | select | selectApply | createRecord
  | createTuple | getCell | setCell => rfl

theorem Instr.captures_allProcs_mapAllConstants (is : List Instr) :
    (allProcs (mapAllConstants f is)).map ProcDef.captures = (allProcs is).map ProcDef.captures := by
  cases is with
  | nil => rfl
  | cons i rest =>
    simp only [mapAllConstants, allProcs, List.map_append, captures_procs_mapConstants i,
      captures_allProcs_mapAllConstants rest]

theorem Instr.captures_otherProcs_mapOtherConstants (no : Option Instr) :
    (otherProcs (mapOtherConstants f no)).map ProcDef.captures = (otherProcs no).map ProcDef.captures := by
  cases no with
  | none => rfl
  | some i => exact captures_procs_mapConstants i

end

end

end Dataflow
