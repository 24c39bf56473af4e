/-
Plans: what an instruction needs, apart from what it does then.

An instruction first takes everything that it needs and then makes one change. For the instructions of declarative
code the two parts are separated here. A plan only looks at the store; its result is a move, and performing the
move is all that changes anything. If the plan has to wait or is at fault, so is the instruction, and otherwise
executing the instruction is performing the move (`Context.does_plan`).

The exception is `case`. It puts what it captures into variables while it still matches, so it may have changed the
store before it waits. Its plan captures terms instead.
-/
import Dataflow.Proofs.Blocking
import Dataflow.Proofs.Sameness

set_option autoImplicit false

namespace Dataflow

/-! ## Moves -/

/-- What an instruction does when it has everything that it needs. -/
inductive Move where
  /-- Goes on with the frames. -/
  | go (frames : Stack)
  /-- Goes on with the body in the scope with new variables. -/
  | fresh (idents : List Ident) (body : Instr) (env : Env)
  /-- Goes on with the body in the scope with the variables of the terms. -/
  | enter (bindings : List (Ident × Term)) (body : Instr) (env : Env)
  | bind (x : VarId) (t : Term)
  | unify (x : VarId) (t : Term)
  /-- Binds the variable of an identifier to a new record. -/
  | record (env : Env) (x : Ident) (r : Record)
  /-- Binds the variable of an identifier to a new closure. -/
  | closure (env : Env) (x : Ident) (c : Closure)

/-- A variable for a term: a value gets a new one. -/
def Action.place : Term → Action VarId
  | .var y => pure y
  | .val v => Action.boundVar v

/-- Variables for the terms of several identifiers. -/
def Action.placeAll : List (Ident × Term) → Action (List (Ident × VarId))
  | [] => return []
  | (x, t) :: rest => do
    let y ← place t
    return (x, y) :: (← placeAll rest)

/-- Carries out the move; `rest` is what was to be done after the instruction. -/
def Move.perform (rest : Stack) : Move → Action Flow
  | .go frames => return .next (frames ++ rest)
  | .fresh idents body env => do
    let bindings ← Action.freshBindings idents
    return .next (.run body (env.extend bindings) :: rest)
  | .enter bindings body env => do
    let placed ← Action.placeAll bindings
    return .next (.run body (env.extend placed) :: rest)
  | .bind x t => do
    Action.bindTerm x t
    return .next rest
  | .unify x t => do
    Action.unify (.var x) t
    return .next rest
  | .record env x r => do
    env.bind x (.record (← Action.take fun σ => σ.newRecord r))
    return .next rest
  | .closure env x c => do
    env.bind x (.proc (.closure (← Action.take fun σ => σ.newClosure c)))
    return .next rest

theorem Action.uses_placeAll (bindings : List (Ident × Term)) : (placeAll bindings).Uses [.fill] := by
  induction bindings with
  | nil => exact uses_pure _
  | cons p rest ih =>
    have hplace : (place p.2).Uses [.fill] := by
      cases p.2 with
      | var y => exact uses_pure y
      | val v => exact Step.uses (.fill v) rfl
    exact hplace.bind rfl fun y => ih.bind rfl fun more => uses_pure _

/-- A move asks the store only to make, to fill and to unify variables. -/
theorem Move.uses_perform (rest : Stack) (d : Move) :
    (d.perform rest).Uses [.missing, .fill, .fresh, .rebuild, .closure, .unify] := by
  cases d with
  | go frames => exact Action.uses_pure _
  | fresh idents body env => exact (Action.uses_freshBindings idents).bind rfl fun _ => Action.uses_pure _
  | enter bindings body env => exact (Action.uses_placeAll bindings).bind rfl fun _ => Action.uses_pure _
  | bind x t => exact (Action.uses_bindTerm x t).bind rfl fun _ => Action.uses_pure _
  | unify x t => exact Action.Step.bind (.unify _ t) rfl fun _ => Action.uses_pure _
  | record env x r =>
    exact Action.Step.bind (.rebuild r) rfl fun _ => (env.uses_bind x _).bind rfl fun _ => Action.uses_pure _
  | closure env x c =>
    exact Action.Step.bind (.closure c) rfl fun _ => (env.uses_bind x _).bind rfl fun _ => Action.uses_pure _

/-- Carrying out a move never waits. -/
theorem Move.prompt_perform (rest : Stack) (d : Move) : (d.perform rest).Prompt :=
  (d.uses_perform rest).prompt rfl

/-! ## Plans -/

mutual

/-- Matches a term, and captures terms. -/
def Pattern.look : Pattern → Term → Action (Option (List (Ident × Term)))
  | .ident x, t => return some [(x, t)]
  | .lit s, t => do
    let answer ← Action.entails t (.val s.toValue)
    return if answer then some [] else none
  | .record label fields isOpen, t => do
    match ← Action.read fun σ => σ.resolve t with
    | .var x => Action.block x
    | .val (.record r) =>
      let record ← Action.read fun σ => σ.record r
      if !label.isLiteral record.label then return none
      else if !isOpen && record.count != fields.length then return none
      else Pattern.lookFields fields record
    | .val _ => return none

/-- Matches the fields of a record, and captures terms. -/
def Pattern.lookFields : List (Scalar × Pattern) → Record → Action (Option (List (Ident × Term)))
  | [], _ => return some []
  | (s, p) :: rest, r => do
    let feature ← Action.ofExcept s.toValue.toFeature
    match r.select? feature with
    | none => return none
    | some t =>
      match ← p.look t with
      | none => return none
      | some captured =>
        let more ← Pattern.lookFields rest r
        return more.map (captured ++ ·)

end

namespace Operand

/-- The term to pass on for the operand. -/
def look (env : Env) : Operand → Except Fault Term
  | .ident x =>
    match env.find? x with
    | some y => .ok (.var y)
    | none => .error (.identNotFound x)
  | .lit s => .ok (.val s.toValue)

/-- The terms to pass on for several operands. -/
def looks (env : Env) : List Operand → Except Fault (List Term)
  | [] => return []
  | a :: rest => do
    let t ← a.look env
    return t :: (← looks env rest)

end Operand

/-- The move of applying a value to operands. The value is a closure; other procedures are not declarative. -/
def Value.planCall (env : Env) (args : List Operand) : Value → Action Move
  | .proc (.closure c) => do
    let closure ← Action.read fun σ => σ.closure c
    if closure.proc.params.length ≠ args.length then wrongCount "procedure" closure.proc.params.length args
    else
      let terms ← Action.ofExcept (Operand.looks env args)
      return .enter (closure.proc.params.zip terms) closure.proc.body closure.env
  | _ => Action.fault (.notAProc "")

/-- The move of an instruction. -/
def Instr.plan (env : Env) : Instr → Action Move
  | .skip => return .go []
  | .seq instrs => return .go (instrs.map (Frame.run · env))
  | .fresh idents body => return .fresh idents body env
  | .bind x y => do
    let target ← env.var x
    return .bind target (← y.term env)
  | .arith op a b x => do
    let v ← a.value env
    let w ← b.value env
    let r ← Action.ofExcept (v.arith op w)
    return .bind (← env.var x) (.val r)
  | .negate a x => do
    let n ← Action.ofExcept (← a.value env).asNum
    return .bind (← env.var x) (.val (.num n.negate))
  | .not a x => do
    let b ← Action.ofExcept (← a.value env).asBool
    return .bind (← env.var x) (.val (.bool !b))
  | .rel op a b x => do
    let v ← a.value env
    let w ← b.value env
    let answer ← Action.ofExcept (v.related op w)
    return .bind (← env.var x) (.val (.bool answer))
  | .entails a b x => do
    let s ← a.term env
    let t ← b.term env
    let answer ← Action.entails s t
    return .bind (← env.var x) (.val (.bool answer))
  | .disentails a b x => do
    let s ← a.term env
    let t ← b.term env
    let answer ← Action.entails s t
    return .bind (← env.var x) (.val (.bool !answer))
  | .cond test yes no => do
    let b ← Action.ofExcept (← test.value env).asBool
    return .go [.run (if b then yes else no) env]
  | .case arg pattern yes no => do
    let t ← arg.term env
    match ← pattern.look t with
    | some captured => return .enter captured yes env
    | none =>
      match no with
      | some no => return .go [.run no env]
      | none => Action.fault (.noMatch (← Action.read fun σ => σ.termText t))
  | .apply proc args => do
    let v ← proc.value env
    v.planCall env args
  | .select record feature x => do
    let t ← env.select record feature
    return .unify (← env.var x) t
  | .createRecord x label fields => do
    let label ← env.label label
    let fields ← env.fields fields
    let record ← Action.ofExcept (Record.build label fields)
    return .record env x record
  | .createTuple x label values => do
    let label ← env.label label
    let values ← Operand.terms env values
    return .record env x (.tuple label values)
  | .createProc x params body => do
    let captured ← env.capture (ProcDef.captures ⟨params, body⟩)
    return .closure env x ⟨⟨params, body⟩, captured⟩
  | .attempt .. | .throw _ | .selectApply .. | .createActor .. | .getCell .. | .setCell .. =>
    Action.fault (.notAProc "")

/-! ## Declarative code -/

/-- If the operand is a constant and a number, it is an integer. -/
def Operand.Exact : Operand → Prop
  | .ident _ => True
  | .lit s => s.toValue.Exact

mutual

/-- The numbers that the pattern compares with are integers. -/
def Pattern.Exact : Pattern → Prop
  | .ident _ => True
  | .lit s => s.toValue.Exact
  | .record _ fields _ => Pattern.FieldsExact fields

/-- The numbers that the patterns of the fields compare with are integers. -/
def Pattern.FieldsExact : List (Scalar × Pattern) → Prop
  | [] => True
  | (_, p) :: rest => p.Exact ∧ Pattern.FieldsExact rest

end

/-- The instruction is one of those of declarative code, and its constants are no floats and no decimals. -/
def Instr.Declarative : Instr → Prop
  | .skip | .seq _ | .fresh .. | .createProc .. => True
  | .bind _ a | .negate a _ | .not a _ | .cond a _ _ => a.Exact
  | .arith _ a b _ | .rel _ a b _ | .entails a b _ | .disentails a b _ | .select a b _ => a.Exact ∧ b.Exact
  | .case a p _ _ => a.Exact ∧ p.Exact
  | .apply a args => a.Exact ∧ ∀ b ∈ args, b.Exact
  | .createRecord _ label fields => (∀ a ∈ label, a.Exact) ∧ ∀ p ∈ fields, p.1.Exact ∧ p.2.Exact
  | .createTuple _ label values => (∀ a ∈ label, a.Exact) ∧ ∀ a ∈ values, a.Exact
  | .attempt .. | .throw _ | .selectApply .. | .createActor .. | .getCell .. | .setCell .. => False

/-- If the instruction applies a procedure, this is a closure. -/
def Instr.Applies (env : Env) (σ : Store) : Instr → Prop
  | .apply a _ => ∀ p τ, a.value env σ = .ok (.proc p) τ → ∃ c, p = .closure c
  | _ => True

/-- The instruction asks whether terms are equal. -/
def Instr.Compares : Instr → Prop
  | .entails .. | .disentails .. => True
  | _ => False

/-! ## Doing what has been planned -/

/-- In `σ`, the action `exec` does what `plan` says. -/
def Does (exec : Action Flow) (plan : Action Move) (rest : Stack) (σ : Store) : Prop :=
  match plan σ with
  | .ok d τ => exec σ = d.perform rest τ
  | .error (.blocked x) τ => exec σ = .error (.blocked x) τ
  | .error (.fault _) _ => ∃ g τ, exec σ = .error (.fault g) τ

namespace Does

variable {α : Type} {rest : Stack} {σ : Store}

theorem pure (d : Move) : Does (d.perform rest) (Pure.pure d) rest σ := rfl

theorem fault (f g : Fault) : Does (Action.fault g) (Action.fault f) rest σ := ⟨g, σ, rfl⟩

/-- What comes first is the same. -/
theorem bind {act : Action α} {exec : α → Action Flow} {plan : α → Action Move}
    (h : ∀ a τ, act σ = .ok a τ → Does (exec a) (plan a) rest τ) : Does (act >>= exec) (act >>= plan) rest σ := by
  rw [Does, bind_apply, bind_apply]
  cases hact : act σ with
  | ok a τ => exact h a τ hact
  | error e τ =>
    cases e with
    | blocked x => rfl
    | fault f => exact ⟨f, τ, rfl⟩

end Does

namespace Operand

variable {env : Env}

/-- An operand that can be looked up is placed without a fault. -/
theorem toVar_of_look {a : Operand} {t : Term} (h : a.look env = .ok t) : a.toVar env = Action.place t := by
  cases a with
  | ident x =>
    rw [look] at h
    split at h
    · next y hy =>
      cases h
      rw [toVar, Env.var, hy, Action.place]
    · cases h
  | lit s =>
    cases h
    rfl

/-- An operand that cannot be looked up cannot be put into a variable either. -/
theorem toVar_of_look_error {a : Operand} {f : Fault} (h : a.look env = .error f) (σ : Store) :
    ∃ g τ, a.toVar env σ = .error (.fault g) τ := by
  cases a with
  | ident x =>
    rw [look] at h
    split at h
    · cases h
    · next hx => exact ⟨_, σ, by rw [toVar, Env.var, hx]; rfl⟩
  | lit s => cases h

/-- Passing operands on is placing the terms that they give. -/
theorem vars_of_looks {args : List Operand} {ts : List Term} (h : looks env args = .ok ts) {xs : List Ident}
    (hxs : xs.length = args.length) :
    (do return xs.zip (← vars env args)) = Action.placeAll (xs.zip ts) := by
  -- along the operands, each placed before the ones behind it
  induction args generalizing ts xs with
  | nil =>
    cases h
    simp [vars, Action.placeAll]
  | cons a rest ih =>
    obtain ⟨x, xs, rfl⟩ := List.exists_cons_of_length_eq_add_one hxs
    rw [looks] at h
    rcases ha : a.look env with f | t
    · rw [ha] at h
      cases h
    rcases hrest : looks env rest with f | ts'
    · rw [ha, hrest] at h
      cases h
    rw [ha, hrest] at h
    cases h
    have hmore := ih hrest (Nat.succ.inj hxs)
    rw [vars, toVar_of_look ha, List.zip_cons_cons, Action.placeAll, ← hmore]
    simp

/-- Where one operand cannot be looked up, placing all of them faults. -/
theorem vars_of_looks_error {args : List Operand} {f : Fault} (h : looks env args = .error f) (σ : Store) :
    ∃ g τ, vars env args σ = .error (.fault g) τ := by
  induction args generalizing σ f with
  | nil => cases h
  | cons a rest ih =>
    rw [looks] at h
    rw [vars, bind_apply]
    rcases ha : a.look env with e | t
    · obtain ⟨g, τ, hg⟩ := toVar_of_look_error ha σ
      exact ⟨g, τ, by rw [hg]⟩
    -- the first operand is in order, so the fault is that of a later one
    · rcases hrest : looks env rest with e | ts
      · rcases hvar : a.toVar env σ with ⟨y, τ⟩ | ⟨e, τ⟩
        · obtain ⟨g, ρ, hg⟩ := ih hrest τ
          exact ⟨g, ρ, by dsimp only; rw [bind_apply, hg]⟩
        · rw [toVar_of_look ha] at hvar
          cases t with
          | var y => cases hvar
          | val v => cases hvar
      · rw [ha, hrest] at h
        cases h

end Operand

namespace Does

variable {rest : Stack} {σ : Store}

/-- An instruction that binds the variable of an identifier in the end. -/
theorem bind_ident (env : Env) (x : Ident) (v : Value) :
    Does (do env.bind x v; return .next rest) (do return .bind (← env.var x) (.val v)) rest σ := by
  have heq : (do env.bind x v; return Flow.next rest) =
      (env.var x >>= fun y => (Move.bind y (.val v)).perform rest) := by
    simp [Env.bind, Move.perform, Action.bindTerm]
  rw [heq]
  exact bind fun y τ _ => .pure _

end Does

/-- Applying a closure does what its plan says. -/
theorem Value.does_call (ctx : Context) (env : Env) (args : List Operand) (rest : Stack) (σ : Store) {v : Value}
    (hv : ∀ p, v = .proc p → ∃ c, p = .closure c) :
    Does (do return .next (← v.call ctx env args rest)) (v.planCall env args) rest σ := by
  -- a closure is entered with its parameters, and everything else is refused
  by_cases hproc : ∃ p, v = .proc p
  · obtain ⟨p, rfl⟩ := hproc
    obtain ⟨c, rfl⟩ := hv p rfl
    rw [Value.call, Proc.call, Dataflow.enter, planCall, bind_assoc]
    refine .bind fun closure τ _ => ?_
    dsimp only
    by_cases hlength : closure.proc.params.length = args.length
    -- with the right number of arguments, each parameter is placed as its operand stands
    · rw [if_neg (not_not.mpr hlength), if_neg (not_not.mpr hlength)]
      rcases hlooks : Operand.looks env args with f | ts
      · obtain ⟨g, ρ, hg⟩ := Operand.vars_of_looks_error hlooks τ
        exact ⟨g, ρ, by rw [bind_apply, bind_apply, hg]⟩
      · have heq : (do return Flow.next (← (do
            return .run closure.proc.body (closure.env.extend
              (closure.proc.params.zip (← Operand.vars env args))) :: rest : Action Stack))) =
            (Move.enter (closure.proc.params.zip ts) closure.proc.body closure.env).perform rest := by
          rw [Move.perform, ← Operand.vars_of_looks hlooks hlength]
          simp
        rw [heq]
        exact .pure _
    · rw [if_pos hlength, if_pos hlength]
      exact ⟨_, τ, rfl⟩
  · cases v with
    | proc p => exact absurd ⟨p, rfl⟩ hproc
    | failed f => exact .fault _ _
    | _ => exact ⟨_, σ, rfl⟩

/-- **An instruction does what it plans.** -/
theorem Context.does_plan (ctx : Context) (env : Env) (rest : Stack) {instr : Instr} (hdecl : instr.Declarative)
    {σ : Store} (happlies : instr.Applies env σ) (hcase : ∀ arg p yes no, instr ≠ .case arg p yes no) :
    Does (ctx.execute env rest instr) (instr.plan env) rest σ := by
  -- each kind of instruction reads what its plan reads, and its move does the rest
  cases instr with
  | skip => exact .pure (.go [])
  | seq instrs => exact .pure (.go _)
  | fresh idents body => exact .pure (.fresh idents body env)
  | bind x y =>
    exact .bind fun target _ _ => .bind fun t _ _ => .pure (.bind target t)
  | arith op a b x =>
    exact .bind fun v _ _ => .bind fun w _ _ => .bind fun r _ _ => .bind_ident env x r
  | negate a x | not a x => exact .bind fun v _ _ => .bind fun n _ _ => .bind_ident env x _
  | rel op a b x =>
    exact .bind fun v _ _ => .bind fun w _ _ => .bind fun r _ _ => .bind_ident env x _
  | entails a b x | disentails a b x =>
    exact .bind fun s _ _ => .bind fun t _ _ => .bind fun answer _ _ => .bind_ident env x _
  | cond test yes no =>
    exact .bind fun v _ _ => .bind fun b _ _ => .pure (.go [.run (if b then yes else no) env])
  | case arg p yes no => exact absurd rfl (hcase arg p yes no)
  | apply proc args =>
    exact .bind fun v τ hv => v.does_call ctx env args rest τ fun p hp => happlies p τ (hp ▸ hv)
  | select record feature x =>
    exact .bind fun t _ _ => .bind fun y _ _ => .pure (.unify y t)
  | createRecord x label fields =>
    exact .bind fun l _ _ => .bind fun fs _ _ => .bind fun r _ _ => .pure (.record env x r)
  | createTuple x label values =>
    exact .bind fun l _ _ => .bind fun ts _ _ => .pure (.record env x _)
  | createProc x params body =>
    rw [Context.execute, Instr.plan, Env.close, bind_assoc]
    exact .bind fun captured _ _ => .pure (.closure env x _)
  | attempt _ _ _ | throw _ | selectApply _ _ _ | createActor _ _ _ | getCell _ _ | setCell _ _ => exact hdecl.elim

end Dataflow
