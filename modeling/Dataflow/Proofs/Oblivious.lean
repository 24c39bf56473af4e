/-
The log is written and never read.

Whatever has been written to the log before, a computation does the same: it goes on, waits or halts in the same way, its
store is the same, and what it writes itself comes behind what is there. So it makes no difference to a computation when
the log is carried out, or whether it is carried out at all before the computation is over.

An action that commutes with writing something in front of the log is called oblivious. Sequencing keeps this, so it is
a matter of the steps that instructions are composed of, and none of them looks at the log.
-/
import Dataflow.Proofs.Kinds
import Dataflow.Machine.Compute

set_option autoImplicit false

namespace Dataflow

/-! ## A longer log -/

namespace Store

/-- The store when `log` has been written before everything else. -/
def behind (log : Array Effect) (σ : Store) : Store := { σ with effects := log ++ σ.effects }

variable (log : Array Effect) (σ : Store)

@[simp] theorem record_behind (r : RecordId) : (σ.behind log).record r = σ.record r := rfl

@[simp] theorem failure_behind (f : FailureId) : (σ.behind log).failure f = σ.failure f := rfl

@[simp] theorem representative_behind (x : VarId) : (σ.behind log).representative x = σ.representative x :=
  representative_of_vars_eq (σ := σ) (τ := σ.behind log) rfl x

@[simp] theorem resolve_behind (t : Term) : (σ.behind log).resolve t = σ.resolve t :=
  resolve_of_vars_eq (σ := σ) (τ := σ.behind log) rfl t

@[simp] theorem resolveVar_behind (x : VarId) : (σ.behind log).resolveVar x = σ.resolveVar x :=
  resolve_behind log σ (.var x)

theorem emit_behind (e : Effect) : (σ.behind log).emit e = (σ.emit e).behind log := by
  simp only [emit, behind, Array.push_append]

theorem assign_behind (x : VarId) (v : Value) : (σ.behind log).assign x v = (σ.assign x v).behind log := by
  rw [assign_eq, assign_eq]
  simp only [behind, Array.append_assoc]
  rfl

/-! ## Texts -/

@[simp] theorem render_behind : (σ.behind log).render = σ.render := by
  funext bound
  induction bound with
  | zero =>
    funext path left t
    simp only [render, resolve_behind]
  | succ bound ih =>
    funext path left t
    simp only [render, resolve_behind, record_behind, failure_behind, ih]

@[simp] theorem termText_behind (t : Term) : (σ.behind log).termText t = σ.termText t := by
  rw [termText, termText, render_behind]

@[simp] theorem valueText_behind (v : Value) : (σ.behind log).valueText v = σ.valueText v := by
  rw [valueText, valueText, termText_behind]

@[simp] theorem recordText_behind (r : RecordId) : (σ.behind log).recordText r = σ.recordText r := by
  rw [recordText, recordText, render_behind, record_behind]

@[simp] theorem failureText_behind (f : FailureId) : (σ.behind log).failureText f = σ.failureText f := by
  rw [failureText, failureText, valueText_behind, failure_behind]

@[simp] theorem conflict_behind (v w : Value) : Fault.conflict (σ.behind log) v w = Fault.conflict σ v w := by
  rw [Fault.conflict, Fault.conflict, valueText_behind, valueText_behind]

@[simp] theorem message_behind (f : Fault) : f.message (σ.behind log) = f.message σ := by
  unfold Fault.message Fault.pieces
  simp only [failureText_behind]

/-! ## Comparing and making equal -/

/-- Comparing does not see what stands before in the log. -/
theorem compareAll_behind (room : Nat) (memo : PairMemo) (waiting : Option VarId) (work : List (Term × Term)) :
    (σ.behind log).compareAll room memo waiting work = σ.compareAll room memo waiting work := by
  -- the walk asks for nothing but what terms resolve to, and for records
  fun_induction compareAll σ room memo waiting work with
  | case1 => rw [compareAll]
  | case2 room memo waiting a b rest x y hb ha ih =>
    simp only [dite_eq_ite] at ih
    simp only [compareAll, resolve_behind, ha, hb, ih]
  | case3 room memo waiting a b rest x v hb ha ih | case4 room memo waiting a b rest v x hb ha ih =>
    simp only [compareAll, resolve_behind, ha, hb, ih]
  | case5 room memo waiting a b rest r s hb ha hmem ih =>
    simp only [compareAll, resolve_behind, ha, hb, if_pos hmem, ih]
  | case6 memo waiting a b rest r s hb ha hmem _ _ hshape =>
    simp only [compareAll, resolve_behind, ha, hb, if_neg hmem, record_behind]
    exact if_pos hshape
  | case7 memo waiting a b rest r s hb ha hmem _ _ hshape room ih =>
    simp only [compareAll, resolve_behind, ha, hb, if_neg hmem, record_behind]
    exact (if_pos hshape).trans ih
  | case8 room memo waiting a b rest r s hb ha hmem _ _ hshape =>
    simp only [compareAll, resolve_behind, ha, hb, if_neg hmem, record_behind]
    exact if_neg hshape
  | case9 room memo waiting a b rest v w hrecord hb ha hsame ih =>
    simp only [compareAll, resolve_behind, ha, hb, if_pos hsame, ih]
  | case10 room memo waiting a b rest v w hrecord hb ha hsame =>
    simp only [compareAll, resolve_behind, ha, hb, if_neg hsame]

theorem compare_behind (a b : Term) : (σ.behind log).compare a b = σ.compare a b := compareAll_behind log σ _ _ _ _

/-- Unification neither reads what stands before in the log nor changes it. -/
theorem unifyAll_behind (room : Nat) (memo : PairMemo) (work : List (Term × Term)) :
    unifyAll room memo work (σ.behind log) =
      ((unifyAll room memo work σ).1, (unifyAll room memo work σ).2.behind log) := by
  -- along the walk, which looks at variables and records only
  fun_induction unifyAll room memo work σ with
  | case1 => rw [unifyAll]
  | case2 room memo a b rest σ x y hb ha ih =>
    have hmerge : (if x = y then σ.behind log else (σ.behind log).merge x y) =
        (if x = y then σ else σ.merge x y).behind log := by
      split <;> rfl
    simp only [dite_eq_ite] at ih
    simp only [unifyAll, resolve_behind, ha, hb, hmerge, ih]
  | case3 room memo a b rest σ x v hb ha ih | case4 room memo a b rest σ v x hb ha ih =>
    simp only [unifyAll, resolve_behind, ha, hb, assign_behind, ih]
  | case5 room memo a b rest σ r s hb ha hmem ih =>
    simp only [unifyAll, resolve_behind, ha, hb, if_pos hmem, ih]
  | case6 memo a b rest σ r s hb ha hmem _ _ hshape =>
    simp only [unifyAll, resolve_behind, ha, hb, if_neg hmem, record_behind]
    exact if_pos hshape
  | case7 memo a b rest σ r s hb ha hmem _ _ hshape room ih =>
    simp only [unifyAll, resolve_behind, ha, hb, if_neg hmem, record_behind]
    exact (if_pos hshape).trans ih
  | case8 room memo a b rest σ r s hb ha hmem _ _ hshape =>
    simp only [unifyAll, resolve_behind, ha, hb, if_neg hmem, record_behind, conflict_behind]
    exact if_neg hshape
  | case9 room memo a b rest σ v w hrecord hb ha hsame ih =>
    simp only [unifyAll, resolve_behind, ha, hb, if_pos hsame, ih]
  | case10 room memo a b rest σ v w hrecord hb ha hsame =>
    simp only [unifyAll, resolve_behind, ha, hb, if_neg hsame, conflict_behind]

theorem unify_behind (a b : Term) :
    (σ.behind log).unify a b = ((σ.unify a b).1, (σ.unify a b).2.behind log) := unifyAll_behind log σ _ _ _

theorem unifyVars_behind (x y : VarId) :
    (σ.behind log).unifyVars x y = ((σ.unifyVars x y).1, (σ.unifyVars x y).2.behind log) := by
  simp only [unifyVars, representative_behind, unify_behind]
  split <;> rfl

/-! ## Waiting -/

theorem suspend_behind (x : VarId) (k : Continuation) :
    (σ.behind log).suspend x k = ((σ.suspend x k).1, (σ.suspend x k).2.behind log) := by
  rw [suspend, suspend, resolveVar_behind]
  cases σ.resolveVar x <;> rfl

/-! ## Components and items -/

theorem select_behind (v : Value) (f : Feature) :
    (σ.behind log).select v f = σ.select v f := by
  cases v <;> simp only [select, record_behind, recordText_behind, valueText_behind]

theorem item_behind (i : Iterator) (f : Field) :
    i.item f (σ.behind log) = ((i.item f σ).1, (i.item f σ).2.behind log) := by
  rw [Iterator.item, Iterator.item]
  cases i.kind <;> rfl

theorem nextItem_behind (i : IterId) :
    (σ.behind log).nextItem i = ((σ.nextItem i).1, (σ.nextItem i).2.behind log) := by
  have hiterator : (σ.behind log).iterator i = σ.iterator i := rfl
  rw [nextItem, nextItem, hiterator]
  simp only [record_behind]
  split
  · rfl
  · exact item_behind log (σ.setIterator i _) _ _

end Store

/-! ## Oblivious actions -/

/-- What the step does to the state commutes with a change of the state that it does not notice. -/
def Commutes {ε S α : Type} (change : S → S) (act : EStateM ε S α) : Prop :=
  ∀ s, act (change s) = match act s with
    | .ok a s => .ok a (change s)
    | .error e s => .error e (change s)

/-- Two actions that commute with a change may be done one after the other. -/
theorem Commutes.bind {ε S α β : Type} {change : S → S} {act : EStateM ε S α} {f : α → EStateM ε S β}
    (h : Commutes change act) (hf : ∀ a, (∃ s s', act s = .ok a s') → Commutes change (f a)) :
    Commutes change (act >>= f) := by
  intro s
  rw [bind_apply, bind_apply, h s]
  rcases heq : act s with ⟨a, s'⟩ | ⟨e, s'⟩
  · exact hf a ⟨s, s', heq⟩ s'
  · rfl

namespace Action

variable {α : Type} {act : Action α}

/-- The action does the same, whatever has been written to the log before. -/
def Oblivious (act : Action α) : Prop := ∀ log, Commutes (Store.behind log) act

/-- No question is about the log. -/
theorem Query.behind {g : Store → α} (h : Query g) (log : Array Effect) (σ : Store) : g (σ.behind log) = g σ := by
  cases h with
  | resolve t => exact σ.resolve_behind log t
  | compare a b => exact σ.compare_behind log a b
  | record | assign | closure | handlers | cell | depth => rfl

theorem oblivious_update {f : Store → Store} (h : ∀ log σ, f (σ.behind log) = (f σ).behind log) :
    (update f).Oblivious := fun log σ => congrArg (fun τ => EStateM.Result.ok () τ) (h log σ)

/-- A change of the store that has nothing to do with the log. -/
theorem oblivious_ofChange {f : Store → Option Fault × Store}
    (h : ∀ log σ, f (σ.behind log) = ((f σ).1, (f σ).2.behind log)) : (ofChange f).Oblivious := by
  intro log σ
  rw [ofChange, ofChange, h log σ]
  rcases f σ with ⟨_ | fault, τ⟩ <;> rfl

/-- Completing apart, no step looks at the log. -/
theorem Step.oblivious {k : Kind} (h : Step k act) (hne : k ≠ .complete) : act.Oblivious := by
  cases h with
  -- what is made is numbered by the tables, and the log is none of them
  | missing | fault | wait | record | rebuild | fill | fresh | closure | cell | iterator | token | config | receiver
  | address | setCell => exact fun _ _ => rfl
  | ask h => exact fun log σ => congrArg (fun a => EStateM.Result.ok a (σ.behind log)) (h.behind log σ)
  | component v g =>
    intro log σ
    simp only [bind_apply, read, Store.select_behind]
    cases σ.select v g <;> rfl
  | noMatch | notAProc | mismatch =>
    intro log σ
    simp only [bind_apply, read, Store.termText_behind, Store.valueText_behind]
    rfl
  | announce | send => exact oblivious_update fun log σ => σ.emit_behind log _
  | advance i =>
    intro log σ
    have htake : ∀ τ, take (fun σ => σ.nextItem i) τ = .ok (τ.nextItem i).1 (τ.nextItem i).2 := fun _ => rfl
    rw [htake, htake, σ.nextItem_behind log i]
  | unify a b => exact oblivious_ofChange fun log σ => σ.unify_behind log a b
  | bindVar x y => exact oblivious_ofChange fun log σ => σ.unifyVars_behind log x y
  | complete => exact absurd rfl hne

/-- Whatever steps an action is composed of, it does not look at the log. -/
theorem Composed.oblivious {K : List Kind} {Q : α → Prop} (h : act.Composed K Q) : act.Oblivious := by
  have hsequenced : Sequenced @Oblivious :=
    ⟨fun _ _ _ => rfl, fun h hf log => (h log).bind fun a hreached => hf a hreached log⟩
  have hall : ∀ K : List Kind, (K.all fun _ => true) = true := fun K => List.all_eq_true.mpr fun _ _ => rfl
  exact h.holds_apart hsequenced (hall K) (hall _) fun _ _ hne _ _ hs => hs.oblivious hne

end Action

/-- **No instruction looks at the log.** -/
theorem Context.execute_oblivious (ctx : Context) (env : Env) (rest : Stack) (instr : Instr) :
    (ctx.execute env rest instr).Oblivious := (ctx.uses_execute env rest instr).oblivious

/-! ## Slices -/

namespace Store

variable (log : Array Effect) (σ : Store)

theorem toValue_behind (f : Fault) : f.toValue (σ.behind log) = ((f.toValue σ).1, (f.toValue σ).2.behind log) := by
  have hrecord : f.record (σ.behind log) = f.record σ := by rw [Fault.record, Fault.record, message_behind]
  rw [Fault.toValue, Fault.toValue, hrecord]
  rfl

theorem failWith_behind (owner : Address) (f : Fault) :
    (σ.behind log).failWith owner f = ((σ.failWith owner f).1, (σ.failWith owner f).2.behind log) := by
  rw [failWith, failWith, toValue_behind]
  rfl

theorem unwind_behind (owner : Address) (v : Value) (cause : Option Fault) (stack : Stack) :
    unwind owner v cause stack (σ.behind log) =
      ((unwind owner v cause stack σ).1, (unwind owner v cause stack σ).2.behind log) := by
  induction stack with
  | nil => rfl
  | cons f rest ih =>
    cases f with
    | run instr env => exact ih
    | trap caught handler env => rfl

/-- The value that is made of a fault does not depend on the log. -/
theorem raise_behind (owner : Address) (f : Fault) (stack : Stack) :
    raise owner f stack (σ.behind log) = ((raise owner f stack σ).1, (raise owner f stack σ).2.behind log) := by
  unfold raise
  split
  · exact unwind_behind log σ _ _ _ _
  · rw [toValue_behind]
    exact unwind_behind log _ _ _ _ _

end Store

/-- A machine step is blind to what stands before in the log: it leaves it where it is and does the same behind it. -/
theorem Context.step_behind (ctx : Context) (instr : Instr) (env : Env) (rest : Stack) (log : Array Effect) (σ : Store) :
    ctx.step instr env rest (σ.behind log) =
      ((ctx.step instr env rest σ).1, (ctx.step instr env rest σ).2.behind log) := by
  rw [step, step, ctx.execute_oblivious env rest instr log σ]
  -- the four ends of an instruction: a new stack, a thrown value, a block on a variable and a fault
  rcases ctx.execute env rest instr σ with ⟨stack | ⟨v, cause⟩, τ⟩ | ⟨x | f, τ⟩
  · rfl
  · exact τ.unwind_behind log _ _ _ _
  · dsimp only
    rw [Store.suspend_behind]
    rcases τ.suspend x ⟨.run instr env :: rest, ctx.resumer⟩ with ⟨_ | _, υ⟩ <;> rfl
  · exact τ.raise_behind log _ _ _

/-- **A slice does the same, whatever has been written to the log before**: it gives the same advice after as many
instructions, and the store is the same, with what has been written before in front of the log. -/
theorem Context.compute_behind (ctx : Context) (slice executed : Nat) (stack : Stack) (log : Array Effect) (σ : Store) :
    ctx.compute slice stack executed (σ.behind log) =
      { ctx.compute slice stack executed σ with store := (ctx.compute slice stack executed σ).store.behind log } := by
  -- on the number of instructions that may still be executed
  induction slice generalizing stack executed σ with
  | zero =>
    rw [compute, compute]
    cases next? stack <;> rfl
  | succ slice ih =>
    rw [compute, compute]
    rcases next? stack with _ | ⟨instr, env, rest⟩
    · rfl
    · dsimp only
      rw [step_behind]
      rcases ctx.step instr env rest σ with ⟨stack | x | f, τ⟩
      · exact ih _ _ _
      · rfl
      · rfl

end Dataflow
