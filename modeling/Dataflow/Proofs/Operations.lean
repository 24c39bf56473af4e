/-
Operations: what can be done with variables from outside, one call at a time.

These are the calls that a client of the variables has: making an unbound or a bound variable, letting a
computation wait, binding a variable to a value, to another variable or to either, and making two terms
equal. A call may be at fault, and what it has done to the store until then stays; a computation that wants to
wait may be refused.

`run_cases` says once what a call does to the store. Whoever has an invariant of the variables to prove needs
to look at bindings and merges, at one way of parking and at new variables, and at nothing else.
-/
import Dataflow.Proofs.UnificationRun

set_option autoImplicit false

namespace Dataflow

/-- The store after an action, whether it succeeded or not. -/
def Action.after {α : Type} (act : Action α) (σ : Store) : Store :=
  match act σ with
  | .ok _ τ | .error _ τ => τ

/-- A call that concerns variables. -/
inductive VarOp where
  | new
  | bound (v : Value)
  | suspend (x : VarId) (k : Continuation)
  | bindValue (x : VarId) (v : Value)
  | bindVar (x y : VarId)
  | bindTerm (x : VarId) (t : Term)
  | unify (a b : Term)

namespace VarOp

/-- The operands are in the store. -/
def In (σ : Store) : VarOp → Prop
  | .new => True
  | .bound v => v.In σ
  | .suspend x k => x < σ.vars.size ∧ k.In σ
  | .bindValue x v => x < σ.vars.size ∧ v.In σ
  | .bindVar x y => x < σ.vars.size ∧ y < σ.vars.size
  | .bindTerm x t => x < σ.vars.size ∧ t.In σ
  | .unify a b => a.In σ ∧ b.In σ

/-- The store after the call. -/
def run (σ : Store) : VarOp → Store
  | .new => σ.freshVar.2
  | .bound v => (σ.newVar (.bound v)).2
  | .suspend x k => (σ.suspend x k).2
  | .bindValue x v => (Action.bindValue x v).after σ
  | .bindVar x y => (Action.bindVar x y).after σ
  | .bindTerm x t => (Action.bindTerm x t).after σ
  | .unify a b => (Action.unify a b).after σ

/-- The computation that the call has let wait, with the variable that it was told to wait for. -/
def accepted (σ : Store) : VarOp → List (VarId × Continuation)
  | .suspend x k => if (σ.suspend x k).1 then [(x, k)] else []
  | _ => []

variable {σ : Store}

/-! ## What a call does -/

/-- What a call does to the store, and which computation it lets wait. -/
inductive Does (σ : Store) : Store → List (VarId × Continuation) → Prop where
  /-- It binds and merges variables. -/
  | binds {τ : Store} (h : σ.BindsMany τ) : Does σ τ []
  /-- It parks a computation at the representative of its variable. -/
  | parks {x y : Nat} {k : Continuation} (hx : x < σ.vars.size) (hres : σ.resolveVar x = .var y) (hk : k.In σ) :
      Does σ (σ.park y k) [(x, k)]
  /-- It makes a variable that nothing waits for. -/
  | makes {s : VarState} (hlink : ∀ y, s ≠ .link y) (hwait : ∀ ks, s = .unbound ks → ks = [])
      (hin : s.In σ σ.vars.size) : Does σ (σ.newVar s).2 []

theorem after_ofChange (f : Store → Option Fault × Store) : (Action.ofChange f).after σ = (f σ).2 := by
  rw [Action.after, Action.ofChange]
  rcases f σ with ⟨_ | fault, τ⟩ <;> rfl

theorem bindValue_binds (hσ : σ.Closed) {x : Nat} {v : Value} (hx : x < σ.vars.size) (hv : v.In σ) :
    σ.BindsMany ((Action.bindValue x v).after σ) := by
  rw [Action.bindValue, Action.unify, after_ofChange]
  exact Store.unify_binds hσ hx hv

theorem bindVar_binds (hσ : σ.Closed) {x y : Nat} (hx : x < σ.vars.size) (hy : y < σ.vars.size) :
    σ.BindsMany ((Action.bindVar x y).after σ) := by
  rw [Action.bindVar, after_ofChange]
  exact Store.unifyVars_binds hσ hx hy

/-- **What a call does**, for every call with operands in the store. -/
theorem run_cases (hσ : σ.Closed) (op : VarOp) (hop : op.In σ) : Does σ (op.run σ) (op.accepted σ) := by
  cases op with
  | new => exact .makes nofun (fun ks hks => by cases hks; rfl) fun k hk => absurd hk List.not_mem_nil
  | bound v => exact .makes nofun nofun hop
  | suspend x k =>
    rw [run, accepted]
    -- a refusal changes nothing, and that is a run of no bindings at all
    rcases hres : σ.resolveVar x with v | y
    · rw [Store.suspend_of_val hres]
      exact .binds .refl
    · rw [Store.suspend_of_var hres]
      exact .parks hop.1 hres hop.2
  | bindValue x v => exact .binds (bindValue_binds hσ hop.1 hop.2)
  | bindVar x y => exact .binds (bindVar_binds hσ hop.1 hop.2)
  | bindTerm x t =>
    cases t with
    | val v => exact .binds (bindValue_binds hσ hop.1 hop.2)
    | var y => exact .binds (bindVar_binds hσ hop.1 hop.2)
  | unify a b =>
    rw [run, Action.unify, after_ofChange]
    exact .binds (Store.unify_binds hσ hop.1 hop.2)

/-- Whatever a call does to the variables, the store evolves. -/
theorem Does.evolves {τ : Store} {l : List (VarId × Continuation)} (h : Does σ τ l) (hσ : σ.Closed) :
    σ.Evolves τ := by
  cases h with
  | binds h => exact h.evolves
  | parks hx hres hk => exact .single (.var (.park (Store.unbound_of_resolveVar hσ.linked hx hres) hk))
  | makes hlink _ hin => exact .single (.var (.newVar hlink hin))

theorem run_evolves (hσ : σ.Closed) (op : VarOp) (hop : op.In σ) : σ.Evolves (op.run σ) :=
  (run_cases hσ op hop).evolves hσ

end VarOp

end Dataflow
