/-
What values are made of.

A record holds the values of its fields, as far as these have values by now, and a failure holds what was thrown. A value
may hold itself that way, because a variable may be bound to a record that it is a field of. Where nothing that a value
is made of holds itself, going from a value to one that it holds comes to an end, however much of it is shared: a store
has only finitely many records and failures. `Store.Acyclic.accessible` says so in the form in which it is used, as a
principle of induction over what an acyclic value is made of.
-/
import Dataflow.Store.Variable
import Mathlib.Data.Fintype.Card
import Mathlib.Data.Fintype.Sum
import Mathlib.Logic.Relation

set_option autoImplicit false

namespace Dataflow

namespace Store

open Relation

/-- The first value is a record with the second one in a field, or a failure with it. -/
inductive Holds (σ : Store) : Value → Value → Prop where
  | field {r : RecordId} {f : Field} {w : Value} (hf : f ∈ (σ.record r).fields) (hw : σ.resolve f.value = .val w) :
      Holds σ (.record r) w
  | error (f : FailureId) : Holds σ (.failed f) (σ.failure f).error

/-- Nothing that the term is made of holds itself. -/
def Acyclic (σ : Store) (t : Term) : Prop :=
  ∀ v w, σ.resolve t = .val v → ReflTransGen σ.Holds v w → ¬ TransGen σ.Holds w w

variable {σ : Store} {t : Term} {v w : Value}

theorem Acyclic.of_resolve (h : σ.Acyclic t) (hv : σ.resolve t = .val v) : σ.Acyclic (.val v) := by
  intro u w hu hw
  obtain rfl := Term.val.inj hu
  exact h v w hv hw

theorem Acyclic.of_holds (h : σ.Acyclic (.val v)) (hw : σ.Holds v w) : σ.Acyclic (.val w) := by
  intro u x hu hx
  obtain rfl := Term.val.inj hu
  exact h v x rfl (.head hw hx)

theorem Acyclic.not_holds_self (h : σ.Acyclic (.val v)) : ¬ TransGen σ.Holds v v := h v v rfl .refl

/-- What is made of smaller values only is acyclic. -/
theorem acyclic_of_descent (height : Value → Nat) (h : ∀ v w, σ.Holds v w → height w < height v) : σ.Acyclic t := by
  have hsmaller : ∀ v w, TransGen σ.Holds v w → height w < height v := by
    intro v w hvw
    induction hvw with
    | single hw => exact h _ _ hw
    | tail _ hw ih => exact (h _ _ hw).trans ih
  exact fun v w _ _ hw => Nat.lt_irrefl _ (hsmaller w w hw)

/-! ## No endless descent -/

/-- The records and failures of the store. -/
def container (σ : Store) : Fin σ.records.size ⊕ Fin σ.failures.size → Value
  | .inl r => .record r
  | .inr f => .failed f

/-- Only records and failures of the store hold more than a null: a number that leads nowhere stands for an empty record
or for a failure with a null. -/
theorem Holds.container (h : σ.Holds v w) : (∃ i, v = σ.container i) ∨ ∀ x, ¬ σ.Holds w x := by
  cases h with
  | @field r f w hf hw =>
    by_cases hr : r < σ.records.size
    · exact .inl ⟨.inl ⟨r, hr⟩, rfl⟩
    · rw [record, Array.getD_eq_getD_getElem?, Array.getElem?_eq_none (Nat.le_of_not_lt hr)] at hf
      exact absurd hf List.not_mem_nil
  | error f =>
    by_cases hf : f < σ.failures.size
    · exact .inl ⟨.inr ⟨f, hf⟩, rfl⟩
    · rw [failure, Array.getD_eq_getD_getElem?, Array.getElem?_eq_none (Nat.le_of_not_lt hf)]
      exact .inr nofun

theorem acc_of_holds_nothing (h : ∀ w, ¬ σ.Holds v w) : Acc (fun w v => σ.Holds v w) v :=
  .intro v fun w hw => absurd hw (h w)

/-- A value is accessible if the containers that it can be taken apart to are. -/
theorem acc_of_containers (h : ∀ i, ReflTransGen σ.Holds v (σ.container i) → Acc (fun w v => σ.Holds v w) (σ.container i)) :
    Acc (fun w v => σ.Holds v w) v := by
  refine .intro v fun w hw => ?_
  rcases hw.container with ⟨i, rfl⟩ | hnone
  · exact (h i .refl).inv hw
  · exact acc_of_holds_nothing hnone

/-- **Taking an acyclic value apart comes to an end.** -/
theorem Acyclic.accessible (h : σ.Acyclic (.val v)) : Acc (fun w v => σ.Holds v w) v := by
  -- the containers that `v` can be taken apart to are finitely many, and none of them holds itself
  let Part := { i // ReflTransGen σ.Holds v (σ.container i) }
  let Inside : Part → Part → Prop := fun i j => TransGen σ.Holds (σ.container j.1) (σ.container i.1)
  have : IsTrans Part Inside := ⟨fun i j k hij hjk => hjk.trans hij⟩
  have : Std.Irrefl Inside := ⟨fun i => h v _ rfl i.2⟩
  have hwf : WellFounded Inside := Finite.wellFounded_of_trans_of_irrefl Inside
  have hpart : ∀ i : Part, Acc (fun w v => σ.Holds v w) (σ.container i.1) := by
    intro i
    induction i using hwf.induction with
    | _ i ih =>
      refine .intro _ fun w hw => acc_of_containers fun j hj => ?_
      exact ih ⟨j, (i.2.tail hw).trans hj⟩ (.head' hw hj)
  exact acc_of_containers fun i hi => hpart ⟨i, hi⟩

end Store

end Dataflow
