/-
The variables of a store only ever become more determined.

A store is reached by calls that concern variables, by slices of computations, and by whatever else happens
outside the variables. All of these are sequences of elementary changes, so what elementary changes keep is
kept: links lead to younger variables, a variable that has a value or a link never changes again, and variables
with one representative have one representative forever.

Two variables have been merged if links connect them, in whichever direction. The representative is the end of
the chain of links, and links lead up, so it is the youngest variable of those that have been merged.
-/
import Dataflow.Proofs.Operations
import Dataflow.Proofs.Execution
import Mathlib.Order.Bounds.Basic

set_option autoImplicit false

namespace Dataflow.Store

variable {σ τ : Store} {x y : Nat}

/-! ## Merged variables -/

/-- The variable `x` is linked to `y`. -/
def LinksTo (σ : Store) (x y : Nat) : Prop := σ.vars[x]? = some (.link y)

/-- The two variables have been merged, directly or with others in between. -/
def Merged (σ : Store) : Nat → Nat → Prop := Relation.EqvGen σ.LinksTo

/-- A variable is merged with its representative. -/
theorem merged_representative (σ : Store) (x : Nat) : σ.Merged x (σ.representative x) := by
  -- the chain of links is itself a connection
  fun_induction representative σ x with
  | case1 x y hy _ ih => exact .trans x y _ (.rel x y hy) ih
  | case2 x y _ _ => exact .refl x
  | case3 x _ => exact .refl x

/-- Variables that have been merged have one representative. -/
theorem Merged.representative_eq (hσ : σ.Linked) (h : σ.Merged x y) :
    σ.representative x = σ.representative y := by
  induction h with
  | rel x y hlink => exact representative_of_link hσ hlink
  | refl x => rfl
  | symm x y _ ih => exact ih.symm
  | trans x y z _ _ hxy hyz => exact hxy.trans hyz

theorem merged_iff (hσ : σ.Linked) : σ.Merged x y ↔ σ.representative x = σ.representative y := by
  refine ⟨Merged.representative_eq hσ, fun h => ?_⟩
  exact .trans x _ y (merged_representative σ x) (h ▸ .symm y _ (merged_representative σ y))

/-- The representative is the youngest of the variables that have been merged with `x`. -/
theorem isGreatest_representative (hσ : σ.Linked) (x : Nat) :
    IsGreatest {y | σ.Merged x y} (σ.representative x) := by
  refine ⟨merged_representative σ x, fun y hy => ?_⟩
  rw [Merged.representative_eq hσ hy]
  exact le_representative σ y

/-- Two unbound variables are merged so that the older one leads to the younger one. -/
theorem unifyVars_of_unbound {a b : Nat} (ha : σ.Unbound a) (hb : σ.Unbound b) (hne : a ≠ b)
    (hx : σ.representative x = a) (hy : σ.representative y = b) :
    σ.unifyVars x y = (none, σ.merge (min a b) (max a b)) := by
  have hmin : σ.resolve (.var (min a b)) = .var (min a b) := (ha.min hb).resolveVar
  have hmax : σ.resolve (.var (max a b)) = .var (max a b) := (ha.max hb).resolveVar
  have hlt : min a b ≠ max a b := by omega
  rw [unifyVars, hx, hy, if_neg hne, Store.unify, unifyAll, hmin, hmax]
  simp only [if_neg hlt, unifyAll]

/-- Making two variables without a value equal merges them. -/
theorem merged_unifyVars (hσ : σ.Linked) {a b : Nat} (ha : σ.Unbound a) (hb : σ.Unbound b)
    (hx : σ.representative x = a) (hy : σ.representative y = b) : (σ.unifyVars x y).2.Merged x y := by
  by_cases hne : a = b
  · have hsame : σ.unifyVars x y = (none, σ) := by
      rw [unifyVars, hx, hy, if_pos hne]
    rw [hsame]
    exact (merged_iff hσ).mpr (by rw [hx, hy, hne])
  · have hlt : min a b ≠ max a b := by omega
    have hmin := ha.min hb
    have hmax := ha.max hb
    rw [unifyVars_of_unbound ha hb hne hx hy]
    refine (merged_iff (hσ.merge hmin hmax hlt)).mpr ?_
    -- both ends of the merge have the younger variable as their representative
    have hends : ∀ c : Nat, c = a ∨ c = b →
        (if c = min (min a b) (max a b) then max (min a b) (max a b) else c) = max a b := by
      intro c hc
      split <;> omega
    rw [representative_merge hσ hmin hmax hlt, representative_merge hσ hmin hmax hlt, hx, hy,
      hends a (.inl rfl), hends b (.inr rfl)]

/-! ## Reachable stores -/

/-- A call, a slice of a computation, or something that happens outside the variables. -/
inductive Transition : Store → Store → Prop where
  | call {σ : Store} (op : VarOp) (hop : op.In σ) : Transition σ (op.run σ)
  | slice {σ : Store} (ctx : Context) (slice executed : Nat) {stack : Stack} (hstack : stack.In σ) :
      Transition σ (ctx.compute slice stack executed σ).store
  | elsewhere {σ τ : Store} (h : TableStep σ τ) : Transition σ τ

/-- Any number of transitions. -/
abbrev Leads : Store → Store → Prop := Relation.ReflTransGen Transition

/-- Whatever happens in a transition, the store evolves. -/
theorem Transition.evolves (h : Transition σ τ) (hσ : σ.Closed) : σ.Evolves τ := by
  cases h with
  | call op hop => exact op.run_evolves hσ hop
  | slice ctx slice executed hstack => exact (ctx.compute_evolves slice executed hσ hstack).1
  | elsewhere h => exact .single (.table h)

/-- A store evolves through any number of transitions. -/
theorem Leads.evolves (h : σ.Leads τ) (hσ : σ.Closed) : σ.Evolves τ := by
  -- closedness is carried along, since a transition is a sequence of changes of closed stores only
  induction h with
  | refl => exact .refl
  | tail _ hstep ih => exact ih.trans (hstep.evolves (ih.closed hσ))

/-- **The variables are well-formed and monotone.** In every store that is reached from the empty one: links
lead to younger variables of the store, so that following them ends, and it ends at a variable without a link;
the representative of a variable is the youngest one that has been merged with it, and making two variables
without a value equal merges them. And in every store that is reached from there: links and values are the same
as before, a variable that resolved to a value resolves to that value, and variables with one representative
have one representative. -/
theorem monotone_of_reached (h : Leads {} σ) :
    (∀ x y : Nat, σ.vars[x]? = some (.link y) → x < y ∧ y < σ.vars.size) ∧
    (∀ x y : Nat, σ.vars[σ.representative x]? ≠ some (.link y)) ∧
    (∀ x : Nat, IsGreatest {y | σ.Merged x y} (σ.representative x)) ∧
    (∀ x y, x < σ.vars.size → y < σ.vars.size → σ.isBound x = false → σ.isBound y = false →
      ((VarOp.bindVar x y).run σ).Merged x y) ∧
    ∀ τ, σ.Leads τ →
      (∀ (x : Nat) s, σ.vars[x]? = some s → (∀ ks, s ≠ .unbound ks) → τ.vars[x]? = some s) ∧
      (∀ x v, σ.resolveVar x = .val v → τ.resolveVar x = .val v) ∧
      ∀ x y, σ.representative x = σ.representative y → τ.representative x = τ.representative y := by
  have hσ : σ.Closed := (h.evolves closed_empty).closed closed_empty
  refine ⟨hσ.linked, representative_ne_link hσ.linked, isGreatest_representative hσ.linked,
    fun x y hx hy hxu hyu => ?_, fun τ hτ => ?_⟩
  · rw [VarOp.run, Action.bindVar, VarOp.after_ofChange]
    exact merged_unifyVars hσ.linked (unbound_of_not_isBound hσ.linked hx hxu)
      (unbound_of_not_isBound hσ.linked hy hyu) rfl rfl
  have hevolves : σ.Evolves τ := hτ.evolves hσ
  refine ⟨fun x s => hevolves.getElem?_eq, fun x v hv => ?_, fun x y => hevolves.representative_eq hσ⟩
  -- a variable with a value is a variable of the store, since it is not younger than its representative
  have hx : x < σ.vars.size :=
    Nat.lt_of_le_of_lt (le_representative σ x) (Array.getElem?_eq_some_iff.mp (resolveVar_eq_val.mp hv)).1
  exact hevolves.resolve_eq_val hσ (t := .var x) hx hv

/-- Two variables are made and merged; the older one is then linked to the younger one for good. -/
theorem monotone_of_reached_pair :
    ∃ σ : Store, Leads {} σ ∧ σ.vars[0]? = some (.link 1) ∧ IsGreatest {y | σ.Merged 0 y} 1 ∧
      ∀ τ, σ.Leads τ → τ.vars[0]? = some (.link 1) := by
  let σ₀ : Store := VarOp.new.run (VarOp.new.run {})
  have hmade : Leads {} σ₀ := .tail (.single (.call .new trivial)) (.call .new trivial)
  have hzero : σ₀.Unbound 0 := ⟨[], rfl⟩
  have hone : σ₀.Unbound 1 := ⟨[], rfl⟩
  have hmerge : (VarOp.bindVar 0 1).run σ₀ = σ₀.merge 0 1 := by
    rw [VarOp.run, Action.bindVar, VarOp.after_ofChange,
      unifyVars_of_unbound hzero hone Nat.zero_ne_one hzero.representative hone.representative]
    rfl
  have hreached : Leads {} (σ₀.merge 0 1) :=
    hmerge ▸ hmade.tail (.call (.bindVar 0 1) ⟨hzero.lt_size, hone.lt_size⟩)
  have hlink : (σ₀.merge 0 1).vars[0]? = some (.link 1) := by
    rw [merge_getElem? hzero hone]
    rfl
  have hclosed : σ₀.Closed := (hmade.evolves closed_empty).closed closed_empty
  have hrep : (σ₀.merge 0 1).representative 0 = 1 := by
    rw [representative_merge hclosed.linked hzero hone Nat.zero_ne_one, hzero.representative]
    rfl
  obtain ⟨-, -, hgreatest, -, hlater⟩ := monotone_of_reached hreached
  have hyoungest := hgreatest 0
  rw [hrep] at hyoungest
  refine ⟨_, hreached, hlink, hyoungest, fun τ hτ => (hlater τ hτ).1 0 _ hlink fun ks hks => ?_⟩
  cases hks

end Dataflow.Store
