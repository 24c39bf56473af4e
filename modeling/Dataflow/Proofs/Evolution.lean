/-
Evolution: the elementary changes of a store, and what all of them keep.

Whatever the kernel does to a store, it does by a sequence of these changes. Four of them concern variables:
binding an unbound variable, merging two of them, adding a computation to those that wait, and making a new
variable. All others leave the variables alone and add to some other table of the store, or replace the
content of a cell or the position of an iterator.

`Step` is where this is said once. From it follow, for one change and then by induction for any number of
them (`Evolves`): a closed store stays closed, the store grows, a variable that has a value keeps it, and
variables with one representative keep having one representative.
-/
import Dataflow.Proofs.References
import Mathlib.Logic.Relation

set_option autoImplicit false

namespace Dataflow.Store

/-- An unbound variable gets a value, or two of them become one. -/
inductive Binds : Store → Store → Prop where
  | assign {σ : Store} {x : Nat} {v : Value} (hx : σ.Unbound x) (hv : v.In σ) : Binds σ (σ.assign x v)
  | merge {σ : Store} {x y : Nat} (hx : σ.Unbound x) (hy : σ.Unbound y) (hne : x ≠ y) :
      Binds σ (σ.merge x y)

/-- A change of the variables. -/
inductive VarStep : Store → Store → Prop where
  | binds {σ τ : Store} (h : Binds σ τ) : VarStep σ τ
  | park {σ : Store} {x : Nat} {k : Continuation} (hx : σ.Unbound x) (hk : k.In σ) :
      VarStep σ (σ.park x k)
  | newVar {σ : Store} {s : VarState} (hs : ∀ y, s ≠ .link y) (hin : s.In σ σ.vars.size) :
      VarStep σ (σ.newVar s).2

/-- A change of anything but the variables. -/
inductive TableStep : Store → Store → Prop where
  | newRecord {σ : Store} {r : Record} (h : r.In σ) : TableStep σ (σ.newRecord r).2
  | newClosure {σ : Store} {c : Closure} (h : c.In σ) : TableStep σ (σ.newClosure c).2
  | newConfig {σ : Store} {c : ActorConfig} (h : c.In σ) : TableStep σ (σ.newConfig c).2
  | newFailure {σ : Store} {f : Failure} (h : f.In σ) : TableStep σ (σ.newFailure f).2
  | newCell {σ : Store} {t : Term} (h : t.In σ) : TableStep σ (σ.newCell t).2
  | newIterator {σ : Store} {i : Iterator} (h : i.In σ) : TableStep σ (σ.newIterator i).2
  | setCell {σ : Store} {t : Term} (c : CellId) (h : t.In σ) : TableStep σ (σ.setCell c t)
  | setIterator {σ : Store} {i : Iterator} (n : IterId) (h : i.In σ) : TableStep σ (σ.setIterator n i)
  | newToken {σ : Store} : TableStep σ σ.newToken.2
  | newReceiver {σ : Store} : TableStep σ σ.newReceiver.2
  | newAddress {σ : Store} (stem : String) : TableStep σ (σ.newAddress stem).2
  | emit {σ : Store} {e : Effect} (h : e.In σ) : TableStep σ (σ.emit e)

/-- An elementary change. -/
inductive Step (σ τ : Store) : Prop where
  | var (h : VarStep σ τ)
  | table (h : TableStep σ τ)

/-- Any number of elementary changes. -/
abbrev Evolves : Store → Store → Prop := Relation.ReflTransGen Step

variable {σ τ ρ : Store}

/-! ## Changes outside the variables -/

theorem TableStep.vars_eq (h : TableStep σ τ) : τ.vars = σ.vars := by
  cases h <;> rfl

/-- An item that is pushed is the last one, so no other item moves. -/
private theorem getElem?_push_of_some {α : Type} {a : Array α} {y : α} (i : Nat) (x : α)
    (h : a[i]? = some x) : (a.push y)[i]? = some x := by
  rw [Array.getElem?_push, if_neg (Nat.ne_of_lt (Array.getElem?_eq_some_iff.mp h).1), h]

/-- A change of one table leaves what is in the tables already, but for the contents of cells and iterators. -/
theorem TableStep.grows (h : TableStep σ τ) : σ.Grows τ := by
  have hrefl := Grows.refl σ
  cases h with
  | newRecord => exact { hrefl with records := getElem?_push_of_some }
  | newClosure => exact { hrefl with closures := getElem?_push_of_some }
  | newConfig => exact { hrefl with configs := getElem?_push_of_some }
  | newFailure => exact { hrefl with failures := getElem?_push_of_some }
  | newCell => exact { hrefl with cells := by simp [Store.newCell] }
  | newIterator => exact { hrefl with iterators := by simp [Store.newIterator] }
  | setCell => exact { hrefl with cells := by simp [Store.setCell] }
  | setIterator => exact { hrefl with iterators := by simp [Store.setIterator] }
  | newToken | newReceiver | newAddress | emit => exact { hrefl with }

/-- What is in a pushed array was there before or is the new item. -/
private theorem mem_push_cases {α : Type} {a : Array α} {y x : α} {P : α → Prop} (hy : P y)
    (hx : x ∈ a.push y) : x ∈ a ∨ P x := by
  rcases Array.mem_push.mp hx with hold | rfl
  · exact .inl hold
  · exact .inr hy

private theorem mem_set_cases {α : Type} {a : Array α} {y x : α} {i : Nat} {P : α → Prop} (hy : P y)
    (hx : x ∈ a.setIfInBounds i y) : x ∈ a ∨ P x := by
  rcases Array.mem_or_eq_of_mem_setIfInBounds hx with hold | rfl
  · exact .inl hold
  · exact .inr hy

/-- A change of one table keeps the store closed. -/
theorem TableStep.closed (h : TableStep σ τ) (hσ : σ.Closed) : τ.Closed := by
  have hg := h.grows
  -- each change adds to one table, and what it adds was in the store before the change
  refine hσ.of_grows hg ?_
  cases h with
  | newRecord hr => exact { records := fun _ => mem_push_cases (hg.record hr) }
  | newClosure hc => exact { closures := fun _ => mem_push_cases (hg.env hc) }
  | newConfig hc => exact { configs := fun _ => mem_push_cases (hg.config hc) }
  | newFailure hf => exact { failures := fun _ => mem_push_cases (hg.value hf) }
  | newCell ht => exact { cells := fun _ => mem_push_cases (hg.term ht) }
  | newIterator hi => exact { iterators := fun _ => mem_push_cases (hg.iterator hi) }
  | setCell c ht => exact { cells := fun _ => mem_set_cases (hg.term ht) }
  | setIterator n hi => exact { iterators := fun _ => mem_set_cases (hg.iterator hi) }
  | newToken | newReceiver | newAddress => exact { }
  | emit he => exact { effects := fun _ => mem_push_cases (hg.effect he) }

/-! ## Changes of the variables -/

/-- Assigning binds the variable, and those who have been waiting for it are written to the log in their order. -/
theorem assign_eq (σ : Store) (x : VarId) (v : Value) :
    σ.assign x v =
      { σ with
        vars := σ.vars.setIfInBounds x (.bound v)
        effects := σ.effects ++ ((σ.waiting x).map fun k => Effect.wake k.resumer k.stack).toArray } := by
  rw [assign, wakeAll_eq]
  rfl

@[simp] theorem assign_records (σ : Store) (x : VarId) (v : Value) :
    (σ.assign x v).records = σ.records := by
  rw [assign_eq]

@[simp] theorem merge_records (σ : Store) (x y : VarId) : (σ.merge x y).records = σ.records := rfl

/-- Binding adds and removes nothing; it changes variables. -/
theorem Binds.grows (h : Binds σ τ) : σ.Grows τ := by
  cases h with
  | assign =>
    rw [assign_eq]
    exact { Grows.refl σ with vars := Nat.le_of_eq Array.size_setIfInBounds.symm }
  | merge => exact { Grows.refl σ with vars := Nat.le_of_eq (merge_size ..).symm }

/-- Binding keeps the store closed. -/
theorem Binds.closed (h : Binds σ τ) (hσ : σ.Closed) : τ.Closed := by
  have hg := h.grows
  refine hσ.of_grows hg ?_
  cases h with
  | @assign x v hx hv =>
    have hvars : ∀ (z : Nat) s, (σ.assign x v).vars[z]? = some s →
        σ.vars[z]? = some s ∨ s.In (σ.assign x v) z := by
      intro z s hs
      rw [assign_getElem? hx] at hs
      by_cases hz : z = x
      · rw [if_pos hz] at hs
        cases hs
        exact .inr (hg.value hv)
      -- any other variable is as it was
      · rw [if_neg hz] at hs
        exact .inl hs
    -- the computations that are resumed were waiting, so their stacks are in the store
    have heffects : ∀ e ∈ (σ.assign x v).effects, e ∈ σ.effects ∨ e.In (σ.assign x v) := by
      intro e he
      rw [assign_eq] at he
      rcases Array.mem_append.mp he with hold | hnew
      · exact .inl hold
      · obtain ⟨k, hk, rfl⟩ := List.mem_map.mp (List.mem_toArray.mp hnew)
        exact .inr (hg.stack (hσ.waiting x hk))
    rw [assign_eq] at hvars heffects ⊢
    exact { vars := hvars, effects := heffects }
  | @merge x y hx hy hne =>
    refine { vars := fun z s hs => ?_ }
    have hlink := hσ.linked.merge hx hy hne
    rw [merge_getElem? hx hy] at hs
    -- the younger variable becomes a link to the older one, and the older one gets everything that waits
    by_cases hmin : z = min x y
    · rw [if_pos hmin] at hs
      cases hs
      exact .inr (hlink z (max x y) (by rw [merge_getElem? hx hy, if_pos hmin]))
    · rw [if_neg hmin] at hs
      by_cases hmax : z = max x y
      · rw [if_pos hmax] at hs
        cases hs
        refine .inr fun k hk => hg.stack ?_
        exact (List.mem_append.mp hk).elim (hσ.waiting _) (hσ.waiting _)
      · rw [if_neg hmax] at hs
        exact .inl hs

/-- A term with a value keeps it. -/
theorem Binds.resolve_eq_val (h : Binds σ τ) (hσ : σ.Linked) {t : Term} {v : Value}
    (hv : σ.resolve t = .val v) : τ.resolve t = .val v := by
  cases h with
  | assign hx => rw [resolve_assign_of_ne hσ hx _ (by rw [hv]; nofun), hv]
  | merge hx hy hne => rw [resolve_merge_of_ne hσ hx hy hne (by rw [hv]; nofun), hv]

/-- Variables with one representative keep having one representative. -/
theorem Binds.representative_eq (h : Binds σ τ) (hσ : σ.Linked) {x y : Nat}
    (hxy : σ.representative x = σ.representative y) : τ.representative x = τ.representative y := by
  cases h with
  | assign hx => rw [representative_assign hσ hx, representative_assign hσ hx, hxy]
  | merge hx hy hne => rw [representative_merge hσ hx hy hne, representative_merge hσ hx hy hne, hxy]

/-- Binding makes no variable unbound. -/
theorem Binds.unbound (h : Binds σ τ) {z : Nat} (hz : τ.Unbound z) : σ.Unbound z := by
  obtain ⟨ks, hks⟩ := hz
  cases h with
  | @assign x v hx hv =>
    rw [assign_getElem? hx] at hks
    by_cases hzx : z = x
    · exact hzx ▸ hx
    · rw [if_neg hzx] at hks
      exact ⟨ks, hks⟩
  | @merge x y hx hy hne =>
    rw [merge_getElem? hx hy] at hks
    by_cases hmin : z = min x y
    · exact hmin ▸ hx.min hy
    · by_cases hmax : z = max x y
      · exact hmax ▸ hx.max hy
      · rw [if_neg hmin, if_neg hmax] at hks
        exact ⟨ks, hks⟩

/-- Binding touches unbound variables only. -/
theorem Binds.getElem?_eq (h : Binds σ τ) {z : Nat} (hz : ¬ σ.Unbound z) : τ.vars[z]? = σ.vars[z]? := by
  cases h with
  | @assign x v hx hv =>
    have hzx : z ≠ x := fun e => hz (e ▸ hx)
    rw [assign_getElem? hx, if_neg hzx]
  | @merge x y hx hy hne =>
    have hmin : z ≠ min x y := fun e => hz (e ▸ hx.min hy)
    have hmax : z ≠ max x y := fun e => hz (e ▸ hx.max hy)
    rw [merge_getElem? hx hy, if_neg hmin, if_neg hmax]

/-- A new link leads to a variable that was unbound. -/
theorem Binds.link_cases (h : Binds σ τ) {z w : Nat} (hz : τ.vars[z]? = some (.link w)) :
    σ.vars[z]? = some (.link w) ∨ σ.Unbound w := by
  cases h with
  | @assign x v hx hv =>
    rw [assign_getElem? hx] at hz
    by_cases hzx : z = x
    · rw [if_pos hzx] at hz
      cases hz
    · rw [if_neg hzx] at hz
      exact .inl hz
  | @merge x y hx hy hne =>
    rw [merge_getElem? hx hy] at hz
    by_cases hmin : z = min x y
    · rw [if_pos hmin] at hz
      cases hz
      exact .inr (hx.max hy)
    · rw [if_neg hmin] at hz
      by_cases hmax : z = max x y
      · rw [if_pos hmax] at hz
        cases hz
      · rw [if_neg hmax] at hz
        exact .inl hz

theorem VarStep.grows (h : VarStep σ τ) : σ.Grows τ := by
  cases h with
  | binds h => exact h.grows
  | park => exact { Grows.refl σ with vars := Nat.le_of_eq (park_size ..).symm }
  | @newVar s =>
    have hsize : σ.vars.size ≤ (σ.newVar s).2.vars.size := by
      rw [newVar_size]
      exact Nat.le_succ _
    exact { Grows.refl σ with vars := hsize }

/-- A change of the variables keeps the store closed. -/
theorem VarStep.closed (h : VarStep σ τ) (hσ : σ.Closed) : τ.Closed := by
  have hg := h.grows
  cases h with
  | binds h => exact h.closed hσ
  -- one more computation waits, and its stack is in the store
  | @park x k hx hk =>
    refine hσ.of_grows hg { vars := fun z s hs => ?_ }
    rw [park_getElem? hx] at hs
    by_cases hz : z = x
    · rw [if_pos hz] at hs
      cases hs
      refine .inr fun j hj => hg.stack ?_
      rcases List.mem_append.mp hj with hold | hnew
      · exact hσ.waiting x hold
      · exact List.mem_singleton.mp hnew ▸ hk
    · rw [if_neg hz] at hs
      exact .inl hs
  -- one more variable, and what it is bound to is in the store
  | @newVar s hs hin =>
    refine hσ.of_grows hg { vars := fun z s' hs' => ?_ }
    rw [newVar_getElem?] at hs'
    by_cases hz : z = σ.vars.size
    · rw [if_pos hz] at hs'
      cases hs'
      exact .inr (hz ▸ hg.varState hin)
    · rw [if_neg hz] at hs'
      exact .inl hs'

/-- A term with a value keeps it. -/
theorem VarStep.resolve_eq_val (h : VarStep σ τ) (hσ : σ.Linked) {t : Term} (ht : t.In σ) {v : Value}
    (hv : σ.resolve t = .val v) : τ.resolve t = .val v := by
  cases h with
  | binds h => exact h.resolve_eq_val hσ hv
  | park hx => rw [resolve_park hσ hx, hv]
  | newVar hs =>
    cases t with
    | val w => exact hv
    | var x => exact (resolveVar_newVar hσ hs ht).trans hv

theorem VarStep.representative_eq (h : VarStep σ τ) (hσ : σ.Linked) {x y : Nat}
    (hxy : σ.representative x = σ.representative y) : τ.representative x = τ.representative y := by
  cases h with
  | binds h => exact h.representative_eq hσ hxy
  | park hx => rw [representative_park hσ hx, representative_park hσ hx, hxy]
  | newVar hs => rw [representative_newVar hσ hs, representative_newVar hσ hs, hxy]

/-- A variable that is not unbound never changes again. -/
theorem VarStep.getElem?_eq (h : VarStep σ τ) {z : Nat} (hlt : z < σ.vars.size) (hz : ¬ σ.Unbound z) :
    τ.vars[z]? = σ.vars[z]? := by
  cases h with
  | binds h => exact h.getElem?_eq hz
  | @park x k hx hk =>
    have hzx : z ≠ x := fun e => hz (e ▸ hx)
    rw [park_getElem? hx, if_neg hzx]
  | newVar => rw [newVar_getElem?, if_neg (Nat.ne_of_lt hlt)]

/-! ## Every change -/

/-- Representatives and terms depend on the variables alone. -/
theorem representative_of_vars_eq (h : τ.vars = σ.vars) (x : VarId) :
    τ.representative x = σ.representative x := by
  fun_induction representative σ x with
  | case1 x y hy hlt ih =>
    rw [representative, h, hy]
    exact (dif_pos hlt).trans ih
  | case2 x y hy hlt =>
    rw [representative, h, hy]
    exact dif_neg hlt
  | case3 x hx => exact representative_of_ne_link fun y hy => hx y (h ▸ hy)

theorem resolve_of_vars_eq (h : τ.vars = σ.vars) (t : Term) : τ.resolve t = σ.resolve t := by
  cases t with
  | val v => rfl
  | var x => exact resolveVar_congr (representative_of_vars_eq h x) fun v => by rw [h]

theorem Step.grows (h : Step σ τ) : σ.Grows τ := by
  cases h with
  | var h => exact h.grows
  | table h => exact h.grows

theorem Step.closed (h : Step σ τ) (hσ : σ.Closed) : τ.Closed := by
  cases h with
  | var h => exact h.closed hσ
  | table h => exact h.closed hσ

theorem Step.resolve_eq_val (h : Step σ τ) (hσ : σ.Linked) {t : Term} (ht : t.In σ) {v : Value}
    (hv : σ.resolve t = .val v) : τ.resolve t = .val v := by
  cases h with
  | var h => exact h.resolve_eq_val hσ ht hv
  | table h => rw [resolve_of_vars_eq h.vars_eq, hv]

theorem Step.representative_eq (h : Step σ τ) (hσ : σ.Linked) {x y : Nat}
    (hxy : σ.representative x = σ.representative y) : τ.representative x = τ.representative y := by
  cases h with
  | var h => exact h.representative_eq hσ hxy
  | table h => rw [representative_of_vars_eq h.vars_eq, representative_of_vars_eq h.vars_eq, hxy]

theorem Step.getElem?_eq (h : Step σ τ) {z : Nat} (hlt : z < σ.vars.size) (hz : ¬ σ.Unbound z) :
    τ.vars[z]? = σ.vars[z]? := by
  cases h with
  | var h => exact h.getElem?_eq hlt hz
  | table h => rw [h.vars_eq]

/-- What resolves to one term keeps resolving to one term. -/
theorem Step.resolve_congr (h : Step σ τ) (hσ : σ.Linked) {t u : Term} (ht : t.In σ) (hu : u.In σ)
    (htu : σ.resolve t = σ.resolve u) : τ.resolve t = τ.resolve u := by
  -- a common value stays with both sides, and a common variable means one representative
  rcases htr : σ.resolve t with v | x
  · rw [h.resolve_eq_val hσ ht htr, h.resolve_eq_val hσ hu (htu ▸ htr)]
  · cases t with
    | val w => cases htr
    | var y =>
      cases u with
      | val w => cases htu.symm.trans htr
      | var z =>
        have hy : σ.representative y = x := (resolveVar_eq_var.mp htr).1
        have hz : σ.representative z = x := (resolveVar_eq_var.mp (htu.symm.trans htr)).1
        exact resolveVar_eq_of_representative_eq (h.representative_eq hσ (hy.trans hz.symm))

/-- A new value of a term is the value that its variable has been bound to. -/
theorem Step.resolve_val_cases (h : Step σ τ) (hσ : σ.Linked) {t : Term} (ht : t.In σ) {v : Value}
    (hv : τ.resolve t = .val v) :
    σ.resolve t = .val v ∨ ∃ x, σ.resolve t = .var x ∧ τ.vars[x]? = some (.bound v) ∧ v.In σ := by
  cases h with
  | table h => exact .inl ((resolve_of_vars_eq h.vars_eq t).symm.trans hv)
  | var h =>
    cases h with
    | park hx => exact .inl ((resolve_park hσ hx _ t).symm.trans hv)
    | newVar hs =>
      cases t with
      | val w => exact .inl hv
      | var z => exact .inl ((resolveVar_newVar hσ hs ht).symm.trans hv)
    | binds h =>
      cases h with
      | @assign x w hx hw =>
        -- only terms that stood for the assigned variable get a value
        by_cases hres : σ.resolve t = .var x
        · rw [resolve_assign_of_eq hσ hx w hres] at hv
          cases hv
          exact .inr ⟨x, hres, by rw [assign_getElem? hx, if_pos rfl], hw⟩
        · rw [resolve_assign_of_ne hσ hx w hres] at hv
          exact .inl hv
      | @merge x y hx hy hne =>
        by_cases hres : σ.resolve t = .var (min x y)
        · rw [resolve_merge_of_eq hσ hx hy hne hres] at hv
          cases hv
        · rw [resolve_merge_of_ne hσ hx hy hne hres] at hv
          exact .inl hv

/-! ## Any number of changes -/

/-- Any number of bindings and merges. -/
abbrev BindsMany : Store → Store → Prop := Relation.ReflTransGen Binds

namespace BindsMany

theorem evolves (h : σ.BindsMany τ) : σ.Evolves τ :=
  Relation.ReflTransGen.mono (fun _ _ h => .var (.binds h)) _ _ h

theorem unbound (h : σ.BindsMany τ) {z : Nat} (hz : τ.Unbound z) : σ.Unbound z := by
  induction h with
  | refl => exact hz
  | tail _ hstep ih => exact ih (hstep.unbound hz)

theorem getElem?_eq (h : σ.BindsMany τ) {z : Nat} (hz : ¬ σ.Unbound z) : τ.vars[z]? = σ.vars[z]? := by
  induction h with
  | refl => rfl
  | tail hrun hstep ih => rw [hstep.getElem?_eq fun hu => hz (unbound hrun hu), ih]

/-- A new link leads to a variable that has been unbound before. -/
theorem link_cases (h : σ.BindsMany τ) {z w : Nat} (hz : τ.vars[z]? = some (.link w)) :
    σ.vars[z]? = some (.link w) ∨ σ.Unbound w := by
  induction h with
  | refl => exact .inl hz
  | tail hrun hstep ih =>
    rcases hstep.link_cases hz with hold | hw
    · exact ih hold
    · exact .inr (unbound hrun hw)

end BindsMany

namespace Evolves

theorem single (h : Step σ τ) : σ.Evolves τ := Relation.ReflTransGen.single h

theorem grows (h : σ.Evolves τ) : σ.Grows τ := by
  induction h with
  | refl => exact .refl σ
  | tail _ hstep ih => exact ih.trans hstep.grows

theorem closed (h : σ.Evolves τ) (hσ : σ.Closed) : τ.Closed := by
  induction h with
  | refl => exact hσ
  | tail _ hstep ih => exact hstep.closed ih

/-- A term with a value keeps it for ever. -/
theorem resolve_eq_val (h : σ.Evolves τ) (hσ : σ.Closed) {t : Term} (ht : t.In σ) {v : Value}
    (hv : σ.resolve t = .val v) : τ.resolve t = .val v := by
  induction h with
  | refl => exact hv
  | tail hrun hstep ih =>
    exact hstep.resolve_eq_val (closed hrun hσ).linked ((grows hrun).term ht) ih

/-- Variables that have been merged stay merged for ever. -/
theorem representative_eq (h : σ.Evolves τ) (hσ : σ.Closed) {x y : Nat}
    (hxy : σ.representative x = σ.representative y) : τ.representative x = τ.representative y := by
  induction h with
  | refl => exact hxy
  | tail hrun hstep ih => exact hstep.representative_eq (closed hrun hσ).linked ih

/-- Terms that resolve to the same go on to do so. -/
theorem resolve_congr (h : σ.Evolves τ) (hσ : σ.Closed) {t u : Term} (ht : t.In σ) (hu : u.In σ)
    (htu : σ.resolve t = σ.resolve u) : τ.resolve t = τ.resolve u := by
  induction h with
  | refl => exact htu
  | tail hrun hstep ih =>
    exact hstep.resolve_congr (closed hrun hσ).linked ((grows hrun).term ht) ((grows hrun).term hu) ih

/-- A variable that has a value or a link keeps it for ever. -/
theorem getElem?_eq (h : σ.Evolves τ) {z : Nat} {s : VarState} (hs : σ.vars[z]? = some s)
    (hz : ∀ ks, s ≠ .unbound ks) : τ.vars[z]? = some s := by
  -- being bound or linked is itself kept, which is what the hypothesis is used for at every step
  induction h with
  | refl => exact hs
  | tail _ hstep ih =>
    rw [← ih]
    refine hstep.getElem?_eq (Array.getElem?_eq_some_iff.mp ih).1 fun ⟨ks, hks⟩ => ?_
    exact hz ks (Option.some.inj (ih.symm.trans hks))

end Evolves

end Dataflow.Store
