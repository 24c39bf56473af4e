/-
Representatives: what the operations on variables do to the forest of links.

`representative` follows links for as long as they lead to a larger number inside the store, which is how it
comes to an end on every store. In a store whose links all do that (`Linked`) the guard never stops it early:
the representative is at the end of the chain, unbound or bound, and never a link.

The second half has one equation for each operation: what it makes of the representative of every variable
and of the term that every term resolves to. Binding touches the terms that resolve to the variable that is
bound, merging those that resolve to the older of the two variables, and nothing else changes either. All
that is said elsewhere about stores that grow rests on these equations.
-/
import Dataflow.Store.Variable

set_option autoImplicit false

namespace Dataflow.Store

variable {σ τ : Store} {x y : Nat}

/-- Every link leads to a younger variable of the store. -/
def Linked (σ : Store) : Prop :=
  ∀ x y : Nat, σ.vars[x]? = some (.link y) → x < y ∧ y < σ.vars.size

/-- The variable exists and has neither a value nor a link. -/
def Unbound (σ : Store) (x : Nat) : Prop := ∃ ks, σ.vars[x]? = some (.unbound ks)

theorem Unbound.lt_size (h : σ.Unbound x) : x < σ.vars.size := by
  obtain ⟨ks, hks⟩ := h
  exact (Array.getElem?_eq_some_iff.mp hks).1

theorem Unbound.ne_link (h : σ.Unbound x) : σ.vars[x]? ≠ some (.link y) := by
  obtain ⟨ks, hks⟩ := h
  rw [hks]
  simp

theorem Unbound.min (hx : σ.Unbound x) (hy : σ.Unbound y) : σ.Unbound (min x y) := by
  rcases Nat.le_total x y with h | h
  · rwa [Nat.min_eq_left h]
  · rwa [Nat.min_eq_right h]

theorem Unbound.max (hx : σ.Unbound x) (hy : σ.Unbound y) : σ.Unbound (max x y) := by
  rcases Nat.le_total x y with h | h
  · rwa [Nat.max_eq_right h]
  · rwa [Nat.max_eq_left h]

/-! ## The end of the chain -/

/-- A link is followed to the representative of where it leads. -/
theorem representative_of_link (hσ : σ.Linked) (h : σ.vars[x]? = some (.link y)) :
    σ.representative x = σ.representative y := by
  rw [representative, h]
  exact dif_pos (hσ x y h)

/-- A variable without a link represents itself. -/
theorem representative_of_ne_link (h : ∀ y, σ.vars[x]? ≠ some (.link y)) : σ.representative x = x := by
  rw [representative]
  split
  · next y hy => exact absurd hy (h y)
  · rfl

theorem Unbound.representative (h : σ.Unbound x) : σ.representative x = x :=
  representative_of_ne_link fun _ => h.ne_link

/-- Links lead up, with or without `Linked`: the guard sees to that. -/
theorem le_representative (σ : Store) (x : Nat) : x ≤ σ.representative x := by
  fun_induction representative σ x with
  | case1 x y _ h ih => exact Nat.le_trans (Nat.le_of_lt h.1) ih
  | case2 x y _ h => exact Nat.le_refl x
  | case3 x _ => exact Nat.le_refl x

/-- The representative of a variable of the store is in the store. -/
theorem representative_lt_size (h : x < σ.vars.size) : σ.representative x < σ.vars.size := by
  fun_induction representative σ x with
  | case1 x y _ hlt ih => exact ih hlt.2
  | case2 x y _ _ => exact h
  | case3 x _ => exact h

/-- The representative is the end of the chain: there is no link to follow from it. -/
theorem representative_ne_link (hσ : σ.Linked) (x y : Nat) :
    σ.vars[σ.representative x]? ≠ some (.link y) := by
  fun_induction representative σ x with
  | case1 x z _ _ ih => exact ih
  -- the guard of `representative` never fails on links that lead up
  | case2 x z hz hlt => exact absurd (hσ x z hz) hlt
  | case3 x hx => exact hx y

/-- A representative represents itself. -/
theorem representative_representative (hσ : σ.Linked) (x : Nat) :
    σ.representative (σ.representative x) = σ.representative x :=
  representative_of_ne_link (representative_ne_link hσ x)

/-- Representatives depend on the links alone. -/
theorem representative_congr (hσ : σ.Linked) (hτ : τ.Linked)
    (h : ∀ x y : Nat, τ.vars[x]? = some (.link y) ↔ σ.vars[x]? = some (.link y)) (x : Nat) :
    τ.representative x = σ.representative x := by
  -- the induction is on the chain in `σ`, which by `h` is the chain in `τ` as well
  fun_induction representative σ x with
  | case1 x y hy _ ih => rw [representative_of_link hτ ((h x y).mpr hy), ih]
  | case2 x y hy hlt => exact absurd (hσ x y hy) hlt
  | case3 x hx => exact representative_of_ne_link fun y hy => hx y ((h x y).mp hy)

/-! ## Resolving -/

theorem resolveVar_of_bound {v : Value} (h : σ.vars[σ.representative x]? = some (.bound v)) :
    σ.resolveVar x = .val v := by
  rw [resolveVar, h]

/-- A variable that is bound itself resolves to its value. -/
theorem resolveVar_of_getElem? {v : Value} (h : σ.vars[x]? = some (.bound v)) : σ.resolveVar x = .val v := by
  have hrep : σ.representative x = x := representative_of_ne_link fun y hy => by
    rw [h] at hy
    cases hy
  exact resolveVar_of_bound (hrep.symm ▸ h)

theorem resolveVar_of_ne_bound (h : ∀ v, σ.vars[σ.representative x]? ≠ some (.bound v)) :
    σ.resolveVar x = .var (σ.representative x) := by
  rw [resolveVar]
  split
  · next v hv => exact absurd hv (h v)
  · rfl

/-- A variable has a value just if its representative is bound to it. -/
theorem resolveVar_eq_val {v : Value} :
    σ.resolveVar x = .val v ↔ σ.vars[σ.representative x]? = some (.bound v) := by
  refine ⟨fun h => ?_, resolveVar_of_bound⟩
  rw [resolveVar] at h
  split at h
  · next w hw =>
    injection h with h
    rw [hw, h]
  · cases h

/-- A variable resolves to the variable that represents it, where that one has no value. -/
theorem resolveVar_eq_var :
    σ.resolveVar x = .var y ↔ σ.representative x = y ∧ ∀ v, σ.vars[y]? ≠ some (.bound v) := by
  constructor
  · intro h
    by_cases hb : ∃ v, σ.vars[σ.representative x]? = some (.bound v)
    · obtain ⟨v, hv⟩ := hb
      rw [resolveVar_of_bound hv] at h
      cases h
    · have hne : ∀ v, σ.vars[σ.representative x]? ≠ some (.bound v) := fun v hv => hb ⟨v, hv⟩
      rw [resolveVar_of_ne_bound hne] at h
      injection h with h
      subst h
      exact ⟨rfl, hne⟩
  · rintro ⟨rfl, h⟩
    exact resolveVar_of_ne_bound h

/-- What resolves to a variable resolves to an unbound one. -/
theorem unbound_of_resolveVar (hσ : σ.Linked) (hx : x < σ.vars.size) (h : σ.resolveVar x = .var y) :
    σ.Unbound y := by
  obtain ⟨rfl, hb⟩ := resolveVar_eq_var.mp h
  have hlt := representative_lt_size hx
  -- of the three states a value is excluded by `hb` and a link by being at the end of the chain
  rcases hs : σ.vars[σ.representative x] with ks | v | z
  · exact ⟨ks, by rw [Array.getElem?_eq_getElem hlt, hs]⟩
  · exact absurd (by rw [Array.getElem?_eq_getElem hlt, hs]) (hb v)
  · exact absurd (by rw [Array.getElem?_eq_getElem hlt, hs]) (representative_ne_link hσ x z)

theorem Unbound.resolveVar (h : σ.Unbound x) : σ.resolveVar x = .var x := by
  refine resolveVar_eq_var.mpr ⟨h.representative, fun v hv => ?_⟩
  obtain ⟨ks, hks⟩ := h
  rw [hks] at hv
  cases hv

theorem isBound_of_val {v : Value} (h : σ.resolveVar x = .val v) : σ.isBound x = true := by
  rw [isBound, h]

theorem isBound_of_var (h : σ.resolveVar x = .var y) : σ.isBound x = false := by
  rw [isBound, h]

/-- A variable is bound exactly where it resolves to a value. -/
theorem isBound_eq_true : σ.isBound x = true ↔ ∃ v, σ.resolveVar x = .val v := by
  rw [isBound]
  cases σ.resolveVar x <;> simp

theorem resolveVar_of_not_isBound (h : σ.isBound x = false) : σ.resolveVar x = .var (σ.representative x) := by
  refine resolveVar_of_ne_bound fun v hv => ?_
  rw [isBound_of_val (resolveVar_of_bound hv)] at h
  cases h

theorem unbound_of_not_isBound (hσ : σ.Linked) (hx : x < σ.vars.size) (h : σ.isBound x = false) :
    σ.Unbound (σ.representative x) := unbound_of_resolveVar hσ hx (resolveVar_of_not_isBound h)

/-- Variables with one representative stand for one term. -/
theorem resolveVar_eq_of_representative_eq (h : σ.representative x = σ.representative y) :
    σ.resolveVar x = σ.resolveVar y := by
  unfold resolveVar
  rw [h]

/-- Resolving a second time changes nothing. -/
theorem resolve_resolve (hσ : σ.Linked) (t : Term) : σ.resolve (σ.resolve t) = σ.resolve t := by
  cases t with
  | val v => rfl
  | var x =>
    rcases h : σ.resolveVar x with v | y
    · simp only [resolve, h]
    -- what stands for itself is its own representative
    · have hy : σ.representative x = y := (resolveVar_eq_var.mp h).1
      simp only [resolve, h]
      rw [← h, ← hy]
      exact resolveVar_eq_of_representative_eq (representative_representative hσ x)

/-! ## What the operations do to the states of variables -/

/-- Waking touches the log of effects and nothing else. -/
theorem wakeAll_eq (σ : Store) (ks : List Continuation) :
    σ.wakeAll ks =
      { σ with effects := σ.effects ++ (ks.map fun k => Effect.wake k.resumer k.stack).toArray } := by
  induction ks generalizing σ with
  | nil => simp [wakeAll]
  | cons k ks ih =>
    have hstep : σ.wakeAll (k :: ks) = (σ.emit (.wake k.resumer k.stack)).wakeAll ks := rfl
    rw [hstep, ih]
    simp [emit]

@[simp] theorem wakeAll_vars (σ : Store) (ks : List Continuation) : (σ.wakeAll ks).vars = σ.vars := by
  rw [wakeAll_eq]

theorem assign_vars (σ : Store) (x : Nat) (v : Value) :
    (σ.assign x v).vars = σ.vars.setIfInBounds x (.bound v) := by
  rw [assign, wakeAll_vars]
  rfl

/-- A merge puts a link at the older variable, and the continuations of both at the younger one. -/
theorem merge_vars (σ : Store) (x y : Nat) :
    (σ.merge x y).vars =
      (σ.vars.setIfInBounds (max x y) (.unbound (σ.waiting (max x y) ++ σ.waiting (min x y)))).setIfInBounds
        (min x y) (.link (max x y)) := rfl

theorem park_vars (σ : Store) (x : Nat) (k : Continuation) :
    (σ.park x k).vars = σ.vars.setIfInBounds x (.unbound (σ.waiting x ++ [k])) := rfl

/-- The state of every variable after binding `x`. -/
theorem assign_getElem? (hx : σ.Unbound x) (v : Value) (z : Nat) :
    (σ.assign x v).vars[z]? = if z = x then some (.bound v) else σ.vars[z]? := by
  rw [assign_vars, Array.getElem?_setIfInBounds]
  by_cases hz : z = x
  · rw [if_pos hz, if_pos hz.symm, if_pos hx.lt_size]
  · rw [if_neg hz, if_neg (Ne.symm hz)]

/-- The state of every variable after a computation has begun to wait for `x`. -/
theorem park_getElem? (hx : σ.Unbound x) (k : Continuation) (z : Nat) :
    (σ.park x k).vars[z]? = if z = x then some (.unbound (σ.waiting x ++ [k])) else σ.vars[z]? := by
  rw [park_vars, Array.getElem?_setIfInBounds]
  by_cases hz : z = x
  · rw [if_pos hz, if_pos hz.symm, if_pos hx.lt_size]
  · rw [if_neg hz, if_neg (Ne.symm hz)]

/-- The state of every variable after merging `x` and `y`. -/
theorem merge_getElem? (hx : σ.Unbound x) (hy : σ.Unbound y) (z : Nat) :
    (σ.merge x y).vars[z]? =
      if z = min x y then some (.link (max x y))
      else if z = max x y then some (.unbound (σ.waiting (max x y) ++ σ.waiting (min x y)))
      else σ.vars[z]? := by
  -- the older variable is written last, so it is looked up first
  have hxlt := hx.lt_size
  have hylt := hy.lt_size
  rw [merge_vars, Array.getElem?_setIfInBounds, Array.getElem?_setIfInBounds, Array.size_setIfInBounds]
  by_cases hmin : z = min x y
  · rw [if_pos hmin, if_pos hmin.symm, if_pos (by omega)]
  · rw [if_neg hmin, if_neg (Ne.symm hmin)]
    by_cases hmax : z = max x y
    · rw [if_pos hmax, if_pos hmax.symm, if_pos (by omega)]
    · rw [if_neg hmax, if_neg (Ne.symm hmax)]

theorem newVar_getElem? (σ : Store) (s : VarState) (z : Nat) :
    (σ.newVar s).2.vars[z]? = if z = σ.vars.size then some s else σ.vars[z]? :=
  Array.getElem?_push

theorem waiting_setVar_of_ne (hne : x ≠ y) (s : VarState) : (σ.setVar x s).waiting y = σ.waiting y := by
  simp [waiting, setVar, Array.getElem?_setIfInBounds_ne hne]

@[simp] theorem assign_size (σ : Store) (x : Nat) (v : Value) :
    (σ.assign x v).vars.size = σ.vars.size := by
  rw [assign_vars, Array.size_setIfInBounds]

@[simp] theorem merge_size (σ : Store) (x y : Nat) : (σ.merge x y).vars.size = σ.vars.size := by
  rw [merge_vars, Array.size_setIfInBounds, Array.size_setIfInBounds]

@[simp] theorem park_size (σ : Store) (x : Nat) (k : Continuation) :
    (σ.park x k).vars.size = σ.vars.size := by
  rw [park_vars, Array.size_setIfInBounds]

@[simp] theorem newVar_size (σ : Store) (s : VarState) :
    (σ.newVar s).2.vars.size = σ.vars.size + 1 :=
  Array.size_push ..

theorem newVar_lt_size (σ : Store) (s : VarState) : (σ.newVar s).1 < (σ.newVar s).2.vars.size := by
  rw [newVar_size]
  exact Nat.lt_succ_self _

/-! ## Links stay links -/

/-- Binding a variable keeps the links ascending. -/
theorem Linked.assign (hσ : σ.Linked) (hx : σ.Unbound x) (v : Value) : (σ.assign x v).Linked := by
  intro z w h
  rw [assign_getElem? hx] at h
  rw [assign_size]
  by_cases hz : z = x
  · rw [if_pos hz] at h
    cases h
  · rw [if_neg hz] at h
    exact hσ z w h

/-- Waiting for a variable keeps the links ascending. -/
theorem Linked.park (hσ : σ.Linked) (hx : σ.Unbound x) (k : Continuation) : (σ.park x k).Linked := by
  intro z w h
  rw [park_getElem? hx] at h
  rw [park_size]
  by_cases hz : z = x
  · rw [if_pos hz] at h
    cases h
  · rw [if_neg hz] at h
    exact hσ z w h

/-- A merge keeps the links ascending. -/
theorem Linked.merge (hσ : σ.Linked) (hx : σ.Unbound x) (hy : σ.Unbound y) (hne : x ≠ y) :
    (σ.merge x y).Linked := by
  have hxlt := hx.lt_size
  have hylt := hy.lt_size
  -- the only new link leads from the smaller number to the larger one
  intro z w h
  rw [merge_getElem? hx hy] at h
  rw [merge_size]
  by_cases hmin : z = min x y
  · rw [if_pos hmin] at h
    cases h
    omega
  · rw [if_neg hmin] at h
    by_cases hmax : z = max x y
    · rw [if_pos hmax] at h
      cases h
    · rw [if_neg hmax] at h
      exact hσ z w h

/-- A new variable keeps the links ascending. -/
theorem Linked.newVar (hσ : σ.Linked) {s : VarState} (hs : ∀ y, s ≠ .link y) : (σ.newVar s).2.Linked := by
  intro z w h
  rw [newVar_getElem?] at h
  rw [newVar_size]
  by_cases hz : z = σ.vars.size
  · rw [if_pos hz] at h
    exact absurd (Option.some.inj h) (hs w)
  · rw [if_neg hz] at h
    have := hσ z w h
    omega

/-! ## What the operations do to representatives -/

/-- Binding a variable leaves every variable with its representative. -/
theorem representative_assign (hσ : σ.Linked) (hx : σ.Unbound x) (v : Value) (z : Nat) :
    (σ.assign x v).representative z = σ.representative z := by
  refine representative_congr hσ (hσ.assign hx v) (fun z w => ?_) z
  rw [assign_getElem? hx]
  by_cases hz : z = x
  · rw [if_pos hz, hz]
    exact ⟨nofun, fun h => absurd h hx.ne_link⟩
  · rw [if_neg hz]

/-- Waiting for a variable leaves every variable with its representative. -/
theorem representative_park (hσ : σ.Linked) (hx : σ.Unbound x) (k : Continuation) (z : Nat) :
    (σ.park x k).representative z = σ.representative z := by
  refine representative_congr hσ (hσ.park hx k) (fun z w => ?_) z
  rw [park_getElem? hx]
  by_cases hz : z = x
  · rw [if_pos hz, hz]
    exact ⟨nofun, fun h => absurd h hx.ne_link⟩
  · rw [if_neg hz]

/-- A new variable leaves every variable with its representative. -/
theorem representative_newVar (hσ : σ.Linked) {s : VarState} (hs : ∀ y, s ≠ .link y) (z : Nat) :
    (σ.newVar s).2.representative z = σ.representative z := by
  refine representative_congr hσ (hσ.newVar hs) (fun z w => ?_) z
  rw [newVar_getElem?]
  by_cases hz : z = σ.vars.size
  · rw [if_pos hz, hz, Array.getElem?_eq_none (Nat.le_refl _)]
    exact ⟨fun h => absurd (Option.some.inj h) (hs w), nofun⟩
  · rw [if_neg hz]

/-- Merging moves what the older variable represented to the younger one. -/
theorem representative_merge (hσ : σ.Linked) (hx : σ.Unbound x) (hy : σ.Unbound y) (hne : x ≠ y)
    (z : Nat) :
    (σ.merge x y).representative z =
      if σ.representative z = min x y then max x y else σ.representative z := by
  have hτ : (σ.merge x y).Linked := hσ.merge hx hy hne
  have hstate := merge_getElem? hx hy
  -- the chain from `z` is followed in the old store: only its last link can be new
  fun_induction representative σ z with
  | case1 z w hw _ ih =>
    have hmin : z ≠ min x y := fun e => (hx.min hy).ne_link (e ▸ hw)
    have hmax : z ≠ max x y := fun e => (hx.max hy).ne_link (e ▸ hw)
    have hzw : (σ.merge x y).vars[z]? = some (.link w) := by
      rw [hstate z, if_neg hmin, if_neg hmax, hw]
    rw [representative_of_link hτ hzw, ih]
  | case2 z w hw hlt => exact absurd (hσ z w hw) hlt
  | case3 z hz =>
    by_cases hmin : z = min x y
    -- the chain ended at the older variable and now goes on to the younger one, where it ends
    · have hlink : (σ.merge x y).vars[z]? = some (.link (max x y)) := by rw [hstate z, if_pos hmin]
      have hend : ∀ w, (σ.merge x y).vars[max x y]? ≠ some (.link w) := by
        intro w
        rw [hstate, if_neg (by omega), if_pos rfl]
        simp
      rw [if_pos hmin, representative_of_link hτ hlink, representative_of_ne_link hend]
    · rw [if_neg hmin]
      refine representative_of_ne_link fun w hw => ?_
      rw [hstate z, if_neg hmin] at hw
      by_cases hmax : z = max x y
      · rw [if_pos hmax] at hw
        cases hw
      · rw [if_neg hmax] at hw
        exact hz w hw

/-! ## What the operations do to terms -/

/-- What a variable resolves to depends on its representative and on the value that this has. -/
theorem resolveVar_congr {z : Nat} (hrep : τ.representative z = σ.representative z)
    (hbound : ∀ v, τ.vars[σ.representative z]? = some (.bound v) ↔
      σ.vars[σ.representative z]? = some (.bound v)) :
    τ.resolveVar z = σ.resolveVar z := by
  rcases h : σ.resolveVar z with v | w
  · exact resolveVar_eq_val.mpr (hrep ▸ (hbound v).mpr (resolveVar_eq_val.mp h))
  · obtain ⟨rfl, hne⟩ := resolveVar_eq_var.mp h
    exact resolveVar_eq_var.mpr ⟨hrep, fun v hv => hne v ((hbound v).mp hv)⟩

/-- A term that resolves to `x` has `x` as its representative, and conversely while `x` is unbound. -/
theorem resolveVar_eq_var_iff_of_unbound (hx : σ.Unbound x) {z : Nat} :
    σ.resolveVar z = .var x ↔ σ.representative z = x := by
  obtain ⟨ks, hks⟩ := hx
  refine resolveVar_eq_var.trans ⟨And.left, fun h => ⟨h, fun v hv => ?_⟩⟩
  rw [hks] at hv
  cases hv

/-- What stood for the variable stands for its value after it is bound. -/
theorem resolve_assign_of_eq (hσ : σ.Linked) (hx : σ.Unbound x) (v : Value) {t : Term}
    (h : σ.resolve t = .var x) : (σ.assign x v).resolve t = .val v := by
  cases t with
  | val w => cases h
  | var z =>
    have hz : σ.representative z = x := (resolveVar_eq_var_iff_of_unbound hx).mp h
    refine resolveVar_eq_val.mpr ?_
    rw [representative_assign hσ hx, hz, assign_getElem? hx, if_pos rfl]

/-- What did not stand for the variable keeps what it stood for. -/
theorem resolve_assign_of_ne (hσ : σ.Linked) (hx : σ.Unbound x) (v : Value) {t : Term}
    (h : σ.resolve t ≠ .var x) : (σ.assign x v).resolve t = σ.resolve t := by
  cases t with
  | val w => rfl
  | var z =>
    have hz : σ.representative z ≠ x := fun e => h ((resolveVar_eq_var_iff_of_unbound hx).mpr e)
    refine resolveVar_congr (representative_assign hσ hx v z) fun w => ?_
    rw [assign_getElem? hx, if_neg hz]

/-- What stood for the older of two variables stands for the younger one after they are merged. -/
theorem resolve_merge_of_eq (hσ : σ.Linked) (hx : σ.Unbound x) (hy : σ.Unbound y) (hne : x ≠ y) {t : Term}
    (h : σ.resolve t = .var (min x y)) : (σ.merge x y).resolve t = .var (max x y) := by
  cases t with
  | val w => cases h
  | var z =>
    have hz : σ.representative z = min x y := (resolveVar_eq_var.mp h).1
    refine resolveVar_eq_var.mpr ⟨?_, fun v hv => ?_⟩
    · rw [representative_merge hσ hx hy hne, if_pos hz]
    · rw [merge_getElem? hx hy, if_neg (by omega), if_pos rfl] at hv
      cases hv

/-- A merge leaves alone what did not stand for the older of the two variables. -/
theorem resolve_merge_of_ne (hσ : σ.Linked) (hx : σ.Unbound x) (hy : σ.Unbound y) (hne : x ≠ y) {t : Term}
    (h : σ.resolve t ≠ .var (min x y)) : (σ.merge x y).resolve t = σ.resolve t := by
  cases t with
  | val w => rfl
  | var z =>
    have hz : σ.representative z ≠ min x y := fun e =>
      h ((resolveVar_eq_var_iff_of_unbound (hx.min hy)).mpr e)
    refine resolveVar_congr (by rw [representative_merge hσ hx hy hne, if_neg hz]) fun v => ?_
    rw [merge_getElem? hx hy, if_neg hz]
    -- the younger variable was unbound and still is
    by_cases hmax : σ.representative z = max x y
    · obtain ⟨ks, hks⟩ := hx.max hy
      rw [if_pos hmax, hmax, hks]
      exact ⟨nofun, nofun⟩
    · rw [if_neg hmax]

/-- Both sides of a merge end up with the younger variable. -/
theorem resolve_merge (hσ : σ.Linked) (hx : σ.Unbound x) (hy : σ.Unbound y) (hne : x ≠ y) {t : Term}
    (h : σ.resolve t = .var x ∨ σ.resolve t = .var y) : (σ.merge x y).resolve t = .var (max x y) := by
  have hside : ∀ z : Nat, z = x ∨ z = y → σ.resolve t = .var z → (σ.merge x y).resolve t = .var (max x y) := by
    intro z hz h
    by_cases hmin : z = min x y
    · exact resolve_merge_of_eq hσ hx hy hne (hmin ▸ h)
    · have hmax : max x y = z := by omega
      have hne' : σ.resolve t ≠ .var (min x y) := by
        rw [h]
        exact fun e => hmin (Term.var.inj e)
      rw [resolve_merge_of_ne hσ hx hy hne hne', h, hmax]
  exact h.elim (hside x (.inl rfl)) (hside y (.inr rfl))

/-- Waiting for a variable changes nothing that a term stands for. -/
theorem resolve_park (hσ : σ.Linked) (hx : σ.Unbound x) (k : Continuation) (t : Term) :
    (σ.park x k).resolve t = σ.resolve t := by
  cases t with
  | val w => rfl
  | var z =>
    refine resolveVar_congr (representative_park hσ hx k z) fun v => ?_
    rw [park_getElem? hx]
    by_cases hz : σ.representative z = x
    · obtain ⟨ks, hks⟩ := hx
      rw [if_pos hz, hz, hks]
      exact ⟨nofun, nofun⟩
    · rw [if_neg hz]

theorem resolveVar_newVar (hσ : σ.Linked) {s : VarState} (hs : ∀ y, s ≠ .link y) {z : Nat}
    (hz : z < σ.vars.size) : (σ.newVar s).2.resolveVar z = σ.resolveVar z := by
  refine resolveVar_congr (representative_newVar hσ hs z) fun v => ?_
  rw [newVar_getElem?, if_neg (Nat.ne_of_lt (representative_lt_size hz))]

/-- Suspending is refused by a bound variable and otherwise parks at the representative. -/
theorem suspend_of_val {v : Value} (h : σ.resolveVar x = .val v) (k : Continuation) :
    σ.suspend x k = (false, σ) := by
  rw [suspend, h]

theorem suspend_of_var (h : σ.resolveVar x = .var y) (k : Continuation) :
    σ.suspend x k = (true, σ.park y k) := by
  rw [suspend, h]

end Dataflow.Store
