/-
Constraints commute.

A constraint says that two terms are equal. There are several ways of telling it to the store, which differ in the
order in which they look at the sides, and constraints may be told in any order. The stores on the way look nothing
alike: which variable is linked to which, and which of two values a variable gets, depend on what was told before.
Still the outcome is the same. Either all orders succeed or all of them meet a conflict, and when they succeed the
same variables are without a value, they have the same representatives, the values of the others are equal, and the
same computations have been resumed.

The argument needs no diamond. If one order succeeds, its final store is an extension of the first one in which all
constraints hold. Whatever another order does is forced in such an extension (`Walk.Forced`), so it meets no conflict,
and what it makes of a term is equal to the term there. Both final stores have this property with respect to each
other. A variable that is without a value in one of them is then without a value in the other, and since links lead
to younger variables, from the representative of either there is a way up to that of the other, so they are one.
Who has been resumed depends only on which variables have a value.
-/
import Dataflow.Proofs.Actions
import Dataflow.Proofs.Monotone
import Dataflow.Proofs.MostGeneral
import Dataflow.Proofs.Resumption

set_option autoImplicit false

namespace Dataflow

/-! ## Ways of telling a constraint -/

/-- A way of telling the store that two terms are equal. -/
inductive Tell where
  | unify (a b : Term)
  | bindValue (x : VarId) (v : Value)
  | bindVar (x y : VarId)
  | bindTerm (x : VarId) (t : Term)

namespace Tell

/-- What it does. -/
def run : Tell → Action Unit
  | .unify a b => Action.unify a b
  | .bindValue x v => Action.bindValue x v
  | .bindVar x y => Action.bindVar x y
  | .bindTerm x t => Action.bindTerm x t

/-- The terms that it says are equal. -/
def sides : Tell → Term × Term
  | .unify a b => (a, b)
  | .bindValue x v => (.var x, .val v)
  | .bindVar x y => (.var x, .var y)
  | .bindTerm x t => (.var x, t)

/-- Tells one constraint after the other, up to the first conflict. -/
def runAll : List Tell → Action Unit
  | [] => pure ()
  | t :: rest => do
    t.run
    runAll rest

theorem runAll_cons {σ ρ : Store} {t : Tell} {rest : List Tell} (h : t.run σ = .ok () ρ) :
    runAll (t :: rest) σ = runAll rest ρ := by
  rw [runAll, bind_apply, h]

/-- It tells that the two terms of the pair are equal, with either of them first. -/
def Says (t : Tell) (p : Term × Term) : Prop := t.sides = p ∨ t.sides = p.swap

/-- The list tells each of the constraints once, in some order and in some way. -/
def Impose (tells : List Tell) (pairs : List (Term × Term)) : Prop :=
  ∃ order, order.Perm pairs ∧ List.Forall₂ Says tells order

/-- Whatever is told is one of the constraints. -/
theorem Impose.says {tells : List Tell} {pairs : List (Term × Term)} (h : Impose tells pairs) {t : Tell}
    (ht : t ∈ tells) : ∃ p ∈ pairs, t.Says p := by
  obtain ⟨order, hperm, hsays⟩ := h
  obtain ⟨i, hi, rfl⟩ := List.mem_iff_getElem.mp ht
  have hlt : i < order.length := hsays.length_eq ▸ hi
  exact ⟨order[i], hperm.mem_iff.mp (List.getElem_mem hlt), hsays.get hi hlt⟩

/-- Every constraint is told. -/
theorem Impose.said {tells : List Tell} {pairs : List (Term × Term)} (h : Impose tells pairs) {p : Term × Term}
    (hp : p ∈ pairs) : ∃ t ∈ tells, t.Says p := by
  obtain ⟨order, hperm, hsays⟩ := h
  obtain ⟨i, hi, rfl⟩ := List.mem_iff_getElem.mp (hperm.mem_iff.mpr hp)
  have hlt : i < tells.length := hsays.length_eq ▸ hi
  exact ⟨tells[i], List.getElem_mem hlt, hsays.get hlt hi⟩

end Tell

namespace Store

variable {σ τ ρ : Store} {a b t u : Term}

/-! ## Every way is unification of the two sides -/

/-- Unification looks at its sides only through what they resolve to. -/
theorem unify_congr (ha : σ.resolve a = σ.resolve t) (hb : σ.resolve b = σ.resolve u) :
    σ.unify a b = σ.unify t u := by
  rw [unify, unifyAll, ha, hb]
  conv_rhs => rw [unify, unifyAll]

/-- There is nothing to do for terms that resolve to one term, unless that is a float. -/
theorem unify_of_resolve_eq (h : σ.resolve a = σ.resolve b) (ha : σ.FloatFree a) : σ.unify a b = (none, σ) := by
  rw [unify, unifyAll, ← h]
  rcases hres : σ.resolve a with v | x
  · cases v with
    | record r => simp [unifyAll]
    | _ => simp [unifyAll, Value.sameAtom_self (ha.isFloat hres)]
  · simp [unifyAll]

theorem resolve_representative (hσ : σ.Linked) (x : Nat) :
    σ.resolve (.var (σ.representative x)) = σ.resolve (.var x) :=
  resolveVar_eq_of_representative_eq (representative_representative hσ x)

/-- Making two variables equal is unification of them, with one or the other first. -/
theorem unifyVars_eq (hσ : σ.Linked) {x y : Nat} (hx : σ.FloatFree (.var x)) :
    σ.unifyVars x y = σ.unify (.var x) (.var y) ∨ σ.unifyVars x y = σ.unify (.var y) (.var x) := by
  rw [unifyVars]
  split
  · next heq =>
    have hres : σ.resolve (.var x) = σ.resolve (.var y) := resolveVar_eq_of_representative_eq heq
    exact .inl (unify_of_resolve_eq hres hx).symm
  · rcases Nat.le_total (σ.representative x) (σ.representative y) with hle | hle
    · rw [Nat.min_eq_left hle, Nat.max_eq_right hle]
      exact .inl (unify_congr (resolve_representative hσ x) (resolve_representative hσ y))
    · rw [Nat.min_eq_right hle, Nat.max_eq_left hle]
      exact .inr (unify_congr (resolve_representative hσ y) (resolve_representative hσ x))

theorem FreePair.swap {p : Term × Term} (h : σ.FreePair p) : σ.FreePair p.swap := ⟨h.right, h.left⟩

end Store

/-- On terms without floats, telling a constraint is unification of its sides, with one or the other first. -/
theorem Tell.run_eq {σ : Store} (hσ : σ.Linked) (t : Tell) (h : σ.FreePair t.sides) :
    t.run σ = Action.unify t.sides.1 t.sides.2 σ ∨ t.run σ = Action.unify t.sides.2 t.sides.1 σ := by
  -- two variables are unified in one order or the other
  have hvars : ∀ x y : VarId, σ.FloatFree (.var x) →
      Action.bindVar x y σ = Action.unify (.var x) (.var y) σ ∨
        Action.bindVar x y σ = Action.unify (.var y) (.var x) σ := by
    intro x y hx
    simp only [Action.bindVar, Action.unify, Action.ofChange]
    rcases Store.unifyVars_eq hσ (y := y) hx with heq | heq
    · exact .inl (by rw [heq])
    · exact .inr (by rw [heq])
  cases t with
  | unify a b => exact .inl rfl
  | bindValue x v => exact .inl rfl
  | bindVar x y => exact hvars x y h.left.floatFree
  | bindTerm x t =>
    cases t with
    | val v => exact .inl rfl
    | var y => exact hvars x y h.left.floatFree

namespace Store

variable {σ τ ρ : Store} {a b t u : Term}

/-! ## What holds goes on to hold -/

/-- Terms without floats that are equal stay equal. -/
theorem Equal.step (h : FreeStep σ τ) (hσ : σ.Closed) (hab : σ.FreePair (a, b)) (heq : σ.Equal a b) :
    τ.Equal a b := by
  obtain ⟨E, hE, hag⟩ := heq
  have hg := h.step.grows
  -- the set of pairs that justifies it, cut down to records from which no float is reached
  let F : RecordId → RecordId → Prop := fun r s => E r s ∧ σ.FreePair (.val (.record r), .val (.record s))
  have hcut : ∀ p : Term × Term, σ.FreePair p → Agrees E (σ.resolve p.1) (σ.resolve p.2) →
      Agrees F (τ.resolve p.1) (τ.resolve p.2) := by
    intro p hp hag
    refine Agrees.step h hσ hp ?_
    generalize hl : σ.resolve p.1 = l, hr : σ.resolve p.2 = r at hag
    cases hag with
    | var x => exact .var x
    | atom h => exact .atom h
    | record h =>
      exact .record (h.imp_right fun hrs => ⟨hrs, hp.left.of_resolve_eq hσ hl, hp.right.of_resolve_eq hσ hr⟩)
  refine ⟨F, ?_, hcut (a, b) hab hag⟩
  rintro r s ⟨hrs, hfree⟩
  rw [hg.record_eq hfree.left.isIn, hg.record_eq hfree.right.isIn]
  obtain ⟨hshape, hsides⟩ := hE r s hrs
  exact ⟨hshape, fun p hp => hcut p (hfree.sides hσ hp) (hsides p hp)⟩

theorem FreePair.extended {p : Term × Term} (h : σ.Extends τ) (hσ : σ.Closed) (hp : σ.FreePair p) :
    τ.FreePair p := ⟨hp.left.extended h hσ, hp.right.extended h hσ⟩

/-- Terms that are equal stay equal in every extension. -/
theorem Equal.extended (h : σ.Extends τ) (hσ : σ.Closed) (hab : σ.FreePair (a, b)) (heq : σ.Equal a b) :
    τ.Equal a b := by
  induction h with
  | refl => exact heq
  | tail hrun hstep ih =>
    exact ih.step hstep ((Extends.evolves hrun).closed hσ) (hab.extended hrun hσ)

theorem unify_extends (hσ : σ.Closed) (ha : σ.Free a) (hb : σ.Free b) : σ.Extends (σ.unify a b).2 := by
  obtain ⟨e, hrun, hstore, -⟩ := unify_run hσ ha.isIn hb.isIn
  exact hstore ▸ Walk.Run.extends hrun (.start hσ ha hb)

/-! ## What an extension forces -/

/-- Every term of `σ` is equal in `τ` to what `ρ` makes of it: nothing has happened on the way from `σ` to `ρ` that is
not forced in `τ`. -/
structure Implied (σ τ ρ : Store) : Prop where
  closed : ρ.Closed
  grows : σ.Grows ρ
  models : ∀ t, σ.Free t → σ.Free (ρ.resolve t) ∧ τ.Equal t (ρ.resolve t)

theorem Implied.start (hσ : σ.Closed) (hτ : σ.Extends τ) : Implied σ τ σ := by
  refine ⟨hσ, .refl σ, fun t ht => ⟨ht.resolve hσ, .of_resolve_eq ?_ (ht.extended hτ hσ).floatFree⟩⟩
  exact hτ.evolves.resolve_congr hσ ht.isIn (hσ.resolve ht.isIn) (resolve_resolve hσ.linked t).symm

/-- Making terms equal that are equal in `τ` meets no conflict and does nothing that is not forced there. -/
theorem Implied.unify (h : Implied σ τ ρ) (hσ : σ.Closed) (hτ : σ.Extends τ) (hfree : σ.FreePair (a, b))
    (hab : τ.Equal a b) : (ρ.unify a b).1 = none ∧ Implied σ τ (ρ.unify a b).2 := by
  have ha := h.grows.term hfree.left.isIn
  have hb := h.grows.term hfree.right.isIn
  obtain ⟨e, hrun, hstore, hends⟩ := unify_run h.closed ha hb
  have hstart : Walk.Forced σ τ ⟨{}, [(a, b)], ρ⟩ := by
    refine ⟨closed_walk h.closed ha hb, h.grows, fun p hp => ?_, h.models⟩
    rw [List.mem_singleton.mp hp]
    exact ⟨hfree, hab⟩
  have hforced : e.Forced σ τ := Walk.Run.forced hrun hσ hτ hstart
  refine ⟨?_, hstore ▸ ⟨hforced.closed.store, hforced.grows, hforced.models⟩⟩
  generalize (ρ.unify a b).1 = outcome at hends
  cases hends with
  | done => rfl
  | clash f hwork hclash => exact absurd hclash (hforced.not_clash hσ hτ (hwork ▸ List.mem_cons_self))

end Store

/-! ## One order: the constraints hold afterwards -/

namespace Tell

variable {σ τ ρ : Store} {tells : List Tell}

/-- A constraint that has been told holds. -/
theorem run_ok (hσ : σ.Closed) (t : Tell) (h : σ.FreePair t.sides) (hrun : t.run σ = .ok () τ) :
    σ.Extends τ ∧ σ.BindsMany τ ∧ τ.Equal t.sides.1 t.sides.2 := by
  rcases t.run_eq hσ.linked h with heq | heq
  · rw [heq] at hrun
    obtain ⟨hnone, rfl⟩ := Store.unify_eq_ok.mp hrun
    exact ⟨Store.unify_extends hσ h.left h.right, Store.unify_binds hσ h.left.isIn h.right.isIn,
      Store.equal_of_unify hσ h.left h.right hnone⟩
  · rw [heq] at hrun
    obtain ⟨hnone, rfl⟩ := Store.unify_eq_ok.mp hrun
    have hextends := Store.unify_extends hσ h.right h.left
    exact ⟨hextends, Store.unify_binds hσ h.right.isIn h.left.isIn,
      (Store.equal_of_unify hσ h.right h.left hnone).symm (h.right.extended hextends hσ).floatFree⟩

/-- Constraints that have been told one after the other all hold in the end. -/
theorem runAll_ok (hσ : σ.Closed) (h : ∀ t ∈ tells, σ.FreePair t.sides) (hrun : runAll tells σ = .ok () τ) :
    σ.Extends τ ∧ σ.BindsMany τ ∧ ∀ t ∈ tells, τ.Equal t.sides.1 t.sides.2 := by
  induction tells generalizing σ with
  | nil =>
    cases hrun
    exact ⟨.refl, .refl, fun t ht => absurd ht List.not_mem_nil⟩
  | cons t rest ih =>
    rw [runAll] at hrun
    obtain ⟨_, ρ, hfirst, hlast⟩ := Action.bind_eq_ok hrun
    obtain ⟨ht, hrest⟩ := List.forall_mem_cons.mp h
    obtain ⟨hextends, hbinds, hequal⟩ := run_ok hσ t ht hfirst
    have hρ := hextends.evolves.closed hσ
    obtain ⟨hextends', hbinds', hequals⟩ := ih hρ (fun u hu => (hrest u hu).extended hextends hσ) hlast
    -- the first constraint goes on to hold while the others are told
    refine ⟨hextends.trans hextends', hbinds.trans hbinds', List.forall_mem_cons.mpr ⟨?_, hequals⟩⟩
    exact hequal.extended hextends' hρ (ht.extended hextends hσ)

/-! ## The other orders: nothing happens but what is forced -/

/-- A constraint that holds in `τ` is told with success to a store that `τ` implies, and `τ` implies what comes of it. -/
theorem run_implied (h : Store.Implied σ τ ρ) (hσ : σ.Closed) (hτ : σ.Extends τ) (hρ : σ.Extends ρ) (t : Tell)
    (hfree : σ.FreePair t.sides) (hequal : τ.Equal t.sides.1 t.sides.2) :
    ∃ ρ', t.run ρ = .ok () ρ' ∧ Store.Implied σ τ ρ' := by
  rcases t.run_eq h.closed.linked (hfree.extended hρ hσ) with heq | heq
  · obtain ⟨hnone, himplied⟩ := h.unify hσ hτ hfree hequal
    exact ⟨_, heq.trans (Store.unify_eq_ok.mpr ⟨hnone, rfl⟩), himplied⟩
  · have hequal' := hequal.symm (hfree.left.extended hτ hσ).floatFree
    obtain ⟨hnone, himplied⟩ := h.unify hσ hτ hfree.swap hequal'
    exact ⟨_, heq.trans (Store.unify_eq_ok.mpr ⟨hnone, rfl⟩), himplied⟩

/-- Constraints that hold in a store can be told to a store that it implies, and it implies what comes of this. -/
theorem runAll_implied (h : Store.Implied σ τ ρ) (hσ : σ.Closed) (hτ : σ.Extends τ) (hρ : σ.Extends ρ)
    (hfree : ∀ t ∈ tells, σ.FreePair t.sides) (hequal : ∀ t ∈ tells, τ.Equal t.sides.1 t.sides.2) :
    ∃ ρ', runAll tells ρ = .ok () ρ' ∧ Store.Implied σ τ ρ' := by
  induction tells generalizing ρ with
  | nil => exact ⟨ρ, rfl, h⟩
  -- the first constraint adds nothing that does not hold already, so that the others are told to such a store again
  | cons t rest ih =>
    obtain ⟨ht, hrest⟩ := List.forall_mem_cons.mp hfree
    obtain ⟨hequal, hequals⟩ := List.forall_mem_cons.mp hequal
    obtain ⟨ρ₁, hfirst, himplied⟩ := run_implied h hσ hτ hρ t ht hequal
    have hextends := (run_ok h.closed t (ht.extended hρ hσ) hfirst).1
    obtain ⟨ρ', hlast, himplied'⟩ := ih himplied (hρ.trans hextends) hrest hequals
    exact ⟨ρ', (runAll_cons hfirst).trans hlast, himplied'⟩

/-- Telling a constraint can be interrupted by a conflict of two values and by nothing else. -/
theorem run_error {t : Tell} {e : Interrupt} (h : t.run σ = .error e τ) :
    ∃ v w, e = .fault (.bindConflict v w) := by
  -- only unification changes the store here, and its only fault is a conflict
  have hchange : ∀ g : Store → Option Fault × Store, (∀ f, (g σ).1 = some f → ∃ v w, f = .bindConflict v w) →
      Action.ofChange g σ = .error e τ → ∃ v w, e = .fault (.bindConflict v w) := by
    intro g hg herror
    rw [Action.ofChange] at herror
    split at herror
    · cases herror
    · next f τ' hf =>
      cases herror
      obtain ⟨v, w, rfl⟩ := hg f (by rw [hf])
      exact ⟨v, w, rfl⟩
  have hunify := fun a b => hchange (fun σ => σ.unify a b) (σ.unify_outcome a b).2
  have hvars := fun x y => hchange (fun σ => σ.unifyVars x y) (σ.unifyVars_outcome x y).2
  cases t with
  | unify a b => exact hunify a b h
  | bindValue x v => exact hunify (.var x) (.val v) h
  | bindVar x y => exact hvars x y h
  | bindTerm x t =>
    cases t with
    | val v => exact hunify (.var x) (.val v) h
    | var y => exact hvars x y h

/-- Nothing but a conflict can go wrong when constraints are told. -/
theorem runAll_error {e : Interrupt} (h : runAll tells σ = .error e τ) : ∃ v w, e = .fault (.bindConflict v w) := by
  induction tells generalizing σ with
  | nil => cases h
  | cons t rest ih =>
    rw [runAll, bind_apply] at h
    split at h
    · exact ih h
    · next e' τ' herror =>
      cases h
      exact run_error herror

end Tell

namespace Store

variable {σ τ ρ : Store} {t : Term}

/-! ## Stores that force each other -/

/-- Of two stores that force each other, what is unbound in one is unbound in the other, with the same
representative. -/
theorem Implied.resolve_eq_var (hτρ : Implied σ τ ρ) (hρτ : Implied σ ρ τ) (ht : σ.Free t) {y : Nat}
    (h : τ.resolve t = .var y) : ρ.resolve t = .var y := by
  obtain ⟨E, -, hag⟩ := (hτρ.models t ht).2
  obtain ⟨F, -, hag'⟩ := (hρτ.models t ht).2
  rw [h] at hag hag'
  rcases hres : ρ.resolve t with v | z
  · rw [hres] at hag
    cases hag
  · rw [hres] at hag hag'
    -- `y` represents `z` in one store and `z` represents `y` in the other, so neither is older
    have hyz : τ.resolve (.var z) = .var y := by
      generalize τ.resolve (.var z) = u at hag
      cases hag
      rfl
    have hzy : ρ.resolve (.var y) = .var z := by
      generalize ρ.resolve (.var y) = u at hag'
      cases hag'
      rfl
    have hle : z ≤ y := (resolveVar_eq_var.mp hyz).1 ▸ le_representative τ z
    have hge : y ≤ z := (resolveVar_eq_var.mp hzy).1 ▸ le_representative ρ y
    rw [Nat.le_antisymm hle hge]

/-- A variable of `σ` has a value already, which stays, or no float is reached from it. -/
theorem resolveVar_cases (hσ : σ.Closed) {x : Nat} (hx : x < σ.vars.size) :
    (∃ v, σ.resolveVar x = .val v ∧ ∀ τ, σ.Extends τ → τ.resolveVar x = .val v) ∨ σ.Free (.var x) := by
  rcases hres : σ.resolveVar x with v | z
  · exact .inl ⟨v, rfl, fun τ hτ => hτ.evolves.resolve_eq_val hσ (t := .var x) hx hres⟩
  · have hz : σ.Unbound z := unbound_of_resolveVar hσ.linked hx hres
    have hsame : σ.resolve (.var z) = σ.resolve (.var x) := hz.resolveVar.trans hres.symm
    exact .inr ⟨hx, hz.free.floatFree.congr hsame⟩

/-- Stores that force each other have the same unbound variables, with the same representatives. -/
theorem Implied.sameUnbound (hτρ : Implied σ τ ρ) (hρτ : Implied σ ρ τ) (hσ : σ.Closed) (hτ : σ.Extends τ)
    (hρ : σ.Extends ρ) {x : Nat} (hx : x < σ.vars.size) :
    τ.isBound x = ρ.isBound x ∧ (τ.isBound x = false → τ.representative x = ρ.representative x) := by
  rcases resolveVar_cases hσ hx with ⟨v, -, hkept⟩ | hfree
  · rw [isBound_of_val (hkept τ hτ), isBound_of_val (hkept ρ hρ)]
    exact ⟨rfl, fun h => by cases h⟩
  -- where a solution leaves the variable unbound, so does the other, with the same representative
  have hsame : ∀ {τ ρ}, Implied σ τ ρ → Implied σ ρ τ → τ.isBound x = false →
      ρ.resolveVar x = .var (τ.representative x) :=
    fun hτρ hρτ h => hτρ.resolve_eq_var hρτ hfree (resolveVar_of_not_isBound h)
  refine ⟨?_, fun h => ((resolveVar_eq_var.mp (hsame hτρ hρτ h)).1).symm⟩
  cases hτx : τ.isBound x with
  | false => exact (isBound_of_var (hsame hτρ hρτ hτx)).symm
  | true =>
    cases hρx : ρ.isBound x with
    | true => rfl
    | false =>
      rw [isBound_of_var (hsame hρτ hτρ hρx)] at hτx
      cases hτx

/-- A value that one store gives to a variable is equal there to the value that the other store gives to it. -/
theorem Implied.equal_values (hτρ : Implied σ τ ρ) {x : Nat} (hx : σ.Free (.var x)) {v w : Value}
    (hv : τ.resolveVar x = .val v) (hw : ρ.resolveVar x = .val w) : τ.Equal (.val v) (.val w) := by
  have hmodel := (hτρ.models (.var x) hx).2
  have hres : ρ.resolve (.var x) = .val w := hw
  have hval : τ.resolve (.var x) = τ.resolve (.val v) := hv
  rw [hres] at hmodel
  exact hmodel.congr hval rfl

/-! ## Who has been resumed -/

/-- The ledger of everybody who waits in the store. -/
def waitingLedger (σ : Store) : Ledger :=
  (List.range σ.vars.size).flatMap fun x => (σ.waiting x).map fun k => (x, k)

/-- Only unbound variables are waited for. -/
theorem unbound_of_mem_waitingLedger {entry : VarId × Continuation} (h : entry ∈ σ.waitingLedger) :
    σ.Unbound entry.1 := by
  obtain ⟨x, -, hmem⟩ := List.mem_flatMap.mp h
  obtain ⟨k, hk, rfl⟩ := List.mem_map.mp hmem
  by_contra hx
  rw [waiting_of_not_unbound hx] at hk
  exact List.not_mem_nil hk

/-- The class of a variable in the ledger are those who wait at it. -/
theorem select_waitingLedger {x : Nat} (hx : x < σ.vars.size) :
    σ.waitingLedger.select (fun z => z = x) = σ.waiting x := by
  -- one variable at a time, and then all of a prefix
  have hone : ∀ n, Ledger.select ((σ.waiting n).map fun k => (n, k)) (fun z => z = x) =
      if n = x then σ.waiting n else [] := by
    intro n
    by_cases hn : n = x
    · simp [Ledger.select, List.filter_map, Function.comp_def, hn]
    · simp [Ledger.select, List.filter_map, Function.comp_def, hn]
  have hrange : ∀ n, Ledger.select ((List.range n).flatMap fun z => (σ.waiting z).map fun k => (z, k))
      (fun z => z = x) = if x < n then σ.waiting x else [] := by
    intro n
    induction n with
    | zero => rfl
    | succ n ih =>
      rw [List.range_succ, List.flatMap_append, Ledger.select_append, ih, List.flatMap_singleton, hone]
      rcases Nat.lt_trichotomy x n with hlt | rfl | hgt
      · rw [if_pos hlt, if_neg (Nat.ne_of_gt hlt), if_pos (Nat.lt_succ_of_lt hlt), List.append_nil]
      · rw [if_neg (Nat.lt_irrefl x), if_pos rfl, if_pos (Nat.lt_succ_self x), List.nil_append]
      · rw [if_neg (Nat.lt_asymm hgt), if_neg (Nat.ne_of_lt hgt), if_neg (Nat.not_lt.mpr hgt), List.append_nil]
  rw [waitingLedger, hrange, if_pos hx]

/-- A store with an empty log is accounted for by the ledger of everybody who waits in it. -/
theorem accounted_waitingLedger (hlog : σ.effects = #[]) : σ.Accounted σ.waitingLedger := by
  refine ⟨fun entry hentry => (unbound_of_mem_waitingLedger hentry).lt_size, fun x hx => ?_, ?_⟩
  · have hclass : σ.waitingLedger.select (fun z => σ.representative z = x) =
        σ.waitingLedger.select (fun z => z = x) := by
      refine Ledger.select_congr fun entry hentry => ?_
      rw [(unbound_of_mem_waitingLedger hentry).representative]
    rw [hclass, select_waitingLedger hx.lt_size]
  · have hnone : σ.waitingLedger.select σ.isBound = [] := by
      refine List.map_eq_nil_iff.mpr (List.filter_eq_nil_iff.mpr fun entry hentry => ?_)
      rw [isBound_of_var (unbound_of_mem_waitingLedger hentry).resolveVar]
      exact Bool.false_ne_true
    rw [hnone, woken, hlog]
    rfl

/-- Bindings append to the log and do not look at it. -/
theorem BindsMany.apart (h : σ.BindsMany τ) : ∃ log, τ.effects = σ.effects ++ log ∧
    BindsMany { σ with effects := #[] } { τ with effects := log } := by
  induction h with
  | refl => exact ⟨#[], by simp, .refl⟩
  | @tail ρ τ _ hstep ih =>
    obtain ⟨log, hlog, hbinds⟩ := ih
    cases hstep with
    | @assign x v hx hv =>
      refine ⟨log ++ ((ρ.waiting x).map fun k => Effect.wake k.resumer k.stack).toArray, ?_, ?_⟩
      · rw [assign_eq, hlog, Array.append_assoc]
      · have hassign : Binds { ρ with effects := log } (Store.assign { ρ with effects := log } x v) := .assign hx hv
        rw [assign_eq] at hassign ⊢
        exact hbinds.tail hassign
    | @merge x y hx hy hne =>
      have hmerge : Binds { ρ with effects := log } (Store.merge { ρ with effects := log } x y) := .merge hx hy hne
      exact ⟨log, hlog, hbinds.tail hmerge⟩

/-- Bindings resume those who wait for a variable that has a value afterwards. -/
theorem BindsMany.woken_perm (h : σ.BindsMany τ) (hσ : σ.Closed) :
    τ.woken.Perm (σ.woken ++ σ.waitingLedger.select τ.isBound) := by
  obtain ⟨log, hlog, hbinds⟩ := h.apart
  have hclosed : Closed { σ with effects := #[] } :=
    { hσ with effects := fun e he => absurd he (Array.not_mem_empty e) }
  have hledger : Accounted { σ with effects := #[] } σ.waitingLedger := accounted_waitingLedger rfl
  have hwoken : τ.woken = σ.woken ++ woken { τ with effects := log } := by
    rw [woken, hlog, Array.toList_append, List.filterMap_append]
    rfl
  have hbound : isBound { τ with effects := log } = τ.isBound := by
    funext x
    have hvars : Store.vars { τ with effects := log } = τ.vars := rfl
    exact isBound_congr (resolve_of_vars_eq hvars (.var x))
  rw [hwoken, ← hbound]
  exact (hledger.bindsMany hclosed hbinds).woken.append_left σ.woken

/-- Who is resumed depends only on which variables have a value in the end. -/
theorem woken_congr_of_isBound (hσ : σ.Closed) (hτ : σ.BindsMany τ) (hρ : σ.BindsMany ρ)
    (h : ∀ x, σ.Unbound x → τ.isBound x = ρ.isBound x) : τ.woken.Perm ρ.woken := by
  have hsame : σ.waitingLedger.select τ.isBound = σ.waitingLedger.select ρ.isBound :=
    Ledger.select_congr fun entry hentry => h entry.1 (unbound_of_mem_waitingLedger hentry)
  exact (hτ.woken_perm hσ).trans (hsame ▸ (hρ.woken_perm hσ).symm)

/-- Binding makes no variables. -/
theorem BindsMany.size_eq (h : σ.BindsMany τ) : τ.vars.size = σ.vars.size := by
  induction h with
  | refl => rfl
  | tail _ hstep ih =>
    cases hstep with
    | assign => rw [assign_size, ih]
    | merge => rw [merge_size, ih]

/-! ## The final stores agree -/

/-- What two stores have in common that were made of `σ` by telling it the same constraints. -/
structure Agree (σ τ ρ : Store) : Prop where
  size : τ.vars.size = σ.vars.size ∧ ρ.vars.size = σ.vars.size
  bound : ∀ x < σ.vars.size, τ.isBound x = ρ.isBound x
  representative : ∀ x < σ.vars.size, τ.isBound x = false → τ.representative x = ρ.representative x
  values : ∀ x < σ.vars.size, σ.FloatFree (.var x) → ∀ v w, τ.resolveVar x = .val v → ρ.resolveVar x = .val w →
    τ.Entails (.val v) (.val w) ∧ ρ.Entails (.val v) (.val w)
  /-- A value from which a float is reached was there before, and it is still the same value. -/
  floats : ∀ x < σ.vars.size, ¬ σ.FloatFree (.var x) → τ.resolveVar x = ρ.resolveVar x
  woken : τ.woken.Perm ρ.woken

/-- Two stores that imply each other agree about the variables of the store that both come from. -/
theorem Implied.agree (hτρ : Implied σ τ ρ) (hρτ : Implied σ ρ τ) (hσ : σ.Closed) (hτ : σ.Extends τ)
    (hρ : σ.Extends ρ) (hbindsτ : σ.BindsMany τ) (hbindsρ : σ.BindsMany ρ) : Agree σ τ ρ where
  size := ⟨hbindsτ.size_eq, hbindsρ.size_eq⟩
  bound x hx := (hτρ.sameUnbound hρτ hσ hτ hρ hx).1
  representative x hx := (hτρ.sameUnbound hρτ hσ hτ hρ hx).2
  values x hx hfloat v w hv hw := by
    have hfree : σ.Free (.var x) := ⟨hx, hfloat⟩
    -- both values are terms of the first store without floats, so equality in either store is symmetric
    have hvfree : σ.Free (.val v) := hv ▸ (hρτ.models _ hfree).1
    have hwfree : σ.Free (.val w) := hw ▸ (hτρ.models _ hfree).1
    have hequal : τ.Equal (.val v) (.val w) := hτρ.equal_values hfree hv hw
    have hequal' : ρ.Equal (.val v) (.val w) :=
      (hρτ.equal_values hfree hw hv).symm (hwfree.extended hρ hσ).floatFree
    exact ⟨(entails_iff hρτ.closed (hvfree.extended hτ hσ).isIn (hwfree.extended hτ hσ).isIn).mpr hequal,
      (entails_iff hτρ.closed (hvfree.extended hρ hσ).isIn (hwfree.extended hρ hσ).isIn).mpr hequal'⟩
  -- a variable with a float in it has had its value from the beginning
  floats x hx hfloat := by
    rcases resolveVar_cases hσ hx with ⟨v, -, hkept⟩ | hfree
    · rw [hkept τ hτ, hkept ρ hρ]
    · exact absurd hfree.floatFree hfloat
  woken := woken_congr_of_isBound hσ hbindsτ hbindsρ fun _ hx => (hτρ.sameUnbound hρτ hσ hτ hρ hx.lt_size).1

end Store

namespace Tell

variable {σ τ ρ : Store} {tells : List Tell} {pairs : List (Term × Term)}

theorem Says.freePair {t : Tell} {p : Term × Term} (h : t.Says p) (hp : σ.FreePair p) : σ.FreePair t.sides := by
  rcases h with h | h
  · exact h ▸ hp
  · exact h ▸ hp.swap

theorem Impose.freePair (h : Impose tells pairs) (hfree : ∀ p ∈ pairs, σ.FreePair p) :
    ∀ t ∈ tells, σ.FreePair t.sides := by
  intro t ht
  obtain ⟨p, hp, hsays⟩ := h.says ht
  exact hsays.freePair (hfree p hp)

/-- What one order has told holds also of what another order tells. -/
theorem Impose.equal {tells' : List Tell} (h : Impose tells pairs) (h' : Impose tells' pairs)
    (hfree : ∀ p ∈ pairs, τ.FreePair p) (hequal : ∀ t ∈ tells, τ.Equal t.sides.1 t.sides.2) :
    ∀ t ∈ tells', τ.Equal t.sides.1 t.sides.2 := by
  intro t' ht'
  obtain ⟨p, hp, hsays'⟩ := h'.says ht'
  obtain ⟨t, ht, hsays⟩ := h.said hp
  have ht := hequal t ht
  have hp := hfree p hp
  have hpair : τ.Equal p.1 p.2 := by
    rcases hsays with hsides | hsides
    · rwa [hsides] at ht
    · rw [hsides] at ht
      exact ht.symm hp.right.floatFree
  rcases hsays' with hsides | hsides
  · rwa [hsides]
  · rw [hsides]
    exact hpair.symm hp.left.floatFree

/-- When one order succeeds, so does every other, and the two final stores agree. -/
theorem runAll_agree {tells' : List Tell} (hσ : σ.Closed) (hfree : ∀ p ∈ pairs, σ.FreePair p)
    (h : Impose tells pairs) (h' : Impose tells' pairs) (hrun : runAll tells σ = .ok () τ) :
    ∃ ρ, runAll tells' σ = .ok () ρ ∧ σ.Agree τ ρ := by
  have hsides := h.freePair hfree
  have hsides' := h'.freePair hfree
  obtain ⟨hτ, hbindsτ, hequalτ⟩ := runAll_ok hσ hsides hrun
  -- the first order gives a store in which the second can do only what is forced
  have hequal' := h.equal h' (fun p hp => (hfree p hp).extended hτ hσ) hequalτ
  obtain ⟨ρ, hrun', hτρ⟩ := runAll_implied (.start hσ hτ) hσ hτ .refl hsides' hequal'
  refine ⟨ρ, hrun', ?_⟩
  -- and the other way round
  obtain ⟨hρ, hbindsρ, hequalρ⟩ := runAll_ok hσ hsides' hrun'
  have hequal := h'.equal h (fun p hp => (hfree p hp).extended hρ hσ) hequalρ
  obtain ⟨τ', hrunagain, hρτ⟩ := runAll_implied (.start hσ hρ) hσ hρ .refl hsides hequal
  rw [hrun] at hrunagain
  cases hrunagain
  exact hτρ.agree hρτ hσ hτ hρ hbindsτ hbindsρ

/-- **Constraints commute.** Told in any order, with either side first and in any of the ways there are, constraints
on terms without floats succeed in all orders or meet a conflict in all of them. When they succeed, the final stores
agree. -/
theorem impose_commutes (hσ : σ.Closed) (hfree : ∀ p ∈ pairs, σ.FreePair p) :
    ((∀ tells, Impose tells pairs → ∃ τ, runAll tells σ = .ok () τ) ∨
      (∀ tells, Impose tells pairs → ∃ v w τ, runAll tells σ = .error (.fault (.bindConflict v w)) τ)) ∧
    ∀ tells tells' τ ρ, Impose tells pairs → Impose tells' pairs → runAll tells σ = .ok () τ →
      runAll tells' σ = .ok () ρ → σ.Agree τ ρ := by
  constructor
  -- one order that succeeds makes all succeed; otherwise all fail, and only by a conflict
  · by_cases hsome : ∃ tells τ, Impose tells pairs ∧ runAll tells σ = .ok () τ
    · obtain ⟨tells, τ, h, hrun⟩ := hsome
      refine .inl fun tells' h' => ?_
      obtain ⟨ρ, hrun', -⟩ := runAll_agree hσ hfree h h' hrun
      exact ⟨ρ, hrun'⟩
    · refine .inr fun tells h => ?_
      cases hrun : runAll tells σ with
      | ok u τ => exact absurd ⟨tells, τ, h, hrun⟩ hsome
      | error e τ =>
        obtain ⟨v, w, rfl⟩ := runAll_error hrun
        exact ⟨v, w, τ, rfl⟩
  · intro tells tells' τ ρ h h' hrun hrun'
    obtain ⟨ρ', hrunagain, hagree⟩ := runAll_agree hσ hfree h h' hrun
    rw [hrun'] at hrunagain
    cases hrunagain
    exact hagree

/-- Two variables without a value, with a computation that waits for the older one. -/
def twoVars : Store := { vars := #[.unbound [⟨[], .queue 0⟩], .unbound []] }

/-- The store of two variables is closed. The continuation that waits has nothing left to run. -/
theorem twoVars_closed : twoVars.Closed := by
  refine ⟨fun x s hs => ?_, ?_, ?_, ?_, ?_, ?_, ?_, ?_⟩
  · rcases x with _ | _ | x
    · obtain rfl : s = _ := (Option.some.inj hs).symm
      intro k hk
      rw [List.mem_singleton.mp hk]
      exact fun frame hframe => absurd hframe List.not_mem_nil
    · obtain rfl : s = _ := (Option.some.inj hs).symm
      exact fun k hk => absurd hk List.not_mem_nil
    · cases hs
  all_goals simp [twoVars]

/-- The two constraints contain no floats. -/
theorem twoVars_free : ∀ p ∈ [(Term.var 0, Term.var 1), (.var 1, .val (.bool true))], twoVars.FreePair p := by
  have hzero : twoVars.Unbound 0 := ⟨_, rfl⟩
  have hone : twoVars.Unbound 1 := ⟨_, rfl⟩
  have hreach : ∀ u, twoVars.Reaches (.val (.bool true)) u → u = .val (.bool true) := by
    intro u hu
    induction hu with
    | refl => rfl
    | field _ hr _ ih =>
      rw [ih] at hr
      cases hr
  have hbool : twoVars.Free (.val (.bool true)) := by
    refine ⟨trivial, fun u hu v hv => ?_⟩
    rw [hreach u hu] at hv
    cases hv
    rfl
  exact List.forall_mem_cons.mpr ⟨⟨hzero.free, hone.free⟩, List.forall_mem_singleton.mpr ⟨hone.free, hbool⟩⟩

/-- If the variables are merged first, the first one becomes a link, -/
theorem runAll_mergeFirst : ∃ τ,
    runAll [.bindVar 0 1, .unify (.var 1) (.val (.bool true))] twoVars = .ok () τ ∧
      τ.vars[0]? = some (.link 1) := by
  -- both variables are unbound, and each stands for itself
  have hzero : twoVars.Unbound 0 := ⟨_, rfl⟩
  have hone : twoVars.Unbound 1 := ⟨_, rfl⟩
  have hmerge : run (.bindVar 0 1) twoVars = .ok () (twoVars.merge 0 1) := by
    rw [run, Action.bindVar, Action.ofChange,
      Store.unifyVars_of_unbound hzero hone Nat.zero_ne_one hzero.representative hone.representative]
    rfl
  have hunbound : (twoVars.merge 0 1).Unbound 1 := ⟨_, Store.merge_getElem? hzero hone 1⟩
  have hassign : run (.unify (.var 1) (.val (.bool true))) (twoVars.merge 0 1) =
      .ok () ((twoVars.merge 0 1).assign 1 (.bool true)) := by
    rw [run, Action.unify, Action.ofChange, Store.unify_of_unbound hunbound]
  exact ⟨_, (runAll_cons hmerge).trans (runAll_cons hassign),
    (Store.assign_getElem? hunbound (.bool true) 0).trans (Store.merge_getElem? hzero hone 0)⟩

/-- and if the second one is bound first, it is bound as well. -/
theorem runAll_valueFirst : ∃ τ,
    runAll [.bindValue 1 (.bool true), .unify (.var 1) (.var 0)] twoVars = .ok () τ ∧
      τ.vars[0]? = some (.bound (.bool true)) := by
  have hone : twoVars.Unbound 1 := ⟨_, rfl⟩
  have hvalue : run (.bindValue 1 (.bool true)) twoVars = .ok () (twoVars.assign 1 (.bool true)) := by
    rw [run, Action.bindValue, Action.unify, Action.ofChange, Store.unify_of_unbound hone]
  -- the first variable is still unbound when it is unified with a value
  have hunbound : (twoVars.assign 1 (.bool true)).Unbound 0 := ⟨_, Store.assign_getElem? hone (.bool true) 0⟩
  have hbound : (twoVars.assign 1 (.bool true)).resolve (.var 1) = .val (.bool true) :=
    Store.resolve_assign_of_eq twoVars_closed.linked hone (.bool true) hone.resolveVar
  have hresolve : (twoVars.assign 1 (.bool true)).resolve (.var 0) = .var 0 := hunbound.resolveVar
  have hassign : run (.unify (.var 1) (.var 0)) (twoVars.assign 1 (.bool true)) =
      .ok () ((twoVars.assign 1 (.bool true)).assign 0 (.bool true)) := by
    refine Store.unify_eq_ok.mpr ?_
    simp [Store.unify, Store.unifyAll, hbound, hresolve]
  exact ⟨_, (runAll_cons hvalue).trans (runAll_cons hassign), Store.assign_getElem? hunbound (.bool true) 0⟩

/-- The two variables are made equal and then given a value, or one gets the value and then the other. The older
variable is a link in one of the final stores and not in the other; still they agree. -/
theorem impose_commutes_twoVars :
    twoVars.Closed ∧ ∃ τ ρ,
      runAll [.bindVar 0 1, .unify (.var 1) (.val (.bool true))] twoVars = .ok () τ ∧
      runAll [.bindValue 1 (.bool true), .unify (.var 1) (.var 0)] twoVars = .ok () ρ ∧
      twoVars.Agree τ ρ ∧ τ.vars[0]? = some (.link 1) ∧ ρ.vars[0]? = some (.bound (.bool true)) := by
  have hmerge : Impose [.bindVar 0 1, .unify (.var 1) (.val (.bool true))]
      [(.var 0, .var 1), (.var 1, .val (.bool true))] :=
    ⟨_, .refl _, .cons (.inl rfl) (.cons (.inl rfl) .nil)⟩
  have hvalue : Impose [.bindValue 1 (.bool true), .unify (.var 1) (.var 0)]
      [(.var 0, .var 1), (.var 1, .val (.bool true))] :=
    ⟨_, .swap _ _ _, .cons (.inl rfl) (.cons (.inr rfl) .nil)⟩
  obtain ⟨τ, hτ, hlink⟩ := runAll_mergeFirst
  obtain ⟨ρ, hρ, hbound⟩ := runAll_valueFirst
  have hagree := (impose_commutes twoVars_closed twoVars_free).2 _ _ τ ρ hmerge hvalue hτ hρ
  exact ⟨twoVars_closed, τ, ρ, hτ, hρ, hagree, hlink, hbound⟩

end Tell

end Dataflow
