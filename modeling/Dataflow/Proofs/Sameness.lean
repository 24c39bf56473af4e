/-
Sameness: equality of terms down to their atoms.

`Equal` takes numbers for equal that print differently, such as two decimals of one value, and it is no equivalence
where there are floats. `Same` is the stricter relation: two terms are the same if they resolve to one term, or to
records of one shape whose values are the same again. It is an equivalence on all terms of every store, and it survives
whatever happens to the store.

In a store whose numbers are all integers (`Exact`) the two relations agree. There, unification makes terms the same
(`same_of_unify`), and comparing answers yes exactly if they are (`compare_eq_equal_iff`). It answers no exactly if
somewhere in the two trees there are two values that nothing makes the same (`compare_eq_different_iff`); for this it is
enough that there are no floats.
-/
import Dataflow.Proofs.MostGeneral
import Dataflow.Proofs.Wholeness

set_option autoImplicit false

namespace Dataflow

/-- What faces itself. -/
theorem Record.eq_of_mem_sides_self {r : Record} {p : Term × Term} (h : p ∈ r.sides r) :
    p.1 = p.2 := by
  obtain ⟨i, f, g, hf, hg, rfl⟩ := Record.mem_sides.mp h
  rw [Option.some.inj (hf.symm.trans hg)]

namespace Store

variable {σ τ : Store} {a b c t u : Term}

/-! ## The relation -/

/-- Two resolved terms are one term, or a pair of records in `E`. -/
inductive Matches (E : RecordId → RecordId → Prop) : Term → Term → Prop where
  | refl (t : Term) : Matches E t t
  | record {r s : RecordId} (h : E r s) : Matches E (.val (.record r)) (.val (.record s))

/-- The records of every pair in `E` have one shape, and their values match. -/
def Faithful (σ : Store) (E : RecordId → RecordId → Prop) : Prop :=
  ∀ r s, E r s → (σ.record r).sameShape (σ.record s) = true ∧
    ∀ p ∈ (σ.record r).sides (σ.record s), Matches E (σ.resolve p.1) (σ.resolve p.2)

/-- Two terms stand for the same tree, atom for atom. -/
def Same (σ : Store) (a b : Term) : Prop := ∃ E, σ.Faithful E ∧ Matches E (σ.resolve a) (σ.resolve b)

/-- **A relation shows that terms are the same** if it takes records of one shape to such records and relates their
values, up to what is known to be the same. -/
theorem same_of_bisimilar (S : Term → Term → Prop)
    (hS : ∀ t u, S t u → σ.Same t u ∨ ∃ r s, σ.resolve t = .val (.record r) ∧ σ.resolve u = .val (.record s) ∧
      (σ.record r).sameShape (σ.record s) = true ∧ ∀ p ∈ (σ.record r).sides (σ.record s), S p.1 p.2)
    (h : S a b) : σ.Same a b := by
  let E : RecordId → RecordId → Prop := fun r s =>
    ∃ t u, σ.resolve t = .val (.record r) ∧ σ.resolve u = .val (.record s) ∧ (σ.Same t u ∨ S t u)
  have hmatches : ∀ t u, σ.Same t u ∨ S t u → Matches E (σ.resolve t) (σ.resolve u) := by
    have hsame : ∀ t u, σ.Same t u → Matches E (σ.resolve t) (σ.resolve u) := by
      intro t u htu
      obtain ⟨_, _, hm⟩ := id htu
      generalize ht : σ.resolve t = t', hu : σ.resolve u = u' at hm
      cases hm with
      | refl => exact .refl _
      | record => exact .record ⟨t, u, ht, hu, .inl htu⟩
    rintro t u (htu | htu)
    · exact hsame t u htu
    · rcases hS t u htu with htu' | ⟨r, s, ht, hu, -⟩
      · exact hsame t u htu'
      · rw [ht, hu]
        exact .record ⟨t, u, ht, hu, .inr htu⟩
  refine ⟨E, ?_, hmatches a b (.inr h)⟩
  rintro r s ⟨t, u, ht, hu, htu⟩
  -- two terms that are the same resolve to one record, or to two records whose values match under their own set
  have hsame : σ.Same t u → (σ.record r).sameShape (σ.record s) = true ∧
      ∀ p ∈ (σ.record r).sides (σ.record s), Matches E (σ.resolve p.1) (σ.resolve p.2) := by
    rintro ⟨D, hD, hm⟩
    rw [ht, hu] at hm
    cases hm with
    | refl =>
      refine ⟨Record.sameShape_iff.mpr ⟨rfl, rfl⟩, fun p hp => ?_⟩
      rw [Record.eq_of_mem_sides_self hp]
      exact .refl _
    | record hrs =>
      obtain ⟨hshape, hsides⟩ := hD r s hrs
      exact ⟨hshape, fun p hp => hmatches _ _ (.inl ⟨D, hD, hsides p hp⟩)⟩
  rcases htu with htu | htu
  · exact hsame htu
  · rcases hS t u htu with htu' | ⟨r', s', ht', hu', hshape, hsides⟩
    · exact hsame htu'
    · cases ht.symm.trans ht'
      cases hu.symm.trans hu'
      exact ⟨hshape, fun p hp => hmatches _ _ (.inr (hsides p hp))⟩

namespace Same

theorem of_resolve_eq (h : σ.resolve a = σ.resolve b) : σ.Same a b :=
  ⟨fun _ _ => False, fun _ _ h => h.elim, h ▸ .refl _⟩

theorem refl (σ : Store) (t : Term) : σ.Same t t := of_resolve_eq rfl

/-- Terms that are the same resolve to one term, or to two records. -/
theorem cases (h : σ.Same a b) : σ.resolve a = σ.resolve b ∨
    ∃ r s, σ.resolve a = .val (.record r) ∧ σ.resolve b = .val (.record s) := by
  obtain ⟨E, -, hm⟩ := h
  generalize ha : σ.resolve a = a', hb : σ.resolve b = b' at hm
  cases hm with
  | refl => exact .inl rfl
  | record => exact .inr ⟨_, _, rfl, rfl⟩

/-- Records that are the same have one shape, and their values are the same. -/
theorem record {r s : RecordId} (h : σ.Same a b) (ha : σ.resolve a = .val (.record r))
    (hb : σ.resolve b = .val (.record s)) : (σ.record r).sameShape (σ.record s) = true ∧
      ∀ p ∈ (σ.record r).sides (σ.record s), σ.Same p.1 p.2 := by
  obtain ⟨E, hE, hm⟩ := h
  rw [ha, hb] at hm
  cases hm with
  | refl =>
    refine ⟨Record.sameShape_iff.mpr ⟨rfl, rfl⟩, fun p hp => ?_⟩
    rw [Record.eq_of_mem_sides_self hp]
    exact .refl σ _
  | record hrs =>
    obtain ⟨hshape, hsides⟩ := hE r s hrs
    exact ⟨hshape, fun p hp => ⟨E, hE, hsides p hp⟩⟩

/-- Being the same is symmetric. -/
theorem symm (h : σ.Same a b) : σ.Same b a := by
  refine same_of_bisimilar (fun t u => σ.Same u t) (fun t u htu => ?_) h
  rcases htu.cases with heq | ⟨r, s, hu, ht⟩
  · exact .inl (of_resolve_eq heq.symm)
  · obtain ⟨hshape, hsides⟩ := htu.record hu ht
    exact .inr ⟨s, r, ht, hu, Record.sameShape_symm hshape, fun p hp => hsides p.swap (Record.sides_swap hp)⟩

theorem congr (h : σ.Same a b) (ha : σ.resolve a = σ.resolve t) (hb : σ.resolve b = σ.resolve u) : σ.Same t u := by
  obtain ⟨E, hE, hm⟩ := h
  exact ⟨E, hE, ha ▸ hb ▸ hm⟩

/-- Being the same is transitive. -/
theorem trans (h : σ.Same a b) (h' : σ.Same b c) : σ.Same a c := by
  refine same_of_bisimilar (fun t u => ∃ m, σ.Same t m ∧ σ.Same m u) ?_ ⟨b, h, h'⟩
  rintro t u ⟨m, htm, hmu⟩
  rcases htm.cases with heq | ⟨r, s, ht, hm⟩
  · exact .inl (hmu.congr heq.symm rfl)
  rcases hmu.cases with heq | ⟨s', q, hm', hu⟩
  · exact .inl (htm.congr rfl heq)
  cases hm.symm.trans hm'
  obtain ⟨hshape, hsides⟩ := htm.record ht hm
  obtain ⟨hshape', hsides'⟩ := hmu.record hm hu
  refine .inr ⟨r, q, ht, hu, Record.sameShape_trans hshape hshape', fun p hp => ?_⟩
  obtain ⟨between, hleft, hright⟩ := Record.sides_between hshape hp
  exact ⟨between, hsides _ hleft, hsides' _ hright⟩

/-- A term and what it resolves to. -/
theorem resolve (hσ : σ.Linked) (t : Term) : σ.Same t (σ.resolve t) :=
  of_resolve_eq (resolve_resolve hσ t).symm

end Same

/-! ## Stores that come after others -/

/-- `τ` has everything that `σ` has, and terms that resolve to one term in `σ` do so in `τ`. -/
structure Precedes (σ τ : Store) : Prop where
  grows : σ.Grows τ
  congr : ∀ t u, t.In σ → u.In σ → σ.resolve t = σ.resolve u → τ.resolve t = τ.resolve u

namespace Precedes

variable {ρ : Store}

theorem refl (σ : Store) : σ.Precedes σ := ⟨.refl σ, fun _ _ _ _ h => h⟩

theorem trans (h : σ.Precedes τ) (h' : τ.Precedes ρ) : σ.Precedes ρ where
  grows := h.grows.trans h'.grows
  congr t u ht hu heq := h'.congr t u (h.grows.term ht) (h.grows.term hu) (h.congr t u ht hu heq)

theorem of_vars_eq (hgrows : σ.Grows τ) (h : τ.vars = σ.vars) : σ.Precedes τ where
  grows := hgrows
  congr t u _ _ heq := by rw [resolve_of_vars_eq h, resolve_of_vars_eq h, heq]

/-- A value is kept. -/
theorem val (h : σ.Precedes τ) (hσ : σ.Closed) (ht : t.In σ) {v : Value} (hv : σ.resolve t = .val v) :
    τ.resolve t = .val v :=
  h.congr t (.val v) ht (hσ.resolve_val ht hv) hv

/-- Terms that are the same stay the same. -/
theorem same (h : σ.Precedes τ) (hσ : σ.Closed) (ha : a.In σ) (hb : b.In σ) (hab : σ.Same a b) : τ.Same a b := by
  refine same_of_bisimilar (fun t u => t.In σ ∧ u.In σ ∧ σ.Same t u) ?_ ⟨ha, hb, hab⟩
  rintro t u ⟨ht, hu, htu⟩
  rcases htu.cases with heq | ⟨r, s, htr, hus⟩
  · exact .inl (.of_resolve_eq (h.congr t u ht hu heq))
  · have hr : r < σ.records.size := hσ.resolve_val ht htr
    have hs : s < σ.records.size := hσ.resolve_val hu hus
    obtain ⟨hshape, hsides⟩ := htu.record htr hus
    refine .inr ⟨r, s, h.val hσ ht htr, h.val hσ hu hus, ?_⟩
    rw [h.grows.record_eq hr, h.grows.record_eq hs]
    refine ⟨hshape, fun p hp => ?_⟩
    obtain ⟨f, hf, hfp⟩ := Record.sides_left hp
    obtain ⟨g, hg, hgp⟩ := Record.sides_right hp
    exact ⟨hfp ▸ hσ.record r f hf, hgp ▸ hσ.record s g hg, hsides p hp⟩

end Precedes

theorem Evolves.precedes (h : σ.Evolves τ) (hσ : σ.Closed) : σ.Precedes τ :=
  ⟨h.grows, fun _ _ ht hu heq => h.resolve_congr hσ ht hu heq⟩

end Store

/-! ## Integers -/

/-- The number is an integer of one of the two sizes. -/
def Num.IsInteger : Num → Prop
  | .int32 _ | .int64 _ => True
  | .flt32 _ | .flt64 _ | .dec128 _ => False

/-- If the value is a number, it is an integer. -/
def Value.Exact (v : Value) : Prop := ∀ n, v = .num n → n.IsInteger

/-- If the term is a number, it is an integer. -/
def Term.Exact (t : Term) : Prop := ∀ v, t = .val v → v.Exact

namespace Value

variable {v w : Value}

/-- Every value is exact except, possibly, a number. -/
theorem exact_of_ne_num (h : ∀ n, v ≠ .num n) : v.Exact := fun n hn => absurd hn (h n)

theorem exact_record (r : RecordId) : (Value.record r).Exact := exact_of_ne_num nofun

theorem exact_proc (p : Proc) : (Value.proc p).Exact := exact_of_ne_num nofun

/-- An exact value is no float. -/
theorem Exact.isFloat (h : v.Exact) : v.isFloat = false := by
  cases v with
  | num n =>
    cases n with
    | int32 _ | int64 _ => rfl
    | flt32 _ | flt64 _ | dec128 _ => exact (h _ rfl).elim
  | _ => rfl

/-- Of atoms without floats and decimals only one is the same as a given one. -/
theorem eq_of_sameAtom (hv : v.Exact) (h : v.sameAtom w = true) : v = w := by
  rcases sameAtom_cases h with rfl | ⟨m, n, rfl, rfl, hmn⟩
  · rfl
  · have hm := hv m rfl
    cases m with
    | int32 a =>
      cases n with
      | int32 b => exact congrArg (fun x => Value.num (.int32 x)) (eq_of_beq hmn)
      | _ => cases hmn
    | int64 a =>
      cases n with
      | int64 b => exact congrArg (fun x => Value.num (.int64 x)) (eq_of_beq hmn)
      | _ => cases hmn
    | flt32 _ | flt64 _ | dec128 _ => exact hm.elim

end Value

namespace Store

variable {σ τ : Store} {a b t u : Term}

/-- All numbers in variables and in records are integers. -/
structure Exact (σ : Store) : Prop where
  vars : ∀ (x : Nat) v, σ.vars[x]? = some (.bound v) → v.Exact
  fields : ∀ r, ∀ f ∈ (σ.record r).fields, f.value.Exact

namespace Exact

/-- Resolving brings up no other numbers than the variables and the term hold. -/
theorem resolve (hσ : σ.Exact) (ht : t.Exact) : (σ.resolve t).Exact := by
  intro v hv
  cases t with
  | val w => exact ht v hv
  | var x => exact hσ.vars _ v (resolveVar_eq_val.mp hv)

/-- What faces what in two records has no other numbers either. -/
theorem side (hσ : σ.Exact) {r s : RecordId} {p : Term × Term} (hp : p ∈ (σ.record r).sides (σ.record s)) :
    p.1.Exact ∧ p.2.Exact := by
  obtain ⟨f, hf, hfp⟩ := Record.sides_left hp
  obtain ⟨g, hg, hgp⟩ := Record.sides_right hp
  exact ⟨hfp ▸ hσ.fields r f hf, hgp ▸ hσ.fields s g hg⟩

/-- A term in a store of integers reaches no float. -/
theorem floatFree (hσ : σ.Exact) (ht : t.Exact) : σ.FloatFree t := by
  have hreach : ∀ u, σ.Reaches t u → u.Exact := by
    intro u hu
    induction hu with
    | refl => exact ht
    | field _ _ hf _ => exact hσ.fields _ _ hf
  exact fun u hu v hv => (hσ.resolve (hreach u hu) v hv).isFloat

end Exact

/-- Where numbers are integers, equal terms are the same. -/
theorem Equal.same (hσ : σ.Exact) (ha : a.Exact) (h : σ.Equal a b) : σ.Same a b := by
  obtain ⟨E, hE, hag⟩ := h
  -- exact terms agree only by being one value
  have hmatches : ∀ t u, t.Exact → Agrees E (σ.resolve t) (σ.resolve u) →
      Matches (fun r s => r = s ∨ E r s) (σ.resolve t) (σ.resolve u) := by
    intro t u ht hag
    have hexact := hσ.resolve ht
    generalize σ.resolve t = t', σ.resolve u = u' at hag hexact
    cases hag with
    | var x => exact .refl _
    | record h => exact .record h
    | atom h => exact Value.eq_of_sameAtom (hexact _ rfl) h ▸ .refl _
  refine ⟨_, fun r s hrs => ?_, hmatches a b ha hag⟩
  rcases hrs with rfl | hrs
  · refine ⟨Record.sameShape_iff.mpr ⟨rfl, rfl⟩, fun p hp => ?_⟩
    rw [Record.eq_of_mem_sides_self hp]
    exact .refl _
  · obtain ⟨hshape, hsides⟩ := hE r s hrs
    exact ⟨hshape, fun p hp => hmatches _ _ (hσ.side hp).1 (hsides p hp)⟩

/-- Terms that are the same are equal. -/
theorem Same.equal (hσ : σ.Exact) (ha : a.Exact) (h : σ.Same a b) : σ.Equal a b := by
  obtain ⟨E, hE, hm⟩ := h
  have hagrees : ∀ t u, t.Exact → Matches E (σ.resolve t) (σ.resolve u) →
      Agrees E (σ.resolve t) (σ.resolve u) := by
    intro t u ht hm
    have hexact := hσ.resolve ht
    generalize σ.resolve t = t', σ.resolve u = u' at hm hexact
    cases hm with
    | refl => exact .of_eq rfl fun v hv => (hexact v hv).isFloat
    | record h => exact .record (.inr h)
  refine ⟨E, fun r s hrs => ?_, hagrees a b ha hm⟩
  obtain ⟨hshape, hsides⟩ := hE r s hrs
  exact ⟨hshape, fun p hp => hagrees _ _ (hσ.side hp).1 (hsides p hp)⟩

/-- Comparing two exact terms answers `equal` exactly where they are the same. -/
theorem compare_eq_equal_iff (hσ : σ.Closed) (hexact : σ.Exact) (ha : a.In σ) (hb : b.In σ) (hterm : a.Exact) :
    σ.compare a b = .equal ↔ σ.Same a b :=
  (compare_eq_equal hσ ha hb).trans ⟨fun h => h.same hexact hterm, fun h => h.equal hexact hterm⟩

/-! ## Unification of integers -/

namespace Exact

variable {x y : Nat}

/-- Binding a variable to an exact value leaves the store exact. -/
theorem assign (hσ : σ.Exact) (hx : σ.Unbound x) {v : Value} (hv : v.Exact) : (σ.assign x v).Exact := by
  refine ⟨fun z w hw => ?_, fun r f hf => ?_⟩
  · rw [assign_getElem? hx] at hw
    by_cases hz : z = x
    · rw [if_pos hz] at hw
      cases hw
      exact hv
    · rw [if_neg hz] at hw
      exact hσ.vars z w hw
  · rw [record, assign_records] at hf
    exact hσ.fields r f hf

/-- Merging two variables leaves the store exact. -/
theorem merge (hσ : σ.Exact) (hx : σ.Unbound x) (hy : σ.Unbound y) : (σ.merge x y).Exact := by
  refine ⟨fun z w hw => ?_, fun r f hf => hσ.fields r f hf⟩
  rw [merge_getElem? hx hy] at hw
  by_cases hmin : z = min x y
  · rw [if_pos hmin] at hw
    cases hw
  · rw [if_neg hmin] at hw
    by_cases hmax : z = max x y
    · rw [if_pos hmax] at hw
      cases hw
    · rw [if_neg hmax] at hw
      exact hσ.vars z w hw

end Exact

end Store

/-- A walk over integers leaves nothing but integers. -/
theorem Walk.Run.exact {w w' : Walk} (h : Run w w') (hw : w.Closed) (hstore : w.store.Exact)
    (hwork : ∀ p ∈ w.work, p.1.Exact ∧ p.2.Exact) :
    w'.store.Exact ∧ ∀ p ∈ w'.work, p.1.Exact ∧ p.2.Exact := by
  induction h with
  | refl => exact ⟨hstore, hwork⟩
  | @tail w₁ w₂ hrun hnext ih =>
    have hclosed := Walk.Run.closed hrun hw
    -- a step binds to what is exact, or goes on with the values of fields
    obtain ⟨hexact, hpairs⟩ := ih
    cases hnext with
    | agree => exact ⟨hexact, fun p hp => hpairs p (List.mem_cons_of_mem _ hp)⟩
    | @merge memo a b rest σ x y ha hb hne =>
      have hx := hclosed.store.resolve_var hclosed.work.head.1 ha
      have hy := hclosed.store.resolve_var hclosed.work.head.2 hb
      exact ⟨hexact.merge hx hy, fun p hp => hpairs p (List.mem_cons_of_mem _ hp)⟩
    | @assignLeft memo a b rest σ x v ha hb =>
      have hx := hclosed.store.resolve_var hclosed.work.head.1 ha
      have hv : v.Exact := hexact.resolve (hpairs _ List.mem_cons_self).2 v hb
      exact ⟨hexact.assign hx hv, fun p hp => hpairs p (List.mem_cons_of_mem _ hp)⟩
    | @assignRight memo a b rest σ x v ha hb =>
      have hx := hclosed.store.resolve_var hclosed.work.head.2 hb
      have hv : v.Exact := hexact.resolve (hpairs _ List.mem_cons_self).1 v ha
      exact ⟨hexact.assign hx hv, fun p hp => hpairs p (List.mem_cons_of_mem _ hp)⟩
    | expand =>
      refine ⟨hexact, fun p hp => ?_⟩
      rcases List.mem_append.mp hp with hp | hp
      · exact hexact.side hp
      · exact hpairs p (List.mem_cons_of_mem _ hp)

namespace Store

variable {σ τ : Store} {a b t u : Term}

/-- Unification leaves an exact store exact. -/
theorem Exact.unify (hσ : σ.Closed) (hexact : σ.Exact) (ha : a.In σ) (hb : b.In σ) (hea : a.Exact) (heb : b.Exact) :
    (σ.unify a b).2.Exact := by
  obtain ⟨e, hrun, hstore, -⟩ := unify_run hσ ha hb
  have hwork : ∀ p ∈ [(a, b)], p.1.Exact ∧ p.2.Exact := List.forall_mem_singleton.mpr ⟨hea, heb⟩
  exact hstore ▸ (Walk.Run.exact hrun (closed_walk hσ ha hb) hexact hwork).1

/-- Unification makes terms the same. -/
theorem same_of_unify (hσ : σ.Closed) (hexact : σ.Exact) (ha : a.In σ) (hb : b.In σ) (hea : a.Exact) (heb : b.Exact)
    (h : (σ.unify a b).1 = none) : (σ.unify a b).2.Same a b :=
  (equal_of_unify hσ ⟨ha, hexact.floatFree hea⟩ ⟨hb, hexact.floatFree heb⟩ h).same
    (hexact.unify hσ ha hb hea heb) hea

/-! ## Difference -/

/-- Somewhere in the trees of the two terms there are values that nothing makes the same. -/
inductive Differs (σ : Store) : Term → Term → Prop where
  | clash {a b : Term} (h : σ.Clash (σ.resolve a) (σ.resolve b)) : Differs σ a b
  | field {a b : Term} {r s : RecordId} {p : Term × Term} (ha : σ.resolve a = .val (.record r))
      (hb : σ.resolve b = .val (.record s)) (hp : p ∈ (σ.record r).sides (σ.record s)) (h : Differs σ p.1 p.2) :
      Differs σ a b

/-- An answer of `different` has a reason. -/
theorem differs_of_compareAll {room : Nat} {memo : PairMemo} {waiting : Option VarId} {work : List (Term × Term)}
    (h : σ.compareAll room memo waiting work = .different) : ∃ p ∈ work, σ.Differs p.1 p.2 := by
  -- the end of the work never says that the terms differ
  have hend : ∀ waiting : Option VarId, Verdict.ofWaiting waiting ≠ .different := by
    intro waiting
    cases waiting <;> exact Verdict.noConfusion
  have hlater : ∀ {q : Term × Term} {rest : List (Term × Term)}, (∃ p ∈ rest, σ.Differs p.1 p.2) →
      ∃ p ∈ q :: rest, σ.Differs p.1 p.2 := fun ⟨p, hp, hd⟩ => ⟨p, List.mem_cons_of_mem _ hp, hd⟩
  fun_induction compareAll σ room memo waiting work with
  | case1 room memo waiting => exact absurd h (hend waiting)
  | case2 room memo waiting a b rest x y hb ha ih =>
    simp only [dite_eq_ite] at ih
    exact hlater (ih h)
  | case3 room memo waiting a b rest x v hb ha ih => exact hlater (ih h)
  | case4 room memo waiting a b rest v x hb ha ih => exact hlater (ih h)
  | case5 room memo waiting a b rest r s hb ha hmem ih => exact hlater (ih h)
  | case6 memo waiting a b rest r s hb ha hmem => exact absurd h (hend waiting)
  | case7 memo waiting a b rest r s hb ha hmem _ _ hshape room ih =>
    obtain ⟨p, hp, hd⟩ := ih h
    rcases List.mem_append.mp hp with hp | hp
    · exact ⟨_, List.mem_cons_self, .field ha hb hp hd⟩
    · exact ⟨p, List.mem_cons_of_mem _ hp, hd⟩
  | case8 room memo waiting a b rest r s hb ha hmem _ _ hshape =>
    refine ⟨_, List.mem_cons_self, .clash ?_⟩
    rw [ha, hb]
    exact .shape (fun heq => hmem (.inl heq)) hshape
  | case9 room memo waiting a b rest v w _ hb ha hsame ih => exact hlater (ih h)
  | case10 room memo waiting a b rest v w hrecord hb ha hsame =>
    refine ⟨_, List.mem_cons_self, .clash ?_⟩
    rw [ha, hb]
    exact .atom hrecord hsame

/-- Two resolved terms do not differ as far as they are known, given that the pairs of records in `E` do not. -/
inductive Fits (E : RecordId → RecordId → Prop) : Term → Term → Prop where
  | left (x : VarId) (u : Term) : Fits E (.var x) u
  | right (t : Term) (x : VarId) : Fits E t (.var x)
  | record {r s : RecordId} (h : r = s ∨ E r s) : Fits E (.val (.record r)) (.val (.record s))
  | atom {v w : Value} (h : v.sameAtom w = true) : Fits E (.val v) (.val w)

/-- What an answer other than `different` rests on. -/
theorem fits_of_compareAll {room : Nat} {memo : PairMemo} {waiting : Option VarId} {work : List (Term × Term)}
    (hσ : σ.Closed) (hwork : σ.WorkIn work) (hroom : σ.Room room memo)
    (h : σ.compareAll room memo waiting work ≠ .different) :
    ∃ E : RecordId → RecordId → Prop, (∀ p ∈ memo, E p.1 p.2) ∧
      (∀ p ∈ work, Fits E (σ.resolve p.1) (σ.resolve p.2)) ∧
      ∀ r s, E r s → (r, s) ∈ memo ∨ (σ.record r).sameShape (σ.record s) = true ∧
        ∀ p ∈ (σ.record r).sides (σ.record s), Fits E (σ.resolve p.1) (σ.resolve p.2) := by
  -- as for the answer `equal`, but that unbound variables are no obstacle
  have hfront : ∀ {memo : PairMemo} {a b : Term} {rest : List (Term × Term)},
      (∀ E : RecordId → RecordId → Prop, (∀ p ∈ memo, E p.1 p.2) → Fits E (σ.resolve a) (σ.resolve b)) →
      (∃ E : RecordId → RecordId → Prop, (∀ p ∈ memo, E p.1 p.2) ∧
        (∀ p ∈ rest, Fits E (σ.resolve p.1) (σ.resolve p.2)) ∧
        ∀ r s, E r s → (r, s) ∈ memo ∨ (σ.record r).sameShape (σ.record s) = true ∧
          ∀ p ∈ (σ.record r).sides (σ.record s), Fits E (σ.resolve p.1) (σ.resolve p.2)) →
      ∃ E : RecordId → RecordId → Prop, (∀ p ∈ memo, E p.1 p.2) ∧
        (∀ p ∈ (a, b) :: rest, Fits E (σ.resolve p.1) (σ.resolve p.2)) ∧
        ∀ r s, E r s → (r, s) ∈ memo ∨ (σ.record r).sameShape (σ.record s) = true ∧
          ∀ p ∈ (σ.record r).sides (σ.record s), Fits E (σ.resolve p.1) (σ.resolve p.2) := by
    rintro memo a b rest hab ⟨E, hmemo, hrest, hE⟩
    exact ⟨E, hmemo, List.forall_mem_cons.mpr ⟨hab E hmemo, hrest⟩, hE⟩
  fun_induction compareAll σ room memo waiting work with
  | case1 room memo waiting =>
    exact ⟨fun r s => (r, s) ∈ memo, fun p hp => hp, fun p hp => absurd hp List.not_mem_nil, fun r s h => .inl h⟩
  | case2 room memo waiting a b rest x y hb ha ih =>
    simp only [dite_eq_ite] at ih
    refine hfront (fun E _ => ?_) (ih hwork.tail hroom h)
    rw [ha]
    exact .left x _
  | case3 room memo waiting a b rest x v hb ha ih =>
    refine hfront (fun E _ => ?_) (ih hwork.tail hroom h)
    rw [ha]
    exact .left x _
  | case4 room memo waiting a b rest v x hb ha ih =>
    refine hfront (fun E _ => ?_) (ih hwork.tail hroom h)
    rw [hb]
    exact .right _ x
  | case5 room memo waiting a b rest r s hb ha hmem ih =>
    refine hfront (fun E hmemo => ?_) (ih hwork.tail hroom h)
    rw [ha, hb]
    exact .record (hmem.imp_right (hmemo (r, s)))
  | case6 memo waiting a b rest r s hb ha hmem =>
    have hr : r < σ.records.size := hσ.resolve_val hwork.head.1 ha
    have hs : s < σ.records.size := hσ.resolve_val hwork.head.2 hb
    exact absurd rfl (hroom.ne_zero hr hs fun hin => hmem (.inr hin))
  | case7 memo waiting a b rest r s hb ha hmem _ _ hshape room ih =>
    have hr : r < σ.records.size := hσ.resolve_val hwork.head.1 ha
    have hs : s < σ.records.size := hσ.resolve_val hwork.head.2 hb
    have hnot : (r, s) ∉ memo := fun hin => hmem (.inr hin)
    obtain ⟨E, hmemo, hall, hE⟩ := ih (hwork.tail.sides hσ r s) (hroom.insert hr hs hnot) h
    have hrs : E r s := hmemo (r, s) (mem_insert_iff.mpr (.inl rfl))
    refine ⟨E, fun p hp => hmemo p (mem_insert_iff.mpr (.inr hp)),
      List.forall_mem_cons.mpr ⟨?_, fun p hp => hall p (List.mem_append_right _ hp)⟩, fun r' s' h' => ?_⟩
    · rw [ha, hb]
      exact .record (.inr hrs)
    · rcases hE r' s' h' with hin | hok
      · rcases mem_insert_iff.mp hin with heq | hold
        · cases heq
          exact .inr ⟨hshape, fun p hp => hall p (List.mem_append_left _ hp)⟩
        · exact .inl hold
      · exact .inr hok
  | case8 => exact absurd rfl h
  | case9 room memo waiting a b rest v w _ hb ha hsame ih =>
    refine hfront (fun E _ => ?_) (ih hwork.tail hroom h)
    rw [ha, hb]
    exact .atom hsame
  | case10 => exact absurd rfl h

/-- Terms that differ do not fit. -/
theorem Differs.not_fits {E : RecordId → RecordId → Prop}
    (hE : ∀ r s, E r s → (σ.record r).sameShape (σ.record s) = true ∧
      ∀ p ∈ (σ.record r).sides (σ.record s), Fits E (σ.resolve p.1) (σ.resolve p.2))
    (h : σ.Differs a b) (ha : σ.FloatFree a) :
    ¬ (σ.resolve a = σ.resolve b ∨ Fits E (σ.resolve a) (σ.resolve b)) := by
  -- on the way to the values that nothing makes the same
  induction h with
  | @clash a b h =>
    have hfloat : ∀ v, σ.resolve a = .val v → v.isFloat = false := fun v hv => ha.isFloat hv
    generalize σ.resolve a = t, σ.resolve b = u at h hfloat
    rintro (rfl | hfits)
    · cases h with
      | shape hne _ => exact hne rfl
      | @atom v _ hrecord hsame =>
        exact hsame (Value.sameAtom_self (hfloat v rfl) fun r hr => hrecord r r hr hr)
    · cases h with
      | shape hne hshape =>
        cases hfits with
        | record h => exact hshape (hE _ _ (h.resolve_left hne)).1
        | atom h => exact Value.not_sameAtom_record _ _ h
      | atom hrecord hsame =>
        cases hfits with
        | record => exact hrecord _ _ rfl rfl
        | atom h => exact hsame h
  | @field a b r s p har hbs hp _ ih =>
    obtain ⟨f, hf, hfp⟩ := Record.sides_left hp
    have hside : σ.FloatFree p.1 := hfp ▸ ha.field har hf
    rw [har, hbs]
    rintro (heq | hfits)
    · cases heq
      exact ih hside (.inl (congrArg σ.resolve (Record.eq_of_mem_sides_self hp)))
    · cases hfits with
      | record h =>
        rcases h with rfl | h
        · exact ih hside (.inl (congrArg σ.resolve (Record.eq_of_mem_sides_self hp)))
        · exact ih hside (.inr ((hE _ _ h).2 p hp))
      | atom h => exact Value.not_sameAtom_record _ _ h

/-- **Comparing answers no exactly if the terms differ.** -/
theorem compare_eq_different_iff (hσ : σ.Closed) (ha : a.In σ) (hb : b.In σ) (hfree : σ.FloatFree a) :
    σ.compare a b = .different ↔ σ.Differs a b := by
  constructor
  · intro h
    obtain ⟨p, hp, hd⟩ := differs_of_compareAll h
    obtain rfl := List.mem_singleton.mp hp
    exact hd
  · intro hd
    by_contra h
    obtain ⟨E, -, hfits, hE⟩ := fits_of_compareAll hσ (.single ha hb) (.empty σ) h
    have hE' := fun r s hrs => (hE r s hrs).resolve_left Std.HashSet.not_mem_empty
    exact hd.not_fits hE' hfree (.inr (hfits (a, b) List.mem_cons_self))

/-- Terms that are the same do not differ. -/
theorem Differs.not_same (hexact : σ.Exact) (h : σ.Differs a b) (ha : a.Exact) : ¬ σ.Same a b := by
  rintro ⟨E, hE, hm⟩
  -- terms that match do not clash
  have hfits : ∀ t u, t.Exact → Matches E (σ.resolve t) (σ.resolve u) →
      Fits E (σ.resolve t) (σ.resolve u) := by
    intro t u ht hm
    have hresolved := hexact.resolve ht
    generalize σ.resolve t = t', σ.resolve u = u' at hm hresolved
    cases hm with
    | record h => exact .record (.inr h)
    | refl =>
      cases t' with
      | var x => exact .left x _
      | val v =>
        cases v with
        | record r => exact .record (.inl rfl)
        | _ => exact .atom (Value.sameAtom_self (hresolved _ rfl).isFloat (by simp))
  refine h.not_fits (fun r s hrs => ?_) (hexact.floatFree ha) (.inr (hfits a b ha hm))
  obtain ⟨hshape, hsides⟩ := hE r s hrs
  exact ⟨hshape, fun p hp => hfits _ _ (hexact.side hp).1 (hsides p hp)⟩

/-- What is the same as a record is a record of that shape. -/
theorem Same.of_record {r : RecordId} (h : σ.Same a t) (ha : σ.resolve a = .val (.record r)) :
    ∃ s, σ.resolve t = .val (.record s) ∧ (σ.record r).sameShape (σ.record s) = true ∧
      ∀ p ∈ (σ.record r).sides (σ.record s), σ.Same p.1 p.2 := by
  have hrecord : ∃ s, σ.resolve t = .val (.record s) := by
    rcases h.cases with heq | ⟨_, s, -, ht⟩
    · exact ⟨r, heq ▸ ha⟩
    · exact ⟨s, ht⟩
  obtain ⟨s, ht⟩ := hrecord
  exact ⟨s, ht, h.record ha ht⟩

/-- What is the same as an atom is that atom. -/
theorem Same.of_atom {v : Value} (h : σ.Same a t) (ha : σ.resolve a = .val v) (hv : ∀ r, v ≠ .record r) :
    σ.resolve t = .val v := by
  rcases h.cases with heq | ⟨r, _, ha', -⟩
  · exact heq ▸ ha
  · exact absurd (Term.val.inj (ha.symm.trans ha')) (hv r)

/-- What is the same as terms that differ differs. -/
theorem Differs.congr (h : σ.Differs a b) (ha : σ.Same a t) (hb : σ.Same b u) : σ.Differs t u := by
  induction h generalizing t u with
  | @clash a b h =>
    refine .clash ?_
    generalize har : σ.resolve a = a', hbs : σ.resolve b = b' at h
    cases h with
    | @shape r s hne hshape =>
      obtain ⟨r', ht, hr, -⟩ := ha.of_record har
      obtain ⟨s', hu, hs, -⟩ := hb.of_record hbs
      rw [ht, hu]
      -- the shapes of the other two records are those of the first two
      have hapart : ¬ (σ.record r').sameShape (σ.record s') = true := fun h' =>
        hshape (Record.sameShape_trans (Record.sameShape_trans hr h') (Record.sameShape_symm hs))
      exact .shape (fun heq => hapart (heq ▸ Record.sameShape_iff.mpr ⟨rfl, rfl⟩)) hapart
    | @atom v w hrecord hsame =>
      by_cases hv : ∃ r, v = .record r
      · obtain ⟨r, rfl⟩ := hv
        obtain ⟨r', ht, -, -⟩ := ha.of_record har
        rw [ht, hb.of_atom hbs fun s hw => hrecord r s rfl hw]
        exact .atom (fun _ s _ hw => hrecord r s rfl hw) (Value.not_sameAtom_record _ _)
      · have hv' : ∀ r, v ≠ .record r := fun r hr => hv ⟨r, hr⟩
        rw [ha.of_atom har hv']
        by_cases hw : ∃ s, w = .record s
        · obtain ⟨s, rfl⟩ := hw
          obtain ⟨s', hu, -, -⟩ := hb.of_record hbs
          rw [hu]
          exact .atom (fun r _ hr _ => hv' r hr) (Value.not_sameAtom_record_right _ _)
        · rw [hb.of_atom hbs fun s hs => hw ⟨s, hs⟩]
          exact .atom hrecord hsame
  | @field a b r s p har hbs hp _ ih =>
    obtain ⟨r', ht, hr, hleft⟩ := ha.of_record har
    obtain ⟨s', hu, hs, hright⟩ := hb.of_record hbs
    -- the values that face each other in the other two records, at the place of the pair
    obtain ⟨t', hpt, ht'⟩ := Record.sides_between hr hp
    obtain ⟨u', hpu, hu'⟩ := Record.sides_between hs (Record.sides_swap ht')
    exact .field ht hu (Record.sides_swap hu') (ih (hleft _ hpt) (hright _ hpu))

/-! ## Constants -/

/-- Comparing with a constant depends on the term alone. -/
theorem compare_scalar (σ : Store) (t : Term) (s : Scalar) :
    σ.compare t (.val s.toValue) = match σ.resolve t with
      | .var x => .unknown x
      | .val v => if v.sameAtom s.toValue then .equal else .different := by
  have hresolve : σ.resolve (.val s.toValue) = .val s.toValue := rfl
  rw [compare, compareAll.eq_def]
  simp only [hresolve]
  rcases σ.resolve t with v | x
  · cases s <;> cases v <;> simp [Scalar.toValue, compareAll, Verdict.ofWaiting] <;> rfl
  · simp [compareAll, Verdict.ofWaiting]

/-- It waits only for the term. -/
theorem compare_scalar_eq_unknown {s : Scalar} {x : VarId} :
    σ.compare t (.val s.toValue) = .unknown x ↔ σ.resolve t = .var x := by
  rw [compare_scalar]
  rcases σ.resolve t with v | y
  · by_cases hsame : v.sameAtom s.toValue = true
    · simp [hsame]
    · simp [hsame]
  · exact ⟨fun h => congrArg Term.var (Verdict.unknown.inj h), fun h => congrArg Verdict.unknown (Term.var.inj h)⟩

end Store

end Dataflow
