/-
The tree of a completed value.

What completing gives is built from new records, and values stand in it that were met elsewhere. Along every path it has
the same records as the original, with the same labels and features, and the same atoms, with one exception: of the
values that are made from one closure, the one that is met first stands for all, so that a configuration may come out as
the constructor that it was made by. Where no two values that are met share a closure, the original and the completed
value unfold to the same tree.
-/
import Dataflow.Proofs.Touring
import Dataflow.Proofs.Trees
import Mathlib

set_option autoImplicit false

namespace Dataflow

namespace Store

variable {σ τ : Store} {t u root : Term} {v w : Value} {f : Feature}

/-! ## Trees in a store with more records -/

namespace Rebuilds

/-- A term that was there before has the same children. -/
theorem child?_eq (h : σ.Rebuilds τ) (hσ : σ.Closed) (ht : t.In σ) (f : Feature) : τ.child? t f = σ.child? t f := by
  rw [child?, child?, h.resolve_eq t]
  split
  · next r hr => rw [h.grows.record_eq (hσ.resolve_val ht hr)]
  · rfl

/-- A term that was there before looks the same at its root. -/
theorem node_eq (h : σ.Rebuilds τ) (hσ : σ.Closed) (ht : t.In σ) : τ.node t = σ.node t := by
  rw [node, node, h.resolve_eq t]
  split
  · rfl
  · next r hr => rw [h.grows.record_eq (hσ.resolve_val ht hr)]
  · rfl

/-- New records do not change the trees of terms that were there before. -/
theorem tree_eq (h : σ.Rebuilds τ) (hσ : σ.Closed) (ht : t.In σ) : τ.tree t = σ.tree t := by
  funext path
  induction path generalizing t with
  | nil => rw [tree_nil, tree_nil, h.node_eq hσ ht]
  | cons f path ih =>
    rw [tree_cons, tree_cons, h.child?_eq hσ ht f]
    cases hchild : σ.child? t f with
    | none => rfl
    | some u =>
      obtain ⟨r, hr, hselect⟩ := child?_eq_some.mp hchild
      exact ih (hσ.record r _ (Record.mem_of_select? hselect))

end Rebuilds

/-! ## What stands for a value has its tree -/

/-- The nodes are equal, or they are two values that are made from one closure and can both be reached from `root`. -/
def Interchange (σ : Store) (root : Term) (m n : Node) : Prop :=
  m = n ∨ ∃ c v w, m = .atom v ∧ n = .atom w ∧ v.site? σ = some (.closure c) ∧ w.site? σ = some (.closure c) ∧
    σ.Met root v ∧ σ.Met root w

theorem interchange_refl (σ : Store) (root : Term) : ∀ m : Option Node, Option.Rel (σ.Interchange root) m m
  | none => .none
  | some _ => .some (.inl rfl)

/-- A value that is made from a closure is an atom. -/
theorem node_of_closure {c : ClosureId} (h : v.site? σ = some (.closure c)) (τ : Store) :
    τ.node (.val v) = .atom v := by
  refine node_of_atom rfl ?_
  rintro r rfl
  cases h

/-- So no feature leads further. -/
theorem child?_of_closure {c : ClosureId} (h : v.site? σ = some (.closure c)) (τ : Store) (f : Feature) :
    τ.child? (.val v) f = none := by
  rw [child?]
  split
  · next r hr =>
    obtain rfl := Term.val.inj hr
    cases h
  · rfl

/-- **What stands for a value agrees with it** along every path. -/
theorem Stands.agree (hσ : σ.Closed) (hστ : σ.Rebuilds τ) (h : σ.Stands τ root v w) (path : List Feature) :
    Option.Rel (σ.Interchange root) (σ.tree (.val v) path) (τ.tree (.val w) path) := by
  -- along the path: at its end both nodes are looked at, and on the way the same child
  induction path generalizing v w with
  | nil =>
    cases h with
    | same hv => exact hστ.tree_eq hσ (t := .val v) hv ▸ interchange_refl σ root _
    | @shared _ _ c hv hw hvmet hwmet =>
      rw [tree_nil, tree_nil, node_of_closure hv, node_of_closure hw]
      exact .some (.inr ⟨c, v, w, rfl, rfl, hv, hw, hvmet, hwmet⟩)
    | @rebuilt r s _ hshape =>
      obtain ⟨hlabel, hfeatures⟩ := Record.sameShape_iff.mp hshape
      rw [tree_nil, tree_nil, node_of_record (r := r) rfl, node_of_record (r := s) rfl, hlabel, hfeatures]
      exact interchange_refl σ root _
  | cons f path ih =>
    cases h with
    | same hv => exact hστ.tree_eq hσ (t := .val v) hv ▸ interchange_refl σ root _
    | shared hv hw =>
      rw [tree_cons, tree_cons, child?_of_closure hv, child?_of_closure hw]
      exact .none
    | @rebuilt r s _ hshape hsources hsides =>
      rw [tree_cons, tree_cons]
      have hchild : σ.child? (.val (.record r)) f = (σ.record r).select? f := rfl
      have hchild' : τ.child? (.val (.record s)) f = (τ.record s).select? f := rfl
      rw [hchild, hchild']
      -- two records of one shape have a child under the same features
      have hrel := Record.select?_rel hshape f
      generalize (σ.record r).select? f = a, (τ.record s).select? f = b at hrel
      cases hrel with
      | none => exact .none
      | @some a b hmem =>
        obtain ⟨v', w', hv', rfl⟩ := hsources _ hmem
        have hresolve : σ.resolve a = σ.resolve (.val v') := hv'
        rw [Option.bind_some, Option.bind_some, tree_congr hresolve]
        exact ih (hsides _ hmem v' w' hv' rfl)

end Store

namespace Action

open Store

variable {σ τ : Store} {t : Term} {w : Value}

/-- **The completed value unfolds to the tree of the original** along every path, up to values that are made from one
closure; and if no two values that can be reached share a closure, then to the very same tree. Completing adds records
and changes nothing else in the store. -/
theorem complete_unfolds (hσ : σ.Closed) (ht : t.In σ) (h : complete t σ = .ok w τ) :
    σ.Rebuilds τ ∧
    (∀ path, Option.Rel (σ.Interchange t) (σ.tree t path) (τ.tree (.val w) path)) ∧
    ((∀ c v v', σ.Met t v → σ.Met t v' → v.site? σ = some (.closure c) → v'.site? σ = some (.closure c) → v = v') →
      τ.tree (.val w) = σ.tree t) := by
  have htours := complete_tours hσ ht
  rw [h] at htours
  obtain ⟨hστ, -, v, hv, hstands⟩ := htours
  -- what stands for the term has its tree, up to values made from one closure
  have hagrees : ∀ path, Option.Rel (σ.Interchange t) (σ.tree t path) (τ.tree (.val w) path) := by
    have hresolve : σ.resolve t = σ.resolve (.val v) := hv
    rw [tree_congr hresolve]
    exact hstands.agree hσ hστ
  refine ⟨hστ, hagrees, fun hdistinct => ?_⟩
  funext path
  have hnodes := hagrees path
  generalize σ.tree t path = m, τ.tree (.val w) path = n at hnodes
  cases hnodes with
  | none => rfl
  | some hmn =>
    -- where one closure has one value, both values are the same
    obtain rfl | ⟨c, v, v', rfl, rfl, hc, hc', hmet, hmet'⟩ := hmn
    · rfl
    · rw [hdistinct c v v' hmet hmet' hc hc']

/-- A record that contains itself. -/
def ring : Store :=
  { vars := #[.bound (.record 0)], records := #[⟨.null, [⟨.str "self", .var 0⟩]⟩] }

theorem ring_closed : ring.Closed := by
  refine ⟨fun x s hs => ?_, fun r hr => ?_, ?_, ?_, ?_, ?_, ?_, ?_⟩
  · match x, s, hs with
    | 0, _, rfl => exact Nat.zero_lt_one
  · obtain rfl : r = ⟨.null, [⟨.str "self", .var 0⟩]⟩ := by simpa [ring] using hr
    intro f hf
    obtain rfl := List.mem_singleton.mp hf
    exact Nat.zero_lt_one
  all_goals simp [ring]

/-- The variable stands for the record. -/
theorem ring_resolve : ring.resolve (.var 0) = .val (.record 0) := by
  have hlink : ∀ y, ring.vars[0]? ≠ some (.link y) := by simp [ring]
  refine resolveVar_of_bound ?_
  rw [representative_of_ne_link hlink]
  rfl

/-- It yields nothing but itself. -/
theorem ring_yields {u : Term} (h : ring.Yields (.val (.record 0)) u) : ring.resolve u = .val (.record 0) := by
  induction h with
  | refl => rfl
  | tail _ hstep ih =>
    obtain ⟨p, hp, hmem⟩ := hstep
    rw [site?_of_val ih] at hp
    cases hp
    obtain rfl := List.mem_singleton.mp hmem
    exact ring_resolve

theorem ring_met {v : Value} (h : ring.Met (.val (.record 0)) v) : v = .record 0 := by
  obtain ⟨u, hu, hv⟩ := h
  exact Term.val.inj (hv.symm.trans (ring_yields hu))

/-- Completing the record succeeds, and the result is the same infinite tree. -/
theorem complete_unfolds_ring :
    ∃ w τ, complete (.val (.record 0)) ring = .ok w τ ∧ τ.tree (.val w) = ring.tree (.val (.record 0)) := by
  have hin : Term.In ring (.val (.record 0)) := Nat.zero_lt_one
  obtain ⟨w, τ, hcomplete⟩ := (complete_eq_ok_iff ring_closed hin).mpr fun u hu => obstacle?_of_val (ring_yields hu)
  refine ⟨w, τ, hcomplete, (complete_unfolds ring_closed hin hcomplete).2.2 ?_⟩
  intro c v v' hv hv' _ _
  rw [ring_met hv, ring_met hv']

/-- A tuple of a constructor of actors and a configuration that it made. -/
def pairing : Store :=
  { records := #[.tuple .null [.val (.proc (.actorMaker 0)), .val (.config 0)]]
    closures := #[⟨{ params := ["n", "handlers"], body := .skip }, []⟩]
    configs := #[⟨[.num (.int32 1)], 0⟩] }

theorem pairing_closed : pairing.Closed := by
  refine ⟨?_, ?_, ?_, ?_, ?_, ?_, ?_, ?_⟩
  all_goals simp [pairing, Record.tuple, Record.enumerate, Record.In, Closure.In, ActorConfig.In, Env.In, Term.In,
    Value.In, Proc.In]

/-- **The configuration comes out as the constructor**, because both are made from one closure and the constructor is
met first. -/
theorem complete_confuses :
    pairing.Closed ∧ ∃ τ, complete (.val (.record 0)) pairing = .ok (.record 1) τ ∧
      pairing.tree (.val (.record 0)) [.position 1] = some (.atom (.config 0)) ∧
      τ.tree (.val (.record 1)) [.position 1] = some (.atom (.proc (.actorMaker 0))) := by
  have hcomplete : complete (.val (.record 0)) pairing =
      .ok (.record 1) (pairing.newRecord (.tuple .null
        [.val (.proc (.actorMaker 0)), .val (.proc (.actorMaker 0))])).2 := by
    rw [complete_record]
    cbv
  have hascending : ∀ values : List Term, values.length ≤ 2 ^ 63 → (Record.tuple .null values).Ascending := fun _ =>
    Record.ascending_tuple .null
  -- the second position has the configuration before and its constructor afterwards
  refine ⟨pairing_closed, _, hcomplete, ?_, ?_⟩
  · have hselect : pairing.child? (.val (.record 0)) (.position 1) = some (.val (.config 0)) :=
      (hascending [_, _] (by simp)).select?_eq (i := 1) rfl
    rw [tree_cons, hselect]
    rfl
  · have hselect : (pairing.newRecord (.tuple .null
        [.val (.proc (.actorMaker 0)), .val (.proc (.actorMaker 0))])).2.child? (.val (.record 1)) (.position 1) =
        some (.val (.proc (.actorMaker 0))) :=
      (hascending [_, _] (by simp)).select?_eq (i := 1) rfl
    rw [tree_cons, hselect]
    rfl

end Action

end Dataflow
