/-
Terms as trees: what paths of features lead to.

A term stands for a tree, which is infinite if a record contains itself. A path of features leads from the root to a
part of it, as long as each part on the way is a record that has the feature. `tree` says what a path leads to: an
unbound variable, an atom, or a record with its label and its features.

In a store whose records are in order, the pairs of values that face each other in two records of one shape are just the
pairs that one feature leads to. So a walk that goes through fields by position goes through a tree by paths.
-/
import Dataflow.Proofs.Records
import Dataflow.Proofs.Equality

set_option autoImplicit false

namespace Dataflow

/-! ## Shapes -/

/-- The records have the same label and the same set of features. -/
def Record.Alike (r s : Record) : Prop := r.label = s.label ∧ ∀ f, r.has f = s.has f

/-- Sorted records have one shape exactly where they have one label and the same features. -/
theorem Record.Ascending.sameShape_iff {r s : Record} (hr : r.Ascending) (hs : s.Ascending) :
    r.sameShape s = true ↔ r.Alike s := by
  rw [Record.sameShape_iff]
  refine and_congr_right fun _ => ⟨fun h f => ?_, fun h => ?_⟩
  · rw [Bool.eq_iff_iff, hr.has_iff, hs.has_iff, h]
  · refine List.Pairwise.eq_of_mem_iff hr hs fun f => ?_
    rw [← hr.has_iff, ← hs.has_iff, h f]

/-- What a feature selects in two records of one shape faces each other. -/
theorem Record.select?_rel {r s : Record} (hshape : r.sameShape s = true) (f : Feature) :
    Option.Rel (fun t u => (t, u) ∈ r.sides s) (r.select? f) (s.select? f) := by
  have hfeatures := (Record.sameShape_iff.mp hshape).2
  have hlength : r.fields.length = s.fields.length := by
    rw [← List.length_map Field.feature, hfeatures, List.length_map]
  rw [Record.select?_of_indexOf? (Record.indexOf?_congr hfeatures f), Record.select?_of_indexOf? rfl]
  cases s.indexOf? f with
  | none => exact .none
  | some i =>
    rw [Option.bind_some, Option.bind_some]
    by_cases hi : i < r.fields.length
    · have hi' : i < s.fields.length := hlength ▸ hi
      have hf := List.getElem?_eq_getElem hi
      have hg := List.getElem?_eq_getElem hi'
      rw [hf, hg]
      exact .some (Record.mem_sides.mpr ⟨i, _, _, hf, hg, rfl⟩)
    · have hi' : ¬ i < s.fields.length := hlength ▸ hi
      rw [List.getElem?_eq_none (Nat.le_of_not_lt hi), List.getElem?_eq_none (Nat.le_of_not_lt hi')]
      exact .none

/-- What faces each other in two ordered records of one shape is what one feature selects. -/
theorem Record.mem_sides_iff_select? {r s : Record} (hr : r.Ascending) (hs : s.Ascending)
    (hshape : r.sameShape s = true) {t u : Term} :
    (t, u) ∈ r.sides s ↔ ∃ f, r.select? f = some t ∧ s.select? f = some u := by
  constructor
  · intro hmem
    obtain ⟨i, f, g, hf, hg, heq⟩ := Record.mem_sides.mp hmem
    cases heq
    have hfeature := congrArg (fun l => l[i]?) (Record.sameShape_iff.mp hshape).2
    rw [List.getElem?_map, List.getElem?_map, hf, hg] at hfeature
    have hfg : f.feature = g.feature := Option.some.inj hfeature
    exact ⟨f.feature, hr.select?_eq hf, hfg ▸ hs.select?_eq hg⟩
  · rintro ⟨f, hf, hg⟩
    have hrel := Record.select?_rel hshape f
    rw [hf, hg] at hrel
    cases hrel with
    | some h => exact h

namespace Store

variable {σ : Store} {a b t u : Term} {f : Feature} {path : List Feature}

/-- The features of every record are in ascending order. -/
def Sorted (σ : Store) : Prop := ∀ r ∈ σ.records, r.Ascending

/-- Each record of a sorted store is in ascending order, also where there is none. -/
theorem Sorted.record (h : σ.Sorted) (r : RecordId) : (σ.record r).Ascending := by
  rw [Store.record, Array.getD_eq_getD_getElem?]
  cases hr : σ.records[r]? with
  | none => exact List.Pairwise.nil
  | some s => exact h s (Array.mem_of_getElem? hr)

/-! ## Paths -/

/-- What a feature of a term leads to. -/
def child? (σ : Store) (t : Term) (f : Feature) : Option Term :=
  match σ.resolve t with
  | .val (.record r) => (σ.record r).select? f
  | _ => none

/-- What a path of features leads to. -/
def follow? (σ : Store) : Term → List Feature → Option Term
  | t, [] => some t
  | t, f :: path => (σ.child? t f).bind fun u => σ.follow? u path

/-- A child is the value of a field of the record that the term stands for. -/
theorem child?_eq_some : σ.child? t f = some u ↔
    ∃ r, σ.resolve t = .val (.record r) ∧ (σ.record r).select? f = some u := by
  rw [child?]
  split
  · next r hr => exact ⟨fun h => ⟨r, hr, h⟩, fun ⟨_, hr', h⟩ => by cases hr.symm.trans hr'; exact h⟩
  · next hnot => exact ⟨nofun, fun ⟨r, hr, _⟩ => absurd hr (hnot r)⟩

theorem follow?_cons : σ.follow? t (f :: path) = some u ↔
    ∃ s, σ.child? t f = some s ∧ σ.follow? s path = some u := by
  rw [follow?, Option.bind_eq_some_iff]

/-- A path leads to the same part from all terms that resolve to one term. -/
theorem child?_congr (h : σ.resolve t = σ.resolve u) (f : Feature) : σ.child? t f = σ.child? u f := by
  rw [child?, child?, h]

/-! ## Trees -/

/-- A node of a tree. -/
inductive Node where
  | unbound (x : VarId)
  | atom (v : Value)
  | record (label : Literal) (features : List Feature)

/-- The root of the tree of a term. -/
def node (σ : Store) (t : Term) : Node :=
  match σ.resolve t with
  | .var x => .unbound x
  | .val (.record r) => .record (σ.record r).label ((σ.record r).fields.map Field.feature)
  | .val v => .atom v

/-- The tree of a term: the node that a path leads to. -/
def tree (σ : Store) (t : Term) (path : List Feature) : Option Node := (σ.follow? t path).map σ.node

theorem tree_nil (σ : Store) (t : Term) : σ.tree t [] = some (σ.node t) := rfl

/-- The tree of a term below a feature is the tree of that child. -/
theorem tree_cons (σ : Store) (t : Term) (f : Feature) (path : List Feature) :
    σ.tree t (f :: path) = (σ.child? t f).bind fun u => σ.tree u path := by
  rw [tree, follow?, Option.map_bind]
  rfl

/-- Terms that resolve to one term have one tree. -/
theorem tree_congr (h : σ.resolve t = σ.resolve u) : σ.tree t = σ.tree u := by
  funext path
  cases path with
  | nil => rw [tree_nil, tree_nil, node, node, h]
  | cons f path => rw [tree_cons, tree_cons, child?_congr h]

/-- A value that is no record is a leaf. -/
theorem node_of_atom {v : Value} (h : σ.resolve t = .val v) (hv : ∀ r, v ≠ .record r) : σ.node t = .atom v := by
  rw [node, h]
  cases v with
  | record r => exact absurd rfl (hv r)
  | lit | num | obj | proc | config | failed => rfl

theorem node_of_record {r : RecordId} (h : σ.resolve t = .val (.record r)) :
    σ.node t = .record (σ.record r).label ((σ.record r).fields.map Field.feature) := by
  rw [node, h]

theorem node_of_var {x : VarId} (h : σ.resolve t = .var x) : σ.node t = .unbound x := by
  rw [node, h]

/-! ## Two terms side by side -/

/-- Some path of features leads from `a` to `t` and from `b` to `u`. -/
def Meets (σ : Store) (a b t u : Term) : Prop :=
  ∃ path, σ.follow? a path = some t ∧ σ.follow? b path = some u

namespace Meets

theorem refl (σ : Store) (a b : Term) : σ.Meets a b a b := ⟨[], rfl, rfl⟩

theorem child {a' b' : Term} (ha : σ.child? a f = some a') (hb : σ.child? b f = some b') (h : σ.Meets a' b' t u) :
    σ.Meets a b t u := by
  obtain ⟨path, ht, hu⟩ := h
  exact ⟨f :: path, follow?_cons.mpr ⟨a', ha, ht⟩, follow?_cons.mpr ⟨b', hb, hu⟩⟩

/-- What faces each other in two records of one shape is on a common path. -/
theorem side (hσ : σ.Sorted) {r s : RecordId} (ha : σ.resolve a = .val (.record r)) (hb : σ.resolve b = .val (.record s))
    (hshape : (σ.record r).sameShape (σ.record s) = true) {p : Term × Term}
    (hp : p ∈ (σ.record r).sides (σ.record s)) (h : σ.Meets p.1 p.2 t u) : σ.Meets a b t u := by
  obtain ⟨f, hf, hg⟩ := (Record.mem_sides_iff_select? (hσ.record r) (hσ.record s) hshape).mp hp
  exact h.child (child?_eq_some.mpr ⟨r, ha, hf⟩) (child?_eq_some.mpr ⟨s, hb, hg⟩)

/-- **Following a common path** from the root: a property of pairs that holds of the two terms, and that passes from two
records to what any feature leads to, holds of what the path leads to. -/
theorem follow {P : Term → Term → Prop}
    (hP : ∀ a b f a' b', P a b → σ.child? a f = some a' → σ.child? b f = some b' → P a' b') (hab : P a b)
    (h : σ.Meets a b t u) : P t u := by
  obtain ⟨path, ht, hu⟩ := h
  induction path generalizing a b with
  | nil =>
    obtain rfl := Option.some.inj ht
    obtain rfl := Option.some.inj hu
    exact hab
  | cons f path ih =>
    obtain ⟨a', ha, ht⟩ := follow?_cons.mp ht
    obtain ⟨b', hb, hu⟩ := follow?_cons.mp hu
    exact ih (hP a b f a' b' hab ha hb) ht hu

end Meets

end Store

end Dataflow
