/-
Entailment is exact and stable.

Comparing two terms walks through their trees side by side. It answers no exactly if some path leads to two values that
definitely differ, however many unbound variables it has met before. Otherwise it waits exactly if some path leads to an
unbound variable that faces anything but itself, and it names one of those. Otherwise the two trees are alike, and it
answers yes. In its final answers nothing depends on unbound variables, so they stay what they are when variables are
bound to values without floats.

The walk takes a pair of records that it meets again for equal, also if it has found something to wait for there. That is
no mistake, because what it has found is remembered apart from the pair (`waits_of_compareAll`).
-/
import Dataflow.Proofs.Trees
import Dataflow.Proofs.Sameness
import Dataflow.Proofs.Constraints

set_option autoImplicit false

namespace Dataflow

/-- The values are one value, or decimals with one value. -/
def Value.SameLeaf (v w : Value) : Prop :=
  v = w ∨ ∃ a b : Decimal, v = .num (.dec128 a) ∧ w = .num (.dec128 b) ∧ a.units = b.units

/-- What is no record and no float is the same atom as its like, and as nothing else. -/
theorem Value.sameAtom_iff {v w : Value} (hv : v.isFloat = false) (hrecord : ∀ r, v ≠ .record r) :
    v.sameAtom w = true ↔ v.SameLeaf w := by
  constructor
  · intro h
    rcases Value.sameAtom_cases h with rfl | ⟨m, n, rfl, rfl, hmn⟩
    · exact .inl rfl
    · rcases Num.same_cases (.inl hv) hmn with rfl | ⟨a, b, rfl, rfl, hab⟩
      · exact .inl rfl
      · exact .inr ⟨a, b, rfl, rfl, hab⟩
  · rintro (rfl | ⟨a, b, rfl, rfl, hab⟩)
    · exact Value.sameAtom_self hv hrecord
    · exact Num.same_dec128 hab

namespace Store

variable {σ τ : Store} {a b t u : Term}

/-- Two resolved terms definitely differ: they are records of different labels or sets of features, or values that are
not two records and not one leaf. -/
def Apart (σ : Store) : Term → Term → Prop
  | .val (.record r), .val (.record s) => ¬ (σ.record r).Alike (σ.record s)
  | .val v, .val w => ¬ v.SameLeaf w
  | _, _ => False

/-- Of two resolved terms one is the unbound variable `x`, and the other is not. -/
def Faces (x : VarId) (t u : Term) : Prop := t = .var x ∧ u ≠ .var x ∨ u = .var x ∧ t ≠ .var x

/-- Some path leads to two values that definitely differ. -/
def Differing (σ : Store) (a b : Term) : Prop := ∃ t u, σ.Meets a b t u ∧ σ.Apart (σ.resolve t) (σ.resolve u)

/-- Some path leads to the unbound variable `x`, facing anything but itself. -/
def WaitsFor (σ : Store) (a b : Term) (x : VarId) : Prop :=
  ∃ t u, σ.Meets a b t u ∧ Faces x (σ.resolve t) (σ.resolve u)

/-! ## Difference -/

/-- What is apart clashes, unless there is a float in it. -/
theorem clash_of_apart (hσ : σ.Sorted) (hfloat : ∀ v, t = .val v → v.isFloat = false) (h : σ.Apart t u) :
    σ.Clash t u := by
  -- two records, or two values that are not both records
  rcases t with v | x
  · rcases u with w | y
    -- two records clash by their shapes, and anything else as atoms
    · by_cases hrecords : ∃ r s, v = .record r ∧ w = .record s
      · obtain ⟨r, s, rfl, rfl⟩ := hrecords
        have hshape : ¬ (σ.record r).sameShape (σ.record s) = true := fun hs =>
          h (((hσ.record r).sameShape_iff (hσ.record s)).mp hs)
        exact .shape (fun heq => hshape (heq ▸ Record.sameShape_iff.mpr ⟨rfl, rfl⟩)) hshape
      · refine .atom (fun r s hr hs => hrecords ⟨r, s, hr, hs⟩) fun hsame => ?_
        have hleaf : v.SameLeaf w := by
          by_cases hv : ∃ r, v = .record r
          · obtain ⟨r, rfl⟩ := hv
            exact absurd hsame (Value.not_sameAtom_record r w)
          · exact (Value.sameAtom_iff (hfloat v rfl) fun r hr => hv ⟨r, hr⟩).mp hsame
        cases v <;> cases w <;> first | exact h hleaf | exact hrecords ⟨_, _, rfl, rfl⟩
    · cases v <;> exact h.elim
  · cases u <;> exact h.elim

/-- What clashes is apart, unless there is a float in it. -/
theorem apart_of_clash (hσ : σ.Sorted) (hfloat : ∀ v, t = .val v → v.isFloat = false) (h : σ.Clash t u) :
    σ.Apart t u := by
  cases h with
  | @shape r s hne hshape => exact fun halike => hshape (((hσ.record r).sameShape_iff (hσ.record s)).mpr halike)
  | @atom v w hrecord hsame =>
    have hleaf : ¬ v.SameLeaf w := by
      intro hleaf
      by_cases hv : ∃ r, v = .record r
      · obtain ⟨r, rfl⟩ := hv
        rcases hleaf with rfl | ⟨_, _, hr, -⟩
        · exact hrecord r r rfl rfl
        · cases hr
      · exact hsame ((Value.sameAtom_iff (hfloat v rfl) fun r hr => hv ⟨r, hr⟩).mpr hleaf)
    cases v <;> cases w <;> first | exact hleaf | exact absurd rfl (hrecord _ _ rfl)

/-- Terms differ if some path leads to values that do. -/
theorem differs_iff (hσ : σ.Sorted) (hfree : σ.FloatFree a) : σ.Differs a b ↔ σ.Differing a b := by
  constructor
  · intro h
    induction h with
    | @clash a b h => exact ⟨a, b, .refl σ a b, apart_of_clash hσ (fun v hv => hfree.isFloat hv) h⟩
    | @field a b r s p har hbs hp _ ih =>
      by_cases hshape : (σ.record r).sameShape (σ.record s) = true
      · obtain ⟨f, hf, hfp⟩ := Record.sides_left hp
        obtain ⟨t, u, hmeets, hapart⟩ := ih (hfp ▸ hfree.field har hf)
        exact ⟨t, u, .side hσ har hbs hshape hp hmeets, hapart⟩
      · refine ⟨a, b, .refl σ a b, ?_⟩
        rw [har, hbs]
        exact fun halike => hshape (((hσ.record r).sameShape_iff (hσ.record s)).mpr halike)
  · rintro ⟨t, u, ⟨path, ht, hu⟩, hapart⟩
    induction path generalizing a b with
    | nil =>
      obtain rfl := Option.some.inj ht
      obtain rfl := Option.some.inj hu
      exact .clash (clash_of_apart hσ (fun v hv => hfree.isFloat hv) hapart)
    | cons f path ih =>
      obtain ⟨a', ha, ht⟩ := follow?_cons.mp ht
      obtain ⟨b', hb, hu⟩ := follow?_cons.mp hu
      obtain ⟨r, hr, hra⟩ := child?_eq_some.mp ha
      obtain ⟨s, hs, hsb⟩ := child?_eq_some.mp hb
      -- either the two records differ already, or their values for the feature face each other
      by_cases hshape : (σ.record r).sameShape (σ.record s) = true
      · have hside : (a', b') ∈ (σ.record r).sides (σ.record s) :=
          (Record.mem_sides_iff_select? (hσ.record r) (hσ.record s) hshape).mpr ⟨f, hra, hsb⟩
        exact .field hr hs hside (ih (hfree.field hr (Record.mem_of_select? hra)) ht hu)
      · refine .clash ?_
        rw [hr, hs]
        exact .shape (fun heq => hshape (heq ▸ Record.sameShape_iff.mpr ⟨rfl, rfl⟩)) hshape

/-! ## Waiting -/

/-- **An answer to wait has a reason**: the variable that it names has been found before, or is still to be found. -/
theorem waits_of_compareAll (hσ : σ.Sorted) {room : Nat} {memo : PairMemo} {waiting : Option VarId}
    {work : List (Term × Term)} {x : VarId} (h : σ.compareAll room memo waiting work = .unknown x) :
    waiting = some x ∨ ∃ p ∈ work, σ.WaitsFor p.1 p.2 x := by
  have hend : ∀ {waiting : Option VarId}, Verdict.ofWaiting waiting = .unknown x → waiting = some x := by
    intro waiting hwaiting
    cases waiting with
    | none => cases hwaiting
    | some y => cases hwaiting; rfl
  have hlater : ∀ {q : Term × Term} {rest : List (Term × Term)}, (∃ p ∈ rest, σ.WaitsFor p.1 p.2 x) →
      ∃ p ∈ q :: rest, σ.WaitsFor p.1 p.2 x := by
    rintro q rest ⟨p, hp, hw⟩
    exact ⟨p, List.mem_cons_of_mem _ hp, hw⟩
  -- a variable that is found here, unless one has been found before
  have hfound : ∀ {waiting : Option VarId} {y : VarId} {a b : Term} {rest : List (Term × Term)},
      Faces y (σ.resolve a) (σ.resolve b) → waiting.or (some y) = some x →
      waiting = some x ∨ ∃ p ∈ (a, b) :: rest, σ.WaitsFor p.1 p.2 x := by
    intro waiting y a b rest hfaces hor
    cases waiting with
    | some z => exact .inl hor
    | none =>
      obtain rfl := Option.some.inj hor
      exact .inr ⟨(a, b), List.mem_cons_self, a, b, .refl σ a b, hfaces⟩
  fun_induction compareAll σ room memo waiting work with
  | case1 room memo waiting => exact .inl (hend h)
  | case2 room memo waiting a b rest y z hb ha ih =>
    simp only [dite_eq_ite] at ih
    rcases ih h with hwaiting | hrest
    · by_cases hyz : y = z
      · rw [if_pos hyz] at hwaiting
        exact .inl hwaiting
      · rw [if_neg hyz] at hwaiting
        refine hfound ?_ hwaiting
        rw [ha, hb]
        exact .inl ⟨rfl, fun heq => hyz (Term.var.inj heq).symm⟩
    · exact .inr (hlater hrest)
  | case3 room memo waiting a b rest y v hb ha ih =>
    rcases ih h with hwaiting | hrest
    · refine hfound ?_ hwaiting
      rw [ha, hb]
      exact .inl ⟨rfl, by simp⟩
    · exact .inr (hlater hrest)
  | case4 room memo waiting a b rest v y hb ha ih =>
    rcases ih h with hwaiting | hrest
    · refine hfound ?_ hwaiting
      rw [ha, hb]
      exact .inr ⟨rfl, by simp⟩
    · exact .inr (hlater hrest)
  | case5 room memo waiting a b rest r s hb ha hmem ih => exact (ih h).imp_right hlater
  | case6 memo waiting a b rest r s hb ha hmem => exact .inl (hend h)
  | case7 memo waiting a b rest r s hb ha hmem _ _ hshape room ih =>
    refine (ih h).imp_right ?_
    rintro ⟨p, hp, t, u, hmeets, hfaces⟩
    rcases List.mem_append.mp hp with hp | hp
    · exact ⟨(a, b), List.mem_cons_self, t, u, .side hσ ha hb hshape hp hmeets, hfaces⟩
    · exact ⟨p, List.mem_cons_of_mem _ hp, t, u, hmeets, hfaces⟩
  | case8 => cases h
  | case9 room memo waiting a b rest v w _ hb ha hsame ih => exact (ih h).imp_right hlater
  | case10 => cases h

/-- The variable that a comparison asks for is one that the two terms wait for. -/
theorem waitsFor_of_compare (hσ : σ.Sorted) {x : VarId} (h : σ.compare a b = .unknown x) : σ.WaitsFor a b x := by
  rcases waits_of_compareAll hσ h with hnone | ⟨p, hp, hwaits⟩
  · cases hnone
  · obtain rfl := List.mem_singleton.mp hp
    exact hwaits

/-! ## Equality -/

/-- Equal terms have equal children. -/
theorem Equal.child (hfree : σ.FloatFree a) (h : σ.Equal a b) (f : Feature) :
    Option.Rel (fun t u => σ.FloatFree t ∧ σ.Equal t u) (σ.child? a f) (σ.child? b f) := by
  have hag := h
  -- the relation of what is agreed upon is only needed for its kinds of terms
  obtain ⟨E, -, hag⟩ := hag
  generalize ha : σ.resolve a = a', hb : σ.resolve b = b' at hag
  rw [child?, child?, ha, hb]
  cases hag with
  | var x => exact .none
  | @record r s _ =>
    have hfield : ∀ t, (σ.record r).select? f = some t → σ.FloatFree t := fun t ht =>
      hfree.field ha (Record.mem_of_select? ht)
    dsimp only
    -- one and the same record, or two that are compared field by field
    rcases (h.congr ha hb).record with rfl | ⟨hshape, hsides⟩
    · cases ht : (σ.record r).select? f with
      | none => exact .none
      | some t => exact .some ⟨hfield t ht, .of_resolve_eq rfl (hfield t ht)⟩
    · have hrel := Record.select?_rel hshape f
      generalize (σ.record r).select? f = t, (σ.record s).select? f = u at hrel hfield
      cases hrel with
      | none => exact .none
      | some hmem => exact .some ⟨hfield _ rfl, hsides _ hmem⟩
  -- an atom has no child
  | @atom v w h =>
    cases v with
    | record r => exact absurd h (Value.not_sameAtom_record r w)
    | _ =>
      cases w with
      | record s => exact absurd h (Value.not_sameAtom_record_right s _)
      | _ => exact .none

/-- Equal terms have equal parts. -/
theorem Equal.meets (hfree : σ.FloatFree a) (h : σ.Equal a b) (hmeets : σ.Meets a b t u) :
    σ.FloatFree t ∧ σ.Equal t u := by
  refine hmeets.follow (P := fun t u => σ.FloatFree t ∧ σ.Equal t u) ?_ ⟨hfree, h⟩
  rintro a b f a' b' ⟨hfree, heq⟩ ha hb
  have hchild := heq.child hfree f
  rw [ha, hb] at hchild
  cases hchild with
  | some h => exact h

/-- Equal terms wait for nothing. -/
theorem Equal.not_waitsFor (hfree : σ.FloatFree a) (h : σ.Equal a b) (x : VarId) : ¬ σ.WaitsFor a b x := by
  rintro ⟨t, u, hmeets, hfaces⟩
  obtain ⟨E, -, hag⟩ := (h.meets hfree hmeets).2
  generalize σ.resolve t = t', σ.resolve u = u' at hag hfaces
  rcases hfaces with ⟨rfl, hne⟩ | ⟨rfl, hne⟩ <;> cases hag <;> exact hne rfl

/-- What is seen at two nodes that stand for the same. -/
inductive Node.Like : Node → Node → Prop where
  | unbound (x : VarId) : Like (.unbound x) (.unbound x)
  | atom {v w : Value} (h : v.SameLeaf w) : Like (.atom v) (.atom w)
  | record (label : Literal) (features : List Feature) : Like (.record label features) (.record label features)

/-- The terms unfold to the same tree: every path leads to like nodes, or to nothing in both. -/
def SameTree (σ : Store) (a b : Term) : Prop := ∀ path, Option.Rel Node.Like (σ.tree a path) (σ.tree b path)

/-- Equal terms look alike at the top. -/
theorem Equal.like (hfree : σ.FloatFree a) (h : σ.Equal a b) : (σ.node a).Like (σ.node b) := by
  obtain ⟨E, hE, hag⟩ := h
  have hfloat : ∀ v, σ.resolve a = .val v → v.isFloat = false := fun v hv => hfree.isFloat hv
  generalize ha : σ.resolve a = a', hb : σ.resolve b = b' at hag hfloat
  cases hag with
  | var x =>
    rw [node_of_var ha, node_of_var hb]
    exact .unbound x
  | @record r s h =>
    -- one record is like itself, and two that are taken to be equal have the same shape
    rw [node_of_record ha, node_of_record hb]
    rcases h with rfl | h
    · exact .record _ _
    · obtain ⟨hlabel, hfeatures⟩ := Record.sameShape_iff.mp (hE r s h).1
      rw [hlabel, hfeatures]
      exact .record _ _
  | @atom v w h =>
    have hv : ∀ r, v ≠ .record r := by
      rintro r rfl
      exact Value.not_sameAtom_record r w h
    have hw : ∀ r, w ≠ .record r := by
      rintro r rfl
      exact Value.not_sameAtom_record_right r v h
    rw [node_of_atom ha hv, node_of_atom hb hw]
    exact .atom ((Value.sameAtom_iff (hfloat v rfl) hv).mp h)

/-- Equal terms stand for the same tree. At each branch of a path the terms found on either side are equal again. -/
theorem Equal.sameTree (hfree : σ.FloatFree a) (h : σ.Equal a b) : σ.SameTree a b := by
  intro path
  induction path generalizing a b with
  | nil => exact .some (h.like hfree)
  | cons f path ih =>
    rw [tree_cons, tree_cons]
    have hchild := h.child hfree f
    generalize σ.child? a f = a', σ.child? b f = b' at hchild
    cases hchild with
    | none => exact .none
    | some h => exact ih h.1 h.2

/-- Like nodes agree, given that records with like nodes are related. -/
theorem agrees_of_like {E : RecordId → RecordId → Prop} (hfree : σ.FloatFree t) (h : (σ.node t).Like (σ.node u))
    (hE : ∀ r s, σ.resolve t = .val (.record r) → σ.resolve u = .val (.record s) → E r s) :
    Agrees E (σ.resolve t) (σ.resolve u) := by
  -- the kinds of terms: an unbound variable, a record, or an atom
  have hkind : ∀ t, (∃ x, σ.resolve t = .var x) ∨ (∃ r, σ.resolve t = .val (.record r)) ∨
      ∃ v, σ.resolve t = .val v ∧ ∀ r, v ≠ .record r := by
    intro t
    rcases ht : σ.resolve t with v | x
    · by_cases hv : ∃ r, v = .record r
      · obtain ⟨r, rfl⟩ := hv
        exact .inr (.inl ⟨r, rfl⟩)
      · exact .inr (.inr ⟨v, rfl, fun r hr => hv ⟨r, hr⟩⟩)
    · exact .inl ⟨x, rfl⟩
  rcases hkind t with ⟨x, ht⟩ | ⟨r, ht⟩ | ⟨v, ht, hv⟩
  · rcases hkind u with ⟨y, hu⟩ | ⟨s, hu⟩ | ⟨w, hu, hw⟩
    · rw [node_of_var ht, node_of_var hu] at h
      cases h
      rw [ht, hu]
      exact .var x
    · rw [node_of_var ht, node_of_record hu] at h
      cases h
    · rw [node_of_var ht, node_of_atom hu hw] at h
      cases h
  · rcases hkind u with ⟨y, hu⟩ | ⟨s, hu⟩ | ⟨w, hu, hw⟩
    · rw [node_of_record ht, node_of_var hu] at h
      cases h
    · rw [ht, hu]
      exact .record (.inr (hE r s ht hu))
    · rw [node_of_record ht, node_of_atom hu hw] at h
      cases h
  · rcases hkind u with ⟨y, hu⟩ | ⟨s, hu⟩ | ⟨w, hu, hw⟩
    · rw [node_of_atom ht hv, node_of_var hu] at h
      cases h
    · rw [node_of_atom ht hv, node_of_record hu] at h
      cases h
    · rw [node_of_atom ht hv, node_of_atom hu hw] at h
      cases h with
      | atom hleaf =>
        rw [ht, hu]
        exact .atom ((Value.sameAtom_iff (hfree.isFloat ht) hv).mpr hleaf)

/-- Terms of the same tree look alike at the root. -/
theorem SameTree.like (h : σ.SameTree a b) : (σ.node a).Like (σ.node b) := by
  have hroot := h []
  rw [tree_nil, tree_nil] at hroot
  cases hroot with
  | some h => exact h

/-- Children of terms of the same tree are of the same tree. -/
theorem SameTree.child {a' b' : Term} {f : Feature} (h : σ.SameTree a b) (ha : σ.child? a f = some a')
    (hb : σ.child? b f = some b') : σ.SameTree a' b' := by
  intro path
  have hpath := h (f :: path)
  rwa [tree_cons, tree_cons, ha, hb] at hpath

/-- Terms that stand for the same tree are equal, by the relation between all records that do so anywhere in the two terms. -/
theorem SameTree.equal (hσ : σ.Sorted) (hfree : σ.FloatFree a) (h : σ.SameTree a b) : σ.Equal a b := by
  -- the records that stand for one tree somewhere
  let E : RecordId → RecordId → Prop := fun r s => ∃ t u, σ.resolve t = .val (.record r) ∧
    σ.resolve u = .val (.record s) ∧ σ.FloatFree t ∧ σ.SameTree t u
  have hagrees : ∀ t u, σ.FloatFree t → σ.SameTree t u → Agrees E (σ.resolve t) (σ.resolve u) := fun t u ht htu =>
    agrees_of_like ht htu.like fun r s hr hs => ⟨t, u, hr, hs, ht, htu⟩
  refine ⟨E, ?_, hagrees a b hfree h⟩
  rintro r s ⟨t, u, ht, hu, hfree, htu⟩
  have hlike := htu.like
  rw [node_of_record ht, node_of_record hu] at hlike
  have hshape : (σ.record r).sameShape (σ.record s) = true := by
    generalize hlabel : (σ.record r).label = l, hlabel' : (σ.record s).label = l',
      hfeatures : (σ.record r).fields.map Field.feature = fs,
      hfeatures' : (σ.record s).fields.map Field.feature = fs' at hlike
    cases hlike
    exact Record.sameShape_iff.mpr ⟨hlabel.trans hlabel'.symm, hfeatures.trans hfeatures'.symm⟩
  refine ⟨hshape, fun p hp => ?_⟩
  obtain ⟨f, hf, hg⟩ := (Record.mem_sides_iff_select? (hσ.record r) (hσ.record s) hshape).mp hp
  -- the sides of the two records are found by their features, and there the trees are the same again
  have hchild := htu.child (child?_eq_some.mpr ⟨r, ht, hf⟩) (child?_eq_some.mpr ⟨s, hu, hg⟩)
  exact hagrees p.1 p.2 (hfree.field ht (Record.mem_of_select? hf)) hchild

/-! ## Later stores -/

/-- Terms that differ stay so, whatever happens. -/
theorem Differs.later (h : σ.Evolves τ) (hσ : σ.Closed) (ha : a.In σ) (hb : b.In σ) (hab : σ.Differs a b) :
    τ.Differs a b := by
  have hprecedes := h.precedes hσ
  induction hab with
  | @clash a b hclash =>
    refine .clash ?_
    generalize har : σ.resolve a = a', hbs : σ.resolve b = b' at hclash
    cases hclash with
    | @shape r s hne hshape =>
      have hr : r < σ.records.size := hσ.resolve_val ha har
      have hs : s < σ.records.size := hσ.resolve_val hb hbs
      rw [hprecedes.val hσ ha har, hprecedes.val hσ hb hbs]
      rw [← hprecedes.grows.record_eq hr, ← hprecedes.grows.record_eq hs] at hshape
      exact .shape hne hshape
    | atom hrecord hsame =>
      rw [hprecedes.val hσ ha har, hprecedes.val hσ hb hbs]
      exact .atom hrecord hsame
  | @field a b r s p har hbs hp _ ih =>
    have hr : r < σ.records.size := hσ.resolve_val ha har
    have hs : s < σ.records.size := hσ.resolve_val hb hbs
    obtain ⟨f, hf, hfp⟩ := Record.sides_left hp
    obtain ⟨g, hg, hgp⟩ := Record.sides_right hp
    refine .field (hprecedes.val hσ ha har) (hprecedes.val hσ hb hbs) ?_
      (ih (hfp ▸ hσ.record r f hf) (hgp ▸ hσ.record s g hg))
    rwa [hprecedes.grows.record_eq hr, hprecedes.grows.record_eq hs]

/-! ## The answers of entailment -/

theorem entails_eq_ok_iff {answer : Bool} :
    Action.entails a b σ = .ok answer σ ↔ σ.compare a b = if answer then .equal else .different := by
  simp only [Action.entails, Action.read, bind, EStateM.bind]
  cases σ.compare a b <;> cases answer <;> constructor <;> intro h <;> first | rfl | cases h

/-- Entailment waits for what the comparison waits for. -/
theorem entails_eq_blocked_iff {x : VarId} :
    Action.entails a b σ = .error (.blocked x) σ ↔ σ.compare a b = .unknown x := by
  simp only [Action.entails, Action.read, bind, EStateM.bind]
  cases hverdict : σ.compare a b with
  | equal | different => constructor <;> intro h <;> cases h
  | unknown y =>
    constructor
    · intro h
      cases h
      rfl
    · intro h
      cases h
      rfl

/-- **Entailment is exact and stable.** For two terms without floats: it answers no exactly if some path leads to values
that definitely differ; otherwise it waits exactly if some path leads to an unbound variable that faces anything but
itself, and it names one of these; otherwise it answers yes, which is so exactly if the two terms unfold to the same
tree; and its answers are the same in every store that comes from this one by binding variables to values without floats,
by merging variables, and by changes of other kinds. -/
theorem entails_exact (hσ : σ.Closed) (hsorted : σ.Sorted) (ha : a.In σ) (hb : b.In σ) (hfa : σ.FloatFree a)
    (hfb : σ.FloatFree b) :
    (Action.entails a b σ = .ok false σ ↔ σ.Differing a b) ∧
    ((∃ x, Action.entails a b σ = .error (.blocked x) σ) ↔ ¬ σ.Differing a b ∧ ∃ x, σ.WaitsFor a b x) ∧
    (∀ x, Action.entails a b σ = .error (.blocked x) σ → σ.Unbound x ∧ σ.WaitsFor a b x) ∧
    (Action.entails a b σ = .ok true σ ↔ ¬ σ.Differing a b ∧ ∀ x, ¬ σ.WaitsFor a b x) ∧
    (Action.entails a b σ = .ok true σ ↔ σ.SameTree a b) ∧
    ∀ τ, σ.Extends τ → ∀ answer, Action.entails a b σ = .ok answer σ → Action.entails a b τ = .ok answer τ := by
  have hpair : σ.FreePair (a, b) := ⟨⟨ha, hfa⟩, ⟨hb, hfb⟩⟩
  have hno : σ.compare a b = .different ↔ σ.Differing a b :=
    (compare_eq_different_iff hσ ha hb hfa).trans (differs_iff hsorted hfa)
  have hyes : σ.compare a b = .equal ↔ σ.Equal a b := compare_eq_equal hσ ha hb
  have hwait : ∀ x, σ.compare a b = .unknown x → σ.WaitsFor a b x := fun x hx => waitsFor_of_compare hsorted hx
  -- each of the three conditions excludes the two other answers
  have hunknown : ¬ σ.Differing a b → ∀ x, σ.WaitsFor a b x → ∃ y, σ.compare a b = .unknown y := by
    intro hdiffer x hx
    cases hverdict : σ.compare a b with
    | equal => exact absurd hx ((hyes.mp hverdict).not_waitsFor hfa x)
    | different => exact absurd (hno.mp hverdict) hdiffer
    | unknown y => exact ⟨y, rfl⟩
  have hequal : ¬ σ.Differing a b → (∀ x, ¬ σ.WaitsFor a b x) → σ.compare a b = .equal := by
    intro hdiffer hnone
    cases hverdict : σ.compare a b with
    | equal => rfl
    | different => exact absurd (hno.mp hverdict) hdiffer
    | unknown y => exact absurd (hwait y hverdict) (hnone y)
  refine ⟨entails_eq_ok_iff.trans hno, ?_, ?_, ?_, ?_, ?_⟩
  · simp only [entails_eq_blocked_iff]
    constructor
    · rintro ⟨x, hx⟩
      refine ⟨fun hdiffer => ?_, x, hwait x hx⟩
      cases hx.symm.trans (hno.mpr hdiffer)
    · rintro ⟨hdiffer, x, hx⟩
      exact hunknown hdiffer x hx
  · intro x hx
    rw [entails_eq_blocked_iff] at hx
    exact ⟨unbound_of_compare hσ ha hb hx, hwait x hx⟩
  · refine entails_eq_ok_iff.trans ⟨fun h => ⟨fun hdiffer => ?_, ?_⟩, fun h => hequal h.1 h.2⟩
    · cases h.symm.trans (hno.mpr hdiffer)
    · exact (hyes.mp h).not_waitsFor hfa
  · refine entails_eq_ok_iff.trans (hyes.trans ⟨fun h => h.sameTree hfa, fun h => h.equal hsorted hfa⟩)
  · intro τ hτ answer hanswer
    have hgrows := hτ.evolves.grows
    have hclosed := hτ.evolves.closed hσ
    rw [entails_eq_ok_iff] at hanswer ⊢
    cases answer with
    | true =>
      refine (compare_eq_equal hclosed (hgrows.term ha) (hgrows.term hb)).mpr ?_
      exact (hyes.mp hanswer).extended hτ hσ hpair
    | false =>
      have hfree := (hpair.left.extended hτ hσ).floatFree
      refine (compare_eq_different_iff hclosed (hgrows.term ha) (hgrows.term hb) hfree).mpr ?_
      exact ((compare_eq_different_iff hσ ha hb hfa).mp hanswer).later hτ.evolves hσ ha hb

theorem knot_sorted : knot.Sorted := by
  intro r hr
  obtain rfl : r = ⟨.null, [⟨.str "self", .var 0⟩]⟩ := by simpa [knot] using hr
  exact List.pairwise_singleton _ _

/-- Whether a variable is the record that holds it depends on the variable. -/
theorem entails_exact_knot :
    knot.Closed ∧ knot.Sorted ∧ knot.FloatFree (.var 0) ∧ knot.FloatFree (.val (.record 0)) ∧
      Action.entails (.var 0) (.val (.record 0)) knot = .error (.blocked 0) knot ∧
      knot.WaitsFor (.var 0) (.val (.record 0)) 0 ∧ ¬ knot.Differing (.var 0) (.val (.record 0)) := by
  have hvar := knot_unbound.free
  have hin : Term.In knot (.val (.record 0)) := Nat.zero_lt_one
  have hblocked : Action.entails (.var 0) (.val (.record 0)) knot = .error (.blocked 0) knot := by
    have hres : knot.resolveVar 0 = .var 0 := knot_unbound.resolveVar
    rw [entails_eq_blocked_iff]
    simp [compare, compareAll, resolve, hres, Verdict.ofWaiting]
  obtain ⟨-, hblocks, hnames, -⟩ :=
    entails_exact knot_closed knot_sorted hvar.isIn hin hvar.floatFree knot_floatFree
  exact ⟨knot_closed, knot_sorted, hvar.floatFree, knot_floatFree, hblocked, (hnames 0 hblocked).2,
    (hblocks.mp ⟨0, hblocked⟩).1⟩

end Store

end Dataflow
