/-
Equality of terms, as a relation.

Records may contain themselves, so two terms are equal if they agree under some set of pairs of records that
justifies itself: `Agrees` compares two resolved terms and takes the pairs of records in the set for equal,
and a set is `Consistent` if the records of each of its pairs have one shape and their values agree, under
the same set. This is the greatest relation that respects labels, features and atoms, in other words equality
of the possibly infinite trees that the terms stand for.

On terms from which no float is reachable (`FloatFree`) it is an equivalence. Floats have to be excluded
because a NaN is not the same as itself. A walk that compares two terms is right about it (`compare_eq_equal`):
the set that it collects is consistent when it ends well, and a pair that it finds different can be in no
consistent set.
-/
import Dataflow.Entailment
import Dataflow.Proofs.Evolution
import Mathlib.Data.Finset.Prod
import Mathlib.Data.Finset.Card

set_option autoImplicit false

namespace Dataflow

/-! ## Atoms -/

/-- Whether the number is a binary float. -/
def Num.isFloat : Num → Bool
  | .flt32 _ | .flt64 _ => true
  | .int32 _ | .int64 _ | .dec128 _ => false

/-- Whether the value is a binary float. -/
def Value.isFloat : Value → Bool
  | .num n => n.isFloat
  | _ => false

namespace Num

variable {l m n : Num}

/-- Apart from floats the same numbers are one number, or decimals with one value. -/
theorem same_cases (hfloat : m.isFloat = false ∨ n.isFloat = false) (h : m.same n = true) :
    m = n ∨ ∃ a b, m = .dec128 a ∧ n = .dec128 b ∧ a.units = b.units := by
  unfold same at h
  split at h
  · exact .inl (congrArg int32 (eq_of_beq h))
  · exact .inl (congrArg int64 (eq_of_beq h))
  · rcases hfloat with hfloat | hfloat <;> cases hfloat
  · rcases hfloat with hfloat | hfloat <;> cases hfloat
  · next a b => exact .inr ⟨a, b, rfl, rfl, eq_of_beq h⟩
  · cases h

/-- Decimals are compared by what they are worth, so `1.0` and `1.00` are the same number. -/
theorem same_dec128 {a b : Decimal} (h : a.units = b.units) : (dec128 a).same (dec128 b) = true :=
  beq_iff_eq.mpr h

/-- Every number except a float is the same as itself: of the floats, a NaN is not. -/
theorem same_self (hfloat : n.isFloat = false) : n.same n = true := by
  cases n with
  | flt32 _ | flt64 _ => cases hfloat
  | int32 a => exact beq_self_eq_true a
  | int64 a => exact beq_self_eq_true a
  | dec128 a => exact same_dec128 rfl

theorem same_symm (hfloat : m.isFloat = false) (h : m.same n = true) : n.same m = true := by
  rcases same_cases (.inl hfloat) h with rfl | ⟨a, b, rfl, rfl, hab⟩
  · exact h
  · exact same_dec128 hab.symm

/-- Sameness of numbers is transitive as long as there is no float in the middle. -/
theorem same_trans (hfloat : m.isFloat = false) (h₁ : l.same m = true) (h₂ : m.same n = true) :
    l.same n = true := by
  rcases same_cases (.inr hfloat) h₁ with rfl | ⟨a, b, rfl, rfl, hab⟩
  · exact h₂
  rcases same_cases (.inl hfloat) h₂ with rfl | ⟨b', c, hb, rfl, hbc⟩
  · exact h₁
  cases hb
  exact same_dec128 (hab.trans hbc)

end Num

namespace Value

variable {u v w : Value}

/-- The same atoms are one value, or they are numbers that are the same. -/
theorem sameAtom_cases (h : v.sameAtom w = true) :
    v = w ∨ ∃ m n, v = .num m ∧ w = .num n ∧ m.same n = true := by
  unfold sameAtom at h
  split at h
  · exact .inl (congrArg lit (of_decide_eq_true h))
  · next m n => exact .inr ⟨m, n, rfl, rfl, h⟩
  · exact .inl (congrArg obj (of_decide_eq_true h))
  · exact .inl (congrArg proc (of_decide_eq_true h))
  · exact .inl (congrArg config (of_decide_eq_true h))
  · exact .inl (congrArg failed (of_decide_eq_true h))
  · cases h

/-- Every value without a float is the same as itself, where it is no record. -/
theorem sameAtom_self (hfloat : v.isFloat = false) (hrecord : ∀ r, v ≠ .record r) : v.sameAtom v = true := by
  cases v with
  | num n => exact Num.same_self hfloat
  | record r => exact absurd rfl (hrecord r)
  | lit _ | obj _ | proc _ | config _ | failed _ => exact decide_eq_true rfl

theorem sameAtom_symm (hfloat : v.isFloat = false) (h : v.sameAtom w = true) : w.sameAtom v = true := by
  rcases sameAtom_cases h with rfl | ⟨m, n, rfl, rfl, hmn⟩
  · exact h
  · exact Num.same_symm hfloat hmn

theorem sameAtom_trans (hfloat : v.isFloat = false) (h₁ : u.sameAtom v = true) (h₂ : v.sameAtom w = true) :
    u.sameAtom w = true := by
  rcases sameAtom_cases h₁ with rfl | ⟨l, m, rfl, rfl, hlm⟩
  · exact h₂
  rcases sameAtom_cases h₂ with rfl | ⟨m', n, heq, rfl, hmn⟩
  · exact h₁
  cases heq
  exact Num.same_trans hfloat hlm hmn

theorem not_sameAtom_record (r : RecordId) (v : Value) : ¬ (Value.record r).sameAtom v = true := by
  cases v <;> exact Bool.false_ne_true

theorem not_sameAtom_record_right (r : RecordId) (v : Value) : ¬ v.sameAtom (.record r) = true := by
  cases v <;> exact Bool.false_ne_true

end Value

/-! ## Fields side by side -/

namespace Record

variable {a b c : Record} {p : Term × Term}

/-- The sides of two records are the values at the same places. -/
theorem mem_sides : p ∈ a.sides b ↔
    ∃ (i : Nat) (f g : Field), a.fields[i]? = some f ∧ b.fields[i]? = some g ∧ p = (f.value, g.value) := by
  rw [sides, List.mem_map]
  constructor
  -- a side comes from one place of both lists,
  · rintro ⟨⟨f, g⟩, hmem, rfl⟩
    obtain ⟨i, hi⟩ := List.mem_iff_getElem?.mp hmem
    obtain ⟨hf, hg⟩ := List.getElem?_zip_eq_some.mp hi
    exact ⟨i, f, g, hf, hg, rfl⟩
  -- and values at the same place make a side
  · rintro ⟨i, f, g, hf, hg, rfl⟩
    exact ⟨(f, g), List.mem_iff_getElem?.mpr ⟨i, List.getElem?_zip_eq_some.mpr ⟨hf, hg⟩⟩, rfl⟩

/-- Going through two records from the other one gives the same pairs of fields, turned round. -/
theorem sides_swap (h : p ∈ a.sides b) : p.swap ∈ b.sides a := by
  obtain ⟨i, f, g, hf, hg, rfl⟩ := mem_sides.mp h
  exact mem_sides.mpr ⟨i, g, f, hg, hf, rfl⟩

/-- The first of a pair of sides is the value of a field of the first record. -/
theorem sides_left (h : p ∈ a.sides b) : ∃ f ∈ a.fields, f.value = p.1 := by
  obtain ⟨i, f, g, hf, -, rfl⟩ := mem_sides.mp h
  exact ⟨f, List.mem_of_getElem? hf, rfl⟩

/-- The second of a pair of sides is the value of a field of the second record. -/
theorem sides_right (h : p ∈ a.sides b) : ∃ g ∈ b.fields, g.value = p.2 := sides_left (sides_swap h)

/-- Records of one shape have one label and the same features in the same order. -/
theorem sameShape_iff : a.sameShape b = true ↔
    a.label = b.label ∧ a.fields.map Field.feature = b.fields.map Field.feature := by
  simp [sameShape]

theorem sameShape_symm (h : a.sameShape b = true) : b.sameShape a = true :=
  sameShape_iff.mpr ⟨(sameShape_iff.mp h).1.symm, (sameShape_iff.mp h).2.symm⟩

theorem sameShape_trans (h₁ : a.sameShape b = true) (h₂ : b.sameShape c = true) : a.sameShape c = true :=
  sameShape_iff.mpr ⟨(sameShape_iff.mp h₁).1.trans (sameShape_iff.mp h₂).1,
    (sameShape_iff.mp h₁).2.trans (sameShape_iff.mp h₂).2⟩

/-- A third record of the same shape has a value between any two that face each other. -/
theorem sides_between (h : a.sameShape b = true) (hp : p ∈ a.sides c) :
    ∃ t, (p.1, t) ∈ a.sides b ∧ (t, p.2) ∈ b.sides c := by
  obtain ⟨i, f, g, hf, hg, rfl⟩ := mem_sides.mp hp
  have hlen : a.fields.length = b.fields.length := by
    simpa using congrArg List.length (sameShape_iff.mp h).2
  have hi : i < b.fields.length := hlen ▸ (List.getElem?_eq_some_iff.mp hf).1
  have he : b.fields[i]? = some b.fields[i] := List.getElem?_eq_getElem hi
  exact ⟨b.fields[i].value, mem_sides.mpr ⟨i, f, _, hf, he, rfl⟩, mem_sides.mpr ⟨i, _, g, he, hg, rfl⟩⟩

end Record

namespace Store

variable {σ τ : Store} {a b c t u : Term}

/-! ## Agreement -/

/-- Two resolved terms are the same, given that the pairs of records in `E` are. -/
inductive Agrees (E : RecordId → RecordId → Prop) : Term → Term → Prop where
  | var (x : VarId) : Agrees E (.var x) (.var x)
  | record {r s : RecordId} (h : r = s ∨ E r s) : Agrees E (.val (.record r)) (.val (.record s))
  | atom {v w : Value} (h : v.sameAtom w = true) : Agrees E (.val v) (.val w)

/-- The records of every pair in `E` have one shape, and their values agree. -/
def Consistent (σ : Store) (E : RecordId → RecordId → Prop) : Prop :=
  ∀ r s, E r s → (σ.record r).sameShape (σ.record s) = true ∧
    ∀ p ∈ (σ.record r).sides (σ.record s), Agrees E (σ.resolve p.1) (σ.resolve p.2)

/-- Two terms stand for the same tree. -/
def Equal (σ : Store) (a b : Term) : Prop :=
  ∃ E, σ.Consistent E ∧ Agrees E (σ.resolve a) (σ.resolve b)

theorem Agrees.mono {E F : RecordId → RecordId → Prop} (hEF : ∀ r s, E r s → F r s) (h : Agrees E t u) :
    Agrees F t u := by
  cases h with
  | var x => exact .var x
  | record h => exact .record (h.imp_right (hEF _ _))
  | atom h => exact .atom h

/-- Equality looks at its sides only through what they resolve to. -/
theorem Equal.congr (ha : σ.resolve a = σ.resolve t) (hb : σ.resolve b = σ.resolve u)
    (h : σ.Equal a b) : σ.Equal t u := by
  obtain ⟨E, hE, hag⟩ := h
  exact ⟨E, hE, ha ▸ hb ▸ hag⟩

/-- Equal records are one record, or have one shape and equal values. -/
theorem Equal.record {r s : RecordId} (h : σ.Equal (.val (.record r)) (.val (.record s))) :
    r = s ∨ (σ.record r).sameShape (σ.record s) = true ∧
      ∀ p ∈ (σ.record r).sides (σ.record s), σ.Equal p.1 p.2 := by
  obtain ⟨E, hE, hag⟩ := h
  cases hag with
  | record h =>
    refine h.imp_right fun hrs => ?_
    obtain ⟨hshape, hsides⟩ := hE r s hrs
    exact ⟨hshape, fun p hp => ⟨E, hE, hsides p hp⟩⟩
  | atom h => exact absurd h (Value.not_sameAtom_record r _)

/-! ## Terms without floats -/

/-- The terms that can be reached from a term through the fields of records. -/
inductive Reaches (σ : Store) (t : Term) : Term → Prop where
  | refl : σ.Reaches t t
  | field {u : Term} {r : RecordId} {f : Field} (h : σ.Reaches t u)
      (hr : σ.resolve u = .val (.record r)) (hf : f ∈ (σ.record r).fields) : σ.Reaches t f.value

/-- No float can be reached from the term. -/
def FloatFree (σ : Store) (t : Term) : Prop :=
  ∀ u, σ.Reaches t u → ∀ v, σ.resolve u = .val v → v.isFloat = false

namespace FloatFree

/-- What a term free of floats stands for is no float. -/
theorem isFloat (h : σ.FloatFree t) {v : Value} (hv : σ.resolve t = .val v) : v.isFloat = false :=
  h t .refl v hv

/-- The fields of a record free of floats are free of floats. -/
theorem field (h : σ.FloatFree t) {r : RecordId} (hr : σ.resolve t = .val (.record r)) {f : Field}
    (hf : f ∈ (σ.record r).fields) : σ.FloatFree f.value := by
  intro u hu
  refine h u ?_
  induction hu with
  | refl => exact .field .refl hr hf
  | field _ hr' hf' ih => exact .field ih hr' hf'

/-- A float is reached from a term exactly if it is reached from what the term resolves to. -/
theorem congr (htu : σ.resolve t = σ.resolve u) (h : σ.FloatFree t) : σ.FloatFree u := by
  intro w hw
  induction hw with
  | refl => exact fun v hv => h t .refl v (htu.trans hv)
  | @field w' r f hw' hr hf ih =>
    intro v hv
    -- the path from `u` is followed from `t`, term by term, up to what the terms resolve to
    suffices hreach : ∃ w'', σ.Reaches t w'' ∧ σ.resolve w'' = σ.resolve w' by
      obtain ⟨w'', hw'', hres⟩ := hreach
      exact h f.value (.field hw'' (hres.trans hr) hf) v hv
    clear ih hr
    induction hw' with
    | refl => exact ⟨t, .refl, htu⟩
    | field _ hr' hf' ih' =>
      obtain ⟨w'', hw'', hres⟩ := ih'
      exact ⟨_, .field hw'' (hres.trans hr') hf', rfl⟩

theorem resolve (hσ : σ.Linked) (h : σ.FloatFree t) : σ.FloatFree (σ.resolve t) :=
  congr (resolve_resolve hσ t).symm h

end FloatFree

/-! ## An equivalence -/

/-- A term agrees with itself, unless it is a float. -/
theorem Agrees.of_eq {E : RecordId → RecordId → Prop} (h : t = u)
    (hfloat : ∀ v, t = .val v → v.isFloat = false) : Agrees E t u := by
  subst h
  rcases t with v | x
  · cases v with
    | record r => exact .record (.inl rfl)
    | _ => exact .atom (Value.sameAtom_self (hfloat _ rfl) (by simp))
  · exact .var x

/-- Two terms that stand for one thing are equal, where it holds no float. -/
theorem Equal.of_resolve_eq (h : σ.resolve a = σ.resolve b) (ha : σ.FloatFree a) : σ.Equal a b :=
  ⟨fun _ _ => False, fun _ _ h => h.elim, .of_eq h fun _ hv => ha.isFloat hv⟩

/-- Where the relation on records can be turned round, so can the agreement of two terms. -/
theorem Agrees.symm {E F : RecordId → RecordId → Prop} (h : Agrees E t u)
    (hrecord : ∀ r s, t = .val (.record r) → E r s → F s r)
    (hfloat : ∀ v, t = .val v → v.isFloat = false) : Agrees F u t := by
  cases h with
  | var x => exact .var x
  | record h => exact .record (h.imp Eq.symm (hrecord _ _ rfl))
  | atom h => exact .atom (Value.sameAtom_symm (hfloat _ rfl) h)

/-- Agreement composes. Two records agree if the one between them is taken to be equal to both. -/
theorem Agrees.trans {E F G : RecordId → RecordId → Prop} {w : Term} (h₁ : Agrees E t u)
    (h₂ : Agrees F u w) (hE : ∀ r s, E r s → G r s) (hF : ∀ r s, F r s → G r s)
    (hEF : ∀ r m s, u = .val (.record m) → E r m → F m s → G r s)
    (hfloat : ∀ v, u = .val v → v.isFloat = false) : Agrees G t w := by
  cases h₁ with
  | var x => exact h₂.mono hF
  | record h₁ =>
    cases h₂ with
    | record h₂ =>
      refine .record ?_
      -- either side may be the same record on both ends
      rcases h₁ with rfl | h₁ <;> rcases h₂ with rfl | h₂
      · exact .inl rfl
      · exact .inr (hF _ _ h₂)
      · exact .inr (hE _ _ h₁)
      · exact .inr (hEF _ _ _ rfl h₁ h₂)
    | atom h₂ => exact absurd h₂ (Value.not_sameAtom_record _ _)
  | atom h₁ =>
    cases h₂ with
    | record h₂ => exact absurd h₁ (Value.not_sameAtom_record_right _ _)
    | atom h₂ => exact .atom (Value.sameAtom_trans (hfloat _ rfl) h₁ h₂)

/-- Equality is symmetric without floats. A number that is not a number is the same as nothing, not even itself. -/
theorem Equal.symm (ha : σ.FloatFree a) (h : σ.Equal a b) : σ.Equal b a := by
  obtain ⟨E, hE, hag⟩ := h
  -- the converse of `E`, cut down to records from which no float is reached
  let F : RecordId → RecordId → Prop := fun s r => E r s ∧ σ.FloatFree (.val (.record r))
  have hswap : ∀ t u, σ.FloatFree t → Agrees E (σ.resolve t) (σ.resolve u) →
      Agrees F (σ.resolve u) (σ.resolve t) := fun t u ht hag =>
    hag.symm (fun r s hr hrs => ⟨hrs, FloatFree.congr hr ht⟩) (fun v hv => ht.isFloat hv)
  refine ⟨F, ?_, hswap a b ha hag⟩
  rintro s r ⟨hrs, hfree⟩
  obtain ⟨hshape, hsides⟩ := hE r s hrs
  refine ⟨Record.sameShape_symm hshape, fun p hp => ?_⟩
  have hp' : (p.2, p.1) ∈ (σ.record r).sides (σ.record s) := Record.sides_swap hp
  -- what the left side has in a field contains no float either
  obtain ⟨f, hf, hfp : f.value = p.2⟩ := Record.sides_left hp'
  exact hswap p.2 p.1 (hfp ▸ hfree.field rfl hf) (hsides _ hp')

/-- Equality is transitive without floats. -/
theorem Equal.trans (hb : σ.FloatFree b) (h₁ : σ.Equal a b) (h₂ : σ.Equal b c) : σ.Equal a c := by
  obtain ⟨E, hE, hag₁⟩ := h₁
  obtain ⟨F, hF, hag₂⟩ := h₂
  -- the composite of the two sets, and the two sets themselves for pairs that one side skips
  let G : RecordId → RecordId → Prop := fun r s =>
    E r s ∨ F r s ∨ ∃ m, E r m ∧ F m s ∧ σ.FloatFree (.val (.record m))
  have hcomp : ∀ t u w, σ.FloatFree u → Agrees E (σ.resolve t) (σ.resolve u) →
      Agrees F (σ.resolve u) (σ.resolve w) → Agrees G (σ.resolve t) (σ.resolve w) := fun t u w hu h₁ h₂ =>
    h₁.trans h₂ (fun _ _ => .inl) (fun _ _ h => .inr (.inl h))
      (fun _ m _ hm h₁ h₂ => .inr (.inr ⟨m, h₁, h₂, FloatFree.congr hm hu⟩)) (fun v hv => hu.isFloat hv)
  refine ⟨G, fun r s hrs => ?_, hcomp a b c hb hag₁ hag₂⟩
  -- a pair of the composite is a pair of one of the sets, or goes through a record between them
  rcases hrs with h | h | ⟨m, h₁, h₂, hfree⟩
  · obtain ⟨hshape, hsides⟩ := hE r s h
    exact ⟨hshape, fun p hp => (hsides p hp).mono fun _ _ => .inl⟩
  · obtain ⟨hshape, hsides⟩ := hF r s h
    exact ⟨hshape, fun p hp => (hsides p hp).mono fun _ _ h => .inr (.inl h)⟩
  · obtain ⟨hshape₁, hsides₁⟩ := hE r m h₁
    obtain ⟨hshape₂, hsides₂⟩ := hF m s h₂
    refine ⟨Record.sameShape_trans hshape₁ hshape₂, fun p hp => ?_⟩
    obtain ⟨t, ht₁, ht₂⟩ := Record.sides_between hshape₁ hp
    obtain ⟨f, hf, rfl⟩ := Record.sides_left ht₂
    exact hcomp p.1 f.value p.2 (hfree.field rfl hf) (hsides₁ _ ht₁) (hsides₂ _ ht₂)

/-! ## Room for every pair

Both walks expand a pair of records once. `Room` is the invariant that makes the bound on expansions
irrelevant: the pairs that have been met are in the store, and there is room for all others. -/

/-- There is room for every pair of records of the store that is not in the memo. -/
structure Room (σ : Store) (room : Nat) (memo : PairMemo) : Prop where
  inRange : ∀ p ∈ memo, p.1 < σ.records.size ∧ p.2 < σ.records.size
  enough : σ.pairCount ≤ room + memo.size

namespace Room

/-- At the start the walk has room for every pair of records. -/
theorem empty (σ : Store) : σ.Room σ.pairCount {} :=
  ⟨fun _ hp => absurd hp Std.HashSet.not_mem_empty, Nat.le_add_right ..⟩

/-- A set of pairs that misses one has fewer than all. -/
private theorem size_lt {memo : PairMemo} {n : Nat} (h : ∀ p ∈ memo, p.1 < n ∧ p.2 < n) {p : Nat × Nat}
    (hp : p.1 < n ∧ p.2 < n) (hnot : p ∉ memo) : memo.size < n * n := by
  have hnodup : memo.toList.Nodup := by
    refine (Std.HashSet.distinct_toList (m := memo)).imp fun hne => ?_
    simpa using hne
  have hmem : ∀ q, q ∈ memo.toList.toFinset ↔ q ∈ memo := fun q => by
    rw [List.mem_toFinset, Std.HashSet.mem_toList]
  -- the memo is a proper part of the square of all record numbers
  have hsub : memo.toList.toFinset ⊂ Finset.range n ×ˢ Finset.range n := by
    refine Finset.ssubset_iff_subset_ne.mpr ⟨fun q hq => ?_, fun heq => ?_⟩
    · obtain ⟨h₁, h₂⟩ := h q ((hmem q).mp hq)
      exact Finset.mem_product.mpr ⟨Finset.mem_range.mpr h₁, Finset.mem_range.mpr h₂⟩
    · refine hnot ((hmem p).mp (heq ▸ ?_))
      exact Finset.mem_product.mpr ⟨Finset.mem_range.mpr hp.1, Finset.mem_range.mpr hp.2⟩
  calc memo.size = memo.toList.toFinset.card := by
        rw [List.toFinset_card_of_nodup hnodup, Std.HashSet.length_toList]
    _ < (Finset.range n ×ˢ Finset.range n).card := Finset.card_lt_card hsub
    _ = n * n := by rw [Finset.card_product, Finset.card_range]

variable {room : Nat} {memo : PairMemo} {r s : RecordId}

/-- There is room for a pair of records that the memo does not have yet. -/
theorem ne_zero (h : σ.Room room memo) (hr : r < σ.records.size) (hs : s < σ.records.size)
    (hnot : (r, s) ∉ memo) : room ≠ 0 := by
  have hlt : memo.size < σ.records.size * σ.records.size := size_lt h.inRange ⟨hr, hs⟩ hnot
  have henough : σ.records.size * σ.records.size ≤ room + memo.size := h.enough
  omega

/-- Remembering a pair that has not been met leaves room for the others: there are no more pairs than records on either side.
-/
theorem insert (h : σ.Room (room + 1) memo) (hr : r < σ.records.size) (hs : s < σ.records.size)
    (hnot : (r, s) ∉ memo) : σ.Room room (memo.insert (r, s)) := by
  refine ⟨fun p hp => ?_, ?_⟩
  · rcases Std.HashSet.mem_insert.mp hp with heq | hold
    · rw [← eq_of_beq heq]
      exact ⟨hr, hs⟩
    · exact h.inRange p hold
  · have henough := h.enough
    rw [Std.HashSet.size_insert, if_neg hnot]
    omega

end Room

/-! ## Comparing -/

/-- A memo with one more pair has that pair and the old ones. -/
theorem mem_insert_iff {memo : PairMemo} {p q : RecordId × RecordId} :
    q ∈ memo.insert p ↔ q = p ∨ q ∈ memo := by
  rw [Std.HashSet.mem_insert, beq_iff_eq]
  exact or_congr_left eq_comm

/-- What a walk over closed terms meets is closed. -/
def WorkIn (σ : Store) (work : List (Term × Term)) : Prop := ∀ p ∈ work, p.1.In σ ∧ p.2.In σ

theorem WorkIn.single (ha : a.In σ) (hb : b.In σ) : σ.WorkIn [(a, b)] := by
  intro p hp
  rw [List.mem_singleton.mp hp]
  exact ⟨ha, hb⟩

theorem WorkIn.head {rest : List (Term × Term)} (h : σ.WorkIn ((a, b) :: rest)) : a.In σ ∧ b.In σ :=
  h (a, b) List.mem_cons_self

theorem WorkIn.tail {p : Term × Term} {rest : List (Term × Term)} (h : σ.WorkIn (p :: rest)) :
    σ.WorkIn rest := fun q hq => h q (List.mem_cons_of_mem p hq)

/-- The fields of two records of a closed store are work inside it. -/
theorem WorkIn.sides (hσ : σ.Closed) (r s : RecordId) {rest : List (Term × Term)} (h : σ.WorkIn rest) :
    σ.WorkIn ((σ.record r).sides (σ.record s) ++ rest) := by
  intro p hp
  rcases List.mem_append.mp hp with hp | hp
  · obtain ⟨f, hf, hfp⟩ := Record.sides_left hp
    obtain ⟨g, hg, hgp⟩ := Record.sides_right hp
    exact ⟨hfp ▸ hσ.record r f hf, hgp ▸ hσ.record s g hg⟩
  · exact h p hp

/-- What an answer of `equal` rests on: the pairs of the work agree under a set that extends the memo and
whose new pairs are justified. -/
theorem agrees_of_compareAll {room : Nat} {memo : PairMemo} {waiting : Option VarId}
    {work : List (Term × Term)} (hσ : σ.Closed) (hwork : σ.WorkIn work) (hroom : σ.Room room memo)
    (h : σ.compareAll room memo waiting work = .equal) :
    waiting = none ∧ ∃ E : RecordId → RecordId → Prop, (∀ p ∈ memo, E p.1 p.2) ∧
      (∀ p ∈ work, Agrees E (σ.resolve p.1) (σ.resolve p.2)) ∧
      ∀ r s, E r s → (r, s) ∈ memo ∨ (σ.record r).sameShape (σ.record s) = true ∧
        ∀ p ∈ (σ.record r).sides (σ.record s), Agrees E (σ.resolve p.1) (σ.resolve p.2) := by
  -- every case but the expansion of a pair adds one agreement to what is known of the rest
  fun_induction compareAll σ room memo waiting work with
  | case1 room memo waiting =>
    refine ⟨?_, fun r s => (r, s) ∈ memo, fun p hp => hp, fun p hp => absurd hp List.not_mem_nil,
      fun r s h => .inl h⟩
    cases waiting with
    | none => rfl
    | some x => cases h
  | case2 room memo waiting a b rest x y hb ha ih =>
    simp only [dite_eq_ite] at ih
    obtain ⟨hwait, E, hmemo, hrest, hE⟩ := ih hwork.tail hroom h
    have hxy : x = y := by
      by_contra hne
      rw [if_neg hne] at hwait
      cases waiting <;> cases hwait
    rw [if_pos hxy] at hwait
    refine ⟨hwait, E, hmemo, List.forall_mem_cons.mpr ⟨?_, hrest⟩, hE⟩
    rw [ha, hb, hxy]
    exact .var y
  | case3 room memo waiting a b rest x v hb ha ih =>
    have hwait := (ih hwork.tail hroom h).1
    cases waiting <;> cases hwait
  | case4 room memo waiting a b rest v x hb ha ih =>
    have hwait := (ih hwork.tail hroom h).1
    cases waiting <;> cases hwait
  | case5 room memo waiting a b rest r s hb ha hmem ih =>
    obtain ⟨hwait, E, hmemo, hrest, hE⟩ := ih hwork.tail hroom h
    refine ⟨hwait, E, hmemo, List.forall_mem_cons.mpr ⟨?_, hrest⟩, hE⟩
    rw [ha, hb]
    exact .record (hmem.imp_right (hmemo (r, s)))
  -- there is room for a pair that has not been met, so this end of the walk is never reached
  | case6 memo waiting a b rest r s hb ha hmem =>
    have hr : r < σ.records.size := hσ.resolve_val hwork.head.1 ha
    have hs : s < σ.records.size := hσ.resolve_val hwork.head.2 hb
    exact absurd rfl (hroom.ne_zero hr hs fun hin => hmem (.inr hin))
  | case7 memo waiting a b rest r s hb ha hmem _ _ hshape room ih =>
    have hr : r < σ.records.size := hσ.resolve_val hwork.head.1 ha
    have hs : s < σ.records.size := hσ.resolve_val hwork.head.2 hb
    have hnot : (r, s) ∉ memo := fun hin => hmem (.inr hin)
    obtain ⟨hwait, E, hmemo, hall, hE⟩ := ih (hwork.tail.sides hσ r s) (hroom.insert hr hs hnot) h
    have hrs : E r s := hmemo (r, s) (mem_insert_iff.mpr (.inl rfl))
    refine ⟨hwait, E, fun p hp => hmemo p (mem_insert_iff.mpr (.inr hp)),
      List.forall_mem_cons.mpr ⟨?_, fun p hp => hall p (List.mem_append_right _ hp)⟩, fun r' s' h' => ?_⟩
    · rw [ha, hb]
      exact .record (.inr hrs)
    · rcases hE r' s' h' with hin | hok
      · rcases mem_insert_iff.mp hin with heq | hold
        · cases heq
          exact .inr ⟨hshape, fun p hp => hall p (List.mem_append_left _ hp)⟩
        · exact .inl hold
      · exact .inr hok
  | case8 => cases h
  | case9 room memo waiting a b rest v w _ hb ha hsame ih =>
    obtain ⟨hwait, E, hmemo, hrest, hE⟩ := ih hwork.tail hroom h
    refine ⟨hwait, E, hmemo, List.forall_mem_cons.mpr ⟨?_, hrest⟩, hE⟩
    rw [ha, hb]
    exact .atom hsame
  | case10 => cases h

/-- Equal terms are found equal: no pair on the way to the end of the walk can be an obstacle. -/
theorem compareAll_of_equal {room : Nat} {memo : PairMemo} {waiting : Option VarId}
    {work : List (Term × Term)} (hwaiting : waiting = none) (h : ∀ p ∈ work, σ.Equal p.1 p.2) :
    σ.compareAll room memo waiting work = .equal := by
  fun_induction compareAll σ room memo waiting work with
  | case1 room memo waiting => rw [hwaiting]; rfl
  | case2 room memo waiting a b rest x y hb ha ih =>
    obtain ⟨hab, hrest⟩ := List.forall_mem_cons.mp h
    obtain ⟨E, -, hag⟩ := hab
    simp only [ha, hb] at hag
    cases hag
    simpa using ih (by simpa using hwaiting) hrest
  | case3 room memo waiting a b rest x v hb ha ih =>
    obtain ⟨E, -, hag⟩ := h (a, b) List.mem_cons_self
    simp only [ha, hb] at hag
    cases hag
  | case4 room memo waiting a b rest v x hb ha ih =>
    obtain ⟨E, -, hag⟩ := h (a, b) List.mem_cons_self
    simp only [ha, hb] at hag
    cases hag
  | case5 room memo waiting a b rest r s hb ha hmem ih =>
    exact ih hwaiting (List.forall_mem_cons.mp h).2
  | case6 memo waiting a b rest r s hb ha hmem => rw [hwaiting]; rfl
  | case7 memo waiting a b rest r s hb ha hmem _ _ hshape room ih =>
    obtain ⟨hab, hrest⟩ := List.forall_mem_cons.mp h
    have hrs : σ.Equal (.val (.record r)) (.val (.record s)) := hab.congr ha hb
    refine ih hwaiting fun p hp => (List.mem_append.mp hp).elim (fun hp => ?_) (hrest p)
    rcases hrs.record with heq | ⟨-, hsides⟩
    · exact absurd (.inl heq) hmem
    · exact hsides p hp
  | case8 room memo waiting a b rest r s hb ha hmem _ _ hshape =>
    obtain ⟨hab, -⟩ := List.forall_mem_cons.mp h
    have hrs : σ.Equal (.val (.record r)) (.val (.record s)) := hab.congr ha hb
    rcases hrs.record with heq | ⟨hsame, -⟩
    · exact absurd (.inl heq) hmem
    · exact absurd hsame hshape
  | case9 room memo waiting a b rest v w _ hb ha hsame ih =>
    exact ih hwaiting (List.forall_mem_cons.mp h).2
  | case10 room memo waiting a b rest v w hrecord hb ha hsame =>
    obtain ⟨E, -, hag⟩ := h (a, b) List.mem_cons_self
    simp only [ha, hb] at hag
    cases hag with
    | record h => exact absurd rfl (hrecord _ _ rfl)
    | atom h => exact absurd h hsame

/-- **Comparing decides equality**: the answer is `equal` exactly if the terms stand for the same tree. -/
theorem compare_eq_equal (hσ : σ.Closed) (ha : a.In σ) (hb : b.In σ) :
    σ.compare a b = .equal ↔ σ.Equal a b := by
  constructor
  · intro h
    obtain ⟨-, E, -, hag, hE⟩ := agrees_of_compareAll hσ (.single ha hb) (.empty σ) h
    refine ⟨E, fun r s hrs => ?_, hag (a, b) List.mem_cons_self⟩
    exact (hE r s hrs).resolve_left Std.HashSet.not_mem_empty
  · intro h
    exact compareAll_of_equal rfl fun p hp => List.mem_singleton.mp hp ▸ h

end Store

end Dataflow
