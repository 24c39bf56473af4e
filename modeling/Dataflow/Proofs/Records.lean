/-
Records keep their fields in ascending order.

The order of features is that of a key: the position of the kind, and then the string or the number that the feature is.
So it is a linear order, and comparing two features decides it. Building a record sorts the fields and refuses features
that occur twice, which leaves them in strictly ascending order; a tuple numbers its components. In ascending fields,
halving finds every feature that there is (`select?_eq_some_iff`). It never finds anything else, in whatever order the
fields are.
-/
import Mathlib.Data.Prod.Lex
import Mathlib.Data.List.Duplicate
import Mathlib.Data.List.Sort
import Mathlib.Data.String.Basic
import Mathlib.Order.Compare
import Dataflow.Record

set_option autoImplicit false

namespace Dataflow

/-! ## The order of features -/

namespace Feature

variable {f g : Feature}

/-- Strings come first, then integers, truth values, `eof`, `null` and tokens; features of one kind are ordered by what
they are. -/
def Before : Feature → Feature → Prop
  | .str a, .str b => a < b
  | .int a, .int b => a < b
  | .bool a, .bool b => a < b
  | .token a, .token b => a < b
  | a, b => a.rank < b.rank

/-- What features are ordered by: the position of the kind, and the string or the number. -/
def key : Feature → ℕ ×ₗ String ×ₗ ℤ
  | .str s => toLex (0, toLex (s, 0))
  | .int n => toLex (1, toLex ("", n.toInt))
  | .bool b => toLex (2, toLex ("", b.toNat))
  | .eof => toLex (3, toLex ("", 0))
  | .null => toLex (4, toLex ("", 0))
  | .token n => toLex (5, toLex ("", n))

/-- Features of one kind. -/
inductive Akin : Feature → Feature → Prop where
  | str (a b : String) : Akin (.str a) (.str b)
  | int (a b : Int64) : Akin (.int a) (.int b)
  | bool (a b : Bool) : Akin (.bool a) (.bool b)
  | token (a b : Nat) : Akin (.token a) (.token b)
  | eof : Akin .eof .eof
  | null : Akin .null .null

theorem akin_or_rank_ne (f g : Feature) : f.Akin g ∨ f.rank ≠ g.rank := by
  cases f <;> cases g <;> first | exact .inl (by constructor) | exact .inr nofun

/-- Features of two kinds are ordered by the positions of these. -/
theorem before_of_rank_ne (h : f.rank ≠ g.rank) : f.Before g ↔ f.rank < g.rank := by
  cases f <;> cases g <;> first | exact absurd rfl h | exact Iff.rfl

theorem compare_of_rank_ne (h : f.rank ≠ g.rank) : f.compare g = Ord.compare f.rank g.rank := by
  cases f <;> cases g <;> first | exact absurd rfl h | rfl

/-- A key begins with the position of the kind. -/
theorem key_fst (f : Feature) : (ofLex f.key).1 = f.rank := by
  cases f <;> rfl

private theorem toNat_lt_toNat (a b : Bool) : a.toNat < b.toNat ↔ a < b := by
  revert a b
  decide

private theorem toNat_eq_toNat (a b : Bool) : a.toNat = b.toNat ↔ a = b := by
  revert a b
  decide

/-- Features of one kind have the same beginning of the key. -/
private theorem key_lt_iff (n : ℕ) (s t : String) (i j : ℤ) :
    toLex (n, toLex (s, i)) < toLex (n, toLex (t, j)) ↔ s < t ∨ s = t ∧ i < j := by
  rw [Prod.Lex.toLex_lt_toLex, Prod.Lex.toLex_lt_toLex]
  exact (or_iff_right (lt_irrefl n)).trans (and_iff_right rfl)

/-- The order of features is that of their keys. -/
theorem before_iff : f.Before g ↔ f.key < g.key := by
  have hint : ∀ (n : ℕ) (i j : ℤ), toLex (n, toLex ("", i)) < toLex (n, toLex ("", j)) ↔ i < j := fun n i j =>
    (key_lt_iff n "" "" i j).trans ((or_iff_right (lt_irrefl _)).trans (and_iff_right rfl))
  rcases akin_or_rank_ne f g with hakin | hne
  · cases hakin with
    | str a b =>
      refine Iff.symm ((key_lt_iff 0 a b 0 0).trans (or_iff_left ?_))
      exact fun h => lt_irrefl _ h.2
    | int a b => exact Int64.lt_iff_toInt_lt.trans (hint 1 _ _).symm
    | bool a b => exact ((toNat_lt_toNat a b).symm.trans Int.ofNat_lt.symm).trans (hint 2 _ _).symm
    | token a b => exact Int.ofNat_lt.symm.trans (hint 5 a b).symm
    | eof => exact iff_of_false (lt_irrefl 3) (lt_irrefl _)
    | null => exact iff_of_false (lt_irrefl 4) (lt_irrefl _)
  · rw [before_of_rank_ne hne, Prod.Lex.lt_iff, key_fst, key_fst]
    exact (or_iff_left fun h => hne h.1).symm

/-- The key of a feature tells features apart. -/
theorem key_injective : Function.Injective key := by
  intro f g h
  rcases akin_or_rank_ne f g with hakin | hne
  · cases hakin with
    | str a b => exact congrArg Feature.str (congrArg (fun k => (ofLex (ofLex k).2).1) h)
    | int a b => exact congrArg Feature.int (Int64.toInt_inj.mp (congrArg (fun k => (ofLex (ofLex k).2).2) h))
    | bool a b =>
      have hnat : ((a.toNat : ℤ)) = b.toNat := congrArg (fun k => (ofLex (ofLex k).2).2) h
      exact congrArg Feature.bool ((toNat_eq_toNat a b).mp (Int.ofNat_inj.mp hnat))
    | token a b =>
      have hint : (a : ℤ) = b := congrArg (fun k => (ofLex (ofLex k).2).2) h
      exact congrArg Feature.token (Int.ofNat_inj.mp hint)
    | eof | null => rfl
  · exact absurd ((key_fst f).symm.trans ((congrArg (fun k => (ofLex k).1) h).trans (key_fst g))) hne

/-- Comparing two features decides which comes first. -/
theorem compare_eq_lt : f.compare g = .lt ↔ f.Before g := by
  rcases akin_or_rank_ne f g with hakin | hne
  · cases hakin with
    | str a b => exact compare_lt_iff_lt
    | int a b => exact compare_lt_iff_lt.trans Int64.lt_iff_toInt_lt.symm
    | bool a b => exact compare_lt_iff_lt.trans (toNat_lt_toNat a b)
    | token a b => exact compare_lt_iff_lt
    | eof | null => exact compare_lt_iff_lt
  · rw [before_of_rank_ne hne, compare_of_rank_ne hne, compare_lt_iff_lt]

theorem compare_eq_gt : f.compare g = .gt ↔ g.Before f := by
  rcases akin_or_rank_ne f g with hakin | hne
  · cases hakin with
    | str a b => exact compare_gt_iff_gt
    | int a b => exact compare_gt_iff_gt.trans Int64.lt_iff_toInt_lt.symm
    | bool a b => exact compare_gt_iff_gt.trans (toNat_lt_toNat b a)
    | token a b => exact compare_gt_iff_gt
    | eof | null => exact compare_gt_iff_gt
  · rw [before_of_rank_ne hne.symm, compare_of_rank_ne hne, compare_gt_iff_gt]

namespace Before

theorem irrefl (f : Feature) : ¬ f.Before f := fun h => lt_irrefl _ (before_iff.mp h)

theorem ne (h : f.Before g) : f ≠ g := fun heq => irrefl g (heq ▸ h)

theorem trans {h : Feature} (hfg : f.Before g) (hgh : g.Before h) : f.Before h :=
  before_iff.mpr (lt_trans (before_iff.mp hfg) (before_iff.mp hgh))

theorem asymm (h : f.Before g) : ¬ g.Before f := fun h' => irrefl f (h.trans h')

instance : Std.Irrefl Before := ⟨irrefl⟩

instance : Std.Antisymm Before := ⟨fun _ _ h h' => absurd h' h.asymm⟩

end Before

/-- Of two features one comes before the other. -/
theorem before_or_before (h : f ≠ g) : f.Before g ∨ g.Before f := by
  rw [before_iff, before_iff]
  exact lt_or_gt_of_ne fun heq => h (key_injective heq)

/-- The order of features calls two of them equal only where they are. -/
theorem compare_eq_eq : f.compare g = .eq ↔ f = g := by
  constructor
  · intro h
    by_contra hne
    rcases before_or_before hne with hlt | hgt
    · rw [compare_eq_lt.mpr hlt] at h
      cases h
    · rw [compare_eq_gt.mpr hgt] at h
      cases h
  · rintro rfl
    cases h : f.compare f with
    | eq => rfl
    | lt => exact absurd (compare_eq_lt.mp h) (Before.irrefl f)
    | gt => exact absurd (compare_eq_gt.mp h) (Before.irrefl f)

/-- Comparing features is comparing their keys. -/
theorem isLE_compare : (f.compare g).isLE = true ↔ f.key ≤ g.key := by
  cases h : f.compare g with
  | lt => exact iff_of_true rfl (before_iff.mp (compare_eq_lt.mp h)).le
  | eq => exact iff_of_true rfl (congrArg key (compare_eq_eq.mp h)).le
  | gt => exact iff_of_false Bool.false_ne_true (before_iff.mp (compare_eq_gt.mp h)).not_ge

/-! ## Halving -/

variable {features : List Feature} {lo hi i : Nat}

/-- What is found is there. -/
theorem getElem?_of_search (h : search features f lo hi = some i) : features[i]? = some f := by
  fun_induction search features f lo hi with
  | case1 => cases h
  | case2 lo hi hlt mid g hg heq =>
    obtain rfl := Option.some.inj h
    rw [hg, compare_eq_eq.mp heq]
  | case3 lo hi hlt mid g hg hless ih => exact ih h
  | case4 lo hi hlt mid g hg hmore ih => exact ih h
  | case5 => cases h

/-- What is there is found, in ascending order. -/
theorem search_of_getElem? (hasc : features.Pairwise Before) (hlo : lo ≤ i) (hhi : i < hi)
    (hend : hi ≤ features.length) (hget : features[i]? = some f) : search features f lo hi = some i := by
  have hbefore : ∀ {j k : Nat} {g h : Feature}, features[j]? = some g → features[k]? = some h → j < k → g.Before h := by
    intro j k g h hj hk hjk
    obtain ⟨hj', rfl⟩ := List.getElem?_eq_some_iff.mp hj
    obtain ⟨hk', rfl⟩ := List.getElem?_eq_some_iff.mp hk
    exact List.pairwise_iff_getElem.mp hasc j k hj' hk' hjk
  fun_induction search features f lo hi with
  | case1 lo hi hlt mid hnone =>
    have hmid : mid < features.length := by omega
    exact absurd (List.getElem?_eq_none_iff.mp hnone) (Nat.not_le_of_lt hmid)
  | case2 lo hi hlt mid g hg heq =>
    rw [compare_eq_eq] at heq
    rcases Nat.lt_trichotomy mid i with hlt | rfl | hgt
    · exact absurd heq (hbefore hg hget hlt).ne
    · rfl
    · exact absurd heq.symm (hbefore hget hg hgt).ne
  | case3 lo hi hlt mid g hg hless ih =>
    refine ih (Nat.succ_le_of_lt (Nat.lt_of_not_le fun hle => ?_)) hhi hend
    rcases Nat.lt_or_eq_of_le hle with hlt | rfl
    · exact (compare_eq_lt.mp hless).asymm (hbefore hget hg hlt)
    · exact (compare_eq_lt.mp hless).ne (Option.some.inj (hg.symm.trans hget))
  | case4 lo hi hlt mid g hg hmore ih =>
    refine ih hlo (Nat.lt_of_not_le fun hle => ?_) (by omega)
    rcases Nat.lt_or_eq_of_le hle with hlt | rfl
    · exact (compare_eq_gt.mp hmore).asymm (hbefore hg hget hlt)
    · exact (compare_eq_gt.mp hmore).ne (Option.some.inj (hget.symm.trans hg))
  | case5 lo hi hlt => exact absurd (Nat.lt_of_le_of_lt hlo hhi) hlt

end Feature

namespace Record

variable {r : Record} {f : Feature} {t : Term} {label : Literal} {fields : List Field}

/-- The features of the fields are in strictly ascending order. -/
def Ascending (r : Record) : Prop := (r.fields.map Field.feature).Pairwise Feature.Before

/-! ## Looking up -/

/-- Where a feature is depends on the features alone. -/
theorem indexOf?_congr {s : Record} (h : r.fields.map Field.feature = s.fields.map Field.feature) (f : Feature) :
    r.indexOf? f = s.indexOf? f := by
  have hcount : r.count = s.count := by
    rw [count, count, ← List.length_map Field.feature, h, List.length_map]
  rw [indexOf?, indexOf?, h, hcount]

/-- To select is to search for the feature and to take the value of the field there. -/
theorem select?_of_indexOf? {i : Option Nat} (h : r.indexOf? f = i) :
    r.select? f = i.bind fun i => r.fields[i]?.map Field.value := by
  rw [select?, h]
  cases i with
  | none => rfl
  | some i =>
    change (r.fields[i]?.bind fun field => some field.value) = r.fields[i]?.map Field.value
    rw [Option.map_eq_bind]
    rfl

/-- What is selected is the value of a field, whatever the order of the fields. -/
theorem mem_of_select? (h : r.select? f = some t) : ⟨f, t⟩ ∈ r.fields := by
  obtain ⟨i, hi, hfield⟩ := Option.bind_eq_some_iff.mp h
  obtain ⟨field, hget, hvalue⟩ := Option.bind_eq_some_iff.mp hfield
  have hfeature := Feature.getElem?_of_search hi
  rw [List.getElem?_map, hget] at hfeature
  obtain rfl : field.feature = f := Option.some.inj hfeature
  obtain rfl : field.value = t := Option.some.inj hvalue
  exact List.mem_of_getElem? hget

/-- In ascending order the feature at a place is found at that place. -/
theorem Ascending.indexOf?_eq (h : r.Ascending) {i : Nat} {field : Field} (hget : r.fields[i]? = some field) :
    r.indexOf? field.feature = some i := by
  have hlt : i < r.fields.length := (List.getElem?_eq_some_iff.mp hget).1
  refine Feature.search_of_getElem? h (Nat.zero_le i) hlt ?_ ?_
  · rw [List.length_map, count]
  · rw [List.getElem?_map, hget, Option.map_some]

theorem Ascending.select?_eq (h : r.Ascending) {i : Nat} {field : Field} (hget : r.fields[i]? = some field) :
    r.select? field.feature = some field.value := by
  rw [select?_of_indexOf? (h.indexOf?_eq hget), Option.bind_some, hget, Option.map_some]

/-- **In ascending order every feature is found.** -/
theorem Ascending.select?_eq_some_iff (h : r.Ascending) : r.select? f = some t ↔ ⟨f, t⟩ ∈ r.fields := by
  refine ⟨mem_of_select?, fun hmem => ?_⟩
  obtain ⟨i, hi⟩ := List.mem_iff_getElem?.mp hmem
  exact h.select?_eq hi

/-- Nothing is selected just if no field has the feature. -/
theorem Ascending.select?_eq_none_iff (h : r.Ascending) : r.select? f = none ↔ ∀ field ∈ r.fields, field.feature ≠ f := by
  constructor
  · rintro hnone field hmem rfl
    rw [h.select?_eq_some_iff.mpr hmem] at hnone
    cases hnone
  · intro hall
    cases hsome : r.select? f with
    | none => rfl
    | some t => exact absurd rfl (hall _ (mem_of_select? hsome))

/-- The binary search of a sorted record finds exactly the features of its fields. -/
theorem Ascending.has_iff (h : r.Ascending) : r.has f = true ↔ f ∈ r.fields.map Field.feature := by
  rw [has, Option.isSome_iff_exists, List.mem_map]
  constructor
  · rintro ⟨i, hi⟩
    have hfeature := Feature.getElem?_of_search hi
    rw [List.getElem?_map, Option.map_eq_some_iff] at hfeature
    obtain ⟨field, hget, hf⟩ := hfeature
    exact ⟨field, List.mem_of_getElem? hget, hf⟩
  · rintro ⟨field, hmem, rfl⟩
    obtain ⟨i, hi⟩ := List.mem_iff_getElem?.mp hmem
    exact ⟨i, h.indexOf?_eq hi⟩

/-- No feature occurs twice. -/
theorem Ascending.nodup (h : r.Ascending) : (r.fields.map Field.feature).Nodup := h.imp Feature.Before.ne

/-! ## Building -/

theorem sortFields_perm (fields : List Field) : (sortFields fields).Perm fields := List.mergeSort_perm _ _

/-- The fields are in the order of their keys. -/
theorem sortFields_pairwise (fields : List Field) :
    (sortFields fields).Pairwise fun a b => a.feature.key ≤ b.feature.key := by
  refine (List.pairwise_mergeSort (fun a b c => ?_) (fun a b => ?_) fields).imp Feature.isLE_compare.mp
  · rw [Feature.isLE_compare, Feature.isLE_compare, Feature.isLE_compare]
    exact le_trans
  · rw [Bool.or_eq_true, Feature.isLE_compare, Feature.isLE_compare]
    exact le_total _ _

/-- Sorted fields are in strictly ascending order if no feature is next to itself. -/
theorem ascending_of_repeated? (h : repeated? fields = none)
    (hsorted : fields.Pairwise fun a b => a.feature.key ≤ b.feature.key) :
    (fields.map Field.feature).Pairwise Feature.Before := by
  fun_induction repeated? fields with
  | case1 a b rest heq => cases h
  | case2 a b rest hne ih =>
    obtain ⟨ha, hrest⟩ := List.pairwise_cons.mp hsorted
    have hasc := ih h hrest
    -- what comes after `a` is not before `b`, which comes after `a`
    have hab : a.feature.Before b.feature := Feature.before_iff.mpr
      (lt_of_le_of_ne (ha b List.mem_cons_self) fun heq => hne (Feature.key_injective heq))
    refine List.pairwise_cons.mpr ⟨fun f hf => ?_, hasc⟩
    rcases List.mem_cons.mp hf with rfl | hf
    · exact hab
    · exact hab.trans ((List.pairwise_cons.mp hasc).1 f hf)
  | case3 fields hshort =>
    match fields, hshort with
    | [], _ => exact List.Pairwise.nil
    | [a], _ => exact List.pairwise_singleton _ _
    | a :: b :: rest, hshort => exact absurd rfl (hshort a b rest)

/-- A feature that is next to itself occurs twice. -/
theorem duplicate_of_repeated? (h : repeated? fields = some f) : List.Duplicate f (fields.map Field.feature) := by
  fun_induction repeated? fields with
  | case1 a b rest heq =>
    obtain rfl := Option.some.inj h
    rw [List.map_cons, List.map_cons, heq]
    exact List.Mem.duplicate_cons_self List.mem_cons_self
  | case2 a b rest hne ih => exact (ih h).duplicate_cons _
  | case3 => cases h

/-- **Building a record** sorts the fields and keeps all of them; it is refused for a feature that occurs twice. -/
theorem build_cases (label : Literal) (fields : List Field) :
    (∃ r, build label fields = .ok r ∧ r.label = label ∧ r.fields.Perm fields ∧ r.Ascending) ∨
      ∃ f, build label fields = .error (.duplicateFeature f) ∧ List.Duplicate f (fields.map Field.feature) := by
  cases h : repeated? (sortFields fields) with
  | none =>
    refine .inl ⟨⟨label, sortFields fields⟩, ?_, rfl, sortFields_perm fields, ?_⟩
    · simp only [build, h]
    · exact ascending_of_repeated? h (sortFields_pairwise fields)
  | some f =>
    refine .inr ⟨f, ?_, ?_⟩
    · simp only [build, h]
    · have hperm := (sortFields_perm fields).map Field.feature
      rw [List.duplicate_iff_two_le_count, ← hperm.count_eq]
      exact List.duplicate_iff_two_le_count.mp (duplicate_of_repeated? h)

/-- A record that has been built is in ascending order. -/
theorem ascending_build (h : build label fields = .ok r) : r.Ascending := by
  rcases build_cases label fields with ⟨s, hs, -, -, hasc⟩ | ⟨f, hf, -⟩
  · cases h.symm.trans hs
    exact hasc
  · cases h.symm.trans hf

/-! ## Tuples -/

/-- Positions are in the order of their numbers as long as these are 64-bit integers. -/
theorem position_before {i j : Nat} (hij : i < j) (hj : j < 2 ^ 63) :
    (Feature.position i).Before (Feature.position j) := by
  refine Int64.lt_iff_toInt_lt.mpr ?_
  rw [Int64.toInt_ofNat_of_lt (Nat.lt_trans hij hj), Int64.toInt_ofNat_of_lt hj]
  exact Int.ofNat_lt.mpr hij

/-- The features of enumerated values are positions from `i` on. -/
theorem features_enumerate (i : Nat) (values : List Term) :
    (enumerate i values).map Field.feature = (List.range' i values.length).map Feature.position := by
  induction values generalizing i with
  | nil => rfl
  | cons v rest ih => rw [enumerate, List.map_cons, ih, List.length_cons, List.range'_succ, List.map_cons]

/-- A tuple is in order as long as its components can be numbered. -/
theorem ascending_tuple (label : Literal) {values : List Term} (h : values.length ≤ 2 ^ 63) :
    (tuple label values).Ascending := by
  rw [Ascending, tuple, features_enumerate, List.pairwise_map]
  refine List.Pairwise.imp_of_mem (fun {i j} _ hj hij => position_before hij ?_) List.pairwise_lt_range'
  have hlast := (List.mem_range'_1.mp hj).2
  omega

end Record

end Dataflow
