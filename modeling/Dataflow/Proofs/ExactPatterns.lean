/-
Exact patterns: arity, and patterns that are constants.

An exact pattern asks a record for as many features as it has fields, and for each feature that it names. If it names
no feature twice, the record has these features and no others. If it does name one twice, the number comes out right
although the record has another feature instead, one that the pattern does not name.

A pattern without captures, all of whose record patterns are exact and name no feature twice, stands for a constant.
`Pattern.build` makes this constant as an instruction would make it, from new records. A term matches the pattern
exactly if it is entailed equal to the constant, and if it does not match, it differs from the constant. But matching
waits for the first unbound variable that it meets, while comparing goes on and may find a difference further on.
-/
import Dataflow.Proofs.Patterns

set_option autoImplicit false

namespace Dataflow

/-! ## Arity -/

/-- A list of as many items as there are in a list without repetitions, all of which are in it, has all of them just if
it has no repetitions either. -/
theorem mem_iff_iff_nodup {α : Type} {l m : List α} (hl : l.Nodup) (hsub : ∀ a ∈ m, a ∈ l)
    (hlength : l.length = m.length) : (∀ a, a ∈ l ↔ a ∈ m) ↔ m.Nodup := by
  constructor
  · intro h
    have hperm : l.Perm m :=
      (List.subperm_of_subset hl fun a ha => (h a).mp ha).perm_of_length_le (Nat.le_of_eq hlength.symm)
    exact hperm.nodup hl
  · intro hm a
    have hperm : m.Perm l := (List.subperm_of_subset hm hsub).perm_of_length_le (Nat.le_of_eq hlength)
    exact hperm.mem_iff.symm

/-- One of the fields of a pattern names the feature. -/
def Pattern.Names (fields : List (Scalar × Pattern)) (f : Feature) : Prop :=
  ∃ field ∈ fields, field.1.toValue.toFeature = .ok f

namespace Record

variable {r : Record} {label : Scalar} {fields : List (Scalar × Pattern)} {isOpen : Bool}

/-- A sorted record has exactly the features that something can be selected with. -/
theorem Ascending.has_iff_select? (h : r.Ascending) {f : Feature} : r.has f = true ↔ ∃ u, r.select? f = some u := by
  rw [h.has_iff, List.mem_map]
  constructor
  · rintro ⟨⟨g, u⟩, hmem, rfl⟩
    exact ⟨u, h.select?_eq_some_iff.mpr hmem⟩
  · rintro ⟨u, hu⟩
    exact ⟨⟨f, u⟩, mem_of_select? hu, rfl⟩

/-- The features that an exact pattern names are all features of the record just if no feature is named twice. -/
theorem Shows.names_iff (h : r.Shows label fields false) (hr : r.Ascending) :
    (∀ f, r.has f = true ↔ Pattern.Names fields f) ↔ (fields.map fun field => field.1.toValue.toFeature).Nodup := by
  -- every name of the pattern is a feature of the record, and there are as many of each
  have hfeatures : ∀ a ∈ fields.map (fun field => field.1.toValue.toFeature),
      a ∈ (r.fields.map Field.feature).map Except.ok := by
    intro a ha
    obtain ⟨field, hfield, rfl⟩ := List.mem_map.mp ha
    obtain ⟨f, u, hf, hu⟩ := h.features field hfield
    exact List.mem_map.mpr ⟨f, hr.has_iff.mp (hr.has_iff_select?.mpr ⟨u, hu⟩), hf.symm⟩
  have hnodup : ((r.fields.map Field.feature).map (Except.ok (ε := Fault))).Nodup :=
    hr.nodup.map fun _ _ heq => Except.ok.inj heq
  have hlength : ((r.fields.map Field.feature).map (Except.ok (ε := Fault))).length =
      (fields.map fun field => field.1.toValue.toFeature).length := by
    rw [List.length_map, List.length_map, List.length_map]
    exact h.count rfl
  rw [← mem_iff_iff_nodup hnodup hfeatures hlength]
  have hnames : ∀ f, .ok f ∈ fields.map (fun field => field.1.toValue.toFeature) ↔ Pattern.Names fields f := fun f =>
    List.mem_map
  have hhas : ∀ f, .ok f ∈ (r.fields.map Field.feature).map (Except.ok (ε := Fault)) ↔ r.has f = true := by
    intro f
    rw [hr.has_iff, List.mem_map]
    exact ⟨fun ⟨g, hg, heq⟩ => Except.ok.inj heq ▸ hg, fun hf => ⟨f, hf, rfl⟩⟩
  -- a name that is no feature stands in neither list
  constructor
  · rintro hiff (g | f)
    · refine ⟨fun hmem => ?_, fun hmem => hfeatures _ hmem⟩
      obtain ⟨f, -, hf⟩ := List.mem_map.mp hmem
      cases hf
    · rw [hhas, hiff f, hnames]
  · intro hiff f
    rw [← hhas, hiff, hnames]

end Record

/-- **An exact pattern fixes the arity up to repetitions.** Where a term matches, every exact record pattern inside the
pattern faces a record with as many features as the pattern has fields, and with each feature that it names. The features
of the record are just those that the pattern names if and only if it names none of them twice. -/
theorem Pattern.exact_arity {σ : Store} {t : Term} {p : Pattern} {found : Captures} {s : Store × Captures}
    (hσ : σ.Closed) (hsorted : σ.Sorted) (ht : t.In σ) (h : p.test t (σ, found) = .ok true s) {path : List Feature}
    {label : Scalar} {fields : List (Scalar × Pattern)} (hat : p.At path (.record label fields false)) :
    ∃ u r, σ.follow? t path = some u ∧ σ.resolve u = .val (.record r) ∧ (σ.record r).count = fields.length ∧
      (∀ field ∈ fields, ∃ f, field.1.toValue.toFeature = .ok f ∧ (σ.record r).has f = true) ∧
      ((∀ f, (σ.record r).has f = true ↔ Names fields f) ↔
        (fields.map fun field => field.1.toValue.toFeature).Nodup) := by
  obtain ⟨u, r, hu, hr, hshows⟩ := ((test_true_iff hσ ht).mp ⟨s, h⟩).records path label fields false hat
  have hasc := hsorted.record r
  refine ⟨u, r, hu, hr, hshows.count rfl, fun field hfield => ?_, hshows.names_iff hasc⟩
  obtain ⟨f, w, hf, hw⟩ := hshows.features field hfield
  exact ⟨f, hf, hasc.has_iff_select?.mpr ⟨w, hw⟩⟩

/-! ### A record of two fields -/

/-- A store with an unbound variable and a record with this variable in one field and a number in another. -/
def Store.halfKnown : Store :=
  { vars := #[.unbound []], records := #[⟨.null, [⟨.str "a", .var 0⟩, ⟨.str "b", .val (.num (.int32 2))⟩]⟩] }

namespace Store

/-- The half-known store is closed. -/
theorem halfKnown_closed : halfKnown.Closed := by
  refine ⟨fun x s hs => ?_, fun r hr => ?_, ?_, ?_, ?_, ?_, ?_, ?_⟩
  · match x, s, hs with
    | 0, _, rfl => exact fun k hk => absurd hk List.not_mem_nil
  · obtain rfl := Array.mem_singleton.mp hr
    intro f hf
    rcases List.mem_pair.mp hf with rfl | rfl
    · exact Nat.zero_lt_one
    · trivial
  all_goals simp [halfKnown]

theorem halfKnown_sorted : halfKnown.Sorted := by
  intro r hr
  obtain rfl := Array.mem_singleton.mp hr
  have hbefore : "a" < "b" := by decide
  exact List.pairwise_pair.mpr hbefore

theorem halfKnown_in : Term.In halfKnown (.val (.record 0)) := Nat.zero_lt_one

theorem halfKnown_select : (halfKnown.record 0).select? (.str "a") = some (.var 0) ∧
    (halfKnown.record 0).select? (.str "b") = some (.val (.num (.int32 2))) := by
  have hasc := halfKnown_sorted.record 0
  exact ⟨hasc.select?_eq_some_iff.mpr List.mem_cons_self,
    hasc.select?_eq_some_iff.mpr (List.mem_cons_of_mem _ List.mem_cons_self)⟩

end Store

namespace Pattern

/-- A pattern of the features of the record that captures whatever is there fits it. -/
theorem fits_halfKnown {fields : List (Scalar × Pattern)} (hlength : fields.length = 2)
    (h : ∀ field ∈ fields, (field.1 = .str "a" ∨ field.1 = .str "b") ∧ ∃ x, field.2 = .ident x) :
    (Pattern.record .null fields false).Fits Store.halfKnown (.val (.record 0)) := by
  refine fits_record.mpr ⟨0, rfl, rfl, fun _ => hlength.symm, ?_⟩
  rintro ⟨s, p⟩ hfield
  obtain ⟨hs, x, rfl⟩ := h _ hfield
  rcases hs with rfl | rfl
  · exact ⟨.str "a", _, rfl, Store.halfKnown_select.1, fits_ident _ _ _⟩
  · exact ⟨.str "b", _, rfl, Store.halfKnown_select.2, fits_ident _ _ _⟩

/-- An exact pattern that names both features of the record. -/
theorem exact_arity_halfKnown :
    Store.halfKnown.Closed ∧ Store.halfKnown.Sorted ∧ Term.In Store.halfKnown (.val (.record 0)) ∧
      (∃ s, (Pattern.record .null [(.str "a", .ident "p"), (.str "b", .ident "q")] false).test (.val (.record 0))
        (Store.halfKnown, []) = .ok true s) ∧
      ∀ f, (Store.halfKnown.record 0).has f = true ↔ Names [(.str "a", .ident "p"), (.str "b", .ident "q")] f := by
  have htest : ∃ s, (Pattern.record .null [(.str "a", .ident "p"), (.str "b", .ident "q")] false).test
      (.val (.record 0)) (Store.halfKnown, []) = .ok true s :=
    (test_true_iff Store.halfKnown_closed Store.halfKnown_in).mpr (fits_halfKnown rfl (by simp))
  obtain ⟨s, hs⟩ := htest
  obtain ⟨u, r, hu, hr, -, -, hiff⟩ := exact_arity Store.halfKnown_closed Store.halfKnown_sorted Store.halfKnown_in hs
    (.here _)
  cases hu
  cases hr
  refine ⟨Store.halfKnown_closed, Store.halfKnown_sorted, Store.halfKnown_in, ⟨s, hs⟩, hiff.mpr ?_⟩
  simp [Scalar.toValue, Value.toFeature, Literal.toFeature]

/-- An exact pattern that names one feature twice matches a record that has another one. -/
theorem exact_names_twice :
    (∃ s, (Pattern.record .null [(.str "a", .ident "p"), (.str "a", .ident "q")] false).test (.val (.record 0))
        (Store.halfKnown, []) = .ok true s) ∧
      (Store.halfKnown.record 0).has (.str "b") = true ∧
      ¬ Names [(.str "a", .ident "p"), (.str "a", .ident "q")] (.str "b") := by
  refine ⟨(test_true_iff Store.halfKnown_closed Store.halfKnown_in).mpr (fits_halfKnown rfl (by simp)), ?_, ?_⟩
  · exact (Store.halfKnown_sorted.record 0).has_iff_select?.mpr ⟨_, Store.halfKnown_select.2⟩
  · simp [Names, Scalar.toValue, Value.toFeature, Literal.toFeature]

end Pattern

/-! ## Shapes -/

namespace Record

variable {r q : Record} {label : Scalar} {fields : List (Scalar × Pattern)} {isOpen : Bool}

/-- What a named feature selects in a record that shows what the pattern names faces what it selects in a record of the
same shape. -/
theorem Shows.side (h : q.Shows label fields isOpen) (hshape : r.sameShape q = true) {field : Scalar × Pattern}
    (hfield : field ∈ fields) : ∃ f t u, field.1.toValue.toFeature = .ok f ∧ r.select? f = some t ∧
      q.select? f = some u ∧ (t, u) ∈ r.sides q := by
  obtain ⟨f, u, hf, hu⟩ := h.features field hfield
  have hrel := Record.select?_rel hshape f
  rw [hu] at hrel
  generalize ht : r.select? f = t at hrel
  cases hrel with
  | some hside => exact ⟨f, _, u, hf, ht, hu, hside⟩

/-- What a record shows to a pattern depends on its shape alone. -/
theorem Shows.of_sameShape (h : q.Shows label fields isOpen) (hshape : r.sameShape q = true) :
    r.Shows label fields isOpen where
  label := h.label.trans (congrArg Value.lit (Record.sameShape_iff.mp hshape).1.symm)
  count hexact := by
    have hlength := congrArg List.length (Record.sameShape_iff.mp hshape).2
    rw [List.length_map, List.length_map] at hlength
    exact hlength.trans (h.count hexact)
  features field hfield := by
    obtain ⟨f, t, u, hf, ht, -⟩ := h.side hshape hfield
    exact ⟨f, t, hf, ht⟩

/-- Records that show what an exact pattern names have one shape, if one of them has no other features. -/
theorem Shows.sameShape (hr : r.Ascending) (hq : q.Ascending) (h : r.Shows label fields false)
    (h' : q.Shows label fields false) (honly : ∀ f, q.has f = true → Pattern.Names fields f) :
    r.sameShape q = true := by
  have hlabel : r.label = q.label := Value.lit.inj (h.label.symm.trans h'.label)
  have hhas : ∀ f, q.has f = true → r.has f = true := by
    intro f hf
    obtain ⟨field, hfield, hfeature⟩ := honly f hf
    obtain ⟨g, u, hg, hu⟩ := h.features field hfield
    obtain rfl := Except.ok.inj (hfeature.symm.trans hg)
    exact hr.has_iff_select?.mpr ⟨u, hu⟩
  -- there are as many features in the one record as in the other
  have hlength : (r.fields.map Field.feature).length = (q.fields.map Field.feature).length := by
    rw [List.length_map, List.length_map]
    exact (h.count rfl).trans (h'.count rfl).symm
  have hmem := (mem_iff_iff_nodup hr.nodup (fun f hf => hr.has_iff.mp (hhas f (hq.has_iff.mpr hf))) hlength).mpr hq.nodup
  refine (hr.sameShape_iff hq).mpr ⟨hlabel, fun f => ?_⟩
  rw [Bool.eq_iff_iff, hr.has_iff, hq.has_iff, hmem f]

end Record

/-! ## Constants -/

mutual

/-- Makes the constant that a pattern stands for. -/
def Pattern.build : Pattern → Action Term
  | .lit s => return .val s.toValue
  | .ident x => Action.fault (.identNotFound x)
  | .record label fields _ => do
    let label ← Action.ofExcept label.toValue.asLiteral
    let fields ← Pattern.buildFields fields
    let record ← Action.ofExcept (Record.build label fields)
    return .val (.record (← Action.take fun σ => σ.newRecord record))

/-- Makes the fields of a constant. -/
def Pattern.buildFields : List (Scalar × Pattern) → Action (List Field)
  | [] => return []
  | (s, p) :: rest => do
    let feature ← Action.ofExcept s.toValue.toFeature
    let t ← p.build
    return ⟨feature, t⟩ :: (← Pattern.buildFields rest)

end

mutual

/-- The pattern has no captures, and every record pattern in it is exact, has a literal for its label and names
features, none of them twice. -/
def Pattern.IsConstant : Pattern → Prop
  | .lit _ => True
  | .ident _ => False
  | .record label fields isOpen => isOpen = false ∧ (∃ l, label.toValue = .lit l) ∧
      (fields.map fun field => field.1.toValue.toFeature).Nodup ∧ Pattern.AreConstant fields

/-- The patterns of the fields are constants, and the fields have features. -/
def Pattern.AreConstant : List (Scalar × Pattern) → Prop
  | [] => True
  | (s, p) :: rest => (∃ f, s.toValue.toFeature = .ok f) ∧ p.IsConstant ∧ Pattern.AreConstant rest

end

/-- In `τ` the term is the constant of the pattern, and its records are numbered from `n` on. -/
inductive Pattern.Denotes (τ : Store) (n : Nat) : Pattern → Term → Prop where
  | lit (s : Scalar) : Denotes τ n (.lit s) (.val s.toValue)
  | record {label : Scalar} {fields : List (Scalar × Pattern)} {q : RecordId} (hq : n ≤ q)
      (hin : q < τ.records.size) (hshows : (τ.record q).Shows label fields false)
      (honly : ∀ f, (τ.record q).has f = true → Names fields f)
      (hparts : ∀ field ∈ fields, ∀ f u, field.1.toValue.toFeature = .ok f → (τ.record q).select? f = some u →
        Denotes τ n field.2 u) :
      Denotes τ n (.record label fields false) (.val (.record q))

namespace Pattern

variable {σ τ ρ : Store} {n : Nat} {p : Pattern} {t w : Term}

/-- A constant still denotes the pattern when the store has grown. -/
theorem Denotes.grows (h : Denotes τ n p w) (hg : τ.Grows ρ) : Denotes ρ n p w := by
  induction h with
  | lit s => exact .lit s
  | record hq hin hshows honly hparts ih =>
    have hrecord := hg.record_eq hin
    refine .record hq (hg.value (v := .record _) hin) ?_ ?_ ?_
    · rwa [hrecord]
    · rwa [hrecord]
    · rwa [hrecord]

theorem Denotes.isIn (h : Denotes τ n p w) : w.In τ := by
  cases h with
  | lit s => exact s.toValue_in τ
  | record _ hin => exact hin

/-! ### Making a constant -/

/-- The store has got new records, in order, and nothing else. -/
structure Makes (σ τ : Store) : Prop where
  evolves : σ.Evolves τ
  vars : τ.vars = σ.vars
  records : σ.records.size ≤ τ.records.size
  sorted : σ.Sorted → τ.Sorted

theorem Makes.refl (σ : Store) : Makes σ σ := ⟨.refl, rfl, Nat.le_refl _, id⟩

theorem Makes.trans (h : Makes σ τ) (h' : Makes τ ρ) : Makes σ ρ :=
  ⟨h.evolves.trans h'.evolves, h'.vars.trans h.vars, Nat.le_trans h.records h'.records, fun hσ => h'.sorted (h.sorted hσ)⟩

theorem Makes.newRecord {r : Record} (hr : r.In σ) (hasc : r.Ascending) : Makes σ (σ.newRecord r).2 where
  evolves := .single (.table (.newRecord hr))
  vars := rfl
  records := by simp [Store.newRecord]
  sorted hσ q hq := by
    rcases Array.mem_push.mp hq with hq | rfl
    · exact hσ q hq
    · exact hasc

/-- The fields that have been made for those of a pattern. -/
abbrev FieldsMade (τ : Store) (n : Nat) (fields : List (Scalar × Pattern)) (gs : List Field) : Prop :=
  List.Forall₂ (fun field g => field.1.toValue.toFeature = .ok g.feature ∧ Denotes τ n field.2 g.value) fields gs

namespace FieldsMade

variable {fields : List (Scalar × Pattern)} {gs : List Field}

/-- Each field that has been made comes from a field of the pattern. -/
theorem exists_field (h : FieldsMade τ n fields gs) {g : Field} (hg : g ∈ gs) :
    ∃ field ∈ fields, field.1.toValue.toFeature = .ok g.feature ∧ Denotes τ n field.2 g.value := by
  induction h with
  | nil => cases hg
  | @cons field g' fields gs hmade _ ih =>
    rcases List.mem_cons.mp hg with rfl | hg
    · exact ⟨field, List.mem_cons_self, hmade⟩
    · obtain ⟨field', hmem, hmade'⟩ := ih hg
      exact ⟨field', List.mem_cons_of_mem _ hmem, hmade'⟩

/-- Each field of the pattern has been made. -/
theorem exists_made (h : FieldsMade τ n fields gs) {field : Scalar × Pattern} (hfield : field ∈ fields) :
    ∃ g ∈ gs, field.1.toValue.toFeature = .ok g.feature ∧ Denotes τ n field.2 g.value := by
  induction h with
  | nil => cases hfield
  | @cons field' g fields gs hmade _ ih =>
    rcases List.mem_cons.mp hfield with rfl | hfield
    · exact ⟨g, List.mem_cons_self, hmade⟩
    · obtain ⟨g', hmem, hmade'⟩ := ih hfield
      exact ⟨g', List.mem_cons_of_mem _ hmem, hmade'⟩

theorem features (h : FieldsMade τ n fields gs) :
    (fields.map fun field => field.1.toValue.toFeature) = (gs.map Field.feature).map .ok := by
  induction h with
  | nil => rfl
  | cons hmade _ ih => rw [List.map_cons, List.map_cons, List.map_cons, hmade.1, ih]

/-- Fields that are made for different features build a record, and this is the constant of the record pattern. -/
theorem build {label : Scalar} {l : Literal} (hlabel : label.toValue = .lit l)
    (hnodup : (fields.map fun field => field.1.toValue.toFeature).Nodup) (h : FieldsMade τ n fields gs)
    (hn : n ≤ τ.records.size) :
    ∃ r, Record.build l gs = .ok r ∧ Makes τ (τ.newRecord r).2 ∧
      Denotes (τ.newRecord r).2 n (.record label fields false) (.val (.record (τ.newRecord r).1)) := by
  have hdistinct : (gs.map Field.feature).Nodup := by
    rw [h.features] at hnodup
    exact hnodup.of_map _
  -- the record is built unless a name stands twice
  rcases Record.build_cases l gs with ⟨r, hbuild, hl, hperm, hasc⟩ | ⟨f, -, hduplicate⟩
  · have hr : r.In τ := by
      intro g hg
      obtain ⟨field, -, -, hdenotes⟩ := h.exists_field (hperm.mem_iff.mp hg)
      exact hdenotes.isIn
    have hmakes := Makes.newRecord hr hasc
    have hlast : (τ.newRecord r).2.record (τ.newRecord r).1 = r := by simp [Store.newRecord, Store.record]
    have hselect : ∀ {f : Feature} {u : Term}, r.select? f = some u ↔ ⟨f, u⟩ ∈ gs := fun {f u} =>
      hasc.select?_eq_some_iff.trans hperm.mem_iff
    refine ⟨r, hbuild, hmakes, .record hn ?_ ?_ ?_ ?_⟩
    · simp [Store.newRecord]
    -- label, number and names first, then that there is nothing else, then the parts
    · rw [hlast]
      refine ⟨hlabel.trans (congrArg Value.lit hl.symm), fun _ => ?_, fun field hfield => ?_⟩
      · rw [Record.count, hperm.length_eq, h.length_eq]
      · obtain ⟨g, hg, hf, -⟩ := h.exists_made hfield
        exact ⟨g.feature, g.value, hf, hselect.mpr hg⟩
    · rw [hlast]
      intro f hf
      obtain ⟨u, hu⟩ := hasc.has_iff_select?.mp hf
      obtain ⟨field, hfield, hfeature, -⟩ := h.exists_field (hselect.mp hu)
      exact ⟨field, hfield, hfeature⟩
    · rw [hlast]
      intro field hfield f u hf hu
      obtain ⟨g, hg, hf', hdenotes⟩ := h.exists_made hfield
      obtain rfl := Except.ok.inj (hf.symm.trans hf')
      obtain rfl := Option.some.inj (hu.symm.trans (hselect.mpr hg))
      exact hdenotes.grows hmakes.evolves.grows
  · exact absurd hduplicate (List.nodup_iff_forall_not_duplicate.mp hdistinct f)

end FieldsMade

mutual

/-- A constant pattern has a constant. -/
theorem build_denotes : (p : Pattern) → p.IsConstant → {σ : Store} → n ≤ σ.records.size →
    ∃ w τ, p.build σ = .ok w τ ∧ Makes σ τ ∧ Denotes τ n p w
  | .lit s, _, σ, _ => ⟨_, σ, by rw [build]; rfl, .refl σ, .lit s⟩
  | .ident x, h, _, _ => by
    rw [IsConstant] at h
    exact h.elim
  | .record label fields isOpen, h, σ, hn => by
    rw [IsConstant] at h
    obtain ⟨rfl, ⟨l, hlabel⟩, hnodup, hfields⟩ := h
    -- the fields are built before the record that holds them
    obtain ⟨gs, τ, hgs, hmakes, hdenote⟩ := buildFields_denote fields hfields hn
    have hnτ : n ≤ τ.records.size := Nat.le_trans hn hmakes.records
    obtain ⟨r, hbuild, hmakes', hdenotes⟩ := FieldsMade.build hlabel hnodup hdenote hnτ
    refine ⟨_, _, ?_, hmakes.trans hmakes', hdenotes⟩
    have hliteral : Action.ofExcept label.toValue.asLiteral σ = .ok l σ := by
      rw [hlabel]
      rfl
    rw [build, bind_apply, hliteral]
    dsimp only
    rw [bind_apply, hgs]
    dsimp only
    rw [hbuild]
    rfl

/-- **Building what the fields of a pattern denote** always succeeds, and gives a field for each of them. -/
theorem buildFields_denote : (fields : List (Scalar × Pattern)) → AreConstant fields → {σ : Store} →
    n ≤ σ.records.size → ∃ gs τ, buildFields fields σ = .ok gs τ ∧ Makes σ τ ∧ FieldsMade τ n fields gs
  | [], _, σ, _ => ⟨[], σ, by rw [buildFields]; rfl, .refl σ, .nil⟩
  | (s, p) :: rest, h, σ, hn => by
    rw [AreConstant] at h
    obtain ⟨⟨f, hf⟩, hp, hrest⟩ := h
    -- what the first field denotes is still there when the others have been built
    obtain ⟨w, τ, hw, hmakes, hdenotes⟩ := build_denotes p hp hn
    have hnτ : n ≤ τ.records.size := Nat.le_trans hn hmakes.records
    obtain ⟨gs, ρ, hgs, hmakes', hdenote⟩ := buildFields_denote rest hrest hnτ
    refine ⟨⟨f, w⟩ :: gs, ρ, ?_, hmakes.trans hmakes', .cons ⟨hf, hdenotes.grows hmakes'.evolves.grows⟩ hdenote⟩
    have hfeature : Action.ofExcept s.toValue.toFeature σ = .ok f σ := by
      rw [hf]
      rfl
    rw [buildFields, bind_apply, hfeature]
    dsimp only
    rw [bind_apply, hw]
    dsimp only
    rw [bind_apply, hgs]
    rfl

end

/-! ### Comparing with a constant -/

theorem Makes.resolve_eq (h : Makes σ τ) (t : Term) : τ.resolve t = σ.resolve t := Store.resolve_of_vars_eq h.vars t

/-- What fits a constant pattern is equal to the constant. -/
theorem Denotes.equal (hτ : τ.Sorted) (h : Denotes τ n p w) (hfits : p.Fits τ t) : τ.Equal t w := by
  -- the records of terms that fit, and those of the constants
  let E : RecordId → RecordId → Prop := fun r q => ∃ (p : Pattern) (t w : Term), p.Fits τ t ∧ Denotes τ n p w ∧
    τ.resolve t = .val (.record r) ∧ w = .val (.record q)
  have hagrees : ∀ p t w, p.Fits τ t → Denotes τ n p w → Store.Agrees E (τ.resolve t) (τ.resolve w) := by
    intro p t w hfits hdenotes
    cases hdenotes with
    | lit s =>
      have hentails := fits_lit.mp hfits
      rcases hres : τ.resolve t with v | x
      · rw [Action.entails_scalar_of_val hres] at hentails
        cases hsame : v.sameAtom s.toValue with
        | true => exact .atom hsame
        | false =>
          rw [hsame] at hentails
          cases hentails
      · rw [Action.entails_scalar_of_var hres] at hentails
        cases hentails
    | @record label fields q hq hin hshows honly hparts =>
      obtain ⟨r, hres, -⟩ := fits_record.mp hfits
      rw [hres]
      exact .record (.inr ⟨_, t, _, hfits, .record hq hin hshows honly hparts, hres, rfl⟩)
  refine ⟨E, ?_, hagrees p t w hfits h⟩
  rintro r q ⟨p, t, w, hfits, hdenotes, hres, hw⟩
  cases hdenotes with
  | lit s => cases s <;> cases hw
  | @record label fields _ hq hin hshows honly hparts =>
    cases hw
    obtain ⟨r', hres', hlabel, hcount, hfields⟩ := fits_record.mp hfits
    cases hres.symm.trans hres'
    have hshows' : (τ.record r).Shows label fields false :=
      ⟨hlabel, hcount, fun field hfield => (hfields field hfield).imp fun f ⟨u, hf, hu, _⟩ => ⟨u, hf, hu⟩⟩
    have hshape := hshows'.sameShape (hτ.record r) (hτ.record q) hshows honly
    refine ⟨hshape, fun side hside => ?_⟩
    obtain ⟨f, hleft, hright⟩ := (Record.mem_sides_iff_select? (hτ.record r) (hτ.record q) hshape).mp hside
    obtain ⟨field, hfield, hf⟩ := honly f ((hτ.record q).has_iff_select?.mpr ⟨_, hright⟩)
    obtain ⟨g, u, hg, hu, hfits⟩ := hfields field hfield
    cases hf.symm.trans hg
    cases hleft.symm.trans hu
    exact hagrees _ _ _ hfits (hparts field hfield f _ hf hright)

/-- A record of the old store is none of the new ones. -/
theorem Makes.lt_size (hmakes : Makes σ τ) (hσ : σ.Closed) (ht : t.In σ) {r : RecordId}
    (hres : τ.resolve t = .val (.record r)) : r < σ.records.size :=
  hσ.resolve_val ht ((hmakes.resolve_eq t).symm.trans hres)

theorem Makes.select? (hmakes : Makes σ τ) (hσ : σ.Closed) {r : RecordId} (hr : r < σ.records.size) {f : Feature}
    {u : Term} (hu : (τ.record r).select? f = some u) : u.In σ := by
  rw [hmakes.evolves.grows.record_eq hr] at hu
  exact (hσ.record r).select? hu

/-- A term of the old store that is equal to the constant fits the pattern. -/
theorem Denotes.fits (hmakes : Makes σ τ) (hσ : σ.Closed) (h : Denotes τ σ.records.size p w) (ht : t.In σ)
    (heq : τ.Equal t w) : p.Fits τ t := by
  induction h generalizing t with
  -- a constant is compared as it is
  | lit s =>
    refine fits_lit.mpr (Store.entails_eq_ok_iff.mpr ?_)
    have hτ := hmakes.evolves.closed hσ
    have hs : Term.In τ (.val s.toValue) := s.toValue_in τ
    exact (Store.compare_eq_equal hτ (hmakes.evolves.grows.term ht) hs).mpr heq
  | @record label fields q hq hin hshows honly hparts ih =>
    have hag := heq
    obtain ⟨E, -, hag⟩ := hag
    have hresolve : τ.resolve (.val (.record q)) = .val (.record q) := rfl
    rw [hresolve] at hag
    generalize hres : τ.resolve t = t' at hag
    cases hag with
    | @record r =>
      have hr := hmakes.lt_size hσ ht hres
      -- the record cannot be the new one, so it is another of the same shape
      rcases (heq.congr hres hresolve).record with rfl | ⟨hshape, hsides⟩
      · exact absurd hr (Nat.not_lt.mpr hq)
      have hshows' := hshows.of_sameShape hshape
      refine fits_record.mpr ⟨r, hres, hshows'.label, hshows'.count, fun field hfield => ?_⟩
      obtain ⟨f, t', u, hf, ht', hu, hside⟩ := hshows.side hshape hfield
      exact ⟨f, t', hf, ht', ih field hfield f u hf hu (hmakes.select? hσ hr ht') (hsides _ hside)⟩
    | @atom v _ h => exact absurd h (Value.not_sameAtom_record_right q v)

/-! ### Where a term differs from a constant -/

/-- A constant has a constant at every place. -/
theorem Denotes.exists_at {path : List Feature} {q : Pattern} (hat : p.At path q) (h : Denotes τ n p w) :
    ∃ u, Denotes τ n q u := by
  induction hat generalizing w with
  | here p => exact ⟨w, h⟩
  | field hmem hf _ ih =>
    cases h with
    | record _ _ hshows _ hparts =>
      obtain ⟨g, u, hg, hu⟩ := hshows.features _ hmem
      exact ih (hparts _ hmem g u hg hu)

/-- Looking for a constant pattern is never at fault. -/
theorem Denotes.look_ne_fault (hτ : τ.Closed) (h : Denotes τ n p w) (ht : t.In τ) (g : Fault) :
    p.look t τ ≠ .error (.fault g) τ := by
  intro hfault
  obtain ⟨path, q, u, hat, -, hstops⟩ := stops_of_look hτ p ht (by rw [hfault]; nofun)
  rw [hfault] at hstops
  cases hstops with
  | fails hfield hg =>
    obtain ⟨u, hdenotes⟩ := h.exists_at hat
    cases hdenotes with
    | record _ _ hshows _ _ =>
      obtain ⟨f, -, hf, -⟩ := hshows.features _ hfield
      cases hf.symm.trans hg

/-- A clash below a field is a clash with the whole pattern. -/
theorem Clashes.field {label s : Scalar} {fields : List (Scalar × Pattern)} {isOpen : Bool} {r : RecordId} {f : Feature}
    {u : Term} (h : p.Clashes σ u) (hmem : (s, p) ∈ fields) (hf : s.toValue.toFeature = .ok f)
    (hr : σ.resolve t = .val (.record r)) (hu : (σ.record r).select? f = some u) :
    (Pattern.record label fields isOpen).Clashes σ t := by
  obtain ⟨path, q, w, v, hat, hw, hv, hrejects⟩ := h
  exact ⟨f :: path, q, w, v, .field hmem hf hat,
    Store.follow?_cons.mpr ⟨u, Store.child?_eq_some.mpr ⟨r, hr, hu⟩, hw⟩, hv, hrejects⟩

/-- A term that differs from the constant clashes with the pattern. -/
theorem Denotes.clashes (hτ : τ.Sorted) (h : Denotes τ n p w) (hdiffers : τ.Differs t w) : p.Clashes τ t := by
  induction hdiffers generalizing p with
  -- the terms differ at this place, or below a field of two records
  | @clash t w hclash =>
    obtain ⟨v, hv⟩ : ∃ v, τ.resolve t = .val v := by
      generalize τ.resolve t = t', τ.resolve w = w' at hclash
      cases hclash <;> exact ⟨_, rfl⟩
    refine ⟨[], p, t, v, .here p, rfl, hv, ?_⟩
    rw [hv] at hclash
    -- a literal against another value, or a record against a value of another shape
    cases h with
    | lit s =>
      have hresolve : τ.resolve (.val s.toValue) = .val s.toValue := rfl
      rw [hresolve] at hclash
      generalize hw : s.toValue = w at hclash
      cases hclash with
      | shape => cases s <;> cases hw
      | atom _ hsame =>
        subst hw
        exact Bool.eq_false_iff.mpr hsame
    | @record label fields q hq hin hshows honly hparts =>
      have hresolve : τ.resolve (.val (.record q)) = .val (.record q) := rfl
      rw [hresolve] at hclash
      rintro r rfl hr
      cases hclash with
      | shape _ hshape => exact hshape (hr.sameShape (hτ.record r) (hτ.record q) hshows honly)
      | atom hrecord => exact hrecord r q rfl rfl
  | @field t w r q side hr hq hside _ ih =>
    cases h with
    | lit s =>
      have hscalar : s.toValue = .record q := Term.val.inj hq
      cases s <;> cases hscalar
    | @record label fields q' hq' hin hshows honly hparts =>
      cases hq
      -- two records of one shape differ below a field that the pattern names
      by_cases hshape : (τ.record r).sameShape (τ.record q) = true
      · obtain ⟨f, hleft, hright⟩ := (Record.mem_sides_iff_select? (hτ.record r) (hτ.record q) hshape).mp hside
        obtain ⟨field, hfield, hf⟩ := honly f ((hτ.record q).has_iff_select?.mpr ⟨_, hright⟩)
        exact (ih (hparts field hfield f _ hf hright)).field hfield hf hr hleft
      · refine ⟨[], _, t, _, .here _, rfl, hr, ?_⟩
        rintro _ ⟨⟩ hr
        exact hshape (hr.sameShape (hτ.record r) (hτ.record q) hshows honly)

/-- A constant of a pattern is fitted only by an atom that is the same. -/
theorem fits_scalar {E : RecordId → RecordId → Prop} {v : Value} {s : Scalar}
    (h : Store.Fits E (.val v) (.val s.toValue)) : v.sameAtom s.toValue = true := by
  generalize hw : s.toValue = w at h
  cases h with
  | record => cases s <;> cases hw
  | atom h => exact h

/-- A term that clashes with the pattern is found to differ from the constant. -/
theorem Denotes.not_fits (hmakes : Makes σ τ) (hσ : σ.Closed) {E : RecordId → RecordId → Prop}
    (hE : ∀ r s, E r s → (τ.record r).sameShape (τ.record s) = true ∧
      ∀ side ∈ (τ.record r).sides (τ.record s), Store.Fits E (τ.resolve side.1) (τ.resolve side.2))
    (h : Denotes τ σ.records.size p w) (ht : t.In σ) {path : List Feature} {q : Pattern} (hat : p.At path q)
    {u : Term} {v : Value} (hu : τ.follow? t path = some u) (hv : τ.resolve u = .val v) (hrejects : q.Rejects τ v) :
    ¬ Store.Fits E (τ.resolve t) (τ.resolve w) := by
  -- what a record that fits the record of a constant looks like
  have hrecord : ∀ {r : RecordId} {q : RecordId} {t : Term}, t.In σ → σ.records.size ≤ q →
      τ.resolve t = .val (.record r) → Store.Fits E (.val (.record r)) (.val (.record q)) →
      r < σ.records.size ∧ (τ.record r).sameShape (τ.record q) = true ∧
        ∀ side ∈ (τ.record r).sides (τ.record q), Store.Fits E (τ.resolve side.1) (τ.resolve side.2) := by
    intro r q t ht hq hres hfits
    have hr := hmakes.lt_size hσ ht hres
    have hne : r ≠ q := fun heq => absurd hr (Nat.not_lt.mpr (heq ▸ hq))
    cases hfits with
    | record h => exact ⟨hr, hE r q (h.resolve_left hne)⟩
    | atom h => exact absurd h (Value.not_sameAtom_record r _)
  induction hat generalizing t w with
  | here p =>
    cases hu
    rw [hv]
    intro hfits
    cases h with
    | lit s =>
      rw [Rejects, fits_scalar hfits] at hrejects
      cases hrejects
    | @record label fields q hq hin hshows honly hparts =>
      have hvalue : ∃ r, v = .record r := by
        cases hfits with
        | @record r => exact ⟨r, rfl⟩
        | atom h => exact absurd h (Value.not_sameAtom_record_right q v)
      obtain ⟨r, rfl⟩ := hvalue
      exact hrejects r rfl (hshows.of_sameShape (hrecord ht hq hv hfits).2.1)
  | @field label s fields isOpen p q f path hmem hf hat ih =>
    obtain ⟨t', ht', hu⟩ := Store.follow?_cons.mp hu
    obtain ⟨r, hr, hselect⟩ := Store.child?_eq_some.mp ht'
    rw [hr]
    intro hfits
    cases h with
    | @record label fields q hq hin hshows honly hparts =>
      obtain ⟨hlt, hshape, hsides⟩ := hrecord ht hq hr hfits
      obtain ⟨g, left, right, hg, hleft, hright, hside⟩ := hshows.side hshape hmem
      cases hf.symm.trans hg
      cases hselect.symm.trans hleft
      exact ih (hparts _ hmem f right hf hright) (hmakes.select? hσ hlt hselect) hu hrejects (hsides _ hside)

/-- **What a pattern denotes is entailed by a term just if the pattern fits the term.** -/
theorem Denotes.entails_true_iff (hmakes : Makes σ τ) (hσ : σ.Closed) (hsorted : σ.Sorted)
    (h : Denotes τ σ.records.size p w) (ht : t.In σ) : Action.entails t w τ = .ok true τ ↔ p.Fits τ t := by
  have hτ := hmakes.evolves.closed hσ
  rw [Store.entails_eq_ok_iff]
  refine Iff.trans (Store.compare_eq_equal hτ (hmakes.evolves.grows.term ht) h.isIn) ?_
  exact ⟨fun heq => h.fits hmakes hσ ht heq, fun hfits => h.equal (hmakes.sorted hsorted) hfits⟩

/-- What a pattern denotes is different from a term if the term clashes with the pattern, and only then. -/
theorem Denotes.entails_false_iff (hmakes : Makes σ τ) (hσ : σ.Closed) (hsorted : σ.Sorted)
    (h : Denotes τ σ.records.size p w) (ht : t.In σ) : Action.entails t w τ = .ok false τ ↔ p.Clashes τ t := by
  have hτ := hmakes.evolves.closed hσ
  have htτ : t.In τ := hmakes.evolves.grows.term ht
  rw [Store.entails_eq_ok_iff]
  constructor
  -- a difference comes from a pair of the comparison, which is a clash with the pattern,
  · intro hdifferent
    obtain ⟨pair, hpair, hdiffers⟩ := Store.differs_of_compareAll hdifferent
    obtain rfl := List.mem_singleton.mp hpair
    exact h.clashes (hmakes.sorted hsorted) hdiffers
  -- and if there were no difference in spite of a clash, the comparison would have gone through all of the pattern
  · rintro ⟨path, q, u, v, hat, hu, hv, hrejects⟩
    by_contra hne
    obtain ⟨E, -, hfits, hE⟩ := Store.fits_of_compareAll hτ (.single htτ h.isIn) (.empty τ) hne
    have hE' := fun r s hrs => (hE r s hrs).resolve_left Std.HashSet.not_mem_empty
    exact h.not_fits hmakes hσ hE' ht hat hu hv hrejects (hfits (t, w) List.mem_cons_self)

/-- **Matching and comparing agree on constants, but for waiting.** A constant pattern has a constant, made of new
records, and matching a term with the pattern goes with comparing the term with this constant. Matching answers yes
exactly if comparing does. Comparing answers no exactly if somewhere the term clashes with the pattern; matching answers
no only then, but it may wait instead. It is never at fault, and it waits if comparing waits. It waits only for a part of
the term whose value the pattern needs, so where all these parts are known the two answer the same. -/
theorem constant_agrees (hσ : σ.Closed) (hsorted : σ.Sorted) (ht : t.In σ) (hp : p.IsConstant) :
    ∃ w τ, p.build σ = .ok w τ ∧ ∀ found,
      ((∃ s, p.test t (τ, found) = .ok true s) ↔ Action.entails t w τ = .ok true τ) ∧
      (Action.entails t w τ = .ok false τ ↔ p.Clashes τ t) ∧
      ((∃ s, p.test t (τ, found) = .ok false s) → Action.entails t w τ = .ok false τ) ∧
      (∀ g s, p.test t (τ, found) ≠ .error (.fault g) s) ∧
      (∀ x, Action.entails t w τ = .error (.blocked x) τ → ∃ y s, p.test t (τ, found) = .error (.blocked y) s) ∧
      (∀ x s, p.test t (τ, found) = .error (.blocked x) s → τ.Unbound x ∧ p.Asks τ t x) ∧
      ((∀ x, ¬ p.Asks τ t x) → ∀ answer,
        (∃ s, p.test t (τ, found) = .ok answer s) ↔ Action.entails t w τ = .ok answer τ) := by
  obtain ⟨w, τ, hbuild, hmakes, hdenotes⟩ := build_denotes p hp (Nat.le_refl σ.records.size)
  have hτ := hmakes.evolves.closed hσ
  have htτ : t.In τ := hmakes.evolves.grows.term ht
  refine ⟨w, τ, hbuild, fun found => ?_⟩
  have hyes : (∃ s, p.test t (τ, found) = .ok true s) ↔ Action.entails t w τ = .ok true τ :=
    (test_true_iff hτ htτ).trans (hdenotes.entails_true_iff hmakes hσ hsorted ht).symm
  have hclash := hdenotes.entails_false_iff hmakes hσ hsorted ht
  have hno : (∃ s, p.test t (τ, found) = .ok false s) → Action.entails t w τ = .ok false τ := fun h =>
    hclash.mpr (clashes_of_look hτ htτ ((test_false_iff hτ htτ).mp h))
  have hfault : ∀ g s, p.test t (τ, found) ≠ .error (.fault g) s := fun g s h =>
    hdenotes.look_ne_fault hτ htτ g ((test_error_iff hτ htτ).mp ⟨s, h⟩)
  have hasks : ∀ x s, p.test t (τ, found) = .error (.blocked x) s → τ.Unbound x ∧ p.Asks τ t x := fun x s h =>
    asks_of_look hτ htτ ((test_error_iff hτ htτ).mp ⟨s, h⟩)
  refine ⟨hyes, hclash, hno, hfault, ?_, hasks, ?_⟩
  -- where the comparison waits, matching neither accepts nor turns down, and does not fault
  · intro x hx
    rcases htest : p.test t (τ, found) with ⟨_ | _, s⟩ | ⟨y | g, s⟩
    · cases hx.symm.trans (hno ⟨s, htest⟩)
    · cases hx.symm.trans (hyes.mp ⟨s, htest⟩)
    · exact ⟨y, s, rfl⟩
    · exact absurd htest (hfault g s)
  -- where nothing is asked for, both answers are the same
  · rintro hknown (_ | _)
    · refine ⟨hno, fun hentails => ?_⟩
      rcases htest : p.test t (τ, found) with ⟨_ | _, s⟩ | ⟨y | g, s⟩
      · exact ⟨s, rfl⟩
      · cases hentails.symm.trans (hyes.mp ⟨s, htest⟩)
      · exact absurd (hasks y s htest).2 (hknown y)
      · exact absurd htest (hfault g s)
    · exact hyes

/-- The constant of two numbers, the second of which is not the one in the record. -/
def pairPattern : Pattern :=
  .record .null [(.str "a", .lit (.num (.int32 1))), (.str "b", .lit (.num (.int32 3)))] false

theorem pairPattern_isConstant : pairPattern.IsConstant := by
  simp [pairPattern, IsConstant, AreConstant, Scalar.toValue, Value.toFeature, Literal.toFeature]

/-- The second number clashes with the one in the record, wherever there are only new records. -/
theorem pairPattern_clashes (hmakes : Makes Store.halfKnown τ) : pairPattern.Clashes τ (.val (.record 0)) := by
  have hrecord : τ.record 0 = Store.halfKnown.record 0 := hmakes.evolves.grows.record_eq Nat.zero_lt_one
  have hsame : (Value.num (.int32 2)).sameAtom (Scalar.num (.int32 3)).toValue = false := by decide
  have hsecond : (Pattern.lit (.num (.int32 3))).Clashes τ (.val (.num (.int32 2))) :=
    ⟨[], _, _, _, .here _, rfl, rfl, hsame⟩
  exact hsecond.field (List.mem_cons_of_mem _ List.mem_cons_self) rfl rfl (hrecord ▸ Store.halfKnown_select.2)

/-- Comparing the record with the constant answers no. -/
theorem constant_agrees_pair :
    Store.halfKnown.Closed ∧ Store.halfKnown.Sorted ∧ Term.In Store.halfKnown (.val (.record 0)) ∧
      pairPattern.IsConstant ∧ ∃ w τ, pairPattern.build Store.halfKnown = .ok w τ ∧
        Action.entails (.val (.record 0)) w τ = .ok false τ := by
  obtain ⟨w, τ, hbuild, hagrees⟩ := constant_agrees Store.halfKnown_closed Store.halfKnown_sorted Store.halfKnown_in
    pairPattern_isConstant
  obtain ⟨w', τ', hbuild', hmakes, -⟩ := build_denotes pairPattern pairPattern_isConstant
    (Nat.le_refl Store.halfKnown.records.size)
  cases hbuild.symm.trans hbuild'
  exact ⟨Store.halfKnown_closed, Store.halfKnown_sorted, Store.halfKnown_in, pairPattern_isConstant, w, τ, hbuild,
    (hagrees []).2.1.mpr (pairPattern_clashes hmakes)⟩

/-- Matching the record with this pattern waits all the same, for the first number. -/
theorem matching_waits :
    pairPattern.IsConstant ∧ ∃ w τ, pairPattern.build Store.halfKnown = .ok w τ ∧
      Action.entails (.val (.record 0)) w τ = .ok false τ ∧
      ∃ s, pairPattern.test (.val (.record 0)) (τ, []) = .error (.blocked 0) s := by
  obtain ⟨w, τ, hbuild, hmakes, hdenotes⟩ := build_denotes pairPattern pairPattern_isConstant
    (Nat.le_refl Store.halfKnown.records.size)
  have hrecord : τ.record 0 = Store.halfKnown.record 0 := hmakes.evolves.grows.record_eq Nat.zero_lt_one
  have hvar : τ.resolve (.var 0) = .var 0 := by
    rw [hmakes.resolve_eq]
    exact Store.Unbound.resolveVar ⟨[], rfl⟩
  refine ⟨pairPattern_isConstant, w, τ, hbuild, ?_, ?_⟩
  · exact (hdenotes.entails_false_iff hmakes Store.halfKnown_closed Store.halfKnown_sorted Store.halfKnown_in).mpr
      (pairPattern_clashes hmakes)
  · refine (test_error_iff (hmakes.evolves.closed Store.halfKnown_closed)
      (hmakes.evolves.grows.term Store.halfKnown_in)).mpr ?_
    exact look_first_unbound rfl (hrecord ▸ rfl) (fun _ => hrecord ▸ rfl) rfl (hrecord ▸ Store.halfKnown_select.1)
      hvar _

end Pattern

end Dataflow
