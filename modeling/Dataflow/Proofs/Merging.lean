/-
Merging two records.

`Record.assign` appends to the fields of the first record those of the second that the first lacks, and builds a record
of them. What it looks up in the first record is found or missed rightly because the first record is in order; so no
feature occurs twice among the fields, and building cannot fail. What the outcome selects is what the first record
selects, or else what the second does (`assign_spec`).

A record in order is determined by its label and by what it selects (`Ascending.ext`). So an equation between merges
is an equation between choices of a first defined value, where it is plain that these associate, repeat without effect
and have the empty choice as identity.
-/
import Dataflow.Proofs.Records
import Dataflow.Machine.Execute

set_option autoImplicit false

namespace Dataflow

namespace Record

variable {r s t : Record} {f : Feature} {x : Term}

/-! ## Records by what they select -/

/-- Being in order can be computed. -/
theorem ascending_iff_compare :
    r.Ascending ↔ (r.fields.map Field.feature).Pairwise fun f g => f.compare g = .lt := by
  simp only [Ascending, Feature.compare_eq_lt]

instance : Decidable r.Ascending := decidable_of_iff' _ ascending_iff_compare

/-- Records in order that have the same fields have them in the same order. -/
theorem Ascending.eq_of_perm (hr : r.Ascending) (hs : s.Ascending) (hlabel : r.label = s.label)
    (h : r.fields.Perm s.fields) : r = s := by
  have hfields : r.fields = s.fields := by
    refine h.eq_of_pairwise (fun a b _ _ hab hba => ?_) (List.pairwise_map.mp hr) (List.pairwise_map.mp hs)
    exact absurd hba hab.asymm
  cases r
  cases s
  exact congrArg₂ Record.mk hlabel hfields

/-- A record in order is what it selects. -/
theorem Ascending.ext (hr : r.Ascending) (hs : s.Ascending) (hlabel : r.label = s.label)
    (h : ∀ f, r.select? f = s.select? f) : r = s := by
  refine hr.eq_of_perm hs hlabel ?_
  rw [List.perm_ext_iff_of_nodup (hr.nodup.of_map _) (hs.nodup.of_map _)]
  rintro ⟨f, x⟩
  rw [← hr.select?_eq_some_iff, ← hs.select?_eq_some_iff, h f]

/-- Nothing can be selected with a feature that a sorted record lacks. -/
theorem Ascending.select?_eq_none (h : r.Ascending) : r.select? f = none ↔ f ∉ r.fields.map Field.feature := by
  rw [h.select?_eq_none_iff, List.mem_map]
  constructor
  · rintro hall ⟨field, hmem, hf⟩
    exact hall field hmem hf
  · intro hnot field hmem hf
    exact hnot ⟨field, hmem, hf⟩

theorem ascending_empty (label : Literal) : Ascending ⟨label, []⟩ := List.Pairwise.nil

theorem select?_empty (label : Literal) (f : Feature) : select? ⟨label, []⟩ f = none :=
  (ascending_empty label).select?_eq_none.mpr List.not_mem_nil

/-! ## The merged fields -/

/-- A merged field comes from the first record, or from the second if the first lacks its feature. -/
theorem Ascending.mem_mergeFields (hr : r.Ascending) :
    ⟨f, x⟩ ∈ mergeFields r s ↔ ⟨f, x⟩ ∈ r.fields ∨ f ∉ r.fields.map Field.feature ∧ ⟨f, x⟩ ∈ s.fields := by
  rw [mergeFields, List.mem_append, List.mem_filter, Bool.not_eq_true', ← Bool.not_eq_true, hr.has_iff]
  exact or_congr_right and_comm

/-- No feature occurs twice in the merged fields. -/
theorem Ascending.nodup_mergeFields (hr : r.Ascending) (hs : s.Ascending) :
    ((mergeFields r s).map Field.feature).Nodup := by
  rw [mergeFields, List.map_append]
  refine List.nodup_append'.mpr ⟨hr.nodup, hs.nodup.sublist (List.filter_sublist.map _), ?_⟩
  intro f hf hg
  obtain ⟨field, hmem, rfl⟩ := List.mem_map.mp hg
  have hlacks := (List.mem_filter.mp hmem).2
  rw [hr.has_iff.mpr hf] at hlacks
  cases hlacks

/-- **Merging** two records in order cannot fail. The outcome is in order, and it selects what the first record
selects, or else what the second does. -/
theorem assign_spec (hr : r.Ascending) (hs : s.Ascending) :
    ∃ u, r.assign s = .ok u ∧ u.label = .null ∧ u.Ascending ∧ ∀ f, u.select? f = (r.select? f).or (s.select? f) := by
  obtain ⟨u, hu, hlabel, hperm, hasc⟩ | ⟨f, -, hdup⟩ := build_cases .null (mergeFields r s)
  · refine ⟨u, hu, hlabel, hasc, fun f => Option.ext fun x => ?_⟩
    rw [Option.or_eq_some_iff, hasc.select?_eq_some_iff, hperm.mem_iff, hr.mem_mergeFields, hr.select?_eq_some_iff,
      hr.select?_eq_none, hs.select?_eq_some_iff]
  · exact absurd (hr.nodup_mergeFields hs) hdup.not_nodup

/-! ## What the outcome gives for a feature -/

theorem Ascending.select_of_mem (h : r.Ascending) {σ : Store} {n : RecordId} (hn : σ.record n = r)
    (hmem : ⟨f, x⟩ ∈ r.fields) : σ.select (.record n) f = .ok x := by
  simp only [Store.select, hn, h.select?_eq_some_iff.mpr hmem]

theorem Ascending.select_of_notMem (h : r.Ascending) {σ : Store} {n : RecordId} (hn : σ.record n = r)
    (hnot : f ∉ r.fields.map Field.feature) :
    σ.select (.record n) f = .error (.missingFeature f (σ.recordText n)) := by
  simp only [Store.select, hn, h.select?_eq_none.mpr hnot]

/-! ## Equations -/

/-- Merging three records gives the same from the left and from the right. -/
theorem Ascending.assign_assoc (hr : r.Ascending) (hs : s.Ascending) (ht : t.Ascending) :
    ∃ u, (r.assign s >>= fun m => m.assign t) = .ok u ∧ (s.assign t >>= fun m => r.assign m) = .ok u := by
  obtain ⟨rs, hrs, -, hrs_asc, hrs_sel⟩ := assign_spec hr hs
  obtain ⟨st, hst, -, hst_asc, hst_sel⟩ := assign_spec hs ht
  obtain ⟨u, hu, hu_label, hu_asc, hu_sel⟩ := assign_spec hrs_asc ht
  obtain ⟨v, hv, hv_label, hv_asc, hv_sel⟩ := assign_spec hr hst_asc
  have huv : v = u := by
    refine hv_asc.ext hu_asc (hv_label.trans hu_label.symm) fun f => ?_
    rw [hu_sel, hv_sel, hrs_sel, hst_sel, Option.or_assoc]
  refine ⟨u, ?_, ?_⟩
  · rw [hrs]
    exact hu
  · rw [hst]
    exact huv ▸ hv

/-- A merge that selects what a record with a null label selects is that record. -/
theorem Ascending.eq_of_assign (hr : r.Ascending) (hnull : r.label = .null) {s t : Record} (hs : s.Ascending)
    (ht : t.Ascending) (h : ∀ f, (s.select? f).or (t.select? f) = r.select? f) : s.assign t = .ok r := by
  obtain ⟨u, hu, hlabel, hasc, hsel⟩ := assign_spec hs ht
  have hur : u = r := hasc.ext hr (hlabel.trans hnull.symm) fun f => (hsel f).trans (h f)
  rw [hu, hur]

/-- **Merging is a left-biased union.** It never fails on records in order; the outcome has a null label, is in order,
and gives for a feature the value that the first record has for it, or else that of the second, or else misses it.
Merging is associative, and on records with a null label it is idempotent with the empty record as identity. -/
theorem assign_leftBiased (hr : r.Ascending) (hs : s.Ascending) (ht : t.Ascending) :
    (∃ u, r.assign s = .ok u ∧ u.label = .null ∧ u.Ascending ∧
      ∀ (σ : Store) (n : RecordId), σ.record n = u → ∀ f,
        (∀ x, ⟨f, x⟩ ∈ r.fields → σ.select (.record n) f = .ok x) ∧
        (∀ x, f ∉ r.fields.map Field.feature → ⟨f, x⟩ ∈ s.fields → σ.select (.record n) f = .ok x) ∧
        (f ∉ r.fields.map Field.feature → f ∉ s.fields.map Field.feature →
          σ.select (.record n) f = .error (.missingFeature f (σ.recordText n)))) ∧
    (∃ u, (r.assign s >>= fun m => m.assign t) = .ok u ∧ (s.assign t >>= fun m => r.assign m) = .ok u) ∧
    (r.label = .null →
      r.assign r = .ok r ∧ r.assign ⟨.null, []⟩ = .ok r ∧ Record.assign ⟨.null, []⟩ r = .ok r) := by
  refine ⟨?_, hr.assign_assoc hs ht, fun hnull => ⟨?_, ?_, ?_⟩⟩
  · obtain ⟨u, hu, hlabel, hasc, hsel⟩ := assign_spec hr hs
    refine ⟨u, hu, hlabel, hasc, fun σ n hn f => ⟨fun x hx => ?_, fun x hnot hx => ?_, fun hnr hns => ?_⟩⟩
    · refine hasc.select_of_mem hn (hasc.select?_eq_some_iff.mp ?_)
      rw [hsel, hr.select?_eq_some_iff.mpr hx, Option.some_or]
    · refine hasc.select_of_mem hn (hasc.select?_eq_some_iff.mp ?_)
      rw [hsel, hr.select?_eq_none.mpr hnot, Option.none_or, hs.select?_eq_some_iff.mpr hx]
    · refine hasc.select_of_notMem hn (hasc.select?_eq_none.mp ?_)
      rw [hsel, hr.select?_eq_none.mpr hnr, hs.select?_eq_none.mpr hns, Option.none_or]
  · exact hr.eq_of_assign hnull hr hr fun f => Option.or_self
  · refine hr.eq_of_assign hnull hr (ascending_empty _) fun f => ?_
    rw [select?_empty, Option.or_none]
  · refine hr.eq_of_assign hnull (ascending_empty _) hr fun f => ?_
    rw [select?_empty, Option.none_or]

/-- Features of all six kinds: the second record has the string `"a"` and the integer `0` like the first, and more
features after and between them. -/
theorem assign_leftBiased_kinds :
    let one : Term := .val (.num (.int32 1))
    let two : Term := .val (.num (.int32 2))
    let r : Record := ⟨.null, [⟨.str "a", one⟩, ⟨.int 0, one⟩, ⟨.eof, one⟩]⟩
    let s : Record :=
      ⟨.str "point", [⟨.str "a", two⟩, ⟨.int (-1), two⟩, ⟨.bool true, two⟩, ⟨.null, two⟩, ⟨.token 7, two⟩]⟩
    r.Ascending ∧ s.Ascending ∧ (∃ u, r.assign s = .ok u ∧
      ∀ (σ : Store) (n : RecordId), σ.record n = u →
        σ.select (.record n) (.str "a") = .ok one ∧ σ.select (.record n) (.token 7) = .ok two ∧
          σ.select (.record n) (.int 5) = .error (.missingFeature (.int 5) (σ.recordText n))) := by
  intro one two r s
  have hr : r.Ascending := by decide
  have hs : s.Ascending := by decide
  obtain ⟨⟨u, hu, -, -, hsel⟩, -⟩ := assign_leftBiased hr hs hr
  refine ⟨hr, hs, u, hu, fun σ n hn => ⟨?_, ?_, ?_⟩⟩
  · exact (hsel σ n hn (.str "a")).1 one List.mem_cons_self
  · exact (hsel σ n hn (.token 7)).2.1 two (by decide) (by simp [s])
  · exact (hsel σ n hn (.int 5)).2.2 (by decide) (by decide)

end Record

end Dataflow
