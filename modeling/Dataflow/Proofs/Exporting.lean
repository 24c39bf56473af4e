/-
What the document of plain data tells.

Plain data is made of null, truth values, strings and 32-bit integers, by tuples and by records whose features are
strings, all without labels. A tuple becomes an array and any other such record an object with the features as names. The
features of a record are in ascending order, so the object has its members in that order too, and none of them replaces
another one. The empty record is a tuple, so an object has members, and what the document of a record is shows which
features the record has.

So the documents of two values are the same exactly if the values are equal, as long as nothing is left out, which is so
inside up to 64 records. There every part of a value is in the document at the same path as in the value.
-/
import Dataflow.Export
import Dataflow.Proofs.Entailing

set_option autoImplicit false

namespace Dataflow

/-! ## Plain data -/

/-- The document of plain data without parts. -/
def Value.plainDocument? : Value → Option Json
  | .lit .null => some .null
  | .lit (.bool b) => some (.bool b)
  | .lit (.str s) => some (.str s)
  | .num (.int32 n) => some (.int n.toInt)
  | _ => none

/-- A tuple, or a record whose features are strings, without a label. -/
structure Record.IsPlain (r : Record) : Prop where
  label : r.label = .null
  features : r.isTuple = true ∨ ∀ f ∈ r.fields, ∃ s, f.feature = .str s

/-- A plain record that is no tuple has strings as its features. -/
theorem Record.IsPlain.strings {r : Record} (h : r.IsPlain) (htuple : r.isTuple = false) :
    ∀ f ∈ r.fields, ∃ s, f.feature = .str s :=
  h.features.resolve_left (Bool.eq_false_iff.mp htuple)

/-- The term is plain data, and nothing of it is inside more than `n` of its records. -/
inductive Store.Plain (σ : Store) : (n : Nat) → Term → Prop where
  | atom {n : Nat} {t : Term} {v : Value} {j : Json} (ht : σ.resolve t = .val v) (hv : v.plainDocument? = some j) :
      Plain σ n t
  | record {n : Nat} {t : Term} {r : RecordId} (ht : σ.resolve t = .val (.record r)) (hr : (σ.record r).IsPlain)
      (hfields : ∀ f ∈ (σ.record r).fields, Plain σ n f.value) : Plain σ (n + 1) t

namespace Value

variable {v w : Value} {j : Json}

/-- The document of plain data without parts is the document of nothing else of that kind. -/
theorem plainDocument?_injective (hv : v.plainDocument? = some j) (hw : w.plainDocument? = some j) : v = w := by
  unfold plainDocument? at hv hw
  split at hv <;> split at hw <;> grind [Int32.toInt_inj]

/-- What has a document by itself is no record. -/
theorem not_record_of_plainDocument? (hv : v.plainDocument? = some j) (r : RecordId) : v ≠ .record r := by
  rintro rfl
  cases hv

theorem isFloat_of_plainDocument? (hv : v.plainDocument? = some j) : v.isFloat = false := by
  unfold plainDocument? at hv
  split at hv <;> first | rfl | cases hv

theorem sameAtom_of_plainDocument? (hv : v.plainDocument? = some j) : v.sameAtom v = true :=
  sameAtom_self (isFloat_of_plainDocument? hv) (not_record_of_plainDocument? hv)

end Value

/-! ## Documents by paths -/

namespace Json

/-- What a feature leads to in a document: an integer to an item, and a string to a member. -/
def child? : Json → Feature → Option Json
  | .arr items, .int n => if n < 0 then none else items[n.toNatClampNeg]?
  | .obj members, .str s => members.lookup s
  | _, _ => none

/-- What a path of features leads to in a document. -/
def follow? : Json → List Feature → Option Json
  | j, [] => some j
  | j, f :: path => (j.child? f).bind fun k => k.follow? path

variable {name : String} {j : Json} {members : List (String × Json)}

/-- A name after all others is put at the end. -/
theorem insertMember_last (h : ∀ m ∈ members, m.1 < name) : insertMember name j members = members ++ [(name, j)] := by
  induction members with
  | nil => rfl
  | cons m rest ih =>
    have hm : m.1 < name := h m List.mem_cons_self
    rw [insertMember, if_neg hm.asymm, if_neg hm.ne', ih fun n hn => h n (List.mem_cons_of_mem m hn), List.cons_append]

/-- Members in ascending order are all kept, as they are. -/
theorem sortedObj_of_pairwise (h : members.Pairwise fun m n => m.1 < n.1) : sortedObj members = .obj members := by
  have hfold : ∀ rest sorted : List (String × Json), (sorted ++ rest).Pairwise (fun m n => m.1 < n.1) →
      rest.foldl (fun sorted m => insertMember m.1 m.2 sorted) sorted = sorted ++ rest := by
    intro rest
    induction rest with
    | nil => exact fun sorted _ => (List.append_nil sorted).symm
    | cons m rest ih =>
      intro sorted hasc
      have hlast : ∀ n ∈ sorted, n.1 < m.1 := fun n hn => (List.pairwise_append.mp hasc).2.2 n hn m List.mem_cons_self
      have hinsert : insertMember m.1 m.2 sorted = sorted ++ [m] := insertMember_last hlast
      rw [List.append_cons] at hasc ⊢
      rw [List.foldl_cons, ← ih _ hasc, ← hinsert]
  have hdef : sortedObj members = .obj (members.foldl (fun sorted m => insertMember m.1 m.2 sorted) []) := rfl
  rw [hdef, hfold members [] h, List.nil_append]

end Json

/-! ## Features of tuples and of other records -/

namespace Record

variable {r s : Record} {f : Feature} {fields : List Field}

/-- In a sorted record, the binary search finds what looking at the fields one by one finds. -/
theorem Ascending.select?_eq_find? (h : r.Ascending) (f : Feature) :
    r.select? f = (r.fields.find? fun g => g.feature = f).map Field.value := by
  cases hfind : r.fields.find? (fun g => g.feature = f) with
  | none =>
    exact h.select?_eq_none_iff.mpr fun g hg hgf => List.find?_eq_none.mp hfind g hg (decide_eq_true hgf)
  | some g =>
    have hg := List.find?_some hfind
    obtain rfl : g.feature = f := of_decide_eq_true hg
    exact h.select?_eq_some_iff.mpr (List.mem_of_find?_eq_some hfind)

/-- The features of enumerated fields are their positions, counted from where the enumeration starts. -/
theorem feature_of_enumeratedFrom {i k : Nat} {g : Field} (h : enumeratedFrom i fields = true)
    (hg : fields[k]? = some g) : g.feature = .position (i + k) := by
  induction fields generalizing i k with
  | nil => cases hg
  | cons first rest ih =>
    obtain ⟨hfirst, hrest⟩ := Bool.and_eq_true_iff.mp h
    cases k with
    | zero =>
      obtain rfl := Option.some.inj hg
      exact of_decide_eq_true hfirst
    | succ k =>
      rw [ih hrest hg]
      congr 1
      omega

/-- What is at a place of a tuple has the number of the place for its feature. -/
theorem feature_of_isTuple {k : Nat} {g : Field} (h : r.isTuple = true) (hg : r.fields[k]? = some g) :
    g.feature = .position k := by
  rw [feature_of_enumeratedFrom h hg, Nat.zero_add]

/-- Whether a record is a tuple depends on its features alone. -/
theorem isTuple_congr (h : r.fields.map Field.feature = s.fields.map Field.feature) : r.isTuple = s.isTuple := by
  -- on the fields, for an enumeration that starts anywhere
  have hfrom : ∀ (fs gs : List Field) i, fs.map Field.feature = gs.map Field.feature →
      enumeratedFrom i fs = enumeratedFrom i gs := by
    intro fs
    induction fs with
    | nil =>
      intro gs i h
      rw [List.map_eq_nil_iff.mp h.symm]
    | cons f fs ih =>
      intro gs i h
      cases gs with
      | nil => cases h
      | cons g gs =>
        obtain ⟨hfg, hrest⟩ := List.cons.inj h
        rw [enumeratedFrom, enumeratedFrom, hfg, ih gs (i + 1) hrest]
  exact hfrom _ _ 0 h

/-- Tuples of one length have the same features. -/
theorem features_eq_of_isTuple (hr : r.isTuple = true) (hs : s.isTuple = true) (h : r.fields.length = s.fields.length) :
    r.fields.map Field.feature = s.fields.map Field.feature := by
  refine List.ext_getElem (by simpa using h) fun k hk hk' => ?_
  rw [List.getElem_map, List.getElem_map, feature_of_isTuple hr (List.getElem?_eq_getElem _),
    feature_of_isTuple hs (List.getElem?_eq_getElem _)]

/-- In a tuple that is in order an integer selects what is at the place with that number. -/
theorem Ascending.select?_of_isTuple (h : r.Ascending) (htuple : r.isTuple = true) (n : Int64) :
    r.select? (.int n) = if n < 0 then none else r.fields[n.toNatClampNeg]?.map Field.value := by
  have hnumber : ∀ {k : Nat} {g : Field}, r.fields[k]? = some g → g.feature = .int n → Int64.ofNat k = n := fun hg hgn =>
    Feature.int.inj ((feature_of_isTuple htuple hg).symm.trans hgn)
  by_cases hn : n < 0
  · rw [if_pos hn]
    refine h.select?_eq_none_iff.mpr fun g hg hgn => ?_
    obtain ⟨k, hk⟩ := List.mem_iff_getElem?.mp hg
    -- what has a negative number would come after the first component, whose number is zero
    cases k with
    | zero => exact Int64.lt_irrefl (hnumber hk hgn ▸ hn)
    | succ k =>
      obtain ⟨hlt, rfl⟩ := List.getElem?_eq_some_iff.mp hk
      have hzero : r.fields[0].feature = .position 0 := feature_of_isTuple htuple (List.getElem?_eq_getElem _)
      have hbefore := List.pairwise_iff_getElem.mp (List.pairwise_map.mp h) 0 (k + 1) (by omega) hlt (Nat.succ_pos k)
      rw [hzero, hgn] at hbefore
      exact Int64.lt_asymm hn hbefore
  · rw [if_neg hn]
    have hpos : Int64.ofNat n.toNatClampNeg = n := n.ofNat_toNatClampNeg (Int64.not_lt.mp hn)
    cases hget : r.fields[n.toNatClampNeg]? with
    | none =>
      refine h.select?_eq_none_iff.mpr fun g hg hgn => ?_
      obtain ⟨k, hk⟩ := List.mem_iff_getElem?.mp hg
      have hlt : k < n.toNatClampNeg :=
        Nat.lt_of_lt_of_le (List.getElem?_eq_some_iff.mp hk).1 (List.getElem?_eq_none_iff.mp hget)
      have hk' : (Int64.ofNat k).toNatClampNeg = k := Int64.toNatClampNeg_ofNat_of_lt (hlt.trans n.toNatClampNeg_lt)
      rw [hnumber hk hgn] at hk'
      exact Nat.lt_irrefl k (hk' ▸ hlt)
    | some g =>
      have hfeature : g.feature = .int n := by rw [feature_of_isTuple htuple hget, Feature.position, hpos]
      rw [← hfeature, h.select?_eq hget, Option.map_some]

end Record

namespace Store

variable {r s : Record}

/-! ## Documents of records -/

/-- A tuple becomes an array. -/
theorem recordToJson_of_isTuple (hr : r.label = .null) (htuple : r.isTuple = true) (values : List Json) :
    recordToJson r values = .arr values := by
  rw [recordToJson, htuple, hr]
  rfl

/-- A record whose features are strings has a member for each of its fields, in their order. -/
theorem recordToJson_of_strings (hr : r.label = .null) (htuple : r.isTuple = false) (hasc : r.Ascending)
    (hstr : ∀ f ∈ r.fields, ∃ s, f.feature = .str s) (document : Term → Json) :
    recordToJson r (r.fields.map fun f => document f.value) =
      .obj (r.fields.map fun f => (f.feature.keyText, document f.value)) := by
  have hmembers : (r.fields.map fun f => (f.feature.keyText, document f.value)).Pairwise fun m n => m.1 < n.1 := by
    refine List.pairwise_map.mpr ((List.pairwise_map.mp hasc).imp_of_mem fun {f g} hf hg hfg => ?_)
    obtain ⟨a, ha⟩ := hstr f hf
    obtain ⟨b, hb⟩ := hstr g hg
    rw [ha, hb] at hfg ⊢
    exact hfg
  rw [← Json.sortedObj_of_pairwise hmembers, recordToJson, htuple, hr]
  simp [List.zip_map']

/-- Strings for features are found again in the names of members. -/
theorem features_of_strings (h : ∀ f ∈ r.fields, ∃ s, f.feature = .str s) :
    r.fields.map Field.feature = (r.fields.map fun f => f.feature.keyText).map Feature.str := by
  rw [List.map_map]
  refine List.map_congr_left fun f hf => ?_
  obtain ⟨s, hs⟩ := h f hf
  rw [Function.comp_apply, hs, Feature.keyText]

/-- **The document of a plain record** shows which features the record has and what the documents of its values are. -/
theorem recordToJson_injective (hr : r.IsPlain) (hs : s.IsPlain) (hra : r.Ascending) (hsa : s.Ascending)
    {document : Term → Json}
    (h : recordToJson r (r.fields.map fun f => document f.value) = recordToJson s (s.fields.map fun f => document f.value)) :
    r.sameShape s = true ∧ (r.fields.map fun f => document f.value) = s.fields.map fun f => document f.value := by
  have hlabel : r.label = s.label := hr.label.trans hs.label.symm
  -- a tuple gives an array and any other record an object, so both are of one kind
  cases hrt : r.isTuple with
  | true =>
    rw [recordToJson_of_isTuple hr.label hrt] at h
    cases hst : s.isTuple with
    | true =>
      rw [recordToJson_of_isTuple hs.label hst] at h
      have hdocuments := Json.arr.inj h
      -- of tuples, the number of fields says which features they have
      have hlength : r.fields.length = s.fields.length := by simpa using congrArg List.length hdocuments
      exact ⟨Record.sameShape_iff.mpr ⟨hlabel, Record.features_eq_of_isTuple hrt hst hlength⟩, hdocuments⟩
    | false =>
      rw [recordToJson_of_strings hs.label hst hsa (hs.strings hst)] at h
      cases h
  | false =>
    rw [recordToJson_of_strings hr.label hrt hra (hr.strings hrt)] at h
    cases hst : s.isTuple with
    | true =>
      rw [recordToJson_of_isTuple hs.label hst] at h
      cases h
    | false =>
      rw [recordToJson_of_strings hs.label hst hsa (hs.strings hst)] at h
      have hmembers := Json.obj.inj h
      -- the members give the names and the documents of the fields
      have hnames := congrArg (List.map Prod.fst) hmembers
      have hdocuments := congrArg (List.map Prod.snd) hmembers
      simp only [List.map_map, Function.comp_def] at hnames hdocuments
      refine ⟨Record.sameShape_iff.mpr ⟨hlabel, ?_⟩, hdocuments⟩
      rw [features_of_strings (hr.strings hrt), features_of_strings (hs.strings hst), hnames]

/-- In an object that is made of a record with named fields, a name is looked up by looking for its feature. -/
theorem lookup_names {fields : List Field} (h : ∀ f ∈ fields, ∃ s, f.feature = .str s) (name : String)
    (document : Term → Json) :
    (fields.map fun f => (f.feature.keyText, document f.value)).lookup name =
      (fields.find? fun g => g.feature = .str name).map fun g => document g.value := by
  induction fields with
  | nil => rfl
  | cons f fields ih =>
    obtain ⟨s, hs⟩ := h f List.mem_cons_self
    rw [List.map_cons, List.lookup_cons, List.find?_cons, hs, Feature.keyText,
      ih fun g hg => h g (List.mem_cons_of_mem f hg)]
    -- a name is found at the first field that has it, on either side
    by_cases hname : name = s
    · simp [hname]
    · rw [beq_false_of_ne hname]
      simp [Ne.symm hname]

/-- A feature leads from the document of a plain record to the document of what it selects. -/
theorem child?_recordToJson (hr : r.IsPlain) (hasc : r.Ascending) (document : Term → Json) (f : Feature) :
    (recordToJson r (r.fields.map fun f => document f.value)).child? f = (r.select? f).map document := by
  cases htuple : r.isTuple with
  | true =>
    rw [recordToJson_of_isTuple hr.label htuple]
    -- an array is looked into by positions only
    by_cases hint : ∃ n, f = .int n
    · obtain ⟨n, rfl⟩ := hint
      rw [hasc.select?_of_isTuple htuple, Json.child?]
      split
      · rfl
      · rw [List.getElem?_map, Option.map_map]
        rfl
    · have hnone : r.select? f = none := by
        refine hasc.select?_eq_none_iff.mpr fun g hg hgf => ?_
        obtain ⟨k, hk⟩ := List.mem_iff_getElem?.mp hg
        exact hint ⟨_, hgf.symm.trans (Record.feature_of_isTuple htuple hk)⟩
      rw [hnone]
      cases f with
      | int n => exact absurd ⟨n, rfl⟩ hint
      | str | bool | eof | null | token => rfl
  | false =>
    have hstr := hr.strings htuple
    rw [recordToJson_of_strings hr.label htuple hasc hstr]
    -- an object is looked into by names only
    by_cases hname : ∃ s, f = .str s
    · obtain ⟨s, rfl⟩ := hname
      rw [hasc.select?_eq_find?, Json.child?, lookup_names hstr, Option.map_map]
      rfl
    · have hnone : r.select? f = none := by
        refine hasc.select?_eq_none_iff.mpr fun g hg hgf => ?_
        obtain ⟨s, hs⟩ := hstr g hg
        exact hname ⟨s, hgf.symm.trans hs⟩
      rw [hnone]
      cases f with
      | str s => exact absurd ⟨s, rfl⟩ hname
      | int | bool | eof | null | token => rfl

/-! ## Documents of plain data -/

/-- The document of a term. -/
def document (σ : Store) (t : Term) : Json := σ.toJsonWithin (exportDepth + 1) t

variable {σ : Store} {t u : Term} {n m : Nat}

namespace Plain

/-- Being plain within a depth is being plain within every larger one. -/
theorem mono (h : σ.Plain n t) (hnm : n ≤ m) : σ.Plain m t := by
  induction h generalizing m with
  | atom ht hv => exact .atom ht hv
  | record ht hr _ ih =>
    cases m with
    | zero => exact absurd hnm (Nat.not_succ_le_zero _)
    | succ m => exact .record ht hr fun f hf => ih f hf (Nat.le_of_succ_le_succ hnm)

/-- A plain record has plain fields, with one level less for them. -/
theorem of_record {r : RecordId} (h : σ.Plain n t) (ht : σ.resolve t = .val (.record r)) :
    (σ.record r).IsPlain ∧ ∃ m, n = m + 1 ∧ ∀ f ∈ (σ.record r).fields, σ.Plain m f.value := by
  cases h with
  | atom ht' hv =>
    cases ht.symm.trans ht'
    cases hv
  | @record n _ r' ht' hr hfields =>
    cases ht.symm.trans ht'
    exact ⟨hr, n, rfl, hfields⟩

/-- The fields of a plain record are plain, within the same depth. -/
theorem field {r : RecordId} (h : σ.Plain n t) (ht : σ.resolve t = .val (.record r)) {f : Field}
    (hf : f ∈ (σ.record r).fields) : σ.Plain n f.value := by
  obtain ⟨-, m, rfl, hfields⟩ := h.of_record ht
  exact (hfields f hf).mono (Nat.le_succ m)

end Plain

theorem toJsonWithin_of_plainDocument? {v : Value} {j : Json} (ht : σ.resolve t = .val v)
    (hv : v.plainDocument? = some j) : σ.toJsonWithin (n + 1) t = j := by
  unfold Value.plainDocument? at hv
  split at hv <;> cases hv <;> simp only [toJsonWithin, ht, Num.toJson]

/-- A record becomes what its fields become, each within one level less. -/
theorem toJsonWithin_of_record {r : RecordId} (ht : σ.resolve t = .val (.record r)) :
    σ.toJsonWithin (n + 1) t =
      recordToJson (σ.record r) ((σ.record r).fields.map fun f => σ.toJsonWithin n f.value) := by
  simp only [toJsonWithin, ht]

/-- **Nothing is elided** where there are enough levels, so it does not matter how many there are. -/
theorem Plain.toJsonWithin_eq (h : σ.Plain n t) {levels levels' : Nat} (hn : n < levels) (hn' : n < levels') :
    σ.toJsonWithin levels t = σ.toJsonWithin levels' t := by
  induction h generalizing levels levels' with
  | atom ht hv =>
    obtain ⟨levels, rfl⟩ := Nat.exists_eq_add_one.mpr (Nat.zero_lt_of_lt hn)
    obtain ⟨levels', rfl⟩ := Nat.exists_eq_add_one.mpr (Nat.zero_lt_of_lt hn')
    rw [toJsonWithin_of_plainDocument? ht hv, toJsonWithin_of_plainDocument? ht hv]
  | record ht _ _ ih =>
    obtain ⟨levels, rfl⟩ := Nat.exists_eq_add_one.mpr (Nat.zero_lt_of_lt hn)
    obtain ⟨levels', rfl⟩ := Nat.exists_eq_add_one.mpr (Nat.zero_lt_of_lt hn')
    rw [toJsonWithin_of_record ht, toJsonWithin_of_record ht]
    congr 1
    exact List.map_congr_left fun f hf => ih f hf (Nat.lt_of_succ_lt_succ hn) (Nat.lt_of_succ_lt_succ hn')

/-- The document of a plain record is put together from the documents of its fields: the bound on the depth has no say in it.
-/
theorem document_of_record {r : RecordId} (h : σ.Plain exportDepth t) (ht : σ.resolve t = .val (.record r)) :
    σ.document t = recordToJson (σ.record r) ((σ.record r).fields.map fun f => σ.document f.value) := by
  obtain ⟨-, m, hm, hfields⟩ := h.of_record ht
  rw [document, toJsonWithin_of_record ht]
  refine congrArg _ (List.map_congr_left fun f hf => (hfields f hf).toJsonWithin_eq ?_ ?_) <;> omega

/-- Terms that stand for one thing have one document. -/
theorem document_congr (h : σ.resolve t = σ.resolve u) : σ.document t = σ.document u := by
  rw [document, document, toJsonWithin, toJsonWithin, h]

/-! ## Equality -/

/-- What an object or an array is the document of has parts. -/
theorem recordToJson_ne_plainDocument {r : Record} {v : Value} {j : Json} (hv : v.plainDocument? = some j)
    (values : List Json) : recordToJson r values ≠ j := by
  rintro rfl
  unfold Value.plainDocument? recordToJson Json.sortedObj at hv
  split at hv <;> split at hv <;> cases hv

/-- Plain data with one document agrees, given that the records with one document are related. -/
theorem agrees_of_document_eq {E : RecordId → RecordId → Prop} (ht : σ.Plain n t) (hu : σ.Plain m u)
    (h : σ.document t = σ.document u)
    (hE : ∀ r s, σ.resolve t = .val (.record r) → σ.resolve u = .val (.record s) → E r s) :
    Agrees E (σ.resolve t) (σ.resolve u) := by
  -- atoms and records never have one document
  cases ht with
  | atom ht hv =>
    rw [document, toJsonWithin_of_plainDocument? ht hv] at h
    cases hu with
    | atom hu hw =>
      rw [document, toJsonWithin_of_plainDocument? hu hw] at h
      obtain rfl := h
      obtain rfl := Value.plainDocument?_injective hv hw
      rw [ht, hu]
      exact .atom (Value.sameAtom_of_plainDocument? hv)
    | record hu =>
      rw [document, toJsonWithin_of_record hu] at h
      exact absurd h.symm (recordToJson_ne_plainDocument hv _)
  | record ht =>
    cases hu with
    | atom hu hw =>
      rw [document, document, toJsonWithin_of_plainDocument? hu hw, toJsonWithin_of_record ht] at h
      exact absurd h (recordToJson_ne_plainDocument hw _)
    | record hu =>
      rw [ht, hu]
      exact .record (.inr (hE _ _ ht hu))

/-- Plain data with one document is equal. -/
theorem equal_of_document_eq (hσ : σ.Sorted) (ht : σ.Plain exportDepth t) (hu : σ.Plain exportDepth u)
    (h : σ.document t = σ.document u) : σ.Equal t u := by
  -- the records that are plain data and have one document
  let E : RecordId → RecordId → Prop := fun r s => ∃ t u, σ.resolve t = .val (.record r) ∧
    σ.resolve u = .val (.record s) ∧ σ.Plain exportDepth t ∧ σ.Plain exportDepth u ∧ σ.document t = σ.document u
  have hagrees : ∀ t u, σ.Plain exportDepth t → σ.Plain exportDepth u → σ.document t = σ.document u →
      Agrees E (σ.resolve t) (σ.resolve u) := fun t u ht hu htu =>
    agrees_of_document_eq ht hu htu fun r s hr hs => ⟨t, u, hr, hs, ht, hu, htu⟩
  refine ⟨E, ?_, hagrees t u ht hu h⟩
  rintro r s ⟨t, u, hr, hs, ht, hu, htu⟩
  rw [document_of_record ht hr, document_of_record hu hs] at htu
  obtain ⟨hshape, hdocuments⟩ := recordToJson_injective (ht.of_record hr).1 (hu.of_record hs).1 (hσ.record r)
    (hσ.record s) htu
  refine ⟨hshape, fun p hp => ?_⟩
  obtain ⟨i, f, g, hf, hg, rfl⟩ := Record.mem_sides.mp hp
  have hfg := congrArg (fun l => l[i]?) hdocuments
  simp only [List.getElem?_map, hf, hg, Option.map_some] at hfg
  exact hagrees _ _ (ht.field hr (List.mem_of_getElem? hf)) (hu.field hs (List.mem_of_getElem? hg))
    (Option.some.inj hfg)

/-- Of a record, the export only reads its shape and the documents of its fields. -/
theorem recordToJson_congr {r s : Record} (h : r.sameShape s = true) (values : List Json) :
    recordToJson r values = recordToJson s values := by
  obtain ⟨hlabel, hfeatures⟩ := Record.sameShape_iff.mp h
  have hnames : (r.fields.map fun f => f.feature.keyText) = s.fields.map fun f => f.feature.keyText := by
    have := congrArg (List.map Feature.keyText) hfeatures
    rwa [List.map_map, List.map_map] at this
  rw [recordToJson, recordToJson, Record.isTuple_congr hfeatures, hlabel, hnames]

/-- Equal plain data has one document. -/
theorem toJsonWithin_of_equal (ht : σ.Plain n t) (h : σ.Equal t u) {levels : Nat} (hn : n < levels) :
    σ.toJsonWithin levels t = σ.toJsonWithin levels u := by
  -- along the plain term, whose parts are plain within one level less
  induction ht generalizing levels u with
  | @atom n t v j ht hv =>
    obtain ⟨levels, rfl⟩ := Nat.exists_eq_add_one.mpr (Nat.zero_lt_of_lt hn)
    obtain ⟨E, -, hag⟩ := h
    generalize hu : σ.resolve u = u' at hag
    rw [ht] at hag
    cases hag with
    | record => cases hv
    | @atom _ w hsame =>
      -- equal atoms that are no decimals are one value
      have hleaf := (Value.sameAtom_iff (Value.isFloat_of_plainDocument? hv) (Value.not_record_of_plainDocument? hv)).mp hsame
      rcases hleaf with rfl | ⟨a, b, rfl, -⟩
      · rw [toJsonWithin_of_plainDocument? ht hv, toJsonWithin_of_plainDocument? hu hv]
      · cases hv
  | @record n t r ht _ hfields ih =>
    obtain ⟨levels, rfl⟩ := Nat.exists_eq_add_one.mpr (Nat.zero_lt_of_lt hn)
    obtain ⟨s, hs⟩ : ∃ s, σ.resolve u = .val (.record s) := by
      obtain ⟨E, -, hag⟩ := h
      rw [ht] at hag
      generalize σ.resolve u = u' at hag
      cases hag with
      | record => exact ⟨_, rfl⟩
      | atom hsame => exact absurd hsame (Value.not_sameAtom_record r _)
    have hrs : σ.Equal (.val (.record r)) (.val (.record s)) := h.congr ht hs
    rw [toJsonWithin_of_record ht, toJsonWithin_of_record hs]
    rcases hrs.record with rfl | ⟨hshape, hsides⟩
    · rfl
    · rw [recordToJson_congr hshape]
      have hlength : (σ.record r).fields.length = (σ.record s).fields.length := by
        simpa using congrArg List.length (Record.sameShape_iff.mp hshape).2
      -- the fields at one position are a pair of sides
      refine congrArg _ (List.ext_getElem (by simpa using hlength) fun i hi hi' => ?_)
      rw [List.length_map] at hi hi'
      rw [List.getElem_map, List.getElem_map]
      have hside := Record.mem_sides.mpr ⟨i, _, _, List.getElem?_eq_getElem hi, List.getElem?_eq_getElem hi', rfl⟩
      exact ih _ (List.getElem_mem hi) (hsides _ hside) (Nat.lt_of_succ_lt_succ hn)

/-! ## Paths -/

/-- **The parts of a document** are the documents of the parts. The document of an atom has none. -/
theorem child?_document (hσ : σ.Sorted) (h : σ.Plain exportDepth t) (f : Feature) :
    (σ.document t).child? f = (σ.child? t f).map σ.document := by
  by_cases hrecord : ∃ r, σ.resolve t = .val (.record r)
  · obtain ⟨r, hr⟩ := hrecord
    rw [document_of_record h hr, child?_recordToJson (h.of_record hr).1 (hσ.record r), child?, hr]
  -- what is not a record is an atom that has a document of its own
  · obtain ⟨v, j, hv, hj⟩ : ∃ v j, σ.resolve t = .val v ∧ v.plainDocument? = some j := by
      cases h with
      | atom ht hv => exact ⟨_, _, ht, hv⟩
      | record ht => exact absurd ⟨_, ht⟩ hrecord
    have hnone : σ.child? t f = none := Option.eq_none_iff_forall_ne_some.mpr fun u hu =>
      hrecord ((child?_eq_some.mp hu).imp fun _ => And.left)
    rw [hnone, document, toJsonWithin_of_plainDocument? hv hj]
    unfold Value.plainDocument? at hj
    split at hj <;> cases hj <;> rfl

/-- A path leads from the document of plain data to the document of what it leads to. -/
theorem follow?_document (hσ : σ.Sorted) (h : σ.Plain exportDepth t) (path : List Feature) :
    (σ.document t).follow? path = (σ.follow? t path).map σ.document := by
  induction path generalizing t with
  | nil => rfl
  | cons f path ih =>
    rw [Json.follow?, follow?, child?_document hσ h]
    cases hu : σ.child? t f with
    | none => rfl
    | some u =>
      obtain ⟨r, hr, hselect⟩ := child?_eq_some.mp hu
      exact ih (h.field hr (Record.mem_of_select? hselect))

/-! ## The document of a value -/

/-- **The export of plain data is unambiguous.** Two values that are plain data, with nothing inside more than 64 of their
records, have one document exactly if they are equal for programs. And a path of features leads to something in the
document of such a value exactly if it does so in the value, namely to the document of what is there. -/
theorem toJson_unambiguous {v w : Value} (hσ : σ.Closed) (hsorted : σ.Sorted) (hv : v.In σ) (hw : w.In σ)
    (hpv : σ.Plain exportDepth (.val v)) (hpw : σ.Plain exportDepth (.val w)) :
    (σ.toJson v = σ.toJson w ↔ Action.entails (.val v) (.val w) σ = .ok true σ) ∧
    ∀ path, (σ.toJson v).follow? path = (σ.follow? (.val v) path).map σ.document := by
  refine ⟨?_, follow?_document hsorted hpv⟩
  have hin : Term.In σ (.val v) ∧ Term.In σ (.val w) := ⟨hv, hw⟩
  have hanswer : Action.entails (.val v) (.val w) σ = .ok true σ ↔ σ.Equal (.val v) (.val w) :=
    entails_eq_ok_iff.trans (compare_eq_equal hσ hin.1 hin.2)
  rw [hanswer]
  exact ⟨equal_of_document_eq hsorted hpv hpw, fun h => toJsonWithin_of_equal hpv h (Nat.lt_succ_self _)⟩

/-- Two records with one tuple in them, in the second of them through a variable. -/
def twins : Store where
  vars := #[.bound (.record 0)]
  records := #[.tuple .null [.val (.lit (.str "b")), .val (.num (.int32 7))],
    { label := .null, fields := [⟨.str "a", .val (.record 0)⟩] },
    { label := .null, fields := [⟨.str "a", .var 0⟩] }]

theorem twins_resolve : twins.resolve (.var 0) = .val (.record 0) := resolveVar_of_getElem? rfl

theorem twins_record {r : Record} (hr : r ∈ twins.records) :
    r = twins.record 0 ∨ r = twins.record 1 ∨ r = twins.record 2 := by
  have hmem : r ∈ [twins.record 0, twins.record 1, twins.record 2] := hr.val
  simpa only [List.mem_cons, List.not_mem_nil, or_false] using hmem

/-- The store of the twins is closed. -/
theorem twins_closed : twins.Closed := by
  refine ⟨fun x s hs => ?_, fun r hr f hf => ?_, ?_, ?_, ?_, ?_, ?_, ?_⟩
  · match x, s, hs with
    | 0, _, rfl => exact Nat.succ_pos 2
  -- a pair of literals, and two records that refer to it
  · rcases twins_record hr with rfl | rfl | rfl
    · rcases List.mem_pair.mp hf with rfl | rfl <;> trivial
    · obtain rfl := List.mem_singleton.mp hf
      exact Nat.succ_pos 2
    · obtain rfl := List.mem_singleton.mp hf
      exact Nat.one_pos
  all_goals simp [twins]

theorem twins_sorted : twins.Sorted := by
  intro r hr
  rcases twins_record hr with rfl | rfl | rfl
  · exact Record.ascending_tuple .null (Nat.le_of_lt (by decide))
  · exact List.pairwise_singleton _ _
  · exact List.pairwise_singleton _ _

/-- Either twin can be exported: it has a named field with a pair of atoms in it. -/
theorem twins_plain {r : RecordId} {t : Term} (hr : twins.record r = ⟨.null, [⟨.str "a", t⟩]⟩)
    (ht : twins.resolve t = .val (.record 0)) : twins.Plain exportDepth (.val (.record r)) := by
  have htuple : twins.Plain 1 t := by
    refine .record ht ⟨rfl, .inl rfl⟩ fun f hf => ?_
    rcases List.mem_pair.mp hf with rfl | rfl
    · exact .atom rfl rfl
    · exact .atom rfl rfl
  -- two levels are enough, and the bound for exports is higher
  refine Plain.mono (n := 2) (.record rfl ⟨by rw [hr], .inr fun f hf => ?_⟩ fun f hf => ?_) (by decide)
  all_goals
    rw [hr] at hf
    obtain rfl := List.mem_singleton.mp hf
  · exact ⟨"a", rfl⟩
  · exact htuple

/-- The two records have one document, so they are equal, and what is in the tuple is found there. -/
theorem toJson_unambiguous_twins :
    twins.Closed ∧ twins.Sorted ∧ twins.Plain exportDepth (.val (.record 1)) ∧
      twins.Plain exportDepth (.val (.record 2)) ∧ twins.toJson (.record 1) = twins.toJson (.record 2) ∧
      Action.entails (.val (.record 1)) (.val (.record 2)) twins = .ok true twins ∧
      (twins.toJson (.record 1)).follow? [.str "a", .position 1] = some (.int 7) := by
  have hfirst : twins.Plain exportDepth (.val (.record 1)) := twins_plain rfl rfl
  have hsecond : twins.Plain exportDepth (.val (.record 2)) := twins_plain rfl twins_resolve
  -- the second record has the shared part through a variable
  have hshared : twins.document (.var 0) = twins.document (.val (.record 0)) := document_congr twins_resolve
  have hsame : twins.toJson (.record 1) = twins.toJson (.record 2) :=
    calc twins.document (.val (.record 1)) =
          recordToJson (twins.record 1) [twins.document (.val (.record 0))] := document_of_record hfirst rfl
      _ = recordToJson (twins.record 2) [twins.document (.var 0)] := by
        rw [hshared]
        rfl
      _ = twins.document (.val (.record 2)) := (document_of_record hsecond rfl).symm
  have hfirst_in : Value.In twins (.record 1) := Nat.lt_of_succ_lt (Nat.lt_succ_self 2)
  have hsecond_in : Value.In twins (.record 2) := Nat.lt_succ_self 2
  obtain ⟨hequal, hfollow⟩ :=
    toJson_unambiguous twins_closed twins_sorted hfirst_in hsecond_in hfirst hsecond
  refine ⟨twins_closed, twins_sorted, hfirst, hsecond, hsame, hequal.mp hsame, ?_⟩
  have hselect : (twins.record 1).select? (.str "a") = some (.val (.record 0)) :=
    (twins_sorted.record 1).select?_eq (i := 0) rfl
  have hpart : (twins.record 0).select? (.position 1) = some (.val (.num (.int32 7))) :=
    (twins_sorted.record 0).select?_eq (i := 1) rfl
  have hpath : twins.follow? (.val (.record 1)) [.str "a", .position 1] = some (.val (.num (.int32 7))) :=
    follow?_cons.mpr ⟨_, hselect, follow?_cons.mpr ⟨_, hpart, rfl⟩⟩
  rw [hfollow, hpath]
  exact congrArg some (toJsonWithin_of_plainDocument? rfl rfl)

end Store

end Dataflow
