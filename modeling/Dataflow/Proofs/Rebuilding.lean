/-
Taking a record apart and putting it together again.

An iterator gives the feature of a field as a value, and a small integer feature becomes an `Int32` on the way; asked
for its feature, every such value gives back the feature that it was made from (`Value.toFeature_ofFeature`). So
operands that take the components of the pairs which an iterator has given (`Collected`) make up the fields of its
record. They may come in any order: building sorts, and a record in order is determined by its label and its set of
fields (`Record.build_of_perm`).

The values are taken as they stand when the new record is made, so it equals the old one as a term, although a variable
in it may have been replaced by its value (`Record.settled`).
-/
import Dataflow.Proofs.Iterating
import Dataflow.Proofs.Merging

set_option autoImplicit false

namespace Dataflow

/-! ## Features as values -/

namespace Value

/-- An integer feature is found again in its value, whichever of the two kinds it has. -/
theorem toFeature_ofInt64 (n : Int64) : (ofInt64 n).toFeature = .ok (.int n) := by
  rw [ofInt64]
  split
  · next h =>
    have hlow : -2 ^ 31 ≤ n.toInt := Int64.le_iff_toInt_le.mp h.1
    have hhigh : n.toInt ≤ 2 ^ 31 - 1 := Int64.le_iff_toInt_le.mp h.2
    have hback : n.toInt32.toInt64 = n := by
      rw [← Int64.toInt_inj, Int32.toInt_toInt64, Int64.toInt_toInt32]
      exact Int.bmod_eq_of_le (by omega) (by omega)
    simp only [toFeature, Num.integral?, hback]
  · rfl

/-- **A feature is found again in its value.** -/
theorem toFeature_ofFeature (f : Feature) : (ofFeature f).toFeature = .ok f := by
  cases f with
  | int n => exact toFeature_ofInt64 n
  | _ => rfl

/-- The value of a feature is no failure. -/
theorem ofFeature_ne_failed (f : Feature) (g : FailureId) : ofFeature f ≠ .failed g := by
  intro h
  have hfeature := toFeature_ofFeature f
  rw [h] at hfeature
  cases hfeature

end Value

/-! ## Records as they stand -/

/-- The record with its values as they stand: what has a value by now is replaced by it. -/
def Record.settled (r : Record) (σ : Store) : Record :=
  ⟨r.label, r.fields.map fun f => ⟨f.feature, σ.resolve f.value⟩⟩

namespace Record

variable {r s : Record} {σ : Store}

theorem features_settled (r : Record) (σ : Store) :
    (r.settled σ).fields.map Field.feature = r.fields.map Field.feature := by
  rw [settled, List.map_map]
  rfl

theorem Ascending.settled (h : r.Ascending) (σ : Store) : (r.settled σ).Ascending := by
  rw [Ascending, features_settled]
  exact h

/-- **Building finds the order again**: from the fields of a record in order, however they are permuted, it makes
that record. -/
theorem build_of_perm (hr : r.Ascending) {fields : List Field} (h : fields.Perm r.fields) :
    build r.label fields = .ok r := by
  obtain ⟨s, hs, hlabel, hperm, hasc⟩ | ⟨f, -, hdup⟩ := build_cases r.label fields
  · rw [hs, hasc.eq_of_perm hr hlabel (hperm.trans h)]
  · have hnodup : (fields.map Field.feature).Nodup := (h.map Field.feature).nodup_iff.mpr hr.nodup
    exact absurd hnodup hdup.not_nodup

end Record

/-- A record whose values are those of another record as they stood before equals it, unless there is a float among
them. -/
theorem Store.equal_settled {σ τ : Store} {q r : RecordId} (hq : τ.record q = (τ.record r).settled σ)
    (hsame : ∀ f ∈ (τ.record r).fields, τ.resolve (σ.resolve f.value) = τ.resolve f.value)
    (hfloat : ∀ f ∈ (τ.record r).fields, ∀ v, τ.resolve f.value = .val v → v.isFloat = false) :
    τ.Equal (.val (.record q)) (.val (.record r)) := by
  refine ⟨fun a b => a = q ∧ b = r, ?_, .record (.inr ⟨rfl, rfl⟩)⟩
  rintro a b ⟨ha, hb⟩
  rw [ha, hb, hq]
  refine ⟨Record.sameShape_iff.mpr ⟨rfl, Record.features_settled _ σ⟩, fun p hp => ?_⟩
  obtain ⟨n, f, g, hf, hg, rfl⟩ := Record.mem_sides.mp hp
  have hmem : g ∈ (τ.record r).fields := List.mem_of_getElem? hg
  rw [Record.settled, List.getElem?_map, hg] at hf
  obtain rfl := Option.some.inj hf
  refine .of_eq (hsame g hmem) fun v hv => hfloat g hmem v ?_
  rw [← hsame g hmem]
  exact hv

/-! ## Operands for the components of a pair -/

/-- The operands stand for what the feature `0` and the feature `1` of the record in a variable select. -/
def Takes (env : Env) (σ : Store) (operands : Operand × Operand) (x : VarId) : Prop :=
  ∃ q f t, σ.resolve (.var x) = .val (.record q) ∧
    σ.select (.record q) (.position 0) = .ok f ∧ σ.select (.record q) (.position 1) = .ok t ∧
    operands.1.term env σ = .ok (σ.resolve f) σ ∧ operands.2.term env σ = .ok (σ.resolve t) σ

/-- The operands stand for the components of the pairs that the calls before the first `eof` have given, pair by pair
in any order. -/
def Collected (env : Env) (σ : Store) (calls : List VarId) (pairs : List (Operand × Operand)) : Prop :=
  ∃ before last after taken, calls = before ++ last :: after ∧
    (∀ x ∈ before, σ.resolve (.var x) ≠ .val (.lit .eof)) ∧ σ.resolve (.var last) = .val (.lit .eof) ∧
    List.Forall₂ (Takes env σ) taken before ∧ pairs.Perm taken

section Components

variable {env : Env} {σ τ : Store} {i : IterId} {r : RecordId} {it : Iterator} {f : Field} {x : VarId}
  {calls : List VarId} {operands : Operand × Operand} {pairs : List (Operand × Operand)}

theorem Store.select_pair {q : RecordId} {a b : Term} (h : σ.record q = .tuple .null [a, b]) :
    σ.select (.record q) (.position 0) = .ok a ∧ σ.select (.record q) (.position 1) = .ok b := by
  have hasc : (Record.tuple .null [a, b]).Ascending := Record.ascending_tuple .null (Nat.le_of_ble_eq_true rfl)
  exact ⟨hasc.select_of_mem h List.mem_cons_self, hasc.select_of_mem h (List.mem_cons_of_mem _ List.mem_cons_self)⟩

/-- An operand has the value of its term, unless that is a failure. -/
theorem Operand.value_of_term {a : Operand} {v : Value} (h : a.term env σ = .ok (.val v) σ)
    (hv : ∀ g, v ≠ .failed g) : a.value env σ = .ok v σ := by
  rw [Operand.value, bind_apply, h]
  cases v with
  | failed g => exact absurd rfl (hv g)
  | _ => rfl

theorem Operand.term_of_unbound {a : Ident} (ha : env.find? a = some x) (hx : σ.Unbound x) :
    (Operand.ident a).term env σ = .ok (.var x) σ := by
  rw [← hx.resolveVar]
  simp only [Operand.term, Env.var, ha, bind_apply, pure, EStateM.pure, Action.read]

/-- The operands are such that `CreateRec` makes this field of them, with its value as it stands. -/
structure Operand.Makes (env : Env) (σ : Store) (operands : Operand × Operand) (f : Field) : Prop where
  feature : operands.1.value env σ = .ok (.ofFeature f.feature) σ
  value : operands.2.term env σ = .ok (σ.resolve f.value) σ

/-- Operands that make the fields of a list give back those fields. -/
theorem Env.fields_of_makes {fs : List Field} (h : List.Forall₂ (Operand.Makes env σ) pairs fs) :
    env.fields pairs σ = .ok (fs.map fun f => ⟨f.feature, σ.resolve f.value⟩) σ := by
  induction h with
  | nil => rfl
  | @cons operands f pairs fs hmakes _ ih =>
    obtain ⟨a, b⟩ := operands
    have hfeature : Action.ofExcept (Value.ofFeature f.feature).toFeature σ = .ok f.feature σ := by
      rw [Value.toFeature_ofFeature]
      rfl
    simp only [Env.fields, bind_apply, hmakes.feature, hfeature, hmakes.value, ih]
    rfl

/-- The components of the pair that an iterator gives for a field make the field. -/
theorem Takes.makes (htakes : Takes env σ operands x) {record : RecordId} {position n : Nat}
    (hyields : Iterator.Yields ⟨record, .fields, position⟩ σ n (.var x)) (hf : (σ.record record).fields[n]? = some f) :
    Operand.Makes env σ operands f := by
  obtain ⟨q, feature, value, hq, hfeature, hvalue, htake, hterm⟩ := htakes
  obtain ⟨item, hgives, hres⟩ := hyields
  simp only [Iterator.Gives, hf] at hgives
  obtain ⟨p, rfl, -, hp⟩ := hgives
  -- the record in the variable is the pair that the iterator has made
  have hqp : q = p := by
    rw [hq] at hres
    exact Value.record.inj (Term.val.inj hres)
  obtain ⟨h0, h1⟩ := Store.select_pair (hqp ▸ hp)
  cases hfeature.symm.trans h0
  cases hvalue.symm.trans h1
  exact ⟨Operand.value_of_term htake (Value.ofFeature_ne_failed f.feature), hterm⟩

/-- An iterator over fields gives `eof` behind the last field and not before. -/
theorem Iterator.Yields.eof_iff {record : RecordId} {position n : Nat}
    (h : Iterator.Yields ⟨record, .fields, position⟩ σ n (.var x)) :
    σ.resolve (.var x) = .val (.lit .eof) ↔ (σ.record record).count ≤ n := by
  obtain ⟨item, hgives, hres⟩ := h
  rw [hres, Record.count, ← List.getElem?_eq_none_iff]
  cases hf : (σ.record record).fields[n]? with
  | none =>
    simp only [Iterator.Gives, hf] at hgives
    simp [hgives, Store.resolve]
  | some f =>
    simp only [Iterator.Gives, hf] at hgives
    obtain ⟨q, rfl, -⟩ := hgives
    simp [Store.resolve]

/-- What has been collected from an iterator makes the fields of its record, in some order. -/
theorem Iterator.Walked.makes (h : Iterator.Walked ⟨r, .fields, 0⟩ i σ calls τ) (hr : r < σ.records.size)
    (hcollected : Collected env τ calls pairs) :
    ∃ fs, List.Forall₂ (Operand.Makes env τ) pairs fs ∧ fs.Perm (σ.record r).fields := by
  obtain ⟨before, last, after, taken, hcalls, hbefore, hlast, htaken, hperm⟩ := hcollected
  have hrecord : τ.record r = σ.record r := h.grows.record_eq hr
  have hfirst : ∀ n (hn : n < before.length), calls[n]? = some before[n] := fun n hn => by
    rw [hcalls, List.getElem?_append_left hn, List.getElem?_eq_getElem hn]
  have hend : calls[before.length]? = some last := by
    rw [hcalls, List.getElem?_append_right (Nat.le_refl _), Nat.sub_self, List.getElem?_cons_zero]
  -- the calls before the first `eof` are as many as there are fields
  have hcount : before.length = (τ.record r).fields.length := by
    refine Nat.le_antisymm (Nat.le_of_not_lt fun hlt => ?_) ((h.yields _ _ hend).2.eof_iff.mp hlast)
    have heof := (h.yields _ _ (hfirst _ hlt)).2.eof_iff.mpr (Nat.le_refl _)
    exact hbefore _ (List.getElem_mem hlt) heof
  rw [← hrecord]
  refine List.perm_comp_forall₂ hperm (List.forall₂_iff_get.mpr ⟨htaken.length_eq.trans hcount, fun n hn hn' => ?_⟩)
  have hb : n < before.length := htaken.length_eq ▸ hn
  have htakes : Takes env τ (taken.get ⟨n, hn⟩) (before.get ⟨n, hb⟩) := htaken.get hn hb
  exact htakes.makes (h.yields _ _ (hfirst n hb)).2 (List.getElem?_eq_getElem hn')

end Components

/-! ## The new record -/

section Rebuilding

variable {env : Env} {rest : Stack} {σ τ υ : Store} {i : IterId} {r : RecordId} {kind : IterKind}
  {calls : List VarId} {pairs : List (Operand × Operand)}

/-- A new record changes nothing about variables. -/
theorem Store.resolve_newRecord (σ : Store) (record : Record) (t : Term) :
    (σ.newRecord record).2.resolve t = σ.resolve t := by
  have hvars : (σ.newRecord record).2.vars = σ.vars := rfl
  exact resolve_of_vars_eq hvars t

/-- When a variable becomes a record, no term gets a value that is none. -/
theorem Store.val_of_assign_record (hσ : σ.Linked) {x q : Nat} (hx : σ.Unbound x) {t : Term} {v : Value}
    (hv : (σ.assign x (.record q)).resolve t = .val v) : (∃ q, v = .record q) ∨ σ.resolve t = .val v := by
  by_cases ht : σ.resolve t = .var x
  · rw [resolve_assign_of_eq hσ hx _ ht] at hv
    exact .inl ⟨q, (Term.val.inj hv).symm⟩
  · rw [resolve_assign_of_ne hσ hx _ ht] at hv
    exact .inr hv

/-- `CreateRec` makes a record of its operands and gives it to a target without a value. -/
theorem Context.execute_createRecord (ctx : Context) (rest : Stack) (record : Record) (hr : record.Ascending)
    {fs : List Field} (hmakes : List.Forall₂ (Operand.Makes env σ) pairs fs) (hperm : fs.Perm record.fields)
    {label : Option Operand} (hlabel : env.label label σ = .ok record.label σ) {y : Ident} {z w : VarId}
    (hy : env.find? y = some z) (hz : σ.resolve (.var z) = .var w) :
    ctx.execute env rest (.createRecord y label pairs) σ =
      .ok (.next rest) ((σ.newRecord (record.settled σ)).2.assign w (.record σ.records.size)) := by
  have hfields := Env.fields_of_makes hmakes
  have hbuild : Action.ofExcept (Record.build record.label (fs.map fun f => ⟨f.feature, σ.resolve f.value⟩)) σ =
      .ok (record.settled σ) σ := by
    have hsame := Record.build_of_perm (hr.settled σ) (hperm.map fun f => (⟨f.feature, σ.resolve f.value⟩ : Field))
    rw [show record.label = (record.settled σ).label from rfl, hsame]
    rfl
  let made := (σ.newRecord (record.settled σ)).2
  have htake : (Action.take fun σ' => σ'.newRecord (record.settled σ)) σ = .ok σ.records.size made := rfl
  have hbind : env.bind y (.record σ.records.size) made = .ok () (made.assign w (.record σ.records.size)) := by
    have hw : made.resolve (.var z) = .var w := (Store.resolve_newRecord σ _ (.var z)).trans hz
    have hunify := Store.unify_of_resolve_var (t := .val (.record σ.records.size)) hw rfl
    simp only [Env.bind, Env.var, hy, bind_apply, pure, EStateM.pure, Action.bindValue, Action.unify, Action.ofChange,
      hunify]
  simp only [execute, bind_apply, hlabel, hfields, hbuild, htake, hbind]
  rfl

/-- **Rebuilding a record.** Whatever operands make its fields, `CreateRec` gives the target a record that has them all,
and that equals the old one if it has the label, too, and no value is a float. -/
theorem Context.rebuild (ctx : Context) (hτ : τ.Closed) (henv : env.In τ) (hrest : rest.In τ) (hr : r < τ.records.size)
    (hasc : (τ.record r).Ascending) {fs : List Field} (hmakes : List.Forall₂ (Operand.Makes env τ) pairs fs)
    (hperm : fs.Perm (τ.record r).fields) {label : Option Operand} {l : Literal} (hlabel : env.label label τ = .ok l τ)
    {y : Ident} {z w : VarId} (hy : env.find? y = some z) (hz : τ.resolve (.var z) = .var w) :
    ∃ q υ, ctx.execute env rest (.createRecord y label pairs) τ = .ok (.next rest) υ ∧
      υ.resolve (.var z) = .val (.record q) ∧ υ.record q = Record.settled ⟨l, (τ.record r).fields⟩ τ ∧
      (l = (τ.record r).label →
        (∀ f ∈ (τ.record r).fields, ∀ v, τ.resolve f.value = .val v → v.isFloat = false) →
        Action.entails (.val (.record q)) (.val (.record r)) υ = .ok true υ) := by
  have hexecute := ctx.execute_createRecord rest ⟨l, (τ.record r).fields⟩ hasc hmakes hperm hlabel hy hz
  let new : Record := Record.settled ⟨l, (τ.record r).fields⟩ τ
  let made := (τ.newRecord new).2
  let υ := made.assign w (.record τ.records.size)
  have hw : τ.Unbound w := hτ.resolve_var (t := .var z) (henv.find? hy) hz
  have hwmade : made.Unbound w := hw
  have hlinked : made.Linked := hτ.linked
  have hsafe := ctx.execute_safe hτ henv hrest (.createRecord y label pairs)
  rw [Action.Safe, hexecute] at hsafe
  have hdeeds : τ.Deeds υ := hsafe.1
  have hυ : υ.Closed := hdeeds.closed hτ
  have hrecords : υ.records = made.records := Store.assign_records made w _
  have hnew : υ.record τ.records.size = new := by
    rw [Store.record, hrecords]
    exact Store.record_newRecord τ new
  have hold : υ.record r = τ.record r := hdeeds.grows.record_eq hr
  refine ⟨τ.records.size, υ, hexecute, ?_, hnew, fun hl hfloat => ?_⟩
  · exact Store.resolve_assign_of_eq hlinked hwmade _ ((Store.resolve_newRecord τ _ _).trans hz)
  · have hq : υ.record τ.records.size = (υ.record r).settled τ := by
      rw [hnew, hold, show new = Record.settled ⟨l, (τ.record r).fields⟩ τ from rfl, hl]
    have hsame : ∀ f ∈ (υ.record r).fields, υ.resolve (τ.resolve f.value) = υ.resolve f.value := fun f hf => by
      rw [hold] at hf
      have hin : f.value.In τ := hτ.record r f hf
      exact hdeeds.evolves.resolve_congr hτ (hτ.resolve hin) hin (Store.resolve_resolve hτ.linked _)
    have hstill : ∀ f ∈ (υ.record r).fields, ∀ v, υ.resolve f.value = .val v → v.isFloat = false := fun f hf v hv => by
      obtain ⟨q, rfl⟩ | hbefore := Store.val_of_assign_record hlinked hwmade hv
      · rfl
      · rw [Store.resolve_newRecord] at hbefore
        exact hfloat f (hold ▸ hf) v hbefore
    have hequal : υ.compare (.val (.record τ.records.size)) (.val (.record r)) = .equal := by
      refine (Store.compare_eq_equal hυ ?_ ?_).mpr (Store.equal_settled hq hsame hstill)
      · show τ.records.size < υ.records.size
        rw [hrecords]
        exact Nat.lt_of_lt_of_eq (Nat.lt_succ_self _) (Array.size_push _).symm
      · exact hdeeds.grows.value (v := .record r) hr
    simp only [Action.entails, bind_apply, Action.read, hequal]
    rfl

/-- **Iterating over a record loses nothing and invents nothing.** However the calls of a new iterator are interleaved
with anything else, as long as their targets have no value the `n`-th call gives the `n`-th field in the order of
features, as a pair or as its value alone, and all later calls give `eof`; the next call will do so, too. The pairs that
were given before the first `eof` make a record with the same fields, in whichever order they are put together, and
under the same label it equals the record that was taken apart if that holds no float. -/
theorem Interleaving.lossless (hσ : σ.Closed) (hit : σ.iterators[i]? = some ⟨r, kind, 0⟩) (hr : (σ.record r).Ascending)
    (h : Interleaving i σ calls τ) :
    τ.record r = σ.record r ∧
    (∀ n x, calls[n]? = some x → Iterator.Yields ⟨r, kind, 0⟩ τ n (.var x)) ∧
    (∀ (ctx : Context) (env : Env) (rest : Stack) (instr : Instr) (target : Operand) (x : VarId),
      env.In τ → rest.In τ → instr.Calls env τ (.proc (.iter i)) [target] → target.term env τ = .ok (.var x) τ →
      ∃ ρ, ctx.execute env rest instr τ = .ok (.next rest) ρ ∧
        Iterator.Yields ⟨r, kind, 0⟩ ρ calls.length (.var x)) ∧
    (kind = .fields →
      ∀ (ctx : Context) (env : Env) (rest : Stack) (pairs : List (Operand × Operand)) (label : Option Operand)
        (l : Literal) (y : Ident) (z w : VarId),
      env.In τ → rest.In τ → Collected env τ calls pairs → env.label label τ = .ok l τ →
      env.find? y = some z → τ.resolve (.var z) = .var w →
      ∃ q υ, ctx.execute env rest (.createRecord y label pairs) τ = .ok (.next rest) υ ∧
        υ.resolve (.var z) = .val (.record q) ∧ υ.record q = Record.settled ⟨l, (σ.record r).fields⟩ τ ∧
        (l = (σ.record r).label →
          (∀ f ∈ (σ.record r).fields, ∀ v, τ.resolve f.value = .val v → v.isFloat = false) →
          Action.entails (.val (.record q)) (.val (.record r)) υ = .ok true υ)) := by
  have hwalked := h.walked hσ hit rfl
  have hin : r < σ.records.size := hσ.iterators _ (Array.mem_of_getElem? hit)
  have hrecord : τ.record r = σ.record r := hwalked.grows.record_eq hin
  refine ⟨hrecord, fun n x hx => (hwalked.yields n x hx).2, ?_, ?_⟩
  · intro ctx env rest instr target x henv hrest hcalls htarget
    obtain ⟨ρ, hexecute, hnext⟩ := hwalked.call hin ctx henv hrest hcalls htarget
    exact ⟨ρ, hexecute, (hnext.yields calls.length x List.getElem?_concat_length).2⟩
  · rintro rfl ctx env rest pairs label l y z w henv hrest hcollected hlabel hy hz
    obtain ⟨fs, hmakes, hperm⟩ := hwalked.makes hin hcollected
    rw [← hrecord] at hr hperm ⊢
    have hinτ : r < τ.records.size := hwalked.grows.value (v := .record r) hin
    exact ctx.rebuild hwalked.closed henv hrest hinτ hr hmakes hperm hlabel hy hz

end Rebuilding

/-- A store with an iterator over a record of two fields, one of them under an integer that no `Int32` holds, and with
variables for what it gives. -/
def Store.unread : Store :=
  { vars := #[.bound (.proc (.iter 0)), .unbound [], .unbound [], .unbound [], .unbound []]
    records := #[⟨.null, [⟨.str "k", .val (.lit (.bool true))⟩, ⟨.int 5000000000, .val (.lit (.str "a"))⟩]⟩]
    iterators := #[⟨0, .fields, 0⟩] }

/-- The same store after three calls. -/
def Store.readOut : Store :=
  { vars := #[.bound (.proc (.iter 0)), .bound (.record 1), .bound (.record 2), .bound (.lit .eof), .unbound []]
    records := #[⟨.null, [⟨.str "k", .val (.lit (.bool true))⟩, ⟨.int 5000000000, .val (.lit (.str "a"))⟩]⟩,
      .tuple .null [.val (.lit (.str "k")), .val (.lit (.bool true))],
      .tuple .null [.val (.num (.int64 5000000000)), .val (.lit (.str "a"))]]
    iterators := #[⟨0, .fields, 2⟩] }

/-- The store before the first item is read has no dangling reference. -/
theorem Store.unread_closed : unread.Closed where
  vars x s hs := by
    match x, s, hs with
    | 0, _, rfl => exact Nat.zero_lt_one
    | 1, _, rfl | 2, _, rfl | 3, _, rfl | 4, _, rfl => exact fun k hk => absurd hk List.not_mem_nil
  records r hr f hf := by
    obtain rfl := Array.mem_singleton.mp hr
    rcases List.mem_pair.mp hf with rfl | rfl
    · trivial
    · trivial
  iterators it hit := by
    obtain rfl := Array.mem_singleton.mp hit
    exact Nat.zero_lt_one
  closures := by simp [unread]
  configs := by simp [unread]
  failures := by simp [unread]
  cells := by simp [unread]
  effects := by simp [unread]

/-- A call that gives a value assigns it to the target. -/
theorem Interleaving.call_val {i : IterId} {σ τ ρ : Store} {calls : List VarId} (h : Interleaving i σ calls τ)
    (ctx : Context) {instr : Instr} {env : Env} {target : Operand} {x : VarId} {v : Value} (henv : env.In τ)
    (hcalls : instr.Calls env τ (.proc (.iter i)) [target]) (htarget : target.term env τ = .ok (.var x) τ)
    (hitem : τ.nextItem i = (.val v, ρ)) (hx : ρ.Unbound x) : Interleaving i σ (calls ++ [x]) (ρ.assign x v) := by
  have hrest : Stack.In τ [] := fun f hf => absurd hf List.not_mem_nil
  have hcall := h.call ctx henv hrest hcalls htarget
  rwa [ctx.step_next hcalls htarget hitem hx] at hcall

/-- Two computations share the iterator. -/
theorem Interleaving.unread : Interleaving 0 Store.unread [1, 2, 3] Store.readOut := by
  let main : Context := { owner := "main", resumer := .queue 0 }
  let other : Context := { owner := "other", resumer := .queue 1 }
  let env : Env := [("next", 0), ("p", 1), ("q", 2), ("end", 3)]
  have henv : ∀ σ : Store, σ.vars.size = 5 → env.In σ := fun σ hsize p hp => by
    rw [hsize]
    exact (by decide : ∀ p ∈ env, p.2 < 5) p hp
  have hcalls : ∀ (σ : Store) a, σ.vars[0]? = some (.bound (.proc (.iter 0))) →
      (Instr.apply (.ident "next") [a]).Calls env σ (.proc (.iter 0)) [a] := fun σ a h =>
    .apply (Operand.value_of_val rfl (Store.resolveVar_of_getElem? h) nofun)
  let ρ : Store :=
    -- the store after the first item, with the pair that the item is
    { vars := #[.bound (.proc (.iter 0)), .bound (.record 1), .unbound [], .unbound [], .unbound []]
      records := Store.unread.records.push (.tuple .null [.val (.lit (.str "k")), .val (.lit (.bool true))])
      iterators := #[⟨0, .fields, 1⟩] }
  let ρ' : Store := { Store.readOut with
    vars := #[.bound (.proc (.iter 0)), .bound (.record 1), .bound (.record 2), .unbound [], .unbound []] }
  -- one reader asks for the first item, another one for the second, and the first one again
  have hfirst : Interleaving 0 Store.unread [1] ρ := by
    have hitem : Store.unread.nextItem 0 = (.val (.record 1), { ρ with vars := Store.unread.vars }) := rfl
    have htarget : (Operand.ident "p").term env Store.unread = .ok (.var 1) Store.unread :=
      Operand.term_of_unbound rfl ⟨[], rfl⟩
    exact Interleaving.start.call_val main (henv _ rfl) (hcalls _ _ rfl) htarget hitem ⟨[], rfl⟩
  have hsecond : Interleaving 0 Store.unread [1, 2] ρ' := by
    have hitem : ρ.nextItem 0 = (.val (.record 2), { ρ' with vars := ρ.vars }) := rfl
    have htarget : (Operand.ident "q").term env ρ = .ok (.var 2) ρ :=
      Operand.term_of_unbound rfl ⟨[], rfl⟩
    exact hfirst.call_val other (henv _ rfl) (hcalls _ _ rfl) htarget hitem ⟨[], rfl⟩
  have hitem : ρ'.nextItem 0 = (.val (.lit .eof), ρ') := rfl
  have htarget : (Operand.ident "end").term env ρ' = .ok (.var 3) ρ' :=
    Operand.term_of_unbound rfl ⟨[], rfl⟩
  exact hsecond.call_val main (henv _ rfl) (hcalls _ _ rfl) htarget hitem ⟨[], rfl⟩

/-- All that the iterator of the example gives has been collected. -/
theorem Collected.readOut (env : Env) : Collected env Store.readOut [1, 2, 3]
    [(.lit (.num (.int64 5000000000)), .lit (.str "a")), (.lit (.str "k"), .lit (.bool true))] := by
  have hp : Store.readOut.resolve (.var 1) = .val (.record 1) := Store.resolveVar_of_getElem? rfl
  have hq : Store.readOut.resolve (.var 2) = .val (.record 2) := Store.resolveVar_of_getElem? rfl
  have hend : Store.readOut.resolve (.var 3) = .val (.lit .eof) := Store.resolveVar_of_getElem? rfl
  have hfirst := Store.select_pair (σ := Store.readOut) (q := 1) rfl
  have hsecond := Store.select_pair (σ := Store.readOut) (q := 2) rfl
  refine ⟨[1, 2], 3, [], _, rfl, ?_, hend, ?_, .swap _ _ _⟩
  · simp [hp, hq]
  · exact .cons ⟨1, _, _, hp, hfirst.1, hfirst.2, rfl, rfl⟩ (.cons ⟨2, _, _, hq, hsecond.1, hsecond.2, rfl, rfl⟩ .nil)

/-- The pairs are put together in the other order, and the record is the same. -/
theorem Interleaving.lossless_readOut :
    let ctx : Context := { owner := "main", resumer := .queue 0 }
    let env : Env := [("copy", 4)]
    let pairs : List (Operand × Operand) :=
      [(.lit (.num (.int64 5000000000)), .lit (.str "a")), (.lit (.str "k"), .lit (.bool true))]
    Store.unread.Closed ∧ (Store.unread.record 0).Ascending ∧ Interleaving 0 Store.unread [1, 2, 3] Store.readOut ∧
      Collected env Store.readOut [1, 2, 3] pairs ∧
      ∃ q υ, ctx.execute env [] (.createRecord "copy" none pairs) Store.readOut = .ok (.next []) υ ∧
        υ.record q = Store.unread.record 0 ∧ Action.entails (.val (.record q)) (.val (.record 0)) υ = .ok true υ := by
  intro ctx env pairs
  have hasc : (Store.unread.record 0).Ascending := by decide
  have henv : env.In Store.readOut := by
    rintro p hp
    obtain rfl := List.mem_singleton.mp hp
    decide
  have hrest : Stack.In Store.readOut [] := fun f hf => absurd hf List.not_mem_nil
  have hcollected : Collected env Store.readOut [1, 2, 3] pairs := Collected.readOut env
  have hcopy : Store.readOut.resolve (.var 4) = .var 4 := Store.Unbound.resolveVar ⟨[], rfl⟩
  obtain ⟨-, -, -, hrebuild⟩ := Interleaving.lossless Store.unread_closed rfl hasc .unread
  obtain ⟨q, υ, hexecute, -, hrecord, hentails⟩ :=
    -- the copy is made of what has been read out, in another order
    hrebuild rfl ctx env [] pairs none .null "copy" 4 4 henv hrest hcollected rfl rfl hcopy
  refine ⟨Store.unread_closed, hasc, .unread, hcollected, q, υ, hexecute, hrecord, hentails rfl fun f hf v hv => ?_⟩
  rcases List.mem_pair.mp hf with rfl | rfl
  · cases hv
    rfl
  · cases hv
    rfl

end Dataflow
