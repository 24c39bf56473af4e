/-
Completing gives whole values.

The walk enters each record and each closure once, and what it has entered is remembered before its parts are known. So
what is remembered of a record that is still being rebuilt is the record itself, whose fields are perhaps unbound. What
makes the walk sound is that it succeeds as a whole or not at all: a record is left when all of its fields have been
completed, so when the walk is over, every part of whatever has been entered is a value that has been entered as well,
or one that refers to nothing, or a failure.

`Covers` says that a value is one of these, `Settled` that all parts of what has been entered since some point are
covered, and `Fine` that a result is covered or is a record that has been rebuilt from such results. A walk that has
settled everything gives whole values, provided that failures and the arguments of configurations are whole, at which
the walk does not look.
-/
import Dataflow.Proofs.Wholeness
import Dataflow.Proofs.Completing
import Mathlib.Data.Finset.Card

set_option autoImplicit false

namespace Dataflow

/-! ## What a walk does to the store -/

/-- `τ` is `σ` with more records. -/
def Store.Rebuilds (σ τ : Store) : Prop := ∃ records : Array Record, τ = { σ with records := σ.records ++ records }

namespace Store.Rebuilds

variable {σ τ ρ : Store}

theorem refl (σ : Store) : σ.Rebuilds σ := ⟨#[], by simp⟩

theorem trans (h : σ.Rebuilds τ) (h' : τ.Rebuilds ρ) : σ.Rebuilds ρ := by
  obtain ⟨rs, rfl⟩ := h
  obtain ⟨rs', rfl⟩ := h'
  exact ⟨rs ++ rs', by simp [Array.append_assoc]⟩

theorem newRecord (σ : Store) (r : Record) : σ.Rebuilds (σ.newRecord r).2 := ⟨#[r], by simp [Store.newRecord]⟩

theorem grows (h : σ.Rebuilds τ) : σ.Grows τ := by
  obtain ⟨rs, rfl⟩ := h
  have hrecords : ∀ (i : Nat) r, σ.records[i]? = some r → (σ.records ++ rs)[i]? = some r := by
    intro i r hi
    rw [Array.getElem?_append_left (Array.getElem?_eq_some_iff.mp hi).1, hi]
  exact { Grows.refl σ with records := hrecords }

theorem vars_eq (h : σ.Rebuilds τ) : τ.vars = σ.vars := by
  obtain ⟨rs, rfl⟩ := h
  rfl

theorem keeps (h : σ.Rebuilds τ) : σ.Keeps τ := .of_vars_eq h.grows h.vars_eq

theorem resolve_eq (h : σ.Rebuilds τ) (t : Term) : τ.resolve t = σ.resolve t := resolve_of_vars_eq h.vars_eq t

theorem closure_eq (h : σ.Rebuilds τ) (c : ClosureId) : τ.closure c = σ.closure c := by
  obtain ⟨rs, rfl⟩ := h
  rfl

theorem config_eq (h : σ.Rebuilds τ) (k : ConfigId) : τ.config k = σ.config k := by
  obtain ⟨rs, rfl⟩ := h
  rfl

end Store.Rebuilds

/-! ## What a walk has entered -/

namespace Completed

/-- The value has been entered, or the walk does not enter it. -/
def Covers (σ : Store) (done : Completed) : Value → Prop
  | .record r => r ∈ done.records
  | .proc (.closure c) | .proc (.actorMaker c) => c ∈ done.closures
  | .config k => (σ.config k).handlers ∈ done.closures
  | v => ¬ v.Forbidden

/-- The term has a value that is covered. -/
def CoversTerm (σ : Store) (done : Completed) (t : Term) : Prop :=
  ∃ v, σ.resolve t = .val v ∧ done.Covers σ v

/-- Everything entered in `done` has been entered in `done'`. -/
structure Within (done done' : Completed) : Prop where
  records : ∀ r : RecordId, r ∈ done.records → r ∈ done'.records
  closures : ∀ c : ClosureId, c ∈ done.closures → c ∈ done'.closures

/-- All parts of what has been entered in `done` but not in `before` are covered. -/
structure Settled (σ : Store) (done before : Completed) : Prop where
  records : ∀ r : RecordId, r ∈ done.records → r ∉ before.records →
    ∀ f ∈ (σ.record r).fields, done.CoversTerm σ f.value
  closures : ∀ c : ClosureId, c ∈ done.closures → c ∉ before.closures →
    ∀ p ∈ (σ.closure c).env, done.CoversTerm σ (.var p.2)

/-- A result of a walk that began in `σ` and has come to `τ`. -/
inductive Fine (σ τ : Store) (done : Completed) : Value → Prop where
  | covered {v : Value} (hin : v.In σ) (h : done.Covers σ v) : Fine σ τ done v
  | rebuilt {s : RecordId} (hs : s < τ.records.size)
      (hvalues : ∀ f ∈ (τ.record s).fields, ∃ w, f.value = .val w)
      (h : ∀ f ∈ (τ.record s).fields, ∀ w, f.value = .val w → Fine σ τ done w) : Fine σ τ done (.record s)

/-- What is remembered is fine, and only what was there from the beginning is entered. -/
structure Memo (σ τ : Store) (done : Completed) : Prop where
  records : ∀ (r : RecordId) v, done.records[r]? = some v → r < σ.records.size ∧ done.Fine σ τ v
  closures : ∀ (c : ClosureId) v, done.closures[c]? = some v → c < σ.closures.size ∧ done.Fine σ τ v

variable {σ τ υ : Store} {done done' done'' before : Completed} {v : Value} {t : Term}

theorem Within.refl (done : Completed) : done.Within done := ⟨fun _ h => h, fun _ h => h⟩

theorem Within.trans (h : done.Within done') (h' : done'.Within done'') : done.Within done'' :=
  ⟨fun r hr => h'.records r (h.records r hr), fun c hc => h'.closures c (h.closures c hc)⟩

/-- What is covered stays covered when more has been entered. -/
theorem Covers.mono (h : done.Covers σ v) (hsub : done.Within done') : done'.Covers σ v := by
  cases v with
  | record r => exact hsub.records r h
  | config k => exact hsub.closures _ h
  | proc p =>
    cases p with
    | closure c | actorMaker c => exact hsub.closures c h
    | native | ofCell | ofActor | iter => exact h
  | lit | num | obj | failed => exact h

theorem CoversTerm.mono (h : done.CoversTerm σ t) (hsub : done.Within done') : done'.CoversTerm σ t := by
  obtain ⟨v, hv, hcovers⟩ := h
  exact ⟨v, hv, hcovers.mono hsub⟩

theorem Settled.refl (σ : Store) (done : Completed) : done.Settled σ done :=
  ⟨fun _ h hnot => absurd h hnot, fun _ h hnot => absurd h hnot⟩

/-- What has been entered in two parts of a walk is settled if it is settled in each of them. -/
theorem Settled.trans (h : done.Settled σ before) (h' : done'.Settled σ done) (hsub : done.Within done') :
    done'.Settled σ before where
  records r hr hnot f hf := by
    by_cases hmem : r ∈ done.records
    · exact (h.records r hmem hnot f hf).mono hsub
    · exact h'.records r hr hmem f hf
  closures c hc hnot p hp := by
    by_cases hmem : c ∈ done.closures
    · exact (h.closures c hmem hnot p hp).mono hsub
    · exact h'.closures c hc hmem p hp

/-- What is fine stays so when more has been rebuilt and more has been entered. -/
theorem Fine.mono (h : done.Fine σ τ v) (hrebuilds : τ.Rebuilds υ) (hsub : done.Within done') : done'.Fine σ υ v := by
  induction h with
  | covered hin h => exact .covered hin (h.mono hsub)
  | @rebuilt s hs hvalues _ ih =>
    -- a record that has been rebuilt is not touched again
    have hsame := hrebuilds.grows.record_eq hs
    have hlt : s < υ.records.size := hrebuilds.grows.value (v := .record s) hs
    refine .rebuilt hlt ?_ ?_
    · rw [hsame]
      exact hvalues
    · rw [hsame]
      exact ih

theorem Memo.mono (h : done.Memo σ τ) (hrebuilds : τ.Rebuilds υ) : done.Memo σ υ where
  records r v hv := ⟨(h.records r v hv).1, (h.records r v hv).2.mono hrebuilds (.refl done)⟩
  closures c v hv := ⟨(h.closures c v hv).1, (h.closures c v hv).2.mono hrebuilds (.refl done)⟩

theorem memo_empty (σ τ : Store) : Memo σ τ {} := ⟨by simp, by simp⟩

/-! ## Entering -/

/-- `r` is remembered with `v`. -/
def putRecord (done : Completed) (r : RecordId) (v : Value) : Completed :=
  { done with records := done.records.insert r v }

/-- `c` is remembered with `v`. -/
def putClosure (done : Completed) (c : ClosureId) (v : Value) : Completed :=
  { done with closures := done.closures.insert c v }

theorem mem_putRecord {r s : RecordId} : s ∈ (done.putRecord r v).records ↔ s = r ∨ s ∈ done.records := by
  rw [putRecord, Std.HashMap.mem_insert, beq_iff_eq]
  exact or_congr_left eq_comm

theorem mem_putClosure {c d : ClosureId} : d ∈ (done.putClosure c v).closures ↔ d = c ∨ d ∈ done.closures := by
  rw [putClosure, Std.HashMap.mem_insert, beq_iff_eq]
  exact or_congr_left eq_comm

theorem within_putRecord (done : Completed) (r : RecordId) (v : Value) : done.Within (done.putRecord r v) :=
  ⟨fun _ hs => mem_putRecord.mpr (.inr hs), fun _ hc => hc⟩

theorem within_putClosure (done : Completed) (c : ClosureId) (v : Value) : done.Within (done.putClosure c v) :=
  ⟨fun _ hr => hr, fun _ hd => mem_putClosure.mpr (.inr hd)⟩

/-- A record may be remembered with any value that is fine for it. -/
theorem Memo.putRecord (h : done.Memo σ τ) {r : RecordId} (hr : r < σ.records.size)
    (hv : (done.putRecord r v).Fine σ τ v) : (done.putRecord r v).Memo σ τ := by
  have hsub := done.within_putRecord r v
  refine ⟨fun s w hw => ?_, fun c w hw => ⟨(h.closures c w hw).1, (h.closures c w hw).2.mono (.refl τ) hsub⟩⟩
  rw [Completed.putRecord, Std.HashMap.getElem?_insert] at hw
  -- it is either the record that is asked for, or one that was remembered before
  split at hw
  · next heq =>
    obtain rfl := eq_of_beq heq
    exact ⟨hr, Option.some.inj hw ▸ hv⟩
  · exact ⟨(h.records s w hw).1, (h.records s w hw).2.mono (.refl τ) hsub⟩

/-- A closure may be remembered with any value that is fine for it. -/
theorem Memo.putClosure (h : done.Memo σ τ) {c : ClosureId} (hc : c < σ.closures.size)
    (hv : (done.putClosure c v).Fine σ τ v) : (done.putClosure c v).Memo σ τ := by
  have hsub := done.within_putClosure c v
  refine ⟨fun r w hw => ⟨(h.records r w hw).1, (h.records r w hw).2.mono (.refl τ) hsub⟩, fun d w hw => ?_⟩
  rw [Completed.putClosure, Std.HashMap.getElem?_insert] at hw
  -- it is either the closure that is asked for, or one that was remembered before
  split at hw
  · next heq =>
    obtain rfl := eq_of_beq heq
    exact ⟨hc, Option.some.inj hw ▸ hv⟩
  · exact ⟨(h.closures d w hw).1, (h.closures d w hw).2.mono (.refl τ) hsub⟩

/-- A record is settled with its parts. -/
theorem Settled.of_putRecord {r : RecordId} (h : done'.Settled σ (done.putRecord r v))
    (hcovers : ∀ f ∈ (σ.record r).fields, done'.CoversTerm σ f.value) : done'.Settled σ done where
  records s hs hnot := by
    by_cases hsr : s = r
    · exact hsr ▸ hcovers
    · exact h.records s hs fun hmem => (mem_putRecord.mp hmem).elim hsr hnot
  closures := h.closures

/-- If the captures of a closure are covered in the end, then entering it leaves nothing open. -/
theorem Settled.of_putClosure {c : ClosureId} (h : done'.Settled σ (done.putClosure c v))
    (hcovers : ∀ p ∈ (σ.closure c).env, done'.CoversTerm σ (.var p.2)) : done'.Settled σ done where
  records := h.records
  closures d hd hnot := by
    by_cases hdc : d = c
    · exact hdc ▸ hcovers
    · exact h.closures d hd fun hmem => (mem_putClosure.mp hmem).elim hdc hnot

/-- Remembering something else about a record enters nothing. -/
theorem settled_putRecord {r : RecordId} (h : r ∈ done.records) (v : Value) :
    (done.putRecord r v).Settled σ done where
  records s hs hnot := by
    rcases mem_putRecord.mp hs with rfl | hmem
    · exact absurd h hnot
    · exact absurd hmem hnot
  closures _ hc hnot := absurd hc hnot

/-! ## How much is left to enter -/

/-- The number of records and closures of the store that have not been entered. -/
def unentered (σ : Store) (done : Completed) : Nat :=
  ((Finset.range σ.records.size).filter (· ∉ done.records)).card +
    ((Finset.range σ.closures.size).filter (· ∉ done.closures)).card

theorem unentered_le (σ : Store) (done : Completed) : done.unentered σ ≤ σ.records.size + σ.closures.size := by
  refine Nat.add_le_add ?_ ?_
  · exact (Finset.card_filter_le _ _).trans_eq (Finset.card_range _)
  · exact (Finset.card_filter_le _ _).trans_eq (Finset.card_range _)

/-- Entering more leaves less to enter. -/
theorem Within.unentered (h : done.Within done') : done'.unentered σ ≤ done.unentered σ := by
  refine Nat.add_le_add (Finset.card_le_card fun r hr => ?_) (Finset.card_le_card fun c hc => ?_)
  · rw [Finset.mem_filter] at hr ⊢
    exact ⟨hr.1, fun hmem => hr.2 (h.records r hmem)⟩
  · rw [Finset.mem_filter] at hc ⊢
    exact ⟨hc.1, fun hmem => hc.2 (h.closures c hmem)⟩

/-- A set of numbers loses one of them. -/
private theorem card_filter_lt {n i : Nat} {P Q : Nat → Prop} [DecidablePred P] [DecidablePred Q] (hi : i < n)
    (hP : P i) (hQ : ¬ Q i) (hsub : ∀ j, Q j → P j) :
    ((Finset.range n).filter Q).card < ((Finset.range n).filter P).card := by
  refine Finset.card_lt_card (Finset.ssubset_iff_of_subset (fun j hj => ?_) |>.mpr ⟨i, ?_, ?_⟩)
  · rw [Finset.mem_filter] at hj ⊢
    exact ⟨hj.1, hsub j hj.2⟩
  · exact Finset.mem_filter.mpr ⟨Finset.mem_range.mpr hi, hP⟩
  · exact fun hmem => hQ (Finset.mem_filter.mp hmem).2

/-- A record that has not been entered is one thing less to enter. -/
theorem unentered_putRecord {r : RecordId} (hr : r < σ.records.size) (hnot : r ∉ done.records) :
    (done.putRecord r v).unentered σ < done.unentered σ := by
  refine Nat.add_lt_add_of_lt_of_le (card_filter_lt hr hnot ?_ ?_) (Nat.le_refl _)
  · exact fun h => h (mem_putRecord.mpr (.inl rfl))
  · exact fun s hs hmem => hs (mem_putRecord.mpr (.inr hmem))

/-- So is a closure. -/
theorem unentered_putClosure {c : ClosureId} (hc : c < σ.closures.size) (hnot : c ∉ done.closures) :
    (done.putClosure c v).unentered σ < done.unentered σ := by
  refine Nat.add_lt_add_of_le_of_lt (Nat.le_refl _) (card_filter_lt hc hnot ?_ ?_)
  · exact fun h => h (mem_putClosure.mpr (.inl rfl))
  · exact fun d hd hmem => hd (mem_putClosure.mpr (.inr hmem))

end Completed

/-! ## The walk -/

namespace Completer

open Completed

variable {α β : Type} {σ τ : Store} {done : Completed} {depth : Nat} {complete : Term → Completer Value}

/-- The step of a walk that began in `σ` adds records and enters more, and what it remembers is fine. Its result
satisfies `Q`. -/
def Walks (σ : Store) (m : Completer α) (τ : Store) (done : Completed) (Q : α → Store → Completed → Prop) : Prop :=
  match m done τ with
  | .ok (a, done') υ => τ.Rebuilds υ ∧ done.Within done' ∧ done'.Memo σ υ ∧ Q a υ done'
  | .error _ υ => τ.Rebuilds υ

/-- Walks compose: what the second part has rebuilt and entered is added to what the first part has. -/
theorem Walks.bind {m : Completer α} {f : α → Completer β} {Q : α → Store → Completed → Prop}
    {R : β → Store → Completed → Prop} (h : m.Walks σ τ done Q)
    (hf : ∀ a υ done', τ.Rebuilds υ → done.Within done' → done'.Memo σ υ → Q a υ done' → (f a).Walks σ υ done' R) :
    (m >>= f).Walks σ τ done R := by
  rw [Walks] at h
  rw [Walks, show (m >>= f) done = (m done >>= fun p => f p.1 p.2) from rfl, bind_apply]
  generalize m done τ = result at h
  cases result with
  -- the second part starts with what the first one remembers
  | ok p υ =>
    obtain ⟨hrebuilds, hsub, hmemo, hQ⟩ := h
    have hnext := hf p.1 υ p.2 hrebuilds hsub hmemo hQ
    simp only [Walks] at hnext ⊢
    generalize f p.1 p.2 υ = last at hnext
    cases last with
    | ok q φ => exact ⟨hrebuilds.trans hnext.1, hsub.trans hnext.2.1, hnext.2.2⟩
    | error e φ => exact hrebuilds.trans hnext
  | error e υ => exact h

theorem Walks.imp {m : Completer α} {Q R : α → Store → Completed → Prop} (h : m.Walks σ τ done Q)
    (hQ : ∀ a υ done', τ.Rebuilds υ → done.Within done' → Q a υ done' → R a υ done') : m.Walks σ τ done R := by
  rw [Walks] at h ⊢
  generalize m done τ = result at h
  cases result with
  | ok p υ => exact ⟨h.1, h.2.1, h.2.2.1, hQ _ _ _ h.1 h.2.1 h.2.2.2⟩
  | error e υ => exact h

theorem walks_pure {Q : α → Store → Completed → Prop} {a : α} (hmemo : done.Memo σ τ) (h : Q a τ done) :
    (pure a : Completer α).Walks σ τ done Q := ⟨.refl τ, .refl done, hmemo, h⟩

/-- Looking at the store or at what is remembered changes nothing. -/
theorem walks_read {f : Store → α} {g : α → Completer β} {Q : β → Store → Completed → Prop}
    (h : (g (f τ)).Walks σ τ done Q) : ((monadLift (Action.read f) : Completer α) >>= g).Walks σ τ done Q := h

theorem walks_get {g : Completed → Completer β} {Q : β → Store → Completed → Prop}
    (h : (g done).Walks σ τ done Q) : ((get : Completer Completed) >>= g).Walks σ τ done Q := h

/-- Remembering more. -/
theorem walks_modify {f : Completed → Completed} (hsub : done.Within (f done)) (hmemo : (f done).Memo σ τ) :
    (modify f : Completer Unit).Walks σ τ done fun _ υ done' => υ = τ ∧ done' = f done :=
  ⟨.refl τ, hsub, hmemo, rfl, rfl⟩

/-- The record that has been rebuilt. -/
theorem walks_newRecord (r : Record) (hmemo : done.Memo σ τ) :
    (monadLift (Action.take fun σ => σ.newRecord r) : Completer RecordId).Walks σ τ done fun s υ done' =>
      s < υ.records.size ∧ υ.record s = r ∧ done' = done := by
  have hrebuilds := Store.Rebuilds.newRecord τ r
  refine ⟨hrebuilds, .refl done, hmemo.mono hrebuilds, ?_, ?_, rfl⟩
  · simp
  · simp [Store.record]

theorem walks_block {Q : α → Store → Completed → Prop} (x : VarId) :
    (monadLift (Action.block x : Action α) : Completer α).Walks σ τ done Q := Store.Rebuilds.refl τ

theorem walks_refuse {Q : Value → Store → Completed → Prop} (what : Incomplete) :
    (refuse what).Walks σ τ done Q := Store.Rebuilds.refl τ

/-- Completing a term of `σ`, with fewer than `depth` things left to enter, gives a fine result, covers the term and
settles what it enters. -/
def Reaches (σ : Store) (depth : Nat) (complete : Term → Completer Value) : Prop :=
  ∀ {τ : Store} {done : Completed} {t : Term}, σ.Rebuilds τ → done.Memo σ τ → done.unentered σ < depth → t.In σ →
    (complete t).Walks σ τ done fun v υ done' =>
      done'.Fine σ υ v ∧ done'.CoversTerm σ t ∧ done'.Settled σ done

/-- The fields of a record are completed one after another. -/
theorem fields_walks (hcomplete : Reaches σ depth complete) {fs : List Field} (hστ : σ.Rebuilds τ)
    (hmemo : done.Memo σ τ) (hroom : done.unentered σ < depth) (hfs : ∀ f ∈ fs, f.value.In σ) :
    (fields complete fs).Walks σ τ done fun gs υ done' =>
      (∀ g ∈ gs, ∃ w, g.value = .val w ∧ done'.Fine σ υ w) ∧ (∀ f ∈ fs, done'.CoversTerm σ f.value) ∧
        done'.Settled σ done := by
  induction fs generalizing τ done with
  | nil => exact walks_pure hmemo ⟨by simp, by simp, .refl σ done⟩
  | cons f rest ih =>
    have hf := List.forall_mem_cons.mp hfs
    refine (hcomplete hστ hmemo hroom hf.1).bind fun v υ done₁ h₁ hsub₁ hmemo₁ ⟨hv, hcovers, hsettled⟩ => ?_
    have hroom₁ := Nat.lt_of_le_of_lt (hsub₁.unentered (σ := σ)) hroom
    refine (ih (hστ.trans h₁) hmemo₁ hroom₁ hf.2).bind fun gs φ done₂ h₂ hsub₂ hmemo₂ ⟨hgs, hrest, hsettled'⟩ => ?_
    refine walks_pure hmemo₂ ⟨?_, ?_, hsettled.trans hsettled' hsub₂⟩
    · exact List.forall_mem_cons.mpr ⟨⟨v, rfl, hv.mono h₂ hsub₂⟩, hgs⟩
    · exact List.forall_mem_cons.mpr ⟨hcovers.mono hsub₂, hrest⟩

/-- Going through the captures of a closure covers all of them, and settles whatever is entered on the way. -/
theorem captures_walks (hcomplete : Reaches σ depth complete) {env : Env} (hστ : σ.Rebuilds τ)
    (hmemo : done.Memo σ τ) (hroom : done.unentered σ < depth) (henv : env.In σ) :
    (captures complete env).Walks σ τ done fun _ _ done' =>
      (∀ p ∈ env, done'.CoversTerm σ (.var p.2)) ∧ done'.Settled σ done := by
  induction env generalizing τ done with
  | nil => exact walks_pure hmemo ⟨by simp, .refl σ done⟩
  -- on the captures; the room does not get less, because what has been entered stays so
  | cons p rest ih =>
    have hp := List.forall_mem_cons.mp henv
    refine (hcomplete hστ hmemo hroom (t := .var p.2) hp.1).bind
      fun v υ done₁ h₁ hsub₁ hmemo₁ ⟨_, hcovers, hsettled⟩ => ?_
    have hroom₁ := Nat.lt_of_le_of_lt (hsub₁.unentered (σ := σ)) hroom
    refine (ih (hστ.trans h₁) hmemo₁ hroom₁ hp.2).imp fun _ φ done₂ _ hsub₂ ⟨hrest, hsettled'⟩ => ⟨?_, ?_⟩
    · exact List.forall_mem_cons.mpr ⟨hcovers.mono hsub₂, hrest⟩
    · exact hsettled.trans hsettled' hsub₂

/-- A record that has not been entered is entered, and left when its fields have been completed. -/
theorem record_walks (hcomplete : Reaches σ depth complete) (hσ : σ.Closed) (hστ : σ.Rebuilds τ)
    (hmemo : done.Memo σ τ) (hroom : done.unentered σ < depth + 1) {r : RecordId} (hr : r < σ.records.size)
    (hnot : r ∉ done.records) :
    (record complete r).Walks σ τ done fun v υ done' =>
      done'.Fine σ υ v ∧ r ∈ done'.records ∧ done'.Settled σ done := by
  -- while its fields are completed, the record stands for itself
  have hself : (done.putRecord r (.record r)).Fine σ τ (.record r) :=
    .covered hr (mem_putRecord.mpr (.inl rfl))
  have hsub₁ := done.within_putRecord r (.record r)
  have hmemo₁ := hmemo.putRecord hr hself
  refine (walks_modify hsub₁ hmemo₁).bind fun _ υ done₁ _ _ _ h => walks_read ?_
  obtain ⟨rfl, rfl⟩ := h
  have hroom₁ : (done.putRecord r (.record r)).unentered σ < depth :=
    Nat.lt_of_lt_of_le (unentered_putRecord hr hnot) (Nat.le_of_lt_succ hroom)
  have hsame : υ.record r = σ.record r := hστ.grows.record_eq hr
  have hfields : ∀ f ∈ (υ.record r).fields, f.value.In σ := by
    rw [hsame]
    exact hσ.record r
  refine (fields_walks hcomplete hστ hmemo₁ hroom₁ hfields).bind
    fun gs φ done₂ _ hsub₂ hmemo₂ ⟨hgs, hcovers, hsettled⟩ => ?_
  refine (walks_newRecord _ hmemo₂).bind fun s χ done₂ hφχ _ hmemo₃ hnew => ?_
  obtain ⟨hs, hrecord, rfl⟩ := hnew
  -- the rebuilt record takes its place
  have hfine : (done₂.putRecord r (.record s)).Fine σ χ (.record s) := by
    refine .rebuilt hs ?_ ?_
    · rw [hrecord]
      exact fun g hg => (hgs g hg).imp fun w hw => hw.1
    · rw [hrecord]
      intro g hg w hw
      obtain ⟨w', hw', hfine⟩ := hgs g hg
      obtain rfl := Term.val.inj (hw'.symm.trans hw)
      exact hfine.mono hφχ (done₂.within_putRecord r _)
  refine (walks_modify (done₂.within_putRecord r _) (hmemo₃.putRecord hr hfine)).bind fun _ _ _ _ _ hmemo₄ h => ?_
  obtain ⟨rfl, rfl⟩ := h
  refine walks_pure hmemo₄ ⟨hfine, mem_putRecord.mpr (.inl rfl), ?_⟩
  have hcovers' : ∀ f ∈ (σ.record r).fields, done₂.CoversTerm σ f.value := hsame ▸ hcovers
  have hentered : r ∈ done₂.records := hsub₂.records r (mem_putRecord.mpr (.inl rfl))
  exact (hsettled.of_putRecord hcovers').trans (settled_putRecord hentered _) (done₂.within_putRecord r _)

/-- What is made from a closure is complete when the variables that the closure captured are. -/
theorem closure_walks (hcomplete : Reaches σ depth complete) (hσ : σ.Closed) (hστ : σ.Rebuilds τ)
    (hmemo : done.Memo σ τ) (hroom : done.unentered σ < depth + 1) {c : ClosureId} (hc : c < σ.closures.size)
    {v : Value} (hv : v.In σ) (hof : ∀ done : Completed, c ∈ done.closures → done.Covers σ v) :
    (closure complete v c).Walks σ τ done fun w υ done' =>
      done'.Fine σ υ w ∧ c ∈ done'.closures ∧ done'.Settled σ done := by
  refine walks_get ?_
  -- the closure has been met, or it is entered and what it captured is walked
  split
  · next w hw =>
    have hmem : c ∈ done.closures := by
      rw [Std.HashMap.mem_iff_isSome_getElem?, hw]
      rfl
    exact walks_pure hmemo ⟨(hmemo.closures c w hw).2, hmem, .refl σ done⟩
  · next hnone =>
    have hnot : c ∉ done.closures := by
      rw [Std.HashMap.mem_iff_isSome_getElem?, hnone]
      nofun
    have hentered : c ∈ (done.putClosure c v).closures := mem_putClosure.mpr (.inl rfl)
    -- the closure stands in the memo before what it captured is looked at
    have hmemo₁ := hmemo.putClosure hc (.covered hv (hof _ hentered))
    refine (walks_modify (done.within_putClosure c v) hmemo₁).bind fun _ υ done₁ _ _ _ h => walks_read ?_
    obtain ⟨rfl, rfl⟩ := h
    have hroom₁ : (done.putClosure c v).unentered σ < depth :=
      Nat.lt_of_lt_of_le (unentered_putClosure hc hnot) (Nat.le_of_lt_succ hroom)
    rw [hστ.closure_eq c]
    refine (captures_walks hcomplete hστ hmemo₁ hroom₁ (hσ.closure c)).bind
      fun _ φ done₂ _ hsub₂ hmemo₂ ⟨hcovers, hsettled⟩ => ?_
    have hentered' := hsub₂.closures c hentered
    exact walks_pure hmemo₂ ⟨.covered hv (hof _ hentered'), hentered', hsettled.of_putClosure hcovers⟩

/-- **The walk settles whatever it enters**, if it may nest deeply enough. -/
theorem term_reaches (hσ : σ.Closed) (depth : Nat) : Reaches σ depth (term depth) := by
  -- on the bound of the nesting, which is larger than what is left to enter
  induction depth with
  | zero => exact fun _ _ hroom _ => absurd hroom (Nat.not_lt_zero _)
  | succ depth ih =>
    intro τ done t hστ hmemo hroom ht
    refine walks_read ?_
    rw [hστ.resolve_eq t]
    rcases htr : σ.resolve t with v | x
    · have hv : v.In σ := hσ.resolve_val ht htr
      -- what the walk does not enter is its own result
      have hleaf : done.Covers σ v → (pure v : Completer Value).Walks σ τ done fun v υ done' =>
          done'.Fine σ υ v ∧ done'.CoversTerm σ t ∧ done'.Settled σ done :=
        fun h => walks_pure hmemo ⟨.covered hv h, ⟨v, htr, h⟩, .refl σ done⟩
      -- what is made from a closure is covered when the closure has been entered
      have hmade : ∀ c < σ.closures.size, (∀ done : Completed, c ∈ done.closures → done.Covers σ v) →
          (closure (term depth) v c).Walks σ τ done fun v υ done' =>
            done'.Fine σ υ v ∧ done'.CoversTerm σ t ∧ done'.Settled σ done := by
        intro c hc hof
        refine (closure_walks ih hσ hστ hmemo hroom hc hv hof).imp fun w υ done' _ _ ⟨hw, hmem, hsettled⟩ => ?_
        exact ⟨hw, ⟨v, htr, hof done' hmem⟩, hsettled⟩
      cases v with
      | record r =>
        refine walks_get ?_
        split
        · next w hw =>
          have hmem : r ∈ done.records := by
            rw [Std.HashMap.mem_iff_isSome_getElem?, hw]
            rfl
          exact walks_pure hmemo ⟨(hmemo.records r w hw).2, ⟨_, htr, hmem⟩, .refl σ done⟩
        · next hnone =>
          have hnot : r ∉ done.records := by
            rw [Std.HashMap.mem_iff_isSome_getElem?, hnone]
            nofun
          refine (record_walks ih hσ hστ hmemo hroom hv hnot).imp fun w υ done' _ _ ⟨hw, hmem, hsettled⟩ => ?_
          exact ⟨hw, ⟨_, htr, hmem⟩, hsettled⟩
      | proc p =>
        cases p with
        | closure c | actorMaker c => exact hmade c hv fun _ h => h
        | ofCell _ _ => exact walks_refuse .cellProc
        | iter _ => exact walks_refuse .iterator
        | native _ | ofActor _ _ => exact hleaf nofun
      | config k =>
        refine walks_read ?_
        rw [hστ.config_eq k]
        exact hmade _ (hσ.config hv).2 fun _ h => h
      | obj o =>
        cases o with
        | cell _ => exact walks_refuse .cell
        | actor _ => exact hleaf nofun
      | lit _ | num _ | failed _ => exact hleaf nofun
    · exact walks_block x

end Completer

/-! ## What completing gives -/

namespace Completed

variable {σ τ : Store} {done : Completed} {t u : Term} {v : Value}

/-- What a covered term refers to is covered too, or it is something at which the walk does not look. -/
theorem CoversTerm.refers (hintact : σ.Intact) (hsettled : done.Settled σ {}) (h : done.CoversTerm σ t)
    (hu : σ.Refers t u) : σ.Whole u ∨ done.CoversTerm σ u := by
  obtain ⟨v, hv, hcovers⟩ := h
  -- each way in which a term refers to another is covered with the term
  cases hu with
  | value hx =>
    obtain rfl := Term.val.inj (hx.symm.trans hv)
    exact .inr ⟨_, rfl, hcovers⟩
  | field hf =>
    cases hv
    exact .inr (hsettled.records _ hcovers Std.HashMap.not_mem_empty _ hf)
  | captured hp =>
    cases hv
    exact .inr (hsettled.closures _ hcovers Std.HashMap.not_mem_empty _ hp)
  | maker c =>
    cases hv
    exact .inr ⟨_, rfl, hcovers⟩
  | argument hw => exact .inl (hintact.config _ _ hw)
  | handlers k =>
    cases hv
    exact .inr ⟨_, rfl, hcovers⟩
  | error f => exact .inl (hintact.failure f)

/-- A value that a walk covers is not forbidden. -/
theorem Covers.not_forbidden {v : Value} (h : done.Covers σ v) : ¬ v.Forbidden := by
  intro hforbidden
  cases v with
  | obj o => exact h hforbidden
  | proc p =>
    cases p with
    | closure | actorMaker => exact hforbidden
    | native | ofCell | ofActor | iter => exact h hforbidden
  | record | config | lit | num | failed => exact hforbidden

/-- A covered term is not itself an obstacle. -/
theorem CoversTerm.not_unfit (h : done.CoversTerm σ t) : ¬ σ.Unfit t := by
  obtain ⟨v, hv, hcovers⟩ := h
  cases t with
  | var x =>
    intro hunfit
    have hbound := Store.isBound_of_val hv
    rw [show σ.isBound x = false from hunfit] at hbound
    cases hbound
  | val w =>
    cases hv
    exact hcovers.not_forbidden

/-- When everything that has been entered is settled, what is covered is whole. -/
theorem CoversTerm.whole (hintact : σ.Intact) (hsettled : done.Settled σ {}) (h : done.CoversTerm σ t) :
    σ.Whole t := by
  refine Store.whole_of_closed (fun t => σ.Whole t ∨ done.CoversTerm σ t) ?_ ?_ (.inr h)
  · rintro t u (ht | ht) hu
    · exact .inl (ht.refers hu)
    · exact ht.refers hintact hsettled hu
  · rintro t (ht | ht)
    · exact ht.not_unfit
    · exact ht.not_unfit

/-- So are the results of the walk. -/
theorem Fine.whole (hσ : σ.Closed) (hintact : σ.Intact) (hστ : σ.Rebuilds τ) (hsettled : done.Settled σ {})
    (h : done.Fine σ τ v) : τ.Whole (.val v) := by
  induction h with
  | @covered v hin h =>
    have hcovers : done.CoversTerm σ (.val v) := ⟨v, rfl, h⟩
    exact (hcovers.whole hintact hsettled).keeps hσ hin hστ.keeps
  | rebuilt hs hvalues _ ih =>
    refine Store.whole_record fun f hf => ?_
    obtain ⟨w, hw⟩ := hvalues f hf
    rw [hw]
    exact ih f hf w hw

end Completed

namespace Action

/-- How completing ends: it has added records, and its result is whole. -/
def Completes (act : Action Value) (σ : Store) : Prop :=
  match act σ with
  | .ok v τ => σ.Rebuilds τ ∧ τ.Whole (.val v)
  | .error _ τ => σ.Rebuilds τ

/-- What completing has settled when it ends: everything that the term leads to. -/
theorem complete_settles {σ : Store} (hσ : σ.Closed) {t : Term} (ht : t.In σ) :
    match complete t σ with
    | .ok v τ => σ.Rebuilds τ ∧ ∃ done : Completed, done.Fine σ τ v ∧ done.CoversTerm σ t ∧ done.Settled σ {}
    | .error _ τ => σ.Rebuilds τ := by
  -- there are no more records and closures to enter than the store has
  have hroom : Completed.unentered σ {} < σ.records.size + σ.closures.size + 1 :=
    Nat.lt_succ_of_le (Completed.unentered_le σ {})
  have hwalks := Completer.term_reaches hσ _ (.refl σ) (Completed.memo_empty σ σ) hroom ht
  rw [Completer.Walks] at hwalks
  -- what has been remembered is forgotten in the end
  have hcomplete : complete t σ = (read (fun σ => σ.records.size + σ.closures.size + 1) >>= fun depth =>
      (Prod.fst <$> Completer.term depth t {} : Action Value)) σ := rfl
  rw [hcomplete, bind_apply]
  simp only [read, Functor.map, EStateM.map]
  generalize Completer.term (σ.records.size + σ.closures.size + 1) t {} σ = result at hwalks
  cases result with
  | ok p τ =>
    obtain ⟨hστ, -, -, hsettled⟩ := hwalks
    exact ⟨hστ, p.2, hsettled⟩
  | error e τ => exact hwalks

/-- **A value that has been completed is whole**, in a store all of whose complete values are. -/
theorem complete_completes {σ : Store} (hσ : σ.Closed) (hintact : σ.Intact) {t : Term} (ht : t.In σ) :
    (complete t).Completes σ := by
  have hsettles := complete_settles hσ ht
  rw [Completes]
  generalize complete t σ = result at hsettles
  cases result with
  | ok v τ =>
    obtain ⟨hστ, done, hfine, -, hsettled⟩ := hsettles
    exact ⟨hστ, hfine.whole hσ hintact hστ hsettled⟩
  | error e τ => exact hsettles

/-- Completing succeeds with whole terms only. -/
theorem whole_of_complete {σ τ : Store} (hσ : σ.Closed) (hintact : σ.Intact) {t : Term} (ht : t.In σ) {v : Value}
    (h : complete t σ = .ok v τ) : σ.Whole t := by
  have hsettles := complete_settles hσ ht
  rw [h] at hsettles
  obtain ⟨-, done, -, hcovers, hsettled⟩ := hsettles
  exact hcovers.whole hintact hsettled

/-- Nothing has been entered when completing begins, so a record is entered. -/
theorem complete_record (r : RecordId) (σ : Store) :
    complete (.val (.record r)) σ =
      ((Completer.record (Completer.term (σ.records.size + σ.closures.size)) r).run' {} : Action Value) σ := by
  have hcomplete : complete (.val (.record r)) σ =
      ((Completer.term (σ.records.size + σ.closures.size + 1) (.val (.record r))).run' {} : Action Value) σ := rfl
  have hresolve : (monadLift (read fun σ => σ.resolve (.val (.record r))) : Completer Term) =
      pure (.val (.record r)) := rfl
  have hget : ∀ f : Completed → Completer Value, (get >>= f).run' {} = (f {}).run' {} := fun _ => rfl
  have hnone : ({} : Completed).records[r]? = none := by simp
  rw [hcomplete, Completer.term, hresolve]
  simp only [pure_bind]
  rw [hget]
  simp only [hnone]

end Action

end Dataflow
