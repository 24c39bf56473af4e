/-
Actions: steps of the kernel that leave a closed store closed.

`Reads` is about actions that only look at the store, and `Safe` about actions that may change it. Both say
what the result of the action satisfies and, of an interrupted action, that a variable which it waits for is
unbound. A safe action changes the store by deeds alone, also when it is interrupted; from there on everything
that is known about deeds, and about elementary changes, is known about the action.

An action is put together from others by sequencing, so besides the few primitive actions there is one rule for
each way of continuing. The results are about terms, values, scopes and so on that are in the store, and what
is in a store stays in it, which is all that has to be carried from one part of an action to the next.
-/
import Dataflow.Proofs.Deeds
import Dataflow.Proofs.UnificationRun
import Dataflow.Matching
import Dataflow.Machine.Execute

set_option autoImplicit false

namespace Dataflow

/-- Sequencing as a function of the state. -/
theorem bind_apply {ε S α β : Type} (act : EStateM ε S α) (f : α → EStateM ε S β) (s : S) :
    (act >>= f) s = match act s with
      | .ok a s => f a s
      | .error e s => .error e s := by
  simp only [bind, EStateM.bind]
  cases act s <;> rfl

namespace Action

variable {α β : Type} {σ : Store}

/-- The action does not change the store, its result satisfies `Q`, and what it waits for is unbound. -/
def Reads (act : Action α) (σ : Store) (Q : α → Prop) : Prop :=
  match act σ with
  | .ok a τ => τ = σ ∧ Q a
  | .error e τ => τ = σ ∧ e.In σ

/-- The action changes the store by deeds, its result satisfies `Q`, and what it waits for is unbound. -/
def Safe (act : Action α) (σ : Store) (Q : α → Store → Prop) : Prop :=
  match act σ with
  | .ok a τ => σ.Deeds τ ∧ Q a τ
  | .error e τ => σ.Deeds τ ∧ e.In τ

/-! ## Sequencing -/

/-- An action that succeeded, taken apart. -/
theorem bind_eq_ok {act : Action α} {f : α → Action β} {b : β} {τ : Store}
    (h : (act >>= f) σ = .ok b τ) : ∃ a ρ, act σ = .ok a ρ ∧ f a ρ = .ok b τ := by
  rw [bind_apply] at h
  split at h
  · next a ρ hact => exact ⟨a, ρ, hact, h⟩
  · cases h

/-- Reading composes: after a part that leaves the store as it is, what follows still reads the store that was there first. -/
theorem Reads.bind {act : Action α} {f : α → Action β} {Q : α → Prop} {R : β → Prop} (h : act.Reads σ Q)
    (hf : ∀ a, Q a → (f a).Reads σ R) : (act >>= f).Reads σ R := by
  rw [Reads] at h
  rw [Reads, bind_apply]
  generalize act σ = result at h
  cases result with
  | ok a τ =>
    obtain ⟨rfl, hQ⟩ := h
    exact hf a hQ
  | error e τ => exact h

/-- What only reads can be followed by anything. -/
theorem Reads.bind_safe {act : Action α} {f : α → Action β} {Q : α → Prop} {R : β → Store → Prop}
    (h : act.Reads σ Q) (hf : ∀ a, Q a → (f a).Safe σ R) : (act >>= f).Safe σ R := by
  rw [Reads] at h
  rw [Safe, bind_apply]
  generalize act σ = result at h
  cases result with
  | ok a τ =>
    obtain ⟨rfl, hQ⟩ := h
    exact hf a hQ
  | error e τ =>
    obtain ⟨rfl, he⟩ := h
    exact ⟨.refl, he⟩

/-- What follows a change starts from a closed store that has grown. -/
theorem Safe.bind {act : Action α} {f : α → Action β} {Q : α → Store → Prop} {R : β → Store → Prop}
    (h : act.Safe σ Q) (hσ : σ.Closed)
    (hf : ∀ a τ, σ.Grows τ → τ.Closed → Q a τ → (f a).Safe τ R) : (act >>= f).Safe σ R := by
  rw [Safe] at h
  rw [Safe, bind_apply]
  generalize act σ = result at h
  -- an interrupted first part is the end of the whole, with the changes that it has made
  cases result with
  | ok a τ =>
    have hnext := hf a τ h.1.grows (h.1.closed hσ) h.2
    simp only [Safe] at hnext ⊢
    generalize f a τ = last at hnext
    cases last with
    | ok b ρ => exact ⟨h.1.trans hnext.1, hnext.2⟩
    | error e ρ => exact ⟨h.1.trans hnext.1, hnext.2⟩
  | error e τ => exact h

/-- What only reads is safe: the store it leaves behind is the one that it found. -/
theorem Reads.safe {act : Action α} {Q : α → Prop} {R : α → Store → Prop} (h : act.Reads σ Q)
    (hQ : ∀ a, Q a → R a σ) : act.Safe σ R := by
  rw [Reads] at h
  rw [Safe]
  generalize act σ = result at h
  cases result with
  | ok a τ =>
    -- a read gives back the store itself, so that nothing has been done to it
    obtain ⟨rfl, ha⟩ := h
    exact ⟨.refl, hQ a ha⟩
  | error e τ =>
    obtain ⟨rfl, he⟩ := h
    exact ⟨.refl, he⟩

/-! ## Primitive actions -/

theorem reads_pure {Q : α → Prop} {a : α} (h : Q a) : (pure a : Action α).Reads σ Q := ⟨rfl, h⟩

theorem reads_fault {Q : α → Prop} (f : Fault) : (fault f : Action α).Reads σ Q := ⟨rfl, trivial⟩

theorem reads_block {Q : α → Prop} {x : Nat} (hx : σ.Unbound x) : (block x : Action α).Reads σ Q := ⟨rfl, hx⟩

theorem reads_read {Q : α → Prop} {f : Store → α} (h : Q (f σ)) : (read f).Reads σ Q := ⟨rfl, h⟩

theorem reads_resolve (hσ : σ.Closed) {t : Term} (ht : t.In σ) :
    (read fun σ => σ.resolve t).Reads σ (Term.Resolved σ) := reads_read (hσ.resolved ht)

theorem reads_ofExcept {Q : α → Prop} {r : Except Fault α} (h : ∀ a, r = .ok a → Q a) :
    (ofExcept r).Reads σ Q := by
  cases r with
  | ok a => exact reads_pure (h a rfl)
  | error f => exact reads_fault f

/-- Checks and looks whose result refers to nothing. -/
theorem reads_check (r : Except Fault α) : (ofExcept r).Reads σ fun _ => True :=
  reads_ofExcept fun _ _ => trivial

theorem reads_look (f : Store → α) : (read f).Reads σ fun _ => True := reads_read trivial

theorem safe_pure {Q : α → Store → Prop} {a : α} (h : Q a σ) : (pure a : Action α).Safe σ Q := ⟨.refl, h⟩

theorem safe_fault {Q : α → Store → Prop} (f : Fault) : (fault f : Action α).Safe σ Q := ⟨.refl, trivial⟩

theorem safe_take {Q : α → Store → Prop} {f : Store → α × Store} (h : σ.Deeds (f σ).2)
    (hQ : Q (f σ).1 (f σ).2) : (take f).Safe σ Q := ⟨h, hQ⟩

theorem safe_update {f : Store → Store} (h : σ.Deeds (f σ)) : (update f).Safe σ fun _ _ => True :=
  ⟨h, trivial⟩

theorem newRecord_safe {r : Record} (hr : r.In σ) :
    (take fun σ => σ.newRecord r).Safe σ fun n τ => Value.In τ (.record n) :=
  safe_take (.single (.table (.newRecord hr) rfl rfl)) (by simp [Store.newRecord, Value.In])

/-! ## Making terms equal -/

/-- Whatever a change of the store does, the action made of it is safe if the change consists of deeds. -/
theorem safe_ofChange {f : Store → Option Fault × Store} (h : σ.Deeds (f σ).2) :
    (ofChange f).Safe σ fun _ _ => True := by
  rw [Safe, ofChange]
  generalize f σ = result at h
  rcases result with ⟨_ | fault, τ⟩
  · exact ⟨h, trivial⟩
  · exact ⟨h, trivial⟩

theorem unify_safe (hσ : σ.Closed) {a b : Term} (ha : a.In σ) (hb : b.In σ) :
    (unify a b).Safe σ fun _ _ => True :=
  safe_ofChange (Store.unify_binds hσ ha hb).deeds

theorem bindTerm_safe (hσ : σ.Closed) {x : Nat} {t : Term} (hx : x < σ.vars.size) (ht : t.In σ) :
    (bindTerm x t).Safe σ fun _ _ => True := by
  cases t with
  | val v => exact unify_safe hσ hx ht
  | var y => exact safe_ofChange (Store.unifyVars_binds hσ hx ht).deeds

end Action

namespace Store

variable {σ : Store}

/-- A comparison waits for an unbound variable. -/
theorem unbound_of_compareAll {room : Nat} {memo : PairMemo} {waiting : Option VarId}
    {work : List (Term × Term)} (hσ : σ.Closed) (hwork : σ.WorkIn work)
    (hwaiting : ∀ x, waiting = some x → σ.Unbound x) {x : Nat}
    (h : σ.compareAll room memo waiting work = .unknown x) : σ.Unbound x := by
  -- a variable is remembered only if none is remembered yet, and it is one that a term resolves to
  have hor : ∀ {w : Option VarId} {y : Nat}, (∀ z, w = some z → σ.Unbound z) → σ.Unbound y →
      ∀ z, w.or (some y) = some z → σ.Unbound z := by
    intro w y hw hy z hz
    cases w with
    | none => cases hz; exact hy
    | some u => exact hw z hz
  have hend : ∀ {w : Option VarId}, (∀ z, w = some z → σ.Unbound z) →
      Verdict.ofWaiting w = .unknown x → σ.Unbound x := by
    intro w hw h
    cases w with
    | none => cases h
    | some z => cases h; exact hw _ rfl
  fun_induction compareAll σ room memo waiting work with
  | case1 => exact hend hwaiting h
  | case2 room memo waiting a b rest y z hb ha ih =>
    simp only [dite_eq_ite] at ih
    refine ih hwork.tail ?_ h
    by_cases hyz : y = z
    · rw [if_pos hyz]
      exact hwaiting
    · rw [if_neg hyz]
      exact hor hwaiting (hσ.resolve_var hwork.head.1 ha)
  | case3 room memo waiting a b rest y v hb ha ih =>
    exact ih hwork.tail (hor hwaiting (hσ.resolve_var hwork.head.1 ha)) h
  | case4 room memo waiting a b rest v y hb ha ih =>
    exact ih hwork.tail (hor hwaiting (hσ.resolve_var hwork.head.2 hb)) h
  | case5 room memo waiting a b rest r s hb ha hmem ih => exact ih hwork.tail hwaiting h
  | case6 => exact hend hwaiting h
  | case7 memo waiting a b rest r s hb ha hmem _ _ hshape room ih =>
    exact ih (hwork.tail.sides hσ r s) hwaiting h
  | case8 => cases h
  | case9 room memo waiting a b rest v w _ hb ha hsame ih => exact ih hwork.tail hwaiting h
  | case10 => cases h

theorem unbound_of_compare (hσ : σ.Closed) {a b : Term} (ha : a.In σ) (hb : b.In σ) {x : Nat}
    (h : σ.compare a b = .unknown x) : σ.Unbound x :=
  unbound_of_compareAll hσ (.single ha hb) (fun y hy => by cases hy) h

end Store

/-- Comparing does not change the store, and when it waits, it waits for an unbound variable of the store. -/
theorem Action.entails_reads {σ : Store} (hσ : σ.Closed) {a b : Term} (ha : a.In σ) (hb : b.In σ) :
    (Action.entails a b).Reads σ fun _ => True := by
  refine Reads.bind (Q := fun verdict => σ.compare a b = verdict) (reads_read rfl) fun verdict h => ?_
  cases verdict with
  | equal => exact reads_pure trivial
  | different => exact reads_pure trivial
  | unknown x => exact reads_block (Store.unbound_of_compare hσ ha hb h)

end Dataflow
