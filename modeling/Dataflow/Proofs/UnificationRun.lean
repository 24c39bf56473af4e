/-
The walk of unification, one pair at a time.

`unifyAll` takes pairs from the front of a list, with a bound on the pairs of records that it may expand. Here
the walk is a relation without the bound: `Walk.Next` says what may happen to the pair in front, namely that
its sides agree already, that a variable is bound or merged, or that two records of one shape are replaced by
the pairs of their values. `unifyAll_run` is the only place that looks at `unifyAll`: on a closed store there
is always room, so its result is the end of such a walk, which is reached either because nothing is left to do
or because the pair in front clashes.

A step of the walk changes the store by binding or merging unbound variables and in no other way, so what is
true of every such change is true of unification.
-/
import Dataflow.Proofs.Equality

set_option autoImplicit false

namespace Dataflow

open Store

/-- A stage of the walk: the pairs of records that have been expanded, the pairs of terms that are still to be
made equal, and the store. -/
structure Walk where
  memo : PairMemo
  work : List (Term × Term)
  store : Store

/-- The pairs of records that a memo holds, as a relation. -/
def PairMemo.Has (memo : PairMemo) (r s : RecordId) : Prop := (r, s) ∈ memo

/-- Two resolved terms that nothing makes equal: records of different shapes or different atoms. -/
inductive Store.Clash (σ : Store) : Term → Term → Prop where
  | shape {r s : RecordId} (hne : r ≠ s) (h : ¬ (σ.record r).sameShape (σ.record s) = true) :
      σ.Clash (.val (.record r)) (.val (.record s))
  | atom {v w : Value} (hrecord : ∀ r s, v = .record r → w = .record s → False)
      (h : ¬ v.sameAtom w = true) : σ.Clash (.val v) (.val w)

namespace Walk

/-- What happens to the pair in front. -/
inductive Next : Walk → Walk → Prop where
  | agree {memo : PairMemo} {a b : Term} {rest : List (Term × Term)} {σ : Store}
      (h : Agrees memo.Has (σ.resolve a) (σ.resolve b)) : Next ⟨memo, (a, b) :: rest, σ⟩ ⟨memo, rest, σ⟩
  | merge {memo : PairMemo} {a b : Term} {rest : List (Term × Term)} {σ : Store} {x y : VarId}
      (ha : σ.resolve a = .var x) (hb : σ.resolve b = .var y) (hne : x ≠ y) :
      Next ⟨memo, (a, b) :: rest, σ⟩ ⟨memo, rest, σ.merge x y⟩
  | assignLeft {memo : PairMemo} {a b : Term} {rest : List (Term × Term)} {σ : Store} {x : VarId} {v : Value}
      (ha : σ.resolve a = .var x) (hb : σ.resolve b = .val v) :
      Next ⟨memo, (a, b) :: rest, σ⟩ ⟨memo, rest, σ.assign x v⟩
  | assignRight {memo : PairMemo} {a b : Term} {rest : List (Term × Term)} {σ : Store} {x : VarId} {v : Value}
      (ha : σ.resolve a = .val v) (hb : σ.resolve b = .var x) :
      Next ⟨memo, (a, b) :: rest, σ⟩ ⟨memo, rest, σ.assign x v⟩
  | expand {memo : PairMemo} {a b : Term} {rest : List (Term × Term)} {σ : Store} {r s : RecordId}
      (ha : σ.resolve a = .val (.record r)) (hb : σ.resolve b = .val (.record s)) (hne : r ≠ s)
      (hnot : (r, s) ∉ memo) (hshape : (σ.record r).sameShape (σ.record s) = true) :
      Next ⟨memo, (a, b) :: rest, σ⟩
        ⟨memo.insert (r, s), (σ.record r).sides (σ.record s) ++ rest, σ⟩

/-- How a walk ends: with nothing left to do, or at fault with a clash in front. -/
inductive Ends (w : Walk) : Option Fault → Prop where
  | done (h : w.work = []) : w.Ends none
  | clash {a b : Term} {rest : List (Term × Term)} (f : Fault) (h : w.work = (a, b) :: rest)
      (hclash : w.store.Clash (w.store.resolve a) (w.store.resolve b)) : w.Ends (some f)

/-- Any number of steps. -/
abbrev Run : Walk → Walk → Prop := Relation.ReflTransGen Next

/-- The store and the work are closed. -/
structure Closed (w : Walk) : Prop where
  store : w.store.Closed
  work : w.store.WorkIn w.work

variable {w w' : Walk}

/-! ## What one step does to the store -/

/-- A step leaves the store alone or binds. -/
theorem Next.binds (h : Next w w') (hw : w.Closed) : w'.store = w.store ∨ Binds w.store w'.store := by
  cases h with
  | agree => exact .inl rfl
  | merge ha hb hne =>
    exact .inr (.merge (hw.store.resolve_var hw.work.head.1 ha) (hw.store.resolve_var hw.work.head.2 hb) hne)
  | assignLeft ha hb =>
    exact .inr (.assign (hw.store.resolve_var hw.work.head.1 ha) (hw.store.resolve_val hw.work.head.2 hb))
  | assignRight ha hb =>
    exact .inr (.assign (hw.store.resolve_var hw.work.head.2 hb) (hw.store.resolve_val hw.work.head.1 ha))
  | expand => exact .inl rfl

/-- A step of the walk keeps the store closed and the work inside it. -/
theorem Next.closed (h : Next w w') (hw : w.Closed) : w'.Closed := by
  have hstore : w'.store.Closed ∧ w.store.Grows w'.store := by
    rcases h.binds hw with heq | hb
    · rw [heq]
      exact ⟨hw.store, .refl _⟩
    · exact ⟨hb.closed hw.store, hb.grows⟩
  have hrest : ∀ rest, w.store.WorkIn rest → w'.store.WorkIn rest := fun rest hr p hp =>
    ⟨hstore.2.term (hr p hp).1, hstore.2.term (hr p hp).2⟩
  -- the work is a part of the old one, except that an expansion adds the values of two records
  refine ⟨hstore.1, ?_⟩
  cases h with
  | agree | merge | assignLeft | assignRight => exact hrest _ hw.work.tail
  | expand => exact hw.work.tail.sides hw.store _ _

theorem Run.closed (h : Run w w') (hw : w.Closed) : w'.Closed := by
  induction h with
  | refl => exact hw
  | tail _ hnext ih => exact hnext.closed ih

/-- All that a walk does to the store is to bind variables. -/
theorem Run.binds (h : Run w w') (hw : w.Closed) : w.store.BindsMany w'.store := by
  induction h with
  | refl => exact .refl
  | tail hrun hnext ih =>
    rcases hnext.binds (Run.closed hrun hw) with heq | hb
    · exact heq ▸ ih
    · exact ih.tail hb

end Walk

namespace Store

/-! ## The function follows the relation -/

theorem Room.congr {σ τ : Store} {room : Nat} {memo : PairMemo} (h : τ.records = σ.records)
    (hroom : σ.Room room memo) : τ.Room room memo :=
  ⟨h ▸ hroom.inRange, by rw [pairCount, h]; exact hroom.enough⟩

/-- What remains to be shown after a step has been taken. -/
private theorem run_head {w w' : Walk} {result : Option Fault × Store} (h : Walk.Next w w')
    (hrest : ∃ e, Walk.Run w' e ∧ e.store = result.2 ∧ e.Ends result.1) :
    ∃ e, Walk.Run w e ∧ e.store = result.2 ∧ e.Ends result.1 := by
  obtain ⟨e, hrun, hstore, hends⟩ := hrest
  exact ⟨e, hrun.head h, hstore, hends⟩

/-- On a closed store `unifyAll` walks to an end. -/
theorem unifyAll_run {room : Nat} {memo : PairMemo} {work : List (Term × Term)} {σ : Store}
    (hw : Walk.Closed ⟨memo, work, σ⟩) (hroom : σ.Room room memo) :
    ∃ e, Walk.Run ⟨memo, work, σ⟩ e ∧ e.store = (unifyAll room memo work σ).2 ∧
      e.Ends (unifyAll room memo work σ).1 := by
  -- in each case the step that the function takes is one of the relation, and the rest is the hypothesis
  fun_induction unifyAll room memo work σ with
  | case1 room memo σ => exact ⟨_, .refl, rfl, .done rfl⟩
  | case2 room memo a b rest σ x y hb ha ih =>
    simp only [dite_eq_ite] at ih
    by_cases hxy : x = y
    · rw [if_pos hxy] at ih ⊢
      have hnext : Walk.Next ⟨memo, (a, b) :: rest, σ⟩ ⟨memo, rest, σ⟩ := by
        refine .agree ?_
        rw [ha, hb, hxy]
        exact .var y
      exact run_head hnext (ih (hnext.closed hw) hroom)
    · rw [if_neg hxy] at ih ⊢
      have hnext : Walk.Next ⟨memo, (a, b) :: rest, σ⟩ ⟨memo, rest, σ.merge x y⟩ := .merge ha hb hxy
      exact run_head hnext (ih (hnext.closed hw) (hroom.congr (merge_records σ x y)))
  | case3 room memo a b rest σ x v hb ha ih =>
    have hnext : Walk.Next ⟨memo, (a, b) :: rest, σ⟩ ⟨memo, rest, σ.assign x v⟩ := .assignLeft ha hb
    exact run_head hnext (ih (hnext.closed hw) (hroom.congr (assign_records σ x v)))
  | case4 room memo a b rest σ v x hb ha ih =>
    have hnext : Walk.Next ⟨memo, (a, b) :: rest, σ⟩ ⟨memo, rest, σ.assign x v⟩ := .assignRight ha hb
    exact run_head hnext (ih (hnext.closed hw) (hroom.congr (assign_records σ x v)))
  | case5 room memo a b rest σ r s hb ha hmem ih =>
    have hnext : Walk.Next ⟨memo, (a, b) :: rest, σ⟩ ⟨memo, rest, σ⟩ := by
      refine .agree ?_
      rw [ha, hb]
      exact .record hmem
    exact run_head hnext (ih (hnext.closed hw) hroom)
  -- running out of room is excluded by the invariant
  | case6 memo a b rest σ r s hb ha hmem =>
    have hr : r < σ.records.size := hw.store.resolve_val hw.work.head.1 ha
    have hs : s < σ.records.size := hw.store.resolve_val hw.work.head.2 hb
    exact absurd rfl (hroom.ne_zero hr hs fun hin => hmem (.inr hin))
  | case7 memo a b rest σ r s hb ha hmem _ _ hshape room ih =>
    have hr : r < σ.records.size := hw.store.resolve_val hw.work.head.1 ha
    have hs : s < σ.records.size := hw.store.resolve_val hw.work.head.2 hb
    have hne : r ≠ s := fun heq => hmem (.inl heq)
    have hnot : (r, s) ∉ memo := fun hin => hmem (.inr hin)
    have hnext : Walk.Next ⟨memo, (a, b) :: rest, σ⟩ ⟨memo.insert (r, s), _, σ⟩ :=
      .expand ha hb hne hnot hshape
    exact run_head hnext (ih (hnext.closed hw) (hroom.insert hr hs hnot))
  | case8 room memo a b rest σ r s hb ha hmem _ _ hshape =>
    refine ⟨_, .refl, rfl, .clash _ rfl ?_⟩
    rw [ha, hb]
    exact .shape (fun heq => hmem (.inl heq)) hshape
  | case9 room memo a b rest σ v w _ hb ha hsame ih =>
    have hnext : Walk.Next ⟨memo, (a, b) :: rest, σ⟩ ⟨memo, rest, σ⟩ := by
      refine .agree ?_
      rw [ha, hb]
      exact .atom hsame
    exact run_head hnext (ih (hnext.closed hw) hroom)
  | case10 room memo a b rest σ v w hrecord hb ha hsame =>
    refine ⟨_, .refl, rfl, .clash _ rfl ?_⟩
    rw [ha, hb]
    exact .atom hrecord hsame

variable {σ : Store} {a b : Term}

/-- The walk that makes two terms equal starts closed. -/
theorem closed_walk (hσ : σ.Closed) (ha : a.In σ) (hb : b.In σ) : Walk.Closed ⟨{}, [(a, b)], σ⟩ :=
  ⟨hσ, .single ha hb⟩

theorem unify_run (hσ : σ.Closed) (ha : a.In σ) (hb : b.In σ) :
    ∃ e, Walk.Run ⟨{}, [(a, b)], σ⟩ e ∧ e.store = (σ.unify a b).2 ∧ e.Ends (σ.unify a b).1 :=
  unifyAll_run (closed_walk hσ ha hb) (.empty σ)

/-- Unification, whether it succeeds or not, binds and merges unbound variables. -/
theorem unify_binds (hσ : σ.Closed) (ha : a.In σ) (hb : b.In σ) :
    σ.BindsMany (σ.unify a b).2 := by
  obtain ⟨e, hrun, hstore, -⟩ := unify_run hσ ha hb
  exact hstore ▸ Walk.Run.binds hrun (closed_walk hσ ha hb)

/-- Unifying two variables only binds variables. -/
theorem unifyVars_binds (hσ : σ.Closed) {x y : Nat} (hx : x < σ.vars.size) (hy : y < σ.vars.size) :
    σ.BindsMany (σ.unifyVars x y).2 := by
  have hx' : σ.representative x < σ.vars.size := representative_lt_size hx
  have hy' : σ.representative y < σ.vars.size := representative_lt_size hy
  rw [unifyVars]
  split
  · exact .refl
  · refine unify_binds hσ ?_ ?_
    · exact Nat.lt_of_le_of_lt (Nat.min_le_left ..) hx'
    · exact Nat.max_lt.mpr ⟨hx', hy'⟩

/-! ## Outcomes -/

@[simp] theorem assign_closures (σ : Store) (x : VarId) (v : Value) :
    (σ.assign x v).closures = σ.closures := by
  rw [assign_eq]

/-- Whatever the store is like, the walk makes no closure, and its only fault is a conflict of two values. -/
theorem unifyAll_outcome (room : Nat) (memo : PairMemo) (work : List (Term × Term)) (σ : Store) :
    (unifyAll room memo work σ).2.closures = σ.closures ∧
      ∀ f, (unifyAll room memo work σ).1 = some f → ∃ v w, f = .bindConflict v w := by
  fun_induction unifyAll room memo work σ with
  | case1 | case6 => exact ⟨rfl, fun f hf => by cases hf⟩
  | case2 room memo a b rest σ x y hb ha ih =>
    simp only [dite_eq_ite] at ih
    refine ⟨ih.1.trans ?_, ih.2⟩
    split
    · rfl
    · rfl
  | case3 room memo a b rest σ x v hb ha ih => exact ⟨ih.1.trans (assign_closures σ x v), ih.2⟩
  | case4 room memo a b rest σ v x hb ha ih => exact ⟨ih.1.trans (assign_closures σ x v), ih.2⟩
  | case5 room memo a b rest σ r s hb ha hmem ih => exact ih
  | case7 memo a b rest σ r s hb ha hmem _ _ hshape room ih => exact ih
  | case8 | case10 =>
    refine ⟨rfl, fun f hf => ?_⟩
    cases hf
    exact ⟨_, _, rfl⟩
  | case9 room memo a b rest σ v w _ hb ha hsame ih => exact ih

theorem unify_outcome (σ : Store) (a b : Term) :
    (σ.unify a b).2.closures = σ.closures ∧ ∀ f, (σ.unify a b).1 = some f → ∃ v w, f = .bindConflict v w :=
  unifyAll_outcome _ _ _ _

/-- A variable without a value takes the value that it is made equal to. -/
theorem unify_of_unbound {σ : Store} {x : Nat} (hx : σ.Unbound x) (v : Value) :
    σ.unify (.var x) (.val v) = (none, σ.assign x v) := by
  simp [Store.unify, unifyAll, Store.resolve, hx.resolveVar]

/-- Making two variables equal changes no closures, and fails only with a conflict. -/
theorem unifyVars_outcome (σ : Store) (x y : VarId) :
    (σ.unifyVars x y).2.closures = σ.closures ∧
      ∀ f, (σ.unifyVars x y).1 = some f → ∃ v w, f = .bindConflict v w := by
  rw [unifyVars]
  split
  · exact ⟨rfl, fun f hf => by cases hf⟩
  · exact unify_outcome _ _ _

end Store

end Dataflow
