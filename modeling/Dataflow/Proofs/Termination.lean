/-
Termination of the walks through a store.

Unifying, comparing and completing walk through a graph that may be cyclic, and unifying adds edges to it on its way. A
walk is a relation between stages, without any bound on its length. A stage knows what has been expanded so far, and a
step either makes the list of what is to be done shorter or expands something for the first time. There are finitely
many things to expand in a store, and no step makes new ones, so no walk goes on for ever (`Thrifty`).

The functions carry a bound that makes their recursion structural. The bound is never what ends them: they take the walk
to its end, and so they do with any larger bound.
-/
import Dataflow.Proofs.Touring
import Mathlib.Data.Set.Card

set_option autoImplicit false

namespace Dataflow

open Relation (ReflTransGen TransGen)

/-! ## Walks that expand nothing twice -/

section Thrifty

variable {S κ : Type}

/-- From the stage `s` no walk goes on for ever, and a walk expands only things of `all`, none of them twice. -/
structure Thrifty (step : S → S → Prop) (expands : S → κ → Prop) (all : Set κ) (s : S) : Prop where
  ends : Acc (fun t u => step u t) s
  once : ∀ t u k, ReflTransGen step s t → expands t k → TransGen step t u → ¬ expands u k
  within : ∀ t k, ReflTransGen step s t → expands t k → k ∈ all

/-- What shows that walks are thrifty: a memo of what has been expanded, and a list of what is to be done. -/
structure Bookkeeping (step : S → S → Prop) (expands : S → κ → Prop) (all : Set κ) (sound : S → Prop) where
  memo : S → Set κ
  todo : S → ℕ
  sound_step : ∀ {s t}, sound s → step s t → sound t
  fresh : ∀ {s k}, sound s → expands s k → k ∈ all ∧ k ∉ memo s
  unique : ∀ {s k k'}, expands s k → expands s k' → k = k'
  step_cases : ∀ {s t}, step s t → (∃ k, expands s k ∧ memo t = insert k (memo s)) ∨
    (∀ k, ¬ expands s k) ∧ memo t = memo s ∧ todo t < todo s

namespace Bookkeeping

variable {step : S → S → Prop} {expands : S → κ → Prop} {all : Set κ} {sound : S → Prop} {s t u : S} {k : κ}

/-- A step forgets nothing that the memo has. -/
theorem memo_step (b : Bookkeeping step expands all sound) (h : step s t) : b.memo s ⊆ b.memo t := by
  rcases b.step_cases h with ⟨k, -, hmemo⟩ | ⟨-, hmemo, -⟩
  · rw [hmemo]
    exact Set.subset_insert k _
  · exact hmemo.ge

/-- What is expanded is remembered. -/
theorem noted (b : Bookkeeping step expands all sound) (hk : expands s k) (h : step s t) : k ∈ b.memo t := by
  rcases b.step_cases h with ⟨k', hk', hmemo⟩ | ⟨hnone, -, -⟩
  · rw [hmemo, b.unique hk hk']
    exact Set.mem_insert k' _
  · exact absurd hk (hnone k)

/-- A run forgets nothing that the memo had at its start. -/
theorem memo_run (b : Bookkeeping step expands all sound) (h : ReflTransGen step s t) : b.memo s ⊆ b.memo t := by
  induction h with
  | refl => exact subset_rfl
  | tail _ hstep ih => exact ih.trans (b.memo_step hstep)

/-- What is sound stays sound along a run. -/
theorem sound_run (b : Bookkeeping step expands all sound) (h : ReflTransGen step s t) (hs : sound s) : sound t := by
  induction h with
  | refl => exact hs
  | tail _ hstep ih => exact b.sound_step ih hstep

/-- A step expands one of the things that are left, or else makes the list shorter. -/
theorem measure_step (b : Bookkeeping step expands all sound) (hfinite : all.Finite) (hs : sound s)
    (h : step s t) :
    (all \ b.memo t).ncard < (all \ b.memo s).ncard ∨
      (all \ b.memo t).ncard = (all \ b.memo s).ncard ∧ b.todo t < b.todo s := by
  rcases b.step_cases h with ⟨k, hk, hmemo⟩ | ⟨-, hmemo, htodo⟩
  · obtain ⟨hin, hnot⟩ := b.fresh hs hk
    refine .inl (Set.ncard_lt_ncard ?_ (hfinite.subset Set.sdiff_subset))
    rw [hmemo]
    refine (Set.ssubset_iff_of_subset ?_).mpr ⟨k, ⟨hin, hnot⟩, fun hmem => hmem.2 (Set.mem_insert k _)⟩
    exact Set.sdiff_subset_sdiff_right (Set.subset_insert k _)
  · exact .inr ⟨by rw [hmemo], htodo⟩

/-- **Walks that keep books are thrifty.** -/
theorem thrifty (b : Bookkeeping step expands all sound) (hfinite : all.Finite) (hs : sound s) :
    Thrifty step expands all s where
  ends := by
    -- on the number of things that are left, and then on the length of the list
    have hwf : WellFounded (Prod.Lex (· < · : ℕ → ℕ → Prop) (· < · : ℕ → ℕ → Prop)) :=
      WellFounded.prod_lex wellFounded_lt wellFounded_lt
    have hacc : ∀ m : ℕ × ℕ, ∀ s, sound s → ((all \ b.memo s).ncard, b.todo s) = m →
        Acc (fun t u => step u t) s := by
      intro m
      induction m using hwf.induction with
      | _ m ih =>
        rintro s hs rfl
        refine ⟨s, fun t ht => ih _ ?_ t (b.sound_step hs ht) rfl⟩
        rcases b.measure_step hfinite hs ht with hlt | ⟨heq, hlt⟩
        · exact .left _ _ hlt
        · rw [heq]
          exact .right _ hlt
    exact hacc _ s hs rfl
  once t u k ht hk hu hk' := by
    obtain ⟨t', hstep, hrun⟩ := TransGen.head'_iff.mp hu
    have hsound := b.sound_run (ht.trans hu.to_reflTransGen) hs
    exact (b.fresh hsound hk').2 (b.memo_run hrun (b.noted hk hstep))
  within t k ht hk := (b.fresh (b.sound_run ht hs) hk).1

end Bookkeeping

end Thrifty

/-- The item at the front of a list of what is to be done opens `k`. -/
def Front {ι κ : Type} (opens : ι → κ → Prop) (work : List ι) (k : κ) : Prop := ∃ i ∈ work.head?, opens i k

section Front

variable {ι κ : Type} {opens : ι → κ → Prop} {work rest : List ι} {i : ι} {k k' : κ}

/-- The front of the work is what its first item opens. -/
theorem front_cons : Front opens (i :: rest) k ↔ opens i k := by
  simp [Front]

/-- What the front opens is opened by an item of the work. -/
theorem Front.exists_mem (h : Front opens work k) : ∃ i ∈ work, opens i k := by
  obtain ⟨i, hi, hk⟩ := h
  exact ⟨i, List.mem_of_mem_head? hi, hk⟩

/-- The front opens one thing only, if no item opens two. -/
theorem Front.unique (hopens : ∀ i, opens i k → opens i k' → k = k') (h : Front opens work k)
    (h' : Front opens work k') : k = k' := by
  obtain ⟨i, hi, hk⟩ := h
  obtain ⟨j, hj, hk'⟩ := h'
  obtain rfl : i = j := Option.mem_unique hi hj
  exact hopens i hk hk'

end Front

/-- What remains to be shown after a step has been taken. -/
theorem exists_run_head {S : Type} {step : S → S → Prop} {ends : S → Prop} {s t : S} (h : step s t)
    (hrest : ∃ e, ReflTransGen step t e ∧ ends e) : ∃ e, ReflTransGen step s e ∧ ends e := by
  obtain ⟨e, hrun, hends⟩ := hrest
  exact ⟨e, hrun.head h, hends⟩

/-! ## Pairs of records -/

namespace Store

variable {σ : Store}

/-- The ordered pairs of records of the store. -/
def recordPairs (σ : Store) : Set (RecordId × RecordId) := {p | p.1 < σ.records.size ∧ p.2 < σ.records.size}

/-- A store has finitely many pairs of records. -/
theorem recordPairs_finite (σ : Store) : σ.recordPairs.Finite :=
  (Set.finite_lt_nat σ.records.size).prod (Set.finite_lt_nat σ.records.size)

/-- The two terms are records of one shape that have not been expanded together. -/
structure Opens (σ : Store) (memo : PairMemo) (a b : Term) (p : RecordId × RecordId) : Prop where
  left : σ.resolve a = .val (.record p.1)
  right : σ.resolve b = .val (.record p.2)
  ne : p.1 ≠ p.2
  fresh : p ∉ memo
  shape : (σ.record p.1).sameShape (σ.record p.2) = true

namespace Opens

variable {memo : PairMemo} {a b : Term} {p q : RecordId × RecordId}

theorem unique (h : σ.Opens memo a b p) (h' : σ.Opens memo a b q) : p = q := by
  have hleft : p.1 = q.1 := Value.record.inj (Term.val.inj (h.left.symm.trans h'.left))
  have hright : p.2 = q.2 := Value.record.inj (Term.val.inj (h.right.symm.trans h'.right))
  exact Prod.ext hleft hright

/-- Terms that agree already are not expanded. -/
theorem not_agrees (h : σ.Opens memo a b p) : ¬ Agrees memo.Has (σ.resolve a) (σ.resolve b) := by
  rw [h.left, h.right]
  rintro (_ | hagrees | hatom)
  · exact hagrees.elim h.ne h.fresh
  · exact Value.not_sameAtom_record _ _ hatom

/-- Variables are not expanded. -/
theorem left_ne_var (h : σ.Opens memo a b p) (x : VarId) : σ.resolve a ≠ .var x := by
  rw [h.left]
  nofun

theorem right_ne_var (h : σ.Opens memo a b p) (x : VarId) : σ.resolve b ≠ .var x := by
  rw [h.right]
  nofun

/-- A pair of records opened in a closed store is a pair of that store. -/
theorem mem_recordPairs (h : σ.Opens memo a b p) (hσ : σ.Closed) (ha : a.In σ) (hb : b.In σ) : p ∈ σ.recordPairs :=
  ⟨hσ.resolve_val ha h.left, hσ.resolve_val hb h.right⟩

end Opens

theorem setOf_insert (memo : PairMemo) (p : RecordId × RecordId) :
    {q | q ∈ memo.insert p} = insert p {q | q ∈ memo} := by
  ext q
  exact mem_insert_iff

end Store

/-! ## Unifying -/

namespace Walk

open Store

/-- The pair of records in front is to be expanded. -/
def Expands (w : Walk) : RecordId × RecordId → Prop := Front (fun q => w.store.Opens w.memo q.1 q.2) w.work

variable {w w' : Walk}

/-- A step expands the pair of records in front, or else it is done with the pair. -/
theorem Next.cases (h : Next w w') : (∃ p, w.Expands p ∧ w'.memo = w.memo.insert p) ∨
    (∀ p, ¬ w.Expands p) ∧ w'.memo = w.memo ∧ w'.work.length < w.work.length := by
  cases h with
  | agree h => exact .inr ⟨fun p hp => (front_cons.mp hp).not_agrees h, rfl, Nat.lt_succ_self _⟩
  | merge ha | assignLeft ha => exact .inr ⟨fun p hp => (front_cons.mp hp).left_ne_var _ ha, rfl, Nat.lt_succ_self _⟩
  | assignRight ha hb => exact .inr ⟨fun p hp => (front_cons.mp hp).right_ne_var _ hb, rfl, Nat.lt_succ_self _⟩
  | expand ha hb hne hnot hshape => exact .inl ⟨_, front_cons.mpr ⟨ha, hb, hne, hnot, hshape⟩, rfl⟩

/-- A step leaves the records alone, although it may bind variables in them. -/
theorem Next.records (h : Next w w') : w'.store.records = w.store.records := by
  cases h with
  | agree | expand => rfl
  | merge => exact merge_records _ _ _
  | assignLeft | assignRight => exact assign_records _ _ _

/-- The pairs that have been expanded, and what is left to be made equal. -/
def bookkeeping (σ : Store) : Bookkeeping Next Expands σ.recordPairs fun w => w.Closed ∧ w.store.records = σ.records where
  memo w := {p | p ∈ w.memo}
  todo w := w.work.length
  sound_step h hnext := ⟨hnext.closed h.1, hnext.records.trans h.2⟩
  fresh := by
    rintro w p ⟨hw, hrecords⟩ hp
    obtain ⟨q, hq, hopens⟩ := hp.exists_mem
    have hin : q.1.In w.store ∧ q.2.In w.store := hw.work q hq
    have hpairs : w.store.recordPairs = σ.recordPairs := by rw [recordPairs, recordPairs, hrecords]
    exact ⟨hpairs ▸ hopens.mem_recordPairs hw.store hin.1 hin.2, hopens.fresh⟩
  unique := Front.unique fun _ => Opens.unique
  step_cases h := by
    rcases h.cases with ⟨p, hp, hmemo⟩ | ⟨hnone, hmemo, hlength⟩
    · exact .inl ⟨p, hp, by rw [hmemo]; exact setOf_insert _ p⟩
    · exact .inr ⟨hnone, by rw [hmemo], hlength⟩

end Walk

namespace Store

variable {σ : Store} {a b : Term}

theorem Room.of_le {room : Nat} (h : σ.pairCount ≤ room) : σ.Room room {} :=
  ⟨fun _ hp => absurd hp Std.HashSet.not_mem_empty, Nat.le_add_right_of_le h⟩

/-- With all the room that it may need or more, unification walks to an end. -/
theorem unifyAll_ends (hσ : σ.Closed) (ha : a.In σ) (hb : b.In σ) {room : Nat} (hroom : σ.pairCount ≤ room) :
    ∃ e, Walk.Run ⟨{}, [(a, b)], σ⟩ e ∧ e.store = (unifyAll room {} [(a, b)] σ).2 ∧
      e.Ends (unifyAll room {} [(a, b)] σ).1 :=
  unifyAll_run (closed_walk hσ ha hb) (.of_le hroom)

end Store

/-! ## Comparing -/

/-- A stage of comparing: the pairs of records that have been expanded, the first variable that the answer has been
found to wait for, and the pairs of terms that are still to be compared. -/
structure Comparison where
  memo : PairMemo
  waiting : Option VarId
  work : List (Term × Term)

namespace Comparison

open Store

/-- What happens to the pair in front. -/
inductive Next (σ : Store) : Comparison → Comparison → Prop where
  | agree {memo : PairMemo} {waiting : Option VarId} {a b : Term} {rest : List (Term × Term)}
      (h : Agrees memo.Has (σ.resolve a) (σ.resolve b)) : Next σ ⟨memo, waiting, (a, b) :: rest⟩ ⟨memo, waiting, rest⟩
  | waitLeft {memo : PairMemo} {waiting : Option VarId} {a b : Term} {rest : List (Term × Term)} {x : VarId}
      (ha : σ.resolve a = .var x) (hne : σ.resolve b ≠ .var x) :
      Next σ ⟨memo, waiting, (a, b) :: rest⟩ ⟨memo, waiting.or (some x), rest⟩
  | waitRight {memo : PairMemo} {waiting : Option VarId} {a b : Term} {rest : List (Term × Term)} {x : VarId} {v : Value}
      (ha : σ.resolve a = .val v) (hb : σ.resolve b = .var x) :
      Next σ ⟨memo, waiting, (a, b) :: rest⟩ ⟨memo, waiting.or (some x), rest⟩
  | expand {memo : PairMemo} {waiting : Option VarId} {a b : Term} {rest : List (Term × Term)} {r s : RecordId}
      (h : σ.Opens memo a b (r, s)) :
      Next σ ⟨memo, waiting, (a, b) :: rest⟩
        ⟨memo.insert (r, s), waiting, (σ.record r).sides (σ.record s) ++ rest⟩

/-- How comparing ends: with nothing left to do, or with a clash in front. -/
inductive Ends (σ : Store) (c : Comparison) : Verdict → Prop where
  | done (h : c.work = []) : c.Ends σ (.ofWaiting c.waiting)
  | clash {a b : Term} {rest : List (Term × Term)} (h : c.work = (a, b) :: rest)
      (hclash : σ.Clash (σ.resolve a) (σ.resolve b)) : c.Ends σ .different

/-- Any number of steps. -/
abbrev Run (σ : Store) : Comparison → Comparison → Prop := ReflTransGen (Next σ)

/-- The pair of records in front is to be expanded. -/
def Expands (σ : Store) (c : Comparison) : RecordId × RecordId → Prop :=
  Front (fun q => σ.Opens c.memo q.1 q.2) c.work

variable {σ : Store} {c c' : Comparison}

/-- A step expands the pair of records in front, or else it is done with the pair. -/
theorem Next.cases (h : Next σ c c') : (∃ p, c.Expands σ p ∧ c'.memo = c.memo.insert p) ∨
    (∀ p, ¬ c.Expands σ p) ∧ c'.memo = c.memo ∧ c'.work.length < c.work.length := by
  cases h with
  | agree h => exact .inr ⟨fun p hp => (front_cons.mp hp).not_agrees h, rfl, Nat.lt_succ_self _⟩
  | waitLeft ha => exact .inr ⟨fun p hp => (front_cons.mp hp).left_ne_var _ ha, rfl, Nat.lt_succ_self _⟩
  | waitRight ha hb => exact .inr ⟨fun p hp => (front_cons.mp hp).right_ne_var _ hb, rfl, Nat.lt_succ_self _⟩
  | expand h => exact .inl ⟨_, front_cons.mpr h, rfl⟩

/-- What is left to be compared stays in the store. -/
theorem Next.workIn (hσ : σ.Closed) (h : Next σ c c') (hwork : σ.WorkIn c.work) : σ.WorkIn c'.work := by
  cases h with
  | agree | waitLeft | waitRight => exact hwork.tail
  | expand => exact hwork.tail.sides hσ _ _

/-- The pairs that have been expanded, and what is left to be compared. -/
def bookkeeping (hσ : σ.Closed) : Bookkeeping (Next σ) (Expands σ) σ.recordPairs fun c => σ.WorkIn c.work where
  memo c := {p | p ∈ c.memo}
  todo c := c.work.length
  sound_step hwork hnext := hnext.workIn hσ hwork
  fresh := by
    intro c p hwork hp
    obtain ⟨q, hq, hopens⟩ := hp.exists_mem
    have hin : q.1.In σ ∧ q.2.In σ := hwork q hq
    exact ⟨hopens.mem_recordPairs hσ hin.1 hin.2, hopens.fresh⟩
  unique := Front.unique fun _ => Opens.unique
  step_cases h := by
    rcases h.cases with ⟨p, hp, hmemo⟩ | ⟨hnone, hmemo, hlength⟩
    · exact .inl ⟨p, hp, by rw [hmemo]; exact setOf_insert _ p⟩
    · exact .inr ⟨hnone, by rw [hmemo], hlength⟩

end Comparison

namespace Store

variable {σ : Store} {a b : Term}

/-- On a closed store `compareAll` walks to an end. -/
theorem compareAll_run {room : Nat} {memo : PairMemo} {waiting : Option VarId} {work : List (Term × Term)}
    (hσ : σ.Closed) (hwork : σ.WorkIn work) (hroom : σ.Room room memo) :
    ∃ e, Comparison.Run σ ⟨memo, waiting, work⟩ e ∧ e.Ends σ (σ.compareAll room memo waiting work) := by
  -- in each case the step that the function takes is one of the relation, and the rest is the hypothesis
  fun_induction compareAll σ room memo waiting work with
  | case1 room memo waiting => exact ⟨_, .refl, .done rfl⟩
  | case2 room memo waiting a b rest x y hb ha ih =>
    simp only [dite_eq_ite] at ih
    by_cases hxy : x = y
    · rw [if_pos hxy] at ih ⊢
      refine exists_run_head (.agree ?_) (ih hwork.tail hroom)
      rw [ha, hb, hxy]
      exact .var y
    · rw [if_neg hxy] at ih ⊢
      refine exists_run_head (.waitLeft ha ?_) (ih hwork.tail hroom)
      rw [hb]
      exact fun heq => hxy (Term.var.inj heq).symm
  | case3 room memo waiting a b rest x v hb ha ih =>
    exact exists_run_head (.waitLeft ha (by simp [hb])) (ih hwork.tail hroom)
  | case4 room memo waiting a b rest v x hb ha ih =>
    exact exists_run_head (.waitRight ha hb) (ih hwork.tail hroom)
  | case5 room memo waiting a b rest r s hb ha hmem ih =>
    refine exists_run_head (.agree ?_) (ih hwork.tail hroom)
    rw [ha, hb]
    exact .record hmem
  -- running out of room is excluded by the invariant
  | case6 memo waiting a b rest r s hb ha hmem =>
    have hr : r < σ.records.size := hσ.resolve_val hwork.head.1 ha
    have hs : s < σ.records.size := hσ.resolve_val hwork.head.2 hb
    exact absurd rfl (hroom.ne_zero hr hs fun hin => hmem (.inr hin))
  | case7 memo waiting a b rest r s hb ha hmem _ _ hshape room ih =>
    have hr : r < σ.records.size := hσ.resolve_val hwork.head.1 ha
    have hs : s < σ.records.size := hσ.resolve_val hwork.head.2 hb
    have hnot : (r, s) ∉ memo := fun hin => hmem (.inr hin)
    have hopens : σ.Opens memo a b (r, s) := ⟨ha, hb, fun heq => hmem (.inl heq), hnot, hshape⟩
    exact exists_run_head (.expand hopens) (ih (hwork.tail.sides hσ r s) (hroom.insert hr hs hnot))
  | case8 room memo waiting a b rest r s hb ha hmem _ _ hshape =>
    refine ⟨_, .refl, .clash rfl ?_⟩
    rw [ha, hb]
    exact .shape (fun heq => hmem (.inl heq)) hshape
  | case9 room memo waiting a b rest v w _ hb ha hsame ih =>
    refine exists_run_head (.agree ?_) (ih hwork.tail hroom)
    rw [ha, hb]
    exact .atom hsame
  | case10 room memo waiting a b rest v w hrecord hb ha hsame =>
    refine ⟨_, .refl, .clash rfl ?_⟩
    rw [ha, hb]
    exact .atom hrecord hsame

end Store

/-! ## Completing -/

/-- The site is there. -/
def Site.In (σ : Store) : Site → Prop
  | .record r => r < σ.records.size
  | .closure c => c < σ.closures.size

/-- A stage of completing: the sites that have been entered, and the terms that are still to be visited. -/
structure Visit where
  entered : Set Site
  work : List Term

namespace Visit

open Store

/-- What happens to the term in front. -/
inductive Next (σ : Store) : Visit → Visit → Prop where
  | pass {entered : Set Site} {t : Term} {rest : List Term} (he : σ.obstacle? t = none) (hp : σ.site? t = none) :
      Next σ ⟨entered, t :: rest⟩ ⟨entered, rest⟩
  | again {entered : Set Site} {t : Term} {rest : List Term} {p : Site} (hp : σ.site? t = some p)
      (hmem : p ∈ entered) : Next σ ⟨entered, t :: rest⟩ ⟨entered, rest⟩
  | enter {entered : Set Site} {t : Term} {rest : List Term} {p : Site} (hp : σ.site? t = some p)
      (hnot : p ∉ entered) : Next σ ⟨entered, t :: rest⟩ ⟨insert p entered, σ.parts p ++ rest⟩

/-- How completing ends: with nothing left to visit, or with an obstacle in front. -/
inductive Ends (σ : Store) (w : Visit) : Option Interrupt → Prop where
  | done (h : w.work = []) : w.Ends σ none
  | obstacle {t : Term} {rest : List Term} {e : Interrupt} (h : w.work = t :: rest) (he : σ.obstacle? t = some e) :
      w.Ends σ (some e)

/-- Any number of steps. -/
abbrev Run (σ : Store) : Visit → Visit → Prop := ReflTransGen (Next σ)

/-- The site in front is to be entered. -/
def Expands (σ : Store) (w : Visit) : Site → Prop := Front (fun t p => σ.site? t = some p ∧ p ∉ w.entered) w.work

variable {σ : Store} {w w' : Visit}

/-- A step enters the site in front, or else it is done with the term. -/
theorem Next.cases (h : Next σ w w') : (∃ p, w.Expands σ p ∧ w'.entered = insert p w.entered) ∨
    (∀ p, ¬ w.Expands σ p) ∧ w'.entered = w.entered ∧ w'.work.length < w.work.length := by
  cases h with
  | pass he hp =>
    refine .inr ⟨fun p hp' => ?_, rfl, Nat.lt_succ_self _⟩
    cases hp.symm.trans (front_cons.mp hp').1
  | again hp hmem =>
    refine .inr ⟨fun p hp' => ?_, rfl, Nat.lt_succ_self _⟩
    obtain ⟨hsite, hnot⟩ := front_cons.mp hp'
    cases hp.symm.trans hsite
    exact hnot hmem
  | enter hp hnot => exact .inl ⟨_, front_cons.mpr ⟨hp, hnot⟩, rfl⟩

/-- What is left to be visited stays in the store. -/
theorem Next.workIn (hσ : σ.Closed) (h : Next σ w w') (hwork : ∀ t ∈ w.work, t.In σ) : ∀ t ∈ w'.work, t.In σ := by
  cases h with
  | pass | again => exact (List.forall_mem_cons.mp hwork).2
  | enter hp =>
    obtain ⟨ht, hrest⟩ := List.forall_mem_cons.mp hwork
    exact List.forall_mem_append.mpr ⟨fun u hu => (Yields.part hp hu).isIn hσ ht, hrest⟩

end Visit

namespace Store

variable {σ : Store} {t : Term}

/-- The sites of the store. -/
def sites (σ : Store) : Set Site := {p | p.In σ}

/-- A store has finitely many sites: a site is a record or a closure of it. -/
theorem sites_finite (σ : Store) : σ.sites.Finite := by
  have hrecords := (Set.finite_lt_nat σ.records.size).image Site.record
  have hclosures := (Set.finite_lt_nat σ.closures.size).image Site.closure
  refine (hrecords.union hclosures).subset fun p hp => ?_
  cases p with
  | record r => exact .inl ⟨r, hp, rfl⟩
  | closure c => exact .inr ⟨c, hp, rfl⟩

/-- A term of the store leads to sites of the store. -/
theorem site?_mem_sites (hσ : σ.Closed) (ht : t.In σ) {p : Site} (h : σ.site? t = some p) : p ∈ σ.sites := by
  obtain ⟨v, hv, hp⟩ := site?_eq_some h
  have hin : v.In σ := hσ.resolve_val ht hv
  cases v with
  | record r =>
    cases hp
    exact hin
  | config k =>
    cases hp
    exact (hσ.config hin).2
  | proc q =>
    cases q with
    | closure c | actorMaker c =>
      cases hp
      exact hin
    | native | ofCell | ofActor | iter => cases hp
  | lit | num | failed | obj => cases hp

end Store

namespace Visit

open Store

variable {σ : Store}

/-- The sites that have been entered, and what is left to be visited. -/
def bookkeeping (hσ : σ.Closed) : Bookkeeping (Next σ) (Expands σ) σ.sites fun w => ∀ t ∈ w.work, t.In σ where
  memo w := w.entered
  todo w := w.work.length
  sound_step hwork hnext := hnext.workIn hσ hwork
  fresh := by
    intro w p hwork hp
    obtain ⟨t, ht, hsite, hnot⟩ := hp.exists_mem
    exact ⟨site?_mem_sites hσ (hwork t ht) hsite, hnot⟩
  unique := Front.unique fun _ h h' => Option.some.inj (h.1.symm.trans h'.1)
  step_cases h := h.cases

/-- What the plain walk answers is how completing ends. -/
theorem run_of_tour {entered : Set Site} {work : List Term} {answer : Option Interrupt}
    (h : σ.Tour entered work answer) : ∃ e, Run σ ⟨entered, work⟩ e ∧ e.Ends σ answer := by
  induction h with
  | done => exact ⟨_, .refl, .done rfl⟩
  | obstacle he => exact ⟨_, .refl, .obstacle rfl he⟩
  | pass he hp _ ih => exact exists_run_head (.pass he hp) ih
  | again hp hmem _ ih => exact exists_run_head (.again hp hmem) ih
  | enter hp hnot _ ih => exact exists_run_head (.enter hp hnot) ih

end Visit

/-- What an action has been stopped by, if anything. -/
def stoppedBy {α : Type} : EStateM.Result Interrupt Store α → Option Interrupt
  | .ok _ _ => none
  | .error e _ => some e

namespace Completer

open Completed

variable {α β : Type} {σ τ υ φ : Store} {done done' done'' : Completed} {t : Term}

/-- With all the depth that it may need or more, completing walks to an end. -/
theorem term_run (hσ : σ.Closed) (ht : t.In σ) {depth : Nat} (hdepth : σ.records.size + σ.closures.size < depth) :
    ∃ e, Visit.Run σ ⟨∅, [t]⟩ e ∧ e.Ends σ (stoppedBy (((term depth t).run' {} : Action Value) σ)) := by
  have hroom : unentered σ {} < depth := (unentered_le σ {}).trans_lt hdepth
  have hfollows := term_tracks hσ t depth (.refl σ) (recalls_empty σ σ t) hroom ht .refl
  rw [Follows, sites_empty] at hfollows
  -- what has been remembered is forgotten in the end
  have hrun : ((term depth t).run' {} : Action Value) σ = (Prod.fst <$> term depth t {} : Action Value) σ := rfl
  refine Visit.run_of_tour ?_
  rw [hrun]
  simp only [Functor.map, EStateM.map]
  generalize term depth t {} σ = result at hfollows
  cases result with
  | ok p τ => exact hfollows.2.2.2.1 [] none (.done _)
  | error e τ => exact hfollows []

/-! ### How many records are rebuilt -/

/-- If the step succeeds, then what it leads to satisfies `Q`. -/
def Gives (m : Completer α) (τ : Store) (done : Completed) (Q : α → Store → Completed → Prop) : Prop :=
  match m done τ with
  | .ok (a, done') υ => Q a υ done'
  | .error _ _ => True

/-- What a completer gives is what the next one starts from. -/
theorem Gives.bind {m : Completer α} {f : α → Completer β} {Q : α → Store → Completed → Prop}
    {R : β → Store → Completed → Prop} (h : m.Gives τ done Q)
    (hf : ∀ a υ done', Q a υ done' → (f a).Gives υ done' R) : (m >>= f).Gives τ done R := by
  rw [Gives] at h
  rw [Gives, show (m >>= f) done = (m done >>= fun p => f p.1 p.2) from rfl, bind_apply]
  generalize m done τ = result at h
  cases result with
  | ok p υ => exact hf p.1 υ p.2 h
  | error e υ => trivial

theorem Gives.imp {m : Completer α} {Q R : α → Store → Completed → Prop} (h : m.Gives τ done Q)
    (hQ : ∀ a υ done', Q a υ done' → R a υ done') : m.Gives τ done R := by
  rw [Gives] at h ⊢
  generalize m done τ = result at h
  cases result with
  | ok p υ => exact hQ _ _ _ h
  | error e υ => trivial

/-- Looking, remembering and making something succeed. -/
theorem gives_read {f : Store → α} {g : α → Completer β} {Q : β → Store → Completed → Prop}
    (h : (g (f τ)).Gives τ done Q) : ((monadLift (Action.read f) : Completer α) >>= g).Gives τ done Q := h

theorem gives_get {g : Completed → Completer β} {Q : β → Store → Completed → Prop} (h : (g done).Gives τ done Q) :
    ((get : Completer Completed) >>= g).Gives τ done Q := h

theorem gives_modify {f : Completed → Completed} {g : Unit → Completer β} {Q : β → Store → Completed → Prop}
    (h : (g ()).Gives τ (f done) Q) : ((modify f : Completer Unit) >>= g).Gives τ done Q := h

theorem gives_take {f : Store → α × Store} {g : α → Completer β} {Q : β → Store → Completed → Prop}
    (h : (g (f τ).1).Gives (f τ).2 done Q) : ((monadLift (Action.take f) : Completer α) >>= g).Gives τ done Q := h

/-- Between two stages as many records have been rebuilt as have been entered. -/
structure Tallies (τ : Store) (done : Completed) (υ : Store) (done' : Completed) : Prop where
  within : done.Within done'
  records : υ.records.size + done.records.size = τ.records.size + done'.records.size

/-- Nothing done is nothing tallied. -/
theorem Tallies.refl (τ : Store) (done : Completed) : Tallies τ done τ done := ⟨.refl done, rfl⟩

theorem Tallies.trans (h : Tallies τ done υ done') (h' : Tallies υ done' φ done'') : Tallies τ done φ done'' := by
  refine ⟨h.within.trans h'.within, ?_⟩
  have hfirst := h.records
  have hsecond := h'.records
  omega

/-- Completing terms tallies. -/
def Fair (complete : Term → Completer Value) : Prop :=
  ∀ {τ : Store} {done : Completed} (t : Term), (complete t).Gives τ done fun _ υ done' => Tallies τ done υ done'

variable {complete : Term → Completer Value}

/-- Completing the fields of a record one after the other adds up what each of them enters. -/
theorem fields_tally (hcomplete : Fair complete) (fs : List Field) :
    (fields complete fs).Gives τ done fun _ υ done' => Tallies τ done υ done' := by
  induction fs generalizing τ done with
  | nil => exact .refl τ done
  | cons f rest ih => exact (hcomplete f.value).bind fun _ υ done₁ h₁ => ih.bind fun _ φ done₂ h₂ => h₁.trans h₂

/-- Completing what a closure captured adds up what each variable enters. -/
theorem captures_tally (hcomplete : Fair complete) (env : Env) :
    (captures complete env).Gives τ done fun _ υ done' => Tallies τ done υ done' := by
  induction env generalizing τ done with
  | nil => exact .refl τ done
  | cons p rest ih => exact (hcomplete (.var p.2)).bind fun _ υ done₁ h₁ => ih.imp fun _ φ done₂ h₂ => h₁.trans h₂

/-- A record that is entered is rebuilt once. -/
theorem record_tally (hcomplete : Fair complete) {r : RecordId} (hnot : r ∉ done.records) :
    (record complete r).Gives τ done fun _ υ done' => Tallies τ done υ done' := by
  have hentered : (done.putRecord r (.record r)).records.size = done.records.size + 1 := by
    rw [putRecord, Std.HashMap.size_insert, if_neg hnot]
  refine gives_modify (gives_read ((fields_tally hcomplete _).bind fun gs υ done₁ h => ?_))
  have hmem : r ∈ done₁.records := h.within.records r (mem_putRecord.mpr (.inl rfl))
  -- the record that has been rebuilt takes the place of the one that was entered
  have hreplaced : ∀ v, (done₁.putRecord r v).records.size = done₁.records.size := fun v => by
    rw [putRecord, Std.HashMap.size_insert, if_pos hmem]
  have hadded : ∀ s, (υ.newRecord s).2.records.size = υ.records.size + 1 := fun s => Array.size_push ..
  refine gives_take (gives_modify ⟨?_, ?_⟩)
  · exact (done.within_putRecord r _).trans (h.within.trans (done₁.within_putRecord r _))
  · have htally : υ.records.size + (done.putRecord r (.record r)).records.size = τ.records.size + done₁.records.size :=
      h.records
    rw [hentered] at htally
    calc (υ.newRecord _).2.records.size + done.records.size = υ.records.size + 1 + done.records.size := by
          rw [hadded]
      _ = τ.records.size + done₁.records.size := by omega
      _ = τ.records.size + (done₁.putRecord r _).records.size := by rw [hreplaced]

/-- What is made from a closure is not rebuilt. -/
theorem closure_tally (hcomplete : Fair complete) (v : Value) (c : ClosureId) :
    (closure complete v c).Gives τ done fun _ υ done' => Tallies τ done υ done' := by
  refine gives_get ?_
  split
  · exact .refl τ done
  · refine gives_modify (gives_read ((captures_tally hcomplete _).bind fun _ υ done₁ h => ?_))
    exact ⟨(done.within_putClosure c v).trans h.within, h.records⟩

/-- **Completing rebuilds as many records as it enters.** -/
theorem term_tally (depth : Nat) : Fair (term depth) := by
  -- on the depth, which the parts of a term are completed with one less of
  induction depth with
  | zero =>
    refine fun {τ done} t => gives_read ?_
    split
    · trivial
    · exact .refl τ done
  | succ depth ih =>
    refine fun {τ done} t => gives_read ?_
    split
    · trivial
    · next v _ =>
      cases v with
      | record r =>
        refine gives_get ?_
        split
        · exact .refl τ done
        · next hnone =>
          refine record_tally ih ?_
          rw [Std.HashMap.mem_iff_isSome_getElem?, hnone]
          nofun
      | proc p =>
        cases p with
        | closure c | actorMaker c => exact closure_tally ih _ c
        | ofCell | iter => trivial
        | native | ofActor => exact .refl τ done
      | config k => exact gives_read (closure_tally ih _ _)
      | obj o =>
        cases o with
        | cell => trivial
        | actor => exact .refl τ done
      | lit | num | failed => exact .refl τ done

/-- A map from records of the store is no larger than the store. -/
theorem size_le_of_lt {entered : Std.HashMap RecordId Value} {n : Nat} (h : ∀ r : RecordId, r ∈ entered → r < n) :
    entered.size ≤ n := by
  have hsub : entered.keys ⊆ List.range n := fun r hr => List.mem_range.mpr (h r (Std.HashMap.mem_keys.mp hr))
  calc entered.size = entered.keys.length := Std.HashMap.length_keys.symm
    _ ≤ (List.range n).length := (List.subperm_of_subset Std.HashMap.nodup_keys hsub).length_le
    _ = n := List.length_range

/-- Completing builds at most one record for each record of the store. -/
theorem term_records (hσ : σ.Closed) (ht : t.In σ) {depth : Nat} (hdepth : σ.records.size + σ.closures.size < depth)
    {w : Value} (h : ((term depth t).run' {} : Action Value) σ = .ok w τ) : τ.records.size ≤ 2 * σ.records.size := by
  have hroom : unentered σ {} < depth := (unentered_le σ {}).trans_lt hdepth
  have hwalks := term_reaches hσ depth (.refl σ) (memo_empty σ σ) hroom ht
  have htally : (term depth t).Gives σ {} _ := term_tally depth t
  have hrun : ((term depth t).run' {} : Action Value) σ = (Prod.fst <$> term depth t {} : Action Value) σ := rfl
  rw [hrun] at h
  simp only [Functor.map, EStateM.map] at h
  rw [Walks] at hwalks
  rw [Gives] at htally
  generalize term depth t {} σ = result at hwalks htally h
  cases result with
  -- the records of the store are the old ones and one for each that was entered
  | ok p υ =>
    cases h
    have hin : ∀ r : RecordId, r ∈ p.2.records → r < σ.records.size := by
      intro r hr
      obtain ⟨v, hv⟩ := Option.isSome_iff_exists.mp (Std.HashMap.mem_iff_isSome_getElem?.mp hr)
      exact (hwalks.2.2.1.records r v hv).1
    have hentered : p.2.records.size ≤ σ.records.size := size_le_of_lt hin
    have hrecords : τ.records.size + 0 = σ.records.size + p.2.records.size := htally.records
    omega
  | error e υ => cases h

end Completer

/-! ## All three walks -/

namespace Store

variable {σ : Store} {a b : Term}

/-- **The walks end on every store**, whatever its graph is like. Unifying and comparing two terms expand only pairs of
records of the store and completing a term enters only records and closures of the store, nothing twice, and no such
walk goes on for ever, although unifying binds variables on its way. The functions take the walks to their ends: with
the bound that they choose and with any larger one they answer what the end of the walk says. Completing builds at most
one record for each record of the store. -/
theorem walks_terminate (hσ : σ.Closed) (ha : a.In σ) (hb : b.In σ) :
    (Thrifty Walk.Next Walk.Expands σ.recordPairs ⟨{}, [(a, b)], σ⟩ ∧
      ∀ room, σ.pairCount ≤ room → ∃ e, Walk.Run ⟨{}, [(a, b)], σ⟩ e ∧
        e.store = (unifyAll room {} [(a, b)] σ).2 ∧ e.Ends (unifyAll room {} [(a, b)] σ).1) ∧
    (Thrifty (Comparison.Next σ) (Comparison.Expands σ) σ.recordPairs ⟨{}, none, [(a, b)]⟩ ∧
      ∀ room, σ.pairCount ≤ room → ∃ e, Comparison.Run σ ⟨{}, none, [(a, b)]⟩ e ∧
        e.Ends σ (σ.compareAll room {} none [(a, b)])) ∧
    (Thrifty (Visit.Next σ) (Visit.Expands σ) σ.sites ⟨∅, [a]⟩ ∧
      ∀ depth, σ.records.size + σ.closures.size < depth →
        (∃ e, Visit.Run σ ⟨∅, [a]⟩ e ∧
          e.Ends σ (stoppedBy (((Completer.term depth a).run' {} : Action Value) σ))) ∧
        ∀ w τ, ((Completer.term depth a).run' {} : Action Value) σ = .ok w τ →
          τ.records.size ≤ 2 * σ.records.size) := by
  -- for each of the three walks: no run goes on for ever, and its function runs it to an end
  refine ⟨⟨?_, ?_⟩, ⟨?_, ?_⟩, ?_, ?_⟩
  · exact (Walk.bookkeeping σ).thrifty σ.recordPairs_finite ⟨closed_walk hσ ha hb, rfl⟩
  · exact fun room hroom => unifyAll_ends hσ ha hb hroom
  · exact (Comparison.bookkeeping hσ).thrifty σ.recordPairs_finite (WorkIn.single ha hb)
  · exact fun room hroom => compareAll_run hσ (.single ha hb) (.of_le hroom)
  · exact (Visit.bookkeeping hσ).thrifty σ.sites_finite (List.forall_mem_singleton.mpr ha)
  · exact fun depth hdepth => ⟨Completer.term_run hσ ha hdepth, fun w τ h => Completer.term_records hσ ha hdepth h⟩

/-- The only record and the variable inside it: making them equal ties the record to itself, comparing them waits, and
completing the record enters it once. -/
theorem walks_terminate_knot :
    knot.Closed ∧ Term.In knot (.val (.record 0)) ∧ Term.In knot (.var 0) ∧
      (Thrifty Walk.Next Walk.Expands knot.recordPairs ⟨{}, [(.val (.record 0), .var 0)], knot⟩ ∧
        ∃ e, Walk.Run ⟨{}, [(.val (.record 0), .var 0)], knot⟩ e ∧
          e.store = (knot.unify (.val (.record 0)) (.var 0)).2 ∧ e.Ends (knot.unify (.val (.record 0)) (.var 0)).1) ∧
      (Thrifty (Comparison.Next knot) (Comparison.Expands knot) knot.recordPairs
          ⟨{}, none, [(.val (.record 0), .var 0)]⟩ ∧
        ∃ e, Comparison.Run knot ⟨{}, none, [(.val (.record 0), .var 0)]⟩ e ∧
          e.Ends knot (knot.compare (.val (.record 0)) (.var 0))) ∧
      Thrifty (Visit.Next knot) (Visit.Expands knot) knot.sites ⟨∅, [.val (.record 0)]⟩ ∧
        ∃ e, Visit.Run knot ⟨∅, [.val (.record 0)]⟩ e ∧
          e.Ends knot (stoppedBy (Action.complete (.val (.record 0)) knot)) := by
  have hrecord : Term.In knot (.val (.record 0)) := Nat.zero_lt_one
  have hvar : Term.In knot (.var 0) := Nat.zero_lt_one
  obtain ⟨⟨hunify, hunified⟩, ⟨hcompare, hcompared⟩, hcomplete, hcompleted⟩ :=
    walks_terminate knot_closed hrecord hvar
  exact ⟨knot_closed, hrecord, hvar, ⟨hunify, hunified _ le_rfl⟩, ⟨hcompare, hcompared _ le_rfl⟩, hcomplete,
    (hcompleted _ (Nat.lt_succ_self _)).1⟩

end Store

end Dataflow
