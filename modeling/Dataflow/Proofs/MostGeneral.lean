/-
Unification computes a most general unifier.

Three things are shown about two terms from which no float is reached. If unification succeeds, the terms are
equal afterwards. If it is at fault, they are equal in no extension of the store, that is, after no sequence
of changes whatsoever in which variables are bound to terms without floats. And whatever a successful run
binds or merges is forced: the two are equal in every extension in which the terms are.

Each half is an invariant of the walk. `Sound` says that the pairs that have been dealt with agree under the
memo, as the store stands now. Later bindings do not disturb this, since a variable that gets a value gets it
on both sides. When nothing is left to do the memo is a consistent set. `Forced` compares the store of the
walk with an extension: what is still to be made equal is equal there, and so is every variable to what the
walk has made of it. Neither a clash nor anything unforced is compatible with that.
-/
import Dataflow.Proofs.UnificationRun

set_option autoImplicit false

namespace Dataflow

namespace Store

variable {σ τ : Store} {a b t u : Term}

/-! ## Extensions of a store -/

/-- A change of the store in which no variable gets a value from which a float is reached. -/
structure FreeStep (σ τ : Store) : Prop where
  step : Step σ τ
  free : ∀ x v, σ.Unbound x → τ.vars[x]? = some (.bound v) → σ.FloatFree (.val v)

/-- `τ` can be reached from `σ` by binding variables to terms without floats, by merging variables, and by
changes of other kinds. -/
abbrev Extends : Store → Store → Prop := Relation.ReflTransGen FreeStep

theorem Extends.evolves (h : σ.Extends τ) : σ.Evolves τ :=
  Relation.ReflTransGen.mono (fun _ _ h => FreeStep.step h) _ _ h

/-- The term is in the store and no float is reached from it. -/
structure Free (σ : Store) (t : Term) : Prop where
  isIn : t.In σ
  floatFree : σ.FloatFree t

/-- Binding a variable to a term without floats is a step that brings in no floats. -/
theorem FreeStep.assign {x : Nat} {v : Value} (hx : σ.Unbound x) (hv : σ.Free (.val v)) :
    FreeStep σ (σ.assign x v) := by
  refine ⟨.var (.binds (.assign hx hv.isIn)), fun z w hz hw => ?_⟩
  obtain ⟨ks, hks⟩ := hz
  rw [assign_getElem? hx, hks] at hw
  -- only this variable gets a value
  by_cases hzx : z = x
  · rw [if_pos hzx] at hw
    cases hw
    exact hv.floatFree
  · rw [if_neg hzx] at hw
    cases hw

/-- Merging two variables is a step that brings in no floats, since it brings in no values at all. -/
theorem FreeStep.merge {x y : Nat} (hx : σ.Unbound x) (hy : σ.Unbound y) (hne : x ≠ y) :
    FreeStep σ (σ.merge x y) := by
  refine ⟨.var (.binds (.merge hx hy hne)), fun z w hz hw => ?_⟩
  obtain ⟨ks, hks⟩ := hz
  rw [merge_getElem? hx hy, hks] at hw
  by_cases hmin : z = min x y
  · rw [if_pos hmin] at hw
    cases hw
  · rw [if_neg hmin] at hw
    by_cases hmax : z = max x y
    · rw [if_pos hmax] at hw
      cases hw
    · rw [if_neg hmax] at hw
      cases hw

namespace Free

theorem resolve (hσ : σ.Closed) (h : σ.Free t) : σ.Free (σ.resolve t) :=
  ⟨hσ.resolve h.isIn, h.floatFree.resolve hσ.linked⟩

theorem of_resolve_eq (hσ : σ.Closed) (h : σ.Free t) (htu : σ.resolve t = u) : σ.Free u :=
  htu ▸ h.resolve hσ

theorem field (hσ : σ.Closed) {r : RecordId} (h : σ.Free (.val (.record r))) {f : Field}
    (hf : f ∈ (σ.record r).fields) : σ.Free f.value :=
  ⟨hσ.record r f hf, h.floatFree.field rfl hf⟩

/-- A term without floats has none after a change in which no variable gets one. -/
theorem step (h : FreeStep σ τ) (hσ : σ.Closed) (ht : σ.Free t) : τ.Free t := by
  have hg := h.step.grows
  -- a new value is itself without floats, so whatever can be reached now could be reached before
  have hval : ∀ u v, σ.Free u → τ.resolve u = .val v → σ.Free (.val v) := by
    intro u v hu hv
    rcases h.step.resolve_val_cases hσ.linked hu.isIn hv with hold | ⟨x, hx, hnew, hin⟩
    · exact hu.of_resolve_eq hσ hold
    · exact ⟨hin, h.free x v (hσ.resolve_var hu.isIn hx) hnew⟩
  have hreach : ∀ u, τ.Reaches t u → σ.Free u := by
    intro u hu
    induction hu with
    | refl => exact ht
    | @field u r f _ hr hf ih =>
      have hrec : σ.Free (.val (.record r)) := hval u _ ih hr
      exact hrec.field hσ (hg.record_eq hrec.isIn ▸ hf)
  refine ⟨hg.term ht.isIn, fun u hu v hv => ?_⟩
  exact (hval u v (hreach u hu) hv).floatFree.isFloat rfl

theorem extended (h : σ.Extends τ) (hσ : σ.Closed) (ht : σ.Free t) : τ.Free t := by
  induction h with
  | refl => exact ht
  | tail hrun hstep ih => exact ih.step hstep ((Extends.evolves hrun).closed hσ)

end Free

/-- A pair of terms of the store without floats. -/
structure FreePair (σ : Store) (p : Term × Term) : Prop where
  left : σ.Free p.1
  right : σ.Free p.2

theorem FreePair.step {p : Term × Term} (h : FreeStep σ τ) (hσ : σ.Closed) (hp : σ.FreePair p) :
    τ.FreePair p :=
  ⟨hp.left.step h hσ, hp.right.step h hσ⟩

/-- What faces what in two records without floats has no floats. -/
theorem FreePair.sides {r s : RecordId} {p : Term × Term} (hσ : σ.Closed)
    (h : σ.FreePair (.val (.record r), .val (.record s)))
    (hp : p ∈ (σ.record r).sides (σ.record s)) : σ.FreePair p := by
  obtain ⟨f, hf, hfp⟩ := Record.sides_left hp
  obtain ⟨g, hg, hgp⟩ := Record.sides_right hp
  exact ⟨hfp ▸ h.left.field hσ hf, hgp ▸ h.right.field hσ hg⟩

/-- Agreement survives changes: a variable that gets a value gets it on both sides. -/
theorem Agrees.step {E : RecordId → RecordId → Prop} {p : Term × Term} (h : FreeStep σ τ) (hσ : σ.Closed)
    (hp : σ.FreePair p) (hag : Agrees E (σ.resolve p.1) (σ.resolve p.2)) :
    Agrees E (τ.resolve p.1) (τ.resolve p.2) := by
  -- two values stay, two different kinds never agreed, and two variables are the same variable
  rcases hl : σ.resolve p.1 with v | x <;> rcases hr : σ.resolve p.2 with v' | y
  · rw [h.step.resolve_eq_val hσ.linked hp.left.isIn hl, h.step.resolve_eq_val hσ.linked hp.right.isIn hr,
      ← hl, ← hr]
    exact hag
  · rw [hl, hr] at hag
    cases hag
  · rw [hl, hr] at hag
    cases hag
  · have heq : σ.resolve p.1 = σ.resolve p.2 := by
      rw [hl, hr] at hag
      cases hag
      rw [hl, hr]
    refine .of_eq (h.step.resolve_congr hσ.linked hp.left.isIn hp.right.isIn heq) fun v hv => ?_
    exact (hp.left.step h hσ).floatFree.isFloat hv

end Store

namespace Walk

open Store

variable {w w' : Walk} {goal : Term × Term}

/-! ## Success: what has been dealt with agrees -/

/-- The pair is still to be dealt with, or its sides agree. -/
def Settles (w : Walk) (p : Term × Term) : Prop :=
  p ∈ w.work ∨ Agrees w.memo.Has (w.store.resolve p.1) (w.store.resolve p.2)

/-- The invariant of the walk that starts with `goal`: every pair that it owes an answer is without floats
and settled, namely the one that it started with and those that the pairs in its memo consist of. -/
structure Sound (goal : Term × Term) (w : Walk) : Prop where
  closed : w.store.Closed
  work : ∀ p ∈ w.work, w.store.FreePair p
  goal : w.store.FreePair goal ∧ w.Settles goal
  memo : ∀ r s, (r, s) ∈ w.memo → w.store.FreePair (.val (.record r), .val (.record s)) ∧
    (w.store.record r).sameShape (w.store.record s) = true ∧
    ∀ p ∈ (w.store.record r).sides (w.store.record s), w.Settles p

/-- A step of a walk without floats binds no float. -/
theorem Next.freeStep (h : Next w w') (hclosed : w.store.Closed) (hwork : ∀ p ∈ w.work, w.store.FreePair p) :
    w'.store = w.store ∨ FreeStep w.store w'.store := by
  cases h with
  | agree => exact .inl rfl
  | merge ha hb hne =>
    have hp := hwork _ List.mem_cons_self
    exact .inr (.merge (hclosed.resolve_var hp.left.isIn ha) (hclosed.resolve_var hp.right.isIn hb) hne)
  | assignLeft ha hb =>
    have hp := hwork _ List.mem_cons_self
    exact .inr (.assign (hclosed.resolve_var hp.left.isIn ha) (hp.right.of_resolve_eq hclosed hb))
  | assignRight ha hb =>
    have hp := hwork _ List.mem_cons_self
    exact .inr (.assign (hclosed.resolve_var hp.right.isIn hb) (hp.left.of_resolve_eq hclosed ha))
  | expand => exact .inl rfl

theorem Next.memo_subset (h : Next w w') {r s : RecordId} (hrs : (r, s) ∈ w.memo) : (r, s) ∈ w'.memo := by
  cases h with
  | agree | merge | assignLeft | assignRight => exact hrs
  | expand => exact mem_insert_iff.mpr (.inr hrs)

/-- After a step the pair that was in front agrees, and the others are still there. -/
theorem Next.front (h : Next w w') (hclosed : w.store.Closed) (hwork : ∀ p ∈ w.work, w.store.FreePair p) :
    ∃ p rest, w.work = p :: rest ∧ (∀ q ∈ rest, q ∈ w'.work) ∧
      Agrees w'.memo.Has (w'.store.resolve p.1) (w'.store.resolve p.2) := by
  cases h with
  | agree h => exact ⟨_, _, rfl, fun _ => id, h⟩
  -- the three ways of binding make the two sides resolve to one term
  | @merge memo a b rest σ x y ha hb hne =>
    have hp := hwork _ List.mem_cons_self
    have hx := hclosed.resolve_var hp.left.isIn ha
    have hy := hclosed.resolve_var hp.right.isIn hb
    refine ⟨_, _, rfl, fun _ => id, ?_⟩
    simp only [resolve_merge hclosed.linked hx hy hne (.inl ha),
      resolve_merge hclosed.linked hx hy hne (.inr hb)]
    exact .var _
  | @assignLeft memo a b rest σ x v ha hb =>
    have hp := hwork _ List.mem_cons_self
    have hx := hclosed.resolve_var hp.left.isIn ha
    refine ⟨_, _, rfl, fun _ => id, ?_⟩
    have hb' : σ.resolve b ≠ .var x := by rw [hb]; nofun
    simp only [resolve_assign_of_eq hclosed.linked hx v ha, resolve_assign_of_ne hclosed.linked hx v hb', hb]
    exact .of_eq rfl fun w hw => hp.right.floatFree.isFloat (hb.trans hw)
  | @assignRight memo a b rest σ x v ha hb =>
    have hp := hwork _ List.mem_cons_self
    have hx := hclosed.resolve_var hp.right.isIn hb
    refine ⟨_, _, rfl, fun _ => id, ?_⟩
    have ha' : σ.resolve a ≠ .var x := by rw [ha]; nofun
    simp only [resolve_assign_of_eq hclosed.linked hx v hb, resolve_assign_of_ne hclosed.linked hx v ha', ha]
    exact .of_eq rfl fun w hw => hp.left.floatFree.isFloat (ha.trans hw)
  -- an expanded pair agrees by being in the memo from now on
  | @expand memo a b rest σ r s ha hb hne hnot hshape =>
    refine ⟨_, _, rfl, fun q hq => List.mem_append_right _ hq, ?_⟩
    simp only [ha, hb]
    exact .record (.inr (mem_insert_iff.mpr (.inl rfl)))

/-- A settled pair stays settled. -/
theorem Next.settles (h : Next w w') (hclosed : w.store.Closed) (hwork : ∀ p ∈ w.work, w.store.FreePair p)
    {p : Term × Term} (hp : w.store.FreePair p) (hs : w.Settles p) : w'.Settles p := by
  obtain ⟨q, rest, hw, hrest, hfront⟩ := h.front hclosed hwork
  rcases hs with hmem | hag
  · rw [hw] at hmem
    rcases List.mem_cons.mp hmem with rfl | hmem
    · exact .inr hfront
    · exact .inl (hrest p hmem)
  · have hag' := hag.mono fun r s hrs => h.memo_subset hrs
    rcases h.freeStep hclosed hwork with heq | hstep
    · exact .inr (heq ▸ hag')
    · exact .inr (hag'.step hstep hclosed hp)

/-- A step of the work keeps it sound: whatever was settled before is settled by what is left to be done. -/
theorem Next.sound (h : Next w w') (hw : w.Sound goal) : w'.Sound goal := by
  have hsettles : ∀ p, w.store.FreePair p → w.Settles p → w'.Settles p := fun p hp hs =>
    h.settles hw.closed hw.work hp hs
  have hstore : w'.store.Closed ∧ w.store.Grows w'.store ∧
      ∀ p, w.store.FreePair p → w'.store.FreePair p := by
    rcases h.freeStep hw.closed hw.work with heq | hstep
    · rw [heq]
      exact ⟨hw.closed, .refl _, fun _ => id⟩
    · exact ⟨hstep.step.closed hw.closed, hstep.step.grows, fun p hp => hp.step hstep hw.closed⟩
  obtain ⟨hclosed, hgrows, hfree⟩ := hstore
  -- what the memo held before is looked up in a store with the same records
  have hold : ∀ r s, (r, s) ∈ w.memo → w'.store.FreePair (.val (.record r), .val (.record s)) ∧
      (w'.store.record r).sameShape (w'.store.record s) = true ∧
      ∀ p ∈ (w'.store.record r).sides (w'.store.record s), w'.Settles p := by
    intro r s hrs
    obtain ⟨hp, hshape, hsides⟩ := hw.memo r s hrs
    rw [hgrows.record_eq hp.left.isIn, hgrows.record_eq hp.right.isIn]
    exact ⟨hfree _ hp, hshape, fun p hmem => hsettles p (hp.sides hw.closed hmem) (hsides p hmem)⟩
  have hgoal : w'.store.FreePair goal ∧ w'.Settles goal := ⟨hfree _ hw.goal.1, hsettles _ hw.goal.1 hw.goal.2⟩
  -- only the expansion of a pair of records adds to the memo and to the work
  cases h with
  | agree | merge | assignLeft | assignRight =>
    exact ⟨hclosed, fun p hp => hfree p (hw.work p (List.mem_cons_of_mem _ hp)), hgoal, hold⟩
  | @expand memo a b rest σ r s ha hb hne hnot hshape =>
    have hab := hw.work _ List.mem_cons_self
    have hrs : σ.FreePair (.val (.record r), .val (.record s)) :=
      ⟨hab.left.of_resolve_eq hclosed ha, hab.right.of_resolve_eq hclosed hb⟩
    refine ⟨hclosed, fun p hp => ?_, hgoal, fun r' s' h' => ?_⟩
    · rcases List.mem_append.mp hp with hp | hp
      · exact hrs.sides hclosed hp
      · exact hw.work p (List.mem_cons_of_mem _ hp)
    -- the new pair of the memo is settled because its values are the first work to be done
    · rcases mem_insert_iff.mp h' with heq | hmem
      · cases heq
        exact ⟨hrs, hshape, fun p hp => .inl (List.mem_append_left _ hp)⟩
      · exact hold r' s' hmem

/-- The walk that makes `a` and `b` equal starts with the invariant. -/
theorem Sound.start {σ : Store} {a b : Term} (hσ : σ.Closed) (ha : σ.Free a) (hb : σ.Free b) :
    Sound (a, b) ⟨{}, [(a, b)], σ⟩ := by
  refine ⟨hσ, fun p hp => ?_, ⟨⟨ha, hb⟩, .inl List.mem_cons_self⟩, fun r s hrs => ?_⟩
  · rw [List.mem_singleton.mp hp]
    exact ⟨ha, hb⟩
  · exact absurd hrs Std.HashSet.not_mem_empty

theorem Run.sound (h : Run w w') (hw : w.Sound goal) : w'.Sound goal := by
  induction h with
  | refl => exact hw
  | tail _ hnext ih => exact hnext.sound ih

/-- A walk without floats extends the store. -/
theorem Run.extends (h : Run w w') (hw : w.Sound goal) : w.store.Extends w'.store := by
  induction h with
  | refl => exact .refl
  | tail hrun hnext ih =>
    have hbetween := Run.sound hrun hw
    rcases hnext.freeStep hbetween.closed hbetween.work with heq | hstep
    · exact heq ▸ ih
    · exact ih.tail hstep

/-- When nothing is left to do, the memo is a consistent set under which the sides of the goal agree. -/
theorem Sound.equal (hw : w.Sound goal) (hdone : w.work = []) : w.store.Equal goal.1 goal.2 := by
  have hagrees : ∀ p, w.Settles p → Agrees w.memo.Has (w.store.resolve p.1) (w.store.resolve p.2) := by
    intro p hp
    refine hp.resolve_left ?_
    rw [hdone]
    exact List.not_mem_nil
  refine ⟨w.memo.Has, fun r s hrs => ?_, hagrees _ hw.goal.2⟩
  obtain ⟨-, hshape, hsides⟩ := hw.memo r s hrs
  exact ⟨hshape, fun p hp => hagrees p (hsides p hp)⟩

/-! ## Necessity: what the walk does is forced -/

/-- The invariant that relates the walk from `σ` to an extension `τ` of `σ`: what is still to be made equal is
equal in `τ`, and so is every term to what the walk has made of it. -/
structure Forced (σ τ : Store) (w : Walk) : Prop where
  closed : w.Closed
  grows : σ.Grows w.store
  work : ∀ p ∈ w.work, σ.FreePair p ∧ τ.Equal p.1 p.2
  models : ∀ t, σ.Free t → σ.Free (w.store.resolve t) ∧ τ.Equal t (w.store.resolve t)

variable {σ τ : Store}

/-- The sides of a pair of the work resolve to terms that are equal in the extension. -/
theorem Forced.resolved (hw : w.Forced σ τ) (hσ : σ.Closed) (hτ : σ.Extends τ) {a b : Term}
    (h : (a, b) ∈ w.work) :
    σ.FreePair (w.store.resolve a, w.store.resolve b) ∧
      τ.Equal (w.store.resolve a) (w.store.resolve b) := by
  obtain ⟨hfree, hab⟩ := hw.work _ h
  obtain ⟨hfa, haa⟩ := hw.models a hfree.left
  obtain ⟨hfb, hbb⟩ := hw.models b hfree.right
  have ha := (hfree.left.extended hτ hσ).floatFree
  have hb := (hfree.right.extended hτ hσ).floatFree
  -- from what the walk made of `a` back to `a`, across the pair, and on to what it made of `b`
  exact ⟨⟨hfa, hfb⟩, ((haa.symm ha).trans ha hab).trans hb hbb⟩

/-- A store that makes of each term the same as the walk, or something equal to it, does as well. -/
theorem Forced.models_of {ρ : Store} (hw : w.Forced σ τ) (hσ : σ.Closed) (hτ : σ.Extends τ)
    (h : ∀ t, ρ.resolve t = w.store.resolve t ∨
      σ.Free (ρ.resolve t) ∧ τ.Equal (w.store.resolve t) (ρ.resolve t)) (t : Term) (ht : σ.Free t) :
    σ.Free (ρ.resolve t) ∧ τ.Equal t (ρ.resolve t) := by
  obtain ⟨hfree, heq⟩ := hw.models t ht
  rcases h t with hsame | ⟨hnew, hstep⟩
  · rw [hsame]
    exact ⟨hfree, heq⟩
  · exact ⟨hnew, heq.trans (hfree.extended hτ hσ).floatFree hstep⟩

/-- Binding `x` to a value that it is equal to in the extension keeps the invariant's last part. -/
theorem Forced.models_assign (hw : w.Forced σ τ) (hσ : σ.Closed) (hτ : σ.Extends τ) {x : Nat} {v : Value}
    (hx : w.store.Unbound x) (hv : σ.Free (.val v)) (hxv : τ.Equal (.var x) (.val v)) (t : Term)
    (ht : σ.Free t) :
    σ.Free ((w.store.assign x v).resolve t) ∧ τ.Equal t ((w.store.assign x v).resolve t) := by
  refine hw.models_of hσ hτ (fun t => ?_) t ht
  by_cases hres : w.store.resolve t = .var x
  · rw [resolve_assign_of_eq hw.closed.store.linked hx v hres, hres]
    exact .inr ⟨hv, hxv⟩
  · exact .inl (resolve_assign_of_ne hw.closed.store.linked hx v hres)

/-- If two variables are merged that an extension has made equal, what a term resolves to afterwards is still equal to it in
that extension. -/
theorem Forced.models_merge (hw : w.Forced σ τ) (hσ : σ.Closed) (hτ : σ.Extends τ) {x y : Nat}
    (hx : w.store.Unbound x) (hy : w.store.Unbound y) (hne : x ≠ y)
    (hfree : σ.FreePair (.var x, .var y)) (hxy : τ.Equal (.var x) (.var y)) (t : Term) (ht : σ.Free t) :
    σ.Free ((w.store.merge x y).resolve t) ∧ τ.Equal t ((w.store.merge x y).resolve t) := by
  -- of the two variables the younger one is kept, whichever side it came from
  have hmax : σ.Free (.var (max x y)) ∧ τ.Equal (.var (min x y)) (.var (max x y)) := by
    rcases Nat.le_total x y with hle | hle
    · rw [Nat.max_eq_right hle, Nat.min_eq_left hle]
      exact ⟨hfree.right, hxy⟩
    · rw [Nat.max_eq_left hle, Nat.min_eq_right hle]
      exact ⟨hfree.left, hxy.symm (hfree.left.extended hτ hσ).floatFree⟩
  refine hw.models_of hσ hτ (fun t => ?_) t ht
  by_cases hres : w.store.resolve t = .var (min x y)
  · rw [resolve_merge_of_eq hw.closed.store.linked hx hy hne hres, hres]
    exact .inr hmax
  · exact .inl (resolve_merge_of_ne hw.closed.store.linked hx hy hne hres)

/-- **A step of the work is forced**: everything that is bound in it is equal in every extension that makes the two terms
equal. -/
theorem Next.forced (h : Next w w') (hσ : σ.Closed) (hτ : σ.Extends τ) (hw : w.Forced σ τ) :
    w'.Forced σ τ := by
  have hclosed : w'.Closed := h.closed hw.closed
  have hgrows : σ.Grows w'.store := by
    rcases h.binds hw.closed with heq | hb
    · exact heq ▸ hw.grows
    · exact hw.grows.trans hb.grows
  cases h with
  -- nothing is bound: the terms are the same already
  | agree => exact ⟨hclosed, hgrows, fun p hp => hw.work p (List.mem_cons_of_mem _ hp), hw.models⟩
  | @merge memo a b rest ρ x y ha hb hne =>
    obtain ⟨hfree, hxy⟩ := hw.resolved hσ hτ List.mem_cons_self
    rw [ha, hb] at hfree hxy
    have hx := hw.closed.store.resolve_var hw.closed.work.head.1 ha
    have hy := hw.closed.store.resolve_var hw.closed.work.head.2 hb
    exact ⟨hclosed, hgrows, fun p hp => hw.work p (List.mem_cons_of_mem _ hp),
      hw.models_merge hσ hτ hx hy hne hfree hxy⟩
  -- a variable gets the value that stands on the other side, which it is equal to in the extension
  | @assignLeft memo a b rest ρ x v ha hb =>
    obtain ⟨hfree, hxv⟩ := hw.resolved hσ hτ List.mem_cons_self
    rw [ha, hb] at hfree hxv
    have hx := hw.closed.store.resolve_var hw.closed.work.head.1 ha
    exact ⟨hclosed, hgrows, fun p hp => hw.work p (List.mem_cons_of_mem _ hp),
      hw.models_assign hσ hτ hx hfree.right hxv⟩
  | @assignRight memo a b rest ρ x v ha hb =>
    obtain ⟨hfree, hvx⟩ := hw.resolved hσ hτ List.mem_cons_self
    rw [ha, hb] at hfree hvx
    have hx := hw.closed.store.resolve_var hw.closed.work.head.2 hb
    exact ⟨hclosed, hgrows, fun p hp => hw.work p (List.mem_cons_of_mem _ hp),
      hw.models_assign hσ hτ hx hfree.left (hvx.symm (hfree.left.extended hτ hσ).floatFree)⟩
  | @expand memo a b rest ρ r s ha hb hne hnot hshape =>
    obtain ⟨hfree, hrs⟩ := hw.resolved hσ hτ List.mem_cons_self
    rw [ha, hb] at hfree hrs
    have hτgrows : σ.Grows τ := hτ.evolves.grows
    -- records are the same in all three stores, so equality of the two in `τ` gives that of their values
    have hsides : ∀ p ∈ (σ.record r).sides (σ.record s), τ.Equal p.1 p.2 := by
      have hcases := hrs.record
      rw [hτgrows.record_eq hfree.left.isIn, hτgrows.record_eq hfree.right.isIn] at hcases
      exact (hcases.resolve_left hne).2
    refine ⟨hclosed, hgrows, fun p hp => ?_, hw.models⟩
    rcases List.mem_append.mp hp with hp | hp
    · rw [hw.grows.record_eq hfree.left.isIn, hw.grows.record_eq hfree.right.isIn] at hp
      exact ⟨hfree.sides hσ hp, hsides p hp⟩
    · exact hw.work p (List.mem_cons_of_mem _ hp)

/-- All that a walk has done by then is forced. -/
theorem Run.forced (h : Run w w') (hσ : σ.Closed) (hτ : σ.Extends τ) (hw : w.Forced σ τ) :
    w'.Forced σ τ := by
  induction h with
  | refl => exact hw
  | tail _ hnext ih => exact hnext.forced hσ hτ ih

/-- The walk that makes `a` and `b` equal starts with the invariant if they are equal in the extension. -/
theorem Forced.start (hσ : σ.Closed) (hτ : σ.Extends τ) {a b : Term} (ha : σ.Free a) (hb : σ.Free b)
    (hab : τ.Equal a b) : Forced σ τ ⟨{}, [(a, b)], σ⟩ := by
  refine ⟨closed_walk hσ ha.isIn hb.isIn, .refl σ, fun p hp => ?_, fun t ht => ?_⟩
  · rw [List.mem_singleton.mp hp]
    exact ⟨⟨ha, hb⟩, hab⟩
  · refine ⟨ht.resolve hσ, .of_resolve_eq ?_ (ht.extended hτ hσ).floatFree⟩
    -- in the extension a term and what it resolved to before still resolve to the same
    exact hτ.evolves.resolve_congr hσ ht.isIn (hσ.resolve ht.isIn) (resolve_resolve hσ.linked t).symm

/-- What the walk finds to clash is not equal in the extension. -/
theorem Forced.not_clash (hw : w.Forced σ τ) (hσ : σ.Closed) (hτ : σ.Extends τ) {a b : Term}
    (h : (a, b) ∈ w.work) : ¬ w.store.Clash (w.store.resolve a) (w.store.resolve b) := by
  intro hclash
  obtain ⟨hfree, heq⟩ := hw.resolved hσ hτ h
  -- neither kind of clash is compatible with being equal in the extension
  generalize w.store.resolve a = t, w.store.resolve b = u at hclash hfree heq
  cases hclash with
  | shape hne hshape =>
    have hτgrows : σ.Grows τ := hτ.evolves.grows
    have hcases := heq.record
    rw [hτgrows.record_eq hfree.left.isIn, hτgrows.record_eq hfree.right.isIn] at hcases
    rw [hw.grows.record_eq hfree.left.isIn, hw.grows.record_eq hfree.right.isIn] at hshape
    exact hshape (hcases.resolve_left hne).1
  | atom hrecord hsame =>
    obtain ⟨E, -, hag⟩ := heq
    cases hag with
    | record => exact hrecord _ _ rfl rfl
    | atom hatom => exact hsame hatom

end Walk

namespace Store

variable {σ τ ρ : Store} {a b : Term}

/-! ## The two halves together -/

/-- Entailment answers yes. -/
def Entails (σ : Store) (a b : Term) : Prop := Action.entails a b σ = .ok true σ

/-- Entailment says that two terms are equal if the comparison does, and only then. -/
theorem entails_iff_compare : σ.Entails a b ↔ σ.compare a b = .equal := by
  simp only [Entails, Action.entails, Action.read, bind, EStateM.bind]
  cases σ.compare a b with
  | equal => exact ⟨fun _ => rfl, fun _ => rfl⟩
  | different | unknown x =>
    constructor
    · intro h
      cases h
    · intro h
      cases h

theorem entails_iff (hσ : σ.Closed) (ha : a.In σ) (hb : b.In σ) : σ.Entails a b ↔ σ.Equal a b :=
  entails_iff_compare.trans (compare_eq_equal hσ ha hb)

/-- Nothing is reached from an unbound variable but itself. -/
theorem Unbound.free {x : Nat} (hx : σ.Unbound x) : σ.Free (.var x) := by
  have hres : σ.resolve (.var x) = .var x := hx.resolveVar
  have hreach : ∀ u, σ.Reaches (.var x) u → u = .var x := by
    intro u hu
    induction hu with
    | refl => rfl
    | field _ hr _ ih =>
      rw [ih, hres] at hr
      cases hr
  refine ⟨hx.lt_size, fun u hu v hv => ?_⟩
  rw [hreach u hu, hres] at hv
  cases hv

/-- A successful run makes the terms equal. -/
theorem equal_of_unify (hσ : σ.Closed) (ha : σ.Free a) (hb : σ.Free b) (h : (σ.unify a b).1 = none) :
    (σ.unify a b).2.Equal a b := by
  obtain ⟨e, hrun, hstore, hends⟩ := unify_run hσ ha.isIn hb.isIn
  rw [h] at hends
  cases hends with
  | done hdone => exact hstore ▸ (Walk.Run.sound hrun (.start hσ ha hb)).equal hdone

/-- In an extension in which the terms are equal the run is not at fault, and what it has made of each term is
equal to the term. -/
theorem unify_forced (hσ : σ.Closed) (ha : σ.Free a) (hb : σ.Free b) (hτ : σ.Extends τ) (hab : τ.Equal a b) :
    (σ.unify a b).1 = none ∧
      ∀ t, σ.Free t → σ.Free ((σ.unify a b).2.resolve t) ∧ τ.Equal t ((σ.unify a b).2.resolve t) := by
  obtain ⟨e, hrun, hstore, hends⟩ := unify_run hσ ha.isIn hb.isIn
  have hforced : e.Forced σ τ := Walk.Run.forced hrun hσ hτ (.start hσ hτ ha hb hab)
  refine ⟨?_, hstore ▸ hforced.models⟩
  generalize (σ.unify a b).1 = outcome at hends
  cases hends with
  | done => rfl
  | clash f hwork hclash =>
    exact absurd hclash (hforced.not_clash hσ hτ (hwork ▸ List.mem_cons_self))

theorem unify_eq_ok : Action.unify a b σ = .ok () ρ ↔ (σ.unify a b).1 = none ∧ (σ.unify a b).2 = ρ := by
  rw [Action.unify, Action.ofChange]
  rcases σ.unify a b with ⟨_ | f, σ'⟩ <;> simp

/-- Unification raises a fault or succeeds. It does not wait. -/
theorem unify_eq_error {e : Interrupt} :
    Action.unify a b σ = .error e ρ ↔
      ∃ f, e = .fault f ∧ (σ.unify a b).1 = some f ∧ (σ.unify a b).2 = ρ := by
  rw [Action.unify, Action.ofChange]
  rcases σ.unify a b with ⟨_ | f, σ'⟩
  · simp
  · simp only [EStateM.Result.error.injEq, Option.some.injEq]
    exact ⟨fun ⟨he, hρ⟩ => ⟨f, he.symm, rfl, hρ⟩, fun ⟨g, he, hf, hρ⟩ => ⟨by rw [he, hf], hρ⟩⟩

/-- **Unification computes a most general unifier.** For two terms without floats: success makes them entailed
equal; a fault means that no extension entails them equal; a successful run touches unbound variables only, and
what it binds or links each of them to is entailed equal to it in every extension that entails the two terms
equal; and the run never blocks. -/
theorem unify_mostGeneral (hσ : σ.Closed) (ha : a.In σ) (hb : b.In σ) (hfa : σ.FloatFree a)
    (hfb : σ.FloatFree b) :
    (∀ ρ, Action.unify a b σ = .ok () ρ → ρ.Entails a b) ∧
    (∀ f ρ, Action.unify a b σ = .error (.fault f) ρ → ∀ τ, σ.Extends τ → ¬ τ.Entails a b) ∧
    (∀ ρ, Action.unify a b σ = .ok () ρ → ∀ τ, σ.Extends τ → τ.Entails a b → ∀ x : Nat,
      (¬ σ.Unbound x → ρ.vars[x]? = σ.vars[x]?) ∧
      (σ.Unbound x → ∀ v, ρ.vars[x]? = some (.bound v) → τ.Entails (.var x) (.val v)) ∧
      (σ.Unbound x → ∀ y, ρ.vars[x]? = some (.link y) → τ.Entails (.var x) (.var y))) ∧
    ∀ x ρ, Action.unify a b σ ≠ .error (.blocked x) ρ := by
  have hfreeA : σ.Free a := ⟨ha, hfa⟩
  have hfreeB : σ.Free b := ⟨hb, hfb⟩
  have hbinds := unify_binds hσ ha hb
  have hentails : ∀ τ, σ.Extends τ → ∀ t u, t.In σ → u.In σ → (τ.Entails t u ↔ τ.Equal t u) := by
    intro τ hτ t u ht hu
    have hg := hτ.evolves.grows
    exact entails_iff (hτ.evolves.closed hσ) (hg.term ht) (hg.term hu)
  refine ⟨fun ρ hρ => ?_, fun f ρ hρ τ hτ hent => ?_, fun ρ hρ τ hτ hent x => ?_, fun x ρ hρ => ?_⟩
  · obtain ⟨hnone, rfl⟩ := unify_eq_ok.mp hρ
    have hg := hbinds.evolves.grows
    exact (entails_iff (hbinds.evolves.closed hσ) (hg.term ha) (hg.term hb)).mpr
      (equal_of_unify hσ hfreeA hfreeB hnone)
  · obtain ⟨f', -, hsome, -⟩ := unify_eq_error.mp hρ
    have hnone := (unify_forced hσ hfreeA hfreeB hτ ((hentails τ hτ a b ha hb).mp hent)).1
    rw [hsome] at hnone
    cases hnone
  · obtain ⟨-, rfl⟩ := unify_eq_ok.mp hρ
    have hmodels := (unify_forced hσ hfreeA hfreeB hτ ((hentails τ hτ a b ha hb).mp hent)).2
    have hlinked := (hbinds.evolves.closed hσ).linked
    refine ⟨hbinds.getElem?_eq, fun hx v hv => ?_, fun hx y hy => ?_⟩
    -- a variable that the run bound resolves to its value, and every term is equal to what it resolves to
    · have hres : (σ.unify a b).2.resolve (.var x) = .val v := by
        refine resolveVar_of_bound ?_
        rwa [representative_of_ne_link fun y hy => by rw [hv] at hy; cases hy]
      obtain ⟨hfree, heq⟩ := hmodels (.var x) hx.free
      rw [hres] at hfree heq
      exact (hentails τ hτ _ _ hx.free.isIn hfree.isIn).mpr heq
    · -- the two variables have been made the same term, to which both are equal
      have hyu : σ.Unbound y := (hbinds.link_cases hy).resolve_left hx.ne_link
      have hres : (σ.unify a b).2.resolve (.var x) = (σ.unify a b).2.resolve (.var y) :=
        resolveVar_eq_of_representative_eq (representative_of_link hlinked hy)
      obtain ⟨hfree, hxr⟩ := hmodels (.var x) hx.free
      obtain ⟨-, hyr⟩ := hmodels (.var y) hyu.free
      rw [← hres] at hyr
      have hry := hyr.symm (hyu.free.extended hτ hσ).floatFree
      exact (hentails τ hτ _ _ hx.free.isIn hyu.free.isIn).mpr
        (hxr.trans (hfree.extended hτ hσ).floatFree hry)
  · obtain ⟨f, he, -, -⟩ := unify_eq_error.mp hρ
    cases he

/-- A store with an unbound variable and a record whose only field is that variable. -/
def knot : Store :=
  { vars := #[.unbound []], records := #[⟨.null, [⟨.str "self", .var 0⟩]⟩] }

theorem knot_closed : knot.Closed := by
  refine ⟨fun x s hs => ?_, fun r hr => ?_, ?_, ?_, ?_, ?_, ?_, ?_⟩
  · match x, s, hs with
    | 0, _, rfl => exact fun k hk => absurd hk List.not_mem_nil
  · obtain rfl : r = ⟨.null, [⟨.str "self", .var 0⟩]⟩ := by simpa [knot] using hr
    intro f hf
    obtain rfl := List.mem_singleton.mp hf
    exact Nat.zero_lt_one
  all_goals simp [knot]

theorem knot_unbound : knot.Unbound 0 := ⟨[], rfl⟩

/-- The knot contains no float: from its record one comes to its unbound variable, and no further. -/
theorem knot_floatFree : knot.FloatFree (.val (.record 0)) := by
  -- on how far one has come
  have hreach : ∀ u, knot.Reaches (.val (.record 0)) u → u = .val (.record 0) ∨ u = .var 0 := by
    intro u hu
    induction hu with
    | refl => exact .inl rfl
    | field _ hr hf ih =>
      rcases ih with rfl | rfl
      · cases hr
        obtain rfl := List.mem_singleton.mp hf
        exact .inr rfl
      · cases knot_unbound.resolveVar.symm.trans hr
  intro u hu v hv
  rcases hreach u hu with rfl | rfl
  · cases hv
    rfl
  · cases knot_unbound.resolveVar.symm.trans hv

/-- Tying the knot succeeds, and the variable and the record that holds it are then entailed equal. -/
theorem unify_mostGeneral_knot :
    knot.Closed ∧ knot.FloatFree (.var 0) ∧ knot.FloatFree (.val (.record 0)) ∧
      (Action.unify (.var 0) (.val (.record 0)) knot = .ok () (knot.assign 0 (.record 0))) ∧
      (knot.assign 0 (.record 0)).Entails (.var 0) (.val (.record 0)) := by
  have hvar := knot_unbound.free
  have hin : Term.In knot (.val (.record 0)) := Nat.zero_lt_one
  have hresult := unify_mostGeneral knot_closed hvar.isIn hin hvar.floatFree knot_floatFree
  have hok : Action.unify (.var 0) (.val (.record 0)) knot = .ok () (knot.assign 0 (.record 0)) := by
    refine unify_eq_ok.mpr ?_
    have hres : knot.resolveVar 0 = .var 0 := knot_unbound.resolveVar
    simp [Store.unify, unifyAll, Store.resolve, hres]
  exact ⟨knot_closed, hvar.floatFree, knot_floatFree, hok, hresult.1 _ hok⟩

end Store

end Dataflow
