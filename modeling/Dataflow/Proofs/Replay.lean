/-
Replay: an instruction that waits any number of times has its effects once.

An instruction that has to wait leaves the store as it was, but for what nothing refers to and for the
computation that now waits. Here that computation is followed through whatever others do to the store in the
meantime. The store is compared with the one in which the computation never began to wait and in which the same
changes are made: they differ by one entry, which is in the list of the variable that stands for the one waited
for as long as that is unbound, then in the log of effects, and nowhere once the log has been taken. So when the
instruction is executed again, it finds the store that the others have made, as if it had not been tried before.
-/
import Dataflow.Proofs.Blocking

set_option autoImplicit false

namespace Dataflow

/-! ## Changes as data -/

/-- A change of the store, by whoever makes it. -/
inductive Change where
  | assign (x : VarId) (v : Value)
  | merge (x y : VarId)
  | park (x : VarId) (k : Continuation)
  | newVar (s : VarState)
  | newRecord (r : Record)
  | newClosure (c : Closure)
  | newConfig (c : ActorConfig)
  | newFailure (f : Failure)
  | newCell (t : Term)
  | newIterator (i : Iterator)
  | setCell (c : CellId) (t : Term)
  | setIterator (n : IterId) (i : Iterator)
  | newToken
  | newReceiver
  | newAddress (stem : String)
  | emit (e : Effect)
  | newQueue
  /-- The log of effects is taken by those who carry it out. -/
  | takeEffects

namespace Change

/-- Makes the change. -/
def apply (σ : Store) : Change → Store
  | .assign x v => σ.assign x v
  | .merge x y => σ.merge x y
  | .park x k => σ.park x k
  | .newVar s => (σ.newVar s).2
  | .newRecord r => (σ.newRecord r).2
  | .newClosure c => (σ.newClosure c).2
  | .newConfig c => (σ.newConfig c).2
  | .newFailure f => (σ.newFailure f).2
  | .newCell t => (σ.newCell t).2
  | .newIterator i => (σ.newIterator i).2
  | .setCell c t => σ.setCell c t
  | .setIterator n i => σ.setIterator n i
  | .newToken => σ.newToken.2
  | .newReceiver => σ.newReceiver.2
  | .newAddress stem => (σ.newAddress stem).2
  | .emit e => σ.emit e
  | .newQueue => σ.newQueue.2
  | .takeEffects => { σ with effects := #[] }

/-- The change is about unbound variables and about things of the store. -/
def Valid (σ : Store) : Change → Prop
  | .assign x v => σ.Unbound x ∧ v.In σ
  | .merge x y => σ.Unbound x ∧ σ.Unbound y ∧ x ≠ y
  | .park x k => σ.Unbound x ∧ k.In σ
  | .newVar s => (∀ y, s ≠ .link y) ∧ s.In σ σ.vars.size
  | .newRecord r => r.In σ
  | .newClosure c => c.In σ
  | .newConfig c => c.In σ
  | .newFailure f => f.In σ
  | .newCell t => t.In σ
  | .newIterator i => i.In σ
  | .setCell _ t => t.In σ
  | .setIterator _ i => i.In σ
  | .newToken | .newReceiver | .newAddress _ | .newQueue | .takeEffects => True
  | .emit e => e.In σ

/-- A new variable for which nothing waits can be made at any time. -/
theorem Valid.newVar_unbound (σ : Store) : Valid σ (.newVar (.unbound [])) := ⟨nofun, nofun⟩

/-- The change makes a record or a bound variable and nothing else. -/
def Unused : Change → Prop
  | .newVar s => ∃ v, s = .bound v
  | .newRecord _ => True
  | _ => False

variable {σ τ : Store}

/-- Every elementary change of the kernel is one of these. -/
theorem exists_of_step (h : Store.Step σ τ) : ∃ c : Change, c.Valid σ ∧ c.apply σ = τ := by
  cases h with
  | var h =>
    cases h with
    | binds h =>
      cases h with
      | @assign x v hx hv => exact ⟨.assign x v, ⟨hx, hv⟩, rfl⟩
      | @merge x y hx hy hne => exact ⟨.merge x y, ⟨hx, hy, hne⟩, rfl⟩
    | @park x k hx hk => exact ⟨.park x k, ⟨hx, hk⟩, rfl⟩
    | @newVar s hs hin => exact ⟨.newVar s, ⟨hs, hin⟩, rfl⟩
  | table h =>
    cases h with
    | @newRecord r h => exact ⟨.newRecord r, h, rfl⟩
    | @newClosure c h => exact ⟨.newClosure c, h, rfl⟩
    | @newConfig c h => exact ⟨.newConfig c, h, rfl⟩
    | @newFailure f h => exact ⟨.newFailure f, h, rfl⟩
    | @newCell t h => exact ⟨.newCell t, h, rfl⟩
    | @newIterator i h => exact ⟨.newIterator i, h, rfl⟩
    | @setCell t c h => exact ⟨.setCell c t, h, rfl⟩
    | @setIterator i n h => exact ⟨.setIterator n i, h, rfl⟩
    | newToken => exact ⟨.newToken, trivial, rfl⟩
    | newReceiver => exact ⟨.newReceiver, trivial, rfl⟩
    | newAddress stem => exact ⟨.newAddress stem, trivial, rfl⟩
    | @emit e h => exact ⟨.emit e, h, rfl⟩

/-- A valid change is an elementary one, or else it is about queues or the log alone. -/
theorem Valid.step {c : Change} (h : c.Valid σ) :
    c = .newQueue ∨ c = .takeEffects ∨ Store.Step σ (c.apply σ) := by
  cases c with
  | assign x v => exact .inr (.inr (.var (.binds (.assign h.1 h.2))))
  | merge x y => exact .inr (.inr (.var (.binds (.merge h.1 h.2.1 h.2.2))))
  | park x k => exact .inr (.inr (.var (.park h.1 h.2)))
  | newVar s => exact .inr (.inr (.var (.newVar h.1 h.2)))
  | newRecord r => exact .inr (.inr (.table (.newRecord h)))
  | newClosure c => exact .inr (.inr (.table (.newClosure h)))
  | newConfig c => exact .inr (.inr (.table (.newConfig h)))
  | newFailure f => exact .inr (.inr (.table (.newFailure h)))
  | newCell t => exact .inr (.inr (.table (.newCell h)))
  | newIterator i => exact .inr (.inr (.table (.newIterator h)))
  | setCell c t => exact .inr (.inr (.table (.setCell c h)))
  | setIterator n i => exact .inr (.inr (.table (.setIterator n h)))
  | newToken => exact .inr (.inr (.table .newToken))
  | newReceiver => exact .inr (.inr (.table .newReceiver))
  | newAddress stem => exact .inr (.inr (.table (.newAddress stem)))
  | emit e => exact .inr (.inr (.table (.emit h)))
  | newQueue => exact .inl rfl
  | takeEffects => exact .inr (.inl rfl)

/-- A valid change takes nothing away. -/
theorem Valid.grows {c : Change} (h : c.Valid σ) : σ.Grows (c.apply σ) := by
  rcases h.step with rfl | rfl | hstep
  · exact { Store.Grows.refl σ with }
  · exact { Store.Grows.refl σ with }
  · exact hstep.grows

/-- A valid change keeps the store closed. -/
theorem Valid.closed {c : Change} (h : c.Valid σ) (hσ : σ.Closed) : (c.apply σ).Closed := by
  rcases h.step with rfl | rfl | hstep
  · exact { hσ with }
  · exact { hσ with effects := by simp [apply] }
  · exact hstep.closed hσ

/-- Valid changes, one after the other. -/
inductive Chain : Store → List Change → Store → Prop where
  | nil {σ : Store} : Chain σ [] σ
  | cons {σ τ : Store} {c : Change} {cs : List Change} (hc : c.Valid σ) (h : Chain (c.apply σ) cs τ) :
      Chain σ (c :: cs) τ

/-- **Whatever the kernel does** to a store is a chain of such changes. -/
theorem Chain.of_evolves (h : σ.Evolves τ) : ∃ cs, Chain σ cs τ := by
  induction h using Relation.ReflTransGen.head_induction_on with
  | refl => exact ⟨[], .nil⟩
  | head hstep _ ih =>
    obtain ⟨c, hc, rfl⟩ := exists_of_step hstep
    obtain ⟨cs, hcs⟩ := ih
    exact ⟨c :: cs, .cons hc hcs⟩

/-- All the changes, one after the other. -/
def applyAll (σ : Store) (cs : List Change) : Store := cs.foldl (fun σ c => c.apply σ) σ

theorem applyAll_append (σ : Store) (cs ds : List Change) :
    applyAll σ (cs ++ ds) = applyAll (applyAll σ cs) ds := List.foldl_append

theorem Chain.grows {cs : List Change} (h : Chain σ cs τ) : σ.Grows τ := by
  induction h with
  | nil => exact .refl _
  | cons hc _ ih => exact hc.grows.trans ih

theorem Chain.closed {cs : List Change} (h : Chain σ cs τ) (hσ : σ.Closed) : τ.Closed := by
  induction h with
  | nil => exact hσ
  | cons hc _ ih => exact ih (hc.closed hσ)

/-- `Padded cs ds`: the changes `ds` are the changes `cs` with the making of unused things in between. -/
inductive Padded : List Change → List Change → Prop where
  | nil : Padded [] []
  | cons {cs ds : List Change} (c : Change) (h : Padded cs ds) : Padded (c :: cs) (c :: ds)
  | pad {cs ds : List Change} {c : Change} (hc : c.Unused) (h : Padded cs ds) : Padded cs (c :: ds)

theorem Padded.refl (cs : List Change) : Padded cs cs := by
  induction cs with
  | nil => exact .nil
  | cons c cs ih => exact .cons c ih

/-- What is padded in two parts is padded as a whole. -/
theorem Padded.append {cs ds cs' ds' : List Change} (h : Padded cs ds) (h' : Padded cs' ds') :
    Padded (cs ++ cs') (ds ++ ds') := by
  induction h with
  | nil => exact h'
  | cons c _ ih => exact .cons c ih
  | pad hc _ ih => exact .pad hc ih

theorem Padded.of_unused {ds : List Change} (h : ∀ d ∈ ds, d.Unused) : Padded [] ds := by
  induction ds with
  | nil => exact .nil
  | cons d ds ih =>
    have hd := List.forall_mem_cons.mp h
    exact .pad hd.1 (ih hd.2)

/-- Padding a store is making unused things. -/
theorem exists_of_pads (h : σ.Pads τ) : ∃ ds : List Change, (∀ d ∈ ds, d.Unused) ∧ τ = applyAll σ ds := by
  -- values first and records after them, which is the order in which they are padded
  have hvars : ∀ (vs : List Value) (σ : Store),
      applyAll σ (vs.map fun v => .newVar (.bound v)) =
        { σ with vars := σ.vars ++ (vs.map VarState.bound).toArray } := by
    intro vs
    induction vs with
    | nil => intro σ; simp [applyAll]
    | cons v vs ih =>
      intro σ
      have hhead : applyAll σ ((v :: vs).map fun v => .newVar (.bound v)) =
          applyAll (σ.newVar (.bound v)).2 (vs.map fun v => .newVar (.bound v)) := rfl
      rw [hhead, ih]
      simp [Store.newVar]
  have hrecords : ∀ (rs : List Record) (σ : Store),
      applyAll σ (rs.map .newRecord) = { σ with records := σ.records ++ rs.toArray } := by
    intro rs
    induction rs with
    | nil => intro σ; simp [applyAll]
    | cons r rs ih =>
      intro σ
      have hhead : applyAll σ ((r :: rs).map .newRecord) =
          applyAll (σ.newRecord r).2 (rs.map .newRecord) := rfl
      rw [hhead, ih]
      simp [Store.newRecord]
  obtain ⟨vs, rs, rfl⟩ := h
  refine ⟨(vs.toList.map fun v => .newVar (.bound v)) ++ rs.toList.map .newRecord, fun d hd => ?_, ?_⟩
  · rcases List.mem_append.mp hd with hd | hd
    · obtain ⟨v, -, rfl⟩ := List.mem_map.mp hd
      exact ⟨v, rfl⟩
    · obtain ⟨r, -, rfl⟩ := List.mem_map.mp hd
      trivial
  · rw [applyAll_append, hvars, hrecords, ← Array.toList_map]

end Change

/-! ## Writing the state of one variable -/

namespace Store

variable {σ : Store} {x y : Nat}

theorem setVar_setVar (σ : Store) (x : Nat) (s t : VarState) : (σ.setVar x s).setVar x t = σ.setVar x t := by
  simp [setVar]

theorem setVar_comm (σ : Store) (hne : x ≠ y) (s t : VarState) :
    (σ.setVar x s).setVar y t = (σ.setVar y t).setVar x s := by
  simp only [setVar, Array.setIfInBounds_comm _ _ hne]

theorem waiting_setVar_self (hx : x < σ.vars.size) (ks : List Continuation) :
    (σ.setVar x (.unbound ks)).waiting x = ks := by
  simp [waiting, setVar, hx]

theorem Unbound.park_self (hx : σ.Unbound x) (k : Continuation) : (σ.park x k).Unbound x :=
  ⟨σ.waiting x ++ [k], by rw [park_getElem? hx, if_pos rfl]⟩

/-- A variable that has just been bound has its value. -/
theorem Unbound.resolveVar_assign (hx : σ.Unbound x) (v : Value) : (σ.assign x v).resolveVar x = .val v := by
  have hstate : (σ.assign x v).vars[x]? = some (.bound v) := by rw [assign_getElem? hx, if_pos rfl]
  have hrep : (σ.assign x v).representative x = x := by
    refine representative_of_ne_link fun y hy => ?_
    rw [hstate] at hy
    cases hy
  exact resolveVar_of_bound (by rw [hrep, hstate])

theorem wakeAll_setVar (ks : List Continuation) (s : VarState) :
    (σ.setVar x s).wakeAll ks = (σ.wakeAll ks).setVar x s := by
  rw [wakeAll_eq, wakeAll_eq]
  rfl

end Store

/-! ## One waiting computation more -/

/-- `Aside x k τ σ`: the store `τ` is `σ` with the computation `k`, which was told to wait for `x`, besides. -/
inductive Aside (x : VarId) (k : Continuation) (τ σ : Store) : Prop where
  /-- It waits, in the list of the variable that stands for `x`. -/
  | waits (y : Nat) (before after : List Continuation) (hrep : σ.representative x = y)
      (hy : σ.vars[y]? = some (.unbound (before ++ after)))
      (h : τ = σ.setVar y (.unbound (before ++ k :: after)))
  /-- It has been resumed, and the log of effects says so. -/
  | resumed (before after : List Effect) (hlog : σ.effects.toList = before ++ after)
      (h : τ = { σ with effects := (before ++ .wake k.resumer k.stack :: after).toArray })
  /-- The log has been taken, and nothing is left of it. -/
  | gone (h : τ = σ)

namespace Aside

variable {σ τ : Store} {x : Nat} {k : Continuation}

/-- A store without one computation grows into the store with it. -/
theorem grows (h : Aside x k τ σ) : τ.Grows σ := by
  obtain ⟨y, before, after, -, -, rfl⟩ | ⟨before, after, -, rfl⟩ | rfl := h
  · exact { Store.Grows.refl σ with vars := Nat.le_of_eq Array.size_setIfInBounds }
  · exact { Store.Grows.refl σ with }
  · exact .refl τ

/-- One more computation in a list leaves an unbound variable unbound. -/
theorem unbound (h : Aside x k τ σ) {z : Nat} (hz : τ.Unbound z) : σ.Unbound z := by
  obtain ⟨y, before, after, -, hy, rfl⟩ | ⟨before, after, -, rfl⟩ | rfl := h
  · by_cases hzy : y = z
    · exact hzy ▸ ⟨_, hy⟩
    · obtain ⟨ks, hks⟩ := hz
      rw [Store.setVar, Array.getElem?_setIfInBounds_ne hzy] at hks
      exact ⟨ks, hks⟩
  · exact hz
  · exact hz

/-- A computation that begins to wait is one that is there besides. -/
theorem of_park (hx : σ.Unbound x) (k : Continuation) : Aside x k (σ.park x k) σ := by
  have hrep := hx.representative
  obtain ⟨ks, hks⟩ := hx
  have hwaiting : σ.waiting x = ks := by rw [Store.waiting, hks]
  refine .waits x ks [] hrep (by rw [hks, List.append_nil]) ?_
  rw [Store.park, hwaiting]

/-- What can be done with the computation besides can be done without it. -/
theorem valid (h : Aside x k τ σ) {c : Change} (hc : c.Valid τ) : c.Valid σ := by
  -- the store beside has all that the other one has, so what a change speaks of is there
  have hg := h.grows
  cases c with
  | assign z v => exact ⟨h.unbound hc.1, hg.value hc.2⟩
  | merge y z => exact ⟨h.unbound hc.1, h.unbound hc.2.1, hc.2.2⟩
  | park z k => exact ⟨h.unbound hc.1, hg.stack hc.2⟩
  | newVar s =>
    refine ⟨hc.1, ?_⟩
    cases s with
    | unbound ks => exact fun k hk => hg.stack (hc.2 k hk)
    | bound v => exact hg.value hc.2
    | link y => exact absurd rfl (hc.1 y)
  | newRecord r => exact hg.record hc
  | newClosure c => exact hg.env hc
  | newConfig c => exact hg.config hc
  | newFailure f => exact hg.value hc
  | newCell t | setCell c t => exact hg.term hc
  | newIterator i | setIterator n i => exact hg.iterator hc
  | emit e => exact hg.effect hc
  | newToken | newReceiver | newAddress stem | newQueue | takeEffects => trivial

section Waits

variable {y : Nat} {before after : List Continuation}

/-- Binding the variable resumes the computation, in its place among those that waited with it. -/
theorem waits_assign (hσ : σ.Linked) (hrep : σ.representative x = y)
    (hy : σ.vars[y]? = some (.unbound (before ++ after))) {z : Nat} (hz : σ.Unbound z) (v : Value) :
    Aside x k ((σ.setVar y (.unbound (before ++ k :: after))).assign z v) (σ.assign z v) := by
  have hlt : y < σ.vars.size := (Array.getElem?_eq_some_iff.mp hy).1
  by_cases hzy : y = z
  -- the continuation waits where the variable is assigned, so it is woken now
  · subst hzy
    have hwaiting : σ.waiting y = before ++ after := by rw [Store.waiting, hy]
    have hlog : (σ.assign y v).effects.toList =
        (σ.effects.toList ++ before.map fun k => .wake k.resumer k.stack) ++
          after.map fun k => Effect.wake k.resumer k.stack := by
      rw [Store.assign_eq, hwaiting]
      simp
    have heq : (σ.setVar y (.unbound (before ++ k :: after))).assign y v =
        { σ.assign y v with
          effects := ((σ.effects.toList ++ before.map fun k => Effect.wake k.resumer k.stack) ++
            Effect.wake k.resumer k.stack :: after.map fun k => Effect.wake k.resumer k.stack).toArray } := by
      rw [Store.assign_eq, Store.assign_eq, Store.waiting_setVar_self hlt]
      simp [Store.setVar]
    exact .resumed _ _ hlog heq
  -- it waits elsewhere, and the assignment passes it by
  · have heq : (σ.setVar y (.unbound (before ++ k :: after))).assign z v =
        (σ.assign z v).setVar y (.unbound (before ++ k :: after)) := by
      rw [Store.assign, Store.assign, Store.waiting_setVar_of_ne hzy, Store.setVar_comm σ hzy,
        Store.wakeAll_setVar]
    refine .waits y before after ?_ ?_ heq
    · rw [Store.representative_assign hσ hz, hrep]
    · rw [Store.assign_getElem? hz, if_neg hzy, hy]

/-- Merging moves the computation along with those that waited with it. -/
theorem waits_merge (hσ : σ.Linked) (hrep : σ.representative x = y)
    (hy : σ.vars[y]? = some (.unbound (before ++ after))) {u v : Nat} (hu : σ.Unbound u) (hv : σ.Unbound v)
    (hne : u ≠ v) :
    Aside x k ((σ.setVar y (.unbound (before ++ k :: after))).merge u v) (σ.merge u v) := by
  have hlt : y < σ.vars.size := (Array.getElem?_eq_some_iff.mp hy).1
  have hwaiting : σ.waiting y = before ++ after := by rw [Store.waiting, hy]
  have hends : min u v ≠ max u v := by omega
  have hrep' := Store.representative_merge hσ hu hv hne x
  have hstate := Store.merge_getElem? hu hv
  rw [hrep] at hrep'
  by_cases hmin : y = min u v
  -- it waited for the older variable, and comes behind those that wait for the younger one
  · have heq : (σ.setVar y (.unbound (before ++ k :: after))).merge u v =
        (σ.merge u v).setVar (max u v) (.unbound ((σ.waiting (max u v) ++ before) ++ k :: after)) := by
      rw [Store.merge, Store.merge, ← hmin, Store.waiting_setVar_of_ne (hmin ▸ hends),
        Store.waiting_setVar_self hlt, Store.setVar_comm σ (hmin ▸ hends), Store.setVar_setVar,
        Store.setVar_comm (σ.setVar (max u v) _) (hmin ▸ hends), Store.setVar_setVar, List.append_assoc]
    refine .waits (max u v) _ after (by rw [hrep', if_pos hmin]) ?_ heq
    rw [hstate, if_neg hends.symm, if_pos rfl, ← hmin, hwaiting, List.append_assoc]
  · rw [if_neg hmin] at hrep'
    by_cases hmax : y = max u v
    -- it waited for the younger variable, and those that come from the older one are behind it
    · have heq : (σ.setVar y (.unbound (before ++ k :: after))).merge u v =
          (σ.merge u v).setVar y (.unbound (before ++ k :: (after ++ σ.waiting (min u v)))) := by
        rw [Store.merge, Store.merge, ← hmax, Store.waiting_setVar_of_ne hmin,
          Store.waiting_setVar_self hlt, Store.setVar_setVar, Store.setVar_comm _ (Ne.symm hmin),
          Store.setVar_setVar, List.append_assoc, List.cons_append]
      refine .waits y before _ hrep' ?_ heq
      rw [hstate, if_neg hmin, if_pos hmax, ← hmax, hwaiting, List.append_assoc]
    · have heq : (σ.setVar y (.unbound (before ++ k :: after))).merge u v =
          (σ.merge u v).setVar y (.unbound (before ++ k :: after)) := by
        rw [Store.merge, Store.merge, Store.waiting_setVar_of_ne hmin, Store.waiting_setVar_of_ne hmax,
          Store.setVar_comm σ hmax, Store.setVar_comm _ hmin]
      refine .waits y before after hrep' ?_ heq
      rw [hstate, if_neg hmin, if_neg hmax, hy]

/-- Whoever else begins to wait for the variable comes behind. -/
theorem waits_park (hσ : σ.Linked) (hrep : σ.representative x = y)
    (hy : σ.vars[y]? = some (.unbound (before ++ after))) {z : Nat} (hz : σ.Unbound z) (l : Continuation) :
    Aside x k ((σ.setVar y (.unbound (before ++ k :: after))).park z l) (σ.park z l) := by
  have hlt : y < σ.vars.size := (Array.getElem?_eq_some_iff.mp hy).1
  have hrep' := Store.representative_park hσ hz l x
  have hstate := Store.park_getElem? hz l y
  rw [hrep] at hrep'
  -- where the two variables are one, the new continuation goes behind the others
  by_cases hzy : y = z
  · subst hzy
    have hwaiting : σ.waiting y = before ++ after := by rw [Store.waiting, hy]
    have heq : (σ.setVar y (.unbound (before ++ k :: after))).park y l =
        (σ.park y l).setVar y (.unbound (before ++ k :: (after ++ [l]))) := by
      rw [Store.park, Store.park, Store.waiting_setVar_self hlt, Store.setVar_setVar, Store.setVar_setVar,
        List.append_assoc, List.cons_append]
    refine .waits y before _ hrep' ?_ heq
    rw [hstate, if_pos rfl, hwaiting, List.append_assoc]
  · have heq : (σ.setVar y (.unbound (before ++ k :: after))).park z l =
        (σ.park z l).setVar y (.unbound (before ++ k :: after)) := by
      rw [Store.park, Store.park, Store.waiting_setVar_of_ne hzy, Store.setVar_comm σ hzy]
    refine .waits y before after hrep' ?_ heq
    rw [hstate, if_neg hzy, hy]

/-- A new variable comes behind all others. -/
theorem waits_newVar (hσ : σ.Linked) (hrep : σ.representative x = y)
    (hy : σ.vars[y]? = some (.unbound (before ++ after))) {s : VarState} (hs : ∀ z, s ≠ .link z) :
    Aside x k ((σ.setVar y (.unbound (before ++ k :: after))).newVar s).2 (σ.newVar s).2 := by
  have hlt : y < σ.vars.size := (Array.getElem?_eq_some_iff.mp hy).1
  refine .waits y before after ?_ ?_ ?_
  · rw [Store.representative_newVar hσ hs, hrep]
  · rw [Store.newVar_getElem?, if_neg (Nat.ne_of_lt hlt), hy]
  · simp only [Store.newVar, Store.setVar]
    congr 1
    grind

/-- A change of anything but the variables passes the waiting computation by. -/
theorem waits_of_vars_eq (hrep : σ.representative x = y)
    (hy : σ.vars[y]? = some (.unbound (before ++ after))) {ρ ρ' : Store} (hvars : ρ.vars = σ.vars)
    (hρ : ρ' = ρ.setVar y (.unbound (before ++ k :: after))) : Aside x k ρ' ρ := by
  refine .waits y before after ?_ ?_ hρ
  · rw [Store.representative_of_vars_eq hvars, hrep]
  · rw [hvars, hy]

end Waits

/-- **Every change** is the same with the computation and without it. -/
theorem apply (h : Aside x k τ σ) (hσ : σ.Closed) {c : Change} (hc : c.Valid σ) :
    Aside x k (c.apply τ) (c.apply σ) := by
  obtain ⟨y, before, after, hrep, hy, rfl⟩ | ⟨before, after, hlog, rfl⟩ | rfl := h
  · cases c with
    | assign z v => exact waits_assign hσ.linked hrep hy hc.1 v
    | merge u v => exact waits_merge hσ.linked hrep hy hc.1 hc.2.1 hc.2.2
    | park z l => exact waits_park hσ.linked hrep hy hc.1 l
    | newVar s => exact waits_newVar hσ.linked hrep hy hc.1
    | newRecord _ | newClosure _ | newConfig _ | newFailure _ | newCell _ | newIterator _ | setCell _ _
    | setIterator _ _ | newToken | newReceiver | newAddress _ | emit _ | newQueue | takeEffects =>
      exact waits_of_vars_eq hrep hy rfl rfl
  · cases c with
    | assign z v =>
      -- whatever this resumes comes behind in the log
      refine .resumed before (after ++ (σ.waiting z).map fun k => .wake k.resumer k.stack) ?_ ?_
      · simp only [Change.apply, Store.assign_eq]
        simp [hlog]
      · simp only [Change.apply, Store.assign_eq]
        simp [Store.waiting]
    | emit e =>
      refine .resumed before (after ++ [e]) ?_ ?_
      · simp [Change.apply, Store.emit, hlog]
      · simp [Change.apply, Store.emit]
    | takeEffects => exact .gone rfl
    | merge _ _ | park _ _ | newVar _ | newRecord _ | newClosure _ | newConfig _ | newFailure _ | newCell _
    | newIterator _ | setCell _ _ | setIterator _ _ | newToken | newReceiver | newAddress _ | newQueue =>
      exact .resumed before after hlog rfl
  · exact .gone rfl

/-- Any number of changes are the same with the computation and without it. -/
theorem chain (h : Aside x k τ σ) (hσ : σ.Closed) {cs : List Change} {υ : Store} (hcs : Change.Chain τ cs υ) :
    Change.Chain σ cs (Change.applyAll σ cs) ∧ Aside x k υ (Change.applyAll σ cs) := by
  induction hcs generalizing σ with
  | nil => exact ⟨.nil, h⟩
  | cons hc _ ih =>
    have hc' := h.valid hc
    obtain ⟨hchain, haside⟩ := ih (h.apply hσ hc') (hc'.closed hσ)
    exact ⟨.cons hc' hchain, haside⟩

/-- Once the variable has a value, the computation no longer waits, and taking the log leaves nothing of it. -/
theorem takeEffects_eq (h : Aside x k τ σ) (hσ : σ.Linked) (hτ : τ.Linked) (hbound : τ.isBound x = true) :
    Change.apply τ .takeEffects = Change.apply σ .takeEffects := by
  obtain ⟨y, before, after, hrep, hy, rfl⟩ | ⟨before, after, hlog, rfl⟩ | rfl := h
  · have hlt : y < σ.vars.size := (Array.getElem?_eq_some_iff.mp hy).1
    have hstate : ∀ z : Nat, (σ.setVar y (.unbound (before ++ k :: after))).vars[z]? =
        if y = z then some (.unbound (before ++ k :: after)) else σ.vars[z]? := by
      intro z
      rw [Store.setVar, Array.getElem?_setIfInBounds, if_pos hlt]
    -- as long as it waits, the variable that stands for `x` is unbound
    have hrep' : (σ.setVar y (.unbound (before ++ k :: after))).representative x = y := by
      refine (Store.representative_congr hσ hτ (fun z w => ?_) x).trans hrep
      rw [hstate]
      by_cases hz : y = z
      · rw [if_pos hz, ← hz, hy]
        simp
      · rw [if_neg hz]
    obtain ⟨v, hv⟩ := Store.isBound_eq_true.mp hbound
    rw [Store.resolveVar_eq_val, hrep', hstate, if_pos rfl] at hv
    cases hv
  · rfl
  · rfl

end Aside

/-! ## Being told to wait -/

/-- An operand that stands for an unbound variable has to wait for it. -/
theorem Operand.value_of_var {σ : Store} {env : Env} {a : Ident} {x y : VarId} (ha : env.find? a = some x)
    (hx : σ.resolveVar x = .var y) : (Operand.ident a).value env σ = .error (.blocked y) σ := by
  simp [value, term, Env.var, ha, bind_apply, Action.read, hx]
  rfl

/-- An operand that stands for a value which is no failure has that value. -/
theorem Operand.value_of_val {σ : Store} {env : Env} {a : Ident} {x : VarId} {v : Value}
    (ha : env.find? a = some x) (hx : σ.resolveVar x = .val v) (hv : ∀ f, v ≠ .failed f) :
    (Operand.ident a).value env σ = .ok v σ := by
  cases v with
  | failed f => exact absurd rfl (hv f)
  | lit _ | num _ | record _ | obj _ | proc _ | config _ =>
    simp [value, term, Env.var, ha, bind_apply, Action.read, hx]
    rfl

/-- Throwing leads to a handler or to the end. -/
theorem unwind_ne_waiting (owner : Address) (v : Value) (cause : Option Fault) (stack : Stack) (σ : Store)
    (x : VarId) : (unwind owner v cause stack σ).1 ≠ .waiting x := by
  induction stack with
  | nil => exact nofun
  | cons f rest ih =>
    cases f with
    | run instr env => exact ih
    | trap caught handler env => exact nofun

/-- A fault never waits. -/
theorem raise_ne_waiting (owner : Address) (f : Fault) (stack : Stack) (σ : Store) (x : VarId) :
    (raise owner f stack σ).1 ≠ .waiting x := by
  unfold raise
  split
  · exact unwind_ne_waiting owner _ _ stack σ x
  · exact unwind_ne_waiting owner _ _ stack _ x

namespace Context

variable {σ τ : Store} {ctx : Context} {instr : Instr} {env : Env} {rest : Stack} {x : Nat}

/-- An instruction that has to wait has left the store alone, and waits for an unbound variable. -/
theorem blocked_pads (hσ : σ.Closed) (henv : env.In σ) (hrest : rest.In σ)
    (h : ctx.execute env rest instr σ = .error (.blocked x) τ) :
    σ.Unbound x ∧ σ.Pads τ ∧ τ.Unbound x ∧ τ.Closed := by
  have hpads := ctx.patient_execute env rest instr σ x τ h
  have hsafe := ctx.execute_safe hσ henv hrest instr
  rw [Action.Safe, h] at hsafe
  exact ⟨hpads.unbound hsafe.2, hpads, hsafe.2, hsafe.1.closed hσ⟩

/-- A step that leads to waiting is an instruction that had to wait, and then a computation that waits. -/
theorem blocked_of_step (h : ctx.step instr env rest σ = (.waiting x, τ)) :
    ∃ ρ, ctx.execute env rest instr σ = .error (.blocked x) ρ ∧
      ρ.suspend x ⟨.run instr env :: rest, ctx.resumer⟩ = (true, τ) := by
  rw [step] at h
  rcases hresult : ctx.execute env rest instr σ with ⟨flow, ρ⟩ | ⟨e, ρ⟩
  · rw [hresult] at h
    -- an instruction that goes on, throws or faults does not wait
    cases flow with
    | next stack => cases h
    | throw v cause => exact absurd (congrArg Prod.fst h) (unwind_ne_waiting ctx.owner v cause rest ρ x)
  · rw [hresult] at h
    cases e with
    | fault f => exact absurd (congrArg Prod.fst h) (raise_ne_waiting ctx.owner f rest ρ x)
    | blocked y =>
      rcases hsuspend : ρ.suspend y ⟨.run instr env :: rest, ctx.resumer⟩ with ⟨waits, υ⟩
      simp only [hsuspend] at h
      cases waits with
      | true =>
        cases h
        exact ⟨ρ, rfl, hsuspend⟩
      | false => cases h

/-- An instruction that has to wait for an unbound variable has its computation wait there. -/
theorem step_of_blocked {ρ : Store} (h : ctx.execute env rest instr σ = .error (.blocked x) ρ) (hx : ρ.Unbound x) :
    ctx.step instr env rest σ = (.waiting x, ρ.park x ⟨.run instr env :: rest, ctx.resumer⟩) := by
  rw [step, h]
  simp only [Store.suspend_of_var hx.resolveVar]

/-- The store in which a computation has begun to wait is the old one, but for what nothing refers to and for
the computation itself. -/
theorem waiting_eq_park (hσ : σ.Closed) (henv : env.In σ) (hrest : rest.In σ)
    (h : ctx.step instr env rest σ = (.waiting x, τ)) :
    ∃ ρ, σ.Unbound x ∧ σ.Pads ρ ∧ ρ.Unbound x ∧ ρ.Closed ∧
      τ = ρ.park x ⟨.run instr env :: rest, ctx.resumer⟩ := by
  obtain ⟨ρ, hblocked, hsuspend⟩ := blocked_of_step h
  obtain ⟨hx, hpads, hx', hρ⟩ := blocked_pads hσ henv hrest hblocked
  rw [Store.suspend_of_var hx'.resolveVar] at hsuspend
  exact ⟨ρ, hx, hpads, hx', hρ, (congrArg Prod.snd hsuspend).symm⟩

/-! ## Trying again -/

/-- The computation came to the instruction in the store `σ`. It has been tried any number of times since, and
had to wait each time; others made the changes `cs` in the meantime; and in `ρ` it can be tried again. -/
inductive Retries (ctx : Context) (instr : Instr) (env : Env) (rest : Stack) (σ : Store) :
    (cs : List Change) → (ρ : Store) → Prop where
  | ready : Retries ctx instr env rest σ [] σ
  /-- Somebody else makes a change. -/
  | change {cs : List Change} {ρ : Store} {c : Change} (h : Retries ctx instr env rest σ cs ρ) (hc : c.Valid ρ) :
      Retries ctx instr env rest σ (cs ++ [c]) (c.apply ρ)
  /-- It is tried and has to wait for `x`. Others bind `x`, among what else they do, and take the log, which tells
  them to go on with the computation. -/
  | waited {cs ds : List Change} {ρ τ υ : Store} {x : VarId} (h : Retries ctx instr env rest σ cs ρ)
      (hstep : ctx.step instr env rest ρ = (.waiting x, τ)) (hds : Change.Chain τ ds υ)
      (hbound : υ.isBound x = true) :
      Retries ctx instr env rest σ (cs ++ (ds ++ [.takeEffects])) (Change.takeEffects.apply υ)

/-- Others can make any number of changes before it is tried again. -/
theorem Retries.chain {cs ds : List Change} {ρ τ : Store} (h : ctx.Retries instr env rest σ cs ρ)
    (hds : Change.Chain ρ ds τ) : ctx.Retries instr env rest σ (cs ++ ds) τ := by
  induction hds generalizing cs with
  | nil => rwa [List.append_nil]
  | @cons _ _ c ds hc _ ih =>
    rw [List.append_cons]
    exact ih (.change h hc)

/-- The store in which the instruction is tried again is the one that the others have made. -/
theorem Retries.erase {cs : List Change} {ρ : Store} (h : ctx.Retries instr env rest σ cs ρ) (hσ : σ.Closed)
    (henv : env.In σ) (hrest : rest.In σ) :
    (ρ.Closed ∧ σ.Grows ρ) ∧ ∃ ds, Change.Padded cs ds ∧ ρ = Change.applyAll σ ds := by
  -- on the number of attempts and of changes between them
  induction h with
  | ready => exact ⟨⟨hσ, .refl σ⟩, [], .nil, rfl⟩
  | @change cs ρ c _ hc ih =>
    obtain ⟨⟨hρ, hg⟩, ds, hpadded, rfl⟩ := ih
    refine ⟨⟨hc.closed hρ, hg.trans hc.grows⟩, ds ++ [c], hpadded.append (.refl [c]), ?_⟩
    rw [Change.applyAll_append]
    rfl
  | @waited cs es ρ τ υ x _ hstep hes hbound ih =>
    obtain ⟨⟨hρ, hg⟩, ds, hpadded, hds⟩ := ih
    have henvρ := hg.env henv
    have hrestρ := hg.stack hrest
    have hfollows := ctx.step_follows hρ henvρ hrestρ instr
    rw [hstep] at hfollows
    have hυ : υ.Closed := hes.closed (hfollows.evolves.closed hρ)
    have htake : (Change.takeEffects).Valid υ := trivial
    refine ⟨⟨htake.closed hυ, hg.trans (hfollows.evolves.grows.trans (hes.grows.trans htake.grows))⟩, ?_⟩
    -- the computation that waits is set aside: the others do what they would have done without it
    obtain ⟨ρ', -, hpads, hx, hρ', rfl⟩ := waiting_eq_park hρ henvρ hrestρ hstep
    obtain ⟨hchain, haside⟩ := (Aside.of_park hx _).chain hρ' hes
    have hgone := haside.takeEffects_eq (hchain.closed hρ').linked hυ.linked hbound
    obtain ⟨pads, hunused, rfl⟩ := Change.exists_of_pads hpads
    refine ⟨ds ++ (pads ++ (es ++ [.takeEffects])), ?_, ?_⟩
    · have htail := Change.Padded.append (.of_unused hunused) (.refl (es ++ [.takeEffects]))
      exact hpadded.append htail
    · rw [hgone, Change.applyAll_append, Change.applyAll_append, Change.applyAll_append, ← hds]
      rfl

/-- **Other computations** are among those who make the changes: between two attempts any of them may run a slice. -/
theorem Retries.compute {cs : List Change} {ρ : Store} (h : ctx.Retries instr env rest σ cs ρ) (hσ : σ.Closed)
    (henv : env.In σ) (hrest : rest.In σ) (other : Context) (slice executed : Nat) {stack : Stack} (hstack : stack.In ρ) :
    ∃ ds, ctx.Retries instr env rest σ (cs ++ ds) (other.compute slice stack executed ρ).store := by
  have hρ := (h.erase hσ henv hrest).1.1
  obtain ⟨ds, hds⟩ := Change.Chain.of_evolves (other.compute_evolves slice executed hρ hstack).1
  exact ⟨ds, h.chain hds⟩

/-- **Waiting is replay-safe.** An instruction that has to wait does so for an unbound variable, and has made
nothing but records and bound variables that nothing refers to. What waits then is the computation from this very
instruction on. And however often it has to wait before it is carried out, the store that it is finally tried in
is the one that all the others have made from the store where it was tried first, as if it had come only now. -/
theorem execute_replaySafe (ctx : Context) (instr : Instr) (hσ : σ.Closed) (henv : env.In σ)
    (hrest : rest.In σ) :
    (∀ x τ, ctx.execute env rest instr σ = .error (.blocked x) τ → σ.Unbound x ∧ σ.Pads τ) ∧
    (∀ x τ, ctx.step instr env rest σ = (.waiting x, τ) →
      σ.Unbound x ∧ ∃ ρ, σ.Pads ρ ∧ τ = ρ.park x ⟨.run instr env :: rest, ctx.resumer⟩) ∧
    ∀ cs ρ, ctx.Retries instr env rest σ cs ρ →
      ∃ ds, Change.Padded cs ds ∧ ρ = Change.applyAll σ ds := by
  refine ⟨fun x τ h => ?_, fun x τ h => ?_, fun cs ρ h => ?_⟩
  · obtain ⟨hx, hpads, -⟩ := blocked_pads hσ henv hrest h
    exact ⟨hx, hpads⟩
  · obtain ⟨ρ, hx, hpads, -, -, heq⟩ := waiting_eq_park hσ henv hrest h
    exact ⟨hx, ρ, hpads, heq⟩
  · exact (h.erase hσ henv hrest).2

/-- A sum whose parts become known one after the other has to wait twice, and when it is tried for the third
time, the store is the one in which the parts have become known and nothing else has happened. -/
theorem execute_replaySafe_sum :
    ∃ (ctx : Context) (env : Env) (σ ρ : Store) (cs : List Change),
      cs = [.assign 0 (.num (.int32 1)), .takeEffects, .assign 1 (.num (.int32 2)), .takeEffects] ∧
      ctx.Retries (.arith .add (.ident "a") (.ident "b") "c") env [] σ cs ρ ∧
      ∃ ds, Change.Padded cs ds ∧ ρ = Change.applyAll σ ds := by
  let ctx : Context := { owner := "main", resumer := .queue 0 }
  let env : Env := [("a", 0), ("b", 1), ("c", 2)]
  let instr : Instr := .arith .add (.ident "a") (.ident "b") "c"
  let k : Continuation := ⟨[.run instr env], ctx.resumer⟩
  let one : Value := .num (.int32 1)
  let two : Value := .num (.int32 2)
  let σ : Store := Change.applyAll {} [.newVar (.unbound []), .newVar (.unbound []), .newVar (.unbound [])]
  let σ' : Store := (σ.park 0 k).assign 0 one
  let ρ : Store := Change.takeEffects.apply σ'
  let ρ' : Store := (ρ.park 1 k).assign 1 two
  -- the first attempt waits for the first part
  have h₀ : σ.Unbound 0 := ⟨[], rfl⟩
  have hfirst : ctx.step instr env [] σ = (.waiting 0, σ.park 0 k) := by
    refine step_of_blocked ?_ h₀
    rw [execute, bind_apply, Operand.value_of_var rfl h₀.resolveVar]
  have hσ' : σ'.resolveVar 0 = .val one := (h₀.park_self k).resolveVar_assign one
  have hbind : Change.Chain (σ.park 0 k) [.assign 0 one] σ' := .cons ⟨h₀.park_self k, trivial⟩ .nil
  have honce : ctx.Retries instr env [] σ [.assign 0 one, .takeEffects] ρ :=
    .waited .ready hfirst hbind (Store.isBound_of_val hσ')
  -- the second attempt knows the first part and waits for the other
  have h₁ : ρ.Unbound 1 := ⟨[], rfl⟩
  have hone : ρ.resolveVar 0 = .val one :=
    (Store.resolve_of_vars_eq (σ := σ') (τ := ρ) rfl (.var 0)).trans hσ'
  have hsecond : ctx.step instr env [] ρ = (.waiting 1, ρ.park 1 k) := by
    refine step_of_blocked ?_ h₁
    have hb : (Operand.ident "b").value env ρ = .error (.blocked 1) ρ := Operand.value_of_var rfl h₁.resolveVar
    have hvalue : ∀ f, Value.num (.int32 1) ≠ .failed f := fun f hf => by cases hf
    rw [execute, bind_apply, Operand.value_of_val rfl hone hvalue]
    simp only [bind_apply, hb]
  have hρ' : ρ'.resolveVar 1 = .val two := (h₁.park_self k).resolveVar_assign two
  have hbind' : Change.Chain (ρ.park 1 k) [.assign 1 two] ρ' := .cons ⟨h₁.park_self k, trivial⟩ .nil
  have htwice : ctx.Retries instr env [] σ
      [.assign 0 one, .takeEffects, .assign 1 two, .takeEffects] (Change.takeEffects.apply ρ') :=
    honce.waited hsecond hbind' (Store.isBound_of_val hρ')
  have hmade : Change.Chain {} [.newVar (.unbound []), .newVar (.unbound []), .newVar (.unbound [])] σ :=
    .cons (.newVar_unbound _) (.cons (.newVar_unbound _) (.cons (.newVar_unbound _) .nil))
  have henv : env.In σ := by simp [Env.In, env, σ, Change.applyAll, Change.apply]
  have hrest : Stack.In σ [] := fun _ hf => absurd hf List.not_mem_nil
  have hsafe := ctx.execute_replaySafe instr (hmade.closed Store.closed_empty) henv hrest
  exact ⟨ctx, env, σ, _, _, rfl, htwice, hsafe.2.2 _ _ htwice⟩

end Context

end Dataflow
