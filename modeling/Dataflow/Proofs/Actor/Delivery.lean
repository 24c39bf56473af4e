/-
Delivery: what carrying out the log does to the actors of a system.

The effects in the log are carried out one after the other, and whatever one of them brings to an actor, it brings
to the end of the actor's mailbox. So of an actor that is known when delivery begins, delivery changes the mailbox,
which gets what the effects hold for the actor in their order, and whether it is scheduled; an actor that
the log announces begins its life with the item to configure itself in front of all others; and nobody else
comes into being. Everything that is said about deliveries elsewhere rests on these three statements.
-/
import Dataflow.Actor.Schedule
import Dataflow.Proofs.Deeds

set_option autoImplicit false

namespace Dataflow

/-- What the effect puts into the mailbox of actor `n`. -/
def Effect.itemFor? (n : Nat) : Effect → Option Item
  | .wake (.activity m id) stack => if m = n then some (.resume id stack) else none
  | .send ⟨.actor m, _⟩ e => if m = n then some (.envelope e) else none
  | .spawn ⟨.actor m, _⟩ _ config => if m = n then some (.configure config) else none
  | _ => none

namespace Actor

/-- The actor after an item has been put into its mailbox. -/
def receive (running : Bool) (item : Item) (a : Actor) : Actor :=
  match a.mailbox.push? item with
  | none => a
  | some mailbox => { a with mailbox, scheduled := a.scheduled || running }

/-- `a'` is `a` after these items have come to its mailbox, as far as its life is concerned. -/
structure Gets (items : List Item) (a a' : Actor) : Prop where
  mail : a'.mailbox.items = if a.mailbox.closed then [] else a.mailbox.items ++ items
  closed : a'.mailbox.closed = a.mailbox.closed
  phase : a'.phase = a.phase
  activity : a'.activity = a.activity
  deferred : a'.deferred = a.deferred
  activities : a'.activities = a.activities

namespace Gets

variable {items more : List Item} {a a' a'' : Actor}

theorem refl (a : Actor) : Gets [] a a := by
  refine ⟨?_, rfl, rfl, rfl, rfl, rfl⟩
  by_cases h : a.mailbox.closed = true
  · rw [if_pos h, a.mailbox.empty_of_closed h]
  · rw [if_neg h, List.append_nil]

/-- What an actor gets one after the other it can get at once. A closed mailbox stays closed, so that it takes either all or
nothing. -/
theorem trans (h : Gets items a a') (h' : Gets more a' a'') : Gets (items ++ more) a a'' where
  mail := by
    rw [h'.mail, h.closed, h.mail]
    -- closed or not, the mailbox is the same for both parts
    by_cases hclosed : a.mailbox.closed = true
    · rw [if_pos hclosed, if_pos hclosed]
    · rw [if_neg hclosed, if_neg hclosed, if_neg hclosed, List.append_assoc]
  closed := h'.closed.trans h.closed
  phase := h'.phase.trans h.phase
  activity := h'.activity.trans h.activity
  deferred := h'.deferred.trans h.deferred
  activities := h'.activities.trans h.activities

/-- Receiving an item is getting it, unless the mailbox is closed, and then it is empty and stays so. -/
theorem receive (running : Bool) (item : Item) (a : Actor) : Gets [item] a (a.receive running item) := by
  rw [Actor.receive, Mailbox.push?]
  by_cases hclosed : a.mailbox.closed = true
  · rw [if_pos hclosed]
    refine ⟨?_, rfl, rfl, rfl, rfl, rfl⟩
    rw [if_pos hclosed, a.mailbox.empty_of_closed hclosed]
  · rw [if_neg hclosed]
    refine ⟨?_, ?_, rfl, rfl, rfl, rfl⟩
    · rw [if_neg hclosed]
    · exact (Bool.not_eq_true _ ▸ hclosed).symm

end Gets

end Actor

namespace ActorSystem

variable {sys : ActorSystem} {n m : Nat} {a : Actor}

/-! ## One item -/

/-- Changing the entries of a list changes what is found in it. -/
theorem lookup_map (l : List (Nat × Actor)) (f : Nat → Actor → Actor) (m : Nat) :
    (l.map fun p => (p.1, f p.1 p.2)).lookup m = (l.lookup m).map (f m) := by
  induction l with
  | nil => rfl
  | cons p l ih =>
    rw [List.map_cons, List.lookup_cons, List.lookup_cons, ih]
    by_cases hm : m == p.1
    · obtain rfl := beq_iff_eq.mp hm
      simp only [hm, Option.map_some]
    · simp only [hm]

theorem actor?_congr {sys' : ActorSystem} (h : sys'.actors = sys.actors) (m : Nat) :
    sys'.actor? m = sys.actor? m := by
  rw [actor?, actor?, h]

/-- Modifying one actor modifies no other. -/
theorem actor?_modifyActor (sys : ActorSystem) (n : Nat) (f : Actor → Actor) (m : Nat) :
    (sys.modifyActor n f).actor? m = if m = n then (sys.actor? m).map f else sys.actor? m := by
  rw [modifyActor, actor?, lookup_map sys.actors fun k a => if k = n then f a else a]
  by_cases hm : m = n
  · simp only [hm, if_true, actor?]
  · simp only [hm, if_false, Option.map_id', actor?]

theorem actor?_modifyActor_self (h : sys.actor? n = some a) (f : Actor → Actor) :
    (sys.modifyActor n f).actor? n = some (f a) := by
  rw [actor?_modifyActor, if_pos rfl, h, Option.map_some]

theorem actor?_modifyActor_of_ne (hne : m ≠ n) (f : Actor → Actor) :
    (sys.modifyActor n f).actor? m = sys.actor? m := by
  rw [actor?_modifyActor, if_neg hne]

/-- Being put into the run queue is visible in the flag of the actor and in the queue, and nowhere else. -/
theorem actor?_schedule (sys : ActorSystem) (n m : Nat) :
    (sys.schedule n).actor? m =
      if m = n then (sys.actor? m).map fun a => { a with scheduled := a.scheduled || sys.executor.running }
      else sys.actor? m := by
  rw [schedule]
  by_cases hm : m = n
  · subst hm
    rw [if_pos rfl]
    cases h : sys.actor? m with
    | none =>
      dsimp only
      rw [h]
      rfl
    | some a =>
      dsimp only
      split
      · next hstays =>
        -- it is scheduled already, or nobody is put into the queue any more
        have hflag : (a.scheduled || sys.executor.running) = a.scheduled := by
          revert hstays
          cases a.scheduled <;> cases sys.executor.running <;> simp
        rw [h, Option.map_some, hflag]
      · next hgoes =>
        have hflag : (a.scheduled || sys.executor.running) = true := by
          revert hgoes
          cases a.scheduled <;> cases sys.executor.running <;> simp
        rw [Option.map_some, hflag]
        exact (actor?_congr rfl m).trans (actor?_modifyActor_self h fun a => { a with scheduled := true })
  · rw [if_neg hm]
    split
    · rfl
    · split
      · rfl
      · exact (actor?_congr rfl m).trans (actor?_modifyActor_of_ne hm fun a => { a with scheduled := true })

/-- Only the actor that an item is for receives it. Whether it is scheduled as well cannot be seen in the actor. -/
theorem actor?_enqueue (sys : ActorSystem) (n : Nat) (item : Item) (m : Nat) :
    (sys.enqueue n item).actor? m =
      if m = n then (sys.actor? m).map (Actor.receive sys.executor.running item) else sys.actor? m := by
  rw [enqueue]
  by_cases hm : m = n
  · subst hm
    rw [if_pos rfl]
    cases h : sys.actor? m with
    | none =>
      dsimp only
      rw [h]
      rfl
    | some a =>
      dsimp only
      rw [Option.map_some, Actor.receive]
      cases hpush : a.mailbox.push? item with
      -- the mailbox is closed, and nothing has changed
      | none => exact h
      | some mailbox =>
        dsimp only
        rw [actor?_schedule, if_pos rfl, actor?_modifyActor_self h]
        rfl
  · rw [if_neg hm]
    split
    · rfl
    · split
      · rfl
      · rw [actor?_schedule, if_neg hm, actor?_modifyActor_of_ne hm]

/-- A new actor finds its configuration in its mailbox. -/
theorem actor?_register_self (h : sys.actor? n = none) (address : Address) (config : ConfigId) :
    (sys.register n address config).actor? n =
      some (Actor.receive sys.executor.running (.configure config) { address }) := by
  have hnew : ({ sys with
      actors := sys.actors ++ [(n, ({ address } : Actor))]
      registry := sys.registry ++ [(address, n)] } : ActorSystem).actor? n = some { address } := by
    simp only [actor?, List.lookup_append] at h ⊢
    simp [h]
  rw [register, actor?_enqueue, if_pos rfl, hnew]
  rfl

theorem actor?_register_of_ne (hne : m ≠ n) (address : Address) (config : ConfigId) :
    (sys.register n address config).actor? m = sys.actor? m := by
  rw [register, actor?_enqueue, if_neg hne]
  have hmiss : [(n, ({ address } : Actor))].lookup m = none := by
    rw [List.lookup_cons, beq_eq_false_iff_ne.mpr hne]
    rfl
  simp only [actor?, List.lookup_append, hmiss, Option.or_none]

/-! ## One effect -/

/-- The settings and the executor stay what they are. -/
theorem schedule_fixed (sys : ActorSystem) (n : Nat) :
    (sys.schedule n).kernel = sys.kernel ∧ (sys.schedule n).executor = sys.executor := by
  rw [schedule]
  split
  · exact ⟨rfl, rfl⟩
  · split
    · exact ⟨rfl, rfl⟩
    · exact ⟨rfl, rfl⟩

theorem enqueue_fixed (sys : ActorSystem) (n : Nat) (item : Item) :
    (sys.enqueue n item).kernel = sys.kernel ∧ (sys.enqueue n item).executor = sys.executor := by
  rw [enqueue]
  split
  · exact ⟨rfl, rfl⟩
  · split
    · exact ⟨rfl, rfl⟩
    · exact schedule_fixed _ n

/-- Delivering one effect touches mailboxes, answers and what is outside, but neither the kernel nor the executor. -/
theorem route_fixed (sys : ActorSystem) (e : Effect) :
    (sys.route e).kernel = sys.kernel ∧ (sys.route e).executor = sys.executor := by
  unfold route
  split
  · exact enqueue_fixed ..
  · exact enqueue_fixed ..
  · exact ⟨rfl, rfl⟩
  · exact ⟨rfl, rfl⟩
  · exact enqueue_fixed ..
  · exact ⟨rfl, rfl⟩

/-- What an effect means for an actor that it does not announce. -/
theorem actor?_route (sys : ActorSystem) {e : Effect} (h : e.child? ≠ some n) :
    (sys.route e).actor? n =
      match e.itemFor? n with
      | some item => (sys.actor? n).map (Actor.receive sys.executor.running item)
      | none => sys.actor? n := by
  have henqueue : ∀ (m : Nat) (item : Item), (sys.enqueue m item).actor? n =
      match (if m = n then some item else none : Option Item) with
      | some item => (sys.actor? n).map (Actor.receive sys.executor.running item)
      | none => sys.actor? n := by
    intro m item
    rw [actor?_enqueue]
    by_cases hm : m = n
    · rw [if_pos hm.symm, if_pos hm]
    · rw [if_neg (Ne.symm hm), if_neg hm]
  cases e with
  | wake r stack =>
    cases r with
    | activity m id => exact henqueue m (.resume id stack)
    | queue _ | tag _ => rfl
  | send recipient envelope =>
    obtain ⟨receiver, address⟩ := recipient
    cases receiver with
    | actor m => exact henqueue m (.envelope envelope)
    | recorder _ => rfl
    | client _ => cases envelope <;> rfl
  | spawn child parent config =>
    obtain ⟨receiver, address⟩ := child
    cases receiver with
    | actor m =>
      have hne : n ≠ m := fun e => h (congrArg some e.symm)
      have hnone : Effect.itemFor? n (.spawn ⟨.actor m, address⟩ parent config) = none := if_neg hne.symm
      rw [hnone]
      exact actor?_register_of_ne hne address config
    | recorder _ | client _ => rfl

/-! ## Every effect -/

/-- The system after the log of the store has been carried out. -/
def delivered (sys : ActorSystem) (σ : Store) : ActorSystem := σ.effects.toList.foldl route sys

/-- An actor that delivery finds gets what the effects hold for it, in their order. -/
theorem gets_of_deliver {effects : List Effect} (ha : sys.actor? n = some a)
    (h : ∀ e ∈ effects, e.child? ≠ some n) :
    ∃ a', (effects.foldl route sys).actor? n = some a' ∧
      Actor.Gets (effects.filterMap (Effect.itemFor? n)) a a' := by
  induction effects generalizing sys a with
  | nil => exact ⟨a, ha, .refl a⟩
  | cons e effects ih =>
    obtain ⟨he, hrest⟩ := List.forall_mem_cons.mp h
    have hroute := actor?_route sys he
    rw [List.foldl_cons, List.filterMap_cons]
    cases hitem : e.itemFor? n with
    | none =>
      rw [hitem] at hroute
      exact ih (hroute.trans ha) hrest
    | some item =>
      rw [hitem, ha] at hroute
      obtain ⟨a', hlast, hgets⟩ := ih hroute hrest
      exact ⟨a', hlast, (Actor.Gets.receive sys.executor.running item a).trans hgets⟩

/-- An actor that is neither known nor announced stays unknown. -/
theorem unknown_of_deliver {effects : List Effect} (hn : sys.actor? n = none)
    (h : ∀ e ∈ effects, e.child? ≠ some n) : (effects.foldl route sys).actor? n = none := by
  induction effects generalizing sys with
  | nil => exact hn
  | cons e effects ih =>
    obtain ⟨he, hrest⟩ := List.forall_mem_cons.mp h
    have hroute := actor?_route sys he
    refine ih ?_ hrest
    rw [hroute, hn]
    cases e.itemFor? n with
    | none => rfl
    | some item => rfl

/-- An actor that is announced once comes into being, and has to configure itself before everything else. -/
theorem born_of_deliver {before after : List Effect} {address parent : Address} {config : ConfigId}
    (hn : sys.actor? n = none) (hbefore : ∀ e ∈ before, e.child? ≠ some n)
    (hafter : ∀ e ∈ after, e.child? ≠ some n) :
    ∃ a, ((before ++ .spawn ⟨.actor n, address⟩ parent config :: after).foldl route sys).actor? n = some a ∧
      Actor.Gets (.configure config :: after.filterMap (Effect.itemFor? n)) { address } a := by
  rw [List.foldl_append, List.foldl_cons]
  have hunknown := unknown_of_deliver hn hbefore
  generalize before.foldl route sys = sys' at hunknown
  have hborn : (sys'.route (.spawn ⟨.actor n, address⟩ parent config)).actor? n =
      some (Actor.receive sys'.executor.running (.configure config) { address }) :=
    actor?_register_self hunknown address config
  obtain ⟨a, ha, hgets⟩ := gets_of_deliver hborn hafter
  exact ⟨a, ha, (Actor.Gets.receive _ _ _).trans hgets⟩

theorem foldl_route_fixed (effects : List Effect) (sys : ActorSystem) :
    (effects.foldl route sys).kernel = sys.kernel ∧ (effects.foldl route sys).executor = sys.executor := by
  induction effects generalizing sys with
  | nil => exact ⟨rfl, rfl⟩
  | cons e effects ih =>
    obtain ⟨hkernel, hexecutor⟩ := ih (sys.route e)
    exact ⟨hkernel.trans (route_fixed sys e).1, hexecutor.trans (route_fixed sys e).2⟩

theorem delivered_fixed (sys : ActorSystem) (σ : Store) :
    (sys.delivered σ).kernel = sys.kernel ∧ (sys.delivered σ).executor = sys.executor :=
  foldl_route_fixed σ.effects.toList sys

end ActorSystem

/-- The store with an empty log. -/
def Store.cleared (σ : Store) : Store := { σ with effects := #[] }

theorem Store.cleared_grows (σ : Store) : σ.Grows σ.cleared := { Store.Grows.refl σ with }

end Dataflow
