/-
Sound systems: what is true of an actor system whatever happens to it.

A system is sound if its store is closed, everything that its actors keep is in the store, each actor is at a stage of
its life, and the actors that the log announces are new ones. It stays sound under everything that an actor system is
made of: deeds of computations, delivery of the log, new items in a mailbox, and changes of an actor that keep it alive.
-/
import Dataflow.Proofs.Actor.Life

set_option autoImplicit false

namespace Dataflow

/-! ## Sound systems -/

/-- The system is in order: nothing in it leads nowhere, its actors live, and those in the log are new. -/
structure ActorSystem.Sound (sys : ActorSystem) (σ : Store) : Prop where
  store : σ.Closed
  root : sys.kernel.root.In σ
  actors : ∀ n a, sys.actor? n = some a → a.In σ ∧ a.Life
  numbered : ∀ n a, sys.actor? n = some a → n < σ.receivers
  announced : ∀ e ∈ σ.effects.toList, ∀ n, e.child? = some n → n < σ.receivers ∧ sys.actor? n = none
  once : (σ.effects.toList.filterMap Effect.child?).Nodup

namespace ActorSystem.Sound

variable {sys sys' : ActorSystem} {σ τ : Store} {n : Nat} {a : Actor}

/-- An actor that exists is not announced. -/
theorem not_announced (h : sys.Sound σ) (ha : sys.actor? n = some a) :
    ∀ e ∈ σ.effects.toList, e.child? ≠ some n := by
  intro e he hchild
  rw [(h.announced e he n hchild).2] at ha
  cases ha

/-- Actors may change as long as they stay in the store and alive. -/
theorem replace (h : sys.Sound σ) (hkernel : sys'.kernel = sys.kernel)
    (hactors : ∀ n b, sys'.actor? n = some b →
      ∃ a, sys.actor? n = some a ∧ (a.In σ → a.Life → b.In σ ∧ b.Life)) : sys'.Sound σ where
  store := h.store
  root := hkernel ▸ h.root
  actors n b hb := by
    obtain ⟨a, ha, hkeep⟩ := hactors n b hb
    exact hkeep (h.actors n a ha).1 (h.actors n a ha).2
  numbered n b hb := by
    obtain ⟨a, ha, -⟩ := hactors n b hb
    exact h.numbered n a ha
  announced e he n hn := by
    refine ⟨(h.announced e he n hn).1, ?_⟩
    cases hb : sys'.actor? n with
    | none => rfl
    | some b =>
      obtain ⟨a, ha, -⟩ := hactors n b hb
      exact absurd hn (h.not_announced ha e he)
  once := h.once

/-- Only the actors and the kernel matter. -/
theorem congr (h : sys.Sound σ) (hactors : sys'.actors = sys.actors) (hkernel : sys'.kernel = sys.kernel) :
    sys'.Sound σ :=
  h.replace hkernel fun n b hb => ⟨b, actor?_congr hactors n ▸ hb, fun hin hlife => ⟨hin, hlife⟩⟩

/-- **Work on the store** keeps the system sound, if it announces only new actors. -/
theorem evolve (h : sys.Sound σ) (hevolves : σ.Evolves τ) {new : List Effect} (hnew : σ.Writes τ new) :
    sys.Sound τ where
  store := hevolves.closed h.store
  root := hevolves.grows.env h.root
  actors n a ha := ⟨hevolves.grows.actor (h.actors n a ha).1, (h.actors n a ha).2⟩
  numbered n a ha := Nat.lt_of_lt_of_le (h.numbered n a ha) hnew.receivers
  announced e he n hn := by
    rw [hnew.log] at he
    rcases List.mem_append.mp he with he | he
    · exact ⟨Nat.lt_of_lt_of_le (h.announced e he n hn).1 hnew.receivers, (h.announced e he n hn).2⟩
    · have hnum := hnew.numbered n (List.mem_filterMap.mpr ⟨e, he, hn⟩)
      refine ⟨hnum.2, ?_⟩
      -- the number is new, and those of the actors are old
      cases ha : sys.actor? n with
      | none => rfl
      | some a => exact absurd (h.numbered n a ha) (Nat.not_lt.mpr hnum.1)
  once := by
    rw [hnew.log, List.filterMap_append]
    refine List.nodup_append.mpr ⟨h.once, hnew.children, fun n hn m hm => ?_⟩
    obtain ⟨e, he, hchild⟩ := List.mem_filterMap.mp hn
    exact Nat.ne_of_lt (Nat.lt_of_lt_of_le (h.announced e he n hchild).1 (hnew.numbered m hm).1)

theorem deeds (h : sys.Sound σ) (hdeeds : σ.Deeds τ) : sys.Sound τ := by
  obtain ⟨new, hnew⟩ := hdeeds.writes
  exact h.evolve hdeeds.evolves hnew.toWrites

theorem leaves {r : Resumer} {w : Option VarId} (h : sys.Sound σ) (hleaves : σ.Leaves r τ w) :
    sys.Sound τ := by
  obtain ⟨new, hnew⟩ := hleaves.writes
  exact h.evolve hleaves.evolves hnew.toWrites

/-- An item that is in the store and configures nobody may come to any mailbox. -/
theorem enqueue (h : sys.Sound σ) (n : Nat) {item : Item} (hin : item.In σ) (hitem : item.isConfigure = false) :
    (sys.enqueue n item).Sound σ := by
  refine h.replace (enqueue_fixed sys n item).1 fun m b hb => ?_
  rw [actor?_enqueue] at hb
  split at hb
  · obtain ⟨a, ha, rfl⟩ := Option.map_eq_some_iff.mp hb
    have hgets := Actor.Gets.receive sys.executor.running item a
    refine ⟨a, ha, fun hold hlife => ⟨hold.gets hgets ?_, hlife.gets hgets ?_⟩⟩
    · exact fun i hi => List.mem_singleton.mp hi ▸ hin
    · exact fun i hi => List.mem_singleton.mp hi ▸ hitem
  · exact ⟨b, hb, fun hin hlife => ⟨hin, hlife⟩⟩

end ActorSystem.Sound

/-! ## Delivery in a sound system -/

/-- What delivery makes of an actor: it stays unknown, or gets items, or comes into being. -/
inductive Actor.Delivery (items : List Item) : Option Actor → Option Actor → Prop where
  | nobody : Delivery items none none
  | known {a a' : Actor} (h : Gets items a a') (hitems : ∀ item ∈ items, item.isConfigure = false) :
      Delivery items (some a) (some a')
  | born {a : Actor} {address : Address} {config : ConfigId} {rest : List Item}
      (h : Gets (.configure config :: rest) { address } a) (hsub : (.configure config :: rest).Sublist items)
      (hrest : ∀ item ∈ rest, item.isConfigure = false) : Delivery items none (some a)

/-- Nothing is delivered. -/
theorem Actor.Delivery.refl (o : Option Actor) : Delivery [] o o := by
  cases o with
  | none => exact .nobody
  | some a => exact .known (.refl a) fun _ h => absurd h List.not_mem_nil

/-- Two deliveries are one. -/
theorem Actor.Delivery.trans {items more : List Item} {o o' o'' : Option Actor} (h : Delivery items o o')
    (h' : Delivery more o' o'') : Delivery (items ++ more) o o'' := by
  cases h with
  | nobody =>
    cases h' with
    | nobody => exact .nobody
    | born hgets hsub hrest => exact .born hgets (hsub.trans (List.sublist_append_right _ _)) hrest
  | known hgets hitems =>
    cases h' with
    | known hgets' hitems' => exact .known (hgets.trans hgets') (List.forall_mem_append.mpr ⟨hitems, hitems'⟩)
  | born hgets hsub hrest =>
    cases h' with
    | known hgets' hitems' =>
      exact .born (hgets.trans hgets') (hsub.append_right more) (List.forall_mem_append.mpr ⟨hrest, hitems'⟩)

/-- One item is a delivery. -/
theorem ActorSystem.delivery_enqueue (sys : ActorSystem) (n : Nat) {item : Item} (hitem : item.isConfigure = false)
    (m : Nat) : ∃ items, Actor.Delivery items (sys.actor? m) ((sys.enqueue n item).actor? m) := by
  rw [actor?_enqueue]
  split
  · cases sys.actor? m with
    | none => exact ⟨[], .nobody⟩
    | some a =>
      have hgets := Actor.Gets.receive sys.executor.running item a
      exact ⟨[item], .known hgets fun i hi => List.mem_singleton.mp hi ▸ hitem⟩
  · exact ⟨[], .refl _⟩

/-- Only an announcement brings the item that configures an actor. -/
theorem Effect.isConfigure_itemFor {e : Effect} {n : Nat} {item : Item} (hitem : e.itemFor? n = some item)
    (hchild : e.child? ≠ some n) : item.isConfigure = false := by
  unfold Effect.itemFor? at hitem
  split at hitem
  · split at hitem
    · cases hitem
      rfl
    · cases hitem
  · split at hitem
    · cases hitem
      rfl
    · cases hitem
  · split at hitem
    · next hm =>
      subst hm
      exact absurd rfl hchild
    · cases hitem
  · cases hitem

/-- An actor gets a configuration only when it is spawned. -/
theorem isConfigure_of_deliver {effects : List Effect} {n : Nat} (h : ∀ e ∈ effects, e.child? ≠ some n) :
    ∀ item ∈ effects.filterMap (Effect.itemFor? n), item.isConfigure = false := by
  intro item hitem
  obtain ⟨e, he, hitem⟩ := List.mem_filterMap.mp hitem
  exact Effect.isConfigure_itemFor hitem (h e he)

/-- The effect that announces an actor. -/
theorem Effect.eq_spawn_of_child {e : Effect} {n : Nat} (h : e.child? = some n) :
    ∃ address parent config, e = .spawn ⟨.actor n, address⟩ parent config := by
  unfold Effect.child? at h
  split at h
  · cases h
    exact ⟨_, _, _, rfl⟩
  · cases h

namespace ActorSystem.Sound

variable {sys : ActorSystem} {σ : Store}

/-- **What delivering does to an actor.** An actor that is known gets its items. One that is announced in the log is born, and
gets what comes after the announcement. Anybody else stays unknown. -/
theorem delivery (h : sys.Sound σ) (n : Nat) :
    Actor.Delivery (σ.effects.toList.filterMap (Effect.itemFor? n)) (sys.actor? n)
      ((sys.delivered σ).actor? n) := by
  rw [delivered]
  cases ha : sys.actor? n with
  | some a =>
    have hnot := h.not_announced ha
    -- a known actor is announced to nobody any more
    obtain ⟨a', ha', hgets⟩ := gets_of_deliver ha hnot
    rw [ha']
    exact .known hgets (isConfigure_of_deliver hnot)
  | none =>
    by_cases hchild : ∃ e ∈ σ.effects.toList, e.child? = some n
    · -- it is announced, and once only
      obtain ⟨e, he, hen⟩ := hchild
      obtain ⟨address, parent, config, rfl⟩ := Effect.eq_spawn_of_child hen
      obtain ⟨before, after, hsplit⟩ := List.append_of_mem he
      have honce := h.once
      rw [hsplit, List.filterMap_append, List.filterMap_cons, hen] at honce
      -- what stands before the announcement would be lost, so that it must not be for this actor
      have hbefore : ∀ e ∈ before, e.child? ≠ some n := by
        intro e he hn
        have hmem : n ∈ before.filterMap Effect.child? := List.mem_filterMap.mpr ⟨e, he, hn⟩
        exact (List.nodup_append.mp honce).2.2 n hmem n List.mem_cons_self rfl
      have hafter : ∀ e ∈ after, e.child? ≠ some n := by
        intro e he hn
        have hmem : n ∈ after.filterMap Effect.child? := List.mem_filterMap.mpr ⟨e, he, hn⟩
        exact (List.nodup_cons.mp (List.nodup_append.mp honce).2.1).1 hmem
      obtain ⟨a, ha', hgets⟩ := @born_of_deliver sys n before after address parent config ha hbefore hafter
      rw [hsplit, ha']
      refine .born hgets ?_ (isConfigure_of_deliver hafter)
      rw [List.filterMap_append, List.filterMap_cons, Effect.itemFor?, if_pos rfl]
      exact List.sublist_append_right _ _
    · have hnot : ∀ e ∈ σ.effects.toList, e.child? ≠ some n := fun e he hn => hchild ⟨e, he, hn⟩
      rw [unknown_of_deliver ha hnot]
      exact .nobody

/-- **Delivery** keeps the system sound. -/
theorem deliver (h : sys.Sound σ) : (sys.delivered σ).Sound σ.cleared := by
  have hgrows : σ.Grows σ.cleared := σ.cleared_grows
  -- what is in the log is in the store, and so is what it brings to the mailboxes
  have hitems : ∀ n, ∀ item ∈ σ.effects.toList.filterMap (Effect.itemFor? n), item.In σ := by
    intro n item hitem
    obtain ⟨e, he, hitem⟩ := List.mem_filterMap.mp hitem
    exact (h.store.effects e (Array.mem_toList_iff.mp he)).itemFor hitem
  have hactors : ∀ n b, (sys.delivered σ).actor? n = some b →
      (b.In σ ∧ b.Life) ∧ n < σ.receivers := by
    intro n b hb
    have hdelivery := h.delivery n
    rw [hb] at hdelivery
    generalize ha : sys.actor? n = before at hdelivery
    cases hdelivery with
    | @known a _ hgets hplain =>
      obtain ⟨hin, hlife⟩ := h.actors n a ha
      exact ⟨⟨hin.gets hgets (hitems n), hlife.gets hgets hplain⟩, h.numbered n a ha⟩
    | @born _ address config rest hgets hsub hrest =>
      have hsubset := hsub.subset
      have hin := (Actor.In.new σ address).gets hgets fun item hitem => hitems n item (hsubset hitem)
      refine ⟨⟨hin, .born hgets hrest⟩, ?_⟩
      -- what configures it came from its announcement
      obtain ⟨e, he, hitem⟩ := List.mem_filterMap.mp (hsubset List.mem_cons_self)
      by_cases hchild : e.child? = some n
      · exact (h.announced e he n hchild).1
      · cases Effect.isConfigure_itemFor hitem hchild
  refine ⟨?_, ?_, fun n b hb => ?_, fun n b hb => (hactors n b hb).2, ?_, ?_⟩
  · exact { h.store with effects := fun e he => absurd he (Array.not_mem_empty e) }
  · rw [(delivered_fixed sys σ).1]
    exact hgrows.env h.root
  · exact ⟨hgrows.actor (hactors n b hb).1.1, (hactors n b hb).1.2⟩
  · simp [Store.cleared]
  · simp [Store.cleared]

end ActorSystem.Sound

end Dataflow
