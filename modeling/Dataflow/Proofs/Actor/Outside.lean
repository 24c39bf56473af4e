/-
The outside: what those who use an actor system can do to it.

They run computations of their own, which may wait and be resumed like those of actors but are never activities of an
actor; they send envelopes, ask, give up waiting, and spawn and stop actors. Whatever it is, a sound system stays sound,
and for the actors it is a delivery: some get items, and some come into being.
-/
import Dataflow.Actor.Requests
import Dataflow.Proofs.Actor.Handling

set_option autoImplicit false

namespace Dataflow

/-! ## Work outside of the actors -/

/-- An activity of an actor is resumed. -/
def Resumer.isActivity : Resumer → Bool
  | .activity _ _ => true
  | .queue _ | .tag _ => false

namespace Store

/-- Work on the store that no activity does. -/
inductive Outside : Store → Store → Prop where
  | deed {σ τ : Store} (h : Deed σ τ) : Outside σ τ
  | waits {σ : Store} {x : Nat} {k : Continuation} (hx : σ.Unbound x) (hk : k.In σ)
      (hr : k.resumer.isActivity = false) : Outside σ (σ.park x k)
  | newQueue {σ : Store} : Outside σ σ.newQueue.2
  /-- Resumed computations are taken from the log. -/
  | takeWakes {σ : Store} (queue : Nat) : Outside σ (σ.takeWakes queue).2

/-- Any amount of such work. -/
abbrev OutsideMany : Store → Store → Prop := Relation.ReflTransGen Outside

variable {σ τ : Store}

/-- The other effects stay in the log. -/
theorem takeWakes_eq (σ : Store) (queue : Nat) :
    (σ.takeWakes queue).2 = { σ with effects := σ.effects.filter fun e => (e.wakes? queue).isNone } := by
  rw [takeWakes]
  split
  · next hempty =>
    have hnone : σ.effects.filter (fun e => (e.wakes? queue).isNone) = σ.effects := by
      rw [Array.isEmpty_iff.mp hempty, Array.filter_empty]
    rw [hnone]
  · rfl

/-- What only moves the counters of queues, or makes the log shorter, keeps a store closed. -/
theorem Closed.shorten (h : σ.Closed) (queues : Nat) {effects : Array Effect}
    (hlog : effects.toList.Sublist σ.effects.toList) : Closed { σ with queues, effects } := by
  refine { h with effects := fun e he => ?_ }
  exact h.effects e (Array.mem_toList_iff.mp (hlog.subset (Array.mem_toList_iff.mpr he)))

theorem Grows.shorten (σ : Store) (queues : Nat) (effects : Array Effect) : σ.Grows { σ with queues, effects } :=
  { Grows.refl σ with }

end Store

namespace ActorSystem.Sound

variable {sys : ActorSystem} {σ τ : Store} {n : Nat}

/-- Nor does it harm a system. -/
theorem shorten (h : sys.Sound σ) (queues : Nat) {effects : Array Effect}
    (hlog : effects.toList.Sublist σ.effects.toList) : sys.Sound { σ with queues, effects } where
  store := h.store.shorten queues hlog
  root := h.root
  actors n a ha := ⟨(Store.Grows.shorten σ queues effects).actor (h.actors n a ha).1, (h.actors n a ha).2⟩
  numbered := h.numbered
  announced e he := h.announced e (hlog.subset he)
  once := h.once.sublist (hlog.filterMap _)

/-- Whatever is done from outside to the store keeps the system sound. -/
theorem outside (h : sys.Sound σ) (hwork : σ.Outside τ) : sys.Sound τ := by
  cases hwork with
  | deed hdeed => exact h.deeds (.single hdeed)
  | waits hx hk _ => exact h.evolve (.single (.var (.park hx hk))) (.of_log_eq rfl (Nat.le_refl _))
  | newQueue => exact h.shorten (σ.queues + 1) (List.Sublist.refl _)
  | takeWakes queue =>
    rw [Store.takeWakes_eq]
    refine h.shorten σ.queues ?_
    rw [Array.toList_filter]
    exact List.filter_sublist

theorem outsideMany (h : sys.Sound σ) (hwork : σ.OutsideMany τ) : sys.Sound τ := by
  induction hwork with
  | refl => exact h
  | tail _ hstep ih => exact ih.outside hstep

/-- The next number is nobody's. -/
theorem unknown (h : sys.Sound σ) : sys.actor? σ.receivers = none := by
  cases ha : sys.actor? σ.receivers with
  | none => rfl
  | some a => exact absurd (h.numbered _ a ha) (Nat.lt_irrefl _)

/-- A new actor is registered under a number that nobody has. -/
theorem register (h : sys.Sound σ) (address : Address) {config : ConfigId} (hconfig : config < σ.configs.size) :
    (sys.register σ.receivers address config).Sound σ.newReceiver.2 ∧
      ∀ m, ∃ items, Actor.Delivery items (sys.actor? m) ((sys.register σ.receivers address config).actor? m) := by
  have hnew := h.unknown
  have hgets := Actor.Gets.receive sys.executor.running (.configure config) { address }
  have hself := actor?_register_self hnew address config
  have hnumbered := h.evolve (.single (.table .newReceiver)) (.of_log_eq rfl (Nat.le_succ _))
  have hactors : ∀ m a, (sys.register σ.receivers address config).actor? m = some a →
      (a.In σ.newReceiver.2 ∧ a.Life) ∧ m < σ.newReceiver.2.receivers := by
    intro m a ha
    by_cases hm : m = σ.receivers
    · subst hm
      rw [hself] at ha
      obtain rfl := Option.some.inj ha
      refine ⟨⟨(Actor.In.new _ address).gets hgets ?_, .born hgets fun _ h => absurd h List.not_mem_nil⟩, ?_⟩
      · exact fun item hitem => List.mem_singleton.mp hitem ▸ hconfig
      · exact Nat.lt_succ_self _
    · rw [actor?_register_of_ne hm] at ha
      exact ⟨hnumbered.actors m a ha, hnumbered.numbered m a ha⟩
  refine ⟨⟨hnumbered.store, ?_, fun m a ha => (hactors m a ha).1, fun m a ha => (hactors m a ha).2, ?_, h.once⟩, ?_⟩
  · rw [ActorSystem.register, (enqueue_fixed _ _ _).1]
    exact hnumbered.root
  · intro e he m hm
    have hold := h.announced e he m hm
    refine ⟨Nat.lt_succ_of_lt hold.1, ?_⟩
    rw [actor?_register_of_ne (Nat.ne_of_lt hold.1), hold.2]
  · intro m
    by_cases hm : m = σ.receivers
    · subst hm
      rw [hself, hnew]
      exact ⟨_, .born hgets (.refl _) fun _ h => absurd h List.not_mem_nil⟩
    · rw [actor?_register_of_ne hm]
      exact ⟨_, .refl _⟩

end ActorSystem.Sound

/-! ## Requests -/

/-- The state after a request, whether it was refused or not. -/
def Request.state {α : Type} (r : Request α) (s : ActorSystem × Store) : ActorSystem × Store :=
  match r s with
  | .ok _ s => s
  | .error _ s => s

theorem Request.state_bind {α β : Type} (step : SystemM α) (f : α → Request β) (s : ActorSystem × Store) :
    ((liftM step : Request α) >>= f).state s = (f (step s).1).state (step s).2 := rfl

namespace SystemM

/-- What a stop does: nothing if the address is not known, and otherwise the address is forgotten and the actor gets a stop.
-/
theorem stop_state (address : Address) (sys : ActorSystem) (σ : Store) :
    (stop address).state (sys, σ) =
      match sys.registry.lookup address with
      | none => (sys, σ)
      | some n =>
        ({ sys with registry := sys.registry.filter fun entry => entry.1 != address }.enqueue n .stop, σ) := by
  refine (Request.state_bind (read (·.registry.lookup address)) _ (sys, σ)).trans ?_
  rw [read_eq]
  dsimp only
  cases sys.registry.lookup address with
  | none => rfl
  | some n => rfl

/-- Spawns an actor at an address. -/
def spawnAt (config : ConfigId) (address : Address) : Request ActorRef := do
  match ← read (·.registry.lookup address) with
  | some _ => throw (.addressInUse address)
  | none =>
    let n ← onStore Store.newReceiver
    change fun sys => sys.register n address config
    return ⟨.actor n, address⟩

/-- What a spawn does: nothing if the address is taken, and otherwise there is a new actor under a new number. -/
theorem spawnAt_state (config : ConfigId) (address : Address) (sys : ActorSystem) (σ : Store) :
    (spawnAt config address).state (sys, σ) =
      match sys.registry.lookup address with
      | none => (sys.register σ.receivers address config, σ.newReceiver.2)
      | some _ => (sys, σ) := by
  refine (Request.state_bind (read (·.registry.lookup address)) _ (sys, σ)).trans ?_
  rw [read_eq]
  dsimp only
  cases sys.registry.lookup address with
  | none => rfl
  | some n => rfl

/-- Spawning gives the actor a name first and does no more to the store than deeds for that. -/
theorem spawn_state (address : Option Address) (config : ConfigId) (sys : ActorSystem) (σ : Store) :
    ∃ name τ, σ.Deeds τ ∧ (spawn address config).state (sys, σ) = (spawnAt config name).state (sys, τ) := by
  cases address with
  | none =>
    have hdeeds : σ.Deeds (σ.newAddress "actor").2 := .single (.table (.newAddress "actor") rfl rfl)
    exact ⟨(σ.newAddress "actor").1, _, hdeeds, rfl⟩
  | some name => exact ⟨name, σ, .refl, rfl⟩

end SystemM

/-! ## Everything that the outside does -/

namespace ActorSystem

/-- Somebody outside does something to a system. -/
inductive External : ActorSystem × Store → ActorSystem × Store → Prop where
  | work {sys : ActorSystem} {σ τ : Store} (h : σ.OutsideMany τ) : External (sys, σ) (sys, τ)
  | send {s : ActorSystem × Store} (recipient : ActorRef) {e : Envelope} (h : e.In s.2) :
      External s (SystemM.send recipient e s).2
  | ask {s : ActorSystem × Store} (recipient : ActorRef) {message : Value} (h : message.In s.2) :
      External s (SystemM.ask recipient message s).2
  | abandon {s : ActorSystem × Store} (client : Nat) : External s (SystemM.abandon client s).2
  | spawn {s : ActorSystem × Store} (address : Option Address) {config : ConfigId} (h : config < s.2.configs.size) :
      External s ((SystemM.spawn address config).state s)
  | stop {s : ActorSystem × Store} (address : Address) : External s ((SystemM.stop address).state s)

variable {s s' : ActorSystem × Store}

/-- **What the outside does** keeps a system sound, and brings items to actors or new actors into being. -/
theorem External.delivery (h : External s s') (hsound : s.1.Sound s.2) :
    s'.1.Sound s'.2 ∧ ∀ m, ∃ items, Actor.Delivery items (s.1.actor? m) (s'.1.actor? m) := by
  have hsame : ∀ m, ∃ items, Actor.Delivery items (s.1.actor? m) (s.1.actor? m) := fun m => ⟨[], .refl _⟩
  cases h with
  | work hwork => exact ⟨hsound.outsideMany hwork, hsame⟩
  | @send _ recipient e he =>
    have hin : Effect.In s.2 (.send recipient e) := he
    exact ⟨hsound.evolve (.single (.table (.emit hin))) (.emit s.2 rfl), hsame⟩
  | @ask _ recipient message hmessage =>
    obtain ⟨sys, σ⟩ := s
    -- a number, an address and a variable of its own for the client, and then the request
    have hnumber := hsound.evolve (.single (.table .newReceiver)) (.of_log_eq rfl (Nat.le_succ σ.receivers))
    have hnone : VarState.In (σ.newReceiver.2.newAddress "client").2 σ.vars.size (.unbound []) :=
      fun k hk => absurd hk List.not_mem_nil
    have hdeeds : σ.newReceiver.2.Deeds (σ.newReceiver.2.newAddress "client").2.freshVar.2 :=
      .tail (.single (.table (.newAddress "client") rfl rfl)) (.newVar rfl hnone)
    have hready := hnumber.deeds hdeeds
    have hgrows : σ.Grows (σ.newReceiver.2.newAddress "client").2.freshVar.2 :=
      (Store.TableStep.grows .newReceiver).trans hdeeds.grows
    have hin : Effect.In (σ.newReceiver.2.newAddress "client").2.freshVar.2
        (.send recipient (.request message ⟨.client σ.receivers, (σ.newReceiver.2.newAddress "client").1⟩
          (.var σ.vars.size))) := ⟨hgrows.value hmessage, Store.newVar_lt_size _ _⟩
    exact ⟨(hready.evolve (.single (.table (.emit hin))) (.emit _ rfl)).congr rfl rfl, hsame⟩
  | abandon client => exact ⟨hsound.congr rfl rfl, hsame⟩
  | @spawn _ address config hconfig =>
    obtain ⟨sys, σ⟩ := s
    obtain ⟨name, τ, hdeeds, hstate⟩ := SystemM.spawn_state address config sys σ
    rw [hstate, SystemM.spawnAt_state]
    cases sys.registry.lookup name with
    | none => exact (hsound.deeds hdeeds).register name (hdeeds.grows.value (v := .config config) hconfig)
    | some _ => exact ⟨hsound.deeds hdeeds, hsame⟩
  | @stop _ address =>
    obtain ⟨sys, σ⟩ := s
    rw [SystemM.stop_state]
    cases sys.registry.lookup address with
    | none => exact ⟨hsound, hsame⟩
    | some n =>
      dsimp only
      let forgotten : ActorSystem := { sys with registry := sys.registry.filter fun entry => entry.1 != address }
      have hforgotten : forgotten.Sound σ := hsound.congr rfl rfl
      exact ⟨hforgotten.enqueue n trivial rfl, fun m => forgotten.delivery_enqueue n rfl m⟩

end ActorSystem

end Dataflow
