/-
Separation: no two actors share anything that can change.

A realm is an actor system with somebody outside who holds terms. The outside makes what it likes out of what it holds
and of what is whole, runs computations over it, makes actor constructors and configurations, keeps them and uses them
again. What it can give to an actor is a complete value, and a configuration, from which an actor is spawned.

The state of the program of an actor consists of its handlers, of the computations of its activity wherever they are, and
of the values that it has been sent. In every realm that comes from a new system, if no actor is spawned from outside
unless its configuration passes the check that spawning from inside makes, what can be reached from the states of two
actors cannot change. The proof keeps an owner for everything that can change: each turn is handed to its actor, and
everybody owns after it what they owned before it.

Without that check it is different. Then the closure of an actor constructor may have captured a cell, and two actors
that are spawned with it have the cell in common.
-/
import Dataflow.Proofs.Actor.Handover
import Dataflow.Proofs.Actor.Chronicle

set_option autoImplicit false

namespace Dataflow

/-! ## Realms -/

/-- The scope of a frame. -/
def Frame.scope : Frame → Env
  | .run _ env | .trap _ _ env => env

/-- The variables in the scopes of a computation. -/
def Stack.terms (stack : Stack) : List Term := stack.flatMap fun f => f.scope.map fun b => .var b.2

/-- The variables of a computation that goes on later. -/
def Advice.terms : Advice → List Term
  | .preempted stack => stack.terms
  | .ended | .waiting _ | .halted _ => []

/-- What has been completed. -/
def Interrupt.completed : Except Interrupt Value → List Term
  | .ok v => [.val v]
  | .error _ => []

/-- The check that spawning from inside makes: everything that the handlers of the actor will have captured is complete. -/
def ActorConfig.Checked (σ : Store) (k : ConfigId) : Prop := ∃ v τ, Action.complete (.val (.config k)) σ = .ok v τ

/-- An actor system with its store, and the terms that somebody outside holds. -/
structure Realm where
  sys : ActorSystem
  store : Store
  held : List Term

namespace Realm

/-- The realm after a step of its system, from which the outside gets something. -/
def after {α : Type} (r : Realm) (step : SystemM α) (got : α → List Term) : Realm :=
  ⟨(step (r.sys, r.store)).2.1, (step (r.sys, r.store)).2.2, got (step (r.sys, r.store)).1 ++ r.held⟩

/-- The realm after a request to its system. If that is fulfilled, the outside gets something from it. -/
def asked {α : Type} (r : Realm) (request : Request α) (got : α → List Term) : Realm :=
  match request (r.sys, r.store) with
  | .ok a s => ⟨s.1, s.2, got a ++ r.held⟩
  | .error _ s => ⟨s.1, s.2, r.held⟩

/-- The outside comes to hold something. -/
def hold (r : Realm) (terms : List Term) : Realm := { r with held := terms ++ r.held }

/-- One thing happens. An actor is only spawned from outside if that is allowed. -/
inductive Step (allowed : Store → ConfigId → Prop) (r : Realm) : Realm → Prop
  /-- Anything whole may be held, -/
  | keep {t : Term} (hin : t.In r.store) (h : r.store.Whole t) : Step allowed r (r.hold [t])
  /-- and whatever may be reached from what is held. -/
  | look {t u : Term} (ht : t ∈ r.held) (h : r.store.Touches t u) : Step allowed r (r.hold [u])
  /-- The outside makes variables and records, -/
  | freshVar : Step allowed r (r.after SystemM.freshVar fun x => [.var x])
  | boundVar {v : Value} (hv : .val v ∈ r.held) :
      Step allowed r (r.after (SystemM.onStore fun σ => σ.newVar (.bound v)) fun x => [.var x])
  | record {label : Literal} {fields : List Field} (h : ∀ f ∈ fields, f.value ∈ r.held) :
      Step allowed r (r.after (SystemM.onStore fun σ => σ.newRecord ⟨label, fields⟩) fun n => [.val (.record n)])
  /-- makes terms equal, -/
  | unify {t u : Term} (ht : t ∈ r.held) (hu : u ∈ r.held) :
      Step allowed r (r.after (SystemM.attempt (Action.unify t u)) fun _ => [])
  /-- completes them, -/
  | complete {t : Term} (ht : t ∈ r.held) :
      Step allowed r (r.after (SystemM.attempt (Action.complete t)) Interrupt.completed)
  /-- lets computations run -/
  | compute {ctx : Context} (hctx : ctx.Of none) (slice executed : Nat) {stack : Stack}
      (hstack : ∀ t ∈ stack.terms, t ∈ r.held) :
      Step allowed r (r.after (SystemM.onStore fun σ =>
        ((ctx.compute slice stack executed σ).advice, (ctx.compute slice stack executed σ).store)) Advice.terms)
  /-- and wait, -/
  | suspend {x : VarId} (hx : x < r.store.vars.size) {k : Continuation} (hresumer : k.resumer.party = none)
      (hstack : ∀ t ∈ k.stack.terms, t ∈ r.held) :
      Step allowed r (r.after (SystemM.onStore fun σ => σ.suspend x k) fun _ => [])
  /-- and takes them up again when they have been resumed. -/
  | newQueue : Step allowed r (r.after (SystemM.onStore Store.newQueue) fun _ => [])
  | takeWakes (queue : Nat) :
      Step allowed r (r.after (SystemM.onStore fun σ => σ.takeWakes queue) fun woken => woken.flatMap Stack.terms)
  | resumed {resumer : Resumer} {stack : Stack} (h : .wake resumer stack ∈ r.sys.outside)
      (hresumer : resumer.party = none) : Step allowed r (r.hold stack.terms)
  | runToEnd (instr : Instr) {env : Env} (limit : Nat) (henv : ∀ b ∈ env, .var b.2 ∈ r.held) :
      Step allowed r (r.asked (Request.ofRun fun k => k.runToEnd instr env limit) fun _ => [])
  /-- It makes actor constructors, -/
  | construct (instr : Instr) (x : Ident) :
      Step allowed r (r.asked (SystemM.construct instr x) fun c => [.val (.proc (.actorMaker c))])
  /-- applies them to complete values, -/
  | configure {c : ClosureId} {args : List Value} (hc : .val (.proc (.actorMaker c)) ∈ r.held)
      (hargs : ∀ v ∈ args, v.Complete r.store) :
      Step allowed r (r.asked (SystemM.configure c args) fun k => [.val (.config k)])
  /-- and spawns actors from the configurations. -/
  | spawn (address : Option Address) {k : ConfigId} (hk : .val (.config k) ∈ r.held) (hallowed : allowed r.store k) :
      Step allowed r (r.asked (SystemM.spawn address k) fun _ => [])
  /-- It notifies actors, -/
  | tell (recipient : ActorRef) {v : Value} (hv : v.Complete r.store) :
      Step allowed r (r.after (SystemM.tell recipient v) fun _ => [])
  /-- asks them, -/
  | ask (recipient : ActorRef) {v : Value} (hv : v.Complete r.store) :
      Step allowed r (r.after (SystemM.ask recipient v) fun _ => [])
  | abandon (client : Nat) : Step allowed r (r.after (SystemM.abandon client) fun _ => [])
  /-- answers what they have asked, -/
  | answer {recipient requester : ActorRef} {v w : Value} {target : Term}
      (h : .send recipient (.request v requester target) ∈ r.sys.outside) (hw : w.Complete r.store) :
      Step allowed r (r.after (SystemM.send requester (.response w target)) fun _ => [])
  /-- and stops them. -/
  | stop (address : Address) : Step allowed r (r.asked (SystemM.stop address) fun _ => [])
  | shutdown : Step allowed r (r.after SystemM.shutdown fun _ => [])
  | deliver : Step allowed r (r.after SystemM.deliver fun _ => [])
  /-- An actor handles some items, -/
  | items (n room : Nat) : Step allowed r (r.after (SystemM.handleItems n room 0) fun _ => [])
  /-- has a turn, -/
  | turn (n : Nat) : Step allowed r (r.after (SystemM.turn n) fun _ => [])
  /-- or has its turn because it comes first. -/
  | runNext : Step allowed r (r.after SystemM.runNext fun _ => [])
  /-- Turns go round until there are no more, -/
  | settlePasses (passes : Nat) : Step allowed r (r.after (SystemM.settlePasses passes) fun _ => [])
  /-- or until a client has its answer. -/
  | runUntilAnswered (client turns : Nat) : Step allowed r (r.after (SystemM.runUntilAnswered client turns) fun _ => [])

/-- Any number of things happen. -/
abbrev Reaches (allowed : Store → ConfigId → Prop) : Realm → Realm → Prop := Relation.ReflTransGen (Step allowed)

/-! ## The states of programs -/

/-- The term belongs to the state of the program of an actor. -/
inductive Root (r : Realm) (n : Nat) : Term → Prop
  /-- It is a handler, -/
  | ask {a : Actor} {h : Handlers} {v : Value} (ha : r.sys.actor? n = some a) (hready : a.phase = .ready h)
      (hv : h.ask = some v) : Root r n (.val v)
  | tell {a : Actor} {h : Handlers} {v : Value} (ha : r.sys.actor? n = some a) (hready : a.phase = .ready h)
      (hv : h.tell = some v) : Root r n (.val v)
  /-- what the activity is to bind, -/
  | result {a : Actor} {act : Activity} {x : VarId} (ha : r.sys.actor? n = some a) (hact : a.activity = some act)
      (htask : act.task = .configure x) : Root r n (.var x)
  | response {a : Actor} {act : Activity} {requester : ActorRef} {target : Term} {x : VarId}
      (ha : r.sys.actor? n = some a) (hact : a.activity = some act) (htask : act.task = .answer requester target x) :
      Root r n (.var x)
  /-- in a scope of its computation when that waits, -/
  | waiting {x id : Nat} {ks : List Continuation} {stack : Stack} {t : Term}
      (hx : r.store.vars[x]? = some (.unbound ks)) (hk : ⟨stack, .activity n id⟩ ∈ ks) (ht : t ∈ stack.terms) :
      Root r n t
  /-- has been resumed, -/
  | woken {id : Nat} {stack : Stack} {t : Term} (h : .wake (.activity n id) stack ∈ r.store.effects)
      (ht : t ∈ stack.terms) : Root r n t
  /-- or is to go on, -/
  | resumed {a : Actor} {id : Nat} {stack : Stack} {t : Term} (ha : r.sys.actor? n = some a)
      (h : .resume id stack ∈ a.mailbox.items) (ht : t ∈ stack.terms) : Root r n t
  /-- what the actor is to be made from, -/
  | config {a : Actor} {k : ConfigId} (ha : r.sys.actor? n = some a) (h : .configure k ∈ a.mailbox.items) :
      Root r n (.val (.config k))
  /-- or the payload of an envelope in its mailbox, -/
  | mailed {a : Actor} {e : Envelope} (ha : r.sys.actor? n = some a) (h : .envelope e ∈ a.mailbox.items) :
      Root r n (.val e.payload)
  /-- of one that it has deferred, -/
  | deferred {a : Actor} {e : Envelope} (ha : r.sys.actor? n = some a) (h : e ∈ a.deferred) : Root r n (.val e.payload)
  /-- or of one that is on its way. -/
  | sent {address : Address} {e : Envelope} (h : .send ⟨.actor n, address⟩ e ∈ r.store.effects) :
      Root r n (.val e.payload)

/-- Nothing that can change is reached from the states of two actors. -/
def Separate (r : Realm) : Prop :=
  ∀ n m t u w, n ≠ m → r.Root n t → r.Root m u → r.store.Reach t w → r.store.Reach u w → ¬ r.store.Mutable w

/-! ## Divided realms -/

/-- The system is divided, and the outside owns what it holds. -/
structure Divided (own : Ownership) (r : Realm) : Prop where
  system : r.sys.Divided own none r.store
  held : ∀ t ∈ r.held, t.Owned own none r.store

end Realm

section Owned

variable {own : Ownership} {p : Party} {σ : Store}

/-- A stack belongs to somebody if the variables of all its scopes do. -/
theorem Stack.owned_iff {stack : Stack} : stack.Owned own p σ ↔ ∀ t ∈ stack.terms, t.Owned own p σ := by
  constructor
  · intro h t ht
    obtain ⟨f, hf, ht⟩ := List.mem_flatMap.mp ht
    obtain ⟨b, hb, rfl⟩ := List.mem_map.mp ht
    have howned := h f hf
    cases f with
    | run _ _ | trap _ _ _ => exact howned b hb
  · intro h f hf
    have hscope : ∀ b ∈ f.scope, Term.Owned own p σ (.var b.2) := fun b hb =>
      h _ (List.mem_flatMap.mpr ⟨f, hf, List.mem_map.mpr ⟨b, hb, rfl⟩⟩)
    cases f with
    | run _ _ | trap _ _ _ => exact hscope

theorem Envelope.Owned.payload {e : Envelope} (h : e.Owned own p σ) : e.payload.Owned own p σ := by
  cases e with
  | request _ _ _ | response _ _ => exact h.1.owned own p
  | notify _ => exact Value.Complete.owned h own p

end Owned

namespace Realm

variable {own : Ownership} {r r' : Realm} {n m : Nat} {t u w : Term}

/-- **An actor owns the state of its program.** -/
theorem Root.owned (h : r.Root n t) (hr : r.Divided own) : t.Owned own (some n) r.store := by
  have hstore := hr.system.store
  cases h with
  | ask ha hready hv =>
    have hphase := (hr.system.actor ha).phase
    rw [hready] at hphase
    exact hphase.ask _ hv
  | tell ha hready hv =>
    have hphase := (hr.system.actor ha).phase
    rw [hready] at hphase
    exact hphase.tell _ hv
  | result ha hact htask =>
    have howned := (hr.system.actor ha).task _ hact
    rw [htask] at howned
    exact howned
  | response ha hact htask =>
    have howned := (hr.system.actor ha).task _ hact
    rw [htask] at howned
    exact howned.2
  | waiting hx hk ht => exact Stack.owned_iff.mp (hstore.waiting _ _ hx _ hk) _ ht
  | woken h ht => exact Stack.owned_iff.mp (hstore.log _ h) _ ht
  | resumed ha h ht => exact Stack.owned_iff.mp ((hr.system.actor ha).mail _ h) _ ht
  | config ha h => exact Value.Complete.owned ((hr.system.actor ha).mail _ h) own (some n)
  | mailed ha h => exact Envelope.Owned.payload ((hr.system.actor ha).mail _ h)
  | deferred ha h => exact ((hr.system.actor ha).deferred _ h).payload
  | sent h => exact Envelope.Owned.payload (hstore.log _ h)

/-- Nobody shares what can change in a divided realm. -/
theorem Divided.separate (hr : r.Divided own) : r.Separate := by
  intro n m t u w hne ht hu htw huw hmutable
  have hn : own w = some n := (ht.owned hr).parts w htw hmutable
  have hm : own w = some m := (hu.owned hr).parts w huw hmutable
  exact hne (Option.some.inj (hn.symm.trans hm))

namespace Divided

variable {α : Type} {got : α → List Term}

theorem hold (hr : r.Divided own) {terms : List Term} (h : ∀ t ∈ terms, t.Owned own none r.store) :
    (r.hold terms).Divided own := ⟨hr.system, List.forall_mem_append.mpr ⟨h, hr.held⟩⟩

/-- What the outside does with its own. -/
theorem respecting (hr : r.Divided own) {step : SystemM α}
    (h : step.Respecting own none (r.sys, r.store) fun a s => ∀ t ∈ got a, t.Owned own none s.2) :
    (r.after step got).Divided own where
  system := h.divided
  held := List.forall_mem_append.mpr ⟨h.result, fun t ht => h.passes.respects _ _ (hr.held t ht)⟩

/-- A step from which the outside gets nothing. -/
theorem respecting_nothing (hr : r.Divided own) {step : SystemM α} {Q : α → ActorSystem × Store → Prop}
    (h : step.Respecting own none (r.sys, r.store) Q) : (r.after step fun _ => []).Divided own :=
  hr.respecting (h.imp fun _ _ _ _ ht => absurd ht List.not_mem_nil)

/-- What others do. -/
theorem preserving (hr : r.Divided own) {step : SystemM α} (h : step.Preserving) :
    ∃ own', (r.after step fun _ => []).Divided own' := by
  obtain ⟨own', hstep⟩ := h own (r.sys, r.store) hr.system
  exact ⟨own', hstep.divided, fun t ht => hstep.carries _ _ (hr.held t ht)⟩

/-- A run of the kernel. -/
theorem ofRun (hr : r.Divided own) {f : Kernel → Run α}
    (h : (f r.sys.kernel).Respects own none r.store fun a τ => ∀ t ∈ got a, t.Owned own none τ) :
    (r.asked (Request.ofRun f) got).Divided own := by
  have hmore : ∀ {τ : Store} {terms : List Term}, r.store.Passes own none τ → (∀ t ∈ terms, t.Owned own none τ) →
      Divided own ⟨r.sys, τ, terms ++ r.held⟩ := fun hτ hterms =>
    ⟨hr.system.passes hτ, List.forall_mem_append.mpr ⟨hterms, fun t ht => hτ.respects _ _ (hr.held t ht)⟩⟩
  rw [Run.Respects] at h
  cases hresult : f r.sys.kernel r.store with
  | ok a τ =>
    rw [hresult] at h
    rw [asked, Request.ofRun, hresult]
    exact hmore h.1 h.2
  | error e τ =>
    rw [hresult] at h
    rw [asked, Request.ofRun, hresult]
    have hnothing : ∀ t ∈ ([] : List Term), t.Owned own none τ := fun _ ht => absurd ht List.not_mem_nil
    exact hmore h hnothing

end Divided

end Realm

end Dataflow
