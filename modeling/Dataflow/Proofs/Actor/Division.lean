/-
Divided systems: actor systems in which every actor owns what it works with.

An actor owns its handlers, the results that its activity is to bind, and the computations in its mailbox; the payloads
of envelopes and the configurations that actors are made from are complete. What an answer is to be bound to belongs to
the requester, wherever the request is. Whatever an actor does in its turn keeps the system divided, and so does whatever
the outside does with what it owns: this is said of each step that a turn is made of (`Respecting`), and then of turns
and requests by putting steps together.
-/
import Dataflow.Proofs.Trespass

set_option autoImplicit false

namespace Dataflow

/-! ## What actors own -/

/-- The item is one that the mailbox of the party may have. -/
def Item.Owned (own : Ownership) (p : Party) (σ : Store) : Item → Prop
  | .envelope e => e.Owned own p σ
  | .configure config => Value.Complete σ (.config config)
  | .resume _ stack => Stack.Owned own p σ stack
  | .stop => True

/-- The party owns what the activity is to bind; what it is to answer belongs to the requester. -/
def Task.Owned (own : Ownership) (p : Party) (σ : Store) : Task → Prop
  | .configure result => Term.Owned own p σ (.var result)
  | .answer requester target response =>
    target.Owned own requester.receiver.party σ ∧ Term.Owned own p σ (.var response)
  | .notify => True

/-- The handlers are owned. -/
structure Handlers.Owned (own : Ownership) (p : Party) (σ : Store) (h : Handlers) : Prop where
  ask : ∀ v, h.ask = some v → v.Owned own p σ
  tell : ∀ v, h.tell = some v → v.Owned own p σ

/-- The handlers of an actor that is ready are owned. -/
def Phase.Owned (own : Ownership) (p : Party) (σ : Store) : Phase → Prop
  | .ready handlers => handlers.Owned own p σ
  | .failed f => f < σ.failures.size
  | .created | .stopped => True

/-- What the actor keeps is owned. -/
structure Actor.Owned (own : Ownership) (p : Party) (σ : Store) (a : Actor) : Prop where
  mail : ∀ item ∈ a.mailbox.items, item.Owned own p σ
  deferred : ∀ e ∈ a.deferred, e.Owned own p σ
  phase : a.phase.Owned own p σ
  task : ∀ act, a.activity = some act → act.task.Owned own p σ

/-- Every actor owns what it works with, and the scope of the built-in modules belongs to everybody. -/
structure ActorSystem.Divided (own : Ownership) (p : Party) (sys : ActorSystem) (σ : Store) : Prop where
  store : σ.Divided own p
  root : ∀ b ∈ sys.kernel.root, b.2 < σ.vars.size ∧ σ.Whole (.var b.2)
  actors : ∀ q ∈ sys.actors, q.2.Owned own (some q.1) σ
  clients : ∀ c ∈ sys.clients, ∀ v, c.2.answer = some v → v.Complete σ
  outside : ∀ e ∈ sys.outside, e.Owned own σ

namespace Store.Carries

variable {own own' : Ownership} {q : Party} {σ τ : Store}

/-- Whoever owned an item owns it afterwards, because what is parked for an activity is carried along with the store. -/
theorem item (h : σ.Carries own own' τ) (hσ : σ.Closed) (hkeeps : σ.Keeps τ) {item : Item}
    (hitem : item.Owned own q σ) : item.Owned own' q τ := by
  cases item with
  | envelope e => exact h.envelope hσ hkeeps hitem
  | configure config => exact Value.Complete.keeps hitem hσ hkeeps
  | resume _ _ => exact h.stack hitem
  | stop => trivial

theorem task (h : σ.Carries own own' τ) {task : Task} (htask : task.Owned own q σ) : task.Owned own' q τ := by
  cases task with
  | configure _ => exact h _ _ htask
  | answer _ _ _ => exact ⟨h _ _ htask.1, h _ _ htask.2⟩
  | notify => trivial

theorem phase (h : σ.Carries own own' τ) (hkeeps : σ.Keeps τ) {phase : Phase} (hphase : phase.Owned own q σ) :
    phase.Owned own' q τ := by
  cases phase with
  | ready handlers => exact ⟨fun v hv => h _ _ (hphase.ask v hv), fun v hv => h _ _ (hphase.tell v hv)⟩
  | failed f => exact hkeeps.grows.value (v := .failed f) hphase
  | created | stopped => trivial

theorem actor (h : σ.Carries own own' τ) (hσ : σ.Closed) (hkeeps : σ.Keeps τ) {a : Actor} (ha : a.Owned own q σ) :
    a.Owned own' q τ where
  mail item hitem := h.item hσ hkeeps (ha.mail item hitem)
  deferred e he := h.envelope hσ hkeeps (ha.deferred e he)
  phase := h.phase hkeeps ha.phase
  task act hact := h.task (ha.task act hact)

end Store.Carries

namespace Actor.Owned

variable {own : Ownership} {p : Party} {σ : Store} {a : Actor}

theorem idle (h : a.Owned own p σ) : Actor.Owned own p σ { a with activity := none } :=
  { h with task := fun _ hact => by cases hact }

theorem enter (h : a.Owned own p σ) (phase : Phase) (hphase : phase.Owned own p σ) :
    Actor.Owned own p σ { a with phase } := { h with phase := hphase }

theorem start (h : a.Owned own p σ) (act : Activity) (hact : act.task.Owned own p σ) (activities : Nat) :
    Actor.Owned own p σ { a with activity := some act, activities } :=
  { h with task := fun _ hsome => Option.some.inj hsome ▸ hact }

/-- An actor that halts keeps nothing that it has not owned before. -/
theorem halt (h : a.Owned own p σ) : a.halt.Owned own p σ := by
  rw [Actor.halt]
  split
  · exact h
  · exact ⟨fun _ hi => absurd hi List.not_mem_nil, fun _ he => absurd he List.not_mem_nil, trivial,
      fun _ hact => by cases hact⟩

end Actor.Owned

namespace ActorSystem.Divided

variable {own : Ownership} {p : Party} {sys : ActorSystem} {σ τ : Store} {n : Nat} {a : Actor}

/-- **Work on the store.** -/
theorem passes (h : sys.Divided own p σ) (hpasses : σ.Passes own p τ) : sys.Divided own p τ where
  store := hpasses.divided
  root b hb := ⟨Nat.lt_of_lt_of_le (h.root b hb).1 hpasses.keeps.grows.vars,
    (h.root b hb).2.keeps h.store.closed (h.root b hb).1 hpasses.keeps⟩
  actors q hq := hpasses.respects.actor h.store.closed hpasses.keeps (h.actors q hq)
  clients c hc v hv := (h.clients c hc v hv).keeps h.store.closed hpasses.keeps
  outside e he := hpasses.respects.effect h.store.closed hpasses.keeps (h.outside e he)

/-- The scope of the built-in modules is owned by whoever works in it. -/
theorem scope (h : sys.Divided own p σ) (q : Party) : sys.kernel.root.Owned own q σ := fun b hb =>
  .of_whole (h.root b hb).1 (h.root b hb).2

/-! ## Changes of the system -/

theorem actor (h : sys.Divided own p σ) (ha : sys.actor? n = some a) : a.Owned own (some n) σ := by
  rw [ActorSystem.actor?, List.lookup_eq_some_iff] at ha
  obtain ⟨before, after, hactors, -⟩ := ha
  refine h.actors (n, a) ?_
  rw [hactors]
  exact List.mem_append_right _ List.mem_cons_self

/-- A system stays divided if one actor is changed into one that owns what it works with. -/
theorem modifyActor (h : sys.Divided own p σ) (n : Nat) {f : Actor → Actor}
    (hf : ∀ a, a.Owned own (some n) σ → (f a).Owned own (some n) σ) : (sys.modifyActor n f).Divided own p σ := by
  refine { h with actors := fun q hq => ?_ }
  obtain ⟨⟨m, a⟩, ha, rfl⟩ := List.mem_map.mp hq
  dsimp only
  split
  · next hmn =>
    subst hmn
    exact hf a (h.actors _ ha)
  · exact h.actors _ ha

theorem schedule (h : sys.Divided own p σ) (n : Nat) : (sys.schedule n).Divided own p σ := by
  rw [ActorSystem.schedule]
  split
  · exact h
  · split
    · exact h
    · have hscheduled := h.modifyActor n (f := fun a => { a with scheduled := true }) fun a ha => { ha with }
      exact { hscheduled with }

/-- A system stays divided if an actor gets something that it owns. -/
theorem enqueue (h : sys.Divided own p σ) (n : Nat) {item : Item} (hitem : item.Owned own (some n) σ) :
    (sys.enqueue n item).Divided own p σ := by
  rw [ActorSystem.enqueue]
  split
  · exact h
  · next a ha =>
    split
    · exact h
    · next mailbox hpush =>
      -- the mailbox may be closed; if not, the item has been put at its end
      have hmail : ∀ i ∈ mailbox.items, i.Owned own (some n) σ := by
        intro i hi
        rw [Mailbox.push?] at hpush
        split at hpush
        · cases hpush
        · cases hpush
          rcases List.mem_append.mp hi with hold | hnew
          · exact (h.actor ha).mail i hold
          · exact List.mem_singleton.mp hnew ▸ hitem
      exact (h.modifyActor n (f := fun a => { a with mailbox }) fun b hb => { hb with mail := hmail }).schedule n

/-- A new actor may be given any complete configuration, because those belong to everybody. -/
theorem register (h : sys.Divided own p σ) (n : Nat) (address : Address) {config : ConfigId}
    (hconfig : Value.Complete σ (.config config)) : (sys.register n address config).Divided own p σ := by
  have hitem : Item.Owned own (some n) σ (.configure config) := hconfig
  refine enqueue ?_ n hitem
  refine { h with actors := fun q hq => ?_ }
  rcases List.mem_append.mp hq with hold | hnew
  · exact h.actors q hold
  · obtain rfl := List.mem_singleton.mp hnew
    exact ⟨fun _ hi => absurd hi List.not_mem_nil, fun _ he => absurd he List.not_mem_nil, trivial,
      fun _ hact => by cases hact⟩

/-- Answering a client gives nothing away, because the value is complete. -/
theorem answerClient (h : sys.Divided own p σ) (n : Nat) {v : Value} (hv : v.Complete σ) :
    (sys.answerClient n v).Divided own p σ := by
  refine { h with clients := fun q hq w hw => ?_ }
  obtain ⟨⟨m, c⟩, hc, rfl⟩ := List.mem_map.mp hq
  dsimp only at hw
  split at hw
  · exact Option.some.inj hw ▸ hv
  · exact h.clients _ hc w hw

/-- **Carrying out an effect**: it goes to the party that owns it. -/
theorem route (h : sys.Divided own p σ) {e : Effect} (he : e.Owned own σ) : (sys.route e).Divided own p σ := by
  unfold ActorSystem.route
  split
  · exact h.enqueue _ he
  · exact h.enqueue _ he
  · exact h.answerClient _ he.1
  · exact h
  · exact h.register _ _ he
  · refine { h with outside := fun f hf => ?_ }
    rcases Array.mem_push.mp hf with hold | rfl
    · exact h.outside f hold
    · exact he

/-- A system stays divided when effects are routed that carry nothing away from its owner. -/
theorem routeAll (h : sys.Divided own p σ) (effects : List Effect) (heffects : ∀ e ∈ effects, e.Owned own σ) :
    (effects.foldl ActorSystem.route sys).Divided own p σ := by
  induction effects generalizing sys with
  | nil => exact h
  | cons e effects ih =>
    obtain ⟨he, hrest⟩ := List.forall_mem_cons.mp heffects
    exact ih (h.route he) hrest

end ActorSystem.Divided

/-! ## Steps of a system -/

namespace SystemM

variable {α β : Type} {own : Ownership} {p : Party} {s : ActorSystem × Store} {n : Nat}

/-- The step passes to a divided store, leaves the system divided, and its result satisfies `Q`. -/
structure Respecting (own : Ownership) (p : Party) (step : SystemM α) (s : ActorSystem × Store)
    (Q : α → ActorSystem × Store → Prop) : Prop where
  passes : s.2.Passes own p (step s).2.2
  divided : (step s).2.1.Divided own p (step s).2.2
  result : Q (step s).1 (step s).2

/-- Steps that respect the division may be done one after the other. The second one may rely on what the first one has left.
-/
theorem Respecting.bind {step : SystemM α} {f : α → SystemM β} {Q : α → ActorSystem × Store → Prop}
    {R : β → ActorSystem × Store → Prop} (h : step.Respecting own p s Q)
    (hf : ∀ a s', s.2.Passes own p s'.2 → s'.1.Divided own p s'.2 → Q a s' → (f a).Respecting own p s' R) :
    (step >>= f).Respecting own p s R := by
  have hnext := hf (step s).1 (step s).2 h.passes h.divided h.result
  exact ⟨h.passes.trans hnext.passes, hnext.divided, hnext.result⟩

theorem Respecting.imp {step : SystemM α} {Q R : α → ActorSystem × Store → Prop} (h : step.Respecting own p s Q)
    (hQ : ∀ a s', Q a s' → R a s') : step.Respecting own p s R := ⟨h.passes, h.divided, hQ _ _ h.result⟩

theorem respecting_pure {Q : α → ActorSystem × Store → Prop} {a : α} (hs : s.1.Divided own p s.2) (h : Q a s) :
    (pure a : SystemM α).Respecting own p s Q := ⟨.refl hs.store, hs, h⟩

/-- What follows a look at the system. -/
theorem respecting_read {f : ActorSystem → α} {g : α → SystemM β} {R : β → ActorSystem × Store → Prop}
    (h : (g (f s.1)).Respecting own p s R) : (read f >>= g).Respecting own p s R := ⟨h.passes, h.divided, h.result⟩

theorem respecting_change {f : ActorSystem → ActorSystem} (hs : s.2.Divided own p) (h : (f s.1).Divided own p s.2) :
    (change f).Respecting own p s fun _ s' => s' = (f s.1, s.2) := ⟨.refl hs, h, rfl⟩

theorem respecting_changeActor (hs : s.1.Divided own p s.2) (n : Nat) {f : Actor → Actor}
    (hf : ∀ a, a.Owned own (some n) s.2 → (f a).Owned own (some n) s.2) :
    (changeActor n f).Respecting own p s fun _ s' => s'.2 = s.2 := ⟨.refl hs.store, hs.modifyActor n hf, rfl⟩

theorem respecting_onStore (hs : s.1.Divided own p s.2) {f : Store → α × Store} (h : s.2.Passes own p (f s.2).2) :
    (onStore f).Respecting own p s fun a s' => a = (f s.2).1 ∧ s' = (s.1, (f s.2).2) := ⟨h, hs.passes h, rfl, rfl⟩

/-- A step of the kernel, whether it succeeds or not. -/
theorem respecting_attempt (hs : s.1.Divided own p s.2) {act : Action α} {Q : α → Store → Prop}
    (h : act.Respects own p s.2 Q) :
    (attempt act).Respecting own p s fun r s' =>
      match r with
      | .ok a => Q a s'.2
      | .error e => e.In s'.2 := by
  obtain ⟨sys, σ⟩ := s
  rw [Action.Respects] at h
  have heq := attempt_eq act sys σ
  generalize act σ = result at h heq
  cases result with
  | ok a τ =>
    refine ⟨heq ▸ h.1, heq ▸ hs.passes h.1, ?_⟩
    rw [heq]
    exact h.2
  | error e τ =>
    refine ⟨heq ▸ h.1, heq ▸ hs.passes h.1, ?_⟩
    rw [heq]
    exact h.2

/-- Emptying the log. -/
theorem passes_cleared {σ : Store} (h : σ.Divided own p) : σ.Passes own p σ.cleared :=
  h.passes_shorten σ.queues (List.nil_sublist _)

/-- **Delivery** carries what is in the log to those who own it. -/
theorem respecting_deliver (hs : s.1.Divided own p s.2) :
    deliver.Respecting own p s fun _ s' => s'.2 = s.2.cleared := by
  have hpasses := passes_cleared hs.store
  have heffects : ∀ e ∈ s.2.effects.toList, e.Owned own s.2.cleared := fun e he =>
    hpasses.respects.effect hs.store.closed hpasses.keeps (hs.store.log e (Array.mem_toList_iff.mp he))
  exact ⟨hpasses, (hs.passes hpasses).routeAll _ heffects, rfl⟩

theorem respecting_send (hs : s.1.Divided own p s.2) (recipient : ActorRef) {e : Envelope}
    (he : e.Owned own recipient.receiver.party s.2) : (send recipient e).Respecting own p s fun _ _ => True := by
  have hpasses := hs.store.passes_send recipient he
  exact ⟨hpasses, hs.passes hpasses, trivial⟩

/-! ## Ending activities -/

/-- A failing activity leaves what belongs to whom: the actor may be left with the failure, and failures are complete. -/
theorem respecting_fail (hs : s.1.Divided own p s.2) (n : Nat) {f : FailureId} (hf : f < s.2.failures.size) :
    (fail n f).Respecting own p s fun _ _ => True := by
  refine respecting_read ?_
  cases ha : s.1.actor? n with
  | none => exact respecting_pure hs trivial
  | some a =>
    dsimp only [Option.bind_some]
    split
    · exact respecting_pure hs trivial
    · next act hact =>
      have htask := (hs.actor ha).task act hact
      refine (respecting_changeActor hs n fun a ha => ha.idle).bind fun _ s' _ hs' hstore => ?_
      rw [← hstore] at hf htask
      split
      · exact (respecting_changeActor hs' n fun a ha => ha.enter (.failed f) hf).imp fun _ _ _ => trivial
      -- the requester is told of the failure, which is complete
      · next htarget =>
        rw [htarget] at htask
        exact respecting_send hs' _ (e := .response (.failed f) _) ⟨hs'.store.intact.complete_failed hf, htask.1⟩
      · exact respecting_pure hs' trivial

theorem passes_failWith {σ : Store} (h : σ.Divided own p) (owner : Address) (f : Fault) :
    σ.Passes own p (σ.failWith owner f).2 := by
  obtain ⟨hpasses, hcomplete⟩ := h.passes_toValue f
  exact hpasses.trans (hpasses.divided.passes_newFailure hcomplete)

/-- Failing an actor respects the division. The fault holds nothing but values that are complete or the actor's own. -/
theorem respecting_failWith (hs : s.1.Divided own p s.2) (n : Nat) (address : Address) (f : Fault) :
    (failWith n address f).Respecting own p s fun _ _ => True := by
  obtain ⟨-, hf⟩ := s.2.failWith_deeds address f
  refine (respecting_onStore hs (passes_failWith hs.store address f)).bind fun g s' _ hs' h => ?_
  obtain ⟨rfl, rfl⟩ := h
  exact respecting_fail hs' n hf

/-- The handlers are owned; an answer is complete, and what it is for belongs to the requester. -/
def Settled.Owned (own : Ownership) (p : Party) (σ : Store) : Settled → Prop
  | .configured handlers => handlers.Owned own p σ
  | .answered requester target v => target.Owned own requester.receiver.party σ ∧ v.Complete σ
  | .notified => True

end SystemM

namespace Action

variable {own : Ownership} {p : Party} {σ : Store}

theorem settled_owned (hσ : σ.Divided own p) {t : Term} (ht : t.Owned own p σ) :
    (settled t).Reads σ (Value.Owned own p σ) := by
  refine (reads_read (hσ.seen ht)).bind fun u hu => ?_
  cases u with
  | val v => exact reads_pure hu.owned
  | var x => exact reads_block hu.resolved

end Action

namespace Handlers

variable {own : Ownership} {p : Party} {σ : Store}

/-- The handlers that are read from a term belong to whom the term belongs to. -/
theorem read_owned (hσ : σ.Divided own p) {t : Term} (ht : t.Owned own p σ) :
    (read t).Reads σ fun h => ∀ v, h = some v → v.Owned own p σ := by
  refine (Action.settled_owned hσ ht).bind fun v hv => ?_
  split
  · exact Action.reads_pure fun w hw => by cases hw
  · exact Action.reads_pure fun w hw => Option.some.inj hw ▸ hv
  · exact Action.reads_fault _

/-- Looking at the handlers that a configuration has made does not change the store, and the handlers belong to the actor as
the record does that they are in. -/
theorem ofVar_owned (hσ : σ.Divided own p) {x : VarId} (hx : Term.Owned own p σ (.var x)) :
    (ofVar x).Reads σ (Handlers.Owned own p σ) := by
  refine (Action.settled_owned hσ hx).bind fun v hv => ?_
  refine (Action.reads_ofExcept (Value.owned_asRecord hv)).bind fun r hr => ?_
  refine (Action.reads_read (hσ.record hr)).bind fun record hrecord => ?_
  -- a pair of handlers, or else the configuration has failed
  split
  · next ask tell _ hfields =>
    have hfields' : ∀ f ∈ [ask, tell], f.value.Owned own p σ := hfields ▸ hrecord
    obtain ⟨hask, htell⟩ := List.forall_mem_cons.mp hfields'
    refine (read_owned hσ hask).bind fun a ha => ?_
    refine (read_owned hσ (htell tell List.mem_cons_self)).bind fun b hb => ?_
    exact Action.reads_pure ⟨ha, hb⟩
  · exact (Action.reads_look _).bind fun _ _ => Action.reads_fault _

end Handlers

namespace SystemM

variable {α β : Type} {own : Ownership} {p : Party} {s : ActorSystem × Store} {n : Nat}

/-- What a task comes to belongs to the actor that had the task. -/
theorem outcome_respects {σ : Store} (hσ : σ.Divided own p) {task : Task} (htask : task.Owned own p σ) :
    (outcome task).Respects own p σ fun result τ => result.Owned own p τ := by
  cases task with
  | configure x =>
    exact (Handlers.ofVar_owned hσ htask).bind_respects hσ fun h hh => Action.respects_pure hσ hh
  | answer requester target response =>
    refine (Action.complete_respects hσ (t := .var response) htask.2.isIn).bind fun v τ hστ hv => ?_
    exact Action.respects_pure hστ.divided ⟨hστ.respects _ _ htask.1, hv⟩
  | notify => exact Action.respects_pure hσ trivial

/-- Settling an activity leaves what belongs to whom. What is sent as an answer is complete; otherwise the actor waits for a
variable of its own, or fails. -/
theorem respecting_settle (hs : s.1.Divided own (some n) s.2) (address : Address) {act : Activity}
    (htask : act.task.Owned own (some n) s.2) : (settle n address act).Respecting own (some n) s fun _ _ => True := by
  refine (respecting_attempt hs (outcome_respects hs.store htask)).bind fun r s' _ hs' hr => ?_
  -- the result is there, the result waits for a variable, or there can be none
  split
  · next result =>
    have hresult : result.Owned own (some n) s'.2 := hr
    refine (respecting_changeActor hs' n fun a ha => ha.idle).bind fun _ s'' _ hs'' hstore => ?_
    rw [← hstore] at hresult
    cases result with
    | configured handlers =>
      exact (respecting_changeActor hs'' n fun a ha => ha.enter (.ready handlers) hresult).imp
        fun _ _ _ => trivial
    | answered requester target v => exact respecting_send hs'' _ (e := .response v target) ⟨hresult.2, hresult.1⟩
    | notified => exact respecting_pure hs'' trivial
  · next x =>
    have hx : s'.2.Unbound x := hr
    have hk : Continuation.Owned own s'.2 ⟨[], .activity n act.id⟩ := fun f hf => absurd hf List.not_mem_nil
    have hpasses : s'.2.Passes own (some n) (s'.2.suspend x ⟨[], .activity n act.id⟩).2 := by
      rw [Store.suspend_of_var hx.resolveVar]
      exact hs'.store.passes_park hx hk
    exact (respecting_onStore hs' hpasses).bind fun _ s'' _ hs'' _ => respecting_pure hs'' trivial
  · exact respecting_failWith hs' n address _

/-! ## Working on activities -/

/-- **A slice of an activity** and what comes of it. -/
theorem respecting_advance (hs : s.1.Divided own (some n) s.2) (address : Address) {act : Activity} {stack : Stack}
    (htask : act.task.Owned own (some n) s.2) (hstack : stack.Owned own (some n) s.2) :
    (advance n address act stack).Respecting own (some n) s fun _ _ => True := by
  refine respecting_read ?_
  let ctx : Context :=
    { owner := address, actor := some ⟨.actor n, address⟩, spawner := .system, resumer := .activity n act.id }
  -- the actor computes for itself
  have hctx : ctx.Of (some n) := by
    refine ⟨rfl, fun a ha => ?_⟩
    cases ha
    rfl
  obtain ⟨hpasses, hadvice⟩ := Context.compute_passes hctx s.1.kernel.config.timeSlice 0 hs.store hstack
  refine (respecting_onStore (f := fun σ => ((ctx.compute s.1.kernel.config.timeSlice stack 0 σ).advice,
    (ctx.compute s.1.kernel.config.timeSlice stack 0 σ).store)) hs hpasses).bind fun advice s' hstep hs' h => ?_
  obtain ⟨rfl, rfl⟩ := h
  refine (respecting_deliver hs').bind fun _ s'' hdeliver hs'' _ => ?_
  dsimp only at hdeliver hs'' ⊢
  -- what became of the activity in the slice
  generalize (ctx.compute s.1.kernel.config.timeSlice stack 0 s.2).advice = advice at hadvice
  cases advice with
  | ended =>
    have htask' : act.task.Owned own (some n) s''.2 := (hstep.trans hdeliver).respects.task htask
    exact (respecting_settle hs'' address htask').bind fun _ s₃ _ hs₃ _ => respecting_pure hs₃ trivial
  | preempted rest =>
    have hrest : Item.Owned own (some n) s''.2 (.resume act.id rest) := hdeliver.respects.stack hadvice
    exact (respecting_change hs''.store (hs''.enqueue n hrest)).bind fun _ s₃ _ hs₃ _ => respecting_pure hs₃ trivial
  | waiting x => exact respecting_pure hs'' trivial
  | halted f =>
    have hf : f < s''.2.failures.size := hdeliver.keeps.grows.value (v := .failed f) hadvice
    exact (respecting_fail hs'' n hf).bind fun _ s₃ _ hs₃ _ => respecting_pure hs₃ trivial

/-- Beginning an activity leaves what belongs to whom if the actor owns the task and what the computation starts with. -/
theorem respecting_launch (hs : s.1.Divided own (some n) s.2) (a : Actor) {task : Task}
    (htask : task.Owned own (some n) s.2) (proc : Ident) (args : List Ident) {bindings : Env}
    (hbindings : bindings.Owned own (some n) s.2) :
    (launch n a task proc args bindings).Respecting own (some n) s fun _ _ => True := by
  refine (respecting_changeActor hs n fun b hb => hb.start ⟨a.activities + 1, task⟩ htask _).bind
    fun _ s' _ hs' hstore => ?_
  rw [← hstore] at htask hbindings
  refine respecting_read ?_
  refine respecting_advance hs' a.address htask fun f hf => ?_
  obtain rfl := List.mem_singleton.mp hf
  exact Env.Owned.extend (hs'.scope (some n)) hbindings

/-! ## Beginning activities -/

theorem respecting_freshVar (hs : s.1.Divided own p s.2) :
    freshVar.Respecting own p s fun x s' => Term.Owned own p s'.2 (.var x) := by
  have hfresh := Action.fresh_respects hs.store
  exact ⟨hfresh.1, hs.passes hfresh.1, hfresh.2⟩

/-- Variables that an actor makes for what it owns are its own. -/
theorem respecting_bindAll (hs : s.1.Divided own p s.2) {bindings : List (Ident × Value)}
    (h : ∀ b ∈ bindings, b.2.Owned own p s.2) :
    (bindAll bindings).Respecting own p s fun env s' => env.Owned own p s'.2 := by
  induction bindings generalizing s with
  | nil => exact respecting_pure hs fun b hb => absurd hb List.not_mem_nil
  | cons b rest ih =>
    obtain ⟨hb, hrest⟩ := List.forall_mem_cons.mp h
    have hbound := Action.boundVar_respects hs.store hb
    refine (respecting_onStore hs (f := fun σ => σ.newVar (.bound b.2)) hbound.1).bind fun x s' hpasses hs' hx => ?_
    -- what belonged to somebody before the first variable was made still does
    obtain ⟨rfl, rfl⟩ := hx
    have hrest' : ∀ c ∈ rest, c.2.Owned own p (s.2.newVar (.bound b.2)).2 := fun c hc =>
      hpasses.respects _ _ (hrest c hc)
    refine (ih hs' hrest').bind fun env s'' hpasses' hs'' henv => respecting_pure hs'' ?_
    exact List.forall_mem_cons.mpr ⟨hpasses'.respects _ _ hbound.2, henv⟩

/-- To be configured, an actor makes variables of its own for the arguments, the constructor and the result. It may use the
first two because the configuration is complete. -/
theorem respecting_startConfigure (hs : s.1.Divided own (some n) s.2) (a : Actor) {config : ConfigId}
    (hconfig : Value.Complete s.2 (.config config)) :
    (startConfigure n a config).Respecting own (some n) s fun _ _ => True := by
  have hclosed := hs.store.closed
  have howned : Value.Owned own (some n) s.2 (.config config) := hconfig.owned own (some n)
  rw [startConfigure]
  split
  · refine (respecting_onStore hs (.refl hs.store)).bind fun cfg s₀ _ _ h => ?_
    obtain ⟨rfl, rfl⟩ := h
    refine (respecting_freshVar hs).bind fun result s₁ h₁ hs₁ hresult => ?_
    have hzip : ∀ b ∈ (argIdents (s.2.config config).args.length).zip (s.2.config config).args,
        b.2.Owned own (some n) s₁.2 := fun b hb =>
      -- what can be reached from a complete value belongs to everybody
      h₁.respects _ _ (howned.touches hclosed (.refers (.argument (List.of_mem_zip hb).2)))
    refine (respecting_bindAll hs₁ hzip).bind fun args s₂ h₂ hs₂ hargs => ?_
    have hmaker : ∀ b ∈ [(("$handlers_ctor" : Ident), Value.proc (.closure (s.2.config config).handlers))],
        b.2.Owned own (some n) s₂.2 := List.forall_mem_singleton.mpr
      ((h₁.trans h₂).respects _ _ (howned.touches hclosed (.refers (.handlers config))))
    refine (respecting_bindAll hs₂ hmaker).bind fun maker s₃ h₃ hs₃ hmaker' => ?_
    have htask : Task.Owned own (some n) s₃.2 (.configure result) := (h₂.trans h₃).respects _ _ hresult
    have hbindings : Env.Owned own (some n) s₃.2 (args ++ maker ++ [("$r", result)]) :=
      List.forall_mem_append.mpr ⟨List.forall_mem_append.mpr ⟨h₃.respects.env hargs, hmaker'⟩,
        List.forall_mem_singleton.mpr htask⟩
    exact respecting_launch hs₃ a htask _ _ hbindings
  · exact respecting_pure hs trivial

/-- To answer a question, an actor makes a variable for the answer. The target stays with the one who has asked, whoever that
is. -/
theorem respecting_startRequest (hs : s.1.Divided own (some n) s.2) {a : Actor} (ha : a.Owned own (some n) s.2)
    {message : Value} {requester : ActorRef} {target : Term} (hmessage : message.Complete s.2)
    (htarget : target.Owned own requester.receiver.party s.2) :
    (startRequest n a message requester target).Respecting own (some n) s fun _ _ => True := by
  have hphase := ha.phase
  rw [startRequest]
  -- the actor answers in its state: with its handler, without one, or with its failure
  split
  · next ask tell hready =>
    rw [hready] at hphase
    refine (respecting_freshVar hs).bind fun response s₁ h₁ hs₁ hresponse => ?_
    have hargs : ∀ b ∈ [(("$ask" : Ident), ask), ("$m", message)], b.2.Owned own (some n) s₁.2 :=
      List.forall_mem_cons.mpr ⟨h₁.respects _ _ (hphase.ask ask rfl),
        List.forall_mem_singleton.mpr (h₁.respects _ _ (hmessage.owned own (some n)))⟩
    refine (respecting_bindAll hs₁ hargs).bind fun bindings s₂ h₂ hs₂ hbindings => ?_
    -- the response belongs to the actor as its handlers do
    have hresponse' := h₂.respects _ _ hresponse
    have htask : Task.Owned own (some n) s₂.2 (.answer requester target response) :=
      ⟨(h₁.trans h₂).respects _ _ htarget, hresponse'⟩
    exact respecting_launch hs₂ a htask _ _
      (List.forall_mem_append.mpr ⟨hbindings, List.forall_mem_singleton.mpr hresponse'⟩)
  · obtain ⟨-, hf⟩ := s.2.failWith_deeds a.address (.notAProc (a.address ++ " has no ask handler"))
    refine (respecting_onStore hs (passes_failWith hs.store _ _)).bind fun f s' hpasses hs' h => ?_
    obtain ⟨rfl, rfl⟩ := h
    refine (respecting_send hs' requester (e := .response (.failed _) target)
      ⟨hs'.store.intact.complete_failed hf, hpasses.respects _ _ htarget⟩).bind fun _ s'' _ hs'' _ => ?_
    exact respecting_pure hs'' trivial
  · next f hfailed =>
    rw [hfailed] at hphase
    refine (respecting_send hs requester (e := .response (.failed f) target)
      ⟨hs.store.intact.complete_failed hphase, htarget⟩).bind fun _ s' _ hs' _ => ?_
    exact respecting_pure hs' trivial
  · exact respecting_pure hs trivial
  · exact respecting_pure hs trivial

/-- A notification is handled with what the actor owns: its handler and a complete message. -/
theorem respecting_startNotify (hs : s.1.Divided own (some n) s.2) {a : Actor} (ha : a.Owned own (some n) s.2)
    {message : Value} (hmessage : message.Complete s.2) :
    (startNotify n a message).Respecting own (some n) s fun _ _ => True := by
  have hphase := ha.phase
  rw [startNotify]
  split
  · next ask tell hready =>
    rw [hready] at hphase
    have hargs : ∀ b ∈ [(("$tell" : Ident), tell), ("$m", message)], b.2.Owned own (some n) s.2 :=
      List.forall_mem_cons.mpr ⟨hphase.tell tell rfl, List.forall_mem_singleton.mpr (hmessage.owned own (some n))⟩
    have htask : ∀ σ : Store, Task.Owned own (some n) σ .notify := fun _ => trivial
    exact (respecting_bindAll hs hargs).bind fun bindings s' _ hs' hbindings =>
      respecting_launch hs' a (htask s'.2) _ _ hbindings
  · exact respecting_pure hs trivial

/-! ## Items -/

/-- **Handling an item.** -/
theorem respecting_handle (hs : s.1.Divided own (some n) s.2) {a : Actor} (ha : a.Owned own (some n) s.2) {item : Item}
    (hitem : item.Owned own (some n) s.2) : (handle n a item).Respecting own (some n) s fun _ _ => True := by
  -- a request or a notification is deferred unless the actor can take it up now
  have hdefers : ∀ e : Envelope, e.Owned own (some n) s.2 →
      (changeActor n (fun a => { a with deferred := a.deferred ++ [e] }) >>= fun _ => pure false).Respecting own (some n)
        s fun _ _ => True := by
    intro e he
    have hdeferred : ∀ a : Actor, a.Owned own (some n) s.2 →
        Actor.Owned own (some n) s.2 { a with deferred := a.deferred ++ [e] } :=
      fun a ha => { ha with deferred := List.forall_mem_append.mpr ⟨ha.deferred, List.forall_mem_singleton.mpr he⟩ }
    exact (respecting_changeActor hs n hdeferred).bind fun _ s' _ hs' _ => respecting_pure hs' trivial
  cases item with
  | envelope e =>
    have he : e.Owned own (some n) s.2 := hitem
    cases e with
    | response v target =>
      have hunify := Action.unify_respects hs.store he.2 (he.1.owned own (some n))
      exact (respecting_attempt hs hunify).bind fun _ s' _ hs' _ => respecting_pure hs' trivial
    | request message requester target =>
      simp only [handle]
      split
      · exact hdefers _ he
      · exact respecting_startRequest hs ha he.1 he.2
    | notify message =>
      simp only [handle]
      split
      · exact hdefers _ he
      · exact respecting_startNotify hs ha he
  | configure config => exact respecting_startConfigure hs a hitem
  | resume id stack =>
    rw [handle]
    split
    · next act hact =>
      split
      · exact respecting_advance hs a.address (ha.task act hact) hitem
      · exact respecting_pure hs trivial
    · exact respecting_pure hs trivial
  | stop =>
    exact (respecting_changeActor hs n fun a ha => ha.halt).bind fun _ s' _ hs' _ => respecting_pure hs' trivial

/-! ## Turns -/

/-- The item that an actor takes is one of those that it kept. -/
theorem respecting_nextItem (hs : s.1.Divided own (some n) s.2) :
    (nextItem n).Respecting own (some n) s fun item s' => ∀ i, item = some i → i.Owned own (some n) s'.2 := by
  have hnone : (pure none : SystemM (Option Item)).Respecting own (some n) s
      fun item s' => ∀ i, item = some i → i.Owned own (some n) s'.2 := respecting_pure hs fun i hi => by cases hi
  refine respecting_read ?_
  cases ha : s.1.actor? n with
  | none => exact hnone
  | some a =>
    have hactor := hs.actor ha
    dsimp only
    -- a deferred envelope comes before the mailbox
    split
    · next e rest _ hdeferred =>
      obtain ⟨he, hrest⟩ := List.forall_mem_cons.mp (hdeferred ▸ hactor.deferred)
      have hkeep : ∀ a : Actor, a.Owned own (some n) s.2 → Actor.Owned own (some n) s.2 { a with deferred := rest } :=
        fun a ha => { ha with deferred := hrest }
      refine (respecting_changeActor hs n hkeep).bind fun _ s' _ hs' hstore => respecting_pure hs' fun i hi => ?_
      cases hi
      rw [hstore]
      exact he
    · cases hpop : a.mailbox.pop? with
      | none => exact hnone
      | some popped =>
        obtain ⟨item, mailbox⟩ := popped
        dsimp only
        obtain ⟨hitem, hrest⟩ := List.forall_mem_cons.mp (Mailbox.items_of_pop hpop ▸ hactor.mail)
        have hkeep : ∀ a : Actor, a.Owned own (some n) s.2 → Actor.Owned own (some n) s.2 { a with mailbox } :=
          fun a ha => { ha with mail := hrest }
        refine (respecting_changeActor hs n hkeep).bind fun _ s' _ hs' hstore => respecting_pure hs' fun i hi => ?_
        cases hi
        rw [hstore]
        exact hitem

/-- However many items an actor handles in a turn, everything still belongs to the same parties. -/
theorem respecting_handleItems (hs : s.1.Divided own (some n) s.2) (room handled : Nat) :
    (handleItems n room handled).Respecting own (some n) s fun _ _ => True := by
  induction room generalizing s handled with
  | zero => exact respecting_pure hs trivial
  | succ room ih =>
    refine (respecting_nextItem hs).bind fun item s₁ _ hs₁ hitem => ?_
    cases item with
    | none => exact respecting_pure hs₁ trivial
    | some item =>
      refine respecting_read ?_
      cases ha : s₁.1.actor? n with
      | none => exact respecting_pure hs₁ trivial
      | some a =>
        refine (respecting_handle hs₁ (hs₁.actor ha) (hitem item rfl)).bind fun preempted s₂ _ hs₂ _ => ?_
        refine (respecting_deliver hs₂).bind fun _ s₃ _ hs₃ _ => ?_
        split
        · exact respecting_pure hs₃ trivial
        · exact ih hs₃ (handled + 1)

/-- **A turn** of an actor. -/
theorem respecting_turn (hs : s.1.Divided own (some n) s.2) : (turn n).Respecting own (some n) s fun _ _ => True := by
  refine (respecting_handleItems hs itemsPerTurn 0).bind fun result s₁ _ hs₁ _ => ?_
  have hrecord : ActorSystem.Divided own (some n)
      { s₁.1 with executor := s₁.1.executor.record result.1 result.2 } s₁.2 := { hs₁ with }
  refine (respecting_change hs₁.store hrecord).bind fun _ s₂ _ hs₂ _ => ?_
  refine (respecting_changeActor hs₂ n (f := fun a => { a with scheduled := false }) fun a ha => { ha with }).bind
    fun _ s₃ _ hs₃ _ => respecting_read ?_
  split
  · split
    · exact (respecting_change hs₃.store (hs₃.schedule n)).imp fun _ _ _ => trivial
    · exact respecting_pure hs₃ trivial
  · exact respecting_pure hs₃ trivial

end SystemM

end Dataflow
