/-
Intact systems: actor systems all of whose complete values are whole.

The complete values of a system are the payloads of envelopes, in the mailboxes of actors, among what they have
deferred, and among what has left the system, and the answers that clients have got. Everything that a system does keeps
them whole, and keeps what there was: this is said of each step that a turn is made of (`Holding`), and then of turns,
passes and all the rest by putting steps together.
-/
import Dataflow.Proofs.Actor.Making
import Dataflow.Proofs.Intact

set_option autoImplicit false

namespace Dataflow

/-! ## Complete values -/

/-- The value is in the store, and whole. -/
structure Value.Complete (σ : Store) (v : Value) : Prop where
  isIn : v.In σ
  whole : σ.Whole (.val v)

theorem Value.Complete.keeps {σ τ : Store} {v : Value} (h : v.Complete σ) (hσ : σ.Closed) (hkeeps : σ.Keeps τ) :
    v.Complete τ := ⟨hkeeps.grows.value h.isIn, h.whole.keeps hσ h.isIn hkeeps⟩

theorem Store.Intact.complete_failed {σ : Store} (h : σ.Intact) {f : FailureId} (hf : f < σ.failures.size) :
    Value.Complete σ (.failed f) := ⟨hf, Store.whole_failed (h.failure f)⟩

/-- The envelope is in the store, and what it carries is complete. -/
structure Envelope.Intact (σ : Store) (e : Envelope) : Prop where
  isIn : e.In σ
  payload : σ.Whole (.val e.payload)

theorem Envelope.Intact.keeps {σ τ : Store} {e : Envelope} (h : e.Intact σ) (hσ : σ.Closed) (hkeeps : σ.Keeps τ) :
    e.Intact τ := ⟨hkeeps.grows.envelope h.isIn, h.payload.keeps hσ (e.payload_in h.isIn) hkeeps⟩

/-- The item is in the store, and what it carries is complete. -/
def Item.Intact (σ : Store) : Item → Prop
  | .envelope e => e.Intact σ
  | .configure config => config < σ.configs.size
  | .resume _ stack => Stack.In σ stack
  | .stop => True

/-- The effect is in the store, and what it carries is complete. -/
def Effect.Intact (σ : Store) : Effect → Prop
  | .wake _ stack => Stack.In σ stack
  | .send _ e => e.Intact σ
  | .spawn _ _ config => config < σ.configs.size

/-- What the actor keeps is in the store, and what the envelopes carry that it keeps is complete. -/
structure Actor.Intact (σ : Store) (a : Actor) : Prop where
  mail : ∀ item ∈ a.mailbox.items, item.Intact σ
  deferred : ∀ e ∈ a.deferred, e.Intact σ
  phase : a.phase.In σ
  task : ∀ act, a.activity = some act → act.task.In σ

/-- Everything in the system is in the store, and its complete values are whole. -/
structure ActorSystem.Intact (sys : ActorSystem) (σ : Store) : Prop where
  closed : σ.Closed
  store : σ.Intact
  root : sys.kernel.root.In σ
  actors : ∀ p ∈ sys.actors, p.2.Intact σ
  clients : ∀ p ∈ sys.clients, ∀ v, p.2.answer = some v → v.Complete σ
  outside : ∀ e ∈ sys.outside, e.Intact σ

section Keeps

variable {σ τ : Store}

theorem Item.Intact.keeps {item : Item} (h : item.Intact σ) (hσ : σ.Closed) (hkeeps : σ.Keeps τ) : item.Intact τ := by
  cases item with
  | envelope e => exact Envelope.Intact.keeps h hσ hkeeps
  | configure config => exact hkeeps.grows.value (v := .config config) h
  | resume _ _ => exact hkeeps.grows.stack h
  | stop => trivial

theorem Effect.Intact.keeps {e : Effect} (h : e.Intact σ) (hσ : σ.Closed) (hkeeps : σ.Keeps τ) : e.Intact τ := by
  cases e with
  | send _ e => exact Envelope.Intact.keeps h hσ hkeeps
  | wake _ _ => exact hkeeps.grows.stack h
  | spawn _ _ config => exact hkeeps.grows.value (v := .config config) h

theorem Actor.Intact.keeps {a : Actor} (h : a.Intact σ) (hσ : σ.Closed) (hkeeps : σ.Keeps τ) : a.Intact τ where
  mail item hitem := (h.mail item hitem).keeps hσ hkeeps
  deferred e he := (h.deferred e he).keeps hσ hkeeps
  phase := hkeeps.grows.phase h.phase
  task act hact := hkeeps.grows.task (h.task act hact)

/-- Nothing in a closed and intact store is carried that is not complete. -/
theorem Store.Intact.effect (h : σ.Intact) (hσ : σ.Closed) {e : Effect} (he : e ∈ σ.effects) : e.Intact σ := by
  cases e with
  | send recipient e => exact ⟨hσ.effects _ he, h.payloads recipient e he⟩
  | wake _ _ => exact hσ.effects _ he
  | spawn _ _ _ => exact hσ.effects _ he

end Keeps

namespace Actor.Intact

variable {σ : Store} {a : Actor}

theorem idle (h : a.Intact σ) : Actor.Intact σ { a with activity := none } :=
  { h with task := fun _ hact => by cases hact }

theorem enter (h : a.Intact σ) {p : Phase} (hp : p.In σ) : Actor.Intact σ { a with phase := p } :=
  { h with phase := hp }

theorem start (h : a.Intact σ) {act : Activity} (hact : act.task.In σ) (activities : Nat) :
    Actor.Intact σ { a with activity := some act, activities } :=
  { h with task := fun _ hsome => Option.some.inj hsome ▸ hact }

theorem halt (h : a.Intact σ) : a.halt.Intact σ := by
  rw [Actor.halt]
  split
  · exact h
  · exact ⟨fun _ hi => absurd hi List.not_mem_nil, fun _ he => absurd he List.not_mem_nil, trivial,
      fun _ hact => by cases hact⟩

end Actor.Intact

namespace ActorSystem.Intact

variable {sys : ActorSystem} {σ τ : Store} {n : Nat} {a : Actor}

/-- **Work on the store** that keeps what there was. -/
theorem keeps (h : sys.Intact σ) (hkeeps : σ.Keeps τ) (hτ : τ.Closed) (hintact : τ.Intact) : sys.Intact τ where
  closed := hτ
  store := hintact
  root := hkeeps.grows.env h.root
  actors p hp := (h.actors p hp).keeps h.closed hkeeps
  clients p hp v hv := (h.clients p hp v hv).keeps h.closed hkeeps
  outside e he := (h.outside e he).keeps h.closed hkeeps

/-! ## Changes of the system -/

/-- Every actor of an intact system is intact. -/
theorem actor (h : sys.Intact σ) (ha : sys.actor? n = some a) : a.Intact σ := by
  rw [ActorSystem.actor?, List.lookup_eq_some_iff] at ha
  obtain ⟨before, after, hactors, -⟩ := ha
  refine h.actors (n, a) ?_
  rw [hactors]
  exact List.mem_append_right _ List.mem_cons_self

/-- It is enough to know of each actor that it stays intact. -/
theorem modifyActor (h : sys.Intact σ) (n : Nat) {f : Actor → Actor} (hf : ∀ a, a.Intact σ → (f a).Intact σ) :
    (sys.modifyActor n f).Intact σ := by
  refine { h with actors := fun p hp => ?_ }
  obtain ⟨⟨m, a⟩, ha, rfl⟩ := List.mem_map.mp hp
  dsimp only
  split
  · exact hf a (h.actors _ ha)
  · exact h.actors _ ha

theorem schedule (h : sys.Intact σ) (n : Nat) : (sys.schedule n).Intact σ := by
  rw [ActorSystem.schedule]
  split
  · exact h
  · split
    · exact h
    · have hscheduled := h.modifyActor n (f := fun a => { a with scheduled := true }) fun a ha => { ha with }
      exact { hscheduled with }

/-- A system stays intact if an actor gets an intact item. -/
theorem enqueue (h : sys.Intact σ) (n : Nat) {item : Item} (hitem : item.Intact σ) : (sys.enqueue n item).Intact σ := by
  rw [ActorSystem.enqueue]
  split
  · exact h
  · next a ha =>
    split
    · exact h
    · next mailbox hpush =>
      have hmail : ∀ i ∈ mailbox.items, i.Intact σ := by
        intro i hi
        rw [Mailbox.push?] at hpush
        split at hpush
        · cases hpush
        · cases hpush
          rcases List.mem_append.mp hi with hold | hnew
          · exact (h.actor ha).mail i hold
          · exact List.mem_singleton.mp hnew ▸ hitem
      exact (h.modifyActor n (f := fun a => { a with mailbox }) fun b hb => { hb with mail := hmail }).schedule n

/-- An actor that has just been registered holds nothing yet but the configuration that it is to run. -/
theorem register (h : sys.Intact σ) (n : Nat) (address : Address) {config : ConfigId}
    (hconfig : config < σ.configs.size) : (sys.register n address config).Intact σ := by
  have hitem : Item.Intact σ (.configure config) := hconfig
  refine enqueue ?_ n hitem
  refine { h with actors := fun p hp => ?_ }
  rcases List.mem_append.mp hp with hold | hnew
  · exact h.actors p hold
  · obtain rfl := List.mem_singleton.mp hnew
    exact ⟨fun _ hi => absurd hi List.not_mem_nil, fun _ he => absurd he List.not_mem_nil, trivial, nofun⟩

theorem answerClient (h : sys.Intact σ) (n : Nat) {v : Value} (hv : v.Complete σ) :
    (sys.answerClient n v).Intact σ := by
  refine { h with clients := fun p hp w hw => ?_ }
  obtain ⟨⟨m, c⟩, hc, rfl⟩ := List.mem_map.mp hp
  dsimp only at hw
  split at hw
  · exact Option.some.inj hw ▸ hv
  · exact h.clients _ hc w hw

/-- **Carrying out an effect.** -/
theorem route (h : sys.Intact σ) {e : Effect} (he : e.Intact σ) : (sys.route e).Intact σ := by
  unfold ActorSystem.route
  split
  · exact h.enqueue _ he
  · exact h.enqueue _ he
  · exact h.answerClient _ ⟨he.isIn.1, he.payload⟩
  · exact h
  · exact h.register _ _ he
  · refine { h with outside := fun f hf => ?_ }
    rcases Array.mem_push.mp hf with hold | rfl
    · exact h.outside f hold
    · exact he

/-- Routing intact effects leaves the system intact. -/
theorem routeAll (h : sys.Intact σ) (effects : List Effect) (heffects : ∀ e ∈ effects, e.Intact σ) :
    (effects.foldl ActorSystem.route sys).Intact σ := by
  induction effects generalizing sys with
  | nil => exact h
  | cons e effects ih =>
    obtain ⟨he, hrest⟩ := List.forall_mem_cons.mp heffects
    exact ih (h.route he) hrest

end ActorSystem.Intact

/-- The item that a mailbox gives was its first. -/
theorem Mailbox.items_of_pop {m m' : Mailbox} {item : Item} (h : m.pop? = some (item, m')) :
    m.items = item :: m'.items := by
  rw [Mailbox.pop?] at h
  split at h
  · cases h
  · next hitems =>
    split at h
    · cases h
    · cases h
      exact hitems

/-! ## Steps of a system -/

namespace SystemM

variable {α β : Type} {s : ActorSystem × Store} {sys : ActorSystem} {σ τ : Store}

/-- The step keeps what there was and leaves the system intact, and its result satisfies `Q`. -/
structure Holding (step : SystemM α) (s : ActorSystem × Store) (Q : α → ActorSystem × Store → Prop) : Prop where
  keeps : s.2.Keeps (step s).2.2
  intact : (step s).2.1.Intact (step s).2.2
  result : Q (step s).1 (step s).2

/-- Steps that keep the system intact may be done one after the other. The second one may rely on what the first one has left.
-/
theorem Holding.bind {step : SystemM α} {f : α → SystemM β} {Q : α → ActorSystem × Store → Prop}
    {R : β → ActorSystem × Store → Prop} (h : step.Holding s Q)
    (hf : ∀ a s', s.2.Keeps s'.2 → s'.1.Intact s'.2 → Q a s' → (f a).Holding s' R) : (step >>= f).Holding s R := by
  have hnext := hf (step s).1 (step s).2 h.keeps h.intact h.result
  exact ⟨h.keeps.trans hnext.keeps, hnext.intact, hnext.result⟩

theorem Holding.imp {step : SystemM α} {Q R : α → ActorSystem × Store → Prop} (h : step.Holding s Q)
    (hQ : ∀ a s', s.2.Keeps s'.2 → Q a s' → R a s') : step.Holding s R :=
  ⟨h.keeps, h.intact, hQ _ _ h.keeps h.result⟩

theorem holding_pure {Q : α → ActorSystem × Store → Prop} {a : α} (hs : s.1.Intact s.2) (h : Q a s) :
    (pure a : SystemM α).Holding s Q := ⟨.refl s.2, hs, h⟩

/-- What follows a look at the system. -/
theorem holding_read {f : ActorSystem → α} {g : α → SystemM β} {R : β → ActorSystem × Store → Prop}
    (h : (g (f s.1)).Holding s R) : (read f >>= g).Holding s R := ⟨h.keeps, h.intact, h.result⟩

theorem holding_change {f : ActorSystem → ActorSystem} (h : (f s.1).Intact s.2) :
    (change f).Holding s fun _ s' => s' = (f s.1, s.2) := ⟨.refl s.2, h, rfl⟩

theorem holding_changeActor (hs : s.1.Intact s.2) (n : Nat) {f : Actor → Actor}
    (hf : ∀ a, a.Intact s.2 → (f a).Intact s.2) : (changeActor n f).Holding s fun _ s' => s'.2 = s.2 :=
  ⟨.refl s.2, hs.modifyActor n hf, rfl⟩

theorem holding_onStore (hs : s.1.Intact s.2) {f : Store → α × Store} (hevolves : s.2.Evolves (f s.2).2)
    (hintact : (f s.2).2.Intact) : (onStore f).Holding s fun a s' => a = (f s.2).1 ∧ s' = (s.1, (f s.2).2) :=
  have hkeeps := hevolves.keeps hs.closed
  ⟨hkeeps, hs.keeps hkeeps (hevolves.closed hs.closed) hintact, rfl, rfl⟩

/-- Something is taken out of the store that leaves no trace in it but in a table. -/
theorem holding_take (hs : s.1.Intact s.2) {f : Store → α × Store} (hstep : Store.TableStep s.2 (f s.2).2)
    (hquiet : s.2.Quiet (f s.2).2) : (onStore f).Holding s fun a s' => a = (f s.2).1 ∧ s' = (s.1, (f s.2).2) :=
  have hevolves : s.2.Evolves (f s.2).2 := .single (.table hstep)
  holding_onStore hs hevolves (hquiet.intact hs.store hs.closed (hevolves.keeps hs.closed))

/-- A step of the kernel, whether it succeeds or not. -/
theorem holding_attempt (hs : s.1.Intact s.2) {act : Action α} {Q : α → Store → Prop} (h : act.Keeping s.2 Q) :
    (attempt act).Holding s fun r s' =>
      match r with
      | .ok a => Q a s'.2
      | .error e => e.In s'.2 := by
  -- whether the action ends well or not, it leaves the store as it should be
  obtain ⟨sys, σ⟩ := s
  rw [Action.Keeping] at h
  have heq := attempt_eq act sys σ
  generalize act σ = result at h heq
  cases result with
  | ok a τ =>
    have hkeeps := h.1.evolves.keeps hs.closed
    refine ⟨?_, ?_, ?_⟩
    · exact heq ▸ hkeeps
    · exact heq ▸ hs.keeps hkeeps (h.1.closed hs.closed) h.2.1
    · rw [heq]
      exact h.2.2
  | error e τ =>
    have hkeeps := h.1.evolves.keeps hs.closed
    refine ⟨?_, ?_, ?_⟩
    · exact heq ▸ hkeeps
    · exact heq ▸ hs.keeps hkeeps (h.1.closed hs.closed) h.2.1
    · rw [heq]
      exact h.2.2

/-- **Delivery** carries complete values from the log to where they belong. -/
theorem holding_deliver (hs : s.1.Intact s.2) : deliver.Holding s fun _ s' => s'.2 = s.2.cleared := by
  obtain ⟨sys, σ⟩ := s
  have hkeeps : σ.Keeps σ.cleared := .of_vars_eq σ.cleared_grows rfl
  have hclosed : σ.cleared.Closed := { hs.closed with effects := fun e he => absurd he (Array.not_mem_empty e) }
  have hintact : σ.cleared.Intact := hs.store.of_keeps hs.closed hkeeps (fun _ => .inl) (fun _ => .inl)
    fun _ _ he => absurd he (Array.not_mem_empty _)
  have heffects : ∀ e ∈ σ.effects.toList, e.Intact σ := fun e he =>
    hs.store.effect hs.closed (Array.mem_toList_iff.mp he)
  exact ⟨hkeeps, (hs.routeAll _ heffects).keeps hkeeps hclosed hintact, rfl⟩

/-- An envelope may be sent if what it carries is complete. -/
theorem holding_send (hs : s.1.Intact s.2) (recipient : ActorRef) {e : Envelope} (he : e.Intact s.2) :
    (send recipient e).Holding s fun _ _ => True := by
  have hin : Effect.In s.2 (.send recipient e) := he.isIn
  have hevolves : s.2.Evolves (s.2.emit (.send recipient e)) := .single (.table (.emit hin))
  have hkeeps := hevolves.keeps hs.closed
  have hintact : (s.2.emit (.send recipient e)).Intact := by
    refine hs.store.of_keeps hs.closed hkeeps (fun _ => .inl) (fun _ => .inl) fun r g hg => ?_
    rcases Array.mem_push.mp hg with hold | hnew
    · exact .inl hold
    · cases hnew
      exact .inr (he.keeps hs.closed hkeeps).payload
  exact ⟨hkeeps, hs.keeps hkeeps (hevolves.closed hs.closed) hintact, trivial⟩

/-! ## Ending activities -/

/-- A failing activity leaves the system intact, whether it was to make handlers, to answer, or to handle a notification. -/
theorem holding_fail (hs : s.1.Intact s.2) (n : Nat) {f : FailureId} (hf : f < s.2.failures.size) :
    (fail n f).Holding s fun _ _ => True := by
  refine holding_read ?_
  cases ha : s.1.actor? n with
  | none => exact holding_pure hs trivial
  | some a =>
    dsimp only [Option.bind_some]
    split
    · exact holding_pure hs trivial
    · next act hact =>
      have htask := (hs.actor ha).task act hact
      refine (holding_changeActor hs n fun a ha => ha.idle).bind fun _ s' _ hs' hstore => ?_
      rw [← hstore] at hf htask
      split
      · exact (holding_changeActor hs' n fun a ha => ha.enter (p := .failed f) hf).imp fun _ _ _ _ => trivial
      · next htarget =>
        rw [htarget] at htask
        exact holding_send hs' _ ⟨⟨hf, htask.1⟩, (hs'.store.complete_failed hf).whole⟩
      · exact holding_pure hs' trivial

theorem holding_failWith (hs : s.1.Intact s.2) (n : Nat) (address : Address) (f : Fault) :
    (failWith n address f).Holding s fun _ _ => True := by
  obtain ⟨hdeeds, hf⟩ := s.2.failWith_deeds address f
  refine (holding_onStore hs hdeeds.evolves (hs.store.failWith hs.closed address f)).bind fun g s' _ hs' h => ?_
  obtain ⟨rfl, rfl⟩ := h
  exact holding_fail hs' n hf

/-- The result is in the store, and an answer is complete. -/
def Settled.Intact (σ : Store) : Settled → Prop
  | .configured handlers => handlers.In σ
  | .answered _ target v => target.In σ ∧ v.Complete σ
  | .notified => True

/-- A task keeps what is complete. If it comes to an answer, the answer is complete. -/
theorem outcome_keeping (hσ : σ.Closed) (hintact : σ.Intact) {task : Task} (htask : task.In σ) :
    (outcome task).Keeping σ fun result τ => result.Intact τ := by
  cases task with
  | configure x =>
    exact (Handlers.ofVar_reads hσ htask).bind_keeping hintact fun h hh => Action.keeping_pure hintact hh
  | answer requester target response =>
    refine (Action.complete_keeping hσ hintact (t := .var response) htask.2).bind hσ fun v τ hστ _ hintact hv => ?_
    exact Action.keeping_pure hintact ⟨hστ.grows.term htask.1, hv.1, hv.2⟩
  | notify => exact Action.keeping_pure hintact trivial

/-- Settling an activity leaves the system intact. -/
theorem holding_settle (hs : s.1.Intact s.2) (n : Nat) (address : Address) {act : Activity} (htask : act.task.In s.2) :
    (settle n address act).Holding s fun _ _ => True := by
  refine (holding_attempt hs (outcome_keeping hs.closed hs.store htask)).bind fun r s' _ hs' hr => ?_
  -- the result is there, the result waits for a variable, or there can be none
  split
  · next result =>
    have hresult : result.Intact s'.2 := hr
    refine (holding_changeActor hs' n fun a ha => ha.idle).bind fun _ s'' _ hs'' hstore => ?_
    rw [← hstore] at hresult
    cases result with
    | configured handlers =>
      exact (holding_changeActor hs'' n fun a ha => ha.enter (p := .ready handlers) hresult).imp fun _ _ _ _ => trivial
    | answered requester target v => exact holding_send hs'' _ ⟨⟨hresult.2.isIn, hresult.1⟩, hresult.2.whole⟩
    | notified => exact holding_pure hs'' trivial
  · next x =>
    have hx : s'.2.Unbound x := hr
    have hk : Continuation.In s'.2 ⟨[], .activity n act.id⟩ := fun f hf => absurd hf List.not_mem_nil
    have hevolves : s'.2.Evolves (s'.2.suspend x ⟨[], .activity n act.id⟩).2 := by
      rw [Store.suspend_of_var hx.resolveVar]
      exact .single (.var (.park hx hk))
    refine (holding_onStore hs' hevolves (hs'.store.suspend hs'.closed hx.lt_size hk)).bind fun _ s'' _ hs'' _ => ?_
    exact holding_pure hs'' trivial
  · exact holding_failWith hs' n address _

/-! ## Working on activities -/

/-- **A slice of an activity** and what comes of it. -/
theorem holding_advance (hs : s.1.Intact s.2) (n : Nat) (address : Address) {act : Activity} {stack : Stack}
    (htask : act.task.In s.2) (hstack : stack.In s.2) : (advance n address act stack).Holding s fun _ _ => True := by
  refine holding_read ?_
  -- the slice that the actor runs of its stack
  let ctx : Context :=
    { owner := address, actor := some ⟨.actor n, address⟩, spawner := .system, resumer := .activity n act.id }
  obtain ⟨hevolves, hadvice⟩ := ctx.compute_evolves s.1.kernel.config.timeSlice 0 hs.closed hstack
  have hintact := ctx.compute_intact s.1.kernel.config.timeSlice 0 hs.store hs.closed hstack
  refine (holding_onStore (f := fun σ => ((ctx.compute s.1.kernel.config.timeSlice stack 0 σ).advice,
    (ctx.compute s.1.kernel.config.timeSlice stack 0 σ).store)) hs hevolves hintact).bind
      fun advice s' hkeeps hs' h => ?_
  obtain ⟨rfl, rfl⟩ := h
  refine (holding_deliver hs').bind fun _ s'' hkeeps' hs'' _ => ?_
  have hgrows := hkeeps'.grows
  dsimp only at hgrows ⊢
  -- what became of the activity in the slice
  generalize (ctx.compute s.1.kernel.config.timeSlice stack 0 s.2).advice = advice at hadvice
  cases advice with
  | ended =>
    have htask' : act.task.In s''.2 := (hkeeps.trans hkeeps').grows.task htask
    exact (holding_settle hs'' n address htask').bind fun _ s₃ _ hs₃ _ => holding_pure hs₃ trivial
  | preempted rest =>
    have hrest : Item.Intact s''.2 (.resume act.id rest) := hgrows.stack hadvice
    exact (holding_change (hs''.enqueue n hrest)).bind fun _ s₃ _ hs₃ _ => holding_pure hs₃ trivial
  | waiting x => exact holding_pure hs'' trivial
  | halted f =>
    have hf : f < s''.2.failures.size := hgrows.value (v := .failed f) hadvice
    exact (holding_fail hs'' n hf).bind fun _ s₃ _ hs₃ _ => holding_pure hs₃ trivial

/-- Beginning an activity leaves the system intact if what the computation starts with is in the store. -/
theorem holding_launch (hs : s.1.Intact s.2) (n : Nat) (a : Actor) {task : Task} (htask : task.In s.2) (proc : Ident)
    (args : List Ident) {bindings : Env} (hbindings : bindings.In s.2) :
    (launch n a task proc args bindings).Holding s fun _ _ => True := by
  have hstart : ∀ b : Actor, b.Intact s.2 →
      Actor.Intact s.2 { b with activity := some ⟨a.activities + 1, task⟩, activities := b.activities + 1 } :=
    fun b hb => hb.start htask _
  refine (holding_changeActor hs n hstart).bind fun _ s' _ hs' hstore => ?_
  rw [← hstore] at htask hbindings
  refine holding_read ?_
  refine holding_advance hs' n a.address htask fun f hf => ?_
  obtain rfl := List.mem_singleton.mp hf
  exact Env.In.extend hs'.root hbindings

/-! ## Beginning activities -/

/-- A new variable. -/
theorem holding_newVar (hs : s.1.Intact s.2) {state : VarState} (hstate : state.Idle)
    (hin : state.In s.2 s.2.vars.size) :
    (onStore fun σ => σ.newVar state).Holding s fun x s' => x < s'.2.vars.size := by
  have hdeeds : s.2.Deeds (s.2.newVar state).2 := .single (.newVar hstate hin)
  have hquiet : s.2.Quiet (s.2.newVar state).2 := .of_log_eq rfl rfl rfl
  have hintact := hquiet.intact hs.store hs.closed (hdeeds.evolves.keeps hs.closed)
  refine (holding_onStore hs hdeeds.evolves hintact).imp fun x s' _ h => ?_
  obtain ⟨rfl, rfl⟩ := h
  exact s.2.newVar_lt_size state

theorem holding_freshVar (hs : s.1.Intact s.2) : freshVar.Holding s fun x s' => x < s'.2.vars.size :=
  holding_newVar hs rfl fun _ hk => absurd hk List.not_mem_nil

/-- Binding parameters leaves the system intact. The scope that has been made is in the store. -/
theorem holding_bindAll (hs : s.1.Intact s.2) {bindings : List (Ident × Value)} (h : ∀ p ∈ bindings, p.2.In s.2) :
    (bindAll bindings).Holding s fun env s' => env.In s'.2 := by
  induction bindings generalizing s with
  | nil => exact holding_pure hs fun p hp => absurd hp List.not_mem_nil
  | cons p rest ih =>
    obtain ⟨hp, hrest⟩ := List.forall_mem_cons.mp h
    have hidle : VarState.Idle (.bound p.2) := trivial
    refine (holding_newVar hs hidle hp).bind fun x s' hkeeps hs' hx => ?_
    have hrest' : ∀ q ∈ rest, q.2.In s'.2 := fun q hq => hkeeps.grows.value (hrest q hq)
    refine (ih hs' hrest').bind fun env s'' hkeeps' hs'' henv => holding_pure hs'' ?_
    exact List.forall_mem_cons.mpr ⟨Nat.lt_of_lt_of_le hx hkeeps'.grows.vars, henv⟩

/-- Beginning to make handlers leaves the system intact. -/
theorem holding_startConfigure (hs : s.1.Intact s.2) (n : Nat) (a : Actor) {config : ConfigId}
    (hconfig : config < s.2.configs.size) : (startConfigure n a config).Holding s fun _ _ => True := by
  rw [startConfigure]
  split
  · obtain ⟨hargs, hhandlers⟩ := hs.closed.config hconfig
    refine (holding_onStore hs .refl hs.store).bind fun cfg s₀ _ _ h => ?_
    -- the configuration is read from the store, which is as it was
    obtain ⟨rfl, rfl⟩ := h
    refine (holding_freshVar hs).bind fun result s₁ h₁ hs₁ hresult => ?_
    have hzip : ∀ p ∈ (argIdents (s.2.config config).args.length).zip (s.2.config config).args, p.2.In s₁.2 :=
      fun p hp => h₁.grows.value (hargs p.2 (List.of_mem_zip hp).2)
    refine (holding_bindAll hs₁ hzip).bind fun args s₂ h₂ hs₂ hargs' => ?_
    have hmaker : ∀ p ∈ [(("$handlers_ctor" : Ident), Value.proc (.closure (s.2.config config).handlers))],
        p.2.In s₂.2 := by
      intro p hp
      obtain rfl := List.mem_singleton.mp hp
      exact (h₁.trans h₂).grows.value (v := .proc (.closure _)) hhandlers
    refine (holding_bindAll hs₂ hmaker).bind fun maker s₃ h₃ hs₃ hmaker' => ?_
    have htask : Task.In s₃.2 (.configure result) := Nat.lt_of_lt_of_le hresult (h₂.trans h₃).grows.vars
    -- arguments, constructor and result are all older than the last variable made
    have hbindings : Env.In s₃.2 (args ++ maker ++ [("$r", result)]) := by
      refine List.forall_mem_append.mpr ⟨List.forall_mem_append.mpr ⟨h₃.grows.env hargs', hmaker'⟩, ?_⟩
      exact List.forall_mem_singleton.mpr htask
    exact holding_launch hs₃ n a htask _ _ hbindings
  · exact holding_pure hs trivial

/-- Beginning to answer leaves the system intact. A failure that is sent instead of an answer is complete. -/
theorem holding_startRequest (hs : s.1.Intact s.2) (n : Nat) {a : Actor} (ha : a.Intact s.2) {message : Value}
    {requester : ActorRef} {target : Term} (hmessage : message.In s.2) (htarget : target.In s.2) :
    (startRequest n a message requester target).Holding s fun _ _ => True := by
  have hphase := ha.phase
  rw [startRequest]
  -- the actor answers in its state: with its handler, without one, or with its failure
  split
  · next ask tell hready =>
    rw [hready] at hphase
    -- the response is a new variable of the call
    refine (holding_freshVar hs).bind fun response s₁ h₁ hs₁ hresponse => ?_
    have hargs : ∀ p ∈ [(("$ask" : Ident), ask), ("$m", message)], p.2.In s₁.2 :=
      List.forall_mem_cons.mpr ⟨h₁.grows.value (hphase.ask ask rfl),
        List.forall_mem_singleton.mpr (h₁.grows.value hmessage)⟩
    refine (holding_bindAll hs₁ hargs).bind fun bindings s₂ h₂ hs₂ hbindings => ?_
    have hresponse' : response < s₂.2.vars.size := Nat.lt_of_lt_of_le hresponse h₂.grows.vars
    have htask : Task.In s₂.2 (.answer requester target response) :=
      ⟨(h₁.trans h₂).grows.term htarget, hresponse'⟩
    exact holding_launch hs₂ n a htask _ _
      (List.forall_mem_append.mpr ⟨hbindings, List.forall_mem_singleton.mpr hresponse'⟩)
  -- without a handler the requester gets the fault of the actor
  · obtain ⟨hdeeds, hf⟩ := s.2.failWith_deeds a.address (.notAProc (a.address ++ " has no ask handler"))
    refine (holding_onStore hs hdeeds.evolves (hs.store.failWith hs.closed _ _)).bind fun f s' hkeeps hs' h => ?_
    obtain ⟨rfl, rfl⟩ := h
    have hreply := hs'.store.complete_failed hf
    refine (holding_send hs' requester (e := .response (.failed _) target)
      ⟨⟨hreply.isIn, hkeeps.grows.term htarget⟩, hreply.whole⟩).bind fun _ s'' _ hs'' _ => ?_
    exact holding_pure hs'' trivial
  · next f hfailed =>
    rw [hfailed] at hphase
    have hreply := hs.store.complete_failed hphase
    refine (holding_send hs requester (e := .response (.failed f) target)
      ⟨⟨hreply.isIn, htarget⟩, hreply.whole⟩).bind fun _ s' _ hs' _ => ?_
    exact holding_pure hs' trivial
  · exact holding_pure hs trivial
  · exact holding_pure hs trivial

/-- Beginning to handle a notification leaves the system intact. -/
theorem holding_startNotify (hs : s.1.Intact s.2) (n : Nat) {a : Actor} (ha : a.Intact s.2) {message : Value}
    (hmessage : message.In s.2) : (startNotify n a message).Holding s fun _ _ => True := by
  have hphase := ha.phase
  rw [startNotify]
  split
  · next ask tell hready =>
    rw [hready] at hphase
    have hargs : ∀ p ∈ [(("$tell" : Ident), tell), ("$m", message)], p.2.In s.2 :=
      List.forall_mem_cons.mpr ⟨hphase.tell tell rfl, List.forall_mem_singleton.mpr hmessage⟩
    have htask : ∀ σ : Store, Task.In σ .notify := fun _ => trivial
    exact (holding_bindAll hs hargs).bind fun bindings s' _ hs' hbindings =>
      holding_launch hs' n a (htask s'.2) _ _ hbindings
  · exact holding_pure hs trivial

/-! ## Items -/

/-- **Handling an item.** -/
theorem holding_handle (hs : s.1.Intact s.2) (n : Nat) {a : Actor} (ha : a.Intact s.2) {item : Item}
    (hitem : item.Intact s.2) : (handle n a item).Holding s fun _ _ => True := by
  -- a request or a notification is deferred unless the actor can take it up now
  have hdefers : ∀ e : Envelope, e.Intact s.2 →
      (changeActor n (fun a => { a with deferred := a.deferred ++ [e] }) >>= fun _ => pure false).Holding s
        fun _ _ => True := by
    intro e he
    have hdeferred : ∀ a : Actor, a.Intact s.2 → Actor.Intact s.2 { a with deferred := a.deferred ++ [e] } :=
      fun a ha => { ha with deferred := List.forall_mem_append.mpr ⟨ha.deferred, List.forall_mem_singleton.mpr he⟩ }
    exact (holding_changeActor hs n hdeferred).bind fun _ s' _ hs' _ => holding_pure hs' trivial
  cases item with
  | envelope e =>
    have he : e.Intact s.2 := hitem
    cases e with
    | response v target =>
      have hunify := Action.unify_safe hs.closed (a := target) (b := .val v) he.isIn.2 he.isIn.1
      have hkeeping := hunify.keeping (Action.quiet_unify target (.val v)) hs.closed hs.store
      exact (holding_attempt hs hkeeping).bind fun _ s' _ hs' _ => holding_pure hs' trivial
    | request message requester target =>
      simp only [handle]
      split
      · exact hdefers _ he
      · exact holding_startRequest hs n ha he.isIn.1 he.isIn.2
    | notify message =>
      simp only [handle]
      split
      · exact hdefers _ he
      · exact holding_startNotify hs n ha he.isIn
  | configure config => exact holding_startConfigure hs n a hitem
  | resume id stack =>
    rw [handle]
    split
    · next act hact =>
      split
      · exact holding_advance hs n a.address (ha.task act hact) hitem
      · exact holding_pure hs trivial
    · exact holding_pure hs trivial
  | stop => exact (holding_changeActor hs n fun a ha => ha.halt).bind fun _ s' _ hs' _ => holding_pure hs' trivial

/-! ## Turns -/

/-- The item that an actor takes is one of those that it kept. -/
theorem holding_nextItem (hs : s.1.Intact s.2) (n : Nat) :
    (nextItem n).Holding s fun item s' => ∀ i, item = some i → i.Intact s'.2 := by
  have hnone : (pure none : SystemM (Option Item)).Holding s fun item s' => ∀ i, item = some i → i.Intact s'.2 :=
    holding_pure hs fun i hi => by cases hi
  refine holding_read ?_
  cases ha : s.1.actor? n with
  | none => exact hnone
  | some a =>
    have hactor := hs.actor ha
    dsimp only
    -- a deferred envelope comes before the mailbox
    split
    · next e rest _ hdeferred =>
      obtain ⟨he, hrest⟩ := List.forall_mem_cons.mp (hdeferred ▸ hactor.deferred)
      have hkeep : ∀ a : Actor, a.Intact s.2 → Actor.Intact s.2 { a with deferred := rest } := fun a ha =>
        { ha with deferred := hrest }
      refine (holding_changeActor hs n hkeep).bind fun _ s' _ hs' hstore => holding_pure hs' fun i hi => ?_
      cases hi
      rw [hstore]
      exact he
    · cases hpop : a.mailbox.pop? with
      | none => exact hnone
      | some p =>
        obtain ⟨item, mailbox⟩ := p
        dsimp only
        obtain ⟨hitem, hrest⟩ := List.forall_mem_cons.mp (Mailbox.items_of_pop hpop ▸ hactor.mail)
        have hkeep : ∀ a : Actor, a.Intact s.2 → Actor.Intact s.2 { a with mailbox } := fun a ha =>
          { ha with mail := hrest }
        refine (holding_changeActor hs n hkeep).bind fun _ s' _ hs' hstore => holding_pure hs' fun i hi => ?_
        cases hi
        rw [hstore]
        exact hitem

/-- However many items are handled, the system stays intact. -/
theorem holding_handleItems (hs : s.1.Intact s.2) (n room handled : Nat) :
    (handleItems n room handled).Holding s fun _ _ => True := by
  induction room generalizing s handled with
  | zero => exact holding_pure hs trivial
  | succ room ih =>
    refine (holding_nextItem hs n).bind fun item s₁ _ hs₁ hitem => ?_
    cases item with
    | none => exact holding_pure hs₁ trivial
    | some item =>
      refine holding_read ?_
      cases ha : s₁.1.actor? n with
      | none => exact holding_pure hs₁ trivial
      | some a =>
        refine (holding_handle hs₁ n (hs₁.actor ha) (hitem item rfl)).bind fun preempted s₂ _ hs₂ _ => ?_
        refine (holding_deliver hs₂).bind fun _ s₃ _ hs₃ _ => ?_
        split
        · exact holding_pure hs₃ trivial
        · exact ih hs₃ (handled + 1)

/-- A turn leaves the system intact. What it adds to the items are books about the turn and about who is to have the next one.
-/
theorem holding_turn (hs : s.1.Intact s.2) (n : Nat) : (turn n).Holding s fun _ _ => True := by
  refine (holding_handleItems hs n itemsPerTurn 0).bind fun result s₁ _ hs₁ _ => ?_
  have hrecord : ActorSystem.Intact { s₁.1 with executor := s₁.1.executor.record result.1 result.2 } s₁.2 :=
    { hs₁ with }
  refine (holding_change hrecord).bind fun _ s₂ _ hs₂ _ => ?_
  refine (holding_changeActor hs₂ n (f := fun a => { a with scheduled := false }) fun a ha => { ha with }).bind
    fun _ s₃ _ hs₃ _ => holding_read ?_
  split
  · split
    · exact (holding_change (hs₃.schedule n)).imp fun _ _ _ _ => trivial
    · exact holding_pure hs₃ trivial
  · exact holding_pure hs₃ trivial

/-! ## Passes -/

theorem holding_runNext (hs : s.1.Intact s.2) : runNext.Holding s fun _ _ => True := by
  refine holding_read ?_
  split
  · exact holding_pure hs trivial
  · next n rest _ =>
    have htaken : ActorSystem.Intact { s.1 with runQueue := rest } s.2 := { hs with }
    refine (holding_change htaken).bind fun _ s₁ _ hs₁ _ => ?_
    exact (holding_turn hs₁ n).bind fun _ s₂ _ hs₂ _ => holding_pure hs₂ trivial

theorem holding_runTurns (hs : s.1.Intact s.2) (turns : Nat) : (runTurns turns).Holding s fun _ _ => True := by
  induction turns generalizing s with
  | zero => exact holding_pure hs trivial
  | succ turns ih => exact (holding_runNext hs).bind fun _ s₁ _ hs₁ _ => ih hs₁

theorem holding_pass (hs : s.1.Intact s.2) : pass.Holding s fun _ _ => True :=
  holding_read ((holding_runTurns hs _).bind fun _ _ _ hs₁ _ => holding_pure hs₁ trivial)

theorem holding_settlePasses (hs : s.1.Intact s.2) (passes : Nat) :
    (settlePasses passes).Holding s fun _ _ => True := by
  induction passes generalizing s with
  | zero => exact holding_pure hs trivial
  | succ passes ih =>
    refine (holding_pass hs).bind fun turns s₁ _ hs₁ _ => ?_
    split
    · exact holding_pure hs₁ trivial
    · exact ih hs₁

/-- Waiting for an answer leaves the system intact. -/
theorem holding_runUntilAnswered (hs : s.1.Intact s.2) (client turns : Nat) :
    (runUntilAnswered client turns).Holding s fun _ _ => True := by
  induction turns generalizing s with
  | zero => exact holding_pure hs trivial
  | succ turns ih =>
    have hanswer : (answerOf client).Holding s fun _ s' => s' = s := ⟨.refl s.2, hs, rfl⟩
    refine hanswer.bind fun answer s' _ hs' h => ?_
    subst h
    split
    · exact holding_pure hs trivial
    · refine (holding_runNext hs).bind fun ran s₁ _ hs₁ _ => ?_
      split
      · exact ih hs₁
      · exact holding_pure hs₁ trivial

/-- Every actor may be stopped at once. -/
theorem holding_shutdown (hs : s.1.Intact s.2) : shutdown.Holding s fun _ _ => True := by
  refine (holding_change ?_).bind fun _ s₁ _ hs₁ _ => ?_
  · refine { hs with actors := fun p hp => ?_ }
    obtain ⟨⟨n, a⟩, ha, rfl⟩ := List.mem_map.mp hp
    dsimp only
    split
    · exact (hs.actors _ ha).halt
    · exact hs.actors _ ha
  · exact (holding_pass hs₁).bind fun _ s₂ _ hs₂ _ => holding_pure hs₂ trivial

/-! ## Requests -/

/-- Asking from outside leaves the system intact: the client is new and has no answer yet, and the variable for the answer is
new as well. -/
theorem holding_ask (hs : s.1.Intact s.2) (recipient : ActorRef) {message : Value} (hmessage : message.Complete s.2) :
    (ask recipient message).Holding s fun _ _ => True := by
  refine (holding_take hs .newReceiver (.of_log_eq rfl rfl rfl)).bind fun n s₁ h₁ hs₁ _ => ?_
  refine (holding_take hs₁ (.newAddress "client") (.of_log_eq rfl rfl rfl)).bind fun address s₂ h₂ hs₂ _ => ?_
  refine (holding_freshVar hs₂).bind fun target s₃ h₃ hs₃ htarget => ?_
  have hclient : ActorSystem.Intact { s₃.1 with clients := s₃.1.clients ++ [(n, ({} : Client))] } s₃.2 := by
    refine { hs₃ with clients := fun p hp v hv => ?_ }
    rcases List.mem_append.mp hp with hold | hnew
    · exact hs₃.clients p hold v hv
    · obtain rfl := List.mem_singleton.mp hnew
      cases hv
  refine (holding_change hclient).bind fun _ s₄ h₄ hs₄ h => ?_
  have hmessage' : message.Complete s₃.2 := hmessage.keeps hs.closed ((h₁.trans h₂).trans h₃)
  subst h
  refine (holding_send hs₄ recipient (e := .request message ⟨.client n, address⟩ (.var target))
    ⟨⟨hmessage'.isIn, htarget⟩, hmessage'.whole⟩).bind fun _ s₅ _ hs₅ _ => holding_pure hs₅ trivial

theorem holding_abandon (hs : s.1.Intact s.2) (client : Nat) : (abandon client).Holding s fun _ _ => True := by
  refine (holding_change ?_).imp fun _ _ _ _ => trivial
  refine { hs with clients := fun p hp v hv => ?_ }
  obtain ⟨⟨n, c⟩, hc, rfl⟩ := List.mem_map.mp hp
  refine hs.clients _ hc v ?_
  rw [← hv]
  dsimp only
  split <;> rfl

end SystemM

end Dataflow
