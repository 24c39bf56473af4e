/-
Every store that can come about is orderly.

Computations leave an orderly store orderly. So do runs of the kernel, and so does everything that an actor system does,
since all that happens to records there happens in computations, in completing, and in describing faults. Whatever has
happened to a store since it was empty, the features of each record are in ascending order, and every feature that a
record has is found in it.
-/
import Dataflow.Proofs.Orderly
import Dataflow.Proofs.Operations
import Dataflow.Proofs.Actor.Outcomes
import Dataflow.Proofs.Actor.Outside
import Dataflow.Actor.Requests
import Dataflow.Composite

set_option autoImplicit false

namespace Dataflow

/-! ## Runs of the kernel -/

theorem Store.Orderly.loadModules {σ : Store} (hσ : σ.Orderly) {l : List (Ident × List (String × Native))}
    (hl : ∀ p ∈ l, p ∈ modules) : (loadModules σ l).2.Orderly := by
  induction l generalizing σ with
  | nil => exact hσ
  | cons p l ih =>
    have hmade : ((σ.newRecord (moduleRecord p.2)).2.newVar (.bound (.record σ.records.size))).2.Orderly :=
      (hσ.newRecord (Record.orderly_module (hl p List.mem_cons_self))).of_eq rfl
    exact ih hmade fun q hq => hl q (List.mem_cons_of_mem p hq)

theorem Store.takeWakes_records (σ : Store) (queue : Nat) : (σ.takeWakes queue).2.records = σ.records := by
  rw [takeWakes]
  split <;> rfl

namespace Run

variable {α : Type}

/-- The run leaves an orderly store orderly. -/
abbrev Orderly (run : Run α) : Prop := Maintains Store.Orderly run fun _ => True

theorem orderly_ofAction {act : Action α} {Q : α → Prop} (h : act.Orderly Q) : (ofAction act).Orderly := by
  intro σ hσ
  have hact := h σ hσ
  rw [ofAction]
  generalize act σ = result at hact ⊢
  cases result with
  | ok a τ => exact ⟨hact.1, trivial⟩
  | error e τ => cases e <;> exact hact

end Run

namespace Kernel

variable (k : Kernel)

/-- A new kernel has nothing in its store but the records of the built-in modules, which are in order. -/
theorem create_orderly {config : Config} {σ τ : Store} (hσ : σ.Orderly) (h : create config σ = .ok (k, τ)) :
    τ.Orderly := by
  rw [create] at h
  cases hcheck : config.check with
  | error e =>
    rw [hcheck] at h
    cases h
  | ok valid =>
    rw [hcheck] at h
    cases h
    exact hσ.loadModules fun _ hp => hp

/-- **A computation that the kernel drives** leaves an orderly store orderly. -/
theorem orderly_drive (queue limit rounds : Nat) (s : RunState) : (k.drive queue limit rounds s).Orderly := by
  induction rounds generalizing s with
  | zero => exact maintains_throw _
  | succ rounds ih =>
    intro σ hσ
    rw [drive]
    cases s.pop with
    | none =>
      dsimp only
      cases s.blockedOn σ with
      | none => exact ⟨hσ, trivial⟩
      | some x => exact hσ
    | some p =>
      obtain ⟨stack, s⟩ := p
      dsimp only
      split
      · exact hσ
      · let ctx : Context := { owner := kernelOwner, resumer := .queue queue }
        have hslice :=
          ctx.compute_orderly (min k.config.timeSlice (limit - s.executed)) s.executed hσ stack
        generalize ctx.compute (min k.config.timeSlice (limit - s.executed)) stack s.executed σ = result at hslice
        obtain ⟨advice, executed, τ⟩ := result
        have hτ : (τ.takeWakes queue).2.Orderly := Store.Orderly.of_eq hslice (τ.takeWakes_records queue)
        cases advice with
        | ended | preempted | waiting => exact ih _ _ hτ
        | halted f => exact hτ

theorem orderly_runToEnd (instr : Instr) (env : Env) (limit : Nat) : (k.runToEnd instr env limit).Orderly := by
  have hqueue : (modifyGet Store.newQueue : Run Nat).Orderly := fun _ hσ => ⟨hσ.of_eq rfl, trivial⟩
  exact hqueue.bind fun queue _ => k.orderly_drive queue limit (limit + 1) _

theorem orderly_runProgram (p : Program) : (k.runProgram p).Orderly := by
  refine (Run.orderly_ofAction ((Action.uses_freshBindings p.locals).orderly rfl)).bind fun bindings _ => ?_
  exact (k.orderly_runToEnd _ _ _).bind fun _ _ => maintains_pure trivial

theorem orderly_construct (instr : Instr) (x : Ident) : (k.construct instr x).Orderly := by
  refine (Run.orderly_ofAction ((Action.uses_freshBindings [x]).orderly rfl)).bind fun bindings _ => ?_
  refine (k.orderly_runToEnd _ _ _).bind fun _ _ => ?_
  refine (Run.orderly_ofAction ((Env.uses_var _ x).orderly rfl)).bind fun y _ => ?_
  refine (Run.orderly_ofAction ((Action.uses_settled _).orderly rfl)).bind fun v _ => ?_
  split
  · exact maintains_pure trivial
  · exact maintains_throw _

/-- Applying an actor constructor makes variables and runs the constructor, and both keep records in order. -/
theorem orderly_configure (c : ClosureId) (args : List Value) : (k.configure c args).Orderly := by
  have hlook : (modifyGet fun σ => ((σ.closure c).proc.params.length - 1, σ) : Run Nat).Orderly :=
    fun _ hσ => ⟨hσ, trivial⟩
  refine hlook.bind fun arity _ => ?_
  dsimp only
  split
  -- the arguments, the constructor and the result get variables, then the call is run
  · exact maintains_throw _
  · refine (Run.orderly_ofAction ((Action.uses_valueBindings _).orderly rfl)).bind fun bound _ => ?_
    refine (Run.orderly_ofAction ((Action.uses_valueBindings _).orderly rfl)).bind fun maker _ => ?_
    refine (Run.orderly_ofAction (Action.Step.fresh.orderly (by decide))).bind fun result _ => ?_
    refine (k.orderly_runToEnd _ _ _).bind fun _ _ => ?_
    refine (Run.orderly_ofAction ((Action.uses_settled _).orderly rfl)).bind fun v _ => ?_
    split
    · exact maintains_pure trivial
    · exact maintains_throw _

end Kernel

/-! ## Steps of a system -/

namespace SystemM

variable {α β : Type}

/-- The step leaves an orderly store orderly. -/
def Orderly (step : SystemM α) : Prop := ∀ s, s.2.Orderly → (step s).2.2.Orderly

theorem Orderly.bind {step : SystemM α} {f : α → SystemM β} (h : step.Orderly) (hf : ∀ a, (f a).Orderly) :
    (step >>= f).Orderly := fun s hs => hf (step s).1 (step s).2 (h s hs)

theorem orderly_pure (a : α) : (pure a : SystemM α).Orderly := fun _ hs => hs

theorem orderly_read (f : ActorSystem → α) : (read f).Orderly := fun _ hs => hs

theorem orderly_change (f : ActorSystem → ActorSystem) : (change f).Orderly := fun _ hs => hs

/-- Work on the store that makes no records. -/
theorem orderly_onStore {f : Store → α × Store} (h : ∀ σ, (f σ).2.records = σ.records) : (onStore f).Orderly :=
  fun s hs => hs.of_eq (h s.2)

theorem orderly_attempt {act : Action α} {Q : α → Prop} (h : act.Orderly Q) : (attempt act).Orderly := by
  intro s hs
  have hact := h s.2 hs
  rw [attempt, onStore]
  generalize act s.2 = result at hact ⊢
  cases result with
  | ok a τ => exact hact.1
  | error e τ => exact hact

theorem orderly_send (recipient : ActorRef) (e : Envelope) : (send recipient e).Orderly := orderly_onStore fun _ => rfl

theorem orderly_deliver : deliver.Orderly :=
  (orderly_onStore (f := Store.takeEffects) fun _ => rfl).bind fun _ => orderly_change _

/-! ## Activities -/

section Activities

variable (n : Nat)

theorem orderly_fail (f : FailureId) : (fail n f).Orderly := by
  refine (orderly_read _).bind fun found => ?_
  split
  · exact orderly_pure ()
  · refine (orderly_change _).bind fun _ => ?_
    split
    · exact orderly_change _
    · exact orderly_send _ _
    · exact orderly_pure ()

theorem orderly_failWith (address : Address) (f : Fault) : (failWith n address f).Orderly := by
  have hstore : (onStore fun σ => σ.failWith address f).Orderly := fun s hs => hs.failWith address f
  exact hstore.bind fun f => orderly_fail n f

/-- Settling an activity keeps records in order. -/
theorem orderly_settle (address : Address) (activity : Activity) : (settle n address activity).Orderly := by
  refine (orderly_attempt ((uses_outcome activity.task).orderly rfl)).bind fun result => ?_
  -- the result is there, the result waits for a variable, or there can be none
  split
  · refine (orderly_change _).bind fun _ => ?_
    split
    · exact orderly_change _
    · exact orderly_send _ _
    · exact orderly_pure ()
  · next x =>
    have hsuspend : (onStore fun σ => σ.suspend x ⟨[], .activity n activity.id⟩).Orderly :=
      orderly_onStore fun σ => σ.suspend_records x _
    exact hsuspend.bind fun _ => orderly_pure ()
  · exact orderly_failWith n address _

/-- A slice keeps records in order, and so does what is done after it, whatever the advice is. -/
theorem orderly_advance (address : Address) (activity : Activity) (stack : Stack) :
    (advance n address activity stack).Orderly := by
  refine (orderly_read _).bind fun slice => ?_
  have hcompute : ∀ ctx : Context, (onStore fun σ =>
      ((ctx.compute slice stack 0 σ).advice, (ctx.compute slice stack 0 σ).store)).Orderly :=
    fun ctx s hs => ctx.compute_orderly slice 0 hs stack
  refine (hcompute _).bind fun advice => orderly_deliver.bind fun _ => ?_
  split
  · exact (orderly_settle n address activity).bind fun _ => orderly_pure false
  · exact (orderly_change _).bind fun _ => orderly_pure true
  · exact orderly_pure false
  · exact (orderly_fail n _).bind fun _ => orderly_pure false

theorem orderly_launch (a : Actor) (task : Task) (proc : Ident) (args : List Ident) (bindings : Env) :
    (launch n a task proc args bindings).Orderly :=
  (orderly_change _).bind fun _ => (orderly_read _).bind fun _ => orderly_advance n _ _ _

theorem orderly_freshVar : freshVar.Orderly := orderly_onStore fun _ => rfl

theorem orderly_bindAll (l : List (Ident × Value)) : (bindAll l).Orderly := by
  induction l with
  | nil => exact orderly_pure _
  | cons p rest ih =>
    have hvar : (onStore fun σ => σ.newVar (.bound p.2)).Orderly := orderly_onStore fun _ => rfl
    exact hvar.bind fun y => ih.bind fun bindings => orderly_pure _

/-! ## Items -/

theorem orderly_startConfigure (a : Actor) (config : ConfigId) : (startConfigure n a config).Orderly := by
  rw [startConfigure]
  split
  · have hlook : (onStore fun σ => (σ.config config, σ)).Orderly := orderly_onStore fun _ => rfl
    refine hlook.bind fun cfg => orderly_freshVar.bind fun result => ?_
    exact (orderly_bindAll _).bind fun args => (orderly_bindAll _).bind fun maker => orderly_launch n a _ _ _ _
  · exact orderly_pure false

/-- Beginning to answer keeps records in order. A failure is the only thing here that comes with a record of its own. -/
theorem orderly_startRequest (a : Actor) (message : Value) (requester : ActorRef) (target : Term) :
    (startRequest n a message requester target).Orderly := by
  rw [startRequest]
  split
  · refine orderly_freshVar.bind fun response => (orderly_bindAll _).bind fun bindings => ?_
    exact orderly_launch n a _ _ _ _
  · have hfail : ∀ f, (onStore fun σ => σ.failWith a.address f).Orderly := fun f s hs => hs.failWith a.address f
    exact (hfail _).bind fun f => (orderly_send _ _).bind fun _ => orderly_pure false
  · exact (orderly_send _ _).bind fun _ => orderly_pure false
  · exact orderly_pure false
  · exact orderly_pure false

theorem orderly_startNotify (a : Actor) (message : Value) : (startNotify n a message).Orderly := by
  rw [startNotify]
  split
  · exact (orderly_bindAll _).bind fun bindings => orderly_launch n a _ _ _ _
  · exact orderly_pure false

/-- Handling any item keeps records in order. -/
theorem orderly_handle (a : Actor) (item : Item) : (handle n a item).Orderly := by
  rw [handle.eq_def]
  -- a response is unified with its target; an envelope is put aside, taken up or ignored
  split
  · exact (orderly_attempt ((Action.Step.unify _ _).orderly (by decide))).bind fun _ => orderly_pure false
  · split
    · exact (orderly_change _).bind fun _ => orderly_pure false
    · split
      · exact orderly_startRequest n a _ _ _
      · exact orderly_startNotify n a _
      · exact orderly_pure false
  · exact orderly_startConfigure n a _
  · split
    · split
      · exact orderly_advance n _ _ _
      · exact orderly_pure false
    · exact orderly_pure false
  · exact (orderly_change _).bind fun _ => orderly_pure false

/-! ## Turns -/

theorem orderly_nextItem : (nextItem n).Orderly := by
  refine (orderly_read _).bind fun found => ?_
  split
  · exact orderly_pure none
  · split
    · exact (orderly_change _).bind fun _ => orderly_pure _
    · split
      · exact orderly_pure none
      · exact (orderly_change _).bind fun _ => orderly_pure _

/-- Handling any number of items keeps records in order. -/
theorem orderly_handleItems (room handled : Nat) : (handleItems n room handled).Orderly := by
  induction room generalizing handled with
  | zero => exact orderly_pure _
  | succ room ih =>
    refine (orderly_nextItem n).bind fun item => ?_
    split
    · exact orderly_pure _
    · refine (orderly_read _).bind fun found => ?_
      split
      · exact orderly_pure _
      · refine (orderly_handle n _ _).bind fun preempted => orderly_deliver.bind fun _ => ?_
        split
        · exact orderly_pure _
        · exact ih _

/-- **A turn leaves an orderly store orderly.** -/
theorem orderly_turn : (turn n).Orderly := by
  refine (orderly_handleItems n itemsPerTurn 0).bind fun result => (orderly_change _).bind fun _ => ?_
  refine (orderly_change _).bind fun _ => (orderly_read _).bind fun found => ?_
  split
  · split
    · exact orderly_change _
    · exact orderly_pure ()
  · exact orderly_pure ()

end Activities

theorem orderly_runNext : runNext.Orderly := by
  refine (orderly_read _).bind fun queue => ?_
  split
  · exact orderly_pure false
  · next n _ => exact (orderly_change _).bind fun _ => (orderly_turn n).bind fun _ => orderly_pure true

theorem orderly_pass : pass.Orderly := by
  have hturns : ∀ turns, (runTurns turns).Orderly := by
    intro turns
    induction turns with
    | zero => exact orderly_pure ()
    | succ turns ih => exact orderly_runNext.bind fun _ => ih
  exact (orderly_read _).bind fun turns => (hturns turns).bind fun _ => orderly_pure turns

theorem orderly_settlePasses (passes : Nat) : (settlePasses passes).Orderly := by
  induction passes with
  | zero => exact orderly_pure true
  | succ passes ih =>
    refine orderly_pass.bind fun turns => ?_
    split
    · exact orderly_pure false
    · exact ih

/-- Waiting for an answer keeps records in order. -/
theorem orderly_runUntilAnswered (client turns : Nat) : (runUntilAnswered client turns).Orderly := by
  induction turns with
  | zero => exact orderly_pure ()
  | succ turns ih =>
    have hanswer : (answerOf client).Orderly := (orderly_read _).bind fun _ => orderly_pure _
    refine hanswer.bind fun answer => ?_
    split
    · exact orderly_pure ()
    · refine orderly_runNext.bind fun ran => ?_
      split
      · exact ih
      · exact orderly_pure ()

theorem orderly_shutdown : shutdown.Orderly :=
  (orderly_change _).bind fun _ => orderly_pass.bind fun _ => orderly_pure ()

theorem orderly_ask (recipient : ActorRef) (message : Value) : (ask recipient message).Orderly := by
  refine (orderly_onStore fun _ => rfl).bind fun n => (orderly_onStore fun _ => rfl).bind fun address => ?_
  refine orderly_freshVar.bind fun target => (orderly_change _).bind fun _ => ?_
  exact (orderly_send _ _).bind fun _ => orderly_pure n

end SystemM

/-! ## Requests -/

namespace Request

variable {α : Type}

/-- The request leaves an orderly store orderly, whether it is refused or not. -/
abbrev Orderly (r : Request α) : Prop := Maintains (fun s => s.2.Orderly) r fun _ => True

theorem orderly_ofStep {step : SystemM α} (h : step.Orderly) : (ofStep step).Orderly := fun s hs => ⟨h s hs, trivial⟩

theorem orderly_ofRun {f : Kernel → Run α} (h : ∀ k, (f k).Orderly) : (ofRun f).Orderly := by
  intro s hs
  have hrun := h s.1.kernel s.2 hs
  rw [ofRun]
  generalize f s.1.kernel s.2 = result at hrun ⊢
  cases result with
  | ok a τ => exact ⟨hrun.1, trivial⟩
  | error e τ => exact hrun

/-- The store that a request leaves is orderly, also if the request is refused. -/
theorem Orderly.state {r : Request α} (h : r.Orderly) {sys : ActorSystem} {σ : Store} (hσ : σ.Orderly) :
    (r.state (sys, σ)).2.Orderly := by
  have hstate := h (sys, σ) hσ
  rw [Request.state]
  generalize r (sys, σ) = result at hstate ⊢
  cases result with
  | ok a s => exact hstate.1
  | error e s => exact hstate

end Request

/-- Asking and waiting for the answer keeps records in order, also when no answer comes in time. -/
theorem SystemM.orderly_askAndWait (recipient : ActorRef) (message : Value) :
    (askAndWait recipient message).Orderly := by
  have hawait : ∀ client timeout, (await client recipient timeout).Orderly := by
    intro client timeout
    have hanswer : (answerOf client).Orderly := (orderly_read _).bind fun _ => orderly_pure _
    refine (Request.orderly_ofStep hanswer).bind fun answer _ => ?_
    have habandon : (abandon client).Orderly := orderly_change _
    refine (Request.orderly_ofStep habandon).bind fun _ _ => ?_
    cases answer with
    | some v => exact maintains_pure trivial
    | none => exact maintains_throw _
  refine (Request.orderly_ofStep (orderly_ask recipient message)).bind fun client _ => ?_
  refine (Request.orderly_ofStep orderly_deliver).bind fun _ _ => ?_
  refine (Request.orderly_ofStep (orderly_runUntilAnswered client maxTurns)).bind fun _ _ => ?_
  exact (Request.orderly_ofStep (orderly_read _)).bind fun timeout _ => hawait client timeout

/-! ## Whatever happens -/

namespace Store

/-- One thing happens to a store, on behalf of a computation, of a kernel, of an actor system, or of somebody who uses
them. -/
inductive Event (σ : Store) : Store → Prop where
  /-- Anything is done that does not concern records: variables are made, bound and merged, computations are suspended
  and resumed, and procedures, cells, configurations and envelopes come about. -/
  | elsewhere {τ : Store} (h : τ.records = σ.records) : Event σ τ
  /-- A record is built of fields, -/
  | build {label : Literal} {fields : List Field} {r : Record} (h : Record.build label fields = .ok r) :
      Event σ (σ.newRecord r).2
  /-- or is a tuple of values. -/
  | tuple (label : Literal) (values : List Term) : Event σ (σ.newRecord (.tuple label values)).2
  /-- A term is completed, -/
  | complete (t : Term) : Event σ ((Action.complete t).after σ)
  /-- or is matched with a pattern. -/
  | matchTerm (p : Pattern) (t : Term) : Event σ ((Action.matchTerm p t).after σ)
  /-- A value is called, which may be a procedure of a module, an iterator or an actor constructor. -/
  | call (ctx : Context) (env : Env) (args : List Operand) (rest : Stack) (v : Value) :
      Event σ ((v.call ctx env args rest).after σ)
  /-- A fault is described. -/
  | failWith (owner : Address) (f : Fault) : Event σ (σ.failWith owner f).2
  /-- A computation runs for a number of instructions. -/
  | compute (ctx : Context) (slice executed : Nat) (stack : Stack) : Event σ (ctx.compute slice stack executed σ).store
  /-- A kernel is made, with its modules, -/
  | kernel {config : Config} {k : Kernel} {τ : Store} (h : Kernel.create config σ = .ok (k, τ)) : Event σ τ
  /-- and runs something to its end. -/
  | runProgram (sys : ActorSystem) (p : Program) :
      Event σ ((Request.ofRun fun k => k.runProgram p).state (sys, σ)).2
  | runToEnd (sys : ActorSystem) (instr : Instr) (env : Env) (limit : Nat) :
      Event σ ((Request.ofRun fun k => k.runToEnd instr env limit).state (sys, σ)).2
  | construct (sys : ActorSystem) (instr : Instr) (x : Ident) :
      Event σ ((SystemM.construct instr x).state (sys, σ)).2
  | configure (sys : ActorSystem) (c : ClosureId) (args : List Value) :
      Event σ ((SystemM.configure c args).state (sys, σ)).2
  /-- An actor handles some items, -/
  | items (sys : ActorSystem) (n room : Nat) : Event σ (SystemM.handleItems n room 0 (sys, σ)).2.2
  /-- has a turn, -/
  | turn (sys : ActorSystem) (n : Nat) : Event σ (SystemM.turn n (sys, σ)).2.2
  /-- or has its turn because it comes first. -/
  | runNext (sys : ActorSystem) : Event σ (SystemM.runNext (sys, σ)).2.2
  | settlePasses (sys : ActorSystem) (passes : Nat) : Event σ (SystemM.settlePasses passes (sys, σ)).2.2
  | askAndWait (sys : ActorSystem) (recipient : ActorRef) (message : Value) :
      Event σ ((SystemM.askAndWait recipient message).state (sys, σ)).2
  | shutdown (sys : ActorSystem) : Event σ (SystemM.shutdown (sys, σ)).2.2

/-- Any number of things have happened since the store was empty. -/
def Reachable (σ : Store) : Prop := Relation.ReflTransGen Event {} σ

namespace Orderly

variable {σ τ : Store}

theorem after {α : Type} {act : Action α} {Q : α → Prop} (h : act.Orderly Q) (hσ : σ.Orderly) :
    (act.after σ).Orderly := by
  have hact := h σ hσ
  rw [Action.after]
  generalize act σ = result at hact ⊢
  cases result with
  | ok a τ => exact hact.1
  | error e τ => exact hact

/-- **Whatever happens leaves an orderly store orderly.** -/
theorem event (hσ : σ.Orderly) (h : σ.Event τ) : τ.Orderly := by
  cases h with
  | elsewhere h => exact hσ.of_eq h
  | build h => exact hσ.newRecord (Record.orderly_build h)
  | tuple label values => exact hσ.newRecord (Record.orderly_tuple label values)
  | complete t => exact after (Action.orderly_complete t) hσ
  | matchTerm p t => exact after ((Action.uses_matchTerm p t).orderly rfl) hσ
  | call ctx env args rest v => exact after ((v.uses_call ctx env args rest).orderly rfl) hσ
  | failWith owner f => exact hσ.failWith owner f
  | compute ctx slice executed stack => exact ctx.compute_orderly slice executed hσ stack
  | @kernel _ k _ h => exact k.create_orderly hσ h
  | runProgram sys p => exact (Request.orderly_ofRun fun k => k.orderly_runProgram p).state hσ
  | runToEnd sys instr env limit => exact (Request.orderly_ofRun fun k => k.orderly_runToEnd instr env limit).state hσ
  | construct sys instr x => exact (Request.orderly_ofRun fun k => k.orderly_construct instr x).state hσ
  | configure sys c args => exact (Request.orderly_ofRun fun k => k.orderly_configure c args).state hσ
  | items sys n room => exact SystemM.orderly_handleItems n room 0 (sys, σ) hσ
  | turn sys n => exact SystemM.orderly_turn n (sys, σ) hσ
  | runNext sys => exact SystemM.orderly_runNext (sys, σ) hσ
  | settlePasses sys passes => exact SystemM.orderly_settlePasses passes (sys, σ) hσ
  | askAndWait sys recipient message => exact (SystemM.orderly_askAndWait recipient message).state hσ
  | shutdown sys => exact SystemM.orderly_shutdown (sys, σ) hσ

end Orderly

theorem Reachable.orderly {σ : Store} (h : σ.Reachable) : σ.Orderly := by
  induction h with
  | refl => exact orderly_empty
  | tail _ hevent ih => exact ih.event hevent

end Store

/-- The features of the record are in strictly ascending order, and looking a feature up finds the value of its field,
if there is one. -/
structure Record.Searchable (r : Record) : Prop where
  ascending : r.Ascending
  found : ∀ f t, r.select? f = some t ↔ ⟨f, t⟩ ∈ r.fields
  missing : ∀ f, r.select? f = none ↔ ∀ field ∈ r.fields, field.feature ≠ f
  byIndex : ∀ k field, r.toComposite.at k = .ok field → r.select? field.feature = some field.value

/-- A record whose fields ascend is found in by every feature it has, and by no other. -/
theorem Record.Ascending.isSearchable {r : Record} (h : r.Ascending) : r.Searchable where
  ascending := h
  found _ _ := h.select?_eq_some_iff
  missing _ := h.select?_eq_none_iff
  byIndex k field hat := by
    rw [Composite.at] at hat
    split at hat
    · next found hget =>
      obtain rfl := Except.ok.inj hat
      exact h.select?_eq hget
    · cases hat

/-- **Records stay sorted and searchable.** In each store that can come about, every record that has as many fields as a
vector can hold is searchable, and building a record of fields is refused exactly if two of them have one feature, and
gives a record of just these fields otherwise. -/
theorem Store.Reachable.searchable {σ : Store} (h : σ.Reachable) :
    (∀ r ∈ σ.records, r.count < 2 ^ 63 → r.Searchable) ∧
      ∀ label fields,
        ((∃ fault, Record.build label fields = .error fault) ↔ ¬ (fields.map Field.feature).Nodup) ∧
          ∀ r, Record.build label fields = .ok r → r.label = label ∧ r.fields.Perm fields := by
  refine ⟨fun r hr hcount => (h.orderly r hr hcount).isSearchable, fun label fields => ?_⟩
  rcases Record.build_cases label fields with ⟨r, hr, hlabel, hperm, hasc⟩ | ⟨f, hf, hdup⟩
  · refine ⟨iff_of_false ?_ ?_, ?_⟩
    · rintro ⟨fault, hfault⟩
      cases hr.symm.trans hfault
    · exact not_not_intro ((hperm.map Field.feature).nodup_iff.mp hasc.nodup)
    · intro s hs
      cases hr.symm.trans hs
      exact ⟨hlabel, hperm⟩
  · refine ⟨iff_of_true ⟨_, hf⟩ (List.exists_duplicate_iff_not_nodup.mp ⟨f, hdup⟩), fun s hs => ?_⟩
    cases hf.symm.trans hs

/-- The fields `a` and `b`. -/
def Record.couple : Record := ⟨.null, [⟨.str "a", .val (.lit .null)⟩, ⟨.str "b", .val (.lit .eof)⟩]⟩

theorem Record.build_couple : build .null couple.fields.reverse = .ok couple := by
  have hle : ((Feature.str "b").compare (.str "a")).isLE = false := by decide
  simp [build, sortFields, couple, List.mergeSort, hle, repeated?]

/-- Both features are found in a record that was built from the last field to the first. -/
theorem Store.Reachable.searchable_couple :
    Reachable (({} : Store).newRecord Record.couple).2 ∧ Record.couple.count < 2 ^ 63 ∧
      Record.couple.select? (.str "a") = some (.val (.lit .null)) ∧
      Record.couple.select? (.str "b") = some (.val (.lit .eof)) := by
  have hreach : Reachable (({} : Store).newRecord Record.couple).2 := .single (.build Record.build_couple)
  have hcount : Record.couple.count < 2 ^ 63 := by decide
  have hsearch := hreach.searchable.1 Record.couple (Array.mem_push_self ..) hcount
  refine ⟨hreach, hcount, (hsearch.found _ _).mpr ?_, (hsearch.found _ _).mpr ?_⟩
  · exact List.mem_cons_self
  · exact List.mem_cons_of_mem _ List.mem_cons_self

end Dataflow
