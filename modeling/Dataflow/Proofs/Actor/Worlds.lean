/-
Worlds: an actor system, and somebody outside who holds complete values.

Complete values are made in few ways. Somebody completes a term, or takes a constant or a failure, or keeps what an
envelope carried or what a client was answered. They are used in few ways as well: they are sent, asked with, and given
to an actor constructor as arguments. A world says who holds what, and its steps are all that can happen: computations
and other work on the store, turns of actors, requests from outside, and the making and using of complete values.

In each world that a new system can come to, whatever is complete is whole, and it stays whole in each world after that.
-/
import Dataflow.Proofs.Actor.Intact
import Dataflow.Proofs.Actor.Chronicle
import Dataflow.Proofs.Operations

set_option autoImplicit false

namespace Dataflow

/-! ## Runs of the kernel -/

/-- What only reads keeps everything that is intact. -/
theorem Action.Reads.keeping {α : Type} {act : Action α} {σ : Store} {Q : α → Prop} {R : α → Store → Prop}
    (h : act.Reads σ Q) (hintact : σ.Intact) (hQ : ∀ a, Q a → R a σ) : act.Keeping σ R := by
  rw [Reads] at h
  rw [Keeping]
  generalize act σ = result at h
  cases result with
  | ok a τ =>
    obtain ⟨rfl, ha⟩ := h
    exact ⟨.refl, hintact, hQ a ha⟩
  | error e τ =>
    obtain ⟨rfl, he⟩ := h
    exact ⟨.refl, hintact, he⟩

/-- `τ` is a closed and intact store that has kept what was in `σ`. -/
structure Store.LeadsTo (σ τ : Store) : Prop where
  keeps : σ.Keeps τ
  closed : τ.Closed
  intact : τ.Intact

namespace Store.LeadsTo

variable {σ τ ρ : Store}

theorem refl (hσ : σ.Closed) (hintact : σ.Intact) : σ.LeadsTo σ := ⟨.refl σ, hσ, hintact⟩

theorem trans (h : σ.LeadsTo τ) (h' : τ.LeadsTo ρ) : σ.LeadsTo ρ := ⟨h.keeps.trans h'.keeps, h'.closed, h'.intact⟩

theorem of_evolves (hσ : σ.Closed) (hevolves : σ.Evolves τ) (hintact : τ.Intact) : σ.LeadsTo τ :=
  ⟨hevolves.keeps hσ, hevolves.closed hσ, hintact⟩

theorem of_quiet (hσ : σ.Closed) (hintact : σ.Intact) (hevolves : σ.Evolves τ) (hquiet : σ.Quiet τ) : σ.LeadsTo τ :=
  .of_evolves hσ hevolves (hquiet.intact hintact hσ (hevolves.keeps hσ))

/-- What only moves the counters of queues, or makes the log shorter. -/
theorem shorten (hσ : σ.Closed) (hintact : σ.Intact) (queues : Nat) {effects : Array Effect}
    (hlog : effects.toList.Sublist σ.effects.toList) : σ.LeadsTo { σ with queues, effects } := by
  have hquiet : σ.Quiet { σ with queues, effects } :=
    ⟨rfl, rfl, fun _ _ he => Array.mem_toList_iff.mp (hlog.subset (Array.mem_toList_iff.mpr he))⟩
  have hkeeps : σ.Keeps { σ with queues, effects } := .of_vars_eq (.shorten σ queues effects) rfl
  exact ⟨hkeeps, hσ.shorten queues hlog, hquiet.intact hintact hσ hkeeps⟩

theorem newQueue (hσ : σ.Closed) (hintact : σ.Intact) : σ.LeadsTo σ.newQueue.2 :=
  shorten hσ hintact (σ.queues + 1) (List.Sublist.refl _)

theorem takeWakes (hσ : σ.Closed) (hintact : σ.Intact) (queue : Nat) : σ.LeadsTo (σ.takeWakes queue).2 := by
  rw [takeWakes_eq]
  refine shorten hσ hintact σ.queues ?_
  rw [Array.toList_filter]
  exact List.filter_sublist

end Store.LeadsTo

namespace Run

variable {α β : Type} {σ : Store}

/-- However a run has ended, it has led to a closed and intact store, and its result satisfies `Q`. -/
def Led (σ : Store) (Q : α → Store → Prop) : EStateM.Result RuntimeError Store α → Prop
  | .ok a τ => σ.LeadsTo τ ∧ Q a τ
  | .error _ τ => σ.LeadsTo τ

theorem Led.after {Q : α → Store → Prop} {τ : Store} {result : EStateM.Result RuntimeError Store α} (h : Led τ Q result)
    (hστ : σ.LeadsTo τ) : Led σ Q result := by
  cases result with
  | ok a ρ => exact ⟨hστ.trans h.1, h.2⟩
  | error e ρ => exact hστ.trans h

/-- The run leads to a closed and intact store. -/
def Keeping (run : Run α) (σ : Store) (Q : α → Store → Prop) : Prop := Led σ Q (run σ)

theorem Keeping.bind {run : Run α} {f : α → Run β} {Q : α → Store → Prop} {R : β → Store → Prop}
    (h : run.Keeping σ Q) (hf : ∀ a τ, σ.LeadsTo τ → Q a τ → (f a).Keeping τ R) : (run >>= f).Keeping σ R := by
  rw [Keeping] at h
  rw [Keeping, bind_apply]
  generalize run σ = result at h
  cases result with
  | ok a τ => exact (hf a τ h.1 h.2).after h.1
  | error e τ => exact h

theorem keeping_pure {Q : α → Store → Prop} {a : α} (hσ : σ.Closed) (hintact : σ.Intact) (h : Q a σ) :
    (pure a : Run α).Keeping σ Q := ⟨.refl hσ hintact, h⟩

theorem keeping_throw {Q : α → Store → Prop} (e : RuntimeError) (hσ : σ.Closed) (hintact : σ.Intact) :
    (throw e : Run α).Keeping σ Q := Store.LeadsTo.refl hσ hintact

/-- An action that keeps what is intact can be run from outside, whether it fails or not. -/
theorem keeping_ofAction {act : Action α} {Q : α → Store → Prop} (hσ : σ.Closed) (h : act.Keeping σ Q) :
    (ofAction act).Keeping σ Q := by
  rw [Action.Keeping] at h
  rw [Keeping, ofAction]
  generalize act σ = result at h
  cases result with
  | ok a τ => exact ⟨.of_evolves hσ h.1.evolves h.2.1, h.2.2⟩
  | error e τ =>
    cases e with
    | blocked x => exact .of_evolves hσ h.1.evolves h.2.1
    | fault f => exact .of_evolves hσ h.1.evolves h.2.1

end Run

namespace Kernel

variable {σ : Store}

/-- **A computation that the kernel drives** keeps the store intact, slice by slice. -/
theorem drive_keeping (k : Kernel) (queue limit rounds : Nat) {s : RunState} (hσ : σ.Closed) (hintact : σ.Intact)
    (hs : s.In σ) : (k.drive queue limit rounds s).Keeping σ fun _ _ => True := by
  induction rounds generalizing s σ with
  | zero => exact Run.keeping_throw _ hσ hintact
  | succ rounds ih =>
    rw [Run.Keeping, drive]
    cases hpop : s.pop with
    | none =>
      dsimp only
      cases s.blockedOn σ with
      | none => exact ⟨.refl hσ hintact, trivial⟩
      | some x => exact Store.LeadsTo.refl hσ hintact
    | some p =>
      obtain ⟨stack, s⟩ := p
      obtain ⟨hstack, hrest⟩ := hs.pop hpop
      dsimp only
      split
      · exact Store.LeadsTo.refl hσ hintact
      · let ctx : Context := { owner := kernelOwner, resumer := .queue queue }
        obtain ⟨hevolves, hadvice⟩ :=
          ctx.compute_evolves (min k.config.timeSlice (limit - s.executed)) s.executed hσ hstack
        have hcomputed :=
          ctx.compute_intact (min k.config.timeSlice (limit - s.executed)) s.executed hintact hσ hstack
        generalize ctx.compute (min k.config.timeSlice (limit - s.executed)) stack s.executed σ = result at *
        obtain ⟨advice, executed, τ⟩ := result
        have hτ : σ.LeadsTo τ := .of_evolves hσ hevolves hcomputed
        have htaken : τ.LeadsTo (τ.takeWakes queue).2 := .takeWakes hτ.closed hτ.intact queue
        have hnext := hτ.trans htaken
        -- what was in the queue is still there, and what has been resumed comes behind it
        have hqueue : ∀ stack ∈ s.queue ++ (τ.takeWakes queue).1, stack.In (τ.takeWakes queue).2 := by
          intro stack hmem
          rcases List.mem_append.mp hmem with hmem | hmem
          · exact hnext.keeps.grows.stack (hrest.2 stack hmem)
          · exact htaken.keeps.grows.stack (hτ.closed.takeWakes queue stack hmem)
        have hcurrent : ∀ stack, s.current = some stack → stack.In (τ.takeWakes queue).2 :=
          fun stack hsome => hnext.keeps.grows.stack (hrest.1 stack hsome)
        cases advice with
        | ended =>
          refine Run.Led.after (ih hnext.closed hnext.intact ?_) hnext
          exact ⟨hcurrent, hqueue⟩
        | preempted stack =>
          refine Run.Led.after (ih hnext.closed hnext.intact ?_) hnext
          exact ⟨fun stack hsome => Option.some.inj hsome ▸ htaken.keeps.grows.stack hadvice, hqueue⟩
        | waiting x =>
          refine Run.Led.after (ih hnext.closed hnext.intact ?_) hnext
          exact ⟨hcurrent, hqueue⟩
        | halted f => exact hnext

/-- Running an instruction to its end keeps what is complete, however many steps it is allowed to do. -/
theorem runToEnd_keeping (k : Kernel) (instr : Instr) {env : Env} (limit : Nat) (hσ : σ.Closed) (hintact : σ.Intact)
    (henv : env.In σ) : (k.runToEnd instr env limit).Keeping σ fun _ _ => True := by
  have hqueue : (modifyGet Store.newQueue : Run Nat).Keeping σ fun _ _ => True :=
    ⟨.newQueue hσ hintact, trivial⟩
  refine hqueue.bind fun queue τ hτ _ =>
    k.drive_keeping queue limit (limit + 1) hτ.closed hτ.intact ⟨fun stack hsome => ?_, ?_⟩
  · obtain rfl := Option.some.inj hsome
    exact Stack.In.push (fun f hf => absurd hf List.not_mem_nil) (hτ.keeps.grows.env henv) instr
  · exact fun stack hmem => absurd hmem List.not_mem_nil

theorem settledValue_keeping (hσ : σ.Closed) (hintact : σ.Intact) {x : VarId} (hx : x < σ.vars.size) :
    (settledValue x).Keeping σ fun v τ => v.In τ :=
  Run.keeping_ofAction hσ ((Action.settled_reads (t := .var x) hσ hx).keeping hintact fun _ hv => hv)

/-- Making an actor constructor. -/
theorem construct_keeping (k : Kernel) (instr : Instr) (x : Ident) (hσ : σ.Closed) (hintact : σ.Intact)
    (hroot : k.root.In σ) : (k.construct instr x).Keeping σ fun _ _ => True := by
  have hfresh := (Action.freshBindings_safe hσ [x]).keeping ((Action.uses_freshBindings [x]).quiet rfl) hσ hintact
  refine (Run.keeping_ofAction hσ hfresh).bind fun bindings τ hτ hbindings => ?_
  have henv : (k.root.extend bindings).In τ := Env.In.extend (hτ.keeps.grows.env hroot) hbindings.1
  refine (k.runToEnd_keeping instr _ hτ.closed hτ.intact henv).bind fun _ ρ hρ _ => ?_
  have hvar := (Env.var_reads (hρ.keeps.grows.env henv) x).keeping (R := fun y ρ => y < ρ.vars.size) hρ.intact
    fun _ hy => hy
  refine (Run.keeping_ofAction hρ.closed hvar).bind fun y υ hυ hy => ?_
  refine (settledValue_keeping hυ.closed hυ.intact hy).bind fun v ω hω _ => ?_
  split
  · exact Run.keeping_pure hω.closed hω.intact trivial
  · exact Run.keeping_throw _ hω.closed hω.intact

/-- Making a configuration. -/
theorem configure_keeping (k : Kernel) {c : ClosureId} {args : List Value} (hσ : σ.Closed) (hintact : σ.Intact)
    (hroot : k.root.In σ) (hc : c < σ.closures.size) (hargs : ∀ v ∈ args, v.In σ) :
    (k.configure c args).Keeping σ fun _ _ => True := by
  -- the arity is only looked at
  have hlook : (modifyGet fun σ => ((σ.closure c).proc.params.length - 1, σ) : Run Nat).Keeping σ
      fun _ τ => τ = σ := ⟨.refl hσ hintact, rfl⟩
  refine hlook.bind fun arity τ _ hτ => ?_
  subst hτ
  dsimp only
  split
  · exact Run.keeping_throw _ hσ hintact
  · have hzip : ∀ p ∈ (SystemM.argIdents args.length).zip args, p.2.In τ :=
      fun p hp => hargs p.2 (List.of_mem_zip hp).2
    -- the arguments and the constructor are bound in the same way
    have hbind : ∀ {ρ : Store} {l : List (Ident × Value)}, ρ.Closed → ρ.Intact → (∀ p ∈ l, p.2.In ρ) →
        (Run.ofAction (Action.valueBindings l)).Keeping ρ fun bindings υ => Env.In υ bindings := by
      intro ρ l hρ hintact hl
      have hquiet := (Action.uses_valueBindings l).quiet rfl
      exact Run.keeping_ofAction hρ (((Action.valueBindings_safe hρ hl).keeping hquiet hρ hintact).imp fun _ _ h => h.1)
    refine (hbind hσ hintact hzip).bind fun bound ρ hρ hbound => ?_
    have hmaker : ∀ p ∈ [(("$ctor" : Ident), Value.proc (.actorMaker c))], p.2.In ρ :=
      List.forall_mem_singleton.mpr (hρ.keeps.grows.value (v := .proc (.actorMaker c)) hc)
    refine (hbind hρ.closed hρ.intact hmaker).bind fun maker υ hυ hmaker => ?_
    have hquiet : Action.fresh.Quiet fun _ => True := Action.Step.fresh.quiet (by decide) nofun
    have hfresh := Action.fresh_safe.keeping hquiet hυ.closed hυ.intact
    refine (Run.keeping_ofAction hυ.closed hfresh).bind fun result ω hω hresult => ?_
    have hgrows := ((hρ.trans hυ).trans hω).keeps.grows
    -- the names under which the constructor finds what it is given
    have hbindings : Env.In ω (bound ++ maker ++ [("$cfg", result)]) := by
      refine List.forall_mem_append.mpr ⟨List.forall_mem_append.mpr ⟨?_, hω.keeps.grows.env hmaker⟩, ?_⟩
      · exact (hυ.trans hω).keeps.grows.env hbound
      · exact List.forall_mem_singleton.mpr hresult.1
    refine (k.runToEnd_keeping _ _ hω.closed hω.intact (Env.In.extend (hgrows.env hroot) hbindings)).bind
      fun _ χ hχ _ => ?_
    have hresult' : result < χ.vars.size := Nat.lt_of_lt_of_le hresult.1 hχ.keeps.grows.vars
    refine (settledValue_keeping hχ.closed hχ.intact hresult').bind fun v ψ hψ _ => ?_
    split
    · exact Run.keeping_pure hψ.closed hψ.intact trivial
    · exact Run.keeping_throw _ hψ.closed hψ.intact

end Kernel

/-! ## Other work on the store -/

theorem Store.Binds.quiet {σ τ : Store} (h : σ.Binds τ) : σ.Quiet τ := by
  cases h with
  | assign => exact .assign σ _ _
  | merge => exact .merge σ _ _

/-- Calls that concern variables are quiet. -/
theorem VarOp.Does.quiet {σ τ : Store} {l : List (VarId × Continuation)} (h : VarOp.Does σ τ l) : σ.Quiet τ := by
  cases h with
  | binds h =>
    induction h with
    | refl => exact .refl σ
    | tail _ hbinds ih => exact ih.trans hbinds.quiet
  | parks => exact .of_log_eq rfl rfl rfl
  | makes => exact .of_log_eq rfl rfl rfl

theorem Scalar.toValue_whole (c : Scalar) (σ : Store) : σ.Whole (.val c.toValue) := by
  cases c with
  | num n => exact σ.whole_num n
  | bool _ | null | eof | str _ => exact σ.whole_lit _

/-- Modules are records in variables. -/
theorem loadModules_quiet (σ : Store) (l : List (Ident × List (String × Native))) : σ.Quiet (loadModules σ l).2 := by
  induction l generalizing σ with
  | nil => exact .refl σ
  | cons p l ih =>
    have hmade : σ.Quiet ((σ.newRecord (moduleRecord p.2)).2.newVar (.bound (.record σ.records.size))).2 :=
      .of_log_eq rfl rfl rfl
    exact hmade.trans (ih _)

/-! ## Worlds -/

/-- An actor system with its store, and the complete values that somebody outside holds. -/
structure World where
  sys : ActorSystem
  store : Store
  held : List Value

namespace World

/-- What is complete in the world, or the value of a failure. -/
inductive Has (w : World) : Value → Prop where
  | held {v : Value} (h : v ∈ w.held) : Has w v
  /-- It is in an envelope that has been sent, -/
  | sent {recipient : ActorRef} {e : Envelope} (h : .send recipient e ∈ w.store.effects) : Has w e.payload
  /-- has left the system, -/
  | outside {recipient : ActorRef} {e : Envelope} (h : .send recipient e ∈ w.sys.outside) : Has w e.payload
  /-- is in a mailbox, -/
  | mailed {p : Nat × Actor} {e : Envelope} (hp : p ∈ w.sys.actors) (he : .envelope e ∈ p.2.mailbox.items) :
      Has w e.payload
  /-- or has been deferred. -/
  | deferred {p : Nat × Actor} {e : Envelope} (hp : p ∈ w.sys.actors) (he : e ∈ p.2.deferred) : Has w e.payload
  | answered {p : Nat × Client} {v : Value} (hp : p ∈ w.sys.clients) (hv : p.2.answer = some v) : Has w v
  | argument {c : ActorConfig} {v : Value} (hc : c ∈ w.store.configs) (hv : v ∈ c.args) : Has w v
  | error {f : Failure} (hf : f ∈ w.store.failures) : Has w f.error

/-- The world after a step of its system. -/
def after {α : Type} (w : World) (step : SystemM α) : World :=
  ⟨(step (w.sys, w.store)).2.1, (step (w.sys, w.store)).2.2, w.held⟩

/-- The world after a request to its system, whether it was refused or not. -/
def asked {α : Type} (w : World) (r : Request α) : World :=
  ⟨(r.state (w.sys, w.store)).1, (r.state (w.sys, w.store)).2, w.held⟩

/-- One thing happens. -/
inductive Step (w : World) : World → Prop where
  /-- Any computation runs for any number of instructions, -/
  | compute (ctx : Context) (slice executed : Nat) {stack : Stack} (hstack : stack.In w.store) :
      Step w { w with store := (ctx.compute slice stack executed w.store).store }
  /-- or the kernel runs one to its end. -/
  | runToEnd (instr : Instr) {env : Env} (limit : Nat) (henv : env.In w.store) :
      Step w (w.asked (Request.ofRun fun k => k.runToEnd instr env limit))
  /-- Variables are made, bound and waited for. -/
  | operate {op : VarOp} (hop : op.In w.store) : Step w { w with store := op.run w.store }
  /-- Anything is put into the store, or changed there, but a configuration, a failure and an envelope. -/
  | table {τ : Store} (h : Store.TableStep w.store τ) (hquiet : w.store.Quiet τ) : Step w { w with store := τ }
  | newQueue : Step w { w with store := w.store.newQueue.2 }
  | takeWakes (queue : Nat) : Step w { w with store := (w.store.takeWakes queue).2 }
  /-- A term is completed, -/
  | complete {t : Term} {v : Value} {τ : Store} (ht : t.In w.store) (h : Action.complete t w.store = .ok v τ) :
      Step w ⟨w.sys, τ, v :: w.held⟩
  /-- or it cannot be. -/
  | incomplete {t : Term} {e : Interrupt} {τ : Store} (ht : t.In w.store)
      (h : Action.complete t w.store = .error e τ) : Step w { w with store := τ }
  /-- A constant is complete, -/
  | constant (c : Scalar) : Step w { w with held := c.toValue :: w.held }
  /-- and so is a failure. -/
  | failed {f : FailureId} (hf : f < w.store.failures.size) : Step w { w with held := .failed f :: w.held }
  | failWith (owner : Address) (f : Fault) : Step w { w with store := (w.store.failWith owner f).2 }
  /-- What there is may be held. -/
  | keep {v : Value} (h : w.Has v) : Step w { w with held := v :: w.held }
  /-- What is held may be given to an actor, -/
  | newConfig {args : List Value} {c : ClosureId} (hargs : ∀ v ∈ args, v ∈ w.held) (hc : c < w.store.closures.size) :
      Step w { w with store := (w.store.newConfig ⟨args, c⟩).2 }
  | configure {args : List Value} {c : ClosureId} (hargs : ∀ v ∈ args, v ∈ w.held) (hc : c < w.store.closures.size) :
      Step w (w.asked (SystemM.configure c args))
  | construct (instr : Instr) (x : Ident) : Step w (w.asked (SystemM.construct instr x))
  /-- sent, -/
  | send (recipient : ActorRef) {e : Envelope} (he : e.In w.store) (hheld : e.payload ∈ w.held) :
      Step w (w.after (SystemM.send recipient e))
  /-- or asked with. -/
  | ask (recipient : ActorRef) {message : Value} (hheld : message ∈ w.held) :
      Step w (w.after (SystemM.ask recipient message))
  | abandon (client : Nat) : Step w (w.after (SystemM.abandon client))
  | spawn (address : Option Address) {config : ConfigId} (hconfig : config < w.store.configs.size) :
      Step w (w.asked (SystemM.spawn address config))
  | stop (address : Address) : Step w (w.asked (SystemM.stop address))
  | shutdown : Step w (w.after SystemM.shutdown)
  | deliver : Step w (w.after SystemM.deliver)
  /-- An actor handles some items, -/
  | items (n room : Nat) : Step w (w.after (SystemM.handleItems n room 0))
  /-- has a turn, -/
  | turn (n : Nat) : Step w (w.after (SystemM.turn n))
  /-- or has its turn because it comes first. -/
  | runNext : Step w (w.after SystemM.runNext)
  /-- Turns go round until there are no more, -/
  | settlePasses (passes : Nat) : Step w (w.after (SystemM.settlePasses passes))
  /-- or until a client has its answer. -/
  | runUntilAnswered (client turns : Nat) : Step w (w.after (SystemM.runUntilAnswered client turns))

/-- Any number of things happen. -/
abbrev Reaches : World → World → Prop := Relation.ReflTransGen Step

/-- Everything in the world is in its store, and what is complete is whole. -/
structure Intact (w : World) : Prop where
  system : w.sys.Intact w.store
  held : ∀ v ∈ w.held, v.Complete w.store

/-- One world leads to another if that is intact and has kept what there was. -/
structure LeadsTo (w w' : World) : Prop where
  keeps : w.store.Keeps w'.store
  intact : w'.Intact

variable {w w' : World} {v : Value}

/-- **Whatever is complete in an intact world is whole.** -/
theorem Has.complete (h : w.Has v) (hw : w.Intact) : v.Complete w.store := by
  have henvelope : ∀ {e : Envelope}, e.Intact w.store → e.payload.Complete w.store := fun he =>
    ⟨Envelope.payload_in _ he.isIn, he.payload⟩
  cases h with
  | held h => exact hw.held v h
  | sent h => exact henvelope (hw.system.store.effect hw.system.closed h)
  | outside h => exact henvelope (hw.system.outside _ h)
  | mailed hp he => exact henvelope ((hw.system.actors _ hp).mail _ he)
  | deferred hp he => exact henvelope ((hw.system.actors _ hp).deferred _ he)
  | answered hp hv => exact hw.system.clients _ hp _ hv
  | argument hc hv => exact ⟨(hw.system.closed.configs _ hc).1 _ hv, hw.system.store.arguments _ hc _ hv⟩
  | error hf => exact ⟨hw.system.closed.failures _ hf, hw.system.store.errors _ hf⟩

/-! ## What steps keep -/

namespace Intact

/-- Work on the store. -/
theorem work (hw : w.Intact) {τ : Store} (h : w.store.LeadsTo τ) : w.LeadsTo { w with store := τ } where
  keeps := h.keeps
  intact := ⟨hw.system.keeps h.keeps h.closed h.intact, fun v hv => (hw.held v hv).keeps hw.system.closed h.keeps⟩

/-- A step of the system. -/
theorem holding (hw : w.Intact) {α : Type} {step : SystemM α} {Q : α → ActorSystem × Store → Prop}
    (h : step.Holding (w.sys, w.store) Q) : w.LeadsTo (w.after step) where
  keeps := h.keeps
  intact := ⟨h.intact, fun v hv => (hw.held v hv).keeps hw.system.closed h.keeps⟩

/-- Something more is held. -/
theorem hold (hw : w.Intact) (hv : v.Complete w.store) : w.LeadsTo { w with held := v :: w.held } where
  keeps := .refl w.store
  intact := ⟨hw.system, List.forall_mem_cons.mpr ⟨hv, hw.held⟩⟩

/-- A run of the kernel. -/
theorem ofRun (hw : w.Intact) {α : Type} {f : Kernel → Run α} {Q : α → Store → Prop}
    (h : (f w.sys.kernel).Keeping w.store Q) : w.LeadsTo (w.asked (Request.ofRun f)) := by
  have hstate : ∃ τ, (Request.ofRun f).state (w.sys, w.store) = (w.sys, τ) ∧ w.store.LeadsTo τ := by
    rw [Run.Keeping] at h
    cases hresult : f w.sys.kernel w.store with
    | ok a τ =>
      rw [hresult] at h
      exact ⟨τ, by simp only [Request.state, Request.ofRun, hresult], h.1⟩
    | error e τ =>
      rw [hresult] at h
      exact ⟨τ, by simp only [Request.state, Request.ofRun, hresult], h⟩
  obtain ⟨τ, hstate, hτ⟩ := hstate
  rw [asked, hstate]
  exact hw.work hτ

/-- What has been completed is complete, and nothing else has happened than that records have been made. -/
theorem completes (hw : w.Intact) {t : Term} (ht : t.In w.store) :
    match Action.complete t w.store with
    | .ok v τ => w.LeadsTo ⟨w.sys, τ, v :: w.held⟩
    | .error _ τ => w.LeadsTo { w with store := τ } := by
  have hclosed := hw.system.closed
  have hkeeping := Action.complete_keeping hclosed hw.system.store ht
  rw [Action.Keeping] at hkeeping
  generalize Action.complete t w.store = result at hkeeping
  cases result with
  | ok v τ =>
    have hτ := hw.work (.of_evolves hclosed hkeeping.1.evolves hkeeping.2.1)
    exact ⟨hτ.keeps, (hτ.intact.hold ⟨hkeeping.2.2.1, hkeeping.2.2.2⟩).intact⟩
  | error e τ => exact hw.work (.of_evolves hclosed hkeeping.1.evolves hkeeping.2.1)

/-- A configuration of what is held. -/
theorem newConfig (hw : w.Intact) {args : List Value} {c : ClosureId} (hargs : ∀ v ∈ args, v ∈ w.held)
    (hc : c < w.store.closures.size) : w.LeadsTo { w with store := (w.store.newConfig ⟨args, c⟩).2 } := by
  have hconfig : ActorConfig.In w.store ⟨args, c⟩ := ⟨fun v hv => (hw.held v (hargs v hv)).isIn, hc⟩
  have hkeeping := Action.newConfig_keeping hw.system.closed hw.system.store hconfig
    fun v hv => (hw.held v (hargs v hv)).whole
  exact hw.work (.of_evolves hw.system.closed hkeeping.1.evolves hkeeping.2.1)

/-- A new actor. -/
theorem spawn (hw : w.Intact) (address : Option Address) {config : ConfigId} (hconfig : config < w.store.configs.size) :
    w.LeadsTo (w.asked (SystemM.spawn address config)) := by
  obtain ⟨sys, σ, held⟩ := w
  obtain ⟨name, τ, hdeeds, hquiet, hstate⟩ : ∃ name τ, σ.Deeds τ ∧ σ.Quiet τ ∧
      (SystemM.spawn address config).state (sys, σ) = (SystemM.spawnAt config name).state (sys, τ) := by
    cases address with
    | none => exact ⟨_, _, .single (.table (.newAddress "actor") rfl rfl), .of_log_eq rfl rfl rfl, rfl⟩
    | some name => exact ⟨name, σ, .refl, .refl σ, rfl⟩
  have hτ := hw.work (.of_quiet hw.system.closed hw.system.store hdeeds.evolves hquiet)
  have hconfig' : config < τ.configs.size := hdeeds.grows.value (v := .config config) hconfig
  rw [asked, hstate, SystemM.spawnAt_state]
  cases sys.registry.lookup name with
  | some _ => exact hτ
  | none =>
    have hregister : Intact ⟨sys.register τ.receivers name config, τ, held⟩ :=
      ⟨hτ.intact.system.register _ name hconfig', hτ.intact.held⟩
    have hnumber : τ.LeadsTo τ.newReceiver.2 := .of_quiet hτ.intact.system.closed hτ.intact.system.store
      (.single (.table .newReceiver)) (.of_log_eq rfl rfl rfl)
    exact ⟨hτ.keeps.trans hnumber.keeps, (hregister.work hnumber).intact⟩

/-- An actor is told to stop. -/
theorem stop (hw : w.Intact) (address : Address) : w.LeadsTo (w.asked (SystemM.stop address)) := by
  rw [asked, SystemM.stop_state]
  cases w.sys.registry.lookup address with
  | none => exact ⟨.refl w.store, hw⟩
  | some n =>
    have hforgotten : ActorSystem.Intact
        { w.sys with registry := w.sys.registry.filter fun entry => entry.1 != address } w.store := { hw.system with }
    exact ⟨.refl w.store, hforgotten.enqueue n trivial, hw.held⟩

/-- **Whatever happens in an intact world leads to one.** -/
theorem step (hw : w.Intact) (h : w.Step w') : w.LeadsTo w' := by
  have hclosed := hw.system.closed
  have hstore := hw.system.store
  -- one case for each thing that can be done with a system
  cases h with
  | compute ctx slice executed hstack =>
    obtain ⟨hevolves, -⟩ := ctx.compute_evolves slice executed hclosed hstack
    exact hw.work (.of_evolves hclosed hevolves (ctx.compute_intact slice executed hstore hclosed hstack))
  | runToEnd instr limit henv => exact hw.ofRun (w.sys.kernel.runToEnd_keeping instr limit hclosed hstore henv)
  | @operate op hop =>
    exact hw.work (.of_quiet hclosed hstore (VarOp.run_evolves hclosed op hop) (VarOp.run_cases hclosed op hop).quiet)
  | table h hquiet => exact hw.work (.of_quiet hclosed hstore (.single (.table h)) hquiet)
  | newQueue => exact hw.work (.newQueue hclosed hstore)
  | takeWakes queue => exact hw.work (.takeWakes hclosed hstore queue)
  | complete ht hcomplete =>
    have hcompletes := hw.completes ht
    rw [hcomplete] at hcompletes
    exact hcompletes
  | incomplete ht hcomplete =>
    have hcompletes := hw.completes ht
    rw [hcomplete] at hcompletes
    exact hcompletes
  | constant c => exact hw.hold ⟨c.toValue_in w.store, c.toValue_whole w.store⟩
  | failed hf => exact hw.hold (hstore.complete_failed hf)
  | failWith owner f =>
    obtain ⟨hdeeds, -⟩ := w.store.failWith_deeds owner f
    exact hw.work (.of_evolves hclosed hdeeds.evolves (hstore.failWith hclosed owner f))
  | keep hv => exact hw.hold (hv.complete hw)
  | newConfig hargs hc => exact hw.newConfig hargs hc
  | configure hargs hc =>
    refine hw.ofRun (w.sys.kernel.configure_keeping hclosed hstore hw.system.root hc fun v hv => ?_)
    exact (hw.held v (hargs v hv)).isIn
  | construct instr x => exact hw.ofRun (w.sys.kernel.construct_keeping instr x hclosed hstore hw.system.root)
  | send recipient he hheld => exact hw.holding (SystemM.holding_send hw.system recipient ⟨he, (hw.held _ hheld).whole⟩)
  | ask recipient hheld => exact hw.holding (SystemM.holding_ask hw.system recipient (hw.held _ hheld))
  | abandon client => exact hw.holding (SystemM.holding_abandon hw.system client)
  | spawn address hconfig => exact hw.spawn address hconfig
  | stop address => exact hw.stop address
  | shutdown => exact hw.holding (SystemM.holding_shutdown hw.system)
  | deliver => exact hw.holding (SystemM.holding_deliver hw.system)
  | items n room => exact hw.holding (SystemM.holding_handleItems hw.system n room 0)
  | turn n => exact hw.holding (SystemM.holding_turn hw.system n)
  | runNext => exact hw.holding (SystemM.holding_runNext hw.system)
  | settlePasses passes => exact hw.holding (SystemM.holding_settlePasses hw.system passes)
  | runUntilAnswered client turns => exact hw.holding (SystemM.holding_runUntilAnswered hw.system client turns)

/-- So does any number of things. -/
theorem reaches (hw : w.Intact) (h : w.Reaches w') : w.LeadsTo w' := by
  induction h with
  | refl => exact ⟨.refl w.store, hw⟩
  | tail _ hstep ih =>
    have hnext := ih.intact.step hstep
    exact ⟨ih.keeps.trans hnext.keeps, hnext.intact⟩

end Intact

/-- A new system in which nobody holds anything is intact. -/
theorem intact_create {config : Config} {s : ActorSystem × Store} (h : ActorSystem.create config {} = .ok s) :
    Intact ⟨s.1, s.2, []⟩ := by
  obtain ⟨hdeeds, hroot⟩ := ActorSystem.loadModules_deeds {} modules
  have hintact := (loadModules_quiet {} modules).intact Store.intact_empty Store.closed_empty
    (hdeeds.evolves.keeps Store.closed_empty)
  have hclosed := hdeeds.closed Store.closed_empty
  rw [ActorSystem.create, Kernel.create] at h
  cases hcheck : config.check with
  | error e =>
    rw [hcheck] at h
    cases h
  | ok valid =>
    rw [hcheck] at h
    cases h
    refine ⟨⟨hclosed, hintact, hroot, ?_, ?_, ?_⟩, ?_⟩
    · exact fun p hp => absurd hp List.not_mem_nil
    · exact fun p hp => absurd hp List.not_mem_nil
    · exact fun e he => absurd he (Array.not_mem_empty e)
    · exact fun v hv => absurd hv List.not_mem_nil

/-- **Complete values are whole, and stay whole.** In each world that a new system can come to, no unbound variable, no
cell, no procedure of a cell and no iterator can be reached from anything that is complete there, nor from the value of
a failure, and so it is in each world after that. -/
theorem Reaches.stays_whole {config : Config} {s : ActorSystem × Store} {w w' : World} {v : Value}
    (hcreate : ActorSystem.create config {} = .ok s) (hreach : Reaches ⟨s.1, s.2, []⟩ w) (hlater : w.Reaches w')
    (hv : w.Has v) : w.store.Whole (.val v) ∧ w'.store.Whole (.val v) := by
  have hw := ((intact_create hcreate).reaches hreach).intact
  have hcomplete := hv.complete hw
  have hlast := hw.reaches hlater
  exact ⟨hcomplete.whole, (hcomplete.keeps hw.system.closed hlast.keeps).whole⟩

/-- A new system, with a record whose only field is a variable that has a value. -/
def boxed : World :=
  let σ := ActorSystem.fresh.2
  let box : Record := ⟨.null, [⟨.position 0, .var σ.vars.size⟩]⟩
  ⟨ActorSystem.fresh.1, ((σ.newVar (.bound (.lit .null))).2.newRecord box).2, []⟩

/-- The same after that record has been completed. -/
def unboxed : World :=
  ⟨boxed.sys, (boxed.store.newRecord ⟨.null, [⟨.position 0, .val (.lit .null)⟩]⟩).2, [.record boxed.store.records.size]⟩

theorem complete_boxed :
    Action.complete (.val (.record 7)) boxed.store = .ok (.record boxed.store.records.size) unboxed.store := by
  rw [Action.complete_record]
  with_unfolding_all rfl

/-- The completed record is sent as a notification. -/
def posted : World := unboxed.after (SystemM.send ⟨.client 0, "client"⟩ (.notify (.record 8)))

/-- A record is completed, and it is whole also when it has been sent. -/
theorem Reaches.stays_whole_unboxed :
    Reaches ⟨ActorSystem.fresh.1, ActorSystem.fresh.2, []⟩ unboxed ∧ unboxed.Reaches posted ∧
      unboxed.store.Whole (.val (.record 8)) ∧ posted.store.Whole (.val (.record 8)) := by
  let σ := ActorSystem.fresh.2
  let τ := (σ.newVar (.bound (.lit .null))).2
  have hnull : VarOp.In σ (.bound (.lit .null)) := trivial
  have hbound : Step ⟨ActorSystem.fresh.1, σ, []⟩ ⟨ActorSystem.fresh.1, τ, []⟩ :=
    .operate (w := ⟨ActorSystem.fresh.1, σ, []⟩) hnull
  have hbox : Record.In τ ⟨.null, [⟨.position 0, .var σ.vars.size⟩]⟩ :=
    List.forall_mem_singleton.mpr (σ.newVar_lt_size _)
  have hrecord : Step ⟨ActorSystem.fresh.1, τ, []⟩ boxed :=
    .table (w := ⟨ActorSystem.fresh.1, τ, []⟩) (.newRecord hbox) (.of_log_eq rfl rfl rfl)
  have hold : Term.In boxed.store (.val (.record 7)) := show 7 < boxed.store.records.size by decide
  have hcomplete : boxed.Step unboxed := .complete hold complete_boxed
  have hnew : Envelope.In unboxed.store (.notify (.record 8)) := show 8 < unboxed.store.records.size by decide
  have hheld : (.record 8 : Value) ∈ unboxed.held := List.mem_singleton.mpr rfl
  have hreach := Relation.ReflTransGen.tail (.tail (.single hbound) hrecord) hcomplete
  have hlater : unboxed.Reaches posted := .single (.send _ hnew hheld)
  exact ⟨hreach, hlater, Reaches.stays_whole ActorSystem.create_fresh hreach hlater (.held hheld)⟩

end World

end Dataflow
