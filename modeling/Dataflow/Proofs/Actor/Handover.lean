/-
Handing over: divided systems from one turn to the next, and what the outside does between turns.

While somebody is at work, whatever is new belongs to them. When the next one takes over, what there is stays with its
owner, and only what will be new changes hands. So a turn that respects what is owned leads from one divided system in
which nobody inside is at work to another, and everybody owns there what they owned before (`Preserving`).

The outside works in the same way, with what it owns itself. It runs computations to their ends, makes actor constructors
and configurations, asks, and spawns actors from configurations. A configuration that is given to an actor must be whole,
for it changes its owner; this is the only thing that is handed from one party to another as it is.
-/
import Dataflow.Proofs.Actor.Division

set_option autoImplicit false

namespace Dataflow

/-! ## What is new changes hands -/

theorem Store.Reach.isIn {σ : Store} {t u : Term} (h : σ.Reach t u) (hσ : σ.Closed) (ht : t.In σ) : u.In σ := by
  induction h with
  | refl => exact ht
  | tail _ htouches ih => exact htouches.isIn hσ ih

namespace Ownership

open Classical in
/-- Everything in the store keeps its owner, and everything else gets a new one. -/
noncomputable def handTo (own : Ownership) (p : Party) (σ : Store) : Ownership := fun t => if t.In σ then own t else p

variable {own : Ownership} {p q : Party} {σ : Store}

theorem handTo_carries (own : Ownership) (p : Party) (hσ : σ.Closed) : σ.Carries own (own.handTo p σ) σ := by
  refine fun q t ht => ⟨ht.isIn, fun u hu hmutable => ?_⟩
  rw [handTo, if_pos (Store.Reach.isIn hu hσ ht.isIn)]
  exact ht.parts u hu hmutable

end Ownership

namespace ActorSystem.Divided

variable {own : Ownership} {p : Party} {sys : ActorSystem} {σ : Store}

/-- **Handing over**: somebody else is at work now, and everybody owns what they owned. -/
theorem handTo (h : sys.Divided own p σ) (q : Party) : sys.Divided (own.handTo q σ) q σ := by
  have hclosed := h.store.closed
  have hcarries := own.handTo_carries q hclosed
  exact
    { store :=
        { closed := hclosed
          intact := h.store.intact
          new := fun t ht => if_neg ht
          waiting := fun x ks hks k hk => hcarries.stack (h.store.waiting x ks hks k hk)
          log := fun e he => hcarries.effect hclosed (.refl σ) (h.store.log e he) }
      root := h.root
      actors := fun b hb => hcarries.actor hclosed (.refl σ) (h.actors b hb)
      clients := h.clients
      outside := fun e he => hcarries.effect hclosed (.refl σ) (h.outside e he) }

end ActorSystem.Divided

/-! ## Steps after which everybody owns what they owned -/

/-- Nobody inside is at work in the second system, and everybody owns there what they owned in the first. -/
structure ActorSystem.Preserves (own own' : Ownership) (s s' : ActorSystem × Store) : Prop where
  divided : s'.1.Divided own' none s'.2
  carries : s.2.Carries own own' s'.2
  keeps : s.2.Keeps s'.2

theorem ActorSystem.Preserves.trans {own own' own'' : Ownership} {s s' s'' : ActorSystem × Store}
    (h : Preserves own own' s s') (h' : Preserves own' own'' s' s'') : Preserves own own'' s s'' :=
  ⟨h'.divided, h.carries.trans h'.carries, h.keeps.trans h'.keeps⟩

namespace SystemM

variable {α β : Type}

/-- Whoever owns something before the step owns it after the step, however it was divided. -/
def Preserving (step : SystemM α) : Prop :=
  ∀ (own : Ownership) (s : ActorSystem × Store), s.1.Divided own none s.2 →
    ∃ own', ActorSystem.Preserves own own' s (step s).2

/-- What a party does, once it has taken over. -/
theorem Preserving.of_respecting {step : SystemM α} (p : Party)
    (h : ∀ own s, s.1.Divided own p s.2 → step.Respecting own p s fun _ _ => True) : step.Preserving := by
  intro own s hs
  have hstep := h _ s (hs.handTo p)
  have htaken := own.handTo_carries p hs.store.closed
  have hgiven := Ownership.handTo_carries (own.handTo p s.2) none hstep.passes.divided.closed
  exact ⟨_, hstep.divided.handTo none, (htaken.trans hstep.passes.respects).trans hgiven, hstep.passes.keeps⟩

theorem preserving_pure (a : α) : (pure a : SystemM α).Preserving :=
  fun own _ hs => ⟨own, hs, .refl own _, .refl _⟩

theorem Preserving.bind {step : SystemM α} {f : α → SystemM β} (h : step.Preserving) (hf : ∀ a, (f a).Preserving) :
    (step >>= f).Preserving := by
  intro own s hs
  obtain ⟨own', hfirst⟩ := h own s hs
  obtain ⟨own'', hsecond⟩ := hf (step s).1 own' (step s).2 hfirst.divided
  exact ⟨own'', hfirst.trans hsecond⟩

theorem preserving_read {f : ActorSystem → α} {g : α → SystemM β} (h : ∀ a, (g a).Preserving) :
    (read f >>= g).Preserving := fun own s hs => h (f s.1) own s hs

theorem preserving_change {f : ActorSystem → ActorSystem}
    (h : ∀ own sys σ, ActorSystem.Divided own none sys σ → (f sys).Divided own none σ) : (change f).Preserving :=
  fun own s hs => ⟨own, h own s.1 s.2 hs, .refl own s.2, .refl s.2⟩

/-! ## Turns -/

/-- **Turns** of actors, as others see them. -/
theorem preserving_turn (n : Nat) : (turn n).Preserving := .of_respecting (some n) fun _ _ hs => respecting_turn hs

theorem preserving_handleItems (n room handled : Nat) : (handleItems n room handled).Preserving :=
  .of_respecting (some n) fun _ _ hs => (respecting_handleItems hs room handled).imp fun _ _ _ => trivial

theorem preserving_runNext : runNext.Preserving := by
  refine preserving_read fun queue => ?_
  split
  · exact preserving_pure false
  · next n rest =>
    have htaken : (change fun sys => { sys with runQueue := rest }).Preserving :=
      preserving_change fun _ _ _ hs => { hs with }
    exact htaken.bind fun _ => (preserving_turn n).bind fun _ => preserving_pure true

theorem preserving_runTurns (turns : Nat) : (runTurns turns).Preserving := by
  induction turns with
  | zero => exact preserving_pure ()
  | succ turns ih => exact preserving_runNext.bind fun _ => ih

theorem preserving_pass : pass.Preserving :=
  preserving_read fun turns => (preserving_runTurns turns).bind fun _ => preserving_pure turns

theorem preserving_settlePasses (passes : Nat) : (settlePasses passes).Preserving := by
  induction passes with
  | zero => exact preserving_pure true
  | succ passes ih =>
    refine preserving_pass.bind fun turns => ?_
    split
    · exact preserving_pure false
    · exact ih

/-- Waiting for an answer is asking for it and running turns in between, and none of this takes anything away from its owner.
-/
theorem preserving_runUntilAnswered (client turns : Nat) : (runUntilAnswered client turns).Preserving := by
  induction turns with
  | zero => exact preserving_pure ()
  | succ turns ih =>
    have hanswer : (answerOf client).Preserving := fun own _ hs => ⟨own, hs, .refl own _, .refl _⟩
    refine hanswer.bind fun answer => ?_
    split
    · exact preserving_pure ()
    · refine preserving_runNext.bind fun ran => ?_
      split
      · exact ih
      · exact preserving_pure ()

theorem preserving_deliver : deliver.Preserving :=
  .of_respecting none fun _ _ hs => (respecting_deliver hs).imp fun _ _ _ => trivial

theorem preserving_shutdown : shutdown.Preserving := by
  refine (preserving_change fun own sys σ hs => ?_).bind fun _ => preserving_pass.bind fun _ => preserving_pure ()
  refine { hs with actors := fun q hq => ?_ }
  obtain ⟨⟨n, a⟩, ha, rfl⟩ := List.mem_map.mp hq
  dsimp only
  split
  · exact (hs.actors _ ha).halt
  · exact hs.actors _ ha

theorem preserving_abandon (client : Nat) : (abandon client).Preserving := by
  refine preserving_change fun own sys σ hs => { hs with clients := fun c hc v hv => ?_ }
  obtain ⟨⟨n, d⟩, hd, rfl⟩ := List.mem_map.mp hc
  refine hs.clients _ hd v ?_
  rw [← hv]
  dsimp only
  split <;> rfl

/-! ## Requests from outside -/

section Outside

variable {own : Ownership} {s : ActorSystem × Store}

theorem respecting_newReceiver (hs : s.1.Divided own none s.2) :
    (onStore Store.newReceiver).Respecting own none s fun _ _ => True := by
  have hpasses : s.2.Passes own none s.2.newReceiver.2 := hs.store.passes_quietly .newReceiver (.of_log_eq rfl rfl rfl)
    rfl (fun _ _ => rfl) fun _ _ => rfl
  exact (respecting_onStore hs hpasses).imp fun _ _ _ => trivial

theorem respecting_newAddress (hs : s.1.Divided own none s.2) (kind : String) :
    (onStore fun σ => σ.newAddress kind).Respecting own none s fun _ _ => True := by
  have hpasses : s.2.Passes own none (s.2.newAddress kind).2 := hs.store.passes_quietly
    (.newAddress kind) (.of_log_eq rfl rfl rfl) rfl (fun _ _ => rfl) fun _ _ => rfl
  exact (respecting_onStore hs hpasses).imp fun _ _ _ => trivial

/-- **Asking**: the message is complete, and the variable for the answer stays outside. -/
theorem respecting_ask (hs : s.1.Divided own none s.2) (recipient : ActorRef) {message : Value}
    (hmessage : message.Complete s.2) : (ask recipient message).Respecting own none s fun _ _ => True := by
  refine (respecting_newReceiver hs).bind fun n s₁ h₁ hs₁ _ => ?_
  refine (respecting_newAddress hs₁ "client").bind fun address s₂ h₂ hs₂ _ => ?_
  refine (respecting_freshVar hs₂).bind fun target s₃ h₃ hs₃ htarget => ?_
  have hclient : ActorSystem.Divided own none { s₃.1 with clients := s₃.1.clients ++ [(n, ({} : Client))] } s₃.2 := by
    refine { hs₃ with clients := fun c hc v hv => ?_ }
    rcases List.mem_append.mp hc with hold | hnew
    · exact hs₃.clients c hold v hv
    · obtain rfl := List.mem_singleton.mp hnew
      cases hv
  refine (respecting_change hs₃.store hclient).bind fun _ s₄ h₄ hs₄ h => ?_
  have hmessage' : message.Complete s₃.2 :=
    hmessage.keeps hs.store.closed ((h₁.keeps.trans h₂.keeps).trans h₃.keeps)
  subst h
  refine (respecting_send hs₄ recipient (e := .request message ⟨.client n, address⟩ (.var target))
    ⟨hmessage', htarget⟩).bind fun _ s₅ _ hs₅ _ => respecting_pure hs₅ trivial

end Outside

end SystemM

/-! ## Runs of the kernel -/

namespace Run

variable {α β : Type} {own : Ownership} {p : Party} {σ : Store}

/-- However a run has ended, it has passed to a divided store, and its result satisfies `Q`. -/
def Passed (own : Ownership) (p : Party) (σ : Store) (Q : α → Store → Prop) :
    EStateM.Result RuntimeError Store α → Prop
  | .ok a τ => σ.Passes own p τ ∧ Q a τ
  | .error _ τ => σ.Passes own p τ

theorem Passed.after {Q : α → Store → Prop} {τ : Store} {result : EStateM.Result RuntimeError Store α}
    (h : Passed own p τ Q result) (hστ : σ.Passes own p τ) : Passed own p σ Q result := by
  cases result with
  | ok a ρ => exact ⟨hστ.trans h.1, h.2⟩
  | error e ρ => exact hστ.trans h

/-- The run passes to a divided store. -/
def Respects (own : Ownership) (p : Party) (run : Run α) (σ : Store) (Q : α → Store → Prop) : Prop :=
  Passed own p σ Q (run σ)

/-- Runs that pass to a divided store may be done one after the other. -/
theorem Respects.bind {run : Run α} {f : α → Run β} {Q : α → Store → Prop} {R : β → Store → Prop}
    (h : run.Respects own p σ Q) (hf : ∀ a τ, σ.Passes own p τ → Q a τ → (f a).Respects own p τ R) :
    (run >>= f).Respects own p σ R := by
  rw [Respects] at h
  rw [Respects, bind_apply]
  generalize run σ = result at h
  cases result with
  | ok a τ => exact (hf a τ h.1 h.2).after h.1
  | error e τ => exact h

theorem Respects.imp {run : Run α} {Q R : α → Store → Prop} (h : run.Respects own p σ Q)
    (hQ : ∀ a τ, Q a τ → R a τ) : run.Respects own p σ R := by
  rw [Respects] at h ⊢
  generalize run σ = result at h
  cases result with
  | ok a τ => exact ⟨h.1, hQ a τ h.2⟩
  | error e τ => exact h

theorem respects_pure (hσ : σ.Divided own p) {Q : α → Store → Prop} {a : α} (h : Q a σ) :
    (pure a : Run α).Respects own p σ Q := ⟨.refl hσ, h⟩

theorem respects_throw (hσ : σ.Divided own p) {Q : α → Store → Prop} (e : RuntimeError) :
    (throw e : Run α).Respects own p σ Q := Store.Passes.refl hσ

/-- An action keeps to what belongs to whom also if it fails, so that one may forget why it has failed. -/
theorem respects_ofAction {act : Action α} {Q : α → Store → Prop} (h : act.Respects own p σ Q) :
    (ofAction act).Respects own p σ Q := by
  rw [Action.Respects] at h
  rw [Respects, ofAction]
  generalize act σ = result at h
  cases result with
  | ok a τ => exact h
  | error e τ =>
    cases e with
    | blocked x => exact h.1
    | fault f => exact h.1

end Run

namespace Store.Divided

variable {own : Ownership} {p : Party} {σ : Store}

theorem passes_newQueue (h : σ.Divided own p) : σ.Passes own p σ.newQueue.2 :=
  h.passes_shorten (σ.queues + 1) (List.Sublist.refl _)

/-- What is taken out of the log for a queue belongs to the outside. -/
theorem passes_takeWakes (h : σ.Divided own p) (queue : Nat) :
    σ.Passes own p (σ.takeWakes queue).2 ∧
      ∀ stack ∈ (σ.takeWakes queue).1, Stack.Owned own none (σ.takeWakes queue).2 stack := by
  rw [takeWakes_eq]
  -- taking continuations out of the log leaves a part of it
  have hpasses : σ.Passes own p { σ with effects := σ.effects.filter fun e => (e.wakes? queue).isNone } := by
    refine h.passes_shorten σ.queues ?_
    rw [Array.toList_filter]
    exact List.filter_sublist
  refine ⟨hpasses, fun stack hstack => hpasses.respects.stack ?_⟩
  rw [takeWakes] at hstack
  split at hstack
  · exact absurd hstack List.not_mem_nil
  -- what was woken for the queue is of nobody's part
  · obtain ⟨e, he, hwakes⟩ := List.mem_filterMap.mp hstack
    have howned := h.log e (Array.mem_toList_iff.mp he)
    unfold Effect.wakes? at hwakes
    split at hwakes
    · split at hwakes
      · cases hwakes
        exact howned
      · cases hwakes
    · cases hwakes

end Store.Divided

/-- The computations of the run are owned by the outside. -/
structure RunState.Owned (own : Ownership) (σ : Store) (s : RunState) : Prop where
  current : ∀ stack, s.current = some stack → stack.Owned own none σ
  queue : ∀ stack ∈ s.queue, Stack.Owned own none σ stack

/-- The next stack of a bounded run belongs to the outside like all the others, whether it is the current one or comes from
the queue. -/
theorem RunState.Owned.pop {own : Ownership} {σ : Store} {s s' : RunState} {stack : Stack} (h : s.Owned own σ)
    (hpop : s.pop = some (stack, s')) : stack.Owned own none σ ∧ s'.Owned own σ := by
  rw [RunState.pop] at hpop
  split at hpop
  · next hcurrent =>
    cases hpop
    exact ⟨h.current _ hcurrent, ⟨fun _ hsome => (by cases hsome), h.queue⟩⟩
  · next hqueue =>
    cases hpop
    have hstacks := List.forall_mem_cons.mp (hqueue ▸ h.queue)
    exact ⟨hstacks.1, h.current, hstacks.2⟩
  · cases hpop

namespace Kernel

variable {own : Ownership} {σ : Store}

/-- **A computation that the kernel drives** is the outside's, slice by slice. -/
theorem drive_respects (k : Kernel) (queue limit rounds : Nat) {s : RunState} (hσ : σ.Divided own none)
    (hs : s.Owned own σ) : (k.drive queue limit rounds s).Respects own none σ fun _ _ => True := by
  induction rounds generalizing s σ with
  | zero => exact Run.respects_throw hσ _
  | succ rounds ih =>
    rw [Run.Respects, drive]
    cases hpop : s.pop with
    | none =>
      dsimp only
      cases s.blockedOn σ with
      | none => exact ⟨.refl hσ, trivial⟩
      | some x => exact Store.Passes.refl hσ
    | some popped =>
      obtain ⟨stack, s⟩ := popped
      obtain ⟨hstack, hrest⟩ := hs.pop hpop
      dsimp only
      split
      · exact Store.Passes.refl hσ
      · let ctx : Context := { owner := kernelOwner, resumer := .queue queue }
        have hctx : ctx.Of none := ⟨rfl, fun a ha => by cases ha⟩
        obtain ⟨hτ, hadvice⟩ :=
          Context.compute_passes hctx (min k.config.timeSlice (limit - s.executed)) s.executed hσ hstack
        generalize ctx.compute (min k.config.timeSlice (limit - s.executed)) stack s.executed σ = result at *
        obtain ⟨advice, executed, τ⟩ := result
        obtain ⟨htaken, hwoken⟩ := hτ.divided.passes_takeWakes queue
        have hnext := hτ.trans htaken
        -- what was in the queue is still there, and what has been resumed comes behind it
        have hqueue : ∀ stack ∈ s.queue ++ (τ.takeWakes queue).1, Stack.Owned own none (τ.takeWakes queue).2 stack :=
          List.forall_mem_append.mpr ⟨fun stack hmem => hnext.respects.stack (hrest.queue stack hmem), hwoken⟩
        have hcurrent : ∀ stack, s.current = some stack → Stack.Owned own none (τ.takeWakes queue).2 stack :=
          fun stack hsome => hnext.respects.stack (hrest.current stack hsome)
        cases advice with
        | ended => exact Run.Passed.after (ih hnext.divided ⟨hcurrent, hqueue⟩) hnext
        | preempted stack =>
          refine Run.Passed.after (ih hnext.divided ⟨fun stack hsome => ?_, hqueue⟩) hnext
          exact Option.some.inj hsome ▸ htaken.respects.stack hadvice
        | waiting x => exact Run.Passed.after (ih hnext.divided ⟨hcurrent, hqueue⟩) hnext
        | halted f => exact hnext

/-- Running an instruction to its end respects the division, however many steps it is allowed to do. -/
theorem runToEnd_respects (k : Kernel) (instr : Instr) {env : Env} (limit : Nat) (hσ : σ.Divided own none)
    (henv : env.Owned own none σ) : (k.runToEnd instr env limit).Respects own none σ fun _ _ => True := by
  have hqueue : (modifyGet Store.newQueue : Run Nat).Respects own none σ fun _ _ => True := ⟨hσ.passes_newQueue, trivial⟩
  refine hqueue.bind fun queue τ hτ _ => k.drive_respects queue limit (limit + 1) hτ.divided ⟨fun stack hsome => ?_, ?_⟩
  · obtain rfl := Option.some.inj hsome
    exact Stack.Owned.push (fun f hf => absurd hf List.not_mem_nil) (hτ.respects.env henv) instr
  · exact fun stack hmem => absurd hmem List.not_mem_nil

theorem settledValue_respects (hσ : σ.Divided own none) {x : VarId} (hx : Term.Owned own none σ (.var x)) :
    (settledValue x).Respects own none σ fun v τ => v.Owned own none τ :=
  Run.respects_ofAction ((Action.settled_owned hσ hx).respects hσ fun _ hv => hv)

/-- Variables made for what the outside owns are its own. -/
theorem valueBindings_respects (hσ : σ.Divided own none) {bindings : List (Ident × Value)}
    (h : ∀ b ∈ bindings, b.2.Owned own none σ) :
    (Action.valueBindings bindings).Respects own none σ fun env τ => Env.Owned own none τ env := by
  induction bindings generalizing σ with
  | nil => exact Action.respects_pure hσ fun b hb => absurd hb List.not_mem_nil
  | cons b rest ih =>
    obtain ⟨hb, hrest⟩ := List.forall_mem_cons.mp h
    refine (Action.boundVar_respects hσ hb).bind fun y τ hτ hy => ?_
    refine (ih hτ.divided fun c hc => hτ.respects _ _ (hrest c hc)).bind fun env ρ hρ henv => ?_
    exact Action.respects_pure hρ.divided (List.forall_mem_cons.mpr ⟨hρ.respects _ _ hy, henv⟩)

/-- **Making an actor constructor**, which stays outside. -/
theorem construct_respects (k : Kernel) (instr : Instr) (x : Ident) (hσ : σ.Divided own none)
    (hroot : k.root.Owned own none σ) :
    (k.construct instr x).Respects own none σ fun c τ => Value.Owned own none τ (.proc (.actorMaker c)) := by
  refine (Run.respects_ofAction (Action.freshBindings_respects hσ [x])).bind fun bindings τ hτ hbindings => ?_
  have henv : (k.root.extend bindings).Owned own none τ := (hτ.respects.env hroot).extend hbindings
  refine (k.runToEnd_respects instr _ hτ.divided henv).bind fun _ ρ hρ _ => ?_
  have hvar : ((k.root.extend bindings).var x).Respects own none ρ fun y υ => Term.Owned own none υ (.var y) :=
    (Env.var_owned (hρ.respects.env henv) x).respects hρ.divided fun _ hy => hy
  refine (Run.respects_ofAction hvar).bind fun y υ hυ hy => ?_
  refine (settledValue_respects hυ.divided hy).bind fun v ω hω hv => ?_
  split
  · exact Run.respects_pure hω.divided hv
  · exact Run.respects_throw hω.divided _

/-- **Making a configuration**, which stays outside until an actor is spawned from it. -/
theorem configure_respects (k : Kernel) {c : ClosureId} {args : List Value} (hσ : σ.Divided own none)
    (hroot : k.root.Owned own none σ) (hc : Value.Owned own none σ (.proc (.actorMaker c)))
    (hargs : ∀ v ∈ args, v.Owned own none σ) :
    (k.configure c args).Respects own none σ fun config τ => Value.Owned own none τ (.config config) := by
  have hlook : (modifyGet fun σ => ((σ.closure c).proc.params.length - 1, σ) : Run Nat).Respects own none σ
      fun _ τ => τ = σ := ⟨.refl hσ, rfl⟩
  refine hlook.bind fun arity τ _ hτ => ?_
  subst hτ
  dsimp only
  -- too few arguments are refused before anything is bound
  split
  · exact Run.respects_throw hσ _
  · have hzip : ∀ b ∈ (SystemM.argIdents args.length).zip args, b.2.Owned own none τ :=
      fun b hb => hargs b.2 (List.of_mem_zip hb).2
    refine (Run.respects_ofAction (valueBindings_respects hσ hzip)).bind fun bound ρ hρ hbound => ?_
    have hctor : ∀ b ∈ [(("$ctor" : Ident), Value.proc (.actorMaker c))], b.2.Owned own none ρ :=
      List.forall_mem_singleton.mpr (hρ.respects _ _ hc)
    refine (Run.respects_ofAction (valueBindings_respects hρ.divided hctor)).bind fun maker υ hυ hmaker => ?_
    refine (Run.respects_ofAction (Action.fresh_respects hυ.divided)).bind fun result ω hω hresult => ?_
    have hbindings : Env.Owned own none ω (bound ++ maker ++ [("$cfg", result)]) := by
      refine List.forall_mem_append.mpr ⟨List.forall_mem_append.mpr ⟨?_, hω.respects.env hmaker⟩, ?_⟩
      · exact (hυ.trans hω).respects.env hbound
      · exact List.forall_mem_singleton.mpr hresult
    have henv := (((hρ.trans hυ).trans hω).respects.env hroot).extend hbindings
    refine (k.runToEnd_respects _ _ hω.divided henv).bind fun _ χ hχ _ => ?_
    refine (settledValue_respects hχ.divided (hχ.respects _ _ hresult)).bind fun v ψ hψ hv => ?_
    split
    · exact Run.respects_pure hψ.divided hv
    · exact Run.respects_throw hψ.divided _

end Kernel

end Dataflow
