/-
Computations keep complete values whole.

Whatever is to be complete is completed first: the message of a request or notification, the arguments of a
configuration, and a value that is thrown. The value of a failure is such a thrown value, or the record that describes
a fault, or the value of another failure.

`Keeping` says of an action in a closed and intact store what `Safe` says, and that the store is intact afterwards,
however the action ends. Quiet actions are keeping because what is whole stays whole; the others are looked at one by
one.
-/
import Dataflow.Proofs.CompletionWalk
import Dataflow.Proofs.Execution
import Dataflow.Proofs.Quiet

set_option autoImplicit false

namespace Dataflow

theorem Store.Rebuilds.quiet {σ τ : Store} (h : σ.Rebuilds τ) : σ.Quiet τ := by
  obtain ⟨rs, rfl⟩ := h
  exact .of_log_eq rfl rfl rfl

/-! ## Actions that keep a store intact -/

namespace Action

variable {α β : Type} {σ : Store} {act : Action α} {f : α → Action β}

/-- The action changes the store by deeds and leaves it intact, its result satisfies `Q`, and what it waits for is
unbound. -/
def Keeping (act : Action α) (σ : Store) (Q : α → Store → Prop) : Prop :=
  match act σ with
  | .ok a τ => σ.Deeds τ ∧ τ.Intact ∧ Q a τ
  | .error e τ => σ.Deeds τ ∧ τ.Intact ∧ e.In τ

/-- What is safe and quiet keeps the store intact. -/
theorem Safe.keeping {Q : α → Store → Prop} {R : α → Prop} (h : act.Safe σ Q) (hquiet : act.Quiet R)
    (hσ : σ.Closed) (hintact : σ.Intact) : act.Keeping σ fun a τ => Q a τ ∧ R a := by
  have hchange := hquiet σ
  rw [Safe] at h
  rw [Keeping]
  generalize act σ = result at h hchange
  cases result with
  | ok a τ => exact ⟨h.1, hchange.1.intact hintact hσ (h.1.evolves.keeps hσ), h.2, hchange.2⟩
  | error e τ => exact ⟨h.1, hchange.intact hintact hσ (h.1.evolves.keeps hσ), h.2⟩

theorem Keeping.imp {Q R : α → Store → Prop} (h : act.Keeping σ Q) (hQ : ∀ a τ, Q a τ → R a τ) :
    act.Keeping σ R := by
  rw [Keeping] at h ⊢
  generalize act σ = result at h
  cases result with
  | ok a τ => exact ⟨h.1, h.2.1, hQ a τ h.2.2⟩
  | error e τ => exact h

/-- What only reads can be followed by anything. -/
theorem Reads.bind_keeping {Q : α → Prop} {R : β → Store → Prop} (h : act.Reads σ Q) (hintact : σ.Intact)
    (hf : ∀ a, Q a → (f a).Keeping σ R) : (act >>= f).Keeping σ R := by
  rw [Reads] at h
  rw [Keeping, bind_apply]
  generalize act σ = result at h
  cases result with
  | ok a τ =>
    obtain ⟨rfl, hQ⟩ := h
    exact hf a hQ
  | error e τ =>
    obtain ⟨rfl, he⟩ := h
    exact ⟨.refl, hintact, he⟩

/-- What keeps a store intact composes. What follows may rely on an intact store that has evolved from the first one. -/
theorem Keeping.bind {Q : α → Store → Prop} {R : β → Store → Prop} (h : act.Keeping σ Q) (hσ : σ.Closed)
    (hf : ∀ a τ, σ.Keeps τ → τ.Closed → τ.Intact → Q a τ → (f a).Keeping τ R) : (act >>= f).Keeping σ R := by
  rw [Keeping] at h
  rw [Keeping, bind_apply]
  generalize act σ = result at h
  cases result with
  | ok a τ =>
    have hnext := hf a τ (h.1.evolves.keeps hσ) (h.1.closed hσ) h.2.1 h.2.2
    simp only [Keeping] at hnext ⊢
    generalize f a τ = last at hnext
    cases last with
    | ok b ρ => exact ⟨h.1.trans hnext.1, hnext.2⟩
    | error e ρ => exact ⟨h.1.trans hnext.1, hnext.2⟩
  | error e τ => exact h

theorem keeping_pure {Q : α → Store → Prop} {a : α} (hintact : σ.Intact) (h : Q a σ) :
    (pure a : Action α).Keeping σ Q := ⟨.refl, hintact, h⟩

theorem keeping_fault {Q : α → Store → Prop} (g : Fault) (hintact : σ.Intact) :
    (fault g : Action α).Keeping σ Q := ⟨.refl, hintact, trivial⟩

/-- **Completing** gives a whole value. -/
theorem complete_keeping (hσ : σ.Closed) (hintact : σ.Intact) {t : Term} (ht : t.In σ) :
    (complete t).Keeping σ fun v τ => v.In τ ∧ τ.Whole (.val v) := by
  have hsafe := complete_safe hσ ht
  have hcompletes := complete_completes hσ hintact ht
  rw [Safe] at hsafe
  rw [Completes] at hcompletes
  rw [Keeping]
  generalize complete t σ = result at hsafe hcompletes
  cases result with
  | ok v τ =>
    exact ⟨hsafe.1, hcompletes.1.quiet.intact hintact hσ hcompletes.1.keeps, hsafe.2, hcompletes.2⟩
  | error e τ => exact ⟨hsafe.1, hcompletes.quiet.intact hintact hσ hcompletes.keeps, hsafe.2⟩

/-- A configuration of whole arguments. -/
theorem newConfig_keeping (hσ : σ.Closed) (hintact : σ.Intact) {c : ActorConfig} (hc : c.In σ)
    (hwhole : ∀ v ∈ c.args, σ.Whole (.val v)) :
    (take fun σ => σ.newConfig c).Keeping σ fun k τ => Value.In τ (.config k) := by
  have hdeed : σ.Deeds (σ.newConfig c).2 := .single (.table (.newConfig hc) rfl rfl)
  have hkeeps := hdeed.evolves.keeps hσ
  refine ⟨hdeed, hintact.of_keeps hσ hkeeps (fun _ => .inl) (fun d hd => ?_) fun _ _ => .inl, ?_⟩
  · rcases Array.mem_push.mp hd with hold | rfl
    · exact .inl hold
    · exact .inr fun v hv => (hwhole v hv).keeps hσ (hc.1 v hv) hkeeps
  · simp [Value.In]

/-- An envelope with a whole value. -/
theorem send_keeping (hσ : σ.Closed) (hintact : σ.Intact) (recipient : ActorRef) {e : Envelope} (he : e.In σ)
    (hcall : e.IsCall) (hwhole : σ.Whole (.val e.payload)) :
    (ActorProc.send recipient e).Keeping σ fun _ _ => True := by
  have hdeed : σ.Deeds (σ.emit (.send recipient e)) := .single (.send recipient he hcall)
  have hkeeps := hdeed.evolves.keeps hσ
  refine ⟨hdeed, hintact.of_keeps hσ hkeeps (fun _ => .inl) (fun _ => .inl) fun r g hg => ?_, trivial⟩
  rcases Array.mem_push.mp hg with hold | hnew
  · exact .inl hold
  · cases hnew
    exact .inr (hwhole.keeps hσ (e.payload_in he) hkeeps)

end Action

/-! ## Procedures -/

section Procedures

variable {σ : Store} {env : Env} {rest : Stack}

/-- Completing operands keeps the store intact, and the values are whole. They stay whole while the later ones are completed.
-/
theorem Operand.completes_keeping (hσ : σ.Closed) (hintact : σ.Intact) (henv : env.In σ) (args : List Operand) :
    (completes env args).Keeping σ fun vs τ => ∀ v ∈ vs, v.In τ ∧ τ.Whole (.val v) := by
  induction args generalizing σ with
  | nil => exact Action.keeping_pure hintact fun v hv => absurd hv List.not_mem_nil
  | cons a rest ih =>
    refine (a.term_reads hσ henv).bind_keeping hintact fun t ht => ?_
    refine (Action.complete_keeping hσ hintact ht.isIn).bind hσ fun v τ hστ hτ hintact hv => ?_
    refine (ih hτ hintact (hστ.grows.env henv)).bind hτ fun vs ρ hτρ _ hintact hvs => ?_
    have hv' : v.In ρ ∧ ρ.Whole (.val v) := ⟨hτρ.grows.value hv.1, hv.2.keeps hτ hv.1 hτρ⟩
    exact Action.keeping_pure hintact (List.forall_mem_cons.mpr ⟨hv', hvs⟩)

theorem Operand.deliver_keeping (hσ : σ.Closed) (hintact : σ.Intact) (henv : env.In σ) (a : Operand) {v : Value}
    (hv : v.In σ) : (a.deliver env v).Keeping σ fun _ _ => True :=
  ((a.deliver_safe hσ henv hv).keeping ((a.uses_deliver env v).quiet rfl) hσ hintact).imp fun _ _ _ => trivial

/-- Applying an actor constructor keeps the store intact: a configuration is made of whole arguments. -/
theorem construct_keeping (hσ : σ.Closed) (hintact : σ.Intact) (henv : env.In σ) {c : ClosureId}
    (hc : c < σ.closures.size) (args : List Operand) : (construct c env args).Keeping σ fun _ _ => True := by
  refine (Action.reads_look _).bind_keeping hintact fun params _ => ?_
  split
  · exact Action.keeping_fault _ hintact
  · next target _ =>
    dsimp only
    split
    · exact Action.keeping_fault _ hintact
    · refine (Operand.completes_keeping hσ hintact henv _).bind hσ fun values τ hστ hτ hintact hvalues => ?_
      have hmaker : Value.In τ (.proc (.actorMaker c)) := hστ.grows.value (v := .proc (.actorMaker c)) hc
      have hconfig : ActorConfig.In τ ⟨values, c⟩ := ⟨fun v hv => (hvalues v hv).1, hmaker⟩
      refine (Action.newConfig_keeping hτ hintact hconfig fun v hv => (hvalues v hv).2).bind hτ
        fun k ρ hτρ hρ hintact hk => ?_
      exact target.deliver_keeping hρ hintact ((hστ.trans hτρ).grows.env henv) hk

/-- A call of an actor keeps the store intact: what is sent has been completed before. -/
theorem ActorProc.call_keeping (hσ : σ.Closed) (hintact : σ.Intact) (henv : env.In σ) (ctx : Context) (a : ActorRef)
    (p : ActorProc) (args : List Operand) : (p.call ctx a env args).Keeping σ fun _ _ => True := by
  unfold ActorProc.call
  split
  -- a question, which needs an actor that asks it, and another one that is asked
  · next message target =>
    split
    · exact Action.keeping_fault _ hintact
    · next requester =>
      split
      · exact Action.keeping_fault _ hintact
      · refine (message.term_reads hσ henv).bind_keeping hintact fun m hm => ?_
        refine (Action.complete_keeping hσ hintact hm.isIn).bind hσ fun v τ hστ hτ hintact hv => ?_
        refine (target.term_reads hτ (hστ.grows.env henv)).bind_keeping hintact fun t ht => ?_
        exact Action.send_keeping hτ hintact a ⟨hv.1, ht.isIn⟩ trivial hv.2
  -- a notification
  · next message =>
    refine (message.term_reads hσ henv).bind_keeping hintact fun m hm => ?_
    refine (Action.complete_keeping hσ hintact hm.isIn).bind hσ fun v τ hστ hτ hintact hv => ?_
    exact Action.send_keeping hτ hintact a hv.1 trivial hv.2
  · exact Action.keeping_fault _ hintact
  · exact Action.keeping_fault _ hintact

/-- What is done at once goes on with what was to be done after it. -/
theorem Action.Keeping.andThen {act : Action Unit} (h : act.Keeping σ fun _ _ => True) (hσ : σ.Closed)
    (hrest : rest.In σ) : (act >>= fun _ => pure rest).Keeping σ fun stack τ => stack.In τ :=
  h.bind hσ fun _ _ hστ _ hintact _ => Action.keeping_pure hintact (hστ.grows.stack hrest)

/-- A call of any procedure keeps the store intact. -/
theorem Proc.call_keeping (hσ : σ.Closed) (hintact : σ.Intact) (henv : env.In σ) (hrest : rest.In σ) (ctx : Context)
    (args : List Operand) {p : Proc} (hp : p.In σ) :
    (p.call ctx env args rest).Keeping σ fun stack τ => stack.In τ := by
  -- most procedures write nothing to the log that would have to be whole, and make no configurations
  have hquiet : Action.Kind.avoids p.steps [.config, .send] = true →
      (p.call ctx env args rest).Keeping σ fun stack τ => stack.In τ := fun hsteps =>
    ((Proc.call_safe hσ henv hrest ctx args hp).keeping ((p.uses_call ctx env args rest).quiet hsteps) hσ hintact).imp
      fun _ _ h => h.1
  cases p with
  | ofActor a q => exact (q.call_keeping hσ hintact henv ctx a args).andThen hσ hrest
  | actorMaker c => exact (construct_keeping hσ hintact henv hp args).andThen hσ hrest
  | native n => exact hquiet (by cases n <;> rfl)
  | closure | ofCell | iter => exact hquiet rfl

/-- Whatever is called, the store stays intact. -/
theorem Value.call_keeping (hσ : σ.Closed) (hintact : σ.Intact) (henv : env.In σ) (hrest : rest.In σ) (ctx : Context)
    (args : List Operand) {v : Value} (hv : v.In σ) :
    (v.call ctx env args rest).Keeping σ fun stack τ => stack.In τ := by
  unfold Value.call
  split
  · exact Proc.call_keeping hσ hintact henv hrest ctx args hv
  · exact Action.keeping_fault _ hintact
  · exact (Action.reads_look _).bind_keeping hintact fun _ _ => Action.keeping_fault _ hintact

end Procedures

/-! ## Instructions -/

section Computations

variable {σ τ : Store} {env : Env} {rest stack : Stack}

/-- A thrown value is whole. -/
def Flow.Whole (σ : Store) : Flow → Prop
  | .next _ => True
  | .throw v _ => σ.Whole (.val v)

/-- **Every instruction keeps the store intact**, and throws whole values. -/
theorem Context.execute_keeping (hσ : σ.Closed) (hintact : σ.Intact) (henv : env.In σ) (hrest : rest.In σ)
    (ctx : Context) (instr : Instr) :
    (ctx.execute env rest instr).Keeping σ fun flow τ => flow.In τ ∧ flow.Whole τ := by
  have hplain : instr.Plain → (ctx.execute env rest instr).Keeping σ fun flow τ => flow.In τ ∧ flow.Whole τ := by
    intro h
    have hexecute := (ctx.execute_safe hσ henv hrest instr).keeping (ctx.quiet_execute env rest h) hσ hintact
    refine hexecute.imp fun flow τ hflow => ⟨hflow.1, ?_⟩
    cases flow with
    | next _ => trivial
    | throw _ _ => exact hflow.2.elim
  -- a call goes on, and so cannot throw anything itself
  have hcall : ∀ v : Value, v.In σ → ∀ args,
      (v.call ctx env args rest >>= fun stack => pure (Flow.next stack)).Keeping σ fun flow τ =>
        flow.In τ ∧ flow.Whole τ := fun v hv args =>
    (Value.call_keeping hσ hintact henv hrest ctx args hv).bind hσ fun stack τ _ _ hintact hstack =>
      Action.keeping_pure hintact ⟨hstack, trivial⟩
  cases instr with
  | throw value =>
    refine (value.term_reads hσ henv).bind_keeping hintact fun t ht => ?_
    refine (Action.complete_keeping hσ hintact ht.isIn).bind hσ fun v τ _ _ hintact hv => ?_
    exact Action.keeping_pure hintact hv
  | apply proc args =>
    exact (proc.value_reads hσ henv).bind_keeping hintact fun v hv => hcall v hv args
  | selectApply record feature args =>
    refine (Env.select_reads hσ henv record feature).bind_keeping hintact fun t ht => ?_
    refine (Action.reads_resolve hσ ht).bind_keeping hintact fun u hu => ?_
    cases u with
    | var x => exact ⟨.refl, hintact, hu⟩
    | val v => exact hcall v hu args
  | _ => exact hplain trivial

/-! ## Steps and slices -/

/-- A failure with a whole value. -/
theorem Store.Intact.newFailure (hintact : σ.Intact) (hσ : σ.Closed) {f : Failure} (hf : f.In σ)
    (hwhole : σ.Whole (.val f.error)) : (σ.newFailure f).2.Intact := by
  have hstep : Store.Step σ (σ.newFailure f).2 := .table (.newFailure hf)
  have hkeeps := (Store.Evolves.single hstep).keeps hσ
  refine hintact.of_keeps hσ hkeeps (fun g hg => ?_) (fun _ => .inl) fun _ _ => .inl
  rcases Array.mem_push.mp hg with hold | rfl
  · exact .inl hold
  · exact .inr (hwhole.keeps hσ hf hkeeps)

/-- Throwing keeps the store intact. What is thrown to the outside becomes a failure, and so it has to be whole. -/
theorem unwind_intact (hintact : σ.Intact) (hσ : σ.Closed) (owner : Address) (cause : Option Fault) {v : Value}
    (hv : v.In σ) (hwhole : σ.Whole (.val v)) : (unwind owner v cause stack σ).2.Intact := by
  -- frames are dropped down to the innermost trap
  induction stack with
  | nil => exact hintact.newFailure hσ hv hwhole
  | cons f rest ih =>
    cases f with
    | run instr env => exact ih
    | trap caught handler env =>
      have hstep : Store.Step σ (σ.newVar (.bound v)).2 := .var (.newVar nofun hv)
      have hquiet : σ.Quiet (σ.newVar (.bound v)).2 := .of_log_eq rfl rfl rfl
      exact hquiet.intact hintact hσ ((Store.Evolves.single hstep).keeps hσ)

/-- The record that describes a fault is whole, as its fields are literals. -/
theorem Fault.toValue_whole (f : Fault) (σ : Store) : Store.Whole (f.toValue σ).2 (.val (f.toValue σ).1) := by
  refine Store.whole_record fun field hfield => ?_
  have hrecord : (f.toValue σ).2.record σ.records.size = f.record σ := by
    simp [toValue, Store.newRecord, Store.record]
  simp only [hrecord, record, List.mem_cons, List.not_mem_nil, or_false] at hfield
  rcases hfield with rfl | rfl
  · exact Store.whole_lit _ _
  · exact Store.whole_lit _ _

/-- Describing a fault makes a record. -/
theorem Fault.toValue_intact (hintact : σ.Intact) (hσ : σ.Closed) (f : Fault) :
    (f.toValue σ).2.Closed ∧ (f.toValue σ).2.Intact ∧ (f.toValue σ).1.In (f.toValue σ).2 := by
  have hmade := Action.newRecord_safe (f.record_in σ)
  have hrebuilds := Store.Rebuilds.newRecord σ (f.record σ)
  exact ⟨hmade.1.closed hσ, hrebuilds.quiet.intact hintact hσ hrebuilds.keeps, hmade.2⟩

theorem Store.Intact.failWith (hintact : σ.Intact) (hσ : σ.Closed) (owner : Address) (f : Fault) :
    (σ.failWith owner f).2.Intact := by
  obtain ⟨hclosed, hmade, hin⟩ := f.toValue_intact hintact hσ
  exact hmade.newFailure hclosed hin (f.toValue_whole σ)

/-- The error that is thrown for a fault leaves the store intact. -/
theorem raise_intact (hintact : σ.Intact) (hσ : σ.Closed) (owner : Address) (f : Fault) :
    (raise owner f stack σ).2.Intact := by
  cases f with
  -- what a failure failed with is thrown again
  | failedValue g => exact unwind_intact hintact hσ owner _ (hσ.failure g) (hintact.failure g)
  | _ =>
    obtain ⟨hclosed, hmade, hin⟩ := Fault.toValue_intact hintact hσ _
    exact unwind_intact hmade hclosed owner _ hin (Fault.toValue_whole _ σ)

/-- Beginning to wait is quiet. -/
theorem Store.Intact.suspend (hintact : σ.Intact) (hσ : σ.Closed) {x : VarId} {k : Continuation} (hx : x < σ.vars.size)
    (hk : k.In σ) : (σ.suspend x k).2.Intact := by
  rw [Store.suspend]
  split
  · next y hy =>
    have hstep : Store.Step σ (σ.park y k) := .var (.park (unbound_of_resolveVar hσ.linked hx hy) hk)
    have hquiet : σ.Quiet (σ.park y k) := .of_log_eq rfl rfl rfl
    exact hquiet.intact hintact hσ ((Store.Evolves.single hstep).keeps hσ)
  · exact hintact

/-- A step keeps the store intact, whether the instruction is executed, throws, fails or has to wait. -/
theorem Context.step_intact (hintact : σ.Intact) (hσ : σ.Closed) (henv : env.In σ) (hrest : rest.In σ) (ctx : Context)
    (instr : Instr) : (ctx.step instr env rest σ).2.Intact := by
  have hexecute := ctx.execute_keeping hσ hintact henv hrest instr
  rw [Action.Keeping] at hexecute
  rw [Context.step]
  generalize ctx.execute env rest instr σ = result at hexecute
  cases result with
  | ok flow τ =>
    obtain ⟨hdeeds, hτ, hin, hwhole⟩ := hexecute
    cases flow with
    | next stack => exact hτ
    | throw v cause => exact unwind_intact hτ (hdeeds.closed hσ) ctx.owner cause hin hwhole
  | error e τ =>
    obtain ⟨hdeeds, hτ, he⟩ := hexecute
    have hclosed := hdeeds.closed hσ
    cases e with
    | fault f => exact raise_intact hτ hclosed ctx.owner f
    -- what is parked is the whole stack, with the instruction that has to wait in front
    | blocked x =>
      have hx : τ.Unbound x := he
      have hk : Continuation.In τ ⟨.run instr env :: rest, ctx.resumer⟩ :=
        (hdeeds.grows.stack hrest).push (hdeeds.grows.env henv) instr
      have hsuspend := hτ.suspend hclosed hx.lt_size hk
      dsimp only
      rw [Store.suspend_of_var hx.resolveVar] at hsuspend ⊢
      exact hsuspend

/-- **A slice keeps the store intact.** -/
theorem Context.compute_intact (ctx : Context) (slice executed : Nat) (hintact : σ.Intact) (hσ : σ.Closed)
    (hstack : stack.In σ) : (ctx.compute slice stack executed σ).store.Intact := by
  -- on the number of instructions that may still be executed
  induction slice generalizing stack executed σ with
  | zero =>
    rw [Context.compute]
    cases hnext : next? stack with
    | none => exact hintact
    | some p => exact hintact
  | succ slice ih =>
    rw [Context.compute]
    cases hnext : next? stack with
    | none => exact hintact
    | some p =>
      obtain ⟨henv, hrest⟩ := next?_in hstack hnext
      have hfollows := ctx.step_follows hσ henv hrest p.1
      have hstep := ctx.step_intact hintact hσ henv hrest p.1
      dsimp only
      generalize ctx.step p.1 p.2.1 p.2.2 σ = result at hfollows hstep
      obtain ⟨outcome, τ⟩ := result
      cases outcome with
      | next stack => exact ih (executed + 1) hstep (hfollows.evolves.closed hσ) hfollows.isIn
      | waiting x => exact hstep
      | halted f => exact hstep

end Computations

end Dataflow
