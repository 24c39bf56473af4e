/-
Making actors: the computations that the kernel runs itself are work outside of the actors.

Before there is an actor, its constructor and its configuration are computed. The kernel runs these computations to their
end, slice by slice; they may wait, and when they are resumed the kernel finds them in the log. However they end, all that
they do is work that no activity does (`Run.Works`), so that making actors is a part of every run.
-/
import Dataflow.Proofs.Actor.Outside

set_option autoImplicit false

namespace Dataflow

/-! ## Work grows the store -/

namespace Store

variable {σ τ : Store}

theorem Outside.grows (h : σ.Outside τ) : σ.Grows τ := by
  cases h with
  | deed h => exact Deeds.grows (.single h)
  | waits hx hk _ => exact Evolves.grows (.single (.var (.park hx hk)))
  | newQueue => exact Grows.shorten σ (σ.queues + 1) σ.effects
  | takeWakes queue =>
    rw [takeWakes_eq]
    exact Grows.shorten σ σ.queues _

/-- Whatever the outside does to a store keeps it closed. Queues only get longer in number, and the log shorter. -/
theorem Outside.closed (h : σ.Outside τ) (hσ : σ.Closed) : τ.Closed := by
  cases h with
  | deed h => exact Deeds.closed (.single h) hσ
  | waits hx hk _ => exact Evolves.closed (.single (.var (.park hx hk))) hσ
  | newQueue => exact hσ.shorten (σ.queues + 1) (List.Sublist.refl _)
  | takeWakes queue =>
    rw [takeWakes_eq]
    refine hσ.shorten σ.queues ?_
    rw [Array.toList_filter]
    exact List.filter_sublist

theorem OutsideMany.grows (h : σ.OutsideMany τ) : σ.Grows τ := by
  induction h with
  | refl => exact .refl σ
  | tail _ hstep ih => exact ih.trans hstep.grows

theorem OutsideMany.closed (h : σ.OutsideMany τ) (hσ : σ.Closed) : τ.Closed := by
  induction h with
  | refl => exact hσ
  | tail _ hstep ih => exact hstep.closed ih

theorem Deeds.outside (h : σ.Deeds τ) : σ.OutsideMany τ := Relation.ReflTransGen.mono (fun _ _ h => .deed h) _ _ h

/-- What an instruction leaves is work outside of the actors if it has not been run for an activity. -/
theorem Leaves.outside {r : Resumer} {w : Option VarId} (h : Leaves r σ τ w) (hr : r.isActivity = false) :
    σ.OutsideMany τ := by
  cases h with
  | going h => exact h.outside
  | waiting h hx hk hkr hτ => exact h.outside.tail (hτ ▸ .waits hx hk (hkr ▸ hr))

/-- Whatever is in the log is in the store. -/
theorem Closed.takeWakes (hσ : σ.Closed) (queue : Nat) : ∀ stack ∈ (σ.takeWakes queue).1, stack.In σ := by
  intro stack hstack
  rw [Store.takeWakes] at hstack
  split at hstack
  · exact absurd hstack List.not_mem_nil
  · obtain ⟨e, he, hwakes⟩ := List.mem_filterMap.mp hstack
    have hin := hσ.effects e (Array.mem_toList_iff.mp he)
    cases e with
    | wake r ks =>
      cases r with
      | queue m =>
        rw [Effect.wakes?] at hwakes
        split at hwakes
        · exact Option.some.inj hwakes ▸ hin
        · cases hwakes
      | tag _ | activity _ _ => cases hwakes
    | send _ _ | spawn _ _ _ => cases hwakes

end Store

/-! ## Runs of the kernel -/

namespace Run

variable {α β : Type} {σ : Store} {Q : α → Store → Prop} {R : β → Store → Prop}

/-- All that has been done since `σ` is work outside of the actors, and the result, if there is one, satisfies `Q`. -/
def Ended (σ : Store) (Q : α → Store → Prop) : EStateM.Result RuntimeError Store α → Prop
  | .ok a τ => σ.OutsideMany τ ∧ Q a τ
  | .error _ τ => σ.OutsideMany τ

theorem Ended.after {τ : Store} {result : EStateM.Result RuntimeError Store α} (h : Ended τ Q result)
    (hwork : σ.OutsideMany τ) : Ended σ Q result := by
  cases result with
  | ok a ρ => exact ⟨hwork.trans h.1, h.2⟩
  | error e ρ => exact hwork.trans h

/-- All that the run does is work outside of the actors, also if it ends with an error, and its result satisfies `Q`. -/
def Works (run : Run α) (σ : Store) (Q : α → Store → Prop) : Prop := Ended σ Q (run σ)

theorem works_pure {a : α} (h : Q a σ) : (pure a : Run α).Works σ Q := ⟨.refl, h⟩

theorem works_throw (e : RuntimeError) : (throw e : Run α).Works σ Q := .refl

/-- An action that is safe can be run from outside, whether it fails or not. -/
theorem works_ofAction {act : Action α} (h : act.Safe σ Q) : (ofAction act).Works σ Q := by
  rw [Action.Safe] at h
  rw [Works, ofAction]
  generalize act σ = result at h
  cases result with
  | ok a τ => exact ⟨h.1.outside, h.2⟩
  | error e τ =>
    cases e with
    | blocked x => exact h.1.outside
    | fault f => exact h.1.outside

theorem Works.bind {run : Run α} {f : α → Run β} (h : run.Works σ Q) (hσ : σ.Closed)
    (hf : ∀ a τ, σ.Grows τ → τ.Closed → Q a τ → (f a).Works τ R) : (run >>= f).Works σ R := by
  rw [Works] at h
  rw [Works, bind_apply]
  generalize run σ = result at h
  cases result with
  | ok a τ => exact (hf a τ h.1.grows (h.1.closed hσ) h.2).after h.1
  | error e τ => exact h

end Run

/-- The computations of the run are in the store. -/
def RunState.In (σ : Store) (s : RunState) : Prop :=
  (∀ stack, s.current = some stack → stack.In σ) ∧ ∀ stack ∈ s.queue, stack.In σ

/-- The next stack of a bounded run is in the store like all the others, whether it is the current one or comes from the
queue. -/
theorem RunState.In.pop {σ : Store} {s s' : RunState} {stack : Stack} (h : s.In σ) (hpop : s.pop = some (stack, s')) :
    stack.In σ ∧ s'.In σ := by
  rw [RunState.pop] at hpop
  split at hpop
  · next hcurrent =>
    cases hpop
    exact ⟨h.1 _ hcurrent, nofun, h.2⟩
  · next hqueue =>
    cases hpop
    have hstacks := List.forall_mem_cons.mp (hqueue ▸ h.2)
    exact ⟨hstacks.1, h.1, hstacks.2⟩
  · cases hpop

namespace Kernel

variable {σ : Store}

/-- **A computation that the kernel drives** works outside of the actors. -/
theorem drive_works (k : Kernel) (queue limit rounds : Nat) {s : RunState} (hσ : σ.Closed) (hs : s.In σ) :
    (k.drive queue limit rounds s).Works σ fun _ _ => True := by
  induction rounds generalizing s σ with
  | zero => exact Run.works_throw _
  | succ rounds ih =>
    rw [Run.Works, drive]
    cases hpop : s.pop with
    | none =>
      dsimp only
      cases s.blockedOn σ with
      | none => exact ⟨.refl, trivial⟩
      | some x => exact .refl
    | some p =>
      obtain ⟨stack, s⟩ := p
      obtain ⟨hstack, hrest⟩ := hs.pop hpop
      dsimp only
      split
      · exact .refl
      · let ctx : Context := { owner := kernelOwner, resumer := .queue queue }
        obtain ⟨hleaves, hadvice⟩ := ctx.compute_leaves (min k.config.timeSlice (limit - s.executed)) s.executed hσ hstack
        generalize ctx.compute (min k.config.timeSlice (limit - s.executed)) stack s.executed σ = result at *
        obtain ⟨advice, executed, τ⟩ := result
        have hcomputed : σ.OutsideMany τ := hleaves.outside rfl
        have hwork : σ.OutsideMany (τ.takeWakes queue).2 := hcomputed.tail (.takeWakes queue)
        have hgrows : τ.Grows (τ.takeWakes queue).2 := Store.Outside.grows (.takeWakes queue)
        -- what was in the queue is still there, and what has been resumed comes behind it
        have hqueue : ∀ stack ∈ s.queue ++ (τ.takeWakes queue).1, stack.In (τ.takeWakes queue).2 := by
          intro stack hmem
          rcases List.mem_append.mp hmem with hmem | hmem
          · exact hwork.grows.stack (hrest.2 stack hmem)
          · exact hgrows.stack ((hcomputed.closed hσ).takeWakes queue stack hmem)
        have hcurrent : ∀ stack, s.current = some stack → stack.In (τ.takeWakes queue).2 :=
          fun stack hsome => hwork.grows.stack (hrest.1 stack hsome)
        have hclosed := hwork.closed hσ
        cases advice with
        | ended =>
          refine Run.Ended.after (ih hclosed ?_) hwork
          exact ⟨hcurrent, hqueue⟩
        | preempted stack =>
          refine Run.Ended.after (ih hclosed ?_) hwork
          exact ⟨fun stack hsome => Option.some.inj hsome ▸ hgrows.stack hadvice, hqueue⟩
        | waiting x =>
          refine Run.Ended.after (ih hclosed ?_) hwork
          exact ⟨hcurrent, hqueue⟩
        | halted f => exact hwork

/-- Running an instruction to its end is work outside of the actors, however many steps it is allowed to do. -/
theorem runToEnd_works (k : Kernel) (instr : Instr) {env : Env} (limit : Nat) (hσ : σ.Closed) (henv : env.In σ) :
    (k.runToEnd instr env limit).Works σ fun _ _ => True := by
  have hqueue : (modifyGet Store.newQueue : Run Nat).Works σ fun _ _ => True := ⟨.single .newQueue, trivial⟩
  refine hqueue.bind hσ fun queue τ hgrows hτ _ => k.drive_works queue limit (limit + 1) hτ ⟨fun stack hsome => ?_, ?_⟩
  · obtain rfl := Option.some.inj hsome
    exact Stack.In.push (fun f hf => absurd hf List.not_mem_nil) (hgrows.env henv) instr
  · exact fun stack hmem => absurd hmem List.not_mem_nil

theorem settledValue_works (hσ : σ.Closed) {x : VarId} (hx : x < σ.vars.size) :
    (settledValue x).Works σ fun v τ => v.In τ :=
  Run.works_ofAction ((Action.settled_reads (t := .var x) hσ hx).safe fun _ hv => hv)

/-- An actor constructor that has been computed is in the store. -/
theorem construct_works (k : Kernel) (instr : Instr) (x : Ident) (hσ : σ.Closed) (hroot : k.root.In σ) :
    (k.construct instr x).Works σ fun c τ => c < τ.closures.size := by
  refine (Run.works_ofAction (Action.freshBindings_safe hσ [x])).bind hσ fun bindings τ hστ hτ hbindings => ?_
  have henv : (k.root.extend bindings).In τ := Env.In.extend (hστ.env hroot) hbindings
  refine (k.runToEnd_works instr _ hτ henv).bind hτ fun _ ρ hτρ hρ _ => ?_
  have hvar := (Env.var_reads (hτρ.env henv) x).safe (R := fun y ρ => y < ρ.vars.size) fun _ hy => hy
  refine (Run.works_ofAction hvar).bind hρ fun y υ _ hυ hy => ?_
  refine (settledValue_works hυ hy).bind hυ fun v ω _ _ hv => ?_
  split
  · exact Run.works_pure hv
  · exact Run.works_throw _

end Kernel

theorem Action.valueBindings_safe {σ : Store} (hσ : σ.Closed) {l : List (Ident × Value)} (h : ∀ p ∈ l, p.2.In σ) :
    (valueBindings l).Safe σ fun bindings τ => Env.In τ bindings := by
  induction l generalizing σ with
  | nil => exact safe_pure fun p hp => absurd hp List.not_mem_nil
  | cons p l ih =>
    obtain ⟨hp, hl⟩ := List.forall_mem_cons.mp h
    refine (boundVar_safe hp).bind hσ fun y τ hστ hτ hy => ?_
    refine (ih hτ fun q hq => hστ.value (hl q hq)).bind hτ fun bindings ρ hτρ _ hbindings => ?_
    exact safe_pure (List.forall_mem_cons.mpr ⟨Nat.lt_of_lt_of_le hy hτρ.vars, hbindings⟩)

/-- A configuration that has been computed is in the store. -/
theorem Kernel.configure_works {σ : Store} (k : Kernel) {c : ClosureId} {args : List Value} (hσ : σ.Closed)
    (hroot : k.root.In σ) (hc : c < σ.closures.size) (hargs : ∀ v ∈ args, v.In σ) :
    (k.configure c args).Works σ fun config τ => config < τ.configs.size := by
  have hlook : (modifyGet fun σ => ((σ.closure c).proc.params.length - 1, σ) : Run Nat).Works σ
      fun _ τ => τ = σ := ⟨.refl, rfl⟩
  refine hlook.bind hσ fun arity τ _ _ hτ => ?_
  subst hτ
  dsimp only
  split
  · exact Run.works_throw _
  · have hzip : ∀ p ∈ (SystemM.argIdents args.length).zip args, p.2.In τ :=
      fun p hp => hargs p.2 (List.of_mem_zip hp).2
    refine (Run.works_ofAction (Action.valueBindings_safe hσ hzip)).bind hσ fun bound ρ hτρ hρ hbound => ?_
    have hmaker : ∀ p ∈ [(("$ctor" : Ident), Value.proc (.actorMaker c))], p.2.In ρ := by
      intro p hp
      obtain rfl := List.mem_singleton.mp hp
      exact hτρ.value (v := .proc (.actorMaker c)) hc
    refine (Run.works_ofAction (Action.valueBindings_safe hρ hmaker)).bind hρ fun maker υ hρυ hυ hmaker => ?_
    refine (Run.works_ofAction Action.fresh_safe).bind hυ fun result ω hυω hω hresult => ?_
    have hgrows := (hτρ.trans hρυ).trans hυω
    have hbindings : Env.In ω (bound ++ maker ++ [("$cfg", result)]) := by
      refine List.forall_mem_append.mpr ⟨List.forall_mem_append.mpr ⟨?_, hυω.env hmaker⟩, fun p hp => ?_⟩
      · exact (hρυ.trans hυω).env hbound
      · obtain rfl := List.mem_singleton.mp hp
        exact hresult
    refine (k.runToEnd_works _ _ hω (Env.In.extend (hgrows.env hroot) hbindings)).bind hω fun _ χ hωχ hχ _ => ?_
    refine (settledValue_works hχ (Nat.lt_of_lt_of_le hresult hωχ.vars)).bind hχ fun v _ _ _ hv => ?_
    split
    · exact Run.works_pure hv
    · exact Run.works_throw _

/-! ## Requests for actors -/

namespace ActorSystem

variable {s : ActorSystem × Store}

/-- A run of the kernel is something that can be done from outside. -/
theorem External.ofRun {α : Type} {f : Kernel → Run α} {Q : α → Store → Prop} (h : (f s.1.kernel).Works s.2 Q) :
    External s ((Request.ofRun f).state s) := by
  obtain ⟨sys, σ⟩ := s
  rw [Run.Works] at h
  cases hresult : f sys.kernel σ with
  | ok a τ =>
    rw [hresult] at h
    have hstate : (Request.ofRun f).state (sys, σ) = (sys, τ) := by simp only [Request.state, Request.ofRun, hresult]
    exact hstate ▸ .work h.1
  | error e τ =>
    rw [hresult] at h
    have hstate : (Request.ofRun f).state (sys, σ) = (sys, τ) := by simp only [Request.state, Request.ofRun, hresult]
    exact hstate ▸ .work h

/-- **Making an actor constructor** is something that the outside does. -/
theorem External.construct (h : s.1.Sound s.2) (instr : Instr) (x : Ident) :
    External s ((SystemM.construct instr x).state s) := .ofRun (s.1.kernel.construct_works instr x h.store h.root)

/-- So is **making a configuration**. -/
theorem External.configure (h : s.1.Sound s.2) {c : ClosureId} {args : List Value} (hc : c < s.2.closures.size)
    (hargs : ∀ v ∈ args, v.In s.2) : External s ((SystemM.configure c args).state s) :=
  .ofRun (s.1.kernel.configure_works h.store h.root hc hargs)

end ActorSystem

end Dataflow
