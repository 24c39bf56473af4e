/-
Quiet actions: what makes no configuration and no failure, and sends nothing.

That is so for most of what a computation does, and it is a property of actions that assumes nothing about the store.
Two kinds of steps do more, and they are taken by calls only: a call may make a configuration or send a message.
-/
import Dataflow.Proofs.Wholeness
import Dataflow.Proofs.Kinds

set_option autoImplicit false

namespace Dataflow

/-! ## Quiet changes -/

/-- `τ` has no more configurations, failures and envelopes than `σ`. -/
structure Store.Quiet (σ τ : Store) : Prop where
  configs : τ.configs = σ.configs
  failures : τ.failures = σ.failures
  envelopes : ∀ recipient e, .send recipient e ∈ τ.effects → .send recipient e ∈ σ.effects

namespace Store.Quiet

variable {σ τ ρ : Store}

theorem refl (σ : Store) : σ.Quiet σ := ⟨rfl, rfl, fun _ _ => id⟩

theorem trans (h : σ.Quiet τ) (h' : τ.Quiet ρ) : σ.Quiet ρ :=
  ⟨h'.configs.trans h.configs, h'.failures.trans h.failures,
    fun recipient e he => h.envelopes recipient e (h'.envelopes recipient e he)⟩

theorem of_log_eq (hconfigs : τ.configs = σ.configs) (hfailures : τ.failures = σ.failures)
    (hlog : τ.effects = σ.effects) : σ.Quiet τ := ⟨hconfigs, hfailures, fun _ _ he => hlog ▸ he⟩

/-- Binding a variable wakes computations, and sends nothing. -/
theorem assign (σ : Store) (x : VarId) (v : Value) : σ.Quiet (σ.assign x v) := by
  rw [assign_eq]
  refine ⟨rfl, rfl, fun recipient e he => ?_⟩
  rcases Array.mem_append.mp he with hold | hnew
  · exact hold
  · obtain ⟨k, -, hk⟩ := List.mem_map.mp (List.mem_toArray.mp hnew)
    cases hk

theorem merge (σ : Store) (x y : VarId) : σ.Quiet (σ.merge x y) := .of_log_eq rfl rfl rfl

/-- Unification says nothing to other actors: it only wakes what waited. -/
theorem unifyAll (room : Nat) (memo : PairMemo) (work : List (Term × Term)) (σ : Store) :
    σ.Quiet (Store.unifyAll room memo work σ).2 := by
  fun_induction Store.unifyAll room memo work σ with
  -- a merge of two variables that are not one already wakes nobody
  | case1 | case6 | case8 | case10 => exact .refl _
  | case2 room memo a b rest σ x y hb ha ih =>
    simp only [dite_eq_ite] at ih
    refine trans ?_ ih
    split
    · exact .refl σ
    · exact .merge σ x y
  | case3 room memo a b rest σ x v hb ha ih | case4 room memo a b rest σ v x hb ha ih =>
    exact (Quiet.assign σ x v).trans ih
  | case5 room memo a b rest σ r s hb ha hmem ih => exact ih
  | case7 memo a b rest σ r s hb ha hmem _ _ hshape room ih => exact ih
  | case9 room memo a b rest σ v w hne hb ha hsame ih => exact ih

/-- An iterator sends nothing when it moves on. -/
theorem nextItem (σ : Store) (i : IterId) : σ.Quiet (σ.nextItem i).2 := by
  rw [Store.nextItem]
  split
  · exact .refl σ
  · rw [Iterator.item]
    split
    · exact .of_log_eq rfl rfl rfl
    · exact .of_log_eq rfl rfl rfl

/-- A new actor is announced, which is no envelope. -/
theorem announce (σ : Store) (child : ActorRef) (owner : Address) (k : ConfigId) :
    σ.Quiet (σ.emit (.spawn child owner k)) := by
  refine ⟨rfl, rfl, fun recipient e he => ?_⟩
  rcases Array.mem_push.mp he with hold | hnew
  · exact hold
  · cases hnew

/-- What is whole stays whole, so if nothing has been added the store is intact. -/
theorem intact (h : σ.Quiet τ) (hintact : σ.Intact) (hσ : σ.Closed) (hkeeps : σ.Keeps τ) : τ.Intact :=
  hintact.of_keeps hσ hkeeps (fun _ hf => .inl (h.failures ▸ hf)) (fun _ hc => .inl (h.configs ▸ hc))
    fun recipient e he => .inl (h.envelopes recipient e he)

end Store.Quiet

/-! ## Quiet actions -/

namespace Action

variable {α β : Type} {act : Action α} {f : α → Action β} {K : List Kind} {Q R : α → Prop} {S : β → Prop}

/-- However the action ends, it has changed the store quietly, and its result satisfies `Q`. -/
def Quiet (act : Action α) (Q : α → Prop) : Prop := ∀ σ,
  match act σ with
  | .ok a τ => σ.Quiet τ ∧ Q a
  | .error _ τ => σ.Quiet τ

theorem Quiet.of_result (h : act.Quiet Q) (hR : ∀ σ a τ, act σ = .ok a τ → R a) : act.Quiet R := by
  intro σ
  have hact := h σ
  rcases heq : act σ with ⟨a, τ⟩ | ⟨e, τ⟩
  · rw [heq] at hact
    exact ⟨hact.1, hR σ a τ heq⟩
  · rw [heq] at hact
    exact hact

/-- Quiet actions can be run one after the other. -/
theorem Quiet.bind (h : act.Quiet Q) (hf : ∀ a, Q a → (f a).Quiet S) : (act >>= f).Quiet S := by
  intro σ
  have hact := h σ
  rw [bind_apply]
  generalize act σ = result at hact ⊢
  cases result with
  | ok a τ =>
    have hnext := hf a hact.2 τ
    dsimp only at hact ⊢
    generalize f a τ = last at hnext ⊢
    cases last with
    | ok b ρ => exact ⟨hact.1.trans hnext.1, hnext.2⟩
    | error e ρ => exact hact.1.trans hnext
  | error e τ => exact hact

theorem quiet_sequenced : Sequenced fun {α} (act : Action α) => act.Quiet fun _ => True :=
  ⟨fun _ σ => ⟨.refl σ, trivial⟩, fun h hf => (h.of_result fun σ _ τ heq => ⟨σ, τ, heq⟩).bind hf⟩

theorem quiet_ofChange {g : Store → Option Fault × Store} (h : ∀ σ : Store, σ.Quiet (g σ).2) :
    (ofChange g).Quiet fun _ => True := by
  intro σ
  have hg := h σ
  rw [ofChange]
  generalize g σ = result at hg
  obtain ⟨_ | fault, τ⟩ := result
  · exact ⟨hg, trivial⟩
  · exact hg

/-- Completing apart, all steps are quiet but making a configuration and sending an envelope. -/
theorem Step.quiet {k : Kind} (h : Step k act) (hk : k ∉ [.config, .send]) (hne : k ≠ .complete) :
    act.Quiet fun _ => True := by
  cases h with
  | missing | fault | noMatch | notAProc | mismatch | wait => exact fun σ => .refl σ
  | ask => exact fun σ => ⟨.refl σ, trivial⟩
  | component v g =>
    intro σ
    rw [bind_apply]
    dsimp only [read]
    cases σ.select v g with
    | ok t => exact ⟨.refl σ, trivial⟩
    | error e => exact .refl σ
  | record | rebuild | fill | fresh | closure | cell | iterator | token | receiver | address | setCell =>
    exact fun _ => ⟨.of_log_eq rfl rfl rfl, trivial⟩
  | announce child owner k => exact fun σ => ⟨.announce σ child owner k, trivial⟩
  | advance i => exact fun σ => ⟨.nextItem σ i, trivial⟩
  | unify a b => exact quiet_ofChange fun _ => .unifyAll _ _ _ _
  | bindVar x y =>
    refine quiet_ofChange fun σ => ?_
    rw [Store.unifyVars]
    split
    · exact .refl σ
    · exact .unifyAll _ _ _ _
  | complete => exact absurd rfl hne
  | config | send => exact absurd (by decide) hk

theorem quiet_unify (a b : Term) : (unify a b).Quiet fun _ => True := Step.quiet (.unify a b) (by decide) nofun

theorem Composed.quiet (h : act.Composed K Q) (hK : Kind.avoids K [.config, .send] = true) : act.Quiet Q := by
  have hquiet : act.Quiet fun _ => True :=
    h.holds_apart quiet_sequenced hK rfl fun _ hk hne _ _ hs => hs.quiet (of_decide_eq_true hk) hne
  exact hquiet.of_result fun _ _ _ heq => h.result heq

end Action

/-- An instruction that neither throws nor calls anything is quiet. -/
theorem Context.quiet_execute (ctx : Context) (env : Env) (rest : Stack) {instr : Instr} (hplain : instr.Plain) :
    (ctx.execute env rest instr).Quiet Flow.Goes := by
  have hsteps : Action.Kind.avoids instr.steps [.config, .send] = true := by
    cases instr with
    | throw | apply | selectApply => exact hplain.elim
    | _ => rfl
  exact ((ctx.composed_execute env rest instr).imp fun _ hgoes => hgoes hplain).quiet hsteps

end Dataflow
