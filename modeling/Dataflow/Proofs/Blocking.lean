/-
Blocking: an instruction that has to wait has done nothing yet.

Waiting works by executing the whole instruction again, so whatever an instruction did before it found out that
it has to wait would be done twice. Here is why nothing is: up to the point where an instruction can still have
to wait, it only looks at the store, or it makes records and bound variables that nothing refers to, which is what
rebuilding a record and capturing a value do. From there on it cannot have to wait any more.

Three predicates on actions say this, and none of them assumes anything about the store. An action that `Idles`
does no more than that however it ends; a `Prompt` action never waits; and a `Patient` action has idled if it waits.
Looking idles and making is prompt, so whatever is phased is patient.
-/
import Dataflow.Proofs.Execution
import Dataflow.Proofs.Phases

set_option autoImplicit false

namespace Dataflow

/-! ## Stores with something unused in them -/

/-- `τ` is `σ` with more records and more variables; the new variables are bound, and nothing else differs. -/
def Store.Pads (σ τ : Store) : Prop :=
  ∃ (values : Array Value) (records : Array Record),
    τ = { σ with vars := σ.vars ++ values.map .bound, records := σ.records ++ records }

namespace Store.Pads

variable {σ τ ρ : Store}

theorem refl (σ : Store) : σ.Pads σ := ⟨#[], #[], by simp⟩

theorem trans (h₁ : σ.Pads τ) (h₂ : τ.Pads ρ) : σ.Pads ρ := by
  obtain ⟨vs, rs, rfl⟩ := h₁
  obtain ⟨vs', rs', rfl⟩ := h₂
  exact ⟨vs ++ vs', rs ++ rs', by simp [Array.append_assoc]⟩

theorem newRecord (σ : Store) (r : Record) : σ.Pads (σ.newRecord r).2 :=
  ⟨#[], #[r], by simp [Store.newRecord]⟩

theorem newVar (σ : Store) (v : Value) : σ.Pads (σ.newVar (.bound v)).2 :=
  ⟨#[v], #[], by simp [Store.newVar]⟩

/-- What waits, waits as before, and no variable has been bound or merged. -/
theorem getElem?_eq (h : σ.Pads τ) {x : Nat} (hx : x < σ.vars.size) : τ.vars[x]? = σ.vars[x]? := by
  obtain ⟨vs, rs, rfl⟩ := h
  exact Array.getElem?_append_left hx

/-- The new variables are bound, so an unbound variable is an old one. -/
theorem unbound (h : σ.Pads τ) {x : Nat} (hx : τ.Unbound x) : σ.Unbound x := by
  by_cases hlt : x < σ.vars.size
  · exact hx.imp fun ks hks => (h.getElem?_eq hlt).symm.trans hks
  · obtain ⟨vs, rs, rfl⟩ := h
    obtain ⟨ks, hks⟩ := hx
    rw [Array.getElem?_append_right (Nat.le_of_not_lt hlt), Array.getElem?_map] at hks
    obtain ⟨v, -, hv⟩ := Option.map_eq_some_iff.mp hks
    cases hv

end Store.Pads

/-! ## Actions that wait before they act -/

namespace Action

variable {α β : Type} {act : Action α} {f : α → Action β} {K : List Kind} {Q : α → Prop} {acts : Bool} {σ τ : Store}

/-- However it ends, the action only pads the store. -/
def Idles (act : Action α) : Prop := ∀ σ,
  match act σ with
  | .ok _ τ | .error _ τ => σ.Pads τ

/-- The action never has to wait. -/
def Prompt (act : Action α) : Prop := ∀ σ x τ, act σ ≠ .error (.blocked x) τ

/-- If the action has to wait, it has only padded the store. -/
def Patient (act : Action α) : Prop := ∀ σ x τ, act σ = .error (.blocked x) τ → σ.Pads τ

/-! ## Looking idles -/

theorem Idles.of_ok {a : α} (h : act.Idles) (heq : act σ = .ok a τ) : σ.Pads τ := by
  have hact := h σ
  rw [heq] at hact
  exact hact

theorem Idles.of_error {e : Interrupt} (h : act.Idles) (heq : act σ = .error e τ) : σ.Pads τ := by
  have hact := h σ
  rw [heq] at hact
  exact hact

/-- What follows need only be idle for results that the first part can have. -/
theorem Idles.bind (h : act.Idles) (hf : ∀ a, (∃ σ τ, act σ = .ok a τ) → (f a).Idles) : (act >>= f).Idles := by
  intro σ
  rw [bind_apply]
  -- either part may fail, and then no more is done
  rcases heq : act σ with ⟨a, τ⟩ | ⟨e, τ⟩
  · have hnext := hf a ⟨σ, τ, heq⟩ τ
    dsimp only
    generalize f a τ = last at hnext ⊢
    cases last with
    | ok b ρ => exact (h.of_ok heq).trans hnext
    | error e ρ => exact (h.of_ok heq).trans hnext
  · exact h.of_error heq

/-- Completing apart, a step of looking leaves the store as it is, or it makes one record or one bound variable. -/
theorem Step.idles {k : Kind} (h : Step k act) (hk : k ∈ lookKinds) (hne : k ≠ .complete) : act.Idles := by
  cases h with
  | missing | fault | noMatch | notAProc | mismatch | wait | ask => exact fun σ => .refl σ
  | component v g =>
    intro σ
    rw [bind_apply]
    dsimp only [read]
    cases σ.select v g <;> exact .refl σ
  | record | rebuild => exact fun σ => .newRecord σ _
  | fill v => exact fun σ => .newVar σ v
  | complete => exact absurd rfl hne
  | _ => exact absurd hk (by decide)

theorem Composed.idles (h : act.Composed K Q) (hK : Kind.among K lookKinds = true) : act.Idles :=
  h.holds_apart ⟨fun _ σ => .refl σ, Idles.bind⟩ hK rfl fun _ hk hne _ _ hs => hs.idles (of_decide_eq_true hk) hne

/-! ## Making is prompt -/

/-- Prompt actions can be run one after the other. The second need be prompt only after results that the first can have. -/
theorem Prompt.bind (h : act.Prompt) (hf : ∀ a, (∃ σ τ, act σ = .ok a τ) → (f a).Prompt) : (act >>= f).Prompt := by
  intro σ x τ heq
  rw [bind_apply] at heq
  rcases hr : act σ with ⟨a, ρ⟩ | ⟨e, ρ⟩
  · rw [hr] at heq
    exact hf a ⟨σ, ρ, hr⟩ ρ x τ heq
  · rw [hr] at heq
    cases heq
    exact h σ x _ hr

/-- A change of the store never has to wait. -/
theorem prompt_ofChange (g : Store → Option Fault × Store) : (ofChange g).Prompt := by
  intro σ x τ h
  rw [ofChange] at h
  split at h
  · cases h
  · cases h

/-- Waiting and completing apart, no step waits. Making terms equal binds variables and does not wait for any. -/
theorem Step.prompt {k : Kind} (h : Step k act) (hk : k ∉ [.wait, .complete]) : act.Prompt := by
  cases h with
  | wait | complete => exact absurd (by decide) hk
  | component v g =>
    intro σ x τ heq
    rw [bind_apply] at heq
    dsimp only [read] at heq
    cases hselect : σ.select v g <;> rw [hselect] at heq <;> cases heq
  | unify | bindVar => exact prompt_ofChange _
  | _ => exact nofun

theorem Composed.prompt (h : act.Composed K Q) (hK : Kind.avoids K [.wait, .complete] = true) : act.Prompt :=
  h.holds ⟨fun _ => nofun, Prompt.bind⟩ fun _ hk _ _ hs => hs.prompt (Kind.not_mem_of_avoids hK hk)

theorem Makes.prompt (h : act.Makes acts) : act.Prompt := by
  have hmake : Kind.avoids (makeKinds acts) [.wait, .complete] = true := by cases acts <;> rfl
  have hchange : Kind.avoids changeKinds [.wait, .complete] = true := rfl
  induction h with
  | uses h => exact h.prompt hmake
  | change h hk => exact h.prompt (Kind.not_mem_of_avoids hchange hk)
  | seq h _ ih => exact (h.prompt hmake).bind fun a ⟨_, _, heq⟩ => ih a (h.result heq)
  | andPure _ g ih => exact ih.bind fun a _ => nofun

/-! ## Patience -/

/-- **Whatever is phased is patient**: it has only looked when it has to wait. -/
theorem Phased.patient (h : act.Phased acts) : act.Patient := by
  induction h with
  | uses h => exact fun σ x τ heq => (h.idles rfl).of_error heq
  | makes h => exact fun σ x τ heq => absurd heq (h.prompt σ x τ)
  | seq h _ ih =>
    intro σ x τ heq
    rw [bind_apply] at heq
    rename_i act f _
    rcases hr : act σ with ⟨a, ρ⟩ | ⟨e, ρ⟩
    · rw [hr] at heq
      exact ((h.idles rfl).of_ok hr).trans (ih a (h.result hr) ρ x τ heq)
    · rw [hr] at heq
      cases heq
      exact (h.idles rfl).of_error hr
  | andPure _ g ih =>
    intro σ x τ heq
    rw [bind_apply] at heq
    rename_i act _
    rcases hr : act σ with ⟨a, ρ⟩ | ⟨e, ρ⟩
    · rw [hr] at heq
      cases heq
    · rw [hr] at heq
      cases heq
      exact ih σ x _ hr

end Action

/-- **Every instruction is patient**: if it has to wait, all that it has done is to make records and bound
variables that nothing refers to. -/
theorem Context.patient_execute (ctx : Context) (env : Env) (rest : Stack) (instr : Instr) :
    (ctx.execute env rest instr).Patient := by
  have hphased : (ctx.execute env rest instr).Phased true := ctx.phased_execute env rest instr nofun
  exact hphased.patient

end Dataflow
