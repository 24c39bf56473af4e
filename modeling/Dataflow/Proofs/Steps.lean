/-
Steps: what instructions are put together from.

Everything that an instruction does is put together by sequencing from a few kinds of steps: raising a fault, waiting,
asking the store something, making something new in it, making terms equal, and so on (`Action.Step`). An action is
composed of steps of given kinds if it takes no others, whatever the store is (`Action.Composed`), and along with the
kinds it is said what its results satisfy.

What sequencing keeps need then be shown for the single steps only (`Action.Composed.holds`). So for each part of an
instruction it is said once which kinds of steps it takes, and what holds of the part follows from its kinds.
-/
import Dataflow.Proofs.Records
import Dataflow.Proofs.Actions

set_option autoImplicit false

namespace Dataflow

/-! ## Records and faults that steps make -/

/-- The features are in ascending order, unless there are more fields than a vector can hold and a position can tell. -/
def Record.Orderly (r : Record) : Prop := r.count < 2 ^ 63 → r.Ascending

namespace Record

theorem orderly_tuple (label : Literal) (values : List Term) : (tuple label values).Orderly := by
  intro hcount
  have hlength : (tuple label values).count = values.length := by
    rw [count, tuple, ← List.length_map Field.feature, features_enumerate, List.length_map, List.length_range']
  exact ascending_tuple label (Nat.le_of_lt (hlength ▸ hcount))

theorem orderly_build {label : Literal} {fields : List Field} {r : Record} (h : build label fields = .ok r) :
    r.Orderly := fun _ => ascending_build h

end Record

namespace Fault

/-- The fault carries no text of a value, at most the name of a kind of values. -/
def Silent : Fault → Prop
  | .featureNotFound .. | .bindConflict .. | .noMatch _ | .notAProc _ => False
  | .typeMismatch _ actual => ∃ v : Value, actual = v.kindName
  | _ => True

/-- The fault carries no text of a value, and it is not that an identifier is not bound. -/
structure Plain (f : Fault) : Prop where
  silent : f.Silent
  bound : ∀ x, f ≠ .identNotFound x

end Fault

/-! ## Kinds of steps -/

namespace Action

/-- The kinds of steps that instructions take. -/
inductive Kind where
  /-- Raising the fault that an identifier is not bound. -/
  | missing
  /-- Raising another fault that carries no text of a value. -/
  | fault
  /-- Raising a fault that carries the text of a value, or going on if there is no reason to. -/
  | text
  /-- Waiting for a variable. -/
  | wait
  /-- Asking the store something. -/
  | ask
  /-- Making a record with its features in order. -/
  | record
  /-- Making a record of which nothing is known, as completing does with the parts of another one. -/
  | rebuild
  /-- Completing a term. -/
  | complete
  /-- Making a variable for a value. -/
  | fill
  /-- Making an unbound variable. -/
  | fresh
  /-- Making a closure. -/
  | closure
  /-- Making a cell, an iterator or a token. -/
  | object
  /-- Making the configuration of an actor. -/
  | config
  /-- Making an actor. -/
  | actor
  /-- Moving an iterator on. -/
  | advance
  /-- Making terms equal. -/
  | unify
  /-- Changing the content of a cell. -/
  | setCell
  /-- Sending an envelope. -/
  | send
  deriving DecidableEq

/-- The kinds `K` are among the kinds `L`. -/
def Kind.among (K L : List Kind) : Bool := K.all fun k => decide (k ∈ L)

/-- None of the kinds `K` is among the kinds `L`. -/
def Kind.avoids (K L : List Kind) : Bool := K.all fun k => decide (k ∉ L)

theorem Kind.subset_of_among {K L : List Kind} (h : among K L = true) : K ⊆ L :=
  fun k hk => of_decide_eq_true (List.all_eq_true.mp h k hk)

theorem Kind.not_mem_of_avoids {K L : List Kind} {k : Kind} (h : avoids K L = true) (hk : k ∈ K) : k ∉ L :=
  of_decide_eq_true (List.all_eq_true.mp h k hk)

/-- What a step may ask of the store. -/
inductive Query : {α : Type} → (Store → α) → Prop where
  | resolve (t : Term) : Query fun σ => σ.resolve t
  | compare (a b : Term) : Query fun σ => σ.compare a b
  | record {α : Type} (r : RecordId) (g : Record → α) : Query fun σ => g (σ.record r)
  | assign (r s : RecordId) : Query fun σ => (σ.record r).assign (σ.record s)
  | closure {α : Type} (c : ClosureId) (g : Closure → α) : Query fun σ => g (σ.closure c)
  | handlers (k : ConfigId) : Query fun σ => (σ.config k).handlers
  | cell (c : CellId) : Query fun σ => σ.cell c
  | depth : Query fun σ => σ.records.size + σ.closures.size + 1

/-- The steps of each kind. -/
inductive Step : Kind → {α : Type} → Action α → Prop where
  | missing {α : Type} (x : Ident) : Step .missing (fault (.identNotFound x) : Action α)
  | fault {α : Type} {f : Fault} (h : f.Plain) : Step .fault (fault f : Action α)
  | component (v : Value) (f : Feature) : Step .text (do ofExcept (← read fun σ => σ.select v f))
  | noMatch {α : Type} (t : Term) : Step .text (do fault (.noMatch (← read fun σ => σ.termText t)) : Action α)
  | notAProc {α : Type} (v : Value) : Step .text (do fault (.notAProc (← read fun σ => σ.valueText v)) : Action α)
  | mismatch {α : Type} (expected : String) (v : Value) :
      Step .text (do fault (.typeMismatch expected (← read fun σ => σ.valueText v)) : Action α)
  | wait {α : Type} (x : VarId) : Step .wait (block x : Action α)
  | ask {α : Type} {g : Store → α} (h : Query g) : Step .ask (read g)
  | record {r : Record} (h : r.Orderly) : Step .record (take fun σ => σ.newRecord r)
  | rebuild (r : Record) : Step .rebuild (take fun σ => σ.newRecord r)
  | complete (t : Term) : Step .complete (complete t)
  | fill (v : Value) : Step .fill (boundVar v)
  | fresh : Step .fresh fresh
  | closure (c : Closure) : Step .closure (take fun σ => σ.newClosure c)
  | cell (t : Term) : Step .object (take fun σ => σ.newCell t)
  | iterator (i : Iterator) : Step .object (take fun σ => σ.newIterator i)
  | token : Step .object (take Store.newToken)
  | config (c : ActorConfig) : Step .config (take fun σ => σ.newConfig c)
  | receiver : Step .actor (take Store.newReceiver)
  | address (owner : Address) : Step .actor (take fun σ => σ.newAddress owner)
  | announce (child : ActorRef) (owner : Address) (k : ConfigId) :
      Step .actor (update fun σ => σ.emit (.spawn child owner k))
  | advance (i : IterId) : Step .advance (take fun σ => σ.nextItem i)
  | unify (a b : Term) : Step .unify (unify a b)
  | bindVar (x y : VarId) : Step .unify (bindVar x y)
  | setCell (c : CellId) (t : Term) : Step .setCell (update fun σ => σ.setCell c t)
  | send (recipient : ActorRef) (e : Envelope) : Step .send (update fun σ => σ.emit (.send recipient e))

/-! ## Composing -/

/-- The action takes no steps but such of the kinds `K`, and its results satisfy `Q`. -/
inductive Composed (K : List Kind) : {α : Type} → Action α → (α → Prop) → Prop where
  | pure {α : Type} {Q : α → Prop} {a : α} (h : Q a) : Composed K (pure a) Q
  | step {α : Type} {Q : α → Prop} {act : Action α} {k : Kind} (hk : k ∈ K) (h : Step k act)
      (hQ : ∀ σ a τ, act σ = .ok a τ → Q a) : Composed K act Q
  | seq {α β : Type} {Q : α → Prop} {R : β → Prop} {act : Action α} {f : α → Action β} (h : Composed K act Q)
      (hf : ∀ a, Q a → Composed K (f a) R) : Composed K (act >>= f) R

/-- The action takes no steps but such of the kinds `K`. -/
abbrev Uses {α : Type} (act : Action α) (K : List Kind) : Prop := act.Composed K fun _ => True

section Composed

variable {α β : Type} {K L : List Kind} {act : Action α} {f : α → Action β} {Q Q' : α → Prop} {R : β → Prop}

/-- An action may be said to take more kinds of steps. -/
theorem Composed.mono (h : act.Composed K Q) (hKL : K ⊆ L) : act.Composed L Q := by
  induction h with
  | pure h => exact .pure h
  | step hk h hQ => exact .step (hKL hk) h hQ
  | seq _ _ ih ihf => exact .seq ih ihf

/-- What the results of the action satisfy. -/
theorem Composed.result (h : act.Composed K Q) {σ τ : Store} {a : α} (heq : act σ = .ok a τ) : Q a := by
  induction h generalizing σ τ with
  | pure h =>
    cases heq
    exact h
  | step _ _ hQ => exact hQ σ _ τ heq
  | seq _ _ _ ihf =>
    rename_i h _ ih
    obtain ⟨b, ρ, hact, hnext⟩ := bind_eq_ok heq
    exact ihf b (ih hact) hnext

theorem Composed.imp (h : act.Composed K Q) (hQ : ∀ a, Q a → Q' a) : act.Composed K Q' := by
  induction h with
  | pure h => exact .pure (hQ _ h)
  | step hk h hstep => exact .step hk h fun σ a τ heq => hQ a (hstep σ a τ heq)
  | seq h _ _ ihf => exact .seq h fun a ha => ihf a ha hQ

theorem Composed.within (h : act.Composed K Q) (hKL : Kind.among K L = true) : act.Composed L Q :=
  h.mono (Kind.subset_of_among hKL)

/-- An action, and then one that takes more kinds of steps. -/
theorem Composed.bind (h : act.Composed K Q) (hKL : Kind.among K L = true) (hf : ∀ a, Q a → (f a).Composed L R) :
    (act >>= f).Composed L R := .seq (h.within hKL) hf

theorem Uses.bind (h : act.Uses K) (hKL : Kind.among K L = true) (hf : ∀ a, (f a).Composed L R) :
    (act >>= f).Composed L R := Composed.bind h hKL fun a _ => hf a

theorem Step.uses {k : Kind} (h : Step k act) (hk : Kind.among [k] K = true) : act.Uses K :=
  .step (Kind.subset_of_among hk List.mem_cons_self) h fun _ _ _ _ => trivial

theorem Step.bind {k : Kind} (h : Step k act) (hk : Kind.among [k] L = true) (hf : ∀ a, (f a).Composed L R) :
    (act >>= f).Composed L R := .seq (h.uses hk) fun a _ => hf a

theorem uses_pure (a : α) : (pure a : Action α).Uses K := .pure trivial

/-- A check that fails with no other faults than such of that kind. -/
theorem composed_ofExcept {r : Except Fault α} (h : ∀ f, r = .error f → f.Plain) :
    (ofExcept r).Composed [.fault] fun a => r = .ok a := by
  cases r with
  | ok a => exact .pure rfl
  | error f =>
    refine .step List.mem_cons_self (.fault (h f rfl)) fun _ _ _ heq => ?_
    cases heq

theorem uses_ofExcept {r : Except Fault α} (h : ∀ f, r = .error f → f.Plain) : (ofExcept r).Uses [.fault] :=
  (composed_ofExcept h).imp fun _ _ => trivial

/-- A property of actions that sequencing keeps. -/
structure Sequenced (P : {α : Type} → Action α → Prop) : Prop where
  pure : ∀ {α : Type} (a : α), P (Pure.pure a : Action α)
  bind : ∀ {α β : Type} {act : Action α} {f : α → Action β}, P act →
    (∀ a, (∃ σ τ, act σ = .ok a τ) → P (f a)) → P (act >>= f)

/-- **What sequencing keeps** holds of an action if it holds of the steps that the action takes. -/
theorem Composed.holds {P : {α : Type} → Action α → Prop} (h : act.Composed K Q) (hP : Sequenced @P)
    (hstep : ∀ k ∈ K, ∀ {γ : Type} {step : Action γ}, Step k step → P step) : P act := by
  induction h with
  | pure _ => exact hP.pure _
  | step hk h _ => exact hstep _ hk h
  | seq h _ ih ihf => exact hP.bind ih fun a ⟨σ, τ, heq⟩ => ihf a (h.result heq)

end Composed

end Action

end Dataflow
