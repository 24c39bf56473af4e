/-
Deeds: what a computation does to the store while it goes on.

Elementary changes are what anybody may do to a store. A computation does less. It never puts another computation
among those that wait, and whatever it sends is a request or a notification, since responses are for the actor to
give and not for its computations. And it makes an actor by taking a number that no other receiver has and
announcing the actor at once, so that no two announcements are of one actor.

When a computation is left, it has either done such deeds and nothing else, or it has done them and then waits,
which puts it at the end of the list of an unbound variable, once (`Leaves`).
-/
import Dataflow.Proofs.Evolution

set_option autoImplicit false

namespace Dataflow

/-! ## What the log says -/

/-- The actor that the effect announces. -/
def Effect.child? : Effect → Option Nat
  | .spawn ⟨.actor n, _⟩ _ _ => some n
  | _ => none

/-- Whom the effect answers, and what the answer is for. -/
def Effect.answer? : Effect → Option (ActorRef × Term)
  | .send requester (.response _ target) => some (requester, target)
  | _ => none

/-- The envelope asks for something or tells something. -/
def Envelope.IsCall : Envelope → Prop
  | .request .. | .notify _ => True
  | .response .. => False

/-- No computation waits in the state, and it is no link. -/
def VarState.Idle : VarState → Prop
  | .unbound ks => ks = []
  | .bound _ => True
  | .link _ => False

namespace Store

/-! ## Deeds -/

/-- An elementary change that a computation makes. -/
inductive Deed : Store → Store → Prop where
  | binds {σ τ : Store} (h : Binds σ τ) : Deed σ τ
  | newVar {σ : Store} {s : VarState} (hs : s.Idle) (hin : s.In σ σ.vars.size) : Deed σ (σ.newVar s).2
  /-- A change that neither the log nor the numbers of receivers show. -/
  | table {σ τ : Store} (h : TableStep σ τ) (hlog : τ.effects = σ.effects)
      (hnumbers : τ.receivers = σ.receivers) : Deed σ τ
  | send {σ : Store} {e : Envelope} (recipient : ActorRef) (he : e.In σ) (hcall : e.IsCall) :
      Deed σ (σ.emit (.send recipient e))
  | makeRecorder {σ : Store} {k : ConfigId} (hk : k < σ.configs.size) (address parent : Address) :
      Deed σ (σ.newReceiver.2.emit (.spawn ⟨.recorder σ.receivers, address⟩ parent k))
  | makeActor {σ : Store} {k : ConfigId} (hk : k < σ.configs.size) (address stem parent : Address) :
      Deed σ ((σ.newReceiver.2.newAddress stem).2.emit (.spawn ⟨.actor σ.receivers, address⟩ parent k))

/-- Any number of deeds. -/
abbrev Deeds : Store → Store → Prop := Relation.ReflTransGen Deed

variable {σ τ ρ : Store}

/-- A deed is a step, or two or three of them for the one who makes an actor: it takes a number, and maybe an address, before
it says so in the log. -/
theorem Deed.evolves (h : Deed σ τ) : σ.Evolves τ := by
  cases h with
  | binds h => exact .single (.var (.binds h))
  | @newVar s hs hin =>
    have hlink : ∀ y, s ≠ .link y := by
      rintro y rfl
      exact hs
    exact .single (.var (.newVar hlink hin))
  | table h => exact .single (.table h)
  | @send e recipient he => exact .single (.table (.emit (e := .send recipient e) he))
  | @makeRecorder k hk address parent =>
    have hnumber : Step σ σ.newReceiver.2 := .table .newReceiver
    have hspawn : Effect.In σ.newReceiver.2 (.spawn ⟨.recorder σ.receivers, address⟩ parent k) := hk
    exact .tail (.single hnumber) (.table (.emit hspawn))
  | @makeActor k hk address stem parent =>
    have hnumber : Step σ σ.newReceiver.2 := .table .newReceiver
    have haddress : Step σ.newReceiver.2 (σ.newReceiver.2.newAddress stem).2 := .table (.newAddress stem)
    have hspawn : Effect.In (σ.newReceiver.2.newAddress stem).2
        (.spawn ⟨.actor σ.receivers, address⟩ parent k) := hk
    exact .tail (.tail (.single hnumber) haddress) (.table (.emit hspawn))

theorem BindsMany.deeds (h : σ.BindsMany τ) : σ.Deeds τ :=
  Relation.ReflTransGen.mono (fun _ _ h => .binds h) _ _ h

namespace Deeds

theorem single (h : Deed σ τ) : σ.Deeds τ := Relation.ReflTransGen.single h

theorem evolves (h : σ.Deeds τ) : σ.Evolves τ := by
  induction h with
  | refl => exact .refl
  | tail _ hdeed ih => exact ih.trans hdeed.evolves

theorem grows (h : σ.Deeds τ) : σ.Grows τ := h.evolves.grows

theorem closed (h : σ.Deeds τ) (hσ : σ.Closed) : τ.Closed := h.evolves.closed hσ

end Deeds

/-! ## Leaving a computation -/

/-- How a computation with the resumer `r` leaves the store: after deeds alone, or after deeds and waiting for
a variable. -/
inductive Leaves (r : Resumer) (σ τ : Store) : (waitsFor : Option VarId) → Prop where
  | going (h : σ.Deeds τ) : Leaves r σ τ none
  | waiting {ρ : Store} {x : Nat} {k : Continuation} (h : σ.Deeds ρ) (hx : ρ.Unbound x) (hk : k.In ρ)
      (hr : k.resumer = r) (hτ : τ = ρ.park x k) : Leaves r σ τ (some x)

namespace Leaves

variable {r : Resumer} {w : Option VarId}

theorem evolves (h : Leaves r σ τ w) : σ.Evolves τ := by
  cases h with
  | going h => exact h.evolves
  | waiting h hx hk _ hτ => exact hτ ▸ h.evolves.tail (.var (.park hx hk))

theorem after (h : Leaves r τ ρ w) (hστ : σ.Deeds τ) : Leaves r σ ρ w := by
  cases h with
  | going h => exact .going (hστ.trans h)
  | waiting h hx hk hr hρ => exact .waiting (hστ.trans h) hx hk hr hρ

end Leaves

/-! ## The log after deeds -/

/-- The log of `τ` is that of `σ` with `new` behind it. The actors that the new effects announce have numbers that
are new in `τ`, each of them a number of its own. -/
structure Writes (σ τ : Store) (new : List Effect) : Prop where
  log : τ.effects.toList = σ.effects.toList ++ new
  children : (new.filterMap Effect.child?).Nodup
  numbered : ∀ n ∈ new.filterMap Effect.child?, σ.receivers ≤ n ∧ n < τ.receivers
  receivers : σ.receivers ≤ τ.receivers

/-- Besides, none of the new effects is an answer. -/
structure WritesCalls (σ τ : Store) (new : List Effect) : Prop extends Writes σ τ new where
  calls : ∀ e ∈ new, e.answer? = none

namespace Writes

theorem refl (σ : Store) : Writes σ σ [] := by
  constructor <;> simp

/-- Two pieces of log, one after the other, are one piece. No child is announced in both. -/
theorem trans {new more : List Effect} (h : Writes σ τ new) (h' : Writes τ ρ more) :
    Writes σ ρ (new ++ more) where
  log := by rw [h'.log, h.log, List.append_assoc]
  children := by
    rw [List.filterMap_append]
    refine List.nodup_append.mpr ⟨h.children, h'.children, fun n hn m hm => ?_⟩
    -- the numbers of the earlier ones were in use before the later ones were taken
    exact Nat.ne_of_lt (Nat.lt_of_lt_of_le (h.numbered n hn).2 (h'.numbered m hm).1)
  numbered n hn := by
    rw [List.filterMap_append] at hn
    rcases List.mem_append.mp hn with hn | hn
    · exact ⟨(h.numbered n hn).1, Nat.lt_of_lt_of_le (h.numbered n hn).2 h'.receivers⟩
    · exact ⟨Nat.le_trans h.receivers (h'.numbered n hn).1, (h'.numbered n hn).2⟩
  receivers := Nat.le_trans h.receivers h'.receivers

/-- Effects that announce nobody. -/
theorem of_childless {new : List Effect} (hlog : τ.effects.toList = σ.effects.toList ++ new)
    (hnumbers : σ.receivers ≤ τ.receivers) (h : ∀ e ∈ new, e.child? = none) : Writes σ τ new := by
  have hnone : new.filterMap Effect.child? = [] := List.filterMap_eq_nil_iff.mpr h
  refine ⟨hlog, ?_, ?_, hnumbers⟩
  · rw [hnone]
    exact List.nodup_nil
  · rw [hnone]
    exact fun n hn => absurd hn List.not_mem_nil

theorem of_log_eq (hlog : τ.effects = σ.effects) (hnumbers : σ.receivers ≤ τ.receivers) : Writes σ τ [] :=
  of_childless (by rw [hlog, List.append_nil]) hnumbers fun _ he => absurd he List.not_mem_nil

theorem emit (σ : Store) {e : Effect} (he : e.child? = none) : Writes σ (σ.emit e) [e] := by
  refine of_childless (by simp [Store.emit]) (Nat.le_refl _) fun f hf => ?_
  rw [List.mem_singleton.mp hf, he]

end Writes

namespace WritesCalls

theorem refl (σ : Store) : WritesCalls σ σ [] := ⟨.refl σ, fun _ he => absurd he List.not_mem_nil⟩

theorem trans {new more : List Effect} (h : WritesCalls σ τ new) (h' : WritesCalls τ ρ more) :
    WritesCalls σ ρ (new ++ more) where
  toWrites := h.toWrites.trans h'.toWrites
  calls e he := (List.mem_append.mp he).elim (h.calls e) (h'.calls e)

theorem of_log_eq (hlog : τ.effects = σ.effects) (hnumbers : τ.receivers = σ.receivers) :
    WritesCalls σ τ [] := ⟨.of_log_eq hlog (Nat.le_of_eq hnumbers.symm), fun _ he => absurd he List.not_mem_nil⟩

end WritesCalls

/-- What a deed writes to the log are wake-ups, calls and at most one new child. -/
theorem Deed.writes (h : Deed σ τ) : ∃ new, WritesCalls σ τ new := by
  cases h with
  | binds h =>
    cases h with
    | @assign x v hx hv =>
      -- everything that waits for the variable is woken, in the order in which it has begun to wait
      refine ⟨(σ.waiting x).map fun k => .wake k.resumer k.stack, .of_childless ?_ ?_ fun e he => ?_, fun e he => ?_⟩
      · simp [assign_eq]
      · exact Nat.le_of_eq (by rw [assign_eq])
      · obtain ⟨k, -, rfl⟩ := List.mem_map.mp he
        rfl
      · obtain ⟨k, -, rfl⟩ := List.mem_map.mp he
        rfl
    | merge hx hy hne => exact ⟨[], .of_log_eq rfl rfl⟩
  | newVar => exact ⟨[], .of_log_eq rfl rfl⟩
  | table h hlog hnumbers => exact ⟨[], .of_log_eq hlog hnumbers⟩
  | @send e recipient he hcall =>
    refine ⟨[.send recipient e], .emit σ rfl, fun f hf => ?_⟩
    obtain rfl := List.mem_singleton.mp hf
    cases e with
    | request _ _ _ | notify _ => rfl
    | response _ _ => exact hcall.elim
  -- the number of the child has not been in use, whether an address is made for it or not
  | @makeRecorder k hk address parent =>
    have hnumber : Writes σ σ.newReceiver.2 [] := .of_log_eq rfl (Nat.le_succ _)
    refine ⟨[.spawn ⟨.recorder σ.receivers, address⟩ parent k], hnumber.trans (.emit _ rfl), fun e he => ?_⟩
    obtain rfl := List.mem_singleton.mp he
    rfl
  | @makeActor k hk address stem parent =>
    refine ⟨[.spawn ⟨.actor σ.receivers, address⟩ parent k], ⟨?_, ?_, ?_, ?_⟩, fun e he => ?_⟩
    · simp [Store.emit, newReceiver, newAddress]
    · exact List.nodup_cons.mpr ⟨List.not_mem_nil, List.nodup_nil⟩
    · intro n hn
      obtain rfl := List.mem_singleton.mp hn
      exact ⟨Nat.le_refl _, Nat.lt_succ_self _⟩
    · exact Nat.le_succ _
    · obtain rfl := List.mem_singleton.mp he
      rfl

/-- **A computation only adds to the log**, answers nobody, and announces actors with numbers of their own. -/
theorem Deeds.writes (h : σ.Deeds τ) : ∃ new, WritesCalls σ τ new := by
  induction h with
  | refl => exact ⟨[], .refl σ⟩
  | tail _ hdeed ih =>
    obtain ⟨new, hnew⟩ := ih
    obtain ⟨more, hmore⟩ := hdeed.writes
    exact ⟨new ++ more, hnew.trans hmore⟩

/-- Also when it waits in the end: parking a computation writes nothing. -/
theorem Leaves.writes {r : Resumer} {w : Option VarId} (h : Leaves r σ τ w) :
    ∃ new, WritesCalls σ τ new := by
  cases h with
  | going h => exact h.writes
  | @waiting ρ x k h _ _ _ hτ =>
    obtain ⟨new, hnew⟩ := h.writes
    have hpark : WritesCalls ρ τ [] := hτ ▸ WritesCalls.of_log_eq rfl rfl
    exact ⟨new ++ [], hnew.trans hpark⟩

/-- Whom the log answers, in order. -/
def answers (σ : Store) : List (ActorRef × Term) := σ.effects.toList.filterMap Effect.answer?

theorem WritesCalls.answers {new : List Effect} (h : WritesCalls σ τ new) : τ.answers = σ.answers := by
  have hnone : new.filterMap Effect.answer? = [] := List.filterMap_eq_nil_iff.mpr h.calls
  rw [Store.answers, h.log, List.filterMap_append, hnone, List.append_nil, Store.answers]

/-- **Computations answer nobody.** -/
theorem Deeds.answers (h : σ.Deeds τ) : τ.answers = σ.answers := by
  obtain ⟨new, hnew⟩ := h.writes
  exact hnew.answers

theorem Leaves.answers {r : Resumer} {w : Option VarId} (h : Leaves r σ τ w) : τ.answers = σ.answers := by
  obtain ⟨new, hnew⟩ := h.writes
  exact hnew.answers

end Store

end Dataflow
