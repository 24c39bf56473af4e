/-
Turns: an actor handles items one after the other, and then it is decided whether it has to come back.

Whatever every item keeps that an actor takes and handles, a turn keeps, if the decisions about turns keep it too. So
nothing has to be proved about turns but what is true of one item, and of the two decisions that a turn begins and ends
with. These are visible in the run queue, in the account of turns and in the flags of actors, and nowhere else.
-/
import Dataflow.Proofs.Actor.Handling

set_option autoImplicit false

namespace Dataflow

/-! ## Decisions about turns -/

/-- The actor, whether it is to have a turn or not. -/
def Actor.unscheduled (a : Actor) : Actor := { a with scheduled := false }

namespace ActorSystem

variable {n : Nat} {sys sys' sys'' : ActorSystem} {σ : Store}

/-- The systems differ at most in who is to have a turn, and in the account of turns. -/
structure Reschedules (sys sys' : ActorSystem) : Prop where
  kernel : sys'.kernel = sys.kernel
  actors : ∀ n, (sys'.actor? n).map Actor.unscheduled = (sys.actor? n).map Actor.unscheduled

namespace Reschedules

theorem trans (h : sys.Reschedules sys') (h' : sys'.Reschedules sys'') : sys.Reschedules sys'' :=
  ⟨h'.kernel.trans h.kernel, fun n => (h'.actors n).trans (h.actors n)⟩

theorem of_actors_eq (hactors : sys'.actors = sys.actors) (hkernel : sys'.kernel = sys.kernel) :
    sys.Reschedules sys' := ⟨hkernel, fun n => by rw [actor?_congr hactors n]⟩

/-- Setting the flag of an actor. -/
theorem flag (sys : ActorSystem) (n : Nat) (scheduled : Bool) :
    sys.Reschedules (sys.modifyActor n fun a => { a with scheduled }) := by
  refine ⟨rfl, fun m => ?_⟩
  rw [actor?_modifyActor]
  split
  · rw [Option.map_map]
    rfl
  · rfl

theorem schedule (sys : ActorSystem) (n : Nat) : sys.Reschedules (sys.schedule n) := by
  refine ⟨(schedule_fixed sys n).1, fun m => ?_⟩
  rw [actor?_schedule]
  split
  · rw [Option.map_map]
    rfl
  · rfl

/-- Somebody who is rescheduled has been there before, and gets nothing. -/
theorem gets (h : sys.Reschedules sys') {b : Actor} (hb : sys'.actor? n = some b) :
    ∃ a, sys.actor? n = some a ∧ a.Gets [] b := by
  have hsame := h.actors n
  rw [hb, Option.map_some] at hsame
  obtain ⟨a, ha, hab⟩ := Option.map_eq_some_iff.mp hsame.symm
  obtain ⟨-, hmail, -, hphase, hactivity, hdeferred, hactivities⟩ := Actor.mk.inj hab
  refine ⟨a, ha, ?_, ?_, hphase.symm, hactivity.symm, hdeferred.symm, hactivities.symm⟩
  · rw [← hmail]
    exact (Actor.Gets.refl a).mail
  · rw [hmail]

theorem sound (h : sys.Reschedules sys') (hsound : sys.Sound σ) : sys'.Sound σ := by
  refine hsound.replace h.kernel fun n b hb => ?_
  obtain ⟨a, ha, hgets⟩ := h.gets hb
  refine ⟨a, ha, fun hin hlife => ⟨hin.gets hgets ?_, hlife.gets hgets ?_⟩⟩
  · exact fun _ h => absurd h List.not_mem_nil
  · exact fun _ h => absurd h List.not_mem_nil

end Reschedules

/-- The end of a turn: the actor comes back into the run queue if there is something for it to do. -/
def endTurn (sys : ActorSystem) (n handled : Nat) (preempted : Bool) : ActorSystem :=
  let sys := { sys with executor := sys.executor.record handled preempted }.modifyActor n fun a =>
    { a with scheduled := false }
  if (sys.actor? n).any Actor.hasWork then sys.schedule n else sys

/-- The end of a turn changes nothing but the run queue and whether actors are scheduled. -/
theorem Reschedules.endTurn (sys : ActorSystem) (n handled : Nat) (preempted : Bool) :
    sys.Reschedules (sys.endTurn n handled preempted) := by
  have hcount : sys.Reschedules { sys with executor := sys.executor.record handled preempted } := .of_actors_eq rfl rfl
  have hflag := hcount.trans (.flag _ n false)
  rw [ActorSystem.endTurn]
  split
  · exact hflag.trans (.schedule _ n)
  · exact hflag

end ActorSystem

/-! ## Turns -/

namespace SystemM

variable {n : Nat} {s : ActorSystem × Store} {P : ActorSystem × Store → Prop}

/-- What every item keeps, any number of items keeps. -/
theorem handleItems_keeps
    (hitem : ∀ {s s₁ s₂ : ActorSystem × Store} {item : Item} {a : Actor} {preempted : Bool}, P s →
      nextItem n s = (some item, s₁) → s₁.1.actor? n = some a → handle n a item s₁ = (preempted, s₂) → P (deliver s₂).2)
    (room handled : Nat) (h : P s) : P (handleItems n room handled s).2 := by
  -- on the number of items that may still be handled
  induction room generalizing s handled with
  | zero => exact h
  | succ room ih =>
    rw [handleItems, bind_eq]
    rcases nextItem_cases n s.1 s.2 with hnone | ⟨_, a, item, sys₁, _, _, htook, hnext⟩
    · have hnone : nextItem n s = (none, s) := hnone
      rw [hnone]
      exact h
    · have hnext : nextItem n s = (some item, sys₁, s.2) := hnext
      rw [hnext]
      dsimp only
      rw [bind_eq, read_eq]
      dsimp only
      rw [htook.self]
      dsimp only
      rw [bind_eq]
      cases hhandle : handle n a item (sys₁, s.2) with
      | mk preempted s₂ =>
        have hdone := hitem h hnext htook.self hhandle
        dsimp only
        rw [bind_eq]
        split
        · exact hdone
        · exact ih (handled + 1) hdone

/-- What a turn is: items are handled, and then the books are made up. -/
theorem turn_eq (n : Nat) (s : ActorSystem × Store) :
    (turn n s).2 =
      ((handleItems n itemsPerTurn 0 s).2.1.endTurn n (handleItems n itemsPerTurn 0 s).1.1
        (handleItems n itemsPerTurn 0 s).1.2, (handleItems n itemsPerTurn 0 s).2.2) := by
  rw [turn, bind_eq]
  generalize handleItems n itemsPerTurn 0 s = result
  obtain ⟨⟨handled, preempted⟩, sys, σ⟩ := result
  dsimp only
  rw [bind_eq, bind_eq, bind_eq, read_eq, ActorSystem.endTurn]
  dsimp only [change, changeActor]
  generalize ActorSystem.modifyActor _ n _ = sys₁
  cases sys₁.actor? n with
  | none => rfl
  | some a =>
    dsimp only [Option.any_some]
    split <;> rfl

/-- **What every item keeps, a turn keeps.** -/
theorem turn_keeps
    (hitem : ∀ {s s₁ s₂ : ActorSystem × Store} {item : Item} {a : Actor} {preempted : Bool}, P s →
      nextItem n s = (some item, s₁) → s₁.1.actor? n = some a → handle n a item s₁ = (preempted, s₂) → P (deliver s₂).2)
    (hend : ∀ {sys : ActorSystem} {σ : Store} (handled : Nat) (preempted : Bool), P (sys, σ) →
      P (sys.endTurn n handled preempted, σ)) (h : P s) : P (turn n s).2 := by
  rw [turn_eq]
  exact hend _ _ (handleItems_keeps hitem itemsPerTurn 0 h)

/-- Running the next actor is its turn if there is one, and nothing otherwise. -/
theorem runNext_eq (s : ActorSystem × Store) :
    (runNext s).2 =
      match s.1.runQueue with
      | [] => s
      | n :: rest => (turn n ({ s.1 with runQueue := rest }, s.2)).2 := by
  rw [runNext, bind_eq, read_eq]
  dsimp only
  cases s.1.runQueue with
  | nil => rfl
  | cons n rest => rfl

end SystemM

end Dataflow
