/-
The phases of an actor's life, over any stretch of a run.

Whatever happens to an actor, its phase stays, or it is configured, or its configuration fails, or its life ends; and
what it does with an item says which of these it is (`Actor.Fares.phase`). Handlers are a part of the phase, so they stay
as long as the actor is ready. When its life is over its mailbox is closed, and an actor whose mailbox is closed has
nothing to take: nothing more is written down in its journal, whatever still arrives for the activity it had
(`Happens.quiet`).
-/
import Mathlib
import Dataflow.Proofs.Actor.Stopping

set_option autoImplicit false

namespace Dataflow

/-! ## How phases follow each other -/

/-- An actor in the first phase comes into the second one. -/
inductive Phase.Moves : Phase → Phase → Prop where
  | configured {handlers : Handlers} : Moves .created (.ready handlers)
  | failed {f : FailureId} : Moves .created (.failed f)
  | stopped {p : Phase} (h : p ≠ .stopped) : Moves p .stopped

namespace Phase.Moves

variable {p q r : Phase}

theorem not_stopped (h : Moves .stopped p) : False := by
  cases h with
  | stopped hne => exact hne rfl

theorem trans (h : Moves p q) (h' : Moves q r) : Moves p r := by
  cases h with
  | configured | failed =>
    cases h' with
    | stopped => exact .stopped nofun
  | stopped => exact h'.not_stopped.elim

end Phase.Moves

/-- The end of a task moves on the phase of an actor that configures itself, and of no other. -/
theorem Task.Ends.phase {a : Actor} {task : Task} {σ : Store} {phase : Option Phase} {reply : Option Effect}
    (hends : task.Ends σ phase reply) (hcreated : ∀ x, task = .configure x → a.phase = .created) :
    (a.finish phase).phase = a.phase ∨ a.phase.Moves (a.finish phase).phase := by
  cases hends with
  | configured =>
    rw [hcreated _ rfl]
    exact .inr .configured
  | unconfigured =>
    rw [hcreated _ rfl]
    exact .inr .failed
  | answered | notified => exact .inl rfl

/-- **Whatever happens to an actor**, its phase stays or moves on. -/
theorem Actor.Fares.phase {a b : Actor} {accepted : List Envelope} (h : a.Fares accepted b) (hlife : a.Life) :
    b.phase = a.phase ∨ a.phase.Moves b.phase := by
  cases h with
  | gets hgets => exact .inl hgets.phase
  | halts =>
    rw [a.halt_phase]
    by_cases hover : a.phase = .stopped
    · exact .inl hover.symm
    · exact .inr (.stopped hover)
  | @does item answers items b c d htakes hdoes hgets =>
    obtain ⟨hphase, hactivity, -⟩ := htakes.same
    rw [hgets.phase, ← hphase]
    cases hdoes with
    | absorbs | defers | answers | drops | ignores | begins | goesOn => exact .inl rfl
    | halts =>
      rw [b.halt_phase, hphase]
      exact .inr (.stopped (htakes.phase_ne hlife))
    | beginsAndEnds hcause hends =>
      refine hends.phase fun x htask => ?_
      subst htask
      cases hcause with
      | configure hcreated => exact hcreated
    | ends hact hends =>
      refine hends.phase fun x htask => ?_
      exact hphase.trans ((hlife.configuring _ (hactivity ▸ hact)).mpr ⟨x, htask⟩)

namespace ActorSystem

variable {n : Nat} {s t : ActorSystem × Store} {j k : Journal} {a b : Actor}

/-! ## After the end -/

/-- Nothing is written down of an actor whose life is over, if only items come. -/
theorem record_of_closed {items : List Item} (hgets : a.Gets items b) (hclosed : a.mailbox.closed = true) :
    Journal.record none [] a b = [] := by
  rw [Journal.record, Journal.changes_of_gets hgets, Journal.arrivals_of_gets hgets, if_pos hclosed]
  rfl

/-- An actor whose life is over has nothing to take. -/
theorem nextItem_of_stopped (hsound : s.1.Sound s.2) (ha : s.1.actor? n = some a) (hstopped : a.phase = .stopped) :
    (SystemM.nextItem n s).1 = none := by
  rcases SystemM.nextItem_cases n s.1 s.2 with hnone | ⟨b, _, _, _, hb, htakes, -⟩
  · rw [hnone]
  · obtain rfl := Option.some.inj (ha.symm.trans hb)
    exact absurd hstopped (htakes.phase_ne (hsound.actors n a ha).2)

/-- **Whatever happens after the end of an actor's life**, nothing happens to the actor. -/
theorem Happens.quiet (h : Happens n s k t) (hsound : s.1.Sound s.2) (hlog : s.2.effects = #[])
    (ha : s.1.actor? n = some a) (hstopped : a.phase = .stopped) :
    k = [] ∧ ∃ b, t.1.actor? n = some b ∧ ∃ items, a.Gets items b := by
  have hclosed : a.mailbox.closed = true := ((hsound.actors n a ha).2.stopped hstopped).2.2
  -- what somebody else does
  have hother : ∀ {s' : ActorSystem × Store} {items : List Item}, s'.1.Sound s'.2 →
      Actor.Delivery items (s.1.actor? n) (s'.1.actor? n) →
        Journal.record none [] (s.1.view n) ((SystemM.deliver s').2.1.view n) = [] ∧
          ∃ b, (SystemM.deliver s').2.1.actor? n = some b ∧ ∃ items, a.Gets items b := by
    intro s' items hsound' hdelivery
    obtain ⟨items, hdelivery⟩ := delivery_deliver hsound' hdelivery
    rw [ha] at hdelivery
    generalize hb : (SystemM.deliver s').2.1.actor? n = o at hdelivery
    cases hdelivery with
    | @known _ b hgets =>
      rw [view_of_some ha, view_of_some hb]
      exact ⟨record_of_closed hgets hclosed, b, rfl, _, hgets⟩
  cases h with
  | @external s s' hop =>
    obtain ⟨hsound', hdelivery⟩ := hop.delivery hsound
    obtain ⟨items, hitems⟩ := hdelivery n
    exact hother hsound' hitems
  | @handles s s₁ s₂ item a₁ preempted hnext ha₁ hhandle =>
    have hnone := nextItem_of_stopped hsound ha hstopped
    rw [hnext] at hnone
    cases hnone
  | @elsewhere m s s₁ s₂ item a₁ preempted hm hnext ha₁ hhandle =>
    obtain ⟨-, -, -, -, -, hhandles⟩ := handles_item hsound hlog hnext ha₁ hhandle
    obtain ⟨items, hitems⟩ := hhandles.others n hm.symm
    exact hother hhandles.sound hitems
  | @reschedules sys sys' σ hsame =>
    have hsome := hsame.actors n
    rw [ha, Option.map_some] at hsome
    obtain ⟨b, hb, -⟩ := Option.map_eq_some_iff.mp hsome
    obtain ⟨a', ha', hgets⟩ := hsame.gets hb
    obtain rfl := Option.some.inj (ha.symm.trans ha')
    exact ⟨rfl, b, hb, _, hgets⟩
  | @halts sys σ =>
    -- halting again changes nothing
    have hhalt : a.halt = a := by
      unfold Actor.halt
      rw [hstopped]
    have hhalted : sys.halted.actor? n = some a := by
      rw [actor?_halted, ha, Option.map_some, hhalt, ite_self]
    rw [view_of_some ha, view_of_some hhalted]
    exact ⟨record_of_closed (.refl a) hclosed, a, hhalted, _, .refl a⟩

/-! ## Any stretch of a run -/

/-- As a run goes on, the phase of an actor stays or moves on. -/
theorem Proceeds.phase (hrun : Proceeds n s k t) (h : Chronicle n s j) (ha : s.1.actor? n = some a) :
    ∃ b, t.1.actor? n = some b ∧ (b.phase = a.phase ∨ a.phase.Moves b.phase) := by
  induction hrun with
  | refl => exact ⟨a, ha, .inl rfl⟩
  | @next k k' t u hrun hstep ih =>
    obtain ⟨b, hb, hphase⟩ := ih
    obtain ⟨hsound, hlog, -⟩ := (h.proceeds hrun).annals
    obtain ⟨c, hc, hfares⟩ := hstep.fares hsound hlog hb
    refine ⟨c, hc, ?_⟩
    rcases hfares.phase (hsound.actors n b hb).2 with hsame | hmoves
    · exact hsame ▸ hphase
    · rcases hphase with hsame | hmoved
      · exact .inr (hsame ▸ hmoves)
      · exact .inr (hmoved.trans hmoves)

/-- As a run goes on after the end of an actor's life, nothing happens to the actor. -/
theorem Proceeds.quiet (hrun : Proceeds n s k t) (h : Chronicle n s j) (ha : s.1.actor? n = some a)
    (hstopped : a.phase = .stopped) :
    k = [] ∧ ∃ b, t.1.actor? n = some b ∧ b.phase = .stopped ∧ b.activities = a.activities := by
  induction hrun with
  | refl => exact ⟨rfl, a, ha, hstopped, rfl⟩
  | @next k k' t u hrun hstep ih =>
    obtain ⟨hnothing, b, hb, hover, hactivities⟩ := ih
    obtain ⟨hsound, hlog, -⟩ := (h.proceeds hrun).annals
    obtain ⟨hstill, c, hc, items, hgets⟩ := hstep.quiet hsound hlog hb hover
    exact ⟨by rw [hnothing, hstill]; rfl, c, hc, hgets.phase.trans hover, hgets.activities.trans hactivities⟩

/-- **The life of an actor**, between any two points of any run. Its phase stays, or moves from the first one to ready or
failed, or ends with the actor's life; a ready actor has the same handlers until then. An actor whose life is over has
no activity, nothing deferred, and a closed and empty mailbox, and it has nothing to take. From then on its journal gets no
further entry: it begins nothing, answers nobody and accepts nothing, however the run goes on. -/
theorem Chronicle.lifecycle (h : Chronicle n s j) (ha : s.1.actor? n = some a) (hrun : Proceeds n s k t) :
    ∃ b, t.1.actor? n = some b ∧ (b.phase = a.phase ∨ a.phase.Moves b.phase) ∧
      (∀ handlers, a.phase = .ready handlers → b.phase = .ready handlers ∨ b.phase = .stopped) ∧
      (b.phase = .stopped → b.activity = none ∧ b.deferred = [] ∧ b.mailbox.closed = true ∧ b.mailbox.items = [] ∧
        (SystemM.nextItem n t).1 = none) ∧
      (a.phase = .stopped → b.phase = .stopped ∧ b.activities = a.activities ∧ k = []) := by
  obtain ⟨b, hb, hphase⟩ := hrun.phase h ha
  obtain ⟨hsound, -, -⟩ := (h.proceeds hrun).annals
  refine ⟨b, hb, hphase, fun handlers hready => ?_, fun hover => ?_, fun hstopped => ?_⟩
  · rw [hready] at hphase
    refine hphase.imp_right fun hmoves => ?_
    generalize b.phase = q at hmoves
    cases hmoves with
    | stopped => rfl
  · obtain ⟨hidle, hdeferred, hclosed⟩ := (hsound.actors n b hb).2.stopped hover
    exact ⟨hidle, hdeferred, hclosed, b.mailbox.empty_of_closed hclosed, nextItem_of_stopped hsound hb hover⟩
  · obtain ⟨hnothing, c, hc, hover, hactivities⟩ := hrun.quiet h ha hstopped
    obtain rfl := Option.some.inj (hb.symm.trans hc)
    exact ⟨hover, hactivities, hnothing⟩

/-- The echo after the stop that was behind its question. -/
def echoStopped : ActorSystem × Store := handled .stop echoed

/-- The echo answers the question that it has been asked before it is stopped. The question that it is asked afterwards
does not reach it. -/
theorem Chronicle.lifecycle_echo : ∃ j k a b, Chronicle 0 echoStopped (j ++ k) ∧
    echoStopped.1.actor? 0 = some a ∧ a.phase = .stopped ∧ (j ++ k).answered = question.owed ∧
    ∃ k', Proceeds 0 echoStopped k' (told question echoStopped) ∧ (told question echoStopped).1.actor? 0 = some b ∧
      k' = [] ∧ b.activities = a.activities ∧ b.mailbox.items = [] := by
  have hasked : Chronicle 0 toldToStop _ := chronicle_asked.external (.stop "solo")
  have hfirst := (Proceeds.refl (n := 0) (s := toldToStop)).handled (.configure 0) (by cbv)
  have hsecond : Proceeds 0 toldToStop _ echoed := hfirst.handled (.envelope question) (by cbv)
  have hrun : Proceeds 0 toldToStop _ echoStopped := hsecond.handled .stop (by cbv)
  have hstopped : (echoStopped.1.view 0).phase.isStopped = true ∧ (echoStopped.1.actor? 0).isSome = true := by cbv
  obtain ⟨a, ha⟩ := Option.isSome_iff_exists.mp hstopped.2
  have hover : a.phase = .stopped := Actor.isStopped_iff.mp (view_of_some ha ▸ hstopped.1)
  have hvar : 0 < echoStopped.2.vars.size := by cbv
  have hlater : Proceeds 0 echoStopped _ (told question echoStopped) :=
    Proceeds.refl.next (.external (.send ⟨.actor 0, "solo"⟩ ⟨trivial, hvar⟩))
  have hchronicle := hasked.proceeds hrun
  obtain ⟨b, hb, -, -, hclosed, hquiet⟩ := hchronicle.lifecycle ha hlater
  obtain ⟨hover', hactivities, hnothing⟩ := hquiet hover
  obtain ⟨-, -, -, hempty, -⟩ := hclosed hover'
  refine ⟨_, _, a, b, hchronicle, ha, hover, ?_, _, hlater, hb, hnothing, hactivities, hempty⟩
  cbv

end ActorSystem

end Dataflow
