/-
Every request is answered at most once, and none is lost.

What an actor has taken up it has answered, or it is about to, or it gave it up when its life ended. Together with the
order in which envelopes are taken up, this gives an account of every request that a mailbox has accepted: the requests
are those that have been answered, the one that is being served, those that wait, and those that were discarded, one list
after the other. So none of them is in two places, and none is in no place.
-/
import Dataflow.Proofs.Actor.Chronicle

set_option autoImplicit false

namespace Dataflow

/-- Whom the current activity has to answer. -/
def Actor.serving (a : Actor) : List (ActorRef × Term) := a.activity.toList.flatMap fun act => act.task.owed

/-- The requests that an actor discarded when its life ended: the one that it was serving, and those that waited. -/
def Journal.discarded (j : Journal) : List (ActorRef × Term) :=
  (j.givenUp.flatMap fun act => act.task.owed) ++ j.dropped.flatMap Envelope.owed

namespace Situation

variable {j : Journal} {s : Situation}

/-- What has been taken up has been answered, or is being served, or was given up. -/
theorem Annals.served (h : Annals j s) :
    j.takenUp.flatMap Envelope.owed =
      j.answered ++ (s.activity.toList.flatMap fun act => act.task.owed) ++
        j.givenUp.flatMap fun act => act.task.owed := by
  induction h with
  | start => rfl
  | @next j k s s' hannals hmoment ih =>
    rw [Journal.takenUp_append, Journal.answered_append, Journal.givenUp_append, List.flatMap_append, ih]
    cases hmoment with
    | arrives => simp
    | settles => simp [(hannals.kept rfl).2]
    | configures => simp [Task.owed]
    | begins _ howed => simp [(hannals.kept rfl).2, howed]
    | ends => simp [(hannals.kept rfl).2]
    | @halts w act k =>
      cases act with
      | none => simp
      | some act => simp [(hannals.kept rfl).2]

/-- **Every request that has been accepted** has been answered, or is being served, or waits, or was discarded. -/
theorem Annals.account (h : Annals j s) :
    j.accepted.flatMap Envelope.owed =
      j.answered ++ (s.activity.toList.flatMap fun act => act.task.owed) ++ s.waiting.flatMap Envelope.owed ++
        j.discarded := by
  rw [h.order, List.flatMap_append, List.flatMap_append, h.served, Journal.discarded]
  -- either nothing has been given up, or nothing waits
  cases hstopped : s.stopped with
  | false => simp [(h.kept hstopped).1, (h.kept hstopped).2]
  | true => simp [(h.last.2 hstopped).1]

/-- Nothing happens after the end of a life. -/
theorem Annals.nothing_after (h : Annals j s) (before : Journal) (act : Option Activity) (dropped : List Envelope)
    (after : Journal) (hj : j = before ++ .halted act dropped :: after) : after = [] := by
  obtain ⟨hlives, hover⟩ := h.last
  have hmem : .halted act dropped ∈ j := hj ▸ List.mem_append_right _ List.mem_cons_self
  cases hstopped : s.stopped with
  | false => exact absurd hmem (hlives hstopped act dropped)
  | true =>
    obtain ⟨-, -, first, act', dropped', hlast, hnone⟩ := hover hstopped
    -- what comes after it would come before the last event
    rcases List.eq_nil_or_concat after with hnil | ⟨rest, e, rfl⟩
    · exact hnil
    · rw [hlast, List.concat_eq_append, ← List.cons_append, ← List.append_assoc] at hj
      have hfirst := List.append_inj_left' hj rfl
      exact absurd (hfirst ▸ List.mem_append_right _ List.mem_cons_self) (hnone act dropped)

end Situation

namespace ActorSystem

variable {n : Nat} {s : ActorSystem × Store} {j : Journal}

/-- **No request is lost or answered twice.** In every run of an actor system, the requests that the mailbox of an actor
has accepted are, in this order: those that the actor has answered, to the requester and for the target that the request
names; the one that its current activity serves; those that are deferred; those that are in the mailbox; and those that
were discarded. Nothing is discarded as long as the actor lives, and afterwards nothing is served, deferred or in the
mailbox. The end of the actor's life is the last thing that happens to it, so there is no answer afterwards. And only
actors answer, since no computation ever adds an answer to the log. -/
theorem Chronicle.answersOnce (h : Chronicle n s j) :
    j.accepted.flatMap Envelope.owed =
      j.answered ++ (s.1.view n).serving ++ (s.1.view n).deferred.flatMap Envelope.owed ++
        ((s.1.view n).mailbox.items.filterMap Item.call?).flatMap Envelope.owed ++ j.discarded ∧
    ((s.1.view n).phase ≠ .stopped → j.discarded = []) ∧
    ((s.1.view n).phase = .stopped →
      (s.1.view n).serving = [] ∧ (s.1.view n).deferred = [] ∧ (s.1.view n).mailbox.items = []) ∧
    (∀ before act dropped after, j = before ++ .halted act dropped :: after → after = []) ∧
    ∀ (ctx : Context) (slice executed : Nat) {stack : Stack} {σ : Store}, σ.Closed → stack.In σ →
      (ctx.compute slice stack executed σ).store.answers = σ.answers := by
  obtain ⟨hsound, -, hannals⟩ := h.annals
  have haccount : j.accepted.flatMap Envelope.owed =
      j.answered ++ (s.1.view n).serving ++ (s.1.view n).waiting.flatMap Envelope.owed ++ j.discarded := hannals.account
  refine ⟨?_, fun hlives => ?_, fun hstopped => ?_, hannals.nothing_after, fun ctx slice executed stack σ hσ hstack => ?_⟩
  · rw [haccount, Actor.waiting, List.flatMap_append, ← List.append_assoc (_ ++ _)]
  · have hkept := hannals.kept (Actor.isStopped_of_ne hlives)
    rw [Journal.discarded, hkept.1, hkept.2]
    rfl
  · have hstopped := Actor.isStopped_iff.mpr hstopped
    obtain ⟨hnone, hidle, -⟩ := hannals.last.2 hstopped
    have hidle : (s.1.view n).activity = none := hidle
    refine ⟨?_, (List.append_eq_nil_iff.mp hnone).1, ?_⟩
    · rw [Actor.serving, hidle]
      rfl
    · exact (s.1.view n).mailbox.empty_of_closed (hsound.view_closed n hstopped)
  · exact (ctx.compute_leaves slice executed hσ hstack).1.answers

/-- The echo answers the request, and then there is nobody else to answer. -/
theorem Chronicle.answersOnce_echo :
    ∃ s j, Chronicle 0 s j ∧ j.accepted = [notice, question] ∧ j.answered = [(⟨.client 1, "client"⟩, .var 0)] ∧
      (s.1.view 0).serving = [] ∧ (s.1.view 0).deferred.flatMap Envelope.owed = [] ∧
      ((s.1.view 0).mailbox.items.filterMap Item.call?).flatMap Envelope.owed = [] ∧ j.discarded = [] := by
  obtain ⟨s, hecho⟩ := Chronicle.echo
  obtain ⟨haccount, -⟩ := hecho.answersOnce
  -- the request that has been accepted is the one that has been answered
  let answer : ActorRef × Term := (⟨.client 1, "client"⟩, .var 0)
  have hanswer : [answer] =
      [answer] ++ (s.1.view 0).serving ++ (s.1.view 0).deferred.flatMap Envelope.owed ++
        ((s.1.view 0).mailbox.items.filterMap Item.call?).flatMap Envelope.owed ++ [] := haccount
  rw [List.append_nil, List.append_assoc, List.append_assoc, List.self_eq_append_right, List.append_eq_nil_iff,
    List.append_eq_nil_iff] at hanswer
  exact ⟨s, _, hecho, rfl, rfl, hanswer.1, hanswer.2.1, hanswer.2.2, rfl⟩

end ActorSystem

end Dataflow
