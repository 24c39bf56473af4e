/-
No wake-up is lost.

Between two turns of a running executor the run queue holds exactly the actors whose flag says so, each of them once, and
everybody who has something to do. The current activity of an actor is either waiting for one unbound variable, or it is
resumed by one item in the mailbox of its actor, and then the actor is in the run queue. So when nobody is in the run
queue, all that is not done is waiting for a variable that nobody in the system is going to bind.
-/
import Mathlib
import Dataflow.Proofs.Actor.Answering
import Dataflow.Proofs.Actor.Balance
import Dataflow.Proofs.Actor.Scheduling

set_option autoImplicit false

namespace Dataflow

/-! ## Running systems -/

/-- No activity is outstanding before there are actors. -/
theorem Store.Vacant.outstanding {σ : Store} (h : σ.Vacant) {r : Resumer} (hr : r.isActivity = true) :
    σ.outstanding r = 0 := by
  have hparked : σ.parkedFor r = 0 := by
    refine sum_map_eq_zero.mpr fun x state hx => List.countP_eq_zero.mpr fun k hk => ?_
    rw [Array.getElem?_toList] at hx
    rw [← waiting_of_getElem? hx] at hk
    intro hkr
    have hforeign := h.idle x k hk
    rw [beq_iff_eq.mp hkr, hr] at hforeign
    cases hforeign
  have hresumed : σ.resumedFor r = 0 := by
    rw [resumedFor, h.log]
    rfl
  rw [Store.outstanding, hparked, hresumed]

namespace ActorSystem

/-- A system between two turns, while its executor is running. -/
inductive Running : ActorSystem × Store → Prop where
  | start {config : Config} {σ : Store} {s : ActorSystem × Store} (hσ : σ.Vacant)
      (h : ActorSystem.create config σ = .ok s) : Running s
  | external {s s' : ActorSystem × Store} (h : Running s) (hop : External s s') : Running (SystemM.deliver s').2
  | turn {s : ActorSystem × Store} (h : Running s) : Running (SystemM.runNext s).2

/-- What keeps a system awake while `turn`, if anybody, has its turn. -/
structure Awake (turn : Option Nat) (s : ActorSystem × Store) : Prop where
  sound : s.1.Sound s.2
  log : s.2.effects = #[]
  scheduled : s.1.Scheduled turn
  balanced : s.1.Balanced none s.2

/-- An item that an actor handles keeps the balance. -/
theorem Balanced.item {n : Nat} {s s₁ s₂ : ActorSystem × Store} (h : s.1.Balanced none s.2) (hsound : s.1.Sound s.2)
    (hlog : s.2.effects = #[]) {item : Item} {a : Actor} {preempted : Bool}
    (hnext : SystemM.nextItem n s = (some item, s₁)) (ha : s₁.1.actor? n = some a)
    (hhandle : SystemM.handle n a item s₁ = (preempted, s₂)) :
    (SystemM.deliver s₂).2.1.Balanced none (SystemM.deliver s₂).2.2 := by
  obtain ⟨b, hb, htakes, htook, hhandled, hhandles⟩ := handles_item hsound hlog hnext ha hhandle
  exact (hhandled.balanced hsound hb htakes htook h).deliver hhandles.sound

namespace Awake

variable {n : Nat} {s s' s₁ s₂ : ActorSystem × Store}

/-- A new system is awake. It has no actors, and whatever the store it is made in contained, no activity waits there. -/
theorem start {config : Config} {σ : Store} (hσ : σ.Vacant) (h : ActorSystem.create config σ = .ok s) :
    Awake none s := by
  obtain ⟨hsound, hlog, hnone⟩ := create_sound hσ h
  obtain ⟨hstore, -, -, hqueue, hrunning⟩ := create_eq h
  refine ⟨hsound, hlog, ⟨hrunning, ?_, ?_, nofun, ?_, ?_⟩, ?_⟩
  -- nobody is in the run queue, and nobody has a turn
  · rw [hqueue]
    exact List.nodup_nil
  · intro n hn
    rw [hqueue] at hn
    exact absurd (hn.resolve_right nofun) List.not_mem_nil
  · intro n a ha
    rw [hnone n] at ha
    cases ha
  · intro n a ha
    rw [hnone n] at ha
    cases ha
  -- the modules are made by deeds, which leave the number of waiting activities alone
  · intro n _ id
    have hdeeds := (loadModules_deeds σ modules).1
    rw [view, hnone n, hstore, hdeeds.outstanding, hσ.outstanding rfl]
    rfl

/-- **One item** that an actor handles in its turn. -/
theorem item (h : Awake (some n) s) {item : Item} {a : Actor} {preempted : Bool}
    (hnext : SystemM.nextItem n s = (some item, s₁)) (ha : s₁.1.actor? n = some a)
    (hhandle : SystemM.handle n a item s₁ = (preempted, s₂)) : Awake (some n) (SystemM.deliver s₂).2 := by
  obtain ⟨b, hb, htakes, htook, hhandled, hhandles⟩ := handles_item h.sound h.log hnext ha hhandle
  refine ⟨hhandles.sound.deliver, rfl, ?_, h.balanced.item h.sound h.log hnext ha hhandle⟩
  exact ((h.scheduled.takes hb htakes htook).handled ha hhandled).delivered s₂.2

/-- **One turn** leaves the system awake, and nobody has a turn then. -/
theorem turn (h : Awake (some n) s) : Awake none (SystemM.turn n s).2 := by
  rw [SystemM.turn_eq]
  have hdone : Awake (some n) (SystemM.handleItems n SystemM.itemsPerTurn 0 s).2 :=
    SystemM.handleItems_keeps (fun h hnext ha hhandle => h.item hnext ha hhandle) SystemM.itemsPerTurn 0 h
  generalize SystemM.handleItems n SystemM.itemsPerTurn 0 s = result at hdone
  obtain ⟨⟨handled, preempted⟩, sys, σ⟩ := result
  have hsame := Reschedules.endTurn sys n handled preempted
  refine ⟨hsame.sound hdone.sound, hdone.log, hdone.scheduled.endTurn handled preempted, ?_⟩
  exact hdone.balanced.gets fun m => ⟨[], hsame.view m, fun _ => rfl⟩

/-- **The next turn**, or nothing if nobody is in the run queue. -/
theorem runNext (h : Awake none s) : Awake none (SystemM.runNext s).2 := by
  rw [SystemM.runNext_eq]
  split
  · exact h
  · next n rest hqueue =>
    have hbegun : Awake (some n) ({ s.1 with runQueue := rest }, s.2) :=
      ⟨h.sound.congr rfl rfl, h.log, h.scheduled.beginTurn hqueue, h.balanced⟩
    exact hbegun.turn

/-- A change from outside, and what it has written to the log is delivered. -/
theorem external (h : Awake none s) (hop : External s s') : Awake none (SystemM.deliver s').2 := by
  have hsound := (hop.delivery h.sound).1
  refine ⟨hsound.deliver, rfl, ?_, ?_⟩
  · exact (h.scheduled.external hop).delivered s'.2
  · exact (hop.balanced h.sound h.balanced).deliver hsound

end Awake

/-- **A running system is awake** between turns. -/
theorem Running.awake {s : ActorSystem × Store} (h : Running s) : Awake none s := by
  induction h with
  | start hσ hcreate => exact .start hσ hcreate
  | external _ hop ih => exact ih.external hop
  | turn _ ih => exact ih.runNext

/-- A running system is in the course of a run. -/
theorem Running.chronicle {s : ActorSystem × Store} (h : Running s) (n : Nat) : ∃ j, Chronicle n s j := by
  induction h with
  | start hσ hcreate => exact ⟨[], .start hσ hcreate⟩
  | external _ hop ih =>
    obtain ⟨j, hj⟩ := ih
    exact ⟨_, hj.external hop⟩
  | turn _ ih =>
    obtain ⟨j, hj⟩ := ih
    obtain ⟨more, hmore⟩ := hj.runNext
    exact ⟨_, hmore⟩

end ActorSystem

/-! ## Waiting for one variable -/

/-- One computation of `r` waits, and it waits for the unbound variable `x`. -/
structure Store.ParkedAt (σ : Store) (r : Resumer) (x : VarId) : Prop where
  unbound : σ.Unbound x
  once : countFor r (σ.waiting x) = 1
  nowhereElse : ∀ y, y ≠ x → countFor r (σ.waiting y) = 0

/-- If exactly one computation is parked for an activity, there is one variable that it waits for, and it waits there once. -/
theorem Store.parkedAt_of_one {σ : Store} {r : Resumer} (h : σ.parkedFor r = 1) : ∃ x, σ.ParkedAt r x := by
  obtain ⟨x, state, hx, hone, hzero⟩ := one_of_sum h
  rw [Array.getElem?_toList] at hx
  refine ⟨x, ?_, ?_, fun y hy => ?_⟩
  · cases state with
    | unbound ks => exact ⟨ks, hx⟩
    | bound _ | link _ => cases hone
  · rw [waiting_of_getElem? hx]
    exact hone
  · cases hstate : σ.vars[y]? with
    | none =>
      rw [waiting, hstate]
      rfl
    | some state' =>
      rw [waiting_of_getElem? hstate]
      exact hzero y state' hy (Array.getElem?_toList ▸ hstate)

/-- If nothing is parked for somebody, then no variable has a continuation of theirs. -/
theorem Store.nowhere_of_zero {σ : Store} {r : Resumer} (h : σ.parkedFor r = 0) (x : Nat) :
    countFor r (σ.waiting x) = 0 := by
  cases hstate : σ.vars[x]? with
  | none =>
    rw [waiting, hstate]
    rfl
  | some state =>
    rw [waiting_of_getElem? hstate]
    exact sum_map_eq_zero.mp h x state (Array.getElem?_toList ▸ hstate)

namespace ActorSystem

variable {n : Nat} {s : ActorSystem × Store} {a : Actor} {act : Activity}

/-- The current activity waits for one variable, or the mailbox resumes it once. -/
theorem Balanced.outstanding (h : s.1.Balanced none s.2) (hsound : s.1.Sound s.2) (hlog : s.2.effects = #[])
    (ha : s.1.actor? n = some a) (hact : a.activity = some act) :
    (∃ x, s.2.ParkedAt (.activity n act.id) x) ∧ a.resumptions act.id = 0 ∨
      (∀ x, countFor (.activity n act.id) (s.2.waiting x) = 0) ∧ a.resumptions act.id = 1 := by
  have hlives := (hsound.actors n a ha).2.lives_of_activity hact
  have hone := h.self ha hlives act.id
  have hresumed : s.2.resumedFor (.activity n act.id) = 0 := by
    rw [Store.resumedFor, hlog]
    rfl
  rw [if_neg (Option.some_ne_none n).symm, Actor.ongoing_of_activity hact, if_pos rfl, Store.outstanding,
    hresumed] at hone
  by_cases hparked : s.2.parkedFor (.activity n act.id) = 1
  · exact .inl ⟨Store.parkedAt_of_one hparked, by omega⟩
  · exact .inr ⟨Store.nowhere_of_zero (by omega), by omega⟩

/-- An activity is either parked at one variable only, or it is parked nowhere and its resumption is under way. -/
theorem Awake.outstanding {turn : Option Nat} (h : Awake turn s) (ha : s.1.actor? n = some a)
    (hact : a.activity = some act) :
    (∃ x, s.2.ParkedAt (.activity n act.id) x) ∧ a.resumptions act.id = 0 ∨
      (∀ x, countFor (.activity n act.id) (s.2.waiting x) = 0) ∧ a.resumptions act.id = 1 :=
  h.balanced.outstanding h.sound h.log ha hact

theorem hasWork_iff : a.hasWork = true ↔ a.mailbox.items ≠ [] ∨ a.accepts = true ∧ a.deferred ≠ [] := by
  rw [Actor.hasWork, Mailbox.isEmpty, Bool.or_eq_true, Bool.and_eq_true, or_comm]
  simp only [Bool.not_eq_true', List.isEmpty_eq_false_iff]

/-- When nobody is in the run queue, an actor that lives has done everything that it can do. -/
theorem Awake.idle (h : Awake none s) (hqueue : s.1.runQueue = []) (ha : s.1.actor? n = some a)
    (hlives : a.phase ≠ .stopped) :
    a.mailbox.items = [] ∧ (a.activity ≠ none ∨ a.deferred ≠ [] →
      ∃ act x, a.activity = some act ∧ s.2.ParkedAt (.activity n act.id) x) := by
  have hlife := (h.sound.actors n a ha).2
  have hnothing : ¬ a.hasWork = true := by
    intro hwork
    have hmem := h.scheduled.work n a ha nofun hwork
    rw [hqueue] at hmem
    exact absurd hmem List.not_mem_nil
  rw [hasWork_iff, not_or] at hnothing
  have hmail : a.mailbox.items = [] := Decidable.not_not.mp hnothing.1
  refine ⟨hmail, fun hbusy => ?_⟩
  cases hact : a.activity with
  | some act =>
    have hnone : a.resumptions act.id = 0 := by
      rw [Actor.resumptions, hmail]
      rfl
    rcases h.outstanding ha hact with ⟨⟨x, hx⟩, -⟩ | ⟨-, hone⟩
    · exact ⟨act, x, rfl, hx⟩
    · omega
  | none =>
    -- it can take up what is deferred, or it has not been configured and something in its mailbox tells it to do so
    have hdeferred : a.deferred ≠ [] := hbusy.resolve_left fun hsome => hsome hact
    have hphase : a.phase = .created := by
      cases hcase : a.phase with
      | created => rfl
      | stopped => exact absurd hcase hlives
      | ready _ | failed _ =>
        have haccepts : a.accepts = true := Actor.accepts_iff.mpr ⟨hact, by rw [hcase]; rfl⟩
        exact absurd ⟨haccepts, hdeferred⟩ hnothing.2
    have hconfigures := hlife.configures
    rw [hmail, Actor.unconfigured_iff.mpr ⟨hphase, hact⟩] at hconfigures
    cases hconfigures

/-- **No wake-up is lost.** Between two turns of a running executor, after whatever the outside has done and whatever
turns there have been: the run queue holds nobody twice; an actor is in it if and only if its flag says so; an actor
whose mailbox is not empty, or that could take up an envelope that it has deferred, is in it; and the current activity of
an actor waits for exactly one unbound variable, and nothing resumes it, or it waits nowhere, and exactly one item of its
actor's mailbox resumes it.

So if nobody is in the run queue, then the mailbox of every actor that lives is empty; whatever run has led there, the
requests that the actor has accepted and not answered are the one that it serves and those that it has deferred; and if
it has an activity or something deferred, then its activity waits for an unbound variable. -/
theorem Running.noLostWakeUp (h : Running s) :
    s.1.runQueue.Nodup ∧
    (∀ n a, s.1.actor? n = some a →
      (a.scheduled = true ↔ n ∈ s.1.runQueue) ∧
      (a.mailbox.items ≠ [] ∨ a.accepts = true ∧ a.deferred ≠ [] → n ∈ s.1.runQueue) ∧
      ∀ act, a.activity = some act →
        (∃ x, s.2.ParkedAt (.activity n act.id) x) ∧ a.resumptions act.id = 0 ∨
        (∀ x, countFor (.activity n act.id) (s.2.waiting x) = 0) ∧ a.resumptions act.id = 1) ∧
    (s.1.runQueue = [] → ∀ n a, s.1.actor? n = some a → a.phase ≠ .stopped →
      a.mailbox.items = [] ∧
      (∃ j, Chronicle n s j) ∧
      (∀ j, Chronicle n s j →
        j.accepted.flatMap Envelope.owed = j.answered ++ a.serving ++ a.deferred.flatMap Envelope.owed) ∧
      (a.activity ≠ none ∨ a.deferred ≠ [] →
        ∃ act x, a.activity = some act ∧ s.2.ParkedAt (.activity n act.id) x)) := by
  have hawake := h.awake
  -- the run queue first, then what an empty one means for an actor that lives
  refine ⟨hawake.scheduled.nodup, fun n a ha => ⟨?_, ?_, ?_⟩, fun hqueue n a ha hlives => ?_⟩
  · rw [hawake.scheduled.flag n a ha]
    exact ⟨fun hn => hn.resolve_right nofun, .inl⟩
  · exact fun hwork => hawake.scheduled.work n a ha nofun (hasWork_iff.mpr hwork)
  · exact fun act hact => hawake.outstanding ha hact
  · obtain ⟨hmail, hparked⟩ := hawake.idle hqueue ha hlives
    refine ⟨hmail, h.chronicle n, fun j hj => ?_, hparked⟩
    obtain ⟨-, -, hannals⟩ := hj.annals
    rw [view_of_some ha] at hannals
    have hwaiting : a.waiting = a.deferred := by
      rw [Actor.waiting, hmail]
      exact List.append_nil _
    -- an actor that lives has discarded nothing
    have hkept := hannals.kept (Actor.isStopped_of_ne hlives)
    have haccount : j.accepted.flatMap Envelope.owed =
        j.answered ++ a.serving ++ a.waiting.flatMap Envelope.owed ++ j.discarded := hannals.account
    rw [haccount, hwaiting, Journal.discarded, hkept.1, hkept.2]
    exact List.append_nil _

/-- An actor that never binds its answers has been asked twice. -/
def askedTwice : ActorSystem × Store := told question (told question (solo .skip))

/-- When it has had its turn, its activity waits for the first answer, and the other request is deferred behind it. -/
theorem Running.noLostWakeUp_silent :
    ∃ s a act x, Running s ∧ s.1.runQueue = [] ∧ s.1.actor? 0 = some a ∧ a.mailbox.items = [] ∧
      a.deferred = [question] ∧ a.activity = some act ∧ s.2.ParkedAt (.activity 0 act.id) x := by
  -- the actor does nothing where it is asked, so its answers stay unbound
  obtain ⟨hconstruct, hconfigure, hspawn⟩ := external_solo .skip (by cbv) (by cbv)
  have hfresh : Running fresh := .start vacant_empty create_fresh
  have hsolo : Running (solo .skip) := ((hfresh.external hconstruct).external hconfigure).external hspawn
  have hfirst : question.In (solo .skip).2 := ⟨trivial, by cbv⟩
  have hsecond : question.In (told question (solo .skip)).2 := ⟨trivial, by cbv⟩
  have hasked : Running askedTwice :=
    (hsolo.external (.send ⟨.actor 0, "solo"⟩ hfirst)).external (.send ⟨.actor 0, "solo"⟩ hsecond)
  have hturn : Running (SystemM.runNext askedTwice).2 := hasked.turn
  have hqueue : (SystemM.runNext askedTwice).2.1.runQueue = [] := by cbv
  have hsome : ((SystemM.runNext askedTwice).2.1.actor? 0).isSome = true := by cbv
  -- the first request is being answered, and the second one is deferred behind it
  have hview : ((SystemM.runNext askedTwice).2.1.view 0).phase.isStopped = false ∧
      ((SystemM.runNext askedTwice).2.1.view 0).deferred = [question] := by cbv
  generalize (SystemM.runNext askedTwice).2 = s at *
  obtain ⟨a, ha⟩ := Option.isSome_iff_exists.mp hsome
  rw [view_of_some ha] at hview
  have hlives : a.phase ≠ .stopped := fun hstopped => by
    rw [hstopped] at hview
    cases hview.1
  obtain ⟨-, -, hidle⟩ := hturn.noLostWakeUp
  obtain ⟨hmail, -, -, hparked⟩ := hidle hqueue 0 a ha hlives
  obtain ⟨act, x, hact, hx⟩ := hparked (.inr (hview.2 ▸ List.cons_ne_nil _ _))
  exact ⟨s, a, act, x, hturn, hqueue, ha, hmail, hview.2, hact, hx⟩

end ActorSystem

end Dataflow
