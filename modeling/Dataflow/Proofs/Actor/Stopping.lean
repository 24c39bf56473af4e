/-
Stopping: what becomes of an actor between the call that stops it and its end.

A stop is an item like any other. It comes to the mailbox behind everything that is there already, and the actor halts
when it takes it. Nothing that was accepted before is in the mailbox by then. But an activity goes on behind the items
that are in the mailbox already, whether it was preempted or has got what it waited for, and so it may go on behind the
stop; and while it is not over, what the actor finds in its mailbox is deferred. An actor that takes the stop in the
midst of an activity gives up the activity and all that it has deferred.

So there are two cases. An actor that has no activity when it takes the stop has dealt with everything that was accepted
before the stop, and has answered every request. Otherwise what it has not answered are the request that it serves and
those that are deferred, and its activity either waits for a variable or is resumed by an item behind the stop.
-/
import Mathlib
import Dataflow.Proofs.Actor.Wakeups

set_option autoImplicit false

namespace Dataflow

namespace ActorSystem

/-! ## Runs that go on -/

/-- Something happens in a run, and this is what happens to actor `n`. -/
inductive Happens (n : Nat) : ActorSystem × Store → Journal → ActorSystem × Store → Prop where
  | external {s s' : ActorSystem × Store} (hop : External s s') :
      Happens n s (.record none [] (s.1.view n) ((SystemM.deliver s').2.1.view n)) (SystemM.deliver s').2
  | handles {s s₁ s₂ : ActorSystem × Store} {item : Item} {a : Actor} {preempted : Bool}
      (hnext : SystemM.nextItem n s = (some item, s₁)) (ha : s₁.1.actor? n = some a)
      (hhandle : SystemM.handle n a item s₁ = (preempted, s₂)) :
      Happens n s (.record (some item) s₂.2.answers a ((SystemM.deliver s₂).2.1.view n)) (SystemM.deliver s₂).2
  | elsewhere {m : Nat} {s s₁ s₂ : ActorSystem × Store} {item : Item} {a : Actor} {preempted : Bool} (hm : m ≠ n)
      (hnext : SystemM.nextItem m s = (some item, s₁)) (ha : s₁.1.actor? m = some a)
      (hhandle : SystemM.handle m a item s₁ = (preempted, s₂)) :
      Happens n s (.record none [] (s.1.view n) ((SystemM.deliver s₂).2.1.view n)) (SystemM.deliver s₂).2
  | reschedules {sys sys' : ActorSystem} {σ : Store} (hsame : sys.Reschedules sys') : Happens n (sys, σ) [] (sys', σ)
  | halts {sys : ActorSystem} {σ : Store} :
      Happens n (sys, σ) (.record none [] (sys.view n) (sys.halted.view n)) (sys.halted, σ)

/-- A run goes on from `s`, and this is what happens to actor `n` meanwhile. -/
inductive Proceeds (n : Nat) (s : ActorSystem × Store) : Journal → ActorSystem × Store → Prop where
  | refl : Proceeds n s [] s
  | next {j k : Journal} {t u : ActorSystem × Store} (h : Proceeds n s j t) (hstep : Happens n t k u) :
      Proceeds n s (j ++ k) u

variable {n : Nat} {s t : ActorSystem × Store} {j k : Journal}

/-- A journal is continued by what happens next. -/
theorem Chronicle.happens (h : Chronicle n s j) (hstep : Happens n s k t) : Chronicle n t (j ++ k) := by
  cases hstep with
  | external hop => exact h.external hop
  | handles hnext ha hhandle => exact h.handles hnext ha hhandle
  | elsewhere hm hnext ha hhandle => exact h.elsewhere hm hnext ha hhandle
  | reschedules hsame => exact (List.append_nil j).symm ▸ h.reschedules hsame
  | halts => exact h.halts

theorem Chronicle.proceeds (h : Chronicle n s j) (hrun : Proceeds n s k t) : Chronicle n t (j ++ k) := by
  induction hrun with
  | refl => exact (List.append_nil j).symm ▸ h
  | next _ hstep ih => exact List.append_assoc .. ▸ ih.happens hstep

/-- In every run, every activity is outstanding once whenever nobody is at work. -/
theorem Chronicle.balanced (h : Chronicle n s j) : s.1.Balanced none s.2 := by
  induction h with
  | start hσ hcreate => exact (Awake.start hσ hcreate).balanced
  | external h hop ih =>
    have hsound := h.annals.1
    exact (hop.balanced hsound ih).deliver (hop.delivery hsound).1
  | handles h hnext ha hhandle ih => exact ih.item h.annals.1 h.annals.2.1 hnext ha hhandle
  | elsewhere h _ hnext ha hhandle ih => exact ih.item h.annals.1 h.annals.2.1 hnext ha hhandle
  | reschedules _ hsame ih => exact ih.gets fun m => ⟨[], hsame.view m, fun _ => rfl⟩
  | @halts sys σ _ _ ih =>
    -- who is halted is out of account
    intro m hm id
    rw [view_halted] at hm ⊢
    split at hm
    · exact absurd (sys.view m).halt_phase hm
    · next hsame =>
      rw [if_neg hsame]
      exact ih m hm id

end ActorSystem

/-! ## What can happen to an actor -/

/-- What has happened to an actor otherwise than by arrival is not that something was accepted. -/
theorem Journal.accepted_changes (took : Option Item) (answers : List (ActorRef × Term)) (a b : Actor) :
    (changes took answers a b).accepted = [] := by
  have hend : ∀ c : Prop, [Decidable c] →
      Journal.accepted (if c then [.halted a.activity a.waiting] else []) = [] := by
    intro c _
    split <;> rfl
  simp only [changes, accepted_append, (only_replies answers).1, hend]
  simp [accepted, List.filterMap_map, Function.comp_def]

/-- What can happen to an actor at once, and which envelopes are accepted then. -/
inductive Actor.Fares (a : Actor) (accepted : List Envelope) : Actor → Prop where
  | gets {items : List Item} {b : Actor} (hgets : a.Gets items b) (hitems : ∀ item ∈ items, item.isConfigure = false)
      (haccepted : a.mailbox.closed = false → accepted = items.filterMap Item.call?) : Fares a accepted b
  | does {item : Item} {answers : List (ActorRef × Term)} {items : List Item} {b c d : Actor} (htakes : a.Takes item b)
      (hdoes : b.Does item answers c) (hgets : c.Gets items d) (hitems : ∀ item ∈ items, item.isConfigure = false)
      (haccepted : c.mailbox.closed = false → accepted = items.filterMap Item.call?) : Fares a accepted d
  | halts : Fares a accepted a.halt

namespace ActorSystem

variable {n : Nat} {s t : ActorSystem × Store} {j k : Journal} {a : Actor}

/-- An actor whose mailbox is open accepts every call that it gets. -/
theorem accepted_record {items : List Item} {a b : Actor} (hgets : a.Gets items b) :
    a.mailbox.closed = false → (Journal.record none [] a b).accepted = items.filterMap Item.call? := by
  intro hopen
  rw [Journal.record, Journal.accepted_append, Journal.accepted_changes, Journal.arrivals_of_gets hgets, hopen]
  exact (Journal.only_coming _).1

/-- **Whatever happens in a run**, an actor that there is gets items, or deals with an item and gets items then, or is
halted. -/
theorem Happens.fares (h : Happens n s k t) (hsound : s.1.Sound s.2) (hlog : s.2.effects = #[])
    (ha : s.1.actor? n = some a) : ∃ b, t.1.actor? n = some b ∧ a.Fares k.accepted b := by
  -- what somebody else does
  have hother : ∀ {s' : ActorSystem × Store} {items : List Item}, s'.1.Sound s'.2 →
      Actor.Delivery items (s.1.actor? n) (s'.1.actor? n) → ∃ b, (SystemM.deliver s').2.1.actor? n = some b ∧
        a.Fares (Journal.record none [] (s.1.view n) ((SystemM.deliver s').2.1.view n)).accepted b := by
    intro s' items hsound' hdelivery
    obtain ⟨items, hdelivery⟩ := delivery_deliver hsound' hdelivery
    rw [ha] at hdelivery
    generalize hb : (SystemM.deliver s').2.1.actor? n = o at hdelivery
    cases hdelivery with
    | @known _ b hgets hitems =>
      rw [view_of_some ha, view_of_some hb]
      exact ⟨b, rfl, .gets hgets hitems (accepted_record hgets)⟩
  cases h with
  | @external s s' hop =>
    obtain ⟨hsound', hdelivery⟩ := hop.delivery hsound
    obtain ⟨items, hitems⟩ := hdelivery n
    exact hother hsound' hitems
  | @handles s s₁ s₂ item a₁ preempted hnext ha₁ hhandle =>
    obtain ⟨a', ha', htakes, -, -, hhandles⟩ := handles_item hsound hlog hnext ha₁ hhandle
    obtain rfl := Option.some.inj (ha.symm.trans ha')
    obtain ⟨c, d, items, hdoes, hitems, hd, hplain⟩ := hhandles.self
    have hdelivery := hhandles.sound.delivery n
    rw [hd] at hdelivery
    generalize he : (s₂.1.delivered s₂.2).actor? n = o at hdelivery
    cases hdelivery with
    | @known _ e hmore hplain' =>
      have he : (SystemM.deliver s₂).2.1.actor? n = some e := he
      have hgets := hitems.trans hmore
      refine ⟨e, he, .does htakes hdoes hgets (List.forall_mem_append.mpr ⟨hplain, hplain'⟩) fun hopen => ?_⟩
      rw [view_of_some he, Journal.record_of_does hdoes hgets, Journal.accepted_append, Journal.accepted_changes,
        Journal.arrivals_of_gets hgets, hopen]
      exact (Journal.only_coming _).1
  | @elsewhere m s s₁ s₂ item a₁ preempted hm hnext ha₁ hhandle =>
    obtain ⟨-, -, -, -, -, hhandles⟩ := handles_item hsound hlog hnext ha₁ hhandle
    obtain ⟨items, hitems⟩ := hhandles.others n hm.symm
    exact hother hhandles.sound hitems
  | @reschedules sys sys' σ hsame =>
    have hsome := hsame.actors n
    rw [ha, Option.map_some] at hsome
    obtain ⟨b, hb, -⟩ := Option.map_eq_some_iff.mp hsome
    obtain ⟨a', ha', hgets⟩ := hsame.gets hb
    obtain rfl := Option.some.inj (ha.symm.trans ha')
    exact ⟨b, hb, .gets hgets (fun _ h => absurd h List.not_mem_nil) fun _ => rfl⟩
  | @halts sys σ =>
    have hhalted := actor?_halted sys n
    rw [ha, Option.map_some] at hhalted
    split at hhalted
    · exact ⟨a.halt, hhalted, .halts⟩
    · rw [view_of_some ha, view_of_some hhalted]
      exact ⟨a, hhalted, .gets (.refl a) (fun _ h => absurd h List.not_mem_nil) (accepted_record (.refl a))⟩

end ActorSystem

/-! ## Where the stop is -/

/-- A stop is in the mailbox, with these items in front of it and these items behind it, and the actor has not to
configure itself after it. -/
structure Actor.StopAt (a : Actor) (ahead behind : List Item) : Prop where
  mail : a.mailbox.items = ahead ++ .stop :: behind
  configured : ∀ item ∈ behind, item.isConfigure = false

namespace Actor.StopAt

variable {a b c : Actor} {ahead behind items : List Item} {item : Item} {accepted : List Envelope}

theorem opened (h : a.StopAt ahead behind) : a.mailbox.closed = false := by
  refine Bool.eq_false_iff.mpr fun hclosed => ?_
  have hmail := h.mail
  rw [a.mailbox.empty_of_closed hclosed] at hmail
  exact List.append_ne_nil_of_right_ne_nil ahead (List.cons_ne_nil _ _) hmail.symm

/-- What comes goes behind the stop. -/
theorem gets (h : a.StopAt ahead behind) (hgets : a.Gets items b) (hitems : ∀ item ∈ items, item.isConfigure = false) :
    b.StopAt ahead (behind ++ items) := by
  refine ⟨?_, List.forall_mem_append.mpr ⟨h.configured, hitems⟩⟩
  rw [hgets.mail, h.opened, h.mail]
  simp

/-- What is taken from the mailbox was in front of the stop, or it is the stop. -/
theorem takes (h : a.StopAt ahead behind) (htakes : a.Takes item b) :
    (∃ ahead', ahead' <:+ ahead ∧ b.StopAt ahead' behind) ∨ item = .stop := by
  cases htakes with
  | deferred => exact .inl ⟨ahead, List.suffix_rfl, h.mail, h.configured⟩
  | @mailed item rest _ hmail _ =>
    have hsplit := h.mail
    rw [hmail] at hsplit
    cases ahead with
    | nil =>
      cases hsplit
      exact .inr rfl
    | cons first ahead =>
      cases hsplit
      exact .inl ⟨ahead, List.suffix_cons _ _, rfl, h.configured⟩

/-- **Whatever happens to an actor that is to stop**, the stop stays where it is in the mailbox, unless the actor's life
ends. -/
theorem fares (h : a.StopAt ahead behind) (hfares : a.Fares accepted b) :
    b.phase = .stopped ∨ ∃ ahead' items, ahead' <:+ ahead ∧ b.StopAt ahead' (behind ++ items) ∧
      accepted = items.filterMap Item.call? := by
  -- items come in, the system halts, or the actor takes its first item and acts on it
  cases hfares with
  | @gets items _ hgets hitems haccepted =>
    exact .inr ⟨ahead, items, List.suffix_rfl, h.gets hgets hitems, haccepted h.opened⟩
  | halts => exact .inl a.halt_phase
  | @does item answers items b c d htakes hdoes hgets hitems haccepted =>
    -- nothing but the stop itself closes the mailbox
    have hrest : item ≠ .stop → c.mailbox = b.mailbox := by
      intro hitem
      cases hdoes with
      | halts => exact absurd rfl hitem
      | absorbs | defers | answers | drops | ignores | begins | beginsAndEnds | goesOn | ends => rfl
    by_cases hitem : item = .stop
    · subst hitem
      cases hdoes with
      | halts => exact .inl (hgets.phase.trans b.halt_phase)
      | ignores hlate => exact hlate.elim
      | begins hcause => cases hcause
      | beginsAndEnds hcause => cases hcause
    -- what was taken stood ahead of the stop
    · obtain ⟨ahead', hsuffix, hstop⟩ := (h.takes htakes).resolve_right hitem
      have hstop : c.StopAt ahead' behind := ⟨hrest hitem ▸ hstop.mail, hstop.configured⟩
      exact .inr ⟨ahead', items, hsuffix, hstop.gets hgets hitems, haccepted hstop.opened⟩

end Actor.StopAt

/-- An actor whose life is over stays so. -/
theorem Actor.Fares.stopped {a b : Actor} {accepted : List Envelope} (h : a.Fares accepted b) (hlife : a.Life)
    (hstopped : a.phase = .stopped) : b.phase = .stopped := by
  cases h with
  | gets hgets => exact hgets.phase.trans hstopped
  | does htakes => exact absurd hstopped (htakes.phase_ne hlife)
  | halts => exact a.halt_phase

namespace ActorSystem

variable {n : Nat} {s t : ActorSystem × Store} {j k : Journal} {a b : Actor} {address : Address}

/-! ## After the call -/

/-- The call puts a stop behind everything that is in the mailbox, unless the actor's life is over. -/
theorem stop_stopAt (hsound : s.1.Sound s.2) (hlog : s.2.effects = #[])
    (hfound : s.1.registry.lookup address = some n) (ha : s.1.actor? n = some a) :
    ∃ b, (after (SystemM.stop address) s).1.actor? n = some b ∧ a.Gets [.stop] b ∧
      (b.phase = .stopped ∨ b.StopAt a.mailbox.items []) := by
  obtain ⟨sys, σ⟩ := s
  have hgets := Actor.Gets.receive sys.executor.running .stop a
  have hself : (after (SystemM.stop address) (sys, σ)).1.actor? n =
      some (a.receive sys.executor.running .stop) := by
    rw [after, SystemM.stop_state, hfound]
    -- there is nothing in the log to be delivered
    show (σ.effects.toList.foldl route _).actor? n = _
    rw [hlog]
    show (ActorSystem.enqueue _ n .stop).actor? n = _
    rw [actor?_enqueue, if_pos rfl]
    exact congrArg (Option.map _) ha
  refine ⟨_, hself, hgets, ?_⟩
  by_cases hphase : a.phase = .stopped
  · exact .inl (hgets.phase.trans hphase)
  · refine .inr ⟨?_, fun _ h => absurd h List.not_mem_nil⟩
    rw [hgets.mail, ((hsound.actors n a ha).2.opened hphase)]
    rfl

/-- The call is not an entry in the journal. -/
theorem Chronicle.stop (h : Chronicle n s j) (ha : s.1.actor? n = some a)
    (hb : (after (SystemM.stop address) s).1.actor? n = some b) (hgets : a.Gets [.stop] b) :
    Chronicle n (after (SystemM.stop address) s) j := by
  have hrecord : Journal.record none [] (s.1.view n) ((after (SystemM.stop address) s).1.view n) = [] := by
    rw [view_of_some ha, view_of_some hb, Journal.record, Journal.changes_of_gets hgets,
      Journal.arrivals_of_gets hgets]
    split <;> rfl
  have hstopped := h.external (.stop address)
  rw [← List.append_nil j, ← hrecord]
  exact hstopped

/-- **As the run goes on**, as long as the actor lives, the stop is in its mailbox, in front of everything that has come
since, and behind what is left of the items that were there. -/
theorem Proceeds.stopAt {items : List Item} (hrun : Proceeds n s k t) (h : Chronicle n s j)
    (ha : s.1.actor? n = some a) (hstop : a.phase = .stopped ∨ a.StopAt items []) :
    ∃ b, t.1.actor? n = some b ∧ (b.phase = .stopped ∨
      ∃ ahead behind, ahead <:+ items ∧ b.StopAt ahead behind ∧ k.accepted = behind.filterMap Item.call?) := by
  induction hrun with
  | refl => exact ⟨a, ha, hstop.imp_right fun hstop => ⟨items, [], List.suffix_rfl, hstop, rfl⟩⟩
  | @next k k' t u hrun hstep ih =>
    obtain ⟨b, hb, hcase⟩ := ih
    obtain ⟨hsound, hlog, -⟩ := (h.proceeds hrun).annals
    obtain ⟨c, hc, hfares⟩ := hstep.fares hsound hlog hb
    refine ⟨c, hc, ?_⟩
    rcases hcase with hover | ⟨ahead, behind, hsuffix, hstop, haccepted⟩
    · exact .inl (hfares.stopped (hsound.actors n b hb).2 hover)
    · rcases hstop.fares hfares with hover | ⟨ahead', more, hsuffix', hstop', hmore⟩
      · exact .inl hover
      · refine .inr ⟨ahead', behind ++ more, hsuffix'.trans hsuffix, hstop', ?_⟩
        rw [Journal.accepted_append, haccepted, hmore, List.filterMap_append]

/-- What was accepted before the call has been taken up, or is deferred, or is in front of the stop, in this order. -/
theorem Chronicle.accepted_before (h : Chronicle n t (j ++ k)) (hb : t.1.actor? n = some b) {ahead behind : List Item}
    (hstop : b.StopAt ahead behind) (hlives : b.phase ≠ .stopped)
    (haccepted : k.accepted = behind.filterMap Item.call?) :
    j.accepted = (j ++ k).takenUp ++ b.deferred ++ ahead.filterMap Item.call? := by
  obtain ⟨-, -, hannals⟩ := h.annals
  rw [view_of_some hb] at hannals
  have horder := hannals.order
  have hwaiting : b.situation.waiting =
      b.deferred ++ ahead.filterMap Item.call? ++ behind.filterMap Item.call? := by
    rw [Actor.situation, Actor.waiting, hstop.mail, List.filterMap_append, List.append_assoc]
    rfl
  rw [(hannals.kept (Actor.isStopped_of_ne hlives)).1, List.append_nil, hwaiting, Journal.accepted_append, haccepted,
    ← List.append_assoc, ← List.append_assoc] at horder
  exact List.append_cancel_right horder

/-- An actor without an activity that takes the stop has nothing deferred. -/
theorem idle_takes_stop {behind : List Item} {c : Actor} (hlife : b.Life) (hstop : b.StopAt [] behind)
    (htakes : b.Takes .stop c) (hidle : b.activity = none) : b.deferred = [] := by
  have hlives := htakes.phase_ne hlife
  cases htakes with
  | mailed hbehind =>
    refine hbehind (Actor.accepts_iff.mpr ⟨hidle, ?_⟩)
    cases hphase : b.phase with
    | ready | failed => rfl
    | stopped => exact absurd hphase hlives
    | created =>
      -- the item that configures it would have come after the stop
      have hone := hlife.configures
      have hnone : behind.countP Item.isConfigure = 0 := by
        refine List.countP_eq_zero.mpr fun item hitem => ?_
        rw [hstop.configured item hitem]
        exact Bool.false_ne_true
      rw [Actor.unconfigured_iff.mpr ⟨hphase, hidle⟩, hstop.mail, List.nil_append, List.countP_cons, hnone] at hone
      cases hone

/-- **What a stop leaves undone.** An actor is stopped in the course of any run, and the run goes on. As long as the actor
lives, the stop is in its mailbox: in front of it are items that were there before the call, and behind it is what has
been accepted since. What had been accepted before has been taken up, or is deferred, or is in front of the stop, in this
order. While the executor is running, the actor is in the run queue.

When nothing is in front of the stop any more and the actor takes it, there are two cases. An actor without an activity
has taken up everything that had been accepted before the call, and it has answered every request. Of an actor in the
midst of an activity the requests that had been accepted are those that it has answered, the one that the activity serves,
and those that are deferred; and either the activity waits for an unbound variable, or it waits nowhere and exactly one
item behind the stop resumes it. -/
theorem Chronicle.stopsBehind (h : Chronicle n s j) (hfound : s.1.registry.lookup address = some n)
    (ha : s.1.actor? n = some a) (hrun : Proceeds n (after (SystemM.stop address) s) k t) :
    ∃ b, t.1.actor? n = some b ∧ (b.phase ≠ .stopped →
      ∃ ahead behind, b.mailbox.items = ahead ++ .stop :: behind ∧ ahead <:+ a.mailbox.items ∧
        k.accepted = behind.filterMap Item.call? ∧
        j.accepted = (j ++ k).takenUp ++ b.deferred ++ ahead.filterMap Item.call? ∧
        (Running t → n ∈ t.1.runQueue) ∧
        (ahead = [] → (SystemM.nextItem n t).1 = some .stop →
          (b.activity = none →
            (j ++ k).takenUp = j.accepted ∧ (j ++ k).answered = j.accepted.flatMap Envelope.owed) ∧
          ∀ act, b.activity = some act →
            j.accepted.flatMap Envelope.owed =
              (j ++ k).answered ++ act.task.owed ++ b.deferred.flatMap Envelope.owed ∧
            ((∃ x, t.2.ParkedAt (.activity n act.id) x) ∧ behind.countP (Item.isResume act.id) = 0 ∨
              (∀ x, countFor (.activity n act.id) (t.2.waiting x) = 0) ∧
                behind.countP (Item.isResume act.id) = 1))) := by
  obtain ⟨hsound₀, hlog₀, -⟩ := h.annals
  obtain ⟨a', ha', hgets, hcalled⟩ := stop_stopAt hsound₀ hlog₀ hfound ha
  have hstopped := h.stop ha ha' hgets
  have hchronicle := hstopped.proceeds hrun
  obtain ⟨b, hb, hcase⟩ := hrun.stopAt hstopped ha' hcalled
  refine ⟨b, hb, fun hlives => ?_⟩
  obtain ⟨ahead, behind, hsuffix, hstop, haccepted⟩ := hcase.resolve_left hlives
  obtain ⟨hsound, hlog, hannals⟩ := hchronicle.annals
  have hbefore := hchronicle.accepted_before hb hstop hlives haccepted
  refine ⟨ahead, behind, hstop.mail, hsuffix, haccepted, hbefore, fun hrunning => ?_, fun hnone hnext => ?_⟩
  · have hwork : b.hasWork = true := by
      refine hasWork_iff.mpr (.inl ?_)
      rw [hstop.mail]
      exact List.append_ne_nil_of_right_ne_nil ahead (List.cons_ne_nil _ _)
    exact hrunning.awake.scheduled.work n b hb (Option.some_ne_none n).symm hwork
  subst hnone
  have htaken : j.accepted = (j ++ k).takenUp ++ b.deferred := hbefore.trans (List.append_nil _)
  -- what has been taken up has been answered or is being served
  have hserved := hannals.served
  rw [view_of_some hb] at hserved hannals
  rw [(hannals.kept (Actor.isStopped_of_ne hlives)).2, List.flatMap_nil, List.append_nil] at hserved
  refine ⟨fun hidle => ?_, fun act hact => ⟨?_, ?_⟩⟩
  · obtain ⟨b', c, hb', htakes, -⟩ := SystemM.nextItem_takes (Prod.ext hnext rfl)
    obtain rfl := Option.some.inj (hb.symm.trans hb')
    have hdeferred := idle_takes_stop (hsound.actors n b hb).2 hstop htakes hidle
    have hall : (j ++ k).takenUp = j.accepted := by
      rw [htaken, hdeferred, List.append_nil]
    rw [hall, Actor.situation, hidle] at hserved
    exact ⟨hall, (hserved.trans (List.append_nil _)).symm⟩
  · rw [Actor.situation, hact] at hserved
    rw [htaken, List.flatMap_append, hserved]
    simp
  · have hresumptions : b.resumptions act.id = behind.countP (Item.isResume act.id) := by
      rw [Actor.resumptions, hstop.mail]
      rfl
    rw [← hresumptions]
    exact hchronicle.balanced.outstanding hsound hlog hb hact

/-! ## An actor that is stopped while it has a request to answer -/

/-- The actor handles an item as the run goes on. -/
theorem Proceeds.handled (h : Proceeds 0 s k t) (item : Item) (hitem : (SystemM.nextItem 0 t).1 = some item) :
    Proceeds 0 s (k ++ .record (some item) (handling item t).2.answers ((SystemM.nextItem 0 t).2.1.view 0)
      ((ActorSystem.handled item t).1.view 0)) (ActorSystem.handled item t) :=
  h.next (.handles (nextItem_view hitem).1 (nextItem_view hitem).2 rfl)

/-- The echo has been asked, and it is stopped then. -/
def toldToStop : ActorSystem × Store := after (SystemM.stop "solo") (told question (solo echo))

/-- The request is in the journal of the echo. -/
theorem chronicle_asked : Chronicle 0 (told question (solo echo)) [.accepted question] := by
  obtain ⟨hconstruct, hconfigure, hspawn⟩ := external_solo ActorSystem.echo (by cbv) (by cbv)
  have hfresh : Chronicle 0 fresh [] := .start vacant_empty create_fresh
  have hsolo := ((hfresh.external hconstruct).external hconfigure).external hspawn
  have hvar : 0 < (solo ActorSystem.echo).2.vars.size := by cbv
  have hasked : Chronicle 0 (told question (solo ActorSystem.echo)) _ :=
    hsolo.external (.send ⟨.actor 0, "solo"⟩ ⟨trivial, hvar⟩)
  refine Eq.subst (motive := Chronicle 0 _) ?_ hasked
  cbv

/-- The echo when it has configured itself and dealt with the question. -/
def echoed : ActorSystem × Store := handled (.envelope question) (handled (.configure 0) toldToStop)

/-- Both come before the stop. -/
theorem Chronicle.stopsBehind_echo : ∃ s j k t b, Chronicle 0 s j ∧ s.1.registry.lookup "solo" = some 0 ∧
    Proceeds 0 (after (SystemM.stop "solo") s) k t ∧ t.1.actor? 0 = some b ∧ b.mailbox.items = [.stop] ∧
    b.activity = none ∧ j.accepted = [question] ∧ (j ++ k).answered = question.owed := by
  have hknown : ((told question (solo ActorSystem.echo)).1.actor? 0).isSome = true := by cbv
  have hfound : (told question (solo ActorSystem.echo)).1.registry.lookup "solo" = some 0 := by cbv
  obtain ⟨a, ha⟩ := Option.isSome_iff_exists.mp hknown
  have hfirst := (Proceeds.refl (n := 0) (s := toldToStop)).handled (.configure 0) (by cbv)
  have hrun : Proceeds 0 toldToStop _ echoed := hfirst.handled (.envelope question) (by cbv)
  have hnext : (SystemM.nextItem 0 echoed).1 = some .stop := by cbv
  have hview : (echoed.1.view 0).phase.isStopped = false ∧ (echoed.1.view 0).activity = none ∧
      (echoed.1.view 0).mailbox.items = [.stop] := by cbv
  -- the actor has answered, so only the stop is left in its mailbox
  obtain ⟨b, hb, hstops⟩ := chronicle_asked.stopsBehind hfound ha hrun
  rw [view_of_some hb] at hview
  obtain ⟨hlives, hidle, hmail⟩ := hview
  have hlives : b.phase ≠ .stopped := fun hstopped => by
    rw [hstopped] at hlives
    cases hlives
  obtain ⟨ahead, behind, hitems, -, -, -, -, htakes⟩ := hstops hlives
  -- nothing stands ahead of the stop
  have hnone : ahead = [] := by
    rw [hmail] at hitems
    cases ahead with
    | nil => rfl
    | cons first ahead => cases ahead <;> cases hitems
  obtain ⟨-, hanswered⟩ := (htakes hnone hnext).1 hidle
  exact ⟨_, _, _, _, b, chronicle_asked, hfound, hrun, hb, hmail, hidle, rfl, hanswered⟩

/-! ## The same actor in a system with short time slices -/

/-- A new system in which every computation is preempted after one step. -/
def hasty : ActorSystem × Store :=
  let root := loadModules {} modules
  ({ kernel := ⟨{ timeSlice := 1 }, ⟨by decide, by decide, by decide⟩, root.1⟩, executor := { workers := 1 } }, root.2)

theorem create_hasty : create { timeSlice := 1 } {} = .ok hasty := rfl

/-- The echo there. -/
def hastyEcho : ActorSystem × Store :=
  after (SystemM.spawn (some "solo") 0)
    (after (SystemM.configure 0 []) (after (SystemM.construct (recipe echo) "Solo") hasty))

/-- The chronicle of the hasty echo up to its question, which has been accepted and not been taken up. -/
theorem chronicle_hastyEcho : Chronicle 0 (told question hastyEcho) [.accepted question] := by
  have hhasty : Chronicle 0 hasty [] := .start vacant_empty create_hasty
  have hconstructed : Chronicle 0 (after (SystemM.construct (recipe ActorSystem.echo) "Solo") hasty) _ :=
    hhasty.external (.construct hhasty.annals.1 (recipe ActorSystem.echo) "Solo")
  have hclosure : 0 < (after (SystemM.construct (recipe ActorSystem.echo) "Solo") hasty).2.closures.size := by cbv
  have hconfigured : Chronicle 0 (after (SystemM.configure 0 [])
      (after (SystemM.construct (recipe ActorSystem.echo) "Solo") hasty)) _ :=
    hconstructed.external (.configure hconstructed.annals.1 hclosure fun v hv => absurd hv List.not_mem_nil)
  have hconfig : 0 < (after (SystemM.configure 0 [])
      (after (SystemM.construct (recipe ActorSystem.echo) "Solo") hasty)).2.configs.size := by cbv
  have hecho : Chronicle 0 hastyEcho _ := hconfigured.external (.spawn (some "solo") hconfig)
  have hvar : 0 < hastyEcho.2.vars.size := by cbv
  have hasked : Chronicle 0 (told question hastyEcho) _ :=
    hecho.external (.send ⟨.actor 0, "solo"⟩ ⟨trivial, hvar⟩)
  refine Eq.subst (motive := Chronicle 0 _) ?_ hasked
  cbv

/-- The echo when it has been stopped, has been preempted while it configures itself, and has deferred the question. -/
def hurried : ActorSystem × Store :=
  handled (.envelope question) (handled (.configure 0) (after (SystemM.stop "solo") (told question hastyEcho)))

/-- **A stop may come too early.** The activity that configures the echo is preempted, and goes on behind the stop. So when
the echo takes the stop, the question that it had accepted before is deferred, and exactly one item behind the stop would
resume the activity, which waits for nothing. The echo halts, and the question is discarded without an answer. -/
theorem Chronicle.stop_discards : ∃ s j k t, Chronicle 0 s j ∧ s.1.registry.lookup "solo" = some 0 ∧
    j.accepted = [question] ∧ Proceeds 0 (after (SystemM.stop "solo") s) k t ∧
    (SystemM.nextItem 0 t).1 = some .stop ∧ (t.1.view 0).deferred = [question] ∧
    (t.1.view 0).activity.isSome = true ∧
    (∃ stack, (t.1.view 0).mailbox.items = [.stop, .resume 1 stack]) ∧
    ∃ k' u, Happens 0 t k' u ∧ (u.1.view 0).phase.isStopped = true ∧
      (j ++ k ++ k').answered = [] ∧ (j ++ k ++ k').discarded = question.owed := by
  have hfound : (told question hastyEcho).1.registry.lookup "solo" = some 0 := by cbv
  -- the configuration is still going on when the question comes, which is deferred
  have hfirst := (Proceeds.refl (n := 0) (s := after (SystemM.stop "solo") (told question hastyEcho))).handled
    (.configure 0) (by cbv)
  have hrun : Proceeds 0 (after (SystemM.stop "solo") (told question hastyEcho)) _ hurried :=
    hfirst.handled (.envelope question) (by cbv)
  have hnext : (SystemM.nextItem 0 hurried).1 = some .stop := by cbv
  have hview : (hurried.1.view 0).deferred = [question] ∧ (hurried.1.view 0).activity.isSome = true := by cbv
  have hmail : ∃ stack, (hurried.1.view 0).mailbox.items = [.stop, .resume 1 stack] := ⟨_, by cbv⟩
  have hhalts : Happens 0 hurried _ (ActorSystem.handled .stop hurried) :=
    .handles (nextItem_view hnext).1 (nextItem_view hnext).2 rfl
  refine ⟨_, _, _, _, chronicle_hastyEcho, hfound, rfl, hrun, hnext, hview.1, hview.2, hmail, _, _, hhalts, ?_, ?_, ?_⟩
  · cbv
  · cbv
  · cbv

end ActorSystem

end Dataflow
