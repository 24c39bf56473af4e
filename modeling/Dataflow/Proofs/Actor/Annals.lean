/-
Annals: what happens to one actor, in order, and what this makes of it.

Of an actor that changes one can see what its mailbox accepts, what it takes up, which activities begin and end, whom it
answers, and its end. A journal writes this down, by comparing the actor before and after and nothing else. It turns out
that there are only six kinds of moments in the life of an actor, and that each of them is determined by four things:
which envelopes wait, which activity is going on, how many there have been, and whether all is over. So everything that
has to be said about the order of events is said about these moments (`Situation.Moment`).
-/
import Dataflow.Proofs.Actor.Life

set_option autoImplicit false

namespace Dataflow

/-! ## Events -/

/-- The request or notification that the item is. -/
def Item.call? : Item → Option Envelope
  | .envelope (.request v r t) => some (.request v r t)
  | .envelope (.notify v) => some (.notify v)
  | .envelope (.response ..) | .configure _ | .resume .. | .stop => none

/-- Nothing happens any more in this phase. -/
def Phase.isStopped : Phase → Bool
  | .stopped => true
  | .created | .ready _ | .failed _ => false

namespace Actor

/-- The requests and notifications that the actor has not taken up, those that came first in front. -/
def waiting (a : Actor) : List Envelope := a.deferred ++ a.mailbox.items.filterMap Item.call?

/-- What the actor takes up when it handles the item; it takes nothing up unless it can. -/
def takesUp? (a : Actor) (item : Item) : Option Envelope := if a.accepts then item.call? else none

end Actor

/-- What happens to an actor. -/
inductive Event where
  /-- The mailbox accepts a request or notification. -/
  | accepted (e : Envelope)
  /-- A request or notification is taken up. -/
  | takenUp (e : Envelope)
  /-- An activity begins when an item is handled. -/
  | began (id : Nat) (cause : Option Item)
  | answered (requester : ActorRef) (target : Term)
  | ended (id : Nat)
  /-- The actor's life ends, with an activity that is given up and envelopes that are dropped. -/
  | halted (activity : Option Activity) (dropped : List Envelope)

namespace Event

/-- The request or notification that is accepted. -/
@[simp] def accepted? : Event → Option Envelope
  | .accepted e => some e
  | _ => none

/-- The request or notification that is taken up. -/
@[simp] def takenUp? : Event → Option Envelope
  | .takenUp e => some e
  | _ => none

/-- The answer that is given. -/
@[simp] def answered? : Event → Option (ActorRef × Term)
  | .answered requester target => some (requester, target)
  | _ => none

/-- An activity begins or ends. -/
@[simp] def isMark : Event → Bool
  | .began .. | .ended _ => true
  | _ => false

/-- The activity that is given up. -/
@[simp] def givenUp? : Event → Option Activity
  | .halted activity _ => activity
  | _ => none

/-- The requests and notifications that are dropped. -/
@[simp] def dropped : Event → List Envelope
  | .halted _ dropped => dropped
  | _ => []

end Event

/-- What has happened to an actor, in order. -/
abbrev Journal := List Event

namespace Journal

/-- The requests and notifications that the mailbox has accepted. -/
def accepted (j : Journal) : List Envelope := j.filterMap Event.accepted?

/-- The requests and notifications that have been taken up. -/
def takenUp (j : Journal) : List Envelope := j.filterMap Event.takenUp?

/-- The answers that have been given. -/
def answered (j : Journal) : List (ActorRef × Term) := j.filterMap Event.answered?

/-- The beginnings and ends of activities. -/
def marks (j : Journal) : List Event := j.filter Event.isMark

/-- The activity that was given up when the actor's life ended. -/
def givenUp (j : Journal) : List Activity := j.filterMap Event.givenUp?

/-- What the actor had not taken up when its life ended. -/
def dropped (j : Journal) : List Envelope := j.flatMap Event.dropped

section Append

variable (j k : Journal)

@[simp] theorem accepted_append : accepted (j ++ k) = j.accepted ++ accepted k := List.filterMap_append

@[simp] theorem takenUp_append : takenUp (j ++ k) = j.takenUp ++ takenUp k := List.filterMap_append

@[simp] theorem answered_append : answered (j ++ k) = j.answered ++ answered k := List.filterMap_append

@[simp] theorem marks_append : marks (j ++ k) = j.marks ++ marks k := List.filter_append j k

@[simp] theorem givenUp_append : givenUp (j ++ k) = j.givenUp ++ givenUp k := List.filterMap_append

@[simp] theorem dropped_append : dropped (j ++ k) = j.dropped ++ dropped k := List.flatMap_append

end Append

@[simp] theorem of_nil :
    accepted [] = [] ∧ takenUp [] = [] ∧ answered [] = [] ∧ marks [] = [] ∧ givenUp [] = [] ∧ dropped [] = [] :=
  ⟨rfl, rfl, rfl, rfl, rfl, rfl⟩

/-- What one event tells comes before what the others tell. -/
@[simp] theorem of_cons (e : Event) (j : Journal) :
    accepted (e :: j) = e.accepted?.toList ++ j.accepted ∧ takenUp (e :: j) = e.takenUp?.toList ++ j.takenUp ∧
      answered (e :: j) = e.answered?.toList ++ j.answered ∧
      marks (e :: j) = (if e.isMark then [e] else []) ++ j.marks ∧
      givenUp (e :: j) = e.givenUp?.toList ++ j.givenUp ∧ dropped (e :: j) = e.dropped ++ j.dropped := by
  refine ⟨?_, ?_, ?_, ?_, ?_, rfl⟩
  · cases e <;> rfl
  · cases e <;> rfl
  · cases e <;> rfl
  · cases e <;> rfl
  · rw [givenUp, List.filterMap_cons]
    cases e.givenUp? <;> rfl

/-- Requests and notifications that come. -/
def coming (envelopes : List Envelope) : Journal := envelopes.map .accepted

/-- Answers that are given. -/
def replies (answers : List (ActorRef × Term)) : Journal := answers.map fun p => .answered p.1 p.2

/-- Coming is all that happens to envelopes that come. -/
@[simp] theorem only_coming (envelopes : List Envelope) :
    (coming envelopes).accepted = envelopes ∧ (coming envelopes).takenUp = [] ∧ (coming envelopes).answered = [] ∧
      (coming envelopes).marks = [] ∧ (coming envelopes).givenUp = [] ∧ (coming envelopes).dropped = [] := by
  induction envelopes with
  | nil => exact ⟨rfl, rfl, rfl, rfl, rfl, rfl⟩
  | cons e envelopes ih =>
    obtain ⟨haccepted, hrest⟩ := ih
    exact ⟨congrArg (e :: ·) haccepted, hrest⟩

/-- Being given is all that happens to answers. -/
@[simp] theorem only_replies (answers : List (ActorRef × Term)) :
    (replies answers).accepted = [] ∧ (replies answers).takenUp = [] ∧ (replies answers).answered = answers ∧
      (replies answers).marks = [] ∧ (replies answers).givenUp = [] ∧ (replies answers).dropped = [] := by
  induction answers with
  | nil => exact ⟨rfl, rfl, rfl, rfl, rfl, rfl⟩
  | cons p answers ih =>
    obtain ⟨haccepted, htaken, hanswered, hrest⟩ := ih
    exact ⟨haccepted, htaken, congrArg (p :: ·) hanswered, hrest⟩

/-! ## Writing down what happens -/

/-- What there is to write down when an actor has changed, apart from what came to its mailbox: it has handled the item
`took`, if any, and sent these answers. All activities count as begun that are new, and as ended that are not there any
more. -/
def changes (took : Option Item) (answers : List (ActorRef × Term)) (before after : Actor) : Journal :=
  let begun := List.range' (before.activities + 1) (after.activities - before.activities)
  let going := before.activity.toList.map Activity.id ++ begun
  let done := going.filter fun id => !(after.activity.toList.map Activity.id).contains id
  (took.bind before.takesUp?).toList.map .takenUp
    ++ begun.map (.began · took)
    ++ replies answers
    ++ done.map .ended
    ++ if after.phase.isStopped && !before.phase.isStopped then [.halted before.activity before.waiting] else []

/-- What has come to the mailbox of an actor. -/
def arrivals (before after : Actor) : Journal :=
  coming ((after.mailbox.items.drop before.mailbox.items.length).filterMap Item.call?)

/-- Everything that there is to write down when an actor has changed. -/
def record (took : Option Item) (answers : List (ActorRef × Term)) (before after : Actor) : Journal :=
  changes took answers before after ++ arrivals before after

end Journal

/-! ## Situations and moments -/

/-- Whom the envelope asks to be answered, and what the answer is for. -/
def Envelope.owed : Envelope → List (ActorRef × Term)
  | .request _ requester target => [(requester, target)]
  | .notify _ | .response .. => []

/-- Where an actor stands. -/
structure Situation where
  waiting : List Envelope
  activity : Option Activity
  activities : Nat
  stopped : Bool

/-- Where the actor stands. -/
def Actor.situation (a : Actor) : Situation := ⟨a.waiting, a.activity, a.activities, a.phase.isStopped⟩

/-- A moment in the life of an actor, with what is written down then. -/
inductive Situation.Moment : Situation → Journal → Situation → Prop where
  | arrives {w es : List Envelope} {act : Option Activity} {k : Nat} :
      Moment ⟨w, act, k, false⟩ (.coming es) ⟨w ++ es, act, k, false⟩
  /-- An envelope is taken up, and that is all. -/
  | settles {e : Envelope} {w : List Envelope} {k : Nat} :
      Moment ⟨e :: w, none, k, false⟩ ([.takenUp e] ++ Journal.replies e.owed) ⟨w, none, k, false⟩
  | configures {w : List Envelope} {config : ConfigId} {x : VarId} :
      Moment ⟨w, none, 0, false⟩ [.began 1 (some (.configure config))] ⟨w, some ⟨1, .configure x⟩, 1, false⟩
  /-- An envelope is taken up, and an activity begins. -/
  | begins {e : Envelope} {w : List Envelope} {k : Nat} {task : Task} (hk : 0 < k) (howed : task.owed = e.owed) :
      Moment ⟨e :: w, none, k, false⟩ ([.takenUp e] ++ [.began (k + 1) (some (.envelope e))])
        ⟨w, some ⟨k + 1, task⟩, k + 1, false⟩
  | ends {w : List Envelope} {act : Activity} {k : Nat} :
      Moment ⟨w, some act, k, false⟩ (Journal.replies act.task.owed ++ [.ended act.id])
        ⟨w, none, k, false⟩
  | halts {w : List Envelope} {act : Option Activity} {k : Nat} :
      Moment ⟨w, act, k, false⟩ ((act.toList.map fun act => .ended act.id) ++ [.halted act w]) ⟨[], none, k, true⟩

/-- Moments that lead from the beginning of a life to a situation. -/
inductive Situation.Annals : Journal → Situation → Prop where
  | start : Annals [] ⟨[], none, 0, false⟩
  | next {j j' : Journal} {s s' : Situation} (h : Annals j s) (hmoment : s.Moment j' s') : Annals (j ++ j') s'

/-! ## What is written down -/

namespace Actor

variable {a : Actor}

theorem isStopped_iff {p : Phase} : p.isStopped = true ↔ p = .stopped := by
  cases p <;> simp [Phase.isStopped]

theorem isStopped_of_ne {p : Phase} (h : p ≠ .stopped) : p.isStopped = false :=
  Bool.eq_false_iff.mpr fun hstopped => h (isStopped_iff.mp hstopped)

theorem halt_of_running (h : a.phase.isStopped = false) :
    a.halt = { a with phase := .stopped, activity := none, deferred := [], mailbox := a.mailbox.close } := by
  unfold halt
  split
  · next hphase =>
    rw [hphase] at h
    cases h
  · rfl

theorem situation_of_running (h : a.phase.isStopped = false) :
    a.situation = ⟨a.waiting, a.activity, a.activities, false⟩ := by
  rw [situation, h]

/-- No activity ends with the end of its actor's life. -/
theorem isStopped_finish (h : a.phase.isStopped = false) {σ : Store} {task : Task} {phase : Option Phase}
    {reply : Option Effect} (hends : task.Ends σ phase reply) : (a.finish phase).phase.isStopped = false := by
  cases hends with
  | configured | unconfigured => rfl
  | answered | notified => exact h

end Actor

namespace Journal

variable {a b c : Actor} {items : List Item} {took : Option Item} {answers : List (ActorRef × Term)}

/-- Neither does an activity begin nor does one end. -/
theorem changes_quiet (hactivities : b.activities = a.activities) (hactivity : b.activity = a.activity)
    (hphase : b.phase = a.phase) :
    changes took answers a b =
      (took.bind a.takesUp?).toList.map .takenUp ++ replies answers := by
  rw [changes, hactivities, hactivity, hphase, Nat.sub_self]
  cases a.activity with
  | none => simp
  | some act => simp

/-- The changes of an actor that begins an activity: what it has taken up, if that had been put aside, and the beginning. -/
theorem changes_begins (hidle : a.activity = none) (task : Task) :
    changes took answers a (a.begin task) =
      (took.bind a.takesUp?).toList.map .takenUp ++ [.began (a.activities + 1) took] ++
        replies answers := by
  rw [changes, hidle]
  simp [Actor.begin]

/-- If the activity ends in the same item, its end is written behind the answers. -/
theorem changes_beginsAndEnds (hidle : a.activity = none) (task : Task) {phase : Option Phase}
    (hphase : (a.finish phase).phase.isStopped = a.phase.isStopped) :
    changes took answers a ((a.begin task).finish phase) =
      (took.bind a.takesUp?).toList.map .takenUp ++ [.began (a.activities + 1) took] ++
        replies answers ++ [.ended (a.activities + 1)] := by
  have hphase : ((a.begin task).finish phase).phase.isStopped = a.phase.isStopped := hphase
  rw [changes, hidle, hphase]
  simp [Actor.begin, Actor.finish]

/-- An activity that has been resumed and now ends has given its answers before its end. -/
theorem changes_ends {act : Activity} (hact : a.activity = some act) {phase : Option Phase}
    (hphase : (a.finish phase).phase.isStopped = a.phase.isStopped) :
    changes took answers a (a.finish phase) =
      (took.bind a.takesUp?).toList.map .takenUp ++ replies answers ++ [.ended act.id] := by
  rw [changes, hact, hphase]
  simp [Actor.finish]

/-- An actor that halts ends its activity, if it has one, and leaves behind what has been waiting. -/
theorem changes_halts (hphase : a.phase.isStopped = false) :
    changes took answers a a.halt =
      (took.bind a.takesUp?).toList.map .takenUp ++ replies answers ++
        (a.activity.toList.map fun act => .ended act.id) ++ [.halted a.activity a.waiting] := by
  rw [changes, Actor.halt_of_running hphase, hphase]
  cases a.activity with
  | none => simp [Phase.isStopped]
  | some act => simp [Phase.isStopped]

/-- Items that come are all that happens when an actor gets items. -/
theorem changes_of_gets (h : a.Gets items b) : changes none [] a b = [] := changes_quiet h.activities h.activity h.phase

/-- The calls among the items arrive, in their order, unless the mailbox is closed. -/
theorem arrivals_of_gets (h : a.Gets items b) :
    arrivals a b = if a.mailbox.closed then [] else coming (items.filterMap Item.call?) := by
  rw [arrivals, h.mail]
  split
  · rw [List.drop_nil]
    rfl
  · rw [List.drop_left]

/-- What an actor does with an item comes before what it gets then. -/
theorem record_of_does {item : Item} (hdoes : a.Does item answers b) (hgets : b.Gets items c) :
    record (some item) answers a c = changes (some item) answers a b ++ arrivals b c := by
  have hchanges : changes (some item) answers a c = changes (some item) answers a b := by
    rw [changes, changes, hgets.activities, hgets.activity, hgets.phase]
  have hmail : b.mailbox.items = a.mailbox.items ∨ b.mailbox.closed = true := by
    cases hdoes with
    | halts =>
      unfold Actor.halt
      split
      · exact .inl rfl
      · exact .inr rfl
    | absorbs | defers | answers | drops | ignores | begins | beginsAndEnds | goesOn | ends => exact .inl rfl
  rw [record, hchanges]
  congr 1
  rcases hmail with hmail | hclosed
  · rw [arrivals, arrivals, hmail]
  · rw [arrivals, arrivals, hgets.mail, if_pos hclosed, List.drop_nil, List.drop_nil]

/-- Nothing comes to an actor when its life ends. -/
theorem record_halt (a : Actor) : record none [] a a.halt = changes none [] a a.halt := by
  have hnothing : arrivals a a.halt = [] := by
    unfold Actor.halt arrivals
    split
    · rw [List.drop_length]
      rfl
    · show coming (List.filterMap _ (List.drop _ [])) = _
      rw [List.drop_nil]
      rfl
  rw [record, hnothing, List.append_nil]

end Journal

/-! ## What waits -/

theorem Item.call?_of_isCall {e : Envelope} (h : e.IsCall) : Item.call? (.envelope e) = some e := by
  cases e with
  | request _ _ _ | notify _ => rfl
  | response _ _ => exact h.elim

namespace Actor

variable {a b c : Actor} {item : Item}

/-- Only requests and notifications are taken up. -/
theorem takesUp?_of_other (hitem : item.call? = none) : a.takesUp? item = none := by
  rw [takesUp?, hitem]
  split <;> rfl

/-- An actor that can take something up takes what has waited longest. -/
theorem waiting_of_accepts (h : a.Takes item b) (hlife : a.Life) (haccepts : b.accepts = true) :
    a.waiting = item.call?.toList ++ b.waiting := by
  cases h with
  | @deferred e rest _ hdeferred =>
    have hcall := hlife.calls e (hdeferred ▸ List.mem_cons_self)
    rw [waiting, hdeferred, Item.call?_of_isCall hcall]
    rfl
  | @mailed item rest hbehind hmail hopen =>
    have hnone := hbehind haccepts
    rw [waiting, waiting, hmail, hnone, List.filterMap_cons]
    cases item.call? <;> rfl

/-- An actor that is busy takes what is in its mailbox. -/
theorem waiting_of_busy (h : a.Takes item b) (hbusy : b.accepts = false) :
    a.waiting = b.deferred ++ item.call?.toList ++ b.mailbox.items.filterMap Item.call? := by
  cases h with
  | deferred haccepts =>
    rw [accepts] at haccepts hbusy
    rw [haccepts] at hbusy
    cases hbusy
  | @mailed item rest hbehind hmail hopen =>
    rw [waiting, hmail, List.filterMap_cons, List.append_assoc]
    cases item.call? <;> rfl

/-- Taking anything else leaves what waits as it is. -/
theorem waiting_of_other (h : a.Takes item b) (hlife : a.Life) (hitem : item.call? = none) :
    b.waiting = a.waiting := by
  cases haccepts : b.accepts with
  | true =>
    rw [waiting_of_accepts h hlife haccepts, hitem]
    rfl
  | false =>
    rw [waiting_of_busy h haccepts, hitem, waiting]
    simp

theorem situation_of_other (h : a.Takes item b) (hlife : a.Life) (hitem : item.call? = none) :
    b.situation = a.situation := by
  rw [situation, situation, waiting_of_other h hlife hitem, h.same.1, h.same.2.1, h.same.2.2]

end Actor

/-! ## Moments in the life of an actor -/

namespace Situation

variable {j : Journal} {a b c : Actor} {item : Item} {items : List Item} {answers : List (ActorRef × Term)}

/-- What an actor gets, unless its life is over. -/
theorem Annals.gets (h : Annals j a.situation) (hgets : a.Gets items b)
    (hclosed : a.phase.isStopped = true → a.mailbox.closed = true) : Annals (j ++ .arrivals a b) b.situation := by
  rw [Journal.arrivals_of_gets hgets]
  have hmail := hgets.mail
  split at hmail
  · next hover =>
    have hsame : b.situation = a.situation := by
      rw [Actor.situation, Actor.situation, Actor.waiting, Actor.waiting, hmail, hgets.deferred, hgets.activity,
        hgets.activities, hgets.phase, a.mailbox.empty_of_closed hover]
    rw [if_pos hover, List.append_nil, hsame]
    exact h
  · next hopen =>
    have hrunning : a.phase.isStopped = false := Bool.eq_false_iff.mpr fun hstopped => hopen (hclosed hstopped)
    have hwaiting : b.waiting = a.waiting ++ items.filterMap Item.call? := by
      rw [Actor.waiting, Actor.waiting, hmail, hgets.deferred, List.filterMap_append, List.append_assoc]
    rw [if_neg hopen, Actor.situation, hwaiting, hgets.activity, hgets.activities, hgets.phase, hrunning]
    rw [Actor.situation_of_running hrunning] at h
    exact h.next .arrives

/-- A halt is written down once. What comes after a halt is a halt of an actor that has stopped already, which changes
nothing, and nothing is written then. -/
theorem Annals.halts (h : Annals j a.situation) : Annals (j ++ .changes none [] a a.halt) a.halt.situation := by
  cases hphase : a.phase.isStopped with
  | false =>
    rw [Actor.situation_of_running hphase] at h
    rw [Journal.changes_halts hphase, Actor.halt_of_running hphase]
    exact h.next .halts
  | true =>
    have hhalt : a.halt = a := by
      unfold Actor.halt
      rw [Actor.isStopped_iff.mp hphase]
    rw [hhalt, Journal.changes_of_gets (.refl a), List.append_nil]
    exact h

/-- The beginning of an activity. -/
theorem Moment.of_causes (hlife : a.Life) (htakes : a.Takes item b) {task : Task} (hcause : item.Causes b task) :
    b.activity = none ∧
      a.situation.Moment ((b.takesUp? item).toList.map .takenUp ++ [.began (b.activities + 1) (some item)])
        (b.begin task).situation := by
  have hphase : b.phase.isStopped = false := Actor.isStopped_of_ne (htakes.same.1 ▸ htakes.phase_ne hlife)
  have hbegun : (b.begin task).situation = ⟨b.waiting, some ⟨b.activities + 1, task⟩, b.activities + 1, false⟩ :=
    Actor.situation_of_running hphase
  -- an envelope is the first of those that wait, and it is not the first thing that the actor does
  have henvelope : ∀ {e : Envelope}, item = .envelope e → e.IsCall → b.accepts = true → task.owed = e.owed →
      b.activity = none ∧ a.situation.Moment
        ((b.takesUp? item).toList.map .takenUp ++ [.began (b.activities + 1) (some item)]) (b.begin task).situation := by
    intro e hitem hcall haccepts howed
    subst hitem
    obtain ⟨hidle, hready⟩ := Actor.accepts_iff.mp haccepts
    have hk : 0 < b.activities := htakes.same.2.2 ▸ hlife.configured (htakes.same.1 ▸ hready)
    have hwaiting := Actor.waiting_of_accepts htakes hlife haccepts
    rw [Item.call?_of_isCall hcall] at hwaiting
    refine ⟨hidle, ?_⟩
    rw [hbegun, Actor.situation_of_running (htakes.same.1 ▸ hphase), hwaiting, ← htakes.same.2.1, hidle,
      ← htakes.same.2.2, Actor.takesUp?, if_pos haccepts, Item.call?_of_isCall hcall]
    exact .begins hk howed
  cases hcause with
  | @configure config x hcreated =>
    obtain ⟨hphase', hidle⟩ := Actor.unconfigured_iff.mp (hlife.takes_configure htakes).1
    have hidle : b.activity = none := htakes.same.2.1.trans hidle
    have hfirst : b.activities = 0 := by
      rw [htakes.same.2.2, hlife.created hphase', ← htakes.same.2.1, hidle]
      rfl
    refine ⟨hidle, ?_⟩
    rw [← Actor.situation_of_other htakes hlife rfl, Actor.situation_of_running hphase, hbegun, hidle, hfirst,
      Actor.takesUp?_of_other rfl]
    exact .configures
  | request haccepts => exact henvelope rfl trivial haccepts rfl
  | notify haccepts => exact henvelope rfl trivial haccepts rfl

/-- Nothing is taken up or answered, and nothing begins or ends. -/
theorem Annals.silent (h : Annals j a.situation) (hactivities : c.activities = b.activities)
    (hactivity : c.activity = b.activity) (hphase : c.phase = b.phase) (hnone : b.takesUp? item = none)
    (hsame : c.situation = a.situation) : Annals (j ++ .changes (some item) [] b c) c.situation := by
  rw [Journal.changes_quiet hactivities hactivity hphase, Option.bind_some, hnone, hsame]
  exact (List.append_nil j).symm ▸ h

/-- An envelope is taken up, and that is all. -/
theorem Annals.settles (h : Annals j a.situation) (hlife : a.Life) {e : Envelope} (htakes : a.Takes (.envelope e) b)
    (hcall : e.IsCall) (haccepts : b.accepts = true) :
    Annals (j ++ .changes (some (.envelope e)) e.owed b b) b.situation := by
  have hphase : b.phase.isStopped = false := Actor.isStopped_of_ne (htakes.same.1 ▸ htakes.phase_ne hlife)
  have hwaiting := Actor.waiting_of_accepts htakes hlife haccepts
  have hidle := (Actor.accepts_iff.mp haccepts).1
  rw [Item.call?_of_isCall hcall] at hwaiting
  rw [Actor.situation_of_running (htakes.same.1 ▸ hphase), ← htakes.same.2.1, ← htakes.same.2.2, hwaiting, hidle] at h
  rw [Journal.changes_quiet rfl rfl rfl, Option.bind_some, Actor.takesUp?, if_pos haccepts,
    Item.call?_of_isCall hcall, Actor.situation_of_running hphase, hidle]
  exact h.next .settles

/-- **Whatever an actor does with an item**, it is one of the moments of its life, or two of them, or none. -/
theorem Annals.does (h : Annals j a.situation) (hlife : a.Life) (htakes : a.Takes item b)
    (hdoes : b.Does item answers c) : Annals (j ++ .changes (some item) answers b c) c.situation := by
  have hphase : b.phase.isStopped = false := Actor.isStopped_of_ne (htakes.same.1 ▸ htakes.phase_ne hlife)
  -- of everything but envelopes nothing can be taken up
  have hother : item.call? = none → b.takesUp? item = none ∧ b.situation = a.situation :=
    fun hitem => ⟨Actor.takesUp?_of_other hitem, Actor.situation_of_other htakes hlife hitem⟩
  cases hdoes with
  | absorbs => exact h.silent rfl rfl rfl (hother rfl).1 (hother rfl).2
  | ignores hlate =>
    cases item with
    | configure _ | resume _ _ => exact h.silent rfl rfl rfl (hother rfl).1 (hother rfl).2
    | envelope _ | stop => exact hlate.elim
  | goesOn _ => exact h.silent rfl rfl rfl (hother rfl).1 (hother rfl).2
  | @defers e hcall hbusy =>
    have hwaiting := Actor.waiting_of_busy htakes hbusy
    rw [Item.call?_of_isCall hcall] at hwaiting
    have hnone : b.takesUp? (.envelope e) = none := if_neg (by rw [hbusy]; exact Bool.false_ne_true)
    refine h.silent rfl rfl rfl hnone ?_
    have hsituation : a.situation = ⟨a.waiting, a.activity, a.activities, false⟩ :=
      Actor.situation_of_running (htakes.same.1 ▸ hphase)
    rw [hsituation, hwaiting, ← htakes.same.2.1, ← htakes.same.2.2]
    exact Actor.situation_of_running hphase
  | answers haccepts => exact h.settles hlife htakes trivial haccepts
  | drops haccepts => exact h.settles hlife htakes trivial haccepts
  | halts =>
    rw [← Actor.situation_of_other htakes hlife rfl] at h
    have hchanges : Journal.changes (some .stop) [] b b.halt = Journal.changes none [] b b.halt := by
      rw [Journal.changes_halts hphase, Journal.changes_halts hphase, Option.bind_some, (hother rfl).1, Option.bind_none]
    rw [hchanges]
    exact h.halts
  | begins hcause =>
    obtain ⟨hidle, hmoment⟩ := Moment.of_causes hlife htakes hcause
    rw [Journal.changes_begins hidle, Option.bind_some, Journal.replies, List.map_nil, List.append_nil]
    exact h.next hmoment
  | @beginsAndEnds _ task _ phase _ hcause hends =>
    obtain ⟨hidle, hmoment⟩ := Moment.of_causes hlife htakes hcause
    have hfinish := Actor.isStopped_finish hphase hends
    have hover : ((b.begin task).finish phase).situation = ⟨b.waiting, none, b.activities + 1, false⟩ :=
      Actor.situation_of_running hfinish
    have hbegun := h.next hmoment
    rw [Actor.situation_of_running (a := b.begin task) hphase] at hbegun
    rw [Journal.changes_beginsAndEnds hidle task (hfinish.trans hphase.symm), Option.bind_some, List.append_assoc,
      ← List.append_assoc, hover]
    exact hbegun.next .ends
  | @ends act _ _ phase _ hact hends =>
    have hfinish := Actor.isStopped_finish hphase hends
    have hover : (b.finish phase).situation = ⟨b.waiting, none, b.activities, false⟩ :=
      Actor.situation_of_running hfinish
    rw [← Actor.situation_of_other htakes hlife rfl, Actor.situation_of_running hphase, hact] at h
    rw [Journal.changes_ends hact (hfinish.trans hphase.symm), Option.bind_some, (hother rfl).1, hover]
    exact h.next .ends

/-! ## The end of a life -/

variable {s : Situation}

/-- The end of a life is the last thing that happens. -/
theorem Annals.last (h : Annals j s) :
    (s.stopped = false → ∀ act dropped, .halted act dropped ∉ j) ∧
      (s.stopped = true → s.waiting = [] ∧ s.activity = none ∧ ∃ before act dropped,
        j = before ++ [.halted act dropped] ∧ ∀ act dropped, .halted act dropped ∉ before) := by
  induction h with
  | start => exact ⟨fun _ act dropped hmem => absurd hmem List.not_mem_nil, nofun⟩
  | @next j k s s' _ hmoment ih =>
    -- nothing happens afterwards, so it has not happened before
    cases hmoment with
    | arrives | settles | configures | begins | ends =>
      refine ⟨fun _ act dropped hmem => ?_, nofun⟩
      rcases List.mem_append.mp hmem with hmem | hmem
      · exact ih.1 rfl act dropped hmem
      · simp [Journal.coming, Journal.replies] at hmem
    | @halts w act k =>
      refine ⟨nofun, fun _ => ⟨rfl, rfl, j ++ act.toList.map fun act => .ended act.id, act, w, ?_, ?_⟩⟩
      · rw [List.append_assoc]
      · intro act' dropped hmem
        rcases List.mem_append.mp hmem with hmem | hmem
        · exact ih.1 rfl act' dropped hmem
        · simp at hmem

/-- As long as an actor lives it has dropped nothing and given nothing up. -/
theorem Annals.kept (h : Annals j s) (hs : s.stopped = false) : j.dropped = [] ∧ j.givenUp = [] := by
  have hnone := h.last.1 hs
  constructor
  · refine List.flatMap_eq_nil_iff.mpr fun e he => ?_
    cases e with
    | halted act dropped => exact absurd he (hnone act dropped)
    | accepted | takenUp | began | answered | ended => rfl
  · refine List.filterMap_eq_nil_iff.mpr fun e he => ?_
    cases e with
    | halted act dropped => exact absurd he (hnone act dropped)
    | accepted | takenUp | began | answered | ended => rfl

/-! ## What becomes of envelopes -/

/-- **What has been accepted** has been taken up, or waits, or was dropped in the end, in this order. -/
theorem Annals.order (h : Annals j s) : j.accepted = j.takenUp ++ s.waiting ++ j.dropped := by
  induction h with
  | start => rfl
  | @next j k s s' hannals hmoment ih =>
    rw [Journal.accepted_append, Journal.takenUp_append, Journal.dropped_append, ih]
    cases hmoment with
    | arrives => simp [(hannals.kept rfl).1]
    | settles | configures | begins | ends => simp
    | @halts w act k =>
      cases act with
      | none => simp [(hannals.kept rfl).1]
      | some act => simp [(hannals.kept rfl).1]

end Situation

end Dataflow
