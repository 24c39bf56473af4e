/-
Actors do one thing at a time, in the order in which they are asked.

The journal of an actor has a mark for the beginning and one for the end of every activity. If the marks are what is left
of the journal, they come in pairs, numbered one after the other: the actor configures itself, and then it deals with
envelopes, each from beginning to end before the next one. The last pair may be without its end, and then that activity
is the one that the actor has. The envelopes are taken up in the order in which the mailbox has accepted them, since what
has been accepted is what has been taken up, followed by what waits.
-/
import Dataflow.Proofs.Actor.Chronicle

set_option autoImplicit false

namespace Dataflow

/-! ## One by one -/

/-- The marks of activities that begin because of these items, from number `k` on, each of which ends before the next one
begins. -/
def Event.oneByOne : (k : Nat) → List Item → List Event
  | _, [] => []
  | k, cause :: rest => .began k (some cause) :: .ended k :: oneByOne (k + 1) rest

/-- One more activity after others, one by one, is begun and ended under the next number. -/
theorem Event.oneByOne_concat (k : Nat) (causes : List Item) (cause : Item) :
    oneByOne k (causes ++ [cause]) =
      oneByOne k causes ++ [.began (k + causes.length) (some cause), .ended (k + causes.length)] := by
  induction causes generalizing k with
  | nil => rfl
  | cons c causes ih =>
    have hcount : k + 1 + causes.length = k + (c :: causes).length := by
      rw [List.length_cons]
      omega
    rw [List.cons_append, oneByOne, ih, hcount]
    rfl

/-- The first of the items configures the actor, and the others are envelopes that it has taken up, in this order. -/
def Journal.Explains (j : Journal) : List Item → Prop
  | [] => True
  | first :: rest =>
    (∃ config, first = .configure config) ∧
      ∃ envelopes : List Envelope, rest = envelopes.map .envelope ∧ envelopes.Sublist j.takenUp

namespace Journal.Explains

variable {j k : Journal} {causes : List Item}

/-- What has been explained stays explained when more is written. -/
theorem append (h : j.Explains causes) : (j ++ k).Explains causes := by
  cases causes with
  | nil => trivial
  | cons first rest =>
    obtain ⟨hfirst, envelopes, hrest, hsub⟩ := h
    refine ⟨hfirst, envelopes, hrest, hsub.trans ?_⟩
    rw [takenUp_append]
    exact List.sublist_append_left _ _

/-- An envelope that is taken up has to be explained by one more activity. The first activity is the one that makes the
handlers, so that there is one already. -/
theorem concat (h : j.Explains causes) (hne : causes ≠ []) {e : Envelope} (hk : k.takenUp = [e]) :
    (j ++ k).Explains (causes ++ [.envelope e]) := by
  cases causes with
  | nil => exact absurd rfl hne
  | cons first rest =>
    obtain ⟨hfirst, envelopes, hrest, hsub⟩ := h
    refine ⟨hfirst, envelopes ++ [e], ?_, ?_⟩
    · rw [hrest, List.map_append]
      rfl
    · rw [takenUp_append, hk]
      exact hsub.append_right [e]

end Journal.Explains

namespace Situation

variable {j : Journal} {s : Situation}

/-- The activities so far: those that are over, and the one that is going on. -/
structure Serial (j : Journal) (s : Situation) (past : List Item) (current : Option Item) : Prop where
  marks : j.marks =
    Event.oneByOne 1 past ++ current.toList.map fun cause => .began (past.length + 1) (some cause)
  going : s.activity.map Activity.id = current.map fun _ => past.length + 1
  count : s.activities = past.length + current.toList.length
  explained : j.Explains (past ++ current.toList)

namespace Serial

variable {past : List Item} {current : Option Item} {k : Journal} {s' : Situation} {act : Activity}

theorem idle (h : Serial j s past current) (hnone : s.activity = none) : current = none := by
  have hgoing := h.going
  rw [hnone] at hgoing
  exact Option.map_eq_none_iff.mp hgoing.symm

/-- While an actor is busy, its activity is the next after all past ones, and it has a cause. -/
theorem busy (h : Serial j s past current) (hact : s.activity = some act) :
    ∃ cause, current = some cause ∧ act.id = past.length + 1 := by
  have hgoing := h.going
  rw [hact, Option.map_some] at hgoing
  obtain ⟨cause, hcause, hid⟩ := Option.map_eq_some_iff.mp hgoing.symm
  exact ⟨cause, hcause, hid.symm⟩

/-- Nothing begins or ends. -/
theorem quiet (h : Serial j s past current) (hmarks : k.marks = []) (hactivity : s'.activity = s.activity)
    (hcount : s'.activities = s.activities) : Serial (j ++ k) s' past current where
  marks := by rw [Journal.marks_append, h.marks, hmarks, List.append_nil]
  going := hactivity ▸ h.going
  count := hcount ▸ h.count
  explained := h.explained.append

/-- What is going on is over when a mark says so. -/
theorem completes (h : Serial j s past current) (hact : s.activity = some act) (hmarks : k.marks = [.ended act.id])
    (hnone : s'.activity = none) (hcount : s'.activities = s.activities) :
    ∃ past current, Serial (j ++ k) s' past current := by
  obtain ⟨cause, rfl, hid⟩ := h.busy hact
  refine ⟨past ++ [cause], none, ?_, ?_, ?_, ?_⟩
  · rw [Journal.marks_append, h.marks, hmarks, hid, Event.oneByOne_concat, Nat.add_comm 1]
    simp
  · rw [hnone]
    rfl
  · rw [hcount, h.count]
    simp
  · simpa using h.explained.append

/-- **One moment** begins an activity only if none is going on. -/
theorem moment (h : Serial j s past current) (hmoment : s.Moment k s') :
    ∃ past current, Serial (j ++ k) s' past current := by
  cases hmoment with
  | arrives => exact ⟨past, current, h.quiet (by simp) rfl rfl⟩
  | settles => exact ⟨past, current, h.quiet (by simp) rfl rfl⟩
  | @configures w config x =>
    obtain rfl := h.idle rfl
    have hnone : past = [] := List.length_eq_zero_iff.mp (by simpa using h.count.symm)
    subst hnone
    refine ⟨[], some (.configure config), ?_, rfl, rfl, ⟨config, rfl⟩, [], rfl, List.nil_sublist _⟩
    rw [Journal.marks_append, h.marks]
    rfl
  | @begins e w k task hk howed =>
    obtain rfl := h.idle rfl
    have hlength : past.length = k := by simpa using h.count.symm
    refine ⟨past, some (.envelope e), ?_, ?_, ?_, ?_⟩
    · rw [Journal.marks_append, h.marks, hlength]
      simp
    · rw [hlength]
      rfl
    · rw [hlength]
      rfl
    · have hne : past ++ ([] : List Item) ≠ [] := by
        rw [List.append_nil]
        exact List.ne_nil_of_length_pos (hlength ▸ hk)
      have hconcat := h.explained.concat (k := [.takenUp e, .began (k + 1) (some (.envelope e))]) hne rfl
      simpa using hconcat
  | ends => exact h.completes rfl (by simp) rfl rfl
  | @halts w act k =>
    cases act with
    | none => exact ⟨past, current, h.quiet (by simp) rfl rfl⟩
    | some act => exact h.completes rfl rfl rfl rfl

end Serial

/-- One activity after the other, from the beginning of a life on. -/
theorem Annals.serial (h : Annals j s) : ∃ past current, Serial j s past current := by
  induction h with
  | start => exact ⟨[], none, rfl, rfl, rfl, trivial⟩
  | next _ hmoment ih =>
    obtain ⟨past, current, hserial⟩ := ih
    exact hserial.moment hmoment

end Situation

/-! ## Every actor in every run -/

namespace ActorSystem

variable {n : Nat} {s : ActorSystem × Store} {j : Journal}

/-- **Actors are serial and keep the order of arrival.** In every run of an actor system, the activities of an actor come
one after the other, and one that has begun ends before the next one begins; the activity that the actor has at the
moment, if any, is the one that has not ended. The first of them configures the actor, and the others deal with
envelopes that have been taken up, in the order of taking up. And the envelopes that the mailbox has accepted are taken
up in the order of acceptance: as long as the actor lives, what has been accepted is what has been taken up, followed by
what is deferred, followed by what is in the mailbox. -/
theorem Chronicle.serialInOrder (h : Chronicle n s j) :
    (∃ (past : List Item) (current : Option Item),
      j.marks = Event.oneByOne 1 past ++ current.toList.map (fun cause => .began (past.length + 1) (some cause)) ∧
      (s.1.view n).activity.map Activity.id = current.map (fun _ => past.length + 1) ∧
      j.Explains (past ++ current.toList)) ∧
    j.takenUp <+: j.accepted ∧
    ((s.1.view n).phase ≠ .stopped →
      j.accepted =
        j.takenUp ++ (s.1.view n).deferred ++ (s.1.view n).mailbox.items.filterMap Item.call?) := by
  obtain ⟨-, -, hannals⟩ := h.annals
  obtain ⟨past, current, hserial⟩ := hannals.serial
  have horder := hannals.order
  refine ⟨⟨past, current, hserial.marks, hserial.going, hserial.explained⟩, ?_, fun hlives => ?_⟩
  · rw [horder, List.append_assoc]
    exact List.prefix_append _ _
  · rw [horder, (hannals.kept (Actor.isStopped_of_ne hlives)).1, List.append_nil, List.append_assoc]
    rfl

/-- The echo configures itself, and then it deals with the notification and with the request, in this order. -/
theorem Chronicle.serialInOrder_echo :
    ∃ s j, Chronicle 0 s j ∧
      j.marks = Event.oneByOne 1 [.configure 0, .envelope notice, .envelope question] ∧
      j.takenUp = [notice, question] ∧ j.takenUp <+: j.accepted ∧
      ∃ (past : List Item) (current : Option Item),
        (s.1.view 0).activity.map Activity.id = current.map (fun _ => past.length + 1) ∧
        j.Explains (past ++ current.toList) := by
  obtain ⟨s, hecho⟩ := Chronicle.echo
  obtain ⟨⟨past, current, -, hgoing, hexplains⟩, horder, -⟩ := hecho.serialInOrder
  exact ⟨s, _, hecho, rfl, rfl, horder, past, current, hgoing, hexplains⟩

end ActorSystem

end Dataflow
