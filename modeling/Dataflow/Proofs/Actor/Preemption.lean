/-
Preemption: an actor gives the same answers, whatever its time slice is.

A small slice spreads a computation over many turns, and what is left of it waits behind the letters that are in the mailbox
already; they are put aside meanwhile and taken up afterwards in the same order. Nothing of this can be seen at the desk of
the actor. A system that shows what the desk comes to shows more of the same desk after the next turn, and when nobody is in
the run queue any more, it shows the end of the desk. There is only one end, so all systems that differ in the time slice
alone come to it, if they come to an end at all.

That is so while the actor is left alone. What others do to the store between two of its turns depends on the time slice too,
and so does the time at which something comes back to the actor that it has sent. Neither can be allowed, as the systems show
that stand at the end.
-/
import Dataflow.Proofs.Actor.Likeness
import Dataflow.Proofs.Actor.Sharing

set_option autoImplicit false

namespace Dataflow

/-! ## What is answered -/

namespace SystemM

/-- What actor `n` answers while it handles at most `room` items. Its computations answer nobody, so that all of its
answers are in the log when it has handled an item. -/
def repliesOfItems (n : Nat) : (room : Nat) → ActorSystem × Store → List (ActorRef × Term × Value)
  | 0, _ => []
  | room + 1, s =>
    match nextItem n s with
    | (none, _) => []
    | (some item, s) =>
      match s.1.actor? n with
      | none => []
      | some a =>
        match handle n a item s with
        | (preempted, s) => s.2.replies ++ if preempted then [] else repliesOfItems n room (deliver s).2

/-- What actor `n` answers in the next turn, if that is its own. -/
def repliesOfTurn (n : Nat) (s : ActorSystem × Store) : List (ActorRef × Term × Value) :=
  match s.1.runQueue with
  | [] => []
  | m :: rest => if m = n then repliesOfItems n itemsPerTurn ({ s.1 with runQueue := rest }, s.2) else []

/-- What actor `n` answers in that many turns. -/
def replies (n : Nat) : (turns : Nat) → ActorSystem × Store → List (ActorRef × Term × Value)
  | 0, _ => []
  | turns + 1, s => repliesOfTurn n s ++ replies n turns (runNext s).2

/-! ## Who else has a turn -/

/-- If somebody else has the next turn, it changes neither the store nor actor `n`. -/
def KeepsOff (n : Nat) (s : ActorSystem × Store) : Prop :=
  ∀ m ∈ s.1.runQueue.head?, m ≠ n → (runNext s).2.2 = s.2 ∧ (runNext s).2.1.actor? n = s.1.actor? n

/-- In that many turns nobody else changes the store or actor `n`. -/
def Undisturbed (n : Nat) : (turns : Nat) → ActorSystem × Store → Prop
  | 0, _ => True
  | turns + 1, s => KeepsOff n s ∧ Undisturbed n turns (runNext s).2

/-- Nobody but actor `n` has one of that many turns. -/
def onlyTurnsOf (n : Nat) : (turns : Nat) → ActorSystem × Store → Bool
  | 0, _ => true
  | turns + 1, s => s.1.runQueue.head?.all (· == n) && onlyTurnsOf n turns (runNext s).2

/-- If nobody else has a turn, then nobody disturbs the actor. -/
theorem undisturbed_of_onlyTurnsOf {n turns : Nat} {s : ActorSystem × Store} (h : onlyTurnsOf n turns s = true) :
    Undisturbed n turns s := by
  induction turns generalizing s with
  | zero => trivial
  | succ turns ih =>
    obtain ⟨hhead, hrest⟩ := Bool.and_eq_true_iff.mp h
    refine ⟨fun m hm hother => absurd ?_ hother, ih hrest⟩
    rw [Option.mem_def.mp hm] at hhead
    exact beq_iff_eq.mp hhead

end SystemM

/-! ## What no turn changes -/

namespace ActorSystem

variable {n : Nat} {a : Actor} {act : Activity} {item : Item} {sys : ActorSystem} {σ : Store} {s : ActorSystem × Store}

/-- Work on an activity changes nothing of the kernel. -/
theorem Worked.kernel (h : sys.Worked n act σ s) : s.1.kernel = sys.kernel := by
  cases h with
  | waits | lingers => exact (delivered_fixed sys _).1
  | yields => exact (enqueue_fixed _ n _).1.trans (delivered_fixed sys _).1
  | ends _ _ _ _ hover =>
    obtain ⟨_, _, -, hbecomes, -⟩ := hover
    exact hbecomes.kernel.trans (delivered_fixed sys _).1

/-- Handling an item changes nothing of the kernel. -/
theorem Handled.kernel (h : sys.Handled n a σ item s) : s.1.kernel = sys.kernel := by
  cases h with
  | absorbs | answers | drops | ignores => rfl
  | defers _ _ hbecomes | halts hbecomes => exact hbecomes.kernel
  | begins _ _ _ hbecomes hwork => exact hwork.kernel.trans hbecomes.kernel
  | resumes _ hwork => exact hwork.kernel

/-- The kernel is the same after a turn, whoever has it. -/
theorem Awake.runNext_kernel (h : Awake none s) : (SystemM.runNext s).2.1.kernel = s.1.kernel := by
  rw [SystemM.runNext_eq]
  split
  · rfl
  · next m rest hqueue =>
    have hbegun : Awake (some m) ({ s.1 with runQueue := rest }, s.2) :=
      ⟨h.sound.congr rfl rfl, h.log, h.scheduled.beginTurn hqueue, h.balanced⟩
    have hitems := SystemM.handleItems_keeps (n := m) (P := fun t => Awake (some m) t ∧ t.1.kernel = s.1.kernel)
      (fun {t t₁ t₂ item a preempted} ⟨hawake, hkernel⟩ hnext ha hhandle => by
        obtain ⟨_, _, _, htook, hhandled, _⟩ := handles_item hawake.sound hawake.log hnext ha hhandle
        refine ⟨hawake.item hnext ha hhandle, ?_⟩
        exact (((delivered_fixed t₂.1 t₂.2).1.trans hhandled.kernel).trans htook.kernel).trans hkernel)
      SystemM.itemsPerTurn 0 ⟨hbegun, rfl⟩
    rw [SystemM.turn_eq]
    exact (Reschedules.endTurn _ m _ _).kernel.trans hitems.2

end ActorSystem

namespace Desk

variable {d : Desk} {given : List (ActorRef × Term × Value)} {s : ActorSystem × Store}

/-- The system shows what the desk comes to when it has given these answers. -/
def Leads (d : Desk) (given : List (ActorRef × Term × Value)) (s : ActorSystem × Store) : Prop :=
  ∃ d' log, d.Reaches d' ∧ d'.Shows log s ∧ d'.store.replies = given

namespace Leads

section

variable (hsound : d.Sound) (hquiet : ∀ d', d.Reaches d' → d'.Reticent)

include hsound hquiet

/-- **One item**, and what has been written to the log is delivered. -/
theorem item (h : d.Leads given s) (hawake : ActorSystem.Awake (some d.number) s) {item : Item} {a : Actor}
    {preempted : Bool} {s₁ s₂ : ActorSystem × Store} (hnext : SystemM.nextItem d.number s = (some item, s₁))
    (ha : s₁.1.actor? d.number = some a) (hhandle : SystemM.handle d.number a item s₁ = (preempted, s₂)) :
    d.Leads (given ++ s₂.2.replies) (SystemM.deliver s₂).2 := by
  obtain ⟨d₁, log, hreach, hshows, rfl⟩ := h
  have hquiet₁ : ∀ d', d₁.Reaches d' → d'.Reticent := fun d' hd' => hquiet d' (hreach.trans hd')
  have hnumber := hreach.number_eq
  obtain ⟨d₂, log₂, hreach₂, hshows₂, hgiven⟩ := hshows.item hawake.sound hawake.log (hsound.reaches hreach) hquiet₁
    (hnumber ▸ hnext) (hnumber ▸ ha) (hnumber ▸ hhandle)
  have hpass : ∀ e ∈ s₂.2.effects.toList, e.Passes d₂.number := by
    have hall := ((hsound.reaches hreach).reaches hreach₂).passes (hquiet₁ d₂ hreach₂)
    rw [hshows₂.store] at hall
    exact fun e he => hall e (by simp [Store.behind, he])
  refine ⟨d₂, _, hreach.trans hreach₂, hshows₂.deliver hpass, ?_⟩
  rw [hshows₂.store, ← hgiven, Store.replies, Store.replies, Store.behind, Array.toList_append, List.filterMap_append]

/-- Any number of items. -/
theorem items (room handled : Nat) (h : d.Leads given s) (hawake : ActorSystem.Awake (some d.number) s) :
    d.Leads (given ++ SystemM.repliesOfItems d.number room s) (SystemM.handleItems d.number room handled s).2 := by
  -- on the number of items that may still be handled
  induction room generalizing given s handled with
  | zero =>
    rw [SystemM.repliesOfItems, List.append_nil]
    exact h
  | succ room ih =>
    rw [SystemM.repliesOfItems, SystemM.handleItems, SystemM.bind_eq]
    rcases SystemM.nextItem_cases d.number s.1 s.2 with hnone | ⟨_, a, item, sys₁, _, _, htook, hnext⟩
    · have hnone : SystemM.nextItem d.number s = (none, s) := hnone
      rw [hnone]
      dsimp only
      rw [List.append_nil]
      exact h
    · have hnext : SystemM.nextItem d.number s = (some item, sys₁, s.2) := hnext
      rw [hnext]
      dsimp only
      rw [SystemM.bind_eq, SystemM.read_eq]
      dsimp only
      rw [htook.self]
      dsimp only
      rw [SystemM.bind_eq]
      rcases hhandle : SystemM.handle d.number a item (sys₁, s.2) with ⟨preempted, s₂⟩
      have hdone := h.item hsound hquiet hawake hnext htook.self hhandle
      dsimp only
      rw [SystemM.bind_eq]
      cases preempted with
      | true =>
        simp only [if_true, List.append_nil]
        exact hdone
      | false =>
        have hrest := ih (handled + 1) hdone (hawake.item hnext htook.self hhandle)
        rw [List.append_assoc] at hrest
        exact hrest

/-- **One turn**, which the actor has itself, or which does not disturb it. -/
theorem turn (h : d.Leads given s) (hawake : ActorSystem.Awake none s) (hothers : SystemM.KeepsOff d.number s) :
    d.Leads (given ++ SystemM.repliesOfTurn d.number s) (SystemM.runNext s).2 := by
  cases hqueue : s.1.runQueue with
  | nil =>
    rw [SystemM.runNext_eq, SystemM.repliesOfTurn, hqueue]
    dsimp only
    rw [List.append_nil]
    exact h
  | cons n rest =>
    obtain ⟨d', log, hreach, hshows, hgiven⟩ := h
    rw [SystemM.repliesOfTurn, hqueue]
    dsimp only
    split
    · next hself =>
      subst hself
      have hbegun : ActorSystem.Awake (some d.number) ({ s.1 with runQueue := rest }, s.2) :=
        ⟨hawake.sound.congr rfl rfl, hawake.log, hawake.scheduled.beginTurn hqueue, hawake.balanced⟩
      have hlead : d.Leads given ({ s.1 with runQueue := rest }, s.2) :=
        ⟨d', log, hreach, hshows.reschedules (.of_actors_eq rfl rfl), hgiven⟩
      obtain ⟨d₁, log₁, hreach₁, hshows₁, hgiven₁⟩ := hlead.items hsound hquiet SystemM.itemsPerTurn 0 hbegun
      rw [SystemM.runNext_eq, hqueue]
      dsimp only
      rw [SystemM.turn_eq]
      exact ⟨d₁, log₁, hreach₁, hshows₁.reschedules (.endTurn _ _ _ _), hgiven₁⟩
    · next hother =>
      -- somebody else has the turn, and the system shows just the same of the desk
      obtain ⟨hstore, hactor⟩ := hothers n (hqueue ▸ rfl) hother
      rw [← hreach.number_eq] at hactor
      have hroot := (congrArg Kernel.root hawake.runNext_kernel).trans hshows.root
      have hsame : d'.Shows log (SystemM.runNext s).2 := ⟨hstore ▸ hshows.store, hroot, hactor ▸ hshows.actor⟩
      rw [List.append_nil]
      exact ⟨d', log, hreach, hsame, hgiven⟩

/-- **Any number of turns.** -/
theorem turns (turns : Nat) (h : d.Leads given s) (hawake : ActorSystem.Awake none s)
    (hothers : SystemM.Undisturbed d.number turns s) :
    d.Leads (given ++ SystemM.replies d.number turns s) (SystemM.runTurns turns s).2 ∧
      ActorSystem.Awake none (SystemM.runTurns turns s).2 := by
  induction turns generalizing given s with
  | zero =>
    rw [SystemM.replies, List.append_nil]
    exact ⟨h, hawake⟩
  | succ turns ih =>
    rw [SystemM.replies, ← List.append_assoc, SystemM.runTurns, SystemM.bind_eq]
    exact ih (h.turn hsound hquiet hawake hothers.1) hawake.runNext hothers.2

end

end Leads

end Desk

/-! ## Before the first turn -/

/-- An actor that is still to be configured has done nothing yet. -/
theorem Actor.Life.of_configure {a : Actor} (h : a.Life) {config : ConfigId}
    (hconfig : .configure config ∈ a.mailbox.items) :
    a.phase = .created ∧ a.activity = none ∧ a.activities = 0 ∧ a.mailbox.closed = false := by
  have hunconfigured : a.unconfigured = true := by
    by_contra hnot
    have hnone := h.no_configure (Bool.eq_false_iff.mpr hnot)
    exact List.countP_eq_zero.mp hnone _ hconfig rfl
  obtain ⟨hphase, hactivity⟩ := Actor.unconfigured_iff.mp hunconfigured
  have hactivities := h.created hphase
  rw [hactivity] at hactivities
  exact ⟨hphase, hactivity, hactivities, h.opened (hphase ▸ Phase.noConfusion)⟩

/-- The desk of an actor that has not begun to make its handlers. -/
def Desk.ofActor (n : Nat) (a : Actor) (config : ConfigId) (s : ActorSystem × Store) : Desk where
  number := n
  address := a.address
  root := s.1.kernel.root
  store := s.2
  config := some config
  letters := a.waiting

/-- The actor asks nobody, tells nobody anything, and makes no actors, and after at most `steps` steps there is nothing
that it can do. -/
def Desk.isQuiet : (steps : Nat) → Desk → Bool
  | 0, d => d.store.effects.all (!·.reachesOut) && d.step.isNone
  | steps + 1, d =>
    d.store.effects.all (!·.reachesOut) &&
      match d.step with
      | none => true
      | some d' => d'.isQuiet steps

/-- Whatever the desk comes to in that many steps is reticent if the check says so. -/
theorem Desk.reticent_of_isQuiet (steps : Nat) {d d' : Desk} (h : d.isQuiet steps = true) (hreach : d.Reaches d') :
    d'.Reticent := by
  have hself : ∀ {d : Desk}, d.store.effects.all (!·.reachesOut) = true → d.Reticent := by
    intro d h e he
    rw [Array.all_eq_true_iff_forall_mem] at h
    exact Bool.not_eq_true' _ ▸ h e (Array.mem_toList_iff.mp he)
  -- on the number of steps that may be left; the desk is checked before each of them
  induction steps generalizing d with
  | zero =>
    rw [isQuiet, Bool.and_eq_true] at h
    obtain rfl := hreach.stuck (Option.isNone_iff_eq_none.mp h.2)
    exact hself h.1
  | succ steps ih =>
    rw [isQuiet, Bool.and_eq_true] at h
    rcases hreach.cases_head with rfl | ⟨d₁, hstep, hrest⟩
    · exact hself h.1
    · rw [hstep] at h
      exact ih h.2 hrest

namespace ActorSystem

/-- The system with another time slice. -/
def sliced (sys : ActorSystem) (slice : Nat) (h : 0 < slice) : ActorSystem :=
  { sys with
    kernel :=
      { sys.kernel with
        config := { sys.kernel.config with timeSlice := slice }
        valid := { sys.kernel.valid with timeSlice_pos := h } } }

variable {n : Nat} {s : ActorSystem × Store} {a : Actor} {config : ConfigId} {letters : List Envelope}

theorem Awake.sliced {turn : Option Nat} (h : Awake turn s) {slice : Nat} (hslice : 0 < slice) :
    Awake turn (s.1.sliced slice hslice, s.2) :=
  ⟨{ h.sound with }, h.log, { h.scheduled with }, h.balanced⟩

section Beginning

variable (hawake : Awake none s) (ha : s.1.actor? n = some a)
  (hmail : a.mailbox.items = .configure config :: letters.map .envelope)

include hawake ha hmail

/-- Before the first turn the system shows the desk of the actor. Its envelopes wait in the mailbox, and nothing else is there
but the configuration. -/
theorem ofActor_shows (hcalls : ∀ e ∈ letters, e.IsCall) :
    (Desk.ofActor n a config s).Shows #[] s := by
  obtain ⟨hphase, hactivity, hactivities, hopen⟩ :=
    (hawake.sound.actors n a ha).2.of_configure (hmail ▸ List.mem_cons_self)
  have hletters : (letters.map Item.envelope).filter (fun item => item.call?.isNone) = [] := by
    refine List.filter_eq_nil_iff.mpr fun item hitem => ?_
    obtain ⟨e, he, rfl⟩ := List.mem_map.mp hitem
    rw [Item.call?_of_isCall (hcalls e he)]
    exact Bool.false_ne_true
  -- all envelopes are calls, so that the configuration is the only signal
  have hsignals : a.signals = [.configure config] := by
    rw [Actor.signals, hmail, List.filter_cons_of_pos rfl, hletters]
  have hstore : s.2 = s.2.behind #[] := by rw [Store.behind, Array.empty_append]
  exact ⟨hstore, rfl, a, ha, rfl, hphase, rfl, hactivities, hopen, hactivity, hsignals⟩

/-- The desk is sound before the first turn. Nothing has been begun, nothing is owed, and nothing is outstanding for the
actor. -/
theorem ofActor_sound (hothers : ActorRef.Others n (a.waiting.flatMap Envelope.owed)) :
    (Desk.ofActor n a config s).Sound := by
  obtain ⟨hin, hlife⟩ := hawake.sound.actors n a ha
  obtain ⟨hphase, hactivity, -, -⟩ := hlife.of_configure (hmail ▸ List.mem_cons_self)
  have hlives : a.phase ≠ .stopped := hphase ▸ Phase.noConfusion
  refine ⟨hawake.sound.store, hawake.sound.root, trivial, fun c hc => ?_, fun e he => ?_, fun _ _ h => ?_,
    fun _ _ _ _ h => ?_, fun id => ?_, fun p hp => ?_, .inr fun id => ?_⟩
  · obtain rfl := Option.some.inj hc
    exact ⟨hin.mail (.configure config) (hmail ▸ List.mem_cons_self), rfl, rfl⟩
  · have hletter : e.In s.2 ∧ e.IsCall := by
      rcases List.mem_append.mp he with he | he
      · exact ⟨hin.deferred e he, hlife.calls e he⟩
      · obtain ⟨item, hitem, hcall⟩ := List.mem_filterMap.mp he
        obtain ⟨rfl, hcalls⟩ := Item.of_call? hcall
        exact ⟨hin.mail _ hitem, hcalls⟩
    exact ⟨hletter.1, hletter.2, fun p hp => hothers p (List.mem_flatMap.mpr ⟨e, he, hp⟩)⟩
  · cases h
  · cases h
  -- no activity has been resumed, and no answer has been given, because the log is empty
  · show s.2.resumedFor _ = 0
    rw [Store.resumedFor, hawake.log]
    rfl
  · have hnone : s.2.answers = [] := by
      rw [Store.answers, hawake.log]
      rfl
    have hp : p ∈ s.2.answers := hp
    rw [hnone] at hp
    cases hp
  -- and no computation waits for the actor, because it has no activity
  · have hself := hawake.balanced.self ha hlives id
    rw [if_neg (Option.some_ne_none n).symm, Actor.ongoing, hactivity] at hself
    exact (Nat.add_eq_zero_iff.mp hself).1

/-- Whatever the time slice is, a run that leaves nobody in the run queue shows the end of the desk. -/
theorem shows_end (hcalls : ∀ e ∈ letters, e.IsCall)
    (hforeign : ActorRef.Others n (a.waiting.flatMap Envelope.owed))
    (hquiet : ∀ d, (Desk.ofActor n a config s).Reaches d → d.Reticent) {slice : Nat} (hslice : 0 < slice) (turns : Nat)
    (hothers : SystemM.Undisturbed n turns (s.1.sliced slice hslice, s.2))
    (hdone : (SystemM.runTurns turns (s.1.sliced slice hslice, s.2)).2.1.runQueue = []) :
    ∃ d, (Desk.ofActor n a config s).Reaches d ∧ d.step = none ∧
      SystemM.replies n turns (s.1.sliced slice hslice, s.2) = d.store.replies ∧
      (SystemM.runTurns turns (s.1.sliced slice hslice, s.2)).2.2 = d.store.cleared ∧
      (SystemM.runTurns turns (s.1.sliced slice hslice, s.2)).2.1.actor? n = some d.actor := by
  have hshows : (Desk.ofActor n a config s).Shows #[] (s.1.sliced slice hslice, s.2) :=
    { ofActor_shows hawake ha hmail hcalls with }
  -- nothing has been answered before the first turn
  have hnone : (Desk.ofActor n a config s).store.replies = [] := by
    show s.2.replies = []
    rw [Store.replies, hawake.log]
    rfl
  have hlead : (Desk.ofActor n a config s).Leads [] (s.1.sliced slice hslice, s.2) := ⟨_, #[], .refl, hshows, hnone⟩
  -- the desk makes its own steps, whatever the slice is, and the system keeps up with it
  have hsound := ofActor_sound hawake ha hmail hforeign
  obtain ⟨⟨d, log, hreach, hlast, hgiven⟩, hend⟩ := hlead.turns hsound hquiet turns (hawake.sliced hslice) hothers
  have hnumber : d.number = n := hreach.number_eq
  refine ⟨d, hreach, hlast.stuck hend hdone, hgiven.symm, ?_, hnumber ▸ hlast.rests hend hdone⟩
  rw [hlast.store, Store.behind, Store.cleared, ← hend.log]

end Beginning

/-- **Preemption does not change what an actor answers**, as long as the actor is left alone. An actor that has not begun to
make its handlers has got requests and notifications, as many as there may be, none of them on its own behalf. It asks nobody,
tells nobody anything and makes no actors. Take any two time slices, and any numbers of turns in which nobody else changes the
store or the actor. If afterwards nobody is in the run queue with either of them, then the same answers have been given in the
same order, with requester, target and value; the stores are equal, and the contents of the cells with them; and the actor is
the same, with its phase, its activity, and the envelopes that it has put aside because the activity waits. Its mailbox is
empty. -/
theorem Running.preemption_invisible (h : Running s) (ha : s.1.actor? n = some a)
    (hmail : a.mailbox.items = .configure config :: letters.map .envelope) (hcalls : ∀ e ∈ letters, e.IsCall)
    (hforeign : ActorRef.Others n (a.waiting.flatMap Envelope.owed))
    (hquiet : ∀ d, (Desk.ofActor n a config s).Reaches d → d.Reticent)
    {slice₁ slice₂ : Nat} (hslice₁ : 0 < slice₁) (hslice₂ : 0 < slice₂) (turns₁ turns₂ : Nat)
    (hothers₁ : SystemM.Undisturbed n turns₁ (s.1.sliced slice₁ hslice₁, s.2))
    (hothers₂ : SystemM.Undisturbed n turns₂ (s.1.sliced slice₂ hslice₂, s.2))
    (hdone₁ : (SystemM.runTurns turns₁ (s.1.sliced slice₁ hslice₁, s.2)).2.1.runQueue = [])
    (hdone₂ : (SystemM.runTurns turns₂ (s.1.sliced slice₂ hslice₂, s.2)).2.1.runQueue = []) :
    SystemM.replies n turns₁ (s.1.sliced slice₁ hslice₁, s.2) =
        SystemM.replies n turns₂ (s.1.sliced slice₂ hslice₂, s.2) ∧
      (SystemM.runTurns turns₁ (s.1.sliced slice₁ hslice₁, s.2)).2.2 =
        (SystemM.runTurns turns₂ (s.1.sliced slice₂ hslice₂, s.2)).2.2 ∧
      ∃ b, b.mailbox.items = [] ∧ (SystemM.runTurns turns₁ (s.1.sliced slice₁ hslice₁, s.2)).2.1.actor? n = some b ∧
        (SystemM.runTurns turns₂ (s.1.sliced slice₂ hslice₂, s.2)).2.1.actor? n = some b := by
  obtain ⟨d₁, hreach₁, hend₁, hgiven₁, hstore₁, hb₁⟩ :=
    shows_end h.awake ha hmail hcalls hforeign hquiet hslice₁ turns₁ hothers₁ hdone₁
  obtain ⟨d₂, hreach₂, hend₂, hgiven₂, hstore₂, hb₂⟩ :=
    shows_end h.awake ha hmail hcalls hforeign hquiet hslice₂ turns₂ hothers₂ hdone₂
  -- a desk has one end, so both slices lead to it
  obtain rfl := hreach₁.end_unique hreach₂ hend₁ hend₂
  exact ⟨hgiven₁.trans hgiven₂.symm, hstore₁.trans hstore₂.symm, d₁.actor, rfl, hb₁, hb₂⟩

/-- The echo has been told something and asked something before its first turn. -/
def addressed : ActorSystem × Store := told question (told notice (solo echo))

/-- The echo answers its question in eight turns of one instruction as it does in a single one. -/
theorem Running.preemption_invisible_echo : ∃ b,
    (SystemM.replies 0 8 (addressed.1.sliced 1 (by decide), addressed.2)).length = 1 ∧
      SystemM.replies 0 8 (addressed.1.sliced 1 (by decide), addressed.2) =
        SystemM.replies 0 1 (addressed.1.sliced 10000 (by decide), addressed.2) ∧
      (SystemM.runTurns 8 (addressed.1.sliced 1 (by decide), addressed.2)).2.1.actor? 0 = some b ∧
      (SystemM.runTurns 1 (addressed.1.sliced 10000 (by decide), addressed.2)).2.1.actor? 0 = some b := by
  obtain ⟨hconstruct, hconfigure, hspawn⟩ := external_solo echo (by cbv) (by cbv)
  have hfresh : Running fresh := .start vacant_empty create_fresh
  have hsolo : Running (solo echo) := ((hfresh.external hconstruct).external hconfigure).external hspawn
  -- the actor is spawned into an empty system and told two things
  have hfirst : notice.In (solo echo).2 := trivial
  have hsecond : question.In (told notice (solo echo)).2 := ⟨trivial, by cbv⟩
  have hrunning : Running addressed :=
    (hsolo.external (.send ⟨.actor 0, "solo"⟩ hfirst)).external (.send ⟨.actor 0, "solo"⟩ hsecond)
  have hsome : (addressed.1.actor? 0).isSome = true := by cbv
  obtain ⟨a, hactor⟩ := Option.isSome_iff_exists.mp hsome
  have ha : addressed.1.actor? 0 = some (addressed.1.view 0) := by rw [view_of_some hactor, hactor]
  have hmail : (addressed.1.view 0).mailbox.items = .configure 0 :: [notice, question].map .envelope := by cbv
  have hcalls : ∀ e ∈ [notice, question], e.IsCall := by
    refine List.forall_mem_cons.mpr ⟨trivial, List.forall_mem_cons.mpr ⟨trivial, fun e he => ?_⟩⟩
    exact absurd he List.not_mem_nil
  have hforeign : ActorRef.Others 0 ((addressed.1.view 0).waiting.flatMap Envelope.owed) := by
    have howed : (addressed.1.view 0).waiting.flatMap Envelope.owed = question.owed := by cbv
    rw [howed]
    intro p hp
    obtain rfl := List.mem_singleton.mp hp
    exact Receiver.noConfusion
  -- the desk of the example sends nothing but its answer
  have hquiet : (Desk.ofActor 0 (addressed.1.view 0) 0 addressed).isQuiet 13 = true := by cbv
  have hothers₁ : SystemM.Undisturbed 0 8 (addressed.1.sliced 1 (by decide), addressed.2) :=
    SystemM.undisturbed_of_onlyTurnsOf (by cbv)
  have hothers₂ : SystemM.Undisturbed 0 1 (addressed.1.sliced 10000 (by decide), addressed.2) :=
    SystemM.undisturbed_of_onlyTurnsOf (by cbv)
  obtain ⟨hreplies, -, b, -, hb₁, hb₂⟩ := hrunning.preemption_invisible ha hmail hcalls hforeign
    (fun d hd => Desk.reticent_of_isQuiet 13 hquiet hd) (by decide) (by decide) 8 1 hothers₁ hothers₂ (by cbv) (by cbv)
  exact ⟨b, by cbv, hreplies, hb₁, hb₂⟩

/-! ## What the time slice shows in -/

/-- Actor `n` has got requests and notifications before its first turn; it asks nobody, tells nobody anything and makes no
actors when it is left alone; and there are two time slices with which it does not give the same answers. -/
structure Sensitive (n : Nat) (s : ActorSystem × Store) : Prop where
  running : Running s
  addressed : ∃ (a : Actor) (config : ConfigId) (letters : List Envelope), s.1.actor? n = some a ∧
    a.mailbox.items = .configure config :: letters.map .envelope ∧ (∀ e ∈ letters, e.IsCall) ∧
      ∀ d, (Desk.ofActor n a config s).Reaches d → d.Reticent
  differs : ∃ slice₁ slice₂ turns₁ turns₂, ∃ (hslice₁ : 0 < slice₁) (hslice₂ : 0 < slice₂),
    (SystemM.runTurns turns₁ (s.1.sliced slice₁ hslice₁, s.2)).2.1.runQueue = [] ∧
      (SystemM.runTurns turns₂ (s.1.sliced slice₂ hslice₂, s.2)).2.1.runQueue = [] ∧
      SystemM.replies n turns₁ (s.1.sliced slice₁ hslice₁, s.2) ≠ SystemM.replies n turns₂ (s.1.sliced slice₂ hslice₂, s.2)

/-- The values that actor `n` answers with, if nobody is in the run queue after that many turns. -/
def answers? (n turns : Nat) (s : ActorSystem × Store) : Option (List Value) :=
  if (SystemM.runTurns turns s).2.1.runQueue.isEmpty then some ((SystemM.replies n turns s).map fun reply => reply.2.2)
  else none

/-- The answers are shown only if nobody is in the run queue any more. -/
theorem answers?_eq_some {n turns : Nat} {s : ActorSystem × Store} {values : List Value}
    (h : answers? n turns s = some values) :
    (SystemM.runTurns turns s).2.1.runQueue = [] ∧ (SystemM.replies n turns s).map (fun reply => reply.2.2) = values := by
  unfold answers? at h
  split at h
  · next hempty => exact ⟨List.isEmpty_iff.mp hempty, Option.some.inj h⟩
  · cases h

/-- To be sensitive, an actor has to give two different lists of values with two time slices. -/
theorem Sensitive.of_answers {n config : Nat} {letters : List Envelope} {s : ActorSystem × Store} (hrunning : Running s)
    (hmail : (s.1.actor? n).map (fun a => a.mailbox.items) = some (.configure config :: letters.map .envelope))
    (hcalls : ∀ e ∈ letters, e.IsCall) {steps : Nat}
    (hquiet : (Desk.ofActor n (s.1.view n) config s).isQuiet steps = true)
    {slice₁ slice₂ : Nat} (hslice₁ : 0 < slice₁) (hslice₂ : 0 < slice₂) {turns₁ turns₂ : Nat} {values₁ values₂ : List Value}
    (h₁ : answers? n turns₁ (s.1.sliced slice₁ hslice₁, s.2) = some values₁)
    (h₂ : answers? n turns₂ (s.1.sliced slice₂ hslice₂, s.2) = some values₂) (hne : values₁ ≠ values₂) : Sensitive n s := by
  obtain ⟨a, ha, hitems⟩ := Option.map_eq_some_iff.mp hmail
  obtain ⟨hdone₁, hvalues₁⟩ := answers?_eq_some h₁
  obtain ⟨hdone₂, hvalues₂⟩ := answers?_eq_some h₂
  rw [view_of_some ha] at hquiet
  refine ⟨hrunning, ⟨a, config, letters, ha, hitems, hcalls, fun d hd => Desk.reticent_of_isQuiet steps hquiet hd⟩, ?_⟩
  refine ⟨slice₁, slice₂, turns₁, turns₂, hslice₁, hslice₂, hdone₁, hdone₂, fun hsame => hne ?_⟩
  rw [← hvalues₁, ← hvalues₂, hsame]

end ActorSystem

/-! ### Two actors in a running system -/

namespace Realm

variable {r r' : Realm} {own : Ownership} {instr : Instr}

/-- The system of a realm, with its store. -/
abbrev system (r : Realm) : ActorSystem × Store := (r.sys, r.store)

theorem system_asked {α : Type} (r : Realm) (request : Request α) (got : α → List Term) :
    (r.asked request got).system = request.state r.system := by
  rw [Request.state, asked]
  cases request (r.sys, r.store) <;> rfl

/-- A request that leaves nothing in the log. -/
theorem running_asked {α : Type} {request : Request α} {got : α → List Term} (hr : r' = r.asked request got)
    (h : ActorSystem.Running r.system) (hexternal : ActorSystem.External r.system (request.state r.system))
    (hlog : r'.store.effects = #[]) : ActorSystem.Running r'.system := by
  subst hr
  have hnothing : ∀ (sys : ActorSystem) (σ : Store), σ.effects = #[] → (SystemM.deliver (sys, σ)).2 = (sys, σ) := by
    rintro sys ⟨⟩ rfl
    rfl
  have hdelivered := h.external hexternal
  rw [← system_asked r request got, hnothing _ _ hlog] at hdelivered
  exact hdelivered

theorem running_configured {c : ClosureId} {got : ConfigId → List Term} (hr : r' = r.asked (SystemM.configure c []) got)
    (h : ActorSystem.Running r.system) (hc : c < r.store.closures.size) (hlog : r'.store.effects = #[]) :
    ActorSystem.Running r'.system :=
  running_asked hr h (.configure h.awake.sound hc fun _ hv => absurd hv List.not_mem_nil) hlog

theorem running_spawned {address : Option Address} {k : ConfigId} {got : ActorRef → List Term}
    (hr : r' = r.asked (SystemM.spawn address k) got) (h : ActorSystem.Running r.system) (hk : k < r.store.configs.size)
    (hlog : r'.store.effects = #[]) : ActorSystem.Running r'.system :=
  running_asked hr h (.spawn address hk) hlog

/-- The making of the pair leaves nothing in the log, and each request finds what it is about. -/
structure Settles (instr : Instr) : Prop where
  constructed : (Realm.constructed instr).store.effects = #[] ∧ 0 < (Realm.constructed instr).store.closures.size
  once : (Realm.once instr).store.effects = #[] ∧ 0 < (Realm.once instr).store.closures.size
  twice : (Realm.twice instr).store.effects = #[] ∧ 0 < (Realm.twice instr).store.configs.size
  single : (Realm.single instr).store.effects = #[] ∧ 1 < (Realm.single instr).store.configs.size
  pair : (Realm.pair instr).store.effects = #[]

namespace Settles

/-- If the making of the pair settles, then the system with the first actor alone is a running one. -/
theorem running_single (h : Settles instr) : ActorSystem.Running (Realm.single instr).system := by
  have hfresh : ActorSystem.Running fresh.system := .start ActorSystem.vacant_empty ActorSystem.create_fresh
  have hconstruct := ActorSystem.External.construct hfresh.awake.sound instr "Solo"
  have hconstructed : ActorSystem.Running (Realm.constructed instr).system :=
    running_asked rfl hfresh hconstruct h.constructed.1
  have honce : ActorSystem.Running (Realm.once instr).system :=
    running_configured rfl hconstructed h.constructed.2 h.once.1
  have htwice : ActorSystem.Running (Realm.twice instr).system := running_configured rfl honce h.once.2 h.twice.1
  exact running_spawned rfl htwice h.twice.2 h.single.1

theorem running_pair (h : Settles instr) : ActorSystem.Running (Realm.pair instr).system :=
  running_spawned rfl h.running_single h.single.2 h.pair

end Settles

end Realm

namespace ActorSystem

variable {s : ActorSystem × Store} {e : Envelope}

/-- The system after an envelope to an actor. -/
def sentTo (n : Nat) (address : Address) (e : Envelope) (s : ActorSystem × Store) : ActorSystem × Store :=
  (SystemM.deliver (SystemM.send ⟨.actor n, address⟩ e s).2).2

theorem Running.sentTo (h : Running s) (n : Nat) (address : Address) (he : e.In s.2) : Running (sentTo n address e s) :=
  h.external (.send ⟨.actor n, address⟩ he)

/-- A system is divided after an envelope, as it was before, if what is sent belongs to those who get it. -/
theorem divided_sentTo {own : Ownership} {held : List Term} (h : Realm.Divided own ⟨s.1, s.2, held⟩) (n : Nat)
    (address : Address) (he : e.Owned own (some n) s.2) :
    ∃ own', Realm.Divided own' ⟨(sentTo n address e s).1, (sentTo n address e s).2, held⟩ :=
  (h.respecting_nothing (SystemM.respecting_send h.system ⟨.actor n, address⟩ he)).preserving SystemM.preserving_deliver

/-- A request on behalf of a client. -/
def inquiry (b : Bool) : Envelope := .request (.lit (.bool b)) ⟨.client 2, "client"⟩ (.val (.lit .null))

theorem inquiry_in (b : Bool) (σ : Store) : (inquiry b).In σ := ⟨trivial, trivial⟩

theorem inquiry_owned {b : Bool} {own : Ownership} {n : Nat} {σ : Store} : (inquiry b).Owned own (some n) σ :=
  ⟨Literal.complete _ _, .of_whole trivial (σ.whole_lit _)⟩

theorem inquiry_isCall {b : Bool} : ∀ e ∈ [inquiry b], e.IsCall :=
  fun _ he => List.mem_singleton.mp he ▸ trivial

/-! ### A cell that two actors share -/

/-- Makes actors that have captured one cell. They answer with its content, and put their message into it. -/
def pooling : Instr :=
  .fresh ["pool"] (.seq
    [.selectApply (.ident "Cell") (.lit (.str "new")) [.lit .null, .ident "pool"],
      recipe (.seq
        [.selectApply (.ident "pool") (.lit (.str "get")) [.ident "answer"],
          .selectApply (.ident "pool") (.lit (.str "set")) [.ident "message"]])])

/-- Each of two such actors has been asked something. -/
def sharers : ActorSystem × Store :=
  sentTo 1 "right" (inquiry true) (sentTo 0 "left" (inquiry true) (Realm.pair pooling).system)

theorem settles_pooling : Realm.Settles pooling := ⟨by cbv, by cbv, by cbv, by cbv, by cbv⟩

/-- With a slice of three instructions both actors have looked at the cell before one of them changes it. -/
theorem sensitive_sharers : Sensitive 1 sharers := by
  have hrunning : Running sharers :=
    (settles_pooling.running_pair.sentTo 0 "left" (inquiry_in true _)).sentTo 1 "right" (inquiry_in true _)
  have hmail : (sharers.1.actor? 1).map (fun a => a.mailbox.items) =
      some (.configure 1 :: [inquiry true].map .envelope) := by cbv
  have hquiet : (Desk.ofActor 1 (sharers.1.view 1) 1 sharers).isQuiet 20 = true := by cbv
  have hsmall : answers? 1 6 (sharers.1.sliced 3 (by decide), sharers.2) = some [.lit .null] := by cbv
  have hlarge : answers? 1 2 (sharers.1.sliced 10000 (by decide), sharers.2) = some [.lit (.bool true)] := by cbv
  exact .of_answers hrunning hmail inquiry_isCall hquiet _ _ hsmall hlarge (by simp)

/-! ### Actors that share nothing -/

/-- Makes actors that have captured nothing. To answer, they mint a token, and answer with what is said about it when it
does not match. -/
def counting : Instr :=
  recipe (.fresh ["token"] (.seq
    [.selectApply (.ident "Token") (.lit (.str "new")) [.ident "token"],
      .attempt (.case (.ident "token") (.lit .null) .skip none) "error"
        (.select (.ident "error") (.lit (.str "message")) "answer")]))

/-- One of two such actors has been asked twice, and the other one once. -/
def strangers : ActorSystem × Store :=
  sentTo 1 "right" (inquiry true)
    (sentTo 0 "left" (inquiry true) (sentTo 0 "left" (inquiry true) (Realm.pair counting).system))

theorem settles_counting : Realm.Settles counting := ⟨by cbv, by cbv, by cbv, by cbv, by cbv⟩

theorem pairs_counting : Realm.Pairs counting := ⟨by cbv, by cbv, by cbv, by cbv, by cbv, by cbv⟩

/-- The tokens are numbered for all actors: with a slice of four instructions the second one is minted to answer this
request, and with a large slice it is the third one. -/
theorem sensitive_strangers : Sensitive 1 strangers := by
  have hrunning : Running strangers :=
    ((settles_counting.running_pair.sentTo 0 "left" (inquiry_in true _)).sentTo 0 "left" (inquiry_in true _)).sentTo 1
      "right" (inquiry_in true _)
  have hmail : (strangers.1.actor? 1).map (fun a => a.mailbox.items) =
      some (.configure 1 :: [inquiry true].map .envelope) := by cbv
  have hquiet : (Desk.ofActor 1 (strangers.1.view 1) 1 strangers).isQuiet 20 = true := by cbv
  have hsmall : answers? 1 7 (strangers.1.sliced 4 (by decide), strangers.2) =
      some [.str "No match found for $token(2)"] := by cbv
  have hlarge : answers? 1 2 (strangers.1.sliced 10000 (by decide), strangers.2) =
      some [.str "No match found for $token(3)"] := by cbv
  exact .of_answers hrunning hmail inquiry_isCall hquiet _ _ hsmall hlarge (by simp [Value.str])

/-- The two actors share nothing, whatever their time slice is, and whatever happens. -/
theorem separate_strangers {slice : Nat} (hslice : 0 < slice) {r : Realm}
    (h : Realm.Reaches ActorConfig.Checked ⟨strangers.1.sliced slice hslice, strangers.2, []⟩ r) : r.Separate := by
  obtain ⟨_, hpair⟩ := (Realm.divided_create create_fresh).reaches
    (pairs_counting.reaches_bare ⟨by cbv, by cbv; simp, by cbv, by cbv; simp⟩)
  have hsystem : Realm.Divided _ ⟨(Realm.pair counting).system.1, (Realm.pair counting).system.2, (Realm.pair counting).held⟩ :=
    hpair
  obtain ⟨_, hfirst⟩ := divided_sentTo hsystem 0 "left" inquiry_owned
  obtain ⟨_, hsecond⟩ := divided_sentTo hfirst 0 "left" inquiry_owned
  obtain ⟨_, hthird⟩ := divided_sentTo hsecond 1 "right" inquiry_owned
  -- the time slice belongs to nobody
  have hsliced : Realm.Divided _ ⟨strangers.1.sliced slice hslice, strangers.2, []⟩ :=
    ⟨{ hthird.system with }, fun _ ht => absurd ht List.not_mem_nil⟩
  obtain ⟨_, hr⟩ := hsliced.reaches h
  exact hr.separate

/-! ### An answer that comes back -/

/-- Makes actors that have captured an unbound variable. They bind it if they are asked about `true`, and answer with what
they are asked about. -/
def keeping : Instr :=
  .fresh ["kept"] (recipe (.seq
    [.cond (.ident "message") (.bind "kept" (.ident "message")) .skip, .bind "answer" (.ident "message")]))

/-- A request on behalf of actor 0 itself, about `false`. The answer is for the variable that the actor has captured. -/
def ownInquiry : Envelope := .request (.lit (.bool false)) ⟨.actor 0, "left"⟩ (.var 8)

/-- The actor has been asked on its own behalf, and then by a client. -/
def selfish : ActorSystem × Store :=
  sentTo 0 "left" (inquiry true) (sentTo 0 "left" ownInquiry (Realm.single keeping).system)

theorem settles_keeping : Realm.Settles keeping := ⟨by cbv, by cbv, by cbv, by cbv, by cbv⟩

/-- With a slice of three instructions the answer to itself has come back before the client is answered. -/
theorem selfish_small : answers? 0 4 (selfish.1.sliced 3 (by decide), selfish.2) =
    some [.lit (.bool false), .failed 0] := by cbv

theorem selfish_large : answers? 0 1 (selfish.1.sliced 10000 (by decide), selfish.2) =
    some [.lit (.bool false), .lit (.bool true)] := by cbv

/-- The answer to itself and its own binding are in conflict, and which of the two comes first depends on the slice. -/
theorem sensitive_selfish : Sensitive 0 selfish := by
  have hvar : 8 < (Realm.single keeping).store.vars.size := by cbv
  have hin : ownInquiry.In (Realm.single keeping).store := ⟨trivial, hvar⟩
  have hrunning : Running selfish :=
    (settles_keeping.running_single.sentTo 0 "left" hin).sentTo 0 "left" (inquiry_in true _)
  have hmail : (selfish.1.actor? 0).map (fun a => a.mailbox.items) =
      some (.configure 0 :: [ownInquiry, inquiry true].map .envelope) := by cbv
  have hcalls : ∀ e ∈ [ownInquiry, inquiry true], e.IsCall := List.forall_mem_cons.mpr ⟨trivial, inquiry_isCall⟩
  have hquiet : (Desk.ofActor 0 (selfish.1.view 0) 0 selfish).isQuiet 30 = true := by cbv
  exact .of_answers hrunning hmail hcalls hquiet _ _ selfish_small selfish_large (by simp)

/-- **Preemption shows** when an actor is not left alone. It shows when another actor uses a cell that this one uses. It
shows when the two share nothing at all, because the numbers of tokens and variables, which texts are full of, are counted for
all actors. And it shows when nobody else is there, but an answer comes back that the actor gives to itself: with a small slice
it arrives before the next envelope is handled, and with a large one it does not. -/
theorem Running.preemption_visible :
    Sensitive 1 sharers ∧
      (Sensitive 1 strangers ∧ ∀ (slice : Nat) (hslice : 0 < slice) (r : Realm),
        Realm.Reaches ActorConfig.Checked ⟨strangers.1.sliced slice hslice, strangers.2, []⟩ r → r.Separate) ∧
      (Sensitive 0 selfish ∧ ∀ n, n ≠ 0 → selfish.1.actor? n = none) := by
  refine ⟨sensitive_sharers, ⟨sensitive_strangers, fun _ hslice _ => separate_strangers hslice⟩, sensitive_selfish, ?_⟩
  intro n hn
  have hkeys : selfish.1.actors.map Prod.fst = [0] := by cbv
  refine List.lookup_eq_none_iff.mpr fun p hp => ?_
  have hp0 : p.1 ∈ selfish.1.actors.map Prod.fst := List.mem_map_of_mem hp
  rw [hkeys, List.mem_singleton] at hp0
  simpa [hp0] using hn

end ActorSystem

end Dataflow
