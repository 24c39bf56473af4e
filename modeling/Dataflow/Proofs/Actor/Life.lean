/-
Lives of actors: what an actor can do with an item, and what stays true of it.

An actor lives through stages. It is made with the item that configures it in its mailbox, and no other such item
ever comes; taking it up begins the first activity, and until this ends the actor takes up nothing else. After that it
takes up requests and notifications, one at a time, until it is stopped, and then its mailbox is closed and it keeps
nothing. `Life` says what this means for the fields of an actor at any moment.

What happens to an actor is of three kinds. It gets items (`Gets`), it takes one (`Takes`), and it does something with
the item that it has taken (`Does`). Each of them leads from one stage of a life to another.
-/
import Dataflow.Proofs.Actor.Delivery

set_option autoImplicit false

namespace Dataflow

/-! ## What actors keep is in the store -/

/-- What the item refers to is in the store. -/
def Item.In (σ : Store) : Item → Prop
  | .envelope e => e.In σ
  | .configure config => config < σ.configs.size
  | .resume _ stack => Stack.In σ stack
  | .stop => True

/-- The procedures are in the store. -/
structure Handlers.In (σ : Store) (h : Handlers) : Prop where
  ask : ∀ v, h.ask = some v → v.In σ
  tell : ∀ v, h.tell = some v → v.In σ

/-- What the phase refers to is in the store. -/
def Phase.In (σ : Store) : Phase → Prop
  | .ready h => h.In σ
  | .failed f => f < σ.failures.size
  | .created | .stopped => True

/-- The variables of the task are in the store. -/
def Task.In (σ : Store) : Task → Prop
  | .configure result => result < σ.vars.size
  | .answer _ target response => target.In σ ∧ response < σ.vars.size
  | .notify => True

/-- What the actor keeps is in the store. -/
structure Actor.In (σ : Store) (a : Actor) : Prop where
  mail : ∀ item ∈ a.mailbox.items, item.In σ
  deferred : ∀ e ∈ a.deferred, e.In σ
  phase : a.phase.In σ
  task : ∀ act, a.activity = some act → act.task.In σ

namespace Store.Grows

variable {σ τ : Store}

theorem item (h : σ.Grows τ) {item : Item} (hin : item.In σ) : item.In τ := by
  cases item with
  | envelope e => exact h.envelope hin
  | configure config => exact h.value (v := .config config) hin
  | resume id stack => exact h.stack hin
  | stop => trivial

theorem phase (h : σ.Grows τ) {p : Phase} (hin : p.In σ) : p.In τ := by
  cases p with
  | ready handlers => exact ⟨fun v hv => h.value (hin.ask v hv), fun v hv => h.value (hin.tell v hv)⟩
  | failed f => exact h.value (v := .failed f) hin
  | created | stopped => trivial

theorem task (h : σ.Grows τ) {t : Task} (hin : t.In σ) : t.In τ := by
  cases t with
  | configure result => exact Nat.lt_of_lt_of_le hin h.vars
  | answer requester target response => exact ⟨h.term hin.1, Nat.lt_of_lt_of_le hin.2 h.vars⟩
  | notify => trivial

theorem actor (h : σ.Grows τ) {a : Actor} (hin : a.In σ) : a.In τ where
  mail item hitem := h.item (hin.mail item hitem)
  deferred e he := h.envelope (hin.deferred e he)
  phase := h.phase hin.phase
  task act hact := h.task (hin.task act hact)

end Store.Grows

theorem Actor.In.new (σ : Store) (address : Address) : ({ address } : Actor).In σ where
  mail _ hitem := absurd hitem List.not_mem_nil
  deferred _ he := absurd he List.not_mem_nil
  phase := trivial
  task _ hact := absurd hact (Option.some_ne_none _).symm

/-- What an actor gets was in the store when it was sent, and so the actor stays in the store. -/
theorem Actor.In.gets {σ : Store} {items : List Item} {a a' : Actor} (h : a.In σ) (hgets : Gets items a a')
    (hitems : ∀ item ∈ items, item.In σ) : a'.In σ where
  mail item hitem := by
    rw [hgets.mail] at hitem
    split at hitem
    · exact absurd hitem List.not_mem_nil
    · exact (List.mem_append.mp hitem).elim (h.mail item) (hitems item)
  deferred := hgets.deferred ▸ h.deferred
  phase := hgets.phase ▸ h.phase
  task := hgets.activity ▸ h.task

/-- What the effect brings to a mailbox is in the store. -/
theorem Effect.In.itemFor {σ : Store} {e : Effect} (h : e.In σ) {n : Nat} {item : Item}
    (hitem : e.itemFor? n = some item) : item.In σ := by
  unfold Effect.itemFor? at hitem
  split at hitem
  · split at hitem
    · cases hitem
      exact h
    · cases hitem
  · split at hitem
    · cases hitem
      exact h
    · cases hitem
  · split at hitem
    · cases hitem
      exact h
    · cases hitem
  · cases hitem

/-! ## Lives -/

/-- The item tells the actor to configure itself. -/
def Item.isConfigure : Item → Bool
  | .configure _ => true
  | .envelope _ | .resume .. | .stop => false

/-- The actor has not begun to configure itself. -/
def Actor.unconfigured (a : Actor) : Bool :=
  match a.phase, a.activity with
  | .created, none => true
  | _, _ => false

/-- The stages that an actor can be at. -/
structure Actor.Life (a : Actor) : Prop where
  /-- The item that configures the actor is in its mailbox as long as that has not begun, and never again. -/
  configures : a.mailbox.items.countP Item.isConfigure = if a.unconfigured then 1 else 0
  /-- The current activity is the last one that has begun. -/
  current : ∀ act, a.activity = some act → act.id = a.activities
  /-- The first activity is the one that configures the actor, and it takes place in the first phase. -/
  configuring : ∀ act, a.activity = some act → (a.phase = .created ↔ ∃ x, act.task = .configure x)
  created : a.phase = .created → a.activities = if a.activity.isSome then 1 else 0
  configured : a.phase.accepts = true → 0 < a.activities
  /-- Responses are never deferred. -/
  calls : ∀ e ∈ a.deferred, e.IsCall
  stopped : a.phase = .stopped → a.activity = none ∧ a.deferred = [] ∧ a.mailbox.closed = true
  opened : a.phase ≠ .stopped → a.mailbox.closed = false

namespace Actor.Life

variable {items : List Item} {a a' : Actor}

/-- Items other than the one that configures the actor do not move it on. -/
theorem gets (h : a.Life) (hgets : Gets items a a') (hitems : ∀ item ∈ items, item.isConfigure = false) :
    a'.Life where
  configures := by
    -- nothing of what came in configures, so the count stays what it was
    have hunconfigured : a'.unconfigured = a.unconfigured := by
      rw [unconfigured, unconfigured, hgets.phase, hgets.activity]
    have hnone : items.countP Item.isConfigure = 0 := by
      refine List.countP_eq_zero.mpr fun item hitem => ?_
      rw [hitems item hitem]
      exact Bool.false_ne_true
    rw [hgets.mail, hunconfigured, ← h.configures]
    split
    · next hclosed => rw [a.mailbox.empty_of_closed hclosed]
    · rw [List.countP_append, hnone, Nat.add_zero]
  current := by
    rw [hgets.activity, hgets.activities]
    exact h.current
  configuring := by
    rw [hgets.activity, hgets.phase]
    exact h.configuring
  created := by
    rw [hgets.phase, hgets.activities, hgets.activity]
    exact h.created
  configured := by
    rw [hgets.phase, hgets.activities]
    exact h.configured
  calls := by
    rw [hgets.deferred]
    exact h.calls
  stopped := by
    rw [hgets.phase, hgets.activity, hgets.deferred, hgets.closed]
    exact h.stopped
  opened := by
    rw [hgets.phase, hgets.closed]
    exact h.opened

/-- An actor begins its life with the item that configures it. -/
theorem born {address : Address} {config : ConfigId} (hgets : Gets (.configure config :: items) { address } a)
    (hitems : ∀ item ∈ items, item.isConfigure = false) : a.Life := by
  -- only the first item configures
  have hnone : items.countP Item.isConfigure = 0 := by
    refine List.countP_eq_zero.mpr fun item hitem => ?_
    rw [hitems item hitem]
    exact Bool.false_ne_true
  have hphase : a.phase = .created := hgets.phase
  have hactivity : a.activity = none := hgets.activity
  have hmail : a.mailbox.items = .configure config :: items := hgets.mail
  constructor
  · rw [hmail, List.countP_cons, hnone, unconfigured, hphase, hactivity]
    rfl
  · simp [hactivity]
  · simp [hactivity]
  · intro _
    rw [hactivity]
    exact hgets.activities
  · simp [hphase, Phase.accepts]
  · rw [hgets.deferred]
    exact fun e he => absurd he List.not_mem_nil
  · simp [hphase]
  · exact fun _ => hgets.closed

end Actor.Life

/-! ## Taking an item -/

/-- The actor takes an item: the first of the deferred envelopes if it can take one up, and else the first item
of its mailbox. -/
inductive Actor.Takes (a : Actor) : Item → Actor → Prop where
  | deferred {e : Envelope} {rest : List Envelope} (haccepts : a.accepts = true) (h : a.deferred = e :: rest) :
      Takes a (.envelope e) { a with deferred := rest }
  | mailed {item : Item} {rest : List Item} (hbehind : a.accepts = true → a.deferred = [])
      (h : a.mailbox.items = item :: rest) (hopen : a.mailbox.closed = false) :
      Takes a item { a with mailbox := { items := rest, empty_of_closed := fun h => Bool.noConfusion h } }

/-! ## Activities begin and end -/

/-- The item makes an actor like `a` begin with the task. -/
inductive Item.Causes (a : Actor) : Item → Task → Prop where
  | configure {config : ConfigId} {x : VarId} (h : a.phase = .created) : Causes a (.configure config) (.configure x)
  | request {v : Value} {r : ActorRef} {t : Term} {x : VarId} (h : a.accepts = true) :
      Causes a (.envelope (.request v r t)) (.answer r t x)
  | notify {v : Value} (h : a.accepts = true) : Causes a (.envelope (.notify v)) .notify

/-- The actor at the beginning of an activity. -/
def Actor.begin (a : Actor) (task : Task) : Actor :=
  { a with activity := some ⟨a.activities + 1, task⟩, activities := a.activities + 1 }

/-- The end of a task: what becomes of the phase, and what is sent. -/
inductive Task.Ends (σ : Store) : Task → Option Phase → Option Effect → Prop where
  | configured {x : VarId} {h : Handlers} (hin : h.In σ) : Ends σ (.configure x) (some (.ready h)) none
  | unconfigured {x : VarId} {f : FailureId} (hf : f < σ.failures.size) :
      Ends σ (.configure x) (some (.failed f)) none
  | answered {r : ActorRef} {t : Term} {x : VarId} {v : Value} (hv : v.In σ) :
      Ends σ (.answer r t x) none (some (.send r (.response v t)))
  | notified : Ends σ .notify none none

/-- The actor after its activity. -/
def Actor.finish (a : Actor) (phase : Option Phase) : Actor :=
  { a with activity := none, phase := phase.getD a.phase }

/-- Whom the task has to answer, and what the answer is for. -/
def Task.owed : Task → List (ActorRef × Term)
  | .answer requester target _ => [(requester, target)]
  | .configure _ | .notify => []

/-! ## Doing something with an item -/

/-- The item comes too late for an actor like `a`. -/
def Item.Late (a : Actor) : Item → Prop
  | .configure _ => a.phase ≠ .created
  | .resume id _ => ∀ act, a.activity = some act → act.id ≠ id
  | .envelope _ | .stop => False

/-- What an actor does with an item that it has taken, whom it answers then, and what becomes of it. -/
inductive Actor.Does (a : Actor) : Item → List (ActorRef × Term) → Actor → Prop where
  | absorbs {v : Value} {t : Term} : Does a (.envelope (.response v t)) [] a
  | defers {e : Envelope} (hcall : e.IsCall) (hbusy : a.accepts = false) :
      Does a (.envelope e) [] { a with deferred := a.deferred ++ [e] }
  | answers {v : Value} {r : ActorRef} {t : Term} (h : a.accepts = true) :
      Does a (.envelope (.request v r t)) [(r, t)] a
  | drops {v : Value} (h : a.accepts = true) : Does a (.envelope (.notify v)) [] a
  | ignores {item : Item} (h : item.Late a) : Does a item [] a
  | halts : Does a .stop [] a.halt
  | begins {item : Item} {task : Task} (h : item.Causes a task) : Does a item [] (a.begin task)
  | beginsAndEnds {item : Item} {task : Task} {σ : Store} {phase : Option Phase} {reply : Option Effect}
      (h : item.Causes a task) (hends : task.Ends σ phase reply) :
      Does a item task.owed ((a.begin task).finish phase)
  | goesOn {act : Activity} {stack : Stack} (h : a.activity = some act) : Does a (.resume act.id stack) [] a
  | ends {act : Activity} {stack : Stack} {σ : Store} {phase : Option Phase} {reply : Option Effect}
      (h : a.activity = some act) (hends : act.task.Ends σ phase reply) :
      Does a (.resume act.id stack) act.task.owed (a.finish phase)

namespace Actor

variable {a a' : Actor} {item : Item}

theorem accepts_iff : a.accepts = true ↔ a.activity = none ∧ a.phase.accepts = true := by
  simp [accepts, Option.isNone_iff_eq_none]

/-- An actor is unconfigured until it has begun to run its configuration. -/
theorem unconfigured_iff : a.unconfigured = true ↔ a.phase = .created ∧ a.activity = none := by
  rw [unconfigured]
  split
  · next hphase hactivity => exact ⟨fun _ => ⟨hphase, hactivity⟩, fun _ => rfl⟩
  · next h => exact ⟨nofun, fun ⟨hphase, hactivity⟩ => (h hphase hactivity).elim⟩

theorem not_unconfigured (h : a.phase = .created → a.activity ≠ none) : a.unconfigured = false := by
  cases hu : a.unconfigured with
  | false => rfl
  | true => exact absurd (unconfigured_iff.mp hu).2 (h (unconfigured_iff.mp hu).1)

/-- Configuring is not among what an actor without that item has to do. -/
theorem Life.no_configure (h : a.Life) (hu : a.unconfigured = false) :
    a.mailbox.items.countP Item.isConfigure = 0 := by
  rw [h.configures, hu]
  rfl

theorem Phase.ne_created_of_accepts {p : Phase} (h : p.accepts = true) : p ≠ .created := by
  rintro rfl
  cases h

theorem Phase.ne_stopped_of_accepts {p : Phase} (h : p.accepts = true) : p ≠ .stopped := by
  rintro rfl
  cases h

theorem halt_phase (a : Actor) : a.halt.phase = .stopped := by
  unfold halt
  split
  · assumption
  · rfl

/-- An actor that takes an item has not been stopped. -/
theorem Takes.phase_ne (h : a.Takes item a') (hlife : a.Life) : a.phase ≠ .stopped := by
  intro hphase
  obtain ⟨-, hdeferred, hclosed⟩ := hlife.stopped hphase
  cases h with
  | deferred _ h =>
    rw [hdeferred] at h
    cases h
  | mailed _ _ hopen =>
    rw [hclosed] at hopen
    cases hopen

/-- Taking an item is visible in the mailbox and in the deferred envelopes only. -/
theorem Takes.same (h : a.Takes item a') :
    a'.phase = a.phase ∧ a'.activity = a.activity ∧ a'.activities = a.activities := by
  cases h with
  | deferred => exact ⟨rfl, rfl, rfl⟩
  | mailed => exact ⟨rfl, rfl, rfl⟩

namespace Life

/-- Taking up an item other than the configuration is part of a life. An envelope that has been put aside was a call when it
came; what comes from the mailbox leaves the configuration in it, if it is there. -/
theorem takes (h : a.Life) (htakes : a.Takes item a') (hitem : item.isConfigure = false) : a'.Life := by
  have hphase := htakes.phase_ne h
  cases htakes with
  | deferred haccepts hdeferred =>
    refine { h with calls := fun e he => ?_, stopped := fun hstopped => absurd hstopped hphase }
    exact h.calls e (hdeferred ▸ List.mem_cons_of_mem _ he)
  | mailed hbehind hmail hopen =>
    refine { h with configures := ?_, stopped := fun hstopped => absurd hstopped hphase, opened := fun _ => rfl }
    have hcount := h.configures
    rw [hmail, List.countP_cons, hitem] at hcount
    exact hcount

/-- An actor that can take something up begins an activity with it. -/
theorem begins_of_accepts (h : a.Life) (haccepts : a.accepts = true) {task : Task}
    (htask : ∀ x, task ≠ .configure x) : (a.begin task).Life := by
  have hphase := (accepts_iff.mp haccepts).2
  have hcreated : a.phase ≠ .created := Phase.ne_created_of_accepts hphase
  constructor
  · rw [not_unconfigured fun _ => Option.some_ne_none _]
    exact h.no_configure (not_unconfigured fun hphase => absurd hphase hcreated)
  · rintro act hact
    cases hact
    rfl
  · rintro act hact
    cases hact
    exact ⟨fun hphase => absurd hphase hcreated, fun ⟨x, hx⟩ => absurd hx (htask x)⟩
  · exact fun hphase => absurd hphase hcreated
  · exact fun _ => Nat.succ_pos _
  · exact h.calls
  · exact fun hstopped => absurd hstopped (Phase.ne_stopped_of_accepts hphase)
  · exact h.opened

/-- The item that configures an actor is taken before anything has begun, and it was the only one. -/
theorem takes_configure (h : a.Life) {config : ConfigId} (htakes : a.Takes (.configure config) a') :
    a.unconfigured = true ∧ a'.mailbox.items.countP Item.isConfigure = 0 ∧ a'.deferred = a.deferred := by
  cases htakes with
  | mailed hbehind hmail hopen =>
    have hcount := h.configures
    rw [hmail, List.countP_cons, Item.isConfigure, if_pos rfl] at hcount
    cases hu : a.unconfigured with
    | false =>
      rw [hu] at hcount
      cases hcount
    | true =>
      rw [hu] at hcount
      exact ⟨rfl, Nat.succ.inj hcount, rfl⟩

/-- What is taken up begins an activity: configuring first, and anything else later. -/
theorem begins (h : a.Life) (htakes : a.Takes item a') {task : Task} (hcause : item.Causes a' task) :
    (a'.begin task).Life := by
  cases hcause with
  -- what comes next is the configuration itself, or a call to an actor that has it
  | configure hcreated =>
    obtain ⟨hu, hcount, hdeferred⟩ := h.takes_configure htakes
    obtain ⟨hphase, hnone⟩ := unconfigured_iff.mp hu
    -- nothing has begun before the configuration
    have hfirst : a'.activities = 0 := by
      rw [htakes.same.2.2, h.created hphase, hnone]
      rfl
    constructor
    · rw [not_unconfigured fun _ => Option.some_ne_none _]
      exact hcount
    · rintro act hact
      cases hact
      rfl
    · rintro act hact
      cases hact
      exact ⟨fun _ => ⟨_, rfl⟩, fun _ => hcreated⟩
    · exact fun _ => congrArg (· + 1) hfirst
    · exact fun haccepts => absurd hcreated (Phase.ne_created_of_accepts haccepts)
    · exact fun e he => h.calls e (hdeferred ▸ he)
    · intro hstopped
      cases hcreated.symm.trans hstopped
    · cases htakes with
      | mailed => exact fun _ => rfl
  | request haccepts => exact (h.takes htakes rfl).begins_of_accepts haccepts nofun
  | notify haccepts => exact (h.takes htakes rfl).begins_of_accepts haccepts nofun

theorem lives_of_activity (h : a.Life) {act : Activity} (hact : a.activity = some act) : a.phase ≠ .stopped := by
  intro hstopped
  rw [(h.stopped hstopped).1] at hact
  cases hact

theorem open_of_activity (h : a.Life) {act : Activity} (hact : a.activity = some act) : a.mailbox.closed = false :=
  h.opened (h.lives_of_activity hact)

/-- The end of an activity is part of a life: the actor is ready or has failed if it was to be configured, and otherwise it is
in the phase it was in. -/
theorem finishes (h : a.Life) {act : Activity} (hact : a.activity = some act) {σ : Store} {phase : Option Phase}
    {reply : Option Effect} (hends : act.task.Ends σ phase reply) : (a.finish phase).Life := by
  have hnotstopped := h.lives_of_activity hact
  have hbusy : a.mailbox.items.countP Item.isConfigure = 0 := by
    refine h.no_configure (not_unconfigured fun _ => ?_)
    rw [hact]
    exact Option.some_ne_none act
  -- the actor is configured afterwards, whether it has been before or not
  have haccepts : (a.finish phase).phase.accepts = true := by
    have hcreated := h.configuring act hact
    obtain ⟨id, task⟩ := act
    cases hends with
    | configured | unconfigured => rfl
    | answered | notified =>
      have hne : a.phase ≠ .created := fun hphase => by cases (hcreated.mp hphase).choose_spec
      rw [finish, Option.getD_none]
      cases hphase : a.phase with
      -- nothing but the configuration can be going on before there are handlers
      | ready _ | failed _ => rfl
      | created => exact absurd hphase hne
      | stopped => exact absurd hphase hnotstopped
  -- the activity that is over has been counted when it began
  have hpositive : 0 < a.activities := by
    cases hphase : a.phase with
    | created => rw [h.created hphase, hact]; exact Nat.one_pos
    | ready _ | failed _ => exact h.configured (hphase ▸ rfl)
    | stopped => exact absurd hphase hnotstopped
  constructor
  · rw [not_unconfigured fun hphase => absurd hphase (Phase.ne_created_of_accepts haccepts)]
    exact hbusy
  · exact fun act hact => absurd hact (Option.some_ne_none act).symm
  · exact fun act hact => absurd hact (Option.some_ne_none act).symm
  · exact fun hphase => absurd hphase (Phase.ne_created_of_accepts haccepts)
  · exact fun _ => hpositive
  · exact h.calls
  · exact fun hstopped => absurd hstopped (Phase.ne_stopped_of_accepts haccepts)
  · exact fun _ => h.opened hnotstopped

/-- A stop is part of a life, at any time. An actor that has stopped already stays as it is. -/
theorem halts (h : a.Life) : a.halt.Life := by
  unfold halt
  split
  · exact h
  · constructor
    · rfl
    · exact fun act hact => absurd hact (Option.some_ne_none act).symm
    · exact fun act hact => absurd hact (Option.some_ne_none act).symm
    · exact nofun
    · exact nofun
    · exact fun e he => absurd he List.not_mem_nil
    · exact fun _ => ⟨rfl, rfl, rfl⟩
    · exact fun hphase => absurd rfl hphase

/-- An actor that is alive may put a letter aside. -/
theorem defers (h : a.Life) (hphase : a.phase ≠ .stopped) {e : Envelope} (hcall : e.IsCall) :
    ({ a with deferred := a.deferred ++ [e] } : Actor).Life := by
  refine { h with calls := fun f hf => ?_, stopped := fun hstopped => absurd hstopped hphase }
  rcases List.mem_append.mp hf with hf | hf
  · exact h.calls f hf
  · exact List.mem_singleton.mp hf ▸ hcall

/-- **Whatever an actor does with an item** that it has taken, it lives on. -/
theorem does (h : a.Life) (htakes : a.Takes item a') {answers : List (ActorRef × Term)} {a'' : Actor}
    (hdoes : a'.Does item answers a'') : a''.Life := by
  have hphase : a'.phase ≠ .stopped := htakes.same.1 ▸ htakes.phase_ne h
  cases hdoes with
  | absorbs | answers _ | drops _ => exact h.takes htakes rfl
  | defers hcall hbusy => exact (h.takes htakes rfl).defers hphase hcall
  | halts => exact (h.takes htakes rfl).halts
  | begins hcause => exact h.begins htakes hcause
  | beginsAndEnds hcause hends => exact (h.begins htakes hcause).finishes rfl hends
  | goesOn _ => exact h.takes htakes rfl
  | ends hact hends => exact (h.takes htakes rfl).finishes hact hends
  | ignores hlate =>
    cases item with
    | configure config =>
      have hcreated := (unconfigured_iff.mp (h.takes_configure htakes).1).1
      exact absurd (htakes.same.1.trans hcreated) hlate
    | resume id stack => exact h.takes htakes rfl
    | envelope _ | stop => exact hlate.elim

end Life

/-! ## What actors keep stays in the store -/

namespace In

variable {σ : Store}

/-- Taking an item from the mailbox loses no reference. -/
theorem takes (h : a.In σ) (htakes : a.Takes item a') : a'.In σ ∧ item.In σ := by
  cases htakes with
  | deferred haccepts hdeferred =>
    have hin := List.forall_mem_cons.mp (hdeferred ▸ h.deferred)
    exact ⟨{ h with deferred := hin.2 }, hin.1⟩
  | mailed hbehind hmail hopen =>
    have hin := List.forall_mem_cons.mp (hmail ▸ h.mail)
    exact ⟨{ h with mail := hin.2 }, hin.1⟩

theorem begins (h : a.In σ) {task : Task} (htask : task.In σ) : (a.begin task).In σ := by
  refine { h with task := fun act hact => ?_ }
  cases hact
  exact htask

/-- An actor that finishes an activity refers to nothing new but what the task has come to. -/
theorem finishes (h : a.In σ) {task : Task} {phase : Option Phase} {reply : Option Effect}
    (hends : task.Ends σ phase reply) : (a.finish phase).In σ := by
  refine { h with phase := ?_, task := fun act hact => absurd hact (Option.some_ne_none act).symm }
  cases hends with
  | configured hin => exact hin
  | unconfigured hf => exact hf
  | answered | notified => exact h.phase

theorem halts (h : a.In σ) : a.halt.In σ := by
  unfold halt
  split
  · exact h
  · refine ⟨?_, ?_, trivial, ?_⟩
    · exact fun item hitem => absurd hitem List.not_mem_nil
    · exact fun e he => absurd he List.not_mem_nil
    · exact fun act hact => absurd hact (Option.some_ne_none act).symm

theorem defers (h : a.In σ) {e : Envelope} (he : e.In σ) :
    ({ a with deferred := a.deferred ++ [e] } : Actor).In σ := by
  refine { h with deferred := List.forall_mem_append.mpr ⟨h.deferred, fun f hf => ?_⟩ }
  exact List.mem_singleton.mp hf ▸ he

end In

end Actor

end Dataflow
