/-
Likeness: what a system shows of a desk.

An actor is like a desk if it is in the same phase, with the same letters before it and the same activity, and if the other
items in its mailbox ask for just what comes next at the desk: the handlers are still to be made, or a computation is to be
gone on with. What the desk has written to its log is what the system has delivered, and after that what it still has in its
own log.

An item that the actor handles is then a number of steps of the desk. A letter that comes while the actor is busy is none,
and a time slice may be many. That is so only as long as nothing that the actor writes to the log comes back to it. Whoever
else is in the system does not matter while the actor has its turn: nobody else works on the store then.
-/
import Dataflow.Proofs.Actor.Desk
import Dataflow.Proofs.Actor.Outcomes
import Dataflow.Proofs.Actor.Wakeups

set_option autoImplicit false

namespace Dataflow

/-! ## Effects -/

/-- Who is answered, what the answer is for, and what it says. -/
def Effect.reply? : Effect → Option (ActorRef × Term × Value)
  | .send requester (.response v target) => some (requester, target, v)
  | _ => none

/-- The answers in the log. -/
def Store.replies (σ : Store) : List (ActorRef × Term × Value) := σ.effects.toList.filterMap Effect.reply?

theorem Store.replies_congr {σ τ : Store} (h : σ.effects = τ.effects) : σ.replies = τ.replies := by
  rw [replies, replies, h]

/-- The effect asks somebody, tells somebody something, or makes an actor. -/
def Effect.reachesOut : Effect → Bool
  | .send _ (.request ..) | .send _ (.notify _) | .spawn .. => true
  | .send _ (.response ..) | .wake .. => false

/-- The effect brings nothing to actor `n`, and makes no actor. -/
def Effect.Passes (n : Nat) (e : Effect) : Prop := e.itemFor? n = none ∧ e.child? = none

/-- What answers nobody is no reply. -/
theorem Effect.reply?_eq_none {e : Effect} (h : e.answer? = none) : e.reply? = none := by
  cases e with
  | wake | spawn => rfl
  | send recipient envelope =>
    cases envelope with
    | request | notify => rfl
    | response v target => cases h

/-- Computations answer nobody. -/
theorem Store.Leaves.replies {σ τ : Store} {r : Resumer} {w : Option VarId} (h : σ.Leaves r τ w) : τ.replies = σ.replies := by
  obtain ⟨new, hnew⟩ := h.writes
  have hnone : new.filterMap Effect.reply? = [] :=
    List.filterMap_eq_nil_iff.mpr fun e he => Effect.reply?_eq_none (hnew.calls e he)
  rw [Store.replies, hnew.log, List.filterMap_append, hnone, List.append_nil, Store.replies]

/-- Effects that pass an actor by do not change it. -/
theorem ActorSystem.actor?_foldl_route {n : Nat} {effects : List Effect} (h : ∀ e ∈ effects, e.Passes n)
    (sys : ActorSystem) : (effects.foldl route sys).actor? n = sys.actor? n := by
  induction effects generalizing sys with
  | nil => rfl
  | cons e effects ih =>
    obtain ⟨⟨hitem, hchild⟩, hrest⟩ := List.forall_mem_cons.mp h
    have hroute := actor?_route (n := n) sys (hchild ▸ Option.some_ne_none n |>.symm)
    rw [hitem] at hroute
    rw [List.foldl_cons, ih hrest, hroute]

namespace Desk

variable {d d' : Desk}

/-- The actor asks nobody, tells nobody anything, and makes no actors. -/
def Reticent (d : Desk) : Prop := ∀ e ∈ d.store.effects.toList, e.reachesOut = false

/-- What a reticent actor has written to the log does not come back to it. -/
theorem Sound.passes (h : d.Sound) (hquiet : d.Reticent) : ∀ e ∈ d.store.effects.toList, e.Passes d.number := by
  intro e he
  -- the three kinds of effects
  cases e with
  | wake r stack =>
    refine ⟨?_, rfl⟩
    cases r with
    | queue | tag => rfl
    -- a continuation of the actor would be woken by its own number
    | activity m id =>
      refine if_neg fun hm => ?_
      subst hm
      have hnone := List.countP_eq_zero.mp (h.log id) _ he
      exact hnone (beq_self_eq_true _)
  | spawn child parent config => cases hquiet _ he
  | send recipient envelope =>
    refine ⟨?_, rfl⟩
    cases envelope with
    | request | notify => cases hquiet _ he
    | response v target =>
      -- an answer of the actor goes to another one
      have hother := h.answers (recipient, target) (List.mem_filterMap.mpr ⟨_, he, rfl⟩)
      obtain ⟨receiver, address⟩ := recipient
      cases receiver with
      | actor m => exact if_neg fun hm => hother (congrArg Receiver.actor hm)
      | recorder | client => rfl

end Desk

/-! ## What is written first -/

namespace Desk

variable {d : Desk} {act : Activity}

/-- A desk that fails only adds to the log. -/
theorem fail_writes (d : Desk) (task : Task) (f : FailureId) :
    d.store.effects.toList <+: (d.fail task f).store.effects.toList := by
  cases task with
  | configure | notify => exact List.prefix_rfl
  | answer requester target response => exact ⟨[.send requester (.response (.failed f) target)], by simp [fail, reply, Store.emit]⟩

/-- Settling writes to the log and takes nothing out of it, whatever the result is. -/
theorem settle_writes (hstore : d.store.Closed) (htask : act.task.In d.store) :
    d.store.effects.toList <+: (d.settle act).store.effects.toList := by
  have hsafe := SystemM.outcome_safe hstore htask
  rw [Action.Safe] at hsafe
  rw [settle]
  generalize SystemM.outcome act.task d.store = made at hsafe
  have hfirst : ∀ {τ : Store}, d.store.Deeds τ → d.store.effects.toList <+: τ.effects.toList := by
    intro τ hdeeds
    obtain ⟨new, hnew⟩ := hdeeds.writes
    exact ⟨new, hnew.log.symm⟩
  -- an answer, a variable that has to be waited for, or a failure
  rcases made with ⟨result, τ⟩ | ⟨x | f, τ⟩
  · refine (hfirst hsafe.1).trans ?_
    cases result with
    | configured | notified => exact List.prefix_rfl
    | answered requester target v => exact ⟨[.send requester (.response v target)], by simp [finish, reply, Store.emit]⟩
  · have hsame : (τ.suspend x ⟨[], .activity d.number act.id⟩).2.effects = τ.effects := by
      rw [Store.suspend]
      split <;> rfl
    exact hsame ▸ hfirst hsafe.1
  · exact (hfirst hsafe.1).trans (fail_writes { d with store := (τ.failWith d.address f).2 } act.task _)

/-- What a slice writes to the log is there before anything else is written. -/
theorem left_writes (d : Desk) {s : Slice} (hstore : s.store.Closed) (htask : act.task.In s.store) :
    s.store.effects.toList <+: (d.left act s).store.effects.toList := by
  obtain ⟨advice, executed, σ⟩ := s
  cases advice with
  | preempted stack | waiting x => exact List.prefix_rfl
  | halted f => exact fail_writes { d with store := σ } _ f
  | ended => exact settle_writes (d := { d with store := σ }) hstore htask

end Desk

/-! ## What a system shows of a desk -/

/-- What the mailbox holds besides requests and notifications. -/
def Actor.signals (a : Actor) : List Item := a.mailbox.items.filter fun item => item.call?.isNone

/-! ## New variables -/

theorem SystemM.bindAll_eq (bindings : List (Ident × Value)) (sys : ActorSystem) (σ : Store) :
    SystemM.bindAll bindings (sys, σ) = ((σ.bindAll bindings).1, sys, (σ.bindAll bindings).2) := by
  induction bindings generalizing σ with
  | nil => rfl
  | cons p bindings ih =>
    rw [SystemM.bindAll, bind_eq, onStore_eq, bind_eq, ih, Store.bindAll]
    rfl

/-- Binding parameters does not look at the log. -/
theorem Store.bindAll_behind (log : Array Effect) (σ : Store) (bindings : List (Ident × Value)) :
    (σ.behind log).bindAll bindings = ((σ.bindAll bindings).1, (σ.bindAll bindings).2.behind log) := by
  induction bindings generalizing σ with
  | nil => rfl
  | cons p bindings ih =>
    have hrest : ((σ.behind log).newVar (.bound p.2)).2.bindAll bindings = _ := ih (σ.newVar (.bound p.2)).2
    rw [bindAll, bindAll]
    dsimp only
    rw [hrest]
    rfl

theorem Store.freshVar_behind (log : Array Effect) (σ : Store) :
    (σ.behind log).freshVar = (σ.freshVar.1, σ.freshVar.2.behind log) := rfl

/-- Binding identifiers writes nothing to the log. -/
@[simp] theorem Store.effects_bindAll (σ : Store) (bindings : List (Ident × Value)) :
    (σ.bindAll bindings).2.effects = σ.effects := by
  induction bindings generalizing σ with
  | nil => rfl
  | cons p bindings ih => exact ih _

/-- An item that carries a call is an envelope. -/
theorem Item.of_call? {item : Item} {e : Envelope} (h : item.call? = some e) : item = .envelope e ∧ e.IsCall := by
  cases item with
  | envelope e' =>
    cases e' with
    | request | notify =>
      obtain rfl := Option.some.inj h
      exact ⟨rfl, trivial⟩
    | response => cases h
  | configure | resume | stop => cases h

/-- Taking an item takes a signal if the item is one. -/
theorem Actor.signals_of_takes {item : Item} {a b : Actor} (h : b.Takes item a) (hlife : b.Life) :
    b.signals = if item.call?.isNone then item :: a.signals else a.signals := by
  cases h with
  | @deferred e rest _ hdeferred =>
    rw [Item.call?_of_isCall (hlife.calls e (hdeferred ▸ List.mem_cons_self))]
    rfl
  | mailed _ hmail _ =>
    rw [signals, signals, hmail, List.filter_cons]

namespace Desk

/-- The signals that an actor has in its mailbox that is like the desk. -/
def signals (d : Desk) : List Item :=
  (d.config.map Item.configure).toList ++
    (d.current.bind fun p => p.2.map fun (instr, env, rest) => Item.resume p.1.id (.run instr env :: rest)).toList

/-- The actor is like the desk, but for its activity and its signals, which are these. -/
structure Resembles (d : Desk) (activity : Option Activity) (signals : List Item) (a : Actor) : Prop where
  address : a.address = d.address
  phase : a.phase = d.phase
  waiting : a.waiting = d.letters
  activities : a.activities = d.activities
  opened : a.mailbox.closed = false
  activity : a.activity = activity
  signals : a.signals = signals

/-- The actor of the desk is in the system, and the log has been carried out up to `log`. -/
structure Describes (d : Desk) (activity : Option Activity) (signals : List Item) (log : Array Effect)
    (s : ActorSystem × Store) : Prop where
  store : d.store = s.2.behind log
  root : s.1.kernel.root = d.root
  actor : ∃ a, s.1.actor? d.number = some a ∧ d.Resembles activity signals a

/-- An open mailbox may be empty. -/
theorem empty_of_open (hclosed : false = true) : ([] : List Item) = [] := by cases hclosed

/-- The actor, when there is nothing that it can do. -/
def actor (d : Desk) : Actor where
  address := d.address
  mailbox := ⟨[], false, empty_of_open⟩
  phase := d.phase
  activity := d.current.map Prod.fst
  deferred := d.letters
  activities := d.activities

/-- The system shows the desk. -/
abbrev Shows (d : Desk) (log : Array Effect) (s : ActorSystem × Store) : Prop :=
  d.Describes (d.current.map Prod.fst) d.signals log s

/-- A desk that is configured and has nothing to resume has no signals. -/
theorem signals_nil {d : Desk} (hconfig : d.config = none) (hcurrent : ∀ act next, d.current ≠ some (act, some next)) :
    d.signals = [] := by
  rw [signals, hconfig]
  rcases hcase : d.current with _ | ⟨act, _ | next⟩
  · rfl
  · rfl
  · exact absurd hcase (hcurrent act next)

namespace Describes

variable {d d' : Desk} {act : Activity} {activity activity' : Option Activity} {signals signals' : List Item}
  {log : Array Effect} {s : ActorSystem × Store} {sys sys' : ActorSystem} {σ : Store} {a b : Actor}

/-- The log is carried out, and nothing in it concerns the actor. -/
theorem deliver (h : d.Describes activity signals log s) (hpass : ∀ e ∈ s.2.effects.toList, e.Passes d.number) :
    d.Describes activity signals (log ++ s.2.effects) (SystemM.deliver s).2 where
  store := by
    rw [h.store, SystemM.deliver_eq]
    simp [Store.behind, Store.cleared]
  root := ((ActorSystem.delivered_fixed s.1 s.2).1 ▸ h.root :)
  actor := by
    obtain ⟨a, ha, hlike⟩ := h.actor
    exact ⟨a, (ActorSystem.actor?_foldl_route hpass s.1).trans ha, hlike⟩

/-- The actor changes, and so does the desk. -/
theorem becomes (h : d.Describes activity signals log (sys, σ)) (hbecomes : sys.Becomes d.number b sys')
    (hlike : d'.Resembles activity' signals' b) (hstore : d'.store = d.store) (hroot : d'.root = d.root)
    (hnumber : d'.number = d.number) : d'.Describes activity' signals' log (sys', σ) where
  store := hstore.trans h.store
  root := by rw [hbecomes.kernel, hroot, h.root]
  actor := ⟨b, hnumber ▸ hbecomes.self, hlike⟩

/-- Work on the store. -/
theorem work (h : d.Describes activity signals log (sys, σ)) {τ υ : Store} (hτ : υ = τ.behind log) :
    { d with store := υ }.Describes activity signals log (sys, τ) :=
  ⟨hτ, h.root, h.actor.imp fun _ hlike => ⟨hlike.1, { hlike.2 with }⟩⟩

/-- What is to be done next is not seen. -/
theorem plan (h : d.Describes activity signals log s) (config : Option ConfigId)
    (current : Option (Activity × Option (Instr × Env × Stack))) :
    { d with config, current }.Describes activity signals log s :=
  ⟨h.store, h.root, h.actor.imp fun _ hlike => ⟨hlike.1, { hlike.2 with }⟩⟩

/-- An answer is sent. -/
theorem reply (h : d.Describes activity signals log (sys, σ)) (requester : ActorRef) (v : Value) (target : Term) :
    (d.reply requester v target).Describes activity signals log (SystemM.send requester (.response v target) (sys, σ)).2 :=
  h.work (by rw [h.store, Store.emit_behind])

/-- The activity is over. -/
theorem idle (h : d.Describes (some act) [] log (sys, σ)) (hconfig : d.config = none) :
    { d with current := none }.Shows log (SystemM.changeActor d.number (fun a => { a with activity := none }) (sys, σ)).2 := by
  obtain ⟨a, ha, hlike⟩ := h.actor
  refine h.becomes (.modify ha fun a => { a with activity := none }) ?_ rfl rfl rfl
  rw [signals_nil (d := { d with current := none }) hconfig fun _ _ hcurrent => by cases hcurrent]
  exact ⟨hlike.address, hlike.phase, hlike.waiting, hlike.activities, hlike.opened, rfl, hlike.signals⟩

/-- The activity waits. -/
theorem waits (h : d.Describes (some act) [] log (sys, σ)) (hconfig : d.config = none) {τ υ : Store}
    (hτ : υ = τ.behind log) : { d with store := υ, current := some (act, none) }.Shows log (sys, τ) := by
  obtain ⟨a, ha, hlike⟩ := h.actor
  refine (h.work hτ).becomes (.refl ha) ?_ rfl rfl rfl
  rw [signals_nil (d := { d with store := υ, current := some (act, none) }) hconfig fun _ _ hcurrent => by cases hcurrent]
  exact ⟨hlike.address, hlike.phase, hlike.waiting, hlike.activities, hlike.opened, hlike.activity, hlike.signals⟩

/-- The phase of an actor changes. -/
theorem moves (h : d.Shows log (sys, σ)) (phase : Phase) :
    { d with phase }.Shows log (SystemM.changeActor d.number (fun a => { a with phase }) (sys, σ)).2 := by
  obtain ⟨a, ha, hlike⟩ := h.actor
  refine h.becomes (.modify ha fun a => { a with phase }) ?_ rfl rfl rfl
  exact ⟨hlike.address, rfl, hlike.waiting, hlike.activities, hlike.opened, hlike.activity, hlike.signals⟩

/-! ### Ending an activity -/

/-- A failing activity does the same to the actor as to its desk. -/
theorem fail (h : d.Describes (some act) [] log s) (hconfig : d.config = none) (f : FailureId) :
    (d.fail act.task f).Shows log (SystemM.fail d.number f s).2 := by
  obtain ⟨a, ha, hlike⟩ := h.actor
  obtain ⟨sys, σ⟩ := s
  rw [SystemM.fail, SystemM.bind_eq, SystemM.read_eq]
  dsimp only
  rw [ha, Option.bind_some, hlike.activity]
  obtain ⟨id, task⟩ := act
  cases task with
  | configure x => exact (h.idle hconfig).moves (.failed f)
  | answer requester target response => exact (h.idle hconfig).reply requester (.failed f) target
  | notify => exact h.idle hconfig

/-- Settling an activity does the same to the actor as to its desk. The desk has a longer log, which the outcome does not
depend on. -/
theorem settle (h : d.Describes (some act) [] log s) (hconfig : d.config = none) :
    (d.settle act).Shows log (SystemM.settle d.number d.address act s).2 := by
  obtain ⟨sys, σ⟩ := s
  have houtcome := (SystemM.uses_outcome act.task).oblivious log σ
  rw [← h.store] at houtcome
  rw [SystemM.settle, SystemM.bind_eq, SystemM.attempt_eq, Desk.settle, houtcome]
  -- an answer, a variable that has to be waited for, or a failure
  rcases SystemM.outcome act.task σ with ⟨result, τ⟩ | ⟨x | f, τ⟩
  · have hτ := h.work (τ := τ) rfl
    cases result with
    | configured handlers => exact (hτ.idle hconfig).moves (.ready handlers)
    | answered requester target v => exact (hτ.idle hconfig).reply requester v target
    | notified => exact hτ.idle hconfig
  · exact h.waits hconfig (congrArg Prod.snd (Store.suspend_behind log τ x _))
  · have hfailed : { d with store := ((τ.behind log).failWith d.address f).2 }.Describes (some act) [] log
        (sys, (τ.failWith d.address f).2) := h.work (by rw [Store.failWith_behind])
    have hfail := hfailed.fail hconfig (τ.failWith d.address f).1
    rw [Store.failWith_behind] at hfail
    dsimp only
    rw [Store.failWith_behind]
    exact hfail

/-! ### Going on with an activity -/

/-- The rest of a preempted activity goes to the end of the mailbox. -/
theorem yields (h : d.Describes (some act) [] log (sys, σ)) (hconfig : d.config = none) (instr : Instr) (env : Env)
    (rest : Stack) : { d with current := some (act, some (instr, env, rest)) }.Shows log
      (sys.enqueue d.number (.resume act.id (.run instr env :: rest)), σ) := by
  obtain ⟨a, ha, hlike⟩ := h.actor
  let item : Item := .resume act.id (.run instr env :: rest)
  -- the item is put behind what the mailbox has, the flag aside
  have hreceive : (a.receive sys.executor.running item).mailbox.items = a.mailbox.items ++ [item] := by
    have hmail := (Actor.Gets.receive sys.executor.running item a).mail
    rw [hlike.opened] at hmail
    exact hmail
  have hgets := Actor.Gets.receive sys.executor.running item a
  refine ⟨h.store, ?_, _, ?_, ?_, hgets.phase.trans hlike.phase, ?_, hgets.activities.trans hlike.activities,
    hgets.closed.trans hlike.opened, hgets.activity.trans hlike.activity, ?_⟩
  · exact (congrArg Kernel.root (ActorSystem.enqueue_fixed sys d.number item).1).trans h.root
  · show (sys.enqueue d.number item).actor? d.number = _
    rw [ActorSystem.actor?_enqueue, if_pos rfl, ha, Option.map_some]
  · rw [Actor.receive]
    split <;> exact hlike.address
  · have hwaiting := hlike.waiting
    rw [Actor.waiting, hgets.deferred, hreceive, List.filterMap_append]
    rw [Actor.waiting] at hwaiting
    exact (congrArg (a.deferred ++ ·) (List.append_nil _)).trans hwaiting
  -- nothing but the item is a signal, as nothing is left to configure
  · have hsignals := hlike.signals
    rw [Actor.signals, hreceive, List.filter_append]
    rw [Actor.signals] at hsignals
    rw [hsignals, Desk.signals, hconfig]
    rfl

end Describes

/-- The system shows what a desk comes to. All answers of the desk but those that are still in the log of the system
had been given before. -/
def Serves (d : Desk) (given : List (ActorRef × Term × Value)) (s : ActorSystem × Store) : Prop :=
  ∃ d' log, d.Reaches d' ∧ d'.Shows log s ∧ log.toList.filterMap Effect.reply? = given

namespace Describes

variable {d d' : Desk} {act : Activity} {activity activity' : Option Activity} {signals signals' : List Item}
  {log : Array Effect} {s : ActorSystem × Store} {sys sys' : ActorSystem} {σ : Store} {a b : Actor}

/-- **A turn of an activity** is a number of steps of the desk, whatever the time slice is. -/
theorem advance {instr : Instr} {env : Env} {rest : Stack} (h : d.Describes (some act) [] log (sys, σ))
    (hconfig : d.config = none) (hcurrent : d.current = some (act, some (instr, env, rest))) (hsound : d.Sound)
    (hquiet : ∀ d', d.Reaches d' → d'.Reticent) :
    d.Serves d.store.replies (SystemM.advance d.number d.address act (.run instr env :: rest) (sys, σ)).2 := by
  have hreach := reaches_left (d := d) sys.kernel.config.timeSlice 0 hcurrent
  -- the computation starts from a store with an empty log, and does the same there
  have hbehind := (d.context act).compute_behind sys.kernel.config.timeSlice 0 (.run instr env :: rest) log σ
  rw [← h.store] at hbehind
  obtain ⟨henv, hrest⟩ := hsound.next act instr env rest hcurrent
  have hstack : Stack.In d.store (.run instr env :: rest) := List.forall_mem_cons.mpr ⟨henv, hrest⟩
  obtain ⟨hleaves, -⟩ := (d.context act).compute_leaves sys.kernel.config.timeSlice 0 hsound.store hstack
  have hcontext : { owner := d.address, actor := some ⟨.actor d.number, d.address⟩, spawner := .system
                    resumer := .activity d.number act.id } = d.context act := rfl
  rw [SystemM.advance, SystemM.bind_eq, SystemM.read_eq, SystemM.bind_eq, SystemM.onStore_eq, SystemM.bind_eq]
  dsimp only
  rw [hcontext]
  rw [hbehind] at hreach hleaves
  generalize hslice : (d.context act).compute sys.kernel.config.timeSlice (.run instr env :: rest) 0 σ = slice at *
  obtain ⟨advice, executed, τ⟩ := slice
  dsimp only at hreach hleaves ⊢
  have htask := hleaves.evolves.grows.task (hsound.task act _ hcurrent).1
  -- all that it writes to the log is there when the desk is left, and passes the actor by
  have hpass : ∀ e ∈ τ.effects.toList, e.Passes d.number := by
    intro e he
    have hwrites : (τ.behind log).effects.toList <+: _ :=
      d.left_writes (s := ⟨advice, executed, τ.behind log⟩) (hleaves.evolves.closed hsound.store) htask
    have hall := (hsound.reaches hreach).passes (hquiet _ hreach) e (hwrites.subset (by simp [Store.behind, he]))
    exact hreach.number_eq ▸ hall
  have hdone := (h.work (τ := τ) rfl).deliver hpass
  have hstore : d.store.replies = (log ++ τ.effects).toList.filterMap Effect.reply? := hleaves.replies.symm
  refine ⟨_, log ++ τ.effects, hreach, ?_, hstore.symm⟩
  cases advice with
  | ended => exact hdone.settle hconfig
  | preempted stack =>
    obtain ⟨-, reached, -, instr', env', rest', -, rfl⟩ := Context.runs_of_compute_eq_preempted hslice
    exact hdone.yields hconfig instr' env' rest'
  | waiting x => exact hdone.waits hconfig hdone.store
  | halted f => exact hdone.fail hconfig f

/-- **An activity begins**, and has its first turn. -/
theorem launch (h : d.Describes none [] log (sys, σ)) (ha : sys.actor? d.number = some a) (hconfig : d.config = none)
    {task : Task} {proc : Ident} {args : List Ident} {bindings : Env} (hsound : (d.begin task proc args bindings).Sound)
    (hquiet : ∀ d', (d.begin task proc args bindings).Reaches d' → d'.Reticent) :
    (d.begin task proc args bindings).Serves d.store.replies
      (SystemM.launch d.number a task proc args bindings (sys, σ)).2 := by
  -- an actor that launches a task is the desk that begins it
  obtain ⟨b, hb, hlike⟩ := h.actor
  obtain rfl := Option.some.inj (ha.symm.trans hb)
  have hbegun := ActorSystem.Becomes.modify ha fun b =>
    { b with activity := some ⟨a.activities + 1, task⟩, activities := b.activities + 1 }
  have hactivity : some ⟨a.activities + 1, task⟩ = some (⟨d.activities + 1, task⟩ : Activity) := by rw [hlike.activities]
  have hlater : (d.begin task proc args bindings).Resembles (some ⟨d.activities + 1, task⟩) []
      { a with activity := some ⟨a.activities + 1, task⟩, activities := a.activities + 1 } :=
    ⟨hlike.address, hlike.phase, hlike.waiting, congrArg (· + 1) hlike.activities, hlike.opened, hactivity, hlike.signals⟩
  have hbusy := h.becomes hbegun hlater rfl rfl rfl
  have hserves := hbusy.advance hconfig rfl hsound hquiet
  rw [SystemM.launch, SystemM.bind_eq, SystemM.bind_eq, SystemM.read_eq]
  dsimp only [SystemM.changeActor, SystemM.change]
  have hroot : (sys.modifyActor d.number fun b =>
      { b with activity := some ⟨a.activities + 1, task⟩, activities := b.activities + 1 }).kernel.root = d.root := h.root
  rw [hroot, hlike.address, hlike.activities]
  rw [hlike.activities] at hserves
  exact hserves

/-! ### Taking up letters -/

/-- The actor makes its handlers. -/
theorem configure (h : d.Describes none [] log (sys, σ)) (ha : sys.actor? d.number = some a) (hconfig : d.config = none)
    (hphase : d.phase = .created) (config : ConfigId) (hsound : (d.configure config).Sound)
    (hquiet : ∀ d', (d.configure config).Reaches d' → d'.Reticent) :
    (d.configure config).Serves d.store.replies (SystemM.startConfigure d.number a config (sys, σ)).2 := by
  obtain ⟨b, hb, hlike⟩ := h.actor
  obtain rfl := Option.some.inj (ha.symm.trans hb)
  rw [SystemM.startConfigure, hlike.phase, hphase]
  dsimp only
  rw [SystemM.bind_eq, SystemM.onStore_eq, SystemM.bind_eq, SystemM.freshVar, SystemM.onStore_eq, SystemM.bind_eq,
    SystemM.bindAll_eq, SystemM.bind_eq, SystemM.bindAll_eq]
  dsimp only
  have hcfg : d.store.config config = σ.config config := by rw [h.store]; rfl
  rw [Desk.configure, hcfg, h.store] at hsound hquiet ⊢
  simp only [Store.freshVar_behind, Store.bindAll_behind] at hsound hquiet ⊢
  have hmade := h.work (τ := ((σ.freshVar.2.bindAll ((SystemM.argIdents (σ.config config).args.length).zip
    (σ.config config).args)).2.bindAll [("$handlers_ctor", .proc (.closure (σ.config config).handlers))]).2) rfl
  have hserves := hmade.launch ha hconfig hsound hquiet
  refine Eq.mp (congrArg (fun given => Serves _ given _) (Store.replies_congr ?_)) hserves
  exact congrArg (log ++ ·) ((Store.effects_bindAll _ _).trans (Store.effects_bindAll _ _))

/-- The actor takes up a letter. -/
theorem takeUp (h : d.Describes none [] log (sys, σ)) (hlog : σ.effects = #[]) (ha : sys.actor? d.number = some a)
    (hconfig : d.config = none) (hcurrent : d.current = none) (haccepts : a.accepts = true) {e : Envelope}
    (hcall : e.IsCall) (hsound : (d.takeUp e).Sound) (hquiet : ∀ d', (d.takeUp e).Reaches d' → d'.Reticent) :
    (d.takeUp e).Serves d.store.replies (SystemM.handle d.number a (.envelope e) (sys, σ)).2 := by
  obtain ⟨b, hb, hlike⟩ := h.actor
  obtain rfl := Option.some.inj (ha.symm.trans hb)
  have hphase := (Actor.accepts_iff.mp haccepts).2
  rw [hlike.phase] at hphase
  have hgiven : log.toList.filterMap Effect.reply? = d.store.replies := by
    rw [h.store, Store.replies, Store.behind, hlog, Array.append_empty]
  -- the letter is dropped or answered at once
  have hstill : d.Shows log (sys, σ) := by
    have hnothing := signals_nil hconfig fun act next hsome => by rw [hcurrent] at hsome; cases hsome
    rw [Shows, hcurrent, hnothing]
    exact h
  cases e with
  | response v target => exact hcall.elim
  | request message requester target =>
    simp only [SystemM.handle, haccepts, Bool.not_true, Bool.false_eq_true, if_false]
    rw [SystemM.startRequest, hlike.phase]
    rcases hcase : d.phase with _ | ⟨_ | ask, tell⟩ | f | _
    · rw [hcase] at hphase
      cases hphase
    · have hfailed := hstill.work (τ := (σ.failWith d.address (.notAProc (d.address ++ " has no ask handler"))).2) rfl
      have hanswer := hfailed.reply requester
        (.failed (σ.failWith d.address (.notAProc (d.address ++ " has no ask handler"))).1) target
      unfold Desk.takeUp
      rw [hcase, hlike.address]
      dsimp only
      rw [← hcase, h.store, Store.failWith_behind]
      exact ⟨_, log, .refl, hanswer, h.store ▸ hgiven⟩
    · unfold Desk.takeUp at hsound hquiet ⊢
      rw [hcase] at hsound hquiet ⊢
      dsimp only at hsound hquiet ⊢
      rw [← hcase, h.store] at hsound hquiet ⊢
      simp only [Store.freshVar_behind, Store.bindAll_behind] at hsound hquiet ⊢
      rw [SystemM.bind_eq, SystemM.freshVar, SystemM.onStore_eq, SystemM.bind_eq, SystemM.bindAll_eq]
      have hmade := h.work (τ := (σ.freshVar.2.bindAll [("$ask", ask), ("$m", message)]).2) rfl
      exact hmade.launch ha hconfig hsound hquiet
    · unfold Desk.takeUp
      rw [hcase]
      exact ⟨_, log, .refl, hstill.reply requester (.failed f) target, hgiven⟩
    · rw [hcase] at hphase
      cases hphase
  | notify message =>
    simp only [SystemM.handle, haccepts, Bool.not_true, Bool.false_eq_true, if_false]
    rw [SystemM.startNotify, hlike.phase]
    rcases hcase : d.phase with _ | ⟨ask, _ | tell⟩ | f | _
    · rw [hcase] at hphase
      cases hphase
    · unfold Desk.takeUp
      rw [hcase]
      exact ⟨_, log, .refl, hstill, hgiven⟩
    · unfold Desk.takeUp at hsound hquiet ⊢
      rw [hcase] at hsound hquiet ⊢
      dsimp only at hsound hquiet ⊢
      rw [← hcase, h.store] at hsound hquiet ⊢
      simp only [Store.bindAll_behind] at hsound hquiet ⊢
      rw [SystemM.bind_eq, SystemM.bindAll_eq]
      have hmade := h.work (τ := (σ.bindAll [("$tell", tell), ("$m", message)]).2) rfl
      exact hmade.launch ha hconfig hsound hquiet
    · unfold Desk.takeUp
      rw [hcase]
      exact ⟨_, log, .refl, hstill, hgiven⟩
    · rw [hcase] at hphase
      cases hphase

/-! ### Handling items -/

/-- The actor has taken an item. -/
theorem takes (h : d.Describes activity signals log (sys, σ)) (hb : sys.actor? d.number = some b) {item : Item}
    (htakes : b.Takes item a) (htook : sys.Becomes d.number a sys') :
    { d with letters := a.waiting }.Describes activity a.signals log (sys', σ) := by
  obtain ⟨b', hb', hlike⟩ := h.actor
  obtain rfl := Option.some.inj (hb.symm.trans hb')
  obtain ⟨hphase, hactivity, hactivities⟩ := htakes.same
  have hplace : a.address = b.address ∧ a.mailbox.closed = false := by
    cases htakes with
    | deferred => exact ⟨rfl, hlike.opened⟩
    | mailed => exact ⟨rfl, rfl⟩
  exact h.becomes htook ⟨hplace.1.trans hlike.address, hphase.trans hlike.phase, rfl, hactivities.trans hlike.activities,
    hplace.2, hactivity.trans hlike.activity, rfl⟩ rfl rfl rfl

section Handling

variable (h : d.Shows log (sys, σ)) (hsystem : sys.Sound σ) (hsound : d.Sound)
  (hquiet : ∀ d', d.Reaches d' → d'.Reticent) (hb : sys.actor? d.number = some b) (htook : sys.Becomes d.number a sys')

include h hsystem hsound hquiet hb htook

/-- A letter is taken up if the actor is free, and else it is put aside. -/
theorem letter (hlog : σ.effects = #[]) {e : Envelope} (hcall : e.IsCall) (htakes : b.Takes (.envelope e) a) :
    d.Serves d.store.replies (SystemM.handle d.number a (.envelope e) (sys', σ)).2 := by
  obtain ⟨b', hb', hlike⟩ := h.actor
  obtain rfl := Option.some.inj (hb.symm.trans hb')
  have hlife := (hsystem.actors _ b hb).2
  have hsignals := Actor.signals_of_takes htakes hlife
  rw [Item.call?_of_isCall hcall, hlike.signals] at hsignals
  have htaken := h.takes hb htakes htook
  cases haccepts : a.accepts with
  -- an idle actor takes the call up, a busy one defers it
  | true =>
    obtain ⟨hidle, hphase⟩ := Actor.accepts_iff.mp haccepts
    rw [htakes.same.2.1, hlike.activity] at hidle
    have hcurrent : d.current = none := Option.map_eq_none_iff.mp hidle
    rw [htakes.same.1, hlike.phase] at hphase
    have hconfig : d.config = none := by
      -- an actor still to be configured is not ready
      cases hcase : d.config with
      | none => rfl
      | some config =>
        rw [(hsound.config config hcase).2.1] at hphase
        cases hphase
    have hnothing : d.signals = [] := signals_nil hconfig fun _ _ hsome => by rw [hcurrent] at hsome; cases hsome
    have hletters : d.letters = e :: a.waiting := by
      rw [← hlike.waiting, Actor.waiting_of_accepts htakes hlife haccepts, Item.call?_of_isCall hcall]
      rfl
    have hstep : d.step = some ({ d with letters := a.waiting }.takeUp e) := by
      rw [Desk.step, hcurrent, hconfig, hphase, hletters]
    have hsame : a.signals = [] := hsignals.symm.trans hnothing
    rw [hidle, hsame] at htaken
    obtain ⟨d', log', hreaches, hshows⟩ := htaken.takeUp hlog htook.self hconfig hcurrent haccepts hcall
      (hsound.step hstep) fun d' hd' => hquiet d' (.head hstep hd')
    exact ⟨d', log', .head hstep hreaches, hshows⟩
  | false =>
    have hgiven : log.toList.filterMap Effect.reply? = d.store.replies := by
      rw [h.store, Store.replies, Store.behind, hlog, Array.append_empty]
    have hmodify := htook.trans (.modify htook.self fun a => { a with deferred := a.deferred ++ [e] })
    obtain ⟨hphase, hactivity, hactivities⟩ := htakes.same
    obtain ⟨c, hc, hlast⟩ := htaken.actor
    obtain rfl := Option.some.inj (htook.self.symm.trans hc)
    -- the deferred call stands behind those that were deferred before
    have hwaiting : a.deferred ++ [e] ++ a.mailbox.items.filterMap Item.call? = d.letters := by
      rw [← hlike.waiting, Actor.waiting_of_busy htakes haccepts, Item.call?_of_isCall hcall]
      rfl
    have hhandle : SystemM.handle d.number a (.envelope e) (sys', σ) =
        (false, sys'.modifyActor d.number fun a => { a with deferred := a.deferred ++ [e] }, σ) := by
      cases e with
      | response => exact hcall.elim
      | request | notify =>
        simp only [SystemM.handle, haccepts]
        rfl
    rw [hhandle]
    refine ⟨d, log, .refl, h.becomes hmodify ?_ rfl rfl rfl, hgiven⟩
    exact ⟨hlast.address, hlast.phase, hwaiting, hlast.activities, hlast.opened, hlast.activity, hsignals.symm⟩

/-- A signal makes the actor begin with its handlers, or go on with its activity. -/
theorem signal {item : Item} (hcall : item.call? = none) (htakes : b.Takes item a) :
    d.Serves d.store.replies (SystemM.handle d.number a item (sys', σ)).2 := by
  obtain ⟨b', hb', hlike⟩ := h.actor
  obtain rfl := Option.some.inj (hb.symm.trans hb')
  have hlife := (hsystem.actors _ b hb).2
  have hsignals := Actor.signals_of_takes htakes hlife
  rw [hcall, hlike.signals] at hsignals
  -- a signal leaves the letters as they were
  have hletters : a.waiting = d.letters := by
    rw [← hlike.waiting]
    cases haccepts : a.accepts with
    | true => rw [Actor.waiting_of_accepts htakes hlife haccepts, hcall, Option.toList_none, List.nil_append]
    | false => rw [Actor.waiting_of_busy htakes haccepts, hcall, Option.toList_none, List.append_nil, Actor.waiting]
  have htaken : d.Describes (d.current.map Prod.fst) a.signals log (sys', σ) := by
    have htaken := h.takes hb htakes htook
    rw [hletters] at htaken
    exact htaken
  -- the signal is the configuration that is due, or it resumes what is going on
  cases hconfig : d.config with
  | some config =>
    obtain ⟨-, hphase, hcurrent⟩ := hsound.config config hconfig
    have honly : d.signals = [.configure config] := by rw [signals, hconfig, hcurrent]; rfl
    obtain ⟨rfl, hnone⟩ := List.cons.inj (honly.symm.trans hsignals)
    have hstep : d.step = some ({ d with config := none }.configure config) := by
      rw [Desk.step, hcurrent, hconfig]
    rw [hcurrent, ← hnone] at htaken
    have hfree : { d with config := none }.Describes none [] log (sys', σ) := htaken.plan none d.current
    obtain ⟨d', log', hreaches, hshows⟩ := hfree.configure htook.self rfl hphase config (hsound.step hstep)
      fun d' hd' => hquiet d' (.head hstep hd')
    exact ⟨d', log', .head hstep hreaches, hshows⟩
  | none =>
    -- a signal that comes to an actor without an instruction to resume is none
    rcases hcurrent : d.current with _ | ⟨act, _ | ⟨instr, env, rest⟩⟩
    · have hnothing := signals_nil hconfig fun _ _ hsome => by rw [hcurrent] at hsome; cases hsome
      cases hnothing.symm.trans hsignals
    · have hnothing := signals_nil hconfig fun _ _ hsome => by rw [hcurrent] at hsome; cases hsome
      cases hnothing.symm.trans hsignals
    · have honly : d.signals = [.resume act.id (.run instr env :: rest)] := by rw [signals, hconfig, hcurrent]; rfl
      obtain ⟨rfl, hnone⟩ := List.cons.inj (honly.symm.trans hsignals)
      rw [hcurrent, ← hnone] at htaken
      have hactivity : a.activity = some act := by rw [htakes.same.2.1, hlike.activity, hcurrent, Option.map_some]
      obtain ⟨c, hc, hlast⟩ := htaken.actor
      obtain rfl := Option.some.inj (htook.self.symm.trans hc)
      rw [SystemM.handle, hactivity]
      dsimp only
      rw [if_pos rfl, hlast.address]
      exact htaken.advance hconfig hcurrent hsound hquiet

end Handling

/-- **One item** that the actor handles is a number of steps of the desk. -/
theorem item (h : d.Shows log s) (hsystem : s.1.Sound s.2) (hlog : s.2.effects = #[]) (hsound : d.Sound)
    (hquiet : ∀ d', d.Reaches d' → d'.Reticent) {item : Item} {preempted : Bool} {s₁ s₂ : ActorSystem × Store}
    (hnext : SystemM.nextItem d.number s = (some item, s₁)) (ha : s₁.1.actor? d.number = some a)
    (hhandle : SystemM.handle d.number a item s₁ = (preempted, s₂)) : d.Serves d.store.replies s₂ := by
  obtain ⟨sys, σ⟩ := s
  obtain ⟨sys', σ'⟩ := s₁
  obtain ⟨b, a', hb, htakes, rfl, htook⟩ := SystemM.nextItem_takes hnext
  obtain rfl := Option.some.inj (ha.symm.trans htook.self)
  rw [← show (SystemM.handle d.number a item (sys', σ')).2 = s₂ from congrArg Prod.snd hhandle]
  cases hcall : item.call? with
  | none => exact h.signal hsystem hsound hquiet hb htook hcall htakes
  | some e =>
    obtain ⟨rfl, hcalls⟩ := Item.of_call? hcall
    exact h.letter hsystem hsound hquiet hb htook hlog hcalls htakes

/-- Who is to have a turn is not seen. -/
theorem reschedules (h : d.Describes activity signals log (sys, σ)) (hsame : sys.Reschedules sys') :
    d.Describes activity signals log (sys', σ) where
  store := h.store
  root := (congrArg Kernel.root hsame.kernel).trans h.root
  actor := by
    obtain ⟨a, ha, hlike⟩ := h.actor
    have hsome := hsame.actors d.number
    rw [ha, Option.map_some] at hsome
    obtain ⟨b, hb, hab⟩ := Option.map_eq_some_iff.mp hsome
    obtain ⟨haddress, hmail, -, hphase, hactivity, hdeferred, hactivities⟩ := Actor.mk.inj hab
    refine ⟨b, hb, haddress.trans hlike.address, hphase.trans hlike.phase, ?_, hactivities.trans hlike.activities, ?_,
      hactivity.trans hlike.activity, ?_⟩
    · rw [Actor.waiting, hmail, hdeferred]
      exact hlike.waiting
    · rw [hmail]
      exact hlike.opened
    · rw [Actor.signals, hmail]
      exact hlike.signals

/-- When nobody is to have a turn, the actor is just like the desk. -/
theorem rests (h : d.Shows log s) (hawake : ActorSystem.Awake none s) (hqueue : s.1.runQueue = []) :
    s.1.actor? d.number = some d.actor := by
  obtain ⟨a, ha, hlike⟩ := h.actor
  have hlife := (hawake.sound.actors _ a ha).2
  have hopen := hlike.opened
  -- an actor that has stopped has a closed mailbox
  have hlives : a.phase ≠ .stopped := fun hstopped => by
    rw [(hlife.stopped hstopped).2.2] at hopen
    cases hopen
  obtain ⟨hmail, -⟩ := hawake.idle hqueue ha hlives
  -- the flag would have the actor in the run queue
  have hscheduled : a.scheduled = false := by
    refine Bool.eq_false_iff.mpr fun hflag => ?_
    have hin := ((hawake.scheduled.flag _ a ha).mp hflag).resolve_right (Option.some_ne_none _).symm
    rw [hqueue] at hin
    cases hin
  have hdeferred : a.deferred = d.letters := by
    rw [← hlike.waiting, Actor.waiting, hmail]
    exact (List.append_nil _).symm
  refine ha.trans (congrArg some ?_)
  rw [Desk.actor, ← hlike.address, ← hlike.phase, ← hlike.activity, ← hlike.activities, ← hdeferred]
  obtain ⟨address, ⟨items, closed, hclosed⟩, scheduled, phase, activity, deferred, activities⟩ := a
  obtain rfl := hscheduled
  obtain rfl := hmail
  obtain rfl := hopen
  rfl

/-- And the desk has come to its end. -/
theorem stuck (h : d.Shows log s) (hawake : ActorSystem.Awake none s) (hqueue : s.1.runQueue = []) : d.step = none := by
  have ha := h.rests hawake hqueue
  obtain ⟨a, ha', hlike⟩ := h.actor
  obtain rfl := Option.some.inj (ha.symm.trans ha')
  have hnothing : d.signals = [] := hlike.signals.symm
  rw [signals] at hnothing
  obtain ⟨hconfig, hcurrent⟩ := List.append_eq_nil_iff.mp hnothing
  rw [Desk.step]
  rcases hcase : d.current with _ | ⟨act, _ | ⟨instr, env, rest⟩⟩
  · cases hconfigs : d.config with
    | some config =>
      rw [hconfigs] at hconfig
      cases hconfig
    | none =>
      cases haccepts : d.phase.accepts with
      | false => rfl
      | true =>
        -- it is free, so it has put nothing aside
        have hlives : d.phase ≠ .stopped := Actor.Phase.ne_stopped_of_accepts haccepts
        have hletters : d.letters = [] := by
          by_contra hsome
          obtain ⟨act, -, hact, -⟩ := (hawake.idle hqueue ha hlives).2 (.inr hsome)
          rw [Desk.actor, hcase] at hact
          cases hact
        rw [hletters]
  · rfl
  · rw [hcase] at hcurrent
    cases hcurrent

end Describes

end Desk

end Dataflow
