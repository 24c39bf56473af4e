/-
Desks: what an actor would do if it were never interrupted.

An actor makes its handlers, and then it works off its letters, one after the other; it puts a letter away for good when
the computation that the letter has begun waits. Turns, time slices, and the mailbox with what has to be resumed are no
part of this. A desk is the actor as it would be without them. It takes one step after the other, each of which is one
instruction of the computation at hand or takes up a letter, and what it writes to the log stays there.

There is never more than one step that a desk can take. So the end that it comes to, if it comes to one, is the same
whatever happens on the way, and everybody who has got to know that the actor is like some desk knows this end.
-/
import Mathlib.Logic.Relation
import Dataflow.Proofs.Oblivious
import Dataflow.Proofs.Actor.Annals
import Dataflow.Proofs.Actor.Outstanding
import Dataflow.Proofs.Slicing

set_option autoImplicit false

namespace Dataflow

/-! ## Desks -/

/-- An actor that is never interrupted. -/
structure Desk where
  number : Nat
  address : Address
  /-- The scope of the built-in modules. -/
  root : Env
  store : Store
  phase : Phase := .created
  /-- The configuration that handlers are to be made from, as long as that has not begun. -/
  config : Option ConfigId
  /-- The letters that have not been taken up, in the order of their arrival. -/
  letters : List Envelope
  /-- The number of activities that have begun. -/
  activities : Nat := 0
  /-- The activity, and what comes next in its computation unless that waits. -/
  current : Option (Activity × Option (Instr × Env × Stack)) := none

/-- New variables for values. -/
def Store.bindAll (σ : Store) : List (Ident × Value) → Env × Store
  | [] => ([], σ)
  | (x, v) :: rest =>
    let (y, σ) := σ.newVar (.bound v)
    let (env, σ) := σ.bindAll rest
    ((x, y) :: env, σ)

namespace Desk

/-- What the computations of an activity run for. -/
def context (d : Desk) (act : Activity) : Context where
  owner := d.address
  actor := some ⟨.actor d.number, d.address⟩
  spawner := .system
  resumer := .activity d.number act.id

/-- Begins an activity. -/
def begin (d : Desk) (task : Task) (proc : Ident) (args : List Ident) (bindings : Env) : Desk :=
  { d with
    activities := d.activities + 1
    current := some (⟨d.activities + 1, task⟩,
      some (.apply (.ident proc) (args.map .ident), d.root.extend bindings, [])) }

/-- Begins to make the handlers. -/
def configure (d : Desk) (config : ConfigId) : Desk :=
  let cfg := d.store.config config
  let (result, σ) := d.store.freshVar
  let idents := SystemM.argIdents cfg.args.length
  let (args, σ) := σ.bindAll (idents.zip cfg.args)
  let (maker, σ) := σ.bindAll [("$handlers_ctor", .proc (.closure cfg.handlers))]
  { d with store := σ }.begin (.configure result) "$handlers_ctor" (idents ++ ["$r"])
    (args ++ maker ++ [("$r", result)])

/-- Sends an answer. -/
def reply (d : Desk) (requester : ActorRef) (v : Value) (target : Term) : Desk :=
  { d with store := d.store.emit (.send requester (.response v target)) }

/-- Takes up a letter. -/
def takeUp (d : Desk) (e : Envelope) : Desk :=
  match e, d.phase with
  | .request message requester target, .ready ⟨some ask, _⟩ =>
    let (response, σ) := d.store.freshVar
    let (bindings, σ) := σ.bindAll [("$ask", ask), ("$m", message)]
    { d with store := σ }.begin (.answer requester target response) "$ask" ["$m", "$r"]
      (bindings ++ [("$r", response)])
  | .request _ requester target, .ready ⟨none, _⟩ =>
    let (f, σ) := d.store.failWith d.address (.notAProc (d.address ++ " has no ask handler"))
    { d with store := σ }.reply requester (.failed f) target
  | .request _ requester target, .failed f => d.reply requester (.failed f) target
  | .notify message, .ready ⟨_, some tell⟩ =>
    let (bindings, σ) := d.store.bindAll [("$tell", tell), ("$m", message)]
    { d with store := σ }.begin .notify "$tell" ["$m"] bindings
  | _, _ => d

/-- Ends an activity with a failure. -/
def fail (d : Desk) (task : Task) (f : FailureId) : Desk :=
  match task with
  | .configure _ => { d with current := none, phase := .failed f }
  | .answer requester target _ => { d with current := none }.reply requester (.failed f) target
  | .notify => { d with current := none }

/-- Ends an activity with its result. -/
def finish (d : Desk) : SystemM.Settled → Desk
  | .configured handlers => { d with current := none, phase := .ready handlers }
  | .answered requester target v => { d with current := none }.reply requester v target
  | .notified => { d with current := none }

/-- Ends an activity that has run out of instructions, unless its result is not complete. -/
def settle (d : Desk) (act : Activity) : Desk :=
  match SystemM.outcome act.task d.store with
  | .ok result σ => { d with store := σ }.finish result
  | .error (.blocked x) σ =>
    { d with store := (σ.suspend x ⟨[], .activity d.number act.id⟩).2, current := some (act, none) }
  | .error (.fault f) σ =>
    let (g, σ) := σ.failWith d.address f
    { d with store := σ }.fail act.task g

/-- What an instruction leaves of an activity. -/
def goOn (d : Desk) (act : Activity) : Outcome × Store → Desk
  | (.next stack, σ) =>
    match next? stack with
    | some next => { d with store := σ, current := some (act, some next) }
    | none => { d with store := σ }.settle act
  | (.waiting _, σ) => { d with store := σ, current := some (act, none) }
  | (.halted f, σ) => { d with store := σ }.fail act.task f

/-- The next step: one instruction, or the beginning of an activity; none if there is nothing to do. -/
def step (d : Desk) : Option Desk :=
  match d.current with
  | some (act, some (instr, env, rest)) => some (d.goOn act ((d.context act).step instr env rest d.store))
  | some (_, none) => none
  | none =>
    match d.config with
    | some config => some ({ d with config := none }.configure config)
    | none =>
      match d.phase.accepts, d.letters with
      | true, e :: rest => some ({ d with letters := rest }.takeUp e)
      | _, _ => none

/-- Any number of steps. -/
abbrev Reaches : Desk → Desk → Prop := Relation.ReflTransGen fun d d' => d.step = some d'

/-! ## There is one end -/

variable {d d₁ d₂ : Desk}

/-- A desk that has ended comes to nothing else. -/
theorem Reaches.stuck (h : d.Reaches d₁) (hend : d.step = none) : d₁ = d := by
  induction h using Relation.ReflTransGen.head_induction_on with
  | refl => rfl
  | head hstep =>
    rw [hend] at hstep
    cases hstep

/-- **A desk that comes to an end** comes to it from everywhere on its way. -/
theorem Reaches.meet (h₁ : d.Reaches d₁) (h₂ : d.Reaches d₂) (hend : d₁.step = none) : d₂.Reaches d₁ := by
  induction h₂ with
  | refl => exact h₁
  | tail _ hstep ih =>
    rcases ih.cases_head with rfl | ⟨e, hfirst, hrest⟩
    · rw [hend] at hstep
      cases hstep
    · obtain rfl := Option.some.inj (hfirst.symm.trans hstep)
      exact hrest

theorem Reaches.end_unique (h₁ : d.Reaches d₁) (h₂ : d.Reaches d₂) (hend₁ : d₁.step = none) (hend₂ : d₂.step = none) :
    d₁ = d₂ := (h₁.meet h₂ hend₁).stuck hend₂

/-! ## Whose desk it is -/

/-- The actor, and what it has been made in. -/
def owner (d : Desk) : Nat × Address × Env := (d.number, d.address, d.root)

theorem owner_fail (d : Desk) (task : Task) (f : FailureId) : (d.fail task f).owner = d.owner := by
  cases task <;> rfl

theorem owner_settle (d : Desk) (act : Activity) : (d.settle act).owner = d.owner := by
  rw [settle]
  rcases SystemM.outcome act.task d.store with ⟨result, σ⟩ | ⟨x | f, σ⟩
  · cases result <;> rfl
  · rfl
  · exact owner_fail _ act.task _

theorem owner_goOn (d : Desk) (act : Activity) (result : Outcome × Store) : (d.goOn act result).owner = d.owner := by
  obtain ⟨stack | x | f, σ⟩ := result
  · rw [goOn]
    split
    · rfl
    · exact owner_settle _ act
  · rfl
  · exact owner_fail _ act.task f

theorem owner_takeUp (d : Desk) (e : Envelope) : (d.takeUp e).owner = d.owner := by
  unfold takeUp
  split <;> rfl

/-- A step of the desk is made for the actor that the desk belongs to, whichever of the three kinds it is. -/
theorem owner_step (h : d.step = some d₁) : d₁.owner = d.owner := by
  rw [step] at h
  split at h
  · obtain rfl := Option.some.inj h
    exact owner_goOn d _ _
  · cases h
  · split at h
    · obtain rfl := Option.some.inj h
      rfl
    · split at h
      · obtain rfl := Option.some.inj h
        exact owner_takeUp _ _
      · cases h

/-- The actor is the same one all the time. -/
theorem Reaches.owner_eq (h : d.Reaches d₁) : d₁.owner = d.owner := by
  induction h with
  | refl => rfl
  | tail _ hstep ih => exact (owner_step hstep).trans ih

theorem Reaches.number_eq (h : d.Reaches d₁) : d₁.number = d.number := congrArg Prod.fst h.owner_eq

/-! ## Slices -/

/-- What a slice leaves of an activity. -/
def left (d : Desk) (act : Activity) (slice : Slice) : Desk :=
  match slice.advice with
  | .ended => { d with store := slice.store }.settle act
  | .preempted stack => { d with store := slice.store, current := some (act, next? stack) }
  | .waiting _ => { d with store := slice.store, current := some (act, none) }
  | .halted f => { d with store := slice.store }.fail act.task f

/-- Only what is going on is forgotten when an activity is left. -/
theorem left_current (d : Desk) (act : Activity) (current : Option (Activity × Option (Instr × Env × Stack)))
    (σ : Store) (slice : Slice) : { d with store := σ, current := current }.left act slice = d.left act slice := by
  obtain ⟨advice, executed, τ⟩ := slice
  cases advice with
  | ended =>
    simp only [left, settle]
    rcases SystemM.outcome act.task τ with ⟨result, υ⟩ | ⟨x | f, υ⟩
    · cases result <;> rfl
    · rfl
    · cases act with
      | mk id task => cases task <;> rfl
  | preempted stack | waiting x => rfl
  | halted f =>
    cases act with
    | mk id task => cases task <;> rfl

/-- **A slice** of the computation at hand is a number of steps. -/
theorem reaches_left {act : Activity} {instr : Instr} {env : Env} {rest : Stack} (slice executed : Nat)
    (hcurrent : d.current = some (act, some (instr, env, rest))) :
    d.Reaches (d.left act ((d.context act).compute slice (.run instr env :: rest) executed d.store)) := by
  -- on the number of instructions that may still be executed
  induction slice generalizing d instr env rest executed with
  | zero =>
    have hsame : d.left act ((d.context act).compute 0 (.run instr env :: rest) executed d.store) = d := by
      rw [Context.compute_zero rfl, left]
      dsimp only [next?]
      rw [← hcurrent]
    rw [hsame]
  | succ slice ih =>
    have hstep : d.step = some (d.goOn act ((d.context act).step instr env rest d.store)) := by
      rw [step, hcurrent]
    rw [Context.compute_succ (show next? (.run instr env :: rest) = some (instr, env, rest) from rfl)]
    generalize (d.context act).step instr env rest d.store = result at hstep
    obtain ⟨stack | x | f, σ⟩ := result
    · dsimp only
      rcases hnext : next? stack with _ | ⟨instr', env', rest'⟩
      · -- the last instruction has been executed
        rw [goOn, hnext] at hstep
        rw [Context.compute_of_next?_eq_none hnext]
        exact .single hstep
      · rw [goOn, hnext] at hstep
        have hmore := ih (d := { d with store := σ, current := some (act, some (instr', env', rest')) }) (executed + 1) rfl
        have hdropped : (d.context act).compute slice stack (executed + 1) σ =
            (d.context act).compute slice (.run instr' env' :: rest') (executed + 1) σ :=
          Context.compute_congr hnext slice (executed + 1) σ
        rw [left_current] at hmore
        rw [hdropped]
        exact .head hstep hmore
    · exact .single hstep
    · exact .single hstep

end Desk

/-! ## Sound desks -/

/-- Binding parameters makes one variable for each of them, and the scope consists of these. -/
theorem Store.bindAll_deeds {σ : Store} {bindings : List (Ident × Value)} (h : ∀ p ∈ bindings, p.2.In σ) :
    σ.Deeds (σ.bindAll bindings).2 ∧ (σ.bindAll bindings).1.In (σ.bindAll bindings).2 := by
  induction bindings generalizing σ with
  | nil => exact ⟨.refl, fun p hp => absurd hp List.not_mem_nil⟩
  -- the first variable is made before the others, and is still there after them
  | cons p bindings ih =>
    obtain ⟨hp, hrest⟩ := List.forall_mem_cons.mp h
    have hdeeds : σ.Deeds (σ.newVar (.bound p.2)).2 := .single (.newVar trivial hp)
    obtain ⟨hmore, henv⟩ := ih (σ := (σ.newVar (.bound p.2)).2) fun q hq => hdeeds.grows.value (hrest q hq)
    refine ⟨hdeeds.trans hmore, List.forall_mem_cons.mpr ⟨?_, henv⟩⟩
    exact Nat.lt_of_lt_of_le (σ.newVar_lt_size _) hmore.grows.vars

theorem Store.freshVar_deeds (σ : Store) : σ.Deeds σ.freshVar.2 ∧ σ.freshVar.1 < σ.freshVar.2.vars.size := by
  have hnone : VarState.In σ σ.vars.size (.unbound []) := fun k hk => absurd hk List.not_mem_nil
  exact ⟨.single (.newVar rfl hnone), σ.newVar_lt_size _⟩

/-- The activities of actor `n` do not wait, and nothing in the log resumes them. -/
def Store.Unawaited (n : Nat) (σ : Store) : Prop := ∀ id, σ.outstanding (.activity n id) = 0

/-- None of these is the actor itself. -/
def ActorRef.Others (n : Nat) (owed : List (ActorRef × Term)) : Prop := ∀ p ∈ owed, p.1.receiver ≠ .actor n

/-- The desk is in order: what it has is in the store, nobody resumes what goes on, and the actor owes itself no
answer. -/
structure Desk.Sound (d : Desk) : Prop where
  store : d.store.Closed
  root : d.root.In d.store
  phase : d.phase.In d.store
  config : ∀ config, d.config = some config →
    config < d.store.configs.size ∧ d.phase = .created ∧ d.current = none
  letters : ∀ e ∈ d.letters, e.In d.store ∧ e.IsCall ∧ ActorRef.Others d.number e.owed
  task : ∀ act next, d.current = some (act, next) → act.task.In d.store ∧ ActorRef.Others d.number act.task.owed
  next : ∀ act instr env rest, d.current = some (act, some (instr, env, rest)) → env.In d.store ∧ rest.In d.store
  log : ∀ id, d.store.resumedFor (.activity d.number id) = 0
  answers : ActorRef.Others d.number d.store.answers
  free : (∃ act, d.current = some (act, none)) ∨ d.store.Unawaited d.number

namespace Desk

variable {d : Desk} {σ τ : Store} {act : Activity} {task : Task}

namespace Sound

/-- Work on the store while nothing waits. -/
theorem deeds (h : d.Sound) (hfree : d.store.Unawaited d.number) (hdeeds : d.store.Deeds τ) :
    { d with store := τ }.Sound where
  store := hdeeds.closed h.store
  root := hdeeds.grows.env h.root
  phase := hdeeds.grows.phase h.phase
  config config hconfig := by
    obtain ⟨hin, hphase, hcurrent⟩ := h.config config hconfig
    exact ⟨hdeeds.grows.value (v := .config config) hin, hphase, hcurrent⟩
  letters e he := ⟨hdeeds.grows.envelope (h.letters e he).1, (h.letters e he).2⟩
  task act next hcurrent := ⟨hdeeds.grows.task (h.task act next hcurrent).1, (h.task act next hcurrent).2⟩
  next act instr env rest hcurrent := by
    obtain ⟨henv, hrest⟩ := h.next act instr env rest hcurrent
    exact ⟨hdeeds.grows.env henv, hdeeds.grows.stack hrest⟩
  -- none of the actor's continuations was in the log, and none came in
  log id := by
    have hzero := (hdeeds.outstanding (.activity d.number id)).trans (hfree id)
    exact (Nat.add_eq_zero_iff.mp hzero).2
  answers := by
    show ActorRef.Others d.number τ.answers
    rw [hdeeds.answers]
    exact h.answers
  free := .inr fun id => (hdeeds.outstanding _).trans (hfree id)

/-- What goes on is over. -/
theorem idle (h : d.Sound) (hfree : d.store.Unawaited d.number) : { d with current := none }.Sound where
  store := h.store
  root := h.root
  phase := h.phase
  config config hconfig := ⟨(h.config config hconfig).1, (h.config config hconfig).2.1, rfl⟩
  letters := h.letters
  task act next hcurrent := by cases hcurrent
  next act instr env rest hcurrent := by cases hcurrent
  log := h.log
  answers := h.answers
  free := .inr hfree

/-- The phase changes after the configuration has begun. -/
theorem moves (h : d.Sound) (hconfig : d.config = none) {phase : Phase} (hphase : phase.In d.store) :
    { d with phase }.Sound where
  store := h.store
  root := h.root
  phase := hphase
  config config hsome := absurd (hconfig.symm.trans hsome) (Option.some_ne_none config).symm
  letters := h.letters
  task := h.task
  next := h.next
  log := h.log
  answers := h.answers
  free := h.free

/-- Somebody else is answered. -/
theorem replies (h : d.Sound) {requester : ActorRef} {v : Value} {target : Term} (hv : v.In d.store)
    (htarget : target.In d.store) (hother : requester.receiver ≠ .actor d.number) :
    (d.reply requester v target).Sound := by
  have hemit : Store.TableStep d.store (d.store.emit (.send requester (.response v target))) :=
    .emit (e := .send requester (.response v target)) ⟨hv, htarget⟩
  have hgrows := hemit.grows
  -- only the log and the answers change with what is sent
  refine ⟨hemit.closed h.store, hgrows.env h.root, hgrows.phase h.phase, h.config, ?_, ?_, ?_, fun id => ?_, ?_, ?_⟩
  · exact fun e he => ⟨hgrows.envelope (h.letters e he).1, (h.letters e he).2⟩
  · exact fun act next hcurrent => ⟨hgrows.task (h.task act next hcurrent).1, (h.task act next hcurrent).2⟩
  · intro act instr env rest hcurrent
    obtain ⟨henv, hrest⟩ := h.next act instr env rest hcurrent
    exact ⟨hgrows.env henv, hgrows.stack hrest⟩
  · have hlog : (d.store.emit (.send requester (.response v target))).effects.toList =
        d.store.effects.toList ++ [.send requester (.response v target)] := by
      simp [Store.emit]
    exact (Store.resumedFor_append d.store _ hlog).trans (h.log id)
  -- the new answer goes to another one, as all before it do
  · intro p hp
    rw [reply, Store.answers_emit] at hp
    rcases List.mem_append.mp hp with hp | hp
    · exact h.answers p hp
    · obtain rfl := List.mem_singleton.mp hp
      exact hother
  · exact h.free.imp_right fun hfree id => (Store.outstanding_emit d.store rfl).trans (hfree id)

/-- An activity begins or goes on. -/
theorem proceeds (h : d.Sound) (hfree : d.store.Unawaited d.number) (hconfig : d.config = none)
    (htask : act.task.In d.store) (howed : ActorRef.Others d.number act.task.owed) (instr : Instr) {env : Env}
    {rest : Stack} (henv : env.In d.store) (hrest : rest.In d.store) (activities : Nat) :
    { d with activities, current := some (act, some (instr, env, rest)) }.Sound where
  store := h.store
  root := h.root
  phase := h.phase
  config config hsome := absurd (hconfig.symm.trans hsome) (Option.some_ne_none config).symm
  letters := h.letters
  task act next hcurrent := by
    cases hcurrent
    exact ⟨htask, howed⟩
  next act instr env rest hcurrent := by
    cases hcurrent
    exact ⟨henv, hrest⟩
  log := h.log
  answers := h.answers
  free := .inr hfree

/-- What goes on waits. -/
theorem waits (h : d.Sound) (hfree : d.store.Unawaited d.number) (hconfig : d.config = none)
    (htask : act.task.In d.store) (howed : ActorRef.Others d.number act.task.owed) {x : VarId}
    (hleaves : d.store.Leaves (.activity d.number act.id) τ (some x)) :
    { d with store := τ, current := some (act, none) }.Sound where
  store := hleaves.evolves.closed h.store
  root := hleaves.evolves.grows.env h.root
  phase := hleaves.evolves.grows.phase h.phase
  config config hsome := absurd (hconfig.symm.trans hsome) (Option.some_ne_none config).symm
  letters e he := ⟨hleaves.evolves.grows.envelope (h.letters e he).1, (h.letters e he).2⟩
  task act' next hcurrent := by
    cases hcurrent
    exact ⟨hleaves.evolves.grows.task htask, howed⟩
  next act' instr env rest hcurrent := by cases hcurrent
  log id := by
    cases hleaves with
    -- the new continuation is parked, so the log has none of the actor's
    | waiting hdeeds hx hk hr hτ =>
      have hzero := (hdeeds.outstanding (.activity d.number id)).trans (hfree id)
      exact hτ ▸ (Nat.add_eq_zero_iff.mp hzero).2
  answers := by
    show ActorRef.Others d.number τ.answers
    rw [hleaves.answers]
    exact h.answers
  free := .inl ⟨act, rfl⟩

/-! ### Every step -/

/-- A failure ends what goes on. -/
theorem fails (h : d.Sound) (hfree : d.store.Unawaited d.number) (hconfig : d.config = none) (htask : task.In d.store)
    (howed : ActorRef.Others d.number task.owed) {f : FailureId} (hf : f < d.store.failures.size) :
    (d.fail task f).Sound := by
  cases task with
  | configure x => exact (h.idle hfree).moves hconfig hf
  | answer requester target response => exact (h.idle hfree).replies hf htask.1 (howed _ List.mem_cons_self)
  | notify => exact h.idle hfree

/-- The desk is sound when an activity is over with a result of the kind that its task asks for. -/
theorem finishes (h : d.Sound) (hfree : d.store.Unawaited d.number) (hconfig : d.config = none) (htask : task.In d.store)
    (howed : ActorRef.Others d.number task.owed) {result : SystemM.Settled} (hresult : result.For d.store task) :
    (d.finish result).Sound := by
  cases task with
  | configure x =>
    cases result with
    | configured handlers => exact (h.idle hfree).moves hconfig hresult
    -- a result of another kind does not belong to this task
    | answered _ _ _ | notified => exact hresult.elim
  | answer requester target response =>
    cases result with
    | answered r t v =>
      obtain ⟨rfl, rfl, hv⟩ := hresult
      exact (h.idle hfree).replies hv htask.1 (howed _ List.mem_cons_self)
    | configured _ | notified => exact hresult.elim
  | notify =>
    cases result with
    | notified => exact h.idle hfree
    | configured _ | answered _ _ _ => exact hresult.elim

/-- The desk is sound when a computation has nothing left to run. The result may be there, it may still be incomplete, or it
may be impossible to complete. -/
theorem settles (h : d.Sound) (hfree : d.store.Unawaited d.number) (hconfig : d.config = none)
    (htask : act.task.In d.store) (howed : ActorRef.Others d.number act.task.owed) : (d.settle act).Sound := by
  have hsafe := SystemM.outcome_safe h.store htask
  rw [Action.Safe] at hsafe
  rw [settle]
  generalize SystemM.outcome act.task d.store = made at hsafe
  -- the result is complete, not complete yet, or cannot become so
  rcases made with ⟨result, τ⟩ | ⟨x | f, τ⟩
  · obtain ⟨hdeeds, hresult⟩ := hsafe
    have hτ : τ.Unawaited d.number := fun id => (hdeeds.outstanding _).trans (hfree id)
    exact (h.deeds hfree hdeeds).finishes hτ hconfig (hdeeds.grows.task htask) howed hresult
  · -- the result is not complete, and what waits for it has nothing left to run
    obtain ⟨hdeeds, hx⟩ := hsafe
    have hx : τ.Unbound x := hx
    have hk : Continuation.In τ ⟨[], .activity d.number act.id⟩ := fun f hf => absurd hf List.not_mem_nil
    refine h.waits (x := x) hfree hconfig htask howed (.waiting hdeeds hx hk rfl ?_)
    exact congrArg Prod.snd (Store.suspend_of_var hx.resolveVar ⟨[], .activity d.number act.id⟩)
  · obtain ⟨hmore, hf⟩ := τ.failWith_deeds d.address f
    have hdeeds : d.store.Deeds (τ.failWith d.address f).2 := hsafe.1.trans hmore
    have hfree' : (τ.failWith d.address f).2.Unawaited d.number := fun id => (hdeeds.outstanding _).trans (hfree id)
    exact (h.deeds hfree hdeeds).fails hfree' hconfig (hdeeds.grows.task htask) howed hf

/-- The desk is sound after any outcome of a step: the computation goes on or has come to its end, it waits, or it has failed.
-/
theorem goesOn (h : d.Sound) (hfree : d.store.Unawaited d.number) (hconfig : d.config = none)
    (htask : act.task.In d.store) (howed : ActorRef.Others d.number act.task.owed) {result : Outcome × Store}
    (hfollows : Outcome.Follows (.activity d.number act.id) d.store result) : (d.goOn act result).Sound := by
  obtain ⟨outcome, τ⟩ := result
  obtain ⟨hleaves, hin⟩ := hfollows
  cases outcome with
  | next stack =>
    cases hleaves with
    | going hdeeds =>
      have hτ : τ.Unawaited d.number := fun id => (hdeeds.outstanding _).trans (hfree id)
      have hsound := h.deeds hfree hdeeds
      have htask := hdeeds.grows.task htask
      rw [goOn]
      -- nothing but traps may be left of the stack, and then the computation is at its end
      rcases hnext : next? stack with _ | ⟨instr, env, rest⟩
      · exact hsound.settles hτ hconfig htask howed
      · obtain ⟨henv, hrest⟩ := next?_in hin hnext
        exact hsound.proceeds hτ hconfig htask howed instr henv hrest d.activities
  | waiting x => exact h.waits hfree hconfig htask howed hleaves
  | halted f =>
    cases hleaves with
    | going hdeeds =>
      have hτ : τ.Unawaited d.number := fun id => (hdeeds.outstanding _).trans (hfree id)
      exact (h.deeds hfree hdeeds).fails hτ hconfig (hdeeds.grows.task htask) howed hin

/-- An activity begins with new variables for its arguments. -/
theorem launches (h : d.Sound) (hfree : d.store.Unawaited d.number) (hconfig : d.config = none)
    (hdeeds : d.store.Deeds τ) (htask : task.In τ) (howed : ActorRef.Others d.number task.owed) (proc : Ident)
    (args : List Ident) {bindings : Env} (hbindings : bindings.In τ) :
    ({ d with store := τ }.begin task proc args bindings).Sound := by
  have hτ : τ.Unawaited d.number := fun id => (hdeeds.outstanding _).trans (hfree id)
  have hsound := h.deeds hfree hdeeds
  exact hsound.proceeds hτ hconfig htask howed _ (Env.In.extend hsound.root hbindings)
    (fun f hf => absurd hf List.not_mem_nil) _

/-- The desk is sound when the actor begins to make its handlers. Everything that the computation starts with is in the store:
the arguments, the constructor, and the variable for the handlers. -/
theorem configures (h : d.Sound) (hfree : d.store.Unawaited d.number) {config : ConfigId}
    (hconfig : d.config = some config) : ({ d with config := none }.configure config).Sound := by
  -- without the configuration there is one thing less to be sound about
  have hplain : { d with config := none }.Sound := by
    refine ⟨h.store, h.root, h.phase, ?_, h.letters, h.task, h.next, h.log, h.answers, h.free⟩
    exact fun _ hsome => absurd hsome (Option.some_ne_none _).symm
  -- the arguments come with the configuration; the variable for the handlers and the scopes are made one after the other
  have hcfg : (d.store.config config).In d.store := h.store.config (h.config config hconfig).1
  obtain ⟨hτ, hx⟩ := d.store.freshVar_deeds
  have hargs : ∀ p ∈ (SystemM.argIdents (d.store.config config).args.length).zip (d.store.config config).args,
      p.2.In d.store.freshVar.2 := fun p hp => hτ.grows.value (hcfg.1 p.2 (List.of_mem_zip hp).2)
  obtain ⟨hυ, henv⟩ := Store.bindAll_deeds hargs
  have hmaker : ∀ p ∈ [(("$handlers_ctor" : Ident), Value.proc (.closure (d.store.config config).handlers))],
      p.2.In (d.store.freshVar.2.bindAll ((SystemM.argIdents (d.store.config config).args.length).zip
        (d.store.config config).args)).2 := by
    intro p hp
    obtain rfl := List.mem_singleton.mp hp
    exact hυ.grows.value (v := .proc (.closure _)) (hτ.grows.value (v := .proc (.closure _)) hcfg.2)
  obtain ⟨hρ, hmade⟩ := Store.bindAll_deeds hmaker
  have hin := Nat.lt_of_lt_of_le hx (hυ.grows.trans hρ.grows).vars
  have htask : Task.In _ (.configure d.store.freshVar.1) := hin
  have hnobody : ActorRef.Others d.number (Task.configure d.store.freshVar.1).owed := fun p hp => absurd hp List.not_mem_nil
  -- the scope has three parts, and each of them is older than the last thing made
  refine hplain.launches hfree rfl ((hτ.trans hυ).trans hρ) htask hnobody _ _ ?_
  intro p hp
  rcases List.mem_append.mp hp with hp | hp
  · exact (List.mem_append.mp hp).elim (hρ.grows.env henv p) (hmade p)
  · obtain rfl := List.mem_singleton.mp hp
    exact hin

/-- The desk is sound when the actor takes up an envelope. There is a computation only if a handler is there; otherwise the
answer is a failure, or nothing happens at all. -/
theorem takesUp (h : d.Sound) (hfree : d.store.Unawaited d.number) (hconfig : d.config = none) {e : Envelope}
    (he : e.In d.store) (howed : ActorRef.Others d.number e.owed) : (d.takeUp e).Sound := by
  have hphase := h.phase
  unfold takeUp
  split
  -- a question to an actor that has a handler for questions
  · next message requester target ask tell hready =>
    rw [hready] at hphase
    obtain ⟨hτ, hx⟩ := d.store.freshVar_deeds
    have hargs : ∀ p ∈ [(("$ask" : Ident), ask), ("$m", message)], p.2.In d.store.freshVar.2 := by
      refine List.forall_mem_cons.mpr ⟨hτ.grows.value (hphase.ask ask rfl), fun p hp => ?_⟩
      obtain rfl := List.mem_singleton.mp hp
      exact hτ.grows.value he.1
    obtain ⟨hυ, henv⟩ := Store.bindAll_deeds hargs
    have hx := Nat.lt_of_lt_of_le hx hυ.grows.vars
    have htask : Task.In _ (.answer requester target d.store.freshVar.1) := ⟨hυ.grows.term (hτ.grows.term he.2), hx⟩
    refine h.launches hfree hconfig (hτ.trans hυ) htask howed _ _ ?_
    refine List.forall_mem_append.mpr ⟨henv, fun p hp => ?_⟩
    obtain rfl := List.mem_singleton.mp hp
    exact hx
  -- a question to an actor that has none is answered at once
  · next requester target tell hready =>
    obtain ⟨hdeeds, hf⟩ := d.store.failWith_deeds d.address (.notAProc (d.address ++ " has no ask handler"))
    exact (h.deeds hfree hdeeds).replies hf (hdeeds.grows.term he.2) (howed _ List.mem_cons_self)
  -- a question to an actor that could not be configured is answered with the reason
  · next requester target f hfailed =>
    rw [hfailed] at hphase
    exact h.replies hphase he.2 (howed _ List.mem_cons_self)
  -- a notification needs no answer, and so no variable for one
  · next message ask tell hready =>
    rw [hready] at hphase
    have hargs : ∀ p ∈ [(("$tell" : Ident), tell), ("$m", message)], p.2.In d.store := by
      refine List.forall_mem_cons.mpr ⟨hphase.tell tell rfl, fun p hp => ?_⟩
      obtain rfl := List.mem_singleton.mp hp
      exact he
    obtain ⟨hτ, henv⟩ := Store.bindAll_deeds hargs
    have htask : Task.In (d.store.bindAll [("$tell", tell), ("$m", message)]).2 .notify := trivial
    exact h.launches hfree hconfig hτ htask howed _ _ henv
  · exact h

/-- **A sound desk** stays sound. -/
theorem step (h : d.Sound) {d' : Desk} (hstep : d.step = some d') : d'.Sound := by
  have hfree : (∀ act, d.current ≠ some (act, none)) → d.store.Unawaited d.number :=
    fun hgoing => h.free.resolve_left fun ⟨act, hwaits⟩ => hgoing act hwaits
  rw [Desk.step] at hstep
  -- what is going on comes first, then the configuration, then the letters
  split at hstep
  · next act instr env rest hcurrent =>
    obtain rfl := Option.some.inj hstep
    have hfree := hfree fun act hwaits => by rw [hwaits] at hcurrent; cases hcurrent
    -- while an activity is going on there is nothing to configure
    have hconfig : d.config = none := by
      cases hcase : d.config with
      | none => rfl
      | some config =>
        rw [(h.config config hcase).2.2] at hcurrent
        cases hcurrent
    obtain ⟨htask, howed⟩ := h.task act _ hcurrent
    obtain ⟨henv, hrest⟩ := h.next act instr env rest hcurrent
    exact h.goesOn hfree hconfig htask howed ((d.context act).step_follows h.store henv hrest instr)
  · cases hstep
  · next hcurrent =>
    have hfree := hfree fun act hwaits => by rw [hwaits] at hcurrent; cases hcurrent
    split at hstep
    · next config hconfig =>
      obtain rfl := Option.some.inj hstep
      exact h.configures hfree hconfig
    · next hconfig =>
      split at hstep
      · next e rest _ hletters =>
        obtain rfl := Option.some.inj hstep
        have he := h.letters e (hletters ▸ List.mem_cons_self)
        have hrest : { d with letters := rest }.Sound :=
          ⟨h.store, h.root, h.phase, h.config, fun e he => h.letters e (hletters ▸ List.mem_cons_of_mem _ he), h.task,
            h.next, h.log, h.answers, h.free⟩
        exact hrest.takesUp hfree hconfig he.1 he.2.2
      · cases hstep

theorem reaches (h : d.Sound) {d' : Desk} (hreaches : d.Reaches d') : d'.Sound := by
  induction hreaches with
  | refl => exact h
  | tail _ hstep ih => exact ih.step hstep

end Sound

end Desk

end Dataflow
