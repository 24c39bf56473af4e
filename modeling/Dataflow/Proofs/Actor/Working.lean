/-
Activities at work: everything that a turn of an activity can lead to.

Giving an activity its turn runs its computation for a slice, delivers the log, and then looks at how the computation
stands. What the theory needs of this is said here once (`Worked`): the activity waits for a variable; or it is
preempted, and the rest of it goes to the end of the mailbox; or it ends, with an answer if it has to give one; or it
has nothing more to do and lingers until its answer is complete, for which it waits as well.

All of these are put together from deeds of computations, delivery of the log, a change of the one actor whose activity
it is, and at most one response, which comes last.
-/
import Dataflow.Proofs.Actor.Sound
import Dataflow.Proofs.Execution

set_option autoImplicit false

namespace Dataflow

/-! ## One actor changes -/

/-- Actor `n` becomes `a`, and nothing else changes. -/
structure ActorSystem.Becomes (n : Nat) (a : Actor) (sys sys' : ActorSystem) : Prop where
  kernel : sys'.kernel = sys.kernel
  executor : sys'.executor = sys.executor
  runQueue : sys'.runQueue = sys.runQueue
  self : sys'.actor? n = some a
  others : ∀ m, m ≠ n → sys'.actor? m = sys.actor? m

namespace ActorSystem.Becomes

variable {n : Nat} {a b : Actor} {sys sys' sys'' : ActorSystem} {σ : Store}

theorem refl (ha : sys.actor? n = some a) : Becomes n a sys sys := ⟨rfl, rfl, rfl, ha, fun _ _ => rfl⟩

theorem trans (h : Becomes n a sys sys') (h' : Becomes n b sys' sys'') : Becomes n b sys sys'' where
  kernel := h'.kernel.trans h.kernel
  executor := h'.executor.trans h.executor
  runQueue := h'.runQueue.trans h.runQueue
  self := h'.self
  others m hm := (h'.others m hm).trans (h.others m hm)

theorem modify (ha : sys.actor? n = some a) (f : Actor → Actor) : Becomes n (f a) sys (sys.modifyActor n f) :=
  ⟨rfl, rfl, rfl, actor?_modifyActor_self ha f, fun _ hm => actor?_modifyActor_of_ne hm f⟩

/-- The system stays sound if the actor stays in the store and alive. -/
theorem sound (h : Becomes n b sys sys') (hsound : sys.Sound σ) (ha : sys.actor? n = some a) (hin : b.In σ)
    (hlife : b.Life) : sys'.Sound σ := by
  refine hsound.replace h.kernel fun m c hc => ?_
  by_cases hm : m = n
  · subst hm
    rw [h.self] at hc
    obtain rfl := Option.some.inj hc
    exact ⟨a, ha, fun _ _ => ⟨hin, hlife⟩⟩
  · rw [h.others m hm] at hc
    exact ⟨c, hc, fun hin hlife => ⟨hin, hlife⟩⟩

end ActorSystem.Becomes

/-! ## Steps of a system -/

/-- Sequencing steps of a system. -/
theorem SystemM.bind_eq {α β : Type} (step : SystemM α) (f : α → SystemM β) (s : ActorSystem × Store) :
    (step >>= f) s = f (step s).1 (step s).2 := rfl

theorem SystemM.read_eq {α : Type} (f : ActorSystem → α) (s : ActorSystem × Store) :
    SystemM.read f s = (f s.1, s) := rfl

theorem SystemM.onStore_eq {α : Type} (f : Store → α × Store) (sys : ActorSystem) (σ : Store) :
    SystemM.onStore f (sys, σ) = ((f σ).1, sys, (f σ).2) := rfl

theorem SystemM.deliver_eq (sys : ActorSystem) (σ : Store) :
    SystemM.deliver (sys, σ) = ((), sys.delivered σ, σ.cleared) := rfl

theorem SystemM.attempt_eq {α : Type} (act : Action α) (sys : ActorSystem) (σ : Store) :
    SystemM.attempt act (sys, σ) =
      match act σ with
      | .ok a τ => (.ok a, sys, τ)
      | .error e τ => (.error e, sys, τ) := by
  rw [attempt, onStore]
  cases act σ <;> rfl

/-! ## What an activity leads to -/

/-- The store after an effect, if there is one. -/
def Store.emit? (σ : Store) : Option Effect → Store
  | some e => σ.emit e
  | none => σ

/-- The activity is over: the actor has finished, and if there was somebody to answer, the answer has been sent. -/
def ActorSystem.Over (n : Nat) (a : Actor) (act : Activity) (sys : ActorSystem) (σ : Store) (s : ActorSystem × Store) : Prop :=
  ∃ phase reply, act.task.Ends σ phase reply ∧ sys.Becomes n (a.finish phase) s.1 ∧ s.2 = σ.emit? reply

/-- An activity of actor `n` has had its turn. -/
inductive ActorSystem.Worked (n : Nat) (act : Activity) (sys : ActorSystem) (σ : Store) :
    ActorSystem × Store → Prop where
  /-- It waits. -/
  | waits {τ : Store} {x : VarId} (h : σ.Leaves (.activity n act.id) τ (some x)) :
      Worked n act sys σ (sys.delivered τ, τ.cleared)
  /-- It is preempted, and what is left of it goes to the end of the mailbox. -/
  | yields {τ : Store} {stack : Stack} (h : σ.Deeds τ) (hstack : stack.In τ) :
      Worked n act sys σ ((sys.delivered τ).enqueue n (.resume act.id stack), τ.cleared)
  /-- It ends. -/
  | ends {τ υ : Store} {a : Actor} {s : ActorSystem × Store} (h : σ.Deeds τ) (h' : τ.cleared.Deeds υ)
      (ha : (sys.delivered τ).actor? n = some a) (hact : a.activity = some act)
      (hover : (sys.delivered τ).Over n a act υ s) : Worked n act sys σ s
  /-- It has nothing more to do, but its answer is not complete. -/
  | lingers {τ υ : Store} {x : VarId} (h : σ.Deeds τ) (h' : τ.cleared.Leaves (.activity n act.id) υ (some x)) :
      Worked n act sys σ (sys.delivered τ, υ)

/-! ## Results -/

variable {σ : Store}

/-- The value of a settled term is in the store. -/
theorem Action.settled_reads (hσ : σ.Closed) {t : Term} (ht : t.In σ) :
    (Action.settled t).Reads σ (Value.In σ) := by
  refine (Action.reads_resolve hσ ht).bind fun u hu => ?_
  cases u with
  | val v => exact Action.reads_pure hu
  | var x => exact Action.reads_block hu

/-- Reading one handler gives nothing, a procedure that is in the store, or a fault, and does not change the store. -/
theorem Handlers.read_reads (hσ : σ.Closed) {t : Term} (ht : t.In σ) :
    (Handlers.read t).Reads σ fun h => ∀ v, h = some v → v.In σ := by
  refine (Action.settled_reads hσ ht).bind fun v hv => ?_
  split
  · exact Action.reads_pure nofun
  · next p =>
    refine Action.reads_pure fun w hw => ?_
    cases hw
    exact hv
  · exact Action.reads_fault _

/-- Reading the pair of handlers does not change the store. Anything but a pair is a fault. -/
theorem Handlers.ofVar_reads (hσ : σ.Closed) {x : Nat} (hx : x < σ.vars.size) :
    (Handlers.ofVar x).Reads σ (Handlers.In σ) := by
  refine (Action.settled_reads hσ (t := .var x) hx).bind fun v hv => ?_
  refine (Action.reads_check _).bind fun r _ => ?_
  refine (Action.reads_read (Q := Record.In σ) (hσ.record r)).bind fun record hrecord => ?_
  split
  · next ask tell _ hfields =>
    have hin : ∀ f ∈ record.fields, f.value.In σ := hrecord
    rw [hfields] at hin
    refine (Handlers.read_reads hσ (hin ask List.mem_cons_self)).bind fun a ha => ?_
    refine (Handlers.read_reads hσ (hin tell (List.mem_cons_of_mem _ List.mem_cons_self))).bind fun b hb => ?_
    exact Action.reads_pure ⟨ha, hb⟩
  · exact (Action.reads_look _).bind fun _ _ => Action.reads_fault _

/-- A failure that describes a fault. -/
theorem Store.failWith_deeds (σ : Store) (owner : Address) (f : Fault) :
    σ.Deeds (σ.failWith owner f).2 ∧ (σ.failWith owner f).1 < (σ.failWith owner f).2.failures.size := by
  obtain ⟨hmade, hin⟩ := Action.newRecord_safe (f.record_in σ)
  refine ⟨hmade.tail (.table (.newFailure hin) rfl rfl), ?_⟩
  simp [Store.failWith, Store.newFailure]

namespace SystemM

/-- The result is one for the task, and it is in the store. -/
def Settled.For (σ : Store) : Task → Settled → Prop
  | .configure _, .configured h => h.In σ
  | .answer requester target _, .answered r t v => r = requester ∧ t = target ∧ v.In σ
  | .notify, .notified => True
  | _, _ => False

/-- A task is safe, and what it comes to is a result for such a task. -/
theorem outcome_safe (hσ : σ.Closed) {task : Task} (htask : task.In σ) :
    (outcome task).Safe σ fun result τ => result.For τ task := by
  cases task with
  | configure x => exact (Handlers.ofVar_reads hσ htask).bind_safe fun h hh => Action.safe_pure hh
  | answer requester target response =>
    refine (Action.complete_safe hσ (t := .var response) htask.2).bind hσ fun v τ _ _ hv => ?_
    exact Action.safe_pure ⟨rfl, rfl, hv⟩
  | notify => exact Action.safe_pure trivial

/-! ## Ending an activity -/

section Ending

variable {n : Nat} {sys : ActorSystem} {a : Actor} {act : Activity}

/-- An activity that fails is over. The actor fails with it if it was to be configured; if somebody waits for an answer, the
failure is sent; otherwise nobody is told. -/
theorem fail_over (ha : sys.actor? n = some a) (hact : a.activity = some act) {f : FailureId}
    (hf : f < σ.failures.size) : sys.Over n a act σ (fail n f (sys, σ)).2 := by
  have hidle := ActorSystem.Becomes.modify ha fun a => { a with activity := none }
  rw [fail, bind_eq, read_eq]
  dsimp only
  rw [ha, Option.bind_some, hact]
  obtain ⟨id, task⟩ := act
  cases task with
  | configure x =>
    have hfailed := ActorSystem.Becomes.modify hidle.self fun a => { a with phase := .failed f }
    exact ⟨some (.failed f), none, .unconfigured hf, hidle.trans hfailed, rfl⟩
  | answer requester target response =>
    exact ⟨none, some (.send requester (.response (.failed f) target)), .answered hf, hidle, rfl⟩
  | notify => exact ⟨none, none, .notified, hidle, rfl⟩

/-- Settling either makes the activity be over or leaves the system alone and waits for a variable. -/
theorem settle_cases (hσ : σ.Closed) (htask : act.task.In σ) (ha : sys.actor? n = some a)
    (hact : a.activity = some act) (address : Address) :
    (∃ τ, σ.Deeds τ ∧ sys.Over n a act τ (settle n address act (sys, σ)).2) ∨
      ∃ τ x, σ.Leaves (.activity n act.id) τ (some x) ∧ (settle n address act (sys, σ)).2 = (sys, τ) := by
  have hsafe := outcome_safe hσ htask
  rw [Action.Safe] at hsafe
  rw [settle, bind_eq, attempt_eq]
  generalize outcome act.task σ = made at hsafe
  -- the result is there, or the task does not allow it, or it waits, or there is a fault
  rcases made with ⟨result, τ⟩ | ⟨e, τ⟩
  · obtain ⟨hdeeds, hresult⟩ := hsafe
    have hidle := ActorSystem.Becomes.modify ha fun a => { a with activity := none }
    refine .inl ⟨τ, hdeeds, ?_⟩
    obtain ⟨id, task⟩ := act
    cases task with
    | configure x =>
      cases result with
      | configured handlers =>
        have hready := ActorSystem.Becomes.modify hidle.self fun a => { a with phase := .ready handlers }
        exact ⟨some (.ready handlers), none, .configured hresult, hidle.trans hready, rfl⟩
      | answered _ _ _ | notified => exact hresult.elim
    | answer requester target response =>
      cases result with
      | answered r t v =>
        obtain ⟨rfl, rfl, hv⟩ := hresult
        exact ⟨none, some (.send r (.response v t)), .answered hv, hidle, rfl⟩
      | configured _ | notified => exact hresult.elim
    | notify =>
      cases result with
      | notified => exact ⟨none, none, .notified, hidle, rfl⟩
      | configured _ | answered _ _ _ => exact hresult.elim
  · obtain ⟨hdeeds, he⟩ := hsafe
    cases e with
    | blocked x =>
      -- the result is not complete, and what waits for it has nothing left to run
      have hx : τ.Unbound x := he
      have hk : Continuation.In τ ⟨[], .activity n act.id⟩ := fun f hf => absurd hf List.not_mem_nil
      refine .inr ⟨τ.park x ⟨[], .activity n act.id⟩, x, .waiting hdeeds hx hk rfl rfl, ?_⟩
      have hsuspend := Store.suspend_of_var hx.resolveVar ⟨[], .activity n act.id⟩
      exact congrArg (fun p : Bool × Store => (sys, p.2)) hsuspend
    | fault f =>
      obtain ⟨hmore, hf⟩ := τ.failWith_deeds address f
      exact .inl ⟨_, hdeeds.trans hmore, fail_over ha hact hf⟩

end Ending

/-! ## Giving an activity its turn -/

section Working

variable {n : Nat} {sys : ActorSystem} {a : Actor} {act : Activity}

/-- **A slice of an activity** and what is done after it: the activity waits, goes on later, lingers with an incomplete
result, or is over. -/
theorem advance_worked (h : sys.Sound σ) (ha : sys.actor? n = some a) (hact : a.activity = some act)
    (address : Address) {stack : Stack} (hstack : stack.In σ) :
    sys.Worked n act σ (advance n address act stack (sys, σ)).2 := by
  let ctx : Context :=
    { owner := address, actor := some ⟨.actor n, address⟩, spawner := .system, resumer := .activity n act.id }
  obtain ⟨hleaves, hin⟩ := ctx.compute_leaves sys.kernel.config.timeSlice 0 h.store hstack
  rw [advance, bind_eq, read_eq, bind_eq, onStore_eq, bind_eq, deliver_eq]
  dsimp only
  generalize ctx.compute sys.kernel.config.timeSlice stack 0 σ = slice at hleaves hin ⊢
  obtain ⟨advice, executed, τ⟩ := slice
  -- the actor is still busy with its activity after delivery, which changes its mailbox alone
  have hsound := h.leaves hleaves
  obtain ⟨b, hb, hgets⟩ := ActorSystem.gets_of_deliver ha (hsound.not_announced ha)
  have hbact : b.activity = some act := hgets.activity.trans hact
  -- what the slice left in the log decides with the advice which of these it is
  cases advice with
  | ended =>
    cases hleaves with
    | going hdeeds =>
      have hin := (hsound.deliver.actors n b hb).1
      rcases settle_cases hsound.deliver.store (hin.task act hbact) hb hbact address with ⟨υ, hυ, hover⟩ | ⟨υ, x, hυ, hs⟩
      · exact .ends hdeeds hυ hb hbact hover
      · have heq : (settle n address act (sys.delivered τ, τ.cleared)).2 = (sys.delivered τ, υ) := hs
        exact heq ▸ .lingers hdeeds hυ
  | preempted stack =>
    cases hleaves with
    | going hdeeds => exact .yields hdeeds hin
  | waiting x => exact .waits hleaves
  | halted f =>
    cases hleaves with
    | going hdeeds => exact .ends hdeeds .refl hb hbact (fail_over hb hbact (τ.cleared_grows.value (v := .failed f) hin))

end Working

end SystemM

/-! ## What a turn of its activity makes of an actor -/

namespace Store

variable {τ : Store}

@[simp] theorem answers_cleared (σ : Store) : σ.cleared.answers = [] := rfl

theorem answers_emit (σ : Store) (e : Effect) : (σ.emit e).answers = σ.answers ++ e.answer?.toList := by
  rw [answers, answers, emit]
  simp [List.filterMap_append, List.filterMap_cons]
  cases e.answer? <;> rfl

end Store

namespace Actor

/-- A turn of its activity: the actor gets items, and perhaps the activity is over, with the answer that it owes. -/
inductive Works (act : Activity) (a : Actor) : List (ActorRef × Term) → Actor → Prop where
  | stays {items : List Item} {b : Actor} (h : Gets items a b) (hitems : ∀ item ∈ items, item.isConfigure = false) :
      Works act a [] b
  | ends {items : List Item} {b : Actor} {σ : Store} {phase : Option Phase} {reply : Option Effect}
      (hends : act.task.Ends σ phase reply) (h : Gets items (a.finish phase) b)
      (hitems : ∀ item ∈ items, item.isConfigure = false) : Works act a act.task.owed b

/-- Whether an actor gets items before or after it finishes makes no difference. -/
theorem Gets.finish {items : List Item} {a b : Actor} (h : Gets items a b) (phase : Option Phase) :
    Gets items (a.finish phase) (b.finish phase) where
  mail := h.mail
  closed := h.closed
  phase := congrArg phase.getD h.phase
  activity := rfl
  deferred := h.deferred
  activities := h.activities

end Actor

/-- What is sent at the end of a task is what the task owes. -/
theorem Task.Ends.sound {task : Task} {phase : Option Phase} {reply : Option Effect} (h : task.Ends σ phase reply)
    (htask : task.In σ) {sys : ActorSystem} (hsound : sys.Sound σ) :
    sys.Sound (σ.emit? reply) ∧ (σ.emit? reply).answers = σ.answers ++ task.owed := by
  cases h with
  | configured | unconfigured | notified => exact ⟨hsound, (List.append_nil _).symm⟩
  | @answered r t x v hv =>
    have hin : Effect.In σ (.send r (.response v t)) := ⟨hv, htask.1⟩
    exact ⟨hsound.evolve (.single (.table (.emit hin))) (.emit σ rfl), σ.answers_emit _⟩

namespace ActorSystem

variable {n : Nat} {act : Activity} {sys : ActorSystem} {s : ActorSystem × Store} {a : Actor}

/-- **A turn of an activity** keeps the system sound, and is for everybody else a delivery. -/
theorem Worked.spec (h : sys.Worked n act σ s) (hsound : sys.Sound σ) (ha : sys.actor? n = some a) :
    s.1.Sound s.2 ∧ (∃ b, s.1.actor? n = some b ∧ a.Works act s.2.answers b) ∧
      ∀ m, m ≠ n → ∃ items, Actor.Delivery items (sys.actor? m) (s.1.actor? m) := by
  have hgets : ∀ {τ : Store}, sys.Sound τ → ∃ items b, (sys.delivered τ).actor? n = some b ∧
      Actor.Gets items a b ∧ ∀ item ∈ items, item.isConfigure = false := by
    intro τ hτ
    have hdelivery := hτ.delivery n
    rw [ha] at hdelivery
    generalize hb : (sys.delivered τ).actor? n = after at hdelivery
    cases hdelivery with
    | known hgets hitems => exact ⟨_, _, rfl, hgets, hitems⟩
  cases h with
  | @waits τ x hleaves =>
    have hτ := hsound.leaves hleaves
    obtain ⟨items, b, hb, hgets, hitems⟩ := hgets hτ
    exact ⟨hτ.deliver, ⟨b, hb, .stays hgets hitems⟩, fun m _ => ⟨_, hτ.delivery m⟩⟩
  | @yields τ stack hdeeds hstack =>
    have hτ := hsound.deeds hdeeds
    obtain ⟨items, b, hb, hgets, hitems⟩ := hgets hτ
    have hresume : Item.In τ.cleared (.resume act.id stack) := τ.cleared_grows.stack hstack
    refine ⟨hτ.deliver.enqueue n hresume rfl, ?_, fun m hm => ?_⟩
    · have hreceive := Actor.Gets.receive (sys.delivered τ).executor.running (.resume act.id stack) b
      refine ⟨_, ?_, .stays (hgets.trans hreceive) (List.forall_mem_append.mpr ⟨hitems, ?_⟩)⟩
      · rw [actor?_enqueue, if_pos rfl, hb, Option.map_some]
      · exact fun item hitem => List.mem_singleton.mp hitem ▸ rfl
    · rw [actor?_enqueue, if_neg hm]
      exact ⟨_, hτ.delivery m⟩
  | @ends τ υ b s hdeeds hmore hb hbact hover =>
    have hτ := hsound.deeds hdeeds
    obtain ⟨items, b', hb', hgets, hitems⟩ := hgets hτ
    obtain rfl := Option.some.inj (hb.symm.trans hb')
    obtain ⟨phase, reply, hends, hbecomes, hstore⟩ := hover
    have hυ := hτ.deliver.deeds hmore
    obtain ⟨hin, hlife⟩ := hυ.actors n b hb
    have hfinished := hbecomes.sound hυ hb (hin.finishes hends) (hlife.finishes hbact hends)
    obtain ⟨hreplied, hanswers⟩ := hends.sound (hin.task act hbact) hfinished
    rw [hmore.answers, Store.answers_cleared, List.nil_append] at hanswers
    refine ⟨hstore ▸ hreplied, ⟨_, hbecomes.self, ?_⟩, fun m hm => ?_⟩
    · rw [hstore, hanswers]
      exact .ends hends (hgets.finish phase) hitems
    · rw [hbecomes.others m hm]
      exact ⟨_, hτ.delivery m⟩
  | @lingers τ υ x hdeeds hleaves =>
    have hτ := hsound.deeds hdeeds
    obtain ⟨items, b, hb, hgets, hitems⟩ := hgets hτ
    refine ⟨hτ.deliver.leaves hleaves, ⟨b, hb, ?_⟩, fun m _ => ⟨_, hτ.delivery m⟩⟩
    rw [hleaves.answers]
    exact .stays hgets hitems

end ActorSystem

end Dataflow
