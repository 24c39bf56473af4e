/-
Handling items: everything that an actor can do with an item that it has taken.

An actor that takes a request or a notification up, or the item that configures it, begins an activity or is done with
it at once; a resumption goes on with an activity; and the rest is over in a moment. `Handled` lists what there is, with
all that happens to the system and to its store. For the actor alone this is what `Actor.Does` says, and for all other
actors it is a delivery.
-/
import Dataflow.Proofs.Actor.Working

set_option autoImplicit false

namespace Dataflow

/-! ## What handling an item leads to -/

/-- Actor `n`, which was `a` when it had taken the item, has handled the item. -/
inductive ActorSystem.Handled (n : Nat) (a : Actor) (sys : ActorSystem) (σ : Store) :
    Item → ActorSystem × Store → Prop where
  /-- A response is bound to its target. -/
  | absorbs {v : Value} {t : Term} {τ : Store} (h : σ.Deeds τ) : Handled n a sys σ (.envelope (.response v t)) (sys, τ)
  | defers {e : Envelope} {sys' : ActorSystem} (hcall : e.IsCall) (hbusy : a.accepts = false)
      (h : sys.Becomes n { a with deferred := a.deferred ++ [e] } sys') : Handled n a sys σ (.envelope e) (sys', σ)
  /-- There is no procedure for requests, and the answer is a failure. -/
  | answers {v : Value} {r : ActorRef} {t : Term} {f : FailureId} {τ : Store} (haccepts : a.accepts = true)
      (h : σ.Deeds τ) (hf : f < τ.failures.size) :
      Handled n a sys σ (.envelope (.request v r t)) (sys, τ.emit (.send r (.response (.failed f) t)))
  /-- There is no procedure for notifications. -/
  | drops {v : Value} (haccepts : a.accepts = true) : Handled n a sys σ (.envelope (.notify v)) (sys, σ)
  | ignores {item : Item} (h : item.Late a) : Handled n a sys σ item (sys, σ)
  | halts {sys' : ActorSystem} (h : sys.Becomes n a.halt sys') : Handled n a sys σ .stop (sys', σ)
  /-- An activity begins and has its first turn. -/
  | begins {item : Item} {task : Task} {τ : Store} {sys' : ActorSystem} {s : ActorSystem × Store}
      (hcause : item.Causes a task) (hdeeds : σ.Deeds τ) (htask : task.In τ) (h : sys.Becomes n (a.begin task) sys')
      (hwork : sys'.Worked n ⟨a.activities + 1, task⟩ τ s) : Handled n a sys σ item s
  /-- The activity has another turn. -/
  | resumes {act : Activity} {stack : Stack} {s : ActorSystem × Store} (hact : a.activity = some act)
      (hwork : sys.Worked n act σ s) : Handled n a sys σ (.resume act.id stack) s

namespace SystemM

variable {σ : Store}

/-! ## Preparing an activity -/

/-- The step does deeds on the store and leaves the system as it is. -/
def Prepares {α : Type} (step : SystemM α) (σ : Store) (Q : α → Store → Prop) : Prop :=
  ∀ sys, ∃ a τ, step (sys, σ) = (a, sys, τ) ∧ σ.Deeds τ ∧ Q a τ

/-- What comes after preparations. -/
theorem Prepares.next {α β : Type} {step : SystemM α} {Q : α → Store → Prop} (h : step.Prepares σ Q)
    {f : α → SystemM β} {sys : ActorSystem} {P : ActorSystem × Store → Prop}
    (hf : ∀ a τ, σ.Deeds τ → Q a τ → P (f a (sys, τ)).2) : P ((step >>= f) (sys, σ)).2 := by
  obtain ⟨a, τ, hstep, hdeeds, hQ⟩ := h sys
  rw [bind_eq, hstep]
  exact hf a τ hdeeds hQ

theorem freshVar_prepares : freshVar.Prepares σ fun x τ => x < τ.vars.size := by
  intro sys
  have hnone : VarState.In σ σ.vars.size (.unbound []) := fun k hk => absurd hk List.not_mem_nil
  exact ⟨_, _, rfl, .single (.newVar rfl hnone), σ.newVar_lt_size _⟩

/-- Binding parameters prepares a computation: the system stays as it is, and the store gets one variable for each parameter.
-/
theorem bindAll_prepares {bindings : List (Ident × Value)} (h : ∀ p ∈ bindings, p.2.In σ) :
    (bindAll bindings).Prepares σ fun env τ => env.In τ := by
  induction bindings generalizing σ with
  | nil => exact fun sys => ⟨[], σ, rfl, .refl, fun p hp => absurd hp List.not_mem_nil⟩
  | cons p bindings ih =>
    intro sys
    obtain ⟨hp, hrest⟩ := List.forall_mem_cons.mp h
    have hdeeds : σ.Deeds (σ.newVar (.bound p.2)).2 := .single (.newVar trivial hp)
    -- the other values are still in the store when the first variable has been made
    obtain ⟨env, τ, hstep, hmore, henv⟩ := ih (fun q hq => hdeeds.grows.value (hrest q hq)) sys
    refine ⟨(p.1, σ.vars.size) :: env, τ, ?_, hdeeds.trans hmore, ?_⟩
    · have hbind : bindAll (p :: bindings) (sys, σ) =
          ((p.1, σ.vars.size) :: (bindAll bindings (sys, (σ.newVar (.bound p.2)).2)).1,
            (bindAll bindings (sys, (σ.newVar (.bound p.2)).2)).2) := rfl
      rw [hbind, hstep]
    · exact List.forall_mem_cons.mpr ⟨Nat.lt_of_lt_of_le (σ.newVar_lt_size _) hmore.grows.vars, henv⟩

theorem failWith_prepares (owner : Address) (f : Fault) :
    (onStore fun σ => σ.failWith owner f).Prepares σ fun n τ => n < τ.failures.size :=
  fun _ => ⟨_, _, rfl, (σ.failWith_deeds owner f).1, (σ.failWith_deeds owner f).2⟩

theorem attempt_prepares {α : Type} {act : Action α} {Q : α → Store → Prop} (h : act.Safe σ Q) :
    (attempt act).Prepares σ fun _ _ => True := by
  intro sys
  rw [Action.Safe] at h
  rw [attempt_eq]
  generalize act σ = result at h
  cases result with
  | ok a τ => exact ⟨_, τ, rfl, h.1, trivial⟩
  | error e τ => exact ⟨_, τ, rfl, h.1, trivial⟩

/-! ## Taking an item -/

/-- An actor that has nothing deferred that it could take up turns to its mailbox. -/
theorem nextItem_of_mailed {n : Nat} {sys : ActorSystem} {σ : Store} {a : Actor} (ha : sys.actor? n = some a)
    (hbehind : a.accepts = true → a.deferred = []) :
    (a.mailbox.pop? = none → nextItem n (sys, σ) = (none, sys, σ)) ∧
      ∀ item mailbox, a.mailbox.pop? = some (item, mailbox) →
        nextItem n (sys, σ) = (some item, sys.modifyActor n fun a => { a with mailbox }, σ) := by
  rw [nextItem, bind_eq, read_eq]
  dsimp only
  rw [ha]
  dsimp only
  cases haccepts : a.accepts with
  | true =>
    rw [hbehind haccepts]
    exact ⟨fun hpop => by rw [hpop]; rfl, fun item mailbox hpop => by rw [hpop]; rfl⟩
  | false => exact ⟨fun hpop => by rw [hpop]; rfl, fun item mailbox hpop => by rw [hpop]; rfl⟩

/-- An actor takes an item, or there is none for it. -/
theorem nextItem_cases (n : Nat) (sys : ActorSystem) (σ : Store) :
    nextItem n (sys, σ) = (none, sys, σ) ∨
      ∃ a a' item sys', sys.actor? n = some a ∧ a.Takes item a' ∧ sys.Becomes n a' sys' ∧
        nextItem n (sys, σ) = (some item, sys', σ) := by
  cases ha : sys.actor? n with
  | none =>
    rw [nextItem, bind_eq, read_eq]
    dsimp only
    rw [ha]
    exact .inl rfl
  | some a =>
    -- only an actor that can take an envelope up looks at the deferred ones
    by_cases hbehind : a.accepts = true → a.deferred = []
    · obtain ⟨hempty, hfirst⟩ := nextItem_of_mailed (σ := σ) ha hbehind
      cases hitems : a.mailbox.items with
      | nil => exact .inl (hempty (by rw [Mailbox.pop?, hitems]))
      | cons item rest =>
        have hopen : a.mailbox.closed = false := by
          refine Bool.eq_false_iff.mpr fun hclosed => ?_
          rw [a.mailbox.empty_of_closed hclosed] at hitems
          cases hitems
        have hpop : a.mailbox.pop? = some (item, { items := rest }) := by
          rw [Mailbox.pop?, hitems, hopen]
          rfl
        have hmodify := ActorSystem.Becomes.modify ha fun a => { a with mailbox := { items := rest } }
        exact .inr ⟨a, _, item, _, rfl, .mailed hbehind hitems hopen, hmodify, hfirst item _ hpop⟩
    · obtain ⟨haccepts, hsome⟩ := Classical.not_imp.mp hbehind
      obtain ⟨e, rest, hdeferred⟩ := List.exists_cons_of_ne_nil hsome
      have hnext : nextItem n (sys, σ) =
          (some (.envelope e), sys.modifyActor n fun a => { a with deferred := rest }, σ) := by
        rw [nextItem, bind_eq, read_eq]
        dsimp only
        rw [ha]
        dsimp only
        rw [haccepts, hdeferred]
        rfl
      have hmodify := ActorSystem.Becomes.modify ha fun a => { a with deferred := rest }
      exact .inr ⟨a, _, .envelope e, _, rfl, .deferred haccepts hdeferred, hmodify, hnext⟩

/-- The next item is taken from an actor that is in the system, and nothing else changes in the system or in the store. -/
theorem nextItem_takes {n : Nat} {sys : ActorSystem} {item : Item} {s : ActorSystem × Store}
    (h : nextItem n (sys, σ) = (some item, s)) :
    ∃ a a', sys.actor? n = some a ∧ a.Takes item a' ∧ s.2 = σ ∧ sys.Becomes n a' s.1 := by
  rcases nextItem_cases n sys σ with hnone | ⟨a, a', _, _, ha, htakes, htook, hnext⟩
  · rw [hnone] at h
    cases h
  · rw [hnext] at h
    cases h
    exact ⟨a, a', ha, htakes, rfl, htook⟩

/-! ## Handling it -/

section Handling

variable {n : Nat} {sys sys₁ : ActorSystem} {a a₁ : Actor} {item : Item}

/-- The system is sound when an activity begins. -/
theorem begin_sound (h : sys.Sound σ) (ha : sys.actor? n = some a) (htakes : a.Takes item a₁)
    (htook : sys.Becomes n a₁ sys₁) {task : Task} (hcause : item.Causes a₁ task) {τ : Store} (hdeeds : σ.Deeds τ)
    (htask : task.In τ) {sys₂ : ActorSystem} (hbegins : sys₁.Becomes n (a₁.begin task) sys₂) : sys₂.Sound τ := by
  have hτ := h.deeds hdeeds
  obtain ⟨hin, hlife⟩ := hτ.actors n a ha
  exact (htook.trans hbegins).sound hτ ha ((hin.takes htakes).1.begins htask) (hlife.begins htakes hcause)

/-- An activity begins after deeds that prepare it. -/
theorem launch_handled (h : sys.Sound σ) (ha : sys.actor? n = some a) (htakes : a.Takes item a₁)
    (htook : sys.Becomes n a₁ sys₁) {task : Task} (hcause : item.Causes a₁ task) {τ : Store} (hdeeds : σ.Deeds τ)
    (htask : task.In τ) (proc : Ident) (args : List Ident) {bindings : Env} (hbindings : bindings.In τ) :
    sys₁.Handled n a₁ σ item (launch n a₁ task proc args bindings (sys₁, τ)).2 := by
  have hbegins : sys₁.Becomes n (a₁.begin task) (sys₁.modifyActor n fun a =>
      { a with activity := some ⟨a₁.activities + 1, task⟩, activities := a.activities + 1 }) :=
    .modify htook.self fun a => { a with activity := some ⟨a₁.activities + 1, task⟩, activities := a.activities + 1 }
  have hsound := begin_sound h ha htakes htook hcause hdeeds htask hbegins
  have hstack : Stack.In τ [.run (.apply (.ident proc) (args.map .ident)) (sys₁.kernel.root.extend bindings)] := by
    intro f hf
    obtain rfl := List.mem_singleton.mp hf
    exact Env.In.extend hsound.root hbindings
  exact .begins hcause hdeeds htask hbegins (advance_worked hsound hbegins.self rfl a₁.address hstack)

/-- Handling a configuration is beginning to make the handlers, and only in an actor that has just been made. In any other
actor it comes too late and is ignored. -/
theorem startConfigure_handled (h : sys.Sound σ) (ha : sys.actor? n = some a) {config : ConfigId}
    (htakes : a.Takes (.configure config) a₁) (htook : sys.Becomes n a₁ sys₁) :
    sys₁.Handled n a₁ σ (.configure config) (startConfigure n a₁ config (sys₁, σ)).2 := by
  -- the configuration came with the item, so that it is in the store
  have hcfg : (σ.config config).In σ := h.store.config ((h.actors n a ha).1.takes htakes).2
  rw [startConfigure]
  cases hphase : a₁.phase with
  | created =>
    dsimp only
    rw [bind_eq]
    refine freshVar_prepares.next fun x τ hτ hx => ?_
    have hargs : ∀ p ∈ (argIdents (σ.config config).args.length).zip (σ.config config).args, p.2.In τ := by
      intro p hp
      exact hτ.grows.value (hcfg.1 p.2 (List.of_mem_zip hp).2)
    refine (bindAll_prepares hargs).next fun env υ hυ henv => ?_
    have hmaker : ∀ p ∈ [(("$handlers_ctor" : Ident), Value.proc (.closure (σ.config config).handlers))],
        p.2.In υ := by
      intro p hp
      obtain rfl := List.mem_singleton.mp hp
      exact hυ.grows.value (v := .proc (.closure _)) (hτ.grows.value (v := .proc (.closure _)) hcfg.2)
    refine (bindAll_prepares hmaker).next fun maker ρ hρ hmaker => ?_
    have hin : x < ρ.vars.size := Nat.lt_of_lt_of_le hx (hυ.grows.trans hρ.grows).vars
    -- the scope of the computation: arguments, constructor, and the variable for what it makes
    refine launch_handled h ha htakes htook (.configure hphase) ((hτ.trans hυ).trans hρ) hin _ _ ?_
    intro p hp
    rcases List.mem_append.mp hp with hp | hp
    · exact (List.mem_append.mp hp).elim (hρ.grows.env henv p) (hmaker p)
    · obtain rfl := List.mem_singleton.mp hp
      exact hin
  | ready _ | failed _ | stopped =>
    refine .ignores ?_
    rw [Item.Late, hphase]
    exact nofun

/-- Handling a question is beginning to answer it if there is a handler. Without one it is answered at once, with a failure.
-/
theorem startRequest_handled (h : sys.Sound σ) (ha : sys.actor? n = some a) {v : Value} {r : ActorRef} {t : Term}
    (htakes : a.Takes (.envelope (.request v r t)) a₁) (htook : sys.Becomes n a₁ sys₁)
    (haccepts : a₁.accepts = true) :
    sys₁.Handled n a₁ σ (.envelope (.request v r t)) (startRequest n a₁ v r t (sys₁, σ)).2 := by
  obtain ⟨hin, hv, ht⟩ := (h.actors n a ha).1.takes htakes
  have hphase := hin.phase
  rw [startRequest]
  cases hcase : a₁.phase with
  | ready handlers =>
    rw [hcase] at hphase
    obtain ⟨ask, tell⟩ := handlers
    cases ask with
    | some ask =>
      dsimp only
      refine freshVar_prepares.next fun x τ hτ hx => ?_
      have hargs : ∀ p ∈ [(("$ask" : Ident), ask), ("$m", v)], p.2.In τ := by
        intro p hp
        rcases List.mem_cons.mp hp with rfl | hp
        · exact hτ.grows.value (hphase.ask ask rfl)
        · obtain rfl := List.mem_singleton.mp hp
          exact hτ.grows.value hv
      refine (bindAll_prepares hargs).next fun env υ hυ henv => ?_
      have hx : x < υ.vars.size := Nat.lt_of_lt_of_le hx hυ.grows.vars
      refine launch_handled h ha htakes htook (.request haccepts) (hτ.trans hυ)
        ⟨hυ.grows.term (hτ.grows.term ht), hx⟩ _ _ ?_
      refine List.forall_mem_append.mpr ⟨henv, fun p hp => ?_⟩
      obtain rfl := List.mem_singleton.mp hp
      exact hx
    | none => exact (failWith_prepares _ _).next fun f τ hτ hf => .answers haccepts hτ hf
  | failed f =>
    rw [hcase] at hphase
    exact .answers haccepts .refl hphase
  -- an actor in one of these phases does not take up envelopes
  | created | stopped =>
    have hno := (Actor.accepts_iff.mp haccepts).2
    rw [hcase] at hno
    cases hno

/-- Handling a notification is running the handler, or nothing if there is none. Nobody waits for what comes of it. -/
theorem startNotify_handled (h : sys.Sound σ) (ha : sys.actor? n = some a) {v : Value}
    (htakes : a.Takes (.envelope (.notify v)) a₁) (htook : sys.Becomes n a₁ sys₁) (haccepts : a₁.accepts = true) :
    sys₁.Handled n a₁ σ (.envelope (.notify v)) (startNotify n a₁ v (sys₁, σ)).2 := by
  obtain ⟨hin, hv⟩ := (h.actors n a ha).1.takes htakes
  have hphase := hin.phase
  rw [startNotify]
  cases hcase : a₁.phase with
  | ready handlers =>
    rw [hcase] at hphase
    obtain ⟨ask, tell⟩ := handlers
    cases tell with
    | some tell =>
      have hargs : ∀ p ∈ [(("$tell" : Ident), tell), ("$m", v)], p.2.In σ := by
        intro p hp
        rcases List.mem_cons.mp hp with rfl | hp
        · exact hphase.tell tell rfl
        · obtain rfl := List.mem_singleton.mp hp
          exact hv
      refine (bindAll_prepares hargs).next fun env υ hυ henv => ?_
      exact launch_handled h ha htakes htook (.notify haccepts) hυ trivial _ _ henv
    | none => exact .drops haccepts
  | created | failed _ | stopped => exact .drops haccepts

/-- **Handling an item** is one of the things that `Handled` lists. -/
theorem handle_handled (h : sys.Sound σ) (ha : sys.actor? n = some a) (htakes : a.Takes item a₁)
    (htook : sys.Becomes n a₁ sys₁) : sys₁.Handled n a₁ σ item (handle n a₁ item (sys₁, σ)).2 := by
  obtain ⟨hin, hitem⟩ := (h.actors n a ha).1.takes htakes
  -- a request or a notification is deferred unless the actor can take it up now
  have hdefers : ∀ e : Envelope, e.IsCall → a₁.accepts = false →
      sys₁.Handled n a₁ σ (.envelope e) (sys₁.modifyActor n fun a => { a with deferred := a.deferred ++ [e] }, σ) :=
    fun e hcall hbusy => .defers hcall hbusy (.modify htook.self fun a => { a with deferred := a.deferred ++ [e] })
  cases item with
  | envelope e =>
    cases e with
    | response v t =>
      have hbind := Action.unify_safe h.store (a := t) (b := .val v) hitem.2 hitem.1
      exact (attempt_prepares hbind).next fun _ τ hτ _ => .absorbs hτ
    | request v r t =>
      cases haccepts : a₁.accepts with
      | false =>
        simp only [handle, haccepts]
        exact hdefers _ trivial haccepts
      | true =>
        simp only [handle, haccepts]
        exact startRequest_handled h ha htakes htook haccepts
    | notify v =>
      cases haccepts : a₁.accepts with
      | false =>
        simp only [handle, haccepts]
        exact hdefers _ trivial haccepts
      | true =>
        simp only [handle, haccepts]
        exact startNotify_handled h ha htakes htook haccepts
  | configure config => exact startConfigure_handled h ha htakes htook
  | resume id stack =>
    rw [handle]
    cases hact : a₁.activity with
    | none => exact .ignores fun act h => by rw [hact] at h; cases h
    | some act =>
      dsimp only
      by_cases hid : act.id = id
      · subst hid
        have hsound := htook.sound h ha hin ((h.actors n a ha).2.takes htakes rfl)
        rw [if_pos rfl]
        exact .resumes hact (advance_worked hsound htook.self hact a₁.address hitem)
      · rw [if_neg hid]
        refine .ignores fun other hother => ?_
        rw [hact] at hother
        cases hother
        exact hid
  | stop => exact .halts (.modify htook.self Actor.halt)

end Handling

end SystemM

/-! ## What handling an item makes of a system -/

namespace ActorSystem

variable {n : Nat} {sys sys₁ : ActorSystem} {σ : Store} {a a₁ : Actor} {item : Item} {s : ActorSystem × Store}

/-- Actor `n`, which was `a` when it had taken the item, has done something with the item, and has perhaps got further
items; everybody else just got items. -/
structure Handles (n : Nat) (a : Actor) (item : Item) (sys : ActorSystem) (s : ActorSystem × Store) : Prop where
  sound : s.1.Sound s.2
  self : ∃ b c items, a.Does item s.2.answers b ∧ b.Gets items c ∧ s.1.actor? n = some c ∧
    ∀ item ∈ items, item.isConfigure = false
  others : ∀ m, m ≠ n → ∃ items, Actor.Delivery items (sys.actor? m) (s.1.actor? m)

/-- **An actor handles an item** by doing one of the things that there are to do with it. -/
theorem Handled.handles (h : sys₁.Handled n a₁ σ item s) (hsound : sys.Sound σ) (hlog : σ.answers = [])
    (ha : sys.actor? n = some a) (htakes : a.Takes item a₁) (htook : sys.Becomes n a₁ sys₁) :
    Handles n a₁ item sys s := by
  obtain ⟨hin, hlife⟩ := hsound.actors n a ha
  obtain ⟨hin₁, hitem⟩ := hin.takes htakes
  have hempty : ∀ item ∈ ([] : List Item), item.isConfigure = false := fun _ h => absurd h List.not_mem_nil
  -- when no activity works, the actor changes at most itself and the store
  have hquiet : ∀ {sys₂ : ActorSystem} {τ : Store} {a₂ : Actor}, sys₁.Becomes n a₂ sys₂ → a₂.In σ →
      a₁.Does item τ.answers a₂ → (sys₂.Sound σ → sys₂.Sound τ) → s = (sys₂, τ) → Handles n a₁ item sys s := by
    intro sys₂ τ a₂ hbecomes hin₂ hdoes hτ hs
    subst hs
    refine ⟨hτ ((htook.trans hbecomes).sound hsound ha hin₂ (hlife.does htakes hdoes)), ?_, fun m hm => ⟨[], ?_⟩⟩
    · exact ⟨a₂, a₂, [], hdoes, .refl a₂, hbecomes.self, hempty⟩
    · rw [hbecomes.others m hm, htook.others m hm]
      exact .refl _
  -- and when one does, what it leads to is known
  have hworks : ∀ {sys₂ : ActorSystem} {act : Activity} {τ : Store} {a₂ : Actor}, sys₁.Becomes n a₂ sys₂ →
      sys₂.Sound τ → sys₂.Worked n act τ s → a₁.Does item [] a₂ →
      (∀ {υ : Store} {phase : Option Phase} {reply : Option Effect}, act.task.Ends υ phase reply →
        a₁.Does item act.task.owed (a₂.finish phase)) → Handles n a₁ item sys s := by
    intro sys₂ act τ a₂ hbecomes hτ hworked hgoes hends
    obtain ⟨hs, ⟨b, hb, hworks⟩, hothers⟩ := hworked.spec hτ hbecomes.self
    refine ⟨hs, ?_, fun m hm => ?_⟩
    · generalize s.2.answers = answers at hworks
      cases hworks with
      | stays hgets hitems => exact ⟨a₂, b, _, hgoes, hgets, hb, hitems⟩
      | ends hover hgets hitems => exact ⟨_, b, _, hends hover, hgets, hb, hitems⟩
    · rw [← htook.others m hm, ← hbecomes.others m hm]
      exact hothers m hm
  have hsame : sys₁.Becomes n a₁ sys₁ := .refl htook.self
  cases h with
  | absorbs hdeeds =>
    exact hquiet hsame hin₁ (hdeeds.answers.trans hlog ▸ .absorbs) (fun h => h.deeds hdeeds) rfl
  | @defers e _ hcall hbusy hbecomes =>
    exact hquiet hbecomes (hin₁.defers hitem) (hlog ▸ .defers hcall hbusy) id rfl
  | @answers v r t f τ haccepts hdeeds hf =>
    have hreply : Effect.In τ (.send r (.response (.failed f) t)) := ⟨hf, hdeeds.grows.term hitem.2⟩
    refine hquiet hsame hin₁ ?_ (fun h => (h.deeds hdeeds).evolve (.single (.table (.emit hreply))) (.emit τ rfl)) rfl
    rw [Store.answers_emit, hdeeds.answers, hlog]
    exact .answers haccepts
  | drops haccepts => exact hquiet hsame hin₁ (hlog ▸ .drops haccepts) id rfl
  | ignores hlate => exact hquiet hsame hin₁ (hlog ▸ .ignores hlate) id rfl
  | halts hbecomes => exact hquiet hbecomes hin₁.halts (hlog ▸ .halts) id rfl
  | begins hcause hdeeds htask hbecomes hwork =>
    have hbegun := SystemM.begin_sound hsound ha htakes htook hcause hdeeds htask hbecomes
    exact hworks hbecomes hbegun hwork (.begins hcause) fun hends => .beginsAndEnds hcause hends
  | resumes hact hwork =>
    have hresumed := htook.sound hsound ha hin₁ (hlife.takes htakes rfl)
    exact hworks hsame hresumed hwork (.goesOn hact) fun hends => .ends hact hends

end ActorSystem

end Dataflow
