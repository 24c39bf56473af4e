/-
Faulting: what an instruction leaves behind that ends with a fault.

Nothing takes back what an instruction has done when it faults, so what is left is decided by the order of its parts.
Nearly always the effect of an instruction comes last, after everything that can fault: an envelope is sent and a cell
is changed at the very end. Before that, an instruction allocates (`Store.Allocates`), and its last part that can fault
makes two terms equal, which may bind variables and then meet a conflict. What such an instruction leaves is therefore
an allocation and the beginning of one unification (`Store.Remains`), and a program sees none of it but the bindings
(`Store.Unseen`).

Two calls are not like that, because their effect is what gives them their result. `ActorCfg.spawn` has made the actor,
and an iterator has moved on, before the target is made equal to the result. These two are called by `Value.Acts`, and
`Context.execute_fault` says of them exactly what they leave.
-/
import Dataflow.Proofs.Replay

set_option autoImplicit false

namespace Dataflow

namespace Store

variable {σ τ ρ : Store} {f : Fault}

/-! ## What is left in the store -/

/-- `τ` is `σ` with more variables, which nothing waits for, with more objects and with more tokens minted. -/
structure Allocates (σ τ : Store) : Prop where
  vars : ∃ new : Array VarState, τ.vars = σ.vars ++ new ∧ ∀ s ∈ new, s = .unbound [] ∨ ∃ v, s = .bound v
  records : σ.records.toList <+: τ.records.toList
  closures : σ.closures.toList <+: τ.closures.toList
  configs : σ.configs.toList <+: τ.configs.toList
  cells : σ.cells.toList <+: τ.cells.toList
  iterators : σ.iterators.toList <+: τ.iterators.toList
  tokens : σ.tokens ≤ τ.tokens
  failures : τ.failures = σ.failures
  receivers : τ.receivers = σ.receivers
  addresses : τ.addresses = σ.addresses
  queues : τ.queues = σ.queues
  effects : τ.effects = σ.effects

/-- No actor has been made, nothing has been sent, and the cells and iterators are as they were; there may be more of
them. Computations may have been woken. -/
structure Unseen (σ τ : Store) : Prop where
  cells : σ.cells.toList <+: τ.cells.toList
  iterators : σ.iterators.toList <+: τ.iterators.toList
  receivers : τ.receivers = σ.receivers
  effects : ∃ ks : List Continuation,
    τ.effects = σ.effects ++ (ks.map fun k => Effect.wake k.resumer k.stack).toArray

/-- What a fault may leave behind: allocations, and what a unification has bound before it met the conflict that is the
fault. -/
def Remains (f : Fault) (σ τ : Store) : Prop :=
  σ.Allocates τ ∨ ∃ ρ a b, σ.Allocates ρ ∧ ρ.unify a b = (some f, τ)

namespace Allocates

/-- Nothing is allocated when nothing is done. -/
theorem refl (σ : Store) : σ.Allocates σ where
  vars := ⟨#[], by simp, fun s hs => absurd hs (Array.not_mem_empty s)⟩
  records := List.prefix_rfl
  closures := List.prefix_rfl
  configs := List.prefix_rfl
  cells := List.prefix_rfl
  iterators := List.prefix_rfl
  tokens := Nat.le_refl _
  failures := rfl
  receivers := rfl
  addresses := rfl
  queues := rfl
  effects := rfl

/-- What has been allocated one after the other is allocated together. -/
theorem trans (h : σ.Allocates τ) (h' : τ.Allocates ρ) : σ.Allocates ρ where
  vars := by
    obtain ⟨new, hnew, hstates⟩ := h.vars
    obtain ⟨newer, hnewer, hstates'⟩ := h'.vars
    refine ⟨new ++ newer, by rw [hnewer, hnew, Array.append_assoc], fun s hs => ?_⟩
    obtain hs | hs := Array.mem_append.mp hs
    · exact hstates s hs
    · exact hstates' s hs
  records := h.records.trans h'.records
  closures := h.closures.trans h'.closures
  configs := h.configs.trans h'.configs
  cells := h.cells.trans h'.cells
  iterators := h.iterators.trans h'.iterators
  tokens := h.tokens.trans h'.tokens
  failures := h'.failures.trans h.failures
  receivers := h'.receivers.trans h.receivers
  addresses := h'.addresses.trans h.addresses
  queues := h'.queues.trans h.queues
  effects := h'.effects.trans h.effects

/-- Padding is allocating. -/
theorem of_pads (h : σ.Pads τ) : σ.Allocates τ := by
  obtain ⟨values, records, rfl⟩ := h
  refine { refl σ with vars := ⟨_, rfl, fun s hs => ?_⟩, records := by simp }
  obtain ⟨v, -, rfl⟩ := Array.mem_map.mp hs
  exact .inr ⟨v, rfl⟩

theorem newVar (σ : Store) {s : VarState} (h : s = .unbound [] ∨ ∃ v, s = .bound v) : σ.Allocates (σ.newVar s).2 := by
  refine { refl σ with vars := ⟨#[s], by simp [Store.newVar], fun s' hs' => ?_⟩ }
  rw [Array.mem_singleton.mp hs']
  exact h

theorem newRecord (σ : Store) (r : Record) : σ.Allocates (σ.newRecord r).2 := of_pads (.newRecord σ r)

theorem newClosure (σ : Store) (c : Closure) : σ.Allocates (σ.newClosure c).2 :=
  { refl σ with closures := by simp [Store.newClosure] }

theorem newConfig (σ : Store) (c : ActorConfig) : σ.Allocates (σ.newConfig c).2 :=
  { refl σ with configs := by simp [Store.newConfig] }

theorem newCell (σ : Store) (t : Term) : σ.Allocates (σ.newCell t).2 :=
  { refl σ with cells := by simp [Store.newCell] }

theorem newIterator (σ : Store) (i : Iterator) : σ.Allocates (σ.newIterator i).2 :=
  { refl σ with iterators := by simp [Store.newIterator] }

theorem newToken (σ : Store) : σ.Allocates σ.newToken.2 :=
  { refl σ with tokens := Nat.le_succ _ }

theorem unseen (h : σ.Allocates τ) : σ.Unseen τ :=
  ⟨h.cells, h.iterators, h.receivers, [], by simp [h.effects]⟩

theorem remains (h : σ.Allocates ρ) (h' : ρ.Remains f τ) : σ.Remains f τ := by
  obtain h' | ⟨ρ', a, b, h', hunify⟩ := h'
  · exact .inl (h.trans h')
  · exact .inr ⟨ρ', a, b, h.trans h', hunify⟩

end Allocates

namespace Unseen

theorem refl (σ : Store) : σ.Unseen σ := (Allocates.refl σ).unseen

/-- Two unseen changes, one after the other, are unseen. -/
theorem trans (h : σ.Unseen τ) (h' : τ.Unseen ρ) : σ.Unseen ρ where
  cells := h.cells.trans h'.cells
  iterators := h.iterators.trans h'.iterators
  receivers := h'.receivers.trans h.receivers
  effects := by
    obtain ⟨ks, hks⟩ := h.effects
    obtain ⟨ks', hks'⟩ := h'.effects
    exact ⟨ks ++ ks', by rw [hks', hks, List.map_append, ← List.append_toArray, Array.append_assoc]⟩

/-- Binding a variable wakes what waited for it. -/
theorem assign (σ : Store) (x : VarId) (v : Value) : σ.Unseen (σ.assign x v) := by
  rw [assign_eq]
  exact ⟨List.prefix_rfl, List.prefix_rfl, rfl, σ.waiting x, rfl⟩

theorem merge (σ : Store) (x y : VarId) : σ.Unseen (σ.merge x y) :=
  ⟨List.prefix_rfl, List.prefix_rfl, rfl, [], by simp [Store.merge, Store.setVar]⟩

/-- Unification is not seen outside the variables and the log. -/
theorem unifyAll (room : Nat) (memo : PairMemo) (work : List (Term × Term)) (σ : Store) :
    σ.Unseen (Store.unifyAll room memo work σ).2 := by
  fun_induction Store.unifyAll room memo work σ with
  | case1 | case6 | case8 | case10 => exact .refl _
  -- two variables are merged, if they are two
  | case2 room memo a b rest σ x y hb ha ih =>
    simp only [dite_eq_ite] at ih
    refine trans ?_ ih
    split
    · exact .refl σ
    · exact .merge σ x y
  -- a variable is bound to the value of the other side
  | case3 room memo a b rest σ x v hb ha ih | case4 room memo a b rest σ v x hb ha ih =>
    exact (assign σ x v).trans ih
  | case5 room memo a b rest σ r s hb ha hmem ih => exact ih
  | case7 memo a b rest σ r s hb ha hmem _ _ hshape room ih => exact ih
  | case9 room memo a b rest σ v w hne hb ha hsame ih => exact ih

theorem unify (σ : Store) (a b : Term) : σ.Unseen (σ.unify a b).2 := unifyAll _ _ _ _

theorem unifyVars (σ : Store) (x y : VarId) : σ.Unseen (σ.unifyVars x y).2 := by
  rw [Store.unifyVars]
  split
  · exact .refl σ
  · exact .unify _ _ _

end Unseen

/-- What a fault may leave behind is no more than bindings for whoever looks. -/
theorem Remains.unseen (h : σ.Remains f τ) : σ.Unseen τ := by
  obtain h | ⟨ρ, a, b, h, hunify⟩ := h
  · exact h.unseen
  · have hτ : τ = (ρ.unify a b).2 := by rw [hunify]
    rw [hτ]
    exact h.unseen.trans (.unify ρ a b)

end Store

/-! ## Actions that keep their effects for the end -/

namespace Action

variable {α β : Type} {act : Action α} {f : α → Action β} {K : List Kind} {Q : α → Prop} {σ τ : Store}

/-- However it ends, the action only allocates. -/
def Allots (act : Action α) : Prop := ∀ σ,
  match act σ with
  | .ok _ τ | .error _ τ => σ.Allocates τ

/-- The action leaves the iterators as they were, and if it faults it leaves no more than any fault may. -/
def Tidy (act : Action α) (σ : Store) : Prop :=
  match act σ with
  | .ok _ τ | .error (.blocked _) τ => σ.iterators.toList <+: τ.iterators.toList
  | .error (.fault f) τ => σ.Remains f τ

/-- The action looks at the store and leaves it as it is. -/
def Looks (act : Action α) : Prop := ∀ σ,
  match act σ with
  | .ok _ τ | .error _ τ => τ = σ

/-! ## Allocating -/

theorem Idles.allots (h : act.Idles) : act.Allots := by
  intro σ
  have hact := h σ
  generalize act σ = result at hact ⊢
  cases result with
  | ok a τ => exact .of_pads hact
  | error e τ => exact .of_pads hact

theorem Allots.of_ok {a : α} (h : act.Allots) (heq : act σ = .ok a τ) : σ.Allocates τ := by
  have hact := h σ
  rw [heq] at hact
  exact hact

theorem Allots.of_error {e : Interrupt} (h : act.Allots) (heq : act σ = .error e τ) : σ.Allocates τ := by
  have hact := h σ
  rw [heq] at hact
  exact hact

/-- What follows need only allot for results that the first part can have. -/
theorem Allots.bind (h : act.Allots) (hf : ∀ a, (∃ σ τ, act σ = .ok a τ) → (f a).Allots) : (act >>= f).Allots := by
  intro σ
  rw [bind_apply]
  rcases heq : act σ with ⟨a, τ⟩ | ⟨e, τ⟩
  · have hnext := hf a ⟨σ, τ, heq⟩ τ
    dsimp only
    generalize f a τ = last at hnext ⊢
    cases last with
    | ok b ρ => exact (h.of_ok heq).trans hnext
    | error e ρ => exact (h.of_ok heq).trans hnext
  · exact h.of_error heq

/-- The kinds of steps that only allocate. -/
def allotKinds : List Kind := lookKinds ++ [.fresh, .closure, .object, .config]

/-- The steps that make something allot it. -/
theorem Step.allots {k : Kind} (h : Step k act) (hk : k ∈ allotKinds) : act.Allots := by
  rcases List.mem_append.mp hk with hlook | hmake
  · have huses : act.Uses lookKinds := .step hlook h fun _ _ _ _ => trivial
    exact (huses.idles rfl).allots
  -- the kinds that remain are those that make something
  · cases h with
    | fresh => exact fun σ => .newVar σ (.inl rfl)
    | closure c => exact fun σ => .newClosure σ c
    | cell t => exact fun σ => .newCell σ t
    | iterator i => exact fun σ => .newIterator σ i
    | token => exact fun σ => .newToken σ
    | config c => exact fun σ => .newConfig σ c
    | _ => exact absurd hmake (by decide)

theorem Composed.allots (h : act.Composed K Q) (hK : Kind.among K allotKinds = true) : act.Allots :=
  (h.within hK).holds ⟨fun _ σ => .refl σ, Allots.bind⟩ fun _ hk _ _ hs => hs.allots hk

theorem allots_complete (t : Term) : (complete t).Allots := (complete_uses t).allots rfl

/-! ## Tidiness -/

theorem Tidy.of_fault {g : Fault} (h : act.Tidy σ) (heq : act σ = .error (.fault g) τ) : σ.Remains g τ := by
  rw [Tidy, heq] at h
  exact h

/-- What only allocates is tidy, however it ends. -/
theorem Allots.tidy (h : act.Allots) (σ : Store) : act.Tidy σ := by
  have hact := h σ
  rw [Tidy]
  generalize act σ = result at hact ⊢
  rcases result with ⟨a, τ⟩ | ⟨x | f, τ⟩
  · exact hact.iterators
  · exact hact.iterators
  · exact .inl hact

/-- Allocating first does not change what a fault may leave. -/
theorem Allots.bind_tidy (h : act.Allots) (hf : ∀ a τ, act σ = .ok a τ → (f a).Tidy τ) : (act >>= f).Tidy σ := by
  have hact := h σ
  rw [Tidy, bind_apply]
  rcases heq : act σ with ⟨a, τ⟩ | ⟨x | g, τ⟩
  · have hnext := hf a τ heq
    rw [heq] at hact
    rw [Tidy] at hnext
    dsimp only at hact ⊢
    generalize f a τ = last at hnext ⊢
    rcases last with ⟨b, ρ⟩ | ⟨x | g, ρ⟩
    · exact hact.iterators.trans hnext
    · exact hact.iterators.trans hnext
    · exact hact.remains hnext
  · exact (h.of_error heq).iterators
  · exact .inl (h.of_error heq)

/-- What follows a tidy action must not do anything else. -/
theorem Tidy.bind_pure (h : act.Tidy σ) (g : α → β) : (act >>= fun a => pure (g a)).Tidy σ := by
  rw [Tidy] at h ⊢
  rw [bind_apply]
  generalize act σ = result at h ⊢
  rcases result with ⟨a, τ⟩ | ⟨x | f, τ⟩
  · exact h
  · exact h
  · exact h

/-- A change comes last, so there is nothing to say about it but that it moves no iterator. -/
theorem tidy_update {g : Store → Store} (h : ∀ σ, (g σ).iterators = σ.iterators) : (update g).Tidy σ := by
  show σ.iterators.toList <+: (g σ).iterators.toList
  rw [h]

/-- Unification is tidy: if it fails, it leaves what had been made equal by then, and nothing else. -/
theorem tidy_unify (a b : Term) : (unify a b).Tidy σ := by
  have hunseen := Store.Unseen.unify σ a b
  rw [Tidy, unify, ofChange]
  rcases h : σ.unify a b with ⟨_ | f, τ⟩
  · rw [h] at hunseen
    exact hunseen.iterators
  · exact .inr ⟨σ, a, b, .refl σ, h⟩

/-- Binding one variable to another is tidy. -/
theorem tidy_bindVar (x y : VarId) : (bindVar x y).Tidy σ := by
  have hunseen := Store.Unseen.unifyVars σ x y
  rw [bindVar, Tidy, ofChange]
  rcases h : σ.unifyVars x y with ⟨_ | f, τ⟩
  · rw [h] at hunseen
    exact hunseen.iterators
  · -- two variables with one representative are equal, and there is no conflict
    rw [Store.unifyVars] at h
    split at h
    · cases h
    · exact .inr ⟨σ, _, _, .refl σ, h⟩

/-- All changes that may be the last step of an instruction are tidy. -/
theorem Step.tidy {k : Kind} (h : Step k act) (hk : k ∈ changeKinds) : act.Tidy σ := by
  cases h with
  | unify a b => exact tidy_unify a b
  | bindVar x y => exact tidy_bindVar x y
  | setCell | send => exact tidy_update fun _ => rfl
  | _ => exact absurd hk (by decide)

theorem Makes.tidy (h : act.Makes false) : act.Tidy σ := by
  induction h generalizing σ with
  | uses h => exact (h.allots rfl).tidy σ
  | change h hk => exact h.tidy hk
  | seq h _ ih => exact (h.allots rfl).bind_tidy fun a τ heq => ih a (h.result heq)
  | andPure _ g ih => exact ih.bind_pure g

/-- **Whatever is phased and does not act is tidy.** -/
theorem Phased.tidy (h : act.Phased false) : act.Tidy σ := by
  induction h generalizing σ with
  | uses h => exact (h.allots rfl).tidy σ
  | makes h => exact h.tidy
  | seq h _ ih => exact (h.allots rfl).bind_tidy fun a τ heq => ih a (h.result heq)
  | andPure _ g ih => exact ih.bind_pure g

/-! ## Looking -/

theorem Looks.of_ok {a : α} (h : act.Looks) (heq : act σ = .ok a τ) : τ = σ := by
  have hact := h σ
  rw [heq] at hact
  exact hact

theorem Looks.of_error {e : Interrupt} (h : act.Looks) (heq : act σ = .error e τ) : τ = σ := by
  have hact := h σ
  rw [heq] at hact
  exact hact

/-- Actions that only look can be run one after the other. -/
theorem Looks.bind (h : act.Looks) (hf : ∀ a, (∃ σ τ, act σ = .ok a τ) → (f a).Looks) : (act >>= f).Looks := by
  intro σ
  rw [bind_apply]
  rcases heq : act σ with ⟨a, τ⟩ | ⟨e, τ⟩
  · obtain rfl := h.of_ok heq
    exact hf a ⟨τ, τ, heq⟩ τ
  · exact h.of_error heq

/-- What follows a look starts from the same store and from what has been seen there. -/
theorem Looks.bind_tidy (h : act.Looks) (hf : ∀ a, act σ = .ok a σ → (f a).Tidy σ) : (act >>= f).Tidy σ := by
  rw [Tidy, bind_apply]
  rcases heq : act σ with ⟨a, τ⟩ | ⟨x | g, τ⟩
  · obtain rfl := h.of_ok heq
    exact hf a heq
  · obtain rfl := h.of_error heq
    exact List.prefix_rfl
  · obtain rfl := h.of_error heq
    exact .inl (.refl τ)

theorem Step.looks {k : Kind} (h : Step k act) (hk : k ∈ [.missing, .fault, .text, .wait, .ask]) : act.Looks := by
  cases h with
  | missing | fault | noMatch | notAProc | mismatch | wait | ask => exact fun _ => rfl
  | component v g =>
    intro σ
    rw [bind_apply]
    dsimp only [read]
    cases σ.select v g <;> rfl
  | _ => exact absurd hk (by decide)

theorem Composed.looks (h : act.Composed K Q) (hK : Kind.among K [.missing, .fault, .text, .wait, .ask] = true) :
    act.Looks :=
  (h.within hK).holds ⟨fun _ _ => rfl, Looks.bind⟩ fun _ hk _ _ hs => hs.looks hk

theorem looks_pure (a : α) : (pure a : Action α).Looks := fun _ => rfl

theorem looks_read (g : Store → α) : (read g).Looks := fun _ => rfl

end Action

theorem Operand.looks_term (env : Env) (a : Operand) : (a.term env).Looks := (a.uses_term env).looks rfl

theorem Operand.looks_value (env : Env) (a : Operand) : (a.value env).Looks := (a.uses_value env).looks rfl

theorem Env.looks_select (env : Env) (record feature : Operand) : (env.select record feature).Looks :=
  (env.uses_select record feature).looks rfl

/-! ## What an instruction calls -/

/-- The value that an instruction calls, and the arguments that it calls it with. -/
inductive Instr.Calls (env : Env) (σ : Store) : Instr → Value → List Operand → Prop where
  | apply {proc : Operand} {args : List Operand} {v : Value} (h : proc.value env σ = .ok v σ) :
      Calls env σ (.apply proc args) v args
  | selectApply {record feature : Operand} {args : List Operand} {t : Term} {v : Value}
      (h : env.select record feature σ = .ok t σ) (hv : σ.resolve t = .val v) :
      Calls env σ (.selectApply record feature args) v args

/-- What an instruction that calls a value does is what the call does. -/
theorem Context.execute_of_calls (ctx : Context) {env : Env} (rest : Stack) {σ : Store} {instr : Instr} {v : Value}
    {args : List Operand} (h : instr.Calls env σ v args) :
    ctx.execute env rest instr σ = (v.call ctx env args rest >>= fun stack => pure (Flow.next stack)) σ := by
  cases h with
  | apply h =>
    rw [Context.execute, bind_apply, h]
  | selectApply h hv =>
    rw [Context.execute, bind_apply, h]
    simp only [bind_apply, Action.read, hv]

/-! ## Instructions -/

section Instructions

variable {ctx : Context} {env : Env} {rest : Stack} {instr : Instr} {σ τ : Store} {f : Fault}

/-- An instruction that makes no call with an effect of its own is tidy. -/
theorem Context.tidy_execute (ctx : Context) (rest : Stack) (h : ∀ v args, instr.Calls env σ v args → ¬ v.Acts args) :
    (ctx.execute env rest instr).Tidy σ := by
  -- a call that does not act on the iterator or the spawner leaves nothing behind
  have hcall : ∀ {v : Value} {args : List Operand}, ¬ v.Acts args →
      (v.call ctx env args rest >>= fun stack => pure (Flow.next stack)).Tidy σ := fun {v args} hv =>
    ((Value.phased_call ctx env rest fun hacts => absurd hacts hv).andPure _).tidy
  have hplain : instr.Plain → (ctx.execute env rest instr).Tidy σ := fun hplain =>
    (ctx.phased_execute env rest instr fun _ => hplain).tidy
  -- only calls can act: the other instructions are plain
  cases instr with
  | apply proc args => exact (proc.looks_value env).bind_tidy fun v hv => hcall (h v args (.apply hv))
  | selectApply record feature args =>
    refine (env.looks_select record feature).bind_tidy fun t ht => ?_
    refine (Action.looks_read _).bind_tidy fun u hu => ?_
    cases u with
    -- a call of what the feature selects, which must be known
    | var x => exact Action.Phased.tidy (.uses (Action.Step.uses (.wait x) rfl))
    | val v =>
      have hres : σ.resolve t = .val v := by
        injection hu
      exact hcall (h v args (.selectApply ht hres))
  | throw value => exact ((ctx.uses_execute env rest (.throw value)).allots rfl).tidy σ
  | _ => exact hplain trivial

/-! ## The two calls with an effect of their own -/

/-- Making an actor is refused, or announces it and leaves cells and iterators alone. -/
theorem Context.spawn_cases (ctx : Context) (k : ConfigId) (σ : Store) :
    (∃ g, ctx.spawn k σ = .error (.fault g) σ) ∨
      ∃ child τ, ctx.spawn k σ = .ok child τ ∧ τ.iterators = σ.iterators ∧ τ.cells = σ.cells ∧
        τ.effects = σ.effects.push (.spawn child ctx.owner k) := by
  unfold Context.spawn
  cases ctx.spawner with
  | absent => exact .inl ⟨_, rfl⟩
  | refusing reason => exact .inl ⟨_, rfl⟩
  | recording => exact .inr ⟨_, _, rfl, rfl, rfl, rfl⟩
  | system => exact .inr ⟨_, _, rfl, rfl, rfl, rfl⟩

/-- An action that faulted, taken apart: its first part faulted, or what follows did. -/
theorem Action.bind_eq_fault {α β : Type} {act : Action α} {g : α → Action β}
    (h : (act >>= g) σ = .error (.fault f) τ) :
    act σ = .error (.fault f) τ ∨ ∃ a ρ, act σ = .ok a ρ ∧ g a ρ = .error (.fault f) τ := by
  rw [bind_apply] at h
  split at h
  · next a ρ hact => exact .inr ⟨a, ρ, hact, h⟩
  · next e ρ hact =>
    cases h
    exact .inl hact

/-- If the first part only looks at the store, then what follows did in the same store. -/
theorem Action.Looks.bind_eq_fault {α β : Type} {act : Action α} {g : α → Action β} (h : act.Looks)
    (heq : (act >>= g) σ = .error (.fault f) τ) :
    act σ = .error (.fault f) τ ∨ ∃ a, act σ = .ok a σ ∧ g a σ = .error (.fault f) τ := by
  obtain hfault | ⟨a, ρ, ha, hnext⟩ := Action.bind_eq_fault heq
  · exact .inl hfault
  · obtain rfl := h.of_ok ha
    exact .inr ⟨a, ha, hnext⟩

/-- What a fault of `ActorCfg.spawn` leaves: as little as any fault, or the actor and what delivering it has bound. -/
theorem Native.spawn_fault {config target : Operand}
    (h : Native.spawn.call ctx env [config, target] σ = .error (.fault f) τ) :
    σ.Remains f τ ∨ ∃ k ρ child ρ', config.value env σ = .ok (.config k) σ ∧ σ.Allocates ρ ∧
      ctx.spawn k ρ = .ok child ρ' ∧ ρ'.iterators = ρ.iterators ∧ ρ'.cells = ρ.cells ∧
      ρ'.effects = σ.effects.push (.spawn child ctx.owner k) ∧
      target.deliver env (.obj (.actor child)) ρ' = .error (.fault f) τ := by
  -- faults by place: the value, its completeness, and what comes after the child was made
  obtain hvalue | ⟨v, hv, hnext⟩ := (config.looks_value env).bind_eq_fault h
  · exact .inl ((((config.uses_value env).allots rfl).tidy σ).of_fault hvalue)
  · cases v with
    | config k =>
      obtain hcomplete | ⟨w, ρ', hw, hmake⟩ := Action.bind_eq_fault hnext
      · exact .inl (((Action.allots_complete _).tidy σ).of_fault hcomplete)
      · have halloc := (Action.allots_complete _).of_ok hw
        obtain ⟨g, hg⟩ | ⟨child, ρ'', hspawn, hiterators, hcells, heffects⟩ := ctx.spawn_cases k ρ'
        · rw [bind_apply, hg] at hmake
          cases hmake
          exact .inl (.inl halloc)
        · rw [bind_apply, hspawn] at hmake
          rw [halloc.effects] at heffects
          exact .inr ⟨k, ρ', child, ρ'', hv, halloc, hspawn, hiterators, hcells, heffects, hmake⟩
    -- what is no configuration is a mismatch
    | _ =>
      cases hnext
      exact .inl (.inl (.refl σ))

/-- The store after an iterator has moved on by one field. -/
def Store.advance (σ : Store) (i : IterId) : Store :=
  σ.setIterator i { σ.iterator i with position := (σ.iterator i).position + 1 }

/-- An item of an iterator is a value that there is, or a new pair. -/
theorem Iterator.item_allocates (it : Iterator) (field : Field) (σ : Store) : σ.Allocates (it.item field σ).2 := by
  unfold Iterator.item
  cases it.kind with
  | values => exact .refl σ
  | fields => exact .newRecord σ _

/-- An iterator with no field left stays where it is; otherwise it moves on and may make a pair. -/
theorem Store.nextItem_cases (σ : Store) (i : IterId) :
    (σ.record (σ.iterator i).record).count ≤ (σ.iterator i).position ∧ σ.nextItem i = (.val (.lit .eof), σ) ∨
      (σ.iterator i).position < (σ.record (σ.iterator i).record).count ∧
        (σ.advance i).Allocates (σ.nextItem i).2 := by
  unfold Store.nextItem Record.count
  dsimp only
  cases hfield : (σ.record (σ.iterator i).record).fields[(σ.iterator i).position]? with
  | none => exact .inl ⟨List.getElem?_eq_none_iff.mp hfield, rfl⟩
  | some field =>
    exact .inr ⟨(List.getElem?_eq_some_iff.mp hfield).1, Iterator.item_allocates _ _ _⟩

/-- What a fault of an iterator leaves: as little as any fault, or the iterator has moved on as well. -/
theorem Proc.next_fault (ctx : Context) {i : IterId} {target : Operand}
    (h : (Proc.iter i).call ctx env [target] rest σ = .error (.fault f) τ) :
    σ.Remains f τ ∨
      (σ.iterator i).position < (σ.record (σ.iterator i).record).count ∧ (σ.advance i).Remains f τ := by
  simp only [Proc.call] at h
  obtain hterm | ⟨t, -, hnext⟩ := (target.looks_term env).bind_eq_fault h
  · exact .inl ((((target.uses_term env).allots rfl).tidy σ).of_fault hterm)
  · obtain htake | ⟨item, ρ', hitem, hunify⟩ := Action.bind_eq_fault hnext
    · cases htake
    · cases hitem
      have hremains : (σ.nextItem i).2.Remains f τ :=
        ((Action.tidy_unify t _).bind_pure fun _ => rest).of_fault hunify
      obtain ⟨-, hend⟩ | ⟨hlt, halloc⟩ := σ.nextItem_cases i
      · rw [hend] at hremains
        exact .inl hremains
      · exact .inr ⟨hlt, halloc.remains hremains⟩

/-- **What a faulting instruction leaves behind**: allocations, minted tokens, and what one unification has bound before
it met its conflict. No envelope has been sent, no cell changed, no actor made and no iterator moved, but for two calls
whose own effect comes before the result is delivered: an iterator that has a field left has moved on by one, and
`ActorCfg.spawn` has made the one actor whose reference could not be delivered. -/
theorem Context.execute_fault (h : ctx.execute env rest instr σ = .error (.fault f) τ) :
    (σ.Unseen τ ∧ σ.Remains f τ) ∨
      (∃ i target, instr.Calls env σ (.proc (.iter i)) [target] ∧
        (σ.iterator i).position < (σ.record (σ.iterator i).record).count ∧
        (σ.advance i).Unseen τ ∧ (σ.advance i).Remains f τ) ∨
      ∃ config target k ρ child ρ', instr.Calls env σ (.proc (.native .spawn)) [config, target] ∧
        config.value env σ = .ok (.config k) σ ∧ σ.Allocates ρ ∧ ctx.spawn k ρ = .ok child ρ' ∧
        ρ'.iterators = ρ.iterators ∧ ρ'.cells = ρ.cells ∧ ρ'.effects = σ.effects.push (.spawn child ctx.owner k) ∧
        target.deliver env (.obj (.actor child)) ρ' = .error (.fault f) τ ∧ ρ'.Unseen τ ∧ ρ'.Remains f τ := by
  -- only an iterator and the spawner act before they deliver
  by_cases hacts : ∃ v args, instr.Calls env σ v args ∧ v.Acts args
  · obtain ⟨v, args, hcalls, hv⟩ := hacts
    rw [ctx.execute_of_calls rest hcalls] at h
    obtain h | ⟨stack, ρ, -, h⟩ := Action.bind_eq_fault h
    · cases hv with
      | next i target =>
        -- the end of the walk delivers without having moved
        obtain hremains | ⟨hlt, hremains⟩ := Proc.next_fault ctx h
        · exact .inl ⟨hremains.unseen, hremains⟩
        · exact .inr (.inl ⟨i, target, hcalls, hlt, hremains.unseen, hremains⟩)
      | spawn config target =>
        obtain h | ⟨_, ρ, -, h⟩ := Action.bind_eq_fault h
        · obtain hremains | ⟨k, ρ, child, ρ', hk, halloc, hspawn, hiterators, hcells, heffects, hdeliver⟩ :=
            Native.spawn_fault h
          · exact .inl ⟨hremains.unseen, hremains⟩
          · have hremains := (target.makes_deliver env (.obj (.actor child))).tidy.of_fault hdeliver
            exact .inr (.inr ⟨config, target, k, ρ, child, ρ', hcalls, hk, halloc, hspawn, hiterators, hcells, heffects,
              hdeliver, hremains.unseen, hremains⟩)
        · cases h
    · cases h
  · have htidy := ctx.tidy_execute rest fun v args hcalls hv => hacts ⟨v, args, hcalls, hv⟩
    have hremains := htidy.of_fault h
    exact .inl ⟨hremains.unseen, hremains⟩

end Instructions

/-! ## Faults at a target that has a value -/

theorem Operand.term_of_bound {env : Env} {σ : Store} {a : Ident} {x : VarId} {v : Value} (ha : env.find? a = some x)
    (hx : σ.vars[x]? = some (.bound v)) : (Operand.ident a).term env σ = .ok (.val v) σ := by
  rw [← Store.resolveVar_of_getElem? hx]
  simp only [term, Env.var, ha, bind_apply, pure, EStateM.pure, Action.read]

/-- A number is never made equal to something else. -/
theorem Action.unify_num {σ : Store} {a : Term} {n : Num} {w : Value} (ha : σ.resolve a = .val (.num n))
    (h : (Value.num n).sameAtom w = false) :
    Action.unify a (.val w) σ = .error (.fault (.conflict σ (.num n) w)) σ := by
  have hw : σ.resolve (.val w) = .val w := rfl
  simp [unify, ofChange, Store.unify, Store.unifyAll, ha, hw, h]

/-- A configuration is complete if the closure of its handlers captured nothing. -/
theorem Action.complete_config_of_captures {σ : Store} {k : ConfigId} (h : (σ.closure (σ.config k).handlers).env = []) :
    complete (.val (.config k)) σ = .ok (.config k) σ := by
  let depth := σ.records.size + σ.closures.size
  let entered : Completed := { closures := ({} : Completed).closures.insert (σ.config k).handlers (.config k) }
  have hnone : ({} : Completed).closures[(σ.config k).handlers]? = none := by simp
  have hget : ∀ f : Completed → Completer Value, (get >>= f) {} = f {} {} := fun _ => rfl
  have hclosure : Completer.closure (Completer.term depth) (.config k) (σ.config k).handlers {} σ =
      .ok (.config k, entered) σ := by
    rw [Completer.closure, hget, hnone]
    show (Completer.captures (Completer.term depth) (σ.closure (σ.config k).handlers).env >>= fun _ =>
      pure (Value.config k)) entered σ = _
    rw [h]
    rfl
  show (Prod.fst <$> Completer.closure (Completer.term depth) (.config k) (σ.config k).handlers {} : Action Value) σ = _
  simp only [Functor.map, EStateM.map, hclosure]

/-- A tuple that is to be bound to a variable with another value has been made when the conflict is found. -/
theorem Context.execute_fault_tuple :
    let ctx : Context := { owner := "main", resumer := .queue 0 }
    let env : Env := [("x", 0)]
    let σ : Store := { vars := #[.bound (.num (.int32 5))] }
    let τ : Store := { σ with records := #[.tuple .null [.val (.num (.int32 1))]] }
    ∃ f, ctx.execute env [] (.createTuple "x" none [.lit (.num (.int32 1))]) σ = .error (.fault f) τ ∧
      σ.Unseen τ ∧ σ.Remains f τ := by
  intro ctx env σ τ
  have hunify : Action.unify (.var 0) (.val (.record 0)) τ =
      .error (.fault (.conflict τ (.num (.int32 5)) (.record 0))) τ :=
    Action.unify_num (Store.resolveVar_of_getElem? rfl) rfl
  have h : ctx.execute env [] (.createTuple "x" none [.lit (.num (.int32 1))]) σ =
      .error (.fault (.conflict τ (.num (.int32 5)) (.record 0))) τ := by
    have hmade : (Action.take fun σ => σ.newRecord (.tuple .null [.val (.num (.int32 1))])) σ = .ok 0 τ := rfl
    have hlabel : env.label none σ = .ok .null σ := rfl
    have hterms : Operand.terms env [.lit (.num (.int32 1))] σ = .ok [.val (.num (.int32 1))] σ := rfl
    have hbind : env.bind "x" (.record 0) τ = .error (.fault (.conflict τ (.num (.int32 5)) (.record 0))) τ := hunify
    simp only [execute, bind_apply, hlabel, hterms, hmade, hbind]
  refine ⟨_, h, ?_⟩
  -- the instruction is neither of the two that act
  obtain hleft | ⟨i, target, hcalls, -⟩ | ⟨config, target, k, ρ, child, ρ', hcalls, -⟩ := execute_fault h
  · exact hleft
  · cases hcalls
  · cases hcalls

/-- The two calls do act before they fault, so that a fault may leave more than bindings: an iterator has moved on from
the field that its caller did not get, and an actor has been made to which nobody has a reference. -/
theorem Context.execute_fault_acts :
    let ctx : Context := { owner := "main", spawner := .recording, resumer := .queue 0 }
    let walking : Store :=
      { vars := #[.bound (.num (.int32 5)), .bound (.proc (.iter 0))]
        records := #[⟨.null, [⟨.str "a", .val (.num (.int32 1))⟩]⟩]
        iterators := #[⟨0, .values, 0⟩] }
    let making : Store :=
      { vars := #[.bound (.num (.int32 5)), .bound (.proc (.native .spawn)), .bound (.config 0)]
        closures := #[⟨⟨[], .skip⟩, []⟩]
        configs := #[⟨[], 0⟩] }
    (∃ f τ, ctx.execute [("x", 0), ("next", 1)] [] (.apply (.ident "next") [.ident "x"]) walking = .error (.fault f) τ ∧
      τ.iterators = #[⟨0, .values, 1⟩] ∧ ¬ walking.Unseen τ) ∧
    ∃ f τ, ctx.execute [("x", 0), ("spawn", 1), ("k", 2)] [] (.apply (.ident "spawn") [.ident "k", .ident "x"]) making =
        .error (.fault f) τ ∧
      τ.effects = #[.spawn ⟨.recorder 0, "main/child"⟩ "main" 0] ∧ ¬ making.Unseen τ := by
  intro ctx walking making
  -- the iterator has moved on although its item was not taken
  let moved : Store := { walking with iterators := #[⟨0, .values, 1⟩] }
  have hnext : ctx.execute [("x", 0), ("next", 1)] [] (.apply (.ident "next") [.ident "x"]) walking =
      .error (.fault (.conflict moved (.num (.int32 5)) (.num (.int32 1)))) moved := by
    have hcalls : Instr.Calls [("x", 0), ("next", 1)] walking (.apply (.ident "next") [.ident "x"]) (.proc (.iter 0))
        [.ident "x"] := .apply (Operand.value_of_val rfl (Store.resolveVar_of_getElem? rfl) nofun)
    have htarget : (Operand.ident "x").term [("x", 0), ("next", 1)] walking = .ok (.val (.num (.int32 5))) walking :=
      Operand.term_of_bound rfl rfl
    have htake : (Action.take fun σ => σ.nextItem 0) walking = .ok (.val (.num (.int32 1))) moved := rfl
    have hunify : Action.unify (.val (.num (.int32 5))) (.val (.num (.int32 1))) moved =
        .error (.fault (.conflict moved (.num (.int32 5)) (.num (.int32 1)))) moved := Action.unify_num rfl rfl
    rw [ctx.execute_of_calls [] hcalls]
    simp only [Value.call, Proc.call, bind_apply, htarget, htake, hunify]
  -- the child was made although its name was not delivered
  let child : ActorRef := ⟨.recorder 0, "main/child"⟩
  let made : Store := { making with receivers := 1, effects := #[.spawn child "main" 0] }
  have hspawn : ctx.execute [("x", 0), ("spawn", 1), ("k", 2)] [] (.apply (.ident "spawn") [.ident "k", .ident "x"])
      making = .error (.fault (.conflict made (.num (.int32 5)) (.obj (.actor child)))) made := by
    have hcalls : Instr.Calls [("x", 0), ("spawn", 1), ("k", 2)] making
        (.apply (.ident "spawn") [.ident "k", .ident "x"]) (.proc (.native .spawn)) [.ident "k", .ident "x"] :=
      .apply (Operand.value_of_val rfl (Store.resolveVar_of_getElem? rfl) nofun)
    have hconfig : (Operand.ident "k").value [("x", 0), ("spawn", 1), ("k", 2)] making = .ok (.config 0) making :=
      Operand.value_of_val rfl (Store.resolveVar_of_getElem? rfl) nofun
    have hcomplete : Action.complete (.val (.config 0)) making = .ok (.config 0) making := by
      exact Action.complete_config_of_captures rfl
    have hmake : ctx.spawn 0 making = .ok child made := by
      rfl
    have htarget : (Operand.ident "x").term [("x", 0), ("spawn", 1), ("k", 2)] made =
        .ok (.val (.num (.int32 5))) made := Operand.term_of_bound rfl rfl
    have hunify : Action.unify (.val (.num (.int32 5))) (.val (.obj (.actor child))) made =
        .error (.fault (.conflict made (.num (.int32 5)) (.obj (.actor child)))) made := Action.unify_num rfl rfl
    rw [ctx.execute_of_calls [] hcalls]
    simp only [Value.call, Proc.call, Native.call, Operand.deliver, bind_apply, hconfig, hcomplete, hmake, htarget,
      hunify]
  refine ⟨⟨_, moved, hnext, rfl, fun h => ?_⟩, _, made, hspawn, rfl, fun h => ?_⟩
  · have heq := h.iterators.eq_of_length rfl
    cases heq
  · cases h.receivers

end Dataflow
