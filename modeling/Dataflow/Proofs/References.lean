/-
References: everything that a store holds leads to something in the store.

Values are flat and carry numbers where they refer to variables, records, closures and so on, so a number
could in principle lead nowhere. `In σ` says of each kind of data that all of its numbers are in use in `σ`,
and a store is `Closed` if that is true of everything in it, of the computations that wait for variables and
of the effects that have not been taken yet.

Stores grow: variables, cells and iterators are never removed, and records, closures, configurations and
failures never change either. What is in a store is therefore in every store that it grows to, which is the
whole argument of `Closed.of_grows`: only what an operation adds has to be looked at.
-/
import Dataflow.Proofs.Representative
import Dataflow.Machine.Call

set_option autoImplicit false

namespace Dataflow

/-! ## Being in a store -/

/-- The procedure is in the store. -/
def Proc.In (σ : Store) : Proc → Prop
  | .closure c | .actorMaker c => c < σ.closures.size
  | .ofCell c _ => c < σ.cells.size
  | .iter i => i < σ.iterators.size
  | .native _ | .ofActor _ _ => True

/-- What the value refers to is in the store. -/
def Value.In (σ : Store) : Value → Prop
  | .record r => r < σ.records.size
  | .obj (.cell c) => c < σ.cells.size
  | .proc p => p.In σ
  | .config k => k < σ.configs.size
  | .failed f => f < σ.failures.size
  | .lit _ | .num _ | .obj (.actor _) => True

/-- What the term refers to is in the store. -/
def Term.In (σ : Store) : Term → Prop
  | .val v => v.In σ
  | .var x => x < σ.vars.size

/-- The term is what resolving leaves: a value of the store or an unbound variable. -/
def Term.Resolved (σ : Store) : Term → Prop
  | .val v => v.In σ
  | .var x => σ.Unbound x

/-- The variables of the scope are in the store. -/
def Env.In (σ : Store) (env : Env) : Prop := ∀ p ∈ env, p.2 < σ.vars.size

/-- The scope of the frame is in the store. -/
def Frame.In (σ : Store) : Frame → Prop
  | .run _ env | .trap _ _ env => Env.In σ env

/-- The scopes of the computation are in the store. -/
def Stack.In (σ : Store) (stack : Stack) : Prop := ∀ f ∈ stack, f.In σ

/-- The scopes of the waiting computation are in the store. -/
def Continuation.In (σ : Store) (k : Continuation) : Prop := Stack.In σ k.stack

/-- What the state of variable `x` refers to is in the store; a link leads to a younger variable. -/
def VarState.In (σ : Store) (x : Nat) : VarState → Prop
  | .unbound ks => ∀ k ∈ ks, k.In σ
  | .bound v => v.In σ
  | .link y => x < y ∧ y < σ.vars.size

/-- The values of the record are in the store. -/
def Record.In (σ : Store) (r : Record) : Prop := ∀ f ∈ r.fields, f.value.In σ

/-- The captured variables of the closure are in the store. -/
def Closure.In (σ : Store) (c : Closure) : Prop := Env.In σ c.env

/-- The arguments and the handlers of the configuration are in the store. -/
def ActorConfig.In (σ : Store) (c : ActorConfig) : Prop :=
  (∀ v ∈ c.args, v.In σ) ∧ c.handlers < σ.closures.size

/-- The thrown value of the failure is in the store. -/
def Failure.In (σ : Store) (f : Failure) : Prop := f.error.In σ

/-- The record of the iterator is in the store. -/
def Iterator.In (σ : Store) (i : Iterator) : Prop := i.record < σ.records.size

/-- What the envelope carries is in the store. -/
def Envelope.In (σ : Store) : Envelope → Prop
  | .request v _ t => v.In σ ∧ t.In σ
  | .notify v => v.In σ
  | .response v t => v.In σ ∧ t.In σ

/-- What the effect refers to is in the store. -/
def Effect.In (σ : Store) : Effect → Prop
  | .wake _ stack => Stack.In σ stack
  | .send _ e => e.In σ
  | .spawn _ _ k => k < σ.configs.size

/-- The variable that a step waits for is unbound. -/
def Interrupt.In (σ : Store) : Interrupt → Prop
  | .blocked x => σ.Unbound x
  | .fault _ => True

theorem Term.Resolved.isIn {σ : Store} {t : Term} (h : t.Resolved σ) : t.In σ := by
  cases t with
  | val v => exact h
  | var x => exact h.lt_size

namespace Store

/-- Nothing in the store leads nowhere. -/
structure Closed (σ : Store) : Prop where
  vars : ∀ (x : Nat) s, σ.vars[x]? = some s → s.In σ x
  records : ∀ r ∈ σ.records, r.In σ
  closures : ∀ c ∈ σ.closures, c.In σ
  configs : ∀ c ∈ σ.configs, c.In σ
  failures : ∀ f ∈ σ.failures, f.In σ
  cells : ∀ t ∈ σ.cells, t.In σ
  iterators : ∀ i ∈ σ.iterators, i.In σ
  effects : ∀ e ∈ σ.effects, e.In σ

/-- `τ` has everything that `σ` has: variables, cells and iterators perhaps in another state, the rest as it
was. -/
structure Grows (σ τ : Store) : Prop where
  vars : σ.vars.size ≤ τ.vars.size
  records : ∀ (i : Nat) r, σ.records[i]? = some r → τ.records[i]? = some r
  closures : ∀ (i : Nat) c, σ.closures[i]? = some c → τ.closures[i]? = some c
  configs : ∀ (i : Nat) c, σ.configs[i]? = some c → τ.configs[i]? = some c
  failures : ∀ (i : Nat) f, σ.failures[i]? = some f → τ.failures[i]? = some f
  cells : σ.cells.size ≤ τ.cells.size
  iterators : σ.iterators.size ≤ τ.iterators.size

namespace Grows

variable {σ τ ρ : Store}

theorem refl (σ : Store) : σ.Grows σ :=
  ⟨Nat.le_refl _, fun _ _ h => h, fun _ _ h => h, fun _ _ h => h, fun _ _ h => h, Nat.le_refl _,
    Nat.le_refl _⟩

/-- Growing once and then once more is growing. -/
theorem trans (h₁ : σ.Grows τ) (h₂ : τ.Grows ρ) : σ.Grows ρ where
  vars := Nat.le_trans h₁.vars h₂.vars
  records i r h := h₂.records i r (h₁.records i r h)
  closures i c h := h₂.closures i c (h₁.closures i c h)
  configs i c h := h₂.configs i c (h₁.configs i c h)
  failures i f h := h₂.failures i f (h₁.failures i f h)
  cells := Nat.le_trans h₁.cells h₂.cells
  iterators := Nat.le_trans h₁.iterators h₂.iterators

/-- An array that keeps its items does not get smaller. -/
private theorem lt_size {α : Type} {a b : Array α} (h : ∀ (i : Nat) x, a[i]? = some x → b[i]? = some x)
    {i : Nat} (hi : i < a.size) : i < b.size :=
  (Array.getElem?_eq_some_iff.mp (h i _ (Array.getElem?_eq_getElem hi))).1

/-! ## What is in a store stays in it -/

theorem proc (h : σ.Grows τ) {p : Proc} (hp : p.In σ) : p.In τ := by
  cases p with
  | closure c | actorMaker c => exact lt_size h.closures hp
  | ofCell c _ => exact Nat.lt_of_lt_of_le hp h.cells
  | iter i => exact Nat.lt_of_lt_of_le hp h.iterators
  | native _ | ofActor _ _ => trivial

/-- A value of a store is a value of every store that it grows into. -/
theorem value (h : σ.Grows τ) {v : Value} (hv : v.In σ) : v.In τ := by
  cases v with
  | record r => exact lt_size h.records hv
  | obj o =>
    cases o with
    | cell c => exact Nat.lt_of_lt_of_le hv h.cells
    | actor a => trivial
  | proc p => exact h.proc hv
  | config k => exact lt_size h.configs hv
  | failed f => exact lt_size h.failures hv
  | lit _ | num _ => trivial

theorem term (h : σ.Grows τ) {t : Term} (ht : t.In σ) : t.In τ := by
  cases t with
  | val v => exact h.value ht
  | var x => exact Nat.lt_of_lt_of_le ht h.vars

theorem env (h : σ.Grows τ) {env : Env} (henv : env.In σ) : env.In τ :=
  fun p hp => Nat.lt_of_lt_of_le (henv p hp) h.vars

/-- A computation of a store is one of every store that it grows into. -/
theorem stack (h : σ.Grows τ) {stack : Stack} (hstack : stack.In σ) : stack.In τ := by
  intro f hf
  have hin := hstack f hf
  cases f with
  | run _ env | trap _ _ env => exact h.env hin

/-- The state of a variable is still one for it, since links go on to lead up. -/
theorem varState (h : σ.Grows τ) {x : Nat} {s : VarState} (hs : s.In σ x) : s.In τ x := by
  cases s with
  | unbound ks => exact fun k hk => h.stack (hs k hk)
  | bound v => exact h.value hs
  | link y => exact ⟨hs.1, Nat.lt_of_lt_of_le hs.2 h.vars⟩

theorem record (h : σ.Grows τ) {r : Record} (hr : r.In σ) : r.In τ := fun f hf => h.term (hr f hf)

theorem config (h : σ.Grows τ) {c : ActorConfig} (hc : c.In σ) : c.In τ :=
  ⟨fun v hv => h.value (hc.1 v hv), lt_size h.closures hc.2⟩

theorem iterator (h : σ.Grows τ) {i : Iterator} (hi : i.In σ) : i.In τ := lt_size h.records hi

theorem envelope (h : σ.Grows τ) {e : Envelope} (he : e.In σ) : e.In τ := by
  cases e with
  | request v _ t | response v t => exact ⟨h.value he.1, h.term he.2⟩
  | notify v => exact h.value he

/-- An effect of a store is one of every store that it grows into. -/
theorem effect (h : σ.Grows τ) {e : Effect} (he : e.In σ) : e.In τ := by
  cases e with
  | wake _ stack => exact h.stack he
  | send _ e => exact h.envelope he
  | spawn _ _ k => exact lt_size h.configs he

/-- Records stay as they are. -/
theorem record_eq (h : σ.Grows τ) {r : RecordId} (hr : r < σ.records.size) : τ.record r = σ.record r := by
  have hold : σ.records[r]? = some σ.records[r] := Array.getElem?_eq_getElem hr
  rw [Store.record, Store.record, Array.getD_eq_getD_getElem?, Array.getD_eq_getD_getElem?, hold,
    h.records r _ hold]

end Grows

/-- Everything in `τ` was in the same table of `σ` or is in the store `τ`. A table that did not change needs
no argument. -/
structure Adds (σ τ : Store) : Prop where
  vars : ∀ (x : Nat) s, τ.vars[x]? = some s → σ.vars[x]? = some s ∨ s.In τ x := by exact fun _ _ => .inl
  records : ∀ r ∈ τ.records, r ∈ σ.records ∨ r.In τ := by exact fun _ => .inl
  closures : ∀ c ∈ τ.closures, c ∈ σ.closures ∨ c.In τ := by exact fun _ => .inl
  configs : ∀ c ∈ τ.configs, c ∈ σ.configs ∨ c.In τ := by exact fun _ => .inl
  failures : ∀ f ∈ τ.failures, f ∈ σ.failures ∨ f.In τ := by exact fun _ => .inl
  cells : ∀ t ∈ τ.cells, t ∈ σ.cells ∨ t.In τ := by exact fun _ => .inl
  iterators : ∀ i ∈ τ.iterators, i ∈ σ.iterators ∨ i.In τ := by exact fun _ => .inl
  effects : ∀ e ∈ τ.effects, e ∈ σ.effects ∨ e.In τ := by exact fun _ => .inl

namespace Closed

variable {σ τ : Store}

/-- A store that has grown from a closed one is closed if what has been added is in it. -/
theorem of_grows (hσ : σ.Closed) (h : σ.Grows τ) (hadd : σ.Adds τ) : τ.Closed where
  vars x s hs := (hadd.vars x s hs).elim (fun hold => h.varState (hσ.vars x s hold)) id
  records r hr := (hadd.records r hr).elim (fun hold => h.record (hσ.records r hold)) id
  closures c hc := (hadd.closures c hc).elim (fun hold => h.env (hσ.closures c hold)) id
  configs c hc := (hadd.configs c hc).elim (fun hold => h.config (hσ.configs c hold)) id
  failures f hf := (hadd.failures f hf).elim (fun hold => h.value (hσ.failures f hold)) id
  cells t ht := (hadd.cells t ht).elim (fun hold => h.term (hσ.cells t hold)) id
  iterators i hi := (hadd.iterators i hi).elim (fun hold => h.iterator (hσ.iterators i hold)) id
  effects e he := (hadd.effects e he).elim (fun hold => h.effect (hσ.effects e hold)) id

theorem linked (hσ : σ.Closed) : σ.Linked := fun x y h => hσ.vars x (.link y) h

/-! ## Looking up -/

/-- What is looked up is in the array or is what stands for nothing. -/
private theorem getD_cases {α : Type} (a : Array α) (i : Nat) (d : α) : a.getD i d ∈ a ∨ a.getD i d = d := by
  rw [Array.getD_eq_getD_getElem?]
  rcases h : a[i]? with _ | x
  · exact .inr rfl
  · exact .inl (Array.mem_of_getElem? h)

private theorem getD_mem {α : Type} {a : Array α} {i : Nat} (h : i < a.size) (d : α) : a.getD i d ∈ a := by
  rw [Array.getD_eq_getD_getElem?, Array.getElem?_eq_getElem h]
  exact Array.getElem_mem h

/-- The record of each number is in a closed store, also where there is none. -/
theorem record (hσ : σ.Closed) (r : RecordId) : (σ.record r).In σ := by
  rcases getD_cases σ.records r ⟨.null, []⟩ with h | h
  · exact hσ.records _ h
  -- a number that leads nowhere stands for the record without fields
  · rw [Store.record, h]
    exact fun f hf => absurd hf List.not_mem_nil

theorem closure (hσ : σ.Closed) (c : ClosureId) : (σ.closure c).In σ := by
  rcases getD_cases σ.closures c ⟨⟨[], .skip⟩, []⟩ with h | h
  · exact hσ.closures _ h
  · rw [Store.closure, h]
    exact fun p hp => absurd hp List.not_mem_nil

theorem config (hσ : σ.Closed) {c : ConfigId} (hc : c < σ.configs.size) : (σ.config c).In σ :=
  hσ.configs _ (getD_mem hc _)

theorem failure (hσ : σ.Closed) (f : FailureId) : (σ.failure f).In σ := by
  rcases getD_cases σ.failures f ⟨"", default, none⟩ with h | h
  · exact hσ.failures _ h
  · rw [Store.failure, h]
    exact trivial

theorem cell (hσ : σ.Closed) (c : CellId) : (σ.cell c).In σ := by
  rcases getD_cases σ.cells c default with h | h
  · exact hσ.cells _ h
  · rw [Store.cell, h]
    exact trivial

theorem iterator (hσ : σ.Closed) {i : IterId} (hi : i < σ.iterators.size) : (σ.iterator i).In σ :=
  hσ.iterators _ (getD_mem hi _)

/-- Whoever waits at a variable waits with a computation of the store. -/
theorem waiting (hσ : σ.Closed) (x : VarId) {k : Continuation} (hk : k ∈ σ.waiting x) : k.In σ := by
  rw [Store.waiting] at hk
  split at hk
  · next ks hks => exact hσ.vars x _ hks k hk
  · exact absurd hk List.not_mem_nil

theorem resolveVar (hσ : σ.Closed) {x : Nat} (hx : x < σ.vars.size) : (σ.resolveVar x).In σ := by
  rcases h : σ.resolveVar x with v | y
  · exact hσ.vars _ _ (resolveVar_eq_val.mp h)
  · exact (unbound_of_resolveVar hσ.linked hx h).lt_size

theorem resolve (hσ : σ.Closed) {t : Term} (ht : t.In σ) : (σ.resolve t).In σ := by
  cases t with
  | val v => exact ht
  | var x => exact hσ.resolveVar ht

theorem resolve_val (hσ : σ.Closed) {t : Term} (ht : t.In σ) {v : Value} (h : σ.resolve t = .val v) :
    v.In σ := by
  have hin := hσ.resolve ht
  rwa [h] at hin

/-- A term without a value resolves to an unbound variable. -/
theorem resolve_var (hσ : σ.Closed) {t : Term} (ht : t.In σ) {x : Nat} (h : σ.resolve t = .var x) :
    σ.Unbound x := by
  cases t with
  | val v => cases h
  | var z => exact unbound_of_resolveVar hσ.linked ht h

theorem resolved (hσ : σ.Closed) {t : Term} (ht : t.In σ) : (σ.resolve t).Resolved σ := by
  rcases h : σ.resolve t with v | x
  · exact hσ.resolve_val ht h
  · exact hσ.resolve_var ht h

end Closed

/-- The store before anything happened. -/
theorem closed_empty : ({} : Store).Closed := by
  constructor <;> simp

end Store

end Dataflow
