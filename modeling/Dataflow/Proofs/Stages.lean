/-
Stages: the computations of a pool, wherever they are.

A computation of a pool that can go on is in the pool, one that waits is in the list of a variable, and one that has been
woken is in the log of effects. A stage forgets about that. It has a store, what each computation goes on with, and the
variable that it has been told to wait for with this. A stage changes when an instruction is executed or has to wait,
and when a computation is taken from the log.

What connects the two is the ledger of those who wait (`Accounted`): there is one entry for each computation of the pool
that waits, and it is the current one. So whoever is woken goes on with what it has waited with, and as long as it is not
woken, its variable has no value.
-/
import Dataflow.Proofs.Schedules
import Dataflow.Proofs.Replay
import Dataflow.Proofs.Resumption
import Dataflow.Proofs.Actor.Making

set_option autoImplicit false

namespace Dataflow

/-! ## The log and the ledger -/

/-- The entries of the ledger for a queue. -/
def Ledger.ofQueue (ledger : Ledger) (queue : Nat) : Ledger := ledger.filter fun entry => entry.2.resumer = .queue queue

namespace Ledger

variable {ledger : Ledger} {queue : Nat}

/-- The entries of a queue are those whose continuation is resumed there. -/
theorem mem_ofQueue {x : VarId} {k : Continuation} :
    (x, k) ∈ ledger.ofQueue queue ↔ (x, k) ∈ ledger ∧ k.resumer = .queue queue := by
  simp [ofQueue]

theorem ofQueue_append (l m : Ledger) : ofQueue (l ++ m) queue = ofQueue l queue ++ ofQueue m queue :=
  List.filter_append ..

/-- The entries for the other queues. -/
def without (ledger : Ledger) (queue : Nat) : Ledger := ledger.filter fun entry => entry.2.resumer ≠ .queue queue

theorem ofQueue_without_self : (ledger.without queue).ofQueue queue = [] := by
  simp [ofQueue, without, List.filter_filter]

/-- The entries of another queue are kept. -/
theorem ofQueue_without_of_ne {n : Nat} (hne : n ≠ queue) : (ledger.without queue).ofQueue n = ledger.ofQueue n := by
  rw [ofQueue, ofQueue, without, List.filter_filter]
  refine List.filter_congr fun entry _ => ?_
  by_cases h : entry.2.resumer = .queue n
  · simp [h, hne]
  · simp [h]

end Ledger

namespace Store

variable {σ τ : Store} {ledger : Ledger} {queue : Nat}

/-- The stacks that a queue takes are those of the woken continuations that are resumed there. -/
theorem mem_takeWakes {stack : Stack} : stack ∈ (σ.takeWakes queue).1 ↔ ⟨stack, .queue queue⟩ ∈ σ.woken := by
  have heq : (σ.takeWakes queue).1 = σ.effects.toList.filterMap (Effect.wakes? queue) := by
    rw [takeWakes]
    split
    · next hempty => rw [Array.isEmpty_iff.mp hempty, Array.toList_empty, List.filterMap_nil]
    · rfl
  rw [heq, woken, List.mem_filterMap, List.mem_filterMap]
  have hiff : ∀ e : Effect, e.wakes? queue = some stack ↔ e.resumed? = some ⟨stack, .queue queue⟩ := by
    intro e
    cases e with
    | wake r s =>
      cases r with
      | queue n => simp [Effect.wakes?, Effect.resumed?, and_comm]
      | tag | activity => simp [Effect.wakes?, Effect.resumed?]
    | send | spawn => simp [Effect.wakes?, Effect.resumed?]
  simp only [hiff]

/-- What is left in the log are the continuations of the other queues. -/
theorem woken_takeWakes (σ : Store) (queue : Nat) :
    (σ.takeWakes queue).2.woken = σ.woken.filter fun k => k.resumer ≠ .queue queue := by
  rw [takeWakes_eq, woken, woken, Array.toList_filter]
  induction σ.effects.toList with
  | nil => rfl
  | cons e es ih =>
    cases e with
    | wake r s =>
      cases r with
      | queue n =>
        by_cases hn : n = queue
        · simpa [Effect.wakes?, Effect.resumed?, hn] using ih
        · simpa [Effect.wakes?, Effect.resumed?, hn] using ih
      | tag | activity => simpa [Effect.wakes?, Effect.resumed?] using ih
    | send | spawn => simpa [Effect.wakes?, Effect.resumed?, List.filterMap_cons] using ih

/-- Whoever is resumed through a queue may be taken from the log if all of them have been woken. -/
theorem Accounted.takeWakes (h : σ.Accounted ledger)
    (hbound : ∀ entry ∈ ledger.ofQueue queue, σ.isBound entry.1 = true) :
    (σ.takeWakes queue).2.Accounted (ledger.without queue) := by
  have hvars : (σ.takeWakes queue).2.vars = σ.vars := by rw [takeWakes_eq]
  have hrep : (σ.takeWakes queue).2.representative = σ.representative := funext (representative_of_vars_eq hvars)
  have hisBound : (σ.takeWakes queue).2.isBound = σ.isBound :=
    funext fun z => isBound_congr (resolve_of_vars_eq hvars (.var z))
  refine ⟨fun entry hentry => ?_, fun x hx => ?_, ?_⟩
  · rw [hvars]
    exact h.isIn entry (List.mem_filter.mp hentry).1
  · have hxσ : σ.Unbound x := by rwa [Unbound, ← hvars]
    have hwaiting : (σ.takeWakes queue).2.waiting x = σ.waiting x := waiting_congr (by rw [hvars])
    rw [hwaiting, hrep]
    refine (h.waiting x hxσ).trans (.of_eq ?_)
    -- an entry that is dropped is about a variable with a value
    rw [Ledger.select, Ledger.select, Ledger.without, List.filter_filter]
    refine congrArg (List.map Prod.snd) (List.filter_congr fun entry hentry => ?_)
    by_cases hz : σ.representative entry.1 = x
    · have hother : entry.2.resumer ≠ .queue queue := by
        intro hqueue
        have hvalue := hbound entry (List.mem_filter.mpr ⟨hentry, decide_eq_true hqueue⟩)
        rw [not_isBound_of_representative hxσ hz] at hvalue
        cases hvalue
      simp [hz, hother]
    · simp [hz]
  · rw [woken_takeWakes, hisBound]
    refine (h.woken.filter _).trans (.of_eq ?_)
    rw [Ledger.select, Ledger.select, Ledger.without, List.filter_map, List.filter_filter, List.filter_filter]
    refine congrArg (List.map Prod.snd) (List.filter_congr fun entry _ => ?_)
    exact Bool.and_comm _ _

theorem woken_emit {e : Effect} (he : e.resumed? = none) : (σ.emit e).woken = σ.woken := by
  simp [Store.woken, emit, he]

/-- The account only speaks of the variables and of who is woken. -/
theorem Accounted.of_vars_eq (h : σ.Accounted ledger) (hvars : τ.vars = σ.vars) (hwoken : τ.woken = σ.woken) :
    τ.Accounted ledger := by
  have hrep := funext (representative_of_vars_eq hvars)
  have hbound : τ.isBound = σ.isBound := funext fun z => isBound_congr (resolve_of_vars_eq hvars (.var z))
  refine ⟨?_, fun z hz => ?_, ?_⟩
  · rw [hvars]
    exact h.isIn
  · have hwaiting : τ.waiting z = σ.waiting z := waiting_congr (by rw [hvars])
    rw [hwaiting, hrep]
    exact h.waiting z (by rwa [Unbound, ← hvars])
  · rw [hwoken, hbound]
    exact h.woken

/-- What a computation does to the store while it goes on does not show in the ledger. -/
theorem Accounted.deed (h : σ.Accounted ledger) (hσ : σ.Closed) (hdeed : σ.Deed τ) : τ.Accounted ledger := by
  cases hdeed with
  | binds hbinds => exact h.bindsMany hσ (.single hbinds)
  | @newVar s hs hin =>
    refine h.newVar hσ.linked ?_ ?_
    · rintro y rfl
      exact hs
    · rintro ks rfl
      exact hs
  | table hstep hlog => exact h.table hstep hlog
  | send recipient he hcall => exact h.of_vars_eq rfl (woken_emit rfl)
  | makeRecorder hk address parent => exact h.of_vars_eq rfl (woken_emit rfl)
  | makeActor hk address stem parent => exact h.of_vars_eq rfl (woken_emit rfl)

theorem Accounted.deeds (h : σ.Accounted ledger) (hσ : σ.Closed) (hdeeds : σ.Deeds τ) : τ.Accounted ledger := by
  induction hdeeds with
  | refl => exact h
  | tail hfirst hdeed ih => exact ih.deed (Deeds.closed hfirst hσ) hdeed

end Store

/-! ## Stages -/

/-- The frames are instructions, and none of them is a trap. -/
def Stack.Plain (stack : Stack) : Prop := ∀ f ∈ stack, ∃ instr env, f = .run instr env

/-- A plain stack is empty or has an instruction on top and a plain rest. -/
theorem Stack.Plain.cases {stack : Stack} (h : stack.Plain) :
    stack = [] ∨ ∃ instr env rest, stack = .run instr env :: rest ∧ Stack.Plain rest := by
  cases stack with
  | nil => exact .inl rfl
  | cons f rest =>
    obtain ⟨⟨instr, env, rfl⟩, hrest⟩ := List.forall_mem_cons.mp h
    exact .inr ⟨instr, env, rest, rfl, hrest⟩

/-- On a plain stack the next instruction is on top. -/
theorem Stack.Plain.eq_of_next? {stack rest : Stack} {instr : Instr} {env : Env} (h : stack.Plain)
    (hnext : next? stack = some (instr, env, rest)) : stack = .run instr env :: rest := by
  obtain rfl | ⟨instr', env', rest', rfl, -⟩ := h.cases
  · cases hnext
  · rw [next?] at hnext
    cases hnext
    rfl

theorem Stack.Plain.eq_nil_of_next? {stack : Stack} (h : stack.Plain) (hnext : next? stack = none) : stack = [] := by
  obtain rfl | ⟨instr', env', rest', rfl, -⟩ := h.cases
  · rfl
  · cases hnext

/-- The store, what each computation goes on with, and what it has been told to wait for with that. -/
structure Stage where
  store : Store
  current : Nat → Stack
  awaited : Nat → Option VarId

namespace Stage

/-- What can happen; the list names the computation that has executed an instruction. -/
inductive Step (ctxs : Nat → Context) (code : CodeClass) (s : Stage) : List Nat → Stage → Prop where
  | stays : Step ctxs code s [] s
  | executes {i : Nat} {instr : Instr} {env : Env} {rest stack : Stack} {τ : Store}
      (hcurrent : s.current i = .run instr env :: rest) (hcode : code instr env s.store)
      (hexecute : (Pool.context ctxs i).execute env rest instr s.store = .ok (.next stack) τ) :
      Step ctxs code s [i] ⟨τ, Function.update s.current i stack, Function.update s.awaited i none⟩
  | waits {i : Nat} {instr : Instr} {env : Env} {rest : Stack} {x : VarId} {ρ : Store}
      (hcurrent : s.current i = .run instr env :: rest) (hcode : code instr env s.store)
      (hexecute : (Pool.context ctxs i).execute env rest instr s.store = .error (.blocked x) ρ) :
      Step ctxs code s []
        ⟨ρ.park x ⟨s.current i, .queue i⟩, s.current, Function.update s.awaited i (some x)⟩
  | wakes (i : Nat) : Step ctxs code s [] ⟨(s.store.takeWakes i).2, s.current, s.awaited⟩

/-- The next instruction of the computation throws. -/
def Throws (ctxs : Nat → Context) (s : Stage) (i : Nat) : Prop :=
  ∃ instr env rest, s.current i = .run instr env :: rest ∧
    (∀ stack τ, (Pool.context ctxs i).execute env rest instr s.store ≠ .ok (.next stack) τ) ∧
    ∀ x τ, (Pool.context ctxs i).execute env rest instr s.store ≠ .error (.blocked x) τ

end Stage

/-! ## One instruction of a plain computation -/

/-- On a plain stack nothing catches what is thrown. -/
theorem unwind_plain {stack : Stack} (h : stack.Plain) (owner : Address) (v : Value) (cause : Option Fault) (σ : Store) :
    ∃ f τ, unwind owner v cause stack σ = (.halted f, τ) := by
  induction stack with
  | nil => exact ⟨_, _, rfl⟩
  | cons f rest ih =>
    obtain ⟨⟨instr, env, rfl⟩, hrest⟩ := List.forall_mem_cons.mp h
    exact ih hrest

/-- On a plain stack nothing catches a fault. -/
theorem raise_plain {stack : Stack} (h : stack.Plain) (owner : Address) (f : Fault) (σ : Store) :
    ∃ g τ, raise owner f stack σ = (.halted g, τ) := by
  unfold raise
  split
  · exact unwind_plain h ..
  · exact unwind_plain h ..

/-- What comes of an instruction if no trap is below it. -/
inductive Context.Steps (ctx : Context) (instr : Instr) (env : Env) (rest : Stack) (σ : Store) : Outcome × Store → Prop where
  | next {stack : Stack} {τ : Store} (h : ctx.execute env rest instr σ = .ok (.next stack) τ) :
      Steps ctx instr env rest σ (.next stack, τ)
  | waits {x : VarId} {ρ : Store} (h : ctx.execute env rest instr σ = .error (.blocked x) ρ) (hx : ρ.Unbound x)
      (hdeeds : σ.Deeds ρ) :
      Steps ctx instr env rest σ (.waiting x, ρ.park x ⟨.run instr env :: rest, ctx.resumer⟩)
  | throws {f : FailureId} {τ : Store} (hnext : ∀ stack τ, ctx.execute env rest instr σ ≠ .ok (.next stack) τ)
      (hwaits : ∀ x τ, ctx.execute env rest instr σ ≠ .error (.blocked x) τ) : Steps ctx instr env rest σ (.halted f, τ)

/-- The three ends of a step of the machine: it goes on with another stack, it waits for an unbound variable, or it throws
what nobody catches. -/
theorem Context.steps (ctx : Context) {instr : Instr} {env : Env} {rest : Stack} {σ : Store} (hσ : σ.Closed)
    (henv : env.In σ) (hrest : rest.In σ) (hplain : Stack.Plain rest) :
    ctx.Steps instr env rest σ (ctx.step instr env rest σ) := by
  have hsafe := ctx.execute_safe hσ henv hrest instr
  rw [Action.Safe] at hsafe
  rw [step]
  rcases hresult : ctx.execute env rest instr σ with ⟨flow, τ⟩ | ⟨x | f, τ⟩
  · cases flow with
    | next stack => exact .next hresult
    -- nothing on the stack catches what is thrown, so it leaves the machine
    | throw v cause =>
      obtain ⟨f, ρ, hunwind⟩ := unwind_plain hplain ctx.owner v cause τ
      simp only [hunwind]
      refine .throws (fun stack τ h => ?_) fun x τ h => ?_
      · cases hresult.symm.trans h
      · cases hresult.symm.trans h
  · rw [hresult] at hsafe
    obtain ⟨hdeeds, hx⟩ := hsafe
    simp only [Store.suspend_of_var hx.resolveVar]
    exact .waits hresult hx hdeeds
  · obtain ⟨g, ρ, hraise⟩ := raise_plain hplain ctx.owner f τ
    simp only [hraise]
    refine .throws (fun stack τ h => ?_) fun x τ h => ?_
    · cases hresult.symm.trans h
    · cases hresult.symm.trans h

/-! ## Stages of pools -/

namespace Pool

variable {ctxs : Nat → Context} {code : CodeClass} {p q : Pool} {ledger : Ledger} {s : Stage} {l : List Nat} {i : Nat}

/-- At the stage, the computation of that number stands so. If it waits, the ledger has an entry for it, and only then. -/
def Fits (s : Stage) (ledger : Ledger) (i : Nat) : Status → Prop
  | .ready stack => s.current i = stack ∧ ledger.ofQueue i = []
  | .waiting => ∃ x, ledger.ofQueue i = [(x, ⟨s.current i, .queue i⟩)] ∧ s.awaited i = some x
  | .ended => s.current i = [] ∧ ledger.ofQueue i = []
  | .halted _ => True

/-- The pool is at the stage, and the ledger tells who of it waits. -/
structure At (p : Pool) (ledger : Ledger) (s : Stage) : Prop where
  store : s.store = p.store
  closed : p.store.Closed
  accounted : p.store.Accounted ledger
  isIn : ∀ i, (s.current i).In p.store
  fits : ∀ (i : Nat) t, p.threads[i]? = some t → Fits s ledger i t
  absent : ∀ i : Nat, p.threads[i]? = none → s.current i = []

/-- Who has been woken goes on with what it has waited with, and its variable has a value. -/
theorem At.woken (h : p.At ledger s) (hwaiting : p.threads[i]? = some .waiting) {stack : Stack}
    (hwoken : stack ∈ (p.store.takeWakes i).1) :
    stack = s.current i ∧ ∀ entry ∈ ledger.ofQueue i, p.store.isBound entry.1 = true := by
  obtain ⟨x, hentries, -⟩ := h.fits i _ hwaiting
  obtain ⟨z, hz, hbound⟩ := Ledger.mem_select.mp (h.accounted.woken.mem_iff.mp (Store.mem_takeWakes.mp hwoken))
  have hentry : (z, (⟨stack, .queue i⟩ : Continuation)) ∈ ledger.ofQueue i := Ledger.mem_ofQueue.mpr ⟨hz, rfl⟩
  rw [hentries, List.mem_singleton] at hentry
  cases hentry
  refine ⟨rfl, fun entry hentry => ?_⟩
  rw [hentries, List.mem_singleton] at hentry
  exact hentry ▸ hbound

/-- As long as a computation that waits has not been woken, its variable has no value. -/
theorem At.unbound (h : p.At ledger s) (hwaiting : p.threads[i]? = some .waiting)
    (hnone : p.runnable? i = none) :
    ∃ x, s.awaited i = some x ∧ p.store.resolveVar x = .var (p.store.representative x) ∧
      ⟨s.current i, .queue i⟩ ∈ p.store.waiting (p.store.representative x) := by
  obtain ⟨x, hentries, hawaited⟩ := h.fits i _ hwaiting
  have hentry : (x, (⟨s.current i, .queue i⟩ : Continuation)) ∈ ledger :=
    (Ledger.mem_ofQueue.mp (hentries ▸ List.mem_singleton_self _)).1
  -- had the variable a value, the continuation would have been woken and could be taken
  have hfree : p.store.isBound x = false := by
    by_contra hbound
    rw [Bool.not_eq_false] at hbound
    have hwoken : (⟨s.current i, .queue i⟩ : Continuation) ∈ p.store.woken :=
      h.accounted.woken.mem_iff.mpr (Ledger.mem_select.mpr ⟨x, hentry, hbound⟩)
    have htaken := Store.mem_takeWakes.mpr hwoken
    rw [runnable?, hwaiting] at hnone
    rcases htakes : p.store.takeWakes i with ⟨taken, σ⟩
    rw [htakes] at htaken
    cases taken with
    | nil => cases htaken
    | cons stack more =>
      rw [htakes] at hnone
      cases hnone
  have hunbound := Store.unbound_of_not_isBound h.closed.linked (h.accounted.isIn _ hentry) hfree
  refine ⟨x, hawaited, Store.resolveVar_of_not_isBound hfree, ?_⟩
  exact (h.accounted.waiting _ hunbound).mem_iff.mpr (Ledger.mem_select.mpr ⟨x, hentry, decide_eq_true rfl⟩)

/-- How a computation stands after one of them has changed. -/
theorem set_threads_cases {t u : Status} {σ : Store} {j : Nat} (h : (p.set i t σ).threads[j]? = some u) :
    (j = i ∧ u = t) ∨ j ≠ i ∧ p.threads[j]? = some u := by
  by_cases hji : j = i
  · refine .inl ⟨hji, ?_⟩
    rw [hji, Pool.set, List.getElem?_set] at h
    simp only [if_true] at h
    split at h
    · exact (Option.some.inj h).symm
    · cases h
  · refine .inr ⟨hji, ?_⟩
    rwa [Pool.set, List.getElem?_set_ne (Ne.symm hji)] at h

/-- One of the computations has changed, and how it stands. -/
theorem At.set (h : p.At ledger s) (hi : i < p.threads.length) {t : Status} {τ : Store} {ledger' : Ledger} {s' : Stage}
    (hstore : s'.store = τ) (hτ : τ.Closed) (haccounted : τ.Accounted ledger') (hgrows : p.store.Grows τ)
    (hisIn : (s'.current i).In τ) (hfits : Fits s' ledger' i t)
    (hothers : ∀ j, j ≠ i → s'.current j = s.current j ∧ s'.awaited j = s.awaited j ∧
      ledger'.ofQueue j = ledger.ofQueue j) : (p.set i t τ).At ledger' s' where
  store := hstore
  closed := hτ
  accounted := haccounted
  isIn j := by
    -- the thread that is set, and the others
    by_cases hji : j = i
    · exact hji ▸ hisIn
    · rw [(hothers j hji).1]
      exact hgrows.stack (h.isIn j)
  fits j u hu := by
    rw [set_threads hi] at hu
    split at hu
    · next hji =>
      cases hu
      exact hji ▸ hfits
    · next hji =>
      obtain ⟨hcurrent, hawaited, hledger⟩ := hothers j hji
      have hold := h.fits j u hu
      cases u with
      | ready stack => exact ⟨hcurrent.trans hold.1, hledger.trans hold.2⟩
      | waiting =>
        rw [Fits, hcurrent, hawaited, hledger]
        exact hold
      | ended => exact ⟨hcurrent.trans hold.1, hledger.trans hold.2⟩
      | halted f => trivial
  absent j hj := by
    rw [set_threads hi] at hj
    split at hj
    · cases hj
    · next hji =>
      rw [(hothers j hji).1]
      exact h.absent j hj

/-- **A pool goes from stage to stage**, or one of its computations throws and has halted. -/
theorem At.act (h : p.At ledger s) (hplain : ∀ i, (s.current i).Plain) (hact : Act ctxs code p l q) :
    (∃ ledger' s', s.Step ctxs code l s' ∧ q.At ledger' s' ∧ (p.Unhalted → q.Unhalted)) ∨
      ∃ i f, s.Throws ctxs i ∧ q.threads[i]? = some (.halted f) := by
  have hunhalted : ∀ {i : Nat} {t : Status} {σ : Store}, (∀ f, t ≠ .halted f) → p.Unhalted → (p.set i t σ).Unhalted := by
    intro i t σ ht hp j f hj
    rcases set_threads_cases hj with ⟨-, hf⟩ | ⟨-, hj⟩
    · exact ht f hf.symm
    · exact hp j f hj
  -- what a computation that is ready goes on with, and what comes of its next instruction
  have hready : ∀ {i : Nat} {stack rest : Stack} {instr : Instr} {env : Env},
      p.threads[i]? = some (.ready stack) → next? stack = some (instr, env, rest) →
      s.current i = .run instr env :: rest ∧ ledger.ofQueue i = [] ∧ i < p.threads.length ∧
        (context ctxs i).Steps instr env rest p.store ((context ctxs i).step instr env rest p.store) := by
    intro i stack rest instr env hi hnext
    obtain ⟨hcurrent, hledger⟩ := h.fits i _ hi
    have hplain := hplain i
    have hin := h.isIn i
    rw [hcurrent] at hplain hin
    obtain rfl := hplain.eq_of_next? hnext
    obtain ⟨henv, hrest⟩ := List.forall_mem_cons.mp hin
    exact ⟨hcurrent, hledger, (List.getElem?_eq_some_iff.mp hi).1,
      Context.steps _ h.closed henv hrest (List.forall_mem_cons.mp hplain).2⟩
  cases hact with
  | @wake i stack more σ hi hwoken =>
    have hmem : stack ∈ (p.store.takeWakes i).1 := by
      rw [hwoken]
      exact List.mem_cons_self
    obtain ⟨hstack, hbound⟩ := h.woken hi hmem
    obtain rfl : σ = (p.store.takeWakes i).2 := by rw [hwoken]
    have hgrows : p.store.Grows (p.store.takeWakes i).2 := Store.Outside.grows (.takeWakes i)
    refine .inl ⟨ledger.without i, ⟨(s.store.takeWakes i).2, s.current, s.awaited⟩, .wakes i, ?_, hunhalted (by simp)⟩
    refine h.set (List.getElem?_eq_some_iff.mp hi).1 (by rw [h.store]) (Store.Outside.closed (.takeWakes i) h.closed)
      (h.accounted.takeWakes hbound) hgrows (hgrows.stack (h.isIn i)) ⟨hstack.symm, Ledger.ofQueue_without_self⟩ ?_
    exact fun j hji => ⟨rfl, rfl, Ledger.ofQueue_without_of_ne hji⟩
  | @drop i stack rest instr env hi hnext =>
    obtain ⟨hcurrent, hledger, hlt, -⟩ := hready hi hnext
    refine .inl ⟨ledger, s, .stays, ?_, hunhalted (by simp)⟩
    exact h.set hlt h.store h.closed h.accounted (.refl _) (h.isIn i) ⟨hcurrent, hledger⟩ fun j _ => ⟨rfl, rfl, rfl⟩
  | @finish i stack hi hnext =>
    obtain ⟨hcurrent, hledger⟩ := h.fits i _ hi
    have hnil : stack = [] := Stack.Plain.eq_nil_of_next? (hcurrent ▸ hplain i) hnext
    refine .inl ⟨ledger, s, .stays, ?_, hunhalted (by simp)⟩
    exact h.set (List.getElem?_eq_some_iff.mp hi).1 h.store h.closed h.accounted (.refl _) (h.isIn i)
      ⟨hcurrent.trans hnil, hledger⟩ fun j _ => ⟨rfl, rfl, rfl⟩
  | @go i stack rest stack' instr env σ hi hnext hcode hstep =>
    obtain ⟨hcurrent, hledger, hlt, hsteps⟩ := hready hi hnext
    rw [hstep] at hsteps
    cases hsteps with
    | next hexecute =>
      have hin := h.isIn i
      rw [hcurrent] at hin
      obtain ⟨henv, hrest⟩ := List.forall_mem_cons.mp hin
      have hsafe := (context ctxs i).execute_safe h.closed henv hrest instr
      rw [Action.Safe, hexecute] at hsafe
      obtain ⟨hdeeds, hstack⟩ := hsafe
      rw [← h.store] at hexecute hcode
      refine .inl ⟨ledger, _, .executes hcurrent hcode hexecute, ?_, hunhalted (by simp)⟩
      refine h.set hlt rfl (hdeeds.closed h.closed) (h.accounted.deeds h.closed hdeeds) hdeeds.grows ?_ ?_ ?_
      · simp only [Function.update_self]
        exact hstack
      · exact ⟨Function.update_self .., hledger⟩
      · exact fun j hji => ⟨Function.update_of_ne hji .., Function.update_of_ne hji .., rfl⟩
  | @wait i stack rest instr env x σ hi hnext hcode hstep =>
    obtain ⟨hcurrent, hledger, hlt, hsteps⟩ := hready hi hnext
    rw [hstep] at hsteps
    cases hsteps with
    | @waits _ ρ hexecute hx hdeeds =>
      have hin := h.isIn i
      have hρ := hdeeds.closed h.closed
      have hparks : ρ.Step (ρ.park x ⟨s.current i, .queue i⟩) := .var (.park hx (hdeeds.grows.stack hin))
      rw [← h.store] at hexecute hcode
      have hstep : s.Step ctxs code [] _ := .waits hcurrent hcode hexecute
      refine .inl ⟨ledger ++ [(x, ⟨s.current i, .queue i⟩)], _, hstep, ?_, hunhalted (by simp)⟩
      have hresumer : (context ctxs i).resumer = .queue i := rfl
      rw [hresumer, ← hcurrent]
      refine h.set hlt rfl (hparks.closed hρ) ((h.accounted.deeds h.closed hdeeds).park hρ.linked hx.lt_size
        hx.resolveVar _) (hdeeds.grows.trans hparks.grows) (hparks.grows.stack (hdeeds.grows.stack hin)) ?_ ?_
      · refine ⟨x, ?_, Function.update_self ..⟩
        rw [Ledger.ofQueue_append, hledger]
        simp [Ledger.ofQueue]
      · refine fun j hji => ⟨rfl, Function.update_of_ne hji .., ?_⟩
        rw [Ledger.ofQueue_append]
        simp [Ledger.ofQueue, Ne.symm hji]
  | @halt i stack rest instr env f σ hi hnext hstep =>
    obtain ⟨hcurrent, -, hlt, hsteps⟩ := hready hi hnext
    rw [hstep] at hsteps
    cases hsteps with
    | throws hgoes hwaits =>
      rw [← h.store] at hgoes hwaits
      refine .inr ⟨i, f, ⟨instr, env, rest, hcurrent, hgoes, hwaits⟩, ?_⟩
      rw [set_threads hlt, if_pos rfl]

/-- Who has halted stays so. -/
theorem Act.halted (hact : Act ctxs code p l q) {f : FailureId} (h : p.threads[i]? = some (.halted f)) :
    q.threads[i]? = some (.halted f) := by
  have hset : ∀ {j : Nat} {t u : Status} {σ : Store}, p.threads[j]? = some t → (∀ f, t ≠ .halted f) →
      (p.set j u σ).threads[i]? = some (.halted f) := by
    intro j t u σ hj ht
    rw [set_threads (List.getElem?_eq_some_iff.mp hj).1]
    split
    · next hij =>
      rw [hij, hj] at h
      exact absurd (Option.some.inj h) (ht f)
    · exact h
  cases hact with
  | wake hj _ => exact hset hj nofun
  | drop hj _ | finish hj _ | go hj _ _ _ | wait hj _ _ _ | halt hj _ _ => exact hset hj nofun

/-- If nobody has halted in the end, nobody had before. -/
theorem Act.unhalted (hact : Act ctxs code p l q) (h : q.Unhalted) : p.Unhalted := fun i f hi =>
  h i f (hact.halted hi)

end Pool

end Dataflow
