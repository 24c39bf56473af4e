/-
A run to the end is one slice.

`Kernel.runToEnd` goes on slice by slice, with a counter of its own, a queue of resumed computations and a list of the
variables that were waited for. None of this shows: the run does what a single slice of `limit` instructions does, so
the length of the kernel's time slices has no influence on it.

The argument needs one fact about the store. The queue of the run is new, so at first nobody waits for it, and the
computation leaves the loop as soon as it waits. Nothing is therefore ever handed to the queue while the loop runs, and
what the loop goes on with is always the preempted computation itself.
-/
import Dataflow.Proofs.Slicing
import Dataflow.Proofs.Actor.Outstanding

set_option autoImplicit false

namespace Dataflow

/-! ## Queues that were never opened -/

namespace Store

variable {σ τ : Store} {r : Resumer} {queue : Nat}

/-- Nobody waits for, or is about to be handed to, a queue that was not opened yet. -/
def QueuesKnown (σ : Store) : Prop := ∀ n, σ.queues ≤ n → σ.outstanding (.queue n) = 0

theorem queuesKnown_empty : QueuesKnown {} := fun _ _ => rfl

/-- No deed makes a queue. -/
theorem Deed.queues_eq (h : Deed σ τ) : τ.queues = σ.queues := by
  cases h with
  | binds h =>
    cases h with
    | assign hx hv => rw [assign_eq]
    | merge => rfl
  | table h => cases h <;> rfl
  | newVar | send | makeRecorder | makeActor => rfl

theorem Deeds.queues_eq (h : σ.Deeds τ) : τ.queues = σ.queues := by
  induction h with
  | refl => rfl
  | tail _ hdeed ih => exact hdeed.queues_eq.trans ih

theorem Leaves.queues_eq {w : Option VarId} (h : Leaves r σ τ w) : τ.queues = σ.queues := by
  cases h with
  | going h => exact h.queues_eq
  | waiting h _ _ _ hτ => exact hτ ▸ h.queues_eq

/-- A computation with a queue that is open makes no other queue known. -/
theorem QueuesKnown.leaves {w : Option VarId} (h : σ.QueuesKnown) (hqueue : queue < σ.queues)
    (hleaves : Leaves (.queue queue) σ τ w) : τ.QueuesKnown := by
  intro n hn
  rw [hleaves.queues_eq] at hn
  cases hleaves with
  | going hdeeds =>
    rw [hdeeds.outstanding]
    exact h n hn
  | waiting hdeeds hx hk hr hτ =>
    have hother : ¬ Resumer.queue queue = .queue n := by
      intro hsame
      injection hsame with hsame
      omega
    rw [hτ, outstanding_park hx, hr, if_neg hother, hdeeds.outstanding]
    exact h n hn

/-- What begins to wait is not resumed yet. -/
theorem Leaves.resumedFor {w : Option VarId} (h : Leaves r σ τ w) (hnone : σ.outstanding r = 0) :
    τ.resumedFor r = 0 := by
  have hlog : ∀ {ρ : Store}, σ.Deeds ρ → ρ.resumedFor r = 0 := by
    intro ρ hdeeds
    have hsum := hdeeds.outstanding r
    rw [hnone, Store.outstanding] at hsum
    omega
  cases h with
  | going hdeeds => exact hlog hdeeds
  | @waiting ρ _ _ hdeeds _ _ _ hτ =>
    rw [hτ]
    show ρ.resumedFor r = 0
    exact hlog hdeeds

/-- The variable that is waited for is unbound. -/
theorem Leaves.unbound {x : VarId} (h : Leaves r σ τ (some x)) : τ.Unbound x := by
  cases h with
  | @waiting ρ _ k hdeeds hx _ _ hτ =>
    refine ⟨ρ.waiting x ++ [k], ?_⟩
    rw [hτ, park_getElem? hx, if_pos rfl]

/-- Nothing is taken from a log that resumes nobody through the queue. -/
theorem takeWakes_of_resumedFor (h : σ.resumedFor (.queue queue) = 0) : σ.takeWakes queue = ([], σ) := by
  -- no effect of the log is for this queue
  have hnone : ∀ e ∈ σ.effects.toList, e.wakes? queue = none := by
    intro e he
    have hresumes := List.countP_eq_zero.mp h e he
    cases e with
    | send | spawn => rfl
    | wake r stack =>
      cases r with
      | tag | activity => rfl
      | queue n =>
        have hne : n ≠ queue := by simpa [Effect.resumes] using hresumes
        exact if_neg hne
  have hkept : σ.effects.filter (fun e => (e.wakes? queue).isNone) = σ.effects := by
    refine Array.filter_eq_self.mpr fun e he => ?_
    rw [hnone e (Array.mem_toList_iff.mpr he)]
    rfl
  refine Prod.ext ?_ ?_
  · rw [takeWakes]
    split
    · rfl
    · exact List.filterMap_eq_nil_iff.mpr hnone
  · rw [takeWakes_eq, hkept]

end Store

/-! ## The number of executed instructions -/

/-- A slice executes no more instructions than it is long. -/
theorem Context.compute_executed_le (ctx : Context) (n executed : Nat) (stack : Stack) (σ : Store) :
    (ctx.compute n stack executed σ).executed ≤ executed + n := by
  induction n generalizing stack executed σ with
  -- nothing is executed any more, whether instructions are left or not
  | zero =>
    rcases hnext : next? stack with _ | ⟨instr, env, rest⟩
    · rw [compute_of_next?_eq_none hnext]
      exact Nat.le_add_right _ _
    · rw [compute_zero hnext]
      exact Nat.le_add_right _ _
  | succ n ih =>
    rcases hnext : next? stack with _ | ⟨instr, env, rest⟩
    · rw [compute_of_next?_eq_none hnext]
      exact Nat.le_add_right _ _
    · rw [compute_succ hnext]
      -- only the first outcome uses more than one instruction of the slice
      rcases ctx.step instr env rest σ with ⟨stack' | x | f, σ'⟩
      · have hmore := ih (executed + 1) stack' σ'
        show (ctx.compute n stack' (executed + 1) σ').executed ≤ executed + (n + 1)
        omega
      · show executed + 1 ≤ executed + (n + 1)
        omega
      · show executed + 1 ≤ executed + (n + 1)
        omega

namespace Kernel

/-- What `drive` answers, with the number of instructions that have been executed by then. -/
def driveCounted (k : Kernel) (queue limit : Nat) :
    (rounds : Nat) → RunState → Store → EStateM.Result RuntimeError Store Unit × Nat
  | 0, s, σ => (.error (.stepLimitExceeded limit) σ, s.executed)
  | rounds + 1, s, σ =>
    match s.pop with
    | none =>
      match s.blockedOn σ with
      | some x => (.error (.blocked x) σ, s.executed)
      | none => (.ok () σ, s.executed)
    | some (stack, s) =>
      if limit ≤ s.executed then (.error (.stepLimitExceeded limit) σ, s.executed)
      else
        let ctx : Context := { owner := kernelOwner, resumer := .queue queue }
        let slice := min k.config.timeSlice (limit - s.executed)
        let result := ctx.compute slice stack s.executed σ
        let advice := result.advice
        let executed := result.executed
        let (woken, σ) := result.store.takeWakes queue
        let s := { s with queue := s.queue ++ woken, executed }
        match advice with
        | .ended => k.driveCounted queue limit rounds s σ
        | .preempted stack => k.driveCounted queue limit rounds { s with current := some stack } σ
        | .waiting x => k.driveCounted queue limit rounds { s with parked := s.parked ++ [x] } σ
        | .halted f => (.error (.failed f) σ, executed)

/-- What `runToEnd` answers, with the number of instructions that have been executed by then. -/
def runCounted (k : Kernel) (instr : Instr) (env : Env) (limit : Nat) (σ : Store) :
    EStateM.Result RuntimeError Store Unit × Nat :=
  let (queue, σ) := σ.newQueue
  k.driveCounted queue limit (limit + 1) ⟨some [.run instr env], [], [], 0⟩ σ

variable (k : Kernel) (queue limit : Nat)

/-- Counting changes nothing. -/
theorem driveCounted_fst (rounds : Nat) (s : RunState) (σ : Store) :
    (k.driveCounted queue limit rounds s σ).1 = k.drive queue limit rounds s σ := by
  -- both runs end in the same round for the same reason
  induction rounds generalizing s σ with
  | zero => rfl
  | succ rounds ih =>
    rw [driveCounted, drive]
    rcases s.pop with _ | ⟨stack, s'⟩
    · dsimp only
      cases s.blockedOn σ with
      | some x => rfl
      | none => rfl
    · dsimp only
      by_cases hlimit : limit ≤ s'.executed
      · rw [if_pos hlimit, if_pos hlimit]
      · rw [if_neg hlimit, if_neg hlimit]
        generalize Context.compute _ _ stack s'.executed σ = result
        cases result.advice with
        -- only these two ends lead to another round
        | ended => exact ih _ _
        | preempted => exact ih _ _
        | waiting => exact ih _ _
        | halted => rfl

theorem runCounted_fst (instr : Instr) (env : Env) (σ : Store) :
    (k.runCounted instr env limit σ).1 = k.runToEnd instr env limit σ :=
  k.driveCounted_fst σ.queues limit (limit + 1) _ σ.newQueue.2

end Kernel

/-! ## The loop -/

/-- The answer to a request for a run of `limit` instructions that went like the slice. -/
def Slice.answer (limit : Nat) (slice : Slice) : EStateM.Result RuntimeError Store Unit :=
  match slice.advice with
  | .ended => .ok () slice.store
  | .waiting x => .error (.blocked x) slice.store
  | .halted f => .error (.failed f) slice.store
  | .preempted _ => .error (.stepLimitExceeded limit) slice.store

/-- The slice of `limit` instructions that a run to the end stands for. -/
def Kernel.wholeRun (instr : Instr) (env : Env) (limit : Nat) (σ : Store) : Slice :=
  let ctx : Context := { owner := kernelOwner, resumer := .queue σ.queues }
  ctx.compute limit [.run instr env] 0 σ.newQueue.2

namespace Kernel

variable (k : Kernel) {queue limit executed rounds : Nat} {stack : Stack} {σ : Store}

/-- One round, when nothing is handed to the queue meanwhile. -/
theorem driveCounted_round (hlimit : executed < limit) {slice : Slice}
    (hslice : Context.compute { owner := kernelOwner, resumer := .queue queue }
      (min k.config.timeSlice (limit - executed)) stack executed σ = slice)
    (hresumed : slice.store.resumedFor (.queue queue) = 0) :
    k.driveCounted queue limit (rounds + 1) ⟨some stack, [], [], executed⟩ σ =
      match slice.advice with
      | .ended => k.driveCounted queue limit rounds ⟨none, [], [], slice.executed⟩ slice.store
      | .preempted stack => k.driveCounted queue limit rounds ⟨some stack, [], [], slice.executed⟩ slice.store
      | .waiting x => k.driveCounted queue limit rounds ⟨none, [], [x], slice.executed⟩ slice.store
      | .halted f => (.error (.failed f) slice.store, slice.executed) := by
  rw [driveCounted]
  simp only [RunState.pop, if_neg (Nat.not_le_of_lt hlimit), hslice, Store.takeWakes_of_resumedFor hresumed]
  rfl

/-- A computation that waits leaves the loop, which finds its variable unbound. -/
theorem driveCounted_parked {x : VarId} (hx : σ.isBound x = false) :
    k.driveCounted queue limit (rounds + 1) ⟨none, [], [x], executed⟩ σ = (.error (.blocked x) σ, executed) := by
  have hblocked : RunState.blockedOn ⟨none, [], [x], executed⟩ σ = some x := by
    simp [RunState.blockedOn, hx]
  rw [driveCounted]
  simp only [RunState.pop, hblocked]

/-- **The loop is one slice.** On the number of rounds that are left: each executes an instruction at least, so there
are enough of them, and the next round goes on where the slice of this one was preempted. -/
theorem driveCounted_eq {instr : Instr} {env : Env} {rest : Stack} (hσ : σ.Closed) (hstack : stack.In σ)
    (hqueue : σ.outstanding (.queue queue) = 0) (hnext : next? stack = some (instr, env, rest))
    (hrounds : limit - executed < rounds) {slice : Slice}
    (hslice : Context.compute { owner := kernelOwner, resumer := .queue queue }
      (limit - executed) stack executed σ = slice) :
    k.driveCounted queue limit rounds ⟨some stack, [], [], executed⟩ σ =
      (slice.answer limit, slice.executed) := by
  induction rounds generalizing stack executed σ instr env rest with
  | zero => exact absurd hrounds (Nat.not_lt_zero _)
  | succ rounds ih =>
    by_cases hlimit : limit ≤ executed
    · rw [Nat.sub_eq_zero_of_le hlimit, Context.compute_zero hnext] at hslice
      rw [driveCounted, ← hslice]
      simp only [RunState.pop, if_pos hlimit]
      rfl
    · have hlt : executed < limit := Nat.lt_of_not_le hlimit
      have hpositive := k.valid.timeSlice_pos
      obtain ⟨rounds, rfl⟩ : ∃ n, rounds = n + 1 := ⟨rounds - 1, by omega⟩
      -- the slice of this round is the first part of the whole one
      obtain ⟨n, hn⟩ : ∃ n, n = min k.config.timeSlice (limit - executed) := ⟨_, rfl⟩
      obtain ⟨m, hm⟩ : ∃ m, limit - executed = n + m := ⟨limit - executed - n, by omega⟩
      rw [hm, Context.compute_add] at hslice
      obtain ⟨hleaves, hin⟩ :=
        Context.compute_leaves { owner := kernelOwner, resumer := .queue queue } n executed hσ hstack
      obtain ⟨first, hfirst⟩ : ∃ first, Context.compute { owner := kernelOwner, resumer := .queue queue }
        n stack executed σ = first := ⟨_, rfl⟩
      rw [hfirst] at hleaves hin hslice
      rw [k.driveCounted_round hlt (hn ▸ hfirst) (hleaves.resumedFor hqueue)]
      obtain ⟨advice, executed', τ⟩ := first
      cases advice with
      | ended =>
        rw [← hslice]
        rfl
      | halted f =>
        rw [← hslice]
        rfl
      | waiting x =>
        rw [← hslice]
        exact k.driveCounted_parked (Store.isBound_of_var hleaves.unbound.resolveVar)
      | preempted stack' =>
        cases hleaves with
        | going hdeeds =>
          obtain ⟨hcount, reached, -, instr', env', rest', -, rfl⟩ := Context.runs_of_compute_eq_preempted hfirst
          have hleft : limit - executed' = m := by omega
          refine ih (hdeeds.closed hσ) hin ((hdeeds.outstanding _).trans hqueue) rfl ?_ ?_
          · show limit - executed' < rounds + 1
            omega
          · show Context.compute _ (limit - executed') _ executed' τ = slice
            rw [hleft]
            exact hslice

/-- The run answers as its slice does, and executes as many instructions. -/
theorem runCounted_eq {instr : Instr} {env : Env} (hσ : σ.Closed) (henv : env.In σ) (hknown : σ.QueuesKnown) :
    k.runCounted instr env limit σ =
      ((wholeRun instr env limit σ).answer limit, (wholeRun instr env limit σ).executed) := by
  have hopened : σ.newQueue.2.Closed := hσ.shorten _ (List.Sublist.refl _)
  have hstack : Stack.In σ.newQueue.2 [.run instr env] :=
    Stack.In.push (fun f hf => absurd hf List.not_mem_nil) henv instr
  exact k.driveCounted_eq hopened hstack (hknown σ.queues (Nat.le_refl _)) rfl (by omega) rfl

theorem runToEnd_eq {instr : Instr} {env : Env} (hσ : σ.Closed) (henv : env.In σ) (hknown : σ.QueuesKnown) :
    k.runToEnd instr env limit σ = (wholeRun instr env limit σ).answer limit := by
  rw [← runCounted_fst, k.runCounted_eq hσ henv hknown]

/-- A run that does not use up its instructions does the same with more of them. -/
theorem wholeRun_of_le {instr : Instr} {env : Env} {limit' : Nat} (hle : limit ≤ limit')
    (hdone : ∀ τ, (wholeRun instr env limit σ).answer limit ≠ .error (.stepLimitExceeded limit) τ) :
    wholeRun instr env limit' σ = wholeRun instr env limit σ := by
  obtain ⟨m, rfl⟩ := Nat.exists_eq_add_of_le hle
  have hmore : wholeRun instr env (limit + m) σ = (wholeRun instr env limit σ).continued _ m :=
    Context.compute_add limit m 0 _ _
  rw [hmore]
  generalize wholeRun instr env limit σ = slice at hdone
  obtain ⟨advice, executed, τ⟩ := slice
  cases advice with
  | preempted stack => exact absurd rfl (hdone τ)
  | ended | waiting | halted => rfl

/-- The answers to two runs that go like one slice differ in the limit that they name, if at all. -/
theorem answer_of_ne {slice : Slice} (hdone : ∀ τ, slice.answer limit ≠ .error (.stepLimitExceeded limit) τ)
    (limit' : Nat) : slice.answer limit' = slice.answer limit := by
  obtain ⟨advice, executed, τ⟩ := slice
  cases advice with
  | preempted stack => exact absurd rfl (hdone τ)
  | ended | waiting | halted => rfl

/-- The store that a run leaves can be run in again. -/
theorem wholeRun_reusable {instr : Instr} {env : Env} (hσ : σ.Closed) (henv : env.In σ) (hknown : σ.QueuesKnown) :
    (wholeRun instr env limit σ).store.Closed ∧ (wholeRun instr env limit σ).store.QueuesKnown ∧
      env.In (wholeRun instr env limit σ).store := by
  have hopened : σ.newQueue.2.Closed := hσ.shorten _ (List.Sublist.refl _)
  have hstack : Stack.In σ.newQueue.2 [.run instr env] :=
    Stack.In.push (fun f hf => absurd hf List.not_mem_nil) henv instr
  obtain ⟨hleaves, -⟩ :=
    Context.compute_leaves { owner := kernelOwner, resumer := .queue σ.queues } limit 0 hopened hstack
  have hwider : σ.newQueue.2.QueuesKnown := fun n hn => hknown n (Nat.le_of_succ_le hn)
  have hevolves := hleaves.evolves
  exact ⟨hevolves.closed hopened, hwider.leaves (Nat.lt_succ_self _) hleaves, hevolves.grows.env henv⟩

/-- **A run to the end is one bounded run.** In every store where nobody waits for queues that were never opened, a run
with any time slice answers as one slice of `limit` instructions stands at its end and leaves the store of that slice.
It executes as many instructions, so at most `limit`. The time slice therefore makes no difference, and neither does
a larger limit to a run that did not exceed its own. The store that is left is such a store again. -/
theorem runToEnd_bounded (k : Kernel) (instr : Instr) (env : Env) (limit : Nat) (σ : Store) (hσ : σ.Closed)
    (henv : env.In σ) (hknown : σ.QueuesKnown) :
    k.runToEnd instr env limit σ = (wholeRun instr env limit σ).answer limit ∧
    k.runCounted instr env limit σ = (k.runToEnd instr env limit σ, (wholeRun instr env limit σ).executed) ∧
    (wholeRun instr env limit σ).executed ≤ limit ∧
    (∀ k' : Kernel, k'.runToEnd instr env limit σ = k.runToEnd instr env limit σ) ∧
    (∀ limit', limit ≤ limit' →
      (∀ τ, k.runToEnd instr env limit σ ≠ .error (.stepLimitExceeded limit) τ) →
      k.runToEnd instr env limit' σ = k.runToEnd instr env limit σ) ∧
    (wholeRun instr env limit σ).store.Closed ∧ (wholeRun instr env limit σ).store.QueuesKnown ∧
      env.In (wholeRun instr env limit σ).store := by
  -- how it is sliced does not matter, so each clause is one about the whole run
  have hrun : ∀ (k : Kernel) (limit : Nat),
      k.runToEnd instr env limit σ = (wholeRun instr env limit σ).answer limit :=
    fun k limit => k.runToEnd_eq hσ henv hknown
  refine ⟨hrun k limit, ?_, ?_, fun k' => (hrun k' limit).trans (hrun k limit).symm, ?_,
    wholeRun_reusable hσ henv hknown⟩
  · rw [k.runCounted_eq hσ henv hknown, hrun]
  · have hcount := Context.compute_executed_le { owner := kernelOwner, resumer := .queue σ.queues } limit 0
      [.run instr env] σ.newQueue.2
    rwa [Nat.zero_add] at hcount
  -- a larger limit only matters to a run that has come to its limit
  · intro limit' hle hdone
    simp only [hrun] at hdone
    rw [hrun, hrun, wholeRun_of_le hle hdone, answer_of_ne hdone]

/-- With time slices of one instruction and a limit of three, the third instruction is the one that has to wait. The
run is preempted twice before, and answers that it is blocked, not that it exceeded its limit. -/
theorem runToEnd_bounded_blocked :
    ∃ (k : Kernel) (σ : Store) (env : Env) (instr : Instr), k.config.timeSlice = 1 ∧ σ.Closed ∧ env.In σ ∧
      σ.QueuesKnown ∧ (wholeRun instr env 3 σ).executed = 3 ∧
      (∃ τ, k.runToEnd instr env 3 σ = .error (.blocked 0) τ) ∧
      ∀ limit, 3 ≤ limit → k.runToEnd instr env limit σ = k.runToEnd instr env 3 σ := by
  let k : Kernel := ⟨{ timeSlice := 1 }, ⟨by decide, by decide, by decide⟩, []⟩
  let σ : Store := ({} : Store).freshVar.2
  let instr : Instr := .seq [.skip, .cond (.ident "x") .skip .skip]
  -- the store has one variable without a value, on which the second instruction waits
  have hmade : ({} : Store).Deeds σ := .single (.newVar rfl (fun k hk => absurd hk List.not_mem_nil))
  have hσ : σ.Closed := hmade.closed Store.closed_empty
  have henv : Env.In σ [("x", 0)] := by
    intro p hp
    rw [List.mem_singleton.mp hp]
    exact Nat.zero_lt_one
  have hknown : σ.QueuesKnown := fun n _ => (hmade.outstanding _).trans (Store.queuesKnown_empty n (Nat.zero_le n))
  obtain ⟨hanswer, -, -, -, hlarger, -⟩ := runToEnd_bounded k instr [("x", 0)] 3 σ hσ henv hknown
  have hcount : (wholeRun instr [("x", 0)] 3 σ).executed = 3 := by decide +kernel
  have hwaits : (wholeRun instr [("x", 0)] 3 σ).advice.waitsFor = some 0 := by decide +kernel
  have hadvice : (wholeRun instr [("x", 0)] 3 σ).advice = .waiting 0 := by
    cases hends : (wholeRun instr [("x", 0)] 3 σ).advice with
    | waiting x =>
      rw [hends] at hwaits
      exact congrArg Advice.waiting (Option.some.inj hwaits)
    | ended | preempted | halted => rw [hends] at hwaits; cases hwaits
  have hblocked : ∃ τ, k.runToEnd instr [("x", 0)] 3 σ = .error (.blocked 0) τ := by
    rw [hanswer, Slice.answer, hadvice]
    exact ⟨_, rfl⟩
  refine ⟨k, σ, [("x", 0)], instr, rfl, hσ, henv, hknown, hcount, hblocked, fun limit hle => hlarger limit hle ?_⟩
  obtain ⟨τ, hτ⟩ := hblocked
  rw [hτ]
  nofun

end Kernel

end Dataflow
