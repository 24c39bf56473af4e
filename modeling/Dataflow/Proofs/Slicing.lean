/-
Time slices are invisible to a computation.

A computation that may run `n + m` instructions does what it does when it is stopped after `n` of them and
then continued, from the stack that it was stopped with, for `m` more: the same advice, the same number of
executed instructions and the same store, the log of effects included. Only a preempted computation is
continued; one that ended, waits or halted within the first slice leaves nothing to continue.

The equation alone would also hold of a `compute` that is preempted at once and for ever, so the second half
says what a preempted stack is. `Runs` is the run without slices, one instruction after the other. The stack
of a preempted computation is the one that this run has reached after exactly `n` instructions, without the
traps on top of it, whose bodies ended before the next instruction.
-/
import Dataflow.Machine.Compute

set_option autoImplicit false

namespace Dataflow

/-! ## The run without slices -/

/-- `ctx.Runs n s t`: from the stack and store `s`, executing `n` instructions leads to `t`, none of them
ending the computation. -/
inductive Context.Runs (ctx : Context) : Nat → Stack × Store → Stack × Store → Prop where
  | refl (s : Stack × Store) : ctx.Runs 0 s s
  | step {n : Nat} {stack stack' rest : Stack} {instr : Instr} {env : Env} {σ σ' : Store}
      {t : Stack × Store} (hnext : next? stack = some (instr, env, rest))
      (hstep : ctx.step instr env rest σ = (.next stack', σ')) (hruns : ctx.Runs n (stack', σ') t) :
      ctx.Runs (n + 1) (stack, σ) t

/-- What becomes of a slice that is continued for `m` instructions: only a preempted computation has anything
left to do. -/
def Slice.continued (ctx : Context) (m : Nat) : Slice → Slice
  | ⟨.preempted stack, executed, σ⟩ => ctx.compute m stack executed σ
  | slice => slice

namespace Context

variable {ctx : Context} {stack rest : Stack} {instr : Instr} {env : Env}

/-! ## One instruction of `compute` -/

theorem compute_of_next?_eq_none (h : next? stack = none) (n executed : Nat) (σ : Store) :
    ctx.compute n stack executed σ = ⟨.ended, executed, σ⟩ := by
  unfold compute
  rw [h]

theorem compute_zero (h : next? stack = some (instr, env, rest)) (executed : Nat) (σ : Store) :
    ctx.compute 0 stack executed σ = ⟨.preempted (.run instr env :: rest), executed, σ⟩ := by
  unfold compute
  rw [h]

/-- With room for one more, the next instruction is executed, and what remains of the slice goes on from what comes of it. -/
theorem compute_succ (h : next? stack = some (instr, env, rest)) (n executed : Nat) (σ : Store) :
    ctx.compute (n + 1) stack executed σ =
      match ctx.step instr env rest σ with
      | (.next stack, σ) => ctx.compute n stack (executed + 1) σ
      | (.waiting x, σ) => ⟨.waiting x, executed + 1, σ⟩
      | (.halted f, σ) => ⟨.halted f, executed + 1, σ⟩ := by
  have hcompute := compute.eq_def ctx (n + 1) stack executed σ
  simp only [h] at hcompute
  exact hcompute

/-- A slice of a stack depends on the stack only through what comes next, so the traps that `next?` skips
may as well have been dropped before. -/
theorem compute_congr {stack' : Stack} (h : next? stack = next? stack') (n executed : Nat) (σ : Store) :
    ctx.compute n stack executed σ = ctx.compute n stack' executed σ := by
  unfold compute
  rw [h]

/-! ## Two slices -/

/-- A slice of `n + m` instructions is one of `n` that is continued for `m`. -/
theorem compute_add (n m executed : Nat) (stack : Stack) (σ : Store) :
    ctx.compute (n + m) stack executed σ = (ctx.compute n stack executed σ).continued ctx m := by
  induction n generalizing stack executed σ with
  | zero =>
    rcases hnext : next? stack with _ | ⟨instr, env, rest⟩
    · rw [compute_of_next?_eq_none hnext, compute_of_next?_eq_none hnext]
      rfl
    -- the preempted stack has lost the traps on top, which `next?` would have skipped anyway
    · rw [compute_zero hnext, Nat.zero_add]
      exact compute_congr hnext m executed σ
  | succ n ih =>
    rcases hnext : next? stack with _ | ⟨instr, env, rest⟩
    · rw [compute_of_next?_eq_none hnext, compute_of_next?_eq_none hnext]
      rfl
    · rw [Nat.succ_add, compute_succ hnext, compute_succ hnext]
      -- the first instruction is common to both sides; only if the computation goes on is there more to do
      rcases ctx.step instr env rest σ with ⟨_ | _ | _, σ'⟩
      · exact ih (executed + 1) _ σ'
      · rfl
      · rfl

/-! ## What a preempted stack is -/

/-- The slice that ends with preemption has executed all of its instructions, one after the other. -/
theorem runs_of_compute_eq_preempted {n executed executed' : Nat} {stack stack' : Stack} {σ σ' : Store}
    (h : ctx.compute n stack executed σ = ⟨.preempted stack', executed', σ'⟩) :
    executed' = executed + n ∧ ∃ reached, ctx.Runs n (stack, σ) (reached, σ') ∧
      ∃ instr env rest, next? reached = some (instr, env, rest) ∧ stack' = .run instr env :: rest := by
  induction n generalizing stack executed σ with
  | zero =>
    rcases hnext : next? stack with _ | ⟨instr, env, rest⟩
    · rw [compute_of_next?_eq_none hnext] at h
      cases h
    · rw [compute_zero hnext] at h
      cases h
      exact ⟨rfl, stack, .refl _, instr, env, rest, hnext, rfl⟩
  | succ n ih =>
    rcases hnext : next? stack with _ | ⟨instr, env, rest⟩
    · rw [compute_of_next?_eq_none hnext] at h
      cases h
    · rw [compute_succ hnext] at h
      rcases hstep : ctx.step instr env rest σ with ⟨stack₁ | x | f, σ₁⟩
      · rw [hstep] at h
        obtain ⟨hexecuted, reached, hruns, hreached⟩ := ih h
        exact ⟨by omega, reached, .step hnext hstep hruns, hreached⟩
      · rw [hstep] at h
        cases h
      · rw [hstep] at h
        cases h

/-- A run of `n` instructions with more to do is a slice that ends with preemption. -/
theorem compute_of_runs {n : Nat} {s t : Stack × Store} (h : ctx.Runs n s t) (executed : Nat)
    (hnext : next? t.1 = some (instr, env, rest)) :
    ctx.compute n s.1 executed s.2 = ⟨.preempted (.run instr env :: rest), executed + n, t.2⟩ := by
  induction h generalizing executed with
  | refl s => exact compute_zero hnext executed s.2
  | step hfirst hstep _ ih =>
    rw [compute_succ hfirst, hstep]
    simp only
    rw [ih (executed + 1) hnext]
    congr 1
    omega

/-- **Slicing is invisible.** A slice of `n + m` instructions is a slice of `n` continued for `m` exactly when
that was preempted. It is preempted exactly when the run without slices has more to do after `n` instructions,
and its stack is then the one this run has reached, with the next instruction on top. -/
theorem compute_slices (ctx : Context) (n m executed : Nat) (stack : Stack) (σ : Store) :
    ctx.compute (n + m) stack executed σ = (ctx.compute n stack executed σ).continued ctx m ∧
    ∀ stack' executed' σ',
      ctx.compute n stack executed σ = ⟨.preempted stack', executed', σ'⟩ ↔
        executed' = executed + n ∧ ∃ reached, ctx.Runs n (stack, σ) (reached, σ') ∧
          ∃ instr env rest, next? reached = some (instr, env, rest) ∧ stack' = .run instr env :: rest := by
  refine ⟨compute_add n m executed stack σ, fun stack' executed' σ' => ⟨runs_of_compute_eq_preempted, ?_⟩⟩
  rintro ⟨rfl, reached, hruns, instr, env, rest, hnext, rfl⟩
  exact compute_of_runs hruns executed hnext

end Context

end Dataflow
