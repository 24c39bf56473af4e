/-
Continuations compose.

What a computation does depends on the top of its stack alone: an instruction puts frames in front of what is to be done
after it and looks at nothing below. So a stack `top` on a stack `base` does what `top` does by itself, instruction by
instruction and with the same effects, as long as `top` has anything to do. Where `top` alone would end, `base` goes on;
where it would be preempted or wait, what is left of it is on `base`; and where it would halt, the thrown value goes to
the innermost trap of `base`.

The two runs do not share every store. A computation that waits is kept in the store with its whole stack, so there they
differ in the stack that was parked, and in nothing else.

A trap is a frame, and what an `attempt` does is a case of this: its body runs on the trap, its handler and what comes
after it run on the frames below. For a body that is stopped and goes on later, possibly after other computations have
changed the store, a `Life` lists the slices together with the stores in which they begin.
-/
import Dataflow.Proofs.Slicing
import Dataflow.Proofs.Replay

set_option autoImplicit false

namespace Dataflow

/-! ## Instructions -/

/-- The same with `base` below what is to be done next. -/
def Flow.over (base : Stack) : Flow → Flow
  | .next stack => .next (stack ++ base)
  | .throw v cause => .throw v cause

section Instructions

variable (env : Env) (args : List Operand) (rest base : Stack)

/-- Entering a procedure puts its body above what is to be done afterwards, and looks at nothing of that. -/
theorem enter_append (c : ClosureId) :
    enter c env args (rest ++ base) = (· ++ base) <$> enter c env args rest := by
  simp only [enter, map_bind]
  congr 1
  funext closure
  split
  · rfl
  · simp

theorem Proc.call_append (ctx : Context) (p : Proc) :
    p.call ctx env args (rest ++ base) = (· ++ base) <$> p.call ctx env args rest := by
  cases p with
  | closure c => exact enter_append env args rest base c
  | native _ | ofCell _ _ | ofActor _ _ | actorMaker _ => simp [call]
  | iter i =>
    match args with
    | [target] => simp [call]
    | [] | _ :: _ :: _ => rfl

theorem Value.call_append (ctx : Context) (v : Value) :
    v.call ctx env args (rest ++ base) = (· ++ base) <$> v.call ctx env args rest := by
  cases v with
  | proc p => exact p.call_append env args rest base ctx
  | failed _ | lit _ | num _ | record _ | obj _ | config _ => rfl

/-- **An instruction looks at nothing below it.** -/
theorem Context.execute_append (ctx : Context) (instr : Instr) :
    ctx.execute env (rest ++ base) instr = Flow.over base <$> ctx.execute env rest instr := by
  -- the stack below is only looked at by the instructions that call or branch
  cases instr with
  | case arg pattern yes no =>
    simp only [execute, map_bind]
    congr 1
    funext t
    congr 1
    funext found
    cases found with
    | some captures => rfl
    | none =>
      cases no with
      | some no => rfl
      | none => rfl
  | selectApply record feature args =>
    simp only [execute, map_bind]
    congr 1
    funext t
    congr 1
    funext u
    cases u with
    | var x => rfl
    | val v => simp [Value.call_append, Flow.over]
  | _ => simp [execute, Flow.over, Value.call_append]

end Instructions

/-! ## Steps -/

/-- A computation leaves the store in two ways when it halts, which differ in what `base` makes of the throw. -/
theorem unwind_append (owner : Address) (v : Value) (cause : Option Fault) (rest base : Stack) (σ : Store) :
    (∃ stack τ, unwind owner v cause rest σ = (.next stack, τ) ∧
      unwind owner v cause (rest ++ base) σ = (.next (stack ++ base), τ)) ∨
    (unwind owner v cause rest σ = unwind owner v cause [] σ ∧
      unwind owner v cause (rest ++ base) σ = unwind owner v cause base σ) := by
  induction rest with
  | nil => exact .inr ⟨rfl, rfl⟩
  | cons frame rest ih =>
    cases frame with
    | trap caught handler env => exact .inl ⟨_, _, rfl, rfl⟩
    | run instr env => exact ih

/-- How a step with `base` below compares to the same step without it. -/
inductive Context.OverBase (ctx : Context) (base : Stack) : Outcome × Store → Outcome × Store → Prop where
  | next (stack : Stack) (τ : Store) : ctx.OverBase base (.next stack, τ) (.next (stack ++ base), τ)
  /-- The stacks that are parked differ. -/
  | waiting (x : VarId) {y : VarId} {stack : Stack} {τ : Store} (hy : τ.resolveVar x = .var y) :
      ctx.OverBase base (.waiting x, τ.park y ⟨stack, ctx.resumer⟩)
        (.waiting x, τ.park y ⟨stack ++ base, ctx.resumer⟩)
  /-- The throw goes on through `base`. -/
  | thrown (v : Value) (cause : Option Fault) (τ : Store) :
      ctx.OverBase base (unwind ctx.owner v cause [] τ) (unwind ctx.owner v cause base τ)

namespace Context

variable {ctx : Context} {top base rest stack : Stack} {instr : Instr} {env : Env} {σ τ : Store}

/-- A throw is caught above `base`, or goes on through it. -/
theorem overBase_unwind (ctx : Context) (v : Value) (cause : Option Fault) (rest base : Stack) (σ : Store) :
    ctx.OverBase base (unwind ctx.owner v cause rest σ) (unwind ctx.owner v cause (rest ++ base) σ) := by
  rcases unwind_append ctx.owner v cause rest base σ with ⟨stack, τ, hrest, hboth⟩ | ⟨hrest, hboth⟩
  · rw [hrest, hboth]
    exact .next stack τ
  · rw [hrest, hboth]
    exact .thrown v cause σ

/-- So is a fault, after it has been turned into a value. -/
theorem overBase_raise (ctx : Context) (f : Fault) (rest base : Stack) (σ : Store) :
    ctx.OverBase base (raise ctx.owner f rest σ) (raise ctx.owner f (rest ++ base) σ) := by
  unfold raise
  split
  · exact ctx.overBase_unwind _ _ rest base σ
  · exact ctx.overBase_unwind _ _ rest base _

/-- **A step does the same with anything below it.** -/
theorem step_append (ctx : Context) (instr : Instr) (env : Env) (rest base : Stack) (σ : Store) :
    ctx.OverBase base (ctx.step instr env rest σ) (ctx.step instr env (rest ++ base) σ) := by
  rw [step, step, execute_append]
  simp only [Functor.map, EStateM.map]
  cases ctx.execute env rest instr σ with
  | ok flow τ =>
    cases flow with
    | next stack => exact .next stack τ
    | throw v cause => exact ctx.overBase_unwind v cause rest base τ
  | error e τ =>
    cases e with
    | fault f => exact ctx.overBase_raise f rest base τ
    | blocked x =>
      simp only [Store.suspend]
      cases hx : τ.resolveVar x with
      | var y => exact @OverBase.waiting ctx base x y (.run instr env :: rest) τ hx
      | val v => exact .next (.run instr env :: rest) τ

/-- What comes next on `base` is what comes next on `top`, unless `top` has nothing left to do. -/
theorem next?_append (h : next? top = some (instr, env, rest)) :
    next? (top ++ base) = some (instr, env, rest ++ base) := by
  induction top with
  | nil => cases h
  | cons frame top ih =>
    cases frame with
    | run i e =>
      cases h
      rfl
    | trap _ _ _ => exact ih h

/-- What comes next below a stack with nothing left to do is what comes next on the whole. -/
theorem next?_append_of_none (h : next? top = none) : next? (top ++ base) = next? base := by
  induction top with
  | nil => rfl
  | cons frame top ih =>
    cases frame with
    | run i e => cases h
    | trap _ _ _ => exact ih h

/-! ## Runs -/

/-- A step that goes on, goes on with `base` below. -/
theorem OverBase.eq_next {r : Outcome × Store} (h : ctx.OverBase base (.next stack, τ) r) :
    r = (.next (stack ++ base), τ) := by
  generalize hfirst : (Outcome.next stack, τ) = first at h
  cases h with
  | next => cases hfirst; rfl
  | waiting => cases hfirst
  | thrown => cases hfirst

/-- A step that has to wait, has to wait with `base` below. -/
theorem OverBase.waiting_eq {x : VarId} {r : Outcome × Store} (h : ctx.OverBase base (.waiting x, τ) r) :
    ∃ (y : VarId) (t : Stack) (ρ : Store), ρ.resolveVar x = .var y ∧ τ = ρ.park y ⟨t, ctx.resumer⟩ ∧
      r = (.waiting x, ρ.park y ⟨t ++ base, ctx.resumer⟩) := by
  generalize hfirst : (Outcome.waiting x, τ) = first at h
  cases h with
  | next => cases hfirst
  | @waiting _ y t ρ hy => cases hfirst; exact ⟨y, t, ρ, hy, rfl, rfl⟩
  | thrown => cases hfirst

/-- A step that halts by itself has thrown something, and `base` takes it. -/
theorem OverBase.halted_eq {f : FailureId} {r : Outcome × Store} (h : ctx.OverBase base (.halted f, τ) r) :
    ∃ (v : Value) (cause : Option Fault) (ρ : Store), (f, τ) = ρ.newFailure ⟨ctx.owner, v, cause⟩ ∧
      r = unwind ctx.owner v cause base ρ := by
  generalize hfirst : (Outcome.halted f, τ) = first at h
  cases h with
  | next => cases hfirst
  | waiting => cases hfirst
  | thrown v cause ρ => cases hfirst; exact ⟨v, cause, ρ, rfl, rfl⟩

/-- **The run of `top` on `base` follows the run of `top`**, instruction by instruction. -/
theorem Runs.append {n : Nat} {s t : Stack × Store} (h : ctx.Runs n s t) (base : Stack) :
    ctx.Runs n (s.1 ++ base, s.2) (t.1 ++ base, t.2) := by
  induction h with
  | refl s => exact .refl _
  | @step n stack stack' rest instr env σ σ' t hnext hstep hruns ih =>
    have hover := ctx.step_append instr env rest base σ
    rw [hstep] at hover
    exact .step (next?_append hnext) hover.eq_next ih

end Context

/-! ## Throws in the base -/

/-- Nothing among the frames catches a throw. -/
def Stack.Trapless (s : Stack) : Prop := ∀ caught handler env, Frame.trap caught handler env ∉ s

namespace Stack.Trapless

variable {s runs below : Stack} {frame : Frame}

theorem tail (h : Stack.Trapless (frame :: s)) : s.Trapless := fun caught handler env hmem =>
  h caught handler env (List.mem_cons_of_mem frame hmem)

/-- Without a trap the computation halts with what was thrown. -/
theorem unwind_eq (h : s.Trapless) (owner : Address) (v : Value) (cause : Option Fault) (σ : Store) :
    unwind owner v cause s σ = unwind owner v cause [] σ := by
  induction s with
  | nil => rfl
  | cons frame s ih =>
    cases frame with
    | run => exact ih h.tail
    | trap caught handler env => exact absurd List.mem_cons_self (h caught handler env)

/-- The innermost trap runs its handler on the frames below it. -/
theorem unwind_append_trap (h : runs.Trapless) (owner : Address) (v : Value) (cause : Option Fault)
    (caught : Ident) (handler : Instr) (env : Env) (below : Stack) (σ : Store) :
    unwind owner v cause (runs ++ .trap caught handler env :: below) σ =
      (.next (.run handler (env.extend [(caught, σ.vars.size)]) :: below), (σ.newVar (.bound v)).2) := by
  induction runs with
  | nil => rfl
  | cons frame runs ih =>
    cases frame with
    | run => exact ih h.tail
    | trap caught handler env => exact absurd List.mem_cons_self (h caught handler env)

end Stack.Trapless

/-! ## Slices -/

/-- What a slice of `top` by itself says about `top` on `base`. If `top` ends after `k` instructions, then `base` goes
on after `k` instructions in the same store. If it is preempted, so is `top` on `base`, and if it has to wait, so has
`top` on `base`, with `base` below what is left of it. If it halts, then the handler of the innermost trap of `base`
goes on with the thrown value on the frames below the trap; without a trap the computation halts in the same way. -/
def Context.Composes (ctx : Context) (top base : Stack) (σ : Store) (n executed : Nat) : Prop :=
  let slice := ctx.compute n top executed σ
  match slice.advice with
  | .ended => ∃ k ≤ n, slice.executed = executed + k ∧
      ∀ m, ctx.compute (k + m) (top ++ base) executed σ = ctx.compute m base (executed + k) slice.store
  | .preempted t => slice.executed = executed + n ∧
      ctx.compute n (top ++ base) executed σ = ⟨.preempted (t ++ base), executed + n, slice.store⟩
  | .waiting x => ∃ k ≤ n, ∃ (y : VarId) (t : Stack) (τ : Store), slice.executed = executed + k ∧
      τ.resolveVar x = .var y ∧ slice.store = τ.park y ⟨t, ctx.resumer⟩ ∧
      ∀ m, ctx.compute (k + m) (top ++ base) executed σ =
        ⟨.waiting x, executed + k, τ.park y ⟨t ++ base, ctx.resumer⟩⟩
  | .halted f => ∃ k ≤ n, ∃ (v : Value) (cause : Option Fault) (τ : Store), slice.executed = executed + k ∧
      (f, slice.store) = τ.newFailure ⟨ctx.owner, v, cause⟩ ∧
      (∀ (runs : Stack) caught handler env below, Stack.Trapless runs →
        base = runs ++ .trap caught handler env :: below → ∀ m, ctx.compute (k + m) (top ++ base) executed σ =
          ctx.compute m (.run handler (env.extend [(caught, τ.vars.size)]) :: below) (executed + k)
            (τ.newVar (.bound v)).2) ∧
      (Stack.Trapless base → ∀ m, ctx.compute (k + m) (top ++ base) executed σ = slice)

namespace Context

variable {ctx : Context} {top base rest stack : Stack} {instr : Instr} {env : Env} {σ τ : Store} {n executed : Nat}

/-- One instruction more in front. -/
theorem Composes.step (h : ctx.Composes stack base τ n (executed + 1))
    (hnext : next? top = some (instr, env, rest)) (hstep : ctx.step instr env rest σ = (.next stack, τ)) :
    ctx.Composes top base σ (n + 1) executed := by
  have hover := ctx.step_append instr env rest base σ
  rw [hstep] at hover
  -- the first step is the same on both stacks, with one instruction less to run after it
  have halone : ctx.compute (n + 1) top executed σ = ctx.compute n stack (executed + 1) τ := by
    rw [compute_succ hnext, hstep]
  have hboth : ∀ k, ctx.compute (k + 1) (top ++ base) executed σ =
      ctx.compute k (stack ++ base) (executed + 1) τ := by
    intro k
    rw [compute_succ (next?_append hnext), hover.eq_next]
  have hshift : ∀ k m, ctx.compute (k + 1 + m) (top ++ base) executed σ =
      ctx.compute (k + m) (stack ++ base) (executed + 1) τ := by
    intro k m
    rw [Nat.add_right_comm]
    exact hboth (k + m)
  have hcount : ∀ k, executed + (k + 1) = executed + 1 + k := fun k => by omega
  unfold Composes at h ⊢
  rw [halone]
  generalize ctx.compute n stack (executed + 1) τ = slice at h ⊢
  obtain ⟨advice, executed', ρ⟩ := slice
  -- the four ends of what follows, each one instruction later
  cases advice with
  | ended =>
    obtain ⟨k, hk, hexecuted, hmore⟩ := h
    refine ⟨k + 1, Nat.succ_le_succ hk, hexecuted.trans (hcount k).symm, fun m => ?_⟩
    rw [hshift, hcount k]
    exact hmore m
  | preempted t =>
    refine ⟨h.1.trans (hcount n).symm, ?_⟩
    rw [hboth, hcount n]
    exact h.2
  | waiting x =>
    obtain ⟨k, hk, y, t, υ, hexecuted, hy, hparked, hmore⟩ := h
    refine ⟨k + 1, Nat.succ_le_succ hk, y, t, υ, hexecuted.trans (hcount k).symm, hy, hparked, fun m => ?_⟩
    rw [hshift, hcount k]
    exact hmore m
  | halted f =>
    obtain ⟨k, hk, v, cause, υ, hexecuted, hfailure, hcaught, hfree⟩ := h
    refine ⟨k + 1, Nat.succ_le_succ hk, v, cause, υ, hexecuted.trans (hcount k).symm, hfailure, ?_, ?_⟩
    · intro runs caught handler env below hruns hbase m
      rw [hshift, hcount k]
      exact hcaught runs caught handler env below hruns hbase m
    · intro hbase m
      rw [hshift]
      exact hfree hbase m

/-- **Slices compose.** On the number of instructions that `top` may still execute. -/
theorem compute_composes (ctx : Context) (top base : Stack) (σ : Store) (n executed : Nat) :
    ctx.Composes top base σ n executed := by
  -- on the length of the slice
  induction n generalizing top executed σ with
  | zero =>
    -- either nothing is left above the base, or the slice is over
    rcases hnext : next? top with _ | ⟨instr, env, rest⟩
    · unfold Composes
      rw [compute_of_next?_eq_none hnext]
      refine ⟨0, Nat.le_refl 0, rfl, fun m => ?_⟩
      rw [Nat.zero_add]
      exact compute_congr (next?_append_of_none hnext) m executed σ
    · unfold Composes
      rw [compute_zero hnext, compute_zero (next?_append hnext)]
      exact ⟨rfl, rfl⟩
  | succ n ih =>
    rcases hnext : next? top with _ | ⟨instr, env, rest⟩
    · unfold Composes
      rw [compute_of_next?_eq_none hnext]
      refine ⟨0, Nat.zero_le _, rfl, fun m => ?_⟩
      rw [Nat.zero_add]
      exact compute_congr (next?_append_of_none hnext) m executed σ
    -- one step, which goes on, waits or throws
    · rcases hstep : ctx.step instr env rest σ with ⟨stack | x | f, τ⟩
      · exact (ih stack τ (executed + 1)).step hnext hstep
      · have hover := ctx.step_append instr env rest base σ
        rw [hstep] at hover
        obtain ⟨y, t, ρ, hy, hparked, hwaits⟩ := hover.waiting_eq
        unfold Composes
        rw [compute_succ hnext, hstep]
        refine ⟨1, Nat.succ_le_succ (Nat.zero_le n), y, t, ρ, rfl, hy, hparked, fun m => ?_⟩
        rw [Nat.add_comm, compute_succ (next?_append hnext), hwaits]
      · have hover := ctx.step_append instr env rest base σ
        rw [hstep] at hover
        obtain ⟨v, cause, ρ, hfailure, hthrows⟩ := hover.halted_eq
        unfold Composes
        rw [compute_succ hnext, hstep]
        refine ⟨1, Nat.succ_le_succ (Nat.zero_le n), v, cause, ρ, rfl, hfailure, ?_, fun hbase m => ?_⟩
        -- what is thrown goes to the next trap of the base, where there is one
        · intro runs caught handler env below hruns hbase m
          rw [Nat.add_comm, compute_succ (next?_append hnext), hthrows, hbase, hruns.unwind_append_trap]
        · rw [Nat.add_comm, compute_succ (next?_append hnext), hthrows, hbase.unwind_eq]
          cases hfailure
          rfl

/-! ## Computations that are stopped and go on -/

/-- A slice of at most `n` instructions from `σ` leaves `t` of the stack `s`: it is preempted with this stack, or the
instruction on top of it has to wait. -/
inductive Pauses (ctx : Context) (n : Nat) (σ : Store) (s t : Stack) : Prop where
  | preempted {before executed : Nat} {τ : Store} (h : ctx.compute n s before σ = ⟨.preempted t, executed, τ⟩)
  | waiting {k : Nat} {x : VarId} {reached rest : Stack} {instr : Instr} {env : Env} {ρ τ : Store} (hk : k < n)
      (hruns : ctx.Runs k (s, σ) (reached, ρ)) (hnext : next? reached = some (instr, env, rest))
      (hstep : ctx.step instr env rest ρ = (.waiting x, τ)) (ht : t = .run instr env :: rest)

/-- The life of a computation up to now. Each of its slices began in a store of its own, since others may have changed
the store in between, with the stack that the slice before had left. -/
inductive Life (ctx : Context) : List (Nat × Store) → Stack → Stack → Prop where
  | start (s : Stack) : ctx.Life [] s s
  | pause {n : Nat} {σ : Store} {slices : List (Nat × Store)} {s t u : Stack} (h : ctx.Pauses n σ s t)
      (hlife : ctx.Life slices t u) : ctx.Life ((n, σ) :: slices) s u

/-- A computation that waits has reached the instruction that made it wait. -/
theorem pauses_of_waiting {x : VarId} (h : (ctx.compute n stack executed σ).advice = .waiting x) :
    ∃ t, ctx.Pauses n σ stack t := by
  suffices hreached : ∃ k < n, ∃ reached ρ instr env rest τ, ctx.Runs k (stack, σ) (reached, ρ) ∧
      next? reached = some (instr, env, rest) ∧ ctx.step instr env rest ρ = (.waiting x, τ) by
    obtain ⟨k, hk, reached, ρ, instr, env, rest, τ, hruns, hnext, hstep⟩ := hreached
    exact ⟨_, .waiting hk hruns hnext hstep rfl⟩
  -- one step after the other: the slice ends with a step, or goes on from where it leads
  induction n generalizing stack executed σ with
  | zero =>
    rcases hnext : next? stack with _ | ⟨instr, env, rest⟩
    · rw [compute_of_next?_eq_none hnext] at h
      cases h
    · rw [compute_zero hnext] at h
      cases h
  | succ n ih =>
    rcases hnext : next? stack with _ | ⟨instr, env, rest⟩
    · rw [compute_of_next?_eq_none hnext] at h
      cases h
    · rw [compute_succ hnext] at h
      -- the first step goes on, or it is the one that waits
      rcases hstep : ctx.step instr env rest σ with ⟨stack' | y | f, τ⟩
      · rw [hstep] at h
        obtain ⟨k, hk, reached, ρ, i, e, r, υ, hruns, hlast⟩ := ih h
        exact ⟨k + 1, Nat.succ_lt_succ hk, reached, ρ, i, e, r, υ, .step hnext hstep hruns, hlast⟩
      · rw [hstep] at h
        cases h
        exact ⟨0, Nat.succ_pos n, stack, σ, instr, env, rest, τ, .refl _, hnext, hstep⟩
      · rw [hstep] at h
        cases h

/-- A pause stays one when frames are added below: nothing of them has been executed yet. -/
theorem Pauses.append {t : Stack} (h : ctx.Pauses n σ top t) (base : Stack) :
    ctx.Pauses n σ (top ++ base) (t ++ base) := by
  cases h with
  | @preempted before executed τ h =>
    have hcomposes := ctx.compute_composes top base σ n before
    unfold Composes at hcomposes
    rw [h] at hcomposes
    exact .preempted hcomposes.2
  | @waiting k x reached rest instr env ρ τ hk hruns hnext hstep ht =>
    have hover := ctx.step_append instr env rest base ρ
    rw [hstep] at hover
    obtain ⟨y, u, υ, -, -, hwaits⟩ := hover.waiting_eq
    exact .waiting hk (hruns.append base) (next?_append hnext) hwaits (by rw [ht]; rfl)

/-- The life of `top` on `base` follows that of `top`, through slices that begin in the same stores. -/
theorem Life.append {slices : List (Nat × Store)} {t : Stack} (h : ctx.Life slices top t) (base : Stack) :
    ctx.Life slices (top ++ base) (t ++ base) := by
  induction h with
  | start s => exact .start _
  | pause h _ ih => exact .pause (h.append base) ih

/-- **Continuations compose.** A stack on a base runs as it runs by itself, step by step, slice by slice and through
any number of interruptions, until it ends or throws. So an `attempt` catches exactly what its body throws: however
often the body has been stopped, what is left of it is on the trap; once it ends, what comes after the `attempt` goes
on without the trap; and once it throws, the handler goes on without the trap, with the thrown value. -/
theorem compute_append (ctx : Context) (top base : Stack) (σ : Store) :
    (∀ n t τ, ctx.Runs n (top, σ) (t, τ) → ctx.Runs n (top ++ base, σ) (t ++ base, τ)) ∧
    (∀ n executed, ctx.Composes top base σ n executed) ∧
    (∀ slices t, ctx.Life slices top t → ctx.Life slices (top ++ base) (t ++ base)) ∧
    ∀ body caught handler env n executed,
      ctx.compute (n + 1) (.run (.attempt body caught handler) env :: base) executed σ =
        ctx.compute n (.run body env :: .trap caught handler env :: base) (executed + 1) σ ∧
      ∀ slices t, ctx.Life slices [.run body env] t →
        ctx.Life slices (.run body env :: .trap caught handler env :: base)
          (t ++ .trap caught handler env :: base) ∧
        match (ctx.compute n t executed σ).advice with
        | .ended => ∃ k ≤ n, ∀ m,
            ctx.compute (k + m) (t ++ .trap caught handler env :: base) executed σ =
              ctx.compute m base (executed + k) (ctx.compute n t executed σ).store
        | .halted f => ∃ k ≤ n, ∃ (v : Value) (cause : Option Fault) (τ : Store),
            (f, (ctx.compute n t executed σ).store) = τ.newFailure ⟨ctx.owner, v, cause⟩ ∧
            ∀ m, ctx.compute (k + m) (t ++ .trap caught handler env :: base) executed σ =
              ctx.compute m (.run handler (env.extend [(caught, τ.vars.size)]) :: base) (executed + k)
                (τ.newVar (.bound v)).2
        | .preempted _ | .waiting _ => ∃ u, ctx.Pauses n σ t u ∧
            ctx.Pauses n σ (t ++ .trap caught handler env :: base) (u ++ .trap caught handler env :: base) := by
  refine ⟨fun n t τ h => h.append base, ctx.compute_composes top base σ, fun slices t h => h.append base, ?_⟩
  intro body caught handler env n executed
  have hfirst : ctx.step (.attempt body caught handler) env base σ =
      (.next (.run body env :: .trap caught handler env :: base), σ) := rfl
  refine ⟨by rw [compute_succ rfl, hfirst], fun slices t hlife => ⟨hlife.append _, ?_⟩⟩
  have hcomposes := ctx.compute_composes t (.trap caught handler env :: base) σ n executed
  unfold Composes at hcomposes
  rcases hslice : ctx.compute n t executed σ with ⟨_ | u | x | f, executed', τ⟩
  · rw [hslice] at hcomposes
    obtain ⟨k, hk, -, hmore⟩ := hcomposes
    -- the trap is dropped before the next instruction
    have hdropped : next? (.trap caught handler env :: base) = next? base := rfl
    exact ⟨k, hk, fun m => (hmore m).trans (compute_congr hdropped m _ _)⟩
  · have hpauses : ctx.Pauses n σ t u := .preempted hslice
    exact ⟨u, hpauses, hpauses.append _⟩
  · obtain ⟨u, hpauses⟩ := ctx.pauses_of_waiting (x := x) (by rw [hslice])
    exact ⟨u, hpauses, hpauses.append _⟩
  · rw [hslice] at hcomposes
    obtain ⟨k, hk, v, cause, ρ, -, hfailure, hcaught, -⟩ := hcomposes
    exact ⟨k, hk, v, cause, ρ, hfailure, hcaught [] caught handler env base (fun _ _ _ h => absurd h List.not_mem_nil) rfl⟩

/-! ## A body that waits before it throws -/

/-- What is left of `seq [if x skip skip, throw null]` after one instruction. -/
def lateThrow : Stack :=
  [.run (.cond (.ident "x") .skip .skip) [("x", 0)], .run (.throw (.lit .null)) [("x", 0)]]

/-- The whole body. -/
def lateBody : Instr := .seq [.cond (.ident "x") .skip .skip, .throw (.lit .null)]

/-- The body waits for `x` in its first slice and throws in its second, for which `x` has got a value. The handler then
runs with the thrown value in `e`, on the empty stack below the trap. -/
theorem compute_append_lateThrow :
    let ctx : Context := { owner := "main", resumer := .tag "main" }
    let unknown : Store := ({} : Store).freshVar.2
    let known : Store := (({} : Store).newVar (.bound (.bool true))).2
    let trap : Frame := .trap "e" .skip [("x", 0)]
    let body : Stack := [.run lateBody [("x", 0)]]
    ctx.Runs 1 (body ++ [trap], unknown) (lateThrow ++ [trap], unknown) ∧
    ctx.Life [(2, unknown)] (body ++ [trap]) (lateThrow ++ [trap]) ∧
    (ctx.compute 3 lateThrow 0 known).advice = .halted 0 ∧
    ∃ k ≤ 3, ∃ (v : Value) (cause : Option Fault) (τ : Store),
      (0, (ctx.compute 3 lateThrow 0 known).store) = τ.newFailure ⟨"main", v, cause⟩ ∧
      ∀ m, ctx.compute (k + m) (lateThrow ++ [trap]) 0 known =
        ctx.compute m [.run .skip [("e", τ.vars.size), ("x", 0)]] (0 + k) (τ.newVar (.bound v)).2 := by
  intro ctx unknown known trap body
  have hfirst : ctx.step lateBody [("x", 0)] [] unknown = (.next lateThrow, unknown) := rfl
  have hruns : ctx.Runs 1 (body, unknown) (lateThrow, unknown) := .step rfl hfirst (.refl _)
  have hunbound : unknown.resolveVar 0 = .var 0 := Store.Unbound.resolveVar ⟨[], rfl⟩
  have hbound : known.resolveVar 0 = .val (.bool true) := by
    have hstate : known.vars[0]? = some (.bound (.bool true)) := rfl
    have hrep : known.representative 0 = 0 := by
      refine Store.representative_of_ne_link fun y hy => ?_
      rw [hstate] at hy
      cases hy
    exact Store.resolveVar_of_bound (by rw [hrep, hstate])
  have hwaits : (ctx.step (.cond (.ident "x") .skip .skip) [("x", 0)] [.run (.throw (.lit .null)) [("x", 0)]]
      unknown).1 = .waiting 0 := by
    rw [step, execute, bind_apply, Operand.value_of_var rfl hunbound]
    simp only [Store.suspend_of_var hunbound]
  -- the body waits for the unknown variable in its only step
  have hlife : ctx.Life [(2, unknown)] body lateThrow :=
    .pause (.waiting Nat.one_lt_two hruns rfl (Prod.ext hwaits rfl) rfl) (.start lateThrow)
  have hgoes : ctx.step (.cond (.ident "x") .skip .skip) [("x", 0)] [.run (.throw (.lit .null)) [("x", 0)]] known =
      (.next [.run .skip [("x", 0)], .run (.throw (.lit .null)) [("x", 0)]], known) := by
    have hvalue : ∀ f, Value.bool true ≠ .failed f := by
      intro f hf
      cases hf
    rw [step, execute, bind_apply, Operand.value_of_val rfl hbound hvalue]
    rfl
  have hhalts : (ctx.compute 3 lateThrow 0 known).advice = .halted 0 := by
    rw [lateThrow, compute_succ rfl, hgoes]
    rfl
  obtain ⟨happend, -, happends, -⟩ := ctx.compute_append body [trap] unknown
  obtain ⟨-, -, -, hattempt⟩ := ctx.compute_append [] [] known
  have hcaught := ((hattempt lateBody "e" .skip [("x", 0)] 3 0).2 _ lateThrow hlife).2
  rw [hhalts] at hcaught
  exact ⟨happend 1 lateThrow unknown hruns, happends _ lateThrow hlife, hhalts, hcaught⟩

end Context

end Dataflow
