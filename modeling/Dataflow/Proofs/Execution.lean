/-
Execution: a computation keeps the store closed and its stack in the store.

Every instruction is a safe action, whatever it does and however it ends. A step is an instruction and what
follows from it: going on, unwinding to a trap, waiting, or halting. A slice is a sequence of steps. Whatever a
slice does to the store is therefore a sequence of elementary changes, and a preempted computation can go on
from where it was, since its stack is still in the store.
-/
import Dataflow.Proofs.Calls
import Dataflow.Machine.Compute

set_option autoImplicit false

namespace Dataflow

variable {σ : Store} {env : Env} {rest : Stack}

/-! ## Parts of instructions -/

namespace Value

/-- The result of an operation is a number or a string, which are everywhere. -/
theorem arith_in {op : ArithOp} {a b v : Value} (h : a.arith op b = .ok v) : v.In σ := by
  unfold Value.arith at h
  split at h
  -- two strings are joined; anything else has to be two numbers
  · cases h
    trivial
  · rcases hm : a.asNum with e | m
    · rw [hm] at h
      cases h
    · rcases hn : b.asNum with e | n
      · rw [hm, hn] at h
        cases h
      · rw [hm, hn] at h
        simp only [bind, Except.bind] at h
        split at h
        · cases h
          trivial
        · cases h

end Value

/-- A procedure of an object belongs to that object, and so is in the store when the object is. -/
theorem Obj.select?_in {o : Obj} (ho : Value.In σ (.obj o)) {f : Feature} {p : Proc}
    (h : o.select? f = some p) : p.In σ := by
  cases f with
  | str s =>
    cases o with
    -- getting the content and setting it
    | cell c =>
      simp only [Obj.select?, Obj.procs, List.map_cons, List.map_nil, List.lookup_cons, List.lookup_nil] at h
      split at h
      · cases h
        exact ho
      · split at h
        · cases h
          exact ho
        · cases h
    -- asking and telling
    | actor a =>
      simp only [Obj.select?, Obj.procs, List.map_cons, List.map_nil, List.lookup_cons, List.lookup_nil] at h
      split at h
      · cases h
        trivial
      · split at h
        · cases h
          trivial
        · cases h
  | int _ | bool _ | eof | null | token _ => cases h

/-- What is selected from a value is in the store: a component of a record or a procedure of an object. -/
theorem Store.select_in (hσ : σ.Closed) {v : Value} (hv : v.In σ) {f : Feature} {t : Term}
    (h : σ.select v f = .ok t) : t.In σ := by
  unfold Store.select at h
  split at h
  · next r =>
    split at h
    · next u hu =>
      cases h
      exact (hσ.record r).select? hu
    · cases h
  · next o =>
    split at h
    · next p hp =>
      cases h
      exact Obj.select?_in (σ := σ) hv hp
    · cases h
  · cases h

namespace Env

/-- What is captured is bound to variables of the store. -/
theorem capture_reads (henv : env.In σ) (idents : List Ident) :
    (env.capture idents).Reads σ (Env.In σ) := by
  induction idents with
  | nil => exact Action.reads_pure fun p hp => absurd hp List.not_mem_nil
  | cons x rest ih =>
    refine (var_reads henv x).bind fun y hy => ih.bind fun captured hcaptured => ?_
    exact Action.reads_pure (List.forall_mem_cons.mpr ⟨hy, hcaptured⟩)

theorem close_safe (henv : env.In σ) (proc : ProcDef) :
    (env.close proc).Safe σ fun c τ => c < τ.closures.size := by
  refine (capture_reads henv proc.captures).bind_safe fun captured hcaptured => ?_
  exact Action.safe_take (.single (.table (.newClosure hcaptured) rfl rfl)) (by simp [Store.newClosure])

theorem label_reads (hσ : σ.Closed) (henv : env.In σ) (label : Option Operand) :
    (env.label label).Reads σ fun _ => True := by
  cases label with
  | none => exact Action.reads_pure trivial
  | some a => exact (a.value_reads hσ henv).bind fun _ _ => Action.reads_check _

theorem fields_reads (hσ : σ.Closed) (henv : env.In σ) (operands : List (Operand × Operand)) :
    (env.fields operands).Reads σ fun fs => ∀ f ∈ fs, f.value.In σ := by
  induction operands with
  | nil => exact Action.reads_pure fun f hf => absurd hf List.not_mem_nil
  | cons p rest ih =>
    refine (p.1.value_reads hσ henv).bind fun v _ => (Action.reads_check _).bind fun feature _ => ?_
    refine (p.2.term_reads hσ henv).bind fun t ht => ih.bind fun fs hfs => ?_
    exact Action.reads_pure (List.forall_mem_cons.mpr ⟨ht.isIn, hfs⟩)

/-- Whatever is selected is in the store. -/
theorem select_reads (hσ : σ.Closed) (henv : env.In σ) (record feature : Operand) :
    (env.select record feature).Reads σ (Term.In σ) := by
  refine (record.value_reads hσ henv).bind fun v hv => ?_
  refine (feature.value_reads hσ henv).bind fun w _ => (Action.reads_check _).bind fun f _ => ?_
  refine (Action.reads_read (Q := fun found => ∀ t, found = .ok t → t.In σ) fun t =>
    Store.select_in hσ hv).bind fun found hfound => ?_
  exact Action.reads_ofExcept hfound

end Env

/-! ## Instructions -/

/-- How the computation goes on is in the store. -/
def Flow.In (σ : Store) : Flow → Prop
  | .next stack => stack.In σ
  | .throw v _ => v.In σ

/-- An instruction that ends with an action goes on with what was to be done after it. -/
theorem Action.Safe.goesOn {act : Action Unit} (h : act.Safe σ fun _ _ => True) (hσ : σ.Closed)
    (hrest : rest.In σ) : (act >>= fun _ => pure (Flow.next rest)).Safe σ fun flow τ => flow.In τ :=
  h.bind hσ fun _ _ hg _ _ => Action.safe_pure (hg.stack hrest)

/-- An instruction that ends with binding the variable of an identifier. -/
theorem Env.bind_safe (hσ : σ.Closed) (henv : env.In σ) (hrest : rest.In σ) (x : Ident) {v : Value}
    (hv : v.In σ) : (env.bind x v >>= fun _ => pure (Flow.next rest)).Safe σ fun flow τ => flow.In τ := by
  refine Action.Safe.goesOn ?_ hσ hrest
  exact (var_reads henv x).bind_safe fun y hy => Action.unify_safe hσ (a := .var y) (b := .val v) hy hv

theorem Stack.In.push (hrest : rest.In σ) (henv : env.In σ) (instr : Instr) :
    Stack.In σ (.run instr env :: rest) := List.forall_mem_cons.mpr ⟨henv, hrest⟩

/-- **Every instruction is safe.** -/
theorem Context.execute_safe (hσ : σ.Closed) (henv : env.In σ) (hrest : rest.In σ) (ctx : Context)
    (instr : Instr) : (ctx.execute env rest instr).Safe σ fun flow τ => flow.In τ := by
  -- most instructions read their operands and then make one change, so the store is the same until then
  cases instr with
  | skip => exact Action.safe_pure hrest
  | seq instrs =>
    refine Action.safe_pure fun f hf => ?_
    rcases List.mem_append.mp hf with hf | hf
    · obtain ⟨i, -, rfl⟩ := List.mem_map.mp hf
      exact henv
    · exact hrest f hf
  | fresh idents body =>
    refine (Action.freshBindings_safe hσ idents).bind hσ fun bindings τ hg _ hbindings => ?_
    exact Action.safe_pure ((hg.stack hrest).push ((hg.env henv).extend hbindings) body)
  | bind x y =>
    refine (Env.var_reads henv x).bind_safe fun target htarget => ?_
    refine (y.term_reads hσ henv).bind_safe fun t ht => ?_
    exact (Action.bindTerm_safe hσ htarget ht.isIn).goesOn hσ hrest
  | arith op a b x =>
    refine (a.value_reads hσ henv).bind_safe fun v _ => (b.value_reads hσ henv).bind_safe fun w _ => ?_
    refine (Action.reads_ofExcept fun r hr => Value.arith_in (σ := σ) hr).bind_safe fun r hr => ?_
    exact Env.bind_safe hσ henv hrest x hr
  | negate a x =>
    refine (a.value_reads hσ henv).bind_safe fun v _ => (Action.reads_check _).bind_safe fun n _ => ?_
    exact Env.bind_safe hσ henv hrest x trivial
  | not a x =>
    refine (a.value_reads hσ henv).bind_safe fun v _ => (Action.reads_check _).bind_safe fun b _ => ?_
    exact Env.bind_safe hσ henv hrest x trivial
  | rel op a b x =>
    refine (a.value_reads hσ henv).bind_safe fun v _ => (b.value_reads hσ henv).bind_safe fun w _ => ?_
    refine (Action.reads_check _).bind_safe fun answer _ => ?_
    exact Env.bind_safe hσ henv hrest x trivial
  | entails a b x | disentails a b x =>
    refine (a.term_reads hσ henv).bind_safe fun s hs => (b.term_reads hσ henv).bind_safe fun t ht => ?_
    refine (Action.entails_reads hσ hs.isIn ht.isIn).bind_safe fun answer _ => ?_
    exact Env.bind_safe hσ henv hrest x trivial
  | cond test yes no =>
    refine (test.value_reads hσ henv).bind_safe fun v _ => (Action.reads_check _).bind_safe fun b _ => ?_
    exact Action.safe_pure (hrest.push henv _)
  | case arg pattern yes no =>
    refine (arg.term_reads hσ henv).bind_safe fun t ht => ?_
    refine (Action.matchTerm_safe hσ pattern ht.isIn).bind hσ fun found τ hg hτ hfound => ?_
    cases found with
    | some captures =>
      exact Action.safe_pure ((hg.stack hrest).push ((hg.env henv).extend (hfound captures rfl)) yes)
    | none =>
      cases no with
      | some no => exact Action.safe_pure ((hg.stack hrest).push (hg.env henv) no)
      | none => exact (Action.reads_look _).bind_safe fun _ _ => Action.safe_fault _
  | attempt body caught handler =>
    have htrap : Stack.In σ (.trap caught handler env :: rest) := List.forall_mem_cons.mpr ⟨henv, hrest⟩
    exact Action.safe_pure (htrap.push henv body)
  | throw value =>
    refine (value.term_reads hσ henv).bind_safe fun t ht => ?_
    exact (Action.complete_safe hσ ht.isIn).bind hσ fun v τ _ _ hv => Action.safe_pure hv
  | apply proc args =>
    refine (proc.value_reads hσ henv).bind_safe fun v hv => ?_
    exact (v.call_safe hσ henv hrest ctx args hv).bind hσ fun stack τ _ _ hstack => Action.safe_pure hstack
  | select record feature x =>
    refine (Env.select_reads hσ henv record feature).bind_safe fun t ht => ?_
    refine (Env.var_reads henv x).bind_safe fun y hy => ?_
    exact (Action.unify_safe hσ (a := .var y) hy ht).goesOn hσ hrest
  | selectApply record feature args =>
    refine (Env.select_reads hσ henv record feature).bind_safe fun t ht => ?_
    refine (Action.reads_resolve hσ ht).bind_safe fun u hu => ?_
    cases u with
    | var x => exact (Action.reads_block (Q := fun _ => False) hu).safe fun _ h => h.elim
    | val v =>
      exact (v.call_safe hσ henv hrest ctx args hu).bind hσ fun stack τ _ _ hstack => Action.safe_pure hstack
  | createRecord x label fields =>
    refine (Env.label_reads hσ henv label).bind_safe fun l _ => ?_
    refine (Env.fields_reads hσ henv fields).bind_safe fun fs hfs => ?_
    refine (Action.reads_ofExcept fun r hr => Record.build_in hfs hr).bind_safe fun r hr => ?_
    refine (Action.newRecord_safe hr).bind hσ fun n τ hg hτ hn => ?_
    exact Env.bind_safe hτ (hg.env henv) (hg.stack hrest) x hn
  | createTuple x label values =>
    refine (Env.label_reads hσ henv label).bind_safe fun l _ => ?_
    refine (Operand.terms_reads hσ henv values).bind_safe fun ts hts => ?_
    refine (Action.newRecord_safe (Record.tuple_in hts)).bind hσ fun n τ hg hτ hn => ?_
    exact Env.bind_safe hτ (hg.env henv) (hg.stack hrest) x hn
  | createProc x params body | createActor x params body =>
    refine (Env.close_safe henv _).bind hσ fun c τ hg hτ hc => ?_
    exact Env.bind_safe hτ (hg.env henv) (hg.stack hrest) x hc
  | getCell cell x =>
    refine (cell.value_reads hσ henv).bind_safe fun v _ => (Action.reads_check _).bind_safe fun c _ => ?_
    refine (Env.var_reads henv x).bind_safe fun y hy => ?_
    refine (Action.reads_read (Q := Term.In σ) (hσ.cell c)).bind_safe fun t ht => ?_
    exact (Action.unify_safe hσ (a := .var y) hy ht).goesOn hσ hrest
  | setCell cell value =>
    refine (cell.value_reads hσ henv).bind_safe fun v _ => (Action.reads_check _).bind_safe fun c _ => ?_
    refine (value.term_reads hσ henv).bind_safe fun t ht => ?_
    exact (Action.safe_update (.single (.table (.setCell c ht.isIn) rfl rfl))).goesOn hσ hrest

/-! ## Steps -/

/-- What an instruction leads to is in the store. -/
def Outcome.In (σ : Store) : Outcome → Prop
  | .next stack => stack.In σ
  | .waiting x => x < σ.vars.size
  | .halted f => f < σ.failures.size

/-- The variable that the computation now waits for. -/
def Outcome.waitsFor : Outcome → Option VarId
  | .waiting x => some x
  | .next _ | .halted _ => none

/-- An outcome and the store that it comes with, of a computation with the resumer `r` that began in `σ`. -/
structure Outcome.Follows (r : Resumer) (σ : Store) (result : Outcome × Store) : Prop where
  leaves : Store.Leaves r σ result.2 result.1.waitsFor
  isIn : result.1.In result.2

namespace Outcome.Follows

variable {r : Resumer} {result : Outcome × Store}

theorem evolves (h : Follows r σ result) : σ.Evolves result.2 := h.leaves.evolves

theorem after {τ : Store} (h : Follows r τ result) (hστ : σ.Deeds τ) : Follows r σ result :=
  ⟨h.leaves.after hστ, h.isIn⟩

end Outcome.Follows

/-- Throwing in a stack leads to the handler of the innermost trap, or ends the computation with a failure. Both are in the
store. -/
theorem unwind_follows (r : Resumer) (owner : Address) (cause : Option Fault) {v : Value} (hv : v.In σ)
    {stack : Stack} (hstack : stack.In σ) : Outcome.Follows r σ (unwind owner v cause stack σ) := by
  -- frames are dropped down to the innermost trap
  induction stack with
  | nil =>
    exact ⟨.going (.single (.table (.newFailure hv) rfl rfl)), by simp [unwind, Outcome.In, Store.newFailure]⟩
  | cons f rest ih =>
    have hf := List.forall_mem_cons.mp hstack
    cases f with
    | run instr env => exact ih hf.2
    | trap caught handler env =>
      have hdeeds : σ.Deeds (σ.newVar (.bound v)).2 := .single (.newVar trivial hv)
      have hcaught : Env.In (σ.newVar (.bound v)).2 [(caught, (σ.newVar (.bound v)).1)] := by
        intro p hp
        rw [List.mem_singleton.mp hp]
        exact σ.newVar_lt_size _
      have henv : Env.In σ env := hf.1
      refine ⟨.going hdeeds, ?_⟩
      exact (hdeeds.grows.stack hf.2).push ((hdeeds.grows.env henv).extend hcaught) handler

/-- The record that describes a fault has literals for fields. -/
theorem Fault.record_in (f : Fault) (σ : Store) : (f.record σ).In σ := by
  intro field hfield
  simp only [Fault.record, List.mem_cons, List.not_mem_nil, or_false] at hfield
  rcases hfield with rfl | rfl
  · trivial
  · trivial

/-- A fault is caught on the stack that there is, or halts the computation. -/
theorem raise_follows (r : Resumer) (hσ : σ.Closed) (owner : Address) (f : Fault) {stack : Stack}
    (hstack : stack.In σ) : Outcome.Follows r σ (raise owner f stack σ) := by
  unfold raise
  split
  · next g => exact unwind_follows r owner _ (hσ.failure g) hstack
  · have hmade := Action.newRecord_safe (f.record_in σ)
    exact (unwind_follows r owner _ hmade.2 (hmade.1.grows.stack hstack)).after hmade.1

/-- **A step changes the store by deeds**, and what it leads to is in the store. If it leads to waiting, the
computation from its instruction on has begun to wait, after everything else. -/
theorem Context.step_follows (hσ : σ.Closed) (henv : env.In σ) (hrest : rest.In σ) (ctx : Context)
    (instr : Instr) : Outcome.Follows ctx.resumer σ (ctx.step instr env rest σ) := by
  have hsafe := ctx.execute_safe hσ henv hrest instr
  rw [Action.Safe] at hsafe
  rw [Context.step]
  generalize ctx.execute env rest instr σ = result at hsafe
  cases result with
  | ok flow τ =>
    obtain ⟨hdeeds, hflow⟩ := hsafe
    cases flow with
    | next stack => exact ⟨.going hdeeds, hflow⟩
    | throw v cause =>
      exact (unwind_follows ctx.resumer ctx.owner cause hflow (hdeeds.grows.stack hrest)).after hdeeds
  | error e τ =>
    obtain ⟨hdeeds, he⟩ := hsafe
    have hg := hdeeds.grows
    cases e with
    | fault f =>
      exact (raise_follows ctx.resumer (hdeeds.closed hσ) ctx.owner f (hg.stack hrest)).after hdeeds
    | blocked x =>
      have hx : τ.Unbound x := he
      have hk : Continuation.In τ ⟨.run instr env :: rest, ctx.resumer⟩ :=
        (hg.stack hrest).push (hg.env henv) instr
      -- the variable is unbound, so waiting for it is never refused here
      dsimp only
      rw [Store.suspend_of_var hx.resolveVar]
      refine ⟨.waiting hdeeds hx hk rfl rfl, ?_⟩
      exact Nat.lt_of_lt_of_eq hx.lt_size (Store.park_size ..).symm

/-! ## Slices -/

/-- How the computation stands after its slice is in the store. -/
def Advice.In (σ : Store) : Advice → Prop
  | .ended => True
  | .preempted stack => stack.In σ
  | .waiting x => x < σ.vars.size
  | .halted f => f < σ.failures.size

/-- The next instruction of a stack and what comes after it are in the store. Traps that nothing is left to be done in are
dropped. -/
theorem next?_in {stack : Stack} (hstack : stack.In σ) {instr : Instr} {env : Env} {rest : Stack}
    (h : next? stack = some (instr, env, rest)) : env.In σ ∧ rest.In σ := by
  induction stack with
  | nil => cases h
  | cons f stack ih =>
    have hf := List.forall_mem_cons.mp hstack
    cases f with
    | run i e =>
      cases h
      exact hf
    | trap _ _ _ => exact ih hf.2 h

/-- The variable that the computation waits for after its slice. -/
def Advice.waitsFor : Advice → Option VarId
  | .waiting x => some x
  | .ended | .preempted _ | .halted _ => none

/-- **A slice changes the store by deeds**, and what is left of the computation is in the store. A computation that
waits has begun to wait after everything else that it did. -/
theorem Context.compute_leaves (ctx : Context) (slice executed : Nat) {stack : Stack} (hσ : σ.Closed)
    (hstack : stack.In σ) :
    Store.Leaves ctx.resumer σ (ctx.compute slice stack executed σ).store
        (ctx.compute slice stack executed σ).advice.waitsFor ∧
      (ctx.compute slice stack executed σ).advice.In (ctx.compute slice stack executed σ).store := by
  -- on the number of instructions that may still be executed
  induction slice generalizing stack executed σ with
  | zero =>
    rw [Context.compute]
    cases hnext : next? stack with
    | none => exact ⟨.going .refl, trivial⟩
    | some p =>
      obtain ⟨henv, hrest⟩ := next?_in hstack hnext
      exact ⟨.going .refl, hrest.push henv p.1⟩
  | succ slice ih =>
    rw [Context.compute]
    cases hnext : next? stack with
    | none => exact ⟨.going .refl, trivial⟩
    | some p =>
      obtain ⟨henv, hrest⟩ := next?_in hstack hnext
      obtain ⟨hleaves, hin⟩ := ctx.step_follows hσ henv hrest p.1
      dsimp only
      generalize ctx.step p.1 p.2.1 p.2.2 σ = result at hleaves hin
      obtain ⟨outcome, τ⟩ := result
      cases outcome with
      | next stack =>
        cases hleaves with
        | going hdeeds =>
          obtain ⟨hmore, hadvice⟩ := ih (executed + 1) (hdeeds.closed hσ) hin
          exact ⟨hmore.after hdeeds, hadvice⟩
      | waiting x => exact ⟨hleaves, hin⟩
      | halted f => exact ⟨hleaves, hin⟩

/-- A slice changes the store by elementary changes. -/
theorem Context.compute_evolves (ctx : Context) (slice executed : Nat) {stack : Stack} (hσ : σ.Closed)
    (hstack : stack.In σ) :
    σ.Evolves (ctx.compute slice stack executed σ).store ∧
      (ctx.compute slice stack executed σ).advice.In (ctx.compute slice stack executed σ).store := by
  obtain ⟨hleaves, hin⟩ := ctx.compute_leaves slice executed hσ hstack
  exact ⟨hleaves.evolves, hin⟩

end Dataflow
