/-
Coincidence: a computation depends on its scopes only through the free identifiers of its instructions.

Two stacks are alike if they hold the same instructions and traps, in scopes that agree on what the instructions and
the handlers take from them. From one store, a slice of either stack does the same: the same advice, the same number of
instructions, the same store and the same log of effects. Where a stack remains, because the computation was preempted
or parked at a variable, the two remainders are alike again, so the argument goes on with the next slice.

What makes this work is that all that an instruction reads of its scope are the operands that count as free, so
under agreeing scopes the parts of an instruction are literally the same actions (the lemmas named `congr`), and what
differs is only the stack that it goes on with. The scope that a part is entered with gets the same new bindings on both
sides, for exactly the identifiers that are not free in the whole.

A closure is a case of this. Its scope holds the captured variables and nothing else, and it agrees with the scope of
the definition on the free identifiers of the body, once both have got the parameters.
-/
import Dataflow.Proofs.Scope
import Dataflow.Proofs.Slicing

set_option autoImplicit false

namespace Dataflow

/-! ## Agreement of scopes -/

namespace Env

/-- The scopes give each of the identifiers the same variable, or both of them none. -/
def Agree (env env' : Env) (xs : List Ident) : Prop := ∀ x ∈ xs, env.find? x = env'.find? x

variable {env env' : Env} {xs ys : List Ident}

theorem Agree.mono (h : env.Agree env' ys) (hsub : xs ⊆ ys) : env.Agree env' xs := fun x hx => h x (hsub hx)

@[simp] theorem agree_cons {x : Ident} :
    env.Agree env' (x :: xs) ↔ env.find? x = env'.find? x ∧ env.Agree env' xs := List.forall_mem_cons

@[simp] theorem agree_append : env.Agree env' (xs ++ ys) ↔ env.Agree env' xs ∧ env.Agree env' ys :=
  List.forall_mem_append

theorem agree_freeIdents {i : Instr} : env.Agree env' i.freeIdents ↔ env.Agree env' i.free :=
  forall_congr' fun _ => imp_congr_left Instr.mem_freeIdents

/-- Scopes that agree on what is left over agree on everything once the rest is bound in both. -/
theorem Agree.extend {bindings : List (Ident × VarId)}
    (h : env.Agree env' (removeIdents xs (bindings.map Prod.fst))) :
    (env.extend bindings).Agree (env'.extend bindings) xs := by
  intro x hx
  by_cases hbound : x ∈ bindings.map Prod.fst
  · obtain ⟨y, hy⟩ := find?_extend_of_mem hbound
    rw [hy, hy]
  · rw [find?_extend_of_notMem hbound, find?_extend_of_notMem hbound]
    exact h x (mem_removeIdents.mpr ⟨hx, hbound⟩)

end Env

/-! ## Stacks and stores that are alike -/

/-- The frames do the same, in scopes that agree on what they take from them. -/
inductive Frame.Alike : Frame → Frame → Prop where
  | run {i : Instr} {env env' : Env} (h : env.Agree env' i.freeIdents) : Alike (.run i env) (.run i env')
  | trap {caught : Ident} {handler : Instr} {env env' : Env}
      (h : env.Agree env' (removeIdents handler.freeIdents [caught])) :
      Alike (.trap caught handler env) (.trap caught handler env')

/-- The stacks differ only in environments that agree on the free identifiers of their instructions. -/
def Stack.Alike (s s' : Stack) : Prop := List.Forall₂ Frame.Alike s s'

/-- The same resumer is to go on with alike stacks. -/
structure Continuation.Alike (k k' : Continuation) : Prop where
  stack : Stack.Alike k.stack k'.stack
  resumer : k.resumer = k'.resumer

/-- The variables are in the same state, with alike computations waiting in the same order. -/
inductive VarState.Alike : VarState → VarState → Prop where
  | refl (s : VarState) : Alike s s
  | waiting {ks ks' : List Continuation} (h : List.Forall₂ Continuation.Alike ks ks') :
      Alike (.unbound ks) (.unbound ks')

/-- The stores differ only in the scopes of computations that wait. -/
structure Store.Alike (σ τ : Store) : Prop where
  vars : List.Forall₂ VarState.Alike σ.vars.toList τ.vars.toList
  others : { σ with vars := #[] } = { τ with vars := #[] }

/-- The same advice, up to alike stacks. -/
inductive Advice.Alike : Advice → Advice → Prop where
  | ended : Alike .ended .ended
  | preempted {s s' : Stack} (h : s.Alike s') : Alike (.preempted s) (.preempted s')
  | waiting (x : VarId) : Alike (.waiting x) (.waiting x)
  | halted (f : FailureId) : Alike (.halted f) (.halted f)

/-- The same advice after the same number of instructions, and stores that differ only in the scopes of
computations that wait. -/
structure Slice.Alike (r r' : Slice) : Prop where
  advice : r.advice.Alike r'.advice
  executed : r.executed = r'.executed
  store : r.store.Alike r'.store

theorem Frame.Alike.refl (f : Frame) : f.Alike f := by
  cases f with
  | run i env => exact .run fun _ _ => rfl
  | trap caught handler env => exact .trap fun _ _ => rfl

theorem Stack.Alike.refl (s : Stack) : s.Alike s := List.forall₂_same.mpr fun f _ => .refl f

/-- An alike instruction in front. -/
theorem Stack.Alike.push {s s' : Stack} (h : s.Alike s') {i : Instr} {env env' : Env}
    (hagree : env.Agree env' i.free) : Stack.Alike (.run i env :: s) (.run i env' :: s') :=
  .cons (.run (Env.agree_freeIdents.mpr hagree)) h

namespace Store

variable {σ : Store}

theorem Alike.refl (σ : Store) : σ.Alike σ := ⟨List.forall₂_same.mpr fun s _ => .refl s, rfl⟩

/-- Parking alike computations at one variable. -/
theorem Alike.park {k k' : Continuation} (h : k.Alike k') (σ : Store) (y : VarId) :
    (σ.park y k).Alike (σ.park y k') := by
  have hlist : List.Forall₂ Continuation.Alike (σ.waiting y ++ [k]) (σ.waiting y ++ [k']) := by
    refine List.rel_append ?_ (.cons h .nil)
    exact List.forall₂_same.mpr fun c _ => ⟨.refl c.stack, rfl⟩
  have hvars : ∀ c, (σ.park y c).vars.toList = σ.vars.toList.set y (.unbound (σ.waiting y ++ [c])) :=
    fun c => Array.toList_setIfInBounds ..
  refine ⟨?_, rfl⟩
  rw [hvars, hvars]
  refine List.forall₂_iff_get.mpr ⟨by simp, fun i hi hi' => ?_⟩
  simp only [List.get_eq_getElem, List.getElem_set]
  split
  · exact .waiting hlist
  · exact .refl _

end Store

/-! ## Actions that coincide -/

/-- How a computation goes on, up to alike stacks. -/
inductive Flow.Alike : Flow → Flow → Prop where
  | next {s s' : Stack} (h : s.Alike s') : Alike (.next s) (.next s')
  | throw (v : Value) (cause : Option Fault) : Alike (.throw v cause) (.throw v cause)

namespace Action

variable {α β γ δ : Type}

/-- The runs end in the same store and with the same interrupt or with related results. -/
inductive SameResult (R : α → β → Prop) :
    EStateM.Result Interrupt Store α → EStateM.Result Interrupt Store β → Prop where
  | ok {a : α} {b : β} {σ : Store} (h : R a b) : SameResult R (.ok a σ) (.ok b σ)
  | error {e : Interrupt} {σ : Store} : SameResult R (.error e σ) (.error e σ)

/-- From every store the two actions do the same, with related results. -/
def Coincide (R : α → β → Prop) (act : Action α) (act' : Action β) : Prop := ∀ σ, SameResult R (act σ) (act' σ)

variable {R : α → β → Prop} {S : γ → δ → Prop}

theorem Coincide.pure {a : α} {b : β} (h : R a b) : Coincide R (pure a) (pure b) := fun _ => .ok h

theorem Coincide.fault (f : Fault) : Coincide R (fault f) (fault f) := fun _ => .error

theorem Coincide.block (x : VarId) : Coincide R (block x) (block x) := fun _ => .error

/-- Two actions coincide if their parts do, and if what follows coincides for all results that correspond. -/
theorem Coincide.bind {act : Action α} {act' : Action β} {f : α → Action γ} {g : β → Action δ}
    (h : Coincide R act act') (hf : ∀ a b, R a b → Coincide S (f a) (g b)) :
    Coincide S (act >>= f) (act' >>= g) := by
  intro σ
  rw [bind_apply, bind_apply]
  have hact := h σ
  generalize act σ = r, act' σ = r' at hact
  cases hact with
  | ok h => exact hf _ _ h _
  | error => exact .error

/-- One action, followed by actions that coincide whatever it answers. -/
theorem Coincide.after {act : Action α} {f : α → Action γ} {g : α → Action δ}
    (hf : ∀ a, (∃ σ τ, act σ = .ok a τ) → Coincide S (f a) (g a)) : Coincide S (act >>= f) (act >>= g) := by
  intro σ
  rw [bind_apply, bind_apply]
  rcases hact : act σ with ⟨a, τ⟩ | ⟨e, τ⟩
  · exact hf a ⟨σ, τ, hact⟩ τ
  · exact .error

/-- An instruction that ends with an action goes on with what was to be done after it. -/
theorem Coincide.goesOn (act : Action Unit) {rest rest' : Stack} (h : rest.Alike rest') :
    Coincide Flow.Alike (act >>= fun _ => Pure.pure (.next rest)) (act >>= fun _ => Pure.pure (.next rest')) :=
  .after fun _ _ => .pure (.next h)

end Action

/-! ## Operands under agreeing scopes -/

section Congruence

variable {env env' : Env}

namespace Env

theorem var_congr {x : Ident} (h : env.find? x = env'.find? x) : env.var x = env'.var x := by
  rw [var, var, h]

theorem bind_congr {x : Ident} (h : env.find? x = env'.find? x) : env.bind x = env'.bind x := by
  funext v
  rw [bind, bind, var_congr h]

end Env

namespace Operand

variable {a : Operand} {args : List Operand}

theorem term_congr (h : env.Agree env' a.free) : a.term env = a.term env' := by
  cases a with
  | ident x => rw [term, term, Env.var_congr (h x List.mem_cons_self)]
  | lit s => rfl

theorem value_congr (h : env.Agree env' a.free) : a.value env = a.value env' := by
  rw [value, value, term_congr h]

theorem toVar_congr (h : env.Agree env' a.free) : a.toVar env = a.toVar env' := by
  cases a with
  | ident x => exact Env.var_congr (h x List.mem_cons_self)
  | lit s => rfl

theorem deliver_congr (h : env.Agree env' a.free) : a.deliver env = a.deliver env' := by
  funext v
  rw [deliver, deliver, term_congr h]

theorem terms_congr (h : env.Agree env' (args.flatMap free)) : terms env args = terms env' args := by
  induction args with
  | nil => rfl
  | cons a rest ih =>
    rw [List.flatMap_cons, Env.agree_append] at h
    rw [terms, terms, term_congr h.1, ih h.2]

theorem vars_congr (h : env.Agree env' (args.flatMap free)) : vars env args = vars env' args := by
  induction args with
  | nil => rfl
  | cons a rest ih =>
    rw [List.flatMap_cons, Env.agree_append] at h
    rw [vars, vars, toVar_congr h.1, ih h.2]

theorem completes_congr (h : env.Agree env' (args.flatMap free)) : completes env args = completes env' args := by
  induction args with
  | nil => rfl
  | cons a rest ih =>
    rw [List.flatMap_cons, Env.agree_append] at h
    rw [completes, completes, term_congr h.1, ih h.2]

/-- What is agreed on for all arguments is agreed on for each. -/
theorem agree_of_mem (h : env.Agree env' (args.flatMap free)) (ha : a ∈ args) : env.Agree env' a.free :=
  h.mono fun _ hx => List.mem_flatMap.mpr ⟨a, ha, hx⟩

end Operand

namespace Env

/-- Scopes that agree on what is captured capture the same. -/
theorem capture_congr {xs : List Ident} (h : env.Agree env' xs) : env.capture xs = env'.capture xs := by
  induction xs with
  | nil => rfl
  | cons x rest ih =>
    rw [agree_cons] at h
    rw [capture, capture, var_congr h.1, ih h.2]

theorem close_congr {d : ProcDef} (h : env.Agree env' (removeIdents d.body.free d.params)) :
    env.close d = env'.close d := by
  have hcaptures : env.Agree env' d.captures := fun x hx => h x (mem_sortIdents.mp hx)
  rw [close, close, capture_congr hcaptures]

theorem label_congr {l : Option Operand} (h : env.Agree env' (Operand.labelFree l)) :
    env.label l = env'.label l := by
  cases l with
  | none => rfl
  | some a => rw [label, label, Operand.value_congr h]

theorem fields_congr {fs : List (Operand × Operand)}
    (h : env.Agree env' (fs.flatMap fun p => p.1.free ++ p.2.free)) : env.fields fs = env'.fields fs := by
  induction fs with
  | nil => rfl
  | cons p rest ih =>
    rw [List.flatMap_cons, agree_append, agree_append] at h
    rw [fields, fields, Operand.value_congr h.1.1, Operand.term_congr h.1.2, ih h.2]

theorem select_congr {record feature : Operand} (hr : env.Agree env' record.free)
    (hf : env.Agree env' feature.free) : env.select record feature = env'.select record feature := by
  rw [select, select, Operand.value_congr hr, Operand.value_congr hf]

end Env

/-! ## Calls under agreeing scopes -/

variable {args : List Operand} {rest rest' : Stack}

/-- A call of a native depends on what the scope says about the free identifiers of its arguments, and on nothing else in it.
-/
theorem Native.call_congr (ctx : Context) (n : Native) (h : env.Agree env' (args.flatMap Operand.free)) :
    n.call ctx env args = n.call ctx env' args := by
  unfold Native.call
  -- each native reads some of its arguments, in the order it has them, and delivers to the last
  split
  · next config target =>
    obtain ⟨hconfig, htarget⟩ : env.Agree env' config.free ∧ env.Agree env' target.free := by simpa using h
    rw [Operand.value_congr hconfig, Operand.deliver_congr htarget]
  · next content target =>
    obtain ⟨hcontent, htarget⟩ : env.Agree env' content.free ∧ env.Agree env' target.free := by simpa using h
    rw [Operand.term_congr hcontent, Operand.deliver_congr htarget]
  · next text target =>
    obtain ⟨htext, htarget⟩ : env.Agree env' text.free ∧ env.Agree env' target.free := by simpa using h
    rw [Operand.value_congr htext, Operand.deliver_congr htarget]
  · next first second target =>
    obtain ⟨hfirst, hsecond, htarget⟩ :
        env.Agree env' first.free ∧ env.Agree env' second.free ∧ env.Agree env' target.free := by simpa using h
    rw [Operand.value_congr hfirst, Operand.value_congr hsecond, Operand.deliver_congr htarget]
  · next record target =>
    obtain ⟨hrecord, htarget⟩ : env.Agree env' record.free ∧ env.Agree env' target.free := by simpa using h
    rw [Operand.value_congr hrecord, Operand.deliver_congr htarget]
  · next target =>
    have htarget : env.Agree env' target.free := by simpa using h
    rw [Operand.deliver_congr htarget]
  · next source target =>
    obtain ⟨hsource, htarget⟩ : env.Agree env' source.free ∧ env.Agree env' target.free := by simpa using h
    rw [newIterator, newIterator, Operand.value_congr hsource, Operand.deliver_congr htarget]
  · next source target =>
    obtain ⟨hsource, htarget⟩ : env.Agree env' source.free ∧ env.Agree env' target.free := by simpa using h
    rw [newIterator, newIterator, Operand.value_congr hsource, Operand.deliver_congr htarget]
  · rfl

/-- A call of a cell depends on the free identifiers of its argument. -/
theorem CellProc.call_congr (c : CellId) (p : CellProc) (h : env.Agree env' (args.flatMap Operand.free)) :
    p.call c env args = p.call c env' args := by
  unfold CellProc.call
  split
  · next target =>
    have htarget : env.Agree env' target.free := by simpa using h
    rw [Operand.term_congr htarget]
  · next content =>
    have hcontent : env.Agree env' content.free := by simpa using h
    rw [Operand.term_congr hcontent]
  · rfl

/-- A call of an actor depends on the free identifiers of its arguments. -/
theorem ActorProc.call_congr (ctx : Context) (r : ActorRef) (p : ActorProc)
    (h : env.Agree env' (args.flatMap Operand.free)) : p.call ctx r env args = p.call ctx r env' args := by
  unfold ActorProc.call
  split
  · next message target =>
    obtain ⟨hmessage, htarget⟩ : env.Agree env' message.free ∧ env.Agree env' target.free := by simpa using h
    rw [Operand.term_congr hmessage, Operand.term_congr htarget]
  · next message =>
    have hmessage : env.Agree env' message.free := by simpa using h
    rw [Operand.term_congr hmessage]
  · rfl
  · rfl

/-- Applying an actor constructor depends on the free identifiers of its arguments. The target is the last of them. -/
theorem construct_congr (c : ClosureId) (h : env.Agree env' (args.flatMap Operand.free)) :
    construct c env args = construct c env' args := by
  have hown : env.Agree env' (args.dropLast.flatMap Operand.free) := h.mono (Operand.free_dropLast args)
  rw [construct, construct]
  cases hlast : args.getLast? with
  | none => rfl
  | some target =>
    have htarget := Operand.agree_of_mem h (List.mem_of_getLast? hlast)
    dsimp only
    rw [Operand.completes_congr hown, Operand.deliver_congr htarget]

/-! ## Calls on alike stacks -/

open Dataflow.Action (Coincide)

/-- The caller's scope matters for the arguments only, because a procedure begins with the scope that it was made in. -/
theorem enter_alike (c : ClosureId) (hrest : rest.Alike rest')
    (h : env.Agree env' (args.flatMap Operand.free)) :
    Coincide Stack.Alike (enter c env args rest) (enter c env' args rest') := by
  rw [enter, enter, Operand.vars_congr h]
  refine .after fun closure _ => ?_
  dsimp only
  split
  · exact .fault _
  · exact .after fun vars _ => .pure (hrest.push fun _ _ => rfl)

/-- A procedure that does its work at once goes on with what was to be done after it. -/
theorem Action.Coincide.thenRest {act act' : Action Unit} (hact : act = act') (hrest : rest.Alike rest') :
    Coincide Stack.Alike (act >>= fun _ => Pure.pure rest) (act' >>= fun _ => Pure.pure rest') :=
  hact ▸ .after fun _ _ => .pure hrest

/-- A call leads to stacks that are alike if the stacks below are. A closure brings a scope of its own, so that only the rest
can differ. -/
theorem Proc.call_alike (ctx : Context) (p : Proc) (hrest : rest.Alike rest')
    (h : env.Agree env' (args.flatMap Operand.free)) :
    Coincide Stack.Alike (p.call ctx env args rest) (p.call ctx env' args rest') := by
  cases p with
  | closure c => exact enter_alike c hrest h
  | native n => exact .thenRest (n.call_congr ctx h) hrest
  | ofCell c q => exact .thenRest (q.call_congr c h) hrest
  | ofActor a q => exact .thenRest (q.call_congr ctx a h) hrest
  | actorMaker c => exact .thenRest (construct_congr c h) hrest
  | iter i =>
    match args, h with
    | [target], h =>
      have htarget : env.Agree env' target.free := by simpa using h
      rw [Proc.call, Proc.call, Operand.term_congr htarget]
      exact .after fun t _ => .after fun u _ => .after fun _ _ => .pure hrest
    | [], _ | _ :: _ :: _, _ => exact .fault _

/-- Whatever is called, scopes that agree on the arguments make no difference. -/
theorem Value.call_alike (ctx : Context) (v : Value) (hrest : rest.Alike rest')
    (h : env.Agree env' (args.flatMap Operand.free)) :
    Coincide Stack.Alike (v.call ctx env args rest) (v.call ctx env' args rest') := by
  cases v with
  | proc p => exact p.call_alike ctx hrest h
  | failed f => exact .fault _
  | lit _ | num _ | record _ | obj _ | config _ => exact .after fun _ _ => .fault _

/-! ## Instructions -/

/-- **An instruction does the same under agreeing scopes**, and goes on with alike stacks. -/
theorem Context.execute_alike (ctx : Context) (hrest : rest.Alike rest') (i : Instr) (h : env.Agree env' i.free) :
    Coincide Flow.Alike (ctx.execute env rest i) (ctx.execute env' rest' i) := by
  -- first the actions are made the same, operand by operand; then what is left to compare are the stacks
  cases i with
  | skip => exact .pure (.next hrest)
  | seq instrs =>
    refine .pure (.next (List.rel_append ?_ hrest))
    rw [List.forall₂_map_left_iff, List.forall₂_map_right_iff]
    refine List.forall₂_same.mpr fun i hi => .run (Env.agree_freeIdents.mpr ?_)
    exact h.mono (Instr.free_subset_allFree hi)
  | fresh idents body =>
    refine .after fun bindings hmade => ?_
    obtain ⟨σ, τ, hmade⟩ := hmade
    refine .pure (.next (hrest.push (.extend ?_)))
    rw [Action.freshBindings_names hmade]
    exact h
  | bind x y =>
    simp only [Instr.free, Env.agree_cons] at h
    rw [execute, execute, Env.var_congr h.1, Operand.term_congr h.2]
    exact .after fun target _ => .after fun t _ => .goesOn _ hrest
  | arith op a b x | rel op a b x =>
    simp only [Instr.free, Env.agree_append, Env.agree_cons] at h
    rw [execute, execute, Operand.value_congr h.1.1, Operand.value_congr h.1.2, Env.bind_congr h.2.1]
    exact .after fun v _ => .after fun w _ => .after fun r _ => .goesOn _ hrest
  | negate a x | not a x =>
    simp only [Instr.free, Env.agree_append, Env.agree_cons] at h
    rw [execute, execute, Operand.value_congr h.1, Env.bind_congr h.2.1]
    exact .after fun v _ => .after fun r _ => .goesOn _ hrest
  | entails a b x | disentails a b x =>
    simp only [Instr.free, Env.agree_append, Env.agree_cons] at h
    rw [execute, execute, Operand.term_congr h.1.1, Operand.term_congr h.1.2, Env.bind_congr h.2.1]
    exact .after fun s _ => .after fun t _ => .after fun answer _ => .goesOn _ hrest
  | cond test yes no =>
    simp only [Instr.free, Env.agree_append] at h
    rw [execute, execute, Operand.value_congr h.1.1]
    refine .after fun v _ => .after fun b _ => .pure (.next (hrest.push ?_))
    cases b with
    | true => exact h.1.2
    | false => exact h.2
  | case arg pattern yes no =>
    simp only [Instr.free, Env.agree_append] at h
    rw [execute, execute, Operand.term_congr h.1.1]
    refine .after fun t _ => .after fun found hfound => ?_
    obtain ⟨σ, τ, hfound⟩ := hfound
    cases found with
    | some captures =>
      refine .pure (.next (hrest.push (.extend ?_)))
      rw [Action.matchTerm_names hfound]
      exact h.1.2
    | none =>
      cases no with
      | some no => exact .pure (.next (hrest.push h.2))
      | none => exact .after fun text _ => .fault _
  | attempt body caught handler =>
    simp only [Instr.free, Env.agree_append] at h
    refine .pure (.next (Stack.Alike.push (.cons (.trap fun x hx => ?_) hrest) h.1))
    rw [mem_removeIdents, Instr.mem_freeIdents] at hx
    exact h.2 x (mem_removeIdents.mpr hx)
  | throw value =>
    rw [execute, execute, Operand.term_congr h]
    exact .after fun t _ => .after fun v _ => .pure (.throw v none)
  | apply proc args =>
    simp only [Instr.free, Env.agree_append] at h
    rw [execute, execute, Operand.value_congr h.1]
    exact .after fun v _ => (v.call_alike ctx hrest h.2).bind fun s s' hs => .pure (.next hs)
  | select record feature x =>
    simp only [Instr.free, Env.agree_append, Env.agree_cons] at h
    rw [execute, execute, Env.select_congr h.1.1 h.1.2, Env.var_congr h.2.1]
    exact .after fun t _ => .after fun y _ => .goesOn _ hrest
  | selectApply record feature args =>
    simp only [Instr.free, Env.agree_append] at h
    rw [execute, execute, Env.select_congr h.1.1 h.1.2]
    refine .after fun t _ => .after fun u _ => ?_
    cases u with
    | var x => exact .block x
    | val v => exact (v.call_alike ctx hrest h.2).bind fun s s' hs => .pure (.next hs)
  | createRecord x label fields =>
    simp only [Instr.free, Env.agree_cons, List.cons_append, Env.agree_append] at h
    rw [execute, execute, Env.label_congr h.2.1, Env.fields_congr h.2.2, Env.bind_congr h.1]
    exact .after fun l _ => .after fun fs _ => .after fun r _ => .after fun n _ => .goesOn _ hrest
  | createTuple x label values =>
    simp only [Instr.free, Env.agree_cons, List.cons_append, Env.agree_append] at h
    rw [execute, execute, Env.label_congr h.2.1, Operand.terms_congr h.2.2, Env.bind_congr h.1]
    exact .after fun l _ => .after fun ts _ => .after fun n _ => .goesOn _ hrest
  | createProc x params body | createActor x params body =>
    simp only [Instr.free, Env.agree_cons] at h
    rw [execute, execute, Env.close_congr h.2, Env.bind_congr h.1]
    exact .after fun c _ => .goesOn _ hrest
  | getCell cell x =>
    simp only [Instr.free, Env.agree_append, Env.agree_cons] at h
    rw [execute, execute, Operand.value_congr h.1, Env.var_congr h.2.1]
    exact .after fun v _ => .after fun c _ => .after fun y _ => .after fun t _ => .goesOn _ hrest
  | setCell cell value =>
    simp only [Instr.free, Env.agree_append] at h
    rw [execute, execute, Operand.value_congr h.1, Operand.term_congr h.2]
    exact .after fun v _ => .after fun c _ => .after fun t _ => .goesOn _ hrest

end Congruence

/-! ## Steps and slices -/

/-- The same outcome up to alike stacks, and the same store unless a computation has been parked. -/
inductive Outcome.Alike : Outcome × Store → Outcome × Store → Prop where
  | next {s s' : Stack} (h : s.Alike s') (τ : Store) : Alike (.next s, τ) (.next s', τ)
  | waiting (x : VarId) {τ τ' : Store} (h : τ.Alike τ') : Alike (.waiting x, τ) (.waiting x, τ')
  | halted (f : FailureId) (τ : Store) : Alike (.halted f, τ) (.halted f, τ)

section Slices

variable {s s' rest rest' : Stack} {env env' : Env}

/-- A throw is caught by the same trap. -/
theorem unwind_alike (owner : Address) (v : Value) (cause : Option Fault) (h : s.Alike s') (σ : Store) :
    Outcome.Alike (unwind owner v cause s σ) (unwind owner v cause s' σ) := by
  induction h with
  | nil => exact .halted _ _
  | cons hframe hrest ih =>
    cases hframe with
    | run => exact ih
    | trap h =>
      refine .next (Stack.Alike.push hrest (.extend fun x hx => ?_)) _
      rw [mem_removeIdents] at hx
      exact h x (mem_removeIdents.mpr ⟨Instr.mem_freeIdents.mpr hx.1, hx.2⟩)

/-- Whatever stands on the stack, a fault is caught by the same trap. -/
theorem raise_alike (owner : Address) (f : Fault) (h : s.Alike s') (σ : Store) :
    Outcome.Alike (raise owner f s σ) (raise owner f s' σ) := by
  cases f with
  | failedValue g => exact unwind_alike owner _ _ h σ
  | _ => exact unwind_alike owner _ _ h _

/-- A step leads to outcomes that are alike if the scopes agree on what is free in the instruction. -/
theorem Context.step_alike (ctx : Context) (i : Instr) (h : env.Agree env' i.free) (hrest : rest.Alike rest')
    (σ : Store) : Outcome.Alike (ctx.step i env rest σ) (ctx.step i env' rest' σ) := by
  have hexecute := ctx.execute_alike hrest i h σ
  rw [step, step]
  generalize ctx.execute env rest i σ = r, ctx.execute env' rest' i σ = r' at hexecute
  -- the two executions end in the same way, and in the same store
  cases hexecute with
  | @ok flow flow' τ hflow =>
    cases hflow with
    | next hs => exact .next hs τ
    | throw v cause => exact unwind_alike _ v cause hrest τ
  | @error e τ =>
    cases e with
    | fault f => exact raise_alike _ f hrest τ
    | blocked x =>
      have hstack : Stack.Alike (.run i env :: rest) (.run i env' :: rest') := hrest.push h
      -- what is parked is the whole stack, with the instruction that has to wait in front
      have hparked : Continuation.Alike ⟨.run i env :: rest, ctx.resumer⟩ ⟨.run i env' :: rest', ctx.resumer⟩ :=
        ⟨hstack, rfl⟩
      dsimp only [Store.suspend]
      cases τ.resolveVar x with
      | val v => exact .next hstack τ
      | var y => exact .waiting x (.park hparked τ y)

/-- Alike stacks go on with the same instruction, or are both done. -/
theorem next?_alike (h : s.Alike s') :
    (next? s = none ∧ next? s' = none) ∨
      ∃ i env env' rest rest', next? s = some (i, env, rest) ∧ next? s' = some (i, env', rest') ∧
        env.Agree env' i.free ∧ rest.Alike rest' := by
  induction h with
  | nil => exact .inl ⟨rfl, rfl⟩
  | cons hframe hrest ih =>
    cases hframe with
    | run h => exact .inr ⟨_, _, _, _, _, rfl, rfl, Env.agree_freeIdents.mp h, hrest⟩
    | trap h => exact ih

/-- Slices of alike stacks are alike. -/
theorem Context.compute_alike (ctx : Context) (h : s.Alike s') (slice executed : Nat) (σ : Store) :
    (ctx.compute slice s executed σ).Alike (ctx.compute slice s' executed σ) := by
  induction slice generalizing s s' executed σ with
  | zero =>
    rcases next?_alike h with ⟨hs, hs'⟩ | ⟨i, env, env', rest, rest', hs, hs', hagree, hrest⟩
    · rw [compute_of_next?_eq_none hs, compute_of_next?_eq_none hs']
      exact ⟨.ended, rfl, .refl σ⟩
    · rw [compute_zero hs, compute_zero hs']
      exact ⟨.preempted (hrest.push hagree), rfl, .refl σ⟩
  | succ slice ih =>
    rcases next?_alike h with ⟨hs, hs'⟩ | ⟨i, env, env', rest, rest', hs, hs', hagree, hrest⟩
    · rw [compute_of_next?_eq_none hs, compute_of_next?_eq_none hs']
      exact ⟨.ended, rfl, .refl σ⟩
    · rw [compute_succ hs, compute_succ hs']
      have hstep := ctx.step_alike i hagree hrest σ
      generalize ctx.step i env rest σ = r, ctx.step i env' rest' σ = r' at hstep
      cases hstep with
      | next hstack τ => exact ih hstack (executed + 1) τ
      | waiting x hstore => exact ⟨.waiting x, rfl, hstore⟩
      | halted f τ => exact ⟨.halted f, rfl, .refl τ⟩

end Slices

/-! ## Closures -/

/-- With the parameters bound in both, what a procedure captured agrees with the scope of its definition on the
free identifiers of the body. -/
theorem Env.agree_of_capture {env captured : Env} {d : ProcDef} {σ τ : Store}
    (h : env.capture d.captures σ = .ok captured τ) {vars : List VarId} (hlength : vars.length = d.params.length) :
    (captured.extend (d.params.zip vars)).Agree (env.extend (d.params.zip vars)) d.body.free := by
  refine .extend fun x hx => (capture_eq_ok h).2.2 x ?_
  rw [List.map_fst_zip (Nat.le_of_eq hlength.symm)] at hx
  exact ProcDef.mem_captures.mpr (mem_removeIdents.mp hx)

/-- **Lexical scoping.** Under two scopes that agree on its free identifiers, an instruction on top of any stack runs
the same for every slice: the same advice after the same number of instructions, the same store and the same effects,
where the stacks that are preempted or parked differ only in scopes that again agree on the free identifiers of their
instructions. In particular the closure that the creation of a procedure makes holds just what it captured, and applying
it, wherever and whenever that is, runs the body exactly as it runs in the scope of the definition with the parameters
bound. -/
theorem Context.compute_coincidence (ctx : Context) (slice executed : Nat) (rest : Stack) :
    (∀ (i : Instr) (env env' : Env) (σ : Store), env.Agree env' i.freeIdents →
      (ctx.compute slice (.run i env :: rest) executed σ).Alike
        (ctx.compute slice (.run i env' :: rest) executed σ)) ∧
    ∀ (maker : Context) (env : Env) (later : Stack) (x : Ident) (d : ProcDef) (flow : Flow) (σ₀ σ₁ : Store),
      maker.execute env later (.createProc x d.params d.body) σ₀ = .ok flow σ₁ →
      (σ₁.closure σ₀.closures.size).env.map Prod.fst = d.captures ∧
      ∀ (scope : Env) (proc : Operand) (args : List Operand) (vars : List VarId) (σ τ : Store),
        σ.closure σ₀.closures.size = σ₁.closure σ₀.closures.size →
        proc.value scope σ = .ok (.proc (.closure σ₀.closures.size)) σ →
        args.length = d.params.length → Operand.vars scope args σ = .ok vars τ →
        (ctx.compute (slice + 1) (.run (.apply proc args) scope :: rest) executed σ).Alike
          (ctx.compute slice (.run d.body (env.extend (d.params.zip vars)) :: rest) (executed + 1) τ) := by
  refine ⟨fun i env env' σ h => ?_, fun maker env later x d flow σ₀ σ₁ hmade => ?_⟩
  · exact ctx.compute_alike ((Stack.Alike.refl rest).push (Env.agree_freeIdents.mp h)) slice executed σ
  obtain ⟨captured, hcapture, hclosure⟩ := maker.closure_of_createProc hmade
  refine ⟨by rw [hclosure]; exact (Env.capture_eq_ok hcapture).2.1, ?_⟩
  intro scope proc args vars σ τ hkept hproc hlength hvars
  have hagree := Env.agree_of_capture hcapture ((Operand.vars_length hvars).trans hlength)
  rw [compute_succ rfl, step_apply (hkept.trans hclosure) hproc hlength hvars]
  exact ctx.compute_alike ((Stack.Alike.refl rest).push hagree) slice (executed + 1) τ

/-- The procedure is created and then applied in the same scope: its body binds the captured `b`, and its `a` is the
argument in either way of running it. The handler of the other instruction hides `a` as well, and its block hides `b`. -/
theorem Context.compute_coincidence_hider :
    let ctx : Context := { owner := "main", resumer := .tag "main" }
    let i : Instr := .attempt (.fresh ["b"] (.bind "b" (.ident "a"))) "a" (.bind "b" (.ident "a"))
    threeNames.Agree [("a", 0), ("b", 1)] i.freeIdents ∧
    (ctx.compute 4 [.run i threeNames] 0 threeVars).Alike (ctx.compute 4 [.run i [("a", 0), ("b", 1)]] 0 threeVars) ∧
    (ctx.compute 5 [.run (.apply (.ident "f") [.lit (.bool true)]) threeNames] 0 withHider).Alike
      (ctx.compute 4 [.run hider.body (threeNames.extend [("a", 3)])] 1
        (withHider.newVar (.bound (.bool true))).2) := by
  intro ctx i
  have hagree : threeNames.Agree [("a", 0), ("b", 1)] i.freeIdents := by
    unfold Env.Agree
    decide
  obtain ⟨hinstr, hclosure⟩ := ctx.compute_coincidence 4 0 []
  refine ⟨hagree, hinstr _ _ _ threeVars hagree, ?_⟩
  exact (hclosure ctx threeNames [] "f" hider _ threeVars withHider (execute_hider ctx [])).2 threeNames (.ident "f")
    [.lit (.bool true)] [3] withHider _ rfl value_hider rfl rfl

end Dataflow
