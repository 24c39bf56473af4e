/-
Well-scoped programs never miss an identifier.

Every instruction finds its identifiers under a scope that binds the free ones, and goes on with frames whose scopes
bind theirs. A computation is followed from there through its steps, through preemption and waiting, with anything
happening to the store in between that keeps closures lexical. The invariant is about all frames of the stack, traps
included, and about every closure of the store, since any of them may be entered later.
-/
import Dataflow.Proofs.Finding
import Dataflow.Proofs.Slicing

set_option autoImplicit false

namespace Dataflow

section Scopes

variable {env : Env} {rest : Stack}

/-! ## Instructions -/

/-- The computation goes on with scoped frames. -/
def Flow.Scoped : Flow → Prop
  | .next s => s.Scoped
  | .throw _ _ => True

theorem Action.Finds.goesOn {act : Action Unit} (h : act.Finds) (hrest : rest.Scoped) :
    (act >>= fun _ => Pure.pure (Flow.next rest)).Scoped Flow.Scoped := h.bind fun _ => scoped_pure hrest

/-- **An instruction finds its identifiers** under a scope that binds the free ones, and goes on with scoped frames. -/
theorem Context.scoped_execute (ctx : Context) (hrest : rest.Scoped) (i : Instr) (h : env.Binds i.free) :
    (ctx.execute env rest i).Scoped Flow.Scoped := by
  -- each kind of instruction finds the identifiers that are free in it
  cases i with
  | skip => exact Action.scoped_pure hrest
  | seq instrs =>
    refine Action.scoped_pure fun f hf => ?_
    rcases List.mem_append.mp hf with hf | hf
    · obtain ⟨i, hi, rfl⟩ := List.mem_map.mp hf
      exact Env.binds_freeIdents.mpr (h.mono (Instr.free_subset_allFree hi))
    · exact hrest f hf
  | fresh idents body =>
    -- the body runs with the new identifiers, which it need not find outside
    have hnames : (Action.freshBindings idents).Scoped fun bindings => bindings.map Prod.fst = idents :=
      Action.Finds.scoped ((Action.uses_freshBindings idents).scoped rfl) fun σ bindings τ hmade => Action.freshBindings_names hmade
    refine hnames.bind fun bindings hnames => Action.scoped_pure (hrest.push (.extend ?_))
    rw [hnames]
    exact h
  | bind x y =>
    simp only [Instr.free, Env.binds_cons] at h
    refine (Env.finds_var h.1).bind fun target => (Operand.finds_term h.2).bind fun t => ?_
    exact Action.Finds.goesOn ((Action.uses_bindTerm target t).scoped rfl) hrest
  | arith op a b x =>
    simp only [Instr.free, Env.binds_append, Env.binds_cons] at h
    refine (Operand.finds_value h.1.1).bind fun v => (Operand.finds_value h.1.2).bind fun w => ?_
    refine (Action.finds_check fun _ => Value.plain_of_arith).bind fun r => ?_
    exact (Env.finds_bind h.2.1 r).goesOn hrest
  | negate a x =>
    simp only [Instr.free, Env.binds_append, Env.binds_cons] at h
    refine (Operand.finds_value h.1).bind fun v => (Action.finds_check fun _ => Value.plain_of_asNum).bind fun n => ?_
    exact (Env.finds_bind h.2.1 _).goesOn hrest
  | not a x =>
    simp only [Instr.free, Env.binds_append, Env.binds_cons] at h
    refine (Operand.finds_value h.1).bind fun v => (Action.finds_check fun _ => Value.plain_of_asBool).bind fun b => ?_
    exact (Env.finds_bind h.2.1 _).goesOn hrest
  | rel op a b x =>
    simp only [Instr.free, Env.binds_append, Env.binds_cons] at h
    refine (Operand.finds_value h.1.1).bind fun v => (Operand.finds_value h.1.2).bind fun w => ?_
    refine (Action.finds_check fun _ => Value.plain_of_related).bind fun r => ?_
    exact (Env.finds_bind h.2.1 _).goesOn hrest
  | entails a b x | disentails a b x =>
    simp only [Instr.free, Env.binds_append, Env.binds_cons] at h
    refine (Operand.finds_term h.1.1).bind fun s => (Operand.finds_term h.1.2).bind fun t => ?_
    exact Action.Finds.bind ((Action.uses_entails s t).scoped rfl) fun answer => (Env.finds_bind h.2.1 _).goesOn hrest
  | cond test yes no =>
    simp only [Instr.free, Env.binds_append] at h
    refine (Operand.finds_value h.1.1).bind fun v => (Action.finds_check fun _ => Value.plain_of_asBool).bind fun b => ?_
    refine Action.scoped_pure (hrest.push ?_)
    cases b with
    | true => exact h.1.2
    | false => exact h.2
  | case arg pattern yes no =>
    simp only [Instr.free, Env.binds_append] at h
    refine (Operand.finds_term h.1.1).bind fun t => ?_
    -- what is captured has the names that the pattern lists
    have hnames : (Action.matchTerm pattern t).Scoped fun found =>
        ∀ captures, found = some captures → captures.map Prod.fst = pattern.captures :=
      Action.Finds.scoped ((Action.uses_matchTerm pattern t).scoped rfl) fun σ found τ hfound captures hsome =>
        Action.matchTerm_names (hsome ▸ hfound)
    refine hnames.bind fun found hnames => ?_
    cases found with
    | some captures =>
      refine Action.scoped_pure (hrest.push (.extend ?_))
      rw [hnames captures rfl]
      exact h.1.2
    | none =>
      cases no with
      | some no => exact Action.scoped_pure (hrest.push h.2)
      | none => exact (Action.finds_read _).bind fun text => Action.scoped_fault rfl
  | attempt body caught handler =>
    simp only [Instr.free, Env.binds_append] at h
    -- the handler need not find the identifier that it catches in
    have htrap : Frame.Scoped (.trap caught handler env) := by
      intro x hx
      rw [mem_removeIdents, Instr.mem_freeIdents] at hx
      exact h.2 x (mem_removeIdents.mpr hx)
    exact Action.scoped_pure (Stack.Scoped.push (List.forall_mem_cons.mpr ⟨htrap, hrest⟩) h.1)
  | throw value =>
    refine (Operand.finds_term h).bind fun t => (Action.finds_complete t).bind fun v => ?_
    exact Action.scoped_pure trivial
  | apply proc args =>
    simp only [Instr.free, Env.binds_append] at h
    refine (Operand.finds_value h.1).bind fun v => ?_
    exact (v.scoped_call ctx hrest h.2).bind fun s hs => Action.scoped_pure hs
  | select record feature x =>
    simp only [Instr.free, Env.binds_append, Env.binds_cons] at h
    refine (Env.finds_select h.1.1 h.1.2).bind fun t => (Env.finds_var h.2.1).bind fun y => ?_
    exact (Action.finds_unify _ t).goesOn hrest
  | selectApply record feature args =>
    simp only [Instr.free, Env.binds_append] at h
    refine (Env.finds_select h.1.1 h.1.2).bind fun t => (Action.finds_read _).bind fun u => ?_
    cases u with
    | var x => exact Action.scoped_block x
    | val v => exact (v.scoped_call ctx hrest h.2).bind fun s hs => Action.scoped_pure hs
  | createRecord x label fields =>
    simp only [Instr.free, Env.binds_cons, List.cons_append, Env.binds_append] at h
    refine (Env.finds_label h.2.1).bind fun l => (Env.finds_fields h.2.2).bind fun fs => ?_
    refine (Action.finds_check fun _ => Record.plain_of_build).bind fun r => ?_
    exact (Action.finds_take fun _ => rfl).bind fun n => (Env.finds_bind h.1 _).goesOn hrest
  | createTuple x label values =>
    simp only [Instr.free, Env.binds_cons, List.cons_append, Env.binds_append] at h
    refine (Env.finds_label h.2.1).bind fun l => (Operand.finds_terms h.2.2).bind fun ts => ?_
    exact (Action.finds_take fun _ => rfl).bind fun n => (Env.finds_bind h.1 _).goesOn hrest
  | createProc x params body | createActor x params body =>
    simp only [Instr.free, Env.binds_cons] at h
    exact (Env.finds_close h.2).bind fun c => (Env.finds_bind h.1 _).goesOn hrest
  | getCell cell x =>
    simp only [Instr.free, Env.binds_append, Env.binds_cons] at h
    refine (Operand.finds_value h.1).bind fun v => (Action.finds_check fun _ => Value.plain_of_asCell).bind fun c => ?_
    refine (Env.finds_var h.2.1).bind fun y => (Action.finds_read _).bind fun t => ?_
    exact (Action.finds_unify _ t).goesOn hrest
  | setCell cell value =>
    simp only [Instr.free, Env.binds_append] at h
    refine (Operand.finds_value h.1).bind fun v => (Action.finds_check fun _ => Value.plain_of_asCell).bind fun c => ?_
    refine (Operand.finds_term h.2).bind fun t => ?_
    exact Action.Finds.goesOn (Action.finds_update fun _ => rfl) hrest

end Scopes

/-! ## Steps and slices -/

/-- The store has lexical closures, and the computation goes on with scoped frames if it goes on. -/
def Outcome.Scoped (result : Outcome × Store) : Prop :=
  result.2.Lexical ∧ ∀ s, result.1 = .next s → s.Scoped

section Steps

variable {s rest : Stack} {env : Env} {σ : Store}

/-- Unwinding a scoped stack leaves a scoped one. -/
theorem unwind_scoped (owner : Address) (v : Value) (cause : Option Fault) (h : s.Scoped) (hσ : σ.Lexical) :
    Outcome.Scoped (unwind owner v cause s σ) := by
  induction s with
  | nil =>
    refine ⟨hσ.congr rfl, fun s hs => ?_⟩
    cases hs
  | cons f rest ih =>
    obtain ⟨hf, hrest⟩ := List.forall_mem_cons.mp h
    cases f with
    | run i env => exact ih hrest
    | trap caught handler env =>
      refine ⟨hσ.congr rfl, fun s hs => ?_⟩
      cases hs
      -- the handler gets the identifier that its scope need not have
      refine Stack.Scoped.push hrest (.extend fun x hx => hf x ?_)
      rw [mem_removeIdents] at hx ⊢
      exact ⟨Instr.mem_freeIdents.mpr hx.1, hx.2⟩

/-- Whatever is thrown for a fault, the stack that catches it is scoped. -/
theorem raise_scoped (owner : Address) (f : Fault) (h : s.Scoped) (hσ : σ.Lexical) :
    Outcome.Scoped (raise owner f s σ) := by
  cases f with
  | failedValue g => exact unwind_scoped owner _ _ h hσ
  | _ => exact unwind_scoped owner _ _ h (hσ.congr rfl)

/-- A machine step keeps stack and store scoped. -/
theorem Context.step_scoped (ctx : Context) (i : Instr) (h : env.Binds i.free) (hrest : rest.Scoped)
    (hσ : σ.Lexical) : Outcome.Scoped (ctx.step i env rest σ) := by
  have hexecute := ctx.scoped_execute hrest i h σ hσ
  rw [step]
  generalize ctx.execute env rest i σ = result at hexecute
  cases result with
  | ok flow τ =>
    cases flow with
    | next s =>
      refine ⟨hexecute.1, fun s' hs' => ?_⟩
      cases hs'
      exact hexecute.2
    | throw v cause => exact unwind_scoped _ v cause hrest hexecute.1
  | error e τ =>
    cases e with
    | fault f => exact raise_scoped _ f hrest hexecute.1
    -- a variable that has got its value meanwhile lets the instruction run again
    | blocked x =>
      dsimp only [Store.suspend]
      cases τ.resolveVar x with
      | var y =>
        refine ⟨hexecute.1.congr rfl, fun s' hs' => ?_⟩
        cases hs'
      | val v =>
        refine ⟨hexecute.1, fun s' hs' => ?_⟩
        cases hs'
        exact hrest.push h

/-- Of a scoped stack, the instruction that runs next finds its free identifiers. -/
theorem next?_scoped {i : Instr} (h : s.Scoped) (hnext : next? s = some (i, env, rest)) :
    env.Binds i.free ∧ rest.Scoped := by
  induction s with
  | nil => cases hnext
  | cons f below ih =>
    obtain ⟨hf, hbelow⟩ := List.forall_mem_cons.mp h
    cases f with
    | run j scope =>
      cases hnext
      exact ⟨Env.binds_freeIdents.mp hf, hbelow⟩
    | trap caught handler scope => exact ih hbelow hnext

/-- What a slice leaves of a computation is scoped. -/
theorem Context.compute_scoped (ctx : Context) (h : s.Scoped) (hσ : σ.Lexical) (slice executed : Nat) :
    (ctx.compute slice s executed σ).store.Lexical ∧
      ∀ s', (ctx.compute slice s executed σ).advice = .preempted s' → s'.Scoped := by
  -- on the length of the slice
  induction slice generalizing s executed σ with
  | zero =>
    rcases hnext : next? s with _ | ⟨i, env, rest⟩
    · rw [compute_of_next?_eq_none hnext]
      exact ⟨hσ, fun s' hs' => by cases hs'⟩
    · rw [compute_zero hnext]
      refine ⟨hσ, fun s' hs' => ?_⟩
      cases hs'
      obtain ⟨hbinds, hrest⟩ := next?_scoped h hnext
      exact hrest.push hbinds
  | succ slice ih =>
    rcases hnext : next? s with _ | ⟨i, env, rest⟩
    · rw [compute_of_next?_eq_none hnext]
      exact ⟨hσ, fun s' hs' => by cases hs'⟩
    · obtain ⟨hbinds, hrest⟩ := next?_scoped h hnext
      have hstep := ctx.step_scoped i hbinds hrest hσ
      rw [compute_succ hnext]
      -- the step keeps stack and store scoped, whatever its end
      generalize ctx.step i env rest σ = result at hstep
      obtain ⟨outcome, τ⟩ := result
      cases outcome with
      | next s' => exact ih (hstep.2 s' rfl) hstep.1 (executed + 1)
      | waiting x => exact ⟨hstep.1, fun s' hs' => by cases hs'⟩
      | halted f => exact ⟨hstep.1, fun s' hs' => by cases hs'⟩

end Steps

/-! ## Whole computations -/

/-- The stacks and stores that a computation goes through, from the stack and store that it starts with. Whenever it
is not running, and even between two of its instructions, the store may become any other one whose closures are
lexical. -/
inductive Context.Course (ctx : Context) (start : Stack) (σ₀ : Store) : Stack → Store → Prop where
  | start : ctx.Course start σ₀ start σ₀
  /-- One instruction is carried out, which may enter a closure, throw to a handler, and so on. -/
  | step {s s' rest : Stack} {i : Instr} {env : Env} {σ τ : Store} (h : ctx.Course start σ₀ s σ)
      (hnext : next? s = some (i, env, rest)) (hstep : ctx.step i env rest σ = (.next s', τ)) :
      ctx.Course start σ₀ s' τ
  /-- A slice is used up, and what is left of the computation is to go on later. -/
  | preempted {s s' : Stack} {σ τ : Store} {slice executed executed' : Nat} (h : ctx.Course start σ₀ s σ)
      (hslice : ctx.compute slice s executed σ = ⟨.preempted s', executed', τ⟩) : ctx.Course start σ₀ s' τ
  /-- An instruction has to wait, and it is resumed in a later store with the stack that was parked. -/
  | resumed {s rest : Stack} {i : Instr} {env : Env} {x : VarId} {σ τ τ' : Store} (h : ctx.Course start σ₀ s σ)
      (hnext : next? s = some (i, env, rest)) (hstep : ctx.step i env rest σ = (.waiting x, τ))
      (hlater : τ'.Lexical) : ctx.Course start σ₀ (.run i env :: rest) τ'
  /-- Something else happens to the store. -/
  | meanwhile {s : Stack} {σ τ : Store} (h : ctx.Course start σ₀ s σ) (hlater : τ.Lexical) : ctx.Course start σ₀ s τ

/-- Stack and store are scoped all along a course. -/
theorem Context.Course.scoped {ctx : Context} {start s : Stack} {σ₀ σ : Store} (h : ctx.Course start σ₀ s σ)
    (hstart : start.Scoped) (hσ₀ : σ₀.Lexical) : s.Scoped ∧ σ.Lexical := by
  induction h with
  | start => exact ⟨hstart, hσ₀⟩
  | step _ hnext hstep ih =>
    obtain ⟨hbinds, hrest⟩ := next?_scoped ih.1 hnext
    have hscoped := ctx.step_scoped _ hbinds hrest ih.2
    rw [hstep] at hscoped
    exact ⟨hscoped.2 _ rfl, hscoped.1⟩
  | @preempted _ _ _ _ slice executed _ _ hslice ih =>
    have hscoped := ctx.compute_scoped ih.1 ih.2 slice executed
    rw [hslice] at hscoped
    exact ⟨hscoped.2 _ rfl, hscoped.1⟩
  | resumed _ hnext _ hlater ih =>
    obtain ⟨hbinds, hrest⟩ := next?_scoped ih.1 hnext
    exact ⟨hrest.push hbinds, hlater⟩
  | meanwhile _ hlater ih => exact ⟨ih.1, hlater⟩

/-- **Well-scoped programs never miss an identifier.** If a scope binds the free identifiers of an instruction and all
closures of the store have been made by closing over a scope, then no step of any computation that starts with the
instruction finds an identifier unbound: however long it is, however it is preempted, parked and resumed, and through
whatever closures, constructors and handlers it goes. -/
theorem Context.Course.neverMisses {ctx : Context} {i j : Instr} {env scope : Env} {s rest : Stack} {σ₀ σ : Store}
    (hbinds : env.Binds i.freeIdents) (hσ₀ : σ₀.Lexical) (hcourse : ctx.Course [.run i env] σ₀ s σ)
    (hnext : next? s = some (j, scope, rest)) (x : Ident) (τ : Store) :
    ctx.execute scope rest j σ ≠ .error (.fault (.identNotFound x)) τ := by
  intro hmissing
  have hstart : Stack.Scoped [.run i env] := List.forall_mem_singleton.mpr hbinds
  obtain ⟨hs, hσ⟩ := hcourse.scoped hstart hσ₀
  obtain ⟨hfree, hrest⟩ := next?_scoped hs hnext
  have hexecute := ctx.scoped_execute hrest j hfree σ hσ
  rw [hmissing] at hexecute
  cases hexecute.2

/-- A program that creates a procedure whose parameter hides a name, and applies it: the body, which the course has
reached after three steps, finds the captured name and the parameter. -/
theorem Context.Course.neverMisses_hider :
    let ctx : Context := { owner := "main", resumer := .tag "main" }
    let create : Instr := .createProc "f" hider.params hider.body
    let apply : Instr := .apply (.ident "f") [.lit (.bool true)]
    let σ : Store := (withHider.newVar (.bound (.bool true))).2
    threeNames.Binds (Instr.seq [create, apply]).freeIdents ∧ threeVars.Lexical ∧
    ctx.Course [.run (.seq [create, apply]) threeNames] threeVars [.run hider.body [("a", 3), ("b", 1)]] σ ∧
    ∀ x τ, ctx.execute [("a", 3), ("b", 1)] [] hider.body σ ≠ .error (.fault (.identNotFound x)) τ := by
  intro ctx create apply σ
  have hbinds : threeNames.Binds (Instr.seq [create, apply]).freeIdents := by
    -- the parameter is not free in the definition, which leaves two names
    have hfree : (Instr.seq [create, apply]).freeIdents = ["b", "f"] := by decide
    rw [hfree]
    exact Env.binds_cons.mpr ⟨⟨1, rfl⟩, Env.binds_cons.mpr ⟨⟨2, rfl⟩, Env.binds_nil⟩⟩
  have hlexical : threeVars.Lexical := fun c hc => absurd hc (Array.not_mem_empty c)
  have hfirst : ctx.step (.seq [create, apply]) threeNames [] threeVars =
      (.next [.run create threeNames, .run apply threeNames], threeVars) := rfl
  have hsecond : ctx.step create threeNames [.run apply threeNames] threeVars =
      (.next [.run apply threeNames], withHider) := by
    rw [Context.step, execute_hider]
  have hclosure : withHider.closure 0 = ⟨hider, [("b", 1)]⟩ := rfl
  have hvars : Operand.vars threeNames [.lit (.bool true)] withHider = .ok [3] σ := rfl
  have hthird : ctx.step apply threeNames [] withHider = (.next [.run hider.body [("a", 3), ("b", 1)]], σ) :=
    step_apply hclosure value_hider rfl hvars
  have hcourse : ctx.Course [.run (.seq [create, apply]) threeNames] threeVars
      [.run hider.body [("a", 3), ("b", 1)]] σ :=
    ((Course.start.step rfl hfirst).step rfl hsecond).step rfl hthird
  exact ⟨hbinds, hlexical, hcourse, neverMisses hbinds hlexical hcourse rfl⟩

end Dataflow
