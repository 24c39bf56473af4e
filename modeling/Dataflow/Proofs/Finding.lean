/-
Finding: actions that find all their identifiers, in stores that keep this so.

A look-up faults in one place only, when an identifier is not bound in the scope of the instruction that uses it. The
invariant that excludes it is about everything that can ever become such a scope. A frame is scoped if its scope binds
the free identifiers of its instruction, or of its handler except the caught one. A closure is lexical if closing over
some scope makes it, so that it binds what its body takes from outside; with the parameters it binds all of the body's
free identifiers.

One predicate on actions carries the proof: started in a store whose closures are lexical, the action leaves such a
store, whatever it does, and is not interrupted by a missing identifier. Sequencing keeps this, and it holds of nearly all
kinds of steps; for operands and calls it is shown under a scope that binds what they name.
-/
import Dataflow.Proofs.Kinds
import Dataflow.Proofs.Scope

set_option autoImplicit false

namespace Dataflow

/-! ## Scopes that bind -/

namespace Env

/-- Each of the identifiers is bound. -/
def Binds (env : Env) (xs : List Ident) : Prop := ∀ x ∈ xs, ∃ y, env.find? x = some y

variable {env : Env} {xs ys : List Ident}

theorem Binds.mono (h : env.Binds ys) (hsub : xs ⊆ ys) : env.Binds xs := fun x hx => h x (hsub hx)

@[simp] theorem binds_nil : env.Binds [] := fun _ hx => absurd hx List.not_mem_nil

@[simp] theorem binds_cons {x : Ident} : env.Binds (x :: xs) ↔ (∃ y, env.find? x = some y) ∧ env.Binds xs :=
  List.forall_mem_cons

@[simp] theorem binds_append : env.Binds (xs ++ ys) ↔ env.Binds xs ∧ env.Binds ys := List.forall_mem_append

theorem binds_freeIdents {i : Instr} : env.Binds i.freeIdents ↔ env.Binds i.free :=
  forall_congr' fun _ => imp_congr_left Instr.mem_freeIdents

/-- A scope that binds what is left over binds everything once the rest is bound in it. -/
theorem Binds.extend {bindings : List (Ident × VarId)}
    (h : env.Binds (removeIdents xs (bindings.map Prod.fst))) : (env.extend bindings).Binds xs := by
  intro x hx
  by_cases hbound : x ∈ bindings.map Prod.fst
  · obtain ⟨y, hy⟩ := find?_extend_of_mem hbound
    exact ⟨y, hy env⟩
  · rw [find?_extend_of_notMem hbound]
    exact h x (mem_removeIdents.mpr ⟨hx, hbound⟩)

end Env

/-! ## Lexical closures and scoped frames -/

/-- Closing over some scope makes the closure. -/
def Closure.Lexical (c : Closure) : Prop := ∃ (env : Env) (σ : Store), env.capture c.proc.captures σ = .ok c.env σ

/-- Every closure of the store has been made by closing over a scope. -/
def Store.Lexical (σ : Store) : Prop := ∀ c ∈ σ.closures, c.Lexical

/-- The scope binds what the frame takes from it. -/
def Frame.Scoped : Frame → Prop
  | .run i env => env.Binds i.freeIdents
  | .trap caught handler env => env.Binds (removeIdents handler.freeIdents [caught])

/-- Every frame is scoped. -/
def Stack.Scoped (s : Stack) : Prop := ∀ f ∈ s, f.Scoped

theorem Stack.Scoped.push {s : Stack} (h : s.Scoped) {i : Instr} {env : Env} (hbinds : env.Binds i.free) :
    Stack.Scoped (.run i env :: s) := List.forall_mem_cons.mpr ⟨Env.binds_freeIdents.mpr hbinds, h⟩

/-- With its parameters bound, a lexical closure binds the free identifiers of its body. -/
theorem Closure.Lexical.binds {c : Closure} (h : c.Lexical) {vars : List VarId}
    (hlength : vars.length = c.proc.params.length) :
    (c.env.extend (c.proc.params.zip vars)).Binds c.proc.body.free := by
  obtain ⟨env, σ, hcapture⟩ := h
  refine .extend fun x hx => Env.find?_of_mem ?_
  rw [List.map_fst_zip (Nat.le_of_eq hlength.symm)] at hx
  rw [(Env.capture_eq_ok hcapture).2.1]
  exact ProcDef.mem_captures.mpr (mem_removeIdents.mp hx)

namespace Store

variable {σ τ : Store}

/-- Each closure of a lexical store is lexical, also where there is none. -/
theorem Lexical.closure (h : σ.Lexical) (c : ClosureId) : (σ.closure c).Lexical := by
  rw [Store.closure, Array.getD_eq_getD_getElem?]
  cases hc : σ.closures[c]? with
  | none => exact ⟨[], {}, rfl⟩
  | some closure => exact h closure (Array.mem_of_getElem? hc)

theorem Lexical.congr (h : σ.Lexical) (heq : τ.closures = σ.closures) : τ.Lexical := by
  rw [Lexical, heq]
  exact h

theorem Lexical.newClosure (h : σ.Lexical) {c : Closure} (hc : c.Lexical) : (σ.newClosure c).2.Lexical := by
  intro d hd
  rcases Array.mem_push.mp hd with hd | rfl
  · exact h d hd
  · exact hc

end Store

/-! ## Actions that miss no identifier -/

/-- Whether the fault is that an identifier is not bound. -/
def Fault.isMissing : Fault → Bool
  | .identNotFound _ => true
  | _ => false

/-- Whether the interrupt is that an identifier is not bound. -/
def Interrupt.isMissing : Interrupt → Bool
  | .fault f => f.isMissing
  | .blocked _ => false

theorem Fault.Plain.not_missing {f : Fault} (h : f.Plain) : f.isMissing = false := by
  cases f with
  | identNotFound x => exact absurd rfl (h.bound x)
  | _ => rfl

/-- Selecting never fails because an identifier is missing. -/
theorem Store.select_not_missing {σ : Store} {v : Value} {g : Feature} {f : Fault} (h : σ.select v g = .error f) :
    f.isMissing = false := by
  unfold Store.select at h
  split at h
  · split at h <;> cases h
    rfl
  · split at h <;> cases h
    rfl
  · cases h
    rfl

namespace Action

variable {α β : Type} {Q : α → Prop} {R : β → Prop}

/-- In a store whose closures are lexical the action leaves such a store and misses no identifier, and its result
satisfies `Q`. -/
def Scoped (act : Action α) (Q : α → Prop) : Prop := ∀ σ, σ.Lexical →
  match act σ with
  | .ok a τ => τ.Lexical ∧ Q a
  | .error e τ => τ.Lexical ∧ e.isMissing = false

/-- The same of an action whose result does not matter. -/
abbrev Finds (act : Action α) : Prop := act.Scoped fun _ => True

/-- Scoped actions can be run one after the other. The second may rely on the result of the first. -/
theorem Scoped.bind {act : Action α} {f : α → Action β} (h : act.Scoped Q) (hf : ∀ a, Q a → (f a).Scoped R) :
    (act >>= f).Scoped R := by
  intro σ hσ
  have hact := h σ hσ
  rw [bind_apply]
  generalize act σ = result at hact
  cases result with
  | ok a τ => exact hf a hact.2 τ hact.1
  | error e τ => exact hact

/-- An action that finds its identifiers, followed by one that does so whatever the first one answers. -/
theorem Finds.bind {act : Action α} {f : α → Action β} (h : act.Finds) (hf : ∀ a, (f a).Scoped R) :
    (act >>= f).Scoped R := Scoped.bind h fun a _ => hf a

/-- What is known about every result of an action may be used. -/
theorem Finds.scoped {act : Action α} (h : act.Finds) (hQ : ∀ σ a τ, act σ = .ok a τ → Q a) : act.Scoped Q := by
  intro σ hσ
  have hact := h σ hσ
  cases hresult : act σ with
  | ok a τ =>
    rw [hresult] at hact
    exact ⟨hact.1, hQ σ a τ hresult⟩
  | error e τ =>
    rw [hresult] at hact
    exact hact

theorem scoped_pure {a : α} (h : Q a) : (pure a : Action α).Scoped Q := fun _ hσ => ⟨hσ, h⟩

theorem scoped_fault {f : Fault} (h : f.isMissing = false) : (fault f : Action α).Scoped Q := fun _ hσ => ⟨hσ, h⟩

theorem scoped_block (x : VarId) : (block x : Action α).Scoped Q := fun _ hσ => ⟨hσ, rfl⟩

theorem scoped_read {g : Store → α} (h : ∀ σ, σ.Lexical → Q (g σ)) : (read g).Scoped Q := fun σ hσ => ⟨hσ, h σ hσ⟩

theorem finds_pure (a : α) : (pure a : Action α).Finds := scoped_pure trivial

theorem finds_read (g : Store → α) : (read g).Finds := scoped_read fun _ _ => trivial

theorem finds_take {g : Store → α × Store} (h : ∀ σ, (g σ).2.closures = σ.closures) : (take g).Finds :=
  fun σ hσ => ⟨hσ.congr (h σ), trivial⟩

theorem finds_update {g : Store → Store} (h : ∀ σ, (g σ).closures = σ.closures) : (update g).Finds :=
  fun σ hσ => ⟨hσ.congr (h σ), trivial⟩

/-- A change that makes no closure and at most finds a conflict. -/
theorem finds_ofChange {g : Store → Option Fault × Store}
    (h : ∀ σ, (g σ).2.closures = σ.closures ∧ ∀ f, (g σ).1 = some f → ∃ v w, f = .bindConflict v w) :
    (ofChange g).Finds := by
  intro σ hσ
  have hchange := h σ
  rw [ofChange]
  generalize g σ = result at hchange
  rcases result with ⟨_ | f, τ⟩
  · exact ⟨hσ.congr hchange.1, trivial⟩
  · obtain ⟨v, w, rfl⟩ := hchange.2 f rfl
    exact ⟨hσ.congr hchange.1, rfl⟩

/-- Completing apart, a step misses no identifier and makes no closure if its kind is not to do so. -/
theorem Step.finds {k : Kind} {act : Action α} (h : Step k act) (hk : k ∉ [.missing, .closure]) (hne : k ≠ .complete) :
    act.Finds := by
  cases h with
  | fault h => exact scoped_fault h.not_missing
  | component v g =>
    intro σ hσ
    rw [bind_apply]
    dsimp only [read]
    rcases hselect : σ.select v g with e | t
    · exact ⟨hσ, Store.select_not_missing hselect⟩
    · exact ⟨hσ, trivial⟩
  | noMatch | notAProc | mismatch => exact fun _ hσ => ⟨hσ, rfl⟩
  | wait x => exact scoped_block x
  | ask => exact finds_read _
  | record | rebuild | fill | fresh | cell | iterator | token | config | receiver | address | announce | setCell
  | send => exact fun _ hσ => ⟨hσ.congr rfl, trivial⟩
  | advance i =>
    refine finds_take fun σ => ?_
    rw [Store.nextItem]
    split
    · rfl
    · rw [Iterator.item]
      split
      · rfl
      · rfl
  | unify a b => exact finds_ofChange fun σ => σ.unify_outcome a b
  | bindVar x y => exact finds_ofChange fun σ => σ.unifyVars_outcome x y
  | missing | closure => exact absurd (by decide) hk
  | complete => exact absurd rfl hne

/-- Looking up identifiers and making closures apart, no step misses an identifier. -/
theorem Composed.scoped {K : List Kind} {act : Action α} (h : act.Composed K Q)
    (hK : Kind.avoids K [.missing, .closure] = true) : act.Scoped Q := by
  have hsequenced : Sequenced @Finds :=
    ⟨fun _ => scoped_pure trivial, fun h hf => (h.scoped fun σ _ τ heq => ⟨σ, τ, heq⟩).bind hf⟩
  have hfinds : act.Finds :=
    h.holds_apart hsequenced hK rfl fun _ hk hne _ _ hs => hs.finds (of_decide_eq_true hk) hne
  exact hfinds.scoped fun _ _ _ heq => h.result heq

theorem finds_unify (a b : Term) : (unify a b).Finds := Step.finds (.unify a b) (by decide) nofun

theorem finds_complete (t : Term) : (complete t).Finds := (complete_uses t).scoped rfl

/-- A check that fails for other reasons than an identifier that is not bound. -/
theorem finds_check {r : Except Fault α} (h : ∀ f, r = .error f → f.Plain) : (ofExcept r).Finds :=
  (uses_ofExcept h).scoped rfl

end Action

/-! ## Operands -/

section Scopes

variable {env : Env} {rest : Stack} {args : List Operand}

theorem Env.finds_var {x : Ident} (h : ∃ y, env.find? x = some y) : (env.var x).Finds := by
  obtain ⟨y, hy⟩ := h
  rw [Env.var, hy]
  exact Action.finds_pure y

theorem Env.finds_bind {x : Ident} (h : ∃ y, env.find? x = some y) (v : Value) : (env.bind x v).Finds :=
  (Env.finds_var h).bind fun _ => Action.finds_unify _ _

namespace Operand

variable {a : Operand}

theorem finds_term (h : env.Binds a.free) : (a.term env).Finds := by
  cases a with
  | ident x => exact (Env.finds_var (h x List.mem_cons_self)).bind fun y => Action.finds_read _
  | lit s => exact Action.finds_pure _

theorem finds_value (h : env.Binds a.free) : (a.value env).Finds := by
  refine (finds_term h).bind fun t => ?_
  split
  · exact Action.scoped_fault rfl
  · exact Action.finds_pure _
  · exact Action.scoped_block _

theorem finds_toVar (h : env.Binds a.free) : (a.toVar env).Finds := by
  cases a with
  | ident x => exact Env.finds_var (h x List.mem_cons_self)
  | lit s => exact Action.finds_take fun _ => rfl

theorem finds_deliver (h : env.Binds a.free) (v : Value) : (a.deliver env v).Finds :=
  (finds_term h).bind fun _ => Action.finds_unify _ _

theorem finds_terms (h : env.Binds (args.flatMap free)) : (terms env args).Finds := by
  induction args with
  | nil => exact Action.finds_pure _
  | cons a rest ih =>
    rw [List.flatMap_cons, Env.binds_append] at h
    exact (finds_term h.1).bind fun t => Action.Finds.bind (ih h.2) fun ts => Action.finds_pure _

theorem finds_vars (h : env.Binds (args.flatMap free)) : (vars env args).Finds := by
  induction args with
  | nil => exact Action.finds_pure _
  | cons a rest ih =>
    rw [List.flatMap_cons, Env.binds_append] at h
    exact (finds_toVar h.1).bind fun x => Action.Finds.bind (ih h.2) fun xs => Action.finds_pure _

theorem finds_completes (h : env.Binds (args.flatMap free)) : (completes env args).Finds := by
  induction args with
  | nil => exact Action.finds_pure _
  | cons a rest ih =>
    rw [List.flatMap_cons, Env.binds_append] at h
    refine (finds_term h.1).bind fun t => (Action.finds_complete t).bind fun v => ?_
    exact Action.Finds.bind (ih h.2) fun vs => Action.finds_pure _

/-- What is bound for all arguments is bound for each. -/
theorem binds_of_mem (h : env.Binds (args.flatMap free)) (ha : a ∈ args) : env.Binds a.free :=
  h.mono fun _ hx => List.mem_flatMap.mpr ⟨a, ha, hx⟩

end Operand

namespace Env

/-- A scope that binds the identifiers can capture them. -/
theorem capture_of_binds {xs : List Ident} (h : env.Binds xs) (σ : Store) :
    ∃ captured, env.capture xs σ = .ok captured σ := by
  induction xs with
  | nil => exact ⟨[], rfl⟩
  | cons x rest ih =>
    rw [binds_cons] at h
    obtain ⟨⟨y, hy⟩, hrest⟩ := h
    obtain ⟨captured, hcapture⟩ := ih hrest
    refine ⟨(x, y) :: captured, ?_⟩
    have hvar : env.var x = pure y := by rw [var, hy]
    rw [capture, hvar, pure_bind, bind_apply, hcapture]
    rfl

/-- Closing over a scope makes a lexical closure. -/
theorem finds_close {d : ProcDef} (h : env.Binds (removeIdents d.body.free d.params)) : (env.close d).Finds := by
  intro σ hσ
  have hbinds : env.Binds d.captures := fun x hx => h x (mem_sortIdents.mp hx)
  obtain ⟨captured, hcapture⟩ := capture_of_binds hbinds σ
  rw [close, bind_apply, hcapture]
  exact ⟨hσ.newClosure ⟨env, σ, hcapture⟩, trivial⟩

theorem finds_label {l : Option Operand} (h : env.Binds (Operand.labelFree l)) : (env.label l).Finds := by
  cases l with
  | none => exact Action.finds_pure _
  | some a => exact (Operand.finds_value h).bind fun v => Action.finds_check fun _ => Value.plain_of_asLiteral

theorem finds_fields {fs : List (Operand × Operand)}
    (h : env.Binds (fs.flatMap fun p => p.1.free ++ p.2.free)) : (env.fields fs).Finds := by
  induction fs with
  | nil => exact Action.finds_pure _
  | cons p rest ih =>
    rw [List.flatMap_cons, binds_append, binds_append] at h
    refine (Operand.finds_value h.1.1).bind fun v => ?_
    refine (Action.finds_check fun _ => Value.plain_of_toFeature).bind fun f => (Operand.finds_term h.1.2).bind fun t => ?_
    exact Action.Finds.bind (ih h.2) fun gs => Action.finds_pure _

/-- A selection finds its identifiers if the scope binds both operands. -/
theorem finds_select {record feature : Operand} (hr : env.Binds record.free) (hf : env.Binds feature.free) :
    (env.select record feature).Finds := by
  refine (Operand.finds_value hr).bind fun v => (Operand.finds_value hf).bind fun w => ?_
  refine (Action.finds_check fun _ => Value.plain_of_toFeature).bind fun f => ?_
  exact Action.Step.finds (.component v f) (by decide) nofun

end Env

/-! ## Calls -/

theorem finds_wrongCount {α : Type} {Q : α → Prop} (name : String) (expected : Nat) (args : List Operand) :
    (wrongCount name expected args : Action α).Scoped Q := Action.scoped_fault rfl

theorem Native.finds_newIterator {source target : Operand} (kind : IterKind) (hsource : env.Binds source.free)
    (htarget : env.Binds target.free) : (newIterator env kind source target).Finds := by
  refine (Operand.finds_value hsource).bind fun v => (Action.finds_check fun _ => Value.plain_of_asRecord).bind fun r => ?_
  exact (Action.finds_take fun _ => rfl).bind fun i => Operand.finds_deliver htarget _

/-- A call of a native finds all identifiers if the scope binds what is free in its arguments. -/
theorem Native.finds_call (ctx : Context) (n : Native) (h : env.Binds (args.flatMap Operand.free)) :
    (n.call ctx env args).Finds := by
  fun_cases Native.call ctx env n args with
  -- a configuration is spawned
  | case1 config target =>
    obtain ⟨hconfig, htarget⟩ : env.Binds config.free ∧ env.Binds target.free := by simpa using h
    refine (Operand.finds_value hconfig).bind fun v => ?_
    split
    · refine (Action.finds_complete _).bind fun _ => Action.Finds.bind ((ctx.uses_spawn _).scoped rfl) fun child => ?_
      exact Operand.finds_deliver htarget _
    · exact Action.scoped_fault rfl
  -- a cell is made
  | case2 content target =>
    obtain ⟨hcontent, htarget⟩ : env.Binds content.free ∧ env.Binds target.free := by simpa using h
    refine (Operand.finds_term hcontent).bind fun t => (Action.finds_take fun _ => rfl).bind fun c => ?_
    exact Operand.finds_deliver htarget _
  -- a text is read as a number
  | case3 text target =>
    obtain ⟨htext, htarget⟩ : env.Binds text.free ∧ env.Binds target.free := by simpa using h
    refine (Operand.finds_value htext).bind fun v => (Action.finds_check fun _ => Value.plain_of_asStr).bind fun s => ?_
    split
    · exact Operand.finds_deliver htarget _
    · exact Action.scoped_fault rfl
  -- two records are merged
  | case4 first second target =>
    obtain ⟨hfirst, hsecond, htarget⟩ :
        env.Binds first.free ∧ env.Binds second.free ∧ env.Binds target.free := by simpa using h
    refine (Operand.finds_value hfirst).bind fun v => (Operand.finds_value hsecond).bind fun w => ?_
    refine (Action.finds_check fun _ => Value.plain_of_asRecord).bind fun r => ?_
    refine (Action.finds_check fun _ => Value.plain_of_asRecord).bind fun s => ?_
    refine ((Store.composed_assign r s).scoped rfl).bind fun made hmade => ?_
    obtain ⟨fields, rfl⟩ := hmade
    refine (Action.finds_check fun _ => Record.plain_of_build).bind fun merged => ?_
    exact (Action.finds_take fun _ => rfl).bind fun t => Operand.finds_deliver htarget _
  -- the fields of a record are counted
  | case5 record target =>
    obtain ⟨hrecord, htarget⟩ : env.Binds record.free ∧ env.Binds target.free := by simpa using h
    refine (Operand.finds_value hrecord).bind fun v => (Action.finds_check fun _ => Value.plain_of_asRecord).bind fun r => ?_
    exact (Action.finds_read _).bind fun n => Operand.finds_deliver htarget _
  | case6 target =>
    -- a token is minted
    have htarget : env.Binds target.free := by simpa using h
    exact (Action.finds_take fun _ => rfl).bind fun n => Operand.finds_deliver htarget _
  -- an iterator is made, over the features of a record or over its values
  | case7 source target | case8 source target =>
    obtain ⟨hsource, htarget⟩ : env.Binds source.free ∧ env.Binds target.free := by simpa using h
    exact finds_newIterator _ hsource htarget
  | case9 n args => exact finds_wrongCount _ _ _

/-- A call of a cell finds all identifiers if the scope binds what is free in its arguments. -/
theorem CellProc.finds_call (c : CellId) (p : CellProc) (h : env.Binds (args.flatMap Operand.free)) :
    (p.call c env args).Finds := by
  fun_cases CellProc.call c env p args with
  | case1 target =>
    have htarget : env.Binds target.free := by simpa using h
    refine (Operand.finds_term htarget).bind fun t => (Action.finds_read _).bind fun u => ?_
    exact Action.finds_unify _ _
  | case2 content =>
    have hcontent : env.Binds content.free := by simpa using h
    exact (Operand.finds_term hcontent).bind fun t => Action.finds_update fun _ => rfl
  | case3 p args => exact finds_wrongCount _ _ _

/-- A call of an actor finds all identifiers if the scope binds what is free in its arguments. -/
theorem ActorProc.finds_call (ctx : Context) (r : ActorRef) (p : ActorProc)
    (h : env.Binds (args.flatMap Operand.free)) : (p.call ctx r env args).Finds := by
  fun_cases ActorProc.call ctx r env p args with
  -- nobody asks here, or the actor asks itself
  | case1 | case2 => exact Action.scoped_fault rfl
  | case3 message target requester hactor hother =>
    obtain ⟨hmessage, htarget⟩ : env.Binds message.free ∧ env.Binds target.free := by simpa using h
    refine (Operand.finds_term hmessage).bind fun t => (Action.finds_complete t).bind fun v => ?_
    exact (Operand.finds_term htarget).bind fun u => Action.finds_update fun _ => rfl
  | case4 message =>
    have hmessage : env.Binds message.free := by simpa using h
    refine (Operand.finds_term hmessage).bind fun t => (Action.finds_complete t).bind fun v => ?_
    exact Action.finds_update fun _ => rfl
  | case5 args | case6 args => exact finds_wrongCount _ _ _

/-- The constructor of an actor takes complete values and makes a configuration. -/
theorem finds_construct (c : ClosureId) (h : env.Binds (args.flatMap Operand.free)) : (construct c env args).Finds := by
  have hown : env.Binds (args.dropLast.flatMap Operand.free) := h.mono (Operand.free_dropLast args)
  refine (Action.finds_read _).bind fun params => ?_
  dsimp only
  split
  · exact finds_wrongCount _ _ _
  · next target hlast =>
    split
    · exact finds_wrongCount _ _ _
    · refine (Operand.finds_completes hown).bind fun values => (Action.finds_take fun _ => rfl).bind fun k => ?_
      exact Operand.finds_deliver (Operand.binds_of_mem h (List.mem_of_getLast? hlast)) _

/-- The body of a closure is entered with a scope that binds what it needs. -/
theorem scoped_enter (c : ClosureId) (hrest : rest.Scoped) (h : env.Binds (args.flatMap Operand.free)) :
    (enter c env args rest).Scoped Stack.Scoped := by
  refine (Action.scoped_read fun σ hσ => hσ.closure c).bind fun closure hclosure => ?_
  dsimp only
  split
  · exact finds_wrongCount _ _ _
  · next hlength =>
    have hvars : (Operand.vars env args).Scoped fun vars => vars.length = args.length :=
      (Operand.finds_vars h).scoped fun σ vars τ hvars => Operand.vars_length hvars
    refine hvars.bind fun vars hcount => Action.scoped_pure (hrest.push (hclosure.binds ?_))
    exact hcount.trans (not_not.mp hlength).symm

/-- A procedure that does its work at once goes on with what was to be done after it. -/
theorem Action.Finds.thenRest {act : Action Unit} (h : act.Finds) (hrest : rest.Scoped) :
    (act >>= fun _ => Pure.pure rest).Scoped Stack.Scoped := h.bind fun _ => scoped_pure hrest

/-- A call of any procedure finds all identifiers, and leads to a stack whose scopes bind what is free in it. -/
theorem Proc.scoped_call (ctx : Context) (p : Proc) (hrest : rest.Scoped)
    (h : env.Binds (args.flatMap Operand.free)) : (p.call ctx env args rest).Scoped Stack.Scoped := by
  cases p with
  | closure c => exact scoped_enter c hrest h
  | native n => exact (n.finds_call ctx h).thenRest hrest
  | ofCell c q => exact (q.finds_call c h).thenRest hrest
  | ofActor a q => exact (q.finds_call ctx a h).thenRest hrest
  | actorMaker c => exact (finds_construct c h).thenRest hrest
  | iter i =>
    have hnext : (Action.take fun σ => σ.nextItem i).Finds := Action.Step.finds (.advance i) (by decide) nofun
    match args, h with
    | [target], h =>
      have htarget : env.Binds target.free := by simpa using h
      refine (Operand.finds_term htarget).bind fun t => hnext.bind fun u => ?_
      exact (Action.finds_unify t u).thenRest hrest
    | [], _ | _ :: _ :: _, _ => exact finds_wrongCount _ _ _

/-- A call finds its identifiers if the scope binds the arguments. -/
theorem Value.scoped_call (ctx : Context) (v : Value) (hrest : rest.Scoped)
    (h : env.Binds (args.flatMap Operand.free)) : (v.call ctx env args rest).Scoped Stack.Scoped := by
  cases v with
  | proc p => exact p.scoped_call ctx hrest h
  | failed f => exact Action.scoped_fault rfl
  | lit _ | num _ | record _ | obj _ | config _ =>
    exact (Action.finds_read _).bind fun text => Action.scoped_fault rfl

end Scopes

end Dataflow
