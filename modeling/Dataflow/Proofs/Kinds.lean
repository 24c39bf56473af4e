/-
Kinds: which kinds of steps the parts of instructions take.

The parts of an instruction are taken one after the other here, from checks and operands to the instruction itself, and
each is composed of steps (`Action.Composed`). Matching and completing carry more along than the store; as actions they
are sequenced as any others are, so that they are composed of steps as well.

Two tables say what may happen in an instruction (`Instr.steps`) and in a call (`Proc.steps`).
-/
import Dataflow.Proofs.Steps

set_option autoImplicit false

namespace Dataflow

open Dataflow.Action (Kind)

/-! ## Checks -/

namespace Value

variable {v w : Value} {f : Fault}

theorem plain_mismatch (v : Value) (expected : String) : (v.mismatch expected).Plain := ⟨⟨v, rfl⟩, nofun⟩

theorem plain_of_asLiteral (h : v.asLiteral = .error f) : f.Plain := by
  unfold asLiteral at h
  split at h <;> cases h
  exact v.plain_mismatch _

theorem plain_of_asBool (h : v.asBool = .error f) : f.Plain := by
  unfold asBool at h
  split at h <;> cases h
  exact v.plain_mismatch _

theorem plain_of_asStr (h : v.asStr = .error f) : f.Plain := by
  unfold asStr at h
  split at h <;> cases h
  exact v.plain_mismatch _

theorem plain_of_asNum (h : v.asNum = .error f) : f.Plain := by
  unfold asNum at h
  split at h <;> cases h
  exact v.plain_mismatch _

theorem plain_of_asRecord (h : v.asRecord = .error f) : f.Plain := by
  unfold asRecord at h
  split at h <;> cases h
  exact v.plain_mismatch _

theorem plain_of_asCell (h : v.asCell = .error f) : f.Plain := by
  unfold asCell at h
  split at h <;> cases h
  exact v.plain_mismatch _

/-- What cannot be a feature is reported with nothing but its kind. -/
theorem plain_of_toFeature (h : v.toFeature = .error f) : f.Plain := by
  unfold toFeature at h
  split at h
  · cases h
  · split at h <;> cases h
    exact plain_mismatch _ _
  · cases h
    exact v.plain_mismatch _

/-- Two numbers are asked for, and what is done with them fails for reasons of arithmetic only. -/
theorem plain_of_numbers {α : Type} {g : Num → Num → Except Fault α}
    (h : (do g (← v.asNum) (← w.asNum)) = .error f) (hg : ∀ m n f, g m n = .error f → f.Plain) : f.Plain := by
  cases hv : v.asNum with
  | error e =>
    rw [hv] at h
    cases h
    exact plain_of_asNum hv
  | ok m =>
    cases hw : w.asNum with
    | error e =>
      rw [hv, hw] at h
      cases h
      exact plain_of_asNum hw
    | ok n =>
      rw [hv, hw] at h
      exact hg m n f h

/-- Arithmetic fails for its arguments or for reasons of arithmetic, and quotes no value. -/
theorem plain_of_arith {op : ArithOp} (h : v.arith op w = .error f) : f.Plain := by
  unfold arith at h
  split at h
  · cases h
  · refine plain_of_numbers h fun m n f hf => ?_
    split at hf <;> cases hf
    exact ⟨trivial, nofun⟩

theorem plain_of_related {op : RelOp} (h : v.related op w = .error f) : f.Plain := by
  unfold related at h
  split at h
  · cases h
  · refine plain_of_numbers h fun m n f hf => ?_
    split at hf <;> cases hf
    exact ⟨trivial, nofun⟩

end Value

/-- A record that cannot be built is reported with the feature that is repeated. -/
theorem Record.plain_of_build {label : Literal} {fields : List Field} {f : Fault} (h : build label fields = .error f) :
    f.Plain := by
  rcases build_cases label fields with ⟨r, hr, -⟩ | ⟨g, hg, -⟩
  · cases h.symm.trans hr
  · cases h.symm.trans hg
    exact ⟨trivial, nofun⟩

/-! ## Faults, questions, and new things -/

namespace Action

variable {α : Type}

/-- Entailment compares, and waits if this does not decide it. -/
theorem uses_entails (a b : Term) : (entails a b).Uses [.ask, .wait] := by
  refine Step.bind (.ask (.compare a b)) rfl fun verdict => ?_
  cases verdict with
  | equal | different => exact uses_pure _
  | unknown x => exact Step.uses (.wait x) rfl

theorem uses_bindTerm (x : VarId) (t : Term) : (bindTerm x t).Uses [.unify] := by
  cases t with
  | val v => exact Step.uses (.unify _ _) rfl
  | var y => exact Step.uses (.bindVar x y) rfl

theorem uses_freshBindings (idents : List Ident) : (freshBindings idents).Uses [.fresh] := by
  induction idents with
  | nil => exact uses_pure _
  | cons x rest ih => exact Step.bind .fresh rfl fun y => ih.bind rfl fun bindings => uses_pure _

end Action

theorem Action.uses_valueBindings (l : List (Ident × Value)) : (valueBindings l).Uses [.fill] := by
  induction l with
  | nil => exact uses_pure _
  | cons p rest ih => exact Step.bind (.fill p.2) rfl fun y => ih.bind rfl fun bindings => uses_pure _

/-! ## Matching -/

namespace Matcher

variable {α β : Type} {K L : List Kind}

/-- The step as an action, which hands on what has been captured. -/
def asAction (m : Matcher α) (captures : Captures) : Action (α × Captures) := fun σ =>
  match m (σ, captures) with
  | .ok a (σ, captures) => .ok (a, captures) σ
  | .error e (σ, _) => .error e σ

/-- What follows a step goes on with what that has captured. -/
theorem asAction_bind (m : Matcher α) (f : α → Matcher β) (captures : Captures) :
    (m >>= f).asAction captures = m.asAction captures >>= fun p => (f p.1).asAction p.2 := by
  funext σ
  simp only [asAction, bind_apply]
  rcases m (σ, captures) with ⟨a, τ, found⟩ | ⟨e, τ, found⟩ <;> rfl

theorem asAction_lift (act : Action α) (captures : Captures) :
    (lift act).asAction captures = act >>= fun a => pure (a, captures) := by
  funext σ
  simp only [asAction, lift, bind_apply]
  cases act σ <;> rfl

/-- Whatever has been captured, the step takes no steps but such of the kinds `K`. -/
def Uses (m : Matcher α) (K : List Kind) : Prop := ∀ captures, (m.asAction captures).Uses K

theorem Uses.bind {m : Matcher α} {f : α → Matcher β} (h : m.Uses K) (hf : ∀ a, (f a).Uses K) : (m >>= f).Uses K := by
  intro captures
  rw [asAction_bind]
  exact .seq (h captures) fun p _ => hf p.1 p.2

theorem uses_pure (a : α) : (pure a : Matcher α).Uses K := fun captures => Action.uses_pure (a, captures)

theorem uses_lift {act : Action α} (h : act.Uses L) (hLK : Kind.among L K = true) : (lift act).Uses K := by
  intro captures
  rw [asAction_lift]
  exact h.bind hLK fun a => Action.uses_pure _

theorem uses_query {g : Store → α} (h : Action.Query g) :
    (lift (Action.read g)).Uses [.fault, .ask, .wait, .fill] := by
  have hread : (Action.read g).Uses [.ask] := Action.Step.uses (.ask h) rfl
  exact uses_lift hread rfl

theorem uses_block (x : VarId) : (throw (.blocked x) : Matcher α).Uses [.fault, .ask, .wait, .fill] :=
  fun _ => Action.Step.uses (.wait x) rfl

theorem uses_capture (x : Ident) (t : Term) : (capture x t).Uses [.fault, .ask, .wait, .fill] := by
  intro captures
  cases t with
  | var y => exact Action.uses_pure ((), captures ++ [(x, y)])
  | val v =>
    have hfill : (capture x (.val v)).asAction captures =
        Action.boundVar v >>= fun y => pure ((), captures ++ [(x, y)]) := rfl
    rw [hfill]
    exact Action.Step.bind (.fill v) rfl fun y => Action.uses_pure _

end Matcher

mutual

/-- Testing a pattern asks the store, may wait, and makes variables for what it captures. -/
theorem Pattern.uses_test : (p : Pattern) → (t : Term) → (p.test t).Uses [.fault, .ask, .wait, .fill]
  | .ident x, t => by
    rw [Pattern.test]
    exact (Matcher.uses_capture x t).bind fun _ => Matcher.uses_pure true
  | .lit s, t => by
    rw [Pattern.test]
    exact Matcher.uses_lift (Action.uses_entails _ _) rfl
  | .record label fields isOpen, t => by
    rw [Pattern.test]
    -- an unbound variable is waited for, a record is looked into, and nothing else matches
    refine (Matcher.uses_query (.resolve t)).bind fun u => ?_
    split
    · exact Matcher.uses_block _
    · next r =>
      refine (Matcher.uses_query (.record r id)).bind fun record => ?_
      split
      · exact Matcher.uses_pure false
      · split
        · exact Matcher.uses_pure false
        · exact Pattern.uses_testFields fields record
    · exact Matcher.uses_pure false

/-- Testing the fields of a pattern does what testing the patterns in them does. -/
theorem Pattern.uses_testFields : (fields : List (Scalar × Pattern)) → (r : Record) →
    (Pattern.testFields fields r).Uses [.fault, .ask, .wait, .fill]
  | [], r => by
    rw [Pattern.testFields]
    exact Matcher.uses_pure true
  | (s, p) :: rest, r => by
    rw [Pattern.testFields]
    have hfeature := Action.uses_ofExcept fun _ => Value.plain_of_toFeature (v := s.toValue)
    refine (Matcher.uses_lift hfeature rfl).bind fun feature => ?_
    -- the field may be missing, and then the others are not looked at
    split
    · exact Matcher.uses_pure false
    · next t _ =>
      refine (Pattern.uses_test p t).bind fun answer => ?_
      cases answer with
      | true => exact Pattern.uses_testFields rest r
      | false => exact Matcher.uses_pure false

end

theorem Action.uses_matchTerm (p : Pattern) (t : Term) : (matchTerm p t).Uses [.fault, .ask, .wait, .fill] := by
  have hmatch : matchTerm p t =
      (p.test t).asAction [] >>= fun found => pure (if found.1 then some found.2 else none) := by
    funext σ
    simp only [matchTerm, Matcher.asAction, bind_apply]
    rcases p.test t (σ, []) with ⟨_ | _, τ, captures⟩ | ⟨e, τ, captures⟩ <;> rfl
  rw [hmatch]
  exact (p.uses_test t []).bind rfl fun found => uses_pure _

/-! ## Completing -/

namespace Completer

variable {α β : Type} {complete : Term → Completer Value}

/-- What completing may do. -/
def steps : List Kind := [.fault, .ask, .wait, .rebuild]

/-- Whatever has been entered, the step takes no steps but such of completing. -/
def Walking (m : Completer α) : Prop := ∀ done, Action.Uses (m done) steps

theorem Walking.bind {m : Completer α} {f : α → Completer β} (h : m.Walking) (hf : ∀ a, (f a).Walking) :
    (m >>= f).Walking := fun done => .seq (h done) fun result _ => hf result.1 result.2

theorem walking_pure (a : α) : (pure a : Completer α).Walking := fun _ => Action.uses_pure _

theorem walking_get : (get : Completer Completed).Walking := fun _ => Action.uses_pure _

theorem walking_modify (g : Completed → Completed) : (modify g : Completer Unit).Walking := fun _ => Action.uses_pure _

theorem walking_step {k : Kind} {act : Action α} (h : Action.Step k act) (hk : Kind.among [k] steps = true) :
    (monadLift act : Completer α).Walking := fun _ => h.bind hk fun _ => Action.uses_pure _

theorem walking_read {g : Store → α} (h : Action.Query g) : (monadLift (Action.read g) : Completer α).Walking :=
  walking_step (.ask h) rfl

theorem walking_block (x : VarId) : (monadLift (Action.block x : Action α) : Completer α).Walking :=
  walking_step (.wait x) rfl

theorem walking_refuse (what : Incomplete) : (refuse what).Walking :=
  walking_step (.fault ⟨trivial, nofun⟩) rfl

theorem walking_fields (h : ∀ t, (complete t).Walking) (fs : List Field) : (fields complete fs).Walking := by
  induction fs with
  | nil => exact walking_pure _
  | cons f rest ih => exact (h f.value).bind fun v => ih.bind fun gs => walking_pure _

theorem walking_captures (h : ∀ t, (complete t).Walking) (env : Env) : (captures complete env).Walking := by
  induction env with
  | nil => exact walking_pure _
  | cons p rest ih => exact (h (.var p.2)).bind fun _ => ih

/-- A record is rebuilt when all of its fields are known, and the new record is not referred to yet. -/
theorem walking_record (h : ∀ t, (complete t).Walking) (r : RecordId) : (record complete r).Walking := by
  refine (walking_modify _).bind fun _ => (walking_read (.record r id)).bind fun source => ?_
  refine (walking_fields h source.fields).bind fun rebuilt => ?_
  refine (walking_step (.rebuild _) rfl).bind fun s => ?_
  exact (walking_modify _).bind fun _ => walking_pure _

/-- Completing a closure goes through what it has captured, and makes nothing by itself. -/
theorem walking_closure (h : ∀ t, (complete t).Walking) (v : Value) (c : ClosureId) :
    (closure complete v c).Walking := by
  refine walking_get.bind fun done => ?_
  split
  · exact walking_pure _
  · refine (walking_modify _).bind fun _ => (walking_read (.closure c Closure.env)).bind fun env => ?_
    exact (walking_captures h env).bind fun _ => walking_pure v

/-- Completing a term is a walk: it looks at the store, remembers what it has entered, and makes records. -/
theorem walking_term (depth : Nat) (t : Term) : (term depth t).Walking := by
  -- on the bound of the nesting: records and closures complete their parts with a smaller one
  induction depth generalizing t with
  | zero =>
    refine (walking_read (.resolve t)).bind fun u => ?_
    split
    · exact walking_block _
    · exact walking_pure _
  | succ depth ih =>
    refine (walking_read (.resolve t)).bind fun u => ?_
    split
    · exact walking_block _
    · -- one case for each kind of value, in the order in which completing looks at them
      split
      · refine walking_get.bind fun done => ?_
        split
        · exact walking_pure _
        · exact walking_record ih _
      · exact walking_closure ih _ _
      · exact walking_closure ih _ _
      · exact (walking_read (.handlers _)).bind fun c => walking_closure ih _ c
      · exact walking_refuse _
      · exact walking_refuse _
      · exact walking_refuse _
      all_goals exact walking_pure _

end Completer

/-- Completing taken apart, which is a step of its own otherwise. -/
theorem Action.complete_uses (t : Term) : (Action.complete t).Uses Completer.steps := by
  have hcomplete : Action.complete t = (read fun σ => σ.records.size + σ.closures.size + 1) >>= fun depth =>
      Completer.term depth t {} >>= fun result => pure result.1 := by
    rw [Action.complete]
    rfl
  rw [hcomplete]
  exact Step.bind (.ask .depth) rfl fun depth => .seq (Completer.walking_term depth t {}) fun result _ => uses_pure _

/-- What sequencing keeps holds of an action if it holds of the kinds of steps that the action and completing take; it
need not be known to hold of completing as a step. -/
theorem Action.Composed.holds_apart {α : Type} {act : Action α} {K : List Kind} {Q : α → Prop} {p : Kind → Bool}
    {P : {α : Type} → Action α → Prop} (h : act.Composed K Q) (hP : Sequenced @P) (hK : K.all p = true)
    (hcompleting : Completer.steps.all p = true)
    (hstep : ∀ k, p k = true → k ≠ .complete → ∀ {γ : Type} {step : Action γ}, Step k step → P step) : P act := by
  have hparts : ∀ k ∈ Completer.steps, k ≠ .complete := by decide
  refine h.holds hP fun k hk {γ step} hs => ?_
  by_cases hcomplete : k = .complete
  · subst hcomplete
    cases hs with
    | complete t =>
      exact (complete_uses t).holds hP fun k hk => hstep k (List.all_eq_true.mp hcompleting k hk) (hparts k hk)
  · exact hstep k (List.all_eq_true.mp hK k hk) hcomplete hs

/-! ## Operands -/

section Operands

variable (env : Env)

theorem Env.uses_var (x : Ident) : (env.var x).Uses [.missing] := by
  rw [Env.var]
  split
  · exact Action.uses_pure _
  · exact Action.Step.uses (.missing x) rfl

namespace Operand

variable (a : Operand)

theorem uses_term : (a.term env).Uses [.missing, .ask] := by
  cases a with
  | ident x => exact (env.uses_var x).bind rfl fun y => Action.Step.uses (.ask (.resolve (.var y))) rfl
  | lit s => exact Action.uses_pure _

theorem uses_value : (a.value env).Uses [.missing, .ask, .fault, .wait] := by
  refine (a.uses_term env).bind rfl fun t => ?_
  split
  · exact Action.Step.uses (.fault ⟨trivial, nofun⟩) rfl
  · exact Action.uses_pure _
  · exact Action.Step.uses (.wait _) rfl

theorem uses_terms (args : List Operand) : (terms env args).Uses [.missing, .ask] := by
  induction args with
  | nil => exact Action.uses_pure _
  | cons a rest ih => exact (a.uses_term env).bind rfl fun t => ih.bind rfl fun ts => Action.uses_pure _

theorem uses_toVar : (a.toVar env).Uses [.missing, .fill] := by
  cases a with
  | ident x => exact (env.uses_var x).within rfl
  | lit s => exact Action.Step.uses (.fill _) rfl

theorem uses_vars (args : List Operand) : (vars env args).Uses [.missing, .fill] := by
  induction args with
  | nil => exact Action.uses_pure _
  | cons a rest ih => exact (a.uses_toVar env).bind rfl fun x => ih.bind rfl fun xs => Action.uses_pure _

theorem uses_completes (args : List Operand) : (completes env args).Uses [.missing, .ask, .complete] := by
  induction args with
  | nil => exact Action.uses_pure _
  | cons a rest ih =>
    refine (a.uses_term env).bind rfl fun t => Action.Step.bind (.complete t) rfl fun v => ?_
    exact ih.bind rfl fun vs => Action.uses_pure _

theorem uses_deliver (v : Value) : (a.deliver env v).Uses [.missing, .ask, .unify] :=
  (a.uses_term env).bind rfl fun t => Action.Step.uses (.unify t _) rfl

end Operand

namespace Env

theorem uses_bind (x : Ident) (v : Value) : (env.bind x v).Uses [.missing, .unify] :=
  (env.uses_var x).bind rfl fun y => (Action.uses_bindTerm y (.val v)).within rfl

theorem uses_capture (idents : List Ident) : (env.capture idents).Uses [.missing] := by
  induction idents with
  | nil => exact Action.uses_pure _
  | cons x rest ih => exact (env.uses_var x).bind rfl fun y => ih.bind rfl fun ys => Action.uses_pure _

theorem uses_close (proc : ProcDef) : (env.close proc).Uses [.missing, .closure] :=
  (env.uses_capture _).bind rfl fun _ => Action.Step.uses (.closure _) rfl

theorem uses_label (label : Option Operand) : (env.label label).Uses [.missing, .ask, .fault, .wait] := by
  cases label with
  | none => exact Action.uses_pure _
  | some a =>
    refine (a.uses_value env).bind rfl fun v => ?_
    exact (Action.uses_ofExcept fun _ => Value.plain_of_asLiteral).within rfl

theorem uses_fields (operands : List (Operand × Operand)) :
    (env.fields operands).Uses [.missing, .ask, .fault, .wait] := by
  induction operands with
  | nil => exact Action.uses_pure _
  | cons p rest ih =>
    refine (p.1.uses_value env).bind rfl fun v => ?_
    refine (Action.uses_ofExcept fun _ => Value.plain_of_toFeature (v := v)).bind rfl fun feature => ?_
    exact (p.2.uses_term env).bind rfl fun t => ih.bind rfl fun fs => Action.uses_pure _

/-- A selection asks for the component, and quotes the record and the feature if there is none. -/
theorem uses_select (record feature : Operand) :
    (env.select record feature).Uses [.missing, .ask, .fault, .wait, .text] := by
  refine (record.uses_value env).bind rfl fun v => (feature.uses_value env).bind rfl fun w => ?_
  refine (Action.uses_ofExcept fun _ => Value.plain_of_toFeature (v := w)).bind rfl fun f => ?_
  exact Action.Step.uses (.component v f) rfl

end Env

end Operands

/-! ## Procedures -/

theorem uses_wrongCount {α : Type} (name : String) (expected : Nat) (args : List Operand) :
    (wrongCount name expected args : Action α).Uses [.fault] := Action.Step.uses (.fault ⟨trivial, nofun⟩) rfl

/-- Spawning takes a number, maybe an address, and says so in the log, unless there is nobody who could spawn. -/
theorem Context.uses_spawn (ctx : Context) (k : ConfigId) : (ctx.spawn k).Uses [.fault, .actor] := by
  have hannounce : ∀ child, (ctx.announce child k).Uses [.fault, .actor] := fun child =>
    Action.Step.bind (.announce child ctx.owner k) rfl fun _ => Action.uses_pure child
  rw [Context.spawn]
  -- there is no system, or it refuses; the child is only recorded; or it is an actor
  split
  · exact Action.Step.uses (.fault ⟨trivial, nofun⟩) rfl
  · exact Action.Step.uses (.fault ⟨trivial, nofun⟩) rfl
  · exact Action.Step.bind .receiver rfl fun n => hannounce _
  · refine Action.Step.bind .receiver rfl fun n => ?_
    exact Action.Step.bind (.address ctx.owner) rfl fun address => hannounce _

/-- What may happen in a call of a built-in procedure. -/
def Native.steps : Native → List Kind
  | .spawn => [.missing, .ask, .fault, .wait, .complete, .actor, .unify]
  | _ => [.missing, .ask, .fault, .wait, .record, .object, .unify]

/-- What may happen in a call of a procedure. -/
def Proc.steps : Proc → List Kind
  | .closure _ => [.missing, .ask, .fault, .fill]
  | .native n => n.steps
  | .ofCell _ _ => [.missing, .ask, .fault, .unify, .setCell]
  | .ofActor _ _ => [.missing, .ask, .fault, .complete, .send]
  | .iter _ => [.missing, .ask, .fault, .advance, .unify]
  | .actorMaker _ => [.missing, .ask, .fault, .complete, .config, .unify]

/-- What is read of two records is an attempt to build their union. -/
theorem Store.composed_assign (r s : RecordId) :
    (Action.read fun σ => (σ.record r).assign (σ.record s)).Composed [.ask] fun made =>
      ∃ fields, made = Record.build .null fields := by
  refine .step List.mem_cons_self (.ask (.assign r s)) fun σ made τ heq => ?_
  cases heq
  exact ⟨_, rfl⟩

theorem Native.uses_newIterator (env : Env) (kind : IterKind) (source target : Operand) :
    (newIterator env kind source target).Uses [.missing, .ask, .fault, .wait, .record, .object, .unify] := by
  refine (source.uses_value env).bind rfl fun v => ?_
  refine (Action.uses_ofExcept fun _ => Value.plain_of_asRecord (v := v)).bind rfl fun r => ?_
  exact Action.Step.bind (.iterator _) rfl fun i => (target.uses_deliver env _).within rfl

/-- What each native does, step by step, is among the kinds listed for it. -/
theorem Native.uses_call (ctx : Context) (env : Env) (n : Native) (args : List Operand) :
    (n.call ctx env args).Uses n.steps := by
  unfold Native.call
  -- one case for each procedure with the right number of arguments, and the last for all others
  split
  -- a configuration is spawned
  · next config target =>
    refine (config.uses_value env).bind rfl fun v => ?_
    split
    · refine Action.Step.bind (.complete _) rfl fun _ => (ctx.uses_spawn _).bind rfl fun child => ?_
      exact (target.uses_deliver env _).within rfl
    · exact Action.Step.uses (.fault (Value.plain_mismatch _ _)) rfl
  -- a cell is made
  · next content target =>
    refine (content.uses_term env).bind rfl fun t => Action.Step.bind (.cell t) rfl fun c => ?_
    exact (target.uses_deliver env _).within rfl
  -- a text is read as a number
  · next text target =>
    refine (text.uses_value env).bind rfl fun v => ?_
    refine (Action.uses_ofExcept fun _ => Value.plain_of_asStr (v := v)).bind rfl fun s => ?_
    split
    · exact (target.uses_deliver env _).within rfl
    · exact Action.Step.uses (.fault ⟨trivial, nofun⟩) rfl
  -- two records are merged, and their union is in order because each of them was
  · next first second target =>
    refine (first.uses_value env).bind rfl fun v => (second.uses_value env).bind rfl fun w => ?_
    refine (Action.uses_ofExcept fun _ => Value.plain_of_asRecord (v := v)).bind rfl fun r => ?_
    refine (Action.uses_ofExcept fun _ => Value.plain_of_asRecord (v := w)).bind rfl fun s => ?_
    refine (Store.composed_assign r s).bind rfl fun made hmade => ?_
    obtain ⟨fields, rfl⟩ := hmade
    refine (Action.composed_ofExcept fun _ => Record.plain_of_build).bind rfl fun union hunion => ?_
    refine Action.Step.bind (.record (Record.orderly_build hunion)) rfl fun n => ?_
    exact (target.uses_deliver env _).within rfl
  -- the fields of a record are counted
  · next record target =>
    refine (record.uses_value env).bind rfl fun v => ?_
    refine (Action.uses_ofExcept fun _ => Value.plain_of_asRecord (v := v)).bind rfl fun r => ?_
    refine Action.Step.bind (.ask (.record r Record.count)) rfl fun n => ?_
    exact (target.uses_deliver env _).within rfl
  -- a token is minted
  · next target =>
    exact Action.Step.bind .token rfl fun n => (target.uses_deliver env _).within rfl
  · exact uses_newIterator env _ _ _
  · exact uses_newIterator env _ _ _
  · cases n <;> exact (uses_wrongCount _ _ _).within rfl

/-- A call of a cell asks for its content or replaces it. -/
theorem CellProc.uses_call (c : CellId) (env : Env) (p : CellProc) (args : List Operand) :
    (p.call c env args).Uses [.missing, .ask, .fault, .unify, .setCell] := by
  unfold CellProc.call
  split
  · next target =>
    refine (target.uses_term env).bind rfl fun t => Action.Step.bind (.ask (.cell c)) rfl fun u => ?_
    exact Action.Step.uses (.unify t u) rfl
  · next content =>
    exact (content.uses_term env).bind rfl fun t => Action.Step.uses (.setCell c t) rfl
  · exact (uses_wrongCount _ _ _).within rfl

/-- A call of an actor completes a message and sends it. -/
theorem ActorProc.uses_call (ctx : Context) (a : ActorRef) (env : Env) (p : ActorProc) (args : List Operand) :
    (p.call ctx a env args).Uses [.missing, .ask, .fault, .complete, .send] := by
  have hsend : ∀ e, (send a e).Uses [.missing, .ask, .fault, .complete, .send] := fun e =>
    Action.Step.uses (.send a e) rfl
  unfold ActorProc.call
  split
  · next message target =>
    split
    · exact Action.Step.uses (.fault ⟨trivial, nofun⟩) rfl
    · split
      · exact Action.Step.uses (.fault ⟨trivial, nofun⟩) rfl
      · refine (message.uses_term env).bind rfl fun t => Action.Step.bind (.complete t) rfl fun v => ?_
        exact (target.uses_term env).bind rfl fun t => hsend _
  · next message =>
    exact (message.uses_term env).bind rfl fun t => Action.Step.bind (.complete t) rfl fun v => hsend _
  · exact (uses_wrongCount _ _ _).within rfl
  · exact (uses_wrongCount _ _ _).within rfl

/-- Applying an actor constructor completes the arguments and makes a configuration. -/
theorem uses_construct (c : ClosureId) (env : Env) (args : List Operand) :
    (construct c env args).Uses [.missing, .ask, .fault, .complete, .config, .unify] := by
  refine Action.Step.bind (.ask (.closure c fun closure => closure.proc.params.length)) rfl fun params => ?_
  dsimp only
  split
  · exact (uses_wrongCount _ _ _).within rfl
  · next target _ =>
    split
    · exact (uses_wrongCount _ _ _).within rfl
    · refine (Operand.uses_completes env _).bind rfl fun values => ?_
      exact Action.Step.bind (.config _) rfl fun k => (target.uses_deliver env _).within rfl

/-- Entering a procedure puts the arguments that are constants into new variables. -/
theorem uses_enter (c : ClosureId) (env : Env) (args : List Operand) (rest : Stack) :
    (enter c env args rest).Uses [.missing, .ask, .fault, .fill] := by
  refine Action.Step.bind (.ask (.closure c id)) rfl fun closure => ?_
  dsimp only
  split
  · exact (uses_wrongCount _ _ _).within rfl
  · exact (Operand.uses_vars env args).bind rfl fun ys => Action.uses_pure _

/-- What a call of a procedure does is among the kinds listed for the procedure. -/
theorem Proc.uses_call (ctx : Context) (env : Env) (args : List Operand) (rest : Stack) (p : Proc) :
    (p.call ctx env args rest).Uses p.steps := by
  cases p with
  | closure c => exact uses_enter c env args rest
  | native n => exact .seq (n.uses_call ctx env args) fun _ _ => Action.uses_pure rest
  | ofCell c q => exact (q.uses_call c env args).bind rfl fun _ => Action.uses_pure rest
  | ofActor a q => exact (q.uses_call ctx a env args).bind rfl fun _ => Action.uses_pure rest
  | iter i =>
    match args with
    | [target] =>
      refine (target.uses_term env).bind rfl fun t => Action.Step.bind (.advance i) rfl fun item => ?_
      exact Action.Step.bind (.unify t item) rfl fun _ => Action.uses_pure rest
    | [] | _ :: _ :: _ => exact (uses_wrongCount _ _ _).within rfl
  | actorMaker c => exact (uses_construct c env args).bind rfl fun _ => Action.uses_pure rest

/-- What may happen in any call. -/
def callSteps : List Kind :=
  [.missing, .ask, .fault, .text, .wait, .record, .object, .fill, .complete, .config, .actor, .advance, .unify, .setCell,
    .send]

theorem Proc.steps_among (p : Proc) : Kind.among p.steps callSteps = true := by
  cases p with
  | native n => cases n <;> rfl
  | closure | ofCell | ofActor | iter | actorMaker => rfl

theorem Value.uses_call (ctx : Context) (env : Env) (args : List Operand) (rest : Stack) (v : Value) :
    (v.call ctx env args rest).Uses callSteps := by
  unfold Value.call
  split
  · next p => exact (p.uses_call ctx env args rest).within p.steps_among
  · exact Action.Step.uses (.fault ⟨trivial, nofun⟩) rfl
  · exact Action.Step.uses (.notAProc _) rfl

/-! ## Instructions -/

/-- What may happen in an instruction. -/
def Instr.steps : Instr → List Kind
  | .skip | .seq _ | .attempt _ _ _ => []
  | .fresh _ _ => [.fresh]
  | .bind _ _ => [.missing, .ask, .unify]
  | .arith _ _ _ _ | .negate _ _ | .not _ _ | .rel _ _ _ _ | .getCell _ _ => [.missing, .ask, .fault, .wait, .unify]
  | .entails _ _ _ | .disentails _ _ _ => [.missing, .ask, .wait, .unify]
  | .cond _ _ _ => [.missing, .ask, .fault, .wait]
  | .case _ _ _ _ => [.missing, .ask, .fault, .wait, .fill, .text]
  | .throw _ => [.missing, .ask, .complete]
  | .apply _ _ | .selectApply _ _ _ => callSteps
  | .select _ _ _ => [.missing, .ask, .fault, .wait, .text, .unify]
  | .createRecord _ _ _ | .createTuple _ _ _ => [.missing, .ask, .fault, .wait, .record, .unify]
  | .createProc _ _ _ | .createActor _ _ _ => [.missing, .closure, .unify]
  | .setCell _ _ => [.missing, .ask, .fault, .wait, .setCell]

/-- The instruction neither throws nor calls anything. -/
def Instr.Plain : Instr → Prop
  | .throw _ | .apply _ _ | .selectApply _ _ _ => False
  | _ => True

/-- The computation goes on without a throw. -/
def Flow.Goes : Flow → Prop
  | .next _ => True
  | .throw _ _ => False

/-- **What an instruction is composed of.** Unless it throws or calls something, the computation goes on after it. -/
theorem Context.composed_execute (ctx : Context) (env : Env) (rest : Stack) (instr : Instr) :
    (ctx.execute env rest instr).Composed instr.steps fun flow => instr.Plain → flow.Goes := by
  -- the common ends: going on, binding an identifier first, and calling
  have hnext : ∀ {K stack}, (pure (Flow.next stack) : Action Flow).Composed K fun flow => instr.Plain → flow.Goes :=
    .pure fun _ => trivial
  have hbind : ∀ {K} x v, Kind.among [.missing, .unify] K = true →
      (env.bind x v >>= fun _ => pure (Flow.next rest)).Composed K fun flow => instr.Plain → flow.Goes :=
    fun x v hK => (env.uses_bind x v).bind hK fun _ => hnext
  have hcall : ∀ (v : Value) args, (v.call ctx env args rest >>= fun stack => pure (Flow.next stack)).Composed callSteps
      fun flow => instr.Plain → flow.Goes := fun v args => .seq (v.uses_call ctx env args rest) fun _ _ => hnext
  cases instr with
  | skip | seq _ | attempt _ _ _ => exact hnext
  | fresh idents body => exact (Action.uses_freshBindings idents).bind rfl fun bindings => hnext
  | bind x y =>
    refine (env.uses_var x).bind rfl fun target => (y.uses_term env).bind rfl fun t => ?_
    exact (Action.uses_bindTerm target t).bind rfl fun _ => hnext
  | arith op a b x =>
    refine (a.uses_value env).bind rfl fun v => (b.uses_value env).bind rfl fun w => ?_
    exact (Action.uses_ofExcept fun _ => Value.plain_of_arith (v := v)).bind rfl fun r => hbind x r rfl
  | negate a x =>
    refine (a.uses_value env).bind rfl fun v => ?_
    exact (Action.uses_ofExcept fun _ => Value.plain_of_asNum (v := v)).bind rfl fun n => hbind x _ rfl
  | not a x =>
    refine (a.uses_value env).bind rfl fun v => ?_
    exact (Action.uses_ofExcept fun _ => Value.plain_of_asBool (v := v)).bind rfl fun b => hbind x _ rfl
  | rel op a b x =>
    refine (a.uses_value env).bind rfl fun v => (b.uses_value env).bind rfl fun w => ?_
    exact (Action.uses_ofExcept fun _ => Value.plain_of_related (v := v)).bind rfl fun r => hbind x _ rfl
  | entails a b x | disentails a b x =>
    refine (a.uses_term env).bind rfl fun s => (b.uses_term env).bind rfl fun t => ?_
    exact (Action.uses_entails s t).bind rfl fun answer => hbind x _ rfl
  | cond test yes no =>
    refine (test.uses_value env).bind rfl fun v => ?_
    exact (Action.uses_ofExcept fun _ => Value.plain_of_asBool (v := v)).bind rfl fun b => hnext
  | case arg pattern yes no =>
    refine (arg.uses_term env).bind rfl fun t => (Action.uses_matchTerm pattern t).bind rfl fun found => ?_
    cases found with
    | some captures => exact hnext
    | none =>
      cases no with
      | some no => exact hnext
      | none =>
        refine .step (k := .text) (by simp [Instr.steps]) (.noMatch t) fun σ flow τ heq => ?_
        cases heq
  | throw value =>
    refine (value.uses_term env).bind rfl fun t => Action.Step.bind (.complete t) rfl fun v => ?_
    exact .pure fun hplain => hplain.elim
  | apply proc args => exact (proc.uses_value env).bind rfl fun v => hcall v args
  | select record feature x =>
    refine (env.uses_select record feature).bind rfl fun t => (env.uses_var x).bind rfl fun y => ?_
    exact Action.Step.bind (.unify _ t) rfl fun _ => hnext
  | selectApply record feature args =>
    refine (env.uses_select record feature).bind rfl fun t => Action.Step.bind (.ask (.resolve t)) rfl fun u => ?_
    -- what the feature selects must be known before it is called
    cases u with
    | var x =>
      refine .step (k := .wait) (by simp [Instr.steps, callSteps]) (.wait x) fun σ flow τ heq => ?_
      cases heq
    | val v => exact hcall v args
  | createRecord x label fields =>
    refine (env.uses_label label).bind rfl fun l => (env.uses_fields fields).bind rfl fun fs => ?_
    refine (Action.composed_ofExcept fun _ => Record.plain_of_build).bind rfl fun record hrecord => ?_
    exact Action.Step.bind (.record (Record.orderly_build hrecord)) rfl fun n => hbind x _ rfl
  | createTuple x label values =>
    refine (env.uses_label label).bind rfl fun l => (Operand.uses_terms env values).bind rfl fun ts => ?_
    exact Action.Step.bind (.record (Record.orderly_tuple l ts)) rfl fun n => hbind x _ rfl
  | createProc x params body | createActor x params body =>
    exact (env.uses_close _).bind rfl fun c => hbind x _ rfl
  | getCell cell x =>
    refine (cell.uses_value env).bind rfl fun v => ?_
    refine (Action.uses_ofExcept fun _ => Value.plain_of_asCell (v := v)).bind rfl fun c => ?_
    refine (env.uses_var x).bind rfl fun y => Action.Step.bind (.ask (.cell c)) rfl fun t => ?_
    exact Action.Step.bind (.unify _ t) rfl fun _ => hnext
  | setCell cell value =>
    refine (cell.uses_value env).bind rfl fun v => ?_
    refine (Action.uses_ofExcept fun _ => Value.plain_of_asCell (v := v)).bind rfl fun c => ?_
    refine (value.uses_term env).bind rfl fun t => ?_
    exact Action.Step.bind (.setCell c t) rfl fun _ => hnext

theorem Context.uses_execute (ctx : Context) (env : Env) (rest : Stack) (instr : Instr) :
    (ctx.execute env rest instr).Uses instr.steps := (ctx.composed_execute env rest instr).imp fun _ _ => trivial

end Dataflow
