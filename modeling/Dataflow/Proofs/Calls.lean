/-
Calls: looking at operands and calling procedures are safe.

The scope of a computation is in the store, so identifiers stand for variables of the store and operands for
terms of it. A procedure that does its work at once allocates something, or changes a cell or an iterator, and
makes its last argument equal to the result; a closure continues with a scope of captured variables and of
arguments, both of which are in the store.
-/
import Dataflow.Proofs.Completing

set_option autoImplicit false

namespace Dataflow

variable {σ : Store} {env : Env}

/-! ## Scopes and operands -/

namespace Env

/-- What a scope binds is in the store if this holds of the scope that is extended and of the new bindings. -/
theorem In.extend (henv : env.In σ) {bindings : Env} (hbindings : bindings.In σ) :
    (env.extend bindings).In σ := by
  intro p hp
  rcases List.mem_append.mp hp with hp | hp
  · exact hbindings p (List.mem_reverse.mp hp)
  · exact henv p hp

/-- A variable of a scope is in the store when the scope is. -/
theorem In.find? (henv : env.In σ) {x : Ident} {y : Nat} (h : env.find? x = some y) : y < σ.vars.size := by
  -- the innermost binding of the identifier is the one that is found
  induction env with
  | nil => cases h
  | cons p rest ih =>
    have hp := List.forall_mem_cons.mp henv
    rw [Env.find?, List.lookup_cons] at h
    split at h
    · cases h
      exact hp.1
    · exact ih hp.2 h

theorem var_reads (henv : env.In σ) (x : Ident) : (env.var x).Reads σ fun y => y < σ.vars.size := by
  rw [Env.var]
  cases h : env.find? x with
  | some y => exact Action.reads_pure (henv.find? h)
  | none => exact Action.reads_fault _

end Env

namespace Operand

/-- The term of an operand is resolved: it is a value, or an unbound variable. -/
theorem term_reads (hσ : σ.Closed) (henv : env.In σ) (a : Operand) :
    (a.term env).Reads σ (Term.Resolved σ) := by
  cases a with
  | ident x =>
    refine (Env.var_reads henv x).bind fun y hy => ?_
    exact Action.reads_resolve hσ (t := .var y) hy
  | lit s => exact Action.reads_pure (s.toValue_in σ)

/-- The value of an operand is in the store; where there is none yet, it is waited for. -/
theorem value_reads (hσ : σ.Closed) (henv : env.In σ) (a : Operand) :
    (a.value env).Reads σ (Value.In σ) := by
  refine (a.term_reads hσ henv).bind fun t ht => ?_
  split
  · exact Action.reads_fault _
  · exact Action.reads_pure ht
  · exact Action.reads_block ht

theorem terms_reads (hσ : σ.Closed) (henv : env.In σ) (args : List Operand) :
    (terms env args).Reads σ fun ts => ∀ t ∈ ts, t.In σ := by
  induction args with
  | nil => exact Action.reads_pure fun t ht => absurd ht List.not_mem_nil
  | cons a rest ih =>
    refine (a.term_reads hσ henv).bind fun t ht => ih.bind fun ts hts => ?_
    exact Action.reads_pure (List.forall_mem_cons.mpr ⟨ht.isIn, hts⟩)

end Operand

namespace Action

theorem boundVar_safe {v : Value} (hv : v.In σ) : (boundVar v).Safe σ fun y τ => y < τ.vars.size :=
  safe_take (.single (.newVar trivial hv)) (σ.newVar_lt_size _)

theorem fresh_safe : fresh.Safe σ fun y τ => y < τ.vars.size := by
  have hnone : VarState.In σ σ.vars.size (.unbound []) := fun k hk => absurd hk List.not_mem_nil
  exact safe_take (.single (.newVar rfl hnone)) (σ.newVar_lt_size _)

theorem freshBindings_safe (hσ : σ.Closed) (idents : List Ident) :
    (freshBindings idents).Safe σ fun bindings τ => Env.In τ bindings := by
  induction idents generalizing σ with
  | nil => exact safe_pure fun p hp => absurd hp List.not_mem_nil
  | cons x rest ih =>
    refine fresh_safe.bind hσ fun y τ _ hτ hy => (ih hτ).bind hτ fun bindings ρ hg _ hbindings => ?_
    exact safe_pure (List.forall_mem_cons.mpr ⟨Nat.lt_of_lt_of_le hy hg.vars, hbindings⟩)

end Action

namespace Operand

theorem toVar_safe (henv : env.In σ) (a : Operand) : (a.toVar env).Safe σ fun y τ => y < τ.vars.size := by
  cases a with
  | ident x => exact (Env.var_reads henv x).safe fun _ hy => hy
  | lit s => exact Action.boundVar_safe (s.toValue_in σ)

/-- Constants are put into new variables, so that asking for variables may change the store. -/
theorem vars_safe (hσ : σ.Closed) (henv : env.In σ) (args : List Operand) :
    (vars env args).Safe σ fun ys τ => ∀ y ∈ ys, y < τ.vars.size := by
  induction args generalizing σ with
  | nil => exact Action.safe_pure fun y hy => absurd hy List.not_mem_nil
  | cons a rest ih =>
    refine (a.toVar_safe henv).bind hσ fun y τ hg hτ hy => ?_
    refine (ih hτ (hg.env henv)).bind hτ fun ys ρ hg' _ hys => ?_
    exact Action.safe_pure (List.forall_mem_cons.mpr ⟨Nat.lt_of_lt_of_le hy hg'.vars, hys⟩)

/-- Arguments that have to be complete may be rebuilt, so that asking for them may change the store. -/
theorem completes_safe (hσ : σ.Closed) (henv : env.In σ) (args : List Operand) :
    (completes env args).Safe σ fun vs τ => ∀ v ∈ vs, v.In τ := by
  induction args generalizing σ with
  | nil => exact Action.safe_pure fun v hv => absurd hv List.not_mem_nil
  | cons a rest ih =>
    refine (a.term_reads hσ henv).bind_safe fun t ht => ?_
    refine (Action.complete_safe hσ ht.isIn).bind hσ fun v τ hg hτ hv => ?_
    refine (ih hτ (hg.env henv)).bind hτ fun vs ρ hg' _ hvs => ?_
    exact Action.safe_pure (List.forall_mem_cons.mpr ⟨hg'.value hv, hvs⟩)

theorem deliver_safe (hσ : σ.Closed) (henv : env.In σ) (a : Operand) {v : Value} (hv : v.In σ) :
    (a.deliver env v).Safe σ fun _ _ => True :=
  (a.term_reads hσ henv).bind_safe fun _ ht => Action.unify_safe hσ ht.isIn hv

end Operand

theorem wrongCount_safe {α : Type} {Q : α → Store → Prop} (name : String) (expected : Nat)
    (args : List Operand) : (wrongCount name expected args : Action α).Safe σ Q := Action.safe_fault _

/-! ## Records that are made -/

namespace Record

theorem tuple_in {label : Literal} {values : List Term} (h : ∀ t ∈ values, t.In σ) :
    (tuple label values).In σ := by
  have henum : ∀ i, ∀ f ∈ enumerate i values, f.value.In σ := by
    induction values with
    | nil => exact fun i f hf => absurd hf List.not_mem_nil
    | cons v rest ih =>
      have hv := List.forall_mem_cons.mp h
      exact fun i => List.forall_mem_cons.mpr ⟨hv.1, ih hv.2 (i + 1)⟩
  exact henum 0

theorem build_in {label : Literal} {fields : List Field} (h : ∀ f ∈ fields, f.value.In σ) {r : Record}
    (hr : build label fields = .ok r) : r.In σ := by
  rw [build] at hr
  split at hr
  · cases hr
  · cases hr
    exact fun f hf => h f (List.mem_mergeSort.mp hf)

theorem assign_in {r s t : Record} (hr : r.In σ) (hs : s.In σ) (ht : r.assign s = .ok t) : t.In σ := by
  refine build_in (fun f hf => ?_) ht
  rcases List.mem_append.mp hf with hf | hf
  · exact hr f hf
  · exact hs f (List.mem_of_mem_filter hf)

end Record

theorem Value.ofFeature_in (f : Feature) (σ : Store) : (Value.ofFeature f).In σ := by
  cases f with
  | int n =>
    rw [Value.ofFeature, Value.ofInt64]
    split <;> trivial
  | str _ | bool _ | eof | null | token _ => trivial

theorem Value.asRecord_in {v : Value} (hv : v.In σ) {r : RecordId} (h : v.asRecord = .ok r) :
    r < σ.records.size := by
  cases v with
  | record s => cases h; exact hv
  | lit _ | num _ | obj _ | proc _ | config _ | failed _ => cases h

/-! ## Procedures that do their work at once -/

/-- Spawning takes a number for the actor and announces it. -/
theorem Context.spawn_safe (ctx : Context) {k : ConfigId} (hk : k < σ.configs.size) :
    (ctx.spawn k).Safe σ fun _ _ => True := by
  -- the number of an actor is taken and the actor announced without anything in between
  rw [Context.spawn]
  split
  · exact Action.safe_fault _
  · exact Action.safe_fault _
  · exact ⟨.single (.makeRecorder hk _ _), trivial⟩
  · exact ⟨.single (.makeActor hk _ ctx.owner _), trivial⟩

/-- An iterator is made over a record that has a value already. -/
theorem Native.newIterator_safe (hσ : σ.Closed) (henv : env.In σ) (kind : IterKind)
    (source target : Operand) : (newIterator env kind source target).Safe σ fun _ _ => True := by
  refine (source.value_reads hσ henv).bind_safe fun v hv => ?_
  refine (Action.reads_ofExcept fun _ => v.asRecord_in hv).bind_safe fun r hr => ?_
  have hnew : (Action.take fun σ => σ.newIterator ⟨r, kind, 0⟩).Safe σ fun i τ =>
      Value.In τ (.proc (.iter i)) :=
    Action.safe_take (.single (.table (.newIterator hr) rfl rfl)) (by simp [Store.newIterator, Value.In, Proc.In])
  exact hnew.bind hσ fun i τ hg hτ hi => target.deliver_safe hτ (hg.env henv) hi

/-- A call of a native is safe, whatever its arguments are. -/
theorem Native.call_safe (hσ : σ.Closed) (henv : env.In σ) (ctx : Context) (n : Native)
    (args : List Operand) : (n.call ctx env args).Safe σ fun _ _ => True := by
  unfold Native.call
  -- one case for each procedure with the right number of arguments, and the last for all others
  split
  -- a configuration is spawned
  · next config target =>
    refine (config.value_reads hσ henv).bind_safe fun v hv => ?_
    split
    -- completing it first may make new records, and the child is made in the larger store
    · next k =>
      refine (Action.complete_safe hσ (t := .val (.config k)) hv).bind hσ fun _ τ hg hτ _ => ?_
      refine (ctx.spawn_safe (hg.value hv)).bind hτ fun child ρ hg' hρ _ => ?_
      exact target.deliver_safe hρ ((hg.trans hg').env henv) trivial
    · exact Action.safe_fault _
  -- a cell is made
  · next content target =>
    refine (content.term_reads hσ henv).bind_safe fun t ht => ?_
    have hnew : (Action.take fun σ => σ.newCell t).Safe σ fun c τ => Value.In τ (.obj (.cell c)) :=
      Action.safe_take (.single (.table (.newCell ht.isIn) rfl rfl)) (by simp [Store.newCell, Value.In])
    exact hnew.bind hσ fun c τ hg hτ hc => target.deliver_safe hτ (hg.env henv) hc
  -- a text is read as a number
  · next text target =>
    refine (text.value_reads hσ henv).bind_safe fun v _ => ?_
    refine (Action.reads_check _).bind_safe fun s _ => ?_
    split
    · exact target.deliver_safe hσ henv trivial
    · exact Action.safe_fault _
  -- two records are merged
  · next first second target =>
    refine (first.value_reads hσ henv).bind_safe fun v hv => ?_
    refine (second.value_reads hσ henv).bind_safe fun w hw => ?_
    refine (Action.reads_check _).bind_safe fun r _ => ?_
    refine (Action.reads_check _).bind_safe fun s _ => ?_
    refine (Action.reads_read (Q := fun made => ∀ t, made = .ok t → t.In σ) fun t =>
      Record.assign_in (hσ.record r) (hσ.record s)).bind_safe fun made hmade => ?_
    refine (Action.reads_ofExcept hmade).bind_safe fun merged hmerged => ?_
    exact (Action.newRecord_safe hmerged).bind hσ fun n τ hg hτ hn => target.deliver_safe hτ (hg.env henv) hn
  -- the fields of a record are counted
  · next record target =>
    refine (record.value_reads hσ henv).bind_safe fun v _ => ?_
    refine (Action.reads_check _).bind_safe fun r _ => ?_
    refine (Action.reads_look _).bind_safe fun n _ => ?_
    exact target.deliver_safe hσ henv trivial
  -- a token is minted
  · next target =>
    have htoken : (Action.take Store.newToken).Safe σ fun _ _ => True :=
      Action.safe_take (.single (.table .newToken rfl rfl)) trivial
    exact htoken.bind hσ fun n τ hg hτ _ => target.deliver_safe hτ (hg.env henv) trivial
  · exact newIterator_safe hσ henv _ _ _
  · exact newIterator_safe hσ henv _ _ _
  · exact wrongCount_safe _ _ _

/-- A call of a cell is safe: its content is in the store, and so is what replaces it. -/
theorem CellProc.call_safe (hσ : σ.Closed) (henv : env.In σ) (c : CellId) (p : CellProc)
    (args : List Operand) : (p.call c env args).Safe σ fun _ _ => True := by
  unfold CellProc.call
  split
  -- the content is asked for
  · next target =>
    refine (target.term_reads hσ henv).bind_safe fun t ht => ?_
    refine (Action.reads_read (Q := Term.In σ) (hσ.cell c)).bind_safe fun content hcontent => ?_
    exact Action.unify_safe hσ ht.isIn hcontent
  -- the content is replaced
  · next content =>
    refine (content.term_reads hσ henv).bind_safe fun t ht => ?_
    exact Action.safe_update (.single (.table (.setCell c ht.isIn) rfl rfl))
  · exact wrongCount_safe _ _ _

theorem ActorProc.send_safe (recipient : ActorRef) {envelope : Envelope} (h : envelope.In σ)
    (hcall : envelope.IsCall) : (send recipient envelope).Safe σ fun _ _ => True :=
  Action.safe_update (.single (.send recipient h hcall))

/-- A call of an actor is safe. What is sent has been completed before, and is in the store. -/
theorem ActorProc.call_safe (hσ : σ.Closed) (henv : env.In σ) (ctx : Context) (a : ActorRef)
    (p : ActorProc) (args : List Operand) : (p.call ctx a env args).Safe σ fun _ _ => True := by
  unfold ActorProc.call
  split
  -- a question, which needs an actor that asks it, and another one that is asked
  · next message target =>
    split
    · exact Action.safe_fault _
    · next requester =>
      split
      · exact Action.safe_fault _
      · refine (message.term_reads hσ henv).bind_safe fun m hm => ?_
        refine (Action.complete_safe hσ hm.isIn).bind hσ fun v τ hg hτ hv => ?_
        refine (target.term_reads hτ (hg.env henv)).bind_safe fun t ht => ?_
        exact send_safe a ⟨hv, ht.isIn⟩ trivial
  -- a notification
  · next message =>
    refine (message.term_reads hσ henv).bind_safe fun m hm => ?_
    refine (Action.complete_safe hσ hm.isIn).bind hσ fun v τ _ _ hv => ?_
    exact send_safe a hv trivial
  · exact wrongCount_safe _ _ _
  · exact wrongCount_safe _ _ _

/-- The next item of an iterator: the iterator moves, and a pair of feature and value is a new record. -/
theorem Store.nextItem_deeds (hσ : σ.Closed) {i : IterId} (hi : i < σ.iterators.size) :
    σ.Deeds (σ.nextItem i).2 ∧ (σ.nextItem i).1.In (σ.nextItem i).2 := by
  rw [Store.nextItem]
  split
  · exact ⟨.refl, trivial⟩
  · next f hf =>
    have hfield : f.value.In σ := hσ.record _ f (List.mem_of_getElem? hf)
    have hmove : Store.Deed σ (σ.setIterator i
        { σ.iterator i with position := (σ.iterator i).position + 1 }) :=
      .table (.setIterator i (hσ.iterator hi)) rfl rfl
    have hgrows := (Store.Deeds.single hmove).grows
    rw [Iterator.item]
    split
    · exact ⟨.single hmove, hgrows.term hfield⟩
    · have hpair : Record.In (σ.setIterator i { σ.iterator i with position := (σ.iterator i).position + 1 })
          (.tuple .null [.val (.ofFeature f.feature), f.value]) := by
        refine Record.tuple_in (List.forall_mem_cons.mpr ⟨Value.ofFeature_in _ _, fun t ht => ?_⟩)
        rw [List.mem_singleton.mp ht]
        exact hgrows.term hfield
      have hrecord := Action.newRecord_safe hpair
      exact ⟨.head hmove hrecord.1, hrecord.2⟩

theorem Action.nextItem_safe (hσ : σ.Closed) {i : IterId} (hi : i < σ.iterators.size) :
    (Action.take fun σ => σ.nextItem i).Safe σ fun t τ => t.In τ :=
  safe_take (Store.nextItem_deeds hσ hi).1 (Store.nextItem_deeds hσ hi).2

/-! ## Every procedure -/

/-- Applying an actor constructor is safe. The arguments have been completed when the configuration is made. -/
theorem construct_safe (hσ : σ.Closed) (henv : env.In σ) {c : ClosureId} (hc : c < σ.closures.size)
    (args : List Operand) : (construct c env args).Safe σ fun _ _ => True := by
  refine (Action.reads_look _).bind_safe fun params _ => ?_
  split
  · exact wrongCount_safe _ _ _
  -- the last argument is the target, and the others belong to the configuration
  · next target _ =>
    dsimp only
    split
    · exact wrongCount_safe _ _ _
    · refine (Operand.completes_safe hσ henv _).bind hσ fun values τ hg hτ hvalues => ?_
      have hmaker : Value.In τ (.proc (.actorMaker c)) := hg.value (v := .proc (.actorMaker c)) hc
      have hnew : (Action.take fun σ => σ.newConfig ⟨values, c⟩).Safe τ fun k τ => Value.In τ (.config k) :=
        Action.safe_take (.single (.table (.newConfig ⟨hvalues, hmaker⟩) rfl rfl)) (by simp [Store.newConfig, Value.In])
      exact hnew.bind hτ fun k ρ hg' hρ hk => target.deliver_safe hρ ((hg.trans hg').env henv) hk

variable {rest : Stack}

/-- Entering a closure is safe. -/
theorem enter_safe (hσ : σ.Closed) (henv : env.In σ) (hrest : rest.In σ) (c : ClosureId)
    (args : List Operand) : (enter c env args rest).Safe σ fun stack τ => stack.In τ := by
  refine (Action.reads_read (Q := Closure.In σ) (hσ.closure c)).bind_safe fun closure hclosure => ?_
  dsimp only
  split
  · exact wrongCount_safe _ _ _
  -- the scope of the body is made of captured variables and of those of the arguments
  · refine (Operand.vars_safe hσ henv args).bind hσ fun ys τ hg _ hys => Action.safe_pure ?_
    have hparams : Env.In τ (closure.proc.params.zip ys) := fun p hp => hys p.2 (List.of_mem_zip hp).2
    exact List.forall_mem_cons.mpr ⟨(hg.env hclosure).extend hparams, hg.stack hrest⟩

/-- What is done at once goes on with what was to be done after it. -/
theorem Action.Safe.andThen {act : Action Unit} (h : act.Safe σ fun _ _ => True) (hσ : σ.Closed)
    (hrest : rest.In σ) : (act >>= fun _ => pure rest).Safe σ fun stack τ => stack.In τ :=
  h.bind hσ fun _ _ hg _ _ => Action.safe_pure (hg.stack hrest)

/-- A call of any procedure is safe, and the stack that it leads to is in the store. -/
theorem Proc.call_safe (hσ : σ.Closed) (henv : env.In σ) (hrest : rest.In σ) (ctx : Context)
    (args : List Operand) {p : Proc} (hp : p.In σ) :
    (p.call ctx env args rest).Safe σ fun stack τ => stack.In τ := by
  cases p with
  | closure c => exact enter_safe hσ henv hrest c args
  | native n => exact (n.call_safe hσ henv ctx args).andThen hσ hrest
  | ofCell c q => exact (q.call_safe hσ henv c args).andThen hσ hrest
  | ofActor a q => exact (q.call_safe hσ henv ctx a args).andThen hσ hrest
  -- an iterator moves on before its item is unified with the target
  | iter i =>
    match args with
    | [target] =>
      refine (target.term_reads hσ henv).bind_safe fun t ht => ?_
      refine (Action.nextItem_safe hσ hp).bind hσ fun item τ hg hτ hitem => ?_
      exact (Action.unify_safe hτ (hg.term ht.isIn) hitem).andThen hτ (hg.stack hrest)
    | [] | _ :: _ :: _ => exact wrongCount_safe _ _ _
  | actorMaker c => exact (construct_safe hσ henv hp args).andThen hσ hrest

/-- Whatever is called, what is to be done next is in the store. -/
theorem Value.call_safe (hσ : σ.Closed) (henv : env.In σ) (hrest : rest.In σ) (ctx : Context)
    (args : List Operand) {v : Value} (hv : v.In σ) :
    (v.call ctx env args rest).Safe σ fun stack τ => stack.In τ := by
  unfold Value.call
  split
  · exact Proc.call_safe hσ henv hrest ctx args hv
  · exact Action.safe_fault _
  · exact (Action.reads_look _).bind_safe fun _ _ => Action.safe_fault _

end Dataflow
