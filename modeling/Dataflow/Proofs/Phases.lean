/-
Phases: the order in which instructions take their steps.

An instruction takes everything that it needs before it makes anything, and it makes everything before it changes
anything that is there already: it looks and waits first (`Action.Phased`), then it makes new things, and its one change
comes last (`Action.Makes`).

Two calls are not quite like that, because their effect is what gives them their result: `ActorCfg.spawn` makes an actor,
and an iterator moves on, before the target is made equal to the result (`Value.Acts`). Both come after everything that
can wait, so they are counted among what is made, where this is allowed.
-/
import Dataflow.Proofs.Kinds

set_option autoImplicit false

namespace Dataflow

open Dataflow.Action (Kind Step)

/-! ## Phases -/

namespace Action

/-- What may come before anything is made: looking, waiting, and making what nothing refers to unless all goes well. -/
def lookKinds : List Kind := [.missing, .fault, .text, .wait, .ask, .record, .rebuild, .complete, .fill]

/-- What may come before the change: making something, and looking without waiting. If the action `acts`, an actor may be
made and an iterator may move on. -/
def makeKinds (acts : Bool) : List Kind :=
  [.missing, .fault, .text, .ask, .record, .fill, .fresh, .closure, .object, .config] ++
    if acts then [.actor, .advance] else []

/-- The kinds of changes. -/
def changeKinds : List Kind := [.unify, .setCell, .send]

/-- The action makes new things, and at most one change comes last. -/
inductive Makes (acts : Bool) : {α : Type} → Action α → Prop where
  | uses {α : Type} {act : Action α} (h : act.Uses (makeKinds acts)) : Makes acts act
  | change {α : Type} {act : Action α} {k : Kind} (h : Step k act) (hk : k ∈ changeKinds) : Makes acts act
  | seq {α β : Type} {Q : α → Prop} {act : Action α} {f : α → Action β} (h : act.Composed (makeKinds acts) Q)
      (hf : ∀ a, Q a → Makes acts (f a)) : Makes acts (act >>= f)
  | andPure {α β : Type} {act : Action α} (h : Makes acts act) (g : α → β) : Makes acts (act >>= fun a => pure (g a))

/-- The action looks and waits, and then it makes new things, and at most one change comes last. -/
inductive Phased (acts : Bool) : {α : Type} → Action α → Prop where
  | uses {α : Type} {act : Action α} (h : act.Uses lookKinds) : Phased acts act
  | makes {α : Type} {act : Action α} (h : act.Makes acts) : Phased acts act
  | seq {α β : Type} {Q : α → Prop} {act : Action α} {f : α → Action β} (h : act.Composed lookKinds Q)
      (hf : ∀ a, Q a → Phased acts (f a)) : Phased acts (act >>= f)
  | andPure {α β : Type} {act : Action α} (h : Phased acts act) (g : α → β) : Phased acts (act >>= fun a => pure (g a))

section Sequencing

variable {α β : Type} {K : List Kind} {acts : Bool} {act : Action α} {f : α → Action β}

theorem Uses.makes_bind (h : act.Uses K) (hK : Kind.among K (makeKinds acts) = true) (hf : ∀ a, (f a).Makes acts) :
    (act >>= f).Makes acts := .seq (h.within hK) fun a _ => hf a

theorem Uses.phased_bind (h : act.Uses K) (hK : Kind.among K lookKinds = true) (hf : ∀ a, (f a).Phased acts) :
    (act >>= f).Phased acts := .seq (h.within hK) fun a _ => hf a

theorem Step.makes_bind {k : Kind} (h : Step k act) (hk : Kind.among [k] (makeKinds acts) = true)
    (hf : ∀ a, (f a).Makes acts) : (act >>= f).Makes acts := .seq (h.uses hk) fun a _ => hf a

theorem Step.phased_bind {k : Kind} (h : Step k act) (hk : Kind.among [k] lookKinds = true)
    (hf : ∀ a, (f a).Phased acts) : (act >>= f).Phased acts := .seq (h.uses hk) fun a _ => hf a

/-- A check, which comes before anything is made. -/
theorem phased_check {r : Except Fault α} (h : ∀ g, r = .error g → g.Plain)
    (hf : ∀ a, r = .ok a → (f a).Phased acts) : (ofExcept r >>= f).Phased acts :=
  .seq ((composed_ofExcept h).within rfl) hf

end Sequencing

theorem makes_unify {acts : Bool} (a b : Term) : (unify a b).Makes acts := .change (.unify a b) (by decide)

theorem makes_bindTerm {acts : Bool} (x : VarId) (t : Term) : (bindTerm x t).Makes acts := by
  cases t with
  | val v => exact makes_unify _ _
  | var y => exact .change (.bindVar x y) (by decide)

end Action

/-! ## Procedures -/

/-- The calls with an effect before the result is delivered: making an actor, and moving an iterator. -/
inductive Value.Acts : Value → List Operand → Prop where
  | spawn (config target : Operand) : Acts (.proc (.native .spawn)) [config, target]
  | next (i : IterId) (target : Operand) : Acts (.proc (.iter i)) [target]

section Calls

variable {acts : Bool}

theorem Operand.makes_deliver (env : Env) (a : Operand) (v : Value) : (a.deliver env v).Makes acts :=
  (a.uses_term env).makes_bind rfl fun t => Action.makes_unify t _

theorem Env.makes_bind (env : Env) (x : Ident) (v : Value) : (env.bind x v).Makes acts :=
  (env.uses_var x).makes_bind rfl fun _ => Action.makes_unify _ _

theorem phased_wrongCount {α : Type} (name : String) (expected : Nat) (args : List Operand) :
    (wrongCount name expected args : Action α).Phased acts := .uses ((uses_wrongCount name expected args).within rfl)

theorem phased_fault {α : Type} {f : Fault} (h : f.Plain) : (Action.fault f : Action α).Phased acts :=
  .uses (Step.uses (.fault h) rfl)

/-- A new iterator is made when its record is known, and delivered at the end. -/
theorem Native.phased_newIterator (env : Env) (kind : IterKind) (source target : Operand) :
    (newIterator env kind source target).Phased acts := by
  refine (source.uses_value env).phased_bind rfl fun v => ?_
  refine Action.phased_check (fun _ => Value.plain_of_asRecord) fun r _ => .makes ?_
  exact Step.makes_bind (.iterator _) rfl fun i => target.makes_deliver env _

/-- A procedure of the library reads its arguments, then makes what it makes, and delivers the result at the end; it acts on
other actors only where its arguments say so. -/
theorem Native.phased_call (ctx : Context) (env : Env) (n : Native) (args : List Operand)
    (h : Value.Acts (.proc (.native n)) args → acts = true) : (n.call ctx env args).Phased acts := by
  unfold Native.call
  -- one case for each procedure with the right number of arguments, and the last for all others
  split
  · next config target =>
    obtain rfl := h (.spawn config target)
    refine (config.uses_value env).phased_bind rfl fun v => ?_
    split
    · refine Step.phased_bind (.complete _) rfl fun _ => .makes ?_
      exact (ctx.uses_spawn _).makes_bind rfl fun child => target.makes_deliver env _
    · exact phased_fault (Value.plain_mismatch _ _)
  · next content target =>
    refine .makes ((content.uses_term env).makes_bind rfl fun t => ?_)
    exact Step.makes_bind (.cell t) rfl fun c => target.makes_deliver env _
  · next text target =>
    refine (text.uses_value env).phased_bind rfl fun v => ?_
    refine Action.phased_check (fun _ => Value.plain_of_asStr) fun s _ => ?_
    split
    · exact .makes (target.makes_deliver env _)
    · exact phased_fault ⟨trivial, nofun⟩
  · next first second target =>
    refine (first.uses_value env).phased_bind rfl fun v => (second.uses_value env).phased_bind rfl fun w => ?_
    refine Action.phased_check (fun _ => Value.plain_of_asRecord) fun r _ => ?_
    refine Action.phased_check (fun _ => Value.plain_of_asRecord) fun s _ => ?_
    refine .seq ((Store.composed_assign r s).within rfl) fun made hmade => ?_
    obtain ⟨fields, rfl⟩ := hmade
    refine Action.phased_check (fun _ => Record.plain_of_build) fun union hunion => ?_
    exact Step.phased_bind (.record (Record.orderly_build hunion)) rfl fun n => .makes (target.makes_deliver env _)
  · next record target =>
    refine (record.uses_value env).phased_bind rfl fun v => ?_
    refine Action.phased_check (fun _ => Value.plain_of_asRecord) fun r _ => .makes ?_
    exact Step.makes_bind (.ask (.record r Record.count)) rfl fun n => target.makes_deliver env _
  · next target => exact .makes (Step.makes_bind .token rfl fun n => target.makes_deliver env _)
  · exact phased_newIterator env _ _ _
  · exact phased_newIterator env _ _ _
  · exact phased_wrongCount _ _ _

/-- A procedure of a cell looks first, and changes the cell or delivers its content at the end. -/
theorem CellProc.makes_call (c : CellId) (env : Env) (p : CellProc) (args : List Operand) :
    (p.call c env args).Makes acts := by
  unfold CellProc.call
  split
  · next target =>
    refine (target.uses_term env).makes_bind rfl fun t => ?_
    exact Step.makes_bind (.ask (.cell c)) rfl fun u => Action.makes_unify t u
  · next content => exact (content.uses_term env).makes_bind rfl fun t => .change (.setCell c t) (by decide)
  · exact .uses ((uses_wrongCount _ _ _).within rfl)

/-- The message is complete before anything is sent. -/
theorem ActorProc.phased_call (ctx : Context) (a : ActorRef) (env : Env) (p : ActorProc) (args : List Operand) :
    (p.call ctx a env args).Phased acts := by
  have hsend : ∀ e, (send a e).Makes acts := fun e => .change (.send a e) (by decide)
  unfold ActorProc.call
  split
  · next message target =>
    split
    · exact phased_fault ⟨trivial, nofun⟩
    · split
      · exact phased_fault ⟨trivial, nofun⟩
      · refine (message.uses_term env).phased_bind rfl fun m => Step.phased_bind (.complete m) rfl fun v => .makes ?_
        exact (target.uses_term env).makes_bind rfl fun t => hsend _
  · next message =>
    refine (message.uses_term env).phased_bind rfl fun m => ?_
    exact Step.phased_bind (.complete m) rfl fun v => .makes (hsend _)
  · exact phased_wrongCount _ _ _
  · exact phased_wrongCount _ _ _

/-- A constructor completes its arguments before it makes the configuration. -/
theorem phased_construct (c : ClosureId) (env : Env) (args : List Operand) : (construct c env args).Phased acts := by
  refine Step.phased_bind (.ask (.closure c fun closure => closure.proc.params.length)) rfl fun params => ?_
  dsimp only
  split
  · exact phased_wrongCount _ _ _
  · next target _ =>
    split
    · exact phased_wrongCount _ _ _
    · refine (Operand.uses_completes env _).phased_bind rfl fun values => .makes ?_
      exact Step.makes_bind (.config _) rfl fun k => target.makes_deliver env _

/-- A call reads its arguments before it makes or binds anything. -/
theorem Value.phased_call (ctx : Context) (env : Env) (rest : Stack) {v : Value} {args : List Operand}
    (h : v.Acts args → acts = true) : (v.call ctx env args rest).Phased acts := by
  unfold Value.call
  -- what can be called, each with its own procedure
  split
  · next p =>
    cases p with
    | closure c => exact .makes (.uses ((uses_enter c env args rest).within rfl))
    | native n => exact (n.phased_call ctx env args h).andPure _
    | ofCell c q => exact .makes ((q.makes_call c env args).andPure _)
    | ofActor a q => exact (q.phased_call ctx a env args).andPure _
    | iter i =>
      match args with
      | [target] =>
        obtain rfl := h (.next i target)
        refine .makes ((target.uses_term env).makes_bind rfl fun t => ?_)
        exact Step.makes_bind (.advance i) rfl fun item => (Action.makes_unify t item).andPure _
      | [] | _ :: _ :: _ => exact phased_wrongCount _ _ _
    | actorMaker c => exact (phased_construct c env args).andPure _
  · exact phased_fault ⟨trivial, nofun⟩
  · exact .uses (Step.uses (.notAProc _) rfl)

/-! ## Instructions -/

/-- **Every instruction is phased**, and it does not act unless it calls something. -/
theorem Context.phased_execute (ctx : Context) (env : Env) (rest : Stack) (instr : Instr)
    (h : acts = false → instr.Plain) : (ctx.execute env rest instr).Phased acts := by
  have huses := ctx.uses_execute env rest instr
  have hbind : ∀ x v, (env.bind x v >>= fun _ => pure (Flow.next rest)).Phased acts := fun x v =>
    .makes ((env.makes_bind x v).andPure _)
  have hcall : ∀ (v : Value) args, acts = true →
      (v.call ctx env args rest >>= fun stack => pure (Flow.next stack)).Phased acts := fun v args hacts =>
    (Value.phased_call ctx env rest fun _ => hacts).andPure _
  -- an instruction that is not plain may call what acts
  have hacts : ¬ instr.Plain → acts = true := fun hcalls => Bool.not_eq_false _ ▸ mt h hcalls
  -- each kind of instruction reads before it makes or binds
  cases instr with
  | skip | seq _ | attempt _ _ _ | cond _ _ _ | case _ _ _ _ | throw _ => exact .uses (huses.within rfl)
  | fresh idents body => exact .makes (.uses (huses.within rfl))
  | bind x y =>
    refine .makes ((env.uses_var x).makes_bind rfl fun target => (y.uses_term env).makes_bind rfl fun t => ?_)
    exact (Action.makes_bindTerm target t).andPure _
  | arith op a b x =>
    refine (a.uses_value env).phased_bind rfl fun v => (b.uses_value env).phased_bind rfl fun w => ?_
    exact Action.phased_check (fun _ => Value.plain_of_arith) fun r _ => hbind x r
  | negate a x =>
    refine (a.uses_value env).phased_bind rfl fun v => ?_
    exact Action.phased_check (fun _ => Value.plain_of_asNum) fun n _ => hbind x _
  | not a x =>
    refine (a.uses_value env).phased_bind rfl fun v => ?_
    exact Action.phased_check (fun _ => Value.plain_of_asBool) fun b _ => hbind x _
  | rel op a b x =>
    refine (a.uses_value env).phased_bind rfl fun v => (b.uses_value env).phased_bind rfl fun w => ?_
    exact Action.phased_check (fun _ => Value.plain_of_related) fun r _ => hbind x _
  | entails a b x | disentails a b x =>
    refine (a.uses_term env).phased_bind rfl fun s => (b.uses_term env).phased_bind rfl fun t => ?_
    exact (Action.uses_entails s t).phased_bind rfl fun answer => hbind x _
  | apply proc args => exact (proc.uses_value env).phased_bind rfl fun v => hcall v args (hacts id)
  | select record feature x =>
    refine (env.uses_select record feature).phased_bind rfl fun t => .makes ?_
    exact (env.uses_var x).makes_bind rfl fun y => (Action.makes_unify _ t).andPure _
  | selectApply record feature args =>
    refine (env.uses_select record feature).phased_bind rfl fun t => Step.phased_bind (.ask (.resolve t)) rfl fun u => ?_
    cases u with
    | var x => exact .uses (Step.uses (.wait x) rfl)
    | val v => exact hcall v args (hacts id)
  | createRecord x label fields =>
    refine (env.uses_label label).phased_bind rfl fun l => (env.uses_fields fields).phased_bind rfl fun fs => ?_
    refine Action.phased_check (fun _ => Record.plain_of_build) fun record hrecord => ?_
    exact Step.phased_bind (.record (Record.orderly_build hrecord)) rfl fun n => hbind x _
  | createTuple x label values =>
    refine (env.uses_label label).phased_bind rfl fun l => (Operand.uses_terms env values).phased_bind rfl fun ts => ?_
    exact Step.phased_bind (.record (Record.orderly_tuple l ts)) rfl fun n => hbind x _
  | createProc x params body | createActor x params body =>
    exact .makes ((env.uses_close _).makes_bind rfl fun c => (env.makes_bind x _).andPure _)
  | getCell cell x =>
    refine (cell.uses_value env).phased_bind rfl fun v => ?_
    refine Action.phased_check (fun _ => Value.plain_of_asCell) fun c _ => .makes ?_
    refine (env.uses_var x).makes_bind rfl fun y => Step.makes_bind (.ask (.cell c)) rfl fun t => ?_
    exact (Action.makes_unify _ t).andPure _
  | setCell cell value =>
    refine (cell.uses_value env).phased_bind rfl fun v => ?_
    refine Action.phased_check (fun _ => Value.plain_of_asCell) fun c _ => .makes ?_
    refine (value.uses_term env).makes_bind rfl fun t => ?_
    exact .andPure (.change (.setCell c t) (by decide)) _

end Calls

end Dataflow
