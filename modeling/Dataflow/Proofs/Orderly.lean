/-
Orderly stores: in whichever way a record has been made, its features are in ascending order.

Records are made in few places. A computation builds them or numbers them as a tuple, `Rec.assign` builds the union of
two, completing keeps the features of the record that it rebuilds, an iterator pairs a feature with its value, a fault is
described by two fields, and each built-in module is a record. None of these places assumes anything of the store but
that its records are orderly, so the same is said of everything that a computation does (`Maintains`).
-/
import Dataflow.Proofs.Kinds
import Dataflow.Kernel

set_option autoImplicit false

namespace Dataflow

/-! ## Maintaining an invariant -/

section Maintains

variable {ε S α β : Type} {P : S → Prop} {Q : α → Prop} {R : β → Prop}

/-- However a step has ended, its state has the property, and its result satisfies `Q`. -/
def Maintained (P : S → Prop) (Q : α → Prop) : EStateM.Result ε S α → Prop
  | .ok a s => P s ∧ Q a
  | .error _ s => P s

/-- From states with the property the step leads to such states. -/
def Maintains (P : S → Prop) (m : EStateM ε S α) (Q : α → Prop) : Prop := ∀ s, P s → Maintained P Q (m s)

/-- Steps that maintain a property can be done one after the other. The second may rely on the result of the first. -/
theorem Maintains.bind {m : EStateM ε S α} {f : α → EStateM ε S β} (h : Maintains P m Q)
    (hf : ∀ a, Q a → Maintains P (f a) R) : Maintains P (m >>= f) R := by
  intro s hs
  have hm := h s hs
  rw [bind_apply]
  generalize m s = result at hm ⊢
  cases result with
  | ok a s' => exact hf a hm.2 s' hm.1
  | error e s' => exact hm

theorem Maintains.of_result {m : EStateM ε S α} {Q' : α → Prop} (h : Maintains P m Q)
    (hQ : ∀ s a s', m s = .ok a s' → Q' a) : Maintains P m Q' := by
  intro s hs
  have hm := h s hs
  rcases heq : m s with ⟨a, s'⟩ | ⟨e, s'⟩
  · rw [heq] at hm
    exact ⟨hm.1, hQ s a s' heq⟩
  · rw [heq] at hm
    exact hm

theorem maintains_pure {a : α} (h : Q a) : Maintains P (pure a : EStateM ε S α) Q := fun _ hs => ⟨hs, h⟩

theorem maintains_throw (e : ε) : Maintains P (throw e : EStateM ε S α) Q := fun _ hs => hs

end Maintains

/-! ## Orderly stores -/

/-- All records are orderly. -/
def Store.Orderly (σ : Store) : Prop := ∀ r ∈ σ.records, r.Orderly

namespace Record

/-- The order concerns features only. -/
theorem Orderly.congr {r : Record} (h : r.Orderly) (label : Literal) {fields : List Field}
    (hfeatures : fields.map Field.feature = r.fields.map Field.feature) : Orderly ⟨label, fields⟩ := by
  intro hcount
  have hlength : r.count = fields.length := by
    rw [count, ← List.length_map Field.feature, ← hfeatures, List.length_map]
  rw [Ascending, hfeatures]
  exact h (hlength ▸ hcount)

/-- The record of a fault has two fields, and they are in order. -/
theorem orderly_fault (σ : Store) (f : Fault) : (f.record σ).Orderly := by
  have hbefore : (Feature.str "message").Before (.str "name") := by
    rw [← Feature.compare_eq_lt]
    decide
  exact fun _ => List.pairwise_pair.mpr hbefore

/-- The procedures of a module are listed in the order of their names. -/
theorem orderly_module {name : Ident} {procs : List (String × Native)} (h : (name, procs) ∈ modules) :
    (moduleRecord procs).Orderly := by
  have hbefore : (Feature.str "assign").Before (.str "size") := by
    rw [← Feature.compare_eq_lt]
    decide
  intro _
  rw [modules] at h
  simp only [List.mem_cons, List.not_mem_nil, or_false, Prod.mk.injEq] at h
  rcases h with ⟨-, rfl⟩ | ⟨-, rfl⟩ | ⟨-, rfl⟩ | ⟨-, rfl⟩ | ⟨-, rfl⟩ | ⟨-, rfl⟩ | ⟨-, rfl⟩
  -- only `Rec` has two procedures
  case inr.inr.inr.inl => exact List.pairwise_pair.mpr hbefore
  all_goals exact List.pairwise_singleton _ _

end Record

namespace Store

theorem orderly_empty : Orderly {} := fun _ hr => absurd hr (Array.not_mem_empty _)

namespace Orderly

variable {σ τ : Store}

theorem of_eq (h : σ.Orderly) (hrecords : τ.records = σ.records) : τ.Orderly := fun r hr => h r (hrecords ▸ hr)

/-- A new record has to be orderly for the store to stay so. -/
theorem newRecord (h : σ.Orderly) {r : Record} (hr : r.Orderly) : (σ.newRecord r).2.Orderly := by
  intro s hs
  rcases Array.mem_push.mp hs with hold | rfl
  · exact h s hold
  · exact hr

/-- The record of each number is orderly, also where there is none. -/
theorem record (h : σ.Orderly) (r : RecordId) : (σ.record r).Orderly := by
  rw [Store.record, Array.getD_eq_getD_getElem?]
  cases hr : σ.records[r]? with
  | none => exact fun _ => List.Pairwise.nil
  | some s => exact h s (Array.mem_of_getElem? hr)

theorem failWith (h : σ.Orderly) (owner : Address) (f : Fault) : (σ.failWith owner f).2.Orderly :=
  (h.newRecord (Record.orderly_fault σ f)).of_eq rfl

/-- An iterator that moves on makes at most a pair, and that is in order. -/
theorem nextItem (h : σ.Orderly) (i : IterId) : (σ.nextItem i).2.Orderly := by
  rw [Store.nextItem]
  split
  · exact h
  · rw [Iterator.item]
    split
    · exact h.of_eq rfl
    · exact Orderly.newRecord (h.of_eq rfl) (Record.orderly_tuple _ _)

end Orderly

/-- Unification makes no records. -/
theorem unifyAll_records (room : Nat) (memo : PairMemo) (work : List (Term × Term)) (σ : Store) :
    (unifyAll room memo work σ).2.records = σ.records := by
  fun_induction Store.unifyAll room memo work σ with
  | case1 | case6 | case8 | case10 => rfl
  | case2 room memo a b rest σ x y hb ha ih =>
    simp only [dite_eq_ite] at ih
    rw [ih]
    split
    · rfl
    · exact merge_records σ x y
  | case3 room memo a b rest σ x v hb ha ih | case4 room memo a b rest σ v x hb ha ih =>
    rw [ih, assign_records]
  | case5 room memo a b rest σ r s hb ha hmem ih => exact ih
  | case7 memo a b rest σ r s hb ha hmem _ _ hshape room ih => exact ih
  | case9 room memo a b rest σ v w hne hb ha hsame ih => exact ih

end Store

/-! ## Orderly actions -/

namespace Action

variable {α β : Type} {act : Action α} {Q : α → Prop}

/-- The step leaves an orderly store orderly, and its result satisfies `Q`. -/
abbrev Orderly (act : Action α) (Q : α → Prop) : Prop := Maintains Store.Orderly act Q

theorem orderly_fault (g : Fault) : (fault g : Action α).Orderly Q := maintains_throw _

theorem orderly_block (x : VarId) : (block x : Action α).Orderly Q := maintains_throw _

theorem orderly_read (g : Store → α) (h : ∀ σ : Store, σ.Orderly → Q (g σ)) : (read g).Orderly Q :=
  fun σ hσ => ⟨hσ, h σ hσ⟩

theorem orderly_look (g : Store → α) : (read g).Orderly fun _ => True := orderly_read g fun _ _ => trivial

theorem orderly_newRecord {r : Record} (h : r.Orderly) : (take fun σ => σ.newRecord r).Orderly fun _ => True :=
  fun _ hσ => ⟨hσ.newRecord h, trivial⟩

theorem orderly_ofChange {g : Store → Option Fault × Store} (h : ∀ σ, (g σ).2.records = σ.records) :
    (ofChange g).Orderly fun _ => True := by
  intro σ hσ
  have hg := h σ
  rw [ofChange]
  generalize g σ = result at hg
  obtain ⟨_ | fault, τ⟩ := result
  · exact ⟨hσ.of_eq hg, trivial⟩
  · exact hσ.of_eq hg

end Action

/-! ## Completing -/

namespace Completer

variable {α β : Type}

/-- Whatever the walk has entered, the step leaves an orderly store orderly, and its result satisfies `Q`. -/
def Orderly (m : Completer α) (Q : α → Prop) : Prop := ∀ done, Action.Orderly (m done) fun result => Q result.1

theorem Orderly.bind {m : Completer α} {f : α → Completer β} {Q : α → Prop} {R : β → Prop} (h : m.Orderly Q)
    (hf : ∀ a, Q a → (f a).Orderly R) : (m >>= f).Orderly R :=
  fun done => Maintains.bind (h done) fun result hresult => hf result.1 hresult result.2

theorem orderly_pure {Q : α → Prop} {a : α} (h : Q a) : (pure a : Completer α).Orderly Q :=
  fun _ => maintains_pure h

theorem orderly_modify (f : Completed → Completed) : (modify f : Completer Unit).Orderly fun _ => True :=
  fun _ => maintains_pure trivial

theorem orderly_get : (get : Completer Completed).Orderly fun _ => True := fun _ => maintains_pure trivial

theorem orderly_lift {act : Action α} {Q : α → Prop} (h : act.Orderly Q) : (monadLift act : Completer α).Orderly Q :=
  fun _ => Maintains.bind h fun _ ha => maintains_pure ha

theorem orderly_refuse (what : Incomplete) {Q : Value → Prop} : (refuse what).Orderly Q :=
  orderly_lift (Action.orderly_fault _)

variable {complete : Term → Completer Value}

/-- Completed fields have the features that they had. -/
theorem orderly_fields (hcomplete : ∀ t, (complete t).Orderly fun _ => True) (fs : List Field) :
    (fields complete fs).Orderly fun gs => gs.map Field.feature = fs.map Field.feature := by
  induction fs with
  | nil => exact orderly_pure rfl
  | cons f rest ih =>
    refine (hcomplete f.value).bind fun v _ => ih.bind fun gs hgs => orderly_pure ?_
    rw [List.map_cons, List.map_cons, hgs]

/-- To complete what has been captured is to complete terms. -/
theorem orderly_captures (hcomplete : ∀ t, (complete t).Orderly fun _ => True) (env : Env) :
    (captures complete env).Orderly fun _ => True := by
  induction env with
  | nil => exact orderly_pure trivial
  | cons p rest ih => exact (hcomplete (.var p.2)).bind fun v _ => ih

/-- A record that is rebuilt has the features of the one that it is made from. -/
theorem orderly_record (hcomplete : ∀ t, (complete t).Orderly fun _ => True) (r : RecordId) :
    (record complete r).Orderly fun _ => True := by
  have hread : (Action.read fun σ => σ.record r).Orderly Record.Orderly :=
    Action.orderly_read _ fun σ hσ => hσ.record r
  refine (orderly_modify _).bind fun _ _ => (orderly_lift hread).bind fun source hsource => ?_
  refine (orderly_fields hcomplete source.fields).bind fun rebuilt hrebuilt => ?_
  refine (orderly_lift (Action.orderly_newRecord (hsource.congr source.label hrebuilt))).bind fun s _ => ?_
  exact (orderly_modify _).bind fun _ _ => orderly_pure trivial

theorem orderly_closure (hcomplete : ∀ t, (complete t).Orderly fun _ => True) (v : Value) (c : ClosureId) :
    (closure complete v c).Orderly fun _ => True := by
  refine orderly_get.bind fun found _ => ?_
  split
  · exact orderly_pure trivial
  · refine (orderly_modify _).bind fun _ _ => (orderly_lift (Action.orderly_look _)).bind fun env _ => ?_
    exact (orderly_captures hcomplete env).bind fun _ _ => orderly_pure trivial

/-- Checking a term for completeness leaves the records sorted. -/
theorem orderly_term (depth : Nat) (t : Term) : (term depth t).Orderly fun _ => True := by
  -- on the bound of the nesting: records and closures complete their parts with a smaller one
  induction depth generalizing t with
  | zero =>
    refine (orderly_lift (Action.orderly_look _)).bind fun u _ => ?_
    cases u with
    | var x => exact orderly_lift (Action.orderly_block x)
    | val v => exact orderly_pure trivial
  | succ depth ih =>
    refine (orderly_lift (Action.orderly_look _)).bind fun u _ => ?_
    cases u with
    | var x => exact orderly_lift (Action.orderly_block x)
    | val v =>
      cases v with
      | record r =>
        refine orderly_get.bind fun found _ => ?_
        split
        · exact orderly_pure trivial
        · exact orderly_record ih r
      | proc p =>
        cases p with
        | closure c | actorMaker c => exact orderly_closure ih _ c
        | ofCell | iter => exact orderly_refuse _
        | native | ofActor => exact orderly_pure trivial
      | config k => exact (orderly_lift (Action.orderly_look _)).bind fun c _ => orderly_closure ih _ c
      | obj o =>
        cases o with
        | cell c => exact orderly_refuse _
        | actor a => exact orderly_pure trivial
      | lit | num | failed => exact orderly_pure trivial

end Completer

/-- Completing a term leaves the store orderly. -/
theorem Action.orderly_complete (t : Term) : (complete t).Orderly fun _ => True := by
  refine (orderly_look _).bind fun depth _ => ?_
  have hterm : Action.Orderly (Completer.term depth t {}) fun _ => True := Completer.orderly_term depth t {}
  -- what has been carried along is forgotten in the end
  have hforget : Action.Orderly (Completer.term depth t {} >>= fun result => pure result.1) fun _ => True :=
    hterm.bind fun result _ => maintains_pure trivial
  rwa [bind_pure_comp] at hforget

/-! ## Steps -/

namespace Action

variable {α : Type} {act : Action α} {K : List Kind} {Q : α → Prop}

/-- Nearly all steps make no records, or one with its features in order. -/
theorem Step.orderly {k : Kind} (h : Step k act) (hk : k ∉ [.rebuild]) : act.Orderly fun _ => True := by
  cases h with
  | missing | fault | wait => exact maintains_throw _
  | ask => exact orderly_look _
  | component v g =>
    intro σ hσ
    rw [bind_apply]
    dsimp only [read]
    cases σ.select v g with
    | ok t => exact ⟨hσ, trivial⟩
    | error e => exact hσ
  | noMatch | notAProc | mismatch => exact fun _ hσ => hσ
  | record h => exact orderly_newRecord h
  | complete t => exact orderly_complete t
  | fill | fresh | closure | cell | iterator | token | config | receiver | address | announce | setCell | send =>
    exact fun _ hσ => ⟨hσ.of_eq rfl, trivial⟩
  | advance i => exact fun _ hσ => ⟨hσ.nextItem i, trivial⟩
  | unify a b => exact orderly_ofChange fun _ => Store.unifyAll_records _ _ _ _
  | bindVar x y =>
    refine orderly_ofChange fun σ => ?_
    rw [Store.unifyVars]
    split
    · rfl
    · exact Store.unifyAll_records _ _ _ _
  | rebuild => exact absurd (by decide) hk

/-- Rebuilding apart, all steps leave the store orderly. -/
theorem Composed.orderly (h : act.Composed K Q) (hK : Kind.avoids K [.rebuild] = true) : act.Orderly Q := by
  have hsequenced : Sequenced fun {α} (act : Action α) => act.Orderly fun _ => True :=
    ⟨fun _ => maintains_pure trivial, fun h hf => (h.of_result fun σ _ τ heq => ⟨σ, τ, heq⟩).bind hf⟩
  have horderly : act.Orderly fun _ => True :=
    h.holds hsequenced fun _ hk _ _ hs => hs.orderly (Kind.not_mem_of_avoids hK hk)
  exact horderly.of_result fun _ _ _ heq => h.result heq

end Action

/-- **Every instruction leaves an orderly store orderly.** -/
theorem Context.orderly_execute (ctx : Context) (env : Env) (rest : Stack) (instr : Instr) :
    (ctx.execute env rest instr).Orderly fun _ => True :=
  (ctx.uses_execute env rest instr).orderly (by cases instr <;> rfl)

/-! ## Computations -/

section Computations

variable {σ : Store}

/-- No record is made when the stack is unwound. -/
theorem Store.Orderly.unwind (hσ : σ.Orderly) (owner : Address) (v : Value) (cause : Option Fault) (stack : Stack) :
    (unwind owner v cause stack σ).2.Orderly := by
  induction stack with
  | nil => exact hσ.of_eq rfl
  | cons frame rest ih =>
    cases frame with
    | run _ _ => exact ih
    | trap _ _ _ => exact hσ.of_eq rfl

theorem Store.Orderly.raise (hσ : σ.Orderly) (owner : Address) (f : Fault) (stack : Stack) :
    (raise owner f stack σ).2.Orderly := by
  unfold Dataflow.raise
  split
  · exact hσ.unwind _ _ _ _
  · exact (hσ.newRecord (Record.orderly_fault σ f)).unwind _ _ _ _

theorem Store.suspend_records (σ : Store) (x : VarId) (k : Continuation) : (σ.suspend x k).2.records = σ.records := by
  rw [suspend]
  split <;> rfl

namespace Context

variable (ctx : Context)

/-- A machine step leaves the records sorted, whatever its end. -/
theorem step_orderly (hσ : σ.Orderly) (instr : Instr) (env : Env) (rest : Stack) :
    (ctx.step instr env rest σ).2.Orderly := by
  have hexecute := ctx.orderly_execute env rest instr σ hσ
  rw [step]
  generalize ctx.execute env rest instr σ = result at hexecute ⊢
  cases result with
  | ok flow τ =>
    cases flow with
    -- what the instruction left sorted stays so while the stack is unwound or the machine is parked
    | next stack => exact hexecute.1
    | throw v cause => exact hexecute.1.unwind _ _ _ _
  | error e τ =>
    cases e with
    | blocked x =>
      have hsuspend := hexecute.of_eq (τ.suspend_records x ⟨.run instr env :: rest, ctx.resumer⟩)
      dsimp only
      generalize τ.suspend x ⟨.run instr env :: rest, ctx.resumer⟩ = suspended at hsuspend ⊢
      obtain ⟨_ | _, ρ⟩ := suspended <;> exact hsuspend
    | fault f => exact hexecute.raise _ _ _

/-- A slice of a computation leaves an orderly store orderly. -/
theorem compute_orderly (slice executed : Nat) (hσ : σ.Orderly) (stack : Stack) :
    (ctx.compute slice stack executed σ).store.Orderly := by
  induction slice generalizing stack executed σ with
  | zero =>
    rw [compute]
    split <;> exact hσ
  | succ slice ih =>
    rw [compute]
    split
    · exact hσ
    · next instr env rest _ =>
      have hstep := ctx.step_orderly hσ instr env rest
      generalize ctx.step instr env rest σ = result at hstep ⊢
      obtain ⟨outcome, τ⟩ := result
      cases outcome with
      | next stack => exact ih _ hstep stack
      | waiting | halted => exact hstep

end Context

end Computations

end Dataflow
