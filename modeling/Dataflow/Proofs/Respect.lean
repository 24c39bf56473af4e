/-
Respect: what a computation does to things that are not its own, which is nothing.

`Respects` says of an action in a divided store that it passes to a divided store, however it ends, and what its result
satisfies. The primitive actions come first, each with the elementary change that it makes. What is made is new, and so
belongs to the party that is at work. What is changed was reached from a term of that party, and so was its own.
-/
import Dataflow.Proofs.Ownership

set_option autoImplicit false

namespace Dataflow

/-! ## Elementary changes of divided stores -/

/-- A new variable has the value that it was made with. -/
theorem Store.resolveVar_newBound (σ : Store) (v : Value) :
    (σ.newVar (.bound v)).2.resolveVar σ.vars.size = .val v := by
  have hstate : (σ.newVar (.bound v)).2.vars[σ.vars.size]? = some (.bound v) :=
    (σ.newVar_getElem? ..).trans (if_pos rfl)
  have hlink : ∀ y, (σ.newVar (.bound v)).2.vars[σ.vars.size]? ≠ some (.link y) := by
    intro y hy
    cases hstate.symm.trans hy
  refine Store.resolveVar_of_bound ?_
  rw [Store.representative_of_ne_link hlink, hstate]

namespace Store.Divided

variable {own : Ownership} {p : Party} {σ τ : Store}

/-- A new variable belongs to the part that makes it. -/
theorem passes_newVar (h : σ.Divided own p) {s : VarState} (hs : s.Idle) (hin : s.In σ σ.vars.size) :
    σ.Passes own p (σ.newVar s).2 := by
  have hdeeds : σ.Deeds (σ.newVar s).2 := .single (.newVar hs hin)
  have hquiet : σ.Quiet (σ.newVar s).2 := .of_log_eq rfl rfl rfl
  have hlink : ∀ y, s ≠ .link y := by
    rintro y rfl
    exact hs
  refine h.passes hdeeds.evolves (hquiet.intact h.intact h.closed (hdeeds.evolves.keeps h.closed))
    (.newVar h.closed hlink hin) (fun x ks hks k hk => ?_) h.log
  rw [newVar_getElem?] at hks
  split at hks
  -- nothing waits for a new variable
  · cases hks
    have hempty : ks = [] := hs
    rw [hempty] at hk
    exact absurd hk List.not_mem_nil
  · exact h.waiting x ks hks k hk

/-- Parking a continuation of the part on a variable keeps the division. -/
theorem passes_park (h : σ.Divided own p) {x : Nat} {k : Continuation} (hx : σ.Unbound x) (hk : k.Owned own σ) :
    σ.Passes own p (σ.park x k) := by
  have hin : k.In σ := hk.isIn
  have hevolves : σ.Evolves (σ.park x k) := .single (.var (.park hx hin))
  have hquiet : σ.Quiet (σ.park x k) := .of_log_eq rfl rfl rfl
  refine h.passes hevolves (hquiet.intact h.intact h.closed (hevolves.keeps h.closed)) (.park h.closed hx hin)
    (fun z ks hks j hj => ?_) h.log
  rw [park_getElem? hx] at hks
  split at hks
  -- the continuations of the variable are the old ones and the new one
  · cases hks
    rcases List.mem_append.mp hj with hold | hnew
    · exact h.of_waiting hold
    · exact List.mem_singleton.mp hnew ▸ hk
  · exact h.waiting z ks hks j hj

/-- Computations that are resumed go to those who own them. -/
theorem passes_assign (h : σ.Divided own p) {x : Nat} {v : Value} (hx : σ.Unbound x)
    (hown : Term.Owned own p σ (.var x)) (hv : v.Owned own p σ) : σ.Passes own p (σ.assign x v) := by
  have hevolves : σ.Evolves (σ.assign x v) := .single (.var (.binds (.assign hx hv.isIn)))
  refine h.passes hevolves ((Quiet.assign σ x v).intact h.intact h.closed (hevolves.keeps h.closed))
    (.assign h.closed hx hown hv) (fun z ks hks k hk => ?_) fun e he => ?_
  · rw [assign_getElem? hx] at hks
    split at hks
    · cases hks
    · exact h.waiting z ks hks k hk
  · rw [assign_eq] at he
    rcases Array.mem_append.mp he with hold | hnew
    · exact h.log e hold
    · obtain ⟨k, hk, rfl⟩ := List.mem_map.mp (List.mem_toArray.mp hnew)
      exact h.of_waiting hk

/-- Merging two variables of one part keeps the division: what waited for either of them is of that part. -/
theorem passes_merge (h : σ.Divided own p) {x y : Nat} (hx : σ.Unbound x) (hy : σ.Unbound y) (hne : x ≠ y)
    (hownx : Term.Owned own p σ (.var x)) (howny : Term.Owned own p σ (.var y)) : σ.Passes own p (σ.merge x y) := by
  have hevolves : σ.Evolves (σ.merge x y) := .single (.var (.binds (.merge hx hy hne)))
  refine h.passes hevolves ((Quiet.merge σ x y).intact h.intact h.closed (hevolves.keeps h.closed))
    (.merge h.closed hx hy hne hownx howny) (fun z ks hks k hk => ?_) h.log
  rw [merge_getElem? hx hy] at hks
  split at hks
  · cases hks
  · split at hks
    · cases hks
      exact (List.mem_append.mp hk).elim h.of_waiting h.of_waiting
    · exact h.waiting z ks hks k hk

/-- What is written to the log has to belong to whom it is for. -/
theorem passes_emit (h : σ.Divided own p) {e : Effect} (hin : e.In σ) (hintact : (σ.emit e).Intact)
    (he : e.Owned own σ) : σ.Passes own p (σ.emit e) := by
  have hstep : TableStep σ (σ.emit e) := .emit hin
  have hrespects : σ.Respects own (σ.emit e) :=
    .of_vars_eq h.closed hstep.grows rfl (fun q c hc => hc.touches h.closed (.content c)) fun _ _ => rfl
  refine h.passes (.single (.table hstep)) hintact hrespects h.waiting fun f hf => ?_
  rcases Array.mem_push.mp hf with hold | rfl
  · exact h.log f hold
  · exact he

/-- **Sending** something that its recipient may have. -/
theorem passes_send (h : σ.Divided own p) (recipient : ActorRef) {e : Envelope}
    (he : e.Owned own recipient.receiver.party σ) : σ.Passes own p (σ.emit (.send recipient e)) := by
  have hin : Effect.In σ (.send recipient e) := he.intact.isIn
  have hevolves : σ.Evolves (σ.emit (.send recipient e)) := .single (.table (.emit hin))
  have hkeeps := hevolves.keeps h.closed
  refine h.passes_emit hin (h.intact.of_keeps h.closed hkeeps (fun _ => .inl) (fun _ => .inl) fun r g hg => ?_) he
  rcases Array.mem_push.mp hg with hold | hnew
  · exact .inl hold
  · cases hnew
    exact .inr (he.intact.keeps h.closed hkeeps).payload

/-- The log gets shorter. -/
theorem passes_shorten (h : σ.Divided own p) (queues : Nat) {effects : Array Effect}
    (hlog : effects.toList.Sublist σ.effects.toList) : σ.Passes own p { σ with queues, effects } := by
  have hmem : ∀ e ∈ effects, e ∈ σ.effects := fun e he =>
    Array.mem_toList_iff.mp (hlog.subset (Array.mem_toList_iff.mpr he))
  have hkeeps : σ.Keeps { σ with queues, effects } := .of_vars_eq (.shorten σ queues effects) rfl
  have hrespects : σ.Respects own { σ with queues, effects } :=
    .of_vars_eq h.closed (.shorten σ queues effects) rfl (fun q c hc => hc.touches h.closed (.content c)) fun _ _ => rfl
  have hquiet : σ.Quiet { σ with queues, effects } := ⟨rfl, rfl, fun _ _ he => hmem _ he⟩
  have hclosed : Closed { σ with queues, effects } := h.closed.shorten queues hlog
  exact
    { respects := hrespects
      keeps := hkeeps
      divided :=
        { closed := hclosed
          intact := hquiet.intact h.intact h.closed hkeeps
          new := fun t ht => h.new t fun hin => ht (hkeeps.grows.term hin)
          waiting := fun x ks hks k hk => hrespects.stack (h.waiting x ks hks k hk)
          log := fun e he => hrespects.effect h.closed hkeeps (h.log e (hmem e he)) } }

/-- A change outside the variables that leaves cells and iterators alone, and makes no configuration and no failure. -/
theorem passes_quietly (h : σ.Divided own p) (hstep : TableStep σ τ) (hquiet : σ.Quiet τ)
    (hlog : τ.effects = σ.effects) (hcells : ∀ c < σ.cells.size, τ.cell c = σ.cell c)
    (hiterators : ∀ i < σ.iterators.size, (τ.iterator i).record = (σ.iterator i).record) : σ.Passes own p τ := by
  have hkeeps : σ.Keeps τ := (Evolves.single (.table hstep)).keeps h.closed
  refine h.passes_table hstep (hquiet.intact h.intact h.closed hkeeps) hlog (fun q c hc => ?_) hiterators
  rw [hcells c hc.isIn]
  exact hc.touches h.closed (.content c)

theorem passes_newRecord (h : σ.Divided own p) {r : Record} (hr : r.In σ) : σ.Passes own p (σ.newRecord r).2 :=
  h.passes_quietly (.newRecord hr) (.of_log_eq rfl rfl rfl) rfl (fun _ _ => rfl) fun _ _ => rfl

theorem passes_newFailure (h : σ.Divided own p) {owner : Address} {v : Value} {cause : Option Fault}
    (hv : v.Complete σ) : σ.Passes own p (σ.newFailure ⟨owner, v, cause⟩).2 :=
  h.passes_table (.newFailure hv.isIn) (h.intact.newFailure h.closed hv.isIn hv.whole) rfl
    (fun _ c hc => hc.touches h.closed (.content c)) fun _ _ => rfl

/-- Completing adds records, which nothing refers to yet. -/
theorem passes_rebuilds (h : σ.Divided own p) (hevolves : σ.Evolves τ) (hrebuilds : σ.Rebuilds τ) :
    σ.Passes own p τ := by
  have hintact : τ.Intact := hrebuilds.quiet.intact h.intact h.closed hrebuilds.keeps
  obtain ⟨records, rfl⟩ := hrebuilds
  have hrespects : σ.Respects own { σ with records := σ.records ++ records } :=
    .of_vars_eq h.closed hevolves.grows rfl (fun q c hc => hc.touches h.closed (.content c)) fun _ _ => rfl
  exact h.passes hevolves hintact hrespects h.waiting h.log

/-- A description of a fault is complete. -/
theorem passes_toValue (h : σ.Divided own p) (f : Fault) :
    σ.Passes own p (f.toValue σ).2 ∧ (f.toValue σ).1.Complete (f.toValue σ).2 := by
  obtain ⟨-, -, hin⟩ := Fault.toValue_intact h.intact h.closed f
  exact ⟨h.passes_newRecord (f.record_in σ), hin, Fault.toValue_whole f σ⟩

end Store.Divided

/-! ## Unification -/

namespace Walk

variable {own : Ownership} {p : Party} {w w' : Walk}

/-- The store is divided, and the pairs of terms are of the party that is at work. -/
structure Divided (own : Ownership) (p : Party) (w : Walk) : Prop where
  store : w.store.Divided own p
  work : ∀ pair ∈ w.work, pair.1.Owned own p w.store ∧ pair.2.Owned own p w.store

/-- A step of the walk keeps to the part that owns its work. -/
theorem Next.passes (h : Next w w') (hw : w.Divided own p) :
    w.store.Passes own p w'.store ∧ w'.Divided own p := by
  have hclosed := hw.store.closed
  -- what is left of the work is owned in whatever store the step passes to
  have hrest : ∀ {τ : Store} {memo : PairMemo} {pair : Term × Term} {rest : List (Term × Term)},
      w.work = pair :: rest → w.store.Passes own p τ → Divided own p ⟨memo, rest, τ⟩ := by
    intro τ memo pair rest hwork hpasses
    refine ⟨hpasses.divided, fun other hother => ?_⟩
    obtain ⟨hleft, hright⟩ := hw.work other (hwork ▸ List.mem_cons_of_mem pair hother)
    exact ⟨hpasses.respects _ _ hleft, hpasses.respects _ _ hright⟩
  cases h with
  | agree => exact ⟨.refl hw.store, hrest rfl (.refl hw.store)⟩
  | merge ha hb hne =>
    obtain ⟨hleft, hright⟩ := hw.work _ List.mem_cons_self
    have hpasses := hw.store.passes_merge (hclosed.resolve_var hleft.isIn ha) (hclosed.resolve_var hright.isIn hb) hne
      (hleft.resolve_var hclosed ha) (hright.resolve_var hclosed hb)
    exact ⟨hpasses, hrest rfl hpasses⟩
  | assignLeft ha hb =>
    obtain ⟨hleft, hright⟩ := hw.work _ List.mem_cons_self
    have hpasses := hw.store.passes_assign (hclosed.resolve_var hleft.isIn ha) (hleft.resolve_var hclosed ha)
      (hright.resolve_val hclosed hb)
    exact ⟨hpasses, hrest rfl hpasses⟩
  | assignRight ha hb =>
    obtain ⟨hleft, hright⟩ := hw.work _ List.mem_cons_self
    have hpasses := hw.store.passes_assign (hclosed.resolve_var hright.isIn hb) (hright.resolve_var hclosed hb)
      (hleft.resolve_val hclosed ha)
    exact ⟨hpasses, hrest rfl hpasses⟩
  | @expand memo a b rest σ r s ha hb =>
    obtain ⟨hleft, hright⟩ := hw.work _ List.mem_cons_self
    refine ⟨.refl hw.store, hw.store, fun pair hpair => ?_⟩
    rcases List.mem_append.mp hpair with hside | hold
    -- the fields of an owned record are owned
    · obtain ⟨f, hf, hfpair⟩ := Record.sides_left hside
      obtain ⟨g, hg, hgpair⟩ := Record.sides_right hside
      rw [← hfpair, ← hgpair]
      exact ⟨(hleft.resolve_val hclosed ha).touches hclosed (.refers (.field hf)),
        (hright.resolve_val hclosed hb).touches hclosed (.refers (.field hg))⟩
    · exact hw.work pair (List.mem_cons_of_mem _ hold)

/-- A unification of what a party owns respects what is owned. -/
theorem Run.passes (h : Run w w') (hw : w.Divided own p) :
    w.store.Passes own p w'.store ∧ w'.Divided own p := by
  induction h with
  | refl => exact ⟨.refl hw.store, hw⟩
  | tail _ hnext ih =>
    obtain ⟨hpasses, hdivided⟩ := hnext.passes ih.2
    exact ⟨ih.1.trans hpasses, hdivided⟩

end Walk

namespace Store.Divided

variable {own : Ownership} {p : Party} {σ : Store}

/-- **Making two terms of one party equal** changes nothing of another party. -/
theorem passes_unify (h : σ.Divided own p) {a b : Term} (ha : a.Owned own p σ) (hb : b.Owned own p σ) :
    σ.Passes own p (σ.unify a b).2 := by
  obtain ⟨e, hrun, hstore, -⟩ := unify_run h.closed ha.isIn hb.isIn
  have hwalk : Walk.Divided own p ⟨{}, [(a, b)], σ⟩ := by
    refine ⟨h, fun pair hpair => ?_⟩
    obtain rfl := List.mem_singleton.mp hpair
    exact ⟨ha, hb⟩
  exact hstore ▸ (hrun.passes hwalk).1

/-- The representative of an owned variable leads where the variable leads. -/
theorem owned_representative (h : σ.Divided own p) {x : Nat} (hx : Term.Owned own p σ (.var x)) :
    Term.Owned own p σ (.var (σ.representative x)) := by
  have hin : σ.representative x < σ.vars.size := representative_lt_size hx.isIn
  have hsame : σ.resolveVar (σ.representative x) = σ.resolveVar x :=
    resolveVar_eq_of_representative_eq (representative_representative h.closed.linked x)
  rcases hres : σ.resolveVar x with v | y
  · exact owned_of_resolveVar hin (hsame.trans hres) (hx.resolve_val h.closed hres)
  · have hy : σ.representative x = y := (resolveVar_eq_var.mp hres).1
    exact hy ▸ hx.resolve_var h.closed hres

/-- Unifying two variables of a part keeps to that part. -/
theorem passes_unifyVars (h : σ.Divided own p) {x y : Nat} (hx : Term.Owned own p σ (.var x))
    (hy : Term.Owned own p σ (.var y)) : σ.Passes own p (σ.unifyVars x y).2 := by
  have hx' := h.owned_representative hx
  have hy' := h.owned_representative hy
  rw [unifyVars]
  split
  · exact .refl h
  · rcases Nat.le_total (σ.representative x) (σ.representative y) with hle | hle
    · rw [Nat.min_eq_left hle, Nat.max_eq_right hle]
      exact h.passes_unify hx' hy'
    · rw [Nat.min_eq_right hle, Nat.max_eq_left hle]
      exact h.passes_unify hy' hx'

end Store.Divided

/-! ## Actions -/

namespace Action

variable {α β : Type} {own : Ownership} {p : Party} {σ : Store} {act : Action α} {f : α → Action β}

/-- The action passes to a divided store, its result satisfies `Q`, and what it waits for is unbound. -/
def Respects (own : Ownership) (p : Party) (act : Action α) (σ : Store) (Q : α → Store → Prop) : Prop :=
  match act σ with
  | .ok a τ => σ.Passes own p τ ∧ Q a τ
  | .error e τ => σ.Passes own p τ ∧ e.In τ

/-- Actions that keep to their part can be run one after the other. -/
theorem Respects.bind {Q : α → Store → Prop} {R : β → Store → Prop} (h : act.Respects own p σ Q)
    (hf : ∀ a τ, σ.Passes own p τ → Q a τ → (f a).Respects own p τ R) : (act >>= f).Respects own p σ R := by
  rw [Respects] at h
  rw [Respects, bind_apply]
  generalize act σ = result at h
  cases result with
  | ok a τ =>
    have hnext := hf a τ h.1 h.2
    simp only [Respects] at hnext ⊢
    generalize f a τ = last at hnext
    cases last with
    | ok b ρ => exact ⟨h.1.trans hnext.1, hnext.2⟩
    | error e ρ => exact ⟨h.1.trans hnext.1, hnext.2⟩
  | error e τ => exact h

/-- What only reads can be followed by anything. -/
theorem Reads.bind_respects {Q : α → Prop} {R : β → Store → Prop} (h : act.Reads σ Q) (hσ : σ.Divided own p)
    (hf : ∀ a, Q a → (f a).Respects own p σ R) : (act >>= f).Respects own p σ R := by
  rw [Reads] at h
  rw [Respects, bind_apply]
  generalize act σ = result at h
  cases result with
  | ok a τ =>
    obtain ⟨rfl, hQ⟩ := h
    exact hf a hQ
  | error e τ =>
    obtain ⟨rfl, he⟩ := h
    exact ⟨.refl hσ, he⟩

/-- An action that only reads keeps to its part. -/
theorem Reads.respects {Q : α → Prop} {R : α → Store → Prop} (h : act.Reads σ Q) (hσ : σ.Divided own p)
    (hQ : ∀ a, Q a → R a σ) : act.Respects own p σ R := by
  rw [Reads] at h
  rw [Respects]
  generalize act σ = result at h
  cases result with
  | ok a τ =>
    obtain ⟨rfl, ha⟩ := h
    exact ⟨.refl hσ, hQ a ha⟩
  | error e τ =>
    obtain ⟨rfl, he⟩ := h
    exact ⟨.refl hσ, he⟩

theorem respects_pure (hσ : σ.Divided own p) {Q : α → Store → Prop} {a : α} (h : Q a σ) :
    (pure a : Action α).Respects own p σ Q := ⟨.refl hσ, h⟩

theorem respects_fault (hσ : σ.Divided own p) {Q : α → Store → Prop} (g : Fault) :
    (fault g : Action α).Respects own p σ Q := ⟨.refl hσ, trivial⟩

theorem respects_take {Q : α → Store → Prop} {g : Store → α × Store} (h : σ.Passes own p (g σ).2)
    (hQ : Q (g σ).1 (g σ).2) : (take g).Respects own p σ Q := ⟨h, hQ⟩

theorem respects_update {g : Store → Store} (h : σ.Passes own p (g σ)) :
    (update g).Respects own p σ fun _ _ => True := ⟨h, trivial⟩

/-- A change of the store respects what is owned if the store passes on, whether it succeeds or not. -/
theorem respects_ofChange {g : Store → Option Fault × Store} (h : σ.Passes own p (g σ).2) :
    (ofChange g).Respects own p σ fun _ _ => True := by
  rw [Respects, ofChange]
  generalize g σ = result at h
  rcases result with ⟨_ | fault, τ⟩
  · exact ⟨h, trivial⟩
  · exact ⟨h, trivial⟩

theorem unify_respects (hσ : σ.Divided own p) {a b : Term} (ha : a.Owned own p σ) (hb : b.Owned own p σ) :
    (unify a b).Respects own p σ fun _ _ => True := respects_ofChange (hσ.passes_unify ha hb)

/-- A party may bind what it owns to what it owns. -/
theorem bindTerm_respects (hσ : σ.Divided own p) {x : Nat} {t : Term} (hx : Term.Owned own p σ (.var x))
    (ht : t.Owned own p σ) : (bindTerm x t).Respects own p σ fun _ _ => True := by
  cases t with
  | val v => exact unify_respects hσ hx ht
  | var y => exact respects_ofChange (hσ.passes_unifyVars hx ht)

/-! ## New things -/

/-- A new variable that is bound at once belongs to whom its value belongs to. -/
theorem boundVar_respects (hσ : σ.Divided own p) {v : Value} (hv : v.Owned own p σ) :
    (boundVar v).Respects own p σ fun y τ => Term.Owned own p τ (.var y) := by
  have hpasses : σ.Passes own p (σ.newVar (.bound v)).2 := hσ.passes_newVar trivial hv.isIn
  refine respects_take hpasses ?_
  exact Store.owned_of_resolveVar (σ.newVar_lt_size _) (σ.resolveVar_newBound v) (hpasses.respects _ _ hv)

/-- A new unbound variable belongs to the party that is at work. -/
theorem fresh_respects (hσ : σ.Divided own p) : fresh.Respects own p σ fun y τ => Term.Owned own p τ (.var y) := by
  have hpasses : σ.Passes own p σ.freshVar.2 := hσ.passes_newVar rfl fun _ hk => absurd hk List.not_mem_nil
  refine respects_take hpasses ?_
  refine Store.owned_of_unbound ⟨[], ?_⟩ (hσ.new _ (Nat.lt_irrefl σ.vars.size))
  exact (Store.newVar_getElem? ..).trans (if_pos rfl)

theorem freshBindings_respects (hσ : σ.Divided own p) (idents : List Ident) :
    (freshBindings idents).Respects own p σ fun bindings τ => Env.Owned own p τ bindings := by
  induction idents generalizing σ with
  | nil => exact respects_pure hσ fun b hb => absurd hb List.not_mem_nil
  | cons x rest ih =>
    refine (fresh_respects hσ).bind fun y τ hστ hy => (ih hστ.divided).bind fun bindings ρ hτρ hbindings => ?_
    exact respects_pure hτρ.divided (List.forall_mem_cons.mpr ⟨hτρ.respects _ _ hy, hbindings⟩)

/-- A new record belongs to the party at work if its fields do. -/
theorem newRecord_respects (hσ : σ.Divided own p) {r : Record} (hr : ∀ f ∈ r.fields, f.value.Owned own p σ) :
    (take fun σ => σ.newRecord r).Respects own p σ fun n τ => Value.Owned own p τ (.record n) := by
  have hpasses : σ.Passes own p (σ.newRecord r).2 := hσ.passes_newRecord fun f hf => (hr f hf).isIn
  refine respects_take hpasses (Store.owned_record (by simp [Store.newRecord]) ?_)
  have hrecord : (σ.newRecord r).2.record σ.records.size = r := by simp [Store.newRecord, Store.record]
  intro f hf
  exact hpasses.respects _ _ (hr f (hrecord ▸ hf))

theorem newClosure_respects (hσ : σ.Divided own p) (proc : ProcDef) {env : Env} (henv : env.Owned own p σ) :
    (take fun σ => σ.newClosure ⟨proc, env⟩).Respects own p σ fun c τ => Value.Owned own p τ (.proc (.closure c)) := by
  have hpasses : σ.Passes own p (σ.newClosure ⟨proc, env⟩).2 :=
    hσ.passes_quietly (.newClosure henv.isIn) (.of_log_eq rfl rfl rfl) rfl (fun _ _ => rfl) fun _ _ => rfl
  refine respects_take hpasses (Store.owned_closure (by simp [Store.newClosure]) ?_)
  have hclosure : (σ.newClosure ⟨proc, env⟩).2.closure σ.closures.size = ⟨proc, env⟩ := by
    simp [Store.newClosure, Store.closure]
  rw [show (σ.newClosure ⟨proc, env⟩).1 = σ.closures.size from rfl, hclosure]
  exact hpasses.respects.env henv

/-- A configuration is owned by everybody, since its arguments are complete and its constructor is owned. -/
theorem newConfig_respects (hσ : σ.Divided own p) {args : List Value} {c : ClosureId}
    (hargs : ∀ v ∈ args, v.Complete σ) (hc : Value.Owned own p σ (.proc (.closure c))) :
    (take fun σ => σ.newConfig ⟨args, c⟩).Respects own p σ fun k τ => Value.Owned own p τ (.config k) := by
  have hin : ActorConfig.In σ ⟨args, c⟩ := ⟨fun v hv => (hargs v hv).isIn, hc.isIn⟩
  have hkeeping := newConfig_keeping hσ.closed hσ.intact hin fun v hv => (hargs v hv).whole
  have hpasses : σ.Passes own p (σ.newConfig ⟨args, c⟩).2 :=
    hσ.passes_table (.newConfig hin) hkeeping.2.1 rfl (fun _ d hd => hd.touches hσ.closed (.content d)) fun _ _ => rfl
  have hconfig : (σ.newConfig ⟨args, c⟩).2.config σ.configs.size = ⟨args, c⟩ := by
    simp [Store.newConfig, Store.config]
  refine respects_take hpasses (Store.owned_config (by simp [Store.newConfig]) ?_ ?_)
  · rw [show (σ.newConfig ⟨args, c⟩).1 = σ.configs.size from rfl, hconfig]
    exact fun v hv => hpasses.respects _ _ ((hargs v hv).owned own p)
  · rw [show (σ.newConfig ⟨args, c⟩).1 = σ.configs.size from rfl, hconfig]
    exact hpasses.respects _ _ hc

/-- A new cell belongs to the part that makes it, together with what it holds. -/
theorem newCell_respects (hσ : σ.Divided own p) {t : Term} (ht : t.Owned own p σ) :
    (take fun σ => σ.newCell t).Respects own p σ fun c τ => Value.Owned own p τ (.obj (.cell c)) := by
  have hold : ∀ c < σ.cells.size, (σ.newCell t).2.cell c = σ.cell c := by
    intro c hc
    simp [Store.newCell, Store.cell, Array.getElem?_push, Nat.ne_of_lt hc]
  have hpasses : σ.Passes own p (σ.newCell t).2 :=
    hσ.passes_quietly (.newCell ht.isIn) (.of_log_eq rfl rfl rfl) rfl hold fun _ _ => rfl
  have hcell : (σ.newCell t).2.cell σ.cells.size = t := by simp [Store.newCell, Store.cell]
  refine respects_take hpasses (Store.owned_cell (by simp [Store.newCell]) ?_ ?_)
  · exact hσ.new _ (Nat.lt_irrefl σ.cells.size)
  · rw [show (σ.newCell t).1 = σ.cells.size from rfl, hcell]
    exact hpasses.respects _ _ ht

/-- A new iterator belongs to the part that makes it, together with the record that it walks over. -/
theorem newIterator_respects (hσ : σ.Divided own p) {i : Iterator} (hi : Value.Owned own p σ (.record i.record)) :
    (take fun σ => σ.newIterator i).Respects own p σ fun n τ => Value.Owned own p τ (.proc (.iter n)) := by
  have hold : ∀ n < σ.iterators.size, ((σ.newIterator i).2.iterator n).record = (σ.iterator n).record := by
    intro n hn
    simp [Store.newIterator, Store.iterator, Array.getElem?_push, Nat.ne_of_lt hn]
  have hpasses : σ.Passes own p (σ.newIterator i).2 :=
    hσ.passes_quietly (.newIterator hi.isIn) (.of_log_eq rfl rfl rfl) rfl (fun _ _ => rfl) hold
  have hiterator : (σ.newIterator i).2.iterator σ.iterators.size = i := by simp [Store.newIterator, Store.iterator]
  refine respects_take hpasses (Store.owned_iterator (by simp [Store.newIterator]) ?_ ?_)
  · exact hσ.new _ (Nat.lt_irrefl σ.iterators.size)
  · rw [show (σ.newIterator i).1 = σ.iterators.size from rfl, hiterator]
    exact hpasses.respects _ _ hi

/-- **Setting a cell** to a term of its owner. -/
theorem setCell_respects (hσ : σ.Divided own p) {c : CellId} {t : Term} (hc : Value.Owned own p σ (.obj (.cell c)))
    (ht : t.Owned own p σ) : (update fun σ => σ.setCell c t).Respects own p σ fun _ _ => True := by
  have hstep : Store.TableStep σ (σ.setCell c t) := .setCell c ht.isIn
  have hquiet : σ.Quiet (σ.setCell c t) := .of_log_eq rfl rfl rfl
  have hintact := hquiet.intact hσ.intact hσ.closed ((Store.Evolves.single (.table hstep)).keeps hσ.closed)
  refine respects_update (hσ.passes_table hstep hintact rfl (fun q d hd => ?_) fun _ _ => rfl)
  by_cases hdc : d = c
  · subst hdc
    -- whoever owns the cell is at work
    rw [show (σ.setCell d t).cell d = t by
      have hin : d < σ.cells.size := hc.isIn
      simp [Store.setCell, Store.cell, hin], hc.party_eq hd trivial]
    exact ht
  · rw [show (σ.setCell c t).cell d = σ.cell d by
      simp [Store.setCell, Store.cell, Array.getElem?_setIfInBounds_ne (Ne.symm hdc)]]
    exact hd.touches hσ.closed (.content d)

end Action

end Dataflow
