/-
Trespass: computations keep to what is theirs.

A computation of a party starts from a stack that the party owns, and so whatever its instructions look at, bind, set or
pass on is owned by that party too. This is followed through matching, operands and procedures to instructions, and from
there to steps and slices. What is sent has been completed, and so is owned by everybody; only the term that an answer
will be bound to stays with the party that asks, and is named to the recipient for nothing but the answer.
-/
import Dataflow.Proofs.Respect

set_option autoImplicit false

namespace Dataflow

/-- The computation speaks for the party, and is resumed by it. -/
structure Context.Of (p : Party) (ctx : Context) : Prop where
  resumer : ctx.resumer.party = p
  actor : ∀ a, ctx.actor = some a → a.receiver.party = p

variable {own : Ownership} {p : Party} {σ : Store} {env : Env} {rest : Stack}

/-! ## Scopes and operands -/

namespace Env

/-- What an identifier stands for belongs to the owner of the environment. -/
theorem Owned.find? (henv : env.Owned own p σ) {x : Ident} {y : Nat} (h : env.find? x = some y) :
    Term.Owned own p σ (.var y) := by
  induction env with
  | nil => cases h
  | cons b rest ih =>
    have hb := List.forall_mem_cons.mp henv
    rw [Env.find?, List.lookup_cons] at h
    split at h
    · cases h
      exact hb.1
    · exact ih hb.2 h

/-- What an owned scope binds an identifier to is owned. -/
theorem var_owned (henv : env.Owned own p σ) (x : Ident) :
    (env.var x).Reads σ fun y => Term.Owned own p σ (.var y) := by
  rw [Env.var]
  cases h : env.find? x with
  | some y => exact Action.reads_pure (henv.find? h)
  | none => exact Action.reads_fault _

theorem capture_owned (henv : env.Owned own p σ) (idents : List Ident) :
    (env.capture idents).Reads σ (Env.Owned own p σ) := by
  induction idents with
  | nil => exact Action.reads_pure fun b hb => absurd hb List.not_mem_nil
  | cons x rest ih =>
    refine (var_owned henv x).bind fun y hy => ih.bind fun captured hcaptured => ?_
    exact Action.reads_pure (List.forall_mem_cons.mpr ⟨hy, hcaptured⟩)

end Env

/-- The term is what resolving an owned term leaves. -/
structure Term.Seen (own : Ownership) (p : Party) (σ : Store) (t : Term) : Prop where
  resolved : t.Resolved σ
  owned : t.Owned own p σ

theorem Store.Divided.seen (hσ : σ.Divided own p) {t : Term} (ht : t.Owned own p σ) :
    (σ.resolve t).Seen own p σ := ⟨hσ.closed.resolved ht.isIn, ht.resolve hσ.closed⟩

namespace Operand

/-- The term of an operand is owned, and it is resolved. -/
theorem term_owned (hσ : σ.Divided own p) (henv : env.Owned own p σ) (a : Operand) :
    (a.term env).Reads σ (Term.Seen own p σ) := by
  cases a with
  | ident x =>
    refine (Env.var_owned henv x).bind fun y hy => ?_
    exact Action.reads_read (hσ.seen hy)
  | lit s => exact Action.reads_pure ⟨s.toValue_in σ, (s.complete σ).owned own p⟩

theorem value_owned (hσ : σ.Divided own p) (henv : env.Owned own p σ) (a : Operand) :
    (a.value env).Reads σ (Value.Owned own p σ) := by
  refine (a.term_owned hσ henv).bind fun t ht => ?_
  split
  · exact Action.reads_fault _
  · exact Action.reads_pure ht.owned
  · exact Action.reads_block ht.resolved

theorem terms_owned (hσ : σ.Divided own p) (henv : env.Owned own p σ) (args : List Operand) :
    (terms env args).Reads σ fun ts => ∀ t ∈ ts, t.Owned own p σ := by
  induction args with
  | nil => exact Action.reads_pure fun t ht => absurd ht List.not_mem_nil
  | cons a rest ih =>
    refine (a.term_owned hσ henv).bind fun t ht => ih.bind fun ts hts => ?_
    exact Action.reads_pure (List.forall_mem_cons.mpr ⟨ht.owned, hts⟩)

/-- A constant is put into a variable of the party that is at work. -/
theorem toVar_respects (hσ : σ.Divided own p) (henv : env.Owned own p σ) (a : Operand) :
    (a.toVar env).Respects own p σ fun y τ => Term.Owned own p τ (.var y) := by
  cases a with
  | ident x => exact (Env.var_owned henv x).respects hσ fun _ hy => hy
  | lit s => exact Action.boundVar_respects hσ ((s.complete σ).owned own p)

theorem vars_respects (hσ : σ.Divided own p) (henv : env.Owned own p σ) (args : List Operand) :
    (vars env args).Respects own p σ fun ys τ => ∀ y ∈ ys, Term.Owned own p τ (.var y) := by
  induction args generalizing σ with
  | nil => exact Action.respects_pure hσ fun y hy => absurd hy List.not_mem_nil
  | cons a rest ih =>
    refine (a.toVar_respects hσ henv).bind fun y τ hστ hy => ?_
    refine (ih hστ.divided (hστ.respects.env henv)).bind fun ys ρ hτρ hys => ?_
    exact Action.respects_pure hτρ.divided (List.forall_mem_cons.mpr ⟨hτρ.respects _ _ hy, hys⟩)

theorem deliver_respects (hσ : σ.Divided own p) (henv : env.Owned own p σ) (a : Operand) {v : Value}
    (hv : v.Owned own p σ) : (a.deliver env v).Respects own p σ fun _ _ => True :=
  (a.term_owned hσ henv).bind_respects hσ fun _ ht => Action.unify_respects hσ ht.owned hv

end Operand

/-! ## Completing -/

namespace Action

/-- **Completing** leaves everything as it is, and what is complete belongs to everybody. -/
theorem complete_respects (hσ : σ.Divided own p) {t : Term} (ht : t.In σ) :
    (complete t).Respects own p σ fun v τ => v.Complete τ := by
  have hsafe := complete_safe hσ.closed ht
  have hcompletes := complete_completes hσ.closed hσ.intact ht
  rw [Safe] at hsafe
  rw [Completes] at hcompletes
  rw [Respects]
  generalize complete t σ = result at hsafe hcompletes
  cases result with
  | ok v τ => exact ⟨hσ.passes_rebuilds hsafe.1.evolves hcompletes.1, hsafe.2, hcompletes.2⟩
  | error e τ => exact ⟨hσ.passes_rebuilds hsafe.1.evolves hcompletes, hsafe.2⟩

end Action

/-- What is made from a closure stands for itself when it is completed first. -/
theorem Completer.closure_eq {complete : Term → Completer Value} {v w : Value} {c : ClosureId} {done done' : Completed}
    {τ : Store} (hnone : done.closures[c]? = none) (h : Completer.closure complete v c done σ = .ok (w, done') τ) :
    w = v := by
  have hget : ∀ f : Completed → Completer Value, (get >>= f) done = f done done := fun _ => rfl
  have hlast : ∀ (m : Completer Unit) (d : Completed) (ρ : Store),
      (m >>= fun _ => pure v) d ρ = .ok (w, done') τ → w = v := by
    intro m d ρ h
    obtain ⟨_, _, -, hpure⟩ := Action.bind_eq_ok h
    cases hpure
    rfl
  rw [Completer.closure, hget, hnone] at h
  exact hlast _ _ _ h

/-- A configuration that is found complete is handed on as it is. -/
theorem Action.complete_config_eq {k : ConfigId} {v : Value} {τ : Store}
    (h : complete (.val (.config k)) σ = .ok v τ) : v = .config k := by
  have hcomplete : complete (.val (.config k)) σ =
      (Prod.fst <$> Completer.closure (Completer.term (σ.records.size + σ.closures.size)) (.config k)
        (σ.config k).handlers {} : Action Value) σ := rfl
  rw [hcomplete] at h
  simp only [Functor.map, EStateM.map] at h
  split at h
  · next result _ hresult =>
    cases h
    have hnone : ({} : Completed).closures[(σ.config k).handlers]? = none := by simp
    exact Completer.closure_eq hnone hresult
  · cases h

/-- **A configuration that can be completed is complete.** -/
theorem Action.complete_config_respects (hσ : σ.Divided own p) {k : ConfigId} (hk : k < σ.configs.size) :
    (complete (.val (.config k))).Respects own p σ fun _ τ => Value.Complete τ (.config k) := by
  have hrespects := complete_respects hσ (t := .val (.config k)) hk
  rw [Respects] at hrespects ⊢
  cases hresult : complete (.val (.config k)) σ with
  | ok v τ =>
    rw [hresult] at hrespects
    exact ⟨hrespects.1, complete_config_eq hresult ▸ hrespects.2⟩
  | error e τ =>
    rw [hresult] at hrespects
    exact hrespects

/-- Checking the arguments of a call gives values that are complete to the end of the check. -/
theorem Operand.completes_respects (hσ : σ.Divided own p) (henv : env.Owned own p σ) (args : List Operand) :
    (completes env args).Respects own p σ fun vs τ => ∀ v ∈ vs, v.Complete τ := by
  induction args generalizing σ with
  | nil => exact Action.respects_pure hσ fun v hv => absurd hv List.not_mem_nil
  | cons a rest ih =>
    refine (a.term_owned hσ henv).bind_respects hσ fun t ht => ?_
    refine (Action.complete_respects hσ ht.owned.isIn).bind fun v τ hστ hv => ?_
    refine (ih hστ.divided (hστ.respects.env henv)).bind fun vs ρ hτρ hvs => ?_
    have hv' : v.Complete ρ := hv.keeps hστ.divided.closed hτρ.keeps
    exact Action.respects_pure hτρ.divided (List.forall_mem_cons.mpr ⟨hv', hvs⟩)

/-! ## Matching -/

namespace Matcher

variable {α β : Type} {captures : Captures}

/-- The step passes to a divided store, what it has captured is owned, and what it waits for is unbound. -/
def Respects (own : Ownership) (p : Party) (m : Matcher α) (σ : Store) (captures : Captures) : Prop :=
  match m (σ, captures) with
  | .ok _ (τ, found) => σ.Passes own p τ ∧ Env.Owned own p τ found
  | .error e (τ, _) => σ.Passes own p τ ∧ e.In τ

/-- Matchers that keep to their part can be run one after the other. -/
theorem Respects.bind {m : Matcher α} {f : α → Matcher β} (h : m.Respects own p σ captures)
    (hf : ∀ a τ found, σ.Passes own p τ → Env.Owned own p τ found → (f a).Respects own p τ found) :
    (m >>= f).Respects own p σ captures := by
  rw [Respects] at h
  rw [Respects, bind_apply]
  generalize m (σ, captures) = result at h
  cases result with
  | ok a s =>
    have hnext := hf a s.1 s.2 h.1 h.2
    simp only [Respects] at hnext ⊢
    generalize f a s = last at hnext
    cases last with
    | ok b s' => exact ⟨h.1.trans hnext.1, hnext.2⟩
    | error e s' => exact ⟨h.1.trans hnext.1, hnext.2⟩
  | error e s => exact h

theorem respects_pure (hσ : σ.Divided own p) (hcaptures : Env.Owned own p σ captures) (a : α) :
    (pure a : Matcher α).Respects own p σ captures := ⟨.refl hσ, hcaptures⟩

/-- What only reads leaves the captures as they are. -/
theorem reads_bind_respects {act : Action α} {Q : α → Prop} {f : α → Matcher β} (h : act.Reads σ Q)
    (hσ : σ.Divided own p) (hf : ∀ a, Q a → (f a).Respects own p σ captures) :
    (lift act >>= f).Respects own p σ captures := by
  rw [Action.Reads] at h
  rw [Respects, bind_apply, lift]
  generalize act σ = result at h
  cases result with
  | ok a τ =>
    obtain ⟨rfl, hQ⟩ := h
    exact hf a hQ
  | error e τ =>
    obtain ⟨rfl, he⟩ := h
    exact ⟨.refl hσ, he⟩

/-- What is captured is owned, if what is matched is. -/
theorem capture_respects (hσ : σ.Divided own p) (hcaptures : Env.Owned own p σ captures) (x : Ident) {t : Term}
    (ht : t.Owned own p σ) : (capture x t).Respects own p σ captures := by
  cases t with
  | var y => exact ⟨.refl hσ, List.forall_mem_append.mpr ⟨hcaptures, List.forall_mem_singleton.mpr ht⟩⟩
  | val v =>
    have hvar : (Action.boundVar v).Respects own p σ fun y τ => Term.Owned own p τ (.var y) :=
      Action.boundVar_respects hσ ht
    exact ⟨hvar.1, List.forall_mem_append.mpr
      ⟨hvar.1.respects.env hcaptures, List.forall_mem_singleton.mpr hvar.2⟩⟩

end Matcher

/-- The values of the fields are owned. -/
def Record.Owned (own : Ownership) (p : Party) (σ : Store) (r : Record) : Prop := ∀ f ∈ r.fields, f.value.Owned own p σ

theorem Store.Divided.record (hσ : σ.Divided own p) {r : RecordId} (h : Value.Owned own p σ (.record r)) :
    (σ.record r).Owned own p σ := fun _ hf => h.touches hσ.closed (.refers (.field hf))

theorem Record.Owned.select? {r : Record} (h : r.Owned own p σ) {f : Feature} {t : Term}
    (ht : r.select? f = some t) : t.Owned own p σ :=
  h ⟨f, t⟩ (Record.mem_of_select? ht)

mutual

/-- Matching a pattern captures what is owned. -/
theorem Pattern.test_respects : (pattern : Pattern) → {σ : Store} → {captures : Captures} → {t : Term} →
    σ.Divided own p → Env.Owned own p σ captures → t.Owned own p σ → (pattern.test t).Respects own p σ captures
  | .ident x, σ, captures, t, hσ, hcaptures, ht => by
    rw [Pattern.test]
    refine (Matcher.capture_respects hσ hcaptures x ht).bind fun _ τ found hστ hfound => ?_
    exact Matcher.respects_pure hστ.divided hfound true
  | .lit s, σ, captures, t, hσ, hcaptures, ht => by
    have hs : Term.In σ (.val s.toValue) := s.toValue_in σ
    have hentails := Matcher.reads_bind_respects (Action.entails_reads hσ.closed ht.isIn hs) hσ fun answer _ =>
      Matcher.respects_pure hσ hcaptures answer
    rwa [bind_pure] at hentails
  | .record label fields isOpen, σ, captures, t, hσ, hcaptures, ht => by
    rw [Pattern.test]
    refine Matcher.reads_bind_respects (Action.reads_read (hσ.seen ht)) hσ fun u hu => ?_
    -- a record has its fields matched, and no other value captures anything
    cases u with
    | var x => exact ⟨.refl hσ, hu.resolved⟩
    | val v =>
      cases v with
      | record r =>
        have hread : (Action.read fun σ => σ.record r).Reads σ (Record.Owned own p σ) :=
          Action.reads_read (hσ.record hu.owned)
        refine Matcher.reads_bind_respects hread hσ fun record hrecord => ?_
        split
        · exact Matcher.respects_pure hσ hcaptures false
        · split
          · exact Matcher.respects_pure hσ hcaptures false
          · exact Pattern.testFields_respects fields hσ hcaptures hrecord
      | lit _ | num _ | obj _ | proc _ | config _ | failed _ => exact Matcher.respects_pure hσ hcaptures false

/-- So does matching the fields of a pattern. -/
theorem Pattern.testFields_respects : (fields : List (Scalar × Pattern)) → {σ : Store} → {captures : Captures} →
    {r : Record} → σ.Divided own p → Env.Owned own p σ captures → r.Owned own p σ →
    (Pattern.testFields fields r).Respects own p σ captures
  | [], σ, captures, r, hσ, hcaptures, hr => by
    rw [Pattern.testFields]
    exact Matcher.respects_pure hσ hcaptures true
  | (s, pattern) :: rest, σ, captures, r, hσ, hcaptures, hr => by
    rw [Pattern.testFields]
    refine Matcher.reads_bind_respects (Action.reads_check _) hσ fun feature _ => ?_
    cases ht : r.select? feature with
    | none => exact Matcher.respects_pure hσ hcaptures false
    | some t =>
      refine (Pattern.test_respects pattern hσ hcaptures (hr.select? ht)).bind fun answer τ found hστ hfound => ?_
      cases answer with
      | false => exact Matcher.respects_pure hστ.divided hfound false
      | true =>
        exact Pattern.testFields_respects rest hστ.divided hfound fun f hf => hστ.respects _ _ (hr f hf)

end

/-- Matching a term of a part captures terms of that part. -/
theorem Action.matchTerm_respects (hσ : σ.Divided own p) (pattern : Pattern) {t : Term} (ht : t.Owned own p σ) :
    (Action.matchTerm pattern t).Respects own p σ fun found τ =>
      ∀ captures, found = some captures → Env.Owned own p τ captures := by
  have hnothing : Env.Owned own p σ [] := fun b hb => absurd hb List.not_mem_nil
  have htest := pattern.test_respects hσ hnothing ht
  rw [Matcher.Respects] at htest
  rw [Action.Respects, Action.matchTerm]
  generalize pattern.test t (σ, []) = result at htest
  cases result with
  | ok answer s =>
    cases answer with
    | true => exact ⟨htest.1, fun captures h => Option.some.inj h ▸ htest.2⟩
    | false =>
      refine ⟨htest.1, fun captures h => ?_⟩
      cases h
  | error e s => exact htest

/-! ## Procedures that do their work at once -/

theorem wrongCount_respects {α : Type} {Q : α → Store → Prop} (hσ : σ.Divided own p) (name : String) (expected : Nat)
    (args : List Operand) : (wrongCount name expected args : Action α).Respects own p σ Q :=
  Action.respects_fault hσ _

/-- **An actor is announced** with a complete configuration. -/
theorem Context.spawn_respects (hσ : σ.Divided own p) (ctx : Context) {k : ConfigId}
    (hk : Value.Complete σ (.config k)) : (ctx.spawn k).Respects own p σ fun _ _ => True := by
  have hnumber : σ.Passes own p σ.newReceiver.2 :=
    hσ.passes_quietly .newReceiver (.of_log_eq rfl rfl rfl) rfl (fun _ _ => rfl) fun _ _ => rfl
  -- announcing the child says nothing of the old store but that its configuration is complete
  have hannounce : ∀ {τ : Store}, σ.Passes own p τ → ∀ child : ActorRef,
      τ.Passes own p (τ.emit (.spawn child ctx.owner k)) := by
    intro τ hστ child
    have hk' : Value.Complete τ (.config k) := hk.keeps hσ.closed hστ.keeps
    refine hστ.divided.passes_emit hk'.isIn ?_ hk'
    have hevolves : τ.Evolves (τ.emit (.spawn child ctx.owner k)) := .single (.table (.emit hk'.isIn))
    refine hστ.divided.intact.of_keeps hστ.divided.closed (hevolves.keeps hστ.divided.closed) (fun _ => .inl)
      (fun _ => .inl) fun recipient e he => .inl ?_
    rcases Array.mem_push.mp he with hold | hnew
    · exact hold
    · cases hnew
  rw [Context.spawn]
  -- the two refusals, and the two ways in which a child gets its number
  split
  · exact Action.respects_fault hσ _
  · exact Action.respects_fault hσ _
  · exact ⟨hnumber.trans (hannounce hnumber _), trivial⟩
  · have haddress : σ.newReceiver.2.Passes own p (σ.newReceiver.2.newAddress ctx.owner).2 :=
      hnumber.divided.passes_quietly (.newAddress ctx.owner) (.of_log_eq rfl rfl rfl) rfl (fun _ _ => rfl)
        fun _ _ => rfl
    have hboth := hnumber.trans haddress
    exact ⟨hboth.trans (hannounce hboth _), trivial⟩

/-- The record that a value is taken for is owned as the value is. -/
theorem Value.owned_asRecord {v : Value} (hv : v.Owned own p σ) :
    ∀ r, v.asRecord = .ok r → Value.Owned own p σ (.record r) := by
  intro r hr
  cases v with
  | record s =>
    cases hr
    exact hv
  | lit _ | num _ | obj _ | proc _ | config _ | failed _ => cases hr

/-- A cell is owned by whoever owns the value that names it. -/
theorem Value.owned_asCell {v : Value} (hv : v.Owned own p σ) :
    ∀ c, v.asCell = .ok c → Value.Owned own p σ (.obj (.cell c)) := by
  intro c hc
  cases v with
  | obj o =>
    cases o with
    | cell d =>
      cases hc
      exact hv
    | actor _ => cases hc
  | lit _ | num _ | record _ | proc _ | config _ | failed _ => cases hc

/-- A new iterator belongs to the party at work, with the record that it goes through. -/
theorem Native.newIterator_respects (hσ : σ.Divided own p) (henv : env.Owned own p σ) (kind : IterKind)
    (source target : Operand) : (newIterator env kind source target).Respects own p σ fun _ _ => True := by
  refine (source.value_owned hσ henv).bind_respects hσ fun v hv => ?_
  refine (Action.reads_ofExcept (Value.owned_asRecord hv)).bind_respects hσ fun r hr => ?_
  refine (Action.newIterator_respects (i := ⟨r, kind, 0⟩) hσ hr).bind fun i τ hστ hi => ?_
  exact target.deliver_respects hστ.divided (hστ.respects.env henv) hi

namespace Record

/-- A record is owned if the fields are that it is built from. -/
theorem owned_build {label : Literal} {fields : List Field} (h : ∀ f ∈ fields, f.value.Owned own p σ) {r : Record}
    (hr : build label fields = .ok r) : r.Owned own p σ := by
  rw [build] at hr
  split at hr
  · cases hr
  · cases hr
    exact fun f hf => h f (List.mem_mergeSort.mp hf)

theorem owned_assign {r s t : Record} (hr : r.Owned own p σ) (hs : s.Owned own p σ) (ht : r.assign s = .ok t) :
    t.Owned own p σ := by
  refine owned_build (fun f hf => ?_) ht
  rcases List.mem_append.mp hf with hf | hf
  · exact hr f hf
  · exact hs f (List.mem_of_mem_filter hf)

theorem owned_tuple (label : Literal) {values : List Term} (h : ∀ t ∈ values, t.Owned own p σ) :
    (tuple label values).Owned own p σ := by
  have henum : ∀ i, ∀ f ∈ enumerate i values, f.value.Owned own p σ := by
    induction values with
    | nil => exact fun i f hf => absurd hf List.not_mem_nil
    | cons v rest ih =>
      have hv := List.forall_mem_cons.mp h
      exact fun i => List.forall_mem_cons.mpr ⟨hv.1, ih hv.2 (i + 1)⟩
  exact henum 0

end Record

/-- A procedure of the library keeps to the part of its caller. -/
theorem Native.call_respects (hσ : σ.Divided own p) (henv : env.Owned own p σ) (ctx : Context) (n : Native)
    (args : List Operand) : (n.call ctx env args).Respects own p σ fun _ _ => True := by
  unfold Native.call
  -- one case for each procedure with the right number of arguments, and the last for all others
  split
  · next config target =>
    refine (config.value_owned hσ henv).bind_respects hσ fun v hv => ?_
    split
    · next k =>
      -- the child shares nothing with its parent that can change
      refine (Action.complete_config_respects hσ hv.isIn).bind fun _ τ hστ hk => ?_
      refine (ctx.spawn_respects hστ.divided hk).bind fun child ρ hτρ _ => ?_
      exact target.deliver_respects hτρ.divided ((hστ.trans hτρ).respects.env henv)
        ((child.complete ρ).owned own p)
    · exact Action.respects_fault hσ _
  · next content target =>
    refine (content.term_owned hσ henv).bind_respects hσ fun t ht => ?_
    refine (Action.newCell_respects hσ ht.owned).bind fun c τ hστ hc => ?_
    exact target.deliver_respects hστ.divided (hστ.respects.env henv) hc
  · next text target =>
    refine (text.value_owned hσ henv).bind_respects hσ fun v _ => ?_
    refine (Action.reads_check _).bind_respects hσ fun s _ => ?_
    split
    · exact target.deliver_respects hσ henv ((Num.complete _ σ).owned own p)
    · exact Action.respects_fault hσ _
  · next first second target =>
    refine (first.value_owned hσ henv).bind_respects hσ fun v hv => ?_
    refine (second.value_owned hσ henv).bind_respects hσ fun w hw => ?_
    refine (Action.reads_ofExcept (Value.owned_asRecord hv)).bind_respects hσ fun r hr => ?_
    refine (Action.reads_ofExcept (Value.owned_asRecord hw)).bind_respects hσ fun s hs => ?_
    refine (Action.reads_read (Q := fun made => ∀ t, made = .ok t → t.Owned own p σ) fun t =>
      Record.owned_assign (hσ.record hr) (hσ.record hs)).bind_respects hσ fun made hmade => ?_
    refine (Action.reads_ofExcept hmade).bind_respects hσ fun merged hmerged => ?_
    refine (Action.newRecord_respects hσ hmerged).bind fun n τ hστ hn => ?_
    exact target.deliver_respects hστ.divided (hστ.respects.env henv) hn
  · next record target =>
    refine (record.value_owned hσ henv).bind_respects hσ fun v _ => ?_
    refine (Action.reads_check _).bind_respects hσ fun r _ => ?_
    refine (Action.reads_look _).bind_respects hσ fun n _ => ?_
    exact target.deliver_respects hσ henv ((Num.complete _ σ).owned own p)
  -- a new token, and the two iterators, touch nothing that was there
  · next target =>
    have htoken : (Action.take Store.newToken).Respects own p σ fun _ _ => True :=
      Action.respects_take (hσ.passes_quietly .newToken (.of_log_eq rfl rfl rfl) rfl (fun _ _ => rfl) fun _ _ => rfl)
        trivial
    refine htoken.bind fun n τ hστ _ => ?_
    exact target.deliver_respects hστ.divided (hστ.respects.env henv) ((Literal.complete _ τ).owned own p)
  · exact newIterator_respects hσ henv _ _ _
  · exact newIterator_respects hσ henv _ _ _
  · exact wrongCount_respects hσ _ _ _

/-- A procedure of a cell keeps to the part that owns the cell. -/
theorem CellProc.call_respects (hσ : σ.Divided own p) (henv : env.Owned own p σ) {c : CellId}
    (hc : Value.Owned own p σ (.obj (.cell c))) (q : CellProc) (args : List Operand) :
    (q.call c env args).Respects own p σ fun _ _ => True := by
  unfold CellProc.call
  split
  · next target =>
    refine (target.term_owned hσ henv).bind_respects hσ fun t ht => ?_
    have hcontent : (σ.cell c).Owned own p σ := hc.touches hσ.closed (.content c)
    refine (Action.reads_read hcontent).bind_respects hσ fun content hcontent => ?_
    exact Action.unify_respects hσ ht.owned hcontent
  · next content =>
    refine (content.term_owned hσ henv).bind_respects hσ fun t ht => ?_
    exact Action.setCell_respects hσ hc ht.owned
  · exact wrongCount_respects hσ _ _ _

/-- **What is sent** is complete, and the answer to a request goes to the party that asks. -/
theorem ActorProc.send_respects (hσ : σ.Divided own p) (recipient : ActorRef) {e : Envelope}
    (he : e.Owned own recipient.receiver.party σ) : (send recipient e).Respects own p σ fun _ _ => True :=
  Action.respects_update (hσ.passes_send recipient he)

/-- A procedure of an actor keeps to the part of its caller: what it sends is complete, and the target of a request belongs to
the requester. -/
theorem ActorProc.call_respects (hσ : σ.Divided own p) (henv : env.Owned own p σ) {ctx : Context} (hctx : ctx.Of p)
    (a : ActorRef) (q : ActorProc) (args : List Operand) :
    (q.call ctx a env args).Respects own p σ fun _ _ => True := by
  unfold ActorProc.call
  split
  · next message target =>
    split
    · exact Action.respects_fault hσ _
    · next requester hrequester =>
      split
      · exact Action.respects_fault hσ _
      · refine (message.term_owned hσ henv).bind_respects hσ fun m hm => ?_
        refine (Action.complete_respects hσ hm.owned.isIn).bind fun v τ hστ hv => ?_
        refine (target.term_owned hστ.divided (hστ.respects.env henv)).bind_respects hστ.divided fun t ht => ?_
        have htarget : t.Owned own requester.receiver.party τ := hctx.actor requester hrequester ▸ ht.owned
        exact send_respects hστ.divided a (e := .request v requester t) ⟨hv, htarget⟩
  -- a notification has no target
  · next message =>
    refine (message.term_owned hσ henv).bind_respects hσ fun m hm => ?_
    refine (Action.complete_respects hσ hm.owned.isIn).bind fun v τ hστ hv => ?_
    exact send_respects hστ.divided a (e := .notify v) hv
  · exact wrongCount_respects hσ _ _ _
  · exact wrongCount_respects hσ _ _ _

/-! ## Every procedure -/

/-- The value of a feature is complete. -/
theorem Value.ofFeature_complete (f : Feature) (σ : Store) : (Value.ofFeature f).Complete σ := by
  cases f with
  | int n =>
    rw [Value.ofFeature, Value.ofInt64]
    split
    · exact Num.complete _ σ
    · exact Num.complete _ σ
  | str _ | bool _ | eof | null | token _ => exact Literal.complete _ σ

/-- An iterator that moves goes over the same record as before. -/
theorem Store.Divided.passes_move (hσ : σ.Divided own p) {i : IterId} (hi : i < σ.iterators.size) (position : Nat) :
    σ.Passes own p (σ.setIterator i { σ.iterator i with position }) := by
  refine hσ.passes_quietly (.setIterator i (hσ.closed.iterator hi)) (.of_log_eq rfl rfl rfl) rfl (fun _ _ => rfl)
    fun j hj => ?_
  by_cases hji : j = i
  · subst hji
    simp [Store.setIterator, Store.iterator, hi]
  · simp [Store.setIterator, Store.iterator, Array.getElem?_setIfInBounds_ne (Ne.symm hji)]

/-- The next item of an iterator belongs to the part that owns the iterator. -/
theorem Action.nextItem_respects (hσ : σ.Divided own p) {i : IterId} (hi : Value.Owned own p σ (.proc (.iter i))) :
    (take fun σ => σ.nextItem i).Respects own p σ fun t τ => t.Owned own p τ := by
  have hrecord := hσ.record (hi.touches hσ.closed (.source i))
  have hnext : σ.Passes own p (σ.nextItem i).2 ∧ (σ.nextItem i).1.Owned own p (σ.nextItem i).2 := by
    rw [Store.nextItem]
    split
    · exact ⟨.refl hσ, (Literal.complete _ σ).owned own p⟩
    · next f hf =>
      have hmove := hσ.passes_move hi.isIn ((σ.iterator i).position + 1)
      have hvalue := hmove.respects _ _ (hrecord f (List.mem_of_getElem? hf))
      rw [Iterator.item]
      split
      · exact ⟨hmove, hvalue⟩
      -- the feature is put beside the value in a new record
      · have hpair := newRecord_respects hmove.divided (Record.owned_tuple .null (List.forall_mem_cons.mpr
          ⟨(Value.ofFeature_complete f.feature _).owned own p, List.forall_mem_singleton.mpr hvalue⟩))
        exact ⟨hmove.trans hpair.1, hpair.2⟩
  exact respects_take hnext.1 hnext.2

/-- **Applying a constructor of actors** to complete arguments. -/
theorem construct_respects (hσ : σ.Divided own p) (henv : env.Owned own p σ) {c : ClosureId}
    (hc : Value.Owned own p σ (.proc (.closure c))) (args : List Operand) :
    (construct c env args).Respects own p σ fun _ _ => True := by
  refine (Action.reads_look _).bind_respects hσ fun params _ => ?_
  split
  · exact wrongCount_respects hσ _ _ _
  · next target _ =>
    dsimp only
    split
    · exact wrongCount_respects hσ _ _ _
    · refine (Operand.completes_respects hσ henv _).bind fun values τ hστ hvalues => ?_
      refine (Action.newConfig_respects hστ.divided hvalues (hστ.respects _ _ hc)).bind fun k ρ hτρ hk => ?_
      exact target.deliver_respects hτρ.divided ((hστ.trans hτρ).respects.env henv) hk

/-- Entering a closure runs its body with what it captured and with the arguments, all of one part. -/
theorem enter_respects (hσ : σ.Divided own p) (henv : env.Owned own p σ) (hrest : rest.Owned own p σ) {c : ClosureId}
    (hc : Value.Owned own p σ (.proc (.closure c))) (args : List Operand) :
    (enter c env args rest).Respects own p σ fun stack τ => stack.Owned own p τ := by
  have hcaptured : (σ.closure c).env.Owned own p σ := fun b hb => hc.touches hσ.closed (.refers (.captured hb))
  refine (Action.reads_read (Q := fun closure => closure.env.Owned own p σ) hcaptured).bind_respects hσ
    fun closure hclosure => ?_
  dsimp only
  split
  · exact wrongCount_respects hσ _ _ _
  · refine (Operand.vars_respects hσ henv args).bind fun ys τ hστ hys => Action.respects_pure hστ.divided ?_
    have hparams : Env.Owned own p τ (closure.proc.params.zip ys) := fun b hb => hys b.2 (List.of_mem_zip hb).2
    exact (hστ.respects.stack hrest).push ((hστ.respects.env hclosure).extend hparams) _

/-- What is done at once goes on with what was to be done after it. -/
theorem Action.Respects.andThen {act : Action Unit} (h : act.Respects own p σ fun _ _ => True)
    (hrest : rest.Owned own p σ) : (act >>= fun _ => pure rest).Respects own p σ fun stack τ => stack.Owned own p τ :=
  h.bind fun _ _ hστ _ => Action.respects_pure hστ.divided (hστ.respects.stack hrest)

/-- A call keeps to the part of its caller. -/
theorem Proc.call_respects (hσ : σ.Divided own p) (henv : env.Owned own p σ) (hrest : rest.Owned own p σ)
    {ctx : Context} (hctx : ctx.Of p) (args : List Operand) {q : Proc} (hq : Value.Owned own p σ (.proc q)) :
    (q.call ctx env args rest).Respects own p σ fun stack τ => stack.Owned own p τ := by
  cases q with
  | closure c => exact enter_respects hσ henv hrest hq args
  | native n => exact (n.call_respects hσ henv ctx args).andThen hrest
  | ofCell c q => exact (q.call_respects hσ henv (hq.touches hσ.closed (.ofCell c q)) args).andThen hrest
  | ofActor a q => exact (q.call_respects hσ henv hctx a args).andThen hrest
  | iter i =>
    match args with
    | [target] =>
      refine (target.term_owned hσ henv).bind_respects hσ fun t ht => ?_
      refine (Action.nextItem_respects hσ hq).bind fun item τ hστ hitem => ?_
      exact (Action.unify_respects hστ.divided (hστ.respects _ _ ht.owned) hitem).andThen (hστ.respects.stack hrest)
    | [] | _ :: _ :: _ => exact wrongCount_respects hσ _ _ _
  | actorMaker c =>
    exact (construct_respects hσ henv (hq.touches hσ.closed (.refers (.maker c))) args).andThen hrest

/-- Whatever is called, what is to be done next is owned. -/
theorem Value.call_respects (hσ : σ.Divided own p) (henv : env.Owned own p σ) (hrest : rest.Owned own p σ)
    {ctx : Context} (hctx : ctx.Of p) (args : List Operand) {v : Value} (hv : v.Owned own p σ) :
    (v.call ctx env args rest).Respects own p σ fun stack τ => stack.Owned own p τ := by
  unfold Value.call
  split
  · exact Proc.call_respects hσ henv hrest hctx args hv
  · exact Action.respects_fault hσ _
  · exact (Action.reads_look _).bind_respects hσ fun _ _ => Action.respects_fault hσ _

/-! ## Instructions -/

/-- A procedure selected from an object belongs to the owner of the object. -/
theorem Obj.owned_select? {o : Obj} (ho : Value.Owned own p σ (.obj o)) {f : Feature} {q : Proc}
    (h : o.select? f = some q) : Value.Owned own p σ (.proc q) := by
  cases f with
  | str s =>
    rw [Obj.select?] at h
    obtain ⟨before, after, hprocs, -⟩ := List.lookup_eq_some_iff.mp h
    have hmem : (s, q) ∈ o.procs := by
      rw [hprocs]
      exact List.mem_append_right _ List.mem_cons_self
    cases o with
    | cell c =>
      obtain ⟨r, -, hr⟩ := List.mem_map.mp hmem
      cases hr
      exact Store.owned_cellProc ho r
    | actor a =>
      obtain ⟨r, -, hr⟩ := List.mem_map.mp hmem
      cases hr
      exact (ActorProc.complete a r σ).owned own p
  | int _ | bool _ | eof | null | token _ => cases h

/-- What is selected from a value belongs to the owner of the value. -/
theorem Store.Divided.owned_select (hσ : σ.Divided own p) {v : Value} (hv : v.Owned own p σ) {f : Feature} {t : Term}
    (h : σ.select v f = .ok t) : t.Owned own p σ := by
  unfold Store.select at h
  split at h
  · next r =>
    split at h
    · next u hu =>
      cases h
      exact (hσ.record hv).select? hu
    · cases h
  · next o =>
    split at h
    · next q hq =>
      cases h
      exact Obj.owned_select? hv hq
    · cases h
  · cases h

namespace Env

theorem close_respects (hσ : σ.Divided own p) (henv : env.Owned own p σ) (proc : ProcDef) :
    (env.close proc).Respects own p σ fun c τ => Value.Owned own p τ (.proc (.closure c)) :=
  (capture_owned henv proc.captures).bind_respects hσ fun _ hcaptured =>
    Action.newClosure_respects hσ proc hcaptured

theorem fields_owned (hσ : σ.Divided own p) (henv : env.Owned own p σ) (operands : List (Operand × Operand)) :
    (env.fields operands).Reads σ fun fs => ∀ f ∈ fs, f.value.Owned own p σ := by
  induction operands with
  | nil => exact Action.reads_pure fun f hf => absurd hf List.not_mem_nil
  | cons pair rest ih =>
    refine (pair.1.value_owned hσ henv).bind fun v _ => (Action.reads_check _).bind fun feature _ => ?_
    refine (pair.2.term_owned hσ henv).bind fun t ht => ih.bind fun fs hfs => ?_
    exact Action.reads_pure (List.forall_mem_cons.mpr ⟨ht.owned, hfs⟩)

/-- What is selected from an owned record is owned. -/
theorem select_owned (hσ : σ.Divided own p) (henv : env.Owned own p σ) (record feature : Operand) :
    (env.select record feature).Reads σ (Term.Owned own p σ) := by
  refine (record.value_owned hσ henv).bind fun v hv => ?_
  refine (feature.value_owned hσ henv).bind fun w _ => (Action.reads_check _).bind fun f _ => ?_
  refine (Action.reads_read (Q := fun found => ∀ t, found = .ok t → t.Owned own p σ) fun t =>
    hσ.owned_select hv).bind fun found hfound => ?_
  exact Action.reads_ofExcept hfound

end Env

/-- How the computation goes on is owned, and what it throws is complete. -/
def Flow.Owned (own : Ownership) (p : Party) (σ : Store) : Flow → Prop
  | .next stack => stack.Owned own p σ
  | .throw v _ => v.Complete σ

/-- An instruction that ends with an action goes on with what was to be done after it. -/
theorem Action.Respects.goesOn {act : Action Unit} (h : act.Respects own p σ fun _ _ => True)
    (hrest : rest.Owned own p σ) :
    (act >>= fun _ => pure (Flow.next rest)).Respects own p σ fun flow τ => flow.Owned own p τ :=
  h.bind fun _ _ hστ _ => Action.respects_pure hστ.divided (hστ.respects.stack hrest)

/-- An instruction may bind one of its identifiers to what its party owns. -/
theorem Env.bind_respects (hσ : σ.Divided own p) (henv : env.Owned own p σ) (hrest : rest.Owned own p σ) (x : Ident)
    {v : Value} (hv : v.Owned own p σ) :
    (env.bind x v >>= fun _ => pure (Flow.next rest)).Respects own p σ fun flow τ => flow.Owned own p τ := by
  refine Action.Respects.goesOn ?_ hrest
  exact (var_owned henv x).bind_respects hσ fun y hy => Action.unify_respects hσ hy hv

/-- The result of an operator is complete. -/
theorem Value.arith_complete {op : ArithOp} {a b v : Value} (h : a.arith op b = .ok v) : v.Complete σ := by
  unfold Value.arith at h
  split at h
  · cases h
    exact Literal.complete _ σ
  · rcases hm : a.asNum with e | m
    · rw [hm] at h
      cases h
    · rcases hn : b.asNum with e | n
      · rw [hm, hn] at h
        cases h
      · rw [hm, hn] at h
        simp only [bind, Except.bind] at h
        split at h
        · cases h
          exact Num.complete _ σ
        · cases h

/-- **Every instruction** keeps to what is the party's. -/
theorem Context.execute_respects (hσ : σ.Divided own p) (henv : env.Owned own p σ) (hrest : rest.Owned own p σ)
    {ctx : Context} (hctx : ctx.Of p) (instr : Instr) :
    (ctx.execute env rest instr).Respects own p σ fun flow τ => flow.Owned own p τ := by
  -- a truth value or a number that has been computed belongs to everybody
  have hbool : ∀ b : Bool, Value.Owned own p σ (.bool b) := fun b => (Literal.complete (.bool b) σ).owned own p
  cases instr with
  | skip => exact Action.respects_pure hσ hrest
  | seq instrs =>
    refine Action.respects_pure hσ fun f hf => ?_
    rcases List.mem_append.mp hf with hf | hf
    · obtain ⟨i, -, rfl⟩ := List.mem_map.mp hf
      exact henv
    · exact hrest f hf
  | fresh idents body =>
    refine (Action.freshBindings_respects hσ idents).bind fun bindings τ hστ hbindings => ?_
    exact Action.respects_pure hστ.divided
      ((hστ.respects.stack hrest).push ((hστ.respects.env henv).extend hbindings) body)
  | bind x y =>
    refine (Env.var_owned henv x).bind_respects hσ fun target htarget => ?_
    refine (y.term_owned hσ henv).bind_respects hσ fun t ht => ?_
    exact (Action.bindTerm_respects hσ htarget ht.owned).goesOn hrest
  | arith op a b x =>
    refine (a.value_owned hσ henv).bind_respects hσ fun v _ => ?_
    refine (b.value_owned hσ henv).bind_respects hσ fun w _ => ?_
    refine (Action.reads_ofExcept fun r hr => Value.arith_complete (σ := σ) hr).bind_respects hσ fun r hr => ?_
    exact Env.bind_respects hσ henv hrest x (hr.owned own p)
  | negate a x =>
    refine (a.value_owned hσ henv).bind_respects hσ fun v _ => (Action.reads_check _).bind_respects hσ fun n _ => ?_
    exact Env.bind_respects hσ henv hrest x ((Num.complete _ σ).owned own p)
  | not a x =>
    refine (a.value_owned hσ henv).bind_respects hσ fun v _ => (Action.reads_check _).bind_respects hσ fun b _ => ?_
    exact Env.bind_respects hσ henv hrest x (hbool _)
  | rel op a b x =>
    refine (a.value_owned hσ henv).bind_respects hσ fun v _ => ?_
    refine (b.value_owned hσ henv).bind_respects hσ fun w _ => ?_
    refine (Action.reads_check _).bind_respects hσ fun answer _ => ?_
    exact Env.bind_respects hσ henv hrest x (hbool _)
  | entails a b x | disentails a b x =>
    refine (a.term_owned hσ henv).bind_respects hσ fun s hs => ?_
    refine (b.term_owned hσ henv).bind_respects hσ fun t ht => ?_
    refine (Action.entails_reads hσ.closed hs.owned.isIn ht.owned.isIn).bind_respects hσ fun answer _ => ?_
    exact Env.bind_respects hσ henv hrest x (hbool _)
  | cond test yes no =>
    refine (test.value_owned hσ henv).bind_respects hσ fun v _ => (Action.reads_check _).bind_respects hσ fun b _ => ?_
    exact Action.respects_pure hσ (hrest.push henv _)
  | case arg pattern yes no =>
    refine (arg.term_owned hσ henv).bind_respects hσ fun t ht => ?_
    refine (Action.matchTerm_respects hσ pattern ht.owned).bind fun found τ hστ hfound => ?_
    have henv' := hστ.respects.env henv
    have hrest' := hστ.respects.stack hrest
    cases found with
    | some captures =>
      exact Action.respects_pure hστ.divided (hrest'.push (henv'.extend (hfound captures rfl)) yes)
    | none =>
      cases no with
      | some no => exact Action.respects_pure hστ.divided (hrest'.push henv' no)
      | none =>
        exact (Action.reads_look _).bind_respects hστ.divided fun _ _ => Action.respects_fault hστ.divided _
  | attempt body caught handler =>
    have htrap : Stack.Owned own p σ (.trap caught handler env :: rest) := List.forall_mem_cons.mpr ⟨henv, hrest⟩
    exact Action.respects_pure hσ (htrap.push henv body)
  | throw value =>
    refine (value.term_owned hσ henv).bind_respects hσ fun t ht => ?_
    exact (Action.complete_respects hσ ht.owned.isIn).bind fun v τ hστ hv => Action.respects_pure hστ.divided hv
  | apply proc args =>
    refine (proc.value_owned hσ henv).bind_respects hσ fun v hv => ?_
    exact (v.call_respects hσ henv hrest hctx args hv).bind fun stack τ hστ hstack =>
      Action.respects_pure hστ.divided hstack
  | select record feature x =>
    refine (Env.select_owned hσ henv record feature).bind_respects hσ fun t ht => ?_
    refine (Env.var_owned henv x).bind_respects hσ fun y hy => ?_
    exact (Action.unify_respects hσ hy ht).goesOn hrest
  | selectApply record feature args =>
    refine (Env.select_owned hσ henv record feature).bind_respects hσ fun t ht => ?_
    refine (Action.reads_read (hσ.seen ht)).bind_respects hσ fun u hu => ?_
    cases u with
    | var x => exact ⟨.refl hσ, hu.resolved⟩
    | val v =>
      exact (v.call_respects hσ henv hrest hctx args hu.owned).bind fun stack τ hστ hstack =>
        Action.respects_pure hστ.divided hstack
  | createRecord x label fields =>
    refine (Env.label_reads hσ.closed henv.isIn label).bind_respects hσ fun l _ => ?_
    refine (Env.fields_owned hσ henv fields).bind_respects hσ fun fs hfs => ?_
    refine (Action.reads_ofExcept fun r hr => Record.owned_build hfs hr).bind_respects hσ fun r hr => ?_
    refine (Action.newRecord_respects hσ hr).bind fun n τ hστ hn => ?_
    exact Env.bind_respects hστ.divided (hστ.respects.env henv) (hστ.respects.stack hrest) x hn
  | createTuple x label values =>
    refine (Env.label_reads hσ.closed henv.isIn label).bind_respects hσ fun l _ => ?_
    refine (Operand.terms_owned hσ henv values).bind_respects hσ fun ts hts => ?_
    refine (Action.newRecord_respects hσ (Record.owned_tuple _ hts)).bind fun n τ hστ hn => ?_
    exact Env.bind_respects hστ.divided (hστ.respects.env henv) (hστ.respects.stack hrest) x hn
  | createProc x params body =>
    refine (Env.close_respects hσ henv _).bind fun c τ hστ hc => ?_
    exact Env.bind_respects hστ.divided (hστ.respects.env henv) (hστ.respects.stack hrest) x hc
  | createActor x params body =>
    refine (Env.close_respects hσ henv _).bind fun c τ hστ hc => ?_
    exact Env.bind_respects hστ.divided (hστ.respects.env henv) (hστ.respects.stack hrest) x (Store.owned_maker hc)
  | getCell cell x =>
    refine (cell.value_owned hσ henv).bind_respects hσ fun v hv => ?_
    refine (Action.reads_ofExcept (Value.owned_asCell hv)).bind_respects hσ fun c hc => ?_
    refine (Env.var_owned henv x).bind_respects hσ fun y hy => ?_
    have hcontent : (σ.cell c).Owned own p σ := hc.touches hσ.closed (.content c)
    refine (Action.reads_read hcontent).bind_respects hσ fun t ht => ?_
    exact (Action.unify_respects hσ hy ht).goesOn hrest
  | setCell cell value =>
    refine (cell.value_owned hσ henv).bind_respects hσ fun v hv => ?_
    refine (Action.reads_ofExcept (Value.owned_asCell hv)).bind_respects hσ fun c hc => ?_
    refine (value.term_owned hσ henv).bind_respects hσ fun t ht => ?_
    exact (Action.setCell_respects hσ hc ht.owned).goesOn hrest

/-! ## Steps and slices -/

/-- What an instruction leads to is owned. -/
def Outcome.Owned (own : Ownership) (p : Party) (σ : Store) : Outcome → Prop
  | .next stack => stack.Owned own p σ
  | .waiting _ => True
  | .halted f => f < σ.failures.size

/-- An outcome, and the store that the work of a party has passed to. -/
structure Outcome.Passes (own : Ownership) (p : Party) (σ : Store) (result : Outcome × Store) : Prop where
  store : σ.Passes own p result.2
  outcome : result.1.Owned own p result.2

theorem Outcome.Passes.after {τ : Store} {result : Outcome × Store} (h : Passes own p τ result)
    (hστ : σ.Passes own p τ) : Passes own p σ result := ⟨hστ.trans h.store, h.outcome⟩

/-- A thrown value belongs to everybody, also to the handler that takes it. -/
theorem unwind_passes (hσ : σ.Divided own p) (owner : Address) (cause : Option Fault) {v : Value} (hv : v.Complete σ)
    {stack : Stack} (hstack : stack.Owned own p σ) : Outcome.Passes own p σ (unwind owner v cause stack σ) := by
  -- frames are dropped down to the innermost trap
  induction stack with
  | nil => exact ⟨hσ.passes_newFailure hv, by simp [unwind, Outcome.Owned, Store.newFailure]⟩
  | cons f rest ih =>
    have hf := List.forall_mem_cons.mp hstack
    cases f with
    | run instr env => exact ih hf.2
    | trap caught handler env =>
      have hcaught := Action.boundVar_respects hσ (hv.owned own p)
      have henv : Env.Owned own p σ env := hf.1
      refine ⟨hcaught.1, (hcaught.1.respects.stack hf.2).push ?_ handler⟩
      exact (hcaught.1.respects.env henv).extend (List.forall_mem_singleton.mpr hcaught.2)

/-- The error that is thrown for a fault belongs to the party at work. -/
theorem raise_passes (hσ : σ.Divided own p) (owner : Address) (f : Fault) {stack : Stack}
    (hstack : stack.Owned own p σ) : Outcome.Passes own p σ (raise owner f stack σ) := by
  unfold raise
  split
  · next g => exact unwind_passes hσ owner _ ⟨hσ.closed.failure g, hσ.intact.failure g⟩ hstack
  · obtain ⟨hpasses, hcomplete⟩ := hσ.passes_toValue f
    exact (unwind_passes hpasses.divided owner _ hcomplete (hpasses.respects.stack hstack)).after hpasses

/-- **A step** keeps to what is the party's. -/
theorem Context.step_passes (hσ : σ.Divided own p) (henv : env.Owned own p σ) (hrest : rest.Owned own p σ)
    {ctx : Context} (hctx : ctx.Of p) (instr : Instr) : Outcome.Passes own p σ (ctx.step instr env rest σ) := by
  have hexecute := Context.execute_respects hσ henv hrest hctx instr
  rw [Action.Respects] at hexecute
  rw [Context.step]
  generalize ctx.execute env rest instr σ = result at hexecute
  -- the four ends of an instruction
  cases result with
  | ok flow τ =>
    obtain ⟨hστ, hflow⟩ := hexecute
    cases flow with
    | next stack => exact ⟨hστ, hflow⟩
    | throw v cause =>
      exact (unwind_passes hστ.divided ctx.owner cause hflow (hστ.respects.stack hrest)).after hστ
  | error e τ =>
    obtain ⟨hστ, he⟩ := hexecute
    have hrest' := hστ.respects.stack hrest
    cases e with
    | fault f => exact (raise_passes hστ.divided ctx.owner f hrest').after hστ
    | blocked x =>
      -- what is parked belongs to the part that runs
      have hx : τ.Unbound x := he
      have hk : Continuation.Owned own τ ⟨.run instr env :: rest, ctx.resumer⟩ := by
        rw [Continuation.Owned, hctx.resumer]
        exact hrest'.push (hστ.respects.env henv) instr
      dsimp only
      rw [Store.suspend_of_var hx.resolveVar]
      exact ⟨hστ.trans (hστ.divided.passes_park hx hk), trivial⟩

/-- How the computation stands after its slice is owned. -/
def Advice.Owned (own : Ownership) (p : Party) (σ : Store) : Advice → Prop
  | .preempted stack => stack.Owned own p σ
  | .halted f => f < σ.failures.size
  | .ended | .waiting _ => True

/-- The instruction that runs next does so in an environment of the owner of the stack. -/
theorem next?_owned {stack : Stack} (hstack : stack.Owned own p σ) {instr : Instr} {env : Env} {rest : Stack}
    (h : next? stack = some (instr, env, rest)) : env.Owned own p σ ∧ rest.Owned own p σ := by
  induction stack with
  | nil => cases h
  | cons f stack ih =>
    have hf := List.forall_mem_cons.mp hstack
    cases f with
    | run i e =>
      cases h
      exact hf
    | trap _ _ _ => exact ih hf.2 h

/-- **A slice** keeps to what is the party's, and so does what is left of the computation. -/
theorem Context.compute_passes {ctx : Context} (hctx : ctx.Of p) (slice executed : Nat) {stack : Stack}
    (hσ : σ.Divided own p) (hstack : stack.Owned own p σ) :
    σ.Passes own p (ctx.compute slice stack executed σ).store ∧
      (ctx.compute slice stack executed σ).advice.Owned own p (ctx.compute slice stack executed σ).store := by
  -- on the number of instructions that may still be executed
  induction slice generalizing stack executed σ with
  | zero =>
    rw [Context.compute]
    cases hnext : next? stack with
    | none => exact ⟨.refl hσ, trivial⟩
    | some r =>
      obtain ⟨henv, hrest⟩ := next?_owned hstack hnext
      exact ⟨.refl hσ, hrest.push henv r.1⟩
  | succ slice ih =>
    rw [Context.compute]
    cases hnext : next? stack with
    | none => exact ⟨.refl hσ, trivial⟩
    | some r =>
      obtain ⟨henv, hrest⟩ := next?_owned hstack hnext
      obtain ⟨hpasses, houtcome⟩ := Context.step_passes hσ henv hrest hctx r.1
      dsimp only
      generalize ctx.step r.1 r.2.1 r.2.2 σ = result at hpasses houtcome
      obtain ⟨outcome, τ⟩ := result
      cases outcome with
      | next stack =>
        obtain ⟨hmore, hadvice⟩ := ih (executed + 1) hpasses.divided houtcome
        exact ⟨hpasses.trans hmore, hadvice⟩
      | waiting x => exact ⟨hpasses, trivial⟩
      | halted f => exact ⟨hpasses, houtcome⟩

end Dataflow
