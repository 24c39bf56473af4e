/-
Whole terms: terms from which nothing incomplete can be reached.

A term refers to what resolving, reading a field of a record, looking at a captured variable, at a part of a
configuration or at the value of a failure leads to. It is whole if on no such way there is an unbound variable, a cell,
a procedure of a cell or an iterator.

None of the ways can change any more. Records, closures, configurations and failures never change, and the variables on
the way have values already, which they keep. So a whole term stays whole, whatever happens to the store.
-/
import Dataflow.Proofs.Evolution

set_option autoImplicit false

namespace Dataflow

/-- A cell, a procedure of a cell, or an iterator. -/
def Value.Forbidden : Value → Prop
  | .obj (.cell _) | .proc (.ofCell _ _) | .proc (.iter _) => True
  | _ => False

namespace Store

/-! ## What a term refers to -/

/-- The term refers to another term directly. -/
inductive Refers (σ : Store) : Term → Term → Prop where
  | value {x : VarId} {v : Value} (h : σ.resolveVar x = .val v) : Refers σ (.var x) (.val v)
  | field {r : RecordId} {f : Field} (h : f ∈ (σ.record r).fields) : Refers σ (.val (.record r)) f.value
  | captured {c : ClosureId} {p : Ident × VarId} (h : p ∈ (σ.closure c).env) :
      Refers σ (.val (.proc (.closure c))) (.var p.2)
  | maker (c : ClosureId) : Refers σ (.val (.proc (.actorMaker c))) (.val (.proc (.closure c)))
  | argument {k : ConfigId} {v : Value} (h : v ∈ (σ.config k).args) : Refers σ (.val (.config k)) (.val v)
  | handlers (k : ConfigId) : Refers σ (.val (.config k)) (.val (.proc (.closure (σ.config k).handlers)))
  | error (f : FailureId) : Refers σ (.val (.failed f)) (.val (σ.failure f).error)

/-- The term itself is incomplete: an unbound variable, or what can never be part of a complete value. -/
def Unfit (σ : Store) : Term → Prop
  | .var x => σ.isBound x = false
  | .val v => v.Forbidden

/-- Nothing incomplete can be reached from the term. -/
def Whole (σ : Store) (t : Term) : Prop := ∀ u, Relation.ReflTransGen σ.Refers t u → ¬ σ.Unfit u

variable {σ τ ρ : Store} {t u : Term}

/-- What a whole term refers to is whole. -/
theorem Whole.refers (h : σ.Whole t) (hrefers : σ.Refers t u) : σ.Whole u :=
  fun w hw => h w (.head hrefers hw)

theorem Whole.not_unfit (h : σ.Whole t) : ¬ σ.Unfit t := h t .refl

/-- A set of terms that contains what its terms refer to, and nothing incomplete, consists of whole terms. -/
theorem whole_of_closed (S : Term → Prop) (hrefers : ∀ t u, S t → σ.Refers t u → S u)
    (hfit : ∀ t, S t → ¬ σ.Unfit t) (ht : S t) : σ.Whole t := by
  intro u hu
  suffices hmem : S u from hfit u hmem
  induction hu with
  | refl => exact ht
  | tail _ hstep ih => exact hrefers _ _ ih hstep

/-- A variable that is whole has a value, which is whole. -/
theorem Whole.resolveVar {x : VarId} (h : σ.Whole (.var x)) : ∃ v, σ.resolveVar x = .val v ∧ σ.Whole (.val v) := by
  rcases hx : σ.resolveVar x with v | y
  · exact ⟨v, rfl, h.refers (.value hx)⟩
  · exact absurd (isBound_of_var hx) h.not_unfit

/-- What refers to nothing and is not incomplete is whole. -/
theorem whole_of_no_reference (hrefers : ∀ u, ¬ σ.Refers t u) (hfit : ¬ σ.Unfit t) : σ.Whole t := by
  refine whole_of_closed (· = t) ?_ ?_ rfl
  · rintro _ u rfl hu
    exact absurd hu (hrefers u)
  · rintro _ rfl
    exact hfit

theorem whole_lit (σ : Store) (l : Literal) : σ.Whole (.val (.lit l)) := whole_of_no_reference nofun nofun

theorem whole_num (σ : Store) (n : Num) : σ.Whole (.val (.num n)) := whole_of_no_reference nofun nofun

/-- A failure is as whole as its value. -/
theorem whole_failed {f : FailureId} (h : σ.Whole (.val (σ.failure f).error)) : σ.Whole (.val (.failed f)) := by
  refine whole_of_closed (fun t => t = .val (.failed f) ∨ σ.Whole t) ?_ ?_ (.inl rfl)
  · rintro t u (rfl | ht) hu
    · cases hu with
      | error => exact .inr h
    · exact .inr (ht.refers hu)
  · rintro t (rfl | ht)
    · nofun
    · exact ht.not_unfit

/-- A record is as whole as its fields. -/
theorem whole_record {r : RecordId} (h : ∀ f ∈ (σ.record r).fields, σ.Whole f.value) :
    σ.Whole (.val (.record r)) := by
  refine whole_of_closed (fun t => t = .val (.record r) ∨ σ.Whole t) ?_ ?_ (.inl rfl)
  · rintro t u (rfl | ht) hu
    · cases hu with
      | field hf => exact .inr (h _ hf)
    · exact .inr (ht.refers hu)
  · rintro t (rfl | ht)
    · nofun
    · exact ht.not_unfit

/-! ## Stores that keep what there is -/

/-- `τ` has everything that `σ` has, and every term with a value keeps it. -/
structure Keeps (σ τ : Store) : Prop where
  grows : σ.Grows τ
  values : ∀ t v, t.In σ → σ.resolve t = .val v → τ.resolve t = .val v

theorem Keeps.refl (σ : Store) : σ.Keeps σ := ⟨.refl σ, fun _ _ _ h => h⟩

theorem Keeps.trans (h : σ.Keeps τ) (h' : τ.Keeps ρ) : σ.Keeps ρ where
  grows := h.grows.trans h'.grows
  values t v ht hv := h'.values t v (h.grows.term ht) (h.values t v ht hv)

/-- Whatever evolves from a closed store keeps what was complete in it. -/
theorem Evolves.keeps (h : σ.Evolves τ) (hσ : σ.Closed) : σ.Keeps τ :=
  ⟨h.grows, fun _ _ ht hv => h.resolve_eq_val hσ ht hv⟩

/-- What leaves the variables and the tables alone. -/
theorem Keeps.of_vars_eq (h : σ.Grows τ) (hvars : τ.vars = σ.vars) : σ.Keeps τ :=
  ⟨h, fun t _ _ hv => (resolve_of_vars_eq hvars t).trans hv⟩

/-- What a store has is the same in every store that it grows to. -/
theorem Grows.closure_eq (h : σ.Grows τ) {c : ClosureId} (hc : c < σ.closures.size) : τ.closure c = σ.closure c := by
  have hold : σ.closures[c]? = some σ.closures[c] := Array.getElem?_eq_getElem hc
  rw [Store.closure, Store.closure, Array.getD_eq_getD_getElem?, Array.getD_eq_getD_getElem?, hold,
    h.closures c _ hold]

theorem Grows.config_eq (h : σ.Grows τ) {k : ConfigId} (hk : k < σ.configs.size) : τ.config k = σ.config k := by
  have hold : σ.configs[k]? = some σ.configs[k] := Array.getElem?_eq_getElem hk
  rw [Store.config, Store.config, Array.getD_eq_getD_getElem?, Array.getD_eq_getD_getElem?, hold,
    h.configs k _ hold]

theorem Grows.failure_eq (h : σ.Grows τ) {f : FailureId} (hf : f < σ.failures.size) : τ.failure f = σ.failure f := by
  have hold : σ.failures[f]? = some σ.failures[f] := Array.getElem?_eq_getElem hf
  rw [Store.failure, Store.failure, Array.getD_eq_getD_getElem?, Array.getD_eq_getD_getElem?, hold,
    h.failures f _ hold]

/-- What a term of a closed store refers to is in the store. -/
theorem Refers.isIn (h : σ.Refers t u) (hσ : σ.Closed) (ht : t.In σ) : u.In σ := by
  cases h with
  | value hv => exact hσ.resolve_val (t := .var _) ht hv
  | @field r f hf => exact hσ.record r f hf
  | @captured c p hp => exact hσ.closure c p hp
  | maker c => exact ht
  | argument hv => exact (hσ.config ht).1 _ hv
  | handlers k => exact (hσ.config ht).2
  | error f => exact hσ.failure f

/-- A term that has a value refers to the same terms in every store that keeps what there is. -/
theorem Refers.of_keeps (h : τ.Refers t u) (hkeeps : σ.Keeps τ) (ht : t.In σ) (hfit : ¬ σ.Unfit t) : σ.Refers t u := by
  cases h with
  | @value x v hv =>
    rcases hx : σ.resolveVar x with w | y
    · have hkept : τ.resolveVar x = .val w := hkeeps.values (.var x) w ht hx
      obtain rfl := Term.val.inj (hkept.symm.trans hv)
      exact .value hx
    · exact absurd (isBound_of_var hx) hfit
  | field hf => exact .field (hkeeps.grows.record_eq ht ▸ hf)
  | captured hp => exact .captured (hkeeps.grows.closure_eq ht ▸ hp)
  | maker c => exact .maker c
  | argument hv => exact .argument (hkeeps.grows.config_eq ht ▸ hv)
  | handlers k =>
    rw [hkeeps.grows.config_eq ht]
    exact .handlers k
  | error f =>
    rw [hkeeps.grows.failure_eq ht]
    exact .error f

/-- **What is whole stays whole.** -/
theorem Whole.keeps (h : σ.Whole t) (hσ : σ.Closed) (ht : t.In σ) (hkeeps : σ.Keeps τ) : τ.Whole t := by
  refine whole_of_closed (fun t => t.In σ ∧ σ.Whole t) ?_ ?_ ⟨ht, h⟩
  · rintro t u ⟨ht, hwhole⟩ hu
    have hold := hu.of_keeps hkeeps ht hwhole.not_unfit
    exact ⟨hold.isIn hσ ht, hwhole.refers hold⟩
  · rintro t ⟨ht, hwhole⟩ hunfit
    cases t with
    | var x =>
      obtain ⟨v, hv, -⟩ := hwhole.resolveVar
      have hbound := isBound_of_val (hkeeps.values (.var x) v ht hv)
      rw [show τ.isBound x = false from hunfit] at hbound
      cases hbound
    | val v => exact hwhole.not_unfit hunfit

/-! ## Stores all of whose complete values are whole -/

end Store

/-- What the envelope carries. -/
def Envelope.payload : Envelope → Value
  | .request v _ _ | .notify v | .response v _ => v

/-- What an envelope carries is in its store. -/
theorem Envelope.payload_in {σ : Store} (e : Envelope) (h : e.In σ) : e.payload.In σ := by
  cases e with
  | request _ _ _ | response _ _ => exact h.1
  | notify _ => exact h

namespace Store

variable {σ τ : Store}

/-- All that has been completed is whole: the values of failures, the arguments of configurations and what the
envelopes in the log carry. -/
structure Intact (σ : Store) : Prop where
  errors : ∀ f ∈ σ.failures, σ.Whole (.val f.error)
  arguments : ∀ c ∈ σ.configs, ∀ v ∈ c.args, σ.Whole (.val v)
  payloads : ∀ recipient e, .send recipient e ∈ σ.effects → σ.Whole (.val e.payload)

theorem intact_empty : ({} : Store).Intact := by
  constructor <;> simp

namespace Intact

/-- A number that leads nowhere stands for what is whole. -/
theorem failure (h : σ.Intact) (f : FailureId) : σ.Whole (.val (σ.failure f).error) := by
  rw [Store.failure, Array.getD_eq_getD_getElem?]
  rcases hf : σ.failures[f]? with _ | failure
  · exact σ.whole_lit .null
  · exact h.errors failure (Array.mem_of_getElem? hf)

/-- The arguments of each configuration are whole, also where there is none. -/
theorem config (h : σ.Intact) (k : ConfigId) : ∀ v ∈ (σ.config k).args, σ.Whole (.val v) := by
  rw [Store.config, Array.getD_eq_getD_getElem?]
  rcases hk : σ.configs[k]? with _ | config
  · exact fun v hv => absurd hv List.not_mem_nil
  · exact h.arguments config (Array.mem_of_getElem? hk)

/-- A store that keeps what there was is intact if what has been added is whole. -/
theorem of_keeps (h : σ.Intact) (hσ : σ.Closed) (hkeeps : σ.Keeps τ)
    (herrors : ∀ f ∈ τ.failures, f ∈ σ.failures ∨ τ.Whole (.val f.error))
    (harguments : ∀ c ∈ τ.configs, c ∈ σ.configs ∨ ∀ v ∈ c.args, τ.Whole (.val v))
    (hpayloads : ∀ recipient e, .send recipient e ∈ τ.effects →
      .send recipient e ∈ σ.effects ∨ τ.Whole (.val e.payload)) : τ.Intact where
  errors f hf := (herrors f hf).elim (fun hold => (h.errors f hold).keeps hσ (hσ.failures f hold) hkeeps) id
  arguments c hc := (harguments c hc).elim
    (fun hold v hv => (h.arguments c hold v hv).keeps hσ ((hσ.configs c hold).1 v hv) hkeeps) id
  payloads recipient e he := by
    rcases hpayloads recipient e he with hold | hnew
    · exact (h.payloads recipient e hold).keeps hσ (e.payload_in (hσ.effects _ hold)) hkeeps
    · exact hnew

end Intact

end Store

end Dataflow
