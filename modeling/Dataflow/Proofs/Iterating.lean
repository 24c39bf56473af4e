/-
Iterating over a record, whoever calls.

An iterator is shared like any other value: several computations may call it, and each of them may be interrupted
between two calls. Still it is one position in one record. A call whose target has no value yet succeeds, gives the item
at the position, and moves the position on unless it stands behind the last field (`Context.execute_next`). Nothing else
moves it: that is the frame half of the argument, and the longer one, since every instruction has to be looked at
(`Context.spares_execute`).

What a call has given is then kept by everything that happens later, since records never change and terms that resolve
alike go on doing so (`Iterator.Yields`). So in every interleaving of calls with other steps the calls are answered in
the order of the fields, and with `eof` from then on (`Interleaving.walked`).
-/
import Dataflow.Proofs.Faulting
import Dataflow.Proofs.Operations

set_option autoImplicit false

namespace Dataflow

/-! ## Leaving an iterator where it is -/

/-- What an array has stays in every array that begins with it. -/
private theorem getElem?_of_toList_prefix {α : Type} {a b : Array α} {i : Nat} {x : α} (h : a.toList <+: b.toList)
    (hx : a[i]? = some x) : b[i]? = some x := by
  obtain ⟨rest, hrest⟩ := h
  rw [← Array.getElem?_toList] at hx ⊢
  rw [← hrest, List.getElem?_append_left (List.getElem?_eq_some_iff.mp hx).1, hx]

namespace Action

variable {α β : Type} {act : Action α} {i : IterId} {σ τ : Store}

/-- However it ends, the action leaves the iterator where it is. -/
def Spares (i : IterId) (act : Action α) (σ : Store) : Prop :=
  ∀ it, σ.iterators[i]? = some it → (act.after σ).iterators[i]? = some it

/-- A tidy action spares every iterator. -/
theorem Tidy.spares (h : act.Tidy σ) : act.Spares i σ := by
  intro it hit
  rw [Tidy] at h
  rw [after]
  generalize act σ = result at h
  rcases result with ⟨a, τ⟩ | ⟨x | f, τ⟩
  · exact getElem?_of_toList_prefix h hit
  · exact getElem?_of_toList_prefix h hit
  · exact getElem?_of_toList_prefix h.unseen.iterators hit

/-- What follows need only spare the iterator in the stores that the first part can leave behind. -/
theorem Spares.bind {f : α → Action β} (h : act.Spares i σ) (hf : ∀ a τ, act σ = .ok a τ → (f a).Spares i τ) :
    (act >>= f).Spares i σ := by
  intro it hit
  have hact := h it hit
  rw [after] at hact ⊢
  rw [bind_apply]
  rcases heq : act σ with ⟨a, τ⟩ | ⟨e, τ⟩
  · rw [heq] at hact
    exact hf a τ heq it hact
  · rw [heq] at hact
    exact hact

theorem spares_pure (a : α) : (pure a : Action α).Spares i σ := fun _ hit => hit

/-- Only an iterator that moves on is not spared. -/
theorem Step.spares {k : Kind} (h : Step k act) (hk : k ∉ [.advance]) : act.Spares i σ := by
  by_cases hallot : k ∈ allotKinds
  · exact ((h.allots hallot).tidy σ).spares
  by_cases hchange : k ∈ changeKinds
  · exact (h.tidy hchange).spares
  cases h with
  | receiver | address | announce => exact fun _ hit => hit
  | advance => exact absurd (by decide) hk
  | unify | bindVar | setCell | send => exact absurd (by decide) hchange
  | _ => exact absurd (by decide) hallot

/-- Moving an iterator on apart, all steps spare it. -/
theorem Composed.spares {K : List Kind} {Q : α → Prop} (h : act.Composed K Q) (hK : Kind.avoids K [.advance] = true) :
    act.Spares i σ := by
  have hsequenced : Sequenced fun {α} (act : Action α) => ∀ σ, act.Spares i σ :=
    ⟨fun a _ => spares_pure a, fun hact hf σ => (hact σ).bind fun a τ heq => hf a ⟨σ, τ, heq⟩ τ⟩
  exact h.holds hsequenced (fun _ hk _ _ hs σ => hs.spares (Kind.not_mem_of_avoids hK hk)) σ

/-- Moving another iterator on spares this one. -/
theorem spares_nextItem {j : IterId} (hne : j ≠ i) : (take fun σ => σ.nextItem j).Spares i σ := by
  intro it hit
  show (σ.nextItem j).2.iterators[i]? = some it
  obtain ⟨-, hend⟩ | ⟨-, halloc⟩ := σ.nextItem_cases j
  · rw [hend]
    exact hit
  · refine getElem?_of_toList_prefix halloc.iterators ?_
    rw [Store.advance, Store.setIterator, Array.getElem?_setIfInBounds_ne hne]
    exact hit

end Action

section Calls

variable {ctx : Context} {env : Env} {rest : Stack} {i : IterId} {σ : Store}

/-- An iterator is not moved by a call of another one. -/
theorem Proc.spares_next {j : IterId} (hne : j ≠ i) (ctx : Context) (env : Env) (rest : Stack) (target : Operand) :
    ((Proc.iter j).call ctx env [target] rest).Spares i σ := by
  refine Action.Spares.bind ((target.uses_term env).spares rfl) fun t τ _ => ?_
  refine (Action.spares_nextItem hne).bind fun item ρ _ => ?_
  exact (Action.tidy_unify t item).spares.bind fun _ _ _ => Action.spares_pure _

/-- A call spares an iterator unless it is a call of that iterator. -/
theorem Value.spares_call (ctx : Context) (env : Env) (rest : Stack) {v : Value} {args : List Operand}
    (h : ∀ target, ¬(v = .proc (.iter i) ∧ args = [target])) : (v.call ctx env args rest).Spares i σ := by
  by_cases hacts : v.Acts args
  -- natives that spawn do not touch iterators, and another iterator moves only itself
  · cases hacts with
    | spawn config target =>
      exact (Proc.uses_call ctx env [config, target] rest (.native .spawn)).spares rfl
    | next j target =>
      have hne : j ≠ i := fun heq => h target ⟨heq ▸ rfl, rfl⟩
      exact Proc.spares_next hne ctx env rest target
  · exact (Value.phased_call ctx env rest fun h => absurd h hacts).tidy.spares

/-- **An iterator moves when it is called, and not otherwise**: an instruction that does not call it leaves it where it
is, however the instruction ends. -/
theorem Context.spares_execute (ctx : Context) (rest : Stack) {instr : Instr}
    (h : ∀ target, ¬ instr.Calls env σ (.proc (.iter i)) [target]) : (ctx.execute env rest instr).Spares i σ := by
  by_cases hcalls : ∃ v args, instr.Calls env σ v args
  · obtain ⟨v, args, hcalls⟩ := hcalls
    have hother : ∀ target, ¬(v = .proc (.iter i) ∧ args = [target]) := by
      rintro target ⟨rfl, rfl⟩
      exact h target hcalls
    have hspares : (v.call ctx env args rest >>= fun stack => pure (Flow.next stack)).Spares i σ :=
      (Value.spares_call ctx env rest hother).bind fun _ _ _ => Action.spares_pure _
    intro it hit
    rw [Action.after, ctx.execute_of_calls rest hcalls]
    exact hspares it hit
  · have htidy := ctx.tidy_execute rest fun v args hv _ => hcalls ⟨v, args, hv⟩
    exact htidy.spares

end Calls

/-! ## Steps -/

section Steps

variable {σ : Store}

theorem unwind_iterators (owner : Address) (v : Value) (cause : Option Fault) (stack : Stack) (σ : Store) :
    (unwind owner v cause stack σ).2.iterators = σ.iterators := by
  induction stack with
  | nil => rfl
  | cons frame rest ih =>
    cases frame with
    | run => exact ih
    | trap => rfl

theorem raise_iterators (owner : Address) (f : Fault) (stack : Stack) (σ : Store) :
    (raise owner f stack σ).2.iterators = σ.iterators := by
  unfold raise
  split
  · exact unwind_iterators _ _ _ _ _
  · exact unwind_iterators _ _ _ _ _

theorem Store.suspend_iterators (σ : Store) (x : VarId) (k : Continuation) :
    (σ.suspend x k).2.iterators = σ.iterators := by
  rw [suspend]
  split
  · rfl
  · rfl

/-- What follows an instruction in a step has nothing to do with iterators. -/
theorem Context.step_iterators (ctx : Context) (instr : Instr) (env : Env) (rest : Stack) (σ : Store) :
    (ctx.step instr env rest σ).2.iterators = ((ctx.execute env rest instr).after σ).iterators := by
  rw [step, Action.after]
  rcases ctx.execute env rest instr σ with ⟨stack | ⟨v, cause⟩, τ⟩ | ⟨x | f, τ⟩
  · rfl
  · exact unwind_iterators _ _ _ _ _
  · have hsuspend := Store.suspend_iterators τ x ⟨.run instr env :: rest, ctx.resumer⟩
    dsimp only
    generalize τ.suspend x ⟨.run instr env :: rest, ctx.resumer⟩ = result at hsuspend
    obtain ⟨_ | _, ρ⟩ := result
    · exact hsuspend
    · exact hsuspend
  · exact raise_iterators _ _ _ _

end Steps

/-! ## A target without a value -/

namespace Store

variable {σ : Store} {x : VarId}

/-- What is still without a value takes the value of the other side. -/
theorem unify_of_resolve_var {a t : Term} {v : Value} (ha : σ.resolve a = .var x) (ht : σ.resolve t = .val v) :
    σ.unify a t = (none, σ.assign x v) := by
  simp [Store.unify, unifyAll, ha, ht]

/-- A variable without a value can be made equal to every term, and then stands for what the term stands for. -/
theorem unify_unbound (hσ : σ.Closed) (hx : σ.Unbound x) {t : Term} (ht : t.In σ) :
    ∃ τ, σ.unify (.var x) t = (none, τ) ∧ τ.resolve (.var x) = τ.resolve t := by
  have hvar : σ.resolve (.var x) = .var x := hx.resolveVar
  rcases hres : σ.resolve t with v | y
  · have hne : σ.resolve t ≠ .var x := by
      rw [hres]
      exact nofun
    refine ⟨σ.assign x v, unify_of_resolve_var hvar hres, ?_⟩
    rw [resolve_assign_of_eq hσ.linked hx v hvar, resolve_assign_of_ne hσ.linked hx v hne, hres]
  · by_cases hxy : x = y
    · rw [← hxy] at hres
      refine ⟨σ, ?_, ?_⟩
      · simp [Store.unify, unifyAll, hvar, hres]
      · rw [hvar, hres]
    · have hy : σ.Unbound y := hσ.resolve_var ht hres
      refine ⟨σ.merge x y, ?_, ?_⟩
      · simp [Store.unify, unifyAll, hvar, hres, hxy]
      · rw [resolve_merge hσ.linked hx hy hxy (.inl hvar), resolve_merge hσ.linked hx hy hxy (.inr hres)]

end Store

/-! ## Items -/

namespace Iterator

variable {it : Iterator} {σ τ : Store} {n : Nat} {t item : Term}

/-- The item that an iterator has at a place: the value of the field there, or a pair of its feature and its value, or
`eof` if no field is there. -/
def Gives (it : Iterator) (σ : Store) (n : Nat) (item : Term) : Prop :=
  match (σ.record it.record).fields[n]? with
  | none => item = .val (.lit .eof)
  | some f =>
    match it.kind with
    | .values => item = f.value
    | .fields => ∃ q, item = .val (.record q) ∧ q < σ.records.size ∧
        σ.record q = .tuple .null [.val (.ofFeature f.feature), f.value]

/-- The term stands for the item at a place. -/
def Yields (it : Iterator) (σ : Store) (n : Nat) (t : Term) : Prop :=
  ∃ item, it.Gives σ n item ∧ σ.resolve t = σ.resolve item

/-- What an iterator gives is in the store. -/
theorem Gives.isIn (h : it.Gives σ n item) (hσ : σ.Closed) : item.In σ := by
  rw [Gives] at h
  split at h
  · rw [h]
    trivial
  -- a value of the record, or a pair of a feature and a value that has been made for it
  · next f hf =>
    split at h
    · rw [h]
      exact hσ.record it.record f (List.mem_of_getElem? hf)
    · obtain ⟨q, rfl, hq, -⟩ := h
      exact hq

/-- Records never change, and so no item does. -/
theorem Gives.mono (h : it.Gives σ n item) (hit : it.In σ) (hg : σ.Grows τ) : it.Gives τ n item := by
  rw [Gives] at h ⊢
  rw [hg.record_eq hit]
  split at h
  · exact h
  · split at h
    · exact h
    · obtain ⟨q, hitem, hq, hrecord⟩ := h
      refine ⟨q, hitem, hg.value (v := .record q) hq, ?_⟩
      rw [hg.record_eq hq, hrecord]

theorem Yields.mono (h : it.Yields σ n t) (hσ : σ.Closed) (hit : it.In σ) (ht : t.In σ) (hev : σ.Evolves τ) :
    it.Yields τ n t := by
  obtain ⟨item, hgives, hres⟩ := h
  exact ⟨item, hgives.mono hit hev.grows, hev.resolve_congr hσ ht (hgives.isIn hσ) hres⟩

end Iterator

/-! ## One call -/

section Next

variable {σ τ : Store} {i : IterId} {it : Iterator}

theorem Store.iterator_eq (hit : σ.iterators[i]? = some it) : σ.iterator i = it := by
  rw [iterator, Array.getD_eq_getD_getElem?, hit]
  rfl

theorem Store.record_newRecord (σ : Store) (r : Record) : (σ.newRecord r).2.record σ.records.size = r := by
  rw [record, Array.getD_eq_getD_getElem?, newRecord, Array.getElem?_push_size, Option.getD_some]

theorem Store.record_newRecord_of_lt {n : RecordId} (h : n < σ.records.size) (r : Record) :
    (σ.newRecord r).2.record n = σ.record n := by
  rw [record, record, Array.getD_eq_getD_getElem?, Array.getD_eq_getD_getElem?, newRecord, Array.getElem?_push,
    if_neg (Nat.ne_of_lt h)]

/-- The position after a call: the next place, but never behind the place after the last field. -/
def Iterator.moved (it : Iterator) (σ : Store) : Iterator :=
  { it with position := min (it.position + 1) (σ.record it.record).count }

/-- Taking the next item gives the item at the position and moves the iterator. -/
theorem Store.nextItem_spec (hit : σ.iterators[i]? = some it) (hin : it.In σ)
    (hpos : it.position ≤ (σ.record it.record).count) :
    it.Gives (σ.nextItem i).2 it.position (σ.nextItem i).1 ∧
      (σ.nextItem i).2.iterators[i]? = some (it.moved σ) ∧ (σ.nextItem i).2.vars = σ.vars := by
  have hlt : i < σ.iterators.size := (Array.getElem?_eq_some_iff.mp hit).1
  unfold Store.nextItem
  rw [Store.iterator_eq hit]
  dsimp only
  cases hfield : (σ.record it.record).fields[it.position]? with
  | none =>
    have hend : (σ.record it.record).count ≤ it.position := List.getElem?_eq_none_iff.mp hfield
    have hmoved : it.moved σ = it := by
      have hmin : min (it.position + 1) (σ.record it.record).count = it.position := by omega
      rw [Iterator.moved, hmin]
    refine ⟨?_, hmoved.symm ▸ hit, rfl⟩
    simp only [Iterator.Gives, hfield]
  | some f =>
    have hless : it.position < (σ.record it.record).count := (List.getElem?_eq_some_iff.mp hfield).1
    have hmin : min (it.position + 1) (σ.record it.record).count = it.position + 1 := by omega
    let advanced := σ.setIterator i { it with position := it.position + 1 }
    have hiterator : advanced.iterators[i]? = some (it.moved σ) := by
      rw [Iterator.moved, hmin]
      exact Array.getElem?_setIfInBounds_self_of_lt hlt
    -- the record of the iterator is an old one, so neither the move nor the new pair concerns it
    have hold : ∀ pair, (advanced.newRecord pair).2.record it.record = σ.record it.record := fun pair =>
      record_newRecord_of_lt hin pair
    obtain ⟨r, kind, position⟩ := it
    cases kind with
    | values =>
      have hrecord : (Iterator.item ⟨r, .values, position⟩ f advanced).2.record r = σ.record r := rfl
      refine ⟨?_, hiterator, rfl⟩
      rw [Iterator.Gives, hrecord, hfield]
      rfl
    | fields =>
      have hrecord : (Iterator.item ⟨r, .fields, position⟩ f advanced).2.record r = σ.record r := hold _
      refine ⟨?_, hiterator, rfl⟩
      rw [Iterator.Gives, hrecord, hfield]
      refine ⟨advanced.records.size, rfl, ?_, record_newRecord advanced _⟩
      show advanced.records.size < (advanced.records.push _).size
      rw [Array.size_push]
      exact Nat.lt_succ_self _

/-- **A call whose target has no value** goes on, gives the item at the position, and moves the iterator. -/
theorem Context.execute_next (ctx : Context) {env : Env} (rest : Stack) {instr : Instr} {target : Operand} {x : VarId}
    (hσ : σ.Closed) (henv : env.In σ) (hit : σ.iterators[i]? = some it)
    (hpos : it.position ≤ (σ.record it.record).count) (hcalls : instr.Calls env σ (.proc (.iter i)) [target])
    (htarget : target.term env σ = .ok (.var x) σ) :
    ∃ τ, ctx.execute env rest instr σ = .ok (.next rest) τ ∧ τ.iterators[i]? = some (it.moved σ) ∧
      σ.Unbound x ∧ it.Yields τ it.position (.var x) := by
  have hlt : i < σ.iterators.size := (Array.getElem?_eq_some_iff.mp hit).1
  have hin : it.In σ := hσ.iterators it (Array.mem_of_getElem? hit)
  -- the target is unbound, as it stands for itself
  have hx : σ.Unbound x := by
    have hreads := target.term_reads hσ henv
    rw [Action.Reads, htarget] at hreads
    exact hreads.2
  obtain ⟨hgives, hmoved, hvars⟩ := Store.nextItem_spec hit hin hpos
  obtain ⟨hdeeds, hitem⟩ := Store.nextItem_deeds hσ hlt
  have htake : (Action.take fun σ => σ.nextItem i) σ = .ok (σ.nextItem i).1 (σ.nextItem i).2 := rfl
  generalize (σ.nextItem i).1 = item at hgives hitem htake
  generalize (σ.nextItem i).2 = ρ at hgives hmoved hvars hdeeds hitem htake
  have hρ : ρ.Closed := hdeeds.closed hσ
  have hxρ : ρ.Unbound x := hx.imp fun ks hks => hvars ▸ hks
  -- the unbound target takes the item, whatever it is
  obtain ⟨τ, hunify, hres⟩ := Store.unify_unbound hρ hxρ hitem
  have hbinds := Store.unify_binds hρ (a := .var x) hxρ.lt_size hitem
  have hunseen := Store.Unseen.unify ρ (.var x) item
  rw [hunify] at hbinds hunseen
  -- the call succeeds with the iterator one further and the target standing for the item
  refine ⟨τ, ?_, getElem?_of_toList_prefix hunseen.iterators hmoved, hx, item, ?_, hres⟩
  · have hmake : Action.unify (.var x) item ρ = .ok () τ := by
      rw [Action.unify, Action.ofChange, hunify]
    rw [ctx.execute_of_calls rest hcalls]
    simp only [Value.call, Proc.call, bind_apply, htarget, htake, hmake]
    rfl
  · exact hgives.mono (hdeeds.grows.iterator hin) hbinds.evolves.grows

/-- A call that gives a value assigns it to the target. -/
theorem Context.step_next (ctx : Context) {env : Env} {rest : Stack} {instr : Instr} {ρ : Store} {target : Operand}
    {x : VarId} {v : Value} (hcalls : instr.Calls env σ (.proc (.iter i)) [target])
    (htarget : target.term env σ = .ok (.var x) σ) (hitem : σ.nextItem i = (.val v, ρ)) (hx : ρ.Unbound x) :
    ctx.step instr env rest σ = (.next rest, ρ.assign x v) := by
  have htake : (Action.take fun σ => σ.nextItem i) σ = .ok (.val v) ρ := by
    show EStateM.Result.ok (σ.nextItem i).1 (σ.nextItem i).2 = _
    rw [hitem]
  have hunify : Action.unify (.var x) (.val v) ρ = .ok () (ρ.assign x v) := by
    rw [Action.unify, Action.ofChange, Store.unify_of_unbound hx]
  rw [step, ctx.execute_of_calls rest hcalls]
  simp only [Value.call, Proc.call, bind_apply, htarget, htake, hunify]
  rfl

end Next

/-! ## Interleavings -/

/-- What happens to a store while an iterator is in use: computations of any kind call it with targets that have no
value, and between the calls they and others do anything else. The list has the targets of the calls in order. -/
inductive Interleaving (i : IterId) (σ : Store) : List VarId → Store → Prop where
  | start : Interleaving i σ [] σ
  /-- Some computation calls the iterator. -/
  | call {calls : List VarId} {τ : Store} (h : Interleaving i σ calls τ) (ctx : Context) {instr : Instr} {env : Env}
      {rest : Stack} {target : Operand} {x : VarId} (henv : env.In τ) (hrest : rest.In τ)
      (hcalls : instr.Calls env τ (.proc (.iter i)) [target]) (htarget : target.term env τ = .ok (.var x) τ) :
      Interleaving i σ (calls ++ [x]) (ctx.step instr env rest τ).2
  /-- Some computation takes another step. -/
  | step {calls : List VarId} {τ : Store} (h : Interleaving i σ calls τ) (ctx : Context) {instr : Instr} {env : Env}
      {rest : Stack} (henv : env.In τ) (hrest : rest.In τ)
      (hother : ∀ target, ¬ instr.Calls env τ (.proc (.iter i)) [target]) :
      Interleaving i σ calls (ctx.step instr env rest τ).2
  /-- The store is changed from outside. -/
  | change {calls : List VarId} {τ : Store} (h : Interleaving i σ calls τ) {c : Change} (hc : c.Valid τ)
      (hother : ∀ it, c ≠ .setIterator i it) : Interleaving i σ calls (c.apply τ)

/-- How far an iterator has got after some calls from `σ` on, and what the calls have given. -/
structure Iterator.Walked (it : Iterator) (i : IterId) (σ : Store) (calls : List VarId) (τ : Store) : Prop where
  closed : τ.Closed
  grows : σ.Grows τ
  position : τ.iterators[i]? = some { it with position := min calls.length (σ.record it.record).count }
  yields : ∀ (n : Nat) (x : VarId), calls[n]? = some x → x < τ.vars.size ∧ it.Yields τ n (.var x)

section Interleavings

variable {σ τ ρ : Store} {i : IterId} {it : Iterator} {calls : List VarId}

/-- Behind the last field the items are all the same. -/
theorem Iterator.Gives.of_min {n : Nat} {item : Term} (h : it.Gives σ (min n (σ.record it.record).count) item) :
    it.Gives σ n item := by
  obtain hle | hlt := Nat.lt_or_ge (σ.record it.record).count n |>.symm
  · rwa [Nat.min_eq_left hle] at h
  · have hmin : min n (σ.record it.record).count = (σ.record it.record).count := by omega
    have hend : (σ.record it.record).fields[(σ.record it.record).count]? = none :=
      List.getElem?_eq_none_iff.mpr (Nat.le_refl _)
    have hn : (σ.record it.record).fields[n]? = none := List.getElem?_eq_none_iff.mpr (Nat.le_of_lt hlt)
    rw [Gives, hmin, hend] at h
    rw [Gives, hn]
    exact h

/-- A change that is not about the iterator leaves it where it is. -/
theorem Change.iterators_eq (σ : Store) {c : Change} (hother : ∀ it, c ≠ .setIterator i it)
    (hit : σ.iterators[i]? = some it) : (c.apply σ).iterators[i]? = some it := by
  cases c with
  | assign x v =>
    rw [apply, Store.assign_eq]
    exact hit
  | newIterator j => exact getElem?_of_toList_prefix (Store.Allocates.newIterator σ j).iterators hit
  | setIterator n j =>
    have hne : n ≠ i := fun heq => hother j (heq ▸ rfl)
    rw [apply, Store.setIterator, Array.getElem?_setIfInBounds_ne hne]
    exact hit
  | _ => exact hit

/-- What an iterator has given stays given, whoever changes the store. -/
theorem Iterator.Yields.change {n : Nat} {t : Term} {c : Change} (h : it.Yields σ n t) (hσ : σ.Closed) (hit : it.In σ)
    (ht : t.In σ) (hc : c.Valid σ) : it.Yields (c.apply σ) n t := by
  obtain rfl | rfl | hstep := hc.step
  · obtain ⟨item, hgives, hres⟩ := h
    have hvars : (Change.newQueue.apply σ).vars = σ.vars := rfl
    have hsame := Store.resolve_of_vars_eq hvars
    exact ⟨item, hgives, by rw [hsame, hsame, hres]⟩
  · obtain ⟨item, hgives, hres⟩ := h
    have hvars : (Change.takeEffects.apply σ).vars = σ.vars := rfl
    have hsame := Store.resolve_of_vars_eq hvars
    exact ⟨item, hgives, by rw [hsame, hsame, hres]⟩
  · exact h.mono hσ hit ht (.single hstep)

namespace Iterator.Walked

/-- A walk begins with the iterator at the first field, before any call. -/
theorem start (hσ : σ.Closed) (hit : σ.iterators[i]? = some it) (hpos : it.position = 0) : it.Walked i σ [] σ where
  closed := hσ
  grows := .refl σ
  position := by
    rw [List.length_nil, Nat.zero_min, ← hpos]
    exact hit
  yields n x h := by cases h

theorem isIn (h : it.Walked i σ calls τ) : it.In τ := by
  have hmoved := h.closed.iterators _ (Array.mem_of_getElem? h.position)
  exact hmoved

/-- Nothing is lost by what leaves the iterator where it is. -/
theorem later (h : it.Walked i σ calls τ) (hρ : ρ.Closed) (hg : τ.Grows ρ)
    (hposition : ∀ it, τ.iterators[i]? = some it → ρ.iterators[i]? = some it)
    (hyields : ∀ n t, t.In τ → it.Yields τ n t → it.Yields ρ n t) : it.Walked i σ calls ρ where
  closed := hρ
  grows := h.grows.trans hg
  position := hposition _ h.position
  yields n x hx := by
    obtain ⟨hlt, hyield⟩ := h.yields n x hx
    exact ⟨Nat.lt_of_lt_of_le hlt hg.vars, hyields n (.var x) hlt hyield⟩

/-- One more call. -/
theorem call (h : it.Walked i σ calls τ) (hin : it.In σ) (ctx : Context) {instr : Instr} {env : Env} {rest : Stack}
    {target : Operand} {x : VarId} (henv : env.In τ) (hrest : rest.In τ)
    (hcalls : instr.Calls env τ (.proc (.iter i)) [target]) (htarget : target.term env τ = .ok (.var x) τ) :
    ∃ ρ, ctx.execute env rest instr τ = .ok (.next rest) ρ ∧ it.Walked i σ (calls ++ [x]) ρ := by
  -- the record is the one that the walk began with
  have hrecord : τ.record it.record = σ.record it.record := h.grows.record_eq hin
  have hpos : min calls.length (σ.record it.record).count ≤ (τ.record it.record).count := by
    rw [hrecord]
    exact Nat.min_le_right _ _
  obtain ⟨ρ, hexecute, hmoved, hx, hyields⟩ :=
    ctx.execute_next rest h.closed henv h.position hpos hcalls htarget
  have hsafe := ctx.execute_safe h.closed henv hrest instr
  rw [Action.Safe, hexecute] at hsafe
  have hdeeds : τ.Deeds ρ := hsafe.1
  have hinρ : it.In ρ := hdeeds.grows.iterator h.isIn
  have hrecordρ : ρ.record it.record = σ.record it.record := (h.grows.trans hdeeds.grows).record_eq hin
  refine ⟨ρ, hexecute, hdeeds.closed h.closed, h.grows.trans hdeeds.grows, ?_, ?_⟩
  -- the position is the number of calls, up to the number of fields
  · have hmin : min (min calls.length (σ.record it.record).count + 1) (σ.record it.record).count =
        min (calls ++ [x]).length (σ.record it.record).count := by
      rw [List.length_append, List.length_singleton]
      omega
    rw [hmoved, Iterator.moved, hrecord, hmin]
  · intro n y hy
    -- the variable belongs to an earlier call or to this one
    obtain hold | ⟨hn, rfl⟩ : calls[n]? = some y ∨ n = calls.length ∧ x = y := by
      rw [List.getElem?_append] at hy
      split at hy
      · exact .inl hy
      · rw [List.getElem?_singleton] at hy
        split at hy
        · exact .inr ⟨by omega, Option.some.inj hy⟩
        · cases hy
    · obtain ⟨hlt, hyield⟩ := h.yields n y hold
      exact ⟨Nat.lt_of_lt_of_le hlt hdeeds.grows.vars, hyield.mono h.closed h.isIn hlt hdeeds.evolves⟩
    · obtain ⟨item, hgives, hres⟩ := hyields
      refine ⟨Nat.lt_of_lt_of_le hx.lt_size hdeeds.grows.vars, item, ?_, hres⟩
      rw [hn]
      refine Iterator.Gives.of_min ?_
      rw [hrecordρ]
      exact hgives

end Iterator.Walked

/-- **Whatever the interleaving, an iterator walks its record**: after as many calls as there are fields it stands
behind the last one, and each call has given its own item. -/
theorem Interleaving.walked (hσ : σ.Closed) (hit : σ.iterators[i]? = some it) (hpos : it.position = 0)
    (h : Interleaving i σ calls τ) : it.Walked i σ calls τ := by
  have hin : it.In σ := hσ.iterators it (Array.mem_of_getElem? hit)
  -- one more call, something else done by somebody, or a change from outside
  induction h with
  | start => exact .start hσ hit hpos
  | call _ ctx henv hrest hcalls htarget ih =>
    obtain ⟨ρ, hexecute, hwalked⟩ := ih.call hin ctx henv hrest hcalls htarget
    rw [Context.step, hexecute]
    exact hwalked
  | @step calls τ _ ctx instr env rest henv hrest hother ih =>
    have hfollows := ctx.step_follows ih.closed henv hrest instr
    have hevolves := hfollows.evolves
    refine ih.later (hevolves.closed ih.closed) hevolves.grows (fun it hit => ?_) fun n t ht hyield => ?_
    · rw [ctx.step_iterators]
      exact ctx.spares_execute rest hother it hit
    · exact hyield.mono ih.closed ih.isIn ht hevolves
  | change _ hc hother ih =>
    refine ih.later (hc.closed ih.closed) hc.grows (fun it hit => ?_) fun n t ht hyield => ?_
    · exact Change.iterators_eq _ hother hit
    · exact hyield.change ih.closed ih.isIn ht hc

end Interleavings

end Dataflow
