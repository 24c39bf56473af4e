/-
Resumption: a computation that waits for a variable is resumed exactly once.

A ledger records every computation that was allowed to wait, with the variable that it was told to wait for.
It is kept beside the store and never looks into it. The invariant compares the two: the computations that
wait at an unbound variable are those of the ledger whose variable is represented by it, and the computations
that have been handed to their resumers are those of the ledger whose variable has a value. Both are equalities
of lists up to order, so a computation that was lost, or kept in two places, or resumed twice, would show.

Binding a variable moves one class of the ledger from the first kind to the second, and merging joins two
classes. Unification, which may fail half way, is a sequence of such moves.
-/
import Dataflow.Proofs.Operations
import Mathlib.Data.List.Perm.Basic

set_option autoImplicit false

namespace Dataflow

/-! ## What has been accepted and what has been resumed -/

/-- The computations that were allowed to wait, each with the variable that it was told to wait for. -/
abbrev Ledger := List (VarId × Continuation)

/-- The computations whose variable satisfies `P`. -/
def Ledger.select (ledger : Ledger) (P : VarId → Bool) : List Continuation :=
  (ledger.filter fun entry => P entry.1).map Prod.snd

/-- The computation that an effect resumes. -/
def Effect.resumed? : Effect → Option Continuation
  | .wake resumer stack => some ⟨stack, resumer⟩
  | .send _ _ | .spawn _ _ _ => none

/-- The computations that have been handed to their resumers. -/
def Store.woken (σ : Store) : List Continuation := σ.effects.toList.filterMap Effect.resumed?

namespace Ledger

variable {ledger : Ledger} {P Q R : VarId → Bool}

theorem select_congr (h : ∀ entry ∈ ledger, P entry.1 = Q entry.1) : ledger.select P = ledger.select Q := by
  rw [select, select, List.filter_congr h]

theorem select_append (l m : Ledger) : select (l ++ m) P = select l P ++ select m P := by
  rw [select, List.filter_append, List.map_append]
  rfl

/-- Whoever is selected has an entry with a variable of the class. -/
theorem mem_select {k : Continuation} : k ∈ ledger.select P ↔ ∃ x, (x, k) ∈ ledger ∧ P x = true := by
  rw [select, List.mem_map]
  constructor
  · rintro ⟨⟨x, k⟩, h, rfl⟩
    exact ⟨x, List.mem_filter.mp h⟩
  · rintro ⟨x, h⟩
    exact ⟨(x, k), List.mem_filter.mpr h, rfl⟩

/-- A class that falls into two disjoint parts. -/
theorem select_or (h : ∀ entry ∈ ledger, P entry.1 = (Q entry.1 || R entry.1))
    (hdisjoint : ∀ x, Q x = true → R x = false) :
    (ledger.select P).Perm (ledger.select Q ++ ledger.select R) := by
  -- `P` is split by `Q`; what is left over of it is `R`
  have hsplit := List.filter_append_perm (fun entry => Q entry.1) (ledger.filter fun entry => P entry.1)
  rw [List.filter_filter, List.filter_filter] at hsplit
  have hQ : ledger.filter (fun entry => Q entry.1 && P entry.1) = ledger.filter fun entry => Q entry.1 := by
    refine List.filter_congr fun entry hentry => ?_
    rw [h entry hentry]
    cases Q entry.1 <;> rfl
  have hR : ledger.filter (fun entry => !Q entry.1 && P entry.1) = ledger.filter fun entry => R entry.1 := by
    refine List.filter_congr fun entry hentry => ?_
    rw [h entry hentry]
    cases hq : Q entry.1 with
    | false => rfl
    | true => rw [hdisjoint _ hq]; rfl
  rw [hQ, hR] at hsplit
  rw [select, select, select, ← List.map_append]
  exact (hsplit.map Prod.snd).symm

/-- Of computations that are all different each is in one class of the ledger. -/
theorem mem_select_iff (hnodup : (ledger.map Prod.snd).Nodup) {x : VarId}
    {k : Continuation} (h : (x, k) ∈ ledger) (P : VarId → Bool) : k ∈ ledger.select P ↔ P x = true := by
  rw [mem_select]
  constructor
  · rintro ⟨z, hz, hP⟩
    have hentry : (x, k) = (z, k) := List.inj_on_of_nodup_map hnodup h hz rfl
    cases hentry
    exact hP
  · exact fun hP => ⟨x, h, hP⟩

theorem select_nodup (hnodup : (ledger.map Prod.snd).Nodup) (P : VarId → Bool) :
    (ledger.select P).Nodup :=
  hnodup.sublist (List.filter_sublist.map _)

end Ledger

namespace Store

variable {σ τ : Store} {x y z : Nat} {ledger : Ledger}

/-! ## Waiting and being bound, after each change -/

theorem waiting_congr (h : τ.vars[z]? = σ.vars[z]?) : τ.waiting z = σ.waiting z := by
  rw [waiting, waiting, h]

/-- Only at unbound variables somebody waits. -/
theorem waiting_of_not_unbound (h : ¬ σ.Unbound z) : σ.waiting z = [] := by
  rw [waiting]
  split
  · next ks hks => exact absurd ⟨ks, hks⟩ h
  · rfl

theorem isBound_congr (h : τ.resolveVar z = σ.resolveVar z) : τ.isBound z = σ.isBound z := by
  rw [isBound, isBound, h]

theorem not_isBound_of_representative (hx : σ.Unbound x) (h : σ.representative z = x) :
    σ.isBound z = false :=
  isBound_of_var ((resolveVar_eq_var_iff_of_unbound hx).mpr h)

/-- Assigning gives a value to the variables that the assigned one stands for, and to no others. -/
theorem isBound_assign (hσ : σ.Linked) (hx : σ.Unbound x) (v : Value) (z : Nat) :
    (σ.assign x v).isBound z = (σ.isBound z || decide (σ.representative z = x)) := by
  by_cases hz : σ.representative z = x
  · have hres : σ.resolve (.var z) = .var x := (resolveVar_eq_var_iff_of_unbound hx).mpr hz
    rw [isBound_of_val (resolve_assign_of_eq hσ hx v hres), decide_eq_true hz, Bool.or_true]
  · have hres : σ.resolve (.var z) ≠ .var x := fun h => hz ((resolveVar_eq_var_iff_of_unbound hx).mp h)
    rw [isBound_congr (resolve_assign_of_ne hσ hx v hres), decide_eq_false hz, Bool.or_false]

/-- Merging gives a value to no variable. -/
theorem isBound_merge (hσ : σ.Linked) (hx : σ.Unbound x) (hy : σ.Unbound y) (hne : x ≠ y) (z : Nat) :
    (σ.merge x y).isBound z = σ.isBound z := by
  by_cases hres : σ.resolve (.var z) = .var (min x y)
  · rw [isBound_of_var (resolve_merge_of_eq hσ hx hy hne hres), isBound_of_var hres]
  · exact isBound_congr (resolve_merge_of_ne hσ hx hy hne hres)

theorem woken_congr (h : τ.effects = σ.effects) : τ.woken = σ.woken := by
  rw [woken, woken, h]

/-- Binding hands over exactly what waited for the variable, in order. -/
theorem woken_assign (σ : Store) (x : VarId) (v : Value) :
    (σ.assign x v).woken = σ.woken ++ σ.waiting x := by
  have hwaiting : ∀ ks : List Continuation,
      (ks.map fun k => Effect.wake k.resumer k.stack).filterMap Effect.resumed? = ks := by
    intro ks
    induction ks with
    | nil => rfl
    | cons k ks ih => exact congrArg (k :: ·) ih
  rw [woken, assign_eq]
  simp only [Array.toList_append, List.filterMap_append, hwaiting]
  rfl

/-! ## The invariant -/

/-- The store and the ledger agree on who waits where and on who has been resumed. -/
structure Accounted (σ : Store) (ledger : Ledger) : Prop where
  isIn : ∀ entry ∈ ledger, entry.1 < σ.vars.size
  waiting : ∀ x, σ.Unbound x → (σ.waiting x).Perm (ledger.select fun z => σ.representative z = x)
  woken : σ.woken.Perm (ledger.select σ.isBound)

theorem accounted_empty : Accounted {} [] := by
  refine ⟨fun entry h => absurd h List.not_mem_nil, fun x hx => ?_, .nil⟩
  exact absurd hx.lt_size (Nat.not_lt_zero x)

/-- Binding a variable resumes the class of the ledger that it represents. -/
theorem Accounted.assign (h : Accounted σ ledger) (hσ : σ.Linked) (hx : σ.Unbound x) (v : Value) :
    Accounted (σ.assign x v) ledger where
  isIn := by
    rw [assign_size]
    exact h.isIn
  waiting z hz := by
    have hstate := assign_getElem? hx v z
    have hne : z ≠ x := by
      rintro rfl
      obtain ⟨ks, hks⟩ := hz
      rw [hstate, if_pos rfl] at hks
      cases hks
    rw [if_neg hne] at hstate
    have hzσ : σ.Unbound z := hz.imp fun ks hks => hstate ▸ hks
    rw [waiting_congr hstate]
    simp only [representative_assign hσ hx]
    exact h.waiting z hzσ
  woken := by
    rw [woken_assign]
    -- what was resumed before and what waited at `x` are the two parts of what is bound now
    refine (h.woken.append (h.waiting x hx)).trans (Ledger.select_or ?_ fun z hbound => ?_).symm
    · exact fun entry _ => isBound_assign hσ hx v entry.1
    · refine decide_eq_false fun hz => ?_
      rw [not_isBound_of_representative hx hz] at hbound
      cases hbound

/-- Merging two variables joins the classes of the ledger that they represent. -/
theorem Accounted.merge (h : Accounted σ ledger) (hσ : σ.Linked) (hx : σ.Unbound x) (hy : σ.Unbound y)
    (hne : x ≠ y) : Accounted (σ.merge x y) ledger where
  isIn := by
    rw [merge_size]
    exact h.isIn
  waiting z hz := by
    have hlt : min x y < max x y := by omega
    have hstate := merge_getElem? hx hy z
    have hmin : z ≠ min x y := by
      intro hmin
      rw [if_pos hmin] at hstate
      exact hz.ne_link hstate
    rw [if_neg hmin] at hstate
    simp only [representative_merge hσ hx hy hne]
    -- only the younger of the two variables represents more than before
    by_cases hmax : z = max x y
    · subst hmax
      rw [if_pos rfl] at hstate
      have hjoined : (σ.merge x y).waiting (max x y) = σ.waiting (max x y) ++ σ.waiting (min x y) := by
        rw [Store.waiting, hstate]
      rw [hjoined]
      refine ((h.waiting _ (hx.max hy)).append (h.waiting _ (hx.min hy))).trans
        (Ledger.select_or (fun entry _ => ?_) fun w hw => ?_).symm
      · by_cases hrep : σ.representative entry.1 = min x y
        · simp [hrep]
        · simp [hrep]
      · refine decide_eq_false fun hrep => ?_
        rw [of_decide_eq_true hw] at hrep
        exact absurd hrep (Nat.ne_of_gt hlt)
    · rw [if_neg hmax] at hstate
      rw [waiting_congr hstate]
      have hzσ : σ.Unbound z := hz.imp fun ks hks => hstate ▸ hks
      refine (h.waiting z hzσ).trans (.of_eq (Ledger.select_congr fun entry _ => ?_))
      by_cases hrep : σ.representative entry.1 = min x y
      · simp [hrep, Ne.symm hmin, Ne.symm hmax]
      · simp [hrep]
  woken := by
    rw [woken_congr (rfl : (σ.merge x y).effects = σ.effects)]
    exact h.woken.trans (.of_eq (Ledger.select_congr fun entry _ => (isBound_merge hσ hx hy hne _).symm))

/-- The ledger stays right through any number of bindings. -/
theorem Accounted.bindsMany (h : Accounted σ ledger) (hσ : σ.Closed) (hbinds : σ.BindsMany τ) :
    Accounted τ ledger := by
  induction hbinds with
  | refl => exact h
  | tail hrun hstep ih =>
    have hlinked := ((BindsMany.evolves hrun).closed hσ).linked
    cases hstep with
    | assign hx => exact ih.assign hlinked hx _
    | merge hx hy hne => exact ih.merge hlinked hx hy hne

/-- Parking a computation and entering it in the ledger go together. -/
theorem Accounted.park (h : Accounted σ ledger) (hσ : σ.Linked) (hx : x < σ.vars.size)
    (hres : σ.resolveVar x = .var y) (k : Continuation) : Accounted (σ.park y k) (ledger ++ [(x, k)]) where
  isIn entry hentry := by
    rw [park_size]
    rcases List.mem_append.mp hentry with hold | hnew
    · exact h.isIn entry hold
    · rw [List.mem_singleton.mp hnew]
      exact hx
  waiting z hz := by
    have hy : σ.Unbound y := unbound_of_resolveVar hσ hx hres
    have hrep : σ.representative x = y := (resolveVar_eq_var.mp hres).1
    have hstate := park_getElem? hy k z
    simp only [representative_park hσ hy, Ledger.select_append]
    by_cases hzy : z = y
    · subst hzy
      rw [if_pos rfl] at hstate
      have hlonger : (σ.park z k).waiting z = σ.waiting z ++ [k] := by
        rw [Store.waiting, hstate]
      -- the new entry belongs to the class of the variable at which it was parked
      have hnew : Ledger.select [(x, k)] (fun w => σ.representative w = z) = [k] := by
        simp [Ledger.select, hrep]
      rw [hlonger, hnew]
      exact (h.waiting z hy).append_right [k]
    · rw [if_neg hzy] at hstate
      have hzσ : σ.Unbound z := hz.imp fun ks hks => hstate ▸ hks
      have hnew : Ledger.select [(x, k)] (fun w => σ.representative w = z) = [] := by
        simp [Ledger.select, hrep, Ne.symm hzy]
      rw [waiting_congr hstate, hnew, List.append_nil]
      exact h.waiting z hzσ
  woken := by
    have hy : σ.Unbound y := unbound_of_resolveVar hσ hx hres
    have hbound : ∀ z, (σ.park y k).isBound z = σ.isBound z := fun z =>
      isBound_congr (resolve_park hσ hy k (.var z))
    have hnew : Ledger.select [(x, k)] σ.isBound = [] := by
      simp [Ledger.select, isBound_of_var hres]
    rw [funext hbound, Ledger.select_append, hnew, List.append_nil]
    exact h.woken

/-- Nothing of the ledger concerns a new variable. -/
theorem Accounted.newVar (h : Accounted σ ledger) (hσ : σ.Linked) {s : VarState} (hlink : ∀ y, s ≠ .link y)
    (hwait : ∀ ks, s = .unbound ks → ks = []) : Accounted (σ.newVar s).2 ledger where
  isIn entry hentry := by
    rw [newVar_size]
    exact Nat.lt_succ_of_lt (h.isIn entry hentry)
  waiting z hz := by
    have hstate := newVar_getElem? σ s z
    simp only [representative_newVar hσ hlink]
    by_cases hzn : z = σ.vars.size
    -- the entries are about older variables, and representatives of older variables are older
    · have hnone : (σ.newVar s).2.waiting z = [] := by
        rw [if_pos hzn] at hstate
        rw [Store.waiting, hstate]
        split
        · next ks hks => exact hwait ks (Option.some.inj hks)
        · rfl
      have hempty : ledger.select (fun w => σ.representative w = z) = [] := by
        rw [Ledger.select, List.map_eq_nil_iff, List.filter_eq_nil_iff]
        intro entry hentry hrep
        have hlt := representative_lt_size (h.isIn entry hentry)
        rw [of_decide_eq_true hrep, hzn] at hlt
        exact Nat.lt_irrefl _ hlt
      rw [hnone, hempty]
    · rw [if_neg hzn] at hstate
      have hzσ : σ.Unbound z := hz.imp fun ks hks => hstate ▸ hks
      rw [waiting_congr hstate]
      exact h.waiting z hzσ
  woken := by
    have hold : ledger.select (σ.newVar s).2.isBound = ledger.select σ.isBound :=
      Ledger.select_congr fun entry hentry => isBound_congr (resolveVar_newVar hσ hlink (h.isIn entry hentry))
    rw [hold]
    exact h.woken

/-- A step on the tables leaves the account of the continuations in order. -/
theorem Accounted.table (h : Accounted σ ledger) (hstep : TableStep σ τ) (heffects : τ.effects = σ.effects) :
    Accounted τ ledger := by
  have hvars := hstep.vars_eq
  have hrep := funext (representative_of_vars_eq hvars)
  have hbound : τ.isBound = σ.isBound := funext fun z => isBound_congr (resolve_of_vars_eq hvars (.var z))
  refine ⟨?_, fun z hz => ?_, ?_⟩
  · rw [hvars]
    exact h.isIn
  · have hwaiting : τ.waiting z = σ.waiting z := waiting_congr (by rw [hvars])
    rw [hwaiting, hrep]
    exact h.waiting z (by rwa [Unbound, ← hvars])
  · rw [woken_congr heffects, hbound]
    exact h.woken

/-- **One call keeps the accounts.** -/
theorem Accounted.does (h : Accounted σ ledger) (hσ : σ.Closed) {l : Ledger} (hdoes : VarOp.Does σ τ l) :
    Accounted τ (ledger ++ l) := by
  cases hdoes with
  | binds hbinds =>
    rw [List.append_nil]
    exact h.bindsMany hσ hbinds
  | parks hx hres hk => exact h.park hσ.linked hx hres _
  | makes hlink hwait hin =>
    rw [List.append_nil]
    exact h.newVar hσ.linked hlink hwait

/-! ## Histories -/

/-- The store and the ledger after any sequence of calls, with anything else that happens in between outside
the variables and resumes nothing. -/
inductive History : Store → Ledger → Prop where
  | start : History {} []
  | call {σ : Store} {ledger : Ledger} (h : History σ ledger) (op : VarOp) (hop : op.In σ) :
      History (op.run σ) (ledger ++ op.accepted σ)
  | elsewhere {σ τ : Store} {ledger : Ledger} (h : History σ ledger) (hstep : TableStep σ τ)
      (heffects : τ.effects = σ.effects) : History τ ledger

theorem History.closed (h : History σ ledger) : σ.Closed := by
  induction h with
  | start => exact closed_empty
  | call _ op hop ih => exact (op.run_evolves ih hop).closed ih
  | elsewhere _ hstep _ ih => exact hstep.closed ih

/-- The ledger of a history is right. -/
theorem History.accounted (h : History σ ledger) : Accounted σ ledger := by
  induction h with
  | start => exact accounted_empty
  | call h op hop ih => exact ih.does h.closed (op.run_cases h.closed hop)
  | elsewhere _ hstep heffects ih => exact ih.table hstep heffects

/-- **Exactly-once resumption.** After any sequence of calls, whether they succeeded or not, and up to order: at
an unbound variable wait the accepted computations whose variable it represents, and the resumed computations
are the accepted ones whose variable has a value. So if all accepted computations are different, each of them waits at one variable, once,
namely at the representative of its variable, as long as that is unbound, and has been resumed once from then
on. Bound and linked variables hold none. A computation is refused by a variable with a value, without a
trace, and accepted by any other. -/
theorem History.exactlyOnce (h : History σ ledger) :
    (∀ x, σ.Unbound x → (σ.waiting x).Perm (ledger.select fun z => σ.representative z = x)) ∧
    σ.woken.Perm (ledger.select σ.isBound) ∧
    (∀ x k, (x, k) ∈ ledger → σ.isBound x = false → σ.Unbound (σ.representative x)) ∧
    ((ledger.map Prod.snd).Nodup →
      σ.woken.Nodup ∧ (∀ x, (σ.waiting x).Nodup) ∧ ∀ x k, (x, k) ∈ ledger →
        (∀ y, k ∈ σ.waiting y ↔ σ.isBound x = false ∧ y = σ.representative x) ∧
        (k ∈ σ.woken ↔ σ.isBound x = true)) ∧
    (∀ x : Nat, (∃ v, σ.vars[x]? = some (.bound v)) ∨ (∃ y, σ.vars[x]? = some (.link y)) → σ.waiting x = []) ∧
    (∀ x k, σ.isBound x = true → σ.suspend x k = (false, σ)) ∧
    ∀ x k, σ.isBound x = false → (σ.suspend x k).1 = true := by
  have hacc := h.accounted
  have hlinked := h.closed.linked
  have hunbound : ∀ x k, (x, k) ∈ ledger → σ.isBound x = false → σ.Unbound (σ.representative x) :=
    fun x k hxk => unbound_of_not_isBound hlinked (hacc.isIn _ hxk)
  refine ⟨hacc.waiting, hacc.woken, hunbound, fun hnodup => ⟨?_, fun x => ?_, fun x k hxk => ⟨fun y => ?_, ?_⟩⟩,
    fun x hx => ?_, fun x k hx => ?_, fun x k hx => ?_⟩
  · exact hacc.woken.nodup_iff.mpr (Ledger.select_nodup hnodup _)
  · by_cases hx : σ.Unbound x
    · exact (hacc.waiting x hx).nodup_iff.mpr (Ledger.select_nodup hnodup _)
    · rw [waiting_of_not_unbound hx]
      exact List.nodup_nil
  -- a list that holds `k` is that of the representative, since `k` is in one class of the ledger only
  · constructor
    · intro hk
      have hy : σ.Unbound y := by
        by_contra hy
        rw [waiting_of_not_unbound hy] at hk
        exact absurd hk List.not_mem_nil
      have hrep := (Ledger.mem_select_iff hnodup hxk _).mp ((hacc.waiting y hy).mem_iff.mp hk)
      exact ⟨not_isBound_of_representative hy (of_decide_eq_true hrep), (of_decide_eq_true hrep).symm⟩
    · rintro ⟨hx, rfl⟩
      refine (hacc.waiting _ (hunbound x k hxk hx)).mem_iff.mpr ?_
      exact (Ledger.mem_select_iff hnodup hxk _).mpr (decide_eq_true rfl)
  · exact hacc.woken.mem_iff.trans (Ledger.mem_select_iff hnodup hxk _)
  · refine waiting_of_not_unbound fun ⟨ks, hks⟩ => ?_
    rcases hx with ⟨v, hv⟩ | ⟨y, hy⟩
    · cases hks.symm.trans hv
    · cases hks.symm.trans hy
  · obtain ⟨v, hv⟩ := isBound_eq_true.mp hx
    exact suspend_of_val hv k
  · rw [suspend_of_var (resolveVar_of_not_isBound hx)]

/-- An observer waits for a variable and the variable is then bound: the observer has been resumed, once. -/
theorem History.exactlyOnce_observer :
    ∃ σ : Store, History σ [(0, ⟨[], .tag "observer"⟩)] ∧ σ.isBound 0 = true ∧
      σ.woken = [⟨[], .tag "observer"⟩] ∧ ∀ x, ⟨[], .tag "observer"⟩ ∉ σ.waiting x := by
  let k : Continuation := ⟨[], .tag "observer"⟩
  let σ₁ : Store := ({} : Store).freshVar.2
  have hmade : History σ₁ [] := History.start.call .new trivial
  have hfresh : σ₁.Unbound 0 := ⟨[], rfl⟩
  have hk : k.In σ₁ := fun f hf => absurd hf List.not_mem_nil
  have hparked : History (σ₁.park 0 k) [(0, k)] := by
    have hcall := hmade.call (.suspend 0 k) ⟨hfresh.lt_size, hk⟩
    rwa [VarOp.run, VarOp.accepted, suspend_of_var hfresh.resolveVar k] at hcall
  have hwaits : (σ₁.park 0 k).Unbound 0 := ⟨[k], by rw [park_getElem? hfresh]; rfl⟩
  have hassign : (VarOp.bindValue 0 (.lit .null)).run (σ₁.park 0 k) = (σ₁.park 0 k).assign 0 (.lit .null) := by
    rw [VarOp.run, Action.bindValue, Action.unify, VarOp.after_ofChange]
    simp [Store.unify, unifyAll, Store.resolve, hwaits.resolveVar]
  have hdone := hparked.call (.bindValue 0 (.lit .null)) ⟨hwaits.lt_size, trivial⟩
  rw [hassign] at hdone
  have hbound : ((σ₁.park 0 k).assign 0 (.lit .null)).isBound 0 = true := by
    rw [isBound_assign hparked.closed.linked hwaits, hwaits.representative, decide_eq_true rfl, Bool.or_true]
  obtain ⟨-, hwoken, -, hone, -⟩ := hdone.exactlyOnce
  obtain ⟨-, -, hplace⟩ := hone (List.nodup_singleton k)
  refine ⟨_, hdone, hbound, ?_, fun x hx => ?_⟩
  · have hselect : Ledger.select [(0, k)] ((σ₁.park 0 k).assign 0 (.lit .null)).isBound = [k] := by
      simp [Ledger.select, hbound]
    exact List.perm_singleton.mp (hselect ▸ hwoken)
  · have hfalse := (((hplace 0 k List.mem_cons_self).1 x).mp hx).1
    rw [hbound] at hfalse
    cases hfalse

end Store

end Dataflow
