/-
Outstanding resumptions: how often an activity is going to be resumed.

A computation that waits is kept with the variable that it waits for; when the variable is bound, the resumption goes to
the log, and delivery puts it into the mailbox of the actor. On this way it is neither lost nor doubled: deeds may move
computations from one variable to another, or from a variable to the log, but their number stays the same, and only a
computation that begins to wait makes it greater. The number is counted for one resumer at a time.
-/
import Dataflow.Proofs.Actor.Outside
import Mathlib.Algebra.GroupWithZero.Nat

set_option autoImplicit false

namespace Dataflow

/-! ## Counting -/

/-- The computations that wait in the state. -/
def VarState.waiters : VarState → List Continuation
  | .unbound ks => ks
  | .bound _ | .link _ => []

/-- The effect resumes a computation of `r`. -/
def Effect.resumes (r : Resumer) : Effect → Bool
  | .wake r' _ => r' == r
  | .send _ _ | .spawn _ _ _ => false

/-- The number of these computations that are of `r`. -/
def countFor (r : Resumer) (ks : List Continuation) : Nat := ks.countP fun k => k.resumer == r

namespace Store

/-- The number of computations of `r` that wait for a variable. -/
def parkedFor (σ : Store) (r : Resumer) : Nat := (σ.vars.toList.map fun s => countFor r s.waiters).sum

/-- The number of computations of `r` that the log resumes. -/
def resumedFor (σ : Store) (r : Resumer) : Nat := σ.effects.toList.countP (Effect.resumes r)

/-- The number of computations of `r` that wait or that are to be resumed. -/
def outstanding (σ : Store) (r : Resumer) : Nat := σ.parkedFor r + σ.resumedFor r

end Store

section Sums

variable {α : Type} {f : α → Nat} {l : List α}

/-- Replacing one of several summands. -/
theorem sum_map_set {i : Nat} {old : α} (h : l[i]? = some old) (new : α) :
    ((l.set i new).map f).sum + f old = (l.map f).sum + f new := by
  induction l generalizing i with
  | nil => cases h
  | cons a l ih =>
    cases i with
    | zero =>
      obtain rfl := Option.some.inj h
      simp only [List.set_cons_zero, List.map_cons, List.sum_cons]
      omega
    | succ i =>
      have hrest := ih (i := i) h
      simp only [List.set_cons_succ, List.map_cons, List.sum_cons]
      omega

/-- A sum of natural numbers is zero if every summand is, and only then. -/
theorem sum_map_eq_zero : (l.map f).sum = 0 ↔ ∀ (i : Nat) (a : α), l[i]? = some a → f a = 0 := by
  induction l with
  | nil => simp
  | cons b l ih =>
    rw [List.map_cons, List.sum_cons, Nat.add_eq_zero_iff, ih]
    constructor
    · rintro ⟨hb, hrest⟩ i a ha
      cases i with
      | zero => exact Option.some.inj ha ▸ hb
      | succ i => exact hrest i a ha
    · exact fun h => ⟨h 0 b rfl, fun i a ha => h (i + 1) a ha⟩

/-- If the sum is one, then one of the summands is one and all others are zero. -/
theorem one_of_sum (h : (l.map f).sum = 1) :
    ∃ (i : Nat) (a : α), l[i]? = some a ∧ f a = 1 ∧ ∀ (j : Nat) (b : α), j ≠ i → l[j]? = some b → f b = 0 := by
  induction l with
  | nil => cases h
  | cons a l ih =>
    simp only [List.map_cons, List.sum_cons] at h
    by_cases ha : f a = 0
    · obtain ⟨i, b, hb, hone, hzero⟩ := ih (by omega)
      refine ⟨i + 1, b, hb, hone, fun j c hj hc => ?_⟩
      cases j with
      | zero =>
        obtain rfl := Option.some.inj hc
        exact ha
      | succ j => exact hzero j c (fun h => hj (congrArg (· + 1) h)) hc
    · refine ⟨0, a, rfl, by omega, fun j c hj hc => ?_⟩
      cases j with
      | zero => exact absurd rfl hj
      | succ j =>
        exact sum_map_eq_zero.mp (by omega) j c hc

end Sums

namespace Store

variable {σ τ : Store} {r : Resumer} {x y : Nat}

theorem countFor_append (r : Resumer) (ks ls : List Continuation) :
    countFor r (ks ++ ls) = countFor r ks + countFor r ls := List.countP_append

theorem waiting_of_getElem? {s : VarState} (h : σ.vars[x]? = some s) : σ.waiting x = s.waiters := by
  rw [waiting, h]
  cases s <;> rfl

/-- Setting a variable replaces what waits for it. -/
theorem parkedFor_setVar (hx : x < σ.vars.size) (s : VarState) :
    (σ.setVar x s).parkedFor r + countFor r (σ.waiting x) = σ.parkedFor r + countFor r s.waiters := by
  have hold : σ.vars[x]? = some σ.vars[x] := Array.getElem?_eq_getElem hx
  rw [waiting_of_getElem? hold, parkedFor, parkedFor, setVar, Array.toList_setIfInBounds]
  exact sum_map_set (f := fun s => countFor r s.waiters) (Array.getElem?_toList ▸ hold) s

theorem resumedFor_append (σ : Store) (r : Resumer) {new : List Effect}
    (h : τ.effects.toList = σ.effects.toList ++ new) : τ.resumedFor r = σ.resumedFor r + new.countP (Effect.resumes r) := by
  rw [resumedFor, h, List.countP_append]
  rfl

theorem parkedFor_of_vars_eq (h : τ.vars = σ.vars) : τ.parkedFor r = σ.parkedFor r := by
  rw [parkedFor, parkedFor, h]

theorem resumedFor_of_effects_eq (h : τ.effects = σ.effects) : τ.resumedFor r = σ.resumedFor r := by
  rw [resumedFor, resumedFor, h]

/-- Binding a variable moves what waits for it to the log. -/
theorem outstanding_assign (hx : σ.Unbound x) (v : Value) : (σ.assign x v).outstanding r = σ.outstanding r := by
  have hvars := parkedFor_setVar (r := r) hx.lt_size (.bound v)
  have hparked : (σ.assign x v).parkedFor r = (σ.setVar x (.bound v)).parkedFor r := by
    refine parkedFor_of_vars_eq ?_
    rw [assign_vars]
    rfl
  have hlog : (σ.assign x v).effects.toList =
      σ.effects.toList ++ (σ.waiting x).map fun k => Effect.wake k.resumer k.stack := by
    rw [assign_eq]
    simp
  have hcount : ((σ.waiting x).map fun k => Effect.wake k.resumer k.stack).countP (Effect.resumes r) =
      countFor r (σ.waiting x) := by
    rw [List.countP_map]
    rfl
  have hresumed := resumedFor_append σ r hlog
  have hnone : countFor r (VarState.waiters (.bound v)) = 0 := rfl
  rw [outstanding, outstanding, hparked, hresumed, hcount]
  omega

/-- Merging two variables moves what waits for one of them to the other. -/
theorem outstanding_merge (hx : σ.Unbound x) (hy : σ.Unbound y) (hne : x ≠ y) :
    (σ.merge x y).outstanding r = σ.outstanding r := by
  -- the younger variable is set first, and what waits for the older one is still the same then
  let σ' := σ.setVar (max x y) (.unbound (σ.waiting (max x y) ++ σ.waiting (min x y)))
  have hapart : max x y ≠ min x y := by omega
  have hyounger : σ'.parkedFor r + countFor r (σ.waiting (max x y)) =
      σ.parkedFor r + countFor r (σ.waiting (max x y) ++ σ.waiting (min x y)) :=
    parkedFor_setVar (hx.max hy).lt_size _
  have holder : (σ'.setVar (min x y) (.link (max x y))).parkedFor r + countFor r (σ'.waiting (min x y)) =
      σ'.parkedFor r + 0 := by
    refine parkedFor_setVar ?_ (.link (max x y))
    show min x y < (σ.vars.setIfInBounds _ _).size
    rw [Array.size_setIfInBounds]
    exact (hx.min hy).lt_size
  rw [waiting_setVar_of_ne hapart] at holder
  rw [countFor_append] at hyounger
  have hmerge : (σ.merge x y).parkedFor r = (σ'.setVar (min x y) (.link (max x y))).parkedFor r := rfl
  have hresumed : (σ.merge x y).resumedFor r = σ.resumedFor r := rfl
  rw [outstanding, outstanding, hresumed, hmerge]
  omega

/-- Waiting makes the number greater by one. -/
theorem outstanding_park (hx : σ.Unbound x) (k : Continuation) :
    (σ.park x k).outstanding r = σ.outstanding r + if k.resumer = r then 1 else 0 := by
  have hvars := parkedFor_setVar (r := r) hx.lt_size (.unbound (σ.waiting x ++ [k]))
  have hone : countFor r [k] = if k.resumer = r then 1 else 0 := by
    simp [countFor]
  have hboth : countFor r (VarState.waiters (.unbound (σ.waiting x ++ [k]))) =
      countFor r (σ.waiting x) + countFor r [k] := countFor_append r _ _
  have hresumed : (σ.park x k).resumedFor r = σ.resumedFor r := rfl
  have hpark : σ.park x k = σ.setVar x (.unbound (σ.waiting x ++ [k])) := rfl
  rw [outstanding, outstanding, hresumed, hpark]
  omega

/-! ## What keeps the number -/

/-- A new variable on which nothing waits adds nothing to what is outstanding. -/
theorem outstanding_newVar {s : VarState} (hs : s.Idle) : (σ.newVar s).2.outstanding r = σ.outstanding r := by
  have hnone : s.waiters = [] := by
    cases s with
    | unbound ks => exact hs
    | bound _ | link _ => rfl
  have hresumed : (σ.newVar s).2.resumedFor r = σ.resumedFor r := rfl
  rw [outstanding, outstanding, hresumed, parkedFor, newVar, Array.toList_push, List.map_append, List.sum_append,
    List.map_singleton, hnone]
  rfl

/-- Effects that resume nobody. -/
theorem outstanding_emit (σ : Store) {e : Effect} (he : e.resumes r = false) :
    (σ.emit e).outstanding r = σ.outstanding r := by
  have hlog : (σ.emit e).effects.toList = σ.effects.toList ++ [e] := by simp [emit]
  have hnone : [e].countP (Effect.resumes r) = 0 := by simp [he]
  rw [outstanding, outstanding, resumedFor_append σ r hlog, hnone]
  rfl

theorem outstanding_of_eq (hvars : τ.vars = σ.vars) (hlog : τ.effects = σ.effects) :
    τ.outstanding r = σ.outstanding r := by
  rw [outstanding, outstanding, parkedFor_of_vars_eq hvars, resumedFor_of_effects_eq hlog]

/-- No deed of a computation makes an activity wait or resumes one, except that it binds variables; and what has waited for
them is then in the log, so that the count stays the same. -/
theorem Deed.outstanding (h : Deed σ τ) (r : Resumer) : τ.outstanding r = σ.outstanding r := by
  cases h with
  | binds h =>
    cases h with
    | assign hx hv => exact outstanding_assign hx _
    | merge hx hy hne => exact outstanding_merge hx hy hne
  | newVar hs hin => exact outstanding_newVar hs
  | table h hlog _ => exact outstanding_of_eq h.vars_eq hlog
  | send recipient he hcall => exact outstanding_emit σ rfl
  | makeRecorder hk address parent => exact outstanding_emit σ.newReceiver.2 rfl
  | makeActor hk address stem parent => exact outstanding_emit (σ.newReceiver.2.newAddress stem).2 rfl

/-- **Deeds lose no resumption and add none.** -/
theorem Deeds.outstanding (h : σ.Deeds τ) (r : Resumer) : τ.outstanding r = σ.outstanding r := by
  induction h with
  | refl => rfl
  | tail _ hdeed ih => exact (hdeed.outstanding r).trans ih

/-- A computation that is left waiting will be resumed once. -/
theorem Leaves.outstanding {r' : Resumer} (h : Leaves r' σ τ (some x)) (r : Resumer) :
    τ.outstanding r = σ.outstanding r + if r' = r then 1 else 0 := by
  cases h with
  | waiting hdeeds hx hk hr hτ =>
    rw [hτ, outstanding_park hx, hdeeds.outstanding, hr]

/-- What the outside does is nothing to activities. -/
theorem Outside.outstanding (h : Outside σ τ) (hr : r.isActivity = true) : τ.outstanding r = σ.outstanding r := by
  cases h with
  | deed hdeed => exact hdeed.outstanding r
  | waits hx hk hforeign =>
    have hne : ∀ {r' : Resumer}, r'.isActivity = false → r' ≠ r := by
      rintro r' hr' rfl
      rw [hr] at hr'
      cases hr'
    rw [outstanding_park hx, if_neg (hne hforeign), Nat.add_zero]
  | newQueue => rfl
  | takeWakes queue =>
    have hkept : (σ.takeWakes queue).2.resumedFor r = σ.resumedFor r := by
      rw [takeWakes_eq, resumedFor, resumedFor, Array.toList_filter, List.countP_filter]
      refine List.countP_congr fun e _ => ?_
      have hother : e.resumes r = true → (e.wakes? queue).isNone = true := by
        intro he
        cases e with
        | send | spawn => cases he
        | wake r' stack =>
          obtain rfl : r' = r := by simpa [Effect.resumes] using he
          cases r' with
          | queue _ | tag _ => cases hr
          | activity _ _ => rfl
      rw [Bool.and_eq_true]
      exact ⟨fun h => h.1, fun h => ⟨h, hother h⟩⟩
    have hparked : (σ.takeWakes queue).2.parkedFor r = σ.parkedFor r := by
      rw [takeWakes_eq]
      rfl
    rw [Store.outstanding, Store.outstanding, hkept, hparked]

/-- Work outside of the actors leaves what is outstanding for an activity as it is. -/
theorem OutsideMany.outstanding (h : σ.OutsideMany τ) (hr : r.isActivity = true) :
    τ.outstanding r = σ.outstanding r := by
  induction h with
  | refl => rfl
  | tail _ hwork ih => exact (hwork.outstanding hr).trans ih

/-- When the log has been carried out, what is outstanding waits for a variable. -/
theorem outstanding_cleared (σ : Store) (r : Resumer) : σ.cleared.outstanding r = σ.parkedFor r := rfl

end Store

end Dataflow
