/-
Courses: what the computations of a pool have done, as later stores see it.

What a declarative instruction has done it has done in every later store. So in the last store of a schedule the whole
past of each computation can be read off: a course leads from the stack that it began with to the one that it goes on
with, and in this store each instruction of the course has been executed. One that waits when nothing can go on has to
wait in the last store, too, unless it compares terms and has missed that it need not wait any longer (`Stranded`).

A closure is equal to itself only. Hence a course says which closures have been made, and by which instruction.
-/
import Dataflow.Proofs.Declarative
import Dataflow.Proofs.Stages

set_option autoImplicit false

namespace Dataflow

/-! ## Courses -/

/-- The instruction is declarative, and if it applies a procedure, this is a closure. -/
def declarativeCode : CodeClass := fun instr env σ => instr.Declarative ∧ instr.Applies env σ

/-- In `ω` the computation has gone from one stack to another one. For each of the instructions there is the name of the
closure that it has made. -/
inductive Course (ω : Store) : Stack → List (Option ClosureId) → Stack → Prop where
  | done (stack : Stack) : Course ω stack [] stack
  | step {instr : Instr} {env : Env} {rest stack last : Stack} {name : Option ClosureId}
      {names : List (Option ClosureId)} (hdecl : instr.Declarative) (hin : stack.In ω)
      (hexecuted : instr.Executed ω env rest stack name) (h : Course ω stack names last) :
      Course ω (.run instr env :: rest) (name :: names) last

/-- One more instruction has been executed. -/
theorem Course.snoc {ω : Store} {instr : Instr} {env : Env} {first rest stack : Stack} {name : Option ClosureId}
    {names : List (Option ClosureId)} (h : Course ω first names (.run instr env :: rest)) (hdecl : instr.Declarative)
    (hin : stack.In ω) (hexecuted : instr.Executed ω env rest stack name) :
    Course ω first (names ++ [name]) stack := by
  generalize hlast : (.run instr env :: rest : Stack) = last at h
  induction h with
  | done s =>
    subst hlast
    exact .step hdecl hin hexecuted (.done stack)
  | step hdecl' hin' hexecuted' _ ih => exact .step hdecl' hin' hexecuted' (ih hlast)

/-- No traps come of declarative instructions. -/
theorem Instr.Executed.plain {ω : Store} {instr : Instr} {env : Env} {rest stack : Stack} {name : Option ClosureId}
    (h : instr.Executed ω env rest stack name) (hrest : Stack.Plain rest) : stack.Plain := by
  have hpush : ∀ (body : Instr) (env' : Env), Stack.Plain (.run body env' :: rest) := fun body env' =>
    List.forall_mem_cons.mpr ⟨⟨body, env', rfl⟩, hrest⟩
  obtain ⟨d, d', -, hmoves, hleads⟩ := h
  cases hleads with
  | go frames =>
    cases hmoves with
    | @go _ fs' hfs =>
      obtain ⟨-, -, hframes⟩ := hfs
      induction hframes with
      | nil => exact hrest
      | @cons f _ fs _ hf _ ih =>
        cases hf with
        | run instr' henv => exact List.forall_mem_cons.mpr ⟨⟨_, _, rfl⟩, ih⟩
  | fresh bindings body env' => exact hpush _ _
  | enter body env' h => exact hpush _ _
  | bind | unify | record | closure => exact hrest

namespace Store

variable {σ τ : Store} {x : Nat}

/-- Waiting brings in no numbers. -/
theorem Exact.park (hσ : σ.Exact) (hx : σ.Unbound x) (k : Continuation) : (σ.park x k).Exact where
  vars z v hz := by
    rw [park_getElem? hx] at hz
    split at hz
    · cases hz
    · exact hσ.vars z v hz
  fields := hσ.fields

theorem Precedes.park (hσ : σ.Closed) (hx : σ.Unbound x) {k : Continuation} (hk : k.In σ) : σ.Precedes (σ.park x k) :=
  Evolves.precedes (.single (.var (.park hx hk))) hσ

theorem Precedes.takeWakes (σ : Store) (queue : Nat) : σ.Precedes (σ.takeWakes queue).2 :=
  .of_vars_eq (Outside.grows (.takeWakes queue)) (by rw [takeWakes_eq])

theorem Exact.takeWakes (hσ : σ.Exact) (queue : Nat) : (σ.takeWakes queue).2.Exact := by
  rw [takeWakes_eq]
  exact hσ.of_eq rfl rfl

end Store

/-! ## The past of a stage -/

namespace Stage

/-- From the store `σ` and the stacks that they began with, the computations have come to this stage by declarative
instructions, which have made the closures of these names. -/
structure Lawful (σ : Store) (origin : Nat → Stack) (names : Nat → List (Option ClosureId)) (l : List Nat) (s : Stage) :
    Prop where
  closed : s.store.Closed
  exact : s.store.Exact
  isIn : ∀ i, (s.current i).In s.store
  plain : ∀ i, (s.current i).Plain
  precedes : σ.Precedes s.store
  course : ∀ ω : Store, ω.Closed → ω.Exact → s.store.Precedes ω → ∀ i, Course ω (origin i) (names i) (s.current i)
  length : ∀ i, (names i).length = l.count i
  named : ∀ i c, some c ∈ names i → σ.closures.size ≤ c ∧ c < s.store.closures.size
  distinct : ∀ (i j k m : Nat) c, (names i)[k]? = some (some c) → (names j)[m]? = some (some c) → i = j ∧ k = m
  waited : ∀ i x, s.awaited i = some x → ∃ instr env rest, s.current i = .run instr env :: rest ∧ instr.Declarative ∧
    ∀ ω : Store, ω.Closed → ω.Exact → s.store.Precedes ω → ¬ instr.Compares →
      (∃ z, ω.resolve (.var x) = .var z) → instr.Waits ω env

variable {ctxs : Nat → Context} {σ τ : Store} {origin : Nat → Stack} {names : Nat → List (Option ClosureId)}
  {l l' : List Nat} {s s' : Stage}

/-- At the start no course has gone anywhere, and so the stage is lawful. -/
theorem lawful_start (hσ : σ.Closed) (hexact : σ.Exact) (hin : ∀ i, (origin i).In σ) (hplain : ∀ i, (origin i).Plain) :
    Lawful σ origin (fun _ => []) [] ⟨σ, origin, fun _ => none⟩ where
  closed := hσ
  exact := hexact
  isIn := hin
  plain := hplain
  precedes := .refl σ
  course _ _ _ _ i := .done (origin i)
  length _ := rfl
  named _ _ h := absurd h List.not_mem_nil
  distinct _ _ k _ _ h := by cases h
  waited i x h := by cases h

/-- Nothing has been executed, but the store may have changed, and somebody may wait now. -/
theorem Lawful.later (h : s.Lawful σ origin names l) (hτ : τ.Closed) (hexact : τ.Exact) (hprecedes : s.store.Precedes τ)
    {awaited : Nat → Option VarId} (hawaited : ∀ i x, awaited i = some x → s.awaited i = some x ∨
      ∃ instr env rest, s.current i = .run instr env :: rest ∧ instr.Declarative ∧
        ∀ ω : Store, ω.Closed → ω.Exact → τ.Precedes ω → ¬ instr.Compares → (∃ z, ω.resolve (.var x) = .var z) →
          instr.Waits ω env) : Lawful σ origin names l ⟨τ, s.current, awaited⟩ where
  closed := hτ
  exact := hexact
  isIn i := hprecedes.grows.stack (h.isIn i)
  plain := h.plain
  precedes := h.precedes.trans hprecedes
  course ω hω hωexact hτω := h.course ω hω hωexact (hprecedes.trans hτω)
  length := h.length
  named i c hc := ⟨(h.named i c hc).1, hprecedes.grows.value (v := .proc (.closure c)) (h.named i c hc).2⟩
  distinct := h.distinct
  waited i x hx := by
    rcases hawaited i x hx with hold | hnew
    · obtain ⟨instr, env, rest, hcurrent, hdecl, hwaits⟩ := h.waited i x hold
      exact ⟨instr, env, rest, hcurrent, hdecl, fun ω hω hωexact hτω => hwaits ω hω hωexact (hprecedes.trans hτω)⟩
    · exact hnew

/-- **Every step is lawful** if the code is declarative. -/
theorem Lawful.step (h : s.Lawful σ origin names l) (hstep : s.Step ctxs declarativeCode l' s') :
    ∃ names', s'.Lawful σ origin names' (l ++ l') := by
  cases hstep with
  | stays =>
    rw [List.append_nil]
    exact ⟨names, h⟩
  | @executes i instr env rest stack τ hcurrent hcode hexecute =>
    have hin := h.isIn i
    have hplain := h.plain i
    rw [hcurrent] at hin hplain
    obtain ⟨henv, hrest⟩ := List.forall_mem_cons.mp hin
    have hsafe := (Pool.context ctxs i).execute_safe h.closed henv hrest instr
    rw [Action.Safe, hexecute] at hsafe
    obtain ⟨hdeeds, hstack⟩ := hsafe
    have hτ := hdeeds.closed h.closed
    have hprecedes := hdeeds.evolves.precedes h.closed
    obtain ⟨hexact, name, hname, hexecuted⟩ :=
      (Pool.context ctxs i).execute_leads h.closed h.exact henv hrest hcode.1 hcode.2 hexecute
    have hnew : ∀ c, name = some c → ∀ j, some c ∉ names j := by
      intro c hc j hmem
      exact absurd (h.named j c hmem).2 (Nat.not_lt.mpr (hname c hc).1)
    -- the name at a place is an old one, or the new one at the end
    have hcases : ∀ (j k : Nat) c, (Function.update names i (names i ++ [name]) j)[k]? = some (some c) →
        (names j)[k]? = some (some c) ∨ j = i ∧ k = (names i).length ∧ name = some c := by
      intro j k c hk
      by_cases hji : j = i
      · subst hji
        rw [Function.update_self, List.getElem?_append] at hk
        split at hk
        · exact .inl hk
        · next hlt =>
          rw [List.getElem?_singleton] at hk
          split at hk
          · next hzero => exact .inr ⟨rfl, by omega, Option.some.inj hk⟩
          · cases hk
      · rw [Function.update_of_ne hji] at hk
        exact .inl hk
    have hold : ∀ {j k : Nat} {c : ClosureId}, (names j)[k]? = some (some c) → some c ∈ names j := fun hk =>
      List.mem_of_getElem? hk
    refine ⟨Function.update names i (names i ++ [name]), ?_⟩
    refine ⟨hτ, hexact, fun j => ?_, fun j => ?_, h.precedes.trans hprecedes, fun ω hω hωexact hτω j => ?_,
      fun j => ?_, fun j c hc => ?_, fun j j' k m c hk hm => ?_, fun j x hx => ?_⟩
    · by_cases hji : j = i
      · subst hji
        simp only [Function.update_self]
        exact hstack
      · simp only [Function.update_of_ne hji]
        exact hprecedes.grows.stack (h.isIn j)
    · by_cases hji : j = i
      · subst hji
        simp only [Function.update_self]
        exact (hexecuted τ hτ hexact (.refl τ)).plain (List.forall_mem_cons.mp hplain).2
      · simp only [Function.update_of_ne hji]
        exact h.plain j
    · have hbefore := h.course ω hω hωexact (hprecedes.trans hτω) j
      by_cases hji : j = i
      · subst hji
        simp only [Function.update_self]
        rw [hcurrent] at hbefore
        exact hbefore.snoc hcode.1 (hτω.grows.stack hstack) (hexecuted ω hω hωexact hτω)
      · simp only [Function.update_of_ne hji]
        exact hbefore
    · by_cases hji : j = i
      · subst hji
        rw [Function.update_self, List.length_append, h.length, List.count_append]
        simp
      · rw [Function.update_of_ne hji, h.length, List.count_append]
        simp [Ne.symm hji]
    · obtain ⟨k, hk⟩ := List.mem_iff_getElem?.mp hc
      rcases hcases j k c hk with hk | ⟨-, -, hname'⟩
      · obtain ⟨hlow, hhigh⟩ := h.named j c (hold hk)
        exact ⟨hlow, hprecedes.grows.value (v := .proc (.closure c)) hhigh⟩
      · obtain ⟨hlow, hhigh⟩ := hname c hname'
        refine ⟨Nat.le_of_not_lt fun hlt => ?_, hhigh⟩
        exact Nat.not_lt.mpr hlow (h.precedes.grows.value (v := .proc (.closure c)) hlt)
    · rcases hcases j k c hk with hk | ⟨rfl, rfl, hname'⟩
      · rcases hcases j' m c hm with hm | ⟨-, -, hname'⟩
        · exact h.distinct j j' k m c hk hm
        · exact absurd (hold hk) (hnew c hname' j)
      · rcases hcases j' m c hm with hm | ⟨rfl, rfl, -⟩
        · exact absurd (hold hm) (hnew c hname' j')
        · exact ⟨rfl, rfl⟩
    · by_cases hji : j = i
      · subst hji
        simp only [Function.update_self] at hx
        cases hx
      · simp only [Function.update_of_ne hji] at hx ⊢
        obtain ⟨instr', env', rest', hcurrent', hdecl', hwaits'⟩ := h.waited j x hx
        exact ⟨instr', env', rest', hcurrent', hdecl', fun ω hω hωexact hτω =>
          hwaits' ω hω hωexact (hprecedes.trans hτω)⟩
  | @waits i instr env rest x ρ hcurrent hcode hexecute =>
    have hin := h.isIn i
    have hstack := h.isIn i
    rw [hcurrent] at hin
    obtain ⟨henv, hrest⟩ := List.forall_mem_cons.mp hin
    obtain ⟨-, hpads, hx, hρ⟩ := Context.blocked_pads h.closed henv hrest hexecute
    have hsafe := (Pool.context ctxs i).execute_safe h.closed henv hrest instr
    rw [Action.Safe, hexecute] at hsafe
    have hfirst := hsafe.1.evolves.precedes h.closed
    have hk : Continuation.In ρ ⟨s.current i, .queue i⟩ := hfirst.grows.stack hstack
    have hparks := Store.Precedes.park hρ hx hk
    obtain ⟨hexact, hwaits⟩ :=
      (Pool.context ctxs i).execute_waits h.closed h.exact henv hrest hcode.1 hcode.2 hexecute
    rw [List.append_nil]
    refine ⟨names, h.later (Store.Step.closed (.var (.park hx hk)) hρ) (hexact.park hx _) (hfirst.trans hparks) ?_⟩
    intro j y hy
    by_cases hji : j = i
    · subst hji
      rw [Function.update_self] at hy
      cases hy
      exact .inr ⟨instr, env, rest, hcurrent, hcode.1, fun ω hω hωexact hτω =>
        hwaits ω hω hωexact (hparks.trans hτω)⟩
    · rw [Function.update_of_ne hji] at hy
      exact .inl hy
  | wakes i =>
    rw [List.append_nil]
    exact ⟨names, h.later (Store.Outside.closed (.takeWakes i) h.closed) (h.exact.takeWakes i)
      (.takeWakes s.store i) fun _ _ hx => .inl hx⟩

end Stage

end Dataflow
