/-
Scopes: which identifiers an instruction needs, and which ones the machine gives it.

The free identifiers of an instruction are computed from its text. At run time a scope is extended in four places:
with the fresh variables of a block, with what a pattern captured, with the value that a handler caught, and with
the arguments of a procedure. Here is what the two have to do with each other: each of these extensions binds exactly
the identifiers that the computation of free identifiers takes away, and a look-up in an extended scope finds the new
binding if there is one and what the scope around it has otherwise.
-/
import Dataflow.Machine.Compute
import Dataflow.Proofs.Actions
import Mathlib.Data.List.Basic

set_option autoImplicit false

namespace Dataflow

/-! ## Sets of identifiers -/

section Idents

variable {x y : Ident} {xs bound : List Ident}

/-- The identifiers of a sorted list with one more are that one and the old ones. -/
theorem mem_insertIdent : x ∈ insertIdent y xs ↔ x = y ∨ x ∈ xs := by
  induction xs with
  | nil => simp [insertIdent]
  | cons z rest ih =>
    rw [insertIdent]
    split
    · simp
    · split
      · next heq =>
        subst heq
        simp
      · rw [List.mem_cons, ih, List.mem_cons]
        exact or_left_comm

@[simp] theorem mem_sortIdents : x ∈ sortIdents xs ↔ x ∈ xs := by
  induction xs with
  | nil => simp [sortIdents]
  | cons y rest ih =>
    have hcons : sortIdents (y :: rest) = insertIdent y (sortIdents rest) := rfl
    rw [hcons, mem_insertIdent, ih, List.mem_cons]

@[simp] theorem mem_removeIdents : x ∈ removeIdents xs bound ↔ x ∈ xs ∧ x ∉ bound := by
  simp [removeIdents]

theorem Instr.mem_freeIdents {i : Instr} : x ∈ i.freeIdents ↔ x ∈ i.free := mem_sortIdents

theorem ProcDef.mem_captures {d : ProcDef} : x ∈ d.captures ↔ x ∈ d.body.free ∧ x ∉ d.params := by
  rw [captures, mem_sortIdents, mem_removeIdents]

/-- An instruction of a list takes no more from the scope than the list does. -/
theorem Instr.free_subset_allFree {i : Instr} {instrs : List Instr} (h : i ∈ instrs) :
    i.free ⊆ Instr.allFree instrs := by
  induction instrs with
  | nil => exact absurd h List.not_mem_nil
  | cons j rest ih =>
    rw [Instr.allFree]
    rcases List.mem_cons.mp h with rfl | h
    · exact List.subset_append_left _ _
    · exact List.Subset.trans (ih h) (List.subset_append_right _ _)

end Idents

/-! ## Looking up in an extended scope -/

namespace Env

variable {env : Env} {bindings : List (Ident × VarId)} {x : Ident}

theorem find?_extend (env : Env) (bindings : List (Ident × VarId)) (x : Ident) :
    (env.extend bindings).find? x = (bindings.reverse.lookup x).or (env.find? x) :=
  List.lookup_append

/-- What the extension does not bind is found in the scope around it. -/
theorem find?_extend_of_notMem (h : x ∉ bindings.map Prod.fst) :
    (env.extend bindings).find? x = env.find? x := by
  have hnone : bindings.reverse.lookup x = none := by
    rw [List.lookup_eq_none_iff]
    intro p hp
    refine bne_iff_ne.mpr ?_
    rintro rfl
    exact h (List.mem_map_of_mem (List.mem_reverse.mp hp))
  rw [find?_extend, hnone, Option.none_or]

/-- What the extension binds is found there, whatever the scope around it is. -/
theorem find?_extend_of_mem (h : x ∈ bindings.map Prod.fst) :
    ∃ y, ∀ env : Env, (env.extend bindings).find? x = some y := by
  have hsome : bindings.reverse.lookup x ≠ none := by
    intro hnone
    obtain ⟨p, hp, rfl⟩ := List.mem_map.mp h
    have hne := List.lookup_eq_none_iff.mp hnone p (List.mem_reverse.mpr hp)
    exact bne_iff_ne.mp hne rfl
  obtain ⟨y, hy⟩ := Option.ne_none_iff_exists'.mp hsome
  exact ⟨y, fun env => by rw [find?_extend, hy, Option.some_or]⟩

/-- A scope that lists some variables, each under its name, finds each of them. -/
theorem find?_of_mem (h : x ∈ env.map Prod.fst) : ∃ y, env.find? x = some y := by
  have hmem : x ∈ env.reverse.map Prod.fst := by simpa using h
  obtain ⟨y, hy⟩ := find?_extend_of_mem hmem
  have hnil := hy []
  rw [extend, List.reverse_reverse, List.append_nil] at hnil
  exact ⟨y, hnil⟩

end Env

/-! ## What the machine binds -/

/-- Fresh variables are made for exactly the identifiers that ask for them. -/
theorem Action.freshBindings_names {idents : List Ident} {bindings : List (Ident × VarId)} {σ τ : Store}
    (h : freshBindings idents σ = .ok bindings τ) : bindings.map Prod.fst = idents := by
  induction idents generalizing bindings σ with
  | nil =>
    cases h
    rfl
  | cons x rest ih =>
    rw [freshBindings] at h
    obtain ⟨y, ρ, -, h⟩ := bind_eq_ok h
    obtain ⟨more, ρ', hrest, h⟩ := bind_eq_ok h
    cases h
    rw [List.map_cons, ih hrest]

namespace Matcher

variable {α β : Type} {σ : Store} {captures : Captures}

/-- A step of the kernel captures nothing. -/
theorem captures_of_lift {act : Action α} {a : α} {s : Store × Captures}
    (h : lift act (σ, captures) = .ok a s) : s.2 = captures := by
  rw [lift] at h
  split at h
  · cases h
    rfl
  · cases h

/-- A step of the kernel that is followed by another step of matching. -/
theorem lift_bind_eq_ok {act : Action α} {f : α → Matcher β} {b : β} {s : Store × Captures}
    (h : (lift act >>= f) (σ, captures) = .ok b s) : ∃ a τ, f a (τ, captures) = .ok b s := by
  rw [bind_apply] at h
  split at h
  · next a s' hact =>
    obtain rfl := captures_of_lift hact
    exact ⟨a, s'.1, h⟩
  · cases h

end Matcher

mutual

/-- A pattern that matches has captured its identifiers, in order. -/
theorem Pattern.test_names : (p : Pattern) → {t : Term} → {σ τ : Store} → {captures found : Captures} →
    p.test t (σ, captures) = .ok true (τ, found) →
    found.map Prod.fst = captures.map Prod.fst ++ p.captures
  -- the pattern adds its own names behind what was captured
  | .ident x, t, σ, τ, captures, found, h => by
    rw [Pattern.test, bind_apply] at h
    rw [Pattern.captures]
    cases t with
    | var y =>
      cases h
      rw [List.map_append, List.map_singleton]
    | val v =>
      cases h
      rw [List.map_append, List.map_singleton]
  | .lit s, t, σ, τ, captures, found, h => by
    rw [Pattern.test] at h
    obtain rfl : found = captures := Matcher.captures_of_lift h
    rw [Pattern.captures, List.append_nil]
  | .record label fields isOpen, t, σ, τ, captures, found, h => by
    rw [Pattern.test] at h
    obtain ⟨u, σ₁, h⟩ := Matcher.lift_bind_eq_ok h
    -- only a record can fit, with the right head
    cases u with
    | var x => cases h
    | val v =>
      cases v with
      | record r =>
        obtain ⟨record, σ₂, h⟩ := Matcher.lift_bind_eq_ok h
        split at h
        · cases h
        · split at h
          · cases h
          · rw [Pattern.captures]
            exact Pattern.testFields_names fields h
      | lit _ | num _ | obj _ | proc _ | config _ | failed _ => cases h

/-- Fields that match have captured their identifiers, in order. -/
theorem Pattern.testFields_names : (fields : List (Scalar × Pattern)) → {r : Record} → {σ τ : Store} →
    {captures found : Captures} → Pattern.testFields fields r (σ, captures) = .ok true (τ, found) →
    found.map Prod.fst = captures.map Prod.fst ++ Pattern.fieldCaptures fields
  | [], r, σ, τ, captures, found, h => by
    rw [Pattern.testFields] at h
    cases h
    rw [Pattern.fieldCaptures, List.append_nil]
  | (s, p) :: rest, r, σ, τ, captures, found, h => by
    rw [Pattern.testFields] at h
    obtain ⟨feature, σ₁, h⟩ := Matcher.lift_bind_eq_ok h
    cases ht : r.select? feature with
    | none =>
      rw [ht] at h
      cases h
    | some t =>
      rw [ht] at h
      dsimp only at h
      rw [bind_apply] at h
      split at h
      · next answer s' hp =>
        cases answer with
        | true =>
          obtain ⟨ρ, between⟩ := s'
          rw [Pattern.testFields_names rest h, Pattern.test_names p hp, Pattern.fieldCaptures, List.append_assoc]
        | false => cases h
      · cases h

end

/-- A match binds exactly the identifiers of its pattern. -/
theorem Action.matchTerm_names {p : Pattern} {t : Term} {σ τ : Store} {captures : Captures}
    (h : matchTerm p t σ = .ok (some captures) τ) : captures.map Prod.fst = p.captures := by
  rw [matchTerm] at h
  split at h
  · next hp =>
    cases h
    simpa using p.test_names hp
  · cases h
  · cases h

/-- The arguments of a constructor, but for its target, name nothing that the arguments do not name. -/
theorem Operand.free_dropLast (args : List Operand) :
    args.dropLast.flatMap Operand.free ⊆ args.flatMap Operand.free := by
  intro x hx
  obtain ⟨a, ha, hxa⟩ := List.mem_flatMap.mp hx
  exact List.mem_flatMap.mpr ⟨a, List.dropLast_subset args ha, hxa⟩

/-- There are as many variables as arguments. -/
theorem Operand.vars_length {env : Env} {args : List Operand} {vars : List VarId} {σ τ : Store}
    (h : Operand.vars env args σ = .ok vars τ) : vars.length = args.length := by
  induction args generalizing vars σ with
  | nil =>
    cases h
    rfl
  | cons a rest ih =>
    rw [Operand.vars] at h
    obtain ⟨x, ρ, -, h⟩ := Action.bind_eq_ok h
    obtain ⟨more, ρ', hrest, h⟩ := Action.bind_eq_ok h
    cases h
    rw [List.length_cons, List.length_cons, ih hrest]

/-! ## Closures -/

namespace Env

variable {env captured : Env} {σ τ : Store}

/-- Looking up an identifier reads the environment and leaves the store as it is. -/
theorem var_eq_ok {x : Ident} {y : VarId} (h : env.var x σ = .ok y τ) : env.find? x = some y ∧ τ = σ := by
  rw [var] at h
  cases hfind : env.find? x with
  | none =>
    rw [hfind] at h
    cases h
  | some z =>
    rw [hfind] at h
    cases h
    exact ⟨rfl, rfl⟩

/-- The captured variables are those that the scope has under the same names. -/
theorem capture_eq_ok {xs : List Ident} (h : env.capture xs σ = .ok captured τ) :
    τ = σ ∧ captured.map Prod.fst = xs ∧ ∀ x ∈ xs, captured.find? x = env.find? x := by
  -- along the identifiers, each looked up in the environment that is closed over
  induction xs generalizing captured with
  | nil =>
    cases h
    exact ⟨rfl, rfl, fun _ hx => absurd hx List.not_mem_nil⟩
  | cons x rest ih =>
    rw [capture] at h
    obtain ⟨y, ρ, hvar, hnext⟩ := Action.bind_eq_ok h
    obtain ⟨hfind, rfl⟩ := var_eq_ok hvar
    obtain ⟨more, ρ', hrest, hdone⟩ := Action.bind_eq_ok hnext
    cases hdone
    obtain ⟨hstore, hnames, hagree⟩ := ih hrest
    refine ⟨hstore, by rw [List.map_cons, hnames], fun z hz => ?_⟩
    rw [find?, List.lookup_cons]
    by_cases hzx : z = x
    · rw [hzx, beq_self_eq_true, hfind]
    · rw [beq_eq_false_iff_ne.mpr hzx]
      exact hagree z ((List.mem_cons.mp hz).resolve_left hzx)

/-- A closure is a procedure with what its definition captured, under the next number. -/
theorem close_eq_ok {d : ProcDef} {c : ClosureId} (h : env.close d σ = .ok c τ) :
    ∃ captured, env.capture d.captures σ = .ok captured σ ∧ c = σ.closures.size ∧
      τ = (σ.newClosure ⟨d, captured⟩).2 := by
  rw [close] at h
  obtain ⟨captured, ρ, hcapture, htake⟩ := Action.bind_eq_ok h
  obtain rfl := (capture_eq_ok hcapture).1
  cases htake
  exact ⟨captured, hcapture, rfl, rfl⟩

/-- Binding the variable of an identifier makes no closure. -/
theorem closures_of_bind {x : Ident} {v : Value} (h : env.bind x v σ = .ok () τ) : τ.closures = σ.closures := by
  rw [bind] at h
  obtain ⟨y, ρ, hvar, hbind⟩ := Action.bind_eq_ok h
  obtain ⟨-, rfl⟩ := var_eq_ok hvar
  rw [Action.bindValue, Action.unify, Action.ofChange] at hbind
  split at hbind
  · next τ' hunify =>
    cases hbind
    rw [← (Store.unify_outcome ρ (.var y) (.val v)).1, hunify]
  · cases hbind

end Env

/-- The closure that the creation of a procedure makes. -/
theorem Context.closure_of_createProc {ctx : Context} {env : Env} {rest : Stack} {x : Ident} {d : ProcDef}
    {flow : Flow} {σ τ : Store} (h : ctx.execute env rest (.createProc x d.params d.body) σ = .ok flow τ) :
    ∃ captured, env.capture d.captures σ = .ok captured σ ∧ τ.closure σ.closures.size = ⟨d, captured⟩ := by
  rw [execute] at h
  obtain ⟨c, ρ, hclose, h⟩ := Action.bind_eq_ok h
  obtain ⟨captured, hcapture, rfl, rfl⟩ := Env.close_eq_ok hclose
  obtain ⟨_, ρ', hbind, h⟩ := Action.bind_eq_ok h
  cases h
  refine ⟨captured, hcapture, ?_⟩
  rw [Store.closure, Env.closures_of_bind hbind]
  simp [Store.newClosure, Array.getD]

/-- Applying a closure to as many arguments as it has parameters goes on with its body. -/
theorem Context.step_apply {ctx : Context} {scope : Env} {rest : Stack} {proc : Operand} {args : List Operand}
    {c : ClosureId} {d : ProcDef} {captured : Env} {vars : List VarId} {σ τ : Store}
    (hclosure : σ.closure c = ⟨d, captured⟩) (hproc : proc.value scope σ = .ok (.proc (.closure c)) σ)
    (hlength : args.length = d.params.length) (hvars : Operand.vars scope args σ = .ok vars τ) :
    ctx.step (.apply proc args) scope rest σ =
      (.next (.run d.body (captured.extend (d.params.zip vars)) :: rest), τ) := by
  have henter : enter c scope args rest σ =
      .ok (.run d.body (captured.extend (d.params.zip vars)) :: rest) τ := by
    rw [enter, bind_apply]
    dsimp only [Action.read]
    rw [hclosure, if_neg (not_not.mpr hlength.symm), bind_apply, hvars]
    rfl
  have hexecute : ctx.execute scope rest (.apply proc args) σ =
      .ok (.next (.run d.body (captured.extend (d.params.zip vars)) :: rest)) τ := by
    rw [execute, bind_apply, hproc]
    dsimp only
    rw [bind_apply, Value.call, Proc.call, henter]
    rfl
  rw [step, hexecute]

/-! ## A parameter that hides a name -/

/-- A store with three variables and nothing else. -/
def threeVars : Store := { vars := #[.unbound [], .unbound [], .unbound []] }

/-- A scope that has them all. -/
def threeNames : Env := [("f", 2), ("b", 1), ("a", 0)]

/-- A procedure with a parameter that hides the name `a` of the scope, and a use of the name `b`. -/
def hider : ProcDef := ⟨["a"], .bind "b" (.ident "a")⟩

/-- The store after the procedure has been created under the name `f`. -/
def withHider : Store := (threeVars.newClosure ⟨hider, [("b", 1)]⟩).2.assign 2 (.proc (.closure 0))

/-- Running the definition of the procedure closes it over the one name that its body does not bind. -/
theorem execute_hider (ctx : Context) (rest : Stack) :
    ctx.execute threeNames rest (.createProc "f" hider.params hider.body) threeVars =
      .ok (.next rest) withHider := by
  have hclose : threeNames.close ⟨hider.params, hider.body⟩ threeVars =
      .ok 0 (threeVars.newClosure ⟨hider, [("b", 1)]⟩).2 := rfl
  have hvar : threeNames.var "f" = pure 2 := rfl
  have hunbound : Store.Unbound (threeVars.newClosure ⟨hider, [("b", 1)]⟩).2 2 := ⟨[], rfl⟩
  rw [Context.execute, bind_apply, hclose]
  dsimp only
  rw [bind_apply, Env.bind, hvar, pure_bind, Action.bindValue, Action.unify, Action.ofChange,
    Store.unify_of_unbound hunbound]
  rfl

/-- The identifier of the procedure is then bound to its closure. -/
theorem value_hider : Operand.value threeNames (.ident "f") withHider = .ok (.proc (.closure 0)) withHider := by
  have hvar : threeNames.var "f" = pure 2 := rfl
  have hstate : withHider.vars[2]? = some (.bound (.proc (.closure 0))) := rfl
  have hresolve : withHider.resolveVar 2 = .val (.proc (.closure 0)) := by
    refine Store.resolveVar_of_bound ?_
    rwa [Store.representative_of_ne_link fun y hy => by rw [hstate] at hy; cases hy]
  rw [Operand.value, Operand.term, hvar, pure_bind, bind_apply]
  dsimp only [Action.read]
  rw [hresolve]
  rfl

end Dataflow
