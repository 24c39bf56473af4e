/-
Foresight: what an instruction finds out is final.

A store that is read in another one is behind it: the other store knows everything that the first one knows. So
whatever an instruction can find out in the first store it finds out in the other one too, up to what the reading makes
of terms, and with the same faults (`Instr.foresees_plan`). An instruction that has to wait for a variable waits in the
other store as well, if that variable is unbound there. Comparing terms is the exception. It waits for one variable,
but whether two terms are equal can be decided by binding others, or by merging this one.

`Foresees` relates an action in the one store and an action in the other in this way, for actions that only look at the
store. It goes through sequencing, so the proof for an instruction follows its plan.
-/
import Dataflow.Proofs.Reading
import Dataflow.Proofs.Plans

set_option autoImplicit false

namespace Dataflow

/-- The value is a literal or a number. -/
def Value.IsScalar : Value → Prop
  | .lit _ | .num _ => True
  | _ => False

/-! ## Two stores -/

namespace Reading

variable {φ : Reading} {σ ω : Store} {t u : Term} {v w : Value}

/-- A right reading of a store in another one, both of which are in order and have integers for numbers. -/
structure Sound (φ : Reading) (σ ω : Store) : Prop where
  reads : φ.Reads σ ω
  closed : σ.Closed
  exact : σ.Exact
  targetClosed : ω.Closed
  targetExact : ω.Exact

/-- A term of the first store that is read as the same as a term of the other one. -/
structure Twins (φ : Reading) (σ ω : Store) (t u : Term) : Prop where
  isIn : t.In σ
  exact : t.Exact
  targetIn : u.In ω
  targetExact : u.Exact
  same : ω.Same (φ.term t) u

/-- Twins, the second of which is what it resolves to. -/
structure Found (φ : Reading) (σ ω : Store) (t u : Term) : Prop extends Twins φ σ ω t u where
  final : ω.resolve u = u

/-- A scope of the first store that is read as a scope of the other one. -/
structure Scopes (φ : Reading) (σ ω : Store) (env env' : Dataflow.Env) : Prop where
  isIn : env.In σ
  targetIn : env'.In ω
  env : φ.Env ω env env'

theorem exact_var (x : VarId) : Term.Exact (.var x) := fun _ h => nomatch h

namespace Twins

/-- What twins resolve to are twins. -/
theorem resolve (hs : φ.Sound σ ω) (h : φ.Twins σ ω t u) : φ.Twins σ ω (σ.resolve t) (ω.resolve u) where
  isIn := hs.closed.resolve h.isIn
  exact := hs.exact.resolve h.exact
  targetIn := hs.targetClosed.resolve h.targetIn
  targetExact := hs.targetExact.resolve h.targetExact
  same := ((hs.reads.resolve hs.closed.linked t).symm.trans h.same).trans (.resolve hs.targetClosed.linked u)

/-- The other store has a value where the first one has. -/
theorem exists_val (h : φ.Twins σ ω (.val v) u) (hu : ω.resolve u = u) : ∃ w, u = .val w := by
  rcases h.same.cases with heq | ⟨_, s, -, hs⟩
  · exact ⟨φ.value v, (heq.trans hu).symm⟩
  · exact ⟨.record s, hu.symm.trans hs⟩

/-- The other store has no value where the first one waits for a variable without one. -/
theorem exists_var {x : VarId} (h : φ.Twins σ ω (.var x) u) (hu : ω.resolve u = u)
    (hx : ∃ z, ω.resolve (φ.var x) = .var z) : ∃ z, u = .var z := by
  obtain ⟨z, hz⟩ := hx
  rcases h.same.cases with heq | ⟨r, _, hr, -⟩
  · exact ⟨z, hu.symm.trans (heq.symm.trans hz)⟩
  · cases hz.symm.trans hr

end Twins

/-- Literals and numbers are read as themselves, and nothing else is read as a literal or a number. -/
theorem Twins.scalar_cases (h : φ.Twins σ ω (.val v) (.val w)) : v = w ∨ ¬ v.IsScalar ∧ ¬ w.IsScalar := by
  rcases twin_cases h.same with ⟨r, s, rfl, rfl⟩ | ⟨-, rfl⟩
  · exact .inr ⟨id, id⟩
  · cases v with
    | proc p =>
      cases p with
      | closure c => exact .inr ⟨id, id⟩
      | _ => exact .inl rfl
    | record r => exact .inr ⟨id, id⟩
    | _ => exact .inl rfl

/-- A value that refers to nothing. -/
theorem twins_lit (φ : Reading) (σ ω : Store) (l : Literal) : φ.Twins σ ω (.val (.lit l)) (.val (.lit l)) where
  isIn := trivial
  exact _ hv := Term.val.inj hv ▸ Value.exact_of_ne_num nofun
  targetIn := trivial
  targetExact _ hv := Term.val.inj hv ▸ Value.exact_of_ne_num nofun
  same := .refl ω _

theorem twins_num (φ : Reading) (σ ω : Store) {n : Num} (hn : n.IsInteger) :
    φ.Twins σ ω (.val (.num n)) (.val (.num n)) := by
  have hexact : Term.Exact (.val (.num n)) := by
    rintro _ ⟨⟩ _ ⟨⟩
    exact hn
  exact ⟨trivial, hexact, trivial, hexact, .refl ω _⟩

theorem twins_scalar (φ : Reading) (σ ω : Store) {s : Scalar} (hs : s.toValue.Exact) :
    φ.Twins σ ω (.val s.toValue) (.val s.toValue) := by
  cases s with
  | num n => exact twins_num φ σ ω (hs n rfl)
  | _ => exact twins_lit φ σ ω _

/-- The variables of an identifier in two scopes. -/
theorem Scopes.find? {env env' : Dataflow.Env} (h : φ.Scopes σ ω env env') (x : Ident) :
    env.find? x = none ∧ env'.find? x = none ∨
      ∃ y y', env.find? x = some y ∧ env'.find? x = some y' ∧ φ.Twins σ ω (.var y) (.var y') := by
  obtain ⟨hin, hin', henv⟩ := h
  -- along the environments, which bind the same identifiers in the same order
  induction henv with
  | nil => exact .inl ⟨rfl, rfl⟩
  | @cons p q env env' hpq _ ih =>
    obtain ⟨hp, hrest⟩ := List.forall_mem_cons.mp hin
    obtain ⟨hq, hrest'⟩ := List.forall_mem_cons.mp hin'
    obtain ⟨a, y⟩ := p
    obtain ⟨b, y'⟩ := q
    obtain ⟨rfl, hsame⟩ := hpq
    by_cases hxa : x = a
    -- the first binding is the one that is looked for, or it is skipped on both sides
    · subst hxa
      refine .inr ⟨y, y', ?_, ?_, hp, exact_var y, hq, exact_var y', hsame⟩
      · simp [Dataflow.Env.find?]
      · simp [Dataflow.Env.find?]
    · have hskip : ∀ (z : VarId) (rest : Dataflow.Env), Dataflow.Env.find? ((a, z) :: rest) x = rest.find? x := by
        intro z rest
        rw [Dataflow.Env.find?, List.lookup_cons, beq_false_of_ne hxa]
        rfl
      rw [hskip, hskip]
      exact ih hrest hrest'

end Reading

/-! ## Foresight -/

section Foresees

variable {α β γ δ : Type}

/-- Whatever `act` finds in `σ`, `act'` finds in `ω`. If `act` waits for a variable that satisfies `P`, then `act'` has
to wait too. -/
def Foresees (σ ω : Store) (P : VarId → Prop) (R : α → β → Prop) (act : Action α) (act' : Action β) : Prop :=
  match act σ with
  | .ok a τ => τ = σ ∧ ∃ b, act' ω = .ok b ω ∧ R a b
  | .error (.blocked x) τ => τ = σ ∧ (P x → ∃ y, act' ω = .error (.blocked y) ω)
  | .error (.fault _) _ => ∃ g τ, act' ω = .error (.fault g) τ

namespace Foresees

variable {σ ω : Store} {P : VarId → Prop} {R : α → β → Prop} {act : Action α} {act' : Action β}

/-- Foresight composes: one action foresees another if their parts do, and if what follows does for all results that
correspond. -/
theorem bind {S : γ → δ → Prop} {f : α → Action γ} {f' : β → Action δ} (h : Foresees σ ω P R act act')
    (hf : ∀ a b, R a b → Foresees σ ω P S (f a) (f' b)) : Foresees σ ω P S (act >>= f) (act' >>= f') := by
  rw [Foresees] at h
  rw [Foresees, bind_apply, bind_apply]
  generalize act σ = result at h ⊢
  rcases result with ⟨a, τ⟩ | ⟨x | g, τ⟩
  · obtain ⟨rfl, b, hb, hR⟩ := h
    -- the first part has come to a result in both stores,
    rw [hb]
    exact hf a b hR
  -- or it waits, and the other one then waits as well if the variable is unknown,
  · refine ⟨h.1, fun hx => ?_⟩
    obtain ⟨y, hy⟩ := h.2 hx
    exact ⟨y, by rw [hy]⟩
  -- or it fails in both
  · obtain ⟨g', τ', hg⟩ := h
    exact ⟨g', τ', by rw [hg]⟩

theorem mono {S : α → β → Prop} (h : Foresees σ ω P R act act') (hRS : ∀ a b, R a b → S a b) :
    Foresees σ ω P S act act' := by
  rw [Foresees] at h ⊢
  generalize act σ = result at h ⊢
  rcases result with ⟨a, τ⟩ | ⟨x | g, τ⟩
  · obtain ⟨hτ, b, hb, hR⟩ := h
    exact ⟨hτ, b, hb, hRS a b hR⟩
  · exact h
  · exact h

theorem pure {a : α} {b : β} (h : R a b) : Foresees σ ω P R (Pure.pure a) (Pure.pure b) := ⟨rfl, b, rfl, h⟩

theorem fault (f g : Fault) : Foresees σ ω P R (Action.fault f) (Action.fault g) := ⟨g, ω, rfl⟩

theorem block {x : VarId} (h : P x → ∃ y, act' ω = .error (.blocked y) ω) :
    Foresees σ ω P R (Action.block x) act' := ⟨rfl, h⟩

theorem read {f : Store → α} {g : Store → β} (h : R (f σ) (g ω)) :
    Foresees σ ω P R (Action.read f) (Action.read g) := ⟨rfl, g ω, rfl, h⟩

/-- A check that comes out in one way. -/
theorem check {r r' : Except Fault α} (h : r = r' ∨ (∃ f, r = .error f) ∧ ∃ g, r' = .error g) :
    Foresees σ ω P (fun a b => a = b ∧ r = .ok a) (Action.ofExcept r) (Action.ofExcept r') := by
  rcases h with rfl | ⟨⟨f, rfl⟩, g, rfl⟩
  · cases r with
    | ok a => exact pure ⟨rfl, rfl⟩
    | error f => exact fault f f
  · exact fault f g

end Foresees

end Foresees

/-! ## Operands -/

variable {φ : Reading} {σ ω : Store} {P : VarId → Prop} {env env' : Dataflow.Env} {t u : Term} {v w : Value}

/-- The variables that an action waits for, as far as they matter, have no value in the other store. -/
def Unknown (φ : Reading) (ω : Store) (P : VarId → Prop) : Prop := ∀ x, P x → ∃ z, ω.resolve (φ.var x) = .var z

theorem Env.foresees_var (henv : φ.Scopes σ ω env env') (x : Ident) :
    Foresees σ ω P (fun y y' => φ.Twins σ ω (.var y) (.var y')) (env.var x) (env'.var x) := by
  rw [Env.var, Env.var]
  rcases henv.find? x with ⟨h, h'⟩ | ⟨y, y', h, h', hyy⟩
  · rw [h, h']
    exact .fault _ _
  · rw [h, h']
    exact .pure hyy

/-- Both stores resolve twins. -/
theorem Action.foresees_resolve (hs : φ.Sound σ ω) (h : φ.Twins σ ω t u) :
    Foresees σ ω P (φ.Found σ ω) (Action.read fun σ => σ.resolve t) (Action.read fun σ => σ.resolve u) :=
  .read ⟨h.resolve hs, Store.resolve_resolve hs.targetClosed.linked u⟩

namespace Operand

/-- What an operand stands for can be foreseen if its identifiers are read alike. -/
theorem foresees_term (hs : φ.Sound σ ω) (henv : φ.Scopes σ ω env env') {a : Operand} (ha : a.Exact) :
    Foresees σ ω P (φ.Found σ ω) (a.term env) (a.term env') := by
  cases a with
  | ident x => exact (Env.foresees_var henv x).bind fun y y' hyy => Action.foresees_resolve hs hyy
  | lit s => exact .pure ⟨Reading.twins_scalar φ σ ω ha, rfl⟩

/-- Reading the value of an operand foresees reading it in the other store. -/
theorem foresees_value (hs : φ.Sound σ ω) (hP : Unknown φ ω P) (henv : φ.Scopes σ ω env env') {a : Operand}
    (ha : a.Exact) : Foresees σ ω P (fun v w => φ.Twins σ ω (.val v) (.val w)) (a.value env) (a.value env') := by
  refine (a.foresees_term hs henv ha).bind fun t u htu => ?_
  cases t with
  -- an unknown variable is carried to a variable
  | var x =>
    refine .block fun hx => ?_
    obtain ⟨z, rfl⟩ := htu.toTwins.exists_var htu.final (hP x hx)
    exact ⟨z, rfl⟩
  | val v =>
    obtain ⟨w, rfl⟩ := htu.toTwins.exists_val htu.final
    -- a failed value is read as itself, and nothing else is read as one
    rcases Reading.twin_cases htu.same with ⟨r, s, rfl, rfl⟩ | ⟨hrecord, rfl⟩
    · exact .pure htu.toTwins
    · cases v with
      | failed f => exact .fault _ _
      | record r => exact absurd rfl (hrecord r)
      | proc p => cases p <;> exact .pure htu.toTwins
      | _ => exact .pure htu.toTwins

theorem foresees_terms (hs : φ.Sound σ ω) (henv : φ.Scopes σ ω env env') {args : List Operand}
    (hargs : ∀ a ∈ args, a.Exact) :
    Foresees σ ω P (List.Forall₂ (φ.Twins σ ω)) (terms env args) (terms env' args) := by
  induction args with
  | nil => exact .pure .nil
  | cons a rest ih =>
    obtain ⟨ha, hrest⟩ := List.forall_mem_cons.mp hargs
    refine (a.foresees_term hs henv ha).bind fun t u htu => (ih hrest).bind fun ts us htus => ?_
    exact .pure (.cons htu.toTwins htus)

/-- Looking up operands foresees looking them up in the other scope: the same of them are missing. -/
theorem foresees_looks (henv : φ.Scopes σ ω env env') {args : List Operand} (hargs : ∀ a ∈ args, a.Exact) :
    Foresees σ ω P (List.Forall₂ (φ.Twins σ ω)) (Action.ofExcept (looks env args))
      (Action.ofExcept (looks env' args)) := by
  -- one operand is there in both scopes or in none
  have hlook : ∀ a : Operand, a.Exact → (∃ t u, a.look env = .ok t ∧ a.look env' = .ok u ∧ φ.Twins σ ω t u) ∨
      ∃ f g, a.look env = .error f ∧ a.look env' = .error g := by
    intro a ha
    cases a with
    | ident x =>
      rw [look, look]
      rcases henv.find? x with ⟨h, h'⟩ | ⟨y, y', h, h', hyy⟩
      · rw [h, h']
        exact .inr ⟨_, _, rfl, rfl⟩
      · rw [h, h']
        exact .inl ⟨_, _, rfl, rfl, hyy⟩
    | lit s => exact .inl ⟨_, _, rfl, rfl, Reading.twins_scalar φ σ ω ha⟩
  -- on the operands; the first that is missing decides
  have hall : (∃ ts us, looks env args = .ok ts ∧ looks env' args = .ok us ∧ List.Forall₂ (φ.Twins σ ω) ts us) ∨
      ∃ f g, looks env args = .error f ∧ looks env' args = .error g := by
    induction args with
    | nil => exact .inl ⟨[], [], rfl, rfl, .nil⟩
    | cons a rest ih =>
      obtain ⟨ha, hrest⟩ := List.forall_mem_cons.mp hargs
      rw [looks, looks]
      rcases hlook a ha with ⟨t, u, ht, hu, htu⟩ | ⟨f, g, hf, hg⟩
      · rw [ht, hu]
        rcases ih hrest with ⟨ts, us, hts, hus, htus⟩ | ⟨f, g, hf, hg⟩
        · rw [hts, hus]
          exact .inl ⟨_, _, rfl, rfl, .cons htu htus⟩
        · rw [hf, hg]
          exact .inr ⟨f, g, rfl, rfl⟩
      · rw [hf, hg]
        exact .inr ⟨f, g, rfl, rfl⟩
  rcases hall with ⟨ts, us, hts, hus, htus⟩ | ⟨f, g, hf, hg⟩
  · rw [hts, hus]
    exact .pure htus
  · rw [hf, hg]
    exact .fault f g

end Operand

/-! ## Literals and numbers -/

/-- A function of values that knows literals and numbers only gives the same for twins. -/
theorem Reading.Twins.check {β : Type} (h : φ.Twins σ ω (.val v) (.val w)) {f : Value → Except Fault β}
    (hf : ∀ v : Value, ¬ v.IsScalar → ∃ g, f v = .error g) :
    f v = f w ∨ (∃ g, f v = .error g) ∧ ∃ g, f w = .error g := by
  rcases h.scalar_cases with rfl | ⟨hv, hw⟩
  · exact .inl rfl
  · exact .inr ⟨hf v hv, hf w hw⟩

theorem Reading.Twins.foresees {β : Type} (h : φ.Twins σ ω (.val v) (.val w)) {f : Value → Except Fault β}
    (hf : ∀ v : Value, ¬ v.IsScalar → ∃ g, f v = .error g) :
    Foresees σ ω P (fun a b => a = b) (Action.ofExcept (f v)) (Action.ofExcept (f w)) :=
  (Foresees.check (h.check hf)).mono fun _ _ h => h.1

/-- So does a function of two values. -/
theorem Reading.Twins.check₂ {β : Type} {v' w' : Value} (hv : φ.Twins σ ω (.val v) (.val v'))
    (hw : φ.Twins σ ω (.val w) (.val w')) {f : Value → Value → Except Fault β}
    (hleft : ∀ a b : Value, ¬ a.IsScalar → ∃ g, f a b = .error g)
    (hright : ∀ a b : Value, ¬ b.IsScalar → ∃ g, f a b = .error g) :
    f v w = f v' w' ∨ (∃ g, f v w = .error g) ∧ ∃ g, f v' w' = .error g := by
  rcases hv.scalar_cases with rfl | ⟨hv, hv'⟩
  · exact hw.check (hright v)
  · exact .inr ⟨hleft v w hv, hleft v' w' hv'⟩

namespace Value

variable {a b : Value}

theorem asNum_error (h : ¬ a.IsScalar) : ∃ f, a.asNum = .error f := by
  cases a with
  | lit _ | num _ => exact absurd trivial h
  | _ => exact ⟨_, rfl⟩

theorem asBool_error (h : ¬ a.IsScalar) : ∃ f, a.asBool = .error f := by
  cases a with
  | lit _ | num _ => exact absurd trivial h
  | _ => exact ⟨_, rfl⟩

theorem asLiteral_error (h : ¬ a.IsScalar) : ∃ f, a.asLiteral = .error f := by
  cases a with
  | lit _ | num _ => exact absurd trivial h
  | _ => exact ⟨_, rfl⟩

theorem toFeature_error (h : ¬ a.IsScalar) : ∃ f, a.toFeature = .error f := by
  cases a with
  | lit _ | num _ => exact absurd trivial h
  | _ => exact ⟨_, rfl⟩

/-- Arithmetic fails if the left side is no constant. -/
theorem arith_error_left (op : ArithOp) (h : ¬ a.IsScalar) : ∃ f, a.arith op b = .error f := by
  obtain ⟨f, hf⟩ := asNum_error h
  unfold Value.arith
  split
  · exact absurd trivial h
  · exact ⟨f, by rw [hf]; rfl⟩

theorem arith_error_right (op : ArithOp) (h : ¬ b.IsScalar) : ∃ f, a.arith op b = .error f := by
  obtain ⟨f, hf⟩ := asNum_error h
  unfold Value.arith
  split
  · exact absurd trivial h
  · rcases a.asNum with g | m
    · exact ⟨g, rfl⟩
    · exact ⟨f, by rw [hf]; rfl⟩

theorem related_error_left (op : RelOp) (h : ¬ a.IsScalar) : ∃ f, a.related op b = .error f := by
  obtain ⟨f, hf⟩ := asNum_error h
  unfold Value.related
  split
  · exact absurd trivial h
  · exact ⟨f, by rw [hf]; rfl⟩

theorem related_error_right (op : RelOp) (h : ¬ b.IsScalar) : ∃ f, a.related op b = .error f := by
  obtain ⟨f, hf⟩ := asNum_error h
  unfold Value.related
  split
  · exact absurd trivial h
  · rcases a.asNum with g | m
    · exact ⟨g, rfl⟩
    · exact ⟨f, by rw [hf]; rfl⟩

end Value

namespace Num

variable {m n r : Num}

theorem IsInteger.negate (h : n.IsInteger) : n.negate.IsInteger := by
  cases n with
  | int32 | int64 => trivial
  | _ => exact h.elim

/-- Arithmetic of integers gives integers. -/
theorem IsInteger.arith (hm : m.IsInteger) (hn : n.IsInteger) {op : ArithOp} (h : m.arith op n = .ok r) :
    r.IsInteger := by
  -- on either width the operators give a number of that width
  have h32 : ∀ a b : Int32, (do return int32 (← arith32 op a b)) = Except.ok (ε := ArithFailure) r → r.IsInteger := by
    intro a b hab
    rcases hr : arith32 op a b with f | c
    · rw [hr] at hab
      cases hab
    · rw [hr] at hab
      cases hab
      trivial
  have h64 : ∀ a b : Int64, (do return int64 (← arith64 op a b)) = Except.ok (ε := ArithFailure) r → r.IsInteger := by
    intro a b hab
    rcases hr : arith64 op a b with f | c
    · rw [hr] at hab
      cases hab
    · rw [hr] at hab
      cases hab
      trivial
  -- a pair of widths is calculated in the larger of the two
  cases m with
  | int32 a =>
    cases n with
    | int32 b => exact h32 _ _ h
    | int64 b => exact h64 _ _ h
    | _ => exact hn.elim
  | int64 a =>
    cases n with
    | int32 b => exact h64 _ _ h
    | int64 b => exact h64 _ _ h
    | _ => exact hn.elim
  | _ => exact hm.elim

end Num

/-- The sum, difference and so on of integers and strings refers to nothing. -/
theorem Value.twins_arith {a b r : Value} {op : ArithOp} (ha : a.Exact) (hb : b.Exact) (h : a.arith op b = .ok r) :
    φ.Twins σ ω (.val r) (.val r) := by
  unfold Value.arith at h
  split at h
  · cases h
    exact Reading.twins_lit φ σ ω _
  · cases a with
    | num m =>
      cases b with
      | num n =>
        simp only [asNum, bind, Except.bind] at h
        split at h
        · next c hc =>
          cases h
          exact Reading.twins_num φ σ ω ((ha m rfl).arith (hb n rfl) hc)
        · cases h
      | _ => cases h
    | _ => cases h

/-! ## Records -/

namespace Reading

/-- Fields of one feature whose values are twins. -/
structure FieldTwins (φ : Reading) (σ ω : Store) (f g : Dataflow.Field) : Prop where
  feature : f.feature = g.feature
  value : φ.Twins σ ω f.value g.value

/-- Records of one label whose fields are twins. -/
structure RecordTwins (φ : Reading) (σ ω : Store) (r s : Dataflow.Record) : Prop where
  label : r.label = s.label
  fields : List.Forall₂ (φ.FieldTwins σ ω) r.fields s.fields

/-- Two records of the stores that are the same as values. -/
theorem Twins.record (hs : φ.Sound σ ω) {r s : RecordId} (h : φ.Twins σ ω (.val (.record r)) (.val (.record s))) :
    φ.RecordTwins σ ω (σ.record r) (ω.record s) := by
  have hread := hs.reads.record r h.isIn
  obtain ⟨hshape, hsides⟩ := h.same.record rfl rfl
  obtain ⟨hlabel, hfeatures⟩ := Record.sameShape_iff.mp hshape
  have hlength : (σ.record r).fields.length = (ω.record (φ.record r)).fields.length := hread.fields.length_eq
  refine ⟨hread.label.trans hlabel, List.forall₂_iff_get.mpr ⟨?_, fun i hi hi' => ?_⟩⟩
  · rw [hlength]
    simpa using congrArg List.length hfeatures
  · obtain ⟨f, hf, hff⟩ := hread.getElem?.1 _ (List.getElem?_eq_getElem hi)
    have hfeature := congrArg (fun fs => fs[i]?) hfeatures
    simp only [List.getElem?_map, hf, List.getElem?_eq_getElem hi'] at hfeature
    have hside := hsides _ (Record.mem_sides.mpr ⟨i, f, _, hf, List.getElem?_eq_getElem hi', rfl⟩)
    have hmem : (σ.record r).fields[i] ∈ (σ.record r).fields := List.getElem_mem hi
    have hmem' : (ω.record s).fields[i] ∈ (ω.record s).fields := List.getElem_mem hi'
    refine ⟨hff.1.trans (Option.some.inj hfeature), hs.closed.record r _ hmem, hs.exact.fields r _ hmem,
      hs.targetClosed.record s _ hmem', hs.targetExact.fields s _ hmem', hff.2.trans hside⟩

/-- The values of a feature. -/
theorem RecordTwins.select? {r s : Dataflow.Record} (h : φ.RecordTwins σ ω r s) (f : Feature) :
    r.select? f = none ∧ s.select? f = none ∨
      ∃ t u, r.select? f = some t ∧ s.select? f = some u ∧ φ.Twins σ ω t u := by
  have hfeatures : r.fields.map Dataflow.Field.feature = s.fields.map Dataflow.Field.feature := by
    rw [← List.forall₂_eq_eq_eq, List.forall₂_map_left_iff, List.forall₂_map_right_iff]
    exact h.fields.imp fun _ _ hab => hab.feature
  rw [Record.select?_of_indexOf? (Record.indexOf?_congr hfeatures f), Record.select?_of_indexOf? rfl]
  cases s.indexOf? f with
  | none => exact .inl ⟨rfl, rfl⟩
  | some i =>
    rw [Option.bind_some, Option.bind_some]
    by_cases hi : i < r.fields.length
    · have hi' : i < s.fields.length := h.fields.length_eq ▸ hi
      rw [List.getElem?_eq_getElem hi, List.getElem?_eq_getElem hi']
      exact .inr ⟨_, _, rfl, rfl, (h.fields.get hi hi').value⟩
    · have hi' : ¬ i < s.fields.length := h.fields.length_eq ▸ hi
      rw [List.getElem?_eq_none (Nat.le_of_not_lt hi), List.getElem?_eq_none (Nat.le_of_not_lt hi')]
      exact .inl ⟨rfl, rfl⟩

/-- Sorting looks at features only. -/
theorem sortFields_twins {fs gs : List Dataflow.Field} (h : List.Forall₂ (φ.FieldTwins σ ω) fs gs) :
    List.Forall₂ (φ.FieldTwins σ ω) (Record.sortFields fs) (Record.sortFields gs) := by
  -- both lists are sorted as one list of pairs
  obtain ⟨hlength, hpairs⟩ := List.forall₂_iff_zip.mp h
  have hleft : (fs.zip gs).map Prod.fst = fs := List.map_fst_zip (Nat.le_of_eq hlength)
  have hright : (fs.zip gs).map Prod.snd = gs := List.map_snd_zip (Nat.le_of_eq hlength.symm)
  have hfst := List.map_mergeSort (l := fs.zip gs) (f := Prod.fst)
    (r := fun p q => (p.1.feature.compare q.1.feature).isLE)
    (s := fun a b : Dataflow.Field => (a.feature.compare b.feature).isLE) fun _ _ _ _ => rfl
  have hsnd := List.map_mergeSort (l := fs.zip gs) (f := Prod.snd)
    (r := fun p q => (p.1.feature.compare q.1.feature).isLE)
    (s := fun a b : Dataflow.Field => (a.feature.compare b.feature).isLE) fun p hp q hq => by
      rw [(hpairs hp).feature, (hpairs hq).feature]
  rw [hleft] at hfst
  rw [hright] at hsnd
  rw [Record.sortFields, Record.sortFields, ← hfst, ← hsnd, List.forall₂_map_left_iff, List.forall₂_map_right_iff,
    List.forall₂_same]
  exact fun p hp => hpairs (List.mem_mergeSort.mp hp)

/-- Fields that are read alike have the same repeated features. -/
theorem repeated?_twins {fs gs : List Dataflow.Field} (h : List.Forall₂ (φ.FieldTwins σ ω) fs gs) :
    Record.repeated? fs = Record.repeated? gs := by
  induction h with
  | nil => rfl
  | cons hab hrest ih =>
    cases hrest with
    | nil => rfl
    | cons hcd hrest =>
      rw [Record.repeated?, Record.repeated?, ih, hab.feature, hcd.feature]

end Reading

/-- Whether a record can be built can be foreseen, because it depends on the features only. -/
theorem Record.foresees_build (label : Literal) {fs gs : List Field} (h : List.Forall₂ (φ.FieldTwins σ ω) fs gs) :
    Foresees σ ω P (φ.RecordTwins σ ω) (Action.ofExcept (build label fs)) (Action.ofExcept (build label gs)) := by
  have hsorted := Reading.sortFields_twins h
  rw [build, build, Reading.repeated?_twins hsorted]
  split
  · exact .fault _ _
  · exact .pure ⟨rfl, hsorted⟩

/-- Tuples of twins are read alike. -/
theorem Record.tuple_twins (label : Literal) {ts us : List Term} (h : List.Forall₂ (φ.Twins σ ω) ts us) :
    φ.RecordTwins σ ω (tuple label ts) (tuple label us) := by
  have henum : ∀ i, List.Forall₂ (φ.FieldTwins σ ω) (enumerate i ts) (enumerate i us) := by
    induction h with
    | nil => exact fun _ => .nil
    | cons htu _ ih => exact fun i => .cons ⟨rfl, htu⟩ (ih (i + 1))
  exact ⟨rfl, henum 0⟩

/-- The procedures of an object are no closures. -/
theorem Obj.select?_ne_closure {o : Obj} {f : Feature} {p : Proc} (h : o.select? f = some p) (c : ClosureId) :
    p ≠ .closure c := by
  rintro rfl
  cases f with
  | str s =>
    have hmem : (s, Proc.closure c) ∈ o.procs := by
      obtain ⟨l, r, hsplit, -⟩ := List.lookup_eq_some_iff.mp h
      exact hsplit ▸ List.mem_append_right l List.mem_cons_self
    cases o with
    | cell d => simp [Obj.procs] at hmem
    | actor a => simp [Obj.procs] at hmem
  | _ => cases h

/-- Both stores select twins. -/
theorem Store.foresees_select (hs : φ.Sound σ ω) (h : φ.Twins σ ω (.val v) (.val w)) (f : Feature) :
    Foresees σ ω P (φ.Twins σ ω) (Action.ofExcept (σ.select v f)) (Action.ofExcept (ω.select w f)) := by
  rcases Reading.twin_cases h.same with ⟨r, s, rfl, rfl⟩ | ⟨hrecord, rfl⟩
  · rw [select, select]
    rcases (h.record hs).select? f with ⟨hr, hs'⟩ | ⟨t, u, hr, hs', htu⟩
    · rw [hr, hs']
      exact .fault _ _
    · rw [hr, hs']
      exact .pure htu
  · cases v with
    | record r => exact absurd rfl (hrecord r)
    | obj o =>
      -- an object is read as itself, and so are its procedures
      show Foresees σ ω P (φ.Twins σ ω) (Action.ofExcept (σ.select (.obj o) f)) (Action.ofExcept (ω.select (.obj o) f))
      rw [select, select]
      rcases hp : o.select? f with _ | p
      · exact .fault _ _
      · have hvalue : φ.value (.proc p) = .proc p := by
          cases p with
          | closure c => exact absurd rfl (Obj.select?_ne_closure hp c)
          | _ => rfl
        have hexact : Term.Exact (.val (.proc p)) := fun _ hv => Term.val.inj hv ▸ Value.exact_of_ne_num nofun
        refine .pure ⟨Obj.select?_in h.isIn hp, hexact, Obj.select?_in h.targetIn hp, hexact, ?_⟩
        rw [Reading.term, hvalue]
        exact .refl ω _
    | proc p => cases p <;> exact .fault _ _
    | _ => exact .fault _ _

/-! ## Scopes -/

namespace Env

theorem foresees_label (hs : φ.Sound σ ω) (hP : Unknown φ ω P) (henv : φ.Scopes σ ω env env')
    {label : Option Operand} (hlabel : ∀ a ∈ label, a.Exact) :
    Foresees σ ω P (fun l l' => l = l') (env.label label) (env'.label label) := by
  cases label with
  | none => exact .pure rfl
  | some a =>
    refine (a.foresees_value hs hP henv (hlabel a rfl)).bind fun v w hvw => ?_
    exact hvw.foresees fun _ => Value.asLiteral_error

/-- Reading the fields of a record foresees reading them in the other store, feature by feature. -/
theorem foresees_fields (hs : φ.Sound σ ω) (hP : Unknown φ ω P) (henv : φ.Scopes σ ω env env')
    {operands : List (Operand × Operand)} (hexact : ∀ p ∈ operands, p.1.Exact ∧ p.2.Exact) :
    Foresees σ ω P (List.Forall₂ (φ.FieldTwins σ ω)) (env.fields operands) (env'.fields operands) := by
  induction operands with
  | nil => exact .pure .nil
  | cons p rest ih =>
    obtain ⟨hp, hrest⟩ := List.forall_mem_cons.mp hexact
    refine (p.1.foresees_value hs hP henv hp.1).bind fun v w hvw => ?_
    -- features are literals, and so they are the same in both stores
    refine (hvw.foresees fun _ => Value.toFeature_error).bind fun f g hfg => ?_
    subst hfg
    refine (p.2.foresees_term hs henv hp.2).bind fun t u htu => (ih hrest).bind fun fs gs hfs => ?_
    exact .pure (.cons ⟨rfl, htu.toTwins⟩ hfs)

/-- Selecting foresees selecting from the twin. -/
theorem foresees_select (hs : φ.Sound σ ω) (hP : Unknown φ ω P) (henv : φ.Scopes σ ω env env')
    {record feature : Operand} (hrecord : record.Exact) (hfeature : feature.Exact) :
    Foresees σ ω P (φ.Twins σ ω) (env.select record feature) (env'.select record feature) := by
  refine (record.foresees_value hs hP henv hrecord).bind fun v w hvw => ?_
  refine (feature.foresees_value hs hP henv hfeature).bind fun v' w' hvw' => ?_
  refine (hvw'.foresees fun _ => Value.toFeature_error).bind fun f g hfg => ?_
  subst hfg
  have hread : Foresees σ ω P (fun r r' => r = σ.select v f ∧ r' = ω.select w f)
      (Action.read fun σ => σ.select v f) (Action.read fun σ => σ.select w f) := .read ⟨rfl, rfl⟩
  refine hread.bind fun r r' h => ?_
  obtain ⟨rfl, rfl⟩ := h
  exact Store.foresees_select hs hvw f

theorem foresees_capture (henv : φ.Scopes σ ω env env') (idents : List Ident) :
    Foresees σ ω P (φ.Scopes σ ω) (env.capture idents) (env'.capture idents) := by
  induction idents with
  | nil => exact .pure ⟨fun p hp => absurd hp List.not_mem_nil, fun p hp => absurd hp List.not_mem_nil, .nil⟩
  | cons x rest ih =>
    refine (foresees_var henv x).bind fun y y' hyy => ih.bind fun ys ys' hys => ?_
    exact .pure ⟨List.forall_mem_cons.mpr ⟨hyy.isIn, hys.isIn⟩, List.forall_mem_cons.mpr ⟨hyy.targetIn, hys.targetIn⟩,
      .cons ⟨rfl, hyy.same⟩ hys.env⟩

end Env

/-! ## Comparing -/

namespace Action

theorem entails_of_equal {a b : Term} (h : σ.compare a b = .equal) : entails a b σ = .ok true σ := by
  rw [entails, bind_apply, read]
  dsimp only
  rw [h]
  rfl

theorem entails_of_different {a b : Term} (h : σ.compare a b = .different) : entails a b σ = .ok false σ := by
  rw [entails, bind_apply, read]
  dsimp only
  rw [h]
  rfl

theorem entails_of_unknown {a b : Term} {x : VarId} (h : σ.compare a b = .unknown x) :
    entails a b σ = .error (.blocked x) σ := by
  rw [entails, bind_apply, read]
  dsimp only
  rw [h]
  rfl

/-- A yes is a yes in the other store, and so is a no. -/
theorem foresees_entails (hs : φ.Sound σ ω) {a b a' b' : Term} (ha : φ.Twins σ ω a a') (hb : φ.Twins σ ω b b')
    (hunknown : ∀ x, σ.compare a b = .unknown x → P x → ∃ y, ω.compare a' b' = .unknown y) :
    Foresees σ ω P (fun r r' => r = r') (entails a b) (entails a' b') := by
  rw [Foresees]
  -- the three verdicts; the first two are kept by every reading
  rcases hverdict : σ.compare a b with _ | _ | x
  · have hsame := (Store.compare_eq_equal_iff hs.closed hs.exact ha.isIn hb.isIn ha.exact).mp hverdict
    have hread := hs.reads.same hs.closed ha.isIn hb.isIn hsame
    have hother := (ha.same.symm.trans hread).trans hb.same
    rw [entails_of_equal hverdict]
    exact ⟨rfl, true, entails_of_equal ((Store.compare_eq_equal_iff hs.targetClosed hs.targetExact ha.targetIn
      hb.targetIn ha.targetExact).mpr hother), rfl⟩
  · have hdiffers := (Store.compare_eq_different_iff hs.closed ha.isIn hb.isIn (hs.exact.floatFree ha.exact)).mp hverdict
    have hother := (hs.reads.differs hs.closed ha.isIn hb.isIn hdiffers).congr ha.same hb.same
    rw [entails_of_different hverdict]
    exact ⟨rfl, false, entails_of_different ((Store.compare_eq_different_iff hs.targetClosed ha.targetIn hb.targetIn
      (hs.targetExact.floatFree ha.targetExact)).mpr hother), rfl⟩
  · rw [entails_of_unknown hverdict]
    refine ⟨rfl, fun hx => ?_⟩
    obtain ⟨y, hy⟩ := hunknown x hverdict hx
    exact ⟨y, entails_of_unknown hy⟩

end Action

/-- Comparing with a constant waits in the other store for as long as the term has no value there. -/
theorem Action.foresees_entails_scalar (hs : φ.Sound σ ω) (hP : Unknown φ ω P) (h : φ.Twins σ ω t u) {s : Scalar}
    (hexact : s.toValue.Exact) :
    Foresees σ ω P (fun r r' => r = r') (entails t (.val s.toValue)) (entails u (.val s.toValue)) := by
  refine foresees_entails hs h (Reading.twins_scalar φ σ ω hexact) fun x hx hPx => ?_
  have htwins := h.resolve hs
  rw [Store.compare_scalar_eq_unknown.mp hx] at htwins
  obtain ⟨z, hz⟩ := htwins.exists_var (Store.resolve_resolve hs.targetClosed.linked u) (hP x hPx)
  exact ⟨z, Store.compare_scalar_eq_unknown.mpr hz⟩

/-! ## Plans -/

namespace Reading

/-- What is still to be done, in both stores. -/
structure Stacks (φ : Reading) (σ ω : Store) (s s' : Dataflow.Stack) : Prop where
  isIn : s.In σ
  targetIn : s'.In ω
  stack : φ.Stack ω s s'

/-- Identifiers and terms that are twins. -/
abbrev Bindings (φ : Reading) (σ ω : Store) (bs bs' : List (Ident × Term)) : Prop :=
  List.Forall₂ (fun p q => p.1 = q.1 ∧ φ.Twins σ ω p.2 q.2) bs bs'

/-- One move is to do in the first store what the other one is to do in the other store. -/
inductive Moves (φ : Reading) (σ ω : Store) : Move → Move → Prop where
  | go {fs fs' : Dataflow.Stack} (h : φ.Stacks σ ω fs fs') : Moves φ σ ω (.go fs) (.go fs')
  | fresh (idents : List Ident) (body : Instr) {env env' : Dataflow.Env} (henv : φ.Scopes σ ω env env') :
      Moves φ σ ω (.fresh idents body env) (.fresh idents body env')
  | enter (body : Instr) {bs bs' : List (Ident × Term)} {env env' : Dataflow.Env} (hbs : φ.Bindings σ ω bs bs')
      (henv : φ.Scopes σ ω env env') : Moves φ σ ω (.enter bs body env) (.enter bs' body env')
  | bind {x y : VarId} {t u : Term} (hxy : φ.Twins σ ω (.var x) (.var y)) (htu : φ.Twins σ ω t u) :
      Moves φ σ ω (.bind x t) (.bind y u)
  | unify {x y : VarId} {t u : Term} (hxy : φ.Twins σ ω (.var x) (.var y)) (htu : φ.Twins σ ω t u) :
      Moves φ σ ω (.unify x t) (.unify y u)
  | record (x : Ident) {env env' : Dataflow.Env} {r r' : Dataflow.Record} (henv : φ.Scopes σ ω env env')
      (hr : φ.RecordTwins σ ω r r') : Moves φ σ ω (.record env x r) (.record env' x r')
  | closure (x : Ident) (proc : ProcDef) {env env' captured captured' : Dataflow.Env} (henv : φ.Scopes σ ω env env')
      (hcaptured : φ.Scopes σ ω captured captured') :
      Moves φ σ ω (.closure env x ⟨proc, captured⟩) (.closure env' x ⟨proc, captured'⟩)

/-- Instructions in scopes that correspond make stacks that correspond. -/
theorem Scopes.frames (h : φ.Scopes σ ω env env') (instrs : List Instr) :
    φ.Stacks σ ω (instrs.map (.run · env)) (instrs.map (.run · env')) where
  isIn f hf := by
    obtain ⟨instr, -, rfl⟩ := List.mem_map.mp hf
    exact h.isIn
  targetIn f hf := by
    obtain ⟨instr, -, rfl⟩ := List.mem_map.mp hf
    exact h.targetIn
  stack := by
    rw [Stack, List.forall₂_map_left_iff, List.forall₂_map_right_iff, List.forall₂_same]
    exact fun instr _ => .run instr h.env

theorem Scopes.frame (h : φ.Scopes σ ω env env') (instr : Instr) : φ.Stacks σ ω [.run instr env] [.run instr env'] :=
  h.frames [instr]

end Reading

mutual

/-- What matching finds out is final. -/
theorem Pattern.foresees_look (hs : φ.Sound σ ω) (hP : Unknown φ ω P) : (p : Pattern) → p.Exact → {t u : Term} →
    φ.Twins σ ω t u → Foresees σ ω P (Option.Rel (φ.Bindings σ ω)) (p.look t) (p.look u)
  | .ident x, _, t, u, h => by
    rw [Pattern.look, Pattern.look]
    exact .pure (.some (.cons ⟨rfl, h⟩ .nil))
  | .lit s, hp, t, u, h => by
    rw [Pattern.Exact] at hp
    rw [Pattern.look, Pattern.look]
    refine (Action.foresees_entails_scalar hs hP h hp).bind fun answer answer' hanswer => ?_
    subst hanswer
    cases answer with
    | true => exact .pure (.some .nil)
    | false => exact .pure .none
  | .record label fields isOpen, hp, t, u, h => by
    rw [Pattern.Exact] at hp
    rw [Pattern.look, Pattern.look]
    refine (Action.foresees_resolve hs h).bind fun t' u' htu => ?_
    -- an unbound term is asked for in both stores
    cases t' with
    | var x =>
      refine .block fun hx => ?_
      obtain ⟨z, rfl⟩ := htu.toTwins.exists_var htu.final (hP x hx)
      exact ⟨z, rfl⟩
    | val v =>
      obtain ⟨w, rfl⟩ := htu.toTwins.exists_val htu.final
      -- a record is matched field by field, and everything else is no record on either side
      rcases Reading.twin_cases htu.same with ⟨r, s, rfl, rfl⟩ | ⟨hrecord, rfl⟩
      · have hr := htu.toTwins.record hs
        have hread : Foresees σ ω P (φ.RecordTwins σ ω) (Action.read fun σ => σ.record r)
            (Action.read fun σ => σ.record s) := .read hr
        refine hread.bind fun a b hab => ?_
        have hcount : a.count = b.count := hab.fields.length_eq
        rw [hab.label, hcount]
        split
        · exact .pure .none
        · split
          · exact .pure .none
          · exact Pattern.foresees_lookFields hs hP fields hp hab
      · cases v with
        | record r => exact absurd rfl (hrecord r)
        | proc p => cases p <;> exact .pure .none
        | _ => exact .pure .none

/-- Looking at the fields of a record foresees looking at those of its twin, and the captures correspond. -/
theorem Pattern.foresees_lookFields (hs : φ.Sound σ ω) (hP : Unknown φ ω P) : (fields : List (Scalar × Pattern)) →
    Pattern.FieldsExact fields → {r s : Record} → φ.RecordTwins σ ω r s →
    Foresees σ ω P (Option.Rel (φ.Bindings σ ω)) (Pattern.lookFields fields r) (Pattern.lookFields fields s)
  | [], _, r, s, _ => by
    rw [Pattern.lookFields, Pattern.lookFields]
    exact .pure (.some .nil)
  | (f, p) :: rest, hexact, r, s, h => by
    rw [Pattern.FieldsExact] at hexact
    rw [Pattern.lookFields, Pattern.lookFields]
    refine (Foresees.check (.inl rfl)).bind fun feature feature' hfeature => ?_
    obtain ⟨rfl, -⟩ := hfeature
    -- neither record has the field, or both have it with terms that correspond
    rcases h.select? feature with ⟨hr, hs'⟩ | ⟨t, u, hr, hs', htu⟩
    · rw [hr, hs']
      exact .pure .none
    · rw [hr, hs']
      refine (Pattern.foresees_look hs hP p hexact.1 htu).bind fun found found' hfound => ?_
      cases hfound with
      | none => exact .pure .none
      | some hcaptured =>
        refine (Pattern.foresees_lookFields hs hP rest hexact.2 h).bind fun more more' hmore => ?_
        cases hmore with
        | none => exact .pure .none
        | some hmore => exact .pure (.some (List.rel_append hcaptured hmore))

end

/-- Closures that are twins are closures of one procedure. -/
theorem Reading.Twins.closure (hs : φ.Sound σ ω) {c : ClosureId}
    (h : φ.Twins σ ω (.val (.proc (.closure c))) (.val w)) :
    ∃ c', w = .proc (.closure c') ∧ (σ.closure c).proc = (ω.closure c').proc ∧
      φ.Scopes σ ω (σ.closure c).env (ω.closure c').env := by
  rcases Reading.twin_cases h.same with ⟨_, _, h, -⟩ | ⟨-, rfl⟩
  · cases h
  · obtain ⟨hproc, henv⟩ := hs.reads.closure c h.isIn
    exact ⟨φ.closure c, rfl, hproc, hs.closed.closure c, hs.targetClosed.closure _, henv⟩

/-- Planning a call foresees planning that of the twin: only closures have a plan, and the scopes that they are entered with
correspond. -/
theorem Value.foresees_planCall (hs : φ.Sound σ ω) (henv : φ.Scopes σ ω env env') {args : List Operand}
    (hargs : ∀ a ∈ args, a.Exact) (h : φ.Twins σ ω (.val v) (.val w)) :
    Foresees σ ω P (φ.Moves σ ω) (v.planCall env args) (w.planCall env' args) := by
  by_cases hclosure : ∃ c, v = .proc (.closure c)
  · obtain ⟨c, rfl⟩ := hclosure
    obtain ⟨c', rfl, hproc, hscope⟩ := h.closure hs
    have hread : Foresees σ ω P (fun a b => a = σ.closure c ∧ b = ω.closure c')
        (Action.read fun σ => σ.closure c) (Action.read fun σ => σ.closure c') := .read ⟨rfl, rfl⟩
    rw [planCall, planCall]
    refine hread.bind fun a b hab => ?_
    obtain ⟨rfl, rfl⟩ := hab
    rw [← hproc]
    split
    · exact .fault _ _
    · refine (Operand.foresees_looks henv hargs).bind fun ts us htus => .pure (.enter _ ?_ hscope)
      -- the arguments go to the parameters in order, on both sides
      generalize (σ.closure c).proc.params = params
      induction htus generalizing params with
      | nil => cases params <;> exact .nil
      | cons htu _ ih =>
        cases params with
        | nil => exact .nil
        | cons x params => exact .cons ⟨rfl, htu⟩ (ih params)
  · -- whatever else is applied, the plan is at fault in both stores
    have hfault : ∀ {v : Value} {env : Env}, (∀ c, v ≠ .proc (.closure c)) →
        v.planCall env args = Action.fault (.notAProc "") := by
      intro v env hv
      cases v with
      | proc p =>
        cases p with
        | closure c => exact absurd rfl (hv c)
        | _ => rfl
      | _ => rfl
    -- the twin is not a closure either
    have hw : ∀ c, w ≠ .proc (.closure c) := by
      rintro c rfl
      rcases Reading.twin_cases h.same with ⟨_, _, -, h'⟩ | ⟨-, h'⟩
      · cases h'
      · cases v with
        | proc p =>
          cases p with
          | closure c => exact hclosure ⟨c, rfl⟩
          | _ => cases h'
        | _ => cases h'
    rw [hfault fun c hc => hclosure ⟨c, hc⟩, hfault hw]
    exact .fault _ _

/-- An instruction that binds the variable of an identifier. -/
theorem Env.foresees_bind (henv : φ.Scopes σ ω env env') (x : Ident) (htu : φ.Twins σ ω t u) :
    Foresees σ ω P (φ.Moves σ ω) (do return .bind (← env.var x) t) (do return .bind (← env'.var x) u) :=
  (foresees_var henv x).bind fun _ _ hxy => .pure (.bind hxy htu)

/-- **What an instruction plans is final.** -/
theorem Instr.foresees_plan (hs : φ.Sound σ ω) (hP : Unknown φ ω P) (henv : φ.Scopes σ ω env env') {instr : Instr}
    (hdecl : instr.Declarative) (hcompares : instr.Compares → ∀ x, ¬ P x) :
    Foresees σ ω P (φ.Moves σ ω) (instr.plan env) (instr.plan env') := by
  have hlit : ∀ l : Literal, φ.Twins σ ω (.val (.lit l)) (.val (.lit l)) := Reading.twins_lit φ σ ω
  -- each kind of instruction reads its operands and then moves, on both sides alike
  cases instr with
  | skip => exact .pure (.go ⟨nofun, nofun, .nil⟩)
  | seq instrs =>
    exact .pure (.go (henv.frames instrs))
  | fresh idents body => exact .pure (.fresh idents body henv)
  | bind x a =>
    refine (Env.foresees_var henv x).bind fun y y' hyy => (a.foresees_term hs henv hdecl).bind fun t u htu => ?_
    exact .pure (.bind hyy htu.toTwins)
  | arith op a b x =>
    refine (a.foresees_value hs hP henv hdecl.1).bind fun v v' hv => ?_
    refine (b.foresees_value hs hP henv hdecl.2).bind fun w w' hw => ?_
    refine (Foresees.check (hv.check₂ hw (fun _ _ => Value.arith_error_left op)
      fun _ _ => Value.arith_error_right op)).bind fun r r' hr => ?_
    obtain ⟨rfl, hr⟩ := hr
    exact Env.foresees_bind henv x (Value.twins_arith (hv.exact v rfl) (hw.exact w rfl) hr)
  | negate a x =>
    refine (a.foresees_value hs hP henv hdecl).bind fun v v' hv => ?_
    refine (Foresees.check (hv.check fun _ => Value.asNum_error)).bind fun n n' hn => ?_
    obtain ⟨rfl, hn⟩ := hn
    -- only a number can be negated, and this one is no float
    have hinteger : n.IsInteger := by
      cases v with
      | num m =>
        cases hn
        exact hv.exact _ rfl _ rfl
      | _ => cases hn
    exact Env.foresees_bind henv x (Reading.twins_num φ σ ω hinteger.negate)
  | not a x =>
    refine (a.foresees_value hs hP henv hdecl).bind fun v v' hv => ?_
    refine (hv.foresees fun _ => Value.asBool_error).bind fun b b' hb => ?_
    exact hb ▸ Env.foresees_bind henv x (hlit _)
  | rel op a b x =>
    refine (a.foresees_value hs hP henv hdecl.1).bind fun v v' hv => ?_
    refine (b.foresees_value hs hP henv hdecl.2).bind fun w w' hw => ?_
    refine (Foresees.check (hv.check₂ hw (fun _ _ => Value.related_error_left op)
      fun _ _ => Value.related_error_right op)).bind fun r r' hr => ?_
    exact hr.1 ▸ Env.foresees_bind henv x (hlit _)
  | entails a b x | disentails a b x =>
    refine (a.foresees_term hs henv hdecl.1).bind fun t t' ht => ?_
    refine (b.foresees_term hs henv hdecl.2).bind fun u u' hu => ?_
    refine (Action.foresees_entails hs ht.toTwins hu.toTwins fun y _ hy => absurd hy (hcompares trivial y)).bind
      fun answer answer' h => ?_
    exact h ▸ Env.foresees_bind henv x (hlit _)
  | cond test yes no =>
    refine (test.foresees_value hs hP henv hdecl).bind fun v v' hv => ?_
    refine (hv.foresees fun _ => Value.asBool_error).bind fun b b' hb => ?_
    exact hb ▸ .pure (.go (henv.frame _))
  | case arg pattern yes no =>
    refine (arg.foresees_term hs henv hdecl.1).bind fun t u htu => ?_
    refine (pattern.foresees_look hs hP hdecl.2 htu.toTwins).bind fun found found' hfound => ?_
    -- the pattern matches on both sides, or on neither
    cases hfound with
    | some hbs => exact .pure (.enter yes hbs henv)
    | none =>
      cases no with
      | some no => exact .pure (.go (henv.frame no))
      | none => exact (Foresees.read (R := fun _ _ => True) trivial).bind fun _ _ _ => .fault _ _
  | apply proc args =>
    refine (proc.foresees_value hs hP henv hdecl.1).bind fun v w hvw => ?_
    exact Value.foresees_planCall hs henv hdecl.2 hvw
  | select record feature x =>
    refine (Env.foresees_select hs hP henv hdecl.1 hdecl.2).bind fun t u htu => ?_
    exact (Env.foresees_var henv x).bind fun y y' hyy => .pure (.unify hyy htu)
  | createRecord x label fields =>
    refine (Env.foresees_label hs hP henv hdecl.1).bind fun l l' hl => ?_
    refine (Env.foresees_fields hs hP henv hdecl.2).bind fun fs gs hfs => ?_
    subst hl
    exact (Record.foresees_build l hfs).bind fun r s hrs => .pure (.record x henv hrs)
  | createTuple x label values =>
    refine (Env.foresees_label hs hP henv hdecl.1).bind fun l l' hl => ?_
    refine (Operand.foresees_terms hs henv hdecl.2).bind fun ts us htus => ?_
    subst hl
    exact .pure (.record x henv (Record.tuple_twins l htus))
  | createProc x params body =>
    exact (Env.foresees_capture henv _).bind fun ys ys' hys => .pure (.closure x ⟨params, body⟩ henv hys)
  | attempt _ _ _ | throw _ | selectApply _ _ _ | createActor _ _ _ | getCell _ _ | setCell _ _ => exact hdecl.elim

end Dataflow
