/-
Carrying out a move that has been carried out elsewhere.

Let one store be read in another one in which a move has been carried out already: there, what should be equal is
equal, and what should be made has been made (`Move.Leads`). Then the move can be carried out in the first store
too. It cannot conflict with anything, and the reading goes on: new variables, records and closures are read as those
that the other store has for them (`Move.perform_follows`).

A closure is equal to itself only. So a reading must not take two closures for one, and a new closure must be read as
one that has not been met. That is why a move says which closure it makes.
-/
import Dataflow.Proofs.Foresight
import Dataflow.Proofs.Constraints

set_option autoImplicit false

namespace Dataflow

/-! ## Moves that have been carried out -/

/-- In `ω` the move has been carried out: it has led to the stack, and it has made the closure. -/
inductive Move.Leads (ω : Store) (rest : Stack) : Move → Stack → Option ClosureId → Prop where
  | go (frames : Stack) : Leads ω rest (.go frames) (frames ++ rest) none
  | fresh (bindings : List (Ident × VarId)) (body : Instr) (env : Env) :
      Leads ω rest (.fresh (bindings.map Prod.fst) body env) (.run body (env.extend bindings) :: rest) none
  | enter {bindings : List (Ident × Term)} {placed : List (Ident × VarId)} (body : Instr) (env : Env)
      (h : List.Forall₂ (fun p q => p.1 = q.1 ∧ ω.Same p.2 (.var q.2)) bindings placed) :
      Leads ω rest (.enter bindings body env) (.run body (env.extend placed) :: rest) none
  | bind {x : VarId} {t : Term} (h : ω.Same (.var x) t) : Leads ω rest (.bind x t) rest none
  | unify {x : VarId} {t : Term} (h : ω.Same (.var x) t) : Leads ω rest (.unify x t) rest none
  | record {env : Env} {x : Ident} {r : Record} {y : VarId} {s : RecordId} (hx : env.find? x = some y)
      (hy : ω.Same (.var y) (.val (.record s))) (hr : Reading.self.Record ω r (ω.record s)) :
      Leads ω rest (.record env x r) rest none
  | closure {env : Env} {x : Ident} {c : Closure} {y : VarId} {d : ClosureId} (hx : env.find? x = some y)
      (hy : ω.Same (.var y) (.val (.proc (.closure d)))) (hc : Reading.self.Closure ω c (ω.closure d)) :
      Leads ω rest (.closure env x c) rest (some d)

namespace Store.Exact

variable {σ τ : Store}

/-! ## Integers -/

theorem of_eq (hσ : σ.Exact) (hvars : τ.vars = σ.vars) (hrecords : τ.records = σ.records) : τ.Exact where
  vars x v hx := hσ.vars x v (hvars ▸ hx)
  fields r f hf := by
    rw [record, hrecords] at hf
    exact hσ.fields r f hf

/-- All numbers are still integers if that holds of what the new variable is bound to. -/
theorem newVar (hσ : σ.Exact) {s : VarState} (hs : ∀ v, s = .bound v → v.Exact) : (σ.newVar s).2.Exact where
  vars x v hx := by
    rw [newVar_getElem?] at hx
    split at hx
    · exact hs v (Option.some.inj hx)
    · exact hσ.vars x v hx
  fields := hσ.fields

theorem freshVar (hσ : σ.Exact) : σ.freshVar.2.Exact := hσ.newVar nofun

/-- They are also if that holds of the fields of the new record. -/
theorem newRecord (hσ : σ.Exact) {r : Record} (hr : ∀ f ∈ r.fields, f.value.Exact) : (σ.newRecord r).2.Exact where
  vars := hσ.vars
  fields s f hf := by
    have hpush : (σ.newRecord r).2.records = σ.records.push r := rfl
    rw [record, hpush, Array.getD_eq_getD_getElem?, Array.getElem?_push] at hf
    split at hf
    · exact hr f hf
    · refine hσ.fields s f ?_
      rwa [record, Array.getD_eq_getD_getElem?]

/-- Making two variables equal brings in no numbers that have not been there before. -/
theorem unifyVars (hσ : σ.Closed) (hexact : σ.Exact) {x y : Nat} (hx : x < σ.vars.size) (hy : y < σ.vars.size) :
    (σ.unifyVars x y).2.Exact := by
  have hx' : σ.representative x < σ.vars.size := representative_lt_size hx
  have hy' : σ.representative y < σ.vars.size := representative_lt_size hy
  rw [Store.unifyVars]
  split
  · exact hexact
  · exact Exact.unify hσ hexact (Nat.lt_of_le_of_lt (Nat.min_le_left ..) hx') (Nat.max_lt.mpr ⟨hx', hy'⟩)
      (Reading.exact_var _) (Reading.exact_var _)

end Store.Exact

/-- Binding and merging variables makes no closures. -/
theorem Store.BindsMany.closures_eq {σ τ : Store} (h : σ.BindsMany τ) : τ.closures = σ.closures := by
  induction h with
  | refl => rfl
  | tail _ hbinds ih =>
    cases hbinds with
    | assign => rw [Store.assign_closures, ih]
    | merge => exact ih

/-! ## Readings that go on -/

namespace Reading

variable {φ ψ χ : Reading} {σ τ ρ ω : Store}

/-- The reading `φ` of `σ` goes on as the reading `ψ` of `τ`: they agree on what there was in `σ`, and closures that
are new in `τ` are read as the one with the given name. -/
structure GoesOn (φ : Reading) (σ ω : Store) (name : Option ClosureId) (ψ : Reading) (τ : Store) : Prop where
  grows : σ.Grows τ
  agrees : φ.Agrees ψ σ
  sound : ψ.Sound τ ω
  named : ∀ c : Nat, c < τ.closures.size → c < σ.closures.size ∨ name = some (ψ.closure c)

namespace GoesOn

variable {name : Option ClosureId} {t u : Term} {env env' : Dataflow.Env} {s s' : Dataflow.Stack}

theorem refl (hs : φ.Sound σ ω) : φ.GoesOn σ ω none φ σ := ⟨.refl σ, .refl φ σ, hs, fun _ hc => .inl hc⟩

/-- A change that makes no closures. -/
theorem of_closures_eq (hgrows : σ.Grows τ) (hagrees : φ.Agrees ψ σ) (hs : ψ.Sound τ ω)
    (hclosures : τ.closures = σ.closures) : φ.GoesOn σ ω none ψ τ :=
  ⟨hgrows, hagrees, hs, fun _ hc => .inl (hclosures ▸ hc)⟩

/-- One good step after the other is a good step. -/
theorem trans (h : φ.GoesOn σ ω none ψ τ) (h' : ψ.GoesOn τ ω name χ ρ) : φ.GoesOn σ ω name χ ρ where
  grows := h.grows.trans h'.grows
  agrees := h.agrees.trans h'.agrees h.grows
  sound := h'.sound
  named c hc := by
    rcases h'.named c hc with hc' | hname
    · exact .inl ((h.named c hc').resolve_right nofun)
    · exact .inr hname

/-- A change that makes no closures after one that may have. -/
theorem trans_none (h : φ.GoesOn σ ω name ψ τ) (h' : ψ.GoesOn τ ω none χ ρ) : φ.GoesOn σ ω name χ ρ where
  grows := h.grows.trans h'.grows
  agrees := h.agrees.trans h'.agrees h.grows
  sound := h'.sound
  named c hc := by
    have hc' : c < τ.closures.size := (h'.named c hc).resolve_right nofun
    rw [h'.agrees.closure c hc']
    exact h.named c hc'

theorem twins (h : φ.GoesOn σ ω name ψ τ) (htu : φ.Twins σ ω t u) : ψ.Twins τ ω t u where
  isIn := h.grows.term htu.isIn
  exact := htu.exact
  targetIn := htu.targetIn
  targetExact := htu.targetExact
  same := by
    rw [h.agrees.term htu.isIn]
    exact htu.same

theorem scopes (h : φ.GoesOn σ ω name ψ τ) (henv : φ.Scopes σ ω env env') : ψ.Scopes τ ω env env' :=
  ⟨h.grows.env henv.isIn, henv.targetIn, h.agrees.env henv.isIn henv.env⟩

theorem stack (h : φ.GoesOn σ ω name ψ τ) (hs : φ.Stacks σ ω s s') : ψ.Stacks τ ω s s' :=
  ⟨h.grows.stack hs.isIn, hs.targetIn, h.agrees.stack hs.isIn hs.stack⟩

theorem bindings (h : φ.GoesOn σ ω name ψ τ) {bs bs' : List (Ident × Term)} (hbs : φ.Bindings σ ω bs bs') :
    ψ.Bindings τ ω bs bs' :=
  hbs.imp fun _ _ hpq => ⟨hpq.1, h.twins hpq.2⟩

end GoesOn

namespace Sound

variable {t u : Term}

/-- A new unbound variable can be read as anything. -/
theorem newVar (hs : φ.Sound σ ω) (t : Term) : φ.GoesOn σ ω none (φ.setVar σ.vars.size t) σ.freshVar.2 := by
  have hsafe := Action.fresh_safe (σ := σ)
  have hdeeds : σ.Deeds σ.freshVar.2 := hsafe.1
  exact .of_closures_eq hdeeds.grows (agrees_setVar φ σ t) ⟨hs.reads.newVar hs.closed t, hdeeds.closed hs.closed,
    hs.exact.freshVar, hs.targetClosed, hs.targetExact⟩ rfl

/-- A new variable with a value is read as its value. -/
theorem newBound (hs : φ.Sound σ ω) {v : Value} (hv : v.In σ) (hexact : v.Exact) :
    φ.GoesOn σ ω none (φ.setVar σ.vars.size (.val (φ.value v))) (σ.newVar (.bound v)).2 := by
  have hdeeds : σ.Deeds (σ.newVar (.bound v)).2 := (Action.boundVar_safe hv).1
  refine .of_closures_eq hdeeds.grows (agrees_setVar φ σ _) ⟨hs.reads.newBound hs.closed hv, hdeeds.closed hs.closed,
    hs.exact.newVar fun w hw => ?_, hs.targetClosed, hs.targetExact⟩ rfl
  cases hw
  exact hexact

theorem newRecord (hs : φ.Sound σ ω) {x : Dataflow.Record} (hx : x.In σ) (hexact : ∀ f ∈ x.fields, f.value.Exact)
    {r : RecordId} (hr : φ.Record ω x (ω.record r)) :
    φ.GoesOn σ ω none (φ.setRecord σ.records.size r) (σ.newRecord x).2 := by
  have hdeeds : σ.Deeds (σ.newRecord x).2 := (Action.newRecord_safe hx).1
  exact .of_closures_eq hdeeds.grows (agrees_setRecord φ σ r) ⟨hs.reads.newRecord hs.closed hx hr,
    hdeeds.closed hs.closed, hs.exact.newRecord hexact, hs.targetClosed, hs.targetExact⟩ rfl

/-- A new closure can be carried to a closure that is not used yet, if the two are twins already. -/
theorem newClosure (hs : φ.Sound σ ω) {x : Dataflow.Closure} (hx : x.In σ) {c : ClosureId}
    (hc : φ.Closure ω x (ω.closure c)) (hnew : ∀ d : Nat, d < σ.closures.size → φ.closure d ≠ c) :
    φ.GoesOn σ ω (some c) (φ.setClosure σ.closures.size c) (σ.newClosure x).2 := by
  have hstep : Store.TableStep σ (σ.newClosure x).2 := .newClosure hx
  refine ⟨hstep.grows, agrees_setClosure φ σ c, ⟨hs.reads.newClosure hs.closed hx hc hnew, hstep.closed hs.closed,
    hs.exact.of_eq rfl rfl, hs.targetClosed, hs.targetExact⟩, fun d hd => ?_⟩
  have hpush : (σ.newClosure x).2.closures = σ.closures.push x := rfl
  rw [hpush, Array.size_push] at hd
  -- it is either an old closure, which is carried as before, or the new one
  rcases Nat.lt_succ_iff_lt_or_eq.mp hd with hlt | rfl
  · exact .inl hlt
  · exact .inr (congrArg some (setClosure_self φ _ c).symm)

/-- What the other store takes to be the same can be made equal. -/
theorem ofChange (hs : φ.Sound σ ω) {f : Store → Option Fault × Store} (hnone : (f σ).1 = none)
    (hbinds : σ.BindsMany (f σ).2) (hexact : (f σ).2.Exact) (hreads : φ.Reads (f σ).2 ω) :
    ∃ τ, Action.ofChange f σ = .ok () τ ∧ φ.GoesOn σ ω none φ τ := by
  refine ⟨(f σ).2, ?_, .of_closures_eq hbinds.deeds.grows (.refl φ σ) ⟨hreads, hbinds.deeds.closed hs.closed, hexact,
    hs.targetClosed, hs.targetExact⟩ hbinds.closures_eq⟩
  rw [Action.ofChange]
  generalize f σ = result at hnone
  obtain ⟨outcome, τ⟩ := result
  cases hnone
  rfl

/-- Terms that the reading takes for the same unify, and the store goes on being read by it. -/
theorem unify (hs : φ.Sound σ ω) {a b : Term} (ha : a.In σ) (hb : b.In σ) (hea : a.Exact) (heb : b.Exact)
    (hab : ω.Same (φ.term a) (φ.term b)) : ∃ τ, Action.unify a b σ = .ok () τ ∧ φ.GoesOn σ ω none φ τ := by
  obtain ⟨hnone, hreads⟩ := hs.reads.unify hs.closed hs.exact hs.targetExact ha hb hea heb hab
  exact hs.ofChange hnone (Store.unify_binds hs.closed ha hb)
    (Store.Exact.unify hs.closed hs.exact ha hb hea heb) hreads

theorem bindTerm (hs : φ.Sound σ ω) {x : Nat} {t : Term} (hx : x < σ.vars.size) (ht : t.In σ) (hexact : t.Exact)
    (hxt : ω.Same (φ.var x) (φ.term t)) : ∃ τ, Action.bindTerm x t σ = .ok () τ ∧ φ.GoesOn σ ω none φ τ := by
  cases t with
  | val v => exact hs.unify (a := .var x) hx ht (exact_var x) hexact hxt
  | var y =>
    obtain ⟨hnone, hreads⟩ := hs.reads.unifyVars hs.closed hs.exact hs.targetExact hx ht hxt
    exact hs.ofChange (f := fun σ => σ.unifyVars x y) hnone (Store.unifyVars_binds hs.closed hx ht)
      (Store.Exact.unifyVars hs.closed hs.exact hx ht) hreads

end Sound

/-! ## Scopes -/

theorem Scopes.extend {env env' bs bs' : Dataflow.Env} (henv : φ.Scopes σ ω env env') (hbs : φ.Scopes σ ω bs bs') :
    φ.Scopes σ ω (env.extend bs) (env'.extend bs') :=
  ⟨henv.isIn.extend hbs.isIn, henv.targetIn.extend hbs.targetIn,
    List.rel_append (List.forall₂_reverse_iff.mpr hbs.env) henv.env⟩

theorem Stacks.push {s s' : Dataflow.Stack} {env env' : Dataflow.Env} (hs : φ.Stacks σ ω s s')
    (henv : φ.Scopes σ ω env env') (instr : Instr) : φ.Stacks σ ω (.run instr env :: s) (.run instr env' :: s') :=
  ⟨hs.isIn.push henv.isIn instr, hs.targetIn.push henv.targetIn instr, .cons (.run instr henv.env) hs.stack⟩

theorem Stacks.append {s s' t t' : Dataflow.Stack} (hs : φ.Stacks σ ω s s') (ht : φ.Stacks σ ω t t') :
    φ.Stacks σ ω (s ++ t) (s' ++ t') :=
  ⟨fun f hf => (List.mem_append.mp hf).elim (hs.isIn f) (ht.isIn f),
    fun f hf => (List.mem_append.mp hf).elim (hs.targetIn f) (ht.targetIn f), List.rel_append hs.stack ht.stack⟩

/-- New variables are read as those that the other store has for them. -/
theorem Sound.freshBindings (hs : φ.Sound σ ω) {bs : List (Ident × VarId)} (hbs : Env.In ω bs) :
    ∃ new τ ψ, Action.freshBindings (bs.map Prod.fst) σ = .ok new τ ∧ φ.GoesOn σ ω none ψ τ ∧
      ψ.Scopes τ ω new bs := by
  -- one fresh variable after the other, each read as the variable that the final store has for it
  induction bs generalizing φ σ with
  | nil => exact ⟨[], σ, φ, rfl, .refl hs, fun _ h => absurd h List.not_mem_nil, hbs, .nil⟩
  | cons p rest ih =>
    obtain ⟨hp, hrest⟩ := List.forall_mem_cons.mp hbs
    have hfirst := hs.newVar (.var p.2)
    obtain ⟨new, τ, ψ, hnew, hgoes, hscopes⟩ := ih hfirst.sound hrest
    have hlt : σ.vars.size < σ.freshVar.2.vars.size := σ.newVar_lt_size _
    refine ⟨(p.1, σ.vars.size) :: new, τ, ψ, ?_, hfirst.trans hgoes, ?_, hbs, ?_⟩
    · have hfresh : Action.fresh σ = .ok σ.vars.size σ.freshVar.2 := rfl
      rw [List.map_cons, Action.freshBindings, bind_apply, hfresh]
      dsimp only
      rw [bind_apply, hnew]
      rfl
    · exact List.forall_mem_cons.mpr ⟨Nat.lt_of_lt_of_le hlt hgoes.grows.vars, hscopes.isIn⟩
    · refine .cons ⟨rfl, ?_⟩ hscopes.env
      rw [hgoes.agrees.var _ hlt, setVar_self]
      exact .refl ω _

/-- A term is put into a variable that is read as the one that the other store has for it. -/
theorem Sound.place (hs : φ.Sound σ ω) {t u : Term} (htu : φ.Twins σ ω t u) {z : Nat} (hz : z < ω.vars.size)
    (hu : ω.Same u (.var z)) :
    ∃ y τ ψ, Action.place t σ = .ok y τ ∧ φ.GoesOn σ ω none ψ τ ∧ ψ.Twins τ ω (.var y) (.var z) := by
  cases t with
  | var y => exact ⟨y, σ, φ, rfl, .refl hs, htu.isIn, exact_var y, hz, exact_var z, htu.same.trans hu⟩
  | val v =>
    have hgoes := hs.newBound htu.isIn (htu.exact v rfl)
    refine ⟨σ.vars.size, _, _, rfl, hgoes, σ.newVar_lt_size _, exact_var _, hz, exact_var z, ?_⟩
    rw [term, setVar_self]
    exact htu.same.trans hu

/-- So are the terms of several identifiers. -/
theorem Sound.placeAll (hs : φ.Sound σ ω) {bs bs' : List (Ident × Term)} (hbs : φ.Bindings σ ω bs bs')
    {placed : List (Ident × VarId)} (hin : Env.In ω placed)
    (hplaced : List.Forall₂ (fun p q => p.1 = q.1 ∧ ω.Same p.2 (.var q.2)) bs' placed) :
    ∃ new τ ψ, Action.placeAll bs σ = .ok new τ ∧ φ.GoesOn σ ω none ψ τ ∧ ψ.Scopes τ ω new placed := by
  -- along the bindings, each placed before the ones behind it
  induction bs generalizing φ σ bs' placed with
  | nil =>
    cases hbs
    cases hplaced
    exact ⟨[], σ, φ, rfl, .refl hs, fun _ h => absurd h List.not_mem_nil, hin, .nil⟩
  | cons p bs ih =>
    cases hbs with
    | @cons _ p' _ bs' hp hbs =>
      cases hplaced with
      | @cons _ q _ placed hq hplaced =>
        obtain ⟨hqin, hin⟩ := List.forall_mem_cons.mp hin
        obtain ⟨y, τ, ψ, hy, hfirst, htwins⟩ := hs.place hp.2 hqin hq.2
        obtain ⟨new, ρ, χ, hnew, hgoes, hscopes⟩ := ih hfirst.sound (hfirst.bindings hbs) hin hplaced
        have hlast := hgoes.twins htwins
        refine ⟨(p.1, y) :: new, ρ, χ, ?_, hfirst.trans hgoes, List.forall_mem_cons.mpr ⟨hlast.isIn, hscopes.isIn⟩,
          List.forall_mem_cons.mpr ⟨hqin, hin⟩, .cons ⟨hp.1.trans hq.1, hlast.same⟩ hscopes.env⟩
        rw [Action.placeAll, bind_apply, hy]
        dsimp only
        rw [bind_apply, hnew]
        rfl

/-! ## Moves -/

/-- Records that are twins, the second of which is one of the other store. -/
theorem RecordTwins.read {r s x : Dataflow.Record} (h : φ.RecordTwins σ ω r s) (hx : self.Record ω s x) :
    φ.Record ω r x := by
  refine ⟨h.label.trans hx.label, ?_⟩
  obtain ⟨-, hfields⟩ := h
  obtain ⟨-, hfields'⟩ := hx
  generalize r.fields = fs, s.fields = gs, x.fields = hs at hfields hfields'
  induction hfields generalizing hs with
  | nil =>
    cases hfields'
    exact .nil
  | cons hfg _ ih =>
    cases hfields' with
    | cons hgh hrest =>
      refine .cons ⟨hfg.feature.trans hgh.1, hfg.value.same.trans ?_⟩ (ih _ hrest)
      rw [← self_term (Field.value _)]
      exact hgh.2

/-- What the fields of the first of two twins contain is in its store. -/
theorem RecordTwins.left {r s : Dataflow.Record} (h : φ.RecordTwins σ ω r s) :
    ∀ f ∈ r.fields, f.value.In σ ∧ f.value.Exact := by
  intro f hf
  obtain ⟨-, hfields⟩ := h
  generalize r.fields = fs, s.fields = gs at hfields hf
  -- on how the fields correspond to each other
  induction hfields with
  | nil => exact absurd hf List.not_mem_nil
  | cons hfg _ ih =>
    rcases List.mem_cons.mp hf with rfl | hf
    · exact ⟨hfg.value.isIn, hfg.value.exact⟩
    · exact ih hf

/-- A scope that is carried to another one is carried to whatever reads the same there. -/
theorem Scopes.read {env env' env'' : Dataflow.Env} (h : φ.Scopes σ ω env env') (h' : self.Env ω env' env'') :
    φ.Env ω env env'' := by
  obtain ⟨-, -, henv⟩ := h
  -- on how the two scopes correspond
  induction henv generalizing env'' with
  | nil =>
    cases h'
    exact .nil
  | cons hpq _ ih =>
    cases h' with
    | cons hqr hrest => exact .cons ⟨hpq.1.trans hqr.1, hpq.2.trans hqr.2⟩ (ih hrest)

end Reading

variable {φ : Reading} {σ ω : Store}

/-- Binding the variable of an identifier to a value that its twin has. -/
theorem Env.bind_follows {env env' : Env} (hs : φ.Sound σ ω) (henv : φ.Scopes σ ω env env') {x : Ident} {y : VarId}
    (hx : env'.find? x = some y) {v : Value} (hv : v.In σ) (hexact : v.Exact)
    (hy : ω.Same (.var y) (.val (φ.value v))) : ∃ τ, env.bind x v σ = .ok () τ ∧ φ.GoesOn σ ω none φ τ := by
  rcases henv.find? x with ⟨-, h⟩ | ⟨z, z', h, h', hzz⟩
  · cases hx.symm.trans h
  · obtain rfl := Option.some.inj (hx.symm.trans h')
    have hterm : Term.Exact (.val v) := fun w hw => Term.val.inj hw ▸ hexact
    obtain ⟨τ, hunify, hgoes⟩ := hs.unify (a := .var z) (b := .val v) hzz.isIn hv (Reading.exact_var z) hterm
      (hzz.same.trans hy)
    refine ⟨τ, ?_, hgoes⟩
    rw [Env.bind, Env.var, h]
    exact hunify

/-- **A move that has been carried out in the other store can be carried out.** -/
theorem Move.perform_follows {d d' : Move} {rest rest' s' : Stack} {name : Option ClosureId}
    (hs : φ.Sound σ ω) (hd : φ.Moves σ ω d d') (hrest : φ.Stacks σ ω rest rest')
    (hleads : d'.Leads ω rest' s' name) (hin : s'.In ω)
    (hname : ∀ c, name = some c → ∀ e : Nat, e < σ.closures.size → φ.closure e ≠ c) :
    ∃ s τ ψ, d.perform rest σ = .ok (.next s) τ ∧ φ.GoesOn σ ω name ψ τ ∧ ψ.Stacks τ ω s s' := by
  -- each kind of move is done in the first store and compared with where it leads in the final one
  cases hd with
  | @go fs fs' h =>
    cases hleads
    exact ⟨fs ++ rest, σ, φ, rfl, .refl hs, h.append hrest⟩
  | @fresh idents body env env' henv =>
    cases hleads with
    | fresh bs body env' =>
      -- the new variables of the final store are those of the environment of the body
      have hbody := (List.forall_mem_cons.mp hin).1
      have hbs : Env.In ω bs := fun p hp => hbody p (List.mem_append_left _ (List.mem_reverse.mpr hp))
      obtain ⟨new, τ, ψ, hnew, hgoes, hscopes⟩ := hs.freshBindings hbs
      refine ⟨_, τ, ψ, ?_, hgoes, (hgoes.stack hrest).push ((hgoes.scopes henv).extend hscopes) body⟩
      rw [perform, bind_apply, hnew]
      rfl
  | @enter body bs bs' env env' hbs henv =>
    cases hleads with
    | @enter _ placed body env' hplaced =>
      have hbody := (List.forall_mem_cons.mp hin).1
      have hplacedIn : Env.In ω placed := fun p hp => hbody p (List.mem_append_left _ (List.mem_reverse.mpr hp))
      obtain ⟨new, τ, ψ, hnew, hgoes, hscopes⟩ := hs.placeAll hbs hplacedIn hplaced
      refine ⟨_, τ, ψ, ?_, hgoes, (hgoes.stack hrest).push ((hgoes.scopes henv).extend hscopes) body⟩
      rw [perform, bind_apply, hnew]
      rfl
  | @bind x y t u hxy htu =>
    cases hleads with
    | bind hsame =>
      obtain ⟨τ, hbind, hgoes⟩ := hs.bindTerm hxy.isIn htu.isIn htu.exact
        ((hxy.same.trans hsame).trans htu.same.symm)
      refine ⟨rest, τ, φ, ?_, hgoes, hgoes.stack hrest⟩
      rw [perform, bind_apply, hbind]
      rfl
  | @unify x y t u hxy htu =>
    cases hleads with
    | unify hsame =>
      obtain ⟨τ, hunify, hgoes⟩ := hs.unify hxy.isIn htu.isIn hxy.exact htu.exact
        ((hxy.same.trans hsame).trans htu.same.symm)
      refine ⟨rest, τ, φ, ?_, hgoes, hgoes.stack hrest⟩
      rw [perform, bind_apply, hunify]
      rfl
  | @record x env env' r r' henv hr =>
    cases hleads with
    | @record _ _ _ y s hx hy hrecord =>
      have hmade := hs.newRecord (fun f hf => (hr.left f hf).1) (fun f hf => (hr.left f hf).2) (hr.read hrecord)
      have hnew : Value.In (σ.newRecord r).2 (.record σ.records.size) := by simp [Store.newRecord, Value.In]
      -- the new record is read as the one that the final store has
      obtain ⟨τ, hbind, hgoes⟩ := Env.bind_follows hmade.sound (hmade.scopes henv) hx hnew
        (Value.exact_record _) (by rw [Reading.value, Reading.setRecord_self]; exact hy)
      refine ⟨rest, τ, _, ?_, hmade.trans hgoes, (hmade.trans hgoes).stack hrest⟩
      have htake : Action.take (fun σ => σ.newRecord r) σ = .ok σ.records.size (σ.newRecord r).2 := rfl
      rw [perform, bind_apply, htake]
      dsimp only
      rw [bind_apply, hbind]
      rfl
  | @closure x proc env env' captured captured' henv hcaptured =>
    cases hleads with
    | @closure _ _ _ y c hx hy hc =>
      have hmade := hs.newClosure (x := ⟨proc, captured⟩) hcaptured.isIn ⟨hc.proc, hcaptured.read hc.env⟩
        (hname c rfl)
      -- the new closure is read as the one named, which nothing else is read as
      have hnew : Value.In (σ.newClosure ⟨proc, captured⟩).2 (.proc (.closure σ.closures.size)) := by
        simp [Store.newClosure, Value.In, Proc.In]
      obtain ⟨τ, hbind, hgoes⟩ := Env.bind_follows hmade.sound (hmade.scopes henv) hx hnew
        (Value.exact_proc _) (by rw [Reading.value, Reading.setClosure_self]; exact hy)
      refine ⟨rest, τ, _, ?_, hmade.trans_none hgoes, (hmade.trans_none hgoes).stack hrest⟩
      have htake : Action.take (fun σ => σ.newClosure ⟨proc, captured⟩) σ =
          .ok σ.closures.size (σ.newClosure ⟨proc, captured⟩).2 := rfl
      rw [perform, bind_apply, htake]
      dsimp only
      rw [bind_apply, hbind]
      rfl

/-! ## Moves that are carried out -/

namespace Action

variable {x : Nat} {t a b : Term} {τ : Store}

/-- A change that ends well reports no fault. -/
theorem ofChange_eq_ok {f : Store → Option Fault × Store} (h : ofChange f σ = .ok () τ) :
    (f σ).1 = none ∧ (f σ).2 = τ := by
  rw [ofChange] at h
  split at h
  · next hf =>
    cases h
    exact ⟨congrArg Prod.fst hf, congrArg Prod.snd hf⟩
  · cases h

/-- Unification has made its terms the same. -/
theorem unify_eq_ok (hσ : σ.Closed) (hexact : σ.Exact) (ha : a.In σ) (hb : b.In σ) (hea : a.Exact) (heb : b.Exact)
    (h : unify a b σ = .ok () τ) : σ.Deeds τ ∧ τ.Exact ∧ τ.Same a b := by
  obtain ⟨hnone, rfl⟩ := ofChange_eq_ok h
  exact ⟨(Store.unify_binds hσ ha hb).deeds, Store.Exact.unify hσ hexact ha hb hea heb,
    Store.same_of_unify hσ hexact ha hb hea heb hnone⟩

/-- Binding a variable to a term makes the two the same, by deeds. -/
theorem bindTerm_eq_ok (hσ : σ.Closed) (hexact : σ.Exact) (hx : x < σ.vars.size) (ht : t.In σ) (het : t.Exact)
    (h : bindTerm x t σ = .ok () τ) : σ.Deeds τ ∧ τ.Exact ∧ τ.Same (.var x) t := by
  have hx' : Term.In σ (.var x) := hx
  cases t with
  | val v => exact unify_eq_ok hσ hexact hx' ht (Reading.exact_var x) het h
  | var y =>
    obtain ⟨hnone, rfl⟩ := ofChange_eq_ok (f := fun σ => σ.unifyVars x y) h
    refine ⟨(Store.unifyVars_binds hσ hx ht).deeds, ?_⟩
    -- it is unification of the two variables, in one of the two orders
    rcases Store.unifyVars_eq hσ.linked (y := y) (hexact.floatFree (Reading.exact_var x)) with heq | heq
    · rw [heq] at hnone ⊢
      exact ⟨Store.Exact.unify hσ hexact hx' ht (Reading.exact_var x) het,
        Store.same_of_unify hσ hexact hx' ht (Reading.exact_var x) het hnone⟩
    · rw [heq] at hnone ⊢
      exact ⟨Store.Exact.unify hσ hexact ht hx' het (Reading.exact_var x),
        (Store.same_of_unify hσ hexact ht hx' het (Reading.exact_var x) hnone).symm⟩

/-- Fresh bindings are for the identifiers they are asked for, in this order. -/
theorem freshBindings_eq_ok {idents : List Ident} {bs : List (Ident × VarId)} (hexact : σ.Exact)
    (h : freshBindings idents σ = .ok bs τ) : τ.Exact ∧ bs.map Prod.fst = idents := by
  induction idents generalizing σ bs with
  | nil =>
    cases h
    exact ⟨hexact, rfl⟩
  -- the first variable is made, and the others after it
  | cons x rest ih =>
    have hfresh : fresh σ = .ok σ.vars.size σ.freshVar.2 := rfl
    rw [freshBindings, bind_apply, hfresh] at h
    obtain ⟨more, ρ', hmore, h⟩ := bind_eq_ok h
    cases h
    obtain ⟨hτ, hnames⟩ := ih hexact.freshVar hmore
    exact ⟨hτ, by rw [List.map_cons, hnames]⟩

/-- A term has been put into a variable. -/
theorem place_eq_ok {y : VarId} (hexact : σ.Exact) (ht : t.In σ) (het : t.Exact)
    (h : place t σ = .ok y τ) : σ.Deeds τ ∧ τ.Exact ∧ y < τ.vars.size ∧ τ.Same t (.var y) := by
  cases t with
  | var z =>
    cases h
    exact ⟨.refl, hexact, ht, .refl σ _⟩
  | val v =>
    cases h
    have hbound : (σ.newVar (.bound v)).2.vars[σ.vars.size]? = some (.bound v) := by
      rw [Store.newVar_getElem?, if_pos rfl]
    refine ⟨(boundVar_safe ht).1, hexact.newVar fun w hw => ?_, σ.newVar_lt_size _, .of_resolve_eq ?_⟩
    · cases hw
      exact het v rfl
    · refine (Store.resolveVar_of_bound ?_).symm
      rwa [Store.representative_of_ne_link fun y hy => by cases hbound.symm.trans hy]

/-- Placing terms gives each of them a variable that is the same, and the ones placed first stay so while the others are
placed. -/
theorem placeAll_eq_ok {bs : List (Ident × Term)} {placed : List (Ident × VarId)} (hσ : σ.Closed)
    (hexact : σ.Exact) (hbs : ∀ p ∈ bs, p.2.In σ ∧ p.2.Exact) (h : placeAll bs σ = .ok placed τ) :
    σ.Deeds τ ∧ τ.Exact ∧
      List.Forall₂ (fun p q => p.1 = q.1 ∧ p.2.In τ ∧ q.2 < τ.vars.size ∧ τ.Same p.2 (.var q.2)) bs placed := by
  induction bs generalizing σ placed with
  | nil =>
    cases h
    exact ⟨.refl, hexact, .nil⟩
  | cons p rest ih =>
    obtain ⟨hp, hrest⟩ := List.forall_mem_cons.mp hbs
    rw [placeAll] at h
    obtain ⟨y, ρ, hy, hmore⟩ := bind_eq_ok h
    obtain ⟨more, ρ', hmore, hend⟩ := bind_eq_ok hmore
    cases hend
    obtain ⟨hdeeds, hρexact, hlt, hsame⟩ := place_eq_ok hexact hp.1 hp.2 hy
    have hρ := hdeeds.closed hσ
    have hin := hdeeds.grows.term hp.1
    obtain ⟨hmoreDeeds, hτexact, hall⟩ := ih hρ hρexact (fun q hq =>
      ⟨hdeeds.grows.term (hrest q hq).1, (hrest q hq).2⟩) hmore
    -- the first term and its variable are still the same when the rest is placed
    have hlast := (hmoreDeeds.evolves.precedes hρ).same hρ hin (b := .var y) hlt hsame
    exact ⟨hdeeds.trans hmoreDeeds, hτexact, .cons ⟨rfl, hmoreDeeds.grows.term hin,
      Nat.lt_of_lt_of_le hlt hmoreDeeds.grows.vars, hlast⟩ hall⟩

end Action

/-- Binding an identifier makes its variable the same as the value. -/
theorem Env.bind_eq_ok {env : Env} {x : Ident} {v : Value} {τ : Store} (hσ : σ.Closed) (hexact : σ.Exact)
    (henv : env.In σ) (hv : v.In σ) (hev : v.Exact) (h : env.bind x v σ = .ok () τ) :
    σ.Deeds τ ∧ τ.Exact ∧ ∃ y, env.find? x = some y ∧ y < σ.vars.size ∧ τ.Same (.var y) (.val v) := by
  obtain ⟨y, ρ, hy, h⟩ := Action.bind_eq_ok h
  rw [Env.var] at hy
  rcases hx : env.find? x with _ | z
  · rw [hx] at hy
    cases hy
  · rw [hx] at hy
    cases hy
    have hlt : y < σ.vars.size := henv.find? hx
    have hterm : Term.Exact (.val v) := fun w hw => Term.val.inj hw ▸ hev
    obtain ⟨hdeeds, hτ, hsame⟩ := Action.unify_eq_ok hσ hexact (a := .var y) (b := .val v) hlt hv
      (Reading.exact_var y) hterm h
    exact ⟨hdeeds, hτ, y, rfl, hlt, hsame⟩

namespace Move

/-- The move and all its parts are in the store, and its numbers are integers. -/
abbrev Proper (σ : Store) (d : Move) : Prop := Reading.self.Moves σ σ d d

variable {d : Move} {rest s : Stack} {τ : Store}

/-- **A move that has been carried out has been carried out** in every store that comes later. Besides, the numbers
in the store are integers, and the closure that has been made is new. -/
theorem leads_of_perform (hσ : σ.Closed) (hexact : σ.Exact) (hd : d.Proper σ) (h : d.perform rest σ = .ok (.next s) τ) :
    τ.Exact ∧ ∃ name, (∀ c, name = some c → σ.closures.size ≤ c ∧ c < τ.closures.size) ∧
      ∀ ω, τ.Precedes ω → d.Leads ω rest s name := by
  have hnone : ∀ c : ClosureId, none = some c → σ.closures.size ≤ c ∧ c < τ.closures.size :=
    fun c hc => absurd hc.symm (Option.some_ne_none c)
  -- the store after the move is its own final store, and what it fixed stays so in all later ones
  cases hd with
  | @go fs fs' hfs =>
    cases h
    exact ⟨hexact, none, hnone, fun ω _ => .go fs⟩
  | @fresh idents body env env' henv =>
    rw [perform] at h
    obtain ⟨bs, ρ, hbs, hend⟩ := Action.bind_eq_ok h
    cases hend
    obtain ⟨hτ, rfl⟩ := Action.freshBindings_eq_ok hexact hbs
    exact ⟨hτ, none, hnone, fun ω _ => .fresh bs body env⟩
  | @enter body bs bs' env env' hbs henv =>
    have hleft : ∀ p ∈ bs, p.2.In σ ∧ p.2.Exact := fun p hp => by
      have htwins := (List.forall₂_same.mp hbs p hp).2
      exact ⟨htwins.isIn, htwins.exact⟩
    rw [perform] at h
    obtain ⟨placed, ρ, hplaced, hend⟩ := Action.bind_eq_ok h
    cases hend
    obtain ⟨hdeeds, hτ, hall⟩ := Action.placeAll_eq_ok hσ hexact hleft hplaced
    -- what is placed is the same as its variable in every later store
    refine ⟨hτ, none, hnone, fun ω hω => .enter body env (hall.imp fun p q hpq => ⟨hpq.1, ?_⟩)⟩
    exact hω.same (hdeeds.closed hσ) hpq.2.1 (b := .var q.2) hpq.2.2.1 hpq.2.2.2
  | @bind x y t u hxy htu =>
    rw [perform] at h
    obtain ⟨_, ρ, hbind, hend⟩ := Action.bind_eq_ok h
    cases hend
    obtain ⟨hdeeds, hτ, hsame⟩ := Action.bindTerm_eq_ok hσ hexact hxy.isIn htu.isIn htu.exact hbind
    exact ⟨hτ, none, hnone, fun ω hω =>
      .bind (hω.same (hdeeds.closed hσ) (hdeeds.grows.term hxy.isIn) (hdeeds.grows.term htu.isIn) hsame)⟩
  | @unify x y t u hxy htu =>
    rw [perform] at h
    obtain ⟨_, ρ, hunify, hend⟩ := Action.bind_eq_ok h
    cases hend
    obtain ⟨hdeeds, hτ, hsame⟩ := Action.unify_eq_ok hσ hexact hxy.isIn htu.isIn hxy.exact htu.exact hunify
    exact ⟨hτ, none, hnone, fun ω hω =>
      .unify (hω.same (hdeeds.closed hσ) (hdeeds.grows.term hxy.isIn) (hdeeds.grows.term htu.isIn) hsame)⟩
  | @record x env env' r r' henv hr =>
    have hnew : σ.Deeds (σ.newRecord r).2 := (Action.newRecord_safe fun f hf => (hr.left f hf).1).1
    have hin : Value.In (σ.newRecord r).2 (.record σ.records.size) := by simp [Store.newRecord, Value.In]
    have htake : Action.take (fun σ => σ.newRecord r) σ = .ok σ.records.size (σ.newRecord r).2 := rfl
    rw [perform, bind_apply, htake] at h
    obtain ⟨_, ρ, hbind, hend⟩ := Action.bind_eq_ok h
    cases hend
    obtain ⟨hdeeds, hτ, y, hx, hy, hsame⟩ := Env.bind_eq_ok (hnew.closed hσ)
      (hexact.newRecord fun f hf => (hr.left f hf).2) (hnew.grows.env henv.isIn) hin (Value.exact_record _) hbind
    refine ⟨hτ, none, hnone, fun ω hω => .record hx (s := σ.records.size) ?_ ?_⟩
    · exact hω.same (hdeeds.closed (hnew.closed hσ)) (a := .var y) (b := .val (.record σ.records.size))
        (Nat.lt_of_lt_of_le hy hdeeds.grows.vars) (hdeeds.grows.value hin) hsame
    · have hlast : (σ.newRecord r).2.record σ.records.size = r := by simp [Store.record, Store.newRecord]
      have hkept : ω.record σ.records.size = r := ((hdeeds.grows.trans hω.grows).record_eq hin).trans hlast
      -- the record that was made is not touched by later stores
      rw [hkept]
      exact Reading.record_self ω r
  | @closure x proc env env' captured captured' henv hcaptured =>
    have hnew : σ.Deeds (σ.newClosure ⟨proc, captured⟩).2 := .single (.table (.newClosure hcaptured.isIn) rfl rfl)
    have hin : Value.In (σ.newClosure ⟨proc, captured⟩).2 (.proc (.closure σ.closures.size)) := by
      simp [Store.newClosure, Value.In, Proc.In]
    have htake : Action.take (fun σ => σ.newClosure ⟨proc, captured⟩) σ =
        .ok σ.closures.size (σ.newClosure ⟨proc, captured⟩).2 := rfl
    rw [perform, bind_apply, htake] at h
    obtain ⟨_, ρ, hbind, hend⟩ := Action.bind_eq_ok h
    cases hend
    obtain ⟨hdeeds, hτ, y, hx, hy, hsame⟩ := Env.bind_eq_ok (hnew.closed hσ) (hexact.of_eq rfl rfl)
      (hnew.grows.env henv.isIn) hin (Value.exact_proc _) hbind
    have hsize : σ.closures.size < τ.closures.size := hdeeds.grows.value (v := .proc (.closure _)) hin
    refine ⟨hτ, some σ.closures.size, fun c hc => ?_, fun ω hω => .closure hx (d := σ.closures.size) ?_ ?_⟩
    · cases hc
      -- the name is that of the closure just made
      exact ⟨Nat.le_refl _, hsize⟩
    · exact hω.same (hdeeds.closed (hnew.closed hσ)) (a := .var y) (b := .val (.proc (.closure σ.closures.size)))
        (Nat.lt_of_lt_of_le hy hdeeds.grows.vars) (hdeeds.grows.value hin) hsame
    · have hlast : (σ.newClosure ⟨proc, captured⟩).2.closure σ.closures.size = ⟨proc, captured⟩ := by
        simp [Store.closure, Store.newClosure]
      have hkept : ω.closure σ.closures.size = ⟨proc, captured⟩ :=
        ((hdeeds.grows.trans hω.grows).closure_eq hin).trans hlast
      rw [hkept]
      exact Reading.closure_self ω _

end Move

end Dataflow
