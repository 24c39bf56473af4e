/-
Declarative instructions, executed in one store and in a store that is ahead of it.

Let a store be read in another one in which an instruction has been executed already. Executing the instruction in the
first store then neither fails nor does anything else: it does what it has done in the other store, or it has to wait
(`Context.execute_follows`). If it has to wait in the other store, it has to wait in the first one.

Conversely, an instruction that has been executed has been executed in every store that comes later
(`Context.execute_leads`), and one that waits for a variable has to wait in every later store in which this variable
still has no value, unless it compares terms (`Context.execute_waits`).
-/
import Dataflow.Proofs.Carrying

set_option autoImplicit false

namespace Dataflow

namespace Reading

variable {φ ψ : Reading} {σ τ ρ ω : Store} {t u v : Term}

/-! ## Twins of twins -/

/-- A term is a twin of whatever is the same as one of its twins. -/
theorem Twins.through (h : φ.Twins σ ω t u) (h' : self.Twins ω ω v u) : φ.Twins σ ω t v where
  isIn := h.isIn
  exact := h.exact
  targetIn := h'.isIn
  targetExact := h'.exact
  same := by
    have hsame := h'.same
    rw [self_term] at hsame
    exact h.same.trans hsame.symm

theorem Env.symm {env env' : Dataflow.Env} (h : self.Env ω env env') : self.Env ω env' env :=
  List.Forall₂.flip (h.imp fun _ _ hpq => ⟨hpq.1.symm, hpq.2.symm⟩)

/-- What is read as a scope is read as every scope that binds the same. -/
theorem Env.trans {env env' env'' : Dataflow.Env} (h : φ.Env ω env env') (h' : self.Env ω env' env'') :
    φ.Env ω env env'' := by
  induction h generalizing env'' with
  | nil =>
    cases h'
    exact .nil
  | cons hpq _ ih =>
    cases h' with
    | cons hqr hrest => exact .cons ⟨hpq.1.trans hqr.1, hpq.2.trans hqr.2⟩ (ih hrest)

theorem Scopes.through {env env' env'' : Dataflow.Env} (h : φ.Scopes σ ω env env') (h' : self.Scopes ω ω env'' env') :
    φ.Scopes σ ω env env'' :=
  ⟨h.isIn, h'.isIn, Env.trans h.env (Env.symm h'.env)⟩

/-- Stacks that correspond still do when one of them is exchanged for what reads the same in its store. -/
theorem Stacks.through {s s' s'' : Dataflow.Stack} (h : φ.Stacks σ ω s s') (h' : self.Stacks ω ω s'' s') :
    φ.Stacks σ ω s s'' := by
  refine ⟨h.isIn, h'.isIn, ?_⟩
  obtain ⟨-, -, hs⟩ := h
  obtain ⟨-, -, hs'⟩ := h'
  -- on how the stacks correspond, frame by frame
  induction hs generalizing s'' with
  | nil =>
    cases hs'
    exact .nil
  | cons hfg _ ih =>
    cases hs' with
    | cons hhg hrest =>
      refine .cons ?_ (ih hrest)
      cases hfg with
      | run instr henv =>
        cases hhg with
        | run _ henv' => exact .run instr (Env.trans henv (Env.symm henv'))

theorem Bindings.through {bs bs' bs'' : List (Ident × Term)} (h : φ.Bindings σ ω bs bs')
    (h' : self.Bindings ω ω bs'' bs') : φ.Bindings σ ω bs bs'' := by
  induction h generalizing bs'' with
  | nil =>
    cases h'
    exact .nil
  | cons hpq _ ih =>
    cases h' with
    | cons hrq hrest => exact .cons ⟨hpq.1.trans hrq.1.symm, hpq.2.through hrq.2⟩ (ih hrest)

/-- Records that are twins still are when one of them is exchanged for what reads the same in its store. -/
theorem RecordTwins.through {r r' r'' : Dataflow.Record} (h : φ.RecordTwins σ ω r r')
    (h' : self.RecordTwins ω ω r'' r') : φ.RecordTwins σ ω r r'' := by
  refine ⟨h.label.trans h'.label.symm, ?_⟩
  obtain ⟨-, hfields⟩ := h
  obtain ⟨-, hfields'⟩ := h'
  generalize r.fields = fs, r'.fields = gs, r''.fields = hs at hfields hfields'
  induction hfields generalizing hs with
  | nil =>
    cases hfields'
    exact .nil
  | cons hfg _ ih =>
    cases hfields' with
    | cons hhg hrest => exact .cons ⟨hfg.feature.trans hhg.feature.symm, hfg.value.through hhg.value⟩ (ih _ hrest)

/-- A move is the same as what another one is the same as. -/
theorem Moves.through {d d' d'' : Move} (h : φ.Moves σ ω d d') (h' : self.Moves ω ω d'' d') :
    φ.Moves σ ω d d'' := by
  -- the two moves are of one kind, and part by part the relations are composed
  cases h with
  | go hfs =>
    cases h' with
    | go hfs' => exact .go (hfs.through hfs')
  | fresh idents body henv =>
    cases h' with
    | fresh _ _ henv' => exact .fresh idents body (henv.through henv')
  | enter body hbs henv =>
    cases h' with
    | enter _ hbs' henv' => exact .enter body (Bindings.through hbs hbs') (henv.through henv')
  | bind hxy htu =>
    cases h' with
    | bind hxy' htu' => exact .bind (hxy.through hxy') (htu.through htu')
  | unify hxy htu =>
    cases h' with
    | unify hxy' htu' => exact .unify (hxy.through hxy') (htu.through htu')
  | record x henv hr =>
    cases h' with
    | record _ henv' hr' => exact .record x (henv.through henv') (hr.through hr')
  | closure x proc henv hcaptured =>
    cases h' with
    | closure _ _ henv' hcaptured' => exact .closure x proc (henv.through henv') (hcaptured.through hcaptured')

end Reading

/-! ## Matching -/

/-- What a store is right about, it was right about before. -/
theorem Reading.Reads.before {φ : Reading} {σ τ ω : Store} (h : φ.Reads τ ω) (hev : σ.Evolves τ) : φ.Reads σ ω where
  bound x v hx := h.bound x v (hev.getElem?_eq hx nofun)
  link x y hx := h.link x y (hev.getElem?_eq hx nofun)
  record r hr := by
    rw [← hev.grows.record_eq hr]
    exact h.record r (hev.grows.value (v := .record r) hr)
  closure c hc := by
    rw [← hev.grows.closure_eq hc]
    exact h.closure c (hev.grows.value (v := .proc (.closure c)) hc)
  injective c d hc hd :=
    h.injective c d (hev.grows.value (v := .proc (.closure c)) hc) (hev.grows.value (v := .proc (.closure d)) hd)

section Matching

variable {φ : Reading} {σ ω τ τ' : Store} {P : VarId → Prop} {captures : Captures}

/-- The variables have been captured for the terms: whoever reads the store right reads them as the terms. -/
def Captured (φ : Reading) (σ ω τ : Store) (bs : List (Ident × Term)) (new : Captures) : Prop :=
  List.Forall₂ (fun p q => p.1 = q.1 ∧ q.2 < τ.vars.size ∧
    ∀ ψ : Reading, φ.Agrees ψ σ → ψ.Reads τ ω → ω.Same p.2 (ψ.var q.2)) bs new

theorem Captured.later {bs : List (Ident × Term)} {new : Captures} (h : Captured φ σ ω τ bs new) (hdeeds : τ.Deeds τ') :
    Captured φ σ ω τ' bs new :=
  h.imp fun _ _ hpq => ⟨hpq.1, Nat.lt_of_lt_of_le hpq.2.1 hdeeds.grows.vars, fun ψ hagrees hreads =>
    hpq.2.2 ψ hagrees (hreads.before hdeeds.evolves)⟩

/-- Captured variables are read as those that the other store has for the same terms. -/
theorem Captured.scopes {bs bs' : List (Ident × Term)} {new : Captures} {placed : List (Ident × VarId)}
    (h : Captured φ σ ω τ bs new) {ψ : Reading} (hgoes : φ.GoesOn σ ω none ψ τ)
    (hbs : Reading.self.Bindings ω ω bs' bs) (hin : Env.In ω placed)
    (hplaced : List.Forall₂ (fun p q => p.1 = q.1 ∧ ω.Same p.2 (.var q.2)) bs' placed) : ψ.Scopes τ ω new placed := by
  -- along the captures, with the bindings and the variables that they are placed in beside them
  induction h generalizing bs' placed with
  | nil =>
    cases hbs
    cases hplaced
    exact ⟨fun _ h => absurd h List.not_mem_nil, hin, .nil⟩
  | @cons p q bs new hpq _ ih =>
    -- the bindings of the other side, and what each was placed in, run along the captures
    cases hbs with
    | cons hbp hbs =>
      cases hplaced with
      | cons hbo hplaced =>
        obtain ⟨hoin, hin⟩ := List.forall_mem_cons.mp hin
        have hrest := ih hbs hin hplaced
        have hread := hpq.2.2 ψ hgoes.agrees hgoes.sound.reads
        have htwin := hbp.2.same
        rw [Reading.self_term] at htwin
        exact ⟨List.forall_mem_cons.mpr ⟨hpq.2.1, hrest.isIn⟩, List.forall_mem_cons.mpr ⟨hoin, hin⟩,
          .cons ⟨hpq.1.symm.trans (hbp.1.symm.trans hbo.1), hread.symm.trans (htwin.symm.trans hbo.2)⟩ hrest.env⟩

/-- Matching a term has got from `σ` to `τ`, where there may be new variables, but no new records. -/
structure Midway (φ : Reading) (σ ω τ : Store) : Prop where
  goesOn : ∃ ψ, φ.GoesOn σ ω none ψ τ
  records : τ.records = σ.records

/-- What comes of matching in the first store, from `τ` on, if `looked` comes of it in the other store. -/
inductive Tested (φ : Reading) (σ ω : Store) (P : VarId → Prop) (τ : Store) (captures : Captures) :
    EStateM.Result Interrupt (Store × Captures) Bool → EStateM.Result Interrupt Store (Option (List (Ident × Term))) →
    Prop where
  | yes {τ' : Store} {bs : List (Ident × Term)} {new : Captures} (hmid : Midway φ σ ω τ') (hdeeds : τ.Deeds τ')
      (hcaptured : Captured φ σ ω τ' bs new) :
      Tested φ σ ω P τ captures (.ok true (τ', captures ++ new)) (.ok (some bs) ω)
  | no {τ' : Store} {found : Captures} (hmid : Midway φ σ ω τ') :
      Tested φ σ ω P τ captures (.ok false (τ', found)) (.ok none ω)
  | waits {τ' : Store} {found : Captures} {x : VarId}
      {looked : EStateM.Result Interrupt Store (Option (List (Ident × Term)))} (hmid : Midway φ σ ω τ')
      (h : P x → ∃ y, looked = .error (.blocked y) ω) :
      Tested φ σ ω P τ captures (.error (.blocked x) (τ', found)) looked
  | fails {s : Store × Captures} {ρ : Store} (f g : Fault) :
      Tested φ σ ω P τ captures (.error (.fault f) s) (.error (.fault g) ρ)

/-- Foresight holds at any point on the way. -/
theorem Midway.unknown {ψ : Reading} (hP : Unknown φ ω P) (hin : ∀ x : Nat, P x → x < σ.vars.size)
    (hgoes : φ.GoesOn σ ω none ψ τ) : Unknown ψ ω P := by
  intro x hx
  rw [hgoes.agrees.var x (hin x hx)]
  exact hP x hx

/-- A term that is captured. -/
theorem Midway.capture (hmid : Midway φ σ ω τ) {t u : Term} (htu : φ.Twins σ ω t u) (x : Ident) :
    Tested φ σ ω P τ captures ((do Matcher.capture x t; return true) (τ, captures)) (.ok (some [(x, u)]) ω) := by
  obtain ⟨ψ, hgoes⟩ := hmid.goesOn
  have htwins := hgoes.twins htu
  -- a variable is captured as it is, and a value gets a new variable
  cases t with
  | var y =>
    have hcaptured : Captured φ σ ω τ [(x, u)] [(x, y)] := by
      refine .cons ⟨rfl, htwins.isIn, fun χ hagrees _ => ?_⟩ .nil
      rw [hagrees.var y htu.isIn]
      exact htu.same.symm
    exact .yes hmid .refl hcaptured
  | val v =>
    have hnew := hgoes.sound.newBound htwins.isIn (htwins.exact v rfl)
    have hbound : (τ.newVar (.bound v)).2.vars[τ.vars.size]? = some (.bound v) := by
      rw [Store.newVar_getElem?, if_pos rfl]
    have hcaptured : Captured φ σ ω (τ.newVar (.bound v)).2 [(x, u)] [(x, τ.vars.size)] := by
      refine .cons ⟨rfl, τ.newVar_lt_size _, fun χ hagrees hreads => ?_⟩ .nil
      have hread := hreads.bound _ v hbound
      rw [hagrees.value htu.isIn] at hread
      exact (hread.trans htu.same).symm
    exact .yes ⟨⟨_, hgoes.trans hnew⟩, hmid.records⟩ (Action.boundVar_safe htwins.isIn).1 hcaptured

mutual

/-- **Matching** does in the first store what looking has found in the other one. -/
theorem Pattern.test_follows (hs : φ.Sound σ ω) (hP : Unknown φ ω P) (hin : ∀ x : Nat, P x → x < σ.vars.size) :
    (p : Pattern) → p.Exact → {t u : Term} → φ.Twins σ ω t u → {τ : Store} → Midway φ σ ω τ → {captures : Captures} →
    Tested φ σ ω P τ captures (p.test t (τ, captures)) (p.look u ω)
  | .ident x, _, t, u, h, τ, hmid, captures => by
    rw [Pattern.test, Pattern.look]
    exact hmid.capture h x
  | .lit s, hp, t, u, h, τ, hmid, captures => by
    rw [Pattern.Exact] at hp
    rw [Pattern.test, Pattern.look]
    obtain ⟨ψ, hgoes⟩ := hmid.goesOn
    have hentails := Action.foresees_entails_scalar hgoes.sound (Midway.unknown hP hin hgoes) (hgoes.twins h) hp
    rw [Foresees] at hentails
    rw [bind_apply]
    -- the three answers of the entailment: a verdict, a block on a variable, and a fault
    rcases hanswer : Action.entails t (.val s.toValue) τ with ⟨answer, ρ⟩ | ⟨x | g, ρ⟩
    · have htest : Matcher.lift (Action.entails t (.val s.toValue)) (τ, captures) = .ok answer (ρ, captures) := by
        rw [Matcher.lift, hanswer]
      rw [hanswer] at hentails
      obtain ⟨rfl, _, hlook, rfl⟩ := hentails
      rw [htest, hlook]
      cases answer with
      | true =>
        have hnone : Captured φ σ ω ρ [] [] := .nil
        have hyes := @Tested.yes φ σ ω P _ captures _ _ _ hmid .refl hnone
        -- nothing was captured, so the captures are those that there were
        rwa [List.append_nil] at hyes
      | false => exact .no hmid
    · have htest : Matcher.lift (Action.entails t (.val s.toValue)) (τ, captures) =
          .error (.blocked x) (ρ, captures) := by
        rw [Matcher.lift, hanswer]
      rw [hanswer] at hentails
      obtain ⟨rfl, hlook⟩ := hentails
      rw [htest]
      refine .waits hmid fun hx => ?_
      obtain ⟨y, hy⟩ := hlook hx
      exact ⟨y, by rw [hy]⟩
    · have htest : Matcher.lift (Action.entails t (.val s.toValue)) (τ, captures) = .error (.fault g) (ρ, captures) := by
        rw [Matcher.lift, hanswer]
      rw [hanswer] at hentails
      obtain ⟨g', ρ', hlook⟩ := hentails
      rw [htest, hlook]
      exact .fails g g'
  | .record label fields isOpen, hp, t, u, h, τ, hmid, captures => by
    rw [Pattern.Exact] at hp
    rw [Pattern.test, Pattern.look, bind_apply, bind_apply]
    obtain ⟨ψ, hgoes⟩ := hmid.goesOn
    have htwins := (hgoes.twins h).resolve hgoes.sound
    have hfinal := Store.resolve_resolve hs.targetClosed.linked u
    have htest : Matcher.lift (Action.read fun σ => σ.resolve t) (τ, captures) = .ok (τ.resolve t) (τ, captures) := rfl
    have hlook : Action.read (fun σ => σ.resolve u) ω = .ok (ω.resolve u) ω := rfl
    rw [htest, hlook]
    generalize τ.resolve t = t', ω.resolve u = u' at htwins hfinal
    cases t' with
    -- an unbound variable of the first store is one of the final store where it is not known
    | var x =>
      refine .waits hmid fun hx => ?_
      obtain ⟨z, rfl⟩ := htwins.exists_var hfinal (Midway.unknown hP hin hgoes x hx)
      exact ⟨z, rfl⟩
    | val v =>
      obtain ⟨w, rfl⟩ := htwins.exists_val hfinal
      rcases Reading.twin_cases htwins.same with ⟨r, s, rfl, rfl⟩ | ⟨hrecord, rfl⟩
      · -- there are no new records, so this one is of the first store
        have hr : Value.In σ (.record r) := by
          rw [Value.In, ← hmid.records]
          exact htwins.isIn
        have hsame := htwins.same
        rw [hgoes.agrees.term (t := .val (.record r)) hr] at hsame
        have hrecords := Reading.Twins.record hs ⟨hr, htwins.exact, htwins.targetIn, htwins.targetExact, hsame⟩
        have hcount : (σ.record r).count = (ω.record s).count := hrecords.fields.length_eq
        have htest' : Matcher.lift (Action.read fun σ => σ.record r) (τ, captures) = .ok (σ.record r) (τ, captures) := by
          rw [← hgoes.grows.record_eq hr]
          rfl
        have hlook' : Action.read (fun σ => σ.record s) ω = .ok (ω.record s) ω := rfl
        dsimp only
        rw [bind_apply, bind_apply, htest', hlook']
        dsimp only
        -- label and number of fields are read alike, so both sides turn down the same records
        rw [hrecords.label, hcount]
        split
        · exact .no hmid
        · split
          · exact .no hmid
          · exact Pattern.testFields_follows hs hP hin fields hp hrecords hmid
      · cases v with
        | record r => exact absurd rfl (hrecord r)
        | proc p => cases p <;> exact .no hmid
        | _ => exact .no hmid

/-- Testing the fields of a record follows the look at the fields of its twin: it goes through them in the same order, and
comes to the same answer unless it has to wait. -/
theorem Pattern.testFields_follows (hs : φ.Sound σ ω) (hP : Unknown φ ω P)
    (hin : ∀ x : Nat, P x → x < σ.vars.size) : (fields : List (Scalar × Pattern)) → Pattern.FieldsExact fields →
    {r s : Record} → φ.RecordTwins σ ω r s → {τ : Store} → Midway φ σ ω τ → {captures : Captures} →
    Tested φ σ ω P τ captures (Pattern.testFields fields r (τ, captures)) (Pattern.lookFields fields s ω)
  | [], _, r, s, _, τ, hmid, captures => by
    have hnone : Captured φ σ ω τ [] [] := .nil
    have hyes := @Tested.yes φ σ ω P _ captures _ _ _ hmid .refl hnone
    rw [List.append_nil] at hyes
    rw [Pattern.testFields, Pattern.lookFields]
    exact hyes
  | (f, p) :: rest, hexact, r, s, h, τ, hmid, captures => by
    rw [Pattern.FieldsExact] at hexact
    rw [Pattern.testFields, Pattern.lookFields, bind_apply, bind_apply]
    -- the feature may be none, and then both fail
    rcases f.toValue.toFeature with g | feature
    · exact .fails g g
    have htest : Matcher.lift (Action.ofExcept (.ok feature)) (τ, captures) = .ok feature (τ, captures) := rfl
    have hlook : Action.ofExcept (.ok feature) ω = .ok feature ω := rfl
    rw [htest, hlook]
    dsimp only
    -- neither record has the field, or both have it with terms that correspond
    rcases h.select? feature with ⟨hr, hs'⟩ | ⟨t, u, hr, hs', htu⟩
    · rw [hr, hs']
      exact .no hmid
    rw [hr, hs']
    dsimp only
    rw [bind_apply, bind_apply]
    -- the first field decides whether the others are looked at
    have hfirst : Tested φ σ ω P τ captures _ _ := Pattern.test_follows hs hP hin p hexact.1 htu hmid
    generalize p.test t (τ, captures) = tested, p.look u ω = looked at hfirst
    cases hfirst with
    | @yes τ' bs new hmid' hdeeds hcaptured =>
      have hrest : Tested φ σ ω P τ' (captures ++ new) _ _ :=
        Pattern.testFields_follows hs hP hin rest hexact.2 h hmid'
      dsimp only
      rw [if_pos rfl, bind_apply]
      generalize Pattern.testFields rest r (τ', captures ++ new) = tested', Pattern.lookFields rest s ω = looked' at hrest
      cases hrest with
      | @yes ρ bs' new' hmid'' hdeeds' hcaptured' =>
        rw [List.append_assoc]
        exact .yes hmid'' (hdeeds.trans hdeeds') (List.rel_append (hcaptured.later hdeeds') hcaptured')
      | no hmid'' => exact .no hmid''
      | waits hmid'' hwaits =>
        refine .waits hmid'' fun hx => ?_
        obtain ⟨y, hy⟩ := hwaits hx
        exact ⟨y, by rw [hy]⟩
      | fails g g' => exact .fails g g'
    | no hmid' => exact .no hmid'
    | waits hmid' hwaits =>
      refine .waits hmid' fun hx => ?_
      obtain ⟨y, hy⟩ := hwaits hx
      exact ⟨y, by rw [hy]⟩
    | fails g g' => exact .fails g g'

end

end Matching

/-! ## Executing what has been executed -/

/-- In `ω` the instruction has been executed, which has led to the stack `s` and has made the closure. -/
def Instr.Executed (ω : Store) (env : Env) (rest : Stack) (instr : Instr) (s : Stack) (name : Option ClosureId) : Prop :=
  ∃ d d', instr.plan env ω = .ok d' ω ∧ Reading.self.Moves ω ω d d' ∧ d.Leads ω rest s name

/-- In `ω` the instruction has to wait. -/
def Instr.Waits (ω : Store) (env : Env) (instr : Instr) : Prop := ∃ y, instr.plan env ω = .error (.blocked y) ω

section Executing

variable {φ : Reading} {σ ω τ : Store} {env env' : Dataflow.Env} {rest rest' s s' : Dataflow.Stack} {instr : Instr}
  {name : Option ClosureId}

/-- An instruction that is not at fault in the other store applies nothing but closures. -/
theorem Instr.applies_of_plan (hs : φ.Sound σ ω) (henv : φ.Scopes σ ω env env') (hdecl : instr.Declarative)
    (hplan : ∀ g ρ, instr.plan env' ω ≠ .error (.fault g) ρ) : instr.Applies env σ := by
  cases instr with
  | apply a args =>
    intro p τ hp
    -- what is called is known in the first store, so it is known in the final one
    have hP : Unknown φ ω fun _ => False := fun _ h => h.elim
    have hvalue := a.foresees_value hs hP henv hdecl.1
    rw [Foresees, hp] at hvalue
    obtain ⟨rfl, w, hw, hpw⟩ := hvalue
    -- a procedure that is no closure would be called in the final store too, and fault there
    by_contra hclosure
    have hvalue : φ.value (.proc p) = .proc p := by
      cases p with
      | closure c => exact absurd ⟨c, rfl⟩ hclosure
      | _ => rfl
    rcases Reading.twin_cases hpw.same with ⟨_, _, h, -⟩ | ⟨-, rfl⟩
    · cases h
    · refine hplan (.notAProc "") ω ?_
      rw [Instr.plan, bind_apply, hw, hvalue]
      cases p with
      | closure c => exact absurd ⟨c, rfl⟩ hclosure
      | _ => rfl
  | _ => trivial

/-- What comes of a `case` in the first store if its plan comes out as `planned` in the other one. -/
inductive Decided (φ : Reading) (σ ω : Store) (P : VarId → Prop) (env env' : Env) (rest : Stack) (yes : Instr) :
    EStateM.Result Interrupt Store Flow → EStateM.Result Interrupt Store Move → Prop where
  | matched {τ : Store} {bs : List (Ident × Term)} {new : Captures} (hmid : Midway φ σ ω τ) (hdeeds : σ.Deeds τ)
      (hcaptured : Captured φ σ ω τ bs new) :
      Decided φ σ ω P env env' rest yes (.ok (.next (.run yes (env.extend new) :: rest)) τ) (.ok (.enter bs yes env') ω)
  | other {τ : Store} (no : Instr) (hmid : Midway φ σ ω τ) :
      Decided φ σ ω P env env' rest yes (.ok (.next (.run no env :: rest)) τ) (.ok (.go [.run no env']) ω)
  | waits {τ : Store} {x : VarId} {planned : EStateM.Result Interrupt Store Move} (hmid : Midway φ σ ω τ)
      (h : P x → ∃ y, planned = .error (.blocked y) ω) :
      Decided φ σ ω P env env' rest yes (.error (.blocked x) τ) planned
  | fails {τ ρ : Store} (f g : Fault) :
      Decided φ σ ω P env env' rest yes (.error (.fault f) τ) (.error (.fault g) ρ)

/-- Whatever a `case` has decided on, all numbers in the store are still integers. -/
theorem Decided.exact {P : VarId → Prop} {yes : Instr} {flow : Flow}
    {planned : EStateM.Result Interrupt Store Move}
    (h : Decided φ σ ω P env env' rest yes (.ok flow τ) planned) : τ.Exact := by
  cases h with
  | matched hmid => exact hmid.goesOn.choose_spec.sound.exact
  | other no hmid => exact hmid.goesOn.choose_spec.sound.exact

/-- A `case` does in the first store what it has planned in the other one. -/
theorem Context.execute_case (ctx : Context) (hs : φ.Sound σ ω) {P : VarId → Prop} (hP : Unknown φ ω P)
    (hin : ∀ x : Nat, P x → x < σ.vars.size) (henv : φ.Scopes σ ω env env') (rest : Stack) {arg : Operand} {p : Pattern}
    (yes : Instr) (no : Option Instr) (harg : arg.Exact) (hp : p.Exact) :
    Decided φ σ ω P env env' rest yes (ctx.execute env rest (.case arg p yes no) σ)
      ((Instr.case arg p yes no).plan env' ω) := by
  have hterm := arg.foresees_term (P := P) hs henv harg
  have hstart : Midway φ σ ω σ := ⟨⟨φ, .refl hs⟩, rfl⟩
  rw [Foresees] at hterm
  rw [Context.execute, Instr.plan, bind_apply, bind_apply]
  generalize arg.term env σ = result at hterm
  -- the operand is there, or the instruction ends the way that its operand does
  rcases result with ⟨t, ρ⟩ | ⟨x | g, ρ⟩
  · obtain ⟨rfl, u, hu, htu⟩ := hterm
    rw [hu]
    dsimp only
    have htest : Tested φ _ ω P ρ [] _ _ := p.test_follows hs hP hin hp htu.toTwins hstart
    rw [bind_apply, bind_apply, Action.matchTerm]
    generalize p.test t (ρ, []) = tested, p.look u ω = looked at htest
    cases htest with
    | yes hmid hdeeds hcaptured => exact .matched hmid hdeeds hcaptured
    -- what the branch `no` does when it is there, and the fault of its absence
    | no hmid =>
      cases no with
      | some no => exact .other no hmid
      | none => exact .fails _ _
    | waits hmid hwaits =>
      refine .waits hmid fun hx => ?_
      obtain ⟨y, hy⟩ := hwaits hx
      exact ⟨y, by rw [hy]⟩
    | fails f g => exact .fails f g
  · obtain ⟨rfl, hwaits⟩ := hterm
    refine .waits hstart fun hx => ?_
    obtain ⟨y, hy⟩ := hwaits hx
    exact ⟨y, by rw [hy]⟩
  · obtain ⟨g', ρ', hg⟩ := hterm
    rw [hg]
    exact .fails g g'

/-- What an instruction does in a store if its plan comes out as `planned` in another one, where it has led to the
stack `s'` and has made a closure. -/
inductive Follows (φ : Reading) (σ ω : Store) (s' : Stack) (name : Option ClosureId)
    (planned : EStateM.Result Interrupt Store Move) : EStateM.Result Interrupt Store Flow → Prop where
  /-- It does the same. -/
  | goesOn {s : Stack} {τ : Store} {ψ : Reading} (hplanned : ∃ d, planned = .ok d ω) (hgoes : φ.GoesOn σ ω name ψ τ)
      (hstack : ψ.Stacks τ ω s s') : Follows φ σ ω s' name planned (.ok (.next s) τ)
  /-- It has to wait. -/
  | waits {x : VarId} {τ : Store} {ψ : Reading} (hgoes : φ.GoesOn σ ω none ψ τ) :
      Follows φ σ ω s' name planned (.error (.blocked x) τ)

/-- What an instruction does in the first store if it is not at fault in the other one, and if there it has been
executed, unless it has to wait. -/
theorem Context.execute_behind (ctx : Context) (hs : φ.Sound σ ω) (henv : φ.Scopes σ ω env env')
    (hrest : φ.Stacks σ ω rest rest') (hdecl : instr.Declarative)
    (hfault : ∀ g ρ, instr.plan env' ω ≠ .error (.fault g) ρ)
    (hdone : ∀ d', instr.plan env' ω = .ok d' ω → ∃ d, Reading.self.Moves ω ω d d' ∧ d.Leads ω rest' s' name ∧
      s'.In ω ∧ ∀ c, name = some c → ∀ e : Nat, e < σ.closures.size → φ.closure e ≠ c) :
    Follows φ σ ω s' name (instr.plan env' ω) (ctx.execute env rest instr σ) := by
  have hP : Unknown φ ω fun _ => False := fun _ h => h.elim
  -- `case` matches before it moves, so it is told apart from all other instructions
  by_cases hcase : ∃ arg p yes no, instr = .case arg p yes no
  · obtain ⟨arg, p, yes, no, rfl⟩ := hcase
    have hdecided := ctx.execute_case hs hP (fun _ h => h.elim) henv rest yes no hdecl.1 hdecl.2
    generalize ctx.execute env rest (.case arg p yes no) σ = result, (Instr.case arg p yes no).plan env' ω = planned
      at hdecided hfault hdone
    cases hdecided with
    | @matched τ bs new hmid hdeeds hcaptured =>
      obtain ⟨d, hdd, hleads, hin, -⟩ := hdone _ rfl
      obtain ⟨ψ, hgoes⟩ := hmid.goesOn
      cases hdd with
      | @enter _ bs' _ env'' _ hbs henv' =>
        -- the captures of the match are the placed bindings of the final store
        cases hleads with
        | @enter _ placed _ _ hplaced =>
          have hbody := (List.forall_mem_cons.mp hin).1
          have hplacedIn : Env.In ω placed := fun p hp => hbody p (List.mem_append_left _ (List.mem_reverse.mpr hp))
          have hscopes := (hgoes.scopes henv).through henv'
          exact .goesOn ⟨_, rfl⟩ hgoes ((hgoes.stack hrest).push
            (hscopes.extend (hcaptured.scopes hgoes hbs hplacedIn hplaced)) yes)
    | @other τ no' hmid =>
      obtain ⟨d, hdd, hleads, -, -⟩ := hdone _ rfl
      obtain ⟨ψ, hgoes⟩ := hmid.goesOn
      cases hdd with
      | @go fs _ hfs =>
        cases hleads
        -- the other branch captures nothing
        exact .goesOn ⟨_, rfl⟩ hgoes (Reading.Stacks.append (((hgoes.scopes henv).frame no').through hfs) (hgoes.stack hrest))
    | waits hmid _ =>
      obtain ⟨ψ, hgoes⟩ := hmid.goesOn
      exact .waits hgoes
    | fails f g => exact absurd rfl (hfault g _)
  · have hforesees := instr.foresees_plan hs hP henv hdecl fun _ _ h => h
    have happlies := Instr.applies_of_plan hs henv hdecl hfault
    have hdoes := ctx.does_plan env rest hdecl happlies fun arg p yes no h => hcase ⟨arg, p, yes, no, h⟩
    rw [Foresees] at hforesees
    rw [Does] at hdoes
    generalize instr.plan env σ = result at hforesees hdoes
    rcases result with ⟨d₁, ρ⟩ | ⟨x | g, ρ⟩
    · obtain ⟨rfl, b, hb, hmoves⟩ := hforesees
      -- what the plan of the first store moves, the plan of the final store moves too
      obtain ⟨d, hdd, hleads, hin, hname⟩ := hdone b hb
      obtain ⟨s, τ, ψ, hperform, hgoes, hstack⟩ :=
        Move.perform_follows hs (hmoves.through hdd) hrest hleads hin hname
      dsimp only at hdoes
      rw [hdoes, hperform]
      exact .goesOn ⟨b, hb⟩ hgoes hstack
    · obtain ⟨rfl, -⟩ := hforesees
      dsimp only at hdoes
      rw [hdoes]
      exact .waits (.refl hs)
    · obtain ⟨g', ρ', hg⟩ := hforesees
      exact absurd hg (hfault g' ρ')

/-- **What has been executed in the other store can be executed in the first one**, or it has to wait. -/
theorem Context.execute_follows (ctx : Context) (hs : φ.Sound σ ω) (henv : φ.Scopes σ ω env env')
    (hrest : φ.Stacks σ ω rest rest') (hdecl : instr.Declarative) (hdone : instr.Executed ω env' rest' s' name)
    (hin : s'.In ω) (hname : ∀ c, name = some c → ∀ e : Nat, e < σ.closures.size → φ.closure e ≠ c) :
    Follows φ σ ω s' name (instr.plan env' ω) (ctx.execute env rest instr σ) := by
  obtain ⟨d, d', hplan, hdd, hleads⟩ := hdone
  refine ctx.execute_behind hs henv hrest hdecl (fun g ρ h => ?_) fun b hb => ?_
  · cases hplan.symm.trans h
  · cases hplan.symm.trans hb
    exact ⟨d, hdd, hleads, hin, hname⟩

/-- What has to wait in the other store has to wait in the first one. -/
theorem Context.execute_follows_waits (ctx : Context) (hs : φ.Sound σ ω) (henv : φ.Scopes σ ω env env')
    (hrest : φ.Stacks σ ω rest rest') (hdecl : instr.Declarative) (hwaits : instr.Waits ω env') :
    ∃ x τ ψ, ctx.execute env rest instr σ = .error (.blocked x) τ ∧ φ.GoesOn σ ω none ψ τ := by
  obtain ⟨y, hplan⟩ := hwaits
  have hfollows : Follows φ σ ω rest' none _ _ := ctx.execute_behind hs henv hrest hdecl
    (fun g ρ h => by cases hplan.symm.trans h) fun b hb => by cases hplan.symm.trans hb
  rw [hplan] at hfollows
  generalize ctx.execute env rest instr σ = result at hfollows
  cases hfollows with
  | goesOn hplanned =>
    obtain ⟨d, hd⟩ := hplanned
    cases hd
  | waits hgoes => exact ⟨_, _, _, rfl, hgoes⟩

/-! ## What has been executed -/

namespace Reading

theorem Sound.later (hστ : σ.Precedes ω) (hσ : σ.Closed) (hexact : σ.Exact) (hω : ω.Closed) (hωexact : ω.Exact) :
    self.Sound σ ω := ⟨.of_precedes hστ hσ, hσ, hexact, hω, hωexact⟩

theorem Scopes.later (hg : σ.Grows ω) (henv : env.In σ) : self.Scopes σ ω env env :=
  ⟨henv, hg.env henv, List.forall₂_same.mpr fun _ _ => ⟨rfl, .refl ω _⟩⟩

theorem Twins.later {t u : Term} (hg : σ.Grows ω) (h : self.Twins σ ω t u) : self.Twins ω ω t u :=
  ⟨hg.term h.isIn, h.exact, h.targetIn, h.targetExact, h.same⟩

theorem Scopes.grow (hg : σ.Grows ω) (h : self.Scopes σ ω env env') : self.Scopes ω ω env env' :=
  ⟨hg.env h.isIn, h.targetIn, h.env⟩

/-- A move of a store is one of every later store. -/
theorem Moves.grow {d d' : Move} (hg : σ.Grows ω) (h : self.Moves σ ω d d') : self.Moves ω ω d d' := by
  cases h with
  | go hfs => exact .go ⟨hg.stack hfs.isIn, hfs.targetIn, hfs.stack⟩
  | fresh idents body henv => exact .fresh idents body (henv.grow hg)
  | enter body hbs henv => exact .enter body (hbs.imp fun _ _ hpq => ⟨hpq.1, hpq.2.later hg⟩) (henv.grow hg)
  | bind hxy htu => exact .bind (hxy.later hg) (htu.later hg)
  | unify hxy htu => exact .unify (hxy.later hg) (htu.later hg)
  | record x henv hr =>
    exact .record x (henv.grow hg) ⟨hr.label, hr.fields.imp fun _ _ hfg => ⟨hfg.feature, hfg.value.later hg⟩⟩
  | closure x proc henv hcaptured => exact .closure x proc (henv.grow hg) (hcaptured.grow hg)

end Reading

/-- **What an instruction has done it has done in every later store.** -/
theorem Context.execute_leads (ctx : Context) (hσ : σ.Closed) (hexact : σ.Exact) (henv : env.In σ) (hrest : rest.In σ)
    (hdecl : instr.Declarative) (happlies : instr.Applies env σ)
    (h : ctx.execute env rest instr σ = .ok (.next s) τ) :
    τ.Exact ∧ ∃ name, (∀ c, name = some c → σ.closures.size ≤ c ∧ c < τ.closures.size) ∧
      ∀ ω, ω.Closed → ω.Exact → τ.Precedes ω → instr.Executed ω env rest s name := by
  have hsafe := ctx.execute_safe hσ henv hrest instr
  -- what comes out of the step reads its own store as it is, and goes on doing so
  rw [Action.Safe, h] at hsafe
  obtain ⟨hdeeds, -⟩ := hsafe
  have hself := Reading.Sound.later (.refl σ) hσ hexact hσ hexact
  have hscopes := Reading.Scopes.later (.refl σ) henv
  have hsound : ∀ ω, ω.Closed → ω.Exact → τ.Precedes ω → Reading.self.Sound σ ω ∧ σ.Grows ω := by
    intro ω hω hωexact hτω
    have hσω := (hdeeds.evolves.precedes hσ).trans hτω
    exact ⟨.later hσω hσ hexact hω hωexact, hσω.grows⟩
  have hP : ∀ ω, Unknown Reading.self ω fun _ => False := fun _ _ h => h.elim
  by_cases hcase : ∃ arg p yes no, instr = .case arg p yes no
  · obtain ⟨arg, p, yes, no, rfl⟩ := hcase
    have hdecided := ctx.execute_case hself (hP σ) (fun _ h => h.elim) hscopes rest yes no hdecl.1 hdecl.2
    rw [h] at hdecided
    refine ⟨hdecided.exact, none, fun c hc => absurd hc.symm (Option.some_ne_none c), fun ω hω hωexact hτω => ?_⟩
    obtain ⟨hsound, hgrows⟩ := hsound ω hω hωexact hτω
    have hlater := ctx.execute_case hsound (hP ω) (fun _ h => h.elim) (.later hgrows henv) rest yes no hdecl.1 hdecl.2
    have hproper := (Instr.case arg p yes no).foresees_plan (.later (.refl ω) hω hωexact hω hωexact) (hP ω)
      (Reading.Scopes.later (.refl ω) (hgrows.env henv)) hdecl fun _ _ h => h
    rw [h] at hlater
    rw [Foresees] at hproper
    rw [Instr.Executed]
    generalize (Instr.case arg p yes no).plan env ω = planned at hlater hproper
    cases hlater with
    | @matched _ bs new _ _ hcaptured =>
      obtain ⟨-, _, hb, hmoves⟩ := hproper
      cases hb
      refine ⟨_, _, rfl, hmoves, .enter yes env (hcaptured.imp fun p q hpq => ⟨hpq.1, ?_⟩)⟩
      exact hpq.2.2 Reading.self (.refl _ σ) (.of_precedes hτω (hdeeds.closed hσ))
    | other no' =>
      obtain ⟨-, _, hb, hmoves⟩ := hproper
      cases hb
      exact ⟨_, _, rfl, hmoves, .go [.run no' env]⟩
  · have hforesees := instr.foresees_plan hself (hP σ) hscopes hdecl fun _ _ h => h
    have hdoes := ctx.does_plan env rest hdecl happlies fun arg p yes no h => hcase ⟨arg, p, yes, no, h⟩
    rw [Foresees] at hforesees
    rw [Does, h] at hdoes
    rcases hplan : instr.plan env σ with ⟨d, ρ⟩ | ⟨x | g, ρ⟩
    · rw [hplan] at hforesees hdoes
      obtain ⟨rfl, b, hb, hproper⟩ := hforesees
      cases hb
      obtain ⟨hτ, name, hname, hleads⟩ := Move.leads_of_perform hσ hexact hproper hdoes.symm
      refine ⟨hτ, name, hname, fun ω hω hωexact hτω => ?_⟩
      obtain ⟨hsound, hgrows⟩ := hsound ω hω hωexact hτω
      have hlater := instr.foresees_plan hsound (hP ω) (Reading.Scopes.later hgrows henv) hdecl fun _ _ h => h
      rw [Foresees, hplan] at hlater
      obtain ⟨-, d', hd', hmoves⟩ := hlater
      exact ⟨d, d', hd', hmoves.grow hgrows, hleads ω hτω⟩
    · rw [hplan] at hdoes
      cases hdoes
    · rw [hplan] at hdoes
      obtain ⟨_, _, hdoes⟩ := hdoes
      cases hdoes

/-- **What an instruction waits for it waits for in every later store**, unless it compares terms. -/
theorem Context.execute_waits (ctx : Context) (hσ : σ.Closed) (hexact : σ.Exact) (henv : env.In σ) (hrest : rest.In σ)
    (hdecl : instr.Declarative) (happlies : instr.Applies env σ) {x : VarId}
    (h : ctx.execute env rest instr σ = .error (.blocked x) τ) :
    τ.Exact ∧ ∀ ω, ω.Closed → ω.Exact → τ.Precedes ω → ¬ instr.Compares → (∃ z, ω.resolve (.var x) = .var z) →
      instr.Waits ω env := by
  have hsafe := ctx.execute_safe hσ henv hrest instr
  rw [Action.Safe, h] at hsafe
  obtain ⟨hdeeds, hunbound⟩ := hsafe
  have hx : x < σ.vars.size := ((ctx.patient_execute env rest instr σ x τ h).unbound hunbound).lt_size
  have hself := Reading.Sound.later (.refl σ) hσ hexact hσ hexact
  have hscopes := Reading.Scopes.later (.refl σ) henv
  have hsound : ∀ ω, ω.Closed → ω.Exact → τ.Precedes ω → Reading.self.Sound σ ω ∧ σ.Grows ω := by
    intro ω hω hωexact hτω
    have hσω := (hdeeds.evolves.precedes hσ).trans hτω
    exact ⟨.later hσω hσ hexact hω hωexact, hσω.grows⟩
  -- only the variable that the instruction has waited for matters
  have hP : ∀ ω, (∃ z, ω.resolve (.var x) = .var z) → Unknown Reading.self ω fun y => y = x := by
    rintro ω hω y rfl
    exact hω
  by_cases hcase : ∃ arg p yes no, instr = .case arg p yes no
  · obtain ⟨arg, p, yes, no, rfl⟩ := hcase
    have hdecided := ctx.execute_case hself (P := fun _ => False) (fun _ h => h.elim) (fun _ h => h.elim) hscopes rest
      yes no hdecl.1 hdecl.2
    rw [h] at hdecided
    have hτ : τ.Exact := by
      cases hdecided with
      | waits hmid => exact hmid.goesOn.choose_spec.sound.exact
    refine ⟨hτ, fun ω hω hωexact hτω _ hfree => ?_⟩
    obtain ⟨hsound, hgrows⟩ := hsound ω hω hωexact hτω
    have hlater := ctx.execute_case hsound (hP ω hfree) (by rintro y rfl; exact hx) (.later hgrows henv) rest yes no
      hdecl.1 hdecl.2
    rw [h] at hlater
    rw [Instr.Waits]
    generalize (Instr.case arg p yes no).plan env ω = planned at hlater
    cases hlater with
    | waits _ hwaits => exact hwaits rfl
  · have hforesees := instr.foresees_plan hself (P := fun _ => False) (fun _ h => h.elim) hscopes hdecl fun _ _ h => h
    have hdoes := ctx.does_plan env rest hdecl happlies fun arg p yes no h => hcase ⟨arg, p, yes, no, h⟩
    rw [Foresees] at hforesees
    rw [Does, h] at hdoes
    rcases hplan : instr.plan env σ with ⟨d, ρ⟩ | ⟨y | g, ρ⟩
    · -- a move that has begun never waits
      rw [hplan] at hdoes
      exact absurd hdoes.symm (Move.prompt_perform rest d ρ x τ)
    · rw [hplan] at hforesees hdoes
      obtain ⟨rfl, -⟩ := hforesees
      cases hdoes
      refine ⟨hexact, fun ω hω hωexact hτω hcompares hfree => ?_⟩
      obtain ⟨hsound, hgrows⟩ := hsound ω hω hωexact hτω
      have hlater := instr.foresees_plan hsound (hP ω hfree) (Reading.Scopes.later hgrows henv) hdecl
        fun h => absurd h hcompares
      rw [Foresees, hplan] at hlater
      exact hlater.2 rfl
    · rw [hplan] at hdoes
      obtain ⟨_, _, hdoes⟩ := hdoes
      cases hdoes

end Executing

end Dataflow
