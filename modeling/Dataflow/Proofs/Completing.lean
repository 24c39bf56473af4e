/-
Matching and completing: the two walks of the kernel that carry something along.

Matching carries what has been captured, completing carries what stands for the records and closures that have
been entered. Both are actions with a second piece of state, and both are safe for the same reason as other
actions, provided that this second piece is in the store as well. A pattern is matched by recursion on the
pattern; a term is completed by recursion on the bound of its nesting, so that what is carried is the only thing
to say about cyclic records.
-/
import Dataflow.Proofs.Actions
import Dataflow.Proofs.Records

set_option autoImplicit false

namespace Dataflow

/-! ## Matching -/

namespace Matcher

variable {α β : Type} {σ : Store} {captures : Captures}

/-- The step changes the store by deeds, what it has captured is in the store, its result
satisfies `Q`, and what it waits for is unbound. -/
def Safe (m : Matcher α) (σ : Store) (captures : Captures) (Q : α → Store → Prop) : Prop :=
  match m (σ, captures) with
  | .ok a (τ, found) => σ.Deeds τ ∧ Env.In τ found ∧ Q a τ
  | .error e (τ, _) => σ.Deeds τ ∧ e.In τ

/-- Safe matching composes. What follows may rely on a larger store and on captures that are in it. -/
theorem Safe.bind {m : Matcher α} {f : α → Matcher β} {Q : α → Store → Prop} {R : β → Store → Prop}
    (h : m.Safe σ captures Q) (hσ : σ.Closed)
    (hf : ∀ a τ found, σ.Grows τ → τ.Closed → Env.In τ found → Q a τ → (f a).Safe τ found R) :
    (m >>= f).Safe σ captures R := by
  rw [Safe] at h
  rw [Safe, bind_apply]
  generalize m (σ, captures) = result at h
  cases result with
  | ok a s =>
    obtain ⟨hdeeds, hfound, hQ⟩ := h
    -- what follows starts from the captures that have been found so far
    have hnext := hf a s.1 s.2 hdeeds.grows (hdeeds.closed hσ) hfound hQ
    simp only [Safe] at hnext ⊢
    generalize f a s = last at hnext
    cases last with
    | ok b s' => exact ⟨hdeeds.trans hnext.1, hnext.2⟩
    | error e s' => exact ⟨hdeeds.trans hnext.1, hnext.2⟩
  | error e s => exact h

theorem safe_pure (hcaptures : Env.In σ captures) {Q : α → Store → Prop} {a : α} (h : Q a σ) :
    (pure a : Matcher α).Safe σ captures Q := ⟨.refl, hcaptures, h⟩

theorem safe_block {Q : α → Store → Prop} {x : Nat} (hx : σ.Unbound x) :
    (throw (.blocked x) : Matcher α).Safe σ captures Q := ⟨.refl, hx⟩

theorem safe_lift (hcaptures : Env.In σ captures) {act : Action α} {Q : α → Store → Prop}
    (h : act.Safe σ Q) : (lift act).Safe σ captures Q := by
  rw [Action.Safe] at h
  rw [Safe, lift]
  generalize act σ = result at h
  cases result with
  | ok a τ => exact ⟨h.1, h.1.grows.env hcaptures, h.2⟩
  | error e τ => exact h

theorem safe_read (hcaptures : Env.In σ captures) {f : Store → α} {P : Store → α → Prop} (h : P σ (f σ)) :
    (lift (Action.read f)).Safe σ captures fun a τ => P τ a := ⟨.refl, hcaptures, h⟩

/-- Capturing is safe: the variable that stands for the term is in the store. -/
theorem capture_safe (hcaptures : Env.In σ captures) (x : Ident) {t : Term} (ht : t.In σ) :
    (capture x t).Safe σ captures fun _ _ => True := by
  have hmore : ∀ {τ : Store} {y : Nat}, Env.In τ captures → y < τ.vars.size →
      Env.In τ (captures ++ [(x, y)]) := by
    intro τ y hold hy p hp
    rcases List.mem_append.mp hp with hp | hp
    · exact hold p hp
    · rw [List.mem_singleton.mp hp]
      exact hy
  -- a value is captured by a new variable, and the store grows by it
  cases t with
  | var y => exact ⟨.refl, hmore hcaptures ht, trivial⟩
  | val v =>
    have hdeeds : σ.Deeds (σ.newVar (.bound v)).2 := .single (.newVar trivial ht)
    exact ⟨hdeeds, hmore (hdeeds.grows.env hcaptures) (σ.newVar_lt_size _), trivial⟩

end Matcher

theorem Scalar.toValue_in (s : Scalar) (σ : Store) : s.toValue.In σ := by
  cases s <;> trivial

theorem Record.In.select? {σ : Store} {r : Record} (h : r.In σ) {f : Feature} {t : Term}
    (ht : r.select? f = some t) : t.In σ :=
  h ⟨f, t⟩ (Record.mem_of_select? ht)

mutual

/-- Matching a pattern is safe. -/
theorem Pattern.test_safe : (p : Pattern) → {σ : Store} → {captures : Captures} → {t : Term} → σ.Closed →
    Env.In σ captures → t.In σ → (p.test t).Safe σ captures fun _ _ => True
  | .ident x, σ, captures, t, hσ, hcaptures, ht => by
    rw [Pattern.test]
    refine (Matcher.capture_safe hcaptures x ht).bind hσ fun _ τ found _ _ hfound _ => ?_
    exact Matcher.safe_pure hfound trivial
  | .lit s, σ, captures, t, hσ, hcaptures, ht => by
    rw [Pattern.test]
    have hs : Term.In σ (.val s.toValue) := s.toValue_in σ
    exact Matcher.safe_lift hcaptures ((Action.entails_reads hσ ht hs).safe fun _ _ => trivial)
  | .record label fields isOpen, σ, captures, t, hσ, hcaptures, ht => by
    rw [Pattern.test]
    refine (Matcher.safe_read hcaptures (hσ.resolved ht)).bind hσ fun u τ found _ hτ hfound hu => ?_
    cases u with
    | var x => exact Matcher.safe_block hu
    | val v =>
      cases v with
      | record r =>
        refine (Matcher.safe_read hfound (hτ.record r)).bind hτ fun record ρ found hg hρ hfound hrecord => ?_
        split
        · exact Matcher.safe_pure hfound trivial
        · split
          · exact Matcher.safe_pure hfound trivial
          · exact Pattern.testFields_safe fields hρ hfound hrecord
      | lit _ | num _ | obj _ | proc _ | config _ | failed _ => exact Matcher.safe_pure hfound trivial

/-- Matching the fields of a pattern is safe. -/
theorem Pattern.testFields_safe : (fields : List (Scalar × Pattern)) → {σ : Store} → {captures : Captures} →
    {r : Record} → σ.Closed → Env.In σ captures → r.In σ →
    (Pattern.testFields fields r).Safe σ captures fun _ _ => True
  | [], σ, captures, r, hσ, hcaptures, hr => by
    rw [Pattern.testFields]
    exact Matcher.safe_pure hcaptures trivial
  | (s, p) :: rest, σ, captures, r, hσ, hcaptures, hr => by
    rw [Pattern.testFields]
    have hfeature : (Action.ofExcept s.toValue.toFeature).Safe σ fun _ _ => True :=
      (Action.reads_check _).safe fun _ _ => trivial
    refine (Matcher.safe_lift hcaptures hfeature).bind hσ fun feature τ found hg hτ hfound _ => ?_
    cases ht : r.select? feature with
    | none => exact Matcher.safe_pure hfound trivial
    | some t =>
      have htτ : t.In τ := (hg.record hr).select? ht
      refine (Pattern.test_safe p hτ hfound htτ).bind hτ fun answer ρ found hg' hρ hfound _ => ?_
      cases answer with
      | false => exact Matcher.safe_pure hfound trivial
      | true => exact Pattern.testFields_safe rest hρ hfound (hg'.record (hg.record hr))

end

/-- Matching is safe, and what it has captured when it succeeds is in the store. -/
theorem Action.matchTerm_safe {σ : Store} (hσ : σ.Closed) (p : Pattern) {t : Term} (ht : t.In σ) :
    (Action.matchTerm p t).Safe σ fun found τ => ∀ captures, found = some captures → Env.In τ captures := by
  have hnone : Env.In σ [] := fun p hp => absurd hp List.not_mem_nil
  have hsafe := p.test_safe hσ hnone ht
  rw [Matcher.Safe] at hsafe
  rw [Action.Safe, Action.matchTerm]
  generalize p.test t (σ, []) = result at hsafe
  cases result with
  -- the captures count only if all of the pattern has matched
  | ok answer s =>
    cases answer with
    | true => exact ⟨hsafe.1, fun captures h => Option.some.inj h ▸ hsafe.2.1⟩
    | false =>
      refine ⟨hsafe.1, fun captures h => ?_⟩
      cases h
  | error e s => exact hsafe

/-! ## Completing -/

/-- What stands for records and closures is in the store. -/
structure Completed.In (σ : Store) (done : Completed) : Prop where
  records : ∀ (r : RecordId) v, done.records[r]? = some v → v.In σ
  closures : ∀ (c : ClosureId) v, done.closures[c]? = some v → v.In σ

namespace Completed

variable {σ τ : Store} {done : Completed}

theorem in_empty (σ : Store) : Completed.In σ {} := ⟨by simp, by simp⟩

theorem In.grows (h : done.In σ) (hg : σ.Grows τ) : done.In τ :=
  ⟨fun r v hv => hg.value (h.records r v hv), fun c v hv => hg.value (h.closures c v hv)⟩

/-- What is found after an insertion was there before or is the new value. -/
private theorem insert_cases {m : Std.HashMap Nat Value} {k i : Nat} {v w : Value}
    (h : (m.insert k v)[i]? = some w) : m[i]? = some w ∨ w = v := by
  rw [Std.HashMap.getElem?_insert] at h
  split at h
  · exact .inr (Option.some.inj h).symm
  · exact .inl h

/-- What is remembered is still in the store when a record is entered. -/
theorem In.insertRecord (h : done.In σ) {v : Value} (hv : v.In σ) (r : RecordId) :
    Completed.In σ { done with records := done.records.insert r v } := by
  refine ⟨fun i w hw => ?_, h.closures⟩
  rcases insert_cases hw with hold | rfl
  · exact h.records i w hold
  · exact hv

theorem In.insertClosure (h : done.In σ) {v : Value} (hv : v.In σ) (c : ClosureId) :
    Completed.In σ { done with closures := done.closures.insert c v } := by
  refine ⟨h.records, fun i w hw => ?_⟩
  rcases insert_cases hw with hold | rfl
  · exact h.closures i w hold
  · exact hv

end Completed

namespace Completer

variable {α β : Type} {σ : Store} {done : Completed}

/-- The step changes the store by elementary changes, what it carries along is in the store, its result
satisfies `Q`, and what it waits for is unbound. -/
def Safe (m : Completer α) (σ : Store) (done : Completed) (Q : α → Store → Prop) : Prop :=
  Action.Safe (m done) σ fun result τ => Q result.1 τ ∧ result.2.In τ

theorem Safe.bind {m : Completer α} {f : α → Completer β} {Q : α → Store → Prop} {R : β → Store → Prop}
    (h : m.Safe σ done Q) (hσ : σ.Closed)
    (hf : ∀ a τ done, σ.Grows τ → τ.Closed → Completed.In τ done → Q a τ → (f a).Safe τ done R) :
    (m >>= f).Safe σ done R :=
  Action.Safe.bind h hσ fun result τ hg hτ hresult => hf result.1 τ result.2 hg hτ hresult.2 hresult.1

theorem safe_pure (hdone : done.In σ) {Q : α → Store → Prop} {a : α} (h : Q a σ) :
    (pure a : Completer α).Safe σ done Q := Action.safe_pure ⟨h, hdone⟩

theorem safe_modify {f : Completed → Completed} (h : (f done).In σ) :
    (modify f : Completer Unit).Safe σ done fun _ _ => True := Action.safe_pure ⟨trivial, h⟩

theorem safe_get (hdone : done.In σ) :
    (get : Completer Completed).Safe σ done fun found τ => found.In τ := Action.safe_pure ⟨hdone, hdone⟩

theorem safe_lift (hdone : done.In σ) (hσ : σ.Closed) {act : Action α} {Q : α → Store → Prop}
    (h : act.Safe σ Q) : (monadLift act : Completer α).Safe σ done Q :=
  h.bind hσ fun _ _ hg _ hQ => Action.safe_pure ⟨hQ, hdone.grows hg⟩

theorem safe_read (hdone : done.In σ) {f : Store → α} {P : Store → α → Prop} (h : P σ (f σ)) :
    (monadLift (Action.read f) : Completer α).Safe σ done fun a τ => P τ a := ⟨.refl, h, hdone⟩

/-- Completing a term of the store gives a value of the store. -/
def Sound (complete : Term → Completer Value) : Prop :=
  ∀ {σ : Store} {done : Completed} {t : Term}, σ.Closed → done.In σ → t.In σ →
    (complete t).Safe σ done fun v τ => v.In τ

variable {complete : Term → Completer Value}

/-- Rebuilding fields is safe if completing a term is. The fields that come later are still in the store when the first has
been completed. -/
theorem fields_safe (hcomplete : Sound complete) {fs : List Field} (hσ : σ.Closed) (hdone : done.In σ)
    (hfs : ∀ f ∈ fs, f.value.In σ) :
    (fields complete fs).Safe σ done fun gs τ => ∀ g ∈ gs, g.value.In τ := by
  induction fs generalizing σ done with
  | nil => exact safe_pure hdone fun g hg => absurd hg List.not_mem_nil
  | cons f rest ih =>
    have hf := List.forall_mem_cons.mp hfs
    refine (hcomplete hσ hdone hf.1).bind hσ fun v τ done hg hτ hdone hv => ?_
    have hrest : ∀ f ∈ rest, f.value.In τ := fun f hmem => hg.term (hf.2 f hmem)
    refine (ih hτ hdone hrest).bind hτ fun gs ρ done hg' _ hdone hgs => ?_
    exact safe_pure hdone (List.forall_mem_cons.mpr ⟨hg'.value hv, hgs⟩)

/-- Completing what a closure has captured, one after the other. -/
theorem captures_safe (hcomplete : Sound complete) {env : Env} (hσ : σ.Closed) (hdone : done.In σ)
    (henv : env.In σ) : (captures complete env).Safe σ done fun _ _ => True := by
  induction env generalizing σ done with
  | nil => exact safe_pure hdone trivial
  | cons p rest ih =>
    have hp := List.forall_mem_cons.mp henv
    refine (hcomplete hσ hdone (t := .var p.2) hp.1).bind hσ fun v τ done hg hτ hdone _ => ?_
    exact ih hτ hdone (hg.env hp.2)

/-- Rebuilding a record is safe if completing a term is. -/
theorem record_safe (hcomplete : Sound complete) (hσ : σ.Closed) (hdone : done.In σ) {r : RecordId}
    (hr : r < σ.records.size) : (record complete r).Safe σ done fun v τ => v.In τ := by
  -- while it is being rebuilt the record stands for itself, so that the walk ends on cycles
  have hself : Value.In σ (.record r) := hr
  refine (safe_modify (hdone.insertRecord hself r)).bind hσ fun _ τ done _ hτ hdone _ => ?_
  refine (safe_read hdone (hτ.record r)).bind hτ fun source ρ done _ hρ hdone hsource => ?_
  refine (fields_safe hcomplete hρ hdone hsource).bind hρ fun rebuilt π done _ hπ hdone hrebuilt => ?_
  -- the rebuilt record takes the place of the one that stood for itself
  have hnew := Action.newRecord_safe (r := ⟨source.label, rebuilt⟩) hrebuilt
  refine (safe_lift hdone hπ hnew).bind hπ fun s υ done _ hυ hdone hs => ?_
  refine (safe_modify (hdone.insertRecord hs r)).bind hυ fun _ φ done hg _ hdone _ => ?_
  exact safe_pure hdone (hg.value hs)

/-- Completing a closure is safe if completing a term is. -/
theorem closure_safe (hcomplete : Sound complete) (hσ : σ.Closed) (hdone : done.In σ) {v : Value}
    (hv : v.In σ) (c : ClosureId) : (closure complete v c).Safe σ done fun v τ => v.In τ := by
  refine (safe_get hdone).bind hσ fun found τ done hg hτ hdone hfound => ?_
  -- a closure that has been entered is not entered again
  split
  · next w hw => exact safe_pure hdone (hfound.closures c w hw)
  · refine (safe_modify (hdone.insertClosure (hg.value hv) c)).bind hτ fun _ ρ done hg' hρ hdone _ => ?_
    refine (safe_read hdone (hρ.closure c)).bind hρ fun env π done hg'' hπ hdone henv => ?_
    refine (captures_safe hcomplete hπ hdone henv).bind hπ fun _ υ done hg''' _ hdone _ => ?_
    exact safe_pure hdone ((((hg.trans hg').trans hg'').trans hg''').value hv)

theorem block_safe (hdone : done.In σ) (hσ : σ.Closed) {Q : α → Store → Prop} {x : Nat} (hx : σ.Unbound x) :
    (monadLift (Action.block x : Action α) : Completer α).Safe σ done Q :=
  safe_lift hdone hσ ((Action.reads_block (Q := fun _ => False) hx).safe fun _ h => h.elim)

theorem refuse_safe (hdone : done.In σ) (hσ : σ.Closed) {Q : Value → Store → Prop} (what : Incomplete) :
    (refuse what).Safe σ done Q := safe_lift hdone hσ (Action.safe_fault _)

/-- Completing is safe at every bound of the nesting. -/
theorem term_sound (depth : Nat) : Sound (term depth) := by
  -- on the bound of the nesting: records and closures complete their parts with a smaller one
  induction depth with
  | zero =>
    intro σ done t hσ hdone ht
    refine (safe_read hdone (hσ.resolved ht)).bind hσ fun u τ done _ hτ hdone hu => ?_
    cases u with
    | var x => exact block_safe hdone hτ hu
    | val v => exact safe_pure hdone hu
  | succ depth ih =>
    intro σ done t hσ hdone ht
    refine (safe_read hdone (hσ.resolved ht)).bind hσ fun u τ done _ hτ hdone hu => ?_
    cases u with
    | var x => exact block_safe hdone hτ hu
    | val v =>
      have hv : v.In τ := hu
      cases v with
      | record r =>
        refine (safe_get hdone).bind hτ fun found ρ done hg hρ hdone hfound => ?_
        split
        · next w hw => exact safe_pure hdone (hfound.records r w hw)
        · exact record_safe ih hρ hdone (hg.value hv)
      | proc p =>
        cases p with
        | closure c => exact closure_safe ih hτ hdone hv c
        | actorMaker c => exact closure_safe ih hτ hdone hv c
        | ofCell c q => exact refuse_safe hdone hτ .cellProc
        | iter i => exact refuse_safe hdone hτ .iterator
        | native n => exact safe_pure hdone hv
        | ofActor a q => exact safe_pure hdone hv
      | config k =>
        refine (safe_read (P := fun _ _ => True) hdone trivial).bind hτ fun c ρ done hg hρ hdone _ => ?_
        exact closure_safe ih hρ hdone (hg.value hv) c
      | obj o =>
        cases o with
        | cell c => exact refuse_safe hdone hτ .cell
        | actor a => exact safe_pure hdone hv
      | lit l => exact safe_pure hdone hv
      | num n => exact safe_pure hdone hv
      | failed f => exact safe_pure hdone hv

end Completer

/-- Completing is safe: the value is in the store that it has left behind. -/
theorem Action.complete_safe {σ : Store} (hσ : σ.Closed) {t : Term} (ht : t.In σ) :
    (Action.complete t).Safe σ fun v τ => v.In τ := by
  refine (reads_look _).bind_safe fun depth _ => ?_
  have hsafe : Action.Safe (Completer.term depth t {}) σ fun result τ => result.1.In τ ∧ result.2.In τ :=
    Completer.term_sound depth hσ (Completed.in_empty σ) ht
  rw [Safe] at hsafe
  -- what has been carried along is forgotten in the end
  change Action.Safe (Prod.fst <$> Completer.term depth t {}) σ _
  rw [Safe]
  simp only [Functor.map, EStateM.map]
  generalize Completer.term depth t {} σ = result at hsafe
  cases result with
  | ok a τ => exact ⟨hsafe.1, hsafe.2.1⟩
  | error e τ => exact hsafe

end Dataflow
