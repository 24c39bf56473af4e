/-
Ownership: what can change in a store, and whose it is.

Three kinds of things in a store can change: an unbound variable, which may get a value or become one with another, a
cell and an iterator. Suppose that each of them has an owner, who is an actor or the outside. A term is owned by a party
if whatever can change and can be reached from the term has that owner. So a whole term is owned by everybody, and
nothing that can change is reached both from a term of one party and from a term of another.

A party that works on its own terms changes only its own things, and puts into them only what is its own. Nobody else can
reach what has been changed, and what can be reached from a term of the party still leads to things of that party. So
every owned term stays owned, whoever works: this is shown here of each elementary change (`Store.Respects`), together
with the fact that the computations that wait and the effects in the log stay with those whom they concern
(`Store.Divided`).
-/
import Dataflow.Proofs.Actor.Intact

set_option autoImplicit false

namespace Dataflow

/-! ## Parties -/

/-- Somebody who works on a store: an actor, or the outside. -/
abbrev Party := Option Nat

/-- The party that takes the envelopes. -/
def Receiver.party : Receiver → Party
  | .actor n => some n
  | .recorder _ | .client _ => none

/-- The party whose computation is resumed. -/
def Resumer.party : Resumer → Party
  | .activity n _ => some n
  | .queue _ | .tag _ => none

/-- Who owns what can change. -/
abbrev Ownership := Term → Party

/-- A cell or an iterator. -/
def Value.Mutable : Value → Prop
  | .obj (.cell _) | .proc (.iter _) => True
  | _ => False

namespace Store

variable {σ τ ρ : Store} {t u : Term}

/-! ## What can be reached, and what can change -/

/-- The term leads to another term in one step. Besides what it refers to, a variable without a value leads to the one
that stands for it, a cell to its content, a procedure of a cell to the cell, and an iterator to its record. -/
inductive Touches (σ : Store) : Term → Term → Prop where
  | refers {t u : Term} (h : σ.Refers t u) : Touches σ t u
  | linked {x y : VarId} (h : σ.resolveVar x = .var y) : Touches σ (.var x) (.var y)
  | content (c : CellId) : Touches σ (.val (.obj (.cell c))) (σ.cell c)
  | ofCell (c : CellId) (p : CellProc) : Touches σ (.val (.proc (.ofCell c p))) (.val (.obj (.cell c)))
  | source (i : IterId) : Touches σ (.val (.proc (.iter i))) (.val (.record (σ.iterator i).record))

/-- The second term can be reached from the first. -/
abbrev Reach (σ : Store) : Term → Term → Prop := Relation.ReflTransGen σ.Touches

/-- The term is a thing that can change: an unbound variable, a cell or an iterator. -/
def Mutable (σ : Store) : Term → Prop
  | .var x => σ.Unbound x
  | .val v => v.Mutable

/-- What is touched from the store is in the store. -/
theorem Touches.isIn (h : σ.Touches t u) (hσ : σ.Closed) (ht : t.In σ) : u.In σ := by
  cases h with
  | refers h => exact h.isIn hσ ht
  | linked h => exact (unbound_of_resolveVar hσ.linked ht h).lt_size
  | content c => exact hσ.cell c
  | ofCell c p => exact ht
  | source i => exact hσ.iterator ht

/-- What can change is an obstacle for the check of completeness. -/
theorem Mutable.unfit (h : σ.Mutable t) : σ.Unfit t := by
  cases t with
  | var x => exact isBound_of_var (Unbound.resolveVar h)
  | val v =>
    have hv : v.Mutable := h
    unfold Value.Mutable at hv
    split at hv
    · trivial
    · trivial
    · exact hv.elim

/-- From a whole term there are no other ways than those that completing follows. -/
theorem Whole.touches (h : σ.Whole t) (htouches : σ.Touches t u) : σ.Whole u := by
  cases htouches with
  | refers hrefers => exact h.refers hrefers
  | linked hx => exact absurd (isBound_of_var hx) h.not_unfit
  | content c | ofCell c p | source i => exact absurd trivial h.not_unfit

end Store

/-! ## Owned terms -/

/-- What can change and can be reached from the term belongs to the party. -/
structure Term.Owned (own : Ownership) (p : Party) (σ : Store) (t : Term) : Prop where
  isIn : t.In σ
  parts : ∀ u, σ.Reach t u → σ.Mutable u → own u = p

/-- The value is owned as a term. -/
abbrev Value.Owned (own : Ownership) (p : Party) (σ : Store) (v : Value) : Prop := Term.Owned own p σ (.val v)

namespace Term.Owned

variable {own : Ownership} {p q : Party} {σ τ : Store} {t u : Term}

theorem touches (h : t.Owned own p σ) (hσ : σ.Closed) (htouches : σ.Touches t u) : u.Owned own p σ :=
  ⟨htouches.isIn hσ h.isIn, fun w hw => h.parts w (.head htouches hw)⟩

/-- A term is owned if what it leads to is owned, and the term itself if it can change. -/
theorem of_touches (hin : t.In σ) (hself : σ.Mutable t → own t = p) (h : ∀ u, σ.Touches t u → u.Owned own p σ) :
    t.Owned own p σ := by
  refine ⟨hin, fun w hw hmutable => ?_⟩
  rcases hw.cases_head with rfl | ⟨u, htouches, hrest⟩
  · exact hself hmutable
  · exact (h u htouches).parts w hrest hmutable

/-- Whose a thing is that can change. -/
theorem own_eq (h : t.Owned own p σ) (hmutable : σ.Mutable t) : own t = p := h.parts t .refl hmutable

/-- No two parties own one thing that can change. -/
theorem party_eq (h : t.Owned own p σ) (h' : t.Owned own q σ) (hmutable : σ.Mutable t) : q = p :=
  (h'.own_eq hmutable).symm.trans (h.own_eq hmutable)

/-- Whoever owns a term owns what it resolves to. -/
theorem resolve (h : t.Owned own p σ) (hσ : σ.Closed) : (σ.resolve t).Owned own p σ := by
  cases t with
  | val v => exact h
  | var x =>
    rcases hx : σ.resolveVar x with v | y
    · rw [Store.resolve, hx]
      exact h.touches hσ (.refers (.value hx))
    · rw [Store.resolve, hx]
      exact h.touches hσ (.linked hx)

theorem resolve_val (h : t.Owned own p σ) (hσ : σ.Closed) {v : Value} (hv : σ.resolve t = .val v) :
    v.Owned own p σ := by
  have howned := h.resolve hσ
  rwa [hv] at howned

theorem resolve_var (h : t.Owned own p σ) (hσ : σ.Closed) {x : VarId} (hx : σ.resolve t = .var x) :
    Term.Owned own p σ (.var x) := by
  have howned := h.resolve hσ
  rwa [hx] at howned

end Term.Owned

section Parts

variable {own : Ownership} {p : Party} {σ : Store}

/-- **What is whole is owned by everybody.** -/
theorem Term.Owned.of_whole {t : Term} (hin : t.In σ) (h : σ.Whole t) : t.Owned own p σ := by
  refine ⟨hin, fun u hu hmutable => ?_⟩
  suffices hwhole : σ.Whole u from absurd hmutable.unfit hwhole.not_unfit
  clear hmutable
  induction hu with
  | refl => exact h
  | tail _ htouches ih => exact ih.touches htouches

theorem Value.Complete.owned {v : Value} (h : v.Complete σ) (own : Ownership) (p : Party) : v.Owned own p σ :=
  .of_whole h.isIn h.whole

theorem Literal.complete (l : Literal) (σ : Store) : Value.Complete σ (.lit l) := ⟨trivial, σ.whole_lit l⟩

theorem Num.complete (n : Num) (σ : Store) : Value.Complete σ (.num n) := ⟨trivial, σ.whole_num n⟩

theorem Scalar.complete (s : Scalar) (σ : Store) : s.toValue.Complete σ := by
  cases s with
  | num n => exact n.complete σ
  | bool _ | null | eof | str _ => exact Literal.complete _ σ

/-- A reference to an actor leads nowhere. -/
theorem ActorRef.complete (a : ActorRef) (σ : Store) : Value.Complete σ (.obj (.actor a)) :=
  ⟨trivial, Store.whole_of_no_reference nofun nofun⟩

/-- Neither does a procedure that is built in or that an actor reference has. -/
theorem Native.complete (n : Native) (σ : Store) : Value.Complete σ (.proc (.native n)) :=
  ⟨trivial, Store.whole_of_no_reference nofun nofun⟩

theorem ActorProc.complete (a : ActorRef) (q : ActorProc) (σ : Store) : Value.Complete σ (.proc (.ofActor a q)) :=
  ⟨trivial, Store.whole_of_no_reference nofun nofun⟩

/-- The variables of the scope are owned. -/
def Env.Owned (own : Ownership) (p : Party) (σ : Store) (env : Env) : Prop :=
  ∀ b ∈ env, Term.Owned own p σ (.var b.2)

/-- The scope of the frame is owned. -/
def Frame.Owned (own : Ownership) (p : Party) (σ : Store) : Frame → Prop
  | .run _ env | .trap _ _ env => Env.Owned own p σ env

/-- The scopes of the computation are owned. -/
def Stack.Owned (own : Ownership) (p : Party) (σ : Store) (stack : Stack) : Prop := ∀ f ∈ stack, f.Owned own p σ

/-- The waiting computation is owned by whoever is to resume it. -/
def Continuation.Owned (own : Ownership) (σ : Store) (k : Continuation) : Prop :=
  Stack.Owned own k.resumer.party σ k.stack

/-- What the envelope carries to the party is complete. What a request is to be answered with will be bound by whoever
made it, and what a response answers is bound by whoever gets it. -/
def Envelope.Owned (own : Ownership) (p : Party) (σ : Store) : Envelope → Prop
  | .request v requester target => v.Complete σ ∧ target.Owned own requester.receiver.party σ
  | .notify v => v.Complete σ
  | .response v target => v.Complete σ ∧ target.Owned own p σ

/-- What leaves the kernel is owned by the party that it goes to, and a new actor is given a complete configuration. -/
def Effect.Owned (own : Ownership) (σ : Store) : Effect → Prop
  | .wake resumer stack => Stack.Owned own resumer.party σ stack
  | .send recipient e => e.Owned own recipient.receiver.party σ
  | .spawn _ _ config => Value.Complete σ (.config config)

/-- An envelope that is owned is intact. -/
theorem Envelope.Owned.intact {e : Envelope} (h : e.Owned own p σ) : e.Intact σ := by
  cases e with
  | request v requester target => exact ⟨⟨h.1.isIn, h.2.isIn⟩, h.1.whole⟩
  | notify v => exact ⟨Value.Complete.isIn h, Value.Complete.whole h⟩
  | response v target => exact ⟨⟨h.1.isIn, h.2.isIn⟩, h.1.whole⟩

theorem Env.Owned.isIn {env : Env} (h : env.Owned own p σ) : env.In σ := fun b hb => (h b hb).isIn

/-- A stack that is owned is in the store. -/
theorem Stack.Owned.isIn {stack : Stack} (h : stack.Owned own p σ) : stack.In σ := by
  intro f hf
  have howned := h f hf
  cases f with
  | run _ env | trap _ _ env => exact Env.Owned.isIn howned

/-- Whoever owns a scope may extend it by what they own. -/
theorem Env.Owned.extend {env bindings : Env} (henv : env.Owned own p σ) (hbindings : bindings.Owned own p σ) :
    (env.extend bindings).Owned own p σ := by
  intro b hb
  rcases List.mem_append.mp hb with hb | hb
  · exact hbindings b (List.mem_reverse.mp hb)
  · exact henv b hb

theorem Stack.Owned.push {rest : Stack} {env : Env} (hrest : rest.Owned own p σ) (henv : env.Owned own p σ)
    (instr : Instr) : Stack.Owned own p σ (.run instr env :: rest) := List.forall_mem_cons.mpr ⟨henv, hrest⟩

end Parts

namespace Store

variable {own : Ownership} {p q : Party} {σ τ ρ : Store}

/-! ## Changes that respect what is owned -/

/-- Whatever a party owned in the first store, it owns in the second, where things may have other owners. -/
def Carries (σ : Store) (own own' : Ownership) (τ : Store) : Prop := ∀ q t, Term.Owned own q σ t → Term.Owned own' q τ t

/-- Whatever was owned by a party is still owned by it. -/
abbrev Respects (own : Ownership) (σ τ : Store) : Prop := σ.Carries own own τ

namespace Carries

variable {own' own'' : Ownership}

theorem refl (own : Ownership) (σ : Store) : σ.Carries own own σ := fun _ _ h => h

theorem trans (h : σ.Carries own own' τ) (h' : τ.Carries own' own'' ρ) : σ.Carries own own'' ρ :=
  fun q t ht => h' q t (h q t ht)

theorem env (h : σ.Carries own own' τ) {env : Env} (henv : env.Owned own p σ) : env.Owned own' p τ :=
  fun b hb => h p _ (henv b hb)

/-- Whoever owned a computation owns it afterwards. -/
theorem stack (h : σ.Carries own own' τ) {stack : Stack} (hstack : stack.Owned own p σ) : stack.Owned own' p τ := by
  intro f hf
  have howned := hstack f hf
  cases f with
  | run _ env | trap _ _ env => exact h.env howned

theorem envelope (h : σ.Carries own own' τ) (hσ : σ.Closed) (hkeeps : σ.Keeps τ) {e : Envelope}
    (he : e.Owned own p σ) : e.Owned own' p τ := by
  cases e with
  | request _ _ _ | response _ _ => exact ⟨he.1.keeps hσ hkeeps, h _ _ he.2⟩
  | notify _ => exact Value.Complete.keeps he hσ hkeeps

/-- Effects in the log still concern whom they concerned. -/
theorem effect (h : σ.Carries own own' τ) (hσ : σ.Closed) (hkeeps : σ.Keeps τ) {e : Effect} (he : e.Owned own σ) :
    e.Owned own' τ := by
  cases e with
  | wake _ _ => exact h.stack he
  | send _ _ => exact h.envelope hσ hkeeps he
  | spawn _ _ _ => exact Value.Complete.keeps he hσ hkeeps

end Carries

namespace Respects

/-- What a store has been made from by a change that leads owned terms to owned terms only. -/
theorem of_grows (hσ : σ.Closed) (hg : σ.Grows τ)
    (hvars : ∀ q x, Term.Owned own q σ (.var x) → (τ.resolveVar x).Owned own q σ)
    (hunbound : ∀ x < σ.vars.size, τ.Unbound x → σ.Unbound x)
    (hcells : ∀ q c, Value.Owned own q σ (.obj (.cell c)) → (τ.cell c).Owned own q σ)
    (hiterators : ∀ i < σ.iterators.size, (τ.iterator i).record = (σ.iterator i).record) : σ.Respects own τ := by
  have htouches : ∀ q t u, t.Owned own q σ → τ.Touches t u → u.Owned own q σ := by
    intro q t u ht h
    cases h with
    | refers h =>
      cases h with
      | @value x v hv => exact hv ▸ hvars q x ht
      | field hf => exact ht.touches hσ (.refers (.field (hg.record_eq ht.isIn ▸ hf)))
      | captured hb => exact ht.touches hσ (.refers (.captured (hg.closure_eq ht.isIn ▸ hb)))
      | maker c => exact ht.touches hσ (.refers (.maker c))
      | argument hv => exact ht.touches hσ (.refers (.argument (hg.config_eq ht.isIn ▸ hv)))
      | handlers k =>
        rw [hg.config_eq ht.isIn]
        exact ht.touches hσ (.refers (.handlers k))
      | error f =>
        rw [hg.failure_eq ht.isIn]
        exact ht.touches hσ (.refers (.error f))
    | @linked x y hx => exact hx ▸ hvars q x ht
    | content c => exact hcells q c ht
    | ofCell c p => exact ht.touches hσ (.ofCell c p)
    | source i =>
      rw [hiterators i ht.isIn]
      exact ht.touches hσ (.source i)
  intro q t ht
  refine ⟨hg.term ht.isIn, fun u hu hmutable => ?_⟩
  -- along the whole way, everything was owned before the change
  have hu : u.Owned own q σ := by
    clear hmutable
    induction hu with
    | refl => exact ht
    | tail _ hstep ih => exact htouches q _ _ ih hstep
  refine hu.own_eq ?_
  cases u with
  | var x => exact hunbound x hu.isIn hmutable
  | val v => exact hmutable

/-- What leaves the variables alone. -/
theorem of_vars_eq (hσ : σ.Closed) (hg : σ.Grows τ) (hvars : τ.vars = σ.vars)
    (hcells : ∀ q c, Value.Owned own q σ (.obj (.cell c)) → (τ.cell c).Owned own q σ)
    (hiterators : ∀ i < σ.iterators.size, (τ.iterator i).record = (σ.iterator i).record) : σ.Respects own τ := by
  refine .of_grows hσ hg (fun q x hx => ?_) (fun x _ hx => ?_) hcells hiterators
  · have hsame : τ.resolveVar x = σ.resolveVar x := resolve_of_vars_eq hvars (.var x)
    rw [hsame]
    exact hx.resolve hσ
  · rwa [Unbound, hvars] at hx

/-- **Binding a variable** to a value of its owner. -/
theorem assign (hσ : σ.Closed) {x : Nat} {v : Value} (hx : σ.Unbound x) (hown : Term.Owned own p σ (.var x))
    (hv : v.Owned own p σ) : σ.Respects own (σ.assign x v) := by
  have hbinds : Binds σ (σ.assign x v) := .assign hx hv.isIn
  refine .of_grows hσ hbinds.grows (fun q z hz => ?_) (fun z _ => hbinds.unbound) (fun q c hc => ?_) fun i _ => ?_
  · change ((σ.assign x v).resolve (.var z)).Owned own q σ
    by_cases hres : σ.resolve (.var z) = .var x
    -- the variable stood for `x`, so their owner is the same
    · rw [resolve_assign_of_eq hσ.linked hx v hres, hown.party_eq (hz.resolve_var hσ hres) hx]
      exact hv
    · rw [resolve_assign_of_ne hσ.linked hx v hres]
      exact hz.resolve hσ
  · rw [assign_eq]
    exact hc.touches hσ (.content c)
  · rw [assign_eq]
    rfl

/-- **Merging two variables** of one owner. -/
theorem merge (hσ : σ.Closed) {x y : Nat} (hx : σ.Unbound x) (hy : σ.Unbound y) (hne : x ≠ y)
    (hownx : Term.Owned own p σ (.var x)) (howny : Term.Owned own p σ (.var y)) : σ.Respects own (σ.merge x y) := by
  have hbinds : Binds σ (σ.merge x y) := .merge hx hy hne
  have hmax : Term.Owned own p σ (.var (max x y)) := by
    rcases Nat.le_total x y with hle | hle
    · rwa [Nat.max_eq_right hle]
    · rwa [Nat.max_eq_left hle]
  refine .of_grows hσ hbinds.grows (fun q z hz => ?_) (fun z _ => hbinds.unbound)
    (fun q c hc => hc.touches hσ (.content c)) fun _ _ => rfl
  change ((σ.merge x y).resolve (.var z)).Owned own q σ
  by_cases hres : σ.resolve (.var z) = .var (min x y)
  · have hmin : Term.Owned own p σ (.var (min x y)) := by
      rcases Nat.le_total x y with hle | hle
      · rwa [Nat.min_eq_left hle]
      · rwa [Nat.min_eq_right hle]
    rw [resolve_merge_of_eq hσ.linked hx hy hne hres, hmin.party_eq (hz.resolve_var hσ hres) (hx.min hy)]
    exact hmax
  · rw [resolve_merge_of_ne hσ.linked hx hy hne hres]
    exact hz.resolve hσ

/-- A new variable takes nothing from anybody, and nothing that was bound becomes unbound. -/
theorem newVar (hσ : σ.Closed) {s : VarState} (hs : ∀ y, s ≠ .link y) (hin : s.In σ σ.vars.size) :
    σ.Respects own (σ.newVar s).2 := by
  have hstep : VarStep σ (σ.newVar s).2 := .newVar hs hin
  refine .of_grows hσ hstep.grows (fun q z hz => ?_) (fun z hz hunbound => ?_)
    (fun q c hc => hc.touches hσ (.content c)) fun _ _ => rfl
  · rw [resolveVar_newVar hσ.linked hs hz.isIn]
    exact hz.resolve hσ
  · obtain ⟨ks, hks⟩ := hunbound
    rw [newVar_getElem?, if_neg (Nat.ne_of_lt hz)] at hks
    exact ⟨ks, hks⟩

/-- Parking a continuation changes who waits for a variable, and neither its value nor its owner. -/
theorem park (hσ : σ.Closed) {x : Nat} {k : Continuation} (hx : σ.Unbound x) (hk : k.In σ) :
    σ.Respects own (σ.park x k) := by
  have hstep : VarStep σ (σ.park x k) := .park hx hk
  refine .of_grows hσ hstep.grows (fun q z hz => ?_) (fun z _ hunbound => ?_)
    (fun q c hc => hc.touches hσ (.content c)) fun _ _ => rfl
  · change ((σ.park x k).resolve (.var z)).Owned own q σ
    rw [resolve_park hσ.linked hx]
    exact hz.resolve hσ
  · obtain ⟨ks, hks⟩ := hunbound
    rw [park_getElem? hx] at hks
    split at hks
    · next hzx => exact hzx ▸ hx
    · exact ⟨ks, hks⟩

end Respects

/-! ## New things -/

section New

/-- An unbound variable leads nowhere. -/
theorem owned_of_unbound {x : VarId} (hx : σ.Unbound x) (hown : own (.var x) = p) : Term.Owned own p σ (.var x) := by
  refine ⟨hx.lt_size, fun u hu _ => ?_⟩
  suffices hsame : u = .var x from hsame ▸ hown
  clear * - hu hx
  induction hu with
  | refl => rfl
  | tail _ htouches ih =>
    subst ih
    cases htouches with
    | refers h =>
      cases h with
      | value hv => cases hx.resolveVar.symm.trans hv
    | linked hy => exact hy.symm.trans hx.resolveVar

/-- A variable belongs to whom its value belongs to. -/
theorem owned_of_resolveVar {x : VarId} {v : Value} (hin : x < σ.vars.size) (hx : σ.resolveVar x = .val v)
    (hv : v.Owned own p σ) : Term.Owned own p σ (.var x) := by
  refine .of_touches hin (fun hmutable => ?_) fun u hu => ?_
  · cases (Unbound.resolveVar hmutable).symm.trans hx
  · cases hu with
    | refers h =>
      cases h with
      | value hw => exact Term.val.inj (hx.symm.trans hw) ▸ hv
    | linked hy => cases hx.symm.trans hy

/-- A record belongs to whom its fields belong to. -/
theorem owned_record {r : RecordId} (hin : r < σ.records.size)
    (h : ∀ f ∈ (σ.record r).fields, f.value.Owned own p σ) : Value.Owned own p σ (.record r) := by
  refine .of_touches hin (fun hmutable => hmutable.elim) fun u hu => ?_
  cases hu with
  | refers hrefers =>
    cases hrefers with
    | field hf => exact h _ hf

/-- A closure belongs to whom its captures belong to. -/
theorem owned_closure {c : ClosureId} (hin : c < σ.closures.size) (h : (σ.closure c).env.Owned own p σ) :
    Value.Owned own p σ (.proc (.closure c)) := by
  refine .of_touches hin (fun hmutable => hmutable.elim) fun u hu => ?_
  cases hu with
  | refers hrefers =>
    cases hrefers with
    | captured hb => exact h _ hb

/-- A constructor of actors is owned as the closure is that makes the handlers. -/
theorem owned_maker {c : ClosureId} (h : Value.Owned own p σ (.proc (.closure c))) :
    Value.Owned own p σ (.proc (.actorMaker c)) := by
  refine .of_touches h.isIn (fun hmutable => hmutable.elim) fun u hu => ?_
  cases hu with
  | refers hrefers =>
    cases hrefers with
    | maker => exact h

theorem owned_config {k : ConfigId} (hin : k < σ.configs.size) (hargs : ∀ v ∈ (σ.config k).args, v.Owned own p σ)
    (hhandlers : Value.Owned own p σ (.proc (.closure (σ.config k).handlers))) : Value.Owned own p σ (.config k) := by
  refine .of_touches hin (fun hmutable => hmutable.elim) fun u hu => ?_
  cases hu with
  | refers hrefers =>
    cases hrefers with
    | argument hv => exact hargs _ hv
    | handlers => exact hhandlers

/-- A cell can change, so that it must be assigned to its owner, who owns the content too. -/
theorem owned_cell {c : CellId} (hin : c < σ.cells.size) (hown : own (.val (.obj (.cell c))) = p)
    (h : (σ.cell c).Owned own p σ) : Value.Owned own p σ (.obj (.cell c)) := by
  refine .of_touches hin (fun _ => hown) fun u hu => ?_
  cases hu with
  | refers hrefers => cases hrefers
  | content => exact h

theorem owned_cellProc {c : CellId} (h : Value.Owned own p σ (.obj (.cell c))) (q : CellProc) :
    Value.Owned own p σ (.proc (.ofCell c q)) := by
  refine .of_touches h.isIn (fun hmutable => hmutable.elim) fun u hu => ?_
  cases hu with
  | refers hrefers => cases hrefers
  | ofCell => exact h

/-- An iterator can change, so that it must be assigned to its owner, who owns the record too. -/
theorem owned_iterator {i : IterId} (hin : i < σ.iterators.size) (hown : own (.val (.proc (.iter i))) = p)
    (h : Value.Owned own p σ (.record (σ.iterator i).record)) : Value.Owned own p σ (.proc (.iter i)) := by
  refine .of_touches hin (fun _ => hown) fun u hu => ?_
  cases hu with
  | refers hrefers => cases hrefers
  | source => exact h

end New

/-! ## Divided stores -/

/-- Whatever waits in the store or is in its log is owned by whom it concerns, and whatever is new will belong to the
party that is at work. -/
structure Divided (own : Ownership) (p : Party) (σ : Store) : Prop where
  closed : σ.Closed
  intact : σ.Intact
  new : ∀ t, ¬ Term.In σ t → own t = p
  waiting : ∀ (x : Nat) ks, σ.vars[x]? = some (.unbound ks) → ∀ k ∈ ks, k.Owned own σ
  log : ∀ e ∈ σ.effects, e.Owned own σ

/-- The work of a party has led from one store to another, which is divided again. -/
structure Passes (own : Ownership) (p : Party) (σ τ : Store) : Prop where
  respects : σ.Respects own τ
  keeps : σ.Keeps τ
  divided : τ.Divided own p

theorem Passes.refl (h : σ.Divided own p) : σ.Passes own p σ := ⟨.refl own σ, .refl σ, h⟩

theorem Passes.trans (h : σ.Passes own p τ) (h' : τ.Passes own p ρ) : σ.Passes own p ρ :=
  ⟨h.respects.trans h'.respects, h.keeps.trans h'.keeps, h'.divided⟩

end Store

namespace Store.Divided

variable {own : Ownership} {p : Party} {σ τ : Store}

/-- What waits in a divided store is owned by whom it will be resumed for. -/
theorem of_waiting (h : σ.Divided own p) {x : VarId} {k : Continuation} (hk : k ∈ σ.waiting x) : k.Owned own σ := by
  rw [Store.waiting] at hk
  split at hk
  · next ks hks => exact h.waiting x ks hks k hk
  · exact absurd hk List.not_mem_nil

/-- A change that respects what is owned, and after which what waits and what is in the log is as it was, or is owned. -/
theorem passes (h : σ.Divided own p) (hevolves : σ.Evolves τ) (hintact : τ.Intact) (hrespects : σ.Respects own τ)
    (hwaiting : ∀ (x : Nat) ks, τ.vars[x]? = some (.unbound ks) → ∀ k ∈ ks, k.Owned own σ)
    (hlog : ∀ e ∈ τ.effects, e.Owned own σ) : σ.Passes own p τ where
  respects := hrespects
  keeps := hevolves.keeps h.closed
  divided :=
    { closed := hevolves.closed h.closed
      intact := hintact
      new := fun t ht => h.new t fun hin => ht (hevolves.grows.term hin)
      waiting := fun x ks hks k hk => hrespects.stack (hwaiting x ks hks k hk)
      log := fun e he => hrespects.effect h.closed (hevolves.keeps h.closed) (hlog e he) }

/-- A change outside the variables, of which the log does not show anything. -/
theorem passes_table (h : σ.Divided own p) (hstep : TableStep σ τ) (hintact : τ.Intact) (hlog : τ.effects = σ.effects)
    (hcells : ∀ q c, Value.Owned own q σ (.obj (.cell c)) → (τ.cell c).Owned own q σ)
    (hiterators : ∀ i < σ.iterators.size, (τ.iterator i).record = (σ.iterator i).record) : σ.Passes own p τ := by
  have hvars : τ.vars = σ.vars := hstep.vars_eq
  refine h.passes (.single (.table hstep)) hintact (.of_vars_eq h.closed hstep.grows hvars hcells hiterators) ?_ ?_
  · rw [hvars]
    exact h.waiting
  · rw [hlog]
    exact h.log

end Store.Divided

end Dataflow
