/-
Readings: one store as a part of what another one knows.

Two computations that do the same in different orders make the same things under different names, and they bind and
merge variables in different orders. To compare their stores, the things of one are read as things of the other: a
variable as a term, a record as a record, and a procedure as a procedure. A reading is right (`Reads`) if the other store
makes the same of everything that the first one knows. What has been bound or merged in the first store is then the same
in the other, but not the other way round, so the first one may be behind.

Whatever the first store can tell about two terms is so in the other store: that they are the same, or that they differ.
And what the other store takes to be the same can be unified in the first one, which is still right about the other
afterwards.
-/
import Dataflow.Proofs.Sameness

set_option autoImplicit false

namespace Dataflow

/-- What the things of a store are read as. -/
structure Reading where
  var : VarId → Term
  record : RecordId → RecordId
  closure : ClosureId → ClosureId

namespace Reading

/-- What a value is read as. -/
def value (φ : Reading) : Value → Value
  | .record r => .record (φ.record r)
  | .proc (.closure c) => .proc (.closure (φ.closure c))
  | v => v

/-- What a term is read as. -/
def term (φ : Reading) : Term → Term
  | .val v => .val (φ.value v)
  | .var x => φ.var x

/-- Everything is read as itself. -/
def self : Reading := ⟨.var, id, id⟩

theorem self_value (v : Value) : self.value v = v := by
  cases v with
  | proc p => cases p <;> rfl
  | _ => rfl

theorem self_term (t : Term) : self.term t = t := by
  cases t with
  | val v => exact congrArg Term.val (self_value v)
  | var x => rfl

/-- A field is read as a field of that feature with the same value. -/
def Field (φ : Reading) (ω : Store) (f g : Dataflow.Field) : Prop :=
  f.feature = g.feature ∧ ω.Same (φ.term f.value) g.value

/-- A record is read as a record of that label whose fields it is read as. -/
structure Record (φ : Reading) (ω : Store) (a b : Dataflow.Record) : Prop where
  label : a.label = b.label
  fields : List.Forall₂ (φ.Field ω) a.fields b.fields

/-- A scope is read as a scope of the same identifiers, whose variables are the same. -/
def Env (φ : Reading) (ω : Store) (env env' : Dataflow.Env) : Prop :=
  List.Forall₂ (fun p q => p.1 = q.1 ∧ ω.Same (φ.var p.2) (.var q.2)) env env'

/-- A closure is read as a closure of the same procedure. -/
structure Closure (φ : Reading) (ω : Store) (a b : Dataflow.Closure) : Prop where
  proc : a.proc = b.proc
  env : φ.Env ω a.env b.env

/-- The store `ω` makes the same of everything that `σ` knows, and it does not confuse the closures of `σ`. -/
structure Reads (φ : Reading) (σ ω : Store) : Prop where
  bound : ∀ (x : Nat) v, σ.vars[x]? = some (.bound v) → ω.Same (φ.var x) (.val (φ.value v))
  link : ∀ (x y : Nat), σ.vars[x]? = some (.link y) → ω.Same (φ.var x) (φ.var y)
  record : ∀ r : Nat, r < σ.records.size → φ.Record ω (σ.record r) (ω.record (φ.record r))
  closure : ∀ c : Nat, c < σ.closures.size → φ.Closure ω (σ.closure c) (ω.closure (φ.closure c))
  injective : ∀ c d : Nat, c < σ.closures.size → d < σ.closures.size → φ.closure c = φ.closure d → c = d

variable {φ ψ : Reading} {σ τ ω : Store} {a b t u : Term} {v w : Value}

/-! ## Values -/

/-- A value of integers is read as one. -/
theorem value_exact (h : v.Exact) : (φ.value v).Exact := by
  cases v with
  | proc p =>
    cases p with
    | closure c => exact Value.exact_of_ne_num nofun
    | _ => exact h
  | record r => exact Value.exact_of_ne_num nofun
  | _ => exact h

/-- What a value is read as resolves to nothing but that value or a record of that shape. -/
theorem twin_cases (h : ω.Same (.val (φ.value v)) (.val w)) :
    (∃ r s, v = .record r ∧ w = .record s) ∨ (∀ r, v ≠ .record r) ∧ w = φ.value v := by
  by_cases hv : ∃ r, v = .record r
  · obtain ⟨r, rfl⟩ := hv
    obtain ⟨s, hw, -, -⟩ := h.of_record rfl
    exact .inl ⟨r, s, rfl, Term.val.inj hw⟩
  · have hatom : ∀ r, φ.value v ≠ .record r := by
      intro r hr
      cases v with
      | record s => exact hv ⟨s, rfl⟩
      | proc p => cases p <;> cases hr
      | _ => cases hr
    exact .inr ⟨fun r hr => hv ⟨r, hr⟩, Term.val.inj (h.of_atom rfl hatom)⟩

/-- Records that are read alike have one shape. -/
theorem Record.sameShape {x y : Dataflow.Record} (h : φ.Record ω x y) : x.sameShape y = true := by
  refine Record.sameShape_iff.mpr ⟨h.label, ?_⟩
  have hfields := h.fields
  generalize x.fields = xs, y.fields = ys at hfields
  induction hfields with
  | nil => rfl
  | cons hfg _ ih => rw [List.map_cons, List.map_cons, hfg.1, ih]

/-- Two records that are read alike have fields that are read alike at each position. -/
theorem Record.getElem? {x y : Dataflow.Record} (h : φ.Record ω x y) {i : Nat} :
    (∀ f, x.fields[i]? = some f → ∃ g, y.fields[i]? = some g ∧ φ.Field ω f g) ∧
      ∀ g, y.fields[i]? = some g → ∃ f, x.fields[i]? = some f ∧ φ.Field ω f g := by
  have hfields := h.fields
  generalize x.fields = xs, y.fields = ys at hfields
  induction hfields generalizing i with
  | nil => exact ⟨fun _ hf => by simp at hf, fun _ hg => by simp at hg⟩
  | @cons f g fs gs hfg _ ih =>
    cases i with
    | zero =>
      refine ⟨fun f' hf => ⟨g, rfl, ?_⟩, fun g' hg => ⟨f, rfl, ?_⟩⟩
      · exact Option.some.inj hf ▸ hfg
      · exact Option.some.inj hg ▸ hfg
    | succ i => exact ih

/-- What faces each other in two records, and in those that they are read as. -/
theorem Record.sides {x y x' y' : Dataflow.Record} (hx : φ.Record ω x x') (hy : φ.Record ω y y') :
    (∀ p ∈ x.sides y, ∃ q ∈ x'.sides y', ω.Same (φ.term p.1) q.1 ∧ ω.Same (φ.term p.2) q.2) ∧
      ∀ q ∈ x'.sides y', ∃ p ∈ x.sides y, ω.Same (φ.term p.1) q.1 ∧ ω.Same (φ.term p.2) q.2 := by
  constructor
  · intro p hp
    obtain ⟨i, f, g, hf, hg, rfl⟩ := Record.mem_sides.mp hp
    obtain ⟨f', hf', hff⟩ := hx.getElem?.1 f hf
    obtain ⟨g', hg', hgg⟩ := hy.getElem?.1 g hg
    exact ⟨_, Record.mem_sides.mpr ⟨i, f', g', hf', hg', rfl⟩, hff.2, hgg.2⟩
  · intro q hq
    obtain ⟨i, f', g', hf', hg', rfl⟩ := Record.mem_sides.mp hq
    obtain ⟨f, hf, hff⟩ := hx.getElem?.2 f' hf'
    obtain ⟨g, hg, hgg⟩ := hy.getElem?.2 g' hg'
    exact ⟨_, Record.mem_sides.mpr ⟨i, f, g, hf, hg, rfl⟩, hff.2, hgg.2⟩

theorem record_self (ω : Store) (x : Dataflow.Record) : self.Record ω x x := by
  refine ⟨rfl, List.forall₂_same.mpr fun f _ => ⟨rfl, ?_⟩⟩
  rw [self_term]
  exact .refl ω _

theorem closure_self (ω : Store) (x : Dataflow.Closure) : self.Closure ω x x :=
  ⟨rfl, List.forall₂_same.mpr fun _ _ => ⟨rfl, .refl ω _⟩⟩

namespace Reads

/-! ## What the first store can tell -/

/-- A term and what it resolves to are read as the same. -/
theorem resolve (h : φ.Reads σ ω) (hσ : σ.Linked) (t : Term) : ω.Same (φ.term t) (φ.term (σ.resolve t)) := by
  cases t with
  | val v => exact .refl ω _
  | var x =>
    show ω.Same (φ.var x) (φ.term (σ.resolveVar x))
    -- along the chain of links
    induction hn : σ.vars.size - x using Nat.strong_induction_on generalizing x with
    | _ n ih =>
      by_cases hlink : ∃ y, σ.vars[x]? = some (.link y)
      · obtain ⟨y, hy⟩ := hlink
        obtain ⟨hxy, hysize⟩ := hσ x y hy
        have hrep : σ.resolveVar x = σ.resolveVar y :=
          Store.resolveVar_eq_of_representative_eq (Store.representative_of_link hσ hy)
        rw [hrep]
        exact (h.link x y hy).trans (ih (σ.vars.size - y) (by omega) y rfl)
      · have hrep : σ.representative x = x := Store.representative_of_ne_link fun y hy => hlink ⟨y, hy⟩
        rcases hx : σ.resolveVar x with v | y
        · rw [Store.resolveVar_eq_val, hrep] at hx
          exact h.bound x v hx
        · have hy := (Store.resolveVar_eq_var.mp hx).1
          rw [hrep] at hy
          exact hy ▸ .refl ω _

/-- Terms that resolve to one term are read as the same. -/
theorem of_resolve_eq (h : φ.Reads σ ω) (hσ : σ.Linked) (heq : σ.resolve t = σ.resolve u) :
    ω.Same (φ.term t) (φ.term u) :=
  (h.resolve hσ t).trans (heq ▸ (h.resolve hσ u).symm)

/-- Terms that are the same are read as the same. -/
theorem same (h : φ.Reads σ ω) (hσ : σ.Closed) (ha : a.In σ) (hb : b.In σ) (hab : σ.Same a b) :
    ω.Same (φ.term a) (φ.term b) := by
  refine Store.same_of_bisimilar (fun t' u' => ∃ t u, t.In σ ∧ u.In σ ∧ σ.Same t u ∧ ω.Same t' (φ.term t) ∧
    ω.Same (φ.term u) u') ?_ ⟨a, b, ha, hb, hab, .refl ω _, .refl ω _⟩
  rintro t' u' ⟨t, u, ht, hu, htu, ht', hu'⟩
  rcases htu.cases with heq | ⟨r, s, htr, hus⟩
  · exact .inl ((ht'.trans (h.of_resolve_eq hσ.linked heq)).trans hu')
  -- the two records, what they are read as, and the records that are the same as those
  have hr : φ.Record ω (σ.record r) (ω.record (φ.record r)) := h.record r (hσ.resolve_val ht htr)
  have hs : φ.Record ω (σ.record s) (ω.record (φ.record s)) := h.record s (hσ.resolve_val hu hus)
  have htread := h.resolve hσ.linked t
  have huread := h.resolve hσ.linked u
  rw [htr] at htread
  rw [hus] at huread
  obtain ⟨r', hres, hshape, hleft⟩ := (ht'.trans htread).symm.of_record rfl
  obtain ⟨s', hres', hshape', hright⟩ := (huread.symm.trans hu').of_record rfl
  obtain ⟨hrs, hsides⟩ := htu.record htr hus
  refine .inr ⟨r', s', hres, hres', ?_, fun p hp => ?_⟩
  · exact Record.sameShape_trans (Record.sameShape_symm hshape) (Record.sameShape_trans
      (Record.sameShape_symm hr.sameShape) (Record.sameShape_trans hrs (Record.sameShape_trans hs.sameShape hshape')))
  · obtain ⟨t₁, h₁, hp₁⟩ := Record.sides_between (Record.sameShape_symm hshape) hp
    obtain ⟨u₁, h₂, hp₂⟩ := Record.sides_between (Record.sameShape_symm hshape') (Record.sides_swap hp₁)
    obtain ⟨q, hq, hq₁, hq₂⟩ := (Record.sides hr hs).2 _ (Record.sides_swap hp₂)
    obtain ⟨f, hf, hfq⟩ := Record.sides_left hq
    obtain ⟨g, hg, hgq⟩ := Record.sides_right hq
    refine ⟨q.1, q.2, hfq ▸ hσ.record r f hf, hgq ▸ hσ.record s g hg, hsides q hq, ?_, ?_⟩
    · exact (hleft _ (Record.sides_swap h₁)).symm.trans hq₁.symm
    · exact hq₂.trans (hright _ (Record.sides_swap h₂))

/-- Different atoms are read as different atoms. -/
theorem sameAtom (h : φ.Reads σ ω) (hv : v.In σ) (hw : w.In σ)
    (hsame : (φ.value v).sameAtom (φ.value w) = true) : v.sameAtom w = true := by
  -- only closures are read as something else, and no two of them alike
  cases v with
  | record r => exact absurd hsame (Value.not_sameAtom_record _ _)
  | proc p =>
    cases w with
    | proc q =>
      cases p with
      | closure c =>
        cases q with
        | closure d =>
          have hcd : φ.closure c = φ.closure d := by simpa [value, Value.sameAtom] using hsame
          simp [Value.sameAtom, h.injective c d hv hw hcd]
        | _ => simp [value, Value.sameAtom] at hsame
      | _ =>
        cases q with
        | closure d => simp [value, Value.sameAtom] at hsame
        | _ => exact hsame
    | _ =>
      cases p <;> exact hsame
  | _ =>
    cases w with
    | proc q => cases q <;> exact hsame
    | _ => exact hsame

/-- Terms that clash are read as terms that do. -/
theorem clash (h : φ.Reads σ ω) (ha : a.In σ) (hb : b.In σ) (hab : σ.Clash a b) :
    ω.Clash (φ.term a) (φ.term b) := by
  cases hab with
  | @shape r s hne hshape =>
    have hr := (h.record r ha).sameShape
    have hs := (h.record s hb).sameShape
    have hapart : ¬ (ω.record (φ.record r)).sameShape (ω.record (φ.record s)) = true := fun h' =>
      hshape (Record.sameShape_trans (Record.sameShape_trans hr h') (Record.sameShape_symm hs))
    exact .shape (fun heq => hapart (heq ▸ Record.sameShape_iff.mpr ⟨rfl, rfl⟩)) hapart
  | @atom v w hrecord hsame =>
    refine .atom (fun r s hv hw => ?_) fun h' => hsame (h.sameAtom ha hb h')
    -- only records are read as records
    cases v with
    | record r' =>
      cases w with
      | record s' => exact hrecord r' s' rfl rfl
      | proc p => cases p <;> cases hw
      | _ => cases hw
    | proc p => cases p <;> cases hv
    | _ => cases hv

/-- Terms that differ are read as terms that do. -/
theorem differs (h : φ.Reads σ ω) (hσ : σ.Closed) (ha : a.In σ) (hb : b.In σ) (hab : σ.Differs a b) :
    ω.Differs (φ.term a) (φ.term b) := by
  induction hab with
  | @clash a b hclash =>
    have hread := h.clash (hσ.resolve ha) (hσ.resolve hb) hclash
    refine Store.Differs.congr (.clash ?_) (h.resolve hσ.linked a).symm (h.resolve hσ.linked b).symm
    -- only values clash, and what they are read as is resolved already
    generalize σ.resolve a = t, σ.resolve b = u at hclash hread
    cases hclash with
    | shape => exact hread
    | atom => exact hread
  | @field a b r s p har hbs hp _ ih =>
    obtain ⟨f, hf, hfp⟩ := Record.sides_left hp
    obtain ⟨g, hg, hgp⟩ := Record.sides_right hp
    have hread := ih (hfp ▸ hσ.record r f hf) (hgp ▸ hσ.record s g hg)
    obtain ⟨q, hq, hq₁, hq₂⟩ :=
      (Record.sides (h.record r (hσ.resolve_val ha har)) (h.record s (hσ.resolve_val hb hbs))).1 p hp
    have harecord := h.resolve hσ.linked a
    have hbrecord := h.resolve hσ.linked b
    rw [har] at harecord
    rw [hbs] at hbrecord
    exact (Store.Differs.field rfl rfl hq (hread.congr hq₁ hq₂)).congr harecord.symm hbrecord.symm

/-- A store reads what comes after it as itself. -/
theorem of_precedes (hστ : σ.Precedes τ) (hσ : σ.Closed) : self.Reads σ τ where
  bound x v hx := by
    -- a variable with a value of its own represents itself
    have hin : Term.In σ (.var x) := (Array.getElem?_eq_some_iff.mp hx).1
    have hres : σ.resolve (.var x) = .val v := by
      refine Store.resolveVar_of_bound ?_
      rwa [Store.representative_of_ne_link fun y hy => by rw [hx] at hy; cases hy]
    refine .of_resolve_eq ?_
    rw [self_value]
    exact hστ.val hσ hin hres
  link x y hx := by
    have hin : Term.In σ (.var x) := (Array.getElem?_eq_some_iff.mp hx).1
    have hxy : Term.In σ (.var y) := (hσ.linked x y hx).2
    exact .of_resolve_eq (hστ.congr _ _ hin hxy
      (Store.resolveVar_eq_of_representative_eq (Store.representative_of_link hσ.linked hx)))
  record r hr := by
    have hrecord : τ.record (self.record r) = σ.record r := hστ.grows.record_eq hr
    rw [hrecord]
    exact record_self τ _
  closure c hc := by
    have hclosure : τ.closure (self.closure c) = σ.closure c := hστ.grows.closure_eq hc
    rw [hclosure]
    exact closure_self τ _
  injective _ _ _ _ h := h

/-! ## What the other store takes to be the same -/

/-- Binding a variable to what it is read as the same as. -/
theorem assign (h : φ.Reads σ ω) {x : Nat} (hx : σ.Unbound x) (hxv : ω.Same (φ.var x) (.val (φ.value v))) :
    φ.Reads (σ.assign x v) ω where
  bound z w hz := by
    rw [Store.assign_getElem? hx] at hz
    -- the variable that is bound, and all others
    by_cases hzx : z = x
    · rw [if_pos hzx] at hz
      cases hz
      exact hzx ▸ hxv
    · rw [if_neg hzx] at hz
      exact h.bound z w hz
  link z y hz := by
    rw [Store.assign_getElem? hx] at hz
    by_cases hzx : z = x
    · rw [if_pos hzx] at hz
      cases hz
    · rw [if_neg hzx] at hz
      exact h.link z y hz
  record r hr := by
    rw [Store.assign_records] at hr
    rw [Store.record, Store.assign_records]
    exact h.record r hr
  closure c hc := by
    rw [Store.assign_closures] at hc
    rw [Store.closure, Store.assign_closures]
    exact h.closure c hc
  injective c d hc hd := by
    rw [Store.assign_closures] at hc hd
    exact h.injective c d hc hd

/-- Merging variables that are read as the same. -/
theorem merge (h : φ.Reads σ ω) {x y : Nat} (hx : σ.Unbound x) (hy : σ.Unbound y)
    (hxy : ω.Same (φ.var x) (φ.var y)) : φ.Reads (σ.merge x y) ω where
  bound z w hz := by
    rw [Store.merge_getElem? hx hy] at hz
    by_cases hmin : z = min x y
    · rw [if_pos hmin] at hz
      cases hz
    · rw [if_neg hmin] at hz
      by_cases hmax : z = max x y
      · rw [if_pos hmax] at hz
        cases hz
      · rw [if_neg hmax] at hz
        exact h.bound z w hz
  link z w hz := by
    rw [Store.merge_getElem? hx hy] at hz
    by_cases hmin : z = min x y
    · rw [if_pos hmin] at hz
      cases hz
      -- whichever of the two is the older one
      rcases Nat.le_total x y with hle | hle
      · rw [hmin, Nat.min_eq_left hle, Nat.max_eq_right hle]
        exact hxy
      · rw [hmin, Nat.min_eq_right hle, Nat.max_eq_left hle]
        exact hxy.symm
    · rw [if_neg hmin] at hz
      by_cases hmax : z = max x y
      · rw [if_pos hmax] at hz
        cases hz
      · rw [if_neg hmax] at hz
        exact h.link z w hz
  record := h.record
  closure := h.closure
  injective := h.injective

end Reads

/-- The invariant of a walk through a store whose sides the other store takes to be the same. -/
structure Follows (φ : Reading) (ω : Store) (w : Walk) : Prop where
  closed : w.Closed
  reads : φ.Reads w.store ω
  work : ∀ p ∈ w.work, ω.Same (φ.term p.1) (φ.term p.2)

namespace Follows

variable {w w' : Walk}

/-- The sides of a pair resolve to what is read as the same. -/
theorem resolved (h : φ.Follows ω w) {a b : Term} (hab : (a, b) ∈ w.work) :
    ω.Same (φ.term (w.store.resolve a)) (φ.term (w.store.resolve b)) :=
  ((h.reads.resolve h.closed.store.linked a).symm.trans (h.work _ hab)).trans
    (h.reads.resolve h.closed.store.linked b)

/-- A step of the walk keeps what an assignment that satisfies its work says: it satisfies what is left of it, in the store
that the step made. -/
theorem next (h : φ.Follows ω w) (hnext : Walk.Next w w') : φ.Follows ω w' := by
  have hclosed := hnext.closed h.closed
  have hstore := h.closed.store
  -- each kind of step keeps a pair of its work: merged, bound, or taken apart
  cases hnext with
  | agree => exact ⟨hclosed, h.reads, fun p hp => h.work p (List.mem_cons_of_mem _ hp)⟩
  | @merge memo a b rest σ x y ha hb hne =>
    have hab := h.resolved List.mem_cons_self
    rw [ha, hb] at hab
    have hx := hstore.resolve_var h.closed.work.head.1 ha
    have hy := hstore.resolve_var h.closed.work.head.2 hb
    exact ⟨hclosed, h.reads.merge hx hy hab, fun p hp => h.work p (List.mem_cons_of_mem _ hp)⟩
  | @assignLeft memo a b rest σ x v ha hb =>
    have hab := h.resolved List.mem_cons_self
    rw [ha, hb] at hab
    have hx := hstore.resolve_var h.closed.work.head.1 ha
    exact ⟨hclosed, h.reads.assign hx hab, fun p hp => h.work p (List.mem_cons_of_mem _ hp)⟩
  | @assignRight memo a b rest σ x v ha hb =>
    have hab := h.resolved List.mem_cons_self
    rw [ha, hb] at hab
    have hx := hstore.resolve_var h.closed.work.head.2 hb
    exact ⟨hclosed, h.reads.assign hx hab.symm, fun p hp => h.work p (List.mem_cons_of_mem _ hp)⟩
  | @expand memo a b rest σ r s ha hb hne hnot hshape =>
    have hab := h.resolved List.mem_cons_self
    rw [ha, hb] at hab
    have hr := h.reads.record r (hstore.resolve_val h.closed.work.head.1 ha)
    have hs := h.reads.record s (hstore.resolve_val h.closed.work.head.2 hb)
    obtain ⟨-, hsides⟩ := hab.record rfl rfl
    refine ⟨hclosed, h.reads, fun p hp => ?_⟩
    -- a pair of fields, or work that was there before
    rcases List.mem_append.mp hp with hp | hp
    · obtain ⟨q, hq, hq₁, hq₂⟩ := (Record.sides hr hs).1 p hp
      exact (hq₁.trans (hsides q hq)).trans hq₂.symm
    · exact h.work p (List.mem_cons_of_mem _ hp)

theorem run (h : φ.Follows ω w) (hrun : Walk.Run w w') : φ.Follows ω w' := by
  induction hrun with
  | refl => exact h
  | tail _ hnext ih => exact ih.next hnext

/-- Nothing in front of the walk clashes. -/
theorem not_clash (h : φ.Follows ω w) (hω : ω.Exact) (hstore : w.store.Exact) (hexact : ∀ p ∈ w.work, p.1.Exact)
    {a b : Term} (hab : (a, b) ∈ w.work) : ¬ w.store.Clash (w.store.resolve a) (w.store.resolve b) := by
  intro hclash
  have hsame := h.resolved hab
  obtain ⟨ha, hb⟩ := h.closed.work _ hab
  have hread := h.reads.clash (h.closed.store.resolve ha) (h.closed.store.resolve hb) hclash
  have hvalue := hstore.resolve (hexact _ hab)
  generalize w.store.resolve a = t, w.store.resolve b = u at hclash hread hsame hvalue
  -- only values clash, and what they are read as is resolved already
  have hdiffers : ω.Differs (φ.term t) (φ.term u) := by
    refine .clash ?_
    cases hclash with
    | shape => exact hread
    | atom => exact hread
  have hreading : (φ.term t).Exact := by
    cases hclash with
    | shape => exact fun _ hv => Term.val.inj hv ▸ value_exact (hvalue _ rfl)
    | atom => exact fun _ hv => Term.val.inj hv ▸ value_exact (hvalue _ rfl)
  exact hdiffers.not_same hω hreading hsame

end Follows

namespace Reads

/-- **What the other store takes to be the same can be unified**, and the reading is right afterwards. -/
theorem unify (h : φ.Reads σ ω) (hσ : σ.Closed) (hexact : σ.Exact) (hω : ω.Exact) (ha : a.In σ) (hb : b.In σ)
    (hea : a.Exact) (heb : b.Exact) (hab : ω.Same (φ.term a) (φ.term b)) :
    (σ.unify a b).1 = none ∧ φ.Reads (σ.unify a b).2 ω := by
  obtain ⟨e, hrun, hstore, hends⟩ := Store.unify_run hσ ha hb
  have hclosed := Store.closed_walk hσ ha hb
  have hstart : φ.Follows ω ⟨{}, [(a, b)], σ⟩ := ⟨hclosed, h, List.forall_mem_singleton.mpr hab⟩
  have hend := hstart.run hrun
  obtain ⟨hexact', hwork⟩ := Walk.Run.exact hrun hclosed hexact (List.forall_mem_singleton.mpr ⟨hea, heb⟩)
  refine ⟨?_, hstore ▸ hend.reads⟩
  generalize (σ.unify a b).1 = outcome at hends
  cases hends with
  | done => rfl
  | clash f hfront hclash =>
    exact absurd hclash (hend.not_clash hω hexact' (fun p hp => (hwork p hp).1) (hfront ▸ List.mem_cons_self))

/-- So can variables. -/
theorem unifyVars (h : φ.Reads σ ω) (hσ : σ.Closed) (hexact : σ.Exact) (hω : ω.Exact) {x y : Nat}
    (hx : x < σ.vars.size) (hy : y < σ.vars.size) (hxy : ω.Same (φ.var x) (φ.var y)) :
    (σ.unifyVars x y).1 = none ∧ φ.Reads (σ.unifyVars x y).2 ω := by
  have hvar : ∀ z, Term.Exact (.var z) := fun z v hv => by cases hv
  -- variables are read as the same as those that stand for them
  have hrep : ∀ z : Nat, ω.Same (φ.var z) (φ.var (σ.representative z)) := fun z =>
    h.of_resolve_eq (t := .var z) (u := .var (σ.representative z)) hσ.linked
      (Store.resolveVar_eq_of_representative_eq (Store.representative_representative hσ.linked z).symm)
  have hreps := ((hrep x).symm.trans hxy).trans (hrep y)
  have hx' : σ.representative x < σ.vars.size := Store.representative_lt_size hx
  have hy' : σ.representative y < σ.vars.size := Store.representative_lt_size hy
  rw [Store.unifyVars]
  split
  · exact ⟨rfl, h⟩
  · refine h.unify hσ hexact hω ?_ ?_ (hvar _) (hvar _) ?_
    · exact Nat.lt_of_le_of_lt (Nat.min_le_left ..) hx'
    · exact Nat.max_lt.mpr ⟨hx', hy'⟩
    · show ω.Same (φ.var (min _ _)) (φ.var (max _ _))
      rcases Nat.le_total (σ.representative x) (σ.representative y) with hle | hle
      · rw [Nat.min_eq_left hle, Nat.max_eq_right hle]
        exact hreps
      · rw [Nat.min_eq_right hle, Nat.max_eq_left hle]
        exact hreps.symm

end Reads

/-! ## Longer readings -/

/-- The readings agree on everything in the store. -/
structure Agrees (φ ψ : Reading) (σ : Store) : Prop where
  var : ∀ x : Nat, x < σ.vars.size → ψ.var x = φ.var x
  record : ∀ r : Nat, r < σ.records.size → ψ.record r = φ.record r
  closure : ∀ c : Nat, c < σ.closures.size → ψ.closure c = φ.closure c

namespace Agrees

variable {χ : Reading}

theorem refl (φ : Reading) (σ : Store) : φ.Agrees φ σ := ⟨fun _ _ => rfl, fun _ _ => rfl, fun _ _ => rfl⟩

theorem trans (h : φ.Agrees ψ σ) (h' : ψ.Agrees χ τ) (hgrows : σ.Grows τ) : φ.Agrees χ σ where
  var x hx := (h'.var x (Nat.lt_of_lt_of_le hx hgrows.vars)).trans (h.var x hx)
  record r hr := (h'.record r (hgrows.value (v := .record r) hr)).trans (h.record r hr)
  closure c hc := (h'.closure c (hgrows.value (v := .proc (.closure c)) hc)).trans (h.closure c hc)

/-- Assignments that agree on the store read its values alike. -/
theorem value (h : φ.Agrees ψ σ) (hv : v.In σ) : ψ.value v = φ.value v := by
  cases v with
  | record r => exact congrArg Value.record (h.record r hv)
  | proc p =>
    cases p with
    | closure c => exact congrArg (fun c => Value.proc (.closure c)) (h.closure c hv)
    | _ => rfl
  | _ => rfl

theorem term (h : φ.Agrees ψ σ) (ht : t.In σ) : ψ.term t = φ.term t := by
  cases t with
  | val v => exact congrArg Term.val (h.value ht)
  | var x => exact h.var x ht

/-- They read its scopes alike. -/
theorem env (h : φ.Agrees ψ σ) {env env' : Dataflow.Env} (hin : env.In σ) (henv : φ.Env ω env env') :
    ψ.Env ω env env' := by
  induction henv with
  | nil => exact .nil
  | cons hpq _ ih =>
    obtain ⟨hp, hrest⟩ := List.forall_mem_cons.mp hin
    refine .cons ⟨hpq.1, ?_⟩ (ih hrest)
    rw [h.var _ hp]
    exact hpq.2

/-- A record is read alike by two assignments that agree on the terms of the store. -/
theorem recordOf (h : φ.Agrees ψ σ) {x y : Dataflow.Record} (hin : x.In σ) (hxy : φ.Record ω x y) :
    ψ.Record ω x y := by
  refine ⟨hxy.label, ?_⟩
  obtain ⟨-, hfields⟩ := hxy
  unfold Record.In at hin
  generalize x.fields = xs, y.fields = ys at hfields hin
  induction hfields with
  | nil => exact .nil
  | cons hfg _ ih =>
    obtain ⟨hf, hrest⟩ := List.forall_mem_cons.mp hin
    refine .cons ⟨hfg.1, ?_⟩ (ih hrest)
    rw [h.term hf]
    exact hfg.2

/-- What reads a store is not changed by what the assignment says outside of it. -/
theorem reads (h : φ.Agrees ψ σ) (hσ : σ.Closed) (hreads : φ.Reads σ ω) : ψ.Reads σ ω where
  bound x v hx := by
    rw [h.var x (Array.getElem?_eq_some_iff.mp hx).1, h.value (hσ.vars x _ hx)]
    exact hreads.bound x v hx
  link x y hx := by
    obtain ⟨hxy, hy⟩ := hσ.linked x y hx
    rw [h.var x (Nat.lt_trans hxy hy), h.var y hy]
    exact hreads.link x y hx
  record r hr := by
    rw [h.record r hr]
    exact h.recordOf (hσ.record r) (hreads.record r hr)
  closure c hc := by
    rw [h.closure c hc]
    obtain ⟨hproc, henv⟩ := hreads.closure c hc
    exact ⟨hproc, h.env (hσ.closure c) henv⟩
  injective c d hc hd heq := by
    rw [h.closure c hc, h.closure d hd] at heq
    exact hreads.injective c d hc hd heq

end Agrees

/-- Reads a variable as a term. -/
def setVar (φ : Reading) (x : VarId) (t : Term) : Reading := { φ with var := Function.update φ.var x t }

/-- Reads a record as a record. -/
def setRecord (φ : Reading) (r s : RecordId) : Reading := { φ with record := Function.update φ.record r s }

/-- Reads a closure as a closure. -/
def setClosure (φ : Reading) (c d : ClosureId) : Reading := { φ with closure := Function.update φ.closure c d }

@[simp] theorem setVar_self (φ : Reading) (x : VarId) (t : Term) : (φ.setVar x t).var x = t :=
  Function.update_self ..

@[simp] theorem setRecord_self (φ : Reading) (r s : RecordId) : (φ.setRecord r s).record r = s :=
  Function.update_self ..

@[simp] theorem setClosure_self (φ : Reading) (c d : ClosureId) : (φ.setClosure c d).closure c = d :=
  Function.update_self ..

theorem agrees_setVar (φ : Reading) (σ : Store) (t : Term) : φ.Agrees (φ.setVar σ.vars.size t) σ :=
  ⟨fun _ hx => by rw [setVar]; exact Function.update_of_ne (Nat.ne_of_lt hx) t φ.var, fun _ _ => rfl, fun _ _ => rfl⟩

theorem agrees_setRecord (φ : Reading) (σ : Store) (r : RecordId) : φ.Agrees (φ.setRecord σ.records.size r) σ :=
  ⟨fun _ _ => rfl, fun _ hr => by rw [setRecord]; exact Function.update_of_ne (Nat.ne_of_lt hr) r φ.record,
    fun _ _ => rfl⟩

theorem agrees_setClosure (φ : Reading) (σ : Store) (c : ClosureId) : φ.Agrees (φ.setClosure σ.closures.size c) σ :=
  ⟨fun _ _ => rfl, fun _ _ => rfl,
    fun _ hc => by rw [setClosure]; exact Function.update_of_ne (Nat.ne_of_lt hc) c φ.closure⟩

namespace Reads

/-- Changes that no variable, no record and no closure shows are none for a reading. -/
theorem still (h : φ.Reads σ ω) (hbound : ∀ (x : Nat) v, τ.vars[x]? = some (.bound v) → σ.vars[x]? = some (.bound v))
    (hlink : ∀ (x y : Nat), τ.vars[x]? = some (.link y) → σ.vars[x]? = some (.link y)) (hrecords : τ.records = σ.records)
    (hclosures : τ.closures = σ.closures) : φ.Reads τ ω where
  bound x v hx := h.bound x v (hbound x v hx)
  link x y hx := h.link x y (hlink x y hx)
  record r hr := by
    rw [hrecords] at hr
    rw [Store.record, hrecords]
    exact h.record r hr
  closure c hc := by
    rw [hclosures] at hc
    rw [Store.closure, hclosures]
    exact h.closure c hc
  injective c d hc hd := by
    rw [hclosures] at hc hd
    exact h.injective c d hc hd

/-- Who waits for a variable is nothing that an assignment reads. -/
theorem park (h : φ.Reads σ ω) {x : Nat} (hx : σ.Unbound x) (k : Continuation) : φ.Reads (σ.park x k) ω := by
  refine h.still (fun z v hz => ?_) (fun z y hz => ?_) rfl rfl
  · rw [Store.park_getElem? hx] at hz
    split at hz
    · cases hz
    · exact hz
  · rw [Store.park_getElem? hx] at hz
    split at hz
    · cases hz
    · exact hz

/-- A variable in another state than the new one was there before. -/
private theorem getElem?_newVar_of_ne {σ : Store} {s s' : VarState} {z : Nat} (hz : (σ.newVar s).2.vars[z]? = some s')
    (hne : s' ≠ s) : σ.vars[z]? = some s' := by
  rw [Store.newVar_getElem?] at hz
  split at hz
  · exact absurd (Option.some.inj hz).symm hne
  · exact hz

/-- A new unbound variable is read as anything. -/
theorem newVar (h : φ.Reads σ ω) (hσ : σ.Closed) (t : Term) :
    (φ.setVar σ.vars.size t).Reads σ.freshVar.2 ω :=
  ((agrees_setVar φ σ t).reads hσ h).still (fun _ _ hz => getElem?_newVar_of_ne hz nofun)
    (fun _ _ hz => getElem?_newVar_of_ne hz nofun) rfl rfl

/-- A new variable with a value is read as what its value is read as. -/
theorem newBound (h : φ.Reads σ ω) (hσ : σ.Closed) (hv : v.In σ) :
    (φ.setVar σ.vars.size (.val (φ.value v))).Reads (σ.newVar (.bound v)).2 ω := by
  have hagrees := agrees_setVar φ σ (.val (φ.value v))
  have hold := hagrees.reads hσ h
  refine ⟨fun z w hz => ?_, fun z y hz => hold.link z y (getElem?_newVar_of_ne hz nofun), hold.record, hold.closure,
    hold.injective⟩
  rw [Store.newVar_getElem?] at hz
  split at hz
  · next hsize =>
    cases hz
    rw [hagrees.value hv, hsize]
    rw [setVar_self]
    exact .refl ω _
  · exact hold.bound z w hz

/-- A new record is read as a record that it can be read as. -/
theorem newRecord (h : φ.Reads σ ω) (hσ : σ.Closed) {x : Dataflow.Record} (hx : x.In σ) {r : RecordId}
    (hxr : φ.Record ω x (ω.record r)) : (φ.setRecord σ.records.size r).Reads (σ.newRecord x).2 ω := by
  have hagrees := agrees_setRecord φ σ r
  have hold := hagrees.reads hσ h
  refine ⟨hold.bound, hold.link, fun s hs => ?_, hold.closure, hold.injective⟩
  have hpush : (σ.newRecord x).2.records = σ.records.push x := rfl
  by_cases hlast : s = σ.records.size
  · have hnew : (σ.newRecord x).2.record s = x := by
      rw [Store.record, hpush, hlast]
      simp
    rw [hnew, hlast, setRecord_self]
    exact hagrees.recordOf hx hxr
  · have hlt : s < σ.records.size := by
      rw [hpush, Array.size_push] at hs
      omega
    have hgrows : σ.Grows (σ.newRecord x).2 := (Store.TableStep.newRecord hx).grows
    rw [hgrows.record_eq hlt]
    exact hold.record s hlt

/-- A new closure is read as a closure that it can be read as, if no other one is. -/
theorem newClosure (h : φ.Reads σ ω) (hσ : σ.Closed) {x : Dataflow.Closure} (hx : x.In σ) {c : ClosureId}
    (hxc : φ.Closure ω x (ω.closure c)) (hnew : ∀ d : Nat, d < σ.closures.size → φ.closure d ≠ c) :
    (φ.setClosure σ.closures.size c).Reads (σ.newClosure x).2 ω := by
  have hagrees := agrees_setClosure φ σ c
  have hold := hagrees.reads hσ h
  have hpush : (σ.newClosure x).2.closures = σ.closures.push x := rfl
  -- the closures of the new store are the new one and the old ones
  have hcases : ∀ d : Nat, d < (σ.newClosure x).2.closures.size → d = σ.closures.size ∨ d < σ.closures.size := by
    intro d hd
    rw [hpush, Array.size_push] at hd
    omega
  refine ⟨hold.bound, hold.link, hold.record, fun d hd => ?_, fun d e hd he heq => ?_⟩
  · rcases hcases d hd with rfl | hlt
    · have hlast : (σ.newClosure x).2.closure σ.closures.size = x := by
        rw [Store.closure, hpush]
        simp
      rw [hlast, setClosure_self]
      exact ⟨hxc.proc, hagrees.env hx hxc.env⟩
    · have hgrows : σ.Grows (σ.newClosure x).2 := (Store.TableStep.newClosure hx).grows
      rw [hgrows.closure_eq hlt]
      exact hold.closure d hlt
  · rcases hcases d hd with rfl | hd'
    -- the new closure and an old one are read apart, since nothing is read as the new one
    · rcases hcases e he with rfl | he'
      · rfl
      · rw [setClosure_self, hagrees.closure e he'] at heq
        exact absurd heq.symm (hnew e he')
    · rcases hcases e he with rfl | he'
      · rw [setClosure_self, hagrees.closure d hd'] at heq
        exact absurd heq (hnew d hd')
      · exact hold.injective d e hd' he' heq

end Reads

/-! ## Computations -/

/-- A frame is read as one that runs the same instruction. -/
inductive Frame (φ : Reading) (ω : Store) : Dataflow.Frame → Dataflow.Frame → Prop where
  | run (instr : Instr) {env env' : Dataflow.Env} (henv : φ.Env ω env env') :
      Frame φ ω (.run instr env) (.run instr env')

/-- A computation is read as one of the same instructions. -/
def Stack (φ : Reading) (ω : Store) (s s' : Dataflow.Stack) : Prop := List.Forall₂ (φ.Frame ω) s s'

/-- A computation is read alike by two assignments that agree on the terms of the store. -/
theorem Agrees.stack (h : φ.Agrees ψ σ) {s s' : Dataflow.Stack} (hin : s.In σ) (hs : φ.Stack ω s s') :
    ψ.Stack ω s s' := by
  induction hs with
  | nil => exact .nil
  | cons hf _ ih =>
    obtain ⟨hfirst, hrest⟩ := List.forall_mem_cons.mp hin
    refine .cons ?_ (ih hrest)
    cases hf with
    | run instr henv => exact .run instr (h.env hfirst henv)

end Reading

end Dataflow
