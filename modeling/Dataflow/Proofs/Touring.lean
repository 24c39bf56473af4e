/-
The plain depth-first walk that completing amounts to.

Completing rebuilds records on its way, remembers what stands for whatever it has entered, and bounds its nesting. What
it answers does not depend on any of this: it is the answer of a walk over a list of terms that are still to be visited
and a set of sites that have been entered. `Tour` is that walk. A site is a record or a closure; a closure is entered
through any value that is made from it, so one site can be met through values of several kinds.

The two walks are compared step by step. `Follows` says that a step of completing does what the plain walk does on some
piece of work: if the step succeeds, then whatever the plain walk answers to the rest after the step, it answers to the
piece of work followed by the rest; if the step stops, then the plain walk stops at the same obstacle, whatever comes
after. Pieces of work are put together as steps are, so each function of the walk has one such lemma.

The same pass says what the results are. A result `Stands` for the value that was completed: it is the value itself, or
another value that is made from the same closure, or a record that has been rebuilt from such results.
-/
import Dataflow.Proofs.CompletionWalk
import Dataflow.Proofs.MostGeneral
import Mathlib.Data.Set.Insert

set_option autoImplicit false

namespace Dataflow

/-! ## Sites -/

/-- What a walk enters at most once. -/
inductive Site where
  | record (r : RecordId)
  | closure (c : ClosureId)

/-- What the value is if it can never be part of a complete value. -/
def Value.incomplete? : Value → Option Incomplete
  | .obj (.cell _) => some .cell
  | .proc (.ofCell _ _) => some .cellProc
  | .proc (.iter _) => some .iterator
  | _ => none

/-- A value that is not forbidden does not make a term incomplete by itself. -/
theorem Value.incomplete?_eq_none (v : Value) (h : ¬ v.Forbidden) : v.incomplete? = none := by
  cases v with
  | obj o =>
    cases o with
    | cell _ => exact absurd trivial h
    | actor _ => rfl
  | proc p =>
    cases p with
    | ofCell _ _ | iter _ => exact absurd trivial h
    | closure | actorMaker | native | ofActor => rfl
  | record | config | lit | num | failed => rfl

/-- The site that is entered through a value. -/
def Value.site? (σ : Store) : Value → Option Site
  | .record r => some (.record r)
  | .proc (.closure c) | .proc (.actorMaker c) => some (.closure c)
  | .config k => some (.closure (σ.config k).handlers)
  | _ => none

namespace Store

/-- Why the term cannot be part of a complete value. -/
def obstacle? (σ : Store) (t : Term) : Option Interrupt :=
  match σ.resolve t with
  | .var x => some (.blocked x)
  | .val v => v.incomplete?.map fun what => .fault (.cannotComplete what)

/-- The site that is entered through a term. -/
def site? (σ : Store) (t : Term) : Option Site :=
  match σ.resolve t with
  | .var _ => none
  | .val v => v.site? σ

/-- What is in a site: the fields of a record in the order of features, or the variables that a closure captured in the
order of its captures. -/
def parts (σ : Store) : Site → List Term
  | .record r => (σ.record r).fields.map Field.value
  | .closure c => (σ.closure c).env.map fun p => .var p.2

/-- The second term can be reached from the first one through sites. -/
def Yields (σ : Store) : Term → Term → Prop :=
  Relation.ReflTransGen fun t u => ∃ p, σ.site? t = some p ∧ u ∈ σ.parts p

/-- The value can be reached from the term. -/
def Met (σ : Store) (t : Term) (v : Value) : Prop := ∃ u, σ.Yields t u ∧ σ.resolve u = .val v

/-- **The plain walk** over the terms that are still to be visited: it stops at the first obstacle, and it goes through
the parts of a site when it meets the site for the first time. -/
inductive Tour (σ : Store) : Set Site → List Term → Option Interrupt → Prop where
  | done (entered : Set Site) : Tour σ entered [] none
  | obstacle {entered : Set Site} {t : Term} {rest : List Term} {e : Interrupt} (he : σ.obstacle? t = some e) :
      Tour σ entered (t :: rest) (some e)
  | pass {entered : Set Site} {t : Term} {rest : List Term} {answer : Option Interrupt} (he : σ.obstacle? t = none)
      (hp : σ.site? t = none) (h : Tour σ entered rest answer) : Tour σ entered (t :: rest) answer
  | again {entered : Set Site} {t : Term} {rest : List Term} {answer : Option Interrupt} {p : Site}
      (hp : σ.site? t = some p) (hmem : p ∈ entered) (h : Tour σ entered rest answer) :
      Tour σ entered (t :: rest) answer
  | enter {entered : Set Site} {t : Term} {rest : List Term} {answer : Option Interrupt} {p : Site}
      (hp : σ.site? t = some p) (hnot : p ∉ entered) (h : Tour σ (insert p entered) (σ.parts p ++ rest) answer) :
      Tour σ entered (t :: rest) answer

variable {σ τ υ : Store} {t u : Term} {v w : Value} {p : Site} {x : VarId}

/-! ### What a term is -/

theorem obstacle?_of_var (h : σ.resolve t = .var x) : σ.obstacle? t = some (.blocked x) := by
  rw [obstacle?, h]

theorem obstacle?_of_val (h : σ.resolve t = .val v) :
    σ.obstacle? t = v.incomplete?.map fun what => .fault (.cannotComplete what) := by
  rw [obstacle?, h]

theorem site?_of_val (h : σ.resolve t = .val v) : σ.site? t = v.site? σ := by
  rw [site?, h]

/-- Only a term with a value can be entered. -/
theorem site?_eq_some (h : σ.site? t = some p) : ∃ v, σ.resolve t = .val v ∧ v.site? σ = some p := by
  rw [site?] at h
  split at h
  · cases h
  · next v hv => exact ⟨v, hv, h⟩

/-- What can be entered is not an obstacle. -/
theorem obstacle?_of_site? (h : σ.site? t = some p) : σ.obstacle? t = none := by
  obtain ⟨v, hv, hp⟩ := site?_eq_some h
  rw [obstacle?_of_val hv]
  cases v with
  | lit | num | failed | obj => cases hp
  | record | config => rfl
  | proc q =>
    cases q with
    | closure | actorMaker => rfl
    | native | ofCell | ofActor | iter => cases hp

theorem Yields.part (hp : σ.site? t = some p) (hu : u ∈ σ.parts p) : σ.Yields t u := .single ⟨p, hp, hu⟩

/-- Only a variable without a value can block. -/
theorem obstacle?_eq_blocked (h : σ.obstacle? t = some (.blocked x)) : σ.resolve t = .var x := by
  rw [obstacle?] at h
  split at h
  · next y hy =>
    cases h
    exact hy
  · obtain ⟨what, -, heq⟩ := Option.map_eq_some_iff.mp h
    cases heq

/-- A whole term has a value, and that is whole. -/
theorem Whole.resolve (h : σ.Whole t) : ∃ v, σ.resolve t = .val v ∧ σ.Whole (.val v) := by
  cases t with
  | val v => exact ⟨v, rfl, h⟩
  | var x => exact h.resolveVar

theorem Whole.obstacle? (h : σ.Whole t) : σ.obstacle? t = none := by
  obtain ⟨v, hv, hwhole⟩ := h.resolve
  have hfit : ¬ v.Forbidden := hwhole.not_unfit
  rw [obstacle?_of_val hv, v.incomplete?_eq_none hfit, Option.map_none]

/-- What is in a site that is entered through a whole term is whole. A configuration and an actor constructor are not sites of
their own: the walk goes straight to the closure behind them. -/
theorem Whole.part (h : σ.Whole t) (hp : σ.site? t = some p) (hu : u ∈ σ.parts p) : σ.Whole u := by
  obtain ⟨v, hv, hwhole⟩ := h.resolve
  rw [site?_of_val hv] at hp
  have hclosure : ∀ {c}, Site.closure c = p → σ.Whole (.val (.proc (.closure c))) → σ.Whole u := by
    rintro c rfl hc
    obtain ⟨b, hb, rfl⟩ := List.mem_map.mp hu
    exact hc.refers (.captured hb)
  cases v with
  | record r =>
    obtain rfl := Option.some.inj hp
    obtain ⟨f, hf, rfl⟩ := List.mem_map.mp hu
    exact hwhole.refers (.field hf)
  | config k => exact hclosure (Option.some.inj hp) (hwhole.refers (.handlers k))
  | proc q =>
    cases q with
    | closure c => exact hclosure (Option.some.inj hp) hwhole
    | actorMaker c => exact hclosure (Option.some.inj hp) (hwhole.refers (.maker c))
    | native | ofCell | ofActor | iter => cases hp
  | lit | num | failed | obj => cases hp

/-- All that a whole term yields is whole. -/
theorem Whole.yields (h : σ.Whole t) (hu : σ.Yields t u) : σ.Whole u := by
  induction hu with
  | refl => exact h
  | tail _ hstep ih =>
    obtain ⟨p, hp, hmem⟩ := hstep
    exact ih.part hp hmem

/-- What a term yields is in the store. -/
theorem Yields.isIn (hσ : σ.Closed) (ht : t.In σ) (h : σ.Yields t u) : u.In σ := by
  induction h with
  | refl => exact ht
  | tail _ hstep =>
    obtain ⟨p, -, hmem⟩ := hstep
    cases p with
    | record r =>
      obtain ⟨f, hf, rfl⟩ := List.mem_map.mp hmem
      exact hσ.record r f hf
    | closure c =>
      obtain ⟨q, hq, rfl⟩ := List.mem_map.mp hmem
      exact hσ.closure c q hq

theorem Yields.trans {s : Term} (h : σ.Yields s t) (h' : σ.Yields t u) : σ.Yields s u := Relation.ReflTransGen.trans h h'

/-! ### What the plain walk answers -/

namespace Tour

variable {entered : Set Site} {work : List Term} {answer answer' : Option Interrupt} {e : Interrupt}

/-- The plain walk has one answer. -/
theorem unique (h : σ.Tour entered work answer) (h' : σ.Tour entered work answer') : answer = answer' := by
  -- along the tour: at each place only one of its rules applies
  induction h generalizing answer' with
  | done => cases h' with
    | done => rfl
  | obstacle he =>
    cases h' with
    | obstacle he' => exact he.symm.trans he'
    | pass he' => cases he.symm.trans he'
    | again hp | enter hp => cases he.symm.trans (obstacle?_of_site? hp)
  | pass he hp _ ih =>
    cases h' with
    | obstacle he' => cases he.symm.trans he'
    | pass _ _ h' => exact ih h'
    | again hp' | enter hp' => cases hp.symm.trans hp'
  | again hp hmem _ ih =>
    cases h' with
    | obstacle he' => cases (obstacle?_of_site? hp).symm.trans he'
    | pass _ hp' => cases hp.symm.trans hp'
    | again _ _ h' => exact ih h'
    | enter hp' hnot => cases hp.symm.trans hp'; exact absurd hmem hnot
  | enter hp hnot _ ih =>
    cases h' with
    | obstacle he' => cases (obstacle?_of_site? hp).symm.trans he'
    | pass _ hp' => cases hp.symm.trans hp'
    | again hp' hmem => cases hp.symm.trans hp'; exact absurd hmem hnot
    | enter hp' _ h' => cases hp.symm.trans hp'; exact ih h'

/-- What the plain walk stops at can be reached from what it was to visit. -/
theorem yields (h : σ.Tour entered work (some e)) : ∃ t ∈ work, ∃ u, σ.Yields t u ∧ σ.obstacle? u = some e := by
  generalize hanswer : some e = answer at h
  induction h with
  | done => cases hanswer
  | @obstacle _ t rest _ he => exact ⟨t, List.mem_cons_self, t, .refl, hanswer ▸ he⟩
  | pass _ _ _ ih | again _ _ _ ih =>
    obtain ⟨t, ht, hu⟩ := ih hanswer
    exact ⟨t, List.mem_cons_of_mem _ ht, hu⟩
  | @enter _ t rest _ p hp _ _ ih =>
    obtain ⟨s, hs, u, hu, he⟩ := ih hanswer
    rcases List.mem_append.mp hs with hs | hs
    · exact ⟨t, List.mem_cons_self, u, (Yields.part hp hs).trans hu, he⟩
    · exact ⟨s, List.mem_cons_of_mem _ hs, u, hu, he⟩

end Tour

/-! ## What stands for a value -/

/-- In `τ`, which came from `σ` when `root` was completed, `w` stands for the value `v` of `σ`. -/
inductive Stands (σ τ : Store) (root : Term) : Value → Value → Prop where
  | same {v : Value} (hv : v.In σ) : Stands σ τ root v v
  | shared {v w : Value} {c : ClosureId} (hv : v.site? σ = some (.closure c)) (hw : w.site? σ = some (.closure c))
      (hvmet : σ.Met root v) (hwmet : σ.Met root w) : Stands σ τ root v w
  | rebuilt {r s : RecordId} (hs : s < τ.records.size) (hshape : (σ.record r).sameShape (τ.record s) = true)
      (hsources : ∀ q ∈ (σ.record r).sides (τ.record s), ∃ v w, σ.resolve q.1 = .val v ∧ q.2 = .val w)
      (h : ∀ q ∈ (σ.record r).sides (τ.record s), ∀ v w, σ.resolve q.1 = .val v → q.2 = .val w →
        Stands σ τ root v w) : Stands σ τ root (.record r) (.record s)

/-- What stands for a value stands for it while more records are added. -/
theorem Stands.mono {root : Term} (h : Stands σ τ root v w) (hrebuilds : τ.Rebuilds υ) : Stands σ υ root v w := by
  induction h with
  | same hv => exact .same hv
  | shared hv hw hvmet hwmet => exact .shared hv hw hvmet hwmet
  | @rebuilt r s hs hshape hsources _ ih =>
    have hsame := hrebuilds.grows.record_eq hs
    have hlt : s < υ.records.size := hrebuilds.grows.value (v := .record s) hs
    rw [← hsame] at hshape hsources ih
    exact .rebuilt hlt hshape hsources ih

end Store

/-! ## What completing remembers -/

namespace Completed

variable {σ τ υ : Store} {done : Completed} {root : Term} {v : Value}

/-- The sites that have been entered. -/
def sites (done : Completed) : Set Site
  | .record r => r ∈ done.records
  | .closure c => c ∈ done.closures

/-- What is remembered of a record stands for it, and what is remembered of a closure is made from it. -/
structure Recalls (σ τ : Store) (root : Term) (done : Completed) : Prop where
  records : ∀ (r : RecordId) v, done.records[r]? = some v → σ.Stands τ root (.record r) v
  closures : ∀ (c : ClosureId) v, done.closures[c]? = some v → v.site? σ = some (.closure c) ∧ σ.Met root v

theorem recalls_empty (σ τ : Store) (root : Term) : Recalls σ τ root {} := ⟨by simp, by simp⟩

theorem sites_empty : sites {} = ∅ := by
  ext p
  cases p with
  | record r => exact iff_of_false Std.HashMap.not_mem_empty (Set.notMem_empty _)
  | closure c => exact iff_of_false Std.HashMap.not_mem_empty (Set.notMem_empty _)

theorem Recalls.mono (h : done.Recalls σ τ root) (hrebuilds : τ.Rebuilds υ) : done.Recalls σ υ root :=
  ⟨fun r v hv => (h.records r v hv).mono hrebuilds, h.closures⟩

/-- What is remembered of a record must stand for it. -/
theorem Recalls.putRecord (h : done.Recalls σ τ root) {r : RecordId} (hv : σ.Stands τ root (.record r) v) :
    (done.putRecord r v).Recalls σ τ root := by
  refine ⟨fun s w hw => ?_, h.closures⟩
  rw [Completed.putRecord, Std.HashMap.getElem?_insert] at hw
  split at hw
  · next heq =>
    obtain rfl := eq_of_beq heq
    exact Option.some.inj hw ▸ hv
  · exact h.records s w hw

/-- What is remembered of a closure must be made from it and have been met. -/
theorem Recalls.putClosure (h : done.Recalls σ τ root) {c : ClosureId} (hsite : v.site? σ = some (.closure c))
    (hmet : σ.Met root v) : (done.putClosure c v).Recalls σ τ root := by
  refine ⟨h.records, fun d w hw => ?_⟩
  rw [Completed.putClosure, Std.HashMap.getElem?_insert] at hw
  split at hw
  · next heq =>
    obtain rfl := eq_of_beq heq
    exact Option.some.inj hw ▸ ⟨hsite, hmet⟩
  · exact h.closures d w hw

/-- Remembering a value for a record enters the record. -/
theorem sites_putRecord (done : Completed) (r : RecordId) (v : Value) :
    (done.putRecord r v).sites = insert (.record r) done.sites := by
  ext p
  cases p with
  | record s =>
    refine mem_putRecord.trans (Iff.trans ?_ Set.mem_insert_iff.symm)
    rw [Site.record.injEq]
    rfl
  | closure c => exact ⟨.inr, fun h => h.resolve_left nofun⟩

theorem sites_putClosure (done : Completed) (c : ClosureId) (v : Value) :
    (done.putClosure c v).sites = insert (.closure c) done.sites := by
  ext p
  cases p with
  | record r => exact ⟨.inr, fun h => h.resolve_left nofun⟩
  | closure d =>
    refine mem_putClosure.trans (Iff.trans ?_ Set.mem_insert_iff.symm)
    rw [Site.closure.injEq]
    rfl

end Completed

/-! ## The two walks side by side -/

namespace Completer

open Completed Store

variable {α β : Type} {σ τ : Store} {root : Term} {done : Completed} {entered : Set Site} {work work' : List Term}
  {depth : Nat} {complete : Term → Completer Value}

/-- A step of completing `root` does to the sites that have been entered what the plain walk does on the piece of work,
and stops where it stops. Its result satisfies `Q`. -/
def Follows (σ : Store) (root : Term) (m : Completer α) (τ : Store) (done : Completed) (entered : Set Site)
    (work : List Term) (Q : α → Store → Completed → Prop) : Prop :=
  match m done τ with
  | .ok (a, done') υ =>
    τ.Rebuilds υ ∧ done.Within done' ∧ done'.Recalls σ υ root ∧
      (∀ rest answer, σ.Tour done'.sites rest answer → σ.Tour entered (work ++ rest) answer) ∧ Q a υ done'
  | .error e _ => ∀ rest, σ.Tour entered (work ++ rest) (some e)

/-- Steps follow one another as pieces of work do. -/
theorem Follows.bind {m : Completer α} {f : α → Completer β} {Q : α → Store → Completed → Prop}
    {R : β → Store → Completed → Prop} (h : m.Follows σ root τ done entered work Q)
    (hf : ∀ a υ done', τ.Rebuilds υ → done.Within done' → done'.Recalls σ υ root → Q a υ done' →
      (f a).Follows σ root υ done' done'.sites work' R) :
    (m >>= f).Follows σ root τ done entered (work ++ work') R := by
  -- both walks are run, one after the other, on what the first one left
  rw [Follows] at h
  rw [Follows, show (m >>= f) done = (m done >>= fun p => f p.1 p.2) from rfl, bind_apply]
  simp only [List.append_assoc]
  generalize m done τ = result at h
  cases result with
  | ok p υ =>
    obtain ⟨hrebuilds, hsub, hrecalls, htour, hQ⟩ := h
    have hnext := hf p.1 υ p.2 hrebuilds hsub hrecalls hQ
    simp only [Follows] at hnext ⊢
    generalize f p.1 p.2 υ = last at hnext
    cases last with
    | ok q φ =>
      obtain ⟨hrebuilds', hsub', hrecalls', htour', hR⟩ := hnext
      exact ⟨hrebuilds.trans hrebuilds', hsub.trans hsub', hrecalls',
        fun rest answer h => htour _ _ (htour' rest answer h), hR⟩
    | error e φ => exact fun rest => htour _ _ (hnext rest)
  | error e υ => exact fun rest => h _

theorem Follows.imp {m : Completer α} {Q R : α → Store → Completed → Prop}
    (h : m.Follows σ root τ done entered work Q)
    (hQ : ∀ a υ done', τ.Rebuilds υ → Q a υ done' → R a υ done') : m.Follows σ root τ done entered work R := by
  rw [Follows] at h ⊢
  generalize m done τ = result at h
  cases result with
  | ok p υ => exact ⟨h.1, h.2.1, h.2.2.1, h.2.2.2.1, hQ _ _ _ h.1 h.2.2.2.2⟩
  | error e υ => exact h

/-- A step that enters a site goes through its parts. -/
theorem Follows.enter {m : Completer α} {Q : α → Store → Completed → Prop} {t : Term} {p : Site}
    (hp : σ.site? t = some p) (hnot : p ∉ entered)
    (h : m.Follows σ root τ done (insert p entered) (σ.parts p) Q) : m.Follows σ root τ done entered [t] Q := by
  rw [Follows] at h ⊢
  generalize m done τ = result at h
  cases result with
  | ok q υ =>
    obtain ⟨hrebuilds, hsub, hrecalls, htour, hQ⟩ := h
    exact ⟨hrebuilds, hsub, hrecalls, fun rest answer h => .enter hp hnot (htour rest answer h), hQ⟩
  | error e υ => exact fun rest => .enter hp hnot (h rest)

theorem follows_pure {Q : α → Store → Completed → Prop} {a : α} (hrecalls : done.Recalls σ τ root)
    (hwork : ∀ rest answer, σ.Tour done.sites rest answer → σ.Tour entered (work ++ rest) answer) (h : Q a τ done) :
    (pure a : Completer α).Follows σ root τ done entered work Q := ⟨.refl τ, .refl done, hrecalls, hwork, h⟩

/-- Looking at the store or at what is remembered is no work. -/
theorem follows_read {f : Store → α} {g : α → Completer β} {Q : β → Store → Completed → Prop}
    (h : (g (f τ)).Follows σ root τ done entered work Q) :
    ((monadLift (Action.read f) : Completer α) >>= g).Follows σ root τ done entered work Q := h

theorem follows_get {g : Completed → Completer β} {Q : β → Store → Completed → Prop}
    (h : (g done).Follows σ root τ done entered work Q) :
    ((get : Completer Completed) >>= g).Follows σ root τ done entered work Q := h

/-- Neither is remembering. -/
theorem follows_modify {f : Completed → Completed} (hsub : done.Within (f done)) (hrecalls : (f done).Recalls σ τ root)
    (hentered : (f done).sites = entered) :
    (modify f : Completer Unit).Follows σ root τ done entered [] fun _ υ done' => υ = τ ∧ done' = f done :=
  ⟨.refl τ, hsub, hrecalls, fun _ _ h => hentered ▸ h, rfl, rfl⟩

theorem follows_newRecord (r : Record) (hrecalls : done.Recalls σ τ root) :
    (monadLift (Action.take fun σ => σ.newRecord r) : Completer RecordId).Follows σ root τ done done.sites []
      fun s υ done' => s < υ.records.size ∧ υ.record s = r ∧ done' = done := by
  have hrebuilds := Store.Rebuilds.newRecord τ r
  refine ⟨hrebuilds, .refl done, hrecalls.mono hrebuilds, fun _ _ h => h, ?_, ?_, rfl⟩
  · simp
  · simp [Store.record]

/-- Both walks stop at an obstacle. -/
theorem follows_throw {Q : α → Store → Completed → Prop} {t : Term} {e : Interrupt} (he : σ.obstacle? t = some e) :
    (monadLift (throw e : Action α) : Completer α).Follows σ root τ done entered [t] Q := fun _ => .obstacle he

/-- Completing a term that `root` yields, with fewer than `depth` things left to enter, is visiting it, and the result
stands for the value of the term. -/
def Tracks (σ : Store) (root : Term) (depth : Nat) (complete : Term → Completer Value) : Prop :=
  ∀ {τ : Store} {done : Completed} {t : Term}, σ.Rebuilds τ → done.Recalls σ τ root → done.unentered σ < depth →
    t.In σ → σ.Yields root t → (complete t).Follows σ root τ done done.sites [t] fun w υ _ =>
      ∃ v, σ.resolve t = .val v ∧ σ.Stands υ root v w

/-- What stands for the fields of a record: fields with the same features whose values stand for the values of the
fields. -/
def FieldsStand (σ τ : Store) (root : Term) : List Field → List Field → Prop :=
  List.Forall₂ fun f g => f.feature = g.feature ∧
    ∃ v w, σ.resolve f.value = .val v ∧ g.value = .val w ∧ σ.Stands τ root v w

theorem FieldsStand.mono {υ : Store} {fs gs : List Field} (h : FieldsStand σ τ root fs gs) (hrebuilds : τ.Rebuilds υ) :
    FieldsStand σ υ root fs gs :=
  h.imp fun _ _ ⟨hfeature, v, w, hv, hw, hstands⟩ => ⟨hfeature, v, w, hv, hw, hstands.mono hrebuilds⟩

/-- A record with fields that stand for those of another one stands for it. -/
theorem FieldsStand.stands {r s : RecordId} (hs : s < τ.records.size) (hlabel : (σ.record r).label = (τ.record s).label)
    (h : FieldsStand σ τ root (σ.record r).fields (τ.record s).fields) :
    σ.Stands τ root (.record r) (.record s) := by
  -- the copy has the label and the features of its original
  have hfeatures : (σ.record r).fields.map Field.feature = (τ.record s).fields.map Field.feature := by
    rw [← List.forall₂_eq_eq_eq, List.forall₂_map_left_iff, List.forall₂_map_right_iff]
    exact h.imp fun _ _ hfg => hfg.1
  have hsides : ∀ q ∈ (σ.record r).sides (τ.record s),
      ∃ v w, σ.resolve q.1 = .val v ∧ q.2 = .val w ∧ σ.Stands τ root v w := by
    intro q hq
    obtain ⟨i, f, g, hf, hg, rfl⟩ := Record.mem_sides.mp hq
    obtain ⟨hi, rfl⟩ := List.getElem?_eq_some_iff.mp hf
    obtain ⟨hi', rfl⟩ := List.getElem?_eq_some_iff.mp hg
    exact (h.get hi hi').2
  refine .rebuilt hs (Record.sameShape_iff.mpr ⟨hlabel, hfeatures⟩) ?_ ?_
  -- each side is a pair of a field and what stands for it
  · intro q hq
    obtain ⟨v, w, hv, hw, -⟩ := hsides q hq
    exact ⟨v, w, hv, hw⟩
  · intro q hq v w hv hw
    obtain ⟨v', w', hv', hw', hstands⟩ := hsides q hq
    obtain rfl := Term.val.inj (hv'.symm.trans hv)
    obtain rfl := Term.val.inj (hw'.symm.trans hw)
    exact hstands

/-- The fields of a record are visited one after another. -/
theorem fields_follows (hcomplete : Tracks σ root depth complete) {fs : List Field} (hστ : σ.Rebuilds τ)
    (hrecalls : done.Recalls σ τ root) (hroom : done.unentered σ < depth) (hfs : ∀ f ∈ fs, f.value.In σ)
    (hyields : ∀ f ∈ fs, σ.Yields root f.value) :
    (fields complete fs).Follows σ root τ done done.sites (fs.map Field.value) fun gs υ _ =>
      FieldsStand σ υ root fs gs := by
  induction fs generalizing τ done with
  | nil => exact follows_pure hrecalls (fun _ _ h => h) .nil
  | cons f rest ih =>
    have hf := List.forall_mem_cons.mp hfs
    have hl := List.forall_mem_cons.mp hyields
    refine (hcomplete hστ hrecalls hroom hf.1 hl.1).bind fun w υ done₁ h₁ hsub₁ hrecalls₁ ⟨v, hv, hw⟩ => ?_
    have hroom₁ := Nat.lt_of_le_of_lt (hsub₁.unentered (σ := σ)) hroom
    have hrest := ih (hστ.trans h₁) hrecalls₁ hroom₁ hf.2 hl.2
    rw [← List.append_nil (List.map Field.value rest)]
    refine hrest.bind fun gs φ done₂ h₂ _ hrecalls₂ hgs => follows_pure hrecalls₂ (fun _ _ h => h) ?_
    exact .cons ⟨rfl, v, w, hv, rfl, hw.mono h₂⟩ hgs

/-- So are the variables that a closure captured. -/
theorem captures_follows (hcomplete : Tracks σ root depth complete) {env : Env} (hστ : σ.Rebuilds τ)
    (hrecalls : done.Recalls σ τ root) (hroom : done.unentered σ < depth) (henv : env.In σ)
    (hyields : ∀ p ∈ env, σ.Yields root (.var p.2)) :
    (captures complete env).Follows σ root τ done done.sites (env.map fun p => .var p.2) fun _ _ _ => True := by
  induction env generalizing τ done with
  | nil => exact follows_pure hrecalls (fun _ _ h => h) trivial
  | cons p rest ih =>
    have hp := List.forall_mem_cons.mp henv
    have hl := List.forall_mem_cons.mp hyields
    refine (hcomplete hστ hrecalls hroom (t := .var p.2) hp.1 hl.1).bind fun w υ done₁ h₁ hsub₁ hrecalls₁ _ => ?_
    have hroom₁ := Nat.lt_of_le_of_lt (hsub₁.unentered (σ := σ)) hroom
    exact ih (hστ.trans h₁) hrecalls₁ hroom₁ hp.2 hl.2

/-- A record that has not been entered is entered, and a record is built that stands for it. -/
theorem record_follows (hcomplete : Tracks σ root depth complete) (hσ : σ.Closed) (hστ : σ.Rebuilds τ)
    (hrecalls : done.Recalls σ τ root) (hroom : done.unentered σ < depth + 1) {r : RecordId}
    (hr : r < σ.records.size) (hnot : r ∉ done.records) {t : Term} (htr : σ.resolve t = .val (.record r))
    (hyields : σ.Yields root t) :
    (record complete r).Follows σ root τ done done.sites [t] fun w υ _ => σ.Stands υ root (.record r) w := by
  have hsite : σ.site? t = some (.record r) := site?_of_val htr
  have hsub₁ := done.within_putRecord r (.record r)
  have hrecalls₁ : (done.putRecord r (.record r)).Recalls σ τ root := hrecalls.putRecord (.same hr)
  have hsites₁ := done.sites_putRecord r (.record r)
  refine .enter hsite hnot ?_
  refine (follows_modify hsub₁ hrecalls₁ hsites₁).bind fun _ υ done₁ _ _ _ h => follows_read ?_
  obtain ⟨rfl, rfl⟩ := h
  have hroom₁ : (done.putRecord r (.record r)).unentered σ < depth :=
    Nat.lt_of_lt_of_le (unentered_putRecord hr hnot) (Nat.le_of_lt_succ hroom)
  rw [hστ.grows.record_eq hr]
  have hparts : ∀ f ∈ (σ.record r).fields, σ.Yields root f.value := fun f hf =>
    hyields.trans (.part hsite (List.mem_map_of_mem hf))
  have hfields := fields_follows hcomplete hστ hrecalls₁ hroom₁ (hσ.record r) hparts
  rw [← List.append_nil (List.map Field.value _)]
  refine hfields.bind fun gs φ done₂ _ hsub₂ hrecalls₂ hgs => ?_
  refine (follows_newRecord _ hrecalls₂).bind fun s χ done₃ hφχ _ hrecalls₃ hnew => ?_
  obtain ⟨hs, hrecord, rfl⟩ := hnew
  -- the record that has been built takes the place of the record that stood for itself
  have hstands : σ.Stands χ root (.record r) (.record s) := by
    refine FieldsStand.stands hs ?_ ?_
    · rw [hrecord]
    · rw [hrecord]
      exact hgs.mono hφχ
  have hentered : r ∈ done₃.records := hsub₂.records r (mem_putRecord.mpr (.inl rfl))
  have hsites₃ : (done₃.putRecord r (.record s)).sites = done₃.sites := by
    rw [sites_putRecord, Set.insert_eq_of_mem]
    exact hentered
  refine (follows_modify (done₃.within_putRecord r _) (hrecalls₃.putRecord hstands) hsites₃).bind
    fun _ _ _ _ _ hrecalls₄ h => ?_
  obtain ⟨rfl, rfl⟩ := h
  exact follows_pure hrecalls₄ (fun _ _ h => h) hstands

/-- A closure is entered through the first value that the walk meets of those that are made from it. -/
theorem closure_follows (hcomplete : Tracks σ root depth complete) (hσ : σ.Closed) (hστ : σ.Rebuilds τ)
    (hrecalls : done.Recalls σ τ root) (hroom : done.unentered σ < depth + 1) {c : ClosureId}
    (hc : c < σ.closures.size) {v : Value} (hv : v.In σ) (hof : v.site? σ = some (.closure c)) {t : Term}
    (htr : σ.resolve t = .val v) (hyields : σ.Yields root t) :
    (closure complete v c).Follows σ root τ done done.sites [t] fun w υ _ => σ.Stands υ root v w := by
  have hsite : σ.site? t = some (.closure c) := (site?_of_val htr).trans hof
  have hmet : σ.Met root v := ⟨t, hyields, htr⟩
  refine follows_get ?_
  -- the closure has been met, or it is entered and what it captured is toured
  split
  · next w hw =>
    have hmem : c ∈ done.closures := by
      rw [Std.HashMap.mem_iff_isSome_getElem?, hw]
      rfl
    obtain ⟨hwsite, hwmet⟩ := hrecalls.closures c w hw
    exact follows_pure hrecalls (fun rest answer h => .again hsite hmem h) (.shared hof hwsite hmet hwmet)
  · next hnone =>
    have hnot : c ∉ done.closures := by
      rw [Std.HashMap.mem_iff_isSome_getElem?, hnone]
      nofun
    -- the closure is put down before what it captured is looked at
    refine .enter hsite hnot ?_
    refine (follows_modify (done.within_putClosure c v) (hrecalls.putClosure hof hmet)
      (done.sites_putClosure c v)).bind fun _ υ done₁ _ _ hrecalls₁ h => follows_read ?_
    obtain ⟨rfl, rfl⟩ := h
    have hroom₁ : (done.putClosure c v).unentered σ < depth :=
      Nat.lt_of_lt_of_le (unentered_putClosure hc hnot) (Nat.le_of_lt_succ hroom)
    rw [hστ.closure_eq c]
    have hparts : ∀ p ∈ (σ.closure c).env, σ.Yields root (.var p.2) := fun p hp =>
      hyields.trans (.part hsite (List.mem_map_of_mem hp))
    rw [← List.append_nil (List.map _ _)]
    refine (captures_follows hcomplete hστ hrecalls₁ hroom₁ (hσ.closure c) hparts).bind
      fun _ φ done₂ _ _ hrecalls₂ _ => ?_
    exact follows_pure hrecalls₂ (fun _ _ h => h) (.same hv)

/-- **Completing tracks the plain walk**, if it may nest deeply enough. -/
theorem term_tracks (hσ : σ.Closed) (root : Term) (depth : Nat) : Tracks σ root depth (term depth) := by
  -- on the bound of the nesting, which is larger than what is left to enter
  induction depth with
  | zero => exact fun _ _ hroom _ => absurd hroom (Nat.not_lt_zero _)
  | succ depth ih =>
    intro τ done t hστ hrecalls hroom ht hyields
    refine follows_read ?_
    rw [hστ.resolve_eq t]
    rcases htr : σ.resolve t with v | x
    · have hv : v.In σ := hσ.resolve_val ht htr
      have hval : ∀ {w : Value} {υ : Store}, σ.Stands υ root v w → ∃ v', Term.val v = .val v' ∧ σ.Stands υ root v' w :=
        fun h => ⟨v, rfl, h⟩
      -- what the walk does not enter is its own result
      have hleaf : v.site? σ = none → v.incomplete? = none →
          (pure v : Completer Value).Follows σ root τ done done.sites [t] fun w υ _ =>
            ∃ v', Term.val v = .val v' ∧ σ.Stands υ root v' w := by
        intro hsite hincomplete
        refine follows_pure hrecalls (fun rest answer h => .pass ?_ ((site?_of_val htr).trans hsite) h) (hval (.same hv))
        rw [obstacle?_of_val htr, hincomplete]
        rfl
      have hmade : ∀ c < σ.closures.size, v.site? σ = some (.closure c) →
          (closure (term depth) v c).Follows σ root τ done done.sites [t] fun w υ _ =>
            ∃ v', Term.val v = .val v' ∧ σ.Stands υ root v' w := fun c hc hof =>
        (closure_follows ih hσ hστ hrecalls hroom hc hv hof htr hyields).imp fun _ _ _ _ h => hval h
      cases v with
      | record r =>
        refine follows_get ?_
        split
        · next w hw =>
          have hmem : r ∈ done.records := by
            rw [Std.HashMap.mem_iff_isSome_getElem?, hw]
            rfl
          exact follows_pure hrecalls (fun rest answer h => .again (site?_of_val htr) hmem h)
            (hval (hrecalls.records r w hw))
        · next hnone =>
          have hnot : r ∉ done.records := by
            rw [Std.HashMap.mem_iff_isSome_getElem?, hnone]
            nofun
          exact (record_follows ih hσ hστ hrecalls hroom hv hnot htr hyields).imp fun _ _ _ _ h => hval h
      | proc p =>
        cases p with
        | closure c | actorMaker c => exact hmade c hv rfl
        | ofCell _ _ | iter _ => exact follows_throw (obstacle?_of_val htr)
        | native _ | ofActor _ _ => exact hleaf rfl rfl
      | config k =>
        refine follows_read ?_
        rw [hστ.config_eq k]
        exact hmade _ (hσ.config hv).2 rfl
      | obj o =>
        cases o with
        | cell _ => exact follows_throw (obstacle?_of_val htr)
        | actor _ => exact hleaf rfl rfl
      | lit _ | num _ | failed _ => exact hleaf rfl rfl
    · exact follows_throw (obstacle?_of_var htr)

end Completer

/-! ## What completing answers -/

namespace Completed

variable {σ : Store} {done : Completed} {t u : Term}

theorem CoversTerm.obstacle? (h : done.CoversTerm σ t) : σ.obstacle? t = none := by
  obtain ⟨v, hv, hcovers⟩ := h
  rw [Store.obstacle?_of_val hv, v.incomplete?_eq_none hcovers.not_forbidden, Option.map_none]

/-- When everything that has been entered is settled, everything that a covered term yields is covered. -/
theorem CoversTerm.yields (hsettled : done.Settled σ {}) (h : done.CoversTerm σ t) (hu : σ.Yields t u) :
    done.CoversTerm σ u := by
  -- along the way from the root to the term
  induction hu with
  | refl => exact h
  | @tail s u _ hstep ih =>
    obtain ⟨p, hp, hmem⟩ := hstep
    obtain ⟨v, hv, hcovers⟩ := ih
    rw [Store.site?_of_val hv] at hp
    cases p with
    -- a record that is covered has been entered, and with it its fields
    | record r =>
      have hr : r ∈ done.records := by
        cases v with
        | record r' => cases hp; exact hcovers
        | lit | num | failed | obj | config => cases hp
        | proc q => cases q <;> cases hp
      obtain ⟨f, hf, rfl⟩ := List.mem_map.mp hmem
      exact hsettled.records r hr Std.HashMap.not_mem_empty f hf
    | closure c =>
      -- likewise for a closure and what it captured
      have hc : c ∈ done.closures := by
        cases v with
        | config k => cases hp; exact hcovers
        | record | lit | num | failed | obj => cases hp
        | proc q =>
          cases q with
          | closure | actorMaker => cases hp; exact hcovers
          | native | ofCell | ofActor | iter => cases hp
      obtain ⟨q, hq, rfl⟩ := List.mem_map.mp hmem
      exact hsettled.closures c hc Std.HashMap.not_mem_empty q hq

end Completed

namespace Action

open Store

variable {σ : Store} {t : Term}

/-- Completing a term answers what the plain walk answers, and its result stands for the value of the term. -/
theorem complete_tours (hσ : σ.Closed) (ht : t.In σ) :
    match complete t σ with
    | .ok w τ => σ.Rebuilds τ ∧ σ.Tour ∅ [t] none ∧ ∃ v, σ.resolve t = .val v ∧ σ.Stands τ t v w
    | .error e _ => σ.Tour ∅ [t] (some e) := by
  -- there are no more records and closures to enter than the store has
  have hroom : Completed.unentered σ {} < σ.records.size + σ.closures.size + 1 :=
    Nat.lt_succ_of_le (Completed.unentered_le σ {})
  have hfollows := Completer.term_tracks hσ t _ (.refl σ) (Completed.recalls_empty σ σ t) hroom ht .refl
  rw [Completer.Follows, Completed.sites_empty] at hfollows
  -- what has been remembered is forgotten in the end
  have hcomplete : complete t σ = (read (fun σ => σ.records.size + σ.closures.size + 1) >>= fun depth =>
      (Prod.fst <$> Completer.term depth t {} : Action Value)) σ := rfl
  rw [hcomplete, bind_apply]
  simp only [read, Functor.map, EStateM.map]
  generalize Completer.term (σ.records.size + σ.closures.size + 1) t {} σ = result at hfollows
  cases result with
  | ok p τ =>
    obtain ⟨hrebuilds, -, -, htour, hstands⟩ := hfollows
    exact ⟨hrebuilds, htour [] none (.done _), hstands⟩
  | error e τ => exact hfollows []

/-- Completing succeeds if nothing that can be reached is an obstacle, and only then. -/
theorem complete_eq_ok_iff (hσ : σ.Closed) (ht : t.In σ) :
    (∃ w τ, complete t σ = .ok w τ) ↔ ∀ u, σ.Yields t u → σ.obstacle? u = none := by
  have htours := complete_tours hσ ht
  have hsettles := complete_settles hσ ht
  generalize complete t σ = result at htours hsettles
  cases result with
  | ok w τ =>
    obtain ⟨-, done, -, hcovers, hsettled⟩ := hsettles
    exact ⟨fun _ u hu => (hcovers.yields hsettled hu).obstacle?, fun _ => ⟨w, τ, rfl⟩⟩
  | error e τ =>
    obtain ⟨s, hs, u, hu, he⟩ := htours.yields
    obtain rfl := List.mem_singleton.mp hs
    refine ⟨nofun, fun hnone => ?_⟩
    cases he.symm.trans (hnone u hu)

/-- It stops where the plain walk stops. -/
theorem complete_eq_error_iff (hσ : σ.Closed) (ht : t.In σ) {e : Interrupt} :
    (∃ τ, complete t σ = .error e τ) ↔ σ.Tour ∅ [t] (some e) := by
  have htours := complete_tours hσ ht
  generalize complete t σ = result at htours
  cases result with
  | ok w τ => exact ⟨nofun, fun h => by cases htours.2.1.unique h⟩
  | error e' τ =>
    constructor
    · rintro ⟨_, heq⟩
      cases heq
      exact htours
    · intro h
      cases htours.unique h
      exact ⟨τ, rfl⟩

/-- **Completing reports exactly the first obstacle.** It succeeds if and only if nothing that can be reached from the
term is an obstacle; otherwise it stops with the obstacle that the plain walk meets first, and if that is a variable,
then the variable is unbound and represents what was reached. -/
theorem complete_exact (hσ : σ.Closed) (ht : t.In σ) :
    ((∃ w τ, complete t σ = .ok w τ) ↔ ∀ u, σ.Yields t u → σ.obstacle? u = none) ∧
    (∀ e, (∃ τ, complete t σ = .error e τ) ↔ σ.Tour ∅ [t] (some e)) ∧
    (∀ x τ, complete t σ = .error (.blocked x) τ → σ.Unbound x ∧ ∃ u, σ.Yields t u ∧ σ.resolve u = .var x) := by
  refine ⟨complete_eq_ok_iff hσ ht, fun e => complete_eq_error_iff hσ ht, fun x τ h => ?_⟩
  obtain ⟨s, hs, u, hu, he⟩ := ((complete_eq_error_iff hσ ht).mp ⟨τ, h⟩).yields
  obtain rfl := List.mem_singleton.mp hs
  have hux := obstacle?_eq_blocked he
  have hresolved := hσ.resolved (hu.isIn hσ ht)
  rw [hux] at hresolved
  exact ⟨hresolved, u, hu, hux⟩

/-- The variable inside the only record is met after the record has been entered. -/
theorem complete_exact_knot :
    knot.Closed ∧ Term.In knot (.val (.record 0)) ∧ knot.Tour ∅ [.val (.record 0)] (some (.blocked 0)) ∧
      ∃ τ, complete (.val (.record 0)) knot = .error (.blocked 0) τ := by
  have hin : Term.In knot (.val (.record 0)) := Nat.zero_lt_one
  have hvar : knot.obstacle? (.var 0) = some (.blocked 0) := obstacle?_of_var knot_unbound.resolveVar
  have htour : knot.Tour ∅ [.val (.record 0)] (some (.blocked 0)) :=
    .enter (p := .record 0) rfl (Set.notMem_empty _) (.obstacle hvar)
  exact ⟨knot_closed, hin, htour, ((complete_exact knot_closed hin).2.1 _).mpr htour⟩

end Action

end Dataflow
