/-
Patterns: what matching finds out about a term.

A pattern is laid over a term from the root on. A path of features leads to a place in the pattern (`Pattern.At`) and
to a part of the term (`Store.follow?`), and the pattern fits if at every place that holds a constant or a record
pattern the part is what the place asks for (`Pattern.Fits`). The identifiers of the pattern capture the parts at their
places.

Looking at a term without capturing anything in variables (`Pattern.look`) leaves the store alone, so everything about
fitting is shown of it first. What it finds out is final: no later store answers otherwise. Matching (`Pattern.test`)
makes variables for captured values while it goes on. These variables are all that it adds to the store, so it answers
what looking would have answered at the start.
-/
import Dataflow.Proofs.Plans
import Dataflow.Proofs.Entailing

set_option autoImplicit false

namespace Dataflow

/-! ## Places -/

namespace Pattern

/-- A path of features leads from a pattern to a pattern inside it. -/
inductive At : Pattern → List Feature → Pattern → Prop where
  | here (p : Pattern) : At p [] p
  | field {label s : Scalar} {fields : List (Scalar × Pattern)} {isOpen : Bool} {p q : Pattern} {f : Feature}
      {path : List Feature} (hmem : (s, p) ∈ fields) (hf : s.toValue.toFeature = .ok f) (h : At p path q) :
      At (.record label fields isOpen) (f :: path) q

mutual

/-- The identifiers that the pattern captures, in order, with the paths that lead to them. -/
def places : Pattern → List (Ident × List Feature)
  | .lit _ => []
  | .ident x => [(x, [])]
  | .record _ fields _ => fieldPlaces fields

/-- The places of the patterns of fields. Nothing is at a constant that is no feature. -/
def fieldPlaces : List (Scalar × Pattern) → List (Ident × List Feature)
  | [] => []
  | (s, p) :: rest =>
    match s.toValue.toFeature with
    | .ok f => p.places.map (fun place => (place.1, f :: place.2)) ++ fieldPlaces rest
    | .error _ => fieldPlaces rest

end

mutual

/-- The places of a pattern are where its identifiers are. -/
theorem mem_places : (p : Pattern) → {x : Ident} → {path : List Feature} →
    ((x, path) ∈ p.places ↔ p.At path (.ident x))
  | .lit s, x, path => by
    rw [places]
    exact ⟨nofun, nofun⟩
  | .ident y, x, path => by
    rw [places, List.mem_singleton]
    constructor
    · rintro ⟨⟩
      exact .here _
    · rintro ⟨⟩
      rfl
  | .record label fields isOpen, x, path => by
    rw [places, mem_fieldPlaces fields]
    constructor
    · rintro ⟨s, p, f, path, hmem, hf, rfl, h⟩
      exact .field hmem hf h
    · rintro (_ | ⟨hmem, hf, h⟩)
      exact ⟨_, _, _, _, hmem, hf, rfl, h⟩

/-- The captures that stand below the fields of a record pattern are those below one of the fields whose name is a feature,
with that feature in front of their path. -/
theorem mem_fieldPlaces : (fields : List (Scalar × Pattern)) → {x : Ident} → {path : List Feature} →
    ((x, path) ∈ fieldPlaces fields ↔ ∃ s p f path', (s, p) ∈ fields ∧ s.toValue.toFeature = .ok f ∧
      path = f :: path' ∧ p.At path' (.ident x))
  | [], x, path => by
    rw [fieldPlaces]
    exact ⟨nofun, fun ⟨_, _, _, _, h, _⟩ => nomatch h⟩
  | (s, p) :: rest, x, path => by
    -- what is at the first field, and what is at the others
    have hfirst : ∀ f, (x, path) ∈ p.places.map (fun place => (place.1, f :: place.2)) ↔
        ∃ path', path = f :: path' ∧ p.At path' (.ident x) := by
      intro f
      rw [List.mem_map]
      constructor
      · rintro ⟨⟨y, path'⟩, hplace, heq⟩
        cases heq
        exact ⟨path', rfl, (mem_places p).mp hplace⟩
      · rintro ⟨path', rfl, h⟩
        exact ⟨(x, path'), (mem_places p).mpr h, rfl⟩
    have hrest : (x, path) ∈ fieldPlaces rest ↔ _ := mem_fieldPlaces rest
    rw [fieldPlaces]
    constructor
    · intro h
      have hcases : (∃ f path', s.toValue.toFeature = .ok f ∧ path = f :: path' ∧ p.At path' (.ident x)) ∨
          (x, path) ∈ fieldPlaces rest := by
        split at h
        · next f hf =>
          rcases List.mem_append.mp h with h | h
          · obtain ⟨path', hpath, hat⟩ := (hfirst f).mp h
            exact .inl ⟨f, path', hf, hpath, hat⟩
          · exact .inr h
        · exact .inr h
      rcases hcases with ⟨f, path', hf, hpath, hat⟩ | h
      · exact ⟨s, p, f, path', List.mem_cons_self, hf, hpath, hat⟩
      · obtain ⟨s', p', f, path', hmem, h⟩ := hrest.mp h
        exact ⟨s', p', f, path', List.mem_cons_of_mem _ hmem, h⟩
    · rintro ⟨s', p', f, path', hmem, hf, hpath, hat⟩
      rcases List.mem_cons.mp hmem with heq | hmem
      · cases heq
        rw [hf]
        exact List.mem_append_left _ ((hfirst f).mpr ⟨path', hpath, hat⟩)
      · have h := hrest.mpr ⟨s', p', f, path', hmem, hf, hpath, hat⟩
        split
        · exact List.mem_append_right _ h
        · exact h

end

end Pattern

/-- What a path of features that starts in a record leads to. -/
def Store.within? (σ : Store) (r : Record) : List Feature → Option Term
  | [] => none
  | f :: path => (r.select? f).bind fun u => σ.follow? u path

/-- A path that starts with a feature of a record can be followed from every term with that value. -/
theorem Store.follow?_of_within? {σ : Store} {t u : Term} {r : RecordId} {path : List Feature}
    (ht : σ.resolve t = .val (.record r)) (h : σ.within? (σ.record r) path = some u) : σ.follow? t path = some u := by
  cases path with
  | nil => cases h
  | cons f path =>
    rw [follow?, child?, ht]
    exact h

/-- Following a path in a closed store leads to a term of that store. -/
theorem Store.Closed.follow? {σ : Store} (hσ : σ.Closed) {t u : Term} {path : List Feature} (ht : t.In σ)
    (h : σ.follow? t path = some u) : u.In σ := by
  induction path generalizing t with
  | nil =>
    cases h
    exact ht
  | cons f path ih =>
    obtain ⟨s, hs, hu⟩ := Store.follow?_cons.mp h
    obtain ⟨r, hr, hselect⟩ := Store.child?_eq_some.mp hs
    have hrecord : r < σ.records.size := hσ.resolve_val ht hr
    exact ih ((hσ.record r).select? hselect) hu

/-! ## Fitting -/

/-- The record has the label of a record pattern and the features that it names, and if the pattern is exact, as many
features. -/
structure Record.Shows (r : Record) (label : Scalar) (fields : List (Scalar × Pattern)) (isOpen : Bool) : Prop where
  label : label.toValue = .lit r.label
  count : isOpen = false → r.count = fields.length
  features : ∀ field ∈ fields, ∃ f u, field.1.toValue.toFeature = .ok f ∧ r.select? f = some u

/-- The pattern fits the term: at every path, a constant of the pattern is entailed by the part of the term, and a
record pattern faces a record that has what the pattern names. -/
structure Pattern.Fits (σ : Store) (p : Pattern) (t : Term) : Prop where
  constants : ∀ path s, p.At path (.lit s) →
    ∃ u, σ.follow? t path = some u ∧ Action.entails u (.val s.toValue) σ = .ok true σ
  records : ∀ path label fields isOpen, p.At path (.record label fields isOpen) →
    ∃ u r, σ.follow? t path = some u ∧ σ.resolve u = .val (.record r) ∧ (σ.record r).Shows label fields isOpen

/-- The value is not what the pattern asks for at its root. -/
def Pattern.Rejects (σ : Store) : Pattern → Value → Prop
  | .lit s, v => v.sameAtom s.toValue = false
  | .ident _, _ => False
  | .record label fields isOpen, v => ∀ r, v = .record r → ¬ (σ.record r).Shows label fields isOpen

/-- Somewhere the pattern faces a value that is not what it asks for. -/
def Pattern.Clashes (σ : Store) (p : Pattern) (t : Term) : Prop :=
  ∃ path q u v, p.At path q ∧ σ.follow? t path = some u ∧ σ.resolve u = .val v ∧ q.Rejects σ v

/-- Somewhere the pattern needs the value of a part that is the unbound `x`. -/
def Pattern.Asks (σ : Store) (p : Pattern) (t : Term) (x : VarId) : Prop :=
  ∃ path q u, p.At path q ∧ (∀ y, q ≠ .ident y) ∧ σ.follow? t path = some u ∧ σ.resolve u = .var x

namespace Pattern

variable {σ : Store} {t : Term} {label s : Scalar} {fields : List (Scalar × Pattern)} {isOpen : Bool} {p : Pattern}

/-- The fields of the pattern fit a record. -/
def FieldsFit (σ : Store) (fields : List (Scalar × Pattern)) (r : Record) : Prop :=
  ∀ field ∈ fields, ∃ f u, field.1.toValue.toFeature = .ok f ∧ r.select? f = some u ∧ field.2.Fits σ u

theorem fits_ident (σ : Store) (x : Ident) (t : Term) : (Pattern.ident x).Fits σ t where
  constants _ _ h := by cases h
  records _ _ _ _ h := by cases h

/-- A literal is fitted by the terms that it entails. -/
theorem fits_lit : (Pattern.lit s).Fits σ t ↔ Action.entails t (.val s.toValue) σ = .ok true σ := by
  constructor
  · intro h
    obtain ⟨u, hu, hentails⟩ := h.constants [] s (.here _)
    cases hu
    exact hentails
  · intro h
    refine ⟨fun path s' hat => ?_, fun path _ _ _ hat => by cases hat⟩
    cases hat
    exact ⟨t, rfl, h⟩

/-- A record pattern is fitted by a record with its label and, where the pattern is exact, its number of fields, whose fields
fit. -/
theorem fits_record : (Pattern.record label fields isOpen).Fits σ t ↔
    ∃ r, σ.resolve t = .val (.record r) ∧ label.toValue = .lit (σ.record r).label ∧
      (isOpen = false → (σ.record r).count = fields.length) ∧ FieldsFit σ fields (σ.record r) := by
  constructor
  · intro h
    obtain ⟨u, r, hu, hr, hshows⟩ := h.records [] label fields isOpen (.here _)
    cases hu
    refine ⟨r, hr, hshows.label, hshows.count, fun field hfield => ?_⟩
    obtain ⟨f, u, hf, hu⟩ := hshows.features field hfield
    -- a path that starts in the field is a path through it from the record
    have hpath : ∀ {path : List Feature} {w : Term}, σ.follow? t (f :: path) = some w → σ.follow? u path = some w := by
      intro path w hw
      obtain ⟨u', hu', hw⟩ := Store.follow?_cons.mp hw
      obtain ⟨r', hr', hselect⟩ := Store.child?_eq_some.mp hu'
      cases hr.symm.trans hr'
      cases hu.symm.trans hselect
      exact hw
    refine ⟨f, u, hf, hu, ?_, ?_⟩
    · intro path s hat
      obtain ⟨w, hw, hentails⟩ := h.constants (f :: path) s (.field hfield hf hat)
      exact ⟨w, hpath hw, hentails⟩
    · intro path label fields isOpen hat
      obtain ⟨w, r', hw, hr', hshows⟩ := h.records (f :: path) label fields isOpen (.field hfield hf hat)
      exact ⟨w, r', hpath hw, hr', hshows⟩
  · rintro ⟨r, hr, hlabel, hcount, hfields⟩
    have hpath : ∀ {f : Feature} {u w : Term} {path : List Feature}, (σ.record r).select? f = some u →
        σ.follow? u path = some w → σ.follow? t (f :: path) = some w := fun hu hw =>
      Store.follow?_cons.mpr ⟨_, Store.child?_eq_some.mpr ⟨r, hr, hu⟩, hw⟩
    refine ⟨fun path s hat => ?_, fun path label' fields' isOpen' hat => ?_⟩
    · cases hat with
      | field hmem hf hat =>
        obtain ⟨f, u, hf', hu, hfits⟩ := hfields _ hmem
        cases hf.symm.trans hf'
        obtain ⟨w, hw, hentails⟩ := hfits.constants _ s hat
        exact ⟨w, hpath hu hw, hentails⟩
    -- a path of the pattern either ends at the record itself or starts in one of its fields
    · cases hat with
      | here =>
        refine ⟨t, r, rfl, hr, hlabel, hcount, fun field hfield => ?_⟩
        obtain ⟨f, u, hf, hu, -⟩ := hfields field hfield
        exact ⟨f, u, hf, hu⟩
      | field hmem hf hat =>
        obtain ⟨f, u, hf', hu, hfits⟩ := hfields _ hmem
        cases hf.symm.trans hf'
        obtain ⟨w, r', hw, hr', hshows⟩ := hfits.records _ label' fields' isOpen' hat
        exact ⟨w, r', hpath hu hw, hr', hshows⟩

theorem fieldsFit_nil (σ : Store) (r : Record) : FieldsFit σ [] r := fun _ h => nomatch h

theorem fieldsFit_cons {r : Record} : FieldsFit σ ((s, p) :: fields) r ↔
    (∃ f u, s.toValue.toFeature = .ok f ∧ r.select? f = some u ∧ p.Fits σ u) ∧ FieldsFit σ fields r :=
  List.forall_mem_cons

end Pattern

/-! ## Constants -/

theorem Action.entails_scalar_of_var {σ : Store} {t : Term} {x : VarId} (h : σ.resolve t = .var x) (s : Scalar) :
    Action.entails t (.val s.toValue) σ = .error (.blocked x) σ := by
  rw [Store.entails_eq_blocked_iff, Store.compare_scalar, h]

theorem Action.entails_scalar_of_val {σ : Store} {t : Term} {v : Value} (h : σ.resolve t = .val v) (s : Scalar) :
    Action.entails t (.val s.toValue) σ = .ok (v.sameAtom s.toValue) σ := by
  rw [Store.entails_eq_ok_iff, Store.compare_scalar, h]

theorem Scalar.isLiteral_iff {s : Scalar} {l : Literal} : s.isLiteral l = true ↔ s.toValue = .lit l := by
  cases s <;> simp [isLiteral, toValue]

/-! ## Actions that look -/

/-- What the action finds out in `σ` it finds out in `ρ` too, and it leaves the stores alone. -/
def Action.Lasts {α : Type} (act : Action α) (σ ρ : Store) : Prop :=
  match act σ with
  | .ok a τ => τ = σ ∧ act ρ = .ok a ρ
  | .error (.fault f) τ => τ = σ ∧ act ρ = .error (.fault f) ρ
  | .error (.blocked _) τ => τ = σ

namespace Action.Lasts

variable {α β : Type} {σ ρ : Store} {t : Term}

theorem pure (a : α) : (Pure.pure a : Action α).Lasts σ ρ := ⟨rfl, rfl⟩

theorem check (r : Except Fault α) : (Action.ofExcept r).Lasts σ ρ := by
  cases r <;> exact ⟨rfl, rfl⟩

theorem read {f : Store → α} (h : f ρ = f σ) : (Action.read f).Lasts σ ρ := ⟨rfl, by rw [← h]; rfl⟩

/-- Actions that last can be run one after the other. -/
theorem bind {act : Action α} {f : α → Action β} (h : act.Lasts σ ρ) (hf : ∀ a, act σ = .ok a σ → (f a).Lasts σ ρ) :
    (act >>= f).Lasts σ ρ := by
  rw [Lasts] at h
  rw [Lasts, bind_apply, bind_apply]
  cases hact : act σ with
  | ok a τ =>
    rw [hact] at h
    obtain ⟨rfl, hρ⟩ := h
    rw [hρ]
    exact hf a hact
  | error e τ =>
    rw [hact] at h
    cases e with
    | blocked x => exact h
    | fault g => exact ⟨h.1, by rw [h.2]⟩

/-- Whether a term is a constant is final. -/
theorem entails_scalar (h : σ.Precedes ρ) (hσ : σ.Closed) (ht : t.In σ) (s : Scalar) :
    (Action.entails t (.val s.toValue)).Lasts σ ρ := by
  rw [Lasts]
  cases hres : σ.resolve t with
  | var x => rw [entails_scalar_of_var hres]
  | val v =>
    rw [entails_scalar_of_val hres]
    exact ⟨rfl, entails_scalar_of_val (h.val hσ ht hres) s⟩

end Action.Lasts

/-! ## Looking -/

namespace Pattern

variable {σ ρ τ : Store} {t u : Term} {label s : Scalar} {fields : List (Scalar × Pattern)} {isOpen : Bool}
  {p : Pattern} {r : Record} {parts : List (Ident × Term)}

mutual

/-- **What looking finds out is final.** -/
theorem look_lasts (h : σ.Precedes ρ) (hσ : σ.Closed) : (p : Pattern) → {t : Term} → t.In σ → (p.look t).Lasts σ ρ
  | .ident x, t, _ => by
    rw [look]
    exact .pure _
  | .lit s, t, ht => by
    rw [look]
    exact (Action.Lasts.entails_scalar h hσ ht s).bind fun _ _ => .pure _
  | .record label fields isOpen, t, ht => by
    rw [look]
    cases hres : σ.resolve t with
    | var x =>
      -- the store is asked first, and what it says then may be something else later
      rw [Action.Lasts, bind_apply]
      have hread : Action.read (fun σ => σ.resolve t) σ = .ok (.var x) σ := by rw [← hres]; rfl
      rw [hread]
      rfl
    | val v =>
      refine (Action.Lasts.read ((h.val hσ ht hres).trans hres.symm)).bind fun u hu => ?_
      obtain rfl : u = .val v := by
        cases hu
        exact hres
      cases v with
      | record r =>
        have hr : r < σ.records.size := hσ.resolve_val ht hres
        refine (Action.Lasts.read (h.grows.record_eq hr)).bind fun record hrecord => ?_
        obtain rfl : record = σ.record r := by
          cases hrecord
          rfl
        split
        · exact .pure _
        · split
          · exact .pure _
          · exact lookFields_lasts h hσ fields (hσ.record r)
      | proc p => cases p <;> exact .pure _
      | _ => exact .pure _

/-- Looking at the fields of a record gives the same answer in every later store. -/
theorem lookFields_lasts (h : σ.Precedes ρ) (hσ : σ.Closed) : (fields : List (Scalar × Pattern)) → {r : Record} →
    r.In σ → (lookFields fields r).Lasts σ ρ
  | [], r, _ => by
    rw [lookFields]
    exact .pure _
  | (s, p) :: rest, r, hr => by
    rw [lookFields]
    refine (Action.Lasts.check _).bind fun f _ => ?_
    -- a missing field, a field that does not match, and a field that matches
    cases hselect : r.select? f with
    | none => exact .pure _
    | some u =>
      refine (look_lasts h hσ p (hr.select? hselect)).bind fun found _ => ?_
      cases found with
      | none => exact .pure _
      | some captured => exact (lookFields_lasts h hσ rest hr).bind fun _ _ => .pure _

end

/-- Looking leaves the store alone. -/
theorem look_store (hσ : σ.Closed) (ht : t.In σ) {found : Option (List (Ident × Term))}
    (h : p.look t σ = .ok found τ) : τ = σ := by
  have hlasts := p.look_lasts (.refl σ) hσ ht
  rw [Action.Lasts, h] at hlasts
  exact hlasts.1

/-- Looking at the fields of a record leaves the store alone. -/
theorem lookFields_store (hσ : σ.Closed) (hr : r.In σ) {found : Option (List (Ident × Term))}
    (h : lookFields fields r σ = .ok found τ) : τ = σ := by
  have hlasts := lookFields_lasts (.refl σ) hσ fields hr
  rw [Action.Lasts, h] at hlasts
  exact hlasts.1

/-- What comes of looking at a record pattern. -/
theorem look_record (label : Scalar) (fields : List (Scalar × Pattern)) (isOpen : Bool) (t : Term) (σ : Store) :
    (Pattern.record label fields isOpen).look t σ = match σ.resolve t with
      | .var x => .error (.blocked x) σ
      | .val (.record r) =>
        if label.isLiteral (σ.record r).label ∧ (isOpen = false → (σ.record r).count = fields.length) then
          lookFields fields (σ.record r) σ
        else .ok none σ
      | .val _ => .ok none σ := by
  have hread : Action.read (fun σ => σ.resolve t) σ = .ok (σ.resolve t) σ := rfl
  rw [look, bind_apply, hread]
  rcases σ.resolve t with v | x
  -- only a record has a label and fields to look at
  · cases v with
    | record r =>
      have hrecord : Action.read (fun σ => σ.record r) σ = .ok (σ.record r) σ := rfl
      dsimp only
      rw [bind_apply, hrecord]
      dsimp only
      cases label.isLiteral (σ.record r).label with
      | false => simp; rfl
      | true =>
        cases isOpen with
        | true => simp
        | false =>
          by_cases hcount : (σ.record r).count = fields.length
          · simp [hcount]
          · simp [hcount]
            rfl
    | proc p => cases p <;> rfl
    | _ => rfl
  · rfl

/-- What comes of looking at the fields of a pattern, one after the other. -/
theorem lookFields_cons (s : Scalar) (p : Pattern) (rest : List (Scalar × Pattern)) (r : Record) (σ : Store) :
    lookFields ((s, p) :: rest) r σ = match s.toValue.toFeature with
      | .error f => .error (.fault f) σ
      | .ok f => match r.select? f with
        | none => .ok none σ
        | some u => match p.look u σ with
          | .error e τ => .error e τ
          | .ok none τ => .ok none τ
          | .ok (some captured) τ => match lookFields rest r τ with
            | .error e τ => .error e τ
            | .ok more τ => .ok (more.map (captured ++ ·)) τ := by
  rw [lookFields, bind_apply]
  -- each of the two sides goes on where the name of the field is a feature
  rcases s.toValue.toFeature with g | f
  · rfl
  have hcheck : Action.ofExcept (.ok f) σ = .ok f σ := rfl
  rw [hcheck]
  dsimp only
  cases r.select? f with
  | none => rfl
  | some u =>
    dsimp only
    rw [bind_apply]
    -- the part is captured, turned down, or not decided
    rcases p.look u σ with ⟨found, τ⟩ | ⟨e, τ⟩
    · cases found with
      | none => rfl
      | some captured =>
        dsimp only
        rw [bind_apply]
        cases lookFields rest r τ <;> rfl
    · rfl

/-- A record pattern that starts with a constant waits for the part that this faces. -/
theorem look_first_unbound {label s : Scalar} {fields : List (Scalar × Pattern)} {isOpen : Bool} {r : RecordId}
    {f : Feature} {x : VarId} (hr : σ.resolve t = .val (.record r)) (hlabel : label.toValue = .lit (σ.record r).label)
    (hcount : isOpen = false → (σ.record r).count = fields.length + 1) (hf : s.toValue.toFeature = .ok f)
    (hu : (σ.record r).select? f = some u) (hx : σ.resolve u = .var x) (c : Scalar) :
    (Pattern.record label ((s, .lit c) :: fields) isOpen).look t σ = .error (.blocked x) σ := by
  rw [look_record, hr]
  refine (if_pos ⟨Scalar.isLiteral_iff.mpr hlabel, hcount⟩).trans ?_
  rw [lookFields_cons, hf]
  dsimp only
  rw [hu]
  dsimp only
  rw [look, bind_apply, Action.entails_scalar_of_var hx]

/-! ### Finding the parts -/

/-- The identifiers of the pattern face the parts. -/
def Finds (σ : Store) (p : Pattern) (t : Term) (parts : List (Ident × Term)) : Prop :=
  List.Forall₂ (fun place part => place.1 = part.1 ∧ σ.follow? t place.2 = some part.2) p.places parts

/-- The identifiers of the patterns of fields face the parts of a record. -/
def FieldsFind (σ : Store) (fields : List (Scalar × Pattern)) (r : Record) (parts : List (Ident × Term)) : Prop :=
  List.Forall₂ (fun place part => place.1 = part.1 ∧ σ.within? r place.2 = some part.2) (fieldPlaces fields) parts

/-- The parts of the first field come before those of the others. -/
theorem fieldsFind_cons {f : Feature} {parts more : List (Ident × Term)} (hf : s.toValue.toFeature = .ok f)
    (hu : r.select? f = some u) (hparts : p.Finds σ u parts) (hmore : FieldsFind σ fields r more) :
    FieldsFind σ ((s, p) :: fields) r (parts ++ more) := by
  rw [FieldsFind, fieldPlaces, hf]
  refine List.rel_append ?_ hmore
  rw [List.forall₂_map_left_iff]
  refine hparts.imp fun place part h => ⟨h.1, ?_⟩
  rw [Store.within?, hu]
  exact h.2

/-- Looking at two parts of a list of fields, the first of which is accepted. -/
theorem lookFields_cons_of_look {captured : List (Ident × Term)} {f : Feature} (hf : s.toValue.toFeature = .ok f)
    (hu : r.select? f = some u) (hlook : p.look u σ = .ok (some captured) σ) :
    lookFields ((s, p) :: fields) r σ = match lookFields fields r σ with
      | .error e τ => .error e τ
      | .ok more τ => .ok (more.map (captured ++ ·)) τ := by
  rw [lookFields_cons, hf]
  dsimp only
  rw [hu]
  dsimp only
  rw [hlook]

/-- The first field of a pattern is refused or waits, or the answer is that of the other fields. -/
theorem lookFields_cons_cases (hσ : σ.Closed) (hr : r.In σ) (s : Scalar) (p : Pattern) (rest : List (Scalar × Pattern)) :
    (∃ g, s.toValue.toFeature = .error g ∧ lookFields ((s, p) :: rest) r σ = .error (.fault g) σ) ∨
    ∃ f, s.toValue.toFeature = .ok f ∧
      (r.select? f = none ∧ lookFields ((s, p) :: rest) r σ = .ok none σ ∨
      ∃ u, r.select? f = some u ∧
        ((∃ captured, p.look u σ = .ok (some captured) σ ∧
          lookFields ((s, p) :: rest) r σ = match lookFields rest r σ with
            | .error e τ => .error e τ
            | .ok more τ => .ok (more.map (captured ++ ·)) τ) ∨
        (∀ captured, p.look u σ ≠ .ok (some captured) σ) ∧ lookFields ((s, p) :: rest) r σ = p.look u σ)) := by
  rw [lookFields_cons]
  -- the name of the field, the field of the record, and then what is found below it
  rcases s.toValue.toFeature with g | f
  · exact .inl ⟨g, rfl, rfl⟩
  refine .inr ⟨f, rfl, ?_⟩
  dsimp only
  cases hu : r.select? f with
  | none => exact .inl ⟨rfl, rfl⟩
  | some u =>
    refine .inr ⟨u, rfl, ?_⟩
    dsimp only
    rcases hlook : p.look u σ with ⟨_ | captured, τ⟩ | ⟨e, τ⟩
    · exact .inr ⟨nofun, rfl⟩
    · obtain rfl := look_store hσ (hr.select? hu) hlook
      exact .inl ⟨captured, rfl, rfl⟩
    · exact .inr ⟨nofun, rfl⟩

mutual

/-- A term that looking accepts fits, and what is found are the parts that the identifiers face. -/
theorem fits_of_look (hσ : σ.Closed) : (p : Pattern) → {t : Term} → t.In σ → {parts : List (Ident × Term)} →
    p.look t σ = .ok (some parts) σ → p.Fits σ t ∧ p.Finds σ t parts
  | .ident x, t, _, parts, h => by
    rw [look] at h
    cases h
    exact ⟨fits_ident σ x t, .cons ⟨rfl, rfl⟩ .nil⟩
  | .lit s, t, _, parts, h => by
    rw [look] at h
    obtain ⟨answer, τ, hentails, hanswer⟩ := Action.bind_eq_ok h
    cases answer with
    | false => cases hanswer
    | true =>
      cases hanswer
      exact ⟨fits_lit.mpr hentails, .nil⟩
  | .record label fields isOpen, t, ht, parts, h => by
    rw [look_record] at h
    rcases hres : σ.resolve t with v | x
    · rw [hres] at h
      -- the term is a record with the head of the pattern, as everything else is turned down
      cases v with
      | record r =>
        dsimp only at h
        split at h
        · next hhead =>
          have hr : r < σ.records.size := hσ.resolve_val ht hres
          obtain ⟨hfits, hfind⟩ := fieldsFit_of_lookFields hσ fields (hσ.record r) h
          refine ⟨fits_record.mpr ⟨r, hres, Scalar.isLiteral_iff.mp hhead.1, hhead.2, hfits⟩, ?_⟩
          exact hfind.imp fun place part h => ⟨h.1, Store.follow?_of_within? hres h.2⟩
        · cases h
      | _ => cases h
    · rw [hres] at h
      cases h

/-- What is found at the fields is there: each field fits, and each captured term is what its path leads to. -/
theorem fieldsFit_of_lookFields (hσ : σ.Closed) : (fields : List (Scalar × Pattern)) → {r : Record} → r.In σ →
    {parts : List (Ident × Term)} → lookFields fields r σ = .ok (some parts) σ →
    FieldsFit σ fields r ∧ FieldsFind σ fields r parts
  | [], r, _, parts, h => by
    rw [lookFields] at h
    cases h
    exact ⟨fieldsFit_nil σ r, .nil⟩
  | (s, p) :: rest, r, hr, parts, h => by
    rcases lookFields_cons_cases hσ hr s p rest with ⟨g, -, heq⟩ | ⟨f, hf, ⟨-, heq⟩ | ⟨u, hu, hcases⟩⟩
    · cases heq.symm.trans h
    · cases heq.symm.trans h
    -- the first field is accepted, or the answer is its refusal
    rcases hcases with ⟨captured, hlook, heq⟩ | ⟨hno, heq⟩
    · rw [heq] at h
      rcases hmore : lookFields rest r σ with ⟨_ | more, τ⟩ | ⟨e, τ⟩
      · rw [hmore] at h
        cases h
      · rw [hmore] at h
        cases h
        obtain ⟨hfits, hfinds⟩ := fits_of_look hσ p (hr.select? hu) hlook
        obtain ⟨hfits', hfinds'⟩ := fieldsFit_of_lookFields hσ rest hr hmore
        exact ⟨fieldsFit_cons.mpr ⟨⟨f, u, hf, hu, hfits⟩, hfits'⟩, fieldsFind_cons hf hu hfinds hfinds'⟩
      · rw [hmore] at h
        cases h
    · exact absurd (heq.symm.trans h) (hno parts)

end

mutual

/-- Looking accepts a term that fits. -/
theorem look_of_fits : (p : Pattern) → {t : Term} → p.Fits σ t → ∃ parts, p.look t σ = .ok (some parts) σ
  | .ident x, t, _ => ⟨[(x, t)], by rw [look]; rfl⟩
  | .lit s, t, h => ⟨[], by rw [look, bind_apply, fits_lit.mp h]; rfl⟩
  | .record label fields isOpen, t, h => by
    obtain ⟨r, hres, hlabel, hcount, hfits⟩ := fits_record.mp h
    obtain ⟨parts, hlook⟩ := lookFields_of_fieldsFit fields hfits
    refine ⟨parts, ?_⟩
    rw [look_record, hres]
    exact (if_pos ⟨Scalar.isLiteral_iff.mpr hlabel, hcount⟩).trans hlook

theorem lookFields_of_fieldsFit : (fields : List (Scalar × Pattern)) → {r : Record} → FieldsFit σ fields r →
    ∃ parts, lookFields fields r σ = .ok (some parts) σ
  | [], r, _ => ⟨[], by rw [lookFields]; rfl⟩
  | (s, p) :: rest, r, h => by
    obtain ⟨⟨f, u, hf, hu, hfits⟩, hrest⟩ := fieldsFit_cons.mp h
    obtain ⟨captured, hlook⟩ := look_of_fits p hfits
    obtain ⟨more, hmore⟩ := lookFields_of_fieldsFit rest hrest
    exact ⟨captured ++ more, by rw [lookFields_cons_of_look hf hu hlook, hmore]; rfl⟩

end

/-- Looking at a part comes to an end without success, and why: the part is unbound, or it is not what the pattern asks
for, or the pattern names something that is no feature. -/
inductive Stops (σ : Store) : Pattern → Term → EStateM.Result Interrupt Store (Option (List (Ident × Term))) → Prop where
  | waits {p : Pattern} {u : Term} {x : VarId} (hp : ∀ y, p ≠ .ident y) (hu : σ.resolve u = .var x) :
      Stops σ p u (.error (.blocked x) σ)
  | clashes {p : Pattern} {u : Term} {v : Value} (hu : σ.resolve u = .val v) (hv : p.Rejects σ v) :
      Stops σ p u (.ok none σ)
  | fails {label : Scalar} {fields : List (Scalar × Pattern)} {isOpen : Bool} {field : Scalar × Pattern} {g : Fault}
      (hfield : field ∈ fields) (hg : field.1.toValue.toFeature = .error g) (u : Term) :
      Stops σ (.record label fields isOpen) u (.error (.fault g) σ)

mutual

/-- **Looking that is no success has a reason**, at some place of the pattern. -/
theorem stops_of_look (hσ : σ.Closed) : (p : Pattern) → {t : Term} → t.In σ →
    (∀ parts, p.look t σ ≠ .ok (some parts) σ) →
    ∃ path q u, p.At path q ∧ σ.follow? t path = some u ∧ Stops σ q u (p.look t σ)
  | .ident y, t, _, h => absurd (by rw [look]; rfl) (h [(y, t)])
  | .lit s, t, _, h => by
    refine ⟨[], _, t, .here _, rfl, ?_⟩
    rw [look, bind_apply] at h ⊢
    -- an unbound variable is asked for, and a bound one is compared
    cases hres : σ.resolve t with
    | var x =>
      rw [Action.entails_scalar_of_var hres]
      exact .waits nofun hres
    | val v =>
      rw [Action.entails_scalar_of_val hres] at h ⊢
      cases hsame : v.sameAtom s.toValue with
      | true =>
        rw [hsame] at h
        exact absurd rfl (h [])
      | false => exact .clashes hres hsame
  | .record label fields isOpen, t, ht, h => by
    rw [look_record] at h ⊢
    cases hres : σ.resolve t with
    | var x => exact ⟨[], _, t, .here _, rfl, .waits nofun hres⟩
    | val v =>
      rw [hres] at h
      cases v with
      | record r =>
        dsimp only at h ⊢
        split
        · next hhead =>
          rw [if_pos hhead] at h
          obtain ⟨field, hfield, hwhy⟩ := stops_of_lookFields hσ fields (hσ.record r) h
          -- a name that is no feature, a field that is missing, or a place below a field
          rcases hwhy with ⟨g, hg, heq⟩ | ⟨f, hf, ⟨hmissing, heq⟩ | ⟨u, hu, path, q, w, hat, hw, hstops⟩⟩
          · exact ⟨[], _, t, .here _, rfl, heq ▸ .fails hfield hg t⟩
          · refine ⟨[], _, t, .here _, rfl, heq ▸ .clashes hres ?_⟩
            rintro _ ⟨⟩ hshows
            obtain ⟨f', u, hf', hu⟩ := hshows.features field hfield
            cases hf.symm.trans hf'
            cases hmissing.symm.trans hu
          · exact ⟨f :: path, q, w, .field hfield hf hat,
              Store.follow?_cons.mpr ⟨u, Store.child?_eq_some.mpr ⟨r, hres, hu⟩, hw⟩, hstops⟩
        -- the head of the record is not that of the pattern
        · next hhead =>
          refine ⟨[], _, t, .here _, rfl, .clashes hres ?_⟩
          rintro _ ⟨⟩ hshows
          exact hhead ⟨Scalar.isLiteral_iff.mpr hshows.label, hshows.count⟩
      | _ => exact ⟨[], _, t, .here _, rfl, .clashes hres fun _ h => nomatch h⟩

/-- Where the fields are not accepted, one of them says why: its name is not a feature, the record has no such field, or the
walk stops at a place below it. -/
theorem stops_of_lookFields (hσ : σ.Closed) : (fields : List (Scalar × Pattern)) → {r : Record} → r.In σ →
    (∀ parts, lookFields fields r σ ≠ .ok (some parts) σ) →
    ∃ field ∈ fields,
      (∃ g, field.1.toValue.toFeature = .error g ∧ lookFields fields r σ = .error (.fault g) σ) ∨
      ∃ f, field.1.toValue.toFeature = .ok f ∧ (r.select? f = none ∧ lookFields fields r σ = .ok none σ ∨
        ∃ u, r.select? f = some u ∧ ∃ path q w, field.2.At path q ∧ σ.follow? u path = some w ∧
          Stops σ q w (lookFields fields r σ))
  | [], r, _, h => absurd (by rw [lookFields]; rfl) (h [])
  | (s, p) :: rest, r, hr, h => by
    have hhere : (s, p) ∈ (s, p) :: rest := List.mem_cons_self
    rcases lookFields_cons_cases hσ hr s p rest with ⟨g, hg, heq⟩ | ⟨f, hf, ⟨hmissing, heq⟩ | ⟨u, hu, hcases⟩⟩
    · exact ⟨_, hhere, .inl ⟨g, hg, heq⟩⟩
    · exact ⟨_, hhere, .inr ⟨f, hf, .inl ⟨hmissing, heq⟩⟩⟩
    rcases hcases with ⟨captured, -, heq⟩ | ⟨hno, heq⟩
    · -- the first field is accepted, so the others are not, and theirs is the answer
      have hrest : ∀ parts, lookFields rest r σ ≠ .ok (some parts) σ := by
        intro parts hparts
        rw [hparts] at heq
        exact h _ heq
      have hanswer : lookFields ((s, p) :: rest) r σ = lookFields rest r σ := by
        rw [heq]
        rcases hlook : lookFields rest r σ with ⟨_ | more, τ⟩ | ⟨e, τ⟩
        · rfl
        · obtain rfl := lookFields_store hσ hr hlook
          exact absurd hlook (hrest more)
        · rfl
      obtain ⟨field, hfield, hwhy⟩ := stops_of_lookFields hσ rest hr hrest
      rw [hanswer]
      exact ⟨field, List.mem_cons_of_mem _ hfield, hwhy⟩
    · rw [heq]
      exact ⟨_, hhere, .inr ⟨f, hf, .inr ⟨u, hu, stops_of_look hσ p (hr.select? hu) hno⟩⟩⟩

end

/-- Looking waits for an unbound part whose value the pattern needs. -/
theorem asks_of_look (hσ : σ.Closed) (ht : t.In σ) {x : VarId} (h : p.look t σ = .error (.blocked x) σ) :
    σ.Unbound x ∧ p.Asks σ t x := by
  obtain ⟨path, q, u, hat, hu, hstops⟩ := stops_of_look hσ p ht (by rw [h]; nofun)
  rw [h] at hstops
  cases hstops with
  | waits hq hx => exact ⟨hσ.resolve_var (hσ.follow? ht hu) hx, path, q, u, hat, hq, hu, hx⟩

/-- Looking refuses a term because some part of it is not what the pattern asks for. -/
theorem clashes_of_look (hσ : σ.Closed) (ht : t.In σ) (h : p.look t σ = .ok none σ) : p.Clashes σ t := by
  obtain ⟨path, q, u, hat, hu, hstops⟩ := stops_of_look hσ p ht (by rw [h]; nofun)
  rw [h] at hstops
  cases hstops with
  | clashes hv hrejects => exact ⟨path, q, u, _, hat, hu, hv, hrejects⟩

end Pattern

/-! ## Matching -/

namespace Store

variable {σ τ ρ : Store} {t : Term}

/-- `τ` comes from `σ` and no term of `σ` resolves to anything else in it. -/
structure Widens (σ τ : Store) : Prop where
  evolves : σ.Evolves τ
  resolve_eq : ∀ t, t.In σ → τ.resolve t = σ.resolve t

theorem Widens.refl (σ : Store) : σ.Widens σ := ⟨.refl, fun _ _ => rfl⟩

/-- A new variable for a value. -/
theorem Widens.newBound (h : σ.Widens τ) (hτ : τ.Closed) {v : Value} (hv : v.In τ) :
    σ.Widens (τ.newVar (.bound v)).2 where
  evolves := h.evolves.tail (.var (.newVar nofun hv))
  resolve_eq t ht := by
    rw [← h.resolve_eq t ht]
    cases t with
    | val w => rfl
    | var y => exact resolveVar_newVar (s := .bound v) hτ.linked nofun (h.evolves.grows.term ht)

end Store

/-- The variables have been captured for the parts: in `τ` they stand for them. -/
def Captures.Hold (τ : Store) (parts : List (Ident × Term)) (new : Captures) : Prop :=
  List.Forall₂ (fun part c => part.1 = c.1 ∧ Term.In τ part.2 ∧ c.2 < τ.vars.size ∧
    τ.resolve (.var c.2) = τ.resolve part.2) parts new

theorem Captures.Hold.later {τ ρ : Store} {parts : List (Ident × Term)} {new : Captures} (h : Captures.Hold τ parts new)
    (hτ : τ.Closed) (hev : τ.Evolves ρ) : Captures.Hold ρ parts new :=
  h.imp fun _ c ⟨hname, hpart, hvar, hres⟩ => ⟨hname, hev.grows.term hpart, Nat.lt_of_lt_of_le hvar hev.grows.vars,
    hev.resolve_congr hτ (t := .var c.2) hvar hpart hres⟩

/-- What comes of matching from `τ` on, if `looked` comes of looking in `σ`. -/
inductive Matcher.Mirrors (σ τ : Store) (found : Captures) : EStateM.Result Interrupt (Store × Captures) Bool →
    EStateM.Result Interrupt Store (Option (List (Ident × Term))) → Prop where
  | yes {τ' : Store} {parts : List (Ident × Term)} {new : Captures} (hwide : σ.Widens τ') (hev : τ.Evolves τ')
      (hhold : Captures.Hold τ' parts new) : Mirrors σ τ found (.ok true (τ', found ++ new)) (.ok (some parts) σ)
  | no {τ' : Store} {all : Captures} : Mirrors σ τ found (.ok false (τ', all)) (.ok none σ)
  | stops (e : Interrupt) {τ' : Store} {all : Captures} : Mirrors σ τ found (.error e (τ', all)) (.error e σ)

namespace Pattern

open Matcher (Mirrors)

variable {σ τ ρ : Store} {t : Term} {p : Pattern} {found : Captures}

/-- Nothing has been captured. -/
theorem mirrors_nothing (hwide : σ.Widens τ) : Mirrors σ τ found (.ok true (τ, found)) (.ok (some []) σ) := by
  have hyes := @Mirrors.yes σ τ found τ [] [] hwide .refl .nil
  rwa [List.append_nil] at hyes

/-- A term is captured. -/
theorem mirrors_capture (hσ : σ.Closed) (ht : t.In σ) (hwide : σ.Widens τ) (x : Ident) :
    Mirrors σ τ found ((Pattern.ident x).test t (τ, found)) (.ok (some [(x, t)]) σ) := by
  have hτ := hwide.evolves.closed hσ
  have htτ : t.In τ := hwide.evolves.grows.term ht
  rw [test]
  cases t with
  | var y => exact .yes hwide .refl (.cons ⟨rfl, htτ, htτ, rfl⟩ .nil)
  | val v =>
    -- the new variable is the last one
    have hstep : Store.Step τ (τ.newVar (.bound v)).2 := .var (.newVar nofun htτ)
    have hbound : (τ.newVar (.bound v)).2.resolveVar τ.vars.size = .val v := by
      refine Store.resolveVar_of_bound ?_
      have hlast : (τ.newVar (.bound v)).2.vars[τ.vars.size]? = some (.bound v) := by
        rw [Store.newVar_getElem?, if_pos rfl]
      rw [Store.representative_of_ne_link (by rw [hlast]; nofun), hlast]
    refine .yes (hwide.newBound hτ htτ) (.single hstep) (.cons ⟨rfl, ?_, τ.newVar_lt_size _, hbound⟩ .nil)
    exact hstep.grows.term htτ

mutual

/-- **Matching mirrors looking**: wherever it has got to, it does what looking would have done at the start. -/
theorem test_mirrors (hσ : σ.Closed) : (p : Pattern) → {t : Term} → t.In σ → {τ : Store} → σ.Widens τ →
    {found : Captures} → Mirrors σ τ found (p.test t (τ, found)) (p.look t σ)
  | .ident x, t, ht, τ, hwide, found => by
    rw [look]
    exact mirrors_capture hσ ht hwide x
  | .lit s, t, ht, τ, hwide, found => by
    have hτ := hwide.resolve_eq t ht
    rw [test, look, Matcher.lift, bind_apply]
    -- the literal decides on a value alone, which the wider store resolves to as well
    cases hres : σ.resolve t with
    | var x =>
      rw [Action.entails_scalar_of_var hres, Action.entails_scalar_of_var (hτ.trans hres)]
      exact .stops _
    | val v =>
      rw [Action.entails_scalar_of_val hres, Action.entails_scalar_of_val (hτ.trans hres)]
      cases v.sameAtom s.toValue with
      | false => exact .no
      | true => exact mirrors_nothing hwide
  | .record label fields isOpen, t, ht, τ, hwide, found => by
    have hread : Matcher.lift (Action.read fun σ => σ.resolve t) (τ, found) = .ok (σ.resolve t) (τ, found) := by
      rw [← hwide.resolve_eq t ht]
      rfl
    rw [test, look_record, bind_apply, hread]
    -- a record has its fields matched one by one, everything else is decided at its head
    cases hres : σ.resolve t with
    | var x => exact .stops _
    | val v =>
      cases v with
      | record r =>
        have hr : r < σ.records.size := hσ.resolve_val ht hres
        have hrecord : Matcher.lift (Action.read fun σ => σ.record r) (τ, found) = .ok (σ.record r) (τ, found) := by
          rw [← hwide.evolves.grows.record_eq hr]
          rfl
        have hfields : Mirrors σ τ found (testFields fields (σ.record r) (τ, found)) (lookFields fields (σ.record r) σ) :=
          testFields_mirrors hσ fields (hσ.record r) hwide
        dsimp only
        rw [bind_apply, hrecord]
        dsimp only
        cases hlabel : label.isLiteral (σ.record r).label with
        | false => simpa using .no
        | true =>
          cases isOpen with
          | true => simpa using hfields
          | false =>
            by_cases hcount : (σ.record r).count = fields.length
            · simpa [hcount] using hfields
            · simpa [hcount] using .no
      | proc p => cases p <;> exact .no
      | _ => exact .no

/-- Matching the fields and looking at them agree, and what the match bound meanwhile can be told from the store in which it
started. -/
theorem testFields_mirrors (hσ : σ.Closed) : (fields : List (Scalar × Pattern)) → {r : Record} → r.In σ →
    {τ : Store} → σ.Widens τ → {found : Captures} →
    Mirrors σ τ found (testFields fields r (τ, found)) (lookFields fields r σ)
  | [], r, _, τ, hwide, found => by
    rw [testFields, lookFields]
    exact mirrors_nothing hwide
  | (s, p) :: rest, r, hr, τ, hwide, found => by
    rw [testFields, lookFields_cons, bind_apply]
    rcases s.toValue.toFeature with g | f
    · exact .stops _
    -- the name of the field is a feature
    have hcheck : Matcher.lift (Action.ofExcept (.ok f)) (τ, found) = .ok f (τ, found) := rfl
    rw [hcheck]
    dsimp only
    cases hu : r.select? f with
    | none => exact .no
    | some u =>
      have hfirst : Mirrors σ τ found (p.test u (τ, found)) (p.look u σ) :=
        test_mirrors hσ p (hr.select? hu) hwide
      dsimp only
      rw [bind_apply]
      generalize p.test u (τ, found) = tested, p.look u σ = looked at hfirst
      cases hfirst with
      | no => exact .no
      | stops e => exact .stops e
      | @yes τ' parts new hwide' hev hhold =>
        have hrest : Mirrors σ τ' (found ++ new) (testFields rest r (τ', found ++ new)) (lookFields rest r σ) :=
          testFields_mirrors hσ rest hr hwide'
        dsimp only
        rw [if_pos rfl]
        generalize testFields rest r (τ', found ++ new) = tested, lookFields rest r σ = looked at hrest
        -- the rest is compared from the store and the captures that the first field left
        cases hrest with
        | no => exact .no
        | stops e => exact .stops e
        | @yes τ'' more new' hwide'' hev' hhold' =>
          rw [List.append_assoc]
          have hτ' := hwide'.evolves.closed hσ
          exact .yes hwide'' (hev.trans hev') (List.rel_append (hhold.later hτ' hev') hhold')

end

/-! ### What comes of matching -/

/-- Matching succeeds where looking does, and captures variables that hold what looking has found. -/
theorem test_of_look (hσ : σ.Closed) (ht : t.In σ) {parts : List (Ident × Term)}
    (h : p.look t σ = .ok (some parts) σ) (found : Captures) :
    ∃ τ new, p.test t (σ, found) = .ok true (τ, found ++ new) ∧ σ.Evolves τ ∧ Captures.Hold τ parts new := by
  have hmirrors : Mirrors σ σ found _ _ := test_mirrors hσ p ht (.refl σ)
  rw [h] at hmirrors
  generalize p.test t (σ, found) = tested at hmirrors
  cases hmirrors with
  | yes _ hev hhold => exact ⟨_, _, rfl, hev, hhold⟩

/-- A pattern that tests true finds its parts, and captures hold them. -/
theorem look_of_test (hσ : σ.Closed) (ht : t.In σ) {s : Store × Captures} (h : p.test t (σ, found) = .ok true s) :
    ∃ parts new, p.look t σ = .ok (some parts) σ ∧ s.2 = found ++ new ∧ σ.Evolves s.1 ∧
      Captures.Hold s.1 parts new := by
  have hmirrors : Mirrors σ σ found _ _ := test_mirrors hσ p ht (.refl σ)
  rw [h] at hmirrors
  generalize p.look t σ = looked at hmirrors
  cases hmirrors with
  | yes _ hev hhold => exact ⟨_, _, rfl, rfl, hev, hhold⟩

/-- The test says no just if looking does. -/
theorem test_false_iff (hσ : σ.Closed) (ht : t.In σ) :
    (∃ s, p.test t (σ, found) = .ok false s) ↔ p.look t σ = .ok none σ := by
  have hmirrors : Mirrors σ σ found _ _ := test_mirrors hσ p ht (.refl σ)
  generalize p.test t (σ, found) = tested, p.look t σ = looked at hmirrors
  cases hmirrors <;> simp

/-- The test is interrupted just as looking is. -/
theorem test_error_iff (hσ : σ.Closed) (ht : t.In σ) {e : Interrupt} :
    (∃ s, p.test t (σ, found) = .error e s) ↔ p.look t σ = .error e σ := by
  have hmirrors : Mirrors σ σ found _ _ := test_mirrors hσ p ht (.refl σ)
  generalize p.test t (σ, found) = tested, p.look t σ = looked at hmirrors
  cases hmirrors <;> simp

/-- A match is a term that fits. -/
theorem test_true_iff (hσ : σ.Closed) (ht : t.In σ) : (∃ s, p.test t (σ, found) = .ok true s) ↔ p.Fits σ t := by
  constructor
  · rintro ⟨s, h⟩
    obtain ⟨parts, -, hlook, -⟩ := look_of_test hσ ht h
    exact (fits_of_look hσ p ht hlook).1
  · intro h
    obtain ⟨parts, hlook⟩ := look_of_fits p h
    obtain ⟨τ, new, htest, -⟩ := test_of_look hσ ht hlook found
    exact ⟨_, htest⟩

/-- The identifiers of the pattern, one after the other, have captured variables that stand in `τ` for the parts of the
term that their paths lead to in `σ`. -/
def Catches (σ : Store) (p : Pattern) (t : Term) (τ : Store) (new : Captures) : Prop :=
  List.Forall₂ (fun place c => c.1 = place.1 ∧ c.2 < τ.vars.size ∧
    ∃ u, σ.follow? t place.2 = some u ∧ τ.resolve (.var c.2) = τ.resolve u) p.places new

/-- Captures that hold the parts which were found are captures of the right terms. -/
theorem Finds.catches {parts : List (Ident × Term)} {new : Captures} (h : p.Finds σ t parts)
    (hhold : Captures.Hold τ parts new) : p.Catches σ t τ new := by
  rw [Finds] at h
  rw [Catches]
  generalize p.places = ps at h
  induction h generalizing new with
  | nil =>
    cases hhold
    exact .nil
  | cons hpart _ ih =>
    cases hhold with
    | cons hheld hrest =>
      exact .cons ⟨hheld.1.symm.trans hpart.1.symm, hheld.2.2.1, _, hpart.2, hheld.2.2.2⟩ (ih hrest)

/-- What is captured is captured under the names of the places, in their order. -/
theorem Catches.names {new : Captures} (h : p.Catches σ t τ new) : new.map Prod.fst = p.places.map Prod.fst := by
  rw [Catches] at h
  generalize p.places = ps at h
  induction h with
  | nil => rfl
  | cons hc _ ih => rw [List.map_cons, List.map_cons, hc.1, ih]

mutual

/-- Where a pattern fits, its places are those of its captures. -/
theorem Fits.names : (p : Pattern) → {t : Term} → p.Fits σ t → p.places.map Prod.fst = p.captures
  | .ident x, _, _ => by
    rw [places, captures]
    rfl
  | .lit s, _, _ => by
    rw [places, captures]
    rfl
  | .record label fields isOpen, t, h => by
    obtain ⟨r, -, -, -, hfits⟩ := fits_record.mp h
    rw [places, captures]
    exact FieldsFit.names fields hfits

/-- The names that the fields of a fitting pattern capture, in the order of the places, are those that the pattern lists. -/
theorem FieldsFit.names : (fields : List (Scalar × Pattern)) → {r : Record} → FieldsFit σ fields r →
    (fieldPlaces fields).map Prod.fst = fieldCaptures fields
  | [], _, _ => by
    rw [fieldPlaces, fieldCaptures]
    rfl
  | (s, p) :: rest, r, h => by
    obtain ⟨⟨f, u, hf, -, hfits⟩, hrest⟩ := fieldsFit_cons.mp h
    rw [fieldPlaces, fieldCaptures, hf]
    dsimp only
    rw [List.map_append, List.map_map, FieldsFit.names rest hrest, ← Fits.names p hfits]
    rfl

end

/-- **Matching is exact, its captures name the parts, and its answers are final.** It answers yes exactly if the pattern
fits: at every path a constant is entailed by the part of the term there, and a record pattern faces a record with its
label, with its features and, if it is exact, with no more of them than it has fields. It answers no only if at some
path the part is a value that is not what the pattern asks for. What a yes has captured are the captures of the pattern,
in this order, and each of them is a variable that stands for the part of the term at the path of its identifier, now
and in every later store. A yes, a no and a fault are repeated in every store that comes from this one, and what a yes
captures there stands for the same parts. A variable that it waits for is unbound, and it is a part of the term whose
value the pattern needs. -/
theorem test_exact (hσ : σ.Closed) (ht : t.In σ) (p : Pattern) (found : Captures) :
    ((∃ s, p.test t (σ, found) = .ok true s) ↔ p.Fits σ t) ∧
    (∀ s, p.test t (σ, found) = .ok false s → p.Clashes σ t) ∧
    (∀ τ all, p.test t (σ, found) = .ok true (τ, all) → ∃ new, all = found ++ new ∧
      new.map Prod.fst = p.captures ∧ ∀ ρ, τ.Evolves ρ → p.Catches σ t ρ new) ∧
    (∀ ρ, σ.Evolves ρ → ∀ before,
      (∀ s, p.test t (σ, found) = .ok true s → ∃ τ new, p.test t (ρ, before) = .ok true (τ, before ++ new) ∧
        p.Catches σ t τ new) ∧
      (∀ s, p.test t (σ, found) = .ok false s → ∃ s', p.test t (ρ, before) = .ok false s') ∧
      ∀ f s, p.test t (σ, found) = .error (.fault f) s → ∃ s', p.test t (ρ, before) = .error (.fault f) s') ∧
    ∀ x s, p.test t (σ, found) = .error (.blocked x) s → σ.Unbound x ∧ p.Asks σ t x := by
  refine ⟨test_true_iff hσ ht, fun s h => ?_, ?_, ?_, fun x s h => ?_⟩
  · exact clashes_of_look hσ ht ((test_false_iff hσ ht).mp ⟨s, h⟩)
  · intro τ all h
    obtain ⟨parts, new, hlook, hall, hev, hhold⟩ := look_of_test hσ ht h
    obtain ⟨hfits, hfinds⟩ := fits_of_look hσ p ht hlook
    refine ⟨new, hall, (hfinds.catches hhold).names.trans hfits.names, fun ρ hρ => ?_⟩
    exact hfinds.catches (hhold.later (hev.closed hσ) hρ)
  · intro ρ hρ before
    have hclosed := hρ.closed hσ
    have htρ : t.In ρ := hρ.grows.term ht
    -- looking in the later store has the same result
    have hlasts := p.look_lasts (hρ.precedes hσ) hσ ht
    rw [Action.Lasts] at hlasts
    refine ⟨fun s h => ?_, fun s h => ?_, fun f s h => ?_⟩
    · obtain ⟨parts, -, hlook, -⟩ := look_of_test hσ ht h
      rw [hlook] at hlasts
      obtain ⟨τ, new, htest, -, hhold⟩ := test_of_look hclosed htρ hlasts.2 before
      exact ⟨τ, new, htest, (fits_of_look hσ p ht hlook).2.catches hhold⟩
    · rw [(test_false_iff hσ ht).mp ⟨s, h⟩] at hlasts
      exact (test_false_iff hclosed htρ).mpr hlasts.2
    · rw [(test_error_iff hσ ht).mp ⟨s, h⟩] at hlasts
      exact (test_error_iff hclosed htρ).mpr hlasts.2
  · exact asks_of_look hσ ht ((test_error_iff hσ ht).mp ⟨s, h⟩)

end Pattern

/-- Of the record that holds itself an identifier captures the variable in it, and a constant waits for this variable. -/
theorem Pattern.test_exact_knot :
    Store.knot.Closed ∧ Term.In Store.knot (.val (.record 0)) ∧
      (∃ τ new, (Pattern.record .null [(.str "self", .ident "x")] false).test (.val (.record 0)) (Store.knot, []) =
        .ok true (τ, new) ∧ new.map Prod.fst = ["x"]) ∧
      Store.knot.Unbound 0 ∧
      (Pattern.record .null [(.str "self", .lit .null)] false).Asks Store.knot (.val (.record 0)) 0 := by
  have hin : Term.In Store.knot (.val (.record 0)) := Nat.zero_lt_one
  -- the record holds itself under its only name
  have hself : (Store.knot.record 0).select? (.str "self") = some (.var 0) :=
    (Store.knot_sorted.record 0).select?_eq_some_iff.mpr List.mem_cons_self
  have hres : Store.knot.resolve (.val (.record 0)) = .val (.record 0) := rfl
  have hfits : (Pattern.record .null [(.str "self", .ident "x")] false).Fits Store.knot (.val (.record 0)) :=
    fits_record.mpr ⟨0, hres, rfl, fun _ => rfl, fieldsFit_cons.mpr
      ⟨⟨.str "self", .var 0, rfl, hself, fits_ident _ _ _⟩, fieldsFit_nil _ _⟩⟩
  obtain ⟨hyes, -, hcaptured, -⟩ := test_exact Store.knot_closed hin
    (.record .null [(.str "self", .ident "x")] false) []
  obtain ⟨⟨τ, all⟩, htest⟩ := hyes.mpr hfits
  obtain ⟨new, rfl, hnames, -⟩ := hcaptured τ all htest
  obtain ⟨-, -, -, -, hwaits⟩ := test_exact Store.knot_closed hin (.record .null [(.str "self", .lit .null)] false) []
  -- the variable stands below the name, and nothing before it decides
  have hblocked : ∃ s, (Pattern.record .null [(.str "self", .lit .null)] false).test (.val (.record 0))
      (Store.knot, []) = .error (.blocked 0) s := by
    refine (test_error_iff Store.knot_closed hin).mpr ?_
    exact look_first_unbound hres rfl (fun _ => rfl) rfl hself Store.knot_unbound.resolveVar _
  obtain ⟨s, hs⟩ := hblocked
  exact ⟨Store.knot_closed, hin, ⟨τ, _, htest, hnames⟩, hwaits 0 s hs⟩

end Dataflow
