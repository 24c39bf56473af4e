/-
Drawings: what the text of a term shows of it.

A drawing is the tree behind a text. Each of its nodes stands for a term and shows its value, or its name if it has none,
or nothing but that there is a value (`...`), or that there is a record again that the node is inside of (`<cycle>`). The
text of a term is the text of one drawing of it (`Drawing.Depicts`), and in reading order this drawing shows values as
long as fewer than 256 have been shown and elides all further ones, except that values inside more than 32 records are
elided in any case (`Drawing.Thrifty`).

A drawing that elides nothing and marks no cycle shows all that the term is made of, with what is shared drawn once for
each place. An acyclic term has exactly one such drawing, and the text of this drawing is what a rendering without bounds
would write. A rendering has reason to deviate from it only where it is too large, so a drawing within the bounds has the
text of the term.
-/
import Dataflow.Display
import Dataflow.Proofs.Containment
import Dataflow.Proofs.Representative

set_option autoImplicit false

namespace Dataflow

open Relation

/-! ## Drawings -/

/-- What is shown of a term. -/
inductive Drawing where
  /-- The name of an unbound variable. -/
  | name (x : VarId)
  /-- A value of which nothing is shown. -/
  | elided
  /-- A record that is shown around this place already. -/
  | cycle
  /-- A value without parts, by its text. -/
  | atom (text : String)
  | record (r : RecordId) (parts : List Drawing)
  | failed (f : FailureId) (error : Drawing)

/-- The text of a value without parts. -/
def Value.atomText? : Value → Option String
  | .lit l => some l.text
  | .num n => some n.text
  | .obj o => some o.text
  | .proc p => some p.text
  | .config _ => some "<actor_cfg>"
  | .record _ | .failed _ => none

/-- The texts of the values of a record, each behind its feature unless the record is a tuple. -/
def fieldTexts (isTuple : Bool) (fields : List Field) (texts : List String) : List String :=
  List.zipWith (fun f text => if isTuple then text else f.feature.keyText ++ ": " ++ text) fields texts

/-- The text of a record from the texts of its values. -/
def Record.textOf (r : Record) (texts : List String) : String :=
  let body := String.intercalate ", " (fieldTexts r.isTuple r.fields texts)
  r.label.labelText ++ (if r.isTuple then "[" ++ body ++ "]" else "\x7b" ++ body ++ "\x7d")

namespace Drawing

mutual

/-- The text of a drawing. -/
def text (σ : Store) : Drawing → String
  | .name x => varName x
  | .elided => "..."
  | .cycle => "<cycle>"
  | .atom text => text
  | .record r parts => (σ.record r).textOf (texts σ parts)
  | .failed _ error => "<failed " ++ error.text σ ++ ">"

/-- The texts of drawings. -/
def texts (σ : Store) : List Drawing → List String
  | [] => []
  | d :: rest => d.text σ :: texts σ rest

end

mutual

/-- The drawing is one of the term, inside the records of `path`. A record is shown only where it is not around already,
and it is marked as a cycle only where it is, and then it holds itself. -/
def Depicts (σ : Store) (path : List RecordId) (t : Term) : Drawing → Prop
  | .name x => σ.resolve t = .var x
  | .elided => ∃ v, σ.resolve t = .val v
  | .cycle => ∃ r ∈ path, σ.resolve t = .val (.record r) ∧ TransGen σ.Holds (.record r) (.record r)
  | .atom text => ∃ v, σ.resolve t = .val v ∧ v.atomText? = some text
  | .record r parts =>
    σ.resolve t = .val (.record r) ∧ r ∉ path ∧ DepictAll σ (r :: path) (σ.record r).fields parts
  | .failed f error => σ.resolve t = .val (.failed f) ∧ error.Depicts σ path (.val (σ.failure f).error)

/-- The drawings are those of the values of the fields. -/
def DepictAll (σ : Store) (path : List RecordId) : List Field → List Drawing → Prop
  | [], [] => True
  | f :: fields, d :: rest => d.Depicts σ path f.value ∧ DepictAll σ path fields rest
  | _, _ => False

end

/-! ## What is shown and what is not -/

/-- A place where there is a value: inside how many records it is, and whether something of the value is shown. -/
structure Spot where
  depth : Nat
  shown : Bool

mutual

/-- The places with values, in reading order; `depth` is the number of records around the drawing. -/
def spots (depth : Nat) : Drawing → List Spot
  | .name _ => []
  | .elided => [⟨depth, false⟩]
  | .cycle | .atom _ => [⟨depth, true⟩]
  | .record _ parts => ⟨depth, true⟩ :: allSpots (depth + 1) parts
  | .failed _ error => ⟨depth, true⟩ :: error.spots depth

/-- The places of several drawings, one after the other. -/
def allSpots (depth : Nat) : List Drawing → List Spot
  | [] => []
  | d :: rest => d.spots depth ++ allSpots depth rest

end

/-- A value is shown exactly if fewer values than may be shown come before it, and it is not inside too many records. -/
def Thrifty (spots : List Spot) : Prop :=
  ∀ before s after, spots = before ++ s :: after →
    (s.shown = true ↔ before.countP Spot.shown < Store.displayNodes ∧ s.depth ≤ Store.displayDepth)

mutual

/-- Nothing is elided, and no cycle is marked. -/
def Unabridged : Drawing → Prop
  | .elided | .cycle => False
  | .name _ | .atom _ => True
  | .record _ parts => AllUnabridged parts
  | .failed _ error => error.Unabridged

/-- None of the drawings elides anything or marks a cycle. -/
def AllUnabridged : List Drawing → Prop
  | [] => True
  | d :: rest => d.Unabridged ∧ AllUnabridged rest

end

/-! ## Spending -/

/-- Showing values one after the other, where `left` more may be shown at the beginning and `left'` at the end. -/
inductive Spends : (left : Nat) → List Spot → (left' : Nat) → Prop where
  | done (left : Nat) : Spends left [] left
  | shown {depth left left' : Nat} {rest : List Spot} (hdepth : depth ≤ Store.displayDepth) (h : Spends left rest left') :
      Spends (left + 1) (⟨depth, true⟩ :: rest) left'
  | elided {depth left left' : Nat} {rest : List Spot} (hdue : left = 0 ∨ Store.displayDepth < depth)
      (h : Spends left rest left') : Spends left (⟨depth, false⟩ :: rest) left'

namespace Spends

variable {a b c : Nat} {first second : List Spot}

/-- What is spent on two drawings in turn is spent on one after the other. -/
theorem append (h : Spends a first b) (h' : Spends b second c) : Spends a (first ++ second) c := by
  induction h with
  | done => exact h'
  | shown hdepth _ ih => exact .shown hdepth (ih h')
  | elided hdue _ ih => exact .elided hdue (ih h')

/-- What has been shown is what has been spent. -/
theorem count (h : Spends a first b) : first.countP Spot.shown + b = a := by
  induction h with
  | done => exact Nat.zero_add _
  | shown _ _ ih =>
    rw [List.countP_cons_of_pos rfl]
    omega
  | elided _ _ ih =>
    rw [List.countP_cons_of_neg Bool.false_ne_true]
    exact ih

/-- Nothing spent is given back. -/
theorem le (h : Spends a first b) : b ≤ a := by
  have := h.count
  omega

/-- A value is shown exactly if something is left by then. -/
theorem shown_iff (h : Spends a first b) {before after : List Spot} {s : Spot} (heq : first = before ++ s :: after) :
    s.shown = true ↔ before.countP Spot.shown < a ∧ s.depth ≤ Store.displayDepth := by
  -- along what is spent: each spot is the first one or stands behind a shown or an elided one
  induction h generalizing before with
  | done => simp at heq
  | @shown depth left left' rest hdepth _ ih =>
    cases before with
    -- the spot itself is shown: there was something left for it
    | nil =>
      obtain ⟨rfl, -⟩ := List.cons.inj heq
      exact iff_of_true rfl ⟨Nat.succ_pos _, hdepth⟩
    | cons s' before =>
      obtain ⟨rfl, hrest⟩ := List.cons.inj heq
      rw [ih hrest, List.countP_cons_of_pos rfl, Nat.add_lt_add_iff_right]
  | @elided depth left left' rest hdue _ ih =>
    cases before with
    | nil =>
      -- the spot itself is elided: nothing was left, or it is too deep
      obtain ⟨rfl, -⟩ := List.cons.inj heq
      refine iff_of_false Bool.false_ne_true fun ⟨hleft, hdepth⟩ => ?_
      rcases hdue with rfl | hdue
      · exact absurd hleft (Nat.lt_irrefl 0)
      · exact absurd hdepth (Nat.not_le_of_lt hdue)
    | cons s' before =>
      obtain ⟨rfl, hrest⟩ := List.cons.inj heq
      rw [ih hrest, List.countP_cons_of_neg Bool.false_ne_true]

theorem thrifty (h : Spends Store.displayNodes first b) : Thrifty first := fun _ _ _ heq => h.shown_iff heq

end Spends

end Drawing

/-! ## Rendering, case by case -/

namespace Store

variable {σ : Store} {path : List RecordId} {t : Term} {v : Value} {bound left : Nat}

theorem render_name {x : VarId} (ht : σ.resolve t = .var x) : σ.render bound path left t = (varName x, left) := by
  cases bound <;> simp only [render, ht]

/-- When nothing may be spent any more, or the value is inside too many records, dots stand for it. -/
theorem render_elided (ht : σ.resolve t = .val v) (hleft : left ≤ bound) (hdue : left = 0 ∨ displayDepth < path.length) :
    σ.render bound path left t = ("...", left) := by
  cases bound with
  | zero => simp only [render, ht]
  | succ bound => simp only [render, ht, if_pos hdue]

/-- While values may be shown, what is rendered depends on the kind of the value. -/
theorem render_shown (ht : σ.resolve t = .val v) (hdepth : path.length ≤ displayDepth) :
    σ.render (bound + 1) path (left + 1) t =
      match v with
      | .record r =>
        if r ∈ path then ("<cycle>", left)
        else renderRecord (fun left t => σ.render bound (r :: path) left t) (σ.record r) left
      | .failed f =>
        ("<failed " ++ (σ.render bound path left (.val (σ.failure f).error)).1 ++ ">",
          (σ.render bound path left (.val (σ.failure f).error)).2)
      | v => (v.atomText?.getD "", left) := by
  have hdue : ¬ (left + 1 = 0 ∨ displayDepth < path.length) := by omega
  simp only [render, ht, if_neg hdue, List.contains_iff_mem, Nat.add_sub_cancel]
  cases v <;> rfl

theorem render_atom {text : String} (ht : σ.resolve t = .val v) (hatom : v.atomText? = some text)
    (hdepth : path.length ≤ displayDepth) : σ.render (bound + 1) path (left + 1) t = (text, left) := by
  rw [render_shown ht hdepth]
  cases v with
  | record | failed => cases hatom
  | lit | num | obj | proc | config =>
    obtain rfl := Option.some.inj hatom
    rfl

/-- A record that is on the path is drawn as a cycle. -/
theorem render_cycle {r : RecordId} (ht : σ.resolve t = .val (.record r)) (hdepth : path.length ≤ displayDepth)
    (hr : r ∈ path) : σ.render (bound + 1) path (left + 1) t = ("<cycle>", left) := by
  rw [render_shown ht hdepth]
  exact if_pos hr

/-- A record that is not on the path is drawn by drawing its fields, with the record put on the path. -/
theorem render_record {r : RecordId} (ht : σ.resolve t = .val (.record r)) (hdepth : path.length ≤ displayDepth)
    (hr : r ∉ path) : σ.render (bound + 1) path (left + 1) t =
      renderRecord (fun left t => σ.render bound (r :: path) left t) (σ.record r) left := by
  rw [render_shown ht hdepth]
  exact if_neg hr

/-- A failed value is shown with the error inside it. -/
theorem render_failed {f : FailureId} (ht : σ.resolve t = .val (.failed f)) (hdepth : path.length ≤ displayDepth) :
    σ.render (bound + 1) path (left + 1) t =
      ("<failed " ++ (σ.render bound path left (.val (σ.failure f).error)).1 ++ ">",
        (σ.render bound path left (.val (σ.failure f).error)).2) :=
  render_shown ht hdepth

/-! ## Every text is that of a drawing -/

/-- All records of `path` hold the value of the term. -/
def Encloses (σ : Store) (path : List RecordId) (t : Term) : Prop :=
  ∀ r ∈ path, ∀ v, σ.resolve t = .val v → TransGen σ.Holds (.record r) v

/-- The records of the path hold the fields of the innermost one, and so does that record itself. -/
theorem Encloses.field {r : RecordId} {f : Field} (h : σ.Encloses path t) (hr : σ.resolve t = .val (.record r))
    (hf : f ∈ (σ.record r).fields) : σ.Encloses (r :: path) f.value := by
  intro q hq v hv
  rcases List.mem_cons.mp hq with rfl | hq
  · exact .single (.field hf hv)
  · exact (h q hq _ hr).tail (.field hf hv)

/-- They also hold the error of a failed value. -/
theorem Encloses.error {f : FailureId} (h : σ.Encloses path t) (hf : σ.resolve t = .val (.failed f)) :
    σ.Encloses path (.val (σ.failure f).error) := by
  intro q hq v hv
  obtain rfl := Term.val.inj hv
  exact (h q hq _ hf).tail (.error f)

/-- A text and what is left to be spent after it are those of a drawing of the term. -/
def Draws (σ : Store) (path : List RecordId) (t : Term) (left : Nat) (result : String × Nat) : Prop :=
  ∃ d : Drawing, result.1 = d.text σ ∧ d.Depicts σ path t ∧ Drawing.Spends left (d.spots path.length) result.2

theorem Draws.le {result : String × Nat} (h : σ.Draws path t left result) : result.2 ≤ left := by
  obtain ⟨d, -, -, hspends⟩ := h
  exact hspends.le

/-- The texts of fields are those of drawings of their values. -/
theorem renderFields_draws {render : Nat → Term → String × Nat} (isTuple : Bool) {fields : List Field}
    (h : ∀ f ∈ fields, ∀ left ≤ bound, σ.Draws path f.value left (render left f.value)) (hleft : left ≤ bound) :
    ∃ ds, (renderFields render isTuple fields left).1 = fieldTexts isTuple fields (Drawing.texts σ ds) ∧
      Drawing.DepictAll σ path fields ds ∧
      Drawing.Spends left (Drawing.allSpots path.length ds) (renderFields render isTuple fields left).2 := by
  induction fields generalizing left with
  | nil => exact ⟨[], rfl, trivial, .done left⟩
  | cons f fields ih =>
    obtain ⟨d, htext, hdepicts, hspends⟩ := h f List.mem_cons_self left hleft
    obtain ⟨ds, htexts, hall, hrest⟩ := ih (fun g hg => h g (List.mem_cons_of_mem _ hg)) (hspends.le.trans hleft)
    refine ⟨d :: ds, ?_, ⟨hdepicts, hall⟩, hspends.append hrest⟩
    simp only [renderFields, htext, htexts, Drawing.texts, fieldTexts, List.zipWith_cons_cons]

theorem renderRecord_fst {render : Nat → Term → String × Nat} {r : Record} {texts : List String}
    (h : (renderFields render r.isTuple r.fields left).1 = fieldTexts r.isTuple r.fields texts) :
    (renderRecord render r left).1 = r.textOf texts := by
  rw [renderRecord, Record.textOf, ← h]

/-- **Every rendering is a drawing** of its term that spends what it has on the first values in reading order. -/
theorem render_draws (hleft : left ≤ bound) (h : σ.Encloses path t) :
    σ.Draws path t left (σ.render bound path left t) := by
  -- on the bound: with none left everything but a variable is elided
  induction bound generalizing path left t with
  | zero =>
    rcases ht : σ.resolve t with v | x
    · have hnone := Nat.le_zero.mp hleft
      rw [render_elided ht hleft (.inl hnone)]
      exact ⟨.elided, rfl, ⟨v, ht⟩, .elided (.inl hnone) (.done left)⟩
    · rw [render_name ht]
      exact ⟨.name x, rfl, ht, .done left⟩
  | succ bound ih =>
    rcases ht : σ.resolve t with v | x
    · by_cases hdue : left = 0 ∨ displayDepth < path.length
      -- nothing left to spend, or too deep
      · rw [render_elided ht hleft hdue]
        exact ⟨.elided, rfl, ⟨v, ht⟩, .elided hdue (.done left)⟩
      obtain ⟨left, rfl⟩ := Nat.exists_eq_succ_of_ne_zero fun h => hdue (.inl h)
      have hdepth : path.length ≤ displayDepth := Nat.le_of_not_lt fun h => hdue (.inr h)
      have hbound : left ≤ bound := Nat.le_of_succ_le_succ hleft
      rcases hatom : v.atomText? with _ | text
      · cases v with
        | lit | num | obj | proc | config => cases hatom
        | record r =>
          by_cases hr : r ∈ path
          -- the record is on the path, or its fields are drawn behind it
          · rw [render_cycle ht hdepth hr]
            exact ⟨.cycle, rfl, ⟨r, hr, ht, h r hr _ ht⟩, .shown hdepth (.done left)⟩
          · rw [render_record ht hdepth hr]
            obtain ⟨ds, htexts, hall, hspends⟩ := renderFields_draws (σ.record r).isTuple
              (fun f hf left hleft => ih hleft (h.field ht hf)) hbound
            exact ⟨.record r ds, renderRecord_fst htexts, ⟨ht, hr, hall⟩, .shown hdepth hspends⟩
        | failed f =>
          rw [render_failed ht hdepth]
          obtain ⟨d, htext, hdepicts, hspends⟩ := ih hbound (h.error ht)
          refine ⟨.failed f d, ?_, ⟨ht, hdepicts⟩, .shown hdepth hspends⟩
          rw [htext, Drawing.text]
      · rw [render_atom ht hatom hdepth]
        exact ⟨.atom text, rfl, ⟨v, ht, hatom⟩, .shown hdepth (.done left)⟩
    · rw [render_name ht]
      exact ⟨.name x, rfl, ht, .done left⟩

/-! ## The bound on the nesting is never reached -/

/-- To render fields alike it is enough to render their values alike, however much is left when they are reached. -/
theorem renderFields_congr {render render' : Nat → Term → String × Nat} (isTuple : Bool) {fields : List Field}
    (h : ∀ f ∈ fields, ∀ left ≤ bound, render left f.value = render' left f.value ∧ (render left f.value).2 ≤ left)
    (hleft : left ≤ bound) : renderFields render isTuple fields left = renderFields render' isTuple fields left := by
  induction fields generalizing left with
  | nil => rfl
  | cons f fields ih =>
    obtain ⟨heq, hle⟩ := h f List.mem_cons_self left hleft
    rw [renderFields, renderFields, ← heq]
    simp only [ih (fun g hg => h g (List.mem_cons_of_mem _ hg)) (hle.trans hleft)]

/-- **A rendering ends by itself**: any two bounds on its nesting that leave room for the values that may be shown make
no difference. -/
theorem render_bound {bound' : Nat} (hleft : left ≤ bound) (hleft' : left ≤ bound') (h : σ.Encloses path t) :
    σ.render bound path left t = σ.render bound' path left t := by
  -- both bounds are enough for what is left, and what is left decides
  induction bound generalizing bound' path left t with
  | zero =>
    rcases ht : σ.resolve t with v | x
    · have hnone := Nat.le_zero.mp hleft
      rw [render_elided ht hleft (.inl hnone), render_elided ht hleft' (.inl hnone)]
    · rw [render_name ht, render_name ht]
  | succ bound ih =>
    rcases ht : σ.resolve t with v | x
    · by_cases hdue : left = 0 ∨ displayDepth < path.length
      · rw [render_elided ht hleft hdue, render_elided ht hleft' hdue]
      obtain ⟨left, rfl⟩ := Nat.exists_eq_succ_of_ne_zero fun h => hdue (.inl h)
      obtain ⟨bound', rfl⟩ := Nat.exists_eq_succ_of_ne_zero fun h : bound' = 0 => absurd hleft' (by omega)
      have hdepth : path.length ≤ displayDepth := Nat.le_of_not_lt fun h => hdue (.inr h)
      have hbound : left ≤ bound := Nat.le_of_succ_le_succ hleft
      have hbound' : left ≤ bound' := Nat.le_of_succ_le_succ hleft'
      rw [render_shown ht hdepth, render_shown ht hdepth]
      cases v with
      | lit | num | obj | proc | config => rfl
      | record r =>
        -- the fields are drawn with what the ones before them left, on either bound alike
        have hvalues : ∀ f ∈ (σ.record r).fields, ∀ rest ≤ left,
            σ.render bound (r :: path) rest f.value = σ.render bound' (r :: path) rest f.value ∧
              (σ.render bound (r :: path) rest f.value).2 ≤ rest := fun f hf rest hrest =>
          ⟨ih (hrest.trans hbound) (hrest.trans hbound') (h.field ht hf),
            (render_draws (hrest.trans hbound) (h.field ht hf)).le⟩
        simp only [renderRecord, renderFields_congr _ hvalues (Nat.le_refl left)]
      | failed f => simp only [ih hbound hbound' (h.error ht)]
    · rw [render_name ht, render_name ht]

end Store

/-! ## Drawings that show everything -/

namespace Drawing

variable {σ : Store}

/-- What depicts a term depicts every term that resolves to the same. -/
theorem Depicts.congr {path : List RecordId} {t u : Term} {d : Drawing} (h : d.Depicts σ path t)
    (htu : σ.resolve t = σ.resolve u) : d.Depicts σ path u := by
  cases d <;> simpa only [Depicts, htu] using h

mutual

/-- A term has at most one drawing that shows everything. -/
theorem Unabridged.unique {path : List RecordId} {t : Term} {d d' : Drawing} (hd : d.Unabridged)
    (hd' : d'.Unabridged) (h : d.Depicts σ path t) (h' : d'.Depicts σ path t) : d = d' := by
  -- two drawings of one term are of one kind, since the term stands for one thing
  cases d with
  | elided | cycle => exact hd.elim
  | name x =>
    cases d' with
    | elided | cycle => exact hd'.elim
    | name y =>
      cases h.symm.trans h'
      rfl
    | atom text =>
      obtain ⟨v, hv, -⟩ := h'
      cases h.symm.trans hv
    | record r ds => cases h.symm.trans h'.1
    | failed f e => cases h.symm.trans h'.1
  | atom text =>
    obtain ⟨v, hv, htext⟩ := h
    cases d' with
    | elided | cycle => exact hd'.elim
    | name y => cases hv.symm.trans h'
    | atom text' =>
      obtain ⟨w, hw, htext'⟩ := h'
      cases hv.symm.trans hw
      cases htext.symm.trans htext'
      rfl
    | record r ds =>
      cases hv.symm.trans h'.1
      cases htext
    | failed f e =>
      cases hv.symm.trans h'.1
      cases htext
  | record r ds =>
    cases d' with
    | elided | cycle => exact hd'.elim
    | name y => cases h.1.symm.trans h'
    | atom text =>
      obtain ⟨v, hv, htext⟩ := h'
      cases h.1.symm.trans hv
      cases htext
    | record r' ds' =>
      cases h.1.symm.trans h'.1
      rw [AllUnabridged.unique hd hd' h.2.2 h'.2.2]
    | failed f e => cases h.1.symm.trans h'.1
  | failed f e =>
    cases d' with
    | elided | cycle => exact hd'.elim
    | name y => cases h.1.symm.trans h'
    | atom text =>
      obtain ⟨v, hv, htext⟩ := h'
      cases h.1.symm.trans hv
      cases htext
    | record r ds => cases h.1.symm.trans h'.1
    | failed f' e' =>
      cases h.1.symm.trans h'.1
      have he : e.Unabridged := hd
      have he' : e'.Unabridged := hd'
      rw [he.unique he' h.2 h'.2]

/-- There is one unabridged drawing of a list of fields. -/
theorem AllUnabridged.unique {path : List RecordId} {fields : List Field} {ds ds' : List Drawing}
    (hds : AllUnabridged ds) (hds' : AllUnabridged ds') (h : DepictAll σ path fields ds)
    (h' : DepictAll σ path fields ds') : ds = ds' := by
  -- on the fields; a list of drawings of another length does not depict them
  cases fields with
  | nil =>
    cases ds with
    | nil =>
      cases ds' with
      | nil => rfl
      | cons => exact h'.elim
    | cons => exact h.elim
  | cons f fields =>
    cases ds with
    | nil => exact h.elim
    | cons d ds =>
      cases ds' with
      | nil => exact h'.elim
      | cons d' ds' =>
        rw [Unabridged.unique hds.1 hds'.1 h.1 h'.1, AllUnabridged.unique hds.2 hds'.2 h.2 h'.2]

end

end Drawing

namespace Store

variable {σ : Store} {path : List RecordId} {t : Term} {v : Value} {bound left : Nat}

/-- The parts of a record that holds none of the records around it have drawings, if all that it holds have. -/
theorem exists_unabridged_parts {fields : List Field}
    (h : ∀ f ∈ fields, ∃ d : Drawing, d.Unabridged ∧ d.Depicts σ path f.value) :
    ∃ ds, Drawing.AllUnabridged ds ∧ Drawing.DepictAll σ path fields ds := by
  induction fields with
  | nil => exact ⟨[], trivial, trivial⟩
  | cons f fields ih =>
    obtain ⟨d, hd, hdepicts⟩ := h f List.mem_cons_self
    obtain ⟨ds, hds, hall⟩ := ih fun g hg => h g (List.mem_cons_of_mem _ hg)
    exact ⟨d :: ds, ⟨hd, hds⟩, hdepicts, hall⟩

/-- An acyclic value has a drawing that shows everything, inside any records that it does not hold. -/
theorem exists_unabridged_val (h : σ.Acyclic (.val v)) (hpath : ∀ r ∈ path, ¬ ReflTransGen σ.Holds v (.record r)) :
    ∃ d : Drawing, d.Unabridged ∧ d.Depicts σ path (.val v) := by
  have hacc := h.accessible
  -- the values that a value holds come before it in the order of the accessible part
  induction hacc generalizing path with
  | intro v _ ih =>
    have hheld : ∀ w, σ.Holds v w → ∀ r ∈ path, ¬ ReflTransGen σ.Holds w (.record r) := fun w hw r hr hwr =>
      hpath r hr (.head hw hwr)
    rcases hatom : v.atomText? with _ | text
    · cases v with
      | lit | num | obj | proc | config => cases hatom
      | record r =>
        have hr : r ∉ path := fun hr => hpath r hr .refl
        -- each field has a drawing that stays off the path with the record on it
        have hparts : ∀ f ∈ (σ.record r).fields, ∃ d : Drawing, d.Unabridged ∧ d.Depicts σ (r :: path) f.value := by
          intro f hf
          rcases hv : σ.resolve f.value with w | x
          · have hholds : σ.Holds (.record r) w := .field hf hv
            have houtside : ∀ q ∈ r :: path, ¬ ReflTransGen σ.Holds w (.record q) := by
              intro q hq
              rcases List.mem_cons.mp hq with rfl | hq
              · exact fun hwq => h.not_holds_self (.head' hholds hwq)
              · exact hheld w hholds q hq
            obtain ⟨d, hd, hdepicts⟩ := ih w hholds (h.of_holds hholds) houtside
            exact ⟨d, hd, hdepicts.congr hv.symm⟩
          · exact ⟨.name x, trivial, hv⟩
        obtain ⟨ds, hds, hall⟩ := exists_unabridged_parts hparts
        exact ⟨.record r ds, hds, rfl, hr, hall⟩
      | failed f =>
        have hholds := Holds.error (σ := σ) f
        obtain ⟨d, hd, hdepicts⟩ := ih _ hholds (h.of_holds hholds) (hheld _ hholds)
        exact ⟨.failed f d, hd, rfl, hdepicts⟩
    · exact ⟨.atom text, trivial, v, rfl, hatom⟩

/-- An acyclic term has a drawing without an omission. -/
theorem exists_unabridged (h : σ.Acyclic t) : ∃ d : Drawing, d.Unabridged ∧ d.Depicts σ [] t := by
  rcases ht : σ.resolve t with v | x
  · have hoff : ∀ r ∈ ([] : List RecordId), ¬ ReflTransGen σ.Holds v (.record r) := fun r hr =>
      absurd hr List.not_mem_nil
    obtain ⟨d, hd, hdepicts⟩ := exists_unabridged_val (h.of_resolve ht) hoff
    exact ⟨d, hd, hdepicts.congr ht.symm⟩
  · exact ⟨.name x, trivial, ht⟩

/-! ## Drawings within the bounds -/

/-- No more than `left` values are to be shown, and none of them inside too many records. -/
structure InBounds (spots : List Drawing.Spot) (left : Nat) : Prop where
  count : spots.length ≤ left
  depth : ∀ s ∈ spots, s.depth ≤ displayDepth

/-- The first values that are shown are within the bounds. -/
theorem InBounds.head {first second : List Drawing.Spot} (h : InBounds (first ++ second) left) :
    InBounds first left where
  count := by
    have := h.count
    rw [List.length_append] at this
    omega
  depth s hs := h.depth s (List.mem_append_left _ hs)

/-- The others are within what is left by them. -/
theorem InBounds.tail {first second : List Drawing.Spot} (h : InBounds (first ++ second) left) :
    InBounds second (left - first.length) where
  count := by
    have := h.count
    rw [List.length_append] at this
    omega
  depth s hs := h.depth s (List.mem_append_right _ hs)

theorem InBounds.rest {s : Drawing.Spot} {spots : List Drawing.Spot} (h : InBounds (s :: spots) (left + 1)) :
    InBounds spots left where
  count := Nat.le_of_succ_le_succ h.count
  depth s hs := h.depth s (List.mem_cons_of_mem _ hs)

/-- The fields of a record whose parts are within the bounds are rendered in full. -/
theorem renderFields_unabridged {render : Nat → Term → String × Nat} (isTuple : Bool) {fields : List Field}
    (h : ∀ f ∈ fields, ∀ d : Drawing, d.Unabridged → d.Depicts σ path f.value → ∀ left ≤ bound,
      InBounds (d.spots path.length) left → render left f.value = (d.text σ, left - (d.spots path.length).length))
    {ds : List Drawing} (hds : Drawing.AllUnabridged ds) (hall : Drawing.DepictAll σ path fields ds) (hleft : left ≤ bound)
    (hfits : InBounds (Drawing.allSpots path.length ds) left) :
    renderFields render isTuple fields left =
      (fieldTexts isTuple fields (Drawing.texts σ ds), left - (Drawing.allSpots path.length ds).length) := by
  -- along the fields, each starting with what the ones before it left
  induction fields generalizing ds left with
  | nil =>
    cases ds with
    | nil => rfl
    | cons => exact hall.elim
  | cons f fields ih =>
    cases ds with
    | nil => exact hall.elim
    | cons d ds =>
      have hfirst := h f List.mem_cons_self d hds.1 hall.1 left hleft hfits.head
      have hrest := ih (fun g hg => h g (List.mem_cons_of_mem _ hg)) hds.2 hall.2
        ((Nat.sub_le left (d.spots path.length).length).trans hleft) hfits.tail
      simp only [renderFields, hfirst, hrest, Drawing.texts, fieldTexts, List.zipWith_cons_cons, Drawing.allSpots,
        List.length_append, Nat.sub_sub]

/-- **A drawing that shows everything and is within the bounds** is what is rendered. -/
theorem render_unabridged {d : Drawing} (hd : d.Unabridged) (h : d.Depicts σ path t) (hleft : left ≤ bound)
    (hfits : InBounds (d.spots path.length) left) :
    σ.render bound path left t = (d.text σ, left - (d.spots path.length).length) := by
  induction bound generalizing path left t d with
  | zero =>
    -- nothing may be spent, and only a name is drawn without spending
    have hcount := hfits.count
    cases d with
    | elided | cycle => exact hd.elim
    | name x => exact render_name h
    | atom | record | failed => exact absurd (hcount.trans hleft) (Nat.not_succ_le_zero _)
  | succ bound ih =>
    have hcount := hfits.count
    cases d with
    | elided | cycle => exact hd.elim
    | name x => exact render_name h
    | atom text =>
      obtain ⟨v, hv, hatom⟩ := h
      obtain ⟨left, rfl⟩ := Nat.exists_eq_add_one.mpr (Nat.zero_lt_of_lt hcount)
      exact render_atom hv hatom (hfits.depth _ List.mem_cons_self)
    | record r ds =>
      obtain ⟨hr, houtside, hall⟩ := h
      obtain ⟨left, rfl⟩ := Nat.exists_eq_add_one.mpr (Nat.zero_lt_of_lt hcount)
      have hparts := renderFields_unabridged (σ.record r).isTuple
        (fun f hf d hd hdepicts left hleft hfits => ih hd hdepicts hleft hfits) hd hall
        (Nat.le_of_succ_le_succ hleft) hfits.rest
      rw [render_record hr (hfits.depth _ List.mem_cons_self) houtside]
      simp only [renderRecord, hparts, Drawing.text, Record.textOf, Drawing.spots, List.length_cons,
        Nat.add_sub_add_right]
    | failed f e =>
      obtain ⟨hf, herror⟩ := h
      obtain ⟨left, rfl⟩ := Nat.exists_eq_add_one.mpr (Nat.zero_lt_of_lt hcount)
      have he : e.Unabridged := hd
      rw [render_failed hf (hfits.depth _ List.mem_cons_self),
        ih he herror (Nat.le_of_succ_le_succ hleft) hfits.rest]
      simp only [Drawing.text, Drawing.spots, List.length_cons, Nat.add_sub_add_right]

/-! ## The text of a term -/

/-- **The text of a term is bounded and faithful.** No bound on the nesting of the rendering is ever reached. The text is
that of a drawing which shows a record nowhere inside itself, marks a cycle only at a record that holds itself, shows at
most 256 values and elides exactly those that come after these or are inside more than 32 records. What an acyclic term
is made of has exactly one drawing, with what is shared drawn again at each place, and if this drawing is within the
bounds, then the text is that of this drawing. -/
theorem termText_faithful (σ : Store) (t : Term) :
    (∀ bound, displayNodes ≤ bound → (σ.render bound [] displayNodes t).1 = σ.termText t) ∧
    (∃ d : Drawing, σ.termText t = d.text σ ∧ d.Depicts σ [] t ∧ (d.spots 0).countP Drawing.Spot.shown ≤ displayNodes ∧
      Drawing.Thrifty (d.spots 0)) ∧
    (σ.Acyclic t → ∃! d : Drawing, d.Unabridged ∧ d.Depicts σ [] t) ∧
    ∀ d : Drawing, d.Unabridged → d.Depicts σ [] t → InBounds (d.spots 0) displayNodes → σ.termText t = d.text σ := by
  have houter : σ.Encloses [] t := fun r hr => absurd hr List.not_mem_nil
  refine ⟨fun bound hbound => ?_, ?_, fun h => ?_, fun d hd hdepicts hfits => ?_⟩
  · rw [termText, render_bound hbound (Nat.le_refl _) houter]
  · obtain ⟨d, htext, hdepicts, hspends⟩ := render_draws (Nat.le_refl displayNodes) houter
    refine ⟨d, htext, hdepicts, ?_, hspends.thrifty⟩
    have hcount : (d.spots 0).countP Drawing.Spot.shown + _ = displayNodes := hspends.count
    omega
  · obtain ⟨d, hd, hdepicts⟩ := exists_unabridged h
    exact ⟨d, ⟨hd, hdepicts⟩, fun d' h' => h'.1.unique hd h'.2 hdepicts⟩
  · rw [termText, render_unabridged hd hdepicts (Nat.le_refl _) hfits]

/-- A record that is the value of two fields of another one, of one of them through a variable. -/
def sharing : Store where
  vars := #[.bound (.record 0), .unbound []]
  records := #[
    { label := .null, fields := [⟨.str "a", .val (.lit (.bool true))⟩] },
    { label := .null, fields := [⟨.str "l", .val (.record 0)⟩, ⟨.str "r", .var 0⟩, ⟨.str "x", .var 1⟩] }]

theorem sharing_resolve_zero : sharing.resolve (.var 0) = .val (.record 0) := resolveVar_of_getElem? rfl

theorem sharing_resolve_one : sharing.resolve (.var 1) = .var 1 := Unbound.resolveVar ⟨[], rfl⟩

/-- In the sharing store nothing contains itself: the first record contains a literal, and the second contains the first. -/
theorem sharing_acyclic : sharing.Acyclic (.val (.record 1)) := by
  refine acyclic_of_descent (fun | .record r => r + 1 | .failed _ => 1 | _ => 0) fun v w hw => ?_
  rcases hw with @⟨r, f, w, hf, hw⟩ | ⟨f⟩
  · match r with
    | 0 =>
      obtain rfl := List.mem_singleton.mp hf
      cases hw
      decide
    | 1 =>
      -- the fields of the second record, one by one
      have hfields : f ∈ [⟨.str "l", .val (.record 0)⟩, ⟨.str "r", .var 0⟩, ⟨.str "x", .var 1⟩] := hf
      simp only [List.mem_cons, List.not_mem_nil, or_false] at hfields
      rcases hfields with rfl | rfl | rfl
      · cases hw
        decide
      · cases sharing_resolve_zero.symm.trans hw
        decide
      · cases sharing_resolve_one.symm.trans hw
    | r + 2 => exact absurd hf List.not_mem_nil
  · exact Nat.one_pos

/-- A record that is contained twice is drawn twice, and the text shows it twice. -/
theorem termText_faithful_sharing :
    let part : Drawing := .record 0 [.atom "true"]
    let d : Drawing := .record 1 [part, part, .name 1]
    sharing.Acyclic (.val (.record 1)) ∧ d.Unabridged ∧ d.Depicts sharing [] (.val (.record 1)) ∧
      InBounds (d.spots 0) displayNodes ∧ (∃! d : Drawing, d.Unabridged ∧ d.Depicts sharing [] (.val (.record 1))) ∧
      sharing.termText (.val (.record 1)) = "\x7bl: \x7ba: true\x7d, r: \x7ba: true\x7d, x: _v1\x7d" := by
  intro part d
  have hatom : Drawing.DepictAll sharing [0, 1] (sharing.record 0).fields [.atom "true"] := ⟨⟨_, rfl, rfl⟩, trivial⟩
  have hd : d.Unabridged := ⟨⟨trivial, trivial⟩, ⟨trivial, trivial⟩, trivial, trivial⟩
  have hdepicts : d.Depicts sharing [] (.val (.record 1)) :=
    ⟨rfl, List.not_mem_nil, ⟨rfl, by decide, hatom⟩, ⟨sharing_resolve_zero, by decide, hatom⟩, sharing_resolve_one, trivial⟩
  have hfits : InBounds (d.spots 0) displayNodes := ⟨by decide, by decide⟩
  obtain ⟨-, -, hunique, htext⟩ := termText_faithful sharing (.val (.record 1))
  exact ⟨sharing_acyclic, hd, hdepicts, hfits, hunique sharing_acyclic, (htext d hd hdepicts hfits).trans (by decide)⟩

end Store

end Dataflow
