/-
The texts of values in faults.

A fault may carry the texts of the values that it is about, and a program that catches it gets them as a string. Texts of
values can be of any length, so what a fault carries of one is to be cut to 512 bytes, at the end of a character and with
three dots behind it (`Capped`). Two kinds of faults are made that way: that a feature is missing, and that two values are
in conflict. Three are not, and carry the whole text: that no branch of a `case` matches, that what is called is no
procedure, and that what an actor has for its handlers is no pair.

Nearly all that an instruction does can only raise faults that carry no text of a value, or conflicts (`Action.Terse`).
The others have four places: a `case`, a call, selecting, and reading the handlers of an actor.
-/
import Dataflow.Actor.Turn
import Dataflow.Proofs.Faulting
import Dataflow.Proofs.Patterns
import Dataflow.Proofs.UnificationRun
import Mathlib.Data.String.Basic

set_option autoImplicit false

namespace Dataflow

/-! ## Cut texts -/

theorem takeBytes_prefix (room : Nat) (cs : List Char) : takeBytes room cs <+: cs := by
  fun_induction takeBytes room cs with
  | case1 room => exact List.prefix_rfl
  | case2 room c cs hfits ih => exact (List.prefix_cons_inj c).mpr ih
  | case3 room c cs hlong => exact List.nil_prefix

/-- A cut text is not longer than the room that there is for it. -/
theorem utf8Len_takeBytes (room : Nat) (cs : List Char) : String.utf8Len (takeBytes room cs) ≤ room := by
  fun_induction takeBytes room cs with
  | case1 room => exact Nat.zero_le room
  | case2 room c cs hfits ih =>
    rw [String.utf8Len_cons]
    omega
  | case3 room c cs hlong => exact Nat.zero_le room

/-- Every beginning of a text that there is room for is a beginning of what is taken. -/
theorem prefix_takeBytes {room : Nat} {cs front : List Char} (h : front <+: cs) (hroom : String.utf8Len front ≤ room) :
    front <+: takeBytes room cs := by
  fun_induction takeBytes room cs generalizing front with
  | case1 room => exact h
  | case2 room c cs hfits ih =>
    cases front with
    | nil => exact List.nil_prefix
    | cons d front =>
      obtain ⟨rfl, hrest⟩ := List.cons_prefix_cons.mp h
      rw [String.utf8Len_cons] at hroom
      exact (List.prefix_cons_inj d).mpr (ih hrest (by omega))
  | case3 room c cs hlong =>
    cases front with
    | nil => exact List.nil_prefix
    | cons d front =>
      obtain ⟨rfl, -⟩ := List.cons_prefix_cons.mp h
      rw [String.utf8Len_cons] at hroom
      omega

/-- What a fault is to carry of a text: all of it, if it has at most 512 bytes, and otherwise its longest beginning with
so many bytes, and three dots. -/
inductive Capped (whole : String) : String → Prop where
  | all (h : whole.utf8ByteSize ≤ faultTextLimit) : Capped whole whole
  | cut {front : String} (h : faultTextLimit < whole.utf8ByteSize) (hfront : front.toList <+: whole.toList)
      (hsize : front.utf8ByteSize ≤ faultTextLimit)
      (hlongest : ∀ other : String, other.toList <+: whole.toList → other.utf8ByteSize ≤ faultTextLimit →
        other.toList <+: front.toList) : Capped whole (front ++ "...")

/-- **Cutting a text** leaves what a fault is to carry of it. -/
theorem capText_capped (s : String) : Capped s (capText s) := by
  by_cases h : s.utf8ByteSize ≤ faultTextLimit
  · rw [capText, if_pos h]
    exact .all h
  · rw [capText, if_neg h]
    refine .cut (Nat.lt_of_not_le h) ?_ ?_ fun other hother hsize => ?_
    · rw [String.toList_ofList]
      exact takeBytes_prefix _ _
    · rw [String.utf8ByteSize_ofList]
      exact utf8Len_takeBytes _ _
    · rw [String.toList_ofList]
      refine prefix_takeBytes hother ?_
      rwa [String.utf8Len_toList]

/-- A capped text is at most three bytes longer than the limit, for the dots. -/
theorem Capped.size_le {whole text : String} (h : Capped whole text) : text.utf8ByteSize ≤ faultTextLimit + 3 := by
  cases h with
  | all h => exact Nat.le_trans h (Nat.le_add_right _ _)
  | cut h hfront hsize =>
    rw [String.utf8ByteSize_append]
    exact Nat.add_le_add_right hsize 3

/-! ## What faults carry -/

/-- What a fault carries of the text of a value. -/
structure Quote where
  whole : String
  text : String

namespace Fault

/-- Whether the texts of values are cut when the fault is made. -/
def isCut : Fault → Bool
  | .featureNotFound .. | .bindConflict .. => true
  | _ => false

/-- What the fault carries of a text is either cut or whole, and it is capped unless it is whole and too long. -/
structure Renders (f : Fault) (q : Quote) : Prop where
  capped : f.isCut = true ∨ q.whole.utf8ByteSize ≤ faultTextLimit → Capped q.whole q.text
  whole : f.isCut = false → q.text = q.whole

/-- The fault carries no text of a value, or it is a conflict of two values in the store. -/
inductive Terse (σ : Store) : Fault → Prop where
  | silent {f : Fault} (h : f.Silent) : Terse σ f
  | conflict {v w : Value} (h : σ.Clash (.val v) (.val w)) : Terse σ (.conflict σ v w)

end Fault

/-- The fault of unification is the conflict in front of it. -/
theorem Store.unifyAll_conflict {room : Nat} {memo : PairMemo} {work : List (Term × Term)} {σ τ : Store} {f : Fault}
    (h : Store.unifyAll room memo work σ = (some f, τ)) :
    ∃ v w, f = .conflict τ v w ∧ τ.Clash (.val v) (.val w) := by
  fun_induction Store.unifyAll room memo work σ with
  | case1 | case6 => cases h
  | case2 room memo a b rest σ x y hb ha ih | case3 room memo a b rest σ x v hb ha ih
  | case4 room memo a b rest σ v x hb ha ih | case5 room memo a b rest σ r s hb ha hmem ih
  | case7 memo a b rest σ r s hb ha hmem _ _ hshape room ih | case9 room memo a b rest σ v w hne hb ha hsame ih =>
    exact ih (by simpa using h)
  | case8 room memo a b rest σ r s hb ha hmem _ _ hshape =>
    cases h
    exact ⟨_, _, rfl, .shape (fun heq => hmem (.inl heq)) hshape⟩
  | case10 room memo a b rest σ v w hne hb ha hsame =>
    cases h
    exact ⟨v, w, rfl, .atom (fun r s hr hs => hne r s hr hs) hsame⟩

theorem Store.unifyAll_terse {room : Nat} {memo : PairMemo} {work : List (Term × Term)} {σ τ : Store} {f : Fault}
    (h : Store.unifyAll room memo work σ = (some f, τ)) : f.Terse τ := by
  obtain ⟨v, w, rfl, hclash⟩ := Store.unifyAll_conflict h
  exact .conflict hclash

/-! ## Actions that raise terse faults -/

namespace Action

variable {α β : Type} {act : Action α}

/-- All faults of the action are terse in the store that it leaves. -/
def Terse (act : Action α) : Prop := ∀ σ f τ, act σ = .error (.fault f) τ → f.Terse τ

/-- Actions that raise terse faults only can be run one after the other. -/
theorem Terse.bind {g : α → Action β} (h : act.Terse) (hg : ∀ a, (∃ σ τ, act σ = .ok a τ) → (g a).Terse) :
    (act >>= g).Terse := by
  intro σ f τ heq
  rcases bind_eq_fault heq with heq | ⟨a, ρ, ha, heq⟩
  · exact h σ f τ heq
  · exact hg a ⟨σ, ρ, ha⟩ ρ f τ heq

theorem terse_ofChange {g : Store → Option Fault × Store} (h : ∀ σ f τ, g σ = (some f, τ) → f.Terse τ) :
    (ofChange g).Terse := by
  intro σ f τ heq
  rw [ofChange] at heq
  split at heq
  · cases heq
  · next hchange =>
    cases heq
    exact h σ f τ hchange

/-- Completing apart, only the steps that look for a reason to quote a value can raise a fault that is not terse. -/
theorem Step.terse {k : Kind} (h : Step k act) (hk : k ∉ [.text]) (hne : k ≠ .complete) : act.Terse := by
  -- the steps that can fault with a text are those that are excluded
  cases h with
  | missing x =>
    intro σ f τ heq
    cases heq
    exact .silent trivial
  | fault h =>
    intro σ f τ heq
    cases heq
    exact .silent h.silent
  | unify a b => exact terse_ofChange fun _ _ _ => Store.unifyAll_terse
  | bindVar x y =>
    refine terse_ofChange fun σ f τ hunify => ?_
    rw [Store.unifyVars] at hunify
    split at hunify
    · cases hunify
    · exact Store.unifyAll_terse hunify
  | component | noMatch | notAProc | mismatch => exact absurd (by decide) hk
  | complete => exact absurd rfl hne
  | _ => exact fun _ _ _ heq => by cases heq

theorem Composed.terse {K : List Kind} {Q : α → Prop} (h : act.Composed K Q) (hK : Kind.avoids K [.text] = true) :
    act.Terse :=
  h.holds_apart ⟨fun _ _ _ _ => nofun, Terse.bind⟩ hK rfl fun _ hk hne _ _ hs => hs.terse (of_decide_eq_true hk) hne

end Action

theorem Native.terse_call (ctx : Context) (env : Env) (n : Native) (args : List Operand) :
    (n.call ctx env args).Terse := (n.uses_call ctx env args).terse (by cases n <;> rfl)

/-- No call of a procedure quotes more than a terse fault does. -/
theorem Proc.terse_call (ctx : Context) (env : Env) (args : List Operand) (rest : Stack) (p : Proc) :
    (p.call ctx env args rest).Terse := by
  have huses := p.uses_call ctx env args rest
  cases p with
  | native n => exact huses.terse (by cases n <;> rfl)
  | closure | ofCell | ofActor | iter | actorMaker => exact huses.terse rfl

/-! ## The four places -/

/-- The instruction takes a component of what `record` stands for. -/
inductive Instr.Selects : Instr → (record feature : Operand) → Prop where
  | select (record feature : Operand) (x : Ident) : Selects (.select record feature x) record feature
  | selectApply (record feature : Operand) (args : List Operand) :
      Selects (.selectApply record feature args) record feature

/-- The text of what a feature is missing from; a record is not counted among the values that are shown. -/
def Store.holderText (σ : Store) : Value → String
  | .record r => σ.recordText r
  | v => σ.valueText v

/-- The texts of values that a terse fault carries, next to the texts of these values in the store. -/
inductive Fault.Quotes (τ : Store) : Fault → List Quote → Prop where
  | silent {f : Fault} (h : f.Silent) : Quotes τ f []
  | conflict {v w : Value} {a b : String} (h : τ.Clash (.val v) (.val w)) :
      Quotes τ (.bindConflict a b) [⟨τ.valueText v, a⟩, ⟨τ.valueText w, b⟩]

/-- The texts of values that a fault carries which an instruction has raised, next to the texts of these values in the
store that it has left. -/
inductive Instr.Quotes (env : Env) (σ τ : Store) : Instr → Fault → List Quote → Prop where
  | terse {instr : Instr} {f : Fault} {qs : List Quote} (h : f.Quotes τ qs) : Quotes env σ τ instr f qs
  | missing {instr : Instr} {record feature : Operand} {v w : Value} {g : Feature} {a b : String}
      (h : instr.Selects record feature) (hv : record.value env σ = .ok v σ) (hw : feature.value env σ = .ok w σ)
      (hg : w.toFeature = .ok g) :
      Quotes env σ τ instr (.featureNotFound a b) [⟨g.text, a⟩, ⟨τ.holderText v, b⟩]
  | noMatch {arg : Operand} {pattern : Pattern} {yes : Instr} {t : Term} {a : String} (h : arg.term env σ = .ok t σ) :
      Quotes env σ τ (.case arg pattern yes none) (.noMatch a) [⟨τ.termText t, a⟩]
  | notAProc {instr : Instr} {v : Value} {args : List Operand} {a : String} (h : instr.Calls env σ v args) :
      Quotes env σ τ instr (.notAProc a) [⟨τ.valueText v, a⟩]

/-- The texts of values that a fault carries which reading the handlers of an actor has raised. -/
inductive Handlers.Quotes (x : VarId) (τ : Store) : Fault → List Quote → Prop where
  | silent {f : Fault} (h : f.Silent) : Quotes x τ f []
  | shape {v : Value} {a : String} (h : τ.resolve (.var x) = .val v) :
      Quotes x τ (.typeMismatch "[ask, tell] handlers" a) [⟨τ.valueText v, a⟩]

/-- All texts of values that the fault carries are rendered as its kind of faults renders them. -/
def Fault.Reports (f : Fault) (quotes : Fault → List Quote → Prop) : Prop :=
  ∃ qs, quotes f qs ∧ ∀ q ∈ qs, f.Renders q

section Places

variable {ctx : Context} {env : Env} {rest : Stack} {instr : Instr} {σ τ : Store} {f : Fault} {s : String}

theorem Fault.Renders.of_cut (h : f.isCut = true) : f.Renders ⟨s, capText s⟩ :=
  ⟨fun _ => capText_capped s, fun hwhole => Bool.noConfusion (h.symm.trans hwhole)⟩

theorem Fault.Renders.of_whole (h : f.isCut = false) : f.Renders ⟨s, s⟩ :=
  ⟨fun hcapped => .all (hcapped.resolve_left fun hcut => Bool.noConfusion (h.symm.trans hcut)), fun _ => rfl⟩

/-- A terse fault carries no texts of values, or the cut texts of two. -/
theorem Fault.Terse.reports (h : f.Terse τ) : f.Reports (Fault.Quotes τ) := by
  cases h with
  | silent h => exact ⟨[], .silent h, fun q hq => absurd hq List.not_mem_nil⟩
  | conflict h =>
    exact ⟨_, .conflict h, List.forall_mem_cons.mpr ⟨.of_cut rfl, List.forall_mem_singleton.mpr (.of_cut rfl)⟩⟩

theorem Fault.Terse.reports_instr (h : f.Terse τ) : f.Reports (Instr.Quotes env σ τ instr) := by
  obtain ⟨qs, hquotes, hrenders⟩ := h.reports
  exact ⟨qs, .terse hquotes, hrenders⟩

/-- What goes wrong when something is selected is that the feature is missing. -/
theorem Store.select_fault {v : Value} {g : Feature} (h : σ.select v g = .error f) :
    f = .missingFeature g (σ.holderText v) := by
  unfold Store.select at h
  split at h
  · split at h <;> cases h
    rfl
  · split at h <;> cases h
    rfl
  -- anything but a record and an object has no features at all
  · next hrecord _ =>
    cases h
    cases v with
    | record r => exact absurd rfl (hrecord r)
    | lit | num | obj | proc | config | failed => rfl

/-- What goes wrong when one operand is selected from another is terse, or the feature is missing in the value. -/
theorem Env.select_fault {record feature : Operand} (h : env.select record feature σ = .error (.fault f) τ) :
    f.Terse τ ∨ ∃ v w g, record.value env σ = .ok v σ ∧ feature.value env σ = .ok w σ ∧ w.toFeature = .ok g ∧
      f = .missingFeature g (τ.holderText v) := by
  obtain hfault | ⟨v, hv, hnext⟩ := (record.looks_value env).bind_eq_fault h
  · exact .inl ((record.uses_value env).terse rfl σ f τ hfault)
  obtain hfault | ⟨w, hw, hlast⟩ := (feature.looks_value env).bind_eq_fault hnext
  · exact .inl ((feature.uses_value env).terse rfl σ f τ hfault)
  -- the second operand has to be a feature
  cases hg : w.toFeature with
  | error e =>
    rw [hg] at hlast
    cases hlast
    exact .inl (.silent (Value.plain_of_toFeature hg).silent)
  | ok g =>
    rw [hg] at hlast
    change Action.ofExcept (σ.select v g) σ = _ at hlast
    cases hselect : σ.select v g with
    | ok t =>
      rw [hselect] at hlast
      cases hlast
    | error e =>
      rw [hselect] at hlast
      cases hlast
      exact .inr ⟨v, w, g, hv, hw, hg, Store.select_fault hselect⟩

/-- What goes wrong in a call is terse, or the value is not a procedure. -/
theorem Value.call_fault {v : Value} {args : List Operand} (h : v.call ctx env args rest σ = .error (.fault f) τ) :
    f.Terse τ ∨ f = .notAProc (τ.valueText v) := by
  cases v with
  | proc p => exact .inl (p.terse_call ctx env args rest σ f τ h)
  | failed k =>
    cases h
    exact .inl (.silent trivial)
  | lit | num | record | obj | config =>
    cases h
    exact .inr rfl

/-- A fault of a selection is terse, or quotes the record and the feature. -/
theorem Env.select_reports {record feature : Operand} (hselects : instr.Selects record feature)
    (h : env.select record feature σ = .error (.fault f) τ) : f.Reports (Instr.Quotes env σ τ instr) := by
  obtain hterse | ⟨v, w, g, hv, hw, hg, rfl⟩ := Env.select_fault h
  · exact hterse.reports_instr
  · exact ⟨_, .missing hselects hv hw hg,
      List.forall_mem_cons.mpr ⟨.of_cut rfl, List.forall_mem_singleton.mpr (.of_cut rfl)⟩⟩

/-- A fault of a call is terse, or quotes the value that is no procedure. -/
theorem Value.call_reports {v : Value} {args : List Operand} (hcalls : instr.Calls env σ v args)
    (h : (v.call ctx env args rest >>= fun stack => pure (Flow.next stack)) σ = .error (.fault f) τ) :
    f.Reports (Instr.Quotes env σ τ instr) := by
  obtain hfault | ⟨stack, ρ, -, hlast⟩ := Action.bind_eq_fault h
  · obtain hterse | rfl := Value.call_fault hfault
    · exact hterse.reports_instr
    · exact ⟨_, .notAProc hcalls, List.forall_mem_singleton.mpr (.of_whole rfl)⟩
  · cases hlast

/-- **What a fault of an instruction carries of values.** -/
theorem Context.execute_reports (h : ctx.execute env rest instr σ = .error (.fault f) τ) :
    f.Reports (Instr.Quotes env σ τ instr) := by
  have hterse : Action.Kind.avoids instr.steps [.text] = true → f.Reports (Instr.Quotes env σ τ instr) := fun hsteps =>
    ((ctx.uses_execute env rest instr).terse hsteps σ f τ h).reports_instr
  cases instr with
  -- only these instructions quote a value in their faults
  | case arg pattern yes no =>
    obtain hfault | ⟨t, ht, hnext⟩ := (arg.looks_term env).bind_eq_fault h
    · exact ((arg.uses_term env).terse rfl σ f τ hfault).reports_instr
    obtain hfault | ⟨found, ρ, -, hlast⟩ := Action.bind_eq_fault hnext
    · exact ((Action.uses_matchTerm pattern t).terse rfl σ f τ hfault).reports_instr
    cases found with
    | some captures => cases hlast
    -- no branch is taken, so the value is quoted whole
    | none =>
      cases no with
      | some no => cases hlast
      | none =>
        cases hlast
        exact ⟨_, .noMatch ht, List.forall_mem_singleton.mpr (.of_whole rfl)⟩
  | apply proc args =>
    obtain hfault | ⟨v, hv, hnext⟩ := (proc.looks_value env).bind_eq_fault h
    · exact ((proc.uses_value env).terse rfl σ f τ hfault).reports_instr
    exact Value.call_reports (.apply hv) hnext
  | select record feature x =>
    obtain hfault | ⟨t, ρ, -, hnext⟩ := Action.bind_eq_fault h
    · exact Env.select_reports (.select record feature x) hfault
    -- a fault that comes after the selection quotes nothing
    · have huses : (env.var x >>= fun y => Action.unify (.var y) t >>= fun _ => pure (Flow.next rest)).Uses
          [.missing, .unify] :=
        (env.uses_var x).bind rfl fun y => Action.Step.bind (.unify _ t) rfl fun _ => Action.uses_pure _
      exact (huses.terse rfl ρ f τ hnext).reports_instr
  | selectApply record feature args =>
    obtain hfault | ⟨t, ht, hnext⟩ := (env.looks_select record feature).bind_eq_fault h
    · exact Env.select_reports (.selectApply record feature args) hfault
    obtain hfault | ⟨u, hu, hlast⟩ := (Action.looks_read _).bind_eq_fault hnext
    · cases hfault
    cases u with
    | var x => cases hlast
    | val v =>
      have hres : σ.resolve t = .val v := by injection hu
      exact Value.call_reports (.selectApply ht hres) hlast
  | _ => exact hterse rfl

end Places

/-! ## The handlers of an actor -/

section Handlers

variable {σ τ : Store} {t : Term} {v : Value} {f : Fault} {x : VarId}

/-- Asking whether a term is settled raises no fault. It waits. -/
theorem Action.settled_ne_fault : Action.settled t σ ≠ .error (.fault f) τ := by
  intro h
  obtain hfault | ⟨u, ρ, -, hnext⟩ := Action.bind_eq_fault h
  · cases hfault
  · cases u <;> cases hnext

/-- A settled value is what the term resolves to. -/
theorem Action.settled_eq_ok (h : Action.settled t σ = .ok v τ) : τ = σ ∧ σ.resolve t = .val v := by
  obtain ⟨u, ρ, hu, hlast⟩ := Action.bind_eq_ok h
  obtain rfl := (Action.looks_read _).of_ok hu
  have hres : ρ.resolve t = u := by injection hu
  cases u with
  | var x => cases hlast
  | val w =>
    cases hlast
    exact ⟨rfl, hres⟩

/-- A fault of reading the handlers carries no texts of values. -/
theorem Handlers.silent_of_read (h : Handlers.read t σ = .error (.fault f) τ) : f.Silent := by
  obtain hfault | ⟨v, ρ, -, hnext⟩ := Action.bind_eq_fault h
  · exact absurd hfault Action.settled_ne_fault
  · split at hnext <;> cases hnext
    exact ⟨_, rfl⟩

/-- What a fault of reading the handlers of an actor carries of values. -/
theorem Handlers.ofVar_reports (h : Handlers.ofVar x σ = .error (.fault f) τ) : f.Reports (Handlers.Quotes x τ) := by
  have hsilent : f.Silent → f.Reports (Handlers.Quotes x τ) := fun h =>
    ⟨[], .silent h, fun q hq => absurd hq List.not_mem_nil⟩
  obtain hfault | ⟨v, ρ, hv, hnext⟩ := Action.bind_eq_fault h
  · exact absurd hfault Action.settled_ne_fault
  obtain ⟨rfl, hres⟩ := Action.settled_eq_ok hv
  cases hr : v.asRecord with
  | error e =>
    rw [hr] at hnext
    cases hnext
    exact hsilent (Value.plain_of_asRecord hr).silent
  | ok r =>
    rw [hr] at hnext
    obtain hfault | ⟨q, -, hbody⟩ := (Action.looks_pure _).bind_eq_fault hnext
    · cases hfault
    obtain hfault | ⟨record, -, hlast⟩ := (Action.looks_read _).bind_eq_fault hbody
    · cases hfault
    match hb : record.isTuple, hf : record.fields with
    | true, [ask, tell] =>
      rw [hb, hf] at hlast
      obtain hfault | ⟨_, ρ, -, hread⟩ := Action.bind_eq_fault hlast
      · exact hsilent (Handlers.silent_of_read hfault)
      obtain hfault | ⟨_, ρ, -, hend⟩ := Action.bind_eq_fault hread
      · exact hsilent (Handlers.silent_of_read hfault)
      · cases hend
    -- anything else is not the shape of handlers
    | false, _ | true, [] | true, [_] | true, _ :: _ :: _ :: _ =>
      rw [hb, hf] at hlast
      cases hlast
      exact ⟨_, .shape hres, List.forall_mem_singleton.mpr (.of_whole rfl)⟩

end Handlers

/-! ## The texts of values in faults -/

/-- **What faults carry of values.** The text of each value that a fault of an instruction or of reading the handlers of an
actor carries is the text of the value that the fault is about, and it is capped if the fault is a missing feature or a
conflict; the other faults carry it whole, which is capped too if it has at most 512 bytes. Built-in procedures raise no
faults but conflicts and such that carry no text of a value. -/
theorem Fault.texts_of_values (ctx : Context) (env : Env) (σ τ : Store) (f : Fault) :
    (∀ (rest : Stack) (instr : Instr), ctx.execute env rest instr σ = .error (.fault f) τ →
      f.Reports (Instr.Quotes env σ τ instr)) ∧
    (∀ (n : Native) (args : List Operand), n.call ctx env args σ = .error (.fault f) τ → f.Reports (Fault.Quotes τ)) ∧
    ∀ x : VarId, Handlers.ofVar x σ = .error (.fault f) τ → f.Reports (Handlers.Quotes x τ) :=
  ⟨fun _ _ => Context.execute_reports, fun n args h => (n.terse_call ctx env args σ f τ h).reports,
    fun _ => Handlers.ofVar_reports⟩

section Strings

variable {ctx : Context} {env : Env} {rest : Stack} {yes : Instr} {s : String} {σ : Store}

/-- A string that a `case` without a branch for the rest does not match is in the fault as a whole. -/
theorem Context.execute_case_str : ctx.execute env rest (.case (.lit (.str s)) (.lit (.num (.int32 1))) yes none) σ =
    .error (.fault (.noMatch ("'" ++ escapeQuotes s ++ "'"))) σ := by
  have hs : σ.resolve (.val (.lit (.str s))) = .val (.lit (.str s)) := rfl
  have hentails : Action.entails (.val (.lit (.str s))) (.val (.num (.int32 1))) σ = .ok false σ :=
    Action.entails_scalar_of_val hs (.num (.int32 1))
  have hmatch : Action.matchTerm (.lit (.num (.int32 1))) (.val (.lit (.str s))) σ = .ok none σ := by
    simp only [Action.matchTerm, Pattern.test, Matcher.lift, Scalar.toValue, hentails]
  have hterm : (Operand.lit (.str s)).term env σ = .ok (.val (.lit (.str s))) σ := rfl
  rw [Context.execute, bind_apply, hterm]
  simp only [bind_apply, hmatch]
  rfl

/-- A string that no case matches is quoted in full, and is short enough to be within the limit all the same. -/
theorem Fault.texts_of_values_short :
    let ctx : Context := { owner := "main", resumer := .queue 0 }
    ctx.execute [] [] (.case (.lit (.str "hi")) (.lit (.num (.int32 1))) .skip none) {} =
        .error (.fault (.noMatch "'hi'")) {} ∧
      Capped (Store.valueText {} (.lit (.str "hi"))) "'hi'" := by
  intro ctx
  have hfault : ctx.execute [] [] (.case (.lit (.str "hi")) (.lit (.num (.int32 1))) .skip none) {} =
      .error (.fault (.noMatch "'hi'")) {} := Context.execute_case_str
  obtain ⟨qs, hquotes, hrenders⟩ := (Fault.texts_of_values ctx [] {} {} _).1 [] _ hfault
  refine ⟨hfault, ?_⟩
  cases hquotes with
  | terse hterse =>
    -- this fault does quote a value, and so is not silent
    cases hterse with
    | silent h => exact h.elim
  | noMatch ht =>
    cases ht
    exact (hrenders _ List.mem_cons_self).capped (.inr (by decide))

/-- A text without quotes has none to escape. -/
theorem escapeQuotes_of_not_mem (h : '\'' ∉ s.toList) : escapeQuotes s = s := by
  have hchar : ∀ c ∈ s.toList, (if c = '\'' then ['\\', '\''] else [c]) = [c] := by
    intro c hc
    refine if_neg ?_
    rintro rfl
    exact h hc
  rw [escapeQuotes, List.flatMap_congr hchar, List.flatMap_singleton', String.ofList_toList]

theorem utf8Len_replicate (n : Nat) (c : Char) : String.utf8Len (List.replicate n c) = n * c.utf8Size := by
  induction n with
  | zero => exact (Nat.zero_mul _).symm
  | succ n ih => rw [List.replicate_succ, String.utf8Len_cons, ih, Nat.succ_mul]

/-- A string of 600 letters is in the fault with its quotes, which is more than what a fault is to carry of any text. -/
theorem Fault.noMatch_uncapped :
    let ctx : Context := { owner := "main", resumer := .queue 0 }
    let s := String.ofList (List.replicate 600 'a')
    let text := Store.valueText {} (.lit (.str s))
    ctx.execute [] [] (.case (.lit (.str s)) (.lit (.num (.int32 1))) .skip none) {} =
      .error (.fault (.noMatch text)) {} ∧ text.utf8ByteSize = 602 ∧ ¬ Capped text text := by
  intro ctx s text
  -- there is nothing to escape in the letters
  have hs : escapeQuotes s = s := by
    refine escapeQuotes_of_not_mem fun h => ?_
    rw [String.toList_ofList] at h
    exact absurd (List.eq_of_mem_replicate h) (by decide)
  have hescaped : text = "'" ++ escapeQuotes s ++ "'" := rfl
  have htext : text = "'" ++ s ++ "'" := hescaped.trans (by rw [hs])
  have hlength : s.utf8ByteSize = 600 := by
    rw [String.utf8ByteSize_ofList, utf8Len_replicate]
    rfl
  have hsize : text.utf8ByteSize = 602 := by
    rw [htext, String.utf8ByteSize_append, String.utf8ByteSize_append, hlength]
    rfl
  refine ⟨?_, hsize, fun h => ?_⟩
  · rw [htext, Context.execute_case_str, hs]
  · have hle := h.size_le
    rw [hsize] at hle
    exact absurd hle (by decide)

end Strings

end Dataflow
