/-
Mirrors: one schedule as a part of what another one has led to.

Let a schedule have come to its end without a throw, and let none of its computations be stranded. Whatever another
schedule of the same computations does, each of its computations is then at some place of its course in that end. It can
go on along the course, or it has to wait, and at the end of the course it has to wait, too. It never throws. And while
it does so its store can be read in the store of that end: new variables, records and closures are read as those that
the computation has made there (`Mirrors.step`).
-/
import Dataflow.Proofs.Courses

set_option autoImplicit false

namespace Dataflow

/-- In `ω` the computation cannot go on: nothing is left to do, or it has to wait. -/
def Stack.Rests (ω : Store) (stack : Stack) : Prop :=
  stack = [] ∨ ∃ instr env rest, stack = .run instr env :: rest ∧ instr.Declarative ∧ instr.Waits ω env

/-- What has become of the computations in the end: their courses, which have made the closures of these names, lead to
stacks with which they cannot go on. -/
structure Settlement (σ ω : Store) (origin last : Nat → Stack) (names : Nat → List (Option ClosureId)) : Prop where
  closed : ω.Closed
  exact : ω.Exact
  course : ∀ i, Course ω (origin i) (names i) (last i)
  rests : ∀ i, (last i).Rests ω
  named : ∀ i c, some c ∈ names i → σ.closures.size ≤ c
  distinct : ∀ (i j k m : Nat) c, (names i)[k]? = some (some c) → (names j)[m]? = some (some c) → i = j ∧ k = m

namespace Reading

variable {φ ψ : Reading} {σ τ ω : Store}

/-- A computation that is read has no traps. -/
theorem Stacks.plain {s s' : Dataflow.Stack} (h : φ.Stacks σ ω s s') : s.Plain := by
  obtain ⟨-, -, hs⟩ := h
  induction hs with
  | nil => exact fun _ hf => absurd hf List.not_mem_nil
  | cons hf _ ih =>
    cases hf with
    | run instr henv => exact List.forall_mem_cons.mpr ⟨⟨_, _, rfl⟩, ih⟩

/-- The next instruction of a computation, and of the one that it is read as. -/
theorem Stacks.cases {instr : Instr} {env : Dataflow.Env} {rest s' : Dataflow.Stack}
    (h : φ.Stacks σ ω (.run instr env :: rest) s') :
    ∃ env' rest', s' = .run instr env' :: rest' ∧ φ.Scopes σ ω env env' ∧ φ.Stacks σ ω rest rest' := by
  obtain ⟨hin, htarget, hs⟩ := h
  obtain ⟨henvIn, hrestIn⟩ := List.forall_mem_cons.mp hin
  cases hs with
  | cons hf hrest =>
    cases hf with
    | @run _ _ env' henv =>
      obtain ⟨henvTarget, hrestTarget⟩ := List.forall_mem_cons.mp htarget
      exact ⟨env', _, rfl, ⟨henvIn, henvTarget, henv⟩, hrestIn, hrestTarget, hrest⟩

theorem Stacks.eq_nil_iff {s s' : Dataflow.Stack} (h : φ.Stacks σ ω s s') : s = [] ↔ s' = [] := by
  obtain ⟨-, -, hs⟩ := h
  cases hs with
  | nil => exact ⟨fun _ => rfl, fun _ => rfl⟩
  | cons => exact ⟨nofun, nofun⟩

/-- A change that a reading does not notice. -/
theorem Sound.goesOn_of_reads (hs : φ.Sound σ ω) (hreads : φ.Reads τ ω) (hgrows : σ.Grows τ) (hτ : τ.Closed)
    (hexact : τ.Exact) (hclosures : τ.closures = σ.closures) : φ.GoesOn σ ω none φ τ :=
  .of_closures_eq hgrows (.refl φ σ) ⟨hreads, hτ, hexact, hs.targetClosed, hs.targetExact⟩ hclosures

/-- A computation begins to wait. -/
theorem Sound.park (hs : φ.Sound σ ω) {x : Nat} (hx : σ.Unbound x) {k : Continuation} (hk : k.In σ) :
    φ.GoesOn σ ω none φ (σ.park x k) :=
  hs.goesOn_of_reads (hs.reads.park hx k) (Store.Precedes.park hs.closed hx hk).grows
    (Store.Step.closed (.var (.park hx hk)) hs.closed) (hs.exact.park hx k) rfl

/-- Woken computations are taken from the log. -/
theorem Sound.takeWakes (hs : φ.Sound σ ω) (queue : Nat) : φ.GoesOn σ ω none φ (σ.takeWakes queue).2 := by
  refine hs.goesOn_of_reads ?_ (Store.Precedes.takeWakes σ queue).grows
    (Store.Outside.closed (.takeWakes queue) hs.closed) (hs.exact.takeWakes queue) (by rw [Store.takeWakes_eq])
  rw [Store.takeWakes_eq]
  exact hs.reads.still (fun _ _ h => h) (fun _ _ h => h) rfl rfl

end Reading

namespace Stage

/-- The stage is read in `ω`: each computation is at the place of its course that it has come to. -/
structure Mirrors (φ : Reading) (σ ω : Store) (last : Nat → Stack) (names : Nat → List (Option ClosureId))
    (l : List Nat) (s : Stage) : Prop where
  sound : φ.Sound s.store ω
  grows : σ.Grows s.store
  agrees : Reading.self.Agrees φ σ
  count : ∀ i, l.count i ≤ (names i).length
  place : ∀ i, ∃ stack, φ.Stacks s.store ω (s.current i) stack ∧
    Course ω stack ((names i).drop (l.count i)) (last i)
  named : ∀ e : Nat, e < s.store.closures.size → e < σ.closures.size ∨
    ∃ i k, k < l.count i ∧ (names i)[k]? = some (some (φ.closure e))

variable {φ : Reading} {ctxs : Nat → Context} {code : CodeClass} {σ ω : Store} {origin last : Nat → Stack}
  {names : Nat → List (Option ClosureId)} {l l' : List Nat} {s s' : Stage} {i : Nat}

/-- At the start the pool mirrors its own stacks in the last store: every variable reads there what it has become. -/
theorem mirrors_start (hr : Settlement σ ω origin last names) (hσ : σ.Closed) (hexact : σ.Exact) (hσω : σ.Precedes ω)
    (hin : ∀ i, (origin i).In σ) (hplain : ∀ i, (origin i).Plain) :
    Mirrors .self σ ω last names [] ⟨σ, origin, fun _ => none⟩ where
  sound := .later hσω hσ hexact hr.closed hr.exact
  grows := .refl σ
  agrees := .refl _ σ
  count _ := Nat.zero_le _
  place i := by
    refine ⟨origin i, ⟨hin i, hσω.grows.stack (hin i), ?_⟩, hr.course i⟩
    refine List.forall₂_same.mpr fun f hf => ?_
    obtain ⟨instr, env, rfl⟩ := hplain i f hf
    exact .run instr (Reading.Scopes.later hσω.grows (hin i _ hf)).env
  named e he := .inl he

namespace Mirrors

theorem plain (h : s.Mirrors φ σ ω last names l) (i : Nat) : (s.current i).Plain := by
  obtain ⟨stack, hstacks, -⟩ := h.place i
  exact hstacks.plain

/-- What becomes of the next instruction of a computation. -/
inductive Next (φ : Reading) (ω : Store) (last : Stack) (ahead : List (Option ClosureId)) (σ : Store) :
    EStateM.Result Interrupt Store Flow → Prop where
  /-- It does what has been done in `ω`. -/
  | goesOn {name : Option ClosureId} {names : List (Option ClosureId)} {stack target : Stack} {τ : Store} {ψ : Reading}
      (hnames : ahead = name :: names) (hgoes : φ.GoesOn σ ω name ψ τ) (hstacks : ψ.Stacks τ ω stack target)
      (hcourse : Course ω target names last) : Next φ ω last ahead σ (.ok (.next stack) τ)
  /-- It has to wait. -/
  | waits {x : VarId} {τ : Store} {ψ : Reading} (hgoes : φ.GoesOn σ ω none ψ τ) :
      Next φ ω last ahead σ (.error (.blocked x) τ)

/-- **The next instruction goes on along the course, or it has to wait**, and in any case it is declarative. -/
theorem next (h : s.Mirrors φ σ ω last names l) (hr : Settlement σ ω origin last names) {instr : Instr} {env : Env}
    {rest : Stack} (hcurrent : s.current i = .run instr env :: rest) (ctx : Context) :
    declarativeCode instr env s.store ∧
      Next φ ω (last i) ((names i).drop (l.count i)) s.store (ctx.execute env rest instr s.store) := by
  obtain ⟨stack, hstacks, hcourse⟩ := h.place i
  rw [hcurrent] at hstacks
  obtain ⟨env', rest', rfl, henv, hrest⟩ := hstacks.cases
  generalize hahead : (names i).drop (l.count i) = ahead at hcourse
  generalize hfirst : (.run instr env' :: rest' : Stack) = first at hcourse
  cases hcourse with
  | done =>
    -- the end of the course
    obtain hnil | ⟨instr', env'', rest'', hlast, hdecl, hwaits⟩ := hr.rests i
    · rw [hnil] at hfirst
      cases hfirst
    · cases hfirst.trans hlast
      have happlies : instr.Applies env s.store := Instr.applies_of_plan h.sound henv hdecl fun g ρ hg => by
        obtain ⟨y, hy⟩ := hwaits
        cases hy.symm.trans hg
      obtain ⟨x, τ, ψ, hexecute, hgoes⟩ := ctx.execute_follows_waits h.sound henv hrest hdecl hwaits
      rw [hexecute]
      exact ⟨⟨hdecl, happlies⟩, .waits hgoes⟩
  | @step _ _ _ stack last name names' hdecl hin hexecuted hcourse =>
    cases hfirst
    have happlies : instr.Applies env s.store := Instr.applies_of_plan h.sound henv hdecl fun g ρ hg => by
      obtain ⟨d, d', hplan, -⟩ := hexecuted
      cases hplan.symm.trans hg
    have hplace : (names i)[l.count i]? = some name := by
      have hhead := congrArg (fun ns => ns[0]?) hahead
      simpa using hhead
    have hname : ∀ c, name = some c → ∀ e : Nat, e < s.store.closures.size → φ.closure e ≠ c := by
      rintro c rfl e he rfl
      rcases h.named e he with hold | ⟨j, k, hk, hjk⟩
      · have hlow := hr.named i _ (List.mem_of_getElem? hplace)
        rw [h.agrees.closure e hold] at hlow
        exact Nat.not_lt.mpr hlow hold
      · obtain ⟨rfl, rfl⟩ := hr.distinct j i k _ _ hjk hplace
        exact Nat.lt_irrefl _ hk
    have hfollows := ctx.execute_follows h.sound henv hrest hdecl hexecuted hin hname
    refine ⟨⟨hdecl, happlies⟩, ?_⟩
    generalize ctx.execute env rest instr s.store = result at hfollows
    cases hfollows with
    | goesOn hplanned hgoes hstack => exact .goesOn rfl hgoes hstack hcourse
    | waits hgoes => exact .waits hgoes

/-- So nobody throws. -/
theorem not_throws (h : s.Mirrors φ σ ω last names l) (hr : Settlement σ ω origin last names) (i : Nat) :
    ¬ s.Throws ctxs i := by
  rintro ⟨instr, env, rest, hcurrent, hgoes, hwaits⟩
  obtain ⟨-, hnext⟩ := h.next hr hcurrent (Pool.context ctxs i)
  generalize hresult : (Pool.context ctxs i).execute env rest instr s.store = result at hnext
  cases hnext with
  | goesOn => exact hgoes _ _ hresult
  | waits => exact hwaits _ _ hresult

/-- A change that makes no closures, by nobody. -/
theorem later (h : s.Mirrors φ σ ω last names l) {ψ : Reading} {τ : Store} (hgoes : φ.GoesOn s.store ω none ψ τ)
    (awaited : Nat → Option VarId) : Mirrors ψ σ ω last names l ⟨τ, s.current, awaited⟩ where
  sound := hgoes.sound
  grows := h.grows.trans hgoes.grows
  agrees := h.agrees.trans hgoes.agrees h.grows
  count := h.count
  place i := by
    obtain ⟨stack, hstacks, hcourse⟩ := h.place i
    exact ⟨stack, hgoes.stack hstacks, hcourse⟩
  named e he := by
    have he' : e < s.store.closures.size := (hgoes.named e he).resolve_right nofun
    rw [hgoes.agrees.closure e he']
    exact h.named e he'

/-- **Every step is mirrored.** -/
theorem step (h : s.Mirrors φ σ ω last names l) (hr : Settlement σ ω origin last names)
    (hstep : s.Step ctxs code l' s') : ∃ ψ, s'.Mirrors ψ σ ω last names (l ++ l') := by
  -- the mirror moves only with an instruction that is executed
  cases hstep with
  | stays =>
    rw [List.append_nil]
    exact ⟨φ, h⟩
  | @executes i instr env rest stack τ hcurrent _ hexecute =>
    obtain ⟨-, hnext⟩ := h.next hr hcurrent (Pool.context ctxs i)
    rw [hexecute] at hnext
    cases hnext with
    | @goesOn name names' _ target _ ψ hnames hgoes hstacks hcourse =>
      -- the thread that has executed has one more turn in the schedule
      have hcount : ∀ j, (l ++ [i]).count j = if j = i then l.count i + 1 else l.count j := by
        intro j
        by_cases hji : j = i
        · subst hji
          simp
        · simp [hji, Ne.symm hji]
      have hplace : (names i)[l.count i]? = some name := by
        have hhead := congrArg (fun ns => ns[0]?) hnames
        simpa using hhead
      refine ⟨ψ, hgoes.sound, h.grows.trans hgoes.grows, h.agrees.trans hgoes.agrees h.grows, fun j => ?_, fun j => ?_,
        fun e he => ?_⟩
      · rw [hcount]
        split
        · next hji =>
          rw [hji]
          exact (List.getElem?_eq_some_iff.mp hplace).1
        · exact h.count j
      · rw [hcount]
        by_cases hji : j = i
        · subst hji
          rw [if_pos rfl]
          have hdrop : (names j).drop (l.count j + 1) = names' := by
            rw [← List.tail_drop, hnames, List.tail_cons]
          simp only [Function.update_self]
          rw [hdrop]
          exact ⟨target, hstacks, hcourse⟩
        · rw [if_neg hji]
          obtain ⟨stack', hstacks', hcourse'⟩ := h.place j
          simp only [Function.update_of_ne hji]
          exact ⟨stack', hgoes.stack hstacks', hcourse'⟩
      -- a closure is an old one, or the one that this turn has named
      · rcases hgoes.named e he with hold | hname
        · rw [hgoes.agrees.closure e hold]
          rcases h.named e hold with hstart | ⟨j, k, hk, hjk⟩
          · exact .inl hstart
          · refine .inr ⟨j, k, Nat.lt_of_lt_of_le hk ?_, hjk⟩
            rw [List.count_append]
            exact Nat.le_add_right ..
        · refine .inr ⟨i, l.count i, ?_, hname ▸ hplace⟩
          rw [hcount, if_pos rfl]
          exact Nat.lt_succ_self _
  | @waits i instr env rest x ρ hcurrent _ hexecute =>
    obtain ⟨-, hnext⟩ := h.next hr hcurrent (Pool.context ctxs i)
    rw [hexecute] at hnext
    cases hnext with
    | @waits _ _ ψ hgoes =>
      obtain ⟨stack, hstacks, -⟩ := h.place i
      have hin := hstacks.isIn
      rw [hcurrent] at hin
      obtain ⟨henv, hrest⟩ := List.forall_mem_cons.mp hin
      obtain ⟨-, -, hx, -⟩ := Context.blocked_pads h.sound.closed henv hrest hexecute
      have hparks := hgoes.sound.park hx (k := ⟨s.current i, .queue i⟩) (hgoes.grows.stack hstacks.isIn)
      rw [List.append_nil]
      exact ⟨ψ, h.later (hgoes.trans hparks) _⟩
  | wakes i =>
    rw [List.append_nil]
    exact ⟨φ, h.later (h.sound.takeWakes i) _⟩

end Mirrors

end Stage

end Dataflow
