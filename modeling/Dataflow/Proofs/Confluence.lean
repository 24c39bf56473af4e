/-
Confluence: what declarative computations have done in the end does not depend on the schedule.

Let the computations of a pool be declarative and let them run by one schedule, until none can go on, without a throw and
without anybody left stranded. Then no schedule leads to a throw. And if another one has come to its end with nobody
stranded either, the same computations have ended and the same ones wait, and what there was in the beginning has the
same values in both ends, up to the names of what has been made on the way (`Store.Renames`).

The end of each schedule is read in the end of the other one (`Stage.Mirrors`). So neither has done more than the other,
and the two readings are inverse to each other wherever the variables of the beginning lead.

Somebody is stranded who waits to compare terms and has missed that they can be compared now. A comparison waits for one
variable of one of the terms. If this is merged with another one, or if the terms begin to differ elsewhere, nobody wakes
it. With somebody stranded the end does depend on the schedule (`comparing_diverges`).
-/
import Dataflow.Proofs.Mirrors
import Mathlib

set_option autoImplicit false

namespace Dataflow

/-! ## The same up to names -/

/-- Terms of `σ` and terms of `τ` that correspond to each other. They are unbound together or have the same value, where
the parts of records and the variables of closures correspond again. Two terms are the same in one store if and only if
those that correspond to them are in the other. -/
structure Store.Renames (σ τ : Store) (R : Term → Term → Prop) : Prop where
  var : ∀ a b, R a b → ((∃ x, σ.resolve a = .var x) ↔ ∃ y, τ.resolve b = .var y)
  record : ∀ a b r, R a b → σ.resolve a = .val (.record r) → ∃ s, τ.resolve b = .val (.record s) ∧
    (σ.record r).label = (τ.record s).label ∧
    List.Forall₂ (fun f g => f.feature = g.feature ∧ R f.value g.value) (σ.record r).fields (τ.record s).fields
  closure : ∀ a b c, R a b → σ.resolve a = .val (.proc (.closure c)) → ∃ d, τ.resolve b = .val (.proc (.closure d)) ∧
    (σ.closure c).proc = (τ.closure d).proc ∧
    List.Forall₂ (fun p q => p.1 = q.1 ∧ R (.var p.2) (.var q.2)) (σ.closure c).env (τ.closure d).env
  atom : ∀ a b v, R a b → σ.resolve a = .val v → (∀ r, v ≠ .record r) → (∀ c, v ≠ .proc (.closure c)) →
    τ.resolve b = .val v
  same : ∀ a b a' b', R a b → R a' b' → (σ.Same a a' ↔ τ.Same b b')

namespace Reading

variable {φ ψ : Reading} {σ τ : Store} {a b a' b' : Term}

/-- The term of the first store is read as the other one, and the other way round. -/
structure Meets (φ ψ : Reading) (σ τ : Store) (a b : Term) : Prop where
  left : a.In σ
  right : b.In τ
  there : τ.Same (φ.term a) b
  back : σ.Same (ψ.term b) a

theorem Meets.symm (h : Meets φ ψ σ τ a b) : Meets ψ φ τ σ b a := ⟨h.right, h.left, h.back, h.there⟩

/-- What the value of the first term is read as is the same as the second term. -/
theorem Meets.value (h : Meets φ ψ σ τ a b) (hφ : φ.Sound σ τ) {v : Value} (hv : σ.resolve a = .val v) :
    τ.Same (.val (φ.value v)) b := by
  have hread := hφ.reads.resolve hφ.closed.linked a
  rw [hv] at hread
  exact hread.symm.trans h.there

/-- Two records that meet have the same label and the same features, and their fields meet in pairs. -/
theorem Meets.record (h : Meets φ ψ σ τ a b) (hφ : φ.Sound σ τ) (hψ : ψ.Sound τ σ) {r : RecordId}
    (hr : σ.resolve a = .val (.record r)) : ∃ s, τ.resolve b = .val (.record s) ∧
      (σ.record r).label = (τ.record s).label ∧
      List.Forall₂ (fun f g => f.feature = g.feature ∧ Meets φ ψ σ τ f.value g.value) (σ.record r).fields
        (τ.record s).fields := by
  -- the records need not be carried to each other; both are read as records of one shape in the other store
  obtain ⟨s, hs, hshape, hsides⟩ := (h.value hφ hr).of_record rfl
  obtain ⟨r', hr', -, hsides'⟩ := (h.symm.value hψ hs).of_record rfl
  cases hr.symm.trans hr'
  have hthere := hφ.reads.record r (hφ.closed.resolve_val h.left hr)
  have hback := hψ.reads.record s (hψ.closed.resolve_val h.right hs)
  obtain ⟨hlabel, hfeatures⟩ := Record.sameShape_iff.mp (Record.sameShape_trans hthere.sameShape hshape)
  refine ⟨s, hs, hlabel, List.forall₂_iff_get.mpr ⟨?_, fun k hk hk' => ?_⟩⟩
  · simpa using congrArg List.length hfeatures
  · -- the fields at one place of the two records and of those that they are read as
    have hf : (σ.record r).fields[k]? = some ((σ.record r).fields.get ⟨k, hk⟩) := List.getElem?_eq_getElem hk
    have hg : (τ.record s).fields[k]? = some ((τ.record s).fields.get ⟨k, hk'⟩) := List.getElem?_eq_getElem hk'
    generalize (σ.record r).fields.get ⟨k, hk⟩ = f, (τ.record s).fields.get ⟨k, hk'⟩ = g at hf hg
    obtain ⟨f', hf', -, hff⟩ := hthere.getElem?.1 f hf
    obtain ⟨g', hg', -, hgg⟩ := hback.getElem?.1 g hg
    have hfeature : f.feature = g.feature := by
      have hplace := congrArg (fun fs => fs[k]?) hfeatures
      simpa [List.getElem?_map, hf, hg] using hplace
    refine ⟨hfeature, hφ.closed.record r f (List.mem_of_getElem? hf), hψ.closed.record s g (List.mem_of_getElem? hg),
      hff.trans ?_, hgg.trans ?_⟩
    -- each pair of fields is among the sides of the comparison, in both directions
    · exact hsides _ (Record.mem_sides.mpr ⟨k, f', g, hf', hg, rfl⟩)
    · exact hsides' _ (Record.mem_sides.mpr ⟨k, g', f, hg', hf, rfl⟩)

/-- Scopes that are read as each other. -/
theorem Env.meets {env env' : Dataflow.Env} (h : φ.Env τ env env') (h' : ψ.Env σ env' env) (hin : env.In σ)
    (hin' : env'.In τ) :
    List.Forall₂ (fun p q => p.1 = q.1 ∧ Meets φ ψ σ τ (.var p.2) (.var q.2)) env env' := by
  induction h with
  | nil => exact .nil
  | cons hpq _ ih =>
    cases h' with
    | cons hqp hrest' =>
      obtain ⟨hp, hin⟩ := List.forall_mem_cons.mp hin
      obtain ⟨hq, hin'⟩ := List.forall_mem_cons.mp hin'
      exact .cons ⟨hpq.1, hp, hq, hpq.2, hqp.2⟩ (ih hrest' hin hin')

/-- Two closures that meet have the same procedure, and their captured variables meet in pairs. -/
theorem Meets.closure (h : Meets φ ψ σ τ a b) (hφ : φ.Sound σ τ) (hψ : ψ.Sound τ σ) {c : ClosureId}
    (hc : σ.resolve a = .val (.proc (.closure c))) : ∃ d, τ.resolve b = .val (.proc (.closure d)) ∧
      (σ.closure c).proc = (τ.closure d).proc ∧
      List.Forall₂ (fun p q => p.1 = q.1 ∧ Meets φ ψ σ τ (.var p.2) (.var q.2)) (σ.closure c).env (τ.closure d).env := by
  have hd : τ.resolve b = .val (.proc (.closure (φ.closure c))) := (h.value hφ hc).of_atom rfl nofun
  have hback : σ.resolve a = .val (.proc (.closure (ψ.closure (φ.closure c)))) :=
    (h.symm.value hψ hd).of_atom rfl nofun
  have hcIn : c < σ.closures.size := hφ.closed.resolve_val h.left hc
  have hdIn : φ.closure c < τ.closures.size := hψ.closed.resolve_val h.right hd
  -- closures are compared by identity, so that carrying one there and back gives it again
  have hinverse : ψ.closure (φ.closure c) = c := by
    have heq := hback.symm.trans hc
    simpa using heq
  obtain ⟨hproc, henv⟩ := hφ.reads.closure c hcIn
  obtain ⟨-, henv'⟩ := hψ.reads.closure (φ.closure c) hdIn
  rw [hinverse] at henv'
  exact ⟨_, hd, hproc, Env.meets henv henv' (hφ.closed.closure c) (hψ.closed.closure _)⟩

/-- **Readings in both directions** make two stores the same up to names, wherever they are inverse to each other. -/
theorem renames (hφ : φ.Sound σ τ) (hψ : ψ.Sound τ σ) : σ.Renames τ (Meets φ ψ σ τ) where
  var a b h := by
    -- a variable that is unbound on one side is so on the other, by either reading
    have hval : ∀ {φ ψ : Reading} {σ τ : Store} {a b : Term}, φ.Sound σ τ → Meets φ ψ σ τ a b →
        (∃ y, τ.resolve b = .var y) → ∃ x, σ.resolve a = .var x := by
      rintro φ ψ σ τ a b hφ h ⟨y, hy⟩
      rcases hres : σ.resolve a with v | x
      · rcases (h.value hφ hres).cases with heq | ⟨r, s, -, hs⟩
        · cases heq.trans hy
        · cases hs.symm.trans hy
      · exact ⟨x, rfl⟩
    exact ⟨hval hψ h.symm, hval hφ h⟩
  record a b r h hr := h.record hφ hψ hr
  closure a b c h hc := h.closure hφ hψ hc
  atom a b v h hv hrecord hclosure := by
    -- an atom is read as itself
    have hvalue : φ.value v = v := by
      cases v with
      | record r => exact absurd rfl (hrecord r)
      | proc p =>
        cases p with
        | closure c => exact absurd rfl (hclosure c)
        | _ => rfl
      | _ => rfl
    have hsame := h.value hφ hv
    rw [hvalue] at hsame
    exact hsame.of_atom rfl hrecord
  same a b a' b' h h' := by
    -- being the same is carried over by one reading and back by the other
    constructor
    · intro hsame
      exact (h.there.symm.trans (hφ.reads.same hφ.closed h.left h'.left hsame)).trans h'.there
    · intro hsame
      exact (h.back.symm.trans (hψ.reads.same hψ.closed h.right h'.right hsame)).trans h'.back

end Reading

/-! ## Whole schedules -/

namespace Pool

variable {ctxs : Nat → Context} {code : CodeClass} {p q : Pool} {ledger : Ledger} {s : Stage} {l : List Nat} {i : Nat}
  {σ ω : Store} {origin last : Nat → Stack} {names names' : Nat → List (Option ClosureId)} {φ : Reading}

/-- A schedule of declarative code in which nobody throws is lawful. -/
theorem Acts.lawful (hacts : Acts ctxs declarativeCode p l q) (hat : p.At ledger s)
    (hlawful : s.Lawful σ origin names []) (hq : q.Unhalted) :
    ∃ ledger' s' names', q.At ledger' s' ∧ s'.Lawful σ origin names' l := by
  induction hacts with
  | refl => exact ⟨ledger, s, names, hat, hlawful⟩
  | tail _ hact ih =>
    obtain ⟨ledger₁, s₁, names₁, hat₁, hlawful₁⟩ := ih (hact.unhalted hq)
    rcases hat₁.act hlawful₁.plain hact with ⟨ledger₂, s₂, hstep, hat₂, -⟩ | ⟨i, f, -, hhalted⟩
    · obtain ⟨names₂, hlawful₂⟩ := hlawful₁.step hstep
      exact ⟨ledger₂, s₂, names₂, hat₂, hlawful₂⟩
    · exact absurd hhalted (hq i f)

/-- A computation that is ready, and what it goes on with. -/
theorem At.current_eq (h : p.At ledger s) (hplain : ∀ i, (s.current i).Plain) {stack rest : Stack} {instr : Instr}
    {env : Env} (hi : p.threads[i]? = some (.ready stack)) (hnext : next? stack = some (instr, env, rest)) :
    s.current i = .run instr env :: rest := by
  have hcurrent := (h.fits i _ hi).1
  rw [hcurrent]
  exact Stack.Plain.eq_of_next? (hcurrent ▸ hplain i) hnext

/-- What happens to a pool is declarative if it is mirrored. -/
theorem Act.declarative (hact : Act ctxs code p l q) (hat : p.At ledger s) {l' : List Nat}
    (hmirrors : s.Mirrors φ σ ω last names l') (hr : Settlement σ ω origin last names) :
    Act ctxs declarativeCode p l q := by
  have hcode : ∀ {i : Nat} {stack rest : Stack} {instr : Instr} {env : Env}, p.threads[i]? = some (.ready stack) →
      next? stack = some (instr, env, rest) → declarativeCode instr env p.store := by
    intro i stack rest instr env hi hnext
    have hcurrent := hat.current_eq hmirrors.plain hi hnext
    have hdeclarative := (hmirrors.next hr hcurrent (context ctxs i)).1
    rwa [hat.store] at hdeclarative
  cases hact with
  | wake hi hwoken => exact .wake hi hwoken
  | drop hi hnext => exact .drop hi hnext
  | finish hi hnext => exact .finish hi hnext
  | go hi hnext _ hstep => exact .go hi hnext (hcode hi hnext) hstep
  | wait hi hnext _ hstep => exact .wait hi hnext (hcode hi hnext) hstep
  | halt hi hnext hstep => exact .halt hi hnext hstep

/-- **Any schedule is mirrored** in the end of one, so its code is declarative, it is lawful, and nobody throws. -/
theorem Acts.mirrored (hacts : Acts ctxs code p l q) (hat : p.At ledger s)
    (hmirrors : s.Mirrors φ σ ω last names []) (hr : Settlement σ ω origin last names)
    (hlawful : s.Lawful σ origin names' []) (hp : p.Unhalted) :
    ∃ ledger' s' ψ names', q.At ledger' s' ∧ s'.Mirrors ψ σ ω last names l ∧ s'.Lawful σ origin names' l ∧
      q.Unhalted := by
  induction hacts with
  | refl => exact ⟨ledger, s, φ, names', hat, hmirrors, hlawful, hp⟩
  | tail _ hact ih =>
    obtain ⟨ledger₁, s₁, φ₁, names₁, hat₁, hmirrors₁, hlawful₁, hunhalted⟩ := ih
    rcases hat₁.act hlawful₁.plain (hact.declarative hat₁ hmirrors₁ hr) with
      ⟨ledger₂, s₂, hstep, hat₂, hkept⟩ | ⟨i, f, hthrows, -⟩
    · obtain ⟨φ₂, hmirrors₂⟩ := hmirrors₁.step hr hstep
      obtain ⟨names₂, hlawful₂⟩ := hlawful₁.step hstep
      exact ⟨ledger₂, s₂, φ₂, names₂, hat₂, hmirrors₂, hlawful₂, hkept hunhalted⟩
    · exact absurd hthrows (hmirrors₁.not_throws hr i)

/-! ## The end of a schedule -/

/-- A computation waits to compare terms, and it would not have to wait if it looked again. -/
def Stranded (ctxs : Nat → Context) (p : Pool) : Prop :=
  ∃ (i : Nat) (x : VarId) (instr : Instr) (env : Env) (rest : Stack), p.threads[i]? = some .waiting ∧
    ⟨.run instr env :: rest, .queue i⟩ ∈ p.store.waiting x ∧ instr.Compares ∧
    ∀ y τ, (context ctxs i).execute env rest instr p.store ≠ .error (.blocked y) τ

/-- Who has to wait to compare terms has to wait. -/
theorem waits_of_execute (ctx : Context) {instr : Instr} {env : Env} {rest : Stack} {x : VarId} {τ : Store}
    (hσ : σ.Closed) (hexact : σ.Exact) (henv : env.In σ) (hdecl : instr.Declarative) (hcompares : instr.Compares)
    (h : ctx.execute env rest instr σ = .error (.blocked x) τ) : instr.Waits σ env := by
  have hforesees := instr.foresees_plan (.later (.refl σ) hσ hexact hσ hexact) (P := fun _ => False)
    (fun _ h => h.elim) (Reading.Scopes.later (.refl σ) henv) hdecl fun _ _ h => h
  -- what compares neither calls nor matches
  have happlies : instr.Applies env σ := by
    cases instr with
    | apply => exact hcompares.elim
    | _ => trivial
  have hcase : ∀ arg p yes no, instr ≠ .case arg p yes no := by
    rintro arg p yes no rfl
    exact hcompares
  have hdoes := ctx.does_plan env rest hdecl happlies hcase
  rw [Foresees] at hforesees
  rw [Does, h] at hdoes
  rcases hplan : instr.plan env σ with ⟨d, ρ⟩ | ⟨y | g, ρ⟩
  · -- a move that has begun never waits
    rw [hplan] at hdoes
    exact absurd hdoes.symm (Move.prompt_perform rest d ρ x τ)
  · rw [hplan] at hforesees
    obtain ⟨rfl, -⟩ := hforesees
    exact ⟨y, hplan⟩
  · rw [hplan] at hdoes
    obtain ⟨_, _, hdoes⟩ := hdoes
    cases hdoes

/-- **In the end, nobody can go on**: what has become of a lawful schedule in which nobody is stranded. -/
theorem At.settles (hat : p.At ledger s) (hlawful : s.Lawful σ origin names l) (hdone : p.Done)
    (hunhalted : p.Unhalted) (hstranded : ¬ p.Stranded ctxs) : Settlement σ p.store origin s.current names := by
  have hclosed := hlawful.closed
  have hexact := hlawful.exact
  have hcourse := hlawful.course s.store hclosed hexact (.refl _)
  have hwaited := hlawful.waited
  have hin := hlawful.isIn
  rw [hat.store] at hclosed hexact hcourse hwaited hin
  refine ⟨hclosed, hexact, hcourse, fun i => ?_, fun i c hc => (hlawful.named i c hc).1, hlawful.distinct⟩
  -- each thread has gone, or waits for a variable that has no value in the end
  rcases hi : p.threads[i]? with _ | t
  · exact .inl (hat.absent i hi)
  cases t with
  | ready stack =>
    have hrunnable := hdone i
    rw [runnable?, hi] at hrunnable
    cases hrunnable
  | ended => exact .inl (hat.fits i _ hi).1
  | halted f => exact absurd hi (hunhalted i f)
  | waiting =>
    obtain ⟨x, hawaited, hres, hmem⟩ := hat.unbound hi (hdone i)
    -- the instruction at which the thread was parked
    obtain ⟨instr, env, rest, hcurrent, hdecl, hwaits⟩ := hwaited i x hawaited
    refine .inr ⟨instr, env, rest, hcurrent, hdecl, ?_⟩
    by_cases hcompares : instr.Compares
    -- an instruction that compares would be free to go on
    · by_contra hfree
      have henv := hin i
      rw [hcurrent] at henv hmem
      refine hstranded ⟨i, _, instr, env, rest, hi, hmem, hcompares, fun y τ hexecute => hfree ?_⟩
      exact waits_of_execute _ hclosed hexact (List.forall_mem_cons.mp henv).1 hdecl hcompares hexecute
    · exact hwaits p.store hclosed hexact (.refl _) hcompares ⟨_, hres⟩

theorem Act.length (hact : Act ctxs code p l q) : q.threads.length = p.threads.length := by
  cases hact <;> exact List.length_set

theorem Acts.length (hacts : Acts ctxs code p l q) : q.threads.length = p.threads.length := by
  induction hacts with
  | refl => rfl
  | tail _ hact ih => exact hact.length.trans ih

/-- In the end, a computation has ended if nothing is left of it, and otherwise it waits. -/
theorem At.status (hat : p.At ledger s) (hlawful : s.Lawful σ origin names l) (hdone : p.Done) (hunhalted : p.Unhalted)
    (hi : i < p.threads.length) :
    (p.threads[i]? = some .ended ∧ s.current i = []) ∨ p.threads[i]? = some .waiting ∧ s.current i ≠ [] := by
  rcases hstatus : p.threads[i]? with _ | t
  · exact absurd (List.getElem?_eq_none_iff.mp hstatus) (Nat.not_le.mpr hi)
  cases t with
  | ready stack =>
    have hrunnable := hdone i
    rw [runnable?, hstatus] at hrunnable
    cases hrunnable
  | ended => exact .inl ⟨rfl, (hat.fits i _ hstatus).1⟩
  | halted f => exact absurd hstatus (hunhalted i f)
  | waiting =>
    obtain ⟨x, -, hawaited⟩ := hat.fits i _ hstatus
    obtain ⟨instr, env, rest, hcurrent, -⟩ := hlawful.waited i x hawaited
    exact .inr ⟨rfl, by simp [hcurrent]⟩

/-! ## Confluence -/

/-- What a pool may begin with: numbers are integers, computations are plain, and nobody has used their queues. -/
structure Fresh (σ : Store) (tasks : List Stack) : Prop where
  closed : σ.Closed
  exact : σ.Exact
  isIn : ∀ stack ∈ tasks, stack.In σ
  plain : ∀ stack ∈ tasks, stack.Plain
  unused : ∃ ledger, σ.Accounted ledger ∧ ∀ i < tasks.length, ledger.ofQueue i = []

/-- The stage that a pool begins at. -/
def first (σ : Store) (tasks : List Stack) : Stage := ⟨σ, fun i => tasks.getD i [], fun _ => none⟩

variable {tasks : List Stack}

/-- At each place of the pool stands one of the tasks, or nothing. -/
theorem getD_cases (tasks : List Stack) (i : Nat) : tasks.getD i [] = [] ∨ tasks.getD i [] ∈ tasks := by
  rw [List.getD_eq_getElem?_getD]
  rcases hi : tasks[i]? with _ | stack
  · exact .inl rfl
  · exact .inr (List.mem_of_getElem? hi)

theorem Fresh.in_first (h : Fresh σ tasks) (i : Nat) : (tasks.getD i []).In σ := by
  rcases getD_cases tasks i with hnil | hmem
  · rw [hnil]
    exact fun _ hf => absurd hf List.not_mem_nil
  · exact h.isIn _ hmem

theorem Fresh.plain_first (h : Fresh σ tasks) (i : Nat) : (tasks.getD i []).Plain := by
  rcases getD_cases tasks i with hnil | hmem
  · rw [hnil]
    exact fun _ hf => absurd hf List.not_mem_nil
  · exact h.plain _ hmem

/-- A pool of fresh stacks is at the first stage of its courses. -/
theorem Fresh.at_first (h : Fresh σ tasks) : ∃ ledger, (start σ tasks).At ledger (first σ tasks) := by
  obtain ⟨ledger, haccounted, hunused⟩ := h.unused
  refine ⟨ledger, rfl, h.closed, haccounted, h.in_first, fun i t hi => ?_, fun i hi => ?_⟩
  -- what stands at a place of the pool is the task, or nothing
  · rw [start, List.getElem?_map, Option.map_eq_some_iff] at hi
    obtain ⟨stack, hstack, rfl⟩ := hi
    refine ⟨?_, hunused i (List.getElem?_eq_some_iff.mp hstack).1⟩
    show tasks.getD i [] = stack
    rw [List.getD_eq_getElem?_getD, hstack, Option.getD_some]
  · rw [start, List.getElem?_map, Option.map_eq_none_iff] at hi
    show tasks.getD i [] = []
    rw [List.getD_eq_getElem?_getD, hi, Option.getD_none]

theorem Fresh.lawful_first (h : Fresh σ tasks) :
    (first σ tasks).Lawful σ (fun i => tasks.getD i []) (fun _ => []) [] :=
  Stage.lawful_start h.closed h.exact h.in_first h.plain_first

/-- A pool that has not begun has no thread that has failed. -/
theorem unhalted_start (σ : Store) (tasks : List Stack) : (start σ tasks).Unhalted := by
  intro i f hi
  rw [start, List.getElem?_map, Option.map_eq_some_iff] at hi
  obtain ⟨stack, -, hstatus⟩ := hi
  cases hstatus

/-- **Confluence.** Let a schedule of declarative code come to its end without a throw and with nobody stranded. Then no
schedule that has come to its end has led to a throw. If nobody is stranded in that end either, the same computations
have ended and the same ones wait, and whatever there was in the beginning is the same up to names in both ends. -/
theorem Fresh.confluent (hfresh : Fresh σ tasks) (hp : Schedule ctxs declarativeCode (start σ tasks) p)
    (hdone : p.Done) (hunhalted : p.Unhalted) (hstranded : ¬ p.Stranded ctxs)
    (hq : Schedule ctxs code (start σ tasks) q) (hdone' : q.Done) :
    q.Unhalted ∧ (¬ q.Stranded ctxs → q.threads = p.threads ∧
      ∃ R, p.store.Renames q.store R ∧ ∀ x : Nat, x < σ.vars.size → R (.var x) (.var x)) := by
  obtain ⟨ledger, hat⟩ := hfresh.at_first
  have hlawful := hfresh.lawful_first
  have hstart := unhalted_start σ tasks
  obtain ⟨lp, hactsp⟩ := Schedule.acts hp
  obtain ⟨lq, hactsq⟩ := Schedule.acts hq
  -- the second schedule in the end of the first one
  obtain ⟨ledgerp, sp, namesp, hatp, hlawfulp, hprecp⟩ :
      ∃ ledgerp sp namesp, p.At ledgerp sp ∧ sp.Lawful σ (fun i => tasks.getD i []) namesp lp ∧
        σ.Precedes p.store := by
    obtain ⟨ledgerp, sp, namesp, hatp, hlawfulp⟩ := hactsp.lawful hat hlawful hunhalted
    exact ⟨ledgerp, sp, namesp, hatp, hlawfulp, hatp.store ▸ hlawfulp.precedes⟩
  have hsettlep := hatp.settles hlawfulp hdone hunhalted hstranded
  obtain ⟨ledgerq, sq, ψ, namesq, hatq, hmirrorsq, hlawfulq, hunhaltedq⟩ := hactsq.mirrored hat
    (Stage.mirrors_start hsettlep hfresh.closed hfresh.exact hprecp hfresh.in_first hfresh.plain_first) hsettlep hlawful
    hstart
  refine ⟨hunhaltedq, fun hstrandedq => ?_⟩
  -- and the first one in the end of the second
  have hsettleq := hatq.settles hlawfulq hdone' hunhaltedq hstrandedq
  have hprecq : σ.Precedes q.store := hatq.store ▸ hlawfulq.precedes
  obtain ⟨_, sp', φ, _, hatp', hmirrorsp, -⟩ := hactsp.mirrored hat
    (Stage.mirrors_start hsettleq hfresh.closed hfresh.exact hprecq hfresh.in_first hfresh.plain_first) hsettleq hlawful
    hstart
  have hφ : φ.Sound p.store q.store := hatp'.store ▸ hmirrorsp.sound
  have hψ : ψ.Sound q.store p.store := hatq.store ▸ hmirrorsq.sound
  refine ⟨?_, _, Reading.renames hφ hψ, fun x hx => ⟨?_, ?_, ?_, ?_⟩⟩
  · -- neither has done more than the other
    have hcount : ∀ i, lq.count i = (namesp i).length := by
      intro i
      refine Nat.le_antisymm (hmirrorsq.count i) ?_
      rw [hlawfulp.length, ← hlawfulq.length]
      exact hmirrorsp.count i
    have hnil : ∀ i, sq.current i = [] ↔ sp.current i = [] := by
      intro i
      obtain ⟨stack, hstacks, hcourse⟩ := hmirrorsq.place i
      rw [hcount, List.drop_length] at hcourse
      cases hcourse
      exact hstacks.eq_nil_iff
    have hlengthp : p.threads.length = tasks.length := hactsp.length.trans (List.length_map ..)
    have hlengthq : q.threads.length = tasks.length := hactsq.length.trans (List.length_map ..)
    refine List.ext_getElem? fun i => ?_
    by_cases hi : i < tasks.length
    · rcases hatp.status hlawfulp hdone hunhalted (hlengthp ▸ hi) with ⟨hstatus, hend⟩ | ⟨hstatus, hmore⟩
      · rcases hatq.status hlawfulq hdone' hunhaltedq (hlengthq ▸ hi) with ⟨hstatus', -⟩ | ⟨-, hmore'⟩
        · rw [hstatus, hstatus']
        · exact absurd ((hnil i).mpr hend) hmore'
      · rcases hatq.status hlawfulq hdone' hunhaltedq (hlengthq ▸ hi) with ⟨-, hend'⟩ | ⟨hstatus', -⟩
        · exact absurd ((hnil i).mp hend') hmore
        · rw [hstatus, hstatus']
    · have hi' := Nat.not_lt.mp hi
      rw [List.getElem?_eq_none (hlengthq ▸ hi'), List.getElem?_eq_none (hlengthp ▸ hi')]
  · exact Nat.lt_of_lt_of_le hx hprecp.grows.vars
  · exact Nat.lt_of_lt_of_le hx hprecq.grows.vars
  · have hvar : φ.var x = .var x := hmirrorsp.agrees.var x hx
    rw [Reading.term, hvar]
    exact .refl _ _
  · have hvar : ψ.var x = .var x := hmirrorsq.agrees.var x hx
    rw [Reading.term, hvar]
    exact .refl _ _

/-! ## Two schedules -/

/-- What each of the computations here runs for. -/
def kernels : Nat → Context := fun _ => { owner := kernelOwner, resumer := .queue 0 }

/-- Three variables without values. -/
def unknowns : Store := ({} : Store).freshVar.2.freshVar.2.freshVar.2

/-- Their scope. -/
def scope : Env := [("x", 0), ("y", 1), ("z", 2)]

/-- Stacks over the store of three unknowns are fresh. -/
theorem fresh_unknowns (instrs : List Instr) : Fresh unknowns (instrs.map fun instr => [.run instr scope]) := by
  have hmade : Store.History unknowns [] := ((Store.History.start.call .new trivial).call .new trivial).call .new trivial
  refine ⟨hmade.closed, ⟨fun x v hx => ?_, fun r f hf => ?_⟩, fun task htask => ?_, fun task htask => ?_, [],
    hmade.accounted, fun i _ => rfl⟩
  · rcases x with _ | _ | _ | x <;> cases hx
  · cases hf
  · obtain ⟨instr, -, rfl⟩ := List.mem_map.mp htask
    have hscope : scope.In unknowns := by simp [scope, Env.In, unknowns, Store.freshVar, Store.newVar]
    exact List.forall_mem_singleton.mpr hscope
  · obtain ⟨instr, -, rfl⟩ := List.mem_map.mp htask
    exact List.forall_mem_singleton.mpr ⟨instr, scope, rfl⟩

/-- A turn of one instruction. -/
theorem Turn.single {stack rest : Stack} {instr : Instr} {env : Env} {τ : Store} {a : Advice} {n : Nat}
    (h : p.runnable? i = some (stack, σ)) (hnext : next? stack = some (instr, env, rest)) (hcode : code instr env σ)
    (hcompute : (context ctxs i).compute 1 stack 0 σ = ⟨a, n, τ⟩) : Turn ctxs code p (p.set i a.status τ) := by
  have hslice : Turn ctxs code p _ := .slice 1 h fun m stack' σ' instr' env' rest' hm hruns hnext' => by
    obtain rfl : m = 0 := by omega
    cases hruns
    cases hnext.symm.trans hnext'
    exact hcode
  rwa [hcompute] at hslice

/-- A pool of two computations in which none can go on. -/
theorem done_of_two {a b : Status} (ha : ∀ tail : List Status, (⟨σ, a :: tail⟩ : Pool).runnable? 0 = none)
    (hb : ∀ head : Status, (⟨σ, [head, b]⟩ : Pool).runnable? 1 = none) : (⟨σ, [a, b]⟩ : Pool).Done := by
  intro i
  rcases i with _ | _ | i
  · exact ha [b]
  · exact hb a
  · rfl

/-- A pool of two threads that have not failed. -/
theorem unhalted_of_two {a b : Status} (ha : ∀ f, a ≠ .halted f) (hb : ∀ f, b ≠ .halted f) :
    (⟨σ, [a, b]⟩ : Pool).Unhalted := by
  intro i f hi
  rcases i with _ | _ | i
  · exact ha f (Option.some.inj hi)
  · exact hb f (Option.some.inj hi)
  · cases hi

/-- Asks whether `x` and `y` are equal. -/
def asks : Instr := .entails (.ident "x") (.ident "y") "z"

/-- Makes them equal. -/
def merges : Instr := .bind "x" (.ident "y")

/-- The computations that ask and that merge. -/
def comparing : List Stack := [asks, merges].map fun instr => [.run instr scope]

/-- **With somebody stranded the end depends on the schedule.** If the variables are merged first, the question is
answered. If it is asked first, it waits for one of them, nobody wakes it, and it has no answer in the end. -/
theorem comparing_diverges : ∃ p q : Pool, Fresh unknowns comparing ∧
    Schedule kernels declarativeCode (start unknowns comparing) p ∧ p.Done ∧ p.Unhalted ∧
    Schedule kernels declarativeCode (start unknowns comparing) q ∧ q.Done ∧ q.Unhalted ∧
    p.threads = [.waiting, .ended] ∧ q.threads = [.ended, .ended] ∧
    p.store.resolve (.var 2) = .var 2 ∧ q.store.resolve (.var 2) = .val (.bool true) := by
  have hasks : ∀ σ, declarativeCode asks scope σ := fun σ => ⟨⟨trivial, trivial⟩, trivial⟩
  have hmerges : ∀ σ, declarativeCode merges scope σ := fun σ => ⟨trivial, trivial⟩
  -- first asked, then merged
  let parked : Store := unknowns.park 0 ⟨[.run asks scope], .queue 0⟩
  have hfirst : Turn kernels declarativeCode (start unknowns comparing) ⟨parked, [.waiting, .ready [.run merges scope]]⟩ :=
    Turn.single (i := 0) (a := .waiting 0) (n := 1) rfl rfl (hasks unknowns) (by cbv)
  have hsecond : Turn kernels declarativeCode ⟨parked, [.waiting, .ready [.run merges scope]]⟩
      ⟨parked.merge 0 1, [.waiting, .ended]⟩ :=
    Turn.single (i := 1) (a := .ended) (n := 1) rfl rfl (hmerges parked) (by cbv)
  -- first merged, then asked
  have hfirst' : Turn kernels declarativeCode (start unknowns comparing)
      ⟨unknowns.merge 0 1, [.ready [.run asks scope], .ended]⟩ :=
    Turn.single (i := 1) (a := .ended) (n := 1) rfl rfl (hmerges unknowns) (by cbv)
  have hsecond' : Turn kernels declarativeCode ⟨unknowns.merge 0 1, [.ready [.run asks scope], .ended]⟩
      ⟨(unknowns.merge 0 1).assign 2 (.bool true), [.ended, .ended]⟩ :=
    Turn.single (i := 0) (a := .ended) (n := 1) rfl rfl (hasks (unknowns.merge 0 1)) (by cbv)
  refine ⟨⟨parked.merge 0 1, [.waiting, .ended]⟩, ⟨(unknowns.merge 0 1).assign 2 (.bool true), [.ended, .ended]⟩,
    fresh_unknowns [asks, merges], .tail (.single hfirst) hsecond, ?_, unhalted_of_two (by simp) (by simp),
    .tail (.single hfirst') hsecond', ?_, unhalted_of_two (by simp) (by simp), rfl, rfl, by cbv, by cbv⟩
  · exact done_of_two (fun _ => rfl) fun _ => rfl
  · exact done_of_two (fun _ => rfl) fun _ => rfl

/-- Adds one to `x`. -/
def adds : Instr := .arith .add (.ident "x") (.lit (.num (.int32 1))) "y"

/-- Gives `x` the value two. -/
def gives : Instr := .bind "x" (.lit (.num (.int32 2)))

/-- The computations that add and that give. -/
def adding : List Stack := [adds, gives].map fun instr => [.run instr scope]

/-- One computation waits for what the other one gives, or finds it when it begins. -/
theorem Fresh.confluent_adding : ∃ p q : Pool, Fresh unknowns adding ∧
    Schedule kernels declarativeCode (start unknowns adding) p ∧ p.Done ∧ p.Unhalted ∧ ¬ p.Stranded kernels ∧
    Schedule kernels declarativeCode (start unknowns adding) q ∧ q.Done ∧ ¬ q.Stranded kernels ∧
    q.Unhalted ∧ q.threads = p.threads ∧ ∃ R, p.store.Renames q.store R ∧ R (.var 1) (.var 1) := by
  have hexact : ∀ n : Int32, Value.Exact (.num (.int32 n)) := by
    rintro n _ ⟨⟩
    trivial
  have hadds : ∀ σ, declarativeCode adds scope σ := fun σ => ⟨⟨trivial, hexact 1⟩, trivial⟩
  have hgives : ∀ σ, declarativeCode gives scope σ := fun σ => ⟨hexact 2, trivial⟩
  let two : Value := .num (.int32 2)
  let three : Value := .num (.int32 3)
  have hstranded : ∀ σ, ¬ (⟨σ, [.ended, .ended]⟩ : Pool).Stranded kernels := by
    rintro σ ⟨i, -, -, -, -, hi, -⟩
    rcases i with _ | _ | i <;> cases hi
  -- the one that adds waits, and is woken
  let parked : Store := unknowns.park 0 ⟨[.run adds scope], .queue 0⟩
  let given : Store := parked.assign 0 two
  let woken : Store := (given.takeWakes 0).2
  have hfirst : Turn kernels declarativeCode (start unknowns adding) ⟨parked, [.waiting, .ready [.run gives scope]]⟩ :=
    Turn.single (i := 0) (a := .waiting 0) (n := 1) rfl rfl (hadds unknowns) (by cbv)
  have hsecond : Turn kernels declarativeCode ⟨parked, [.waiting, .ready [.run gives scope]]⟩
      ⟨given, [.waiting, .ended]⟩ :=
    Turn.single (i := 1) (a := .ended) (n := 1) rfl rfl (hgives parked) (by cbv)
  have hthird : Turn kernels declarativeCode ⟨given, [.waiting, .ended]⟩ ⟨woken.assign 1 three, [.ended, .ended]⟩ :=
    Turn.single (i := 0) (a := .ended) (n := 1) rfl rfl (hadds woken) (by cbv)
  -- it begins when the value is there
  let ready : Store := unknowns.assign 0 two
  have hfirst' : Turn kernels declarativeCode (start unknowns adding) ⟨ready, [.ready [.run adds scope], .ended]⟩ :=
    Turn.single (i := 1) (a := .ended) (n := 1) rfl rfl (hgives unknowns) (by cbv)
  have hsecond' : Turn kernels declarativeCode ⟨ready, [.ready [.run adds scope], .ended]⟩
      ⟨ready.assign 1 three, [.ended, .ended]⟩ :=
    Turn.single (i := 0) (a := .ended) (n := 1) rfl rfl (hadds ready) (by cbv)
  have hp : Schedule kernels declarativeCode (start unknowns adding) ⟨woken.assign 1 three, [.ended, .ended]⟩ :=
    ((Relation.ReflTransGen.single hfirst).tail hsecond).tail hthird
  have hq : Schedule kernels declarativeCode (start unknowns adding) ⟨ready.assign 1 three, [.ended, .ended]⟩ :=
    (Relation.ReflTransGen.single hfirst').tail hsecond'
  have hdone : (⟨woken.assign 1 three, [.ended, .ended]⟩ : Pool).Done := done_of_two (fun _ => rfl) fun _ => rfl
  have hdone' : (⟨ready.assign 1 three, [.ended, .ended]⟩ : Pool).Done := done_of_two (fun _ => rfl) fun _ => rfl
  have hunhalted : (⟨woken.assign 1 three, [.ended, .ended]⟩ : Pool).Unhalted := unhalted_of_two (by simp) (by simp)
  have hfresh := fresh_unknowns [adds, gives]
  obtain ⟨hunhalted', hsame⟩ := hfresh.confluent hp hdone hunhalted (hstranded _) hq hdone'
  obtain ⟨hthreads, R, hR, hvars⟩ := hsame (hstranded _)
  exact ⟨_, _, hfresh, hp, hdone, hunhalted, hstranded _, hq, hdone', hstranded _, hunhalted', hthreads, R, hR,
    hvars 1 (by decide)⟩

end Pool

end Dataflow
