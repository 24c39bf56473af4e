/-
Schedules: computations that share a store and take turns.

A pool is a store and the computations that work on it. A schedule chooses one that can go on, which is one that is new,
or was preempted, or has been woken, and gives it a slice of instructions. Each computation is resumed through a queue
of its own, so that one can tell who has been woken.

How many instructions a slice has does not matter in the end: every schedule is made of single instructions
(`Turn.acts`). It is those that the development looks at. An instruction is executed, or has to wait, or throws what
nothing catches; and besides a computation may be woken or turn out to be finished.
-/
import Dataflow.Kernel
import Dataflow.Proofs.Slicing
import Mathlib.Logic.Relation

set_option autoImplicit false

namespace Dataflow

/-! ## Pools -/

/-- How a computation of a pool stands. -/
inductive Status where
  /-- It is new, or has been preempted. -/
  | ready (stack : Stack)
  /-- It waits for a variable, or has been woken. -/
  | waiting
  | ended
  | halted (f : FailureId)

/-- How a computation stands after a slice. -/
def Advice.status : Advice → Status
  | .ended => .ended
  | .preempted stack => .ready stack
  | .waiting _ => .waiting
  | .halted f => .halted f

/-- What is said of an instruction in a scope that is about to be executed in a store. -/
abbrev CodeClass := Instr → Env → Store → Prop

/-- Each instruction that a slice of `n` instructions comes to is such code. -/
def Context.Obeys (ctx : Context) (code : CodeClass) (n : Nat) (stack : Stack) (σ : Store) : Prop :=
  ∀ m stack' σ' instr env rest, m < n → ctx.Runs m (stack, σ) (stack', σ') → next? stack' = some (instr, env, rest) →
    code instr env σ'

/-- A store and the computations that work on it. -/
structure Pool where
  store : Store
  threads : List Status

namespace Pool

/-- The pool in which all computations are new. -/
def start (σ : Store) (tasks : List Stack) : Pool := ⟨σ, tasks.map .ready⟩

/-- What the computation of that number goes on with, and in which store, if it can go on. -/
def runnable? (p : Pool) (i : Nat) : Option (Stack × Store) :=
  match p.threads[i]? with
  | some (.ready stack) => some (stack, p.store)
  | some .waiting =>
    match p.store.takeWakes i with
    | (stack :: _, σ) => some (stack, σ)
    | ([], _) => none
  | _ => none

/-- No computation can go on. -/
def Done (p : Pool) : Prop := ∀ i, p.runnable? i = none

/-- No computation has thrown what nothing catches. -/
def Unhalted (p : Pool) : Prop := ∀ (i : Nat) f, p.threads[i]? ≠ some (.halted f)

/-- The computation of that number now stands so. -/
def set (p : Pool) (i : Nat) (s : Status) (σ : Store) : Pool := ⟨σ, p.threads.set i s⟩

/-- What the computation of that number runs for. It is resumed through the queue of that number. -/
def context (ctxs : Nat → Context) (i : Nat) : Context := { ctxs i with resumer := .queue i }

/-- A computation that can go on executes a slice of such code. -/
inductive Turn (ctxs : Nat → Context) (code : CodeClass) (p : Pool) : Pool → Prop where
  | slice {i : Nat} {stack : Stack} {σ : Store} (n : Nat) (h : p.runnable? i = some (stack, σ))
      (hcode : (context ctxs i).Obeys code n stack σ) :
      Turn ctxs code p (p.set i ((context ctxs i).compute n stack 0 σ).advice.status
        ((context ctxs i).compute n stack 0 σ).store)

/-- Any number of turns with such code. -/
abbrev Schedule (ctxs : Nat → Context) (code : CodeClass) : Pool → Pool → Prop := Relation.ReflTransGen (Turn ctxs code)

/-! ## Single instructions -/

/-- What a schedule is made of. The list names the computation that has executed an instruction. -/
inductive Act (ctxs : Nat → Context) (code : CodeClass) (p : Pool) : List Nat → Pool → Prop where
  /-- A computation that has been woken is taken from the log. -/
  | wake {i : Nat} {stack : Stack} {more : List Stack} {σ : Store} (h : p.threads[i]? = some .waiting)
      (hwoken : p.store.takeWakes i = (stack :: more, σ)) : Act ctxs code p [] (p.set i (.ready stack) σ)
  /-- Traps on top of a computation are dropped. -/
  | drop {i : Nat} {stack rest : Stack} {instr : Instr} {env : Env} (h : p.threads[i]? = some (.ready stack))
      (hnext : next? stack = some (instr, env, rest)) :
      Act ctxs code p [] (p.set i (.ready (.run instr env :: rest)) p.store)
  | finish {i : Nat} {stack : Stack} (h : p.threads[i]? = some (.ready stack)) (hnext : next? stack = none) :
      Act ctxs code p [] (p.set i .ended p.store)
  | go {i : Nat} {stack rest stack' : Stack} {instr : Instr} {env : Env} {σ : Store}
      (h : p.threads[i]? = some (.ready stack)) (hnext : next? stack = some (instr, env, rest))
      (hcode : code instr env p.store) (hstep : (context ctxs i).step instr env rest p.store = (.next stack', σ)) :
      Act ctxs code p [i] (p.set i (.ready stack') σ)
  | wait {i : Nat} {stack rest : Stack} {instr : Instr} {env : Env} {x : VarId} {σ : Store}
      (h : p.threads[i]? = some (.ready stack)) (hnext : next? stack = some (instr, env, rest))
      (hcode : code instr env p.store) (hstep : (context ctxs i).step instr env rest p.store = (.waiting x, σ)) :
      Act ctxs code p [] (p.set i .waiting σ)
  | halt {i : Nat} {stack rest : Stack} {instr : Instr} {env : Env} {f : FailureId} {σ : Store}
      (h : p.threads[i]? = some (.ready stack)) (hnext : next? stack = some (instr, env, rest))
      (hstep : (context ctxs i).step instr env rest p.store = (.halted f, σ)) :
      Act ctxs code p [] (p.set i (.halted f) σ)

/-- Any number of them; the list names who has executed an instruction, one after the other. -/
inductive Acts (ctxs : Nat → Context) (code : CodeClass) (p : Pool) : List Nat → Pool → Prop where
  | refl : Acts ctxs code p [] p
  | tail {q r : Pool} {l l' : List Nat} (h : Acts ctxs code p l q) (hact : Act ctxs code q l' r) :
      Acts ctxs code p (l ++ l') r

variable {ctxs : Nat → Context} {code : CodeClass} {p q r : Pool} {i : Nat} {stack : Stack} {σ : Store}

theorem Act.acts {l : List Nat} (h : Act ctxs code p l q) : Acts ctxs code p l q := .tail .refl h

/-- Schedules can be put one after the other. -/
theorem Acts.trans {l l' : List Nat} (h : Acts ctxs code p l q) (h' : Acts ctxs code q l' r) :
    Acts ctxs code p (l ++ l') r := by
  induction h' with
  | refl =>
    rw [List.append_nil]
    exact h
  | tail _ hact ih =>
    rw [← List.append_assoc]
    exact .tail ih hact

theorem set_set (p : Pool) (i : Nat) (s t : Status) (σ τ : Store) : (p.set i s σ).set i t τ = p.set i t τ := by
  simp [set]

/-- Setting one thread changes no other. -/
theorem set_threads (hi : i < p.threads.length) (s : Status) (σ : Store) (j : Nat) :
    (p.set i s σ).threads[j]? = if j = i then some s else p.threads[j]? := by
  by_cases hji : j = i
  · subst hji
    simp [set, hi]
  · simp [set, hji, Ne.symm hji]

theorem set_self (h : p.threads[i]? = some (.ready stack)) : p.set i (.ready stack) p.store = p := by
  obtain ⟨hi, hget⟩ := List.getElem?_eq_some_iff.mp h
  rw [set, ← hget, List.set_getElem_self hi]

/-- A slice is made of single instructions. -/
theorem acts_of_compute (n executed : Nat) (hi : i < p.threads.length)
    (hcode : (context ctxs i).Obeys code n stack σ) :
    ∃ l, Acts ctxs code (p.set i (.ready stack) σ) l
      (p.set i ((context ctxs i).compute n stack executed σ).advice.status
        ((context ctxs i).compute n stack executed σ).store) := by
  induction n generalizing stack σ executed with
  | zero =>
    have hready : (p.set i (.ready stack) σ).threads[i]? = some (.ready stack) := by
      rw [set_threads hi, if_pos rfl]
    rcases hnext : next? stack with _ | ⟨instr, env, rest⟩
    · rw [Context.compute_of_next?_eq_none hnext]
      have hfinish : Act ctxs code (p.set i (.ready stack) σ) [] _ := .finish hready hnext
      rw [set_set] at hfinish
      exact ⟨_, hfinish.acts⟩
    · rw [Context.compute_zero hnext]
      have hdrop : Act ctxs code (p.set i (.ready stack) σ) [] _ := .drop hready hnext
      rw [set_set] at hdrop
      exact ⟨_, hdrop.acts⟩
  | succ n ih =>
    have hready : (p.set i (.ready stack) σ).threads[i]? = some (.ready stack) := by
      rw [set_threads hi, if_pos rfl]
    rcases hnext : next? stack with _ | ⟨instr, env, rest⟩
    · rw [Context.compute_of_next?_eq_none hnext]
      have hfinish : Act ctxs code (p.set i (.ready stack) σ) [] _ := .finish hready hnext
      rw [set_set] at hfinish
      exact ⟨_, hfinish.acts⟩
    · have hfirst : code instr env σ := hcode 0 stack σ instr env rest (Nat.succ_pos n) (.refl _) hnext
      rw [Context.compute_succ hnext]
      rcases hstep : (context ctxs i).step instr env rest σ with ⟨stack' | x | f, τ⟩
      · have hlater : (context ctxs i).Obeys code n stack' τ := by
          intro m stack₁ σ₁ instr₁ env₁ rest₁ hm hruns hnext₁
          exact hcode (m + 1) stack₁ σ₁ instr₁ env₁ rest₁ (Nat.succ_lt_succ hm) (.step hnext hstep hruns) hnext₁
        have hgo : Act ctxs code (p.set i (.ready stack) σ) [i] _ := .go hready hnext hfirst hstep
        rw [set_set] at hgo
        obtain ⟨l, hacts⟩ := ih (executed + 1) hlater
        exact ⟨_, hgo.acts.trans hacts⟩
      · have hwait : Act ctxs code (p.set i (.ready stack) σ) [] _ := .wait hready hnext hfirst hstep
        rw [set_set] at hwait
        exact ⟨_, hwait.acts⟩
      · have hhalt : Act ctxs code (p.set i (.ready stack) σ) [] _ := .halt hready hnext hstep
        rw [set_set] at hhalt
        exact ⟨_, hhalt.acts⟩

/-- A thread that can run is ready, or it waits and the store has woken its stack. -/
theorem runnable?_cases (h : p.runnable? i = some (stack, σ)) :
    (p.threads[i]? = some (.ready stack) ∧ σ = p.store) ∨
      p.threads[i]? = some .waiting ∧ ∃ more, p.store.takeWakes i = (stack :: more, σ) := by
  rw [runnable?] at h
  split at h
  · next s hs =>
    cases h
    exact .inl ⟨hs, rfl⟩
  · next hwaiting =>
    split at h
    · next s more τ hwoken =>
      cases h
      exact .inr ⟨hwaiting, more, hwoken⟩
    · cases h
  · cases h

/-- **A turn is made of single instructions.** -/
theorem Turn.acts (h : Turn ctxs code p q) : ∃ l, Acts ctxs code p l q := by
  obtain ⟨n, hrunnable, hcode⟩ := h
  rcases runnable?_cases hrunnable with ⟨hready, rfl⟩ | ⟨hwaiting, more, hwoken⟩
  · have hacts := acts_of_compute n 0 (List.getElem?_eq_some_iff.mp hready).1 hcode
    rwa [set_self hready] at hacts
  · obtain ⟨l, hacts⟩ := acts_of_compute n 0 (List.getElem?_eq_some_iff.mp hwaiting).1 hcode
    have hwake : Act ctxs code p [] _ := .wake hwaiting hwoken
    exact ⟨_, hwake.acts.trans hacts⟩

/-- So is a schedule. -/
theorem Schedule.acts (h : Schedule ctxs code p q) : ∃ l, Acts ctxs code p l q := by
  induction h with
  | refl => exact ⟨_, .refl⟩
  | tail _ hturn ih =>
    obtain ⟨l, hacts⟩ := ih
    obtain ⟨l', hmore⟩ := hturn.acts
    exact ⟨_, hacts.trans hmore⟩

end Pool

end Dataflow
