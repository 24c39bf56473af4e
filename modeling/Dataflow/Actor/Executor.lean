/-
The executor's account of the turns that actors have had. The counters have 64 bits and start again at zero
when they overflow.
-/

set_option autoImplicit false

namespace Dataflow

/-- Numbers of turns, of items handled in them, and of turns that a preemption ended. -/
structure TurnStats where
  turns : UInt64 := 0
  items : UInt64 := 0
  preemptions : UInt64 := 0
  deriving Repr, DecidableEq

namespace TurnStats

/-- Accounts for a turn. -/
def record (s : TurnStats) (items : Nat) (preempted : Bool) : TurnStats :=
  { turns := s.turns + 1
    items := s.items + .ofNat items
    preemptions := s.preemptions + if preempted then 1 else 0 }

/-- What has been added since `earlier`. -/
def since (s earlier : TurnStats) : TurnStats :=
  { turns := s.turns - earlier.turns
    items := s.items - earlier.items
    preemptions := s.preemptions - earlier.preemptions }

end TurnStats

/-- An executor: it takes work while it is running. -/
structure Executor where
  workers : Nat
  running : Bool := true
  stats : TurnStats := {}
  deriving Repr, DecidableEq

namespace Executor

/-- Refuses further work. -/
def shutdown (e : Executor) : Executor := { e with running := false }

/-- Accounts for a turn. -/
def record (e : Executor) (items : Nat) (preempted : Bool) : Executor :=
  { e with stats := e.stats.record items preempted }

end Executor

end Dataflow
