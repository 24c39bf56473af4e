/-
Settings of a kernel and of an actor system.
-/

set_option autoImplicit false

namespace Dataflow

/-- Settings. -/
structure Config where
  /-- The name of the actor system. -/
  systemName : String := "klvm"
  /-- Instructions in a time slice. -/
  timeSlice : Nat := 10000
  workerThreads : Nat := 1
  /-- How long an answer is waited for, in milliseconds. -/
  askTimeout : Nat := 5000
  /-- Instructions that a computation outside of actors may execute. -/
  stepLimit : Nat := 1000000
  deriving Repr, DecidableEq

/-- The settings that must not be zero. -/
inductive Setting where
  | timeSlice | workerThreads | stepLimit
  deriving Repr, DecidableEq

/-- The name of a setting in configuration files. -/
def Setting.name : Setting → String
  | .timeSlice => "time_slice"
  | .workerThreads => "worker_threads"
  | .stepLimit => "configure_step_limit"

/-- What is wrong with a configuration. -/
inductive ConfigError where
  /-- The file cannot be read. -/
  | unreadable
  /-- The text is not a configuration. -/
  | malformed
  | notPositive (s : Setting)
  deriving Repr, DecidableEq

/-- The error in words; what is wrong with a file or text is left open. -/
def ConfigError.message : ConfigError → String
  | .unreadable => "Failed to read config"
  | .malformed => "Failed to parse config"
  | .notPositive s => "Invalid config: " ++ s.name ++ " must be positive"

namespace Config

/-- Settings with which a kernel makes progress. -/
structure Valid (c : Config) : Prop where
  timeSlice_pos : 0 < c.timeSlice
  workerThreads_pos : 0 < c.workerThreads
  stepLimit_pos : 0 < c.stepLimit

/-- The first setting that is zero and must not be. -/
def check (c : Config) : Except ConfigError (PLift c.Valid) :=
  if ht : 0 < c.timeSlice then
    if hw : 0 < c.workerThreads then
      if hs : 0 < c.stepLimit then .ok ⟨⟨ht, hw, hs⟩⟩
      else .error (.notPositive .stepLimit)
    else .error (.notPositive .workerThreads)
  else .error (.notPositive .timeSlice)

end Config

end Dataflow
