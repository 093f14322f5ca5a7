import MachineLiveness.Liveness

/-!
The log that building a unit and analysing it leaves.
-/

namespace MachineLiveness

inductive Level where
  | debug
  | trace
  deriving DecidableEq, Repr

def Level.text : Level → String
  | .debug => "DEBUG"
  | .trace => "TRACE"

inductive Event where
  /-- A draft was frozen. -/
  | finished (blocks : Nat) (temps : PerBank UInt32) (slots : Nat)
  /-- The analysis of a universe begins. -/
  | computing (u : Universe) (blocks size : Nat)
  /-- A dirty block was visited. -/
  | visited (u : Universe) (visit : Visit)
  /-- The analysis of a universe came to its end. -/
  | converged (u : Universe) (stats : Stats)
  deriving DecidableEq, Repr

namespace Event

def level : Event → Level
  | finished .. | visited .. => .trace
  | computing .. | converged .. => .debug

def message : Event → String
  | finished .. => "code finished"
  | computing .. => "computing liveness"
  | visited .. => "visited block"
  | converged .. => "liveness converged"

def ofCode (c : Code) : Event := finished c.blocks.size c.temps c.slots.size

/-- The log of one universe, and the fault that ended it, if one did. -/
def ofRun (c : Code) (u : Universe) : List Event × Option Fault :=
  let log (p : Propagation) := computing u c.blocks.size (u.size c) :: p.visits.toList.map (visited u)
  match Propagation.run c u with
  | .ok p => (log p ++ [converged u p.stats], none)
  | .error e => (log e.state, some e.fault)

/-- The log of several universes; a fault in one of them ends it. -/
def ofRuns (c : Code) : List Universe → List Event × Option Fault
  | [] => ([], none)
  | u :: us =>
    match ofRun c u with
    | (log, some f) => (log, some f)
    | (log, none) =>
      let (rest, f) := ofRuns c us
      (log ++ rest, f)

/-- The log of the whole analysis of a unit. -/
def ofAnalysis (c : Code) : List Event × Option Fault := ofRuns c Universe.all

end Event

end MachineLiveness
