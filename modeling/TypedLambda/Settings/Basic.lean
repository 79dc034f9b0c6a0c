/-!
# Settings

What a caller may choose about checking and running a program.
-/

namespace TypedLambda

structure Settings where
  /-- The number of steps after which a run is given up, if there is one. -/
  maxSteps : Option Nat := none
  /-- Whether a type name defined through itself is reported. -/
  detectAliasCycles : Bool := true
  traceSteps : Bool := false
deriving DecidableEq

end TypedLambda
