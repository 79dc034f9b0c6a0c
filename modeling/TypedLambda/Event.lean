import TypedLambda.Fault
import TypedLambda.Logging.Level

/-!
# Events

What checking and running a program announce while they work, and the log line of each.
-/

namespace TypedLambda

inductive Event where
  | started (term : Term)
  | stepped (n : Nat) (term : Term)
  | finished (steps : Nat) (value : Term)
  | rejected (term : Term) (error : TypeError)

namespace Event

def level : Event → Logging.Level
  | .started _ => .debug
  | .stepped _ _ => .trace
  | .finished _ _ => .debug
  | .rejected _ _ => .debug

def text : Event → Text
  | .started term => "eval.start term=" ++ term.text
  | .stepped n term => "eval.step n=" ++ toString n ++ " term=" ++ term.text
  | .finished steps value =>
      "eval.done steps=" ++ toString steps ++ " value=" ++ value.text
  | .rejected term error => "typecheck.failed term=" ++ term.text ++ " error=" ++ error.text

def origin : Event → String × String
  | .rejected _ _ => ("fullsimple.core.checker", "type_of")
  | _ => ("fullsimple.eval.machine", "evaluate")

end Event

/-- What an operation came to, and the events on the way there, in order. -/
structure Logged (α : Type) where
  outcome : Except Fault α
  events : List Event

end TypedLambda
