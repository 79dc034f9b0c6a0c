import TypedLambda.Evaluation.Step
import TypedLambda.Event
import TypedLambda.Settings.Basic

/-!
# Runs

A run repeats `Term.step` until it meets a value. It looks for a value first, then at the
budget, and takes a step only after both.
-/

namespace TypedLambda

inductive Ending where
  | value (term : Term)
  | stuck (term : Term)
  | exhausted (term : Term)
  /-- A step failed in another way than by having no rule. -/
  | failed (fault : Fault)

namespace Term

/-- Run for at most `budget` steps, after `taken` of them. New events go in front of
`events`, the latest first. -/
def reduce (trace : Bool) : Nat → Nat → Term → List Event → Ending × List Event
  | 0, taken, term, events =>
      if term.isValue then (.value term, .finished taken term :: events)
      else (.exhausted term, events)
  | budget + 1, taken, term, events =>
      if term.isValue then (.value term, .finished taken term :: events)
      else
        match term.step with
        | .ok next =>
            reduce trace budget (taken + 1) next
              (if trace then .stepped (taken + 1) next :: events else events)
        | .error (.noRule _) => (.stuck term, events)
        | .error fault => (.failed fault, events)

/-- Run to a value. Where the settings have no limit, `fuel` bounds the run in its place;
a run that spends it all is unfinished, which says nothing about the term. -/
def evaluate (settings : Settings) (fuel : Nat) (term : Term) : Logged Term :=
  let budget := settings.maxSteps.getD fuel
  let (ending, events) := reduce settings.traceSteps budget 0 term [.started term]
  let outcome : Except Fault Term :=
    match ending with
    | .value value => .ok value
    | .stuck term => .error (.stuck term)
    | .exhausted term =>
        match settings.maxSteps with
        | some limit => .error (.stepLimit limit term)
        | none => .error (.unfinished term)
    | .failed fault => .error fault
  ⟨outcome, events.reverse⟩

end Term

end TypedLambda
