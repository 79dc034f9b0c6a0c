import TypedLambda.Evaluation.Match
import TypedLambda.Term.Substitution
import TypedLambda.Term.Value

/-!
# Single reductions

`contract?` holds the rules that reduce a term at its root; `step` finds the place where
one of them applies. Arguments, bound values, payloads and fields are reduced before they
are used, from left to right.
-/

namespace TypedLambda.Term

def openLet (pattern : Pattern) (value body : Term) : Except Fault Term := do
  let bindings ← pattern.destructure value
  instantiate (bindings.map Prod.snd) body

/-- The contraction of a term that is a redex itself. A case over a tag without a branch
for it is refused as a whole. -/
def contract? : Term → Option (Except Fault Term)
  | .app (.abs _ _ body) argument =>
      if argument.isValue then some (substTop argument body) else none
  | .ite (.bool true) yes _ => some (.ok yes)
  | .ite (.bool false) _ no => some (.ok no)
  | .pred .zero => some (.ok .zero)
  | .pred (.succ term) => if term.isNumeral then some (.ok term) else none
  | .isZero .zero => some (.ok (.bool true))
  | .isZero (.succ term) => if term.isNumeral then some (.ok (.bool false)) else none
  | .letIn pattern value body =>
      if value.isValue then some (openLet pattern value body) else none
  | .case (.tag label payload ty) branches =>
      if payload.isValue then
        match branches.lookup label with
        | some branch => some (substTop payload branch.body)
        | none => some (.error (.noRule (.case (.tag label payload ty) branches)))
      else none
  | .fix (.abs name ty body) => some (substTop (.fix (.abs name ty body)) body)
  | _ => none

mutual

/-- One reduction. Where none is possible, the fault names the part that has no rule. -/
def step (term : Term) : Except Fault Term :=
  match term.contract? with
  | some result => result
  | none =>
    match term with
    | .app function argument =>
        if function.isValue then (step argument).map (.app function ·)
        else (step function).map (.app · argument)
    | .ite condition yes no => (step condition).map (.ite · yes no)
    | .succ inner => (step inner).map .succ
    | .pred inner => (step inner).map .pred
    | .isZero inner => (step inner).map .isZero
    | .tuple fields =>
        match stepFields fields with
        | some result => result.map .tuple
        | none => .error (.noRule (.tuple fields))
    | .letIn pattern value body => (step value).map (.letIn pattern · body)
    | .tag label payload ty => (step payload).map (.tag label · ty)
    | .case scrutinee branches => (step scrutinee).map (.case · branches)
    | .fix inner => (step inner).map .fix
    | other => .error (.noRule other)

def stepFields : List (String × Term) → Option (Except Fault (List (String × Term)))
  | [] => none
  | (label, term) :: rest =>
      if term.isValue then (stepFields rest).map (Except.map ((label, term) :: ·))
      else some ((step term).map fun term => (label, term) :: rest)

end

end TypedLambda.Term
