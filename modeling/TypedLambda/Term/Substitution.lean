import TypedLambda.Fault

/-!
# Shifting and substitution

Both walk a term and act at its variables only. `Term.traverse` is that walk: it tells the
action how many binders stand between the root and the variable. An abstraction and a
branch add one binder, the body of a let adds those of its pattern.
-/

namespace TypedLambda

def Pattern.arity (pattern : Pattern) : Except Fault Nat :=
  match pattern.length? with
  | some n => .ok n
  | none => .error .unsupported

namespace Term

mutual

/-- Replace every variable by what `act` makes of it, given the number `k` of binders
above it. -/
def traverse (act : Nat → Int → String → Except Fault Term) (k : Nat) :
    Term → Except Fault Term
  | .unit => .ok .unit
  | .bool value => .ok (.bool value)
  | .zero => .ok .zero
  | .succ term => do return .succ (← term.traverse act k)
  | .pred term => do return .pred (← term.traverse act k)
  | .isZero term => do return .isZero (← term.traverse act k)
  | .var index name => act k index name
  | .abs name ty body => do return .abs name ty (← body.traverse act (k + 1))
  | .app function argument => do
      let function ← function.traverse act k
      let argument ← argument.traverse act k
      return .app function argument
  | .ite condition yes no => do
      let condition ← condition.traverse act k
      let yes ← yes.traverse act k
      let no ← no.traverse act k
      return .ite condition yes no
  | .tuple fields => do return .tuple (← traverseFields act k fields)
  | .letIn pattern value body => do
      let value ← value.traverse act k
      let n ← pattern.arity
      let body ← body.traverse act (k + n)
      return .letIn pattern value body
  | .tag label payload ty => do return .tag label (← payload.traverse act k) ty
  | .case scrutinee branches => do
      let scrutinee ← scrutinee.traverse act k
      let branches ← traverseBranches act (k + 1) branches
      return .case scrutinee branches
  | .fix term => do return .fix (← term.traverse act k)
  | .foreign => .error .foreignTerm

def traverseFields (act : Nat → Int → String → Except Fault Term) (k : Nat) :
    List (String × Term) → Except Fault (List (String × Term))
  | [] => .ok []
  | (label, term) :: rest => do
      let term ← term.traverse act k
      let rest ← traverseFields act k rest
      return (label, term) :: rest

def traverseBranches (act : Nat → Int → String → Except Fault Term) (k : Nat) :
    List (String × Branch Term) → Except Fault (List (String × Branch Term))
  | [] => .ok []
  | (key, ⟨label, name, body⟩) :: rest => do
      let body ← body.traverse act k
      let rest ← traverseBranches act k rest
      return (key, ⟨label, name, body⟩) :: rest

end

def shiftVar (d cutoff : Int) (k : Nat) (index : Int) (name : String) : Term :=
  if index < cutoff + k then .var index name else .var (index + d) name

/-- Add `d` to every index that is free above `cutoff`. A shift by nothing does not look
at the term. -/
def shift (d cutoff : Int) (term : Term) : Except Fault Term :=
  if d = 0 then .ok term
  else term.traverse (fun k index name => .ok (shiftVar d cutoff k index name)) 0

/-- Replace the variable that is `j + cutoff` at the root by `s`. The replacement is
shifted at each place by the binders above it, `cutoff` included, so that its own free
variables keep pointing outwards. -/
def substitute (j : Int) (s : Term) (term : Term) (cutoff : Int) : Except Fault Term :=
  term.traverse (fun k index name =>
    if index = j + (cutoff + k) then s.shift (cutoff + k) 0 else .ok (.var index name)) 0

def substTop (s body : Term) : Except Fault Term := do
  let s ← s.shift 1 0
  let body ← substitute 0 s body 0
  body.shift (-1) 0

/-- Put the terms in place of indices 0, 1, and so on of the body of a binder of as many
variables. The terms live outside of the binder, so each is shifted over those that are
still to be dropped. -/
def instantiate : List Term → Term → Except Fault Term
  | [], body => .ok body
  | s :: rest, body => do
      let s ← s.shift rest.length 0
      let body ← substTop s body
      instantiate rest body

end Term

end TypedLambda
