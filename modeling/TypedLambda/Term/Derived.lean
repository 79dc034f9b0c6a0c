import TypedLambda.Term.Substitution

/-!
# Derived forms

Constructs that need no rules of their own: each is built out of the forms of the language.
-/

namespace TypedLambda.Term

def ofInt (n : Int) : Except Fault Term :=
  if n < 0 then .error (.negativeNumeral n) else .ok (numeral n.toNat)

def ascribe (term : Term) (ty : Ty) : Term := .app (.abs "x" ty (.var 0 "x")) term

/-- `term.label`: a let that binds the one field. -/
def project (term : Term) (label : String) : Term :=
  .letIn (.record [(label, .var "x")]) term (.var 0 "x")

def letVar (name : String) (value body : Term) : Term := .letIn (.var name) value body

/-- `letrec name : ty = value in body`, where both see the name at index 0. -/
def letrec (name : String) (ty : Ty) (value body : Term) : Term :=
  .letIn (.var name) (.fix (.abs name ty value)) body

def sequence (first second : Term) : Except Fault Term := do
  let second ← second.shift 1 0
  return .app (.abs "_" .unit second) first

end TypedLambda.Term
