import TypedLambda.Term.Substitution

/-!
# Scopes of names

A scope lists the names in sight, innermost first, so that the position of a name is its
de Bruijn index. An inner name hides an outer one that is spelled the same.
-/

namespace TypedLambda

structure Scope where
  names : List String := []
deriving DecidableEq

namespace Scope

def bind (scope : Scope) (name : String) : Scope := ⟨name :: scope.names⟩

def bindPattern (scope : Scope) (pattern : Pattern) : Except Fault Scope :=
  match pattern.variables? with
  | some names => .ok ⟨names ++ scope.names⟩
  | none => .error .unsupported

/-- The index of the innermost binding of a name. -/
def indexOf (scope : Scope) (name : String) : Except Fault Nat :=
  match scope.names.idxOf? name with
  | some index => .ok index
  | none => .error (.unboundName name)

def var (scope : Scope) (name : String) : Except Fault Term := do
  let index ← scope.indexOf name
  return .var index name

def nameOf (scope : Scope) (index : Int) : Except Fault String :=
  let outside : Except Fault String := .error (.outOfScope index scope.names.length)
  if index < 0 then outside
  else
    match scope.names[index.toNat]? with
    | some name => .ok name
    | none => outside

def contains (scope : Scope) (name : String) : Bool := scope.names.contains name

def size (scope : Scope) : Nat := scope.names.length

end Scope

end TypedLambda
