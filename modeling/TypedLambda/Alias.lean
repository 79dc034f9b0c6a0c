import TypedLambda.Fault

/-!
# Alias resolution

A base type whose name has a definition stands for that definition, whose own names are
looked up in turn. Two ways of following definitions are given. The guarded one remembers
the names that are being expanded and reports a name that comes up again; the free one
follows definitions wherever they lead, and fails if they lead nowhere.

A chain of definitions longer than the table has to repeat a name, so the length of the
table bounds both.
-/

namespace TypedLambda.Ty

mutual

def expand (define : String → Except Fault Ty) : Ty → Except Fault Ty
  | .bool => .ok .bool
  | .int => .ok .int
  | .unit => .ok .unit
  | .base name => define name
  | .arrow param result => do
      let param ← param.expand define
      let result ← result.expand define
      return .arrow param result
  | .product fields => do return .product (← expandEntries define fields)
  | .sum variants => do return .sum (← expandEntries define variants)
  | .foreign => .error .unsupported

def expandEntries (define : String → Except Fault Ty) :
    List (String × Ty) → Except Fault (List (String × Ty))
  | [] => .ok []
  | (label, ty) :: rest => do
      let ty ← ty.expand define
      let rest ← expandEntries define rest
      return (label, ty) :: rest

end

/-- The full expansion of a name, while the names in `seen` are being expanded. -/
def guarded (aliases : List (String × Ty)) : Nat → List String → String → Except Fault Ty
  | depth, seen, name =>
    match aliases.lookup name with
    | none => .ok (.base name)
    | some ty =>
      if seen.contains name then .error (.illTyped (.cyclicAlias name))
      else
        match depth with
        | 0 => .error (.illTyped (.cyclicAlias name))
        | depth + 1 => ty.expand (guarded aliases depth (name :: seen))

/-- The full expansion of a name through at most `depth` definitions. -/
def free (aliases : List (String × Ty)) : Nat → String → Except Fault Ty
  | depth, name =>
    match aliases.lookup name with
    | none => .ok (.base name)
    | some ty =>
      match depth with
      | 0 => .error .endlessAlias
      | depth + 1 => ty.expand (free aliases depth)

/-- Replace every defined name in a type by its definition, all the way down. With
`detect` a name defined through itself is a type error; without, it is a search that
never ends. -/
def resolve (detect : Bool) (aliases : List (String × Ty)) (ty : Ty) : Except Fault Ty :=
  if detect then ty.expand (guarded aliases aliases.length [])
  else ty.expand (free aliases aliases.length)

end TypedLambda.Ty
