import TypedLambda.Alias

/-!
# Type inference

`infer` computes the type of a term. Each form has a rule: a function from the types of
the parts to the type of the whole. Every type that `infer` returns has its aliases
resolved, so types are compared by `Ty.same`.

Tuples, record patterns and cases report the errors of all their parts together.
-/

namespace TypedLambda

open Fault (blame collect)

def reject {α : Type} (error : TypeError) : Except Fault α := .error (.illTyped error)

namespace Rule

def ite (condition yes no : Except Fault Ty) : Except Fault Ty := do
  let condition ← condition
  if condition.same .bool then
    let yes ← yes
    let no ← no
    if yes.same no then return yes else reject (.branchesDiffer yes no)
  else reject (.condition condition)

def number (operator : String) (term : Term) (operand : Except Fault Ty) (result : Ty) :
    Except Fault Ty := do
  let operand ← operand
  if operand.same .int then return result else reject (.notNumber operator term operand)

def app (f a : Term) (function argument : Except Fault Ty) : Except Fault Ty := do
  let function ← blame (.function f) function
  let argument ← blame (.argument a) argument
  match function with
  | .arrow param result =>
      if param.same argument then return result else reject (.argumentType param a argument)
  | _ => reject (.notFunction f function)

def tuple (fields : List (String × Except Fault Ty)) : Except Fault Ty := do
  let fields ← collect .tuple (fields.map fun (label, outcome) =>
    (blame (.inField label) outcome).map fun ty => (label, ty))
  return .product fields

/-- The ascribed type decides the type of a tag; the payload is looked at only when the
label is in it. -/
def tag (label : String) (ascribed payload : Except Fault Ty) : Except Fault Ty := do
  let ascribed ← ascribed
  match ascribed with
  | .sum variants =>
    match variants.lookup label with
    | none => reject (.tagLabel label ascribed)
    | some expected =>
        let payload ← payload
        if payload.same expected then return ascribed
        else reject (.tagPayload label expected payload)
  | _ => reject (.tagType label ascribed)

/-- One outcome for each label of the sum, in its order, and one for each branch that has
no label there. -/
def branches (variants : List (String × Ty)) (keys : List String)
    (outcomes : List (String × Except Fault Ty)) : List (Except Fault (String × Ty)) :=
  (variants.map fun (label, _) =>
    match outcomes.lookup label with
    | none => reject (.missingBranch label)
    | some outcome => (blame (.inBranch label) outcome).map fun ty => (label, ty)) ++
  (keys.filter fun key => !Table.has key variants).map fun key =>
    reject (.extraBranch key (.sum variants))

def joinBranches (scrutinee : Ty) (types : List (String × Ty)) : Except Fault Ty :=
  match types with
  | [] => reject (.noVariants scrutinee)
  | (_, ty) :: rest =>
      if rest.all fun other => other.2.same ty then .ok ty else reject (.branchTypes types)

def fix (function : Except Fault Ty) : Except Fault Ty := do
  let function ← function
  match function with
  | .arrow param result =>
      if param.same result then return result else reject (.fixType function)
  | _ => reject (.fixType function)

end Rule

namespace Context

def resolve (detect : Bool) (Γ : Context) (ty : Ty) : Except Fault Ty :=
  ty.resolve detect Γ.aliases

end Context

mutual

/-- The types of the variables of a pattern that meets a value of type `ty`, in binding
order. -/
def Pattern.bind (detect : Bool) (Γ : Context) : Pattern → Ty → Except Fault (List Ty)
  | .var _, ty => do return [← Γ.resolve detect ty]
  | .record fields, ty => do
      let ty ← Γ.resolve detect ty
      match ty with
      | .product types =>
          let bound ← collect (.pattern (.record fields) ty) (bindFields detect Γ fields types)
          return bound.flatten
      | _ => reject (.notRecord (.record fields) ty)
  | .foreign, _ => .error .foreignPattern

def Pattern.bindFields (detect : Bool) (Γ : Context) :
    List (String × Pattern) → List (String × Ty) → List (Except Fault (List Ty))
  | [], _ => []
  | (label, pattern) :: rest, types =>
      (match types.lookup label with
        | none => reject (.noLabel label (.product types))
        | some ty => pattern.bind detect Γ ty) :: bindFields detect Γ rest types

end

mutual

def Term.infer (detect : Bool) (Γ : Context) : Term → Except Fault Ty
  | .unit => .ok .unit
  | .bool _ => .ok .bool
  | .zero => .ok .int
  | .succ term => Rule.number "succ" term (term.infer detect Γ) .int
  | .pred term => Rule.number "pred" term (term.infer detect Γ) .int
  | .isZero term => Rule.number "isZero" term (term.infer detect Γ) .bool
  | .var index name =>
      match Γ.lookup? index with
      | some ty => Γ.resolve detect ty
      | none => reject (.unbound name index Γ)
  | .abs _ ty body => do
      let result ← body.infer detect (Γ.extend [ty])
      let param ← Γ.resolve detect ty
      return .arrow param result
  | .app f a => Rule.app f a (f.infer detect Γ) (a.infer detect Γ)
  | .ite condition yes no =>
      Rule.ite (condition.infer detect Γ) (yes.infer detect Γ) (no.infer detect Γ)
  | .tuple fields => Rule.tuple (inferFields detect Γ fields)
  | .letIn pattern value body => do
      let ty ← blame (.letValue value) (value.infer detect Γ)
      let types ← pattern.bind detect Γ ty
      body.infer detect (Γ.extend types)
  | .tag label payload ty => Rule.tag label (Γ.resolve detect ty) (payload.infer detect Γ)
  | .case scrutinee branches => do
      let ty ← scrutinee.infer detect Γ
      match ty with
      | .sum variants =>
          let types ← collect .case
            (Rule.branches variants (Table.keys branches)
              (inferBranches detect Γ variants branches))
          Rule.joinBranches ty types
      | _ => reject (.notVariant scrutinee ty)
  | .fix term => Rule.fix (term.infer detect Γ)
  | .foreign => .error .foreignTerm

def Term.inferFields (detect : Bool) (Γ : Context) :
    List (String × Term) → List (String × Except Fault Ty)
  | [] => []
  | (label, term) :: rest => (label, term.infer detect Γ) :: inferFields detect Γ rest

/-- The types of the branches that have a label in the sum, each under its payload. -/
def Term.inferBranches (detect : Bool) (Γ : Context) (variants : List (String × Ty)) :
    List (String × Branch Term) → List (String × Except Fault Ty)
  | [] => []
  | (key, ⟨_, _, body⟩) :: rest =>
      match variants.lookup key with
      | none => inferBranches detect Γ variants rest
      | some payload =>
          (key, body.infer detect (Γ.extend [payload])) :: inferBranches detect Γ variants rest

end

end TypedLambda
