import TypedLambda.Naming
import TypedLambda.Typing

/-!
# Scripts

A script is a list of named terms followed by a body. Each named term sees those before
it, the latest at index 0, and so does the body. Folding a script makes one term of it:
each name becomes the parameter of an abstraction that is applied to the named term.
-/

namespace TypedLambda

structure Script where
  bindings : List (String × Term)
  body : Term

namespace Script

def bindingText (binding : String × Term) : Text := binding.1 ++ " = " ++ binding.2.text

def text (script : Script) : Text :=
  script.bindings.foldr (fun binding rest => bindingText binding ++ "; " ++ rest)
    script.body.text

def naming (script : Script) (outer : Scope) : Scope :=
  script.bindings.foldl (fun scope binding => scope.bind binding.1) outer

/-- The types of named terms, each under those before it. -/
def typesOf (detect : Bool) : Context → List (String × Term) → Except Fault (List Ty)
  | _, [] => .ok []
  | Γ, (name, term) :: rest => do
      let ty ← Fault.blame (.namedTerm name) (term.infer detect Γ)
      let types ← typesOf detect (Γ.extend [ty]) rest
      return ty :: types

def bindingTypes (detect : Bool) (Γ : Context) (script : Script) : Except Fault (List Ty) :=
  typesOf detect Γ script.bindings

def wrap : List (String × Term) → List Ty → Term → Term
  | (name, term) :: bindings, ty :: types, body =>
      .app (.abs name ty (wrap bindings types body)) term
  | _, _, body => body

/-- The script as one term. The named terms have to have types. -/
def fold (detect : Bool) (Γ : Context) (script : Script) : Except Fault Term := do
  let types ← script.bindingTypes detect Γ
  return wrap script.bindings types script.body

end Script

end TypedLambda
