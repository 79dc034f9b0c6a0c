import TypedLambda.Context

/-!
# Causes of failure

`TypeError` says why a term has no type, `Fault` why an operation gives no result. Both
are causes; their wording stands in `TypeError.text` and `Fault.text` alone.
-/

namespace TypedLambda

/-- Why a term has no type. An error that arose in a part of the term is wrapped by the
rule that met it. -/
inductive TypeError where
  | unbound (name : String) (index : Int) (Γ : Context)
  | condition (ty : Ty)
  | branchesDiffer (yes no : Ty)
  | notNumber (operator : String) (term : Term) (ty : Ty)
  | letValue (value : Term) (cause : TypeError)
  | function (term : Term) (cause : TypeError)
  | argument (term : Term) (cause : TypeError)
  | argumentType (expected : Ty) (argument : Term) (found : Ty)
  | notFunction (term : Term) (ty : Ty)
  | notRecord (pattern : Pattern) (ty : Ty)
  | noLabel (label : String) (ty : Ty)
  | tagType (label : String) (ty : Ty)
  | tagLabel (label : String) (ty : Ty)
  | tagPayload (label : String) (expected found : Ty)
  | notVariant (scrutinee : Term) (ty : Ty)
  | noVariants (ty : Ty)
  | missingBranch (label : String)
  | extraBranch (label : String) (ty : Ty)
  | branchTypes (types : List (String × Ty))
  | fixType (ty : Ty)
  | cyclicAlias (name : String)
  | namedTerm (name : String) (cause : TypeError)
  | inField (label : String) (cause : TypeError)
  | inBranch (label : String) (cause : TypeError)
  | tuple (causes : List TypeError)
  | pattern (pattern : Pattern) (ty : Ty) (causes : List TypeError)
  | case (causes : List TypeError)

namespace TypeError

def report (summary : Text) (failures : List Text) : Text :=
  failures.foldl (fun text failure => text ++ "\n  - " ++ failure) summary

mutual

def text : TypeError → Text
  | .unbound name index Γ =>
      "Could not find variable " ++ name ++ " (index " ++ toString index ++ ") in " ++ Γ.text
  | .condition ty => "Incorrect type of conditional: " ++ ty.text
  | .branchesDiffer yes no =>
      "Type of if branches don't match: " ++ yes.text ++ ", " ++ no.text
  | .notNumber operator term ty =>
      operator ++ " called on non-integer term " ++ term.text ++ " : " ++ ty.text
  | .letValue value cause =>
      "Couldn't typecheck let argument " ++ value.text ++ "\n" ++ cause.text
  | .function term cause => "Could not type function " ++ term.text ++ "\n" ++ cause.text
  | .argument term cause => "Could not type argument " ++ term.text ++ "\n" ++ cause.text
  | .argumentType expected term found =>
      "Incorrect application types, function expects " ++ expected.text ++ ", argument " ++
        term.text ++ " has type " ++ found.text
  | .notFunction term ty =>
      "Incorrect application, " ++ term.text ++ " : " ++ ty.text ++ " is not a function"
  | .notRecord p ty =>
      "Incorrect pattern types " ++ p.text ++ ", " ++ ty.text ++ ": not a record type"
  | .noLabel label ty => "label " ++ label ++ " is not in " ++ ty.text
  | .tagType label ty =>
      "Couldn't typecheck tag <" ++ label ++ ">: " ++ ty.text ++ " is not a variant type"
  | .tagLabel label ty =>
      "Couldn't typecheck tag: label " ++ label ++ " is not in " ++ ty.text
  | .tagPayload label expected found =>
      "Couldn't typecheck tag <" ++ label ++ ">: expected " ++ expected.text ++ ", got " ++
        found.text
  | .notVariant scrutinee ty =>
      "Couldn't typecheck case: " ++ scrutinee.text ++ " : " ++ ty.text ++ " is not a variant"
  | .noVariants ty => "Couldn't typecheck case: " ++ ty.text ++ " has no variants"
  | .missingBranch label => "missing branch for <" ++ label ++ ">"
  | .extraBranch label ty => "branch <" ++ label ++ "> is not a label of " ++ ty.text
  | .branchTypes types =>
      "Couldn't typecheck case, branch types don't match: " ++
        Text.join ", " (types.map fun (entry : String × Ty) =>
          "<" ++ entry.1 ++ ">: " ++ entry.2.text)
  | .fixType ty => "fix expects a function of type T -> T, got " ++ ty.text
  | .cyclicAlias name => "Cyclic type alias: " ++ name
  | .namedTerm name cause => "Could not type named term " ++ name ++ "\n" ++ cause.text
  | .inField label cause => label ++ ": " ++ cause.text
  | .inBranch label cause => "<" ++ label ++ ">: " ++ cause.text
  | .tuple causes => report "Tuple contents has incorrect type." (causeTexts causes)
  | .pattern p ty causes =>
      report ("Incorrect pattern types " ++ p.text ++ ", " ++ ty.text) (causeTexts causes)
  | .case causes => report "Couldn't typecheck case." (causeTexts causes)

def causeTexts : List TypeError → List Text
  | [] => []
  | cause :: rest => cause.text :: causeTexts rest

end

theorem causeTexts_eq_map (causes : List TypeError) : causeTexts causes = causes.map text := by
  induction causes with
  | nil => rfl
  | cons cause rest ih => simp [causeTexts, ih]

end TypeError

inductive Fault where
  | illTyped (error : TypeError)
  | endlessAlias
  /-- A term of no form, where every form has a rule of its own. -/
  | foreignTerm
  | foreignPattern
  /-- A type or pattern of no form was asked for a part that only the forms have. -/
  | unsupported
  | noRule (term : Term)
  | noMatch (pattern : Pattern) (term : Term)
  | missingLabel (label : String)
  | unboundName (name : String)
  | unboundIndex (index : Int) (size : Nat)
  | outOfScope (index : Int) (size : Nat)
  | negativeNumeral (value : Int)
  | stuck (term : Term)
  | stepLimit (limit : Nat) (term : Term)
  /-- An unlimited run was cut off after the steps that its caller could afford. -/
  | unfinished (term : Term)

namespace Fault

def text : Fault → Text
  | .illTyped error => error.text
  | .endlessAlias => ""
  | .foreignTerm => "Unknown term type: <class 'fullsimple.core.ast.Term'>"
  | .foreignPattern => "Unknown pattern type: <class 'fullsimple.core.ast.Pattern'>"
  | .unsupported => ""
  | .noRule term => term.text
  | .noMatch pattern term => "Cannot match " ++ term.text ++ " against pattern " ++ pattern.text
  | .missingLabel label => label
  | .unboundName name => name
  | .unboundIndex index size =>
      "Variable index " ++ toString index ++ " is not bound in context with " ++
        toString size ++ " variables"
  | .outOfScope index size =>
      "Variable index " ++ toString index ++ " out of bounds in naming context of " ++
        toString size
  | .negativeNumeral value => "Numerals are natural numbers, got " ++ toString value
  | .stuck term => "Evaluation is stuck at " ++ term.text
  | .stepLimit limit _ => "No value after " ++ toString limit ++ " reduction steps"
  | .unfinished _ => ""

/-- Wrap the type error of a part of a term; any other fault passes unchanged. -/
def blame {α : Type} (wrap : TypeError → TypeError) : Except Fault α → Except Fault α
  | .error (.illTyped error) => .error (.illTyped (wrap error))
  | outcome => outcome

/-- The results and the type errors of several outcomes, each in order. The first fault of
another kind ends the whole. -/
def gather {α : Type} : List (Except Fault α) → Except Fault (List α × List TypeError)
  | [] => .ok ([], [])
  | .ok a :: rest => (gather rest).map fun (results, errors) => (a :: results, errors)
  | .error (.illTyped error) :: rest =>
      (gather rest).map fun (results, errors) => (results, error :: errors)
  | .error fault :: _ => .error fault

def collect {α : Type} (summary : List TypeError → TypeError)
    (outcomes : List (Except Fault α)) : Except Fault (List α) :=
  match gather outcomes with
  | .error fault => .error fault
  | .ok (results, []) => .ok results
  | .ok (_, errors) => .error (.illTyped (summary errors))

end Fault

namespace Context

def typeAt (Γ : Context) (index : Int) : Except Fault Ty :=
  match Γ.lookup? index with
  | some ty => .ok ty
  | none => .error (.unboundIndex index Γ.size)

end Context

end TypedLambda
