import TypedLambda.Pattern
import TypedLambda.Ty

/-!
# Terms

Variables are de Bruijn indices: index 0 is the nearest binder. Names are kept for
printing. An abstraction and a branch bind one variable, a let binds the variables of its
pattern in the body and none in the bound value.

Numbers are built from `zero` and `succ`; such a chain prints as a decimal.
-/

namespace TypedLambda

/-- A branch of a case. The key under which a case holds the branch decides when it is
taken; `label` is what the branch prints. -/
structure Branch (α : Type) where
  label : String
  name : String
  body : α

inductive Term where
  | unit
  | bool (value : Bool)
  | zero
  | succ (term : Term)
  | pred (term : Term)
  | isZero (term : Term)
  | var (index : Int) (name : String)
  | abs (name : String) (ty : Ty) (body : Term)
  | app (function argument : Term)
  | ite (condition yes no : Term)
  | tuple (fields : List (String × Term))
  | letIn (pattern : Pattern) (value body : Term)
  | tag (label : String) (payload : Term) (ty : Ty)
  | case (scrutinee : Term) (branches : List (String × Branch Term))
  | fix (term : Term)
  /-- A node of no form: no rule of typing, substitution or reduction covers it. -/
  | foreign

namespace Term

def ofList (terms : List Term) : Term := .tuple (Table.positional terms)

/-- The case whose branches stand under their own labels. -/
def caseOf (scrutinee : Term) (branches : List (Branch Term)) : Term :=
  .case scrutinee (Table.ofList (branches.map fun branch => (branch.label, branch)))

def numeral : Nat → Term
  | 0 => .zero
  | n + 1 => .succ (numeral n)

def toNat? : Term → Option Nat
  | .zero => some 0
  | .succ term => term.toNat?.map (· + 1)
  | _ => none

@[simp] theorem toNat?_numeral (n : Nat) : (numeral n).toNat? = some n := by
  induction n with
  | zero => rfl
  | succ n ih => simp [numeral, toNat?, ih]

mutual

def text : Term → Text
  | .unit => "unit"
  | .bool true => "true"
  | .bool false => "false"
  | .zero => "0"
  | .succ term =>
      match term.toNat? with
      | some n => toString (n + 1)
      | none => "succ(" ++ term.text ++ ")"
  | .pred term => "pred(" ++ term.text ++ ")"
  | .isZero term => "isZero(" ++ term.text ++ ")"
  | .var _ name => name
  | .abs name ty body => "\\" ++ name ++ ":" ++ ty.text ++ "." ++ body.text
  | .app function argument => "(" ++ function.text ++ " " ++ argument.text ++ ")"
  | .ite condition yes no =>
      "if " ++ condition.text ++ " then " ++ yes.text ++ " else " ++ no.text
  | .tuple fields => "\x7b" ++ Text.join ", " (fieldTexts fields) ++ "\x7d"
  | .letIn pattern value body =>
      "let " ++ pattern.text ++ " = " ++ value.text ++ " in " ++ body.text
  | .tag label payload ty => "<" ++ label ++ "=" ++ payload.text ++ "> as " ++ ty.text
  | .case scrutinee branches =>
      "case " ++ scrutinee.text ++ " of " ++ Text.join " | " (branchTexts branches)
  | .fix term => "fix " ++ term.text
  | .foreign => Text.gap

def fieldTexts : List (String × Term) → List Text
  | [] => []
  | (label, term) :: rest => (label ++ "=" ++ term.text) :: fieldTexts rest

def branchTexts : List (String × Branch Term) → List Text
  | [] => []
  | (_, ⟨label, name, body⟩) :: rest =>
      ("<" ++ label ++ "=" ++ name ++ "> => " ++ body.text) :: branchTexts rest

end

mutual

/-- Equality up to the order of labels, in types as well; names count. -/
def same : Term → Term → Bool
  | .unit, .unit => true
  | .bool a, .bool b => a == b
  | .zero, .zero => true
  | .succ t, .succ u => t.same u
  | .pred t, .pred u => t.same u
  | .isZero t, .isZero u => t.same u
  | .var i n, .var j m => i == j && n == m
  | .abs n a t, .abs m b u => n == m && a.same b && t.same u
  | .app f t, .app g u => f.same g && t.same u
  | .ite c t e, .ite d u f => c.same d && t.same u && e.same f
  | .tuple fs, .tuple gs => sameFields fs gs && gs.all fun entry => Table.has entry.1 fs
  | .letIn p v t, .letIn q w u => p.same q && v.same w && t.same u
  | .tag l t a, .tag m u b => l == m && t.same u && a.same b
  | .case s bs, .case t cs =>
      s.same t && sameBranches bs cs && cs.all fun entry => Table.has entry.1 bs
  | .fix t, .fix u => t.same u
  | _, _ => false

def sameFields : List (String × Term) → List (String × Term) → Bool
  | [], _ => true
  | (label, term) :: rest, others =>
      (match others.lookup label with
        | some other => term.same other
        | none => false) && sameFields rest others

def sameBranches : List (String × Branch Term) → List (String × Branch Term) → Bool
  | [], _ => true
  | (key, ⟨label, name, body⟩) :: rest, others =>
      (match others.lookup key with
        | some other => label == other.label && name == other.name && body.same other.body
        | none => false) && sameBranches rest others

end

end Term

end TypedLambda
