import TypedLambda.Table
import TypedLambda.Text

/-!
# Types

Record and variant types carry their components under labels. The order of the labels is
kept for printing and does not matter to `Ty.same`, the equality that typing uses.
-/

namespace TypedLambda

inductive Ty where
  | bool
  | int
  | unit
  /-- A named type: an alias if the name is defined, and itself otherwise. -/
  | base (name : String)
  | arrow (param result : Ty)
  | product (fields : List (String × Ty))
  | sum (variants : List (String × Ty))
  /-- A node of no form: it has no text, resolves to nothing and equals nothing. -/
  | foreign

namespace Ty

def isArrow : Ty → Bool
  | .arrow _ _ => true
  | _ => false

mutual

/-- The printed type. Arrows group to the right, so only an arrow to the left of an arrow
is put in parentheses. -/
def text : Ty → Text
  | .bool => "bool"
  | .int => "int"
  | .unit => "unit"
  | .base name => name
  | .arrow param result =>
      (if param.isArrow then "(" ++ param.text ++ ")" else param.text) ++ " -> " ++ result.text
  | .product fields => "\x7b" ++ Text.join ", " (entryTexts fields) ++ "\x7d"
  | .sum variants => "<" ++ Text.join ", " (entryTexts variants) ++ ">"
  | .foreign => Text.gap

def entryTexts : List (String × Ty) → List Text
  | [] => []
  | (label, ty) :: rest => (label ++ ":" ++ ty.text) :: entryTexts rest

end

theorem entryTexts_eq_map (entries : List (String × Ty)) :
    entryTexts entries =
      entries.map fun (entry : String × Ty) => entry.1 ++ ":" ++ entry.2.text := by
  induction entries with
  | nil => rfl
  | cons entry rest ih => simp [entryTexts, ih]

mutual

/-- Equality up to the order of labels. -/
def same : Ty → Ty → Bool
  | .bool, .bool => true
  | .int, .int => true
  | .unit, .unit => true
  | .base a, .base b => a == b
  | .arrow a r, .arrow b s => a.same b && r.same s
  | .product fs, .product gs => sameEntries fs gs && gs.all fun entry => Table.has entry.1 fs
  | .sum fs, .sum gs => sameEntries fs gs && gs.all fun entry => Table.has entry.1 fs
  | _, _ => false

def sameEntries : List (String × Ty) → List (String × Ty) → Bool
  | [], _ => true
  | (label, ty) :: rest, others =>
      (match others.lookup label with
        | some other => ty.same other
        | none => false) && sameEntries rest others

end

end Ty

end TypedLambda
