import TypedLambda.Table
import TypedLambda.Text

/-!
# Patterns

The left-hand side of a let. A pattern binds its variables in the order in which they are
written; the first one is index 0 of the body.
-/

namespace TypedLambda

inductive Pattern where
  | var (name : String)
  | record (fields : List (String × Pattern))
  /-- A node of no form: it binds nothing, matches nothing and has no text. -/
  | foreign

namespace Pattern

def ofList (patterns : List Pattern) : Pattern := .record (Table.positional patterns)

mutual

/-- The bound names in binding order, unless a node of no form is inside. -/
def variables? : Pattern → Option (List String)
  | .var name => some [name]
  | .record fields => fieldVariables? fields
  | .foreign => none

def fieldVariables? : List (String × Pattern) → Option (List String)
  | [] => some []
  | (_, pattern) :: rest => do
      let names ← pattern.variables?
      let others ← fieldVariables? rest
      return names ++ others

end

mutual

def length? : Pattern → Option Nat
  | .var _ => some 1
  | .record fields => fieldLength? fields
  | .foreign => none

def fieldLength? : List (String × Pattern) → Option Nat
  | [] => some 0
  | (_, pattern) :: rest => do
      let length ← pattern.length?
      let others ← fieldLength? rest
      return length + others

end

mutual

/-- The variables of a pattern are as many as it says. -/
theorem length?_eq_map_variables? : ∀ pattern : Pattern,
    pattern.length? = pattern.variables?.map List.length
  | .var _ => rfl
  | .record fields => fieldLength?_eq_map_fieldVariables? fields
  | .foreign => rfl

theorem fieldLength?_eq_map_fieldVariables? : ∀ fields : List (String × Pattern),
    fieldLength? fields = (fieldVariables? fields).map List.length
  | [] => rfl
  | (_, pattern) :: rest => by
      rw [fieldLength?, fieldVariables?, length?_eq_map_variables? pattern,
        fieldLength?_eq_map_fieldVariables? rest]
      cases pattern.variables? <;> cases fieldVariables? rest <;> simp

end

theorem length?_eq_some_iff {pattern : Pattern} {n : Nat} :
    pattern.length? = some n ↔ ∃ names, pattern.variables? = some names ∧ names.length = n := by
  rw [length?_eq_map_variables?, Option.map_eq_some_iff]

mutual

def text : Pattern → Text
  | .var name => name
  | .record fields => "\x7b" ++ Text.join ", " (fieldTexts fields) ++ "\x7d"
  | .foreign => Text.gap

def fieldTexts : List (String × Pattern) → List Text
  | [] => []
  | (label, pattern) :: rest => (label ++ "=" ++ pattern.text) :: fieldTexts rest

end

mutual

def same : Pattern → Pattern → Bool
  | .var a, .var b => a == b
  | .record fs, .record gs => sameFields fs gs && gs.all fun entry => Table.has entry.1 fs
  | _, _ => false

def sameFields : List (String × Pattern) → List (String × Pattern) → Bool
  | [], _ => true
  | (label, pattern) :: rest, others =>
      (match others.lookup label with
        | some other => pattern.same other
        | none => false) && sameFields rest others

end

end Pattern

end TypedLambda
