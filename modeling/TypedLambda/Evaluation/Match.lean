import TypedLambda.Fault

/-!
# Pattern matching

Taking a term apart along a pattern. The bindings follow the order of the pattern, not
that of the tuple.
-/

namespace TypedLambda.Pattern

mutual

def destructure : Pattern → Term → Except Fault (List (String × Term))
  | .var name, term => .ok [(name, term)]
  | .record fields, .tuple terms => destructureFields fields terms
  | pattern, term => .error (.noMatch pattern term)

def destructureFields :
    List (String × Pattern) → List (String × Term) → Except Fault (List (String × Term))
  | [], _ => .ok []
  | (label, pattern) :: rest, terms =>
      match terms.lookup label with
      | none => .error (.missingLabel label)
      | some term => do
          let bindings ← pattern.destructure term
          let others ← destructureFields rest terms
          return bindings ++ others

end

end TypedLambda.Pattern
