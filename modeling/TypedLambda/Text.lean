/-!
# Printed text with gaps

Every form of the language has a printed form, but a node that belongs to no form has
none. A `Text` remembers whether such a node was met while it was put together, so a
finished text can be told from one with a hole in it.
-/

namespace TypedLambda

/-- A text, and whether every part of it had a printed form. -/
structure Text where
  string : String
  complete : Bool
deriving DecidableEq

namespace Text

def ofString (s : String) : Text := ⟨s, true⟩

instance : Coe String Text := ⟨ofString⟩

instance : Append Text where
  append a b := ⟨a.string ++ b.string, a.complete && b.complete⟩

def gap : Text := ⟨"", false⟩

def join (sep : String) : List Text → Text
  | [] => ofString ""
  | [part] => part
  | part :: rest => part ++ ofString sep ++ join sep rest

def string? (t : Text) : Option String := if t.complete then some t.string else none

@[simp] theorem string_ofString (s : String) : (ofString s).string = s := rfl

@[simp] theorem complete_ofString (s : String) : (ofString s).complete = true := rfl

@[simp] theorem string_append (a b : Text) : (a ++ b).string = a.string ++ b.string := rfl

@[simp] theorem complete_append (a b : Text) :
    (a ++ b).complete = (a.complete && b.complete) := rfl

theorem join_cons_cons (sep : String) (first second : Text) (rest : List Text) :
    join sep (first :: second :: rest) = first ++ ofString sep ++ join sep (second :: rest) := rfl

theorem complete_join (sep : String) (parts : List Text) :
    (join sep parts).complete = parts.all Text.complete := by
  fun_induction join sep parts with
  | case1 => rfl
  | case2 part => simp
  | case3 part rest hrest ih => simp [ih]

theorem string?_eq_some_iff {t : Text} {s : String} :
    t.string? = some s ↔ t.complete = true ∧ t.string = s := by
  cases h : t.complete <;> simp [string?, h]

end Text

end TypedLambda
