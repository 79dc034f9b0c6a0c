import TypedLambda.Term.Basic

/-!
# Values

The terms at which call-by-value evaluation stops: abstractions, unit, booleans, numerals,
tuples of values and tags that carry a value.
-/

namespace TypedLambda.Term

def isNumeral : Term → Bool
  | .zero => true
  | .succ term => term.isNumeral
  | _ => false

mutual

def isValue : Term → Bool
  | .abs _ _ _ => true
  | .unit => true
  | .bool _ => true
  | .zero => true
  | .succ term => term.isNumeral
  | .tuple fields => allValues fields
  | .tag _ payload _ => payload.isValue
  | _ => false

def allValues : List (String × Term) → Bool
  | [] => true
  | (_, term) :: rest => term.isValue && allValues rest

end

theorem isNumeral_eq_isSome_toNat? (t : Term) : t.isNumeral = t.toNat?.isSome := by
  fun_induction isNumeral t with
  | case1 => rfl
  | case2 term ih => simp [toNat?, ih]
  | case3 t h₁ h₂ => cases t <;> simp_all [toNat?]

theorem numeral_inj {n m : Nat} : numeral n = numeral m ↔ n = m := by
  constructor
  · intro h
    have hread := congrArg toNat? h
    simpa using hread
  · rintro rfl
    rfl

theorem isNumeral_iff {t : Term} : t.isNumeral = true ↔ ∃ n, t = numeral n := by
  constructor
  · intro h
    fun_induction isNumeral t with
    | case1 => exact ⟨0, rfl⟩
    | case2 term ih =>
        obtain ⟨n, rfl⟩ := ih h
        exact ⟨n + 1, rfl⟩
    | case3 t h₁ h₂ => cases h
  · rintro ⟨n, rfl⟩
    rw [isNumeral_eq_isSome_toNat?, toNat?_numeral]
    rfl

theorem text_numeral (n : Nat) : (numeral n).text = Text.ofString (toString n) := by
  cases n with
  | zero => rfl
  | succ n => rw [numeral, text, toNat?_numeral]

theorem isValue_of_isNumeral {t : Term} (h : t.isNumeral = true) : t.isValue = true := by
  cases t <;> simp_all [isNumeral, isValue]

theorem allValues_iff {fields : List (String × Term)} :
    allValues fields = true ↔ ∀ entry ∈ fields, entry.2.isValue = true := by
  induction fields with
  | nil => simp [allValues]
  | cons entry rest ih => simp [allValues, ih]

end TypedLambda.Term
