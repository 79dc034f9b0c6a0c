import Mathlib.Data.List.Forall2
import TypedLambda.Proofs.Tables
import TypedLambda.Typing

/-!
# Outcomes that succeed

When a chain of operations gives a result, and when the rules that gather the errors of
several parts do. A gathering rule succeeds exactly if all of its parts do, whatever it
says about those that fail.
-/

namespace TypedLambda

namespace Outcome

variable {ε α β : Type}

theorem bind_eq_ok {x : Except ε α} {f : α → Except ε β} {b : β} :
    (x >>= f) = .ok b ↔ ∃ a, x = .ok a ∧ f a = .ok b := by
  cases x with
  | error e =>
      constructor
      · intro h
        cases h
      · intro h
        rcases h with ⟨a, h, -⟩
        cases h
  | ok a =>
      constructor
      · intro h
        exact ⟨a, rfl, h⟩
      · intro h
        rcases h with ⟨a', h, hf⟩
        cases h
        exact hf

theorem bind_eq_error {x : Except ε α} {f : α → Except ε β} {e : ε} :
    (x >>= f) = .error e ↔ x = .error e ∨ ∃ a, x = .ok a ∧ f a = .error e := by
  cases x with
  | error e' =>
      constructor
      · intro h
        cases h
        exact .inl rfl
      · intro h
        rcases h with h | ⟨a, h, -⟩
        · cases h
          rfl
        · cases h
  | ok a =>
      constructor
      · intro h
        exact .inr ⟨a, rfl, h⟩
      · intro h
        rcases h with h | ⟨a', h, hf⟩
        · cases h
        · cases h
          exact hf

theorem bind_pure_eq_error {x : Except ε α} {f : α → β} {e : ε} :
    (x >>= fun a => pure (f a)) = .error e ↔ x = .error e := by
  rw [bind_eq_error]
  constructor
  · intro h
    rcases h with h | ⟨_, -, h⟩
    · exact h
    · cases h
  · exact .inl

theorem map_eq_ok {x : Except ε α} {f : α → β} {b : β} :
    x.map f = .ok b ↔ ∃ a, x = .ok a ∧ f a = b := by
  cases x with
  | error e => simp [Except.map]
  | ok a => simp [Except.map]

theorem map_eq_error {x : Except ε α} {f : α → β} {e : ε} : x.map f = .error e ↔ x = .error e := by
  cases x with
  | error e' => simp [Except.map]
  | ok a => simp [Except.map]

theorem pure_eq_ok {a b : α} : (pure a : Except ε α) = .ok b ↔ a = b :=
  ⟨fun h => by cases h; rfl, fun h => by rw [h]; rfl⟩

theorem map_eq_map_ok_iff_inStep {κ : Type} {R : κ → α → β → Prop}
    {outcome : κ × α → Except ε (κ × β)}
    (houtcome : ∀ {entry result}, outcome entry = .ok result ↔
      ∃ b, R entry.1 entry.2 b ∧ (entry.1, b) = result)
    {fs : List (κ × α)} {gs : List (κ × β)} :
    fs.map outcome = gs.map .ok ↔ Table.InStep R fs gs := by
  induction fs generalizing gs with
  | nil =>
      cases gs with
      | nil => exact iff_of_true rfl .nil
      | cons result rest => exact iff_of_false nofun nofun
  | cons entry rest ih =>
      cases gs with
      | nil => exact iff_of_false nofun nofun
      | cons result gs =>
          rw [List.map_cons, List.map_cons, List.cons.injEq, houtcome, ih]
          constructor
          · intro h
            rcases h with ⟨⟨b, hb, rfl⟩, hrest⟩
            exact .cons hb hrest
          · intro h
            cases h with
            | cons hb hrest => exact ⟨⟨_, hb, rfl⟩, hrest⟩

end Outcome

theorem reject_ne_ok {α : Type} {error : TypeError} {a : α} : reject error ≠ .ok a := by
  intro h
  cases h

namespace Fault

variable {α : Type}

theorem blame_eq_ok {wrap : TypeError → TypeError} {outcome : Except Fault α} {a : α} :
    blame wrap outcome = .ok a ↔ outcome = .ok a := by
  cases outcome with
  | ok b => rfl
  | error fault => cases fault <;> simp [blame]

theorem gather_eq_ok_nil {outcomes : List (Except Fault α)} {results : List α} :
    gather outcomes = .ok (results, []) ↔ outcomes = results.map .ok := by
  induction outcomes generalizing results with
  | nil =>
      cases results with
      | nil => simp [gather]
      | cons a rest => simp [gather]
  | cons outcome rest ih =>
      cases outcome with
      | ok a =>
          simp only [gather, Outcome.map_eq_ok]
          constructor
          · intro h
            rcases h with ⟨⟨found, errors⟩, hrest, heq⟩
            obtain ⟨rfl, rfl⟩ : a :: found = results ∧ errors = [] := by simpa using heq
            rw [ih.1 hrest]
            rfl
          · intro h
            cases results with
            | nil => cases h
            | cons b found =>
                obtain ⟨hab, hrest⟩ : a = b ∧ rest = found.map .ok := by simpa using h
                exact ⟨(found, []), ih.2 hrest, by rw [hab]⟩
      | error fault =>
          constructor
          · intro h
            cases fault with
            | illTyped error =>
                simp only [gather, Outcome.map_eq_ok] at h
                obtain ⟨⟨found, errors⟩, -, heq⟩ := h
                simp at heq
            | _ => simp [gather] at h
          · intro h
            cases results <;> cases h

theorem collect_eq_ok {summary : List TypeError → TypeError} {outcomes : List (Except Fault α)}
    {results : List α} : collect summary outcomes = .ok results ↔ outcomes = results.map .ok := by
  rw [← gather_eq_ok_nil, collect]
  split
  · rename_i fault hfault
    simp [hfault]
  · rename_i found hfound
    simp [hfound]
  · rename_i found errors hne hfound
    simp only [hfound, reduceCtorEq, Except.ok.injEq, Prod.mk.injEq, false_iff, not_and]
    intro _ hnil
    exact hne hnil

end Fault

end TypedLambda
