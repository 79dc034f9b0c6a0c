import Mathlib.Data.List.TakeWhile
import TypedLambda.Logging.Filter
import TypedLambda.Proofs.Tables

/-!
# Filters one after the other

A filter text is read part by part, and a part writes the level of one module or the global one.
So a text behind another one writes its modules over those of the first, and its global level, if
it sets one (`Filter.parse_append`). This needs the parts of the two to be what they are by
themselves, also in lower case: the form of a sigma depends on the letters around it, but a comma
ends the word.
-/

namespace TypedLambda

/-! ## Texts around a comma -/

namespace Characters

theorem isIgnorable_comma : isIgnorable ',' = false := by decide +kernel

theorem isCased_comma : isCased ',' = false := by decide +kernel

theorem lowerChar_comma : lowerChar ',' = [','] := by decide +kernel

theorem startsCased_append_comma (a b : List Char) :
    startsCased (a ++ ',' :: b) = startsCased a := by
  induction a with
  | nil => simp [startsCased, isIgnorable_comma, isCased_comma]
  | cons c rest ih => simp only [List.cons_append, startsCased, ih]

/-- Lower case does not look across a comma. -/
theorem lowerFrom_append_comma (cased : Bool) (a b : List Char) :
    lowerFrom cased (a ++ ',' :: b) = lowerFrom cased a ++ ',' :: lower b := by
  induction a generalizing cased with
  | nil => simp [lowerFrom, lower, lowerChar_comma, isIgnorable_comma, isCased_comma]
  | cons c rest ih =>
      rw [List.cons_append, lowerFrom, lowerFrom, startsCased_append_comma, ih, List.append_assoc]

theorem lower_append_comma (a b : List Char) :
    lower (a ++ ',' :: b) = lower a ++ ',' :: lower b := lowerFrom_append_comma false a b

theorem cut?_eq_none_iff {sep : Char} {cs : List Char} : cut? sep cs = none ↔ sep ∉ cs := by
  have hdrop : cs.dropWhile (· != sep) = [] ↔ sep ∉ cs := by
    rw [List.dropWhile_eq_nil_iff]
    constructor
    · intro h hmem
      simpa using h sep hmem
    · intro h c hmem
      rw [bne_iff_ne]
      rintro rfl
      exact h hmem
  rw [← hdrop, cut?]
  cases cs.dropWhile (· != sep) with
  | nil => simp
  | cons c rest => simp

end Characters

namespace Logging.Filter

theorem parts_append_comma (a b : List Char) : parts (a ++ ',' :: b) = parts a ++ parts b := by
  rw [parts, Characters.lower_append_comma, Characters.splitOn_append, List.map_append]
  rfl

/-! ## Parts one after the other -/

def isGlobal (part : List Char) : Bool := !part.isEmpty && !part.contains '='

def globals (text : String) : List (List Char) := (parts text.toList).filter isGlobal

section
variable (filter : Filter)

/-- What a part does to the modules does not depend on the parts before it. -/
theorem modules_read (part : List Char) :
    (filter.read part).modules = Table.merge filter.modules (read {} part).modules := by
  unfold read
  cases Characters.cut? '=' part with
  | some sides => rfl
  | none => cases part with
    | nil => rfl
    | cons => rfl

theorem nodup_keys_read (h : (Table.keys filter.modules).Nodup) (part : List Char) :
    (Table.keys (filter.read part).modules).Nodup := by
  unfold read
  cases Characters.cut? '=' part with
  | some sides => exact Table.nodup_keys_insert h _ _
  | none => cases part with
    | nil => exact h
    | cons => exact h

theorem level_read (part : List Char) :
    (filter.read part).level =
      if isGlobal part then String.ofList part else filter.level := by
  unfold read
  cases hcut : Characters.cut? '=' part with
  | some sides =>
      have hmem : '=' ∈ part := by
        refine Decidable.byContradiction fun hnone => ?_
        rw [Characters.cut?_eq_none_iff.2 hnone] at hcut
        cases hcut
      simp [isGlobal, hmem]
  | none =>
      have hmem : '=' ∉ part := Characters.cut?_eq_none_iff.1 hcut
      cases part with
      | nil => rfl
      | cons => simp [isGlobal, hmem]

theorem nodup_keys_foldl_read (h : (Table.keys filter.modules).Nodup) (texts : List (List Char)) :
    (Table.keys (texts.foldl read filter).modules).Nodup := by
  induction texts generalizing filter with
  | nil => exact h
  | cons part rest ih => exact ih _ (nodup_keys_read filter h part)

theorem modules_foldl_read (texts : List (List Char)) :
    (texts.foldl read filter).modules =
      Table.merge filter.modules (texts.foldl read {}).modules := by
  induction texts generalizing filter with
  | nil => rfl
  | cons part rest ih =>
      have hnodup : (Table.keys (read {} part).modules).Nodup :=
        nodup_keys_read {} List.nodup_nil part
      rw [List.foldl_cons, List.foldl_cons, ih, modules_read, ih (read {} part),
        Table.merge_assoc _ hnodup]

theorem level_foldl_read (texts : List (List Char)) :
    (texts.foldl read filter).level =
      ((texts.filter isGlobal).getLast?.map String.ofList).getD filter.level := by
  induction texts generalizing filter with
  | nil => rfl
  | cons part rest ih =>
      rw [List.foldl_cons, ih, level_read]
      cases hpart : isGlobal part with
      | true =>
          rw [List.filter_cons_of_pos hpart, List.getLast?_cons]
          cases (rest.filter isGlobal).getLast? with
          | none => rfl
          | some level => rfl
      | false =>
          rw [List.filter_cons_of_neg (by simp [hpart])]
          rfl

end

theorem nodup_keys_parse (text : String) : (Table.keys (parse text).modules).Nodup :=
  nodup_keys_foldl_read {} List.nodup_nil _

theorem parse_append_comma (a b : String) :
    parse (a ++ "," ++ b) = (parts b.toList).foldl read (parse a) := by
  have htext : (a ++ "," ++ b).toList = a.toList ++ ',' :: b.toList := by simp
  rw [parse, htext, parts_append_comma, List.foldl_append]
  rfl

/-- A filter text behind another one has the last word. Its modules are written over those of the
first: they keep the place that they have there, new ones come behind, and the last level of a
module wins. The global level is the last one that the second text sets, in a part that is not
empty and has no equals sign, or else that of the first. -/
theorem parse_append (a b : String) :
    (parse (a ++ "," ++ b)).modules = Table.merge (parse a).modules (parse b).modules ∧
    Table.keys (parse (a ++ "," ++ b)).modules = Table.keys (parse a).modules ++
      (Table.keys (parse b).modules).filter (fun module => !Table.has module (parse a).modules) ∧
    (∀ module, (parse (a ++ "," ++ b)).modules.lookup module =
      ((parse b).modules.lookup module).or ((parse a).modules.lookup module)) ∧
    (parse (a ++ "," ++ b)).level =
      ((globals b).getLast?.map String.ofList).getD (parse a).level := by
  have hmodules : (parse (a ++ "," ++ b)).modules =
      Table.merge (parse a).modules (parse b).modules := by
    rw [parse_append_comma]
    exact modules_foldl_read (parse a) (parts b.toList)
  refine ⟨hmodules, ?_, fun module => ?_, ?_⟩
  · rw [hmodules, Table.keys_merge _ (nodup_keys_parse b)]
  · rw [hmodules, Table.lookup_merge _ (nodup_keys_parse b)]
  · rw [parse_append_comma]
    exact level_foldl_read (parse a) (parts b.toList)

end Logging.Filter

end TypedLambda
