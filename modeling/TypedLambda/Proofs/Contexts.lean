import TypedLambda.Proofs.Resolution

/-!
# Contexts as partial functions

Typing reads a context in two ways only: the type at an index, and the definitions of
names. Extending a context leaves the definitions alone, and its effect on the types is
`Context.lookup?_extend`.
-/

namespace TypedLambda

theorem rel_getElem?_of_forall₂ {α β : Type} {R : α → β → Prop} {as : List α} {bs : List β}
    (h : List.Forall₂ R as bs) (i : Nat) : Option.Rel R as[i]? bs[i]? := by
  induction h generalizing i with
  | nil => exact .none
  | cons hhead _ ih =>
      cases i with
      | zero => exact .some hhead
      | succ i => exact ih i

theorem getElem?_of_forall₂_right {α β : Type} {R : α → β → Prop} {as : List α} {bs : List β}
    (h : List.Forall₂ R as bs) {i : Nat} {b : β} (hb : bs[i]? = some b) :
    ∃ a, as[i]? = some a ∧ R a b := by
  have hrel := rel_getElem?_of_forall₂ h i
  rw [hb] at hrel
  generalize as[i]? = found at hrel
  cases hrel with
  | some hab => exact ⟨_, rfl, hab⟩

namespace Context

/-! ## Extension -/

theorem lookup_fresh (types : List Ty) (n : Nat) (index : Int) :
    ((types.zipIdx n).map fun (ty, i) => ((i : Int), ty)).lookup index =
      if (n : Int) ≤ index then types[(index - n).toNat]? else none := by
  induction types generalizing n with
  | nil => simp
  | cons ty rest ih =>
      rw [List.zipIdx_cons, List.map_cons, List.lookup_cons, ih]
      by_cases heq : index = n
      · subst heq
        simp
      · have hbeq : (index == (n : Int)) = false := by simpa using heq
        rw [hbeq]
        by_cases hlt : (n : Int) ≤ index
        · have hidx : (index - n).toNat = (index - (n + 1 : Nat)).toNat + 1 := by omega
          have hle : ((n + 1 : Nat) : Int) ≤ index := by omega
          simp only [hlt, hle, if_true, hidx, List.getElem?_cons_succ]
        · have hle : ¬ ((n + 1 : Nat) : Int) ≤ index := by omega
          simp only [hlt, hle, if_false]

private theorem lookup_moved (vars : List (Int × Ty)) (n : Int) (keep : Int → Bool)
    (index : Int) :
    ((vars.map fun (i, ty) => (i + n, ty)).filter fun entry => keep entry.1).lookup index =
      if keep index then vars.lookup (index - n) else none := by
  induction vars with
  | nil => simp
  | cons entry rest ih =>
      obtain ⟨i, ty⟩ := entry
      rw [List.map_cons, List.filter_cons, List.lookup_cons]
      by_cases heq : index = i + n
      · subst heq
        have hi : i + n - n = i := by omega
        cases hkeep : keep (i + n) with
        | true => simp [hi]
        | false =>
            rw [if_neg (by simp), ih]
            simp [hkeep]
      · have hbeq : (index - n == i) = false := by
          rw [beq_eq_false_iff_ne]
          omega
        have hbeq' : (index == i + n) = false := by simpa using heq
        rw [hbeq]
        cases hkeep : keep (i + n) with
        | true =>
            rw [if_pos rfl, List.lookup_cons, hbeq']
            exact ih
        | false =>
            rw [if_neg (by simp)]
            exact ih

/-- The new types stand at the lowest indices; every other index is looked up in the old
context, further in by the number of new types. -/
theorem lookup?_extend (Γ : Context) (types : List Ty) (index : Int) :
    (Γ.extend types).lookup? index =
      if 0 ≤ index ∧ index < types.length then types[index.toNat]?
      else Γ.lookup? (index - types.length) := by
  have hfresh := lookup_fresh types 0 index
  have hmoved := lookup_moved Γ.vars types.length
    (fun i => i < 0 || (types.length : Int) ≤ i) index
  simp only [extend, lookup?, List.lookup_append]
  rw [hfresh, hmoved]
  by_cases hnew : 0 ≤ index ∧ index < types.length
  · simp [hnew]
  · rw [if_neg hnew]
    by_cases hneg : index < 0
    · have hle : ¬ (0 : Int) ≤ index := by omega
      simp [hneg, hle]
    · have hge : (types.length : Int) ≤ index := by omega
      have hnone : types[index.toNat]? = none := List.getElem?_eq_none (by omega)
      simp [hge, hnone]

theorem resolve_congr {Γ Δ : Context} (h : Γ.aliases = Δ.aliases) (detect : Bool) :
    Γ.resolve detect = Δ.resolve detect := by
  funext ty
  simp only [resolve, h]

@[simp] theorem resolve_extend (Γ : Context) (types : List Ty) (detect : Bool) :
    (Γ.extend types).resolve detect = Γ.resolve detect := rfl

theorem eq_of_resolve {Γ : Context} {detect : Bool} {ty r : Ty}
    (hty : ty.resolved Γ.aliases = true) (h : Γ.resolve detect ty = .ok r) : ty = r :=
  Except.ok.inj ((Ty.resolve_of_resolved hty).symm.trans h)

/-! ## Contexts without negative indices -/

def Unsigned (Γ : Context) : Prop := ∀ index, index < 0 → Γ.lookup? index = none

theorem unsigned_of_vars {Γ : Context} (h : ∀ entry ∈ Γ.vars, 0 ≤ entry.1) : Γ.Unsigned := by
  intro index hneg
  cases hlookup : Γ.lookup? index with
  | none => rfl
  | some ty =>
      have hpos : 0 ≤ index := h _ (Table.mem_of_lookup hlookup)
      omega

theorem Unsigned.extend {Γ : Context} (h : Γ.Unsigned) (types : List Ty) :
    (Γ.extend types).Unsigned := by
  intro index hneg
  have hold : ¬ (0 ≤ index ∧ index < types.length) := by omega
  rw [lookup?_extend, if_neg hold]
  exact h _ (by omega)

/-! ## Well-formed contexts -/

structure Orderly (Γ : Context) : Prop where
  vars : ∀ {index ty}, Γ.lookup? index = some ty → ty.distinct = true
  aliases : ∀ entry ∈ Γ.aliases, entry.2.distinct = true

/-- What the typing of substitutions needs to know of a context. -/
structure Regular (Γ : Context) : Prop extends Γ.Orderly where
  unsigned : Γ.Unsigned

theorem orderly_of_distinct {Γ : Context} (h : Γ.distinct = true) : Γ.Orderly := by
  simp only [distinct, Bool.and_eq_true, List.all_eq_true] at h
  obtain ⟨⟨hvars, haliases⟩, -⟩ := h
  exact ⟨fun hlookup => hvars _ (Table.mem_of_lookup hlookup), haliases⟩

theorem regular_of_distinct {Γ : Context} (h : Γ.distinct = true)
    (hpos : ∀ entry ∈ Γ.vars, 0 ≤ entry.1) : Γ.Regular :=
  ⟨orderly_of_distinct h, unsigned_of_vars hpos⟩

theorem Orderly.extend {Γ : Context} (h : Γ.Orderly) {types : List Ty}
    (htypes : ∀ ty ∈ types, ty.distinct = true) : (Γ.extend types).Orderly := by
  refine ⟨fun {index ty} hlookup => ?_, h.aliases⟩
  rw [lookup?_extend] at hlookup
  split at hlookup
  · exact htypes ty (List.mem_of_getElem? hlookup)
  · exact h.vars hlookup

theorem Regular.extend {Γ : Context} (h : Γ.Regular) {types : List Ty}
    (htypes : ∀ ty ∈ types, ty.distinct = true) : (Γ.extend types).Regular :=
  ⟨h.toOrderly.extend htypes, h.unsigned.extend types⟩

end Context

end TypedLambda
