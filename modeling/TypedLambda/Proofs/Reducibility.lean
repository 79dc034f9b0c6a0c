import TypedLambda.Proofs.Iteration
import TypedLambda.Proofs.TypedValues

/-!
# Reducible values

`Ty.Meaning` gives to each type a set of values, by recursion on the type: a function
belongs to an arrow if it takes every value of the parameter to a run that ends in a value
of the result. The types that the checker infers are resolved, so no name in them stands
for a type that contains it, and names need no values.

`Ty.Computes` is the set of terms whose run ends in a value of the type. It is closed
under going one step back, under frames, and under the equality of types up to the order
of labels.
-/

namespace TypedLambda

/-! ## Runs that end -/

namespace Term

inductive Halts : Term → Term → Prop
  | value {v : Term} : v.isValue = true → Halts v v
  | step {t t' v : Term} : t.step = .ok t' → Halts t' v → Halts t v

namespace Halts

theorem iff_stepN {t v : Term} : Halts t v ↔ v.isValue = true ∧ ∃ n, t.stepN n = .ok v := by
  constructor
  · intro h
    induction h with
    | value hv => exact ⟨hv, 0, rfl⟩
    | step hstep _ ih =>
        obtain ⟨hv, n, hn⟩ := ih
        exact ⟨hv, n + 1, stepN_succ_eq_ok.2 ⟨_, hstep, hn⟩⟩
  · intro h
    obtain ⟨hv, n, hn⟩ := h
    induction n generalizing t with
    | zero =>
        cases hn
        exact .value hv
    | succ n ih =>
        obtain ⟨u, hstep, hrest⟩ := stepN_succ_eq_ok.1 hn
        exact .step hstep (ih hrest)

theorem isValue {t v : Term} (h : Halts t v) : v.isValue = true := (iff_stepN.1 h).1

theorem fill {F : Frame} (hF : F.ready = true) {t w v : Term} (h : Halts t w)
    (hfill : Halts (F.fill w) v) : Halts (F.fill t) v := by
  obtain ⟨-, n, hn⟩ := iff_stepN.1 h
  obtain ⟨hv, m, hm⟩ := iff_stepN.1 hfill
  exact iff_stepN.2 ⟨hv, n + m, stepN_trans (stepN_fill hF hn) hm⟩

theorem tuple {fields values : List (String × Term)}
    (h : Table.InStep (fun _ => Halts) fields values) {before : List (String × Term)}
    (hbefore : allValues before = true) :
    Halts (.tuple (before ++ fields)) (.tuple (before ++ values)) := by
  induction h generalizing before with
  | nil =>
      rw [List.append_nil]
      exact .value hbefore
  | @cons label t v fields values ht _ ih =>
      have hmore : allValues (before ++ [(label, v)]) = true := by
        rw [allValues_iff] at hbefore ⊢
        rw [List.forall_mem_append]
        exact ⟨hbefore, by simpa using ht.isValue⟩
      have hrest := ih hmore
      rw [List.append_assoc, List.append_assoc] at hrest
      exact @fill (.field before label fields) hbefore _ _ _ ht hrest

theorem exists_budget {t v : Term} (h : Halts t v) :
    ∃ steps, ∀ budget, steps ≤ budget → ∀ trace taken events,
      (t.reduce trace budget taken events).1 = .value v := by
  obtain ⟨hv, n, hn⟩ := iff_stepN.1 h
  exact ⟨n, fun budget hle _ _ _ => reduce_eq_value_iff.2 ⟨hv, n, hle, hn⟩⟩

end Halts

end Term

/-! ## The values of a type -/

namespace Ty

mutual

/-- What a value is, to belong to a type. -/
def Meaning : Ty → Term → Prop
  | .bool, v => ∃ value, v = .bool value
  | .int, v => v.isNumeral = true
  | .unit, v => v = .unit
  | .base _, _ => False
  | .arrow param result, v => ∃ name ty body, v = .abs name ty body ∧
      ∀ w, w.isValue = true → w.known = true → param.Meaning w →
        ∃ u, Term.Halts (body.plug [w]) u ∧ u.known = true ∧ result.Meaning u
  | .product fields, v => ∃ terms, v = .tuple terms ∧ MeaningFields fields terms
  | .sum variants, v => ∃ label payload ty, v = .tag label payload ty ∧
      MeaningVariants variants label payload
  | .foreign, _ => False

def MeaningFields : List (String × Ty) → List (String × Term) → Prop
  | [], _ => True
  | (label, ty) :: rest, terms =>
      (∃ term, terms.lookup label = some term ∧ ty.Meaning term) ∧ MeaningFields rest terms

def MeaningVariants : List (String × Ty) → String → Term → Prop
  | [], _, _ => False
  | (key, ty) :: rest, label, payload =>
      if label == key then ty.Meaning payload else MeaningVariants rest label payload

end

theorem meaningFields_iff {fields : List (String × Ty)} {terms : List (String × Term)} :
    MeaningFields fields terms ↔
      ∀ entry ∈ fields, ∃ term, terms.lookup entry.1 = some term ∧ entry.2.Meaning term := by
  induction fields with
  | nil => simp [MeaningFields]
  | cons entry rest ih => rw [MeaningFields, List.forall_mem_cons, ih]

theorem meaningVariants_iff {variants : List (String × Ty)} {label : String} {payload : Term} :
    MeaningVariants variants label payload ↔
      ∃ ty, variants.lookup label = some ty ∧ ty.Meaning payload := by
  induction variants with
  | nil => simp [MeaningVariants]
  | cons entry rest ih =>
      obtain ⟨key, ty⟩ := entry
      rw [MeaningVariants, List.lookup_cons]
      cases label == key with
      | true => simp
      | false => simpa using ih

/-- Types that are alike have the same values. -/
theorem meaning_congr {a b : Ty} (h : a.Alike b) (v : Term) : a.Meaning v ↔ b.Meaning v := by
  -- both directions at once, because the parameter of an arrow turns them around
  induction a generalizing b v with
  | bool =>
      rw [alike_bool_iff] at h
      rw [h]
  | int =>
      rw [alike_int_iff] at h
      rw [h]
  | unit =>
      rw [alike_unit_iff] at h
      rw [h]
  | base name =>
      rw [alike_base_iff] at h
      rw [h]
  | arrow param result ihp ihr =>
      obtain ⟨p, r, rfl, hp, hr⟩ := alike_arrow_iff.1 h
      simp only [Meaning, ihp hp, ihr hr]
  | product fields ih =>
      obtain ⟨gs, rfl, htables⟩ := alike_product_iff.1 h
      simp only [Meaning, meaningFields_iff]
      refine exists_congr fun terms => and_congr_right' ⟨?_, ?_⟩
      · intro hall entry hmem
        rcases entry with ⟨label, b⟩
        obtain ⟨a, ha, hab⟩ := htables.agree.right (Table.lookup_of_mem htables.right hmem)
        have hentry := Table.mem_of_lookup ha
        obtain ⟨term, hterm, hmeaning⟩ := hall _ hentry
        exact ⟨term, hterm, (ih _ hentry hab term).1 hmeaning⟩
      · intro hall entry hmem
        rcases entry with ⟨label, a⟩
        obtain ⟨b, hb, hab⟩ := htables.agree.left (Table.lookup_of_mem htables.left hmem)
        obtain ⟨term, hterm, hmeaning⟩ := hall _ (Table.mem_of_lookup hb)
        exact ⟨term, hterm, (ih _ hmem hab term).2 hmeaning⟩
  | sum variants ih =>
      obtain ⟨gs, rfl, htables⟩ := alike_sum_iff.1 h
      simp only [Meaning, meaningVariants_iff]
      refine exists_congr fun label => exists_congr fun payload => exists_congr fun ty => ?_
      refine and_congr_right' ⟨?_, ?_⟩
      · intro h
        rcases h with ⟨a, ha, hmeaning⟩
        obtain ⟨b, hb, hab⟩ := htables.agree.left ha
        exact ⟨b, hb, (ih _ (Table.mem_of_lookup ha) hab payload).1 hmeaning⟩
      · intro h
        rcases h with ⟨b, hb, hmeaning⟩
        obtain ⟨a, ha, hab⟩ := htables.agree.right hb
        exact ⟨a, ha, (ih _ (Table.mem_of_lookup ha) hab payload).2 hmeaning⟩
  | foreign => exact absurd h not_alike_foreign

/-- A value of the type, with a form at every node. -/
structure Accepts (T : Ty) (v : Term) : Prop where
  isValue : v.isValue = true
  known : v.known = true
  meaning : T.Meaning v

def Computes (T : Ty) (t : Term) : Prop := ∃ v, Term.Halts t v ∧ T.Accepts v

section
variable {T U : Ty}

theorem Accepts.conv {v : Term} (h : T.Accepts v) (halike : T.Alike U) : U.Accepts v :=
  ⟨h.isValue, h.known, (meaning_congr halike v).1 h.meaning⟩

theorem Accepts.computes {v : Term} (h : T.Accepts v) : T.Computes v :=
  ⟨v, .value h.isValue, h⟩

theorem Computes.conv {t : Term} (h : T.Computes t) (halike : T.Alike U) : U.Computes t := by
  obtain ⟨v, hhalts, haccepts⟩ := h
  exact ⟨v, hhalts, haccepts.conv halike⟩

theorem Computes.root {t u : Term} (ht : t.known = true) (h : Term.Contracts t u)
    (hu : T.Computes u) : T.Computes t := by
  obtain ⟨v, hhalts, haccepts⟩ := hu
  exact ⟨v, .step ((Term.step_eq_ok_iff ht).2 (.root h)) hhalts, haccepts⟩

theorem Computes.fill (F : Frame) {t : Term} (hknown : (F.fill t).known = true)
    (hF : F.ready = true) (ht : U.Computes t)
    (hvalue : ∀ {w}, U.Accepts w → (F.fill w).known = true → T.Computes (F.fill w)) :
    T.Computes (F.fill t) := by
  obtain ⟨w, hhalts, haccepts⟩ := ht
  obtain ⟨v, hfill, hv⟩ := hvalue haccepts ((Term.known_fill hknown).2 haccepts.known)
  exact ⟨v, hhalts.fill hF hfill, hv⟩

end

theorem Computes.tuple {fields : List (String × Term)} {types : List (String × Ty)}
    (nodup : (Table.keys fields).Nodup)
    (h : Table.InStep (fun _ term ty => Computes ty term) fields types) :
    (product types).Computes (.tuple fields) := by
  have hkeys := h.keys_eq
  obtain ⟨values, hhalts, haccepts⟩ : ∃ values : List (String × Term),
      Table.InStep (fun _ => Term.Halts) fields values ∧
        Table.InStep (fun _ value ty => Accepts ty value) values types := h.exists_between
  refine ⟨_, @Term.Halts.tuple _ _ hhalts [] rfl, ?_, ?_, ?_⟩
  · rw [List.nil_append, Term.isValue_tuple_iff]
    intro entry hmem
    obtain ⟨_, haccept⟩ := haccepts.exists_of_mem hmem
    exact haccept.isValue
  · simp only [List.nil_append, Term.known, Term.knownFields_iff]
    intro entry hmem
    obtain ⟨_, haccept⟩ := haccepts.exists_of_mem hmem
    exact haccept.known
  · refine ⟨values, rfl, meaningFields_iff.2 ?_⟩
    intro entry hmem
    rcases entry with ⟨label, ty⟩
    obtain ⟨value, hvalue, haccept⟩ :=
      haccepts.agree.right (Table.lookup_of_mem (hkeys ▸ nodup) hmem)
    exact ⟨value, hvalue, haccept.meaning⟩

end Ty

/-- A value of a type is taken apart into values of the types that the pattern binds. -/
theorem Ty.Accepts.destructure {detect : Bool} {Γ : Context} {pattern : Pattern} {v : Term}
    {A : Ty} {types : List Ty} (hv : A.Accepts v) (hA : A.resolved Γ.aliases = true)
    (hbind : pattern.bind detect Γ A = .ok types) :
    ∃ bindings, pattern.destructure v = .ok bindings ∧
      List.Forall₂ (fun binding ty => Ty.Accepts ty binding.2) bindings types := by
  let R : Term → Ty → Prop := fun v A => A.Accepts v ∧ A.resolved Γ.aliases = true
  have hproduct : ∀ {v entries}, R v (.product entries) → ∃ terms, v = .tuple terms ∧
      ∀ {label a}, entries.lookup label = some a →
        ∃ term, terms.lookup label = some term ∧ R term a := by
    intro v entries h
    rcases h with ⟨⟨hvalue, hknown, terms, rfl, hmeaning⟩, hresolved⟩
    rw [meaningFields_iff] at hmeaning
    rw [Term.isValue_tuple_iff] at hvalue
    rw [Term.known, Term.knownFields_iff] at hknown
    rw [resolved_product] at hresolved
    refine ⟨terms, rfl, fun ha => ?_⟩
    have hentry := Table.mem_of_lookup ha
    obtain ⟨term, hterm, hty⟩ := hmeaning _ hentry
    have hmem := Table.mem_of_lookup hterm
    exact ⟨term, hterm, ⟨hvalue _ hmem, hknown _ hmem, hty⟩, hresolved _ hentry⟩
  obtain ⟨bindings, hbindings, hall⟩ :=
    Pattern.destructure_of_bind (fun h => h.2) hproduct ⟨hv, hA⟩ hbind
  exact ⟨bindings, hbindings, hall.imp fun _ _ h => h.1⟩

end TypedLambda
