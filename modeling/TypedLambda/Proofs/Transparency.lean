import TypedLambda.Proofs.Refusals
import TypedLambda.Proofs.TypedSubstitution

/-!
# Transparent definitions of types

A name that has a definition means nothing but what it resolves to. Put the resolution in
place of every type that is written in a term or stands in its context, forget the
definitions, and the term has the type that it had before.

The checker keeps the types of parameters as they were written and resolves them where a
variable is used, but stores the types of let and case variables resolved. What holds of both
under every binder is `Context.Inlines`: the second context has, resolved, what the first one
has in some form.
-/

namespace TypedLambda

namespace Term

mutual

def mapTypes (f : Ty → Ty) : Term → Term
  | .unit => .unit
  | .bool value => .bool value
  | .zero => .zero
  | .succ term => .succ (term.mapTypes f)
  | .pred term => .pred (term.mapTypes f)
  | .isZero term => .isZero (term.mapTypes f)
  | .var index name => .var index name
  | .abs name ty body => .abs name (f ty) (body.mapTypes f)
  | .app function argument => .app (function.mapTypes f) (argument.mapTypes f)
  | .ite condition yes no => .ite (condition.mapTypes f) (yes.mapTypes f) (no.mapTypes f)
  | .tuple fields => .tuple (mapFieldTypes f fields)
  | .letIn pattern value body => .letIn pattern (value.mapTypes f) (body.mapTypes f)
  | .tag label payload ty => .tag label (payload.mapTypes f) (f ty)
  | .case scrutinee branches => .case (scrutinee.mapTypes f) (mapBranchTypes f branches)
  | .fix term => .fix (term.mapTypes f)
  | .foreign => .foreign

def mapFieldTypes (f : Ty → Ty) : List (String × Term) → List (String × Term)
  | [] => []
  | (label, term) :: rest => (label, term.mapTypes f) :: mapFieldTypes f rest

def mapBranchTypes (f : Ty → Ty) : List (String × Branch Term) → List (String × Branch Term)
  | [] => []
  | (key, ⟨label, name, body⟩) :: rest =>
      (key, ⟨label, name, body.mapTypes f⟩) :: mapBranchTypes f rest

end

theorem mapFieldTypes_eq_map (f : Ty → Ty) (fields : List (String × Term)) :
    mapFieldTypes f fields = fields.map fun entry => (entry.1, entry.2.mapTypes f) := by
  induction fields with
  | nil => rfl
  | cons entry rest ih => rw [mapFieldTypes, ih, List.map_cons]

theorem mapBranchTypes_eq_map (f : Ty → Ty) (branches : List (String × Branch Term)) :
    mapBranchTypes f branches =
      branches.map fun entry => (entry.1, entry.2.map (mapTypes f)) := by
  induction branches with
  | nil => rfl
  | cons entry rest ih =>
      rw [mapBranchTypes, ih, List.map_cons]
      rfl

end Term

/-! ## Contexts -/

namespace Context

variable {detect : Bool} {Γ Δ : Context}

def expand (detect : Bool) (Γ : Context) (ty : Ty) : Ty :=
  match Γ.resolve detect ty with
  | .ok r => r
  | .error _ => ty

def resolvable (detect : Bool) (Γ : Context) (ty : Ty) : Bool := (Γ.resolve detect ty).isOk

theorem resolve_eq_expand {ty : Ty} (h : Γ.resolvable detect ty = true) :
    Γ.resolve detect ty = .ok (Γ.expand detect ty) := by
  unfold resolvable at h
  unfold expand
  cases hr : Γ.resolve detect ty with
  | ok r => rfl
  | error fault =>
      rw [hr] at h
      cases h

/-- The context with the types of its variables resolved, and without definitions. -/
def inline (detect : Bool) (Γ : Context) : Context :=
  { Γ with
    vars := Γ.vars.map fun entry => (entry.1, Γ.expand detect entry.2)
    aliases := [] }

/-- `Δ` gives every variable the type to which its type under `Γ` resolves, and it defines no
name that such a type holds. -/
structure Inlines (detect : Bool) (Γ Δ : Context) : Prop where
  resolved : ∀ {r : Ty}, r.resolved Γ.aliases = true → r.resolved Δ.aliases = true
  lookup : ∀ index, Option.Rel (fun ty r => Γ.resolve detect ty = .ok r)
    (Γ.lookup? index) (Δ.lookup? index)

theorem inlines_inline (hvars : Γ.vars.all fun entry => Γ.resolvable detect entry.2) :
    Γ.Inlines detect (Γ.inline detect) := by
  constructor
  · intro r hr
    exact Ty.known_of_permitted hr
  · intro index
    have hlookup : (Γ.inline detect).lookup? index =
        (Γ.lookup? index).map (Γ.expand detect) := Table.lookup_map _ _ _
    rw [hlookup]
    cases hty : Γ.lookup? index with
    | none => exact .none
    | some ty =>
        have hresolvable := List.all_eq_true.1 hvars _ (Table.mem_of_lookup hty)
        exact .some (resolve_eq_expand hresolvable)

theorem Inlines.extend (h : Γ.Inlines detect Δ) {types others : List Ty}
    (htypes : List.Forall₂ (fun ty r => Γ.resolve detect ty = .ok r) types others) :
    (Γ.extend types).Inlines detect (Δ.extend others) := by
  refine ⟨h.resolved, fun index => ?_⟩
  rw [lookup?_extend, lookup?_extend, htypes.length_eq]
  split
  · exact rel_getElem?_of_forall₂ htypes index.toNat
  · exact h.lookup _

theorem Inlines.resolve_right (h : Γ.Inlines detect Δ) {r : Ty}
    (hr : r.resolved Γ.aliases = true) : Δ.resolve detect r = .ok r :=
  Ty.resolve_of_resolved (h.resolved hr)

theorem Inlines.extend_resolved (h : Γ.Inlines detect Δ) {types : List Ty}
    (htypes : ∀ ty ∈ types, ty.resolved Γ.aliases = true) :
    (Γ.extend types).Inlines detect (Δ.extend types) := by
  apply h.extend
  rw [List.forall₂_same]
  exact fun ty hmem => Ty.resolve_of_resolved (htypes ty hmem)

end Context

/-! ## Patterns and terms -/

/-- A pattern that meets a resolved type does not look at definitions. -/
theorem Pattern.bind_of_resolved {detect : Bool} {Γ Δ : Context} {pattern : Pattern} {ty : Ty}
    {types : List Ty} (hΓ : ty.resolved Γ.aliases = true) (hΔ : ty.resolved Δ.aliases = true)
    (h : pattern.bind detect Γ ty = .ok types) : pattern.bind detect Δ ty = .ok types := by
  induction pattern generalizing ty types with
  | var name =>
      obtain ⟨r, hr, rfl⟩ := bind_var_iff.1 h
      obtain rfl := Context.eq_of_resolve hΓ hr
      exact bind_var_iff.2 ⟨ty, Ty.resolve_of_resolved hΔ, rfl⟩
  | record fields ih =>
      obtain ⟨entries, bound, hr, hbound, rfl⟩ := bind_record_iff.1 h
      obtain rfl := Context.eq_of_resolve hΓ hr
      refine bind_record_iff.2 ⟨entries, bound, Ty.resolve_of_resolved hΔ, ?_, rfl⟩
      rw [Ty.resolved_product] at hΓ hΔ
      clear h hr
      induction hbound with
      | nil => exact .nil
      | cons hhead _ ihrest =>
          rw [List.forall_mem_cons] at ih
          obtain ⟨a, ha, hbind⟩ := hhead
          have hmem := Table.mem_of_lookup ha
          exact .cons ⟨a, ha, ih.1 (hΓ _ hmem) (hΔ _ hmem) hbind⟩ (ihrest ih.2)
  | foreign => exact absurd h bind_foreign_ne

theorem Context.Inlines.bind_iff {detect : Bool} {Γ Δ : Context} (h : Γ.Inlines detect Δ)
    {pattern : Pattern} {ty : Ty} {types : List Ty} (hty : ty.resolved Γ.aliases = true) :
    pattern.bind detect Δ ty = .ok types ↔ pattern.bind detect Γ ty = .ok types :=
  ⟨Pattern.bind_of_resolved (h.resolved hty) hty, Pattern.bind_of_resolved hty (h.resolved hty)⟩

namespace Term

variable {detect : Bool} {property : Ty → Bool} {f : Ty → Ty}

/-- Resolving the types that are written in a term keeps its type exactly. `property` holds of
these types, and `f` resolves the types that have it. -/
theorem infer_mapTypes_iff {Γ Δ : Context} (h : Γ.Inlines detect Δ)
    (hf : ∀ ty, property ty = true → Γ.resolve detect ty = .ok (f ty)) {t : Term}
    (ht : t.annotated property = true) {T : Ty} :
    (t.mapTypes f).infer detect Δ = .ok T ↔ t.infer detect Γ = .ok T := by
  have hwritten : ∀ {Γ Δ : Context} {ty : Ty}, Γ.Inlines detect Δ →
      Γ.resolve detect ty = .ok (f ty) → Δ.resolve detect (f ty) = .ok (f ty) :=
    fun h hty => h.resolve_right (Ty.resolved_of_resolve hty)
  induction t generalizing Γ Δ T with
  | unit | bool | zero | foreign => rfl
  | succ term ih =>
      rw [mapTypes, infer_succ_iff, infer_succ_iff]
      exact and_congr_left' (ih h hf ht)
  | pred term ih =>
      rw [mapTypes, infer_pred_iff, infer_pred_iff]
      exact and_congr_left' (ih h hf ht)
  | isZero term ih =>
      rw [mapTypes, infer_isZero_iff, infer_isZero_iff]
      exact and_congr_left' (ih h hf ht)
  | var index name =>
      rw [mapTypes, infer_var_iff, infer_var_iff]
      have hlookup := h.lookup index
      generalize Γ.lookup? index = left, Δ.lookup? index = right at hlookup
      cases hlookup with
      | none => simp
      | some hr =>
          have hr' := h.resolve_right (Ty.resolved_of_resolve hr)
          simp [hr, hr']
  | abs name ty body ih =>
      simp only [annotated, Bool.and_eq_true] at ht
      have hΓ := hf ty ht.1
      have hΔ := hwritten h hΓ
      rw [mapTypes, infer_abs_iff, infer_abs_iff, hΔ, hΓ]
      refine exists_congr fun p => exists_congr fun r => and_congr_right' (and_congr_left' ?_)
      exact ih (h.extend (.cons hΓ .nil)) hf ht.2
  | app function argument ihf iha =>
      simp only [annotated, Bool.and_eq_true] at ht
      rw [mapTypes, infer_app_iff, infer_app_iff]
      simp only [ihf h hf ht.1, iha h hf ht.2]
  | ite condition yes no ihc ihy ihn =>
      simp only [annotated, Bool.and_eq_true] at ht
      rw [mapTypes, infer_ite_iff, infer_ite_iff]
      simp only [ihc h hf ht.1.1, ihy h hf ht.1.2, ihn h hf ht.2]
  | tuple fields ih =>
      simp only [annotated, annotatedFields_iff] at ht
      rw [mapTypes, mapFieldTypes_eq_map, infer_tuple_iff, infer_tuple_iff]
      refine exists_congr fun types => and_congr_left' ?_
      rw [Table.InStep.map_left_iff]
      exact Table.InStep.iff_of_iff fun entry hmem _ => ih entry hmem h hf (ht entry hmem)
  | letIn pattern value body ihv ihb =>
      simp only [annotated, Bool.and_eq_true] at ht
      have hvalue : ∀ a, (value.mapTypes f).infer detect Δ = .ok a ↔
          value.infer detect Γ = .ok a := fun _ => ihv h hf ht.1
      rw [mapTypes, infer_letIn_iff, infer_letIn_iff]
      refine exists_congr fun a => exists_congr fun types => ?_
      rw [hvalue]
      refine and_congr_right fun ha => ?_
      rw [h.bind_iff (resolved_of_infer ha)]
      refine and_congr_right fun hbind => ?_
      -- the variables of the pattern have resolved types, the same under both contexts
      exact ihb (h.extend_resolved (Pattern.resolved_of_bind hbind)) hf ht.2
  | tag label payload ty ih =>
      simp only [annotated, Bool.and_eq_true] at ht
      have hΓ := hf ty ht.2
      have hΔ := hwritten h hΓ
      rw [mapTypes, infer_tag_iff, infer_tag_iff, hΔ, hΓ]
      simp only [ih h hf ht.1]
  | case scrutinee branches ihs ihb =>
      simp only [annotated, Bool.and_eq_true, annotatedBranches_iff] at ht
      have hscrutinee : ∀ a, (scrutinee.mapTypes f).infer detect Δ = .ok a ↔
          scrutinee.infer detect Γ = .ok a := fun _ => ihs h hf ht.1
      rw [mapTypes, mapBranchTypes_eq_map, infer_case_iff, infer_case_iff, Table.keys_map]
      refine exists_congr fun variants => exists_congr fun types => ?_
      rw [hscrutinee]
      refine and_congr_right fun hs => and_congr_right' (and_congr_left' ?_)
      have hvariants := Ty.resolved_sum.1 (resolved_of_infer hs)
      apply Table.InStep.iff_of_iff
      intro entry _ U
      apply infersBranch_map_iff
      intro payload branch hpayload hbranch
      have hmem := Table.mem_of_lookup hbranch
      have hresolved : ∀ ty ∈ [payload], ty.resolved Γ.aliases = true := by
        simpa using hvariants _ (Table.mem_of_lookup hpayload)
      exact ihb _ hmem (h.extend_resolved hresolved) hf (ht.2 _ hmem)
  | fix term ih =>
      rw [mapTypes, infer_fix_iff, infer_fix_iff]
      simp only [ih h hf ht]

/-- Definitions of types are transparent. If all types of the term and of its variables
resolve, the checker finds the type that it finds when their resolutions stand in their place
and nothing is defined. -/
theorem infer_inline_iff {Γ : Context} {t : Term}
    (hvars : (Γ.vars.all fun entry => Γ.resolvable detect entry.2) = true)
    (ht : t.annotated (Γ.resolvable detect) = true) {T : Ty} :
    t.infer detect Γ = .ok T ↔
      (t.mapTypes (Γ.expand detect)).infer detect (Γ.inline detect) = .ok T :=
  (infer_mapTypes_iff (Context.inlines_inline hvars)
    (fun _ hty => Context.resolve_eq_expand hty) ht).symm

theorem infer_inline_iff_nested :
    let Γ : Context := ⟨[(0, .base "F"), (2, .base "N")],
      [("F", .arrow (.base "N") (.base "S")), ("N", .int),
        ("S", .sum [("some", .base "N"), ("none", .unit)])], []⟩
    let t : Term := .case (.app (.var 0 "f") (.var 2 "n"))
      [("some", ⟨"some", "x", .app (.abs "y" (.base "N") (.succ (.var 0 "y"))) (.var 0 "x")⟩),
        ("none", ⟨"none", "u", .letIn (.var "z") (.tag "none" (.var 0 "u") (.base "S")) .zero⟩)]
    (Γ.vars.all fun entry => Γ.resolvable true entry.2) = true ∧
      t.annotated (Γ.resolvable true) = true ∧
      (t.mapTypes (Γ.expand true)).infer true (Γ.inline true) = .ok .int :=
  ⟨by decide, by decide, (infer_inline_iff (by decide) (by decide)).1 rfl⟩

end Term

end TypedLambda
