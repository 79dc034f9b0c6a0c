import TypedLambda.Proofs.Forms

/-!
# Equality of types up to the order of labels

`Ty.same` walks along its first argument and looks its labels up in the second, so by
itself it is neither symmetric nor reflexive: it takes a mapping on either side for that.
`Ty.Alike` asks for both sides to be well-formed as well. It is symmetric and transitive
without a side condition, and reflexive on every well-formed type without foreign nodes.
-/

namespace TypedLambda.Ty

/-! ## Tables of types -/

theorem sameEntries_iff {fs gs : List (String × Ty)} :
    sameEntries fs gs = true ↔
      ∀ entry ∈ fs, ∃ other, gs.lookup entry.1 = some other ∧ entry.2.same other = true := by
  induction fs with
  | nil => simp [sameEntries]
  | cons entry rest ih =>
      obtain ⟨label, ty⟩ := entry
      rw [List.forall_mem_cons, ← ih]
      cases h : gs.lookup label <;> simp [sameEntries, h]

theorem sameEntries_and_all_iff {fs gs : List (String × Ty)} (nodup : (Table.keys fs).Nodup) :
    (sameEntries fs gs && gs.all fun entry => Table.has entry.1 fs) = true ↔
      Table.Agree (fun a b => a.same b = true) fs gs := by
  rw [Bool.and_eq_true, sameEntries_iff, List.all_eq_true]
  constructor
  · intro h
    rcases h with ⟨hentries, hkeys⟩
    constructor
    · intro label ty hf
      exact hentries _ (Table.mem_of_lookup hf)
    · intro label other hg
      have hhas := hkeys _ (Table.mem_of_lookup hg)
      obtain ⟨ty, hf⟩ := Table.mem_keys_iff.1 (Table.has_eq_true_iff.1 hhas)
      obtain ⟨found, hfound, hsame⟩ := hentries _ (Table.mem_of_lookup hf)
      obtain rfl : found = other := Option.some.inj (hfound.symm.trans hg)
      exact ⟨ty, hf, hsame⟩
  · intro hagree
    constructor
    · intro entry hmem
      rcases entry with ⟨label, ty⟩
      exact hagree.left (Table.lookup_of_mem nodup hmem)
    · intro entry hmem
      rcases entry with ⟨label, other⟩
      have hkey : label ∈ Table.keys gs := List.mem_map.2 ⟨_, hmem, rfl⟩
      obtain ⟨found, hfound⟩ := Table.mem_keys_iff.1 hkey
      obtain ⟨ty, hty, -⟩ := hagree.right hfound
      exact Table.has_eq_true_iff.2 (Table.mem_keys_iff.2 ⟨ty, hty⟩)

/-! ## Well-formed types that are the same -/

/-- Two well-formed types that are equal up to the order of labels. -/
structure Alike (a b : Ty) : Prop where
  left : a.distinct = true
  right : b.distinct = true
  same : a.same b = true

/-- Two well-formed tables of types that are equal up to their order, and the order of
labels inside their types. -/
structure AlikeTables (fs gs : List (String × Ty)) : Prop where
  left : (Table.keys fs).Nodup
  right : (Table.keys gs).Nodup
  agree : Table.Agree Alike fs gs

theorem alikeTables_iff {fs gs : List (String × Ty)} :
    AlikeTables fs gs ↔
      ((Table.keys fs).Nodup ∧ ∀ entry ∈ fs, entry.2.distinct = true) ∧
      ((Table.keys gs).Nodup ∧ ∀ entry ∈ gs, entry.2.distinct = true) ∧
      (sameEntries fs gs && gs.all fun entry => Table.has entry.1 fs) = true := by
  constructor
  · intro h
    refine ⟨⟨h.left, ?_⟩, ⟨h.right, ?_⟩, (sameEntries_and_all_iff h.left).2 ?_⟩
    · intro entry hmem
      rcases entry with ⟨label, ty⟩
      obtain ⟨_, -, halike⟩ := h.agree.left (Table.lookup_of_mem h.left hmem)
      exact halike.left
    · intro entry hmem
      rcases entry with ⟨label, ty⟩
      obtain ⟨_, -, halike⟩ := h.agree.right (Table.lookup_of_mem h.right hmem)
      exact halike.right
    · exact h.agree.imp fun _ _ halike => halike.same
  · intro h
    rcases h with ⟨⟨hf, hfs⟩, ⟨hg, hgs⟩, hsame⟩
    refine ⟨hf, hg, ((sameEntries_and_all_iff hf).1 hsame).imp ?_⟩
    intro label a b hla hlb hab
    exact ⟨hfs _ (Table.mem_of_lookup hla), hgs _ (Table.mem_of_lookup hlb), hab⟩

section
variable {T : Ty}

theorem alike_leaf_iff {a : Ty} (leaf : a = .bool ∨ a = .int ∨ a = .unit ∨ ∃ name, a = .base name) :
    Alike a T ↔ T = a := by
  rcases leaf with rfl | rfl | rfl | ⟨name, rfl⟩
  all_goals
    constructor
    · intro h
      rcases h with ⟨-, -, h⟩
      cases T <;> simp_all [Ty.same]
    · intro heq
      subst heq
      exact ⟨rfl, rfl, by simp [Ty.same]⟩

@[simp] theorem alike_bool_iff : Alike .bool T ↔ T = .bool := alike_leaf_iff (by simp)

@[simp] theorem alike_int_iff : Alike .int T ↔ T = .int := alike_leaf_iff (by simp)

@[simp] theorem alike_unit_iff : Alike .unit T ↔ T = .unit := alike_leaf_iff (by simp)

@[simp] theorem alike_base_iff {name : String} : Alike (.base name) T ↔ T = .base name :=
  alike_leaf_iff (by simp)

@[simp] theorem not_alike_foreign : ¬ Alike .foreign T := by
  intro h
  rcases h with ⟨-, -, h⟩
  cases T <;> simp [Ty.same] at h

theorem alike_arrow_iff {a r : Ty} :
    Alike (.arrow a r) T ↔ ∃ b s, T = .arrow b s ∧ Alike a b ∧ Alike r s := by
  constructor
  · intro h
    rcases h with ⟨hl, hr, h⟩
    cases T <;> simp [Ty.same] at h
    rename_i b s
    rw [distinct_arrow] at hl hr
    exact ⟨b, s, rfl, ⟨hl.1, hr.1, h.1⟩, ⟨hl.2, hr.2, h.2⟩⟩
  · intro h
    rcases h with ⟨b, s, rfl, ha, hr⟩
    refine ⟨distinct_arrow.2 ⟨ha.left, hr.left⟩, distinct_arrow.2 ⟨ha.right, hr.right⟩, ?_⟩
    simp [Ty.same, ha.same, hr.same]

theorem alike_product_iff {fs : List (String × Ty)} :
    Alike (.product fs) T ↔ ∃ gs, T = .product gs ∧ AlikeTables fs gs := by
  constructor
  · intro h
    rcases h with ⟨hl, hr, h⟩
    cases T with
    | product gs =>
        exact ⟨gs, rfl, alikeTables_iff.2 ⟨distinct_product.1 hl, distinct_product.1 hr, h⟩⟩
    | _ => simp [Ty.same] at h
  · intro h
    rcases h with ⟨gs, rfl, h⟩
    obtain ⟨hl, hr, hsame⟩ := alikeTables_iff.1 h
    exact ⟨distinct_product.2 hl, distinct_product.2 hr, hsame⟩

theorem alike_sum_iff {fs : List (String × Ty)} :
    Alike (.sum fs) T ↔ ∃ gs, T = .sum gs ∧ AlikeTables fs gs := by
  constructor
  · intro h
    rcases h with ⟨hl, hr, h⟩
    cases T with
    | sum gs => exact ⟨gs, rfl, alikeTables_iff.2 ⟨distinct_sum.1 hl, distinct_sum.1 hr, h⟩⟩
    | _ => simp [Ty.same] at h
  · intro h
    rcases h with ⟨gs, rfl, h⟩
    obtain ⟨hl, hr, hsame⟩ := alikeTables_iff.1 h
    exact ⟨distinct_sum.2 hl, distinct_sum.2 hr, hsame⟩

end

/-! ## Equivalence

Each law goes by induction on the first type. The table lemmas take the law for the
entries as a hypothesis, which the induction supplies. -/

theorem AlikeTables.refl {fs : List (String × Ty)} (nodup : (Table.keys fs).Nodup)
    (h : ∀ entry ∈ fs, Alike entry.2 entry.2) : AlikeTables fs fs := by
  refine ⟨nodup, nodup, ?_, ?_⟩
  all_goals
    intro label ty hty
    exact ⟨ty, hty, h _ (Table.mem_of_lookup hty)⟩

theorem AlikeTables.symm_of {fs gs : List (String × Ty)} (h : AlikeTables fs gs)
    (ih : ∀ entry ∈ fs, ∀ {b}, Alike entry.2 b → Alike b entry.2) : AlikeTables gs fs :=
  ⟨h.right, h.left, h.agree.flip fun hf hab => ih _ (Table.mem_of_lookup hf) hab⟩

theorem AlikeTables.trans_of {fs gs hs : List (String × Ty)} (h₁ : AlikeTables fs gs)
    (h₂ : AlikeTables gs hs)
    (ih : ∀ entry ∈ fs, ∀ {b c}, Alike entry.2 b → Alike b c → Alike entry.2 c) :
    AlikeTables fs hs :=
  ⟨h₁.left, h₂.right,
    h₁.agree.trans h₂.agree fun hf hab hbc => ih _ (Table.mem_of_lookup hf) hab hbc⟩

theorem Alike.refl {allowed : String → Bool} {T : Ty} (hallowed : T.permitted allowed = true)
    (h : T.distinct = true) : Alike T T := by
  induction T with
  | bool => exact alike_bool_iff.2 rfl
  | int => exact alike_int_iff.2 rfl
  | unit => exact alike_unit_iff.2 rfl
  | base name => exact alike_base_iff.2 rfl
  | arrow param result ihp ihr =>
      simp only [permitted, Bool.and_eq_true] at hallowed
      rw [distinct_arrow] at h
      exact alike_arrow_iff.2 ⟨param, result, rfl, ihp hallowed.1 h.1, ihr hallowed.2 h.2⟩
  | product fields ih =>
      simp only [permitted, permittedEntries_iff] at hallowed
      obtain ⟨nodup, hall⟩ := distinct_product.1 h
      have hentries : ∀ entry ∈ fields, Alike entry.2 entry.2 :=
        fun entry hmem => ih entry hmem (hallowed entry hmem) (hall entry hmem)
      exact alike_product_iff.2 ⟨fields, rfl, .refl nodup hentries⟩
  | sum variants ih =>
      simp only [permitted, permittedEntries_iff] at hallowed
      obtain ⟨nodup, hall⟩ := distinct_sum.1 h
      have hentries : ∀ entry ∈ variants, Alike entry.2 entry.2 :=
        fun entry hmem => ih entry hmem (hallowed entry hmem) (hall entry hmem)
      exact alike_sum_iff.2 ⟨variants, rfl, .refl nodup hentries⟩
  | foreign => simp [permitted] at hallowed

theorem Alike.symm {a b : Ty} (h : Alike a b) : Alike b a := by
  induction a generalizing b with
  | bool | int | unit | base => simp_all
  | arrow param result ihp ihr =>
      obtain ⟨p, r, rfl, hp, hr⟩ := alike_arrow_iff.1 h
      exact alike_arrow_iff.2 ⟨param, result, rfl, ihp hp, ihr hr⟩
  | product fields ih =>
      obtain ⟨gs, rfl, htables⟩ := alike_product_iff.1 h
      exact alike_product_iff.2 ⟨fields, rfl, htables.symm_of ih⟩
  | sum variants ih =>
      obtain ⟨gs, rfl, htables⟩ := alike_sum_iff.1 h
      exact alike_sum_iff.2 ⟨variants, rfl, htables.symm_of ih⟩
  | foreign => exact absurd h not_alike_foreign

theorem Alike.trans {a b c : Ty} (h₁ : Alike a b) (h₂ : Alike b c) : Alike a c := by
  induction a generalizing b c with
  | bool | int | unit | base => simp_all
  | arrow param result ihp ihr =>
      obtain ⟨p, r, rfl, hp, hr⟩ := alike_arrow_iff.1 h₁
      obtain ⟨q, s, rfl, hq, hs⟩ := alike_arrow_iff.1 h₂
      exact alike_arrow_iff.2 ⟨q, s, rfl, ihp hp hq, ihr hr hs⟩
  | product fields ih =>
      obtain ⟨gs, rfl, hfg⟩ := alike_product_iff.1 h₁
      obtain ⟨hs, rfl, hgh⟩ := alike_product_iff.1 h₂
      exact alike_product_iff.2 ⟨hs, rfl, hfg.trans_of hgh ih⟩
  | sum variants ih =>
      obtain ⟨gs, rfl, hfg⟩ := alike_sum_iff.1 h₁
      obtain ⟨hs, rfl, hgh⟩ := alike_sum_iff.1 h₂
      exact alike_sum_iff.2 ⟨hs, rfl, hfg.trans_of hgh ih⟩
  | foreign => exact absurd h₁ not_alike_foreign

theorem Alike.refl_left {a b : Ty} (h : Alike a b) : Alike a a := h.trans h.symm

theorem Alike.refl_right {a b : Ty} (h : Alike a b) : Alike b b := h.symm.trans h

theorem Alike.param {p r T : Ty} (h : Alike (.arrow p r) T) : Alike p p := by
  obtain ⟨_, _, -, hp, -⟩ := alike_arrow_iff.1 h
  exact hp.refl_left

theorem Alike.variant {variants : List (String × Ty)} {label : String} {a T : Ty}
    (h : Alike (.sum variants) T) (hlabel : variants.lookup label = some a) : Alike a a := by
  obtain ⟨_, -, htables⟩ := alike_sum_iff.1 h
  obtain ⟨_, -, ha⟩ := htables.agree.left hlabel
  exact ha.refl_left

end TypedLambda.Ty
