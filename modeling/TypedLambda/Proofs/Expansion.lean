import Mathlib.Data.List.Perm.Subperm
import TypedLambda.Proofs.Rearrangement
import TypedLambda.Proofs.Resolution

/-!
# Resolution as a relation

`Ty.Resolves` says what a type resolves to without saying how to find it: there is no depth
and no list of names under expansion. A name that leads back to itself resolves to nothing.

Both searches compute this relation (`Ty.resolve_eq_ok_iff`). The one direction is immediate.
For the other, a resolution goes through finitely many definitions, and a shortest one never
meets a name while that name is being expanded. So it gets by with as many definitions as the
table holds, and the guarded search does not stop it either.
-/

namespace TypedLambda.Ty

/-- The type becomes `r` when every defined name is replaced by what its definition
resolves to. -/
inductive Resolves (aliases : List (String × Ty)) : Ty → Ty → Prop
  | bool : Resolves aliases .bool .bool
  | int : Resolves aliases .int .int
  | unit : Resolves aliases .unit .unit
  | undefined {name : String} : aliases.lookup name = none →
      Resolves aliases (.base name) (.base name)
  | defined {name : String} {ty r : Ty} : aliases.lookup name = some ty →
      Resolves aliases ty r → Resolves aliases (.base name) r
  | arrow {param result p r : Ty} : Resolves aliases param p → Resolves aliases result r →
      Resolves aliases (.arrow param result) (.arrow p r)
  | product {fields results : List (String × Ty)} :
      Table.InStep (fun _ => Resolves aliases) fields results →
      Resolves aliases (.product fields) (.product results)
  | sum {variants results : List (String × Ty)} :
      Table.InStep (fun _ => Resolves aliases) variants results →
      Resolves aliases (.sum variants) (.sum results)

variable {aliases : List (String × Ty)}

@[elab_as_elim]
theorem Resolves.least {motive : Ty → Ty → Prop} (bool : motive .bool .bool)
    (int : motive .int .int) (unit : motive .unit .unit)
    (undefined : ∀ {name}, aliases.lookup name = none → motive (.base name) (.base name))
    (defined : ∀ {name ty r}, aliases.lookup name = some ty → motive ty r → motive (.base name) r)
    (arrow : ∀ {param result p r}, motive param p → motive result r →
      motive (.arrow param result) (.arrow p r))
    (product : ∀ {fields results}, Table.InStep (fun _ => motive) fields results →
      motive (.product fields) (.product results))
    (sum : ∀ {variants results}, Table.InStep (fun _ => motive) variants results →
      motive (.sum variants) (.sum results))
    {ty r : Ty} (h : Resolves aliases ty r) : motive ty r :=
  @Resolves.rec aliases (fun ty r _ => motive ty r)
    (fun fields results _ => Table.InStep (fun _ => motive) fields results)
    bool int unit undefined (fun hname _ ih => defined hname ih)
    (fun _ _ ihp ihr => arrow ihp ihr) (fun _ ih => product ih) (fun _ ih => sum ih)
    .nil (fun _ _ ih tail => .cons ih tail) ty r h

/-! ## What is found is right -/

theorem resolves_of_expand {define : String → Except Fault Ty}
    (hdefine : ∀ {name r}, define name = .ok r → Resolves aliases (.base name) r) {ty r : Ty}
    (h : ty.expand define = .ok r) : Resolves aliases ty r := by
  induction ty generalizing r with
  | bool =>
      cases h
      exact .bool
  | int =>
      cases h
      exact .int
  | unit =>
      cases h
      exact .unit
  | base name => exact hdefine h
  | arrow param result ihp ihr =>
      simp only [expand, Outcome.bind_eq_ok, Outcome.pure_eq_ok] at h
      obtain ⟨p, hp, s, hs, rfl⟩ := h
      exact .arrow (ihp hp) (ihr hs)
  | product fields ih =>
      simp only [expand, Outcome.bind_eq_ok, Outcome.pure_eq_ok, expandEntries_eq_ok] at h
      obtain ⟨results, hresults, rfl⟩ := h
      exact .product (hresults.imp fun entry hmem _ => ih entry hmem)
  | sum variants ih =>
      simp only [expand, Outcome.bind_eq_ok, Outcome.pure_eq_ok, expandEntries_eq_ok] at h
      obtain ⟨results, hresults, rfl⟩ := h
      exact .sum (hresults.imp fun entry hmem _ => ih entry hmem)
  | foreign => cases h

theorem resolves_of_free {depth : Nat} {name : String} {r : Ty}
    (h : free aliases depth name = .ok r) : Resolves aliases (.base name) r := by
  induction depth generalizing name r with
  | zero =>
      unfold free at h
      split at h
      · cases h
        exact .undefined (by assumption)
      · cases h
  | succ depth ih =>
      unfold free at h
      split at h
      · cases h
        exact .undefined (by assumption)
      · rename_i ty hlookup
        exact .defined hlookup (resolves_of_expand ih h)

/-- One expansion finds all that another finds if it knows all the names that the other
knows. -/
theorem expand_mono {define define' : String → Except Fault Ty}
    (hdefine : ∀ {name r}, define name = .ok r → define' name = .ok r) {ty r : Ty}
    (h : ty.expand define = .ok r) : ty.expand define' = .ok r := by
  induction ty generalizing r with
  | bool | int | unit => exact h
  | base name => exact hdefine h
  | arrow param result ihp ihr =>
      simp only [expand, Outcome.bind_eq_ok] at h ⊢
      obtain ⟨p, hp, s, hs, hr⟩ := h
      exact ⟨p, ihp hp, s, ihr hs, hr⟩
  | product fields ih =>
      simp only [expand, Outcome.bind_eq_ok, expandEntries_eq_ok] at h ⊢
      obtain ⟨results, hresults, hr⟩ := h
      exact ⟨results, hresults.imp fun entry hmem _ => ih entry hmem, hr⟩
  | sum variants ih =>
      simp only [expand, Outcome.bind_eq_ok, expandEntries_eq_ok] at h ⊢
      obtain ⟨results, hresults, hr⟩ := h
      exact ⟨results, hresults.imp fun entry hmem _ => ih entry hmem, hr⟩
  | foreign => cases h

theorem free_of_guarded {depth : Nat} {seen : List String} {name : String} {r : Ty}
    (h : guarded aliases depth seen name = .ok r) : free aliases depth name = .ok r := by
  induction depth generalizing seen name r with
  | zero =>
      unfold guarded at h
      unfold free
      split at h
      · exact h
      · split at h <;> cases h
  | succ depth ih =>
      unfold guarded at h
      unfold free
      split at h
      · exact h
      · split at h
        · cases h
        · exact expand_mono ih h

theorem free_succ {depth : Nat} {name : String} {r : Ty} (h : free aliases depth name = .ok r) :
    free aliases (depth + 1) name = .ok r := by
  induction depth generalizing name r with
  | zero =>
      unfold free at h ⊢
      split at h
      · exact h
      · cases h
  | succ depth ih =>
      unfold free at h ⊢
      split at h
      · exact h
      · exact expand_mono ih h

theorem free_mono {depth more : Nat} (hle : depth ≤ more) {name : String} {r : Ty}
    (h : free aliases depth name = .ok r) : free aliases more name = .ok r := by
  induction hle with
  | refl => exact h
  | step _ ih => exact free_succ ih

/-! ## What is right is found -/

theorem exists_depth_of_inStep {fields results : List (String × Ty)}
    (h : Table.InStep (fun _ ty r => ∃ depth, ty.expand (free aliases depth) = .ok r)
      fields results) :
    ∃ depth, expandEntries (free aliases depth) fields = .ok results := by
  induction h with
  | nil => exact ⟨0, rfl⟩
  | @cons label ty r fields results hhead _ ih =>
      obtain ⟨d, hd⟩ := hhead
      obtain ⟨e, he⟩ := ih
      rw [expandEntries_eq_ok] at he
      refine ⟨max d e, expandEntries_eq_ok.2 (.cons ?_ (he.imp fun _ _ _ hty => ?_))⟩
      · exact expand_mono (free_mono (Nat.le_max_left d e)) hd
      · exact expand_mono (free_mono (Nat.le_max_right d e)) hty

theorem Resolves.exists_depth {ty r : Ty} (h : Resolves aliases ty r) :
    ∃ depth, ty.expand (free aliases depth) = .ok r := by
  refine h.least (motive := fun ty r => ∃ depth, ty.expand (free aliases depth) = .ok r)
    ⟨0, rfl⟩ ⟨0, rfl⟩ ⟨0, rfl⟩ ?undefined ?defined ?arrow ?product ?sum
  case undefined =>
    intro name hname
    refine ⟨0, ?_⟩
    show free aliases 0 name = _
    unfold free
    rw [hname]
  case defined =>
    intro name ty r hname ih
    obtain ⟨depth, hdepth⟩ := ih
    refine ⟨depth + 1, ?_⟩
    show free aliases (depth + 1) name = _
    unfold free
    rw [hname]
    exact hdepth
  case arrow =>
    intro param result p r ihp ihr
    obtain ⟨d, hd⟩ := ihp
    obtain ⟨e, he⟩ := ihr
    refine ⟨max d e, ?_⟩
    rw [expand, expand_mono (free_mono (Nat.le_max_left d e)) hd,
      expand_mono (free_mono (Nat.le_max_right d e)) he]
    rfl
  case product =>
    intro fields results ih
    obtain ⟨depth, hdepth⟩ := exists_depth_of_inStep ih
    refine ⟨depth, ?_⟩
    rw [expand, hdepth]
    rfl
  case sum =>
    intro variants results ih
    obtain ⟨depth, hdepth⟩ := exists_depth_of_inStep ih
    refine ⟨depth, ?_⟩
    rw [expand, hdepth]
    rfl

/-- The names under expansion are defined and different, and none of them has an expansion
through so few definitions: `need` of them. With the depth that is left they cover the
table. -/
structure Pending (aliases : List (String × Ty)) (need depth : Nat) (seen : List String) :
    Prop where
  nodup : seen.Nodup
  defined : ∀ name ∈ seen, name ∈ Table.keys aliases
  unknown : ∀ name ∈ seen, ∀ r, free aliases need name ≠ .ok r
  covers : aliases.length ≤ depth + seen.length

theorem Pending.pred {need depth : Nat} {seen : List String}
    (h : Pending aliases (need + 1) depth seen) : Pending aliases need depth seen :=
  ⟨h.nodup, h.defined, fun name hmem r hr => h.unknown name hmem r (free_succ hr), h.covers⟩

theorem Pending.lt {need depth : Nat} {seen : List String} (h : Pending aliases need depth seen)
    {name : String} (hname : name ∈ Table.keys aliases) (hseen : name ∉ seen) : 0 < depth := by
  have hnodup : (name :: seen).Nodup := List.nodup_cons.2 ⟨hseen, h.nodup⟩
  have hsubset : name :: seen ⊆ Table.keys aliases :=
    List.cons_subset.2 ⟨hname, h.defined⟩
  have hlength := (List.subperm_of_subset hnodup hsubset).length_le
  have hcovers := h.covers
  simp only [Table.keys, List.length_cons, List.length_map] at hlength
  omega

theorem Pending.cons {need depth : Nat} {seen : List String}
    (h : Pending aliases need (depth + 1) seen) {name : String}
    (hname : name ∈ Table.keys aliases) (hseen : name ∉ seen)
    (hunknown : ∀ r, free aliases need name ≠ .ok r) :
    Pending aliases need depth (name :: seen) := by
  have hcovers := h.covers
  refine ⟨List.nodup_cons.2 ⟨hseen, h.nodup⟩, ?_, ?_, ?_⟩
  · exact List.forall_mem_cons.2 ⟨hname, h.defined⟩
  · exact List.forall_mem_cons.2 ⟨hunknown, h.unknown⟩
  · rw [List.length_cons]
    omega

theorem guarded_of_free {need depth : Nat} {seen : List String}
    (hpending : Pending aliases need depth seen) {name : String} {r : Ty}
    (h : free aliases need name = .ok r) : guarded aliases depth seen name = .ok r := by
  -- on the number of definitions that the free search needs: if it can do with one less, so
  -- be it; if not, the name is unknown to all that is below it, as the invariant asks
  induction need generalizing depth seen name r with
  | zero =>
      unfold free at h
      unfold guarded
      split at h
      · exact h
      · cases h
  | succ need ih =>
      by_cases hless : ∃ s, free aliases need name = .ok s
      · obtain ⟨s, hs⟩ := hless
        obtain rfl : s = r := Except.ok.inj ((free_succ hs).symm.trans h)
        exact ih hpending.pred hs
      · have hseen : name ∉ seen := fun hmem => hpending.unknown name hmem r h
        unfold free at h
        unfold guarded
        cases hlookup : aliases.lookup name with
        | none => simpa only [hlookup] using h
        | some ty =>
            simp only [hlookup] at h
            have hkey : name ∈ Table.keys aliases := Table.mem_keys_iff.2 ⟨ty, hlookup⟩
            obtain ⟨depth, rfl⟩ : ∃ left, depth = left + 1 :=
              Nat.exists_eq_add_one.2 (hpending.lt hkey hseen)
            have hcontains : seen.contains name = false := by simpa using hseen
            simp only [hcontains, Bool.false_eq_true, if_false]
            have hbelow := hpending.pred.cons hkey hseen fun s hs => hless ⟨s, hs⟩
            exact expand_mono (fun hr => ih hbelow hr) h

/-- Resolution computes the relation, with and without the detection of cycles. -/
theorem resolve_eq_ok_iff {detect : Bool} {ty r : Ty} :
    ty.resolve detect aliases = .ok r ↔ Resolves aliases ty r := by
  constructor
  · intro h
    unfold resolve at h
    split at h
    · exact resolves_of_expand (fun hr => resolves_of_free (free_of_guarded hr)) h
    · exact resolves_of_expand resolves_of_free h
  · intro h
    obtain ⟨need, hneed⟩ := h.exists_depth
    have hstart : Pending aliases need aliases.length [] := by
      constructor <;> simp
    have hguarded : ty.expand (guarded aliases aliases.length []) = .ok r :=
      expand_mono (guarded_of_free hstart) hneed
    unfold resolve
    split
    · exact hguarded
    · exact expand_mono free_of_guarded hguarded

/-! ## Resolution and the order of labels -/

/-- Types that differ in the order of labels resolve to such types, if the definitions of
names differ in that way as well. -/
theorem Resolves.reordered {others : List (String × Ty)}
    (haliases : Table.Agree Reordered aliases others) {a b r : Ty} (h : Resolves aliases a r)
    (hab : a.Reordered b) : ∃ s, Resolves others b s ∧ r.Reordered s := by
  refine h.least (motive := fun a r => ∀ {b}, a.Reordered b →
    ∃ s, Resolves others b s ∧ r.Reordered s) ?bool ?int ?unit ?undefined ?defined ?arrow ?product
    ?sum hab
  case bool =>
    intro b hab
    cases hab
    exact ⟨_, .bool, .bool⟩
  case int =>
    intro b hab
    cases hab
    exact ⟨_, .int, .int⟩
  case unit =>
    intro b hab
    cases hab
    exact ⟨_, .unit, .unit⟩
  case undefined =>
    intro name hname b hab
    cases hab
    refine ⟨_, .undefined ?_, .base⟩
    by_contra hsome
    obtain ⟨ty, hty⟩ := Option.ne_none_iff_exists'.1 hsome
    obtain ⟨other, hother, -⟩ := haliases.right hty
    rw [hname] at hother
    cases hother
  case defined =>
    intro name ty r hname ih b hab
    cases hab
    obtain ⟨other, hother, hreordered⟩ := haliases.left hname
    obtain ⟨s, hs, hrs⟩ := ih hreordered
    exact ⟨s, .defined hother hs, hrs⟩
  case arrow =>
    intro param result p r ihp ihr b hab
    cases hab with
    | arrow hparam hresult =>
        obtain ⟨q, hq, hpq⟩ := ihp hparam
        obtain ⟨s, hs, hrs⟩ := ihr hresult
        exact ⟨_, .arrow hq hs, .arrow hpq hrs⟩
  case product =>
    intro fields results ih b hab
    cases hab with
    | product hfields =>
        obtain ⟨found, hfound, hshuffled⟩ :=
          hfields.follow ih fun _ _ _ _ hreordered hresolves => hresolves hreordered
        exact ⟨_, .product hfound, .product hshuffled⟩
  case sum =>
    intro variants results ih b hab
    cases hab with
    | sum hvariants =>
        obtain ⟨found, hfound, hshuffled⟩ :=
          hvariants.follow ih fun _ _ _ _ hreordered hresolves => hresolves hreordered
        exact ⟨_, .sum hfound, .sum hshuffled⟩

end TypedLambda.Ty
