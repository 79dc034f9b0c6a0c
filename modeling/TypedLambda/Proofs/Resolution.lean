import TypedLambda.Proofs.Outcomes
import TypedLambda.Proofs.TypeEquality

/-!
# Resolved types

A resolved type holds no name that has a definition. Resolution gives such types and
leaves them as they are, with and without the detection of cycles, and it keeps labels
where they stand.
-/

namespace TypedLambda

namespace Ty

variable {define : String → Except Fault Ty}

theorem expandEntries_eq_ok {entries results : List (String × Ty)} :
    expandEntries define entries = .ok results ↔
      Table.InStep (fun _ ty r => ty.expand define = .ok r) entries results := by
  induction entries generalizing results with
  | nil =>
      constructor
      · intro h
        cases h
        exact .nil
      · intro h
        cases h
        rfl
  | cons entry rest ih =>
      obtain ⟨label, ty⟩ := entry
      simp only [expandEntries, Outcome.bind_eq_ok, Outcome.pure_eq_ok]
      constructor
      · intro h
        rcases h with ⟨r, hr, found, hfound, rfl⟩
        exact .cons hr (ih.1 hfound)
      · intro h
        cases h with
        | cons hr htail => exact ⟨_, hr, _, ih.2 htail, rfl⟩

/-! ## What every expansion has -/

theorem expand_permitted {allowed : String → Bool}
    (hdefine : ∀ {name r}, define name = .ok r → r.permitted allowed = true) {ty r : Ty}
    (h : ty.expand define = .ok r) : r.permitted allowed = true := by
  have hentries : ∀ {entries results : List (String × Ty)},
      (∀ entry ∈ entries, ∀ {r}, entry.2.expand define = .ok r → r.permitted allowed = true) →
      expandEntries define entries = .ok results → permittedEntries allowed results = true := by
    intro entries results ih hresults
    rw [expandEntries_eq_ok] at hresults
    exact permittedEntries_iff.2 (hresults.forall_right ih)
  induction ty generalizing r with
  | bool | int | unit => cases h; rfl
  | base name => exact hdefine h
  | arrow param result ihp ihr =>
      simp only [expand, Outcome.bind_eq_ok, Outcome.pure_eq_ok] at h
      obtain ⟨p, hp, s, hs, rfl⟩ := h
      simp only [permitted, Bool.and_eq_true]
      exact ⟨ihp hp, ihr hs⟩
  | product fields ih =>
      simp only [expand, Outcome.bind_eq_ok, Outcome.pure_eq_ok] at h
      obtain ⟨results, hresults, rfl⟩ := h
      exact hentries ih hresults
  | sum variants ih =>
      simp only [expand, Outcome.bind_eq_ok, Outcome.pure_eq_ok] at h
      obtain ⟨results, hresults, rfl⟩ := h
      exact hentries ih hresults
  | foreign => cases h

theorem expand_distinct
    (hdefine : ∀ {name r}, define name = .ok r → r.distinct = true) {ty r : Ty}
    (hty : ty.distinct = true) (h : ty.expand define = .ok r) : r.distinct = true := by
  have hentries : ∀ {entries results : List (String × Ty)},
      (∀ entry ∈ entries, ∀ {r}, entry.2.distinct = true → entry.2.expand define = .ok r →
        r.distinct = true) →
      ((Table.keys entries).Nodup ∧ ∀ entry ∈ entries, entry.2.distinct = true) →
      expandEntries define entries = .ok results →
      (Table.keys results).Nodup ∧ ∀ entry ∈ results, entry.2.distinct = true := by
    intro entries results ih ⟨nodup, hall⟩ hresults
    rw [expandEntries_eq_ok] at hresults
    refine ⟨hresults.keys_eq ▸ nodup, ?_⟩
    exact hresults.forall_right fun entry hmem _ => ih entry hmem (hall entry hmem)
  induction ty generalizing r with
  | bool | int | unit => cases h; rfl
  | base name => exact hdefine h
  | arrow param result ihp ihr =>
      simp only [expand, Outcome.bind_eq_ok, Outcome.pure_eq_ok] at h
      obtain ⟨p, hp, s, hs, rfl⟩ := h
      rw [distinct_arrow] at hty ⊢
      exact ⟨ihp hty.1 hp, ihr hty.2 hs⟩
  | product fields ih =>
      simp only [expand, Outcome.bind_eq_ok, Outcome.pure_eq_ok] at h
      obtain ⟨results, hresults, rfl⟩ := h
      rw [distinct_product] at hty ⊢
      exact hentries ih hty hresults
  | sum variants ih =>
      simp only [expand, Outcome.bind_eq_ok, Outcome.pure_eq_ok] at h
      obtain ⟨results, hresults, rfl⟩ := h
      rw [distinct_sum] at hty ⊢
      exact hentries ih hty hresults
  | foreign => cases h

theorem expand_of_permitted {allowed : String → Bool}
    (hdefine : ∀ {name}, allowed name = true → define name = .ok (.base name)) {ty : Ty}
    (h : ty.permitted allowed = true) : ty.expand define = .ok ty := by
  have hentries : ∀ {entries : List (String × Ty)},
      (∀ entry ∈ entries, entry.2.permitted allowed = true → entry.2.expand define = .ok entry.2) →
      permittedEntries allowed entries = true → expandEntries define entries = .ok entries := by
    intro entries ih hallowed
    rw [permittedEntries_iff] at hallowed
    rw [expandEntries_eq_ok]
    exact .refl fun entry hmem => ih entry hmem (hallowed entry hmem)
  induction ty with
  | bool | int | unit => rfl
  | base name => exact hdefine h
  | arrow param result ihp ihr =>
      simp only [permitted, Bool.and_eq_true] at h
      rw [expand, ihp h.1, ihr h.2]
      rfl
  | product fields ih =>
      rw [expand, hentries ih h]
      rfl
  | sum variants ih =>
      rw [expand, hentries ih h]
      rfl
  | foreign => cases h

/-! ## Resolution -/

/-- Whatever holds of undefined names and of every expansion of a definition holds of
every resolution. `ofDefinition` is what the definitions are known to have. -/
theorem resolve_property (property ofDefinition : Ty → Prop) {detect : Bool}
    {aliases : List (String × Ty)}
    (haliases : ∀ entry ∈ aliases, ofDefinition entry.2)
    (hbase : ∀ {name}, aliases.lookup name = none → property (.base name))
    (hexpand : ∀ {define : String → Except Fault Ty} {ty r : Ty}, ofDefinition ty →
      (∀ {name r}, define name = .ok r → property r) → ty.expand define = .ok r → property r)
    {ty r : Ty} (hty : ofDefinition ty) (h : ty.resolve detect aliases = .ok r) :
    property r := by
  have hguarded : ∀ depth seen {name r}, guarded aliases depth seen name = .ok r →
      property r := by
    intro depth
    induction depth with
    | zero =>
        intro seen name r hr
        unfold guarded at hr
        split at hr
        · cases hr
          exact hbase (by assumption)
        · split at hr <;> cases hr
    | succ depth ih =>
        intro seen name r hr
        unfold guarded at hr
        split at hr
        · cases hr
          exact hbase (by assumption)
        · rename_i ty hlookup
          split at hr
          · cases hr
          · exact hexpand (haliases _ (Table.mem_of_lookup hlookup)) (ih _) hr
  have hfree : ∀ depth {name r}, free aliases depth name = .ok r → property r := by
    intro depth
    induction depth with
    | zero =>
        intro name r hr
        unfold free at hr
        split at hr
        · cases hr
          exact hbase (by assumption)
        · cases hr
    | succ depth ih =>
        intro name r hr
        unfold free at hr
        split at hr
        · cases hr
          exact hbase (by assumption)
        · rename_i ty hlookup
          exact hexpand (haliases _ (Table.mem_of_lookup hlookup)) ih hr
  unfold resolve at h
  split at h
  · exact hexpand hty (hguarded _ _) h
  · exact hexpand hty (hfree _) h

/-- No name of the type has a definition, and every node has a form. -/
def resolved (aliases : List (String × Ty)) (ty : Ty) : Bool :=
  ty.permitted fun name => !Table.has name aliases

section
variable {detect : Bool} {aliases : List (String × Ty)}

theorem resolved_of_resolve {ty r : Ty} (h : ty.resolve detect aliases = .ok r) :
    r.resolved aliases = true := by
  refine resolve_property (fun r => r.resolved aliases = true) (fun _ => True)
    (fun _ _ => trivial) ?_ ?_ trivial h
  · intro name hname
    simp only [resolved, permitted, ← Table.lookup_isSome_eq_has, hname]
    rfl
  · intro define ty r _ hdefine hr
    exact expand_permitted hdefine hr

theorem distinct_of_resolve (haliases : ∀ entry ∈ aliases, entry.2.distinct = true)
    {ty r : Ty} (hty : ty.distinct = true) (h : ty.resolve detect aliases = .ok r) :
    r.distinct = true :=
  resolve_property (fun r => r.distinct = true) (fun ty => ty.distinct = true) haliases
    (fun _ => rfl) (fun hdef hdefine hr => expand_distinct hdefine hdef hr) hty h

theorem resolve_of_resolved {ty : Ty} (h : ty.resolved aliases = true) :
    ty.resolve detect aliases = .ok ty := by
  have hnone : ∀ {name}, (!Table.has name aliases) = true → aliases.lookup name = none := by
    intro name hname
    rw [← Table.lookup_isSome_eq_has] at hname
    simpa using hname
  unfold resolve
  split
  · refine expand_of_permitted (fun hname => ?_) h
    unfold guarded
    rw [hnone hname]
  · refine expand_of_permitted (fun hname => ?_) h
    unfold free
    rw [hnone hname]

end

end Ty

end TypedLambda
