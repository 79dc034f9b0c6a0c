import Mathlib.Logic.Relation
import TypedLambda.Proofs.Expansion
import TypedLambda.Proofs.Refusals

/-!
# Cycles of definitions

The definition of a name mentions other names, and so definitions form a graph. Following them
without a guard ends unless the way leads to a cycle of that graph; with the guard it always ends,
and at a cycle it ends by naming a name on it.

`Ty.SearchEnds` is the search for the expansion of a name as its calls are made: there is no bound
on their depth, and a search that goes on for ever has no outcome. It is one relation for both
searches, with a list of the names under expansion for the guarded one and none for the other.
-/

namespace TypedLambda.Ty

open Relation (ReflTransGen TransGen)

/-! ## The names of a type -/

mutual

def names : Ty → List String
  | .base name => [name]
  | .arrow param result => param.names ++ result.names
  | .product fields => entryNames fields
  | .sum variants => entryNames variants
  | _ => []

def entryNames : List (String × Ty) → List String
  | [] => []
  | (_, ty) :: rest => ty.names ++ entryNames rest

end

theorem mem_entryNames_iff {name : String} {entries : List (String × Ty)} :
    name ∈ entryNames entries ↔ ∃ entry ∈ entries, name ∈ entry.2.names := by
  induction entries with
  | nil => simp [entryNames]
  | cons entry rest ih => simp [entryNames, ih]

section
variable {define define' : String → Except Fault Ty} {ty : Ty}

theorem expand_congr (h : ∀ name ∈ ty.names, define name = define' name) :
    ty.expand define = ty.expand define' := by
  have hentries : ∀ {entries : List (String × Ty)},
      (∀ entry ∈ entries, (∀ name ∈ entry.2.names, define name = define' name) →
        entry.2.expand define = entry.2.expand define') →
      (∀ name ∈ entryNames entries, define name = define' name) →
      expandEntries define entries = expandEntries define' entries := by
    intro entries ih hnames
    induction entries with
    | nil => rfl
    | cons entry rest ihrest =>
        rw [List.forall_mem_cons] at ih
        rw [entryNames, List.forall_mem_append] at hnames
        rw [expandEntries, expandEntries, ih.1 hnames.1, ihrest ih.2 hnames.2]
  induction ty with
  | bool | int | unit | foreign => rfl
  | base name => exact h name List.mem_cons_self
  | arrow param result ihp ihr =>
      rw [names, List.forall_mem_append] at h
      rw [expand, expand, ihp h.1, ihr h.2]
  | product fields ih => rw [expand, expand, hentries ih h]
  | sum variants ih => rw [expand, expand, hentries ih h]

theorem exists_name_of_expand_error (hty : ty.known = true) {fault : Fault}
    (h : ty.expand define = .error fault) : ∃ name ∈ ty.names, define name = .error fault := by
  have hentries : ∀ {entries : List (String × Ty)},
      (∀ entry ∈ entries, entry.2.known = true → entry.2.expand define = .error fault →
        ∃ name ∈ entry.2.names, define name = .error fault) →
      (∀ entry ∈ entries, entry.2.known = true) →
      expandEntries define entries = .error fault →
      ∃ name ∈ entryNames entries, define name = .error fault := by
    intro entries ih hknown herror
    induction entries with
    | nil => cases herror
    | cons entry rest ihrest =>
        rw [List.forall_mem_cons] at ih hknown
        rw [expandEntries, Outcome.bind_eq_error] at herror
        simp only [entryNames, List.mem_append, or_and_right, exists_or]
        rcases herror with hhead | ⟨_, -, hrest⟩
        · exact .inl (ih.1 hknown.1 hhead)
        · exact .inr (ihrest ih.2 hknown.2 (Outcome.bind_pure_eq_error.1 hrest))
  induction ty with
  | bool | int | unit => cases h
  | base name => exact ⟨name, List.mem_cons_self, h⟩
  | arrow param result ihp ihr =>
      simp only [known, permitted, Bool.and_eq_true] at hty
      rw [expand, Outcome.bind_eq_error] at h
      simp only [names, List.mem_append, or_and_right, exists_or]
      rcases h with hparam | ⟨_, -, hresult⟩
      · exact .inl (ihp hty.1 hparam)
      · exact .inr (ihr hty.2 (Outcome.bind_pure_eq_error.1 hresult))
  | product fields ih =>
      simp only [known, permitted, permittedEntries_iff] at hty
      rw [expand, Outcome.bind_pure_eq_error] at h
      exact hentries ih hty h
  | sum variants ih =>
      simp only [known, permitted, permittedEntries_iff] at hty
      rw [expand, Outcome.bind_pure_eq_error] at h
      exact hentries ih hty h
  | foreign => cases hty

end

variable {aliases : List (String × Ty)}

/-! ## The graph of definitions -/

/-- The definition of `name` holds the name `other`, which is defined as well. -/
def Mentions (aliases : List (String × Ty)) (name other : String) : Prop :=
  ∃ ty, aliases.lookup name = some ty ∧ other ∈ ty.names ∧ other ∈ Table.keys aliases

/-- The name lies on a cycle of definitions. -/
def Cyclic (aliases : List (String × Ty)) (name : String) : Prop :=
  TransGen (Mentions aliases) name name

/-- Definitions lead from the name to a cycle. -/
def Tangled (aliases : List (String × Ty)) (name : String) : Prop :=
  ∃ knot, ReflTransGen (Mentions aliases) name knot ∧ Cyclic aliases knot

theorem Tangled.exists_mentions {name : String} (h : Tangled aliases name) :
    ∃ other, Mentions aliases name other ∧ Tangled aliases other := by
  obtain ⟨knot, hpath, hcyclic⟩ := h
  rcases hpath.cases_head with rfl | ⟨other, hmentions, hrest⟩
  · obtain ⟨other, hmentions, hback⟩ := TransGen.head'_iff.1 hcyclic
    exact ⟨other, hmentions, name, hback, hcyclic⟩
  · exact ⟨other, hmentions, knot, hrest, hcyclic⟩

/-! ## Searches that end -/

/-- The search for the expansion of a name ends with the outcome. `seen` holds the names under
expansion, and a search without a guard has none. A search for a defined name starts those for the
names of its definition, and all of these end. -/
inductive SearchEnds (aliases : List (String × Ty)) :
    Option (List String) → String → Except Fault Ty → Prop
  | undefined {seen : Option (List String)} {name : String} : aliases.lookup name = none →
      SearchEnds aliases seen name (.ok (.base name))
  | repeated {seen : List String} {name : String} {ty : Ty} : aliases.lookup name = some ty →
      name ∈ seen → SearchEnds aliases (some seen) name (.error (.illTyped (.cyclicAlias name)))
  | defined {seen : Option (List String)} {name : String} {ty : Ty}
      {define : String → Except Fault Ty} : aliases.lookup name = some ty →
      (∀ names ∈ seen, name ∉ names) →
      (∀ other ∈ ty.names, SearchEnds aliases (seen.map (name :: ·)) other (define other)) →
      SearchEnds aliases seen name (ty.expand define)

/-- The search ends for every name of the type, and the outcome is the expansion of the type by
what was found. -/
def Halts (aliases : List (String × Ty)) (seen : Option (List String)) (ty : Ty)
    (outcome : Except Fault Ty) : Prop :=
  ∃ define, (∀ name ∈ ty.names, SearchEnds aliases seen name (define name)) ∧
    ty.expand define = outcome

theorem SearchEnds.unique {seen : Option (List String)} {name : String}
    {outcome outcome' : Except Fault Ty} (h : SearchEnds aliases seen name outcome)
    (h' : SearchEnds aliases seen name outcome') : outcome = outcome' := by
  induction h generalizing outcome' with
  | undefined hname =>
      cases h' with
      | undefined => rfl
      | repeated hty | defined hty =>
          rw [hname] at hty
          cases hty
  | repeated hty hseen =>
      cases h' with
      | undefined hname =>
          rw [hname] at hty
          cases hty
      | repeated => rfl
      | defined _ hfresh => exact absurd hseen (hfresh _ rfl)
  | defined hty hfresh _ ih =>
      cases h' with
      | undefined hname =>
          rw [hname] at hty
          cases hty
      | repeated _ hseen => exact absurd hseen (hfresh _ rfl)
      | defined hty' _ hends =>
          obtain rfl := Option.some.inj (hty.symm.trans hty')
          exact expand_congr fun other hmem => ih other hmem (hends other hmem)

theorem Halts.unique {seen : Option (List String)} {ty : Ty} {outcome outcome' : Except Fault Ty}
    (h : Halts aliases seen ty outcome) (h' : Halts aliases seen ty outcome') :
    outcome = outcome' := by
  obtain ⟨define, hends, rfl⟩ := h
  obtain ⟨define', hends', rfl⟩ := h'
  exact expand_congr fun name hmem => (hends name hmem).unique (hends' name hmem)

/-- The guarded search ends from wherever it stands. -/
theorem searchEnds_guarded {depth : Nat} {seen : List String} (h : Pending aliases 0 depth seen)
    (name : String) : SearchEnds aliases (some seen) name (guarded aliases depth seen name) := by
  -- the depth covers the names that can still come under expansion, so it is the guard that
  -- stops the search and not the depth
  induction depth using Nat.strongRecOn generalizing seen name with
  | ind depth ih =>
      unfold guarded
      cases hty : aliases.lookup name with
      | none => exact .undefined hty
      | some ty =>
          by_cases hseen : name ∈ seen
          · simp only [List.contains_iff_mem.2 hseen, if_true]
            exact .repeated hty hseen
          · have hkey : name ∈ Table.keys aliases := Table.mem_keys_iff.2 ⟨ty, hty⟩
            obtain ⟨depth, rfl⟩ : ∃ left, depth = left + 1 :=
              Nat.exists_eq_add_one.2 (h.lt hkey hseen)
            simp only [mt List.contains_iff_mem.1 hseen]
            -- no definition is followed at depth zero, so a defined name is unknown there
            have hunknown : ∀ r, free aliases 0 name ≠ .ok r := by
              intro r hr
              unfold free at hr
              rw [hty] at hr
              cases hr
            have hbelow := h.cons hkey hseen hunknown
            refine .defined hty (by simpa using hseen) fun other _ => ?_
            exact ih depth (Nat.lt_succ_self depth) hbelow other

theorem expand_free_eq_ok_iff {ty r : Ty} :
    ty.expand (free aliases aliases.length) = .ok r ↔ Resolves aliases ty r := by
  show ty.resolve false aliases = .ok r ↔ _
  exact resolve_eq_ok_iff

theorem searchEnds_free {ty r : Ty} (h : Resolves aliases ty r) :
    ∀ name ∈ ty.names, SearchEnds aliases none name (free aliases aliases.length name) := by
  have hfound : ∀ {name r}, Resolves aliases (.base name) r →
      free aliases aliases.length name = .ok r := fun h => expand_free_eq_ok_iff.2 h
  have hentries : ∀ {entries results : List (String × Ty)},
      Table.InStep (fun _ ty r => Resolves aliases ty r ∧ ∀ name ∈ ty.names,
        SearchEnds aliases none name (free aliases aliases.length name)) entries results →
      Table.InStep (fun _ => Resolves aliases) entries results ∧ ∀ name ∈ entryNames entries,
        SearchEnds aliases none name (free aliases aliases.length name) := by
    intro entries results hentries
    refine ⟨hentries.imp fun _ _ _ hentry => hentry.1, fun name hname => ?_⟩
    obtain ⟨entry, hmem, hname⟩ := mem_entryNames_iff.1 hname
    obtain ⟨_, -, hends⟩ := hentries.exists_of_mem hmem
    exact hends name hname
  -- that the type resolves goes along, because it says what the search for a name has found
  refine (h.least (motive := fun ty r => Resolves aliases ty r ∧ ∀ name ∈ ty.names,
    SearchEnds aliases none name (free aliases aliases.length name)) ?bool ?int ?unit ?undefined
    ?defined ?arrow ?product ?sum).2
  case bool => exact ⟨.bool, nofun⟩
  case int => exact ⟨.int, nofun⟩
  case unit => exact ⟨.unit, nofun⟩
  case undefined =>
    intro name hname
    refine ⟨.undefined hname, ?_⟩
    rw [names, List.forall_mem_singleton, hfound (.undefined hname)]
    exact .undefined hname
  case defined =>
    intro name ty r hty ih
    refine ⟨.defined hty ih.1, ?_⟩
    rw [names, List.forall_mem_singleton, hfound (.defined hty ih.1),
      ← expand_free_eq_ok_iff.2 ih.1]
    exact .defined hty nofun ih.2
  case arrow =>
    intro param result p r ihp ihr
    refine ⟨.arrow ihp.1 ihr.1, ?_⟩
    rw [names, List.forall_mem_append]
    exact ⟨ihp.2, ihr.2⟩
  case product =>
    intro fields results ih
    exact ⟨.product (hentries ih).1, (hentries ih).2⟩
  case sum =>
    intro variants results ih
    exact ⟨.sum (hentries ih).1, (hentries ih).2⟩

/-! ## Searches and cycles -/

theorem SearchEnds.not_tangled {name : String} {outcome : Except Fault Ty}
    (h : SearchEnds aliases none name outcome) : ¬ Tangled aliases name := by
  generalize hfree : (none : Option (List String)) = seen at h
  induction h with
  | undefined hname =>
      intro htangled
      obtain ⟨other, ⟨ty, hty, -⟩, -⟩ := htangled.exists_mentions
      rw [hname] at hty
      cases hty
  | repeated => cases hfree
  | @defined _ _ ty _ hty _ _ ih =>
      subst hfree
      intro htangled
      obtain ⟨other, ⟨ty', hty', hmem, -⟩, hother⟩ := htangled.exists_mentions
      obtain rfl : ty = ty' := Option.some.inj (hty.symm.trans hty')
      exact ih other hmem rfl hother

/-- A guarded search that fails names a name on a cycle, to which definitions lead. Every name
under expansion leads to the name that is searched for, if that one is defined. -/
theorem SearchEnds.exists_knot (haliases : ∀ entry ∈ aliases, entry.2.known = true)
    {seen : List String} {name : String} {outcome : Except Fault Ty}
    (h : SearchEnds aliases (some seen) name outcome)
    (hseen : ∀ above ∈ seen, name ∈ Table.keys aliases → TransGen (Mentions aliases) above name)
    {fault : Fault} (hfault : outcome = .error fault) :
    name ∈ Table.keys aliases ∧ ∃ knot, fault = .illTyped (.cyclicAlias knot) ∧
      ReflTransGen (Mentions aliases) name knot ∧ Cyclic aliases knot := by
  generalize hguard : some seen = guard at h
  induction h generalizing seen with
  | undefined => cases hfault
  | @repeated _ name ty hty hmem =>
      cases hguard
      cases hfault
      have hkey : name ∈ Table.keys aliases := Table.mem_keys_iff.2 ⟨ty, hty⟩
      exact ⟨hkey, name, rfl, .refl, hseen name hmem hkey⟩
  | @defined _ name ty define hty _ _ ih =>
      subst hguard
      have hkey : name ∈ Table.keys aliases := Table.mem_keys_iff.2 ⟨ty, hty⟩
      have hknown : ty.known = true := haliases _ (Table.mem_of_lookup hty)
      obtain ⟨other, hother, hdefine⟩ := exists_name_of_expand_error hknown hfault
      have hbelow : ∀ above ∈ name :: seen, other ∈ Table.keys aliases →
          TransGen (Mentions aliases) above other := by
        intro above habove hdefined
        have hmentions : Mentions aliases name other := ⟨ty, hty, hother, hdefined⟩
        rcases List.mem_cons.1 habove with rfl | hold
        · exact .single hmentions
        · exact (hseen above hold hkey).tail hmentions
      obtain ⟨hdefined, knot, hknot, hpath, hcyclic⟩ := ih other hother hbelow hdefine rfl
      exact ⟨hkey, knot, hknot, hpath.head ⟨ty, hty, hother, hdefined⟩, hcyclic⟩

/-! ## Resolution and cycles -/

theorem halts_resolve (aliases : List (String × Ty)) (ty : Ty) :
    Halts aliases (some []) ty (ty.resolve true aliases) := by
  have hstart : Pending aliases 0 aliases.length [] := by
    constructor <;> simp
  exact ⟨_, fun name _ => searchEnds_guarded hstart name, rfl⟩

theorem Resolves.halts {ty r : Ty} (h : Resolves aliases ty r) :
    Halts aliases none ty (.ok r) :=
  ⟨_, searchEnds_free h, expand_free_eq_ok_iff.2 h⟩

theorem Halts.not_tangled {ty : Ty} {outcome : Except Fault Ty}
    (h : Halts aliases none ty outcome) : ∀ name ∈ ty.names, ¬ Tangled aliases name := by
  obtain ⟨define, hends, -⟩ := h
  exact fun name hmem => (hends name hmem).not_tangled

section
variable {ty : Ty} (haliases : ∀ entry ∈ aliases, entry.2.known = true) (hty : ty.known = true)
include haliases hty

theorem exists_knot_of_resolve_error {fault : Fault} (h : ty.resolve true aliases = .error fault) :
    ∃ start ∈ ty.names, ∃ knot, fault = .illTyped (.cyclicAlias knot) ∧
      ReflTransGen (Mentions aliases) start knot ∧ Cyclic aliases knot := by
  obtain ⟨define, hends, hexpand⟩ := halts_resolve aliases ty
  obtain ⟨start, hmem, hdefine⟩ := exists_name_of_expand_error hty (hexpand.trans h)
  obtain ⟨-, hknot⟩ := (hends start hmem).exists_knot haliases nofun hdefine
  exact ⟨start, hmem, hknot⟩

theorem exists_resolves_iff : (∃ r, Resolves aliases ty r) ↔
    ∀ name ∈ ty.names, ¬ Tangled aliases name := by
  constructor
  · intro h
    obtain ⟨r, hr⟩ := h
    exact hr.halts.not_tangled
  · intro h
    cases hresolve : ty.resolve true aliases with
    | ok r => exact ⟨r, resolve_eq_ok_iff.1 hresolve⟩
    | error fault =>
        obtain ⟨start, hmem, knot, -, hpath, hcyclic⟩ :=
          exists_knot_of_resolve_error haliases hty hresolve
        exact absurd ⟨knot, hpath, hcyclic⟩ (h start hmem)

theorem exists_halts_iff : (∃ outcome, Halts aliases none ty outcome) ↔
    ∃ r, Resolves aliases ty r := by
  constructor
  · intro h
    obtain ⟨outcome, houtcome⟩ := h
    exact (exists_resolves_iff haliases hty).2 houtcome.not_tangled
  · intro h
    obtain ⟨r, hr⟩ := h
    exact ⟨_, hr.halts⟩

theorem halts_ok_iff {r : Ty} : Halts aliases none ty (.ok r) ↔ Resolves aliases ty r := by
  constructor
  · intro h
    obtain ⟨r', hr'⟩ := (exists_halts_iff haliases hty).1 ⟨_, h⟩
    obtain rfl : r = r' := Except.ok.inj (h.unique hr'.halts)
    exact hr'
  · exact Resolves.halts

end

/-- Whether there is a cycle can be computed: it takes a name that does not resolve. -/
theorem acyclic_iff (haliases : ∀ entry ∈ aliases, entry.2.known = true) :
    (∀ name, ¬ Cyclic aliases name) ↔
      ∀ name ∈ Table.keys aliases, ((base name).resolve true aliases).isOk = true := by
  constructor
  · intro h name _
    have htangled : ∀ start ∈ (base name).names, ¬ Tangled aliases start := by
      intro start _ htangled
      obtain ⟨knot, -, hcyclic⟩ := htangled
      exact h knot hcyclic
    obtain ⟨r, hr⟩ := (exists_resolves_iff haliases rfl).2 htangled
    have hresolve : (base name).resolve true aliases = .ok r := resolve_eq_ok_iff.2 hr
    rw [hresolve]
    rfl
  · intro h name hcyclic
    obtain ⟨other, ⟨ty, hty, -⟩, -⟩ := TransGen.head'_iff.1 hcyclic
    have hok := h name (Table.mem_keys_iff.2 ⟨ty, hty⟩)
    cases hresolve : (base name).resolve true aliases with
    | ok r =>
        have hhalts := (resolve_eq_ok_iff.1 hresolve).halts
        exact hhalts.not_tangled name List.mem_cons_self ⟨name, .refl, hcyclic⟩
    | error fault =>
        rw [hresolve] at hok
        cases hok

theorem endless_of_free_error (haliases : ∀ entry ∈ aliases, entry.2.known = true) {depth : Nat}
    {name : String} {fault : Fault} (h : free aliases depth name = .error fault) :
    fault = .endlessAlias := by
  induction depth generalizing name with
  | zero =>
      unfold free at h
      split at h
      · cases h
      · cases h
        rfl
  | succ depth ih =>
      unfold free at h
      split at h
      · cases h
      · rename_i ty hty
        have hknown : ty.known = true := haliases _ (Table.mem_of_lookup hty)
        obtain ⟨other, -, hother⟩ := exists_name_of_expand_error hknown h
        exact ih hother

theorem not_resolves_iff (detect : Bool) {ty : Ty} : (¬ ∃ r, Resolves aliases ty r) ↔
    ∃ fault, ty.resolve detect aliases = .error fault := by
  have hok : (∃ r, Resolves aliases ty r) ↔ ∃ r, ty.resolve detect aliases = .ok r :=
    exists_congr fun r => resolve_eq_ok_iff.symm
  rw [hok]
  cases ty.resolve detect aliases <;> simp

/-- The detection of cycles is exact, on definitions and types of known forms. The guarded search
always ends. It gives a type if the search without a guard ends, which then gives the same type,
and a type error if that search goes on for ever. The latter happens if definitions lead from a
name of the type to a cycle, and the error names a name on such a cycle. -/
theorem resolve_detection {ty : Ty} (haliases : ∀ entry ∈ aliases, entry.2.known = true)
    (hty : ty.known = true) :
    Halts aliases (some []) ty (ty.resolve true aliases) ∧
      (∀ r, ty.resolve true aliases = .ok r ↔ Halts aliases none ty (.ok r)) ∧
      ((∃ r, ty.resolve true aliases = .ok r) ↔ ∃ outcome, Halts aliases none ty outcome) ∧
      ((∃ error, ty.resolve true aliases = .error (.illTyped error)) ↔
        ¬ ∃ outcome, Halts aliases none ty outcome) ∧
      ((¬ ∃ outcome, Halts aliases none ty outcome) ↔ ∃ name ∈ ty.names, Tangled aliases name) ∧
      (∀ error, ty.resolve true aliases = .error (.illTyped error) →
        ∃ start ∈ ty.names, ∃ knot : String, error.text = "Cyclic type alias: " ++ knot ∧
          ReflTransGen (Mentions aliases) start knot ∧ Cyclic aliases knot) ∧
      (∀ r, ty.resolve false aliases = .ok r ↔ Halts aliases none ty (.ok r)) ∧
      (ty.resolve false aliases = .error .endlessAlias ↔
        ¬ ∃ outcome, Halts aliases none ty outcome) := by
  have hhalts : ∀ {r}, Halts aliases none ty (.ok r) ↔ Resolves aliases ty r :=
    halts_ok_iff haliases hty
  have hends : (∃ outcome, Halts aliases none ty outcome) ↔ ∃ r, Resolves aliases ty r :=
    exists_halts_iff haliases hty
  refine ⟨halts_resolve aliases ty, fun r => ?_, ?_, ?_, ?_, fun error h => ?_, fun r => ?_, ?_⟩
  · rw [resolve_eq_ok_iff, hhalts]
  · simp only [resolve_eq_ok_iff, hends]
  · rw [hends, not_resolves_iff true]
    constructor
    · intro h
      obtain ⟨error, herror⟩ := h
      exact ⟨_, herror⟩
    · intro h
      obtain ⟨fault, hfault⟩ := h
      obtain ⟨_, -, knot, rfl, -⟩ := exists_knot_of_resolve_error haliases hty hfault
      exact ⟨_, hfault⟩
  · rw [hends, exists_resolves_iff haliases hty]
    simp
  · obtain ⟨start, hmem, knot, hknot, hpath⟩ := exists_knot_of_resolve_error haliases hty h
    cases hknot
    exact ⟨start, hmem, knot, rfl, hpath⟩
  · rw [resolve_eq_ok_iff, hhalts]
  · rw [hends, not_resolves_iff false]
    constructor
    · intro h
      exact ⟨_, h⟩
    · intro h
      obtain ⟨fault, hfault⟩ := h
      obtain ⟨_, -, hname⟩ := exists_name_of_expand_error hty hfault
      rwa [endless_of_free_error haliases hname] at hfault

/-- A definition that is used twice, and a cycle behind a record and a variant. -/
theorem resolve_detection_diamond :
    let aliases : List (String × Ty) := [("A", .arrow (.base "B") (.base "B")),
      ("B", .product [("x", .base "C")]), ("C", .int), ("D", .sum [("l", .base "E")]),
      ("E", .arrow .int (.product [("d", .base "D")]))]
    (∃ outcome, Halts aliases none (.arrow (.base "A") (.base "A")) outcome) ∧
      ∃ name ∈ names (.product [("a", .base "A"), ("e", .base "E")]), Tangled aliases name := by
  intro aliases
  have haliases : ∀ entry ∈ aliases, entry.2.known = true := by decide
  obtain ⟨-, -, hok, -⟩ := @resolve_detection aliases (.arrow (.base "A") (.base "A")) haliases rfl
  obtain ⟨-, -, -, herror, htangled, -⟩ :=
    @resolve_detection aliases (.product [("a", .base "A"), ("e", .base "E")]) haliases rfl
  exact ⟨hok.1 ⟨_, rfl⟩, htangled.1 (herror.1 ⟨_, rfl⟩)⟩

end TypedLambda.Ty
