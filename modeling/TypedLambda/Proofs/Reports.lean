import TypedLambda.Proofs.RearrangedTyping
import TypedLambda.Proofs.Refusals

/-!
# Reports of several failures

A tuple, a case and a record pattern go on after a part has failed and report all failures
together. Their reports are determined here from the messages that the parts give on their own:
a summary, and below it one entry for each failing part, in order (`Term.failures_reported`).

All three rules gather the outcomes of their parts in one way. Where no outcome fails but by a type
error, the gathered errors read as the messages of the failing outcomes (`Fault.collect_reports`),
so a rule is settled by what it makes of a single outcome.
-/

namespace TypedLambda

/-! ## Texts -/

namespace Text

theorem append_assoc (a b c : Text) : a ++ b ++ c = a ++ (b ++ c) := by
  have hstring : (a ++ b ++ c).string = (a ++ (b ++ c)).string := String.append_assoc
  have hcomplete : (a ++ b ++ c).complete = (a ++ (b ++ c)).complete := Bool.and_assoc _ _ _
  rw [mk.injEq]
  exact ⟨hstring, hcomplete⟩

theorem join_append_cons (sep : String) (a b : Text) (rest : List Text) :
    join sep ((a ++ b) :: rest) = a ++ join sep (b :: rest) := by
  cases rest with
  | nil => rfl
  | cons part parts => simp only [join, append_assoc]

def itemized (summary : Text) (entries : List Text) : Text :=
  join "\n" (summary :: entries.map fun entry => "  - " ++ entry)

end Text

theorem TypeError.report_eq_itemized (summary : Text) (failures : List Text) :
    report summary failures = Text.itemized summary failures := by
  induction failures generalizing summary with
  | nil => rfl
  | cons failure rest ih =>
      have hdash : Text.ofString "\n  - " = "\n" ++ "  - " := rfl
      have hstep := ih (summary ++ "\n  - " ++ failure)
      rw [report] at hstep ⊢
      rw [List.foldl_cons, hstep]
      simp only [Text.itemized, List.map_cons, hdash, Text.append_assoc, Text.join_append_cons,
        Text.join]

/-! ## Messages of outcomes -/

namespace Fault

variable {α β : Type}

def Fails (outcome : Except Fault α) : Prop := ∃ fault, outcome = .error fault

def message? : Except Fault α → Option Text
  | .ok _ => none
  | .error fault => some fault.text

theorem message?_eq_none_iff {outcome : Except Fault α} :
    message? outcome = none ↔ ¬ Fails outcome := by
  cases outcome with
  | ok a => exact iff_of_true rfl nofun
  | error fault => exact iff_of_false nofun fun h => h ⟨fault, rfl⟩

theorem message?_map (f : α → β) (outcome : Except Fault α) :
    message? (outcome.map f) = message? outcome := by
  cases outcome <;> rfl

theorem message?_blame {wrap : TypeError → TypeError} {reword : Text → Text}
    (hwrap : ∀ error, (wrap error).text = reword error.text) {outcome : Except Fault α}
    (h : Judged outcome) : message? (blame wrap outcome) = (message? outcome).map reword := by
  rcases h with ⟨a, rfl⟩ | ⟨error, rfl⟩
  · rfl
  · exact congrArg some (hwrap error)

theorem gather_texts {outcomes : List (Except Fault α)}
    (h : ∀ outcome ∈ outcomes, Judged outcome) :
    ∃ results errors, gather outcomes = .ok (results, errors) ∧
      errors.map TypeError.text = outcomes.filterMap message? := by
  induction outcomes with
  | nil => exact ⟨[], [], rfl, rfl⟩
  | cons outcome rest ih =>
      rw [List.forall_mem_cons] at h
      obtain ⟨results, errors, hgather, htexts⟩ := ih h.2
      rcases h.1 with ⟨a, rfl⟩ | ⟨error, rfl⟩
      · exact ⟨a :: results, errors, by rw [gather, hgather]; rfl, htexts⟩
      · refine ⟨results, error :: errors, by rw [reject, gather, hgather]; rfl, ?_⟩
        rw [List.map_cons, htexts]
        rfl

/-- Outcomes that fail by type errors only are all reported, each in its own words. -/
theorem collect_reports (summary : List TypeError → TypeError)
    {outcomes : List (Except Fault α)} (h : ∀ outcome ∈ outcomes, Judged outcome) :
    outcomes.filterMap message? = [] ∧ (∃ results, collect summary outcomes = .ok results) ∨
      outcomes.filterMap message? ≠ [] ∧
        ∃ errors, collect summary outcomes = reject (summary errors) ∧
          errors.map TypeError.text = outcomes.filterMap message? := by
  obtain ⟨results, errors, hgather, htexts⟩ := gather_texts h
  rw [← htexts, collect, hgather]
  cases errors with
  | nil => exact .inl ⟨rfl, results, rfl⟩
  | cons error rest => exact .inr ⟨List.cons_ne_nil _ _, error :: rest, rfl, rfl⟩

end Fault

open Fault (Fails message?)

/-! ## Record patterns -/

namespace Pattern

variable {Γ : Context} {types : List (String × Ty)}

/-- The label of a field is missing, or the pattern under it fails. -/
def FieldFails (Γ : Context) (types : List (String × Ty)) (field : String × Pattern) : Prop :=
  types.lookup field.1 = none ∨
    ∃ ty, types.lookup field.1 = some ty ∧ Fails (field.2.bind true Γ ty)

/-- The entry of a field that fails: the message of its pattern, or that there is no such label. -/
def fieldFailure? (Γ : Context) (types : List (String × Ty)) (field : String × Pattern) :
    Option Text :=
  match types.lookup field.1 with
  | none => some ("label " ++ field.1 ++ " is not in " ++ (Ty.product types).text)
  | some ty => message? (field.2.bind true Γ ty)

theorem fieldFailure?_eq_none_iff {field : String × Pattern} :
    fieldFailure? Γ types field = none ↔ ¬ FieldFails Γ types field := by
  unfold fieldFailure? FieldFails
  cases types.lookup field.1 with
  | none => simp
  | some ty => simp [Fault.message?_eq_none_iff]

theorem judged_bindFields (hΓ : Γ.Known) {fields : List (String × Pattern)}
    (hfields : (record fields).length?.isSome = true)
    (htypes : ∀ entry ∈ types, entry.2.known = true) :
    ∀ outcome ∈ bindFields true Γ fields types, Judged outcome := by
  rw [isSome_length?_record] at hfields
  rw [bindFields_eq_map, List.forall_mem_map]
  intro field hmem
  split
  · exact .rejected _
  · rename_i ty hty
    exact judged_bind hΓ (hfields field hmem) (htypes _ (Table.mem_of_lookup hty))

theorem filterMap_message?_bindFields (fields : List (String × Pattern)) :
    (bindFields true Γ fields types).filterMap message? =
      fields.filterMap (fieldFailure? Γ types) := by
  rw [bindFields_eq_map, List.filterMap_map]
  refine List.filterMap_congr fun field _ => ?_
  rw [Function.comp, fieldFailure?]
  cases types.lookup field.1 <;> rfl

theorem bind_reports (hΓ : Γ.Known) {fields : List (String × Pattern)}
    (hfields : (record fields).length?.isSome = true) {ty : Ty}
    (hty : Γ.resolve true ty = .ok (.product types))
    (hfails : ∃ field ∈ fields, FieldFails Γ types field) :
    ∃ error, (record fields).bind true Γ ty = reject error ∧
      error.text = Text.itemized
        ("Incorrect pattern types " ++ (record fields).text ++ ", " ++ (Ty.product types).text)
        (fields.filterMap (fieldFailure? Γ types)) := by
  have hentries := Ty.resolved_product.1 (Ty.resolved_of_resolve hty)
  have hknown : ∀ entry ∈ types, entry.2.known = true := fun entry hmem =>
    Ty.known_of_permitted (hentries entry hmem)
  rw [← filterMap_message?_bindFields]
  rcases Fault.collect_reports (.pattern (.record fields) (.product types))
    (judged_bindFields hΓ hfields hknown) with ⟨hnil, -⟩ | ⟨-, errors, hcollect, htexts⟩
  · rw [filterMap_message?_bindFields] at hnil
    rcases hfails with ⟨field, hmem, hfield⟩
    exact absurd hfield (fieldFailure?_eq_none_iff.1 (List.filterMap_eq_nil_iff.1 hnil field hmem))
  · refine ⟨.pattern (.record fields) (.product types) errors, ?_, ?_⟩
    · rw [bind, hty]
      show (Fault.collect _ _ >>= _) = _
      rw [hcollect]
      rfl
    · rw [TypeError.text, TypeError.causeTexts_eq_map, htexts, TypeError.report_eq_itemized]

end Pattern

/-! ## Tuples -/

namespace Term

variable {Γ : Context}

def fieldFailure? (Γ : Context) (field : String × Term) : Option Text :=
  (message? (field.2.infer true Γ)).map fun message => field.1 ++ ": " ++ message

theorem fieldFailure?_eq_none_iff {field : String × Term} :
    fieldFailure? Γ field = none ↔ ¬ Fails (field.2.infer true Γ) := by
  rw [fieldFailure?, Option.map_eq_none_iff, Fault.message?_eq_none_iff]

theorem filterMap_fieldFailure?_eq_nil_iff {fields : List (String × Term)} :
    fields.filterMap (fieldFailure? Γ) = [] ↔ ∀ field ∈ fields, ¬ Fails (field.2.infer true Γ) := by
  simp only [List.filterMap_eq_nil_iff, fieldFailure?_eq_none_iff]

def fieldOutcome (Γ : Context) (field : String × Term) : Except Fault (String × Ty) :=
  (Fault.blame (.inField field.1) (field.2.infer true Γ)).map fun ty => (field.1, ty)

theorem infer_tuple_eq_collect (fields : List (String × Term)) :
    (tuple fields).infer true Γ =
      (Fault.collect .tuple (fields.map (fieldOutcome Γ)) >>= fun types =>
        pure (Ty.product types)) := by
  rw [infer, inferFields_eq_map, Rule.tuple, List.map_map]
  rfl

theorem filterMap_message?_fieldOutcome {fields : List (String × Term)}
    (h : ∀ field ∈ fields, Judged (field.2.infer true Γ)) :
    (fields.map (fieldOutcome Γ)).filterMap message? = fields.filterMap (fieldFailure? Γ) := by
  rw [List.filterMap_map]
  refine List.filterMap_congr fun field hmem => ?_
  rw [Function.comp, fieldOutcome, Fault.message?_map,
    Fault.message?_blame (fun _ => rfl) (h field hmem)]
  rfl

theorem infer_tuple_reports (hΓ : Γ.Known) {fields : List (String × Term)}
    (hknown : (tuple fields).known = true)
    (htypes : (tuple fields).annotated Ty.known = true) :
    fields.filterMap (fieldFailure? Γ) = [] ∧ (∃ T, (tuple fields).infer true Γ = .ok T) ∨
      fields.filterMap (fieldFailure? Γ) ≠ [] ∧
        ∃ error, (tuple fields).infer true Γ = reject error ∧
          error.text = Text.itemized "Tuple contents has incorrect type."
            (fields.filterMap (fieldFailure? Γ)) := by
  simp only [known, knownFields_iff, annotated, annotatedFields_iff] at hknown htypes
  have hjudged : ∀ field ∈ fields, Judged (field.2.infer true Γ) := fun field hmem =>
    judged_infer hΓ (hknown field hmem) (htypes field hmem)
  have houtcomes : ∀ outcome ∈ fields.map (fieldOutcome Γ), Judged outcome :=
    List.forall_mem_map.2 fun field hmem => (hjudged field hmem).blame.map
  rw [infer_tuple_eq_collect, ← filterMap_message?_fieldOutcome hjudged]
  rcases Fault.collect_reports .tuple houtcomes
    with ⟨hnil, types, hcollect⟩ | ⟨hcons, errors, hcollect, htexts⟩
  · rw [hcollect]
    exact .inl ⟨hnil, .product types, rfl⟩
  · rw [hcollect]
    refine .inr ⟨hcons, .tuple errors, rfl, ?_⟩
    rw [TypeError.text, TypeError.causeTexts_eq_map, htexts, TypeError.report_eq_itemized]

theorem fails_tuple_iff (hΓ : Γ.Known) {fields : List (String × Term)}
    (hknown : (tuple fields).known = true)
    (htypes : (tuple fields).annotated Ty.known = true) :
    Fails ((tuple fields).infer true Γ) ↔ ∃ field ∈ fields, Fails (field.2.infer true Γ) := by
  rcases infer_tuple_reports hΓ hknown htypes with ⟨hnil, T, hT⟩ | ⟨hcons, error, herror, -⟩
  · have hnone := filterMap_fieldFailure?_eq_nil_iff.1 hnil
    rw [hT]
    refine iff_of_false nofun fun h => ?_
    rcases h with ⟨field, hmem, hfails⟩
    exact hnone field hmem hfails
  · refine iff_of_true ⟨_, herror⟩ ?_
    by_contra hnone
    simp only [not_exists, not_and] at hnone
    exact hcons (filterMap_fieldFailure?_eq_nil_iff.2 hnone)

theorem tuple_reports (hΓ : Γ.Known) {fields : List (String × Term)}
    (hknown : (tuple fields).known = true)
    (htypes : (tuple fields).annotated Ty.known = true)
    (hfails : Fails ((tuple fields).infer true Γ)) :
    ∃ error, (tuple fields).infer true Γ = reject error ∧
      error.text = Text.itemized "Tuple contents has incorrect type."
        (fields.filterMap (fieldFailure? Γ)) := by
  rcases infer_tuple_reports hΓ hknown htypes with ⟨-, T, hT⟩ | ⟨-, hreport⟩
  · rw [hT] at hfails
    rcases hfails with ⟨fault, hfault⟩
    cases hfault
  · exact hreport

/-- A field that has a type changes nothing about the message of a tuple, wherever it stands. -/
theorem message?_tuple_insert (hΓ : Γ.Known) {before after : List (String × Term)}
    {label : String} {term : Term} {T : Ty}
    (hknown : (tuple (before ++ (label, term) :: after)).known = true)
    (htypes : (tuple (before ++ (label, term) :: after)).annotated Ty.known = true)
    (hterm : term.infer true Γ = .ok T) :
    message? ((tuple (before ++ (label, term) :: after)).infer true Γ) =
      message? ((tuple (before ++ after)).infer true Γ) := by
  have hentries : (before ++ (label, term) :: after).filterMap (fieldFailure? Γ) =
      (before ++ after).filterMap (fieldFailure? Γ) := by
    have hnone : fieldFailure? Γ (label, term) = none := by
      rw [fieldFailure?, hterm]
      rfl
    rw [List.filterMap_append, List.filterMap_cons_none hnone, List.filterMap_append]
  have hknown' : (tuple (before ++ after)).known = true := by
    simp only [known, knownFields_iff, List.forall_mem_append, List.forall_mem_cons] at hknown ⊢
    exact ⟨hknown.1, hknown.2.2⟩
  have htypes' : (tuple (before ++ after)).annotated Ty.known = true := by
    simp only [annotated, annotatedFields_iff, List.forall_mem_append,
      List.forall_mem_cons] at htypes ⊢
    exact ⟨htypes.1, htypes.2.2⟩
  rcases infer_tuple_reports hΓ hknown htypes with ⟨hnil, T, hT⟩ | ⟨hcons, error, herror, htext⟩
  · rcases infer_tuple_reports hΓ hknown' htypes' with ⟨-, T', hT'⟩ | ⟨hcons', -⟩
    · rw [hT, hT']
      rfl
    · exact absurd (hentries ▸ hnil) hcons'
  · rcases infer_tuple_reports hΓ hknown' htypes' with ⟨hnil', -⟩ | ⟨-, error', herror', htext'⟩
    · exact absurd (hentries.trans hnil') hcons
    · rw [herror, herror']
      show some error.text = some error'.text
      rw [htext, htext', hentries]

/-! ## Cases -/

/-- The branch for a variant is missing, or its body fails with the payload of the variant. -/
def BranchFails (Γ : Context) (branches : List (String × Branch Term)) (variant : String × Ty) :
    Prop :=
  branches.lookup variant.1 = none ∨ ∃ branch, branches.lookup variant.1 = some branch ∧
    Fails (branch.body.infer true (Γ.extend [variant.2]))

/-- The entry of a variant whose branch fails: the label with the message of the body, or that
there is no branch. -/
def branchFailure? (Γ : Context) (branches : List (String × Branch Term)) (variant : String × Ty) :
    Option Text :=
  match branches.lookup variant.1 with
  | none => some ("missing branch for <" ++ variant.1 ++ ">")
  | some branch => (message? (branch.body.infer true (Γ.extend [variant.2]))).map fun message =>
      "<" ++ variant.1 ++ ">: " ++ message

/-- The entries of the variants whose branches fail, and then those of the branches without a
variant. -/
def branchEntries (Γ : Context) (variants : List (String × Ty))
    (branches : List (String × Branch Term)) : List Text :=
  variants.filterMap (branchFailure? Γ branches) ++
    ((Table.keys branches).filter fun key => !Table.has key variants).map fun (key : String) =>
      "branch <" ++ key ++ "> is not a label of " ++ (Ty.sum variants).text

theorem branchFailure?_eq_none_iff {branches : List (String × Branch Term)}
    {variant : String × Ty} :
    branchFailure? Γ branches variant = none ↔ ¬ BranchFails Γ branches variant := by
  unfold branchFailure? BranchFails
  cases branches.lookup variant.1 with
  | none => simp
  | some branch => simp [Fault.message?_eq_none_iff]

theorem branchEntries_ne_nil {variants : List (String × Ty)}
    {branches : List (String × Branch Term)}
    (h : (∃ variant ∈ variants, BranchFails Γ branches variant) ∨
      ∃ key ∈ Table.keys branches, key ∉ Table.keys variants) :
    branchEntries Γ variants branches ≠ [] := by
  intro hnil
  obtain ⟨hvariants, hkeys⟩ := List.append_eq_nil_iff.1 hnil
  rcases h with ⟨variant, hmem, hfails⟩ | ⟨key, hmem, hextra⟩
  · have hnone := List.filterMap_eq_nil_iff.1 hvariants variant hmem
    exact branchFailure?_eq_none_iff.1 hnone hfails
  · have hhas := List.filter_eq_nil_iff.1 (List.map_eq_nil_iff.1 hkeys) key hmem
    rw [Bool.not_eq_true', Bool.not_eq_false, Table.has_eq_true_iff] at hhas
    exact hextra hhas

/-- A sum has each label once, and every branch for one of them gives a type or a type error with
the payload of the label. -/
structure JudgedBranches (Γ : Context) (variants : List (String × Ty))
    (branches : List (String × Branch Term)) : Prop where
  nodup : (Table.keys variants).Nodup
  judged : ∀ {variant branch}, variant ∈ variants → branches.lookup variant.1 = some branch →
    Judged (branch.body.infer true (Γ.extend [variant.2]))

namespace JudgedBranches

variable {variants : List (String × Ty)} {branches : List (String × Branch Term)}

theorem filterMap_message? (h : JudgedBranches Γ variants branches) :
    (Rule.branches variants (Table.keys branches)
      (inferBranches true Γ variants branches)).filterMap message? =
        branchEntries Γ variants branches := by
  rw [Rule.branches, List.filterMap_append, List.filterMap_map, List.filterMap_map, branchEntries]
  congr 1
  · refine List.filterMap_congr fun variant hmem => ?_
    obtain ⟨label, payload⟩ := variant
    have hlookup : (inferBranches true Γ variants branches).lookup label =
        (branches.lookup label).map fun branch =>
          branch.body.infer true (Γ.extend [payload]) := by
      rw [lookup_inferBranches, Table.lookup_of_mem h.nodup hmem]
      rfl
    -- the look-up by label finds the payload of this very entry, for labels are distinct
    dsimp only [Function.comp, branchFailure?]
    rw [hlookup]
    cases hbranch : branches.lookup label with
    | none => rfl
    | some branch =>
        show message? ((Fault.blame _ _).map _) = _
        rw [Fault.message?_map, Fault.message?_blame (fun _ => rfl) (h.judged hmem hbranch)]
  · rw [← List.filterMap_eq_map]
    rfl

theorem judged_outcomes (h : JudgedBranches Γ variants branches) :
    ∀ outcome ∈ Rule.branches variants (Table.keys branches)
      (inferBranches true Γ variants branches), Judged outcome := by
  refine Rule.judged_branches fun {label outcome} houtcome => ?_
  rw [lookup_inferBranches, Option.bind_eq_some_iff] at houtcome
  obtain ⟨payload, hpayload, hbranch⟩ := houtcome
  obtain ⟨branch, hlookup, rfl⟩ := Option.map_eq_some_iff.1 hbranch
  exact h.judged (Table.mem_of_lookup hpayload) hlookup

theorem infer_case (h : JudgedBranches Γ variants branches) {scrutinee : Term}
    (hscrutinee : scrutinee.infer true Γ = .ok (.sum variants))
    (hfails : (∃ variant ∈ variants, BranchFails Γ branches variant) ∨
      ∃ key ∈ Table.keys branches, key ∉ Table.keys variants) :
    ∃ error, (case scrutinee branches).infer true Γ = reject error ∧
      error.text = Text.itemized "Couldn't typecheck case."
        (branchEntries Γ variants branches) := by
  rcases Fault.collect_reports .case h.judged_outcomes
    with ⟨hnil, -⟩ | ⟨-, errors, hcollect, htexts⟩
  · rw [h.filterMap_message?] at hnil
    exact absurd hnil (branchEntries_ne_nil hfails)
  · refine ⟨.case errors, ?_, ?_⟩
    · rw [infer, hscrutinee]
      show (Fault.collect _ _ >>= _) = _
      rw [hcollect]
      rfl
    · rw [TypeError.text, TypeError.causeTexts_eq_map, htexts, h.filterMap_message?,
        TypeError.report_eq_itemized]

end JudgedBranches

theorem judgedBranches (hΓ : Γ.Known) (horderly : Γ.Orderly) {scrutinee : Term}
    {branches : List (String × Branch Term)} {variants : List (String × Ty)}
    (hdistinct : scrutinee.distinct = true) (hknown : (case scrutinee branches).known = true)
    (htypes : (case scrutinee branches).annotated Ty.known = true)
    (hscrutinee : scrutinee.infer true Γ = .ok (.sum variants)) :
    JudgedBranches Γ variants branches := by
  simp only [known, knownBranches_iff, annotated, annotatedBranches_iff,
    Bool.and_eq_true] at hknown htypes
  have hsum : (Ty.sum variants).distinct = true :=
    (hasTy_of_infer horderly hdistinct hscrutinee).alike.left
  refine ⟨(Ty.distinct_sum.1 hsum).1, fun {variant branch} hmem hlookup => ?_⟩
  have hpayload : variant.2.known = true :=
    Ty.known_of_permitted (Ty.resolved_sum.1 (resolved_of_infer hscrutinee) variant hmem)
  have hbranch := Table.mem_of_lookup hlookup
  exact judged_infer (hΓ.extend (by simpa using hpayload)) (hknown.2 _ hbranch)
    (htypes.2 _ hbranch)

/-! ## Every failing part is reported -/

/-- With the detection of cycles, and on known forms, every part that fails is reported once, in
order and in its own words.

A tuple fails exactly if a field does, and a field that has a type leaves no trace in the report,
wherever it stands. A case of a sum reports its variants in the order of the sum and then the
branches without a variant. A record pattern reports its fields in order; the message of a pattern
inside it is the one that it has on its own, which may be such a report again. -/
theorem failures_reported (hdistinct : Γ.distinct = true) (hΓ : Γ.known = true) :
    (∀ {fields : List (String × Term)}, (tuple fields).known = true →
      (tuple fields).annotated Ty.known = true →
      (Fails ((tuple fields).infer true Γ) ↔ ∃ field ∈ fields, Fails (field.2.infer true Γ)) ∧
      (Fails ((tuple fields).infer true Γ) →
        ∃ error, (tuple fields).infer true Γ = reject error ∧
          error.text = Text.itemized "Tuple contents has incorrect type."
            (fields.filterMap (fieldFailure? Γ)))) ∧
    (∀ {before after : List (String × Term)} {label : String} {term : Term} {T : Ty},
      (tuple (before ++ (label, term) :: after)).known = true →
      (tuple (before ++ (label, term) :: after)).annotated Ty.known = true →
      term.infer true Γ = .ok T →
      message? ((tuple (before ++ (label, term) :: after)).infer true Γ) =
        message? ((tuple (before ++ after)).infer true Γ)) ∧
    (∀ {scrutinee : Term} {branches : List (String × Branch Term)} {variants : List (String × Ty)},
      scrutinee.distinct = true → (case scrutinee branches).known = true →
      (case scrutinee branches).annotated Ty.known = true →
      scrutinee.infer true Γ = .ok (.sum variants) →
      ((∃ variant ∈ variants, BranchFails Γ branches variant) ∨
        ∃ key ∈ Table.keys branches, key ∉ Table.keys variants) →
      ∃ error, (case scrutinee branches).infer true Γ = reject error ∧
        error.text = Text.itemized "Couldn't typecheck case."
          (branchEntries Γ variants branches)) ∧
    ∀ {fields : List (String × Pattern)} {ty : Ty} {types : List (String × Ty)},
      (Pattern.record fields).length?.isSome = true →
      Γ.resolve true ty = .ok (.product types) →
      (∃ field ∈ fields, Pattern.FieldFails Γ types field) →
      ∃ error, (Pattern.record fields).bind true Γ ty = reject error ∧
        error.text = Text.itemized
          ("Incorrect pattern types " ++ (Pattern.record fields).text ++ ", " ++
            (Ty.product types).text)
          (fields.filterMap (Pattern.fieldFailure? Γ types)) := by
  have hforms := Context.known_of_eq_true hΓ
  have horderly := Context.orderly_of_distinct hdistinct
  exact ⟨fun hknown htypes => ⟨fails_tuple_iff hforms hknown htypes,
      tuple_reports hforms hknown htypes⟩,
    message?_tuple_insert hforms,
    fun hdistinct hknown htypes hscrutinee hfails =>
      (judgedBranches hforms horderly hdistinct hknown htypes hscrutinee).infer_case hscrutinee
        hfails,
    fun hfields hty hfails => Pattern.bind_reports hforms hfields hty hfails⟩

/-- A tuple with two failing fields of four, one of them a variable of an alias that is defined
through itself; a case with a missing branch, a failing one and one without a variant; a record
pattern with a report inside. -/
theorem failures_reported_nested :
    let sum : Ty := .sum [("l", .int), ("m", .bool), ("n", .unit)]
    let Γ : Context := ⟨[(0, sum), (1, .base "C")], [("C", .base "C")], []⟩
    let fields : List (String × Term) :=
      [("a", .succ (.bool true)), ("b", .zero), ("c", .var 1 "c"), ("d", .unit)]
    let branches : List (String × Branch Term) := [("x", ⟨"x", "y", .unit⟩),
      ("n", ⟨"n", "u", .isZero (.var 0 "u")⟩), ("l", ⟨"l", "i", .var 0 "i"⟩)]
    let patterns : List (String × Pattern) :=
      [("p", .record [("q", .var "u"), ("r", .var "v")]), ("s", .var "w")]
    let types : List (String × Ty) := [("p", .product [("q", .bool)])]
    (∃ error, (tuple fields).infer true Γ = reject error ∧
      error.text = Text.itemized "Tuple contents has incorrect type."
        ["a: succ called on non-integer term true : bool", "c: Cyclic type alias: C"]) ∧
    (∃ error, (case (.var 0 "s") branches).infer true Γ = reject error ∧
      error.text = Text.itemized "Couldn't typecheck case."
        ["missing branch for <m>", "<n>: isZero called on non-integer term u : unit",
          "branch <x> is not a label of <l:int, m:bool, n:unit>"]) ∧
    ∃ error, (Pattern.record patterns).bind true Γ (.product types) = reject error ∧
      error.text = Text.itemized
        "Incorrect pattern types \x7bp=\x7bq=u, r=v\x7d, s=w\x7d, \x7bp:\x7bq:bool\x7d\x7d"
        [Text.itemized "Incorrect pattern types \x7bq=u, r=v\x7d, \x7bq:bool\x7d"
            ["label r is not in \x7bq:bool\x7d"],
          "label s is not in \x7bp:\x7bq:bool\x7d\x7d"] := by
  intro sum Γ fields branches patterns types
  obtain ⟨htuple, -, hcase, hpattern⟩ := @failures_reported Γ (by decide) (by decide)
  obtain ⟨hfails, hreport⟩ := @htuple fields rfl (by decide)
  refine ⟨?_, ?_, ?_⟩
  · have hfield : ∃ field ∈ fields, Fails (field.2.infer true Γ) :=
      ⟨_, List.mem_cons_self, _, rfl⟩
    obtain ⟨error, herror, htext⟩ := hreport (hfails.2 hfield)
    exact ⟨error, herror, htext⟩
  · have hextra : ∃ key ∈ Table.keys branches, key ∉ Table.keys
        [("l", Ty.int), ("m", .bool), ("n", .unit)] := ⟨"x", by decide, by decide⟩
    obtain ⟨error, herror, htext⟩ :=
      @hcase (.var 0 "s") branches _ rfl rfl (by decide) rfl (.inr hextra)
    exact ⟨error, herror, htext⟩
  · have hfield : ∃ field ∈ patterns, Pattern.FieldFails Γ types field :=
      ⟨("s", .var "w"), List.mem_cons_of_mem _ List.mem_cons_self, .inl rfl⟩
    obtain ⟨error, herror, htext⟩ := @hpattern patterns (.product types) types rfl rfl hfield
    exact ⟨error, herror, htext⟩

end Term

end TypedLambda
