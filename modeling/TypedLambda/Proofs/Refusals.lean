import TypedLambda.Proofs.Judgement

/-!
# Failing by a type error only

The checker reads terms, types and definitions. If all of them are built of the forms that
the language has, and cycles of definitions are detected, then the checker gives a type or
refuses the term: no other fault comes up. A rule that gathers the errors of its parts has to
see to it that none of the parts fails in another way, because such a fault would end it.
-/

namespace TypedLambda

/-! ## Types, terms and contexts of known forms -/

namespace Ty

def known (ty : Ty) : Bool := ty.permitted fun _ => true

theorem known_of_permitted {allowed : String → Bool} {ty : Ty}
    (h : ty.permitted allowed = true) : ty.known = true := by
  unfold known
  induction ty with
  | bool | int | unit | base => rfl
  | arrow param result ihp ihr =>
      simp only [permitted, Bool.and_eq_true] at h ⊢
      exact ⟨ihp h.1, ihr h.2⟩
  | product fields ih =>
      simp only [permitted, permittedEntries_iff] at h ⊢
      exact fun entry hmem => ih entry hmem (h entry hmem)
  | sum variants ih =>
      simp only [permitted, permittedEntries_iff] at h ⊢
      exact fun entry hmem => ih entry hmem (h entry hmem)
  | foreign => cases h

end Ty

namespace Term

mutual

def annotated (property : Ty → Bool) : Term → Bool
  | .succ term => term.annotated property
  | .pred term => term.annotated property
  | .isZero term => term.annotated property
  | .abs _ ty body => property ty && body.annotated property
  | .app function argument => function.annotated property && argument.annotated property
  | .ite condition yes no =>
      condition.annotated property && yes.annotated property && no.annotated property
  | .tuple fields => annotatedFields property fields
  | .letIn _ value body => value.annotated property && body.annotated property
  | .tag _ payload ty => payload.annotated property && property ty
  | .case scrutinee branches =>
      scrutinee.annotated property && annotatedBranches property branches
  | .fix term => term.annotated property
  | _ => true

def annotatedFields (property : Ty → Bool) : List (String × Term) → Bool
  | [] => true
  | (_, term) :: rest => term.annotated property && annotatedFields property rest

def annotatedBranches (property : Ty → Bool) : List (String × Branch Term) → Bool
  | [] => true
  | (_, ⟨_, _, body⟩) :: rest => body.annotated property && annotatedBranches property rest

end

variable {property : Ty → Bool}

theorem annotatedFields_iff {fields : List (String × Term)} :
    annotatedFields property fields = true ↔
      ∀ entry ∈ fields, entry.2.annotated property = true := by
  induction fields with
  | nil => simp [annotatedFields]
  | cons entry rest ih => simp [annotatedFields, ih]

theorem annotatedBranches_iff {branches : List (String × Branch Term)} :
    annotatedBranches property branches = true ↔
      ∀ entry ∈ branches, entry.2.body.annotated property = true := by
  induction branches with
  | nil => simp [annotatedBranches]
  | cons entry rest ih => simp [annotatedBranches, ih]

end Term

namespace Context

def known (Γ : Context) : Bool :=
  (Γ.vars.all fun entry => entry.2.known) && Γ.aliases.all fun entry => entry.2.known

structure Known (Γ : Context) : Prop where
  vars : ∀ {index ty}, Γ.lookup? index = some ty → ty.known = true
  aliases : ∀ entry ∈ Γ.aliases, entry.2.known = true

theorem known_of_eq_true {Γ : Context} (h : Γ.known = true) : Γ.Known := by
  simp only [known, Bool.and_eq_true, List.all_eq_true] at h
  exact ⟨fun hlookup => h.1 _ (Table.mem_of_lookup hlookup), h.2⟩

theorem Known.extend {Γ : Context} (h : Γ.Known) {types : List Ty}
    (htypes : ∀ ty ∈ types, ty.known = true) : (Γ.extend types).Known := by
  refine ⟨fun {index ty} hlookup => ?_, h.aliases⟩
  rw [lookup?_extend] at hlookup
  split at hlookup
  · exact htypes ty (List.mem_of_getElem? hlookup)
  · exact h.vars hlookup

end Context

/-! ## Outcomes -/

/-- There is a result, or else a type error. -/
def Judged {α : Type} (outcome : Except Fault α) : Prop :=
  (∃ a, outcome = .ok a) ∨ ∃ error, outcome = reject error

namespace Judged

variable {α β : Type} {outcome : Except Fault α}

theorem ok (a : α) : Judged (.ok a) := .inl ⟨a, rfl⟩

theorem rejected (error : TypeError) : Judged (reject error : Except Fault α) := .inr ⟨error, rfl⟩

theorem bind {f : α → Except Fault β} (h : Judged outcome)
    (hf : ∀ a, outcome = .ok a → Judged (f a)) : Judged (outcome >>= f) := by
  rcases h with ⟨a, rfl⟩ | ⟨error, rfl⟩
  · exact hf a rfl
  · exact rejected error

theorem map {f : α → β} (h : Judged outcome) : Judged (outcome.map f) := by
  rcases h with ⟨a, rfl⟩ | ⟨error, rfl⟩
  · exact ok (f a)
  · exact rejected error

theorem blame {wrap : TypeError → TypeError} (h : Judged outcome) :
    Judged (Fault.blame wrap outcome) := by
  rcases h with ⟨a, rfl⟩ | ⟨error, rfl⟩
  · exact ok a
  · exact rejected (wrap error)

theorem exists_gather {outcomes : List (Except Fault α)}
    (h : ∀ outcome ∈ outcomes, Judged outcome) :
    ∃ gathered, Fault.gather outcomes = .ok gathered := by
  induction outcomes with
  | nil => exact ⟨_, rfl⟩
  | cons outcome rest ih =>
      rw [List.forall_mem_cons] at h
      obtain ⟨gathered, hgathered⟩ := ih h.2
      rcases h.1 with ⟨a, rfl⟩ | ⟨error, rfl⟩
      · exact ⟨_, by rw [Fault.gather, hgathered]; rfl⟩
      · exact ⟨_, by rw [reject, Fault.gather, hgathered]; rfl⟩

theorem collect {summary : List TypeError → TypeError} {outcomes : List (Except Fault α)}
    (h : ∀ outcome ∈ outcomes, Judged outcome) : Judged (Fault.collect summary outcomes) := by
  obtain ⟨⟨results, errors⟩, hgathered⟩ := exists_gather h
  unfold Fault.collect
  rw [hgathered]
  cases errors with
  | nil => exact ok results
  | cons error rest => exact rejected _

end Judged

/-! ## Resolution -/

namespace Ty

theorem judged_expand {define : String → Except Fault Ty} (hdefine : ∀ name, Judged (define name))
    {ty : Ty} (hty : ty.known = true) : Judged (ty.expand define) := by
  have hentries : ∀ {entries : List (String × Ty)},
      (∀ entry ∈ entries, entry.2.known = true → Judged (entry.2.expand define)) →
      (∀ entry ∈ entries, entry.2.known = true) → Judged (expandEntries define entries) := by
    intro entries ih hknown
    induction entries with
    | nil => exact .ok []
    | cons entry rest ihrest =>
        rw [List.forall_mem_cons] at ih hknown
        refine (ih.1 hknown.1).bind fun _ _ => ?_
        exact (ihrest ih.2 hknown.2).bind fun _ _ => .ok _
  induction ty with
  | bool | int | unit => exact .ok _
  | base name => exact hdefine name
  | arrow param result ihp ihr =>
      simp only [known, permitted, Bool.and_eq_true] at hty
      exact (ihp hty.1).bind fun _ _ => (ihr hty.2).bind fun _ _ => .ok _
  | product fields ih =>
      simp only [known, permitted, permittedEntries_iff] at hty
      exact (hentries ih hty).bind fun _ _ => .ok _
  | sum variants ih =>
      simp only [known, permitted, permittedEntries_iff] at hty
      exact (hentries ih hty).bind fun _ _ => .ok _
  | foreign => cases hty

variable {aliases : List (String × Ty)}

theorem judged_guarded (haliases : ∀ entry ∈ aliases, entry.2.known = true) (depth : Nat)
    (seen : List String) (name : String) : Judged (guarded aliases depth seen name) := by
  induction depth generalizing seen name with
  | zero =>
      unfold guarded
      split
      · exact .ok _
      · split <;> exact .rejected _
  | succ depth ih =>
      unfold guarded
      split
      · exact .ok _
      · rename_i ty hlookup
        split
        · exact .rejected _
        · exact judged_expand (ih (name :: seen)) (haliases _ (Table.mem_of_lookup hlookup))

end Ty

theorem Context.Known.judged_resolve {Γ : Context} (hΓ : Γ.Known) {ty : Ty}
    (hty : ty.known = true) : Judged (Γ.resolve true ty) := by
  show Judged (ty.resolve true Γ.aliases)
  rw [Ty.resolve, if_pos rfl]
  exact Ty.judged_expand (Ty.judged_guarded hΓ.aliases _ _) hty

/-! ## Patterns -/

namespace Pattern

theorem isSome_length?_record {fields : List (String × Pattern)} :
    (record fields).length?.isSome = true ↔ ∀ field ∈ fields, field.2.length?.isSome = true := by
  rw [length?]
  induction fields with
  | nil => simp [fieldLength?]
  | cons field rest ih =>
      obtain ⟨label, pattern⟩ := field
      rw [fieldLength?, List.forall_mem_cons, ← ih]
      cases pattern.length? <;> cases fieldLength? rest <;> simp

theorem bindFields_eq_map {detect : Bool} {Γ : Context} (fields : List (String × Pattern))
    (entries : List (String × Ty)) :
    bindFields detect Γ fields entries = fields.map fun (field : String × Pattern) =>
      match entries.lookup field.1 with
      | none => reject (.noLabel field.1 (.product entries))
      | some ty => field.2.bind detect Γ ty := by
  induction fields with
  | nil => rfl
  | cons field rest ih => exact congrArg (List.cons _) ih

theorem judged_bind {Γ : Context} (hΓ : Γ.Known) {pattern : Pattern}
    (hpattern : pattern.length?.isSome = true) {ty : Ty} (hty : ty.known = true) :
    Judged (pattern.bind true Γ ty) := by
  induction pattern generalizing ty with
  | var name => exact (hΓ.judged_resolve hty).bind fun r _ => .ok [r]
  | record fields ih =>
      rw [isSome_length?_record] at hpattern
      unfold bind
      refine (hΓ.judged_resolve hty).bind fun r hr => ?_
      cases r with
      | product entries =>
          have hentries := Ty.resolved_product.1 (Ty.resolved_of_resolve hr)
          refine .bind (.collect ?_) fun bound _ => .ok bound.flatten
          rw [bindFields_eq_map, List.forall_mem_map]
          intro field hmem
          split
          · exact .rejected _
          · rename_i a ha
            have hknown := Ty.known_of_permitted (hentries _ (Table.mem_of_lookup ha))
            exact ih field hmem (hpattern field hmem) hknown
      | _ => exact .rejected _
  | foreign => cases hpattern

end Pattern

/-! ## Terms -/

namespace Rule

theorem judged_number {operator : String} {term : Term} {operand : Except Fault Ty} {result : Ty}
    (h : Judged operand) : Judged (number operator term operand result) := by
  refine h.bind fun a _ => ?_
  split
  · exact .ok result
  · exact .rejected _

theorem judged_ite {condition yes no : Except Fault Ty} (hc : Judged condition)
    (hy : Judged yes) (hn : Judged no) : Judged (ite condition yes no) := by
  refine hc.bind fun c _ => ?_
  split
  · refine hy.bind fun y _ => hn.bind fun n _ => ?_
    split
    · exact .ok y
    · exact .rejected _
  · exact .rejected _

theorem judged_app {f a : Term} {function argument : Except Fault Ty} (hf : Judged function)
    (ha : Judged argument) : Judged (app f a function argument) := by
  refine hf.blame.bind fun F _ => ha.blame.bind fun A _ => ?_
  cases F with
  | arrow param result =>
      dsimp only
      split
      · exact .ok result
      · exact .rejected _
  | _ => exact .rejected _

theorem judged_tag {label : String} {ascribed payload : Except Fault Ty} (ha : Judged ascribed)
    (hp : Judged payload) : Judged (tag label ascribed payload) := by
  refine ha.bind fun A _ => ?_
  cases A with
  | sum variants =>
      dsimp only
      split
      · exact .rejected _
      · refine hp.bind fun p _ => ?_
        split
        · exact .ok _
        · exact .rejected _
  | _ => exact .rejected _

theorem judged_fix {function : Except Fault Ty} (h : Judged function) : Judged (fix function) := by
  refine h.bind fun F _ => ?_
  cases F with
  | arrow param result =>
      dsimp only
      split
      · exact .ok result
      · exact .rejected _
  | _ => exact .rejected _

theorem judged_joinBranches {scrutinee : Ty} {types : List (String × Ty)} :
    Judged (joinBranches scrutinee types) := by
  unfold joinBranches
  split
  · exact .rejected _
  · split
    · exact .ok _
    · exact .rejected _

theorem judged_branches {variants : List (String × Ty)} {keys : List String}
    {outcomes : List (String × Except Fault Ty)}
    (h : ∀ {label outcome}, outcomes.lookup label = some outcome → Judged outcome) :
    ∀ outcome ∈ branches variants keys outcomes, Judged outcome := by
  unfold branches
  rw [List.forall_mem_append, List.forall_mem_map, List.forall_mem_map]
  constructor
  · intro entry _
    dsimp only
    split
    · exact .rejected _
    · exact (h (by assumption)).blame.map
  · intro key _
    exact .rejected _

end Rule

namespace Term

/-- With the detection of cycles, the checker gives a type or refuses the term, if the term
and the context are built of known forms. -/
theorem judged_infer {Γ : Context} (hΓ : Γ.Known) {t : Term} (ht : t.known = true)
    (htypes : t.annotated Ty.known = true) : Judged (t.infer true Γ) := by
  induction t generalizing Γ with
  | unit | bool | zero => exact .ok _
  | succ term ih => exact Rule.judged_number (ih hΓ ht htypes)
  | pred term ih => exact Rule.judged_number (ih hΓ ht htypes)
  | isZero term ih => exact Rule.judged_number (ih hΓ ht htypes)
  | var index name =>
      unfold infer
      split
      · exact hΓ.judged_resolve (hΓ.vars (by assumption))
      · exact .rejected _
  | abs name ty body ih =>
      simp only [annotated, Bool.and_eq_true] at htypes
      have hextend : (Γ.extend [ty]).Known := hΓ.extend (by simpa using htypes.1)
      have hbody := ih hextend ht htypes.2
      exact hbody.bind fun _ _ => (hΓ.judged_resolve htypes.1).bind fun _ _ => .ok _
  | app f a ihf iha =>
      simp only [known, annotated, Bool.and_eq_true] at ht htypes
      exact Rule.judged_app (ihf hΓ ht.1 htypes.1) (iha hΓ ht.2 htypes.2)
  | ite condition yes no ihc ihy ihn =>
      simp only [known, annotated, Bool.and_eq_true] at ht htypes
      exact Rule.judged_ite (ihc hΓ ht.1.1 htypes.1.1) (ihy hΓ ht.1.2 htypes.1.2)
        (ihn hΓ ht.2 htypes.2)
  | tuple fields ih =>
      simp only [known, knownFields_iff, annotated, annotatedFields_iff] at ht htypes
      refine .bind (.collect ?_) fun types _ => .ok (Ty.product types)
      rw [inferFields_eq_map, List.map_map, List.forall_mem_map]
      intro entry hmem
      exact (ih entry hmem hΓ (ht entry hmem) (htypes entry hmem)).blame.map
  | letIn pattern value body ihv ihb =>
      simp only [known, annotated, Bool.and_eq_true] at ht htypes
      refine (ihv hΓ ht.1.2 htypes.1).blame.bind fun a ha => ?_
      have hknown := Ty.known_of_permitted (resolved_of_infer (Fault.blame_eq_ok.1 ha))
      refine (Pattern.judged_bind hΓ ht.1.1 hknown).bind fun types hbind => ?_
      have hbound : ∀ ty ∈ types, ty.known = true := fun ty hmem =>
        Ty.known_of_permitted (Pattern.resolved_of_bind hbind ty hmem)
      exact ihb (hΓ.extend hbound) ht.2 htypes.2
  | tag label payload ty ih =>
      simp only [annotated, Bool.and_eq_true] at htypes
      exact Rule.judged_tag (hΓ.judged_resolve htypes.2) (ih hΓ ht htypes.1)
  | case scrutinee branches ihs ihb =>
      simp only [known, knownBranches_iff, annotated, annotatedBranches_iff,
        Bool.and_eq_true] at ht htypes
      unfold infer
      refine (ihs hΓ ht.1 htypes.1).bind fun S hS => ?_
      cases S with
      | sum variants =>
          have hvariants := Ty.resolved_sum.1 (resolved_of_infer hS)
          refine .bind (.collect (Rule.judged_branches ?_)) fun _ _ => Rule.judged_joinBranches
          intro label outcome houtcome
          rw [lookup_inferBranches, Option.bind_eq_some_iff] at houtcome
          obtain ⟨payload, hpayload, hbranch⟩ := houtcome
          obtain ⟨branch, hlookup, rfl⟩ := Option.map_eq_some_iff.1 hbranch
          have hmem := Table.mem_of_lookup hlookup
          have hknown := Ty.known_of_permitted (hvariants _ (Table.mem_of_lookup hpayload))
          exact ihb _ hmem (hΓ.extend (by simpa using hknown)) (ht.2 _ hmem) (htypes.2 _ hmem)
      | _ => exact .rejected _
  | fix term ih => exact Rule.judged_fix (ih hΓ ht htypes)
  | foreign => cases ht

end Term

end TypedLambda
