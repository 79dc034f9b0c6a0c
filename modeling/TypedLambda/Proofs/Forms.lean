import TypedLambda.Proofs.Tables
import TypedLambda.Context

/-!
# Induction over the syntax, and well-formed syntax

Types, patterns and terms hold tables of their own kind, so each gets an induction
principle whose hypotheses speak of every entry of such a table.

A table of labels is a mapping: no label stands in it twice. `distinct` says this of every
table inside a type, a term or a context. `known` says that every node of a term has a
form. `Ty.permitted` says the same of a type, and of its names that they are allowed.
-/

namespace TypedLambda

/-! ## Induction -/

@[elab_as_elim, induction_eliminator]
theorem Ty.induction {motive : Ty → Prop} (bool : motive .bool) (int : motive .int)
    (unit : motive .unit) (base : ∀ name, motive (.base name))
    (arrow : ∀ param result, motive param → motive result → motive (.arrow param result))
    (product : ∀ fields, (∀ entry ∈ fields, motive entry.2) → motive (.product fields))
    (sum : ∀ variants, (∀ entry ∈ variants, motive entry.2) → motive (.sum variants))
    (foreign : motive .foreign) (ty : Ty) : motive ty :=
  @Ty.rec motive (fun entries => ∀ entry ∈ entries, motive entry.2) (fun entry => motive entry.2)
    bool int unit base arrow product sum foreign (by simp)
    (fun _ _ head tail => List.forall_mem_cons.2 ⟨head, tail⟩) (fun _ _ ih => ih) ty

@[elab_as_elim, induction_eliminator]
theorem Pattern.induction {motive : Pattern → Prop} (var : ∀ name, motive (.var name))
    (record : ∀ fields, (∀ entry ∈ fields, motive entry.2) → motive (.record fields))
    (foreign : motive .foreign) (pattern : Pattern) : motive pattern :=
  @Pattern.rec motive (fun entries => ∀ entry ∈ entries, motive entry.2)
    (fun entry => motive entry.2) var record foreign (by simp)
    (fun _ _ head tail => List.forall_mem_cons.2 ⟨head, tail⟩) (fun _ _ ih => ih) pattern

@[elab_as_elim, induction_eliminator]
theorem Term.induction {motive : Term → Prop} (unit : motive .unit)
    (bool : ∀ value, motive (.bool value)) (zero : motive .zero)
    (succ : ∀ term, motive term → motive (.succ term))
    (pred : ∀ term, motive term → motive (.pred term))
    (isZero : ∀ term, motive term → motive (.isZero term))
    (var : ∀ index name, motive (.var index name))
    (abs : ∀ name ty body, motive body → motive (.abs name ty body))
    (app : ∀ function argument, motive function → motive argument →
      motive (.app function argument))
    (ite : ∀ condition yes no, motive condition → motive yes → motive no →
      motive (.ite condition yes no))
    (tuple : ∀ fields, (∀ entry ∈ fields, motive entry.2) → motive (.tuple fields))
    (letIn : ∀ pattern value body, motive value → motive body →
      motive (.letIn pattern value body))
    (tag : ∀ label payload ty, motive payload → motive (.tag label payload ty))
    (case : ∀ scrutinee branches, motive scrutinee →
      (∀ entry ∈ branches, motive entry.2.body) → motive (.case scrutinee branches))
    (fix : ∀ term, motive term → motive (.fix term)) (foreign : motive .foreign)
    (term : Term) : motive term :=
  @Term.rec motive (fun fields => ∀ entry ∈ fields, motive entry.2)
    (fun branches => ∀ entry ∈ branches, motive entry.2.body) (fun entry => motive entry.2)
    (fun entry => motive entry.2.body) (fun branch => motive branch.body)
    unit bool zero succ pred isZero var abs app ite tuple letIn tag case fix foreign
    (by simp) (fun _ _ head tail => List.forall_mem_cons.2 ⟨head, tail⟩)
    (by simp) (fun _ _ head tail => List.forall_mem_cons.2 ⟨head, tail⟩)
    (fun _ _ ih => ih) (fun _ _ ih => ih) (fun _ _ _ ih => ih) term

/-! ## Types -/

namespace Ty

mutual

/-- No table inside the type has a label twice. -/
def distinct : Ty → Bool
  | .arrow param result => param.distinct && result.distinct
  | .product fields => decide (Table.keys fields).Nodup && distinctEntries fields
  | .sum variants => decide (Table.keys variants).Nodup && distinctEntries variants
  | _ => true

def distinctEntries : List (String × Ty) → Bool
  | [] => true
  | (_, ty) :: rest => ty.distinct && distinctEntries rest

end

theorem distinctEntries_iff {entries : List (String × Ty)} :
    distinctEntries entries = true ↔ ∀ entry ∈ entries, entry.2.distinct = true := by
  induction entries with
  | nil => simp [distinctEntries]
  | cons entry rest ih => simp [distinctEntries, ih]

@[simp] theorem distinct_arrow {param result : Ty} :
    (arrow param result).distinct = true ↔ param.distinct = true ∧ result.distinct = true := by
  simp [distinct]

@[simp] theorem distinct_product {fields : List (String × Ty)} :
    (product fields).distinct = true ↔
      (Table.keys fields).Nodup ∧ ∀ entry ∈ fields, entry.2.distinct = true := by
  simp [distinct, distinctEntries_iff]

@[simp] theorem distinct_sum {variants : List (String × Ty)} :
    (sum variants).distinct = true ↔
      (Table.keys variants).Nodup ∧ ∀ entry ∈ variants, entry.2.distinct = true := by
  simp [distinct, distinctEntries_iff]

mutual

/-- Every node has a form, and every name is allowed. -/
def permitted (allowed : String → Bool) : Ty → Bool
  | .base name => allowed name
  | .arrow param result => param.permitted allowed && result.permitted allowed
  | .product fields => permittedEntries allowed fields
  | .sum variants => permittedEntries allowed variants
  | .foreign => false
  | _ => true

def permittedEntries (allowed : String → Bool) : List (String × Ty) → Bool
  | [] => true
  | (_, ty) :: rest => ty.permitted allowed && permittedEntries allowed rest

end

theorem permittedEntries_iff {allowed : String → Bool} {entries : List (String × Ty)} :
    permittedEntries allowed entries = true ↔
      ∀ entry ∈ entries, entry.2.permitted allowed = true := by
  induction entries with
  | nil => simp [permittedEntries]
  | cons entry rest ih => simp [permittedEntries, ih]

end Ty

/-! ## Patterns and terms -/

mutual

def Pattern.distinct : Pattern → Bool
  | .record fields => decide (Table.keys fields).Nodup && distinctFields fields
  | _ => true

def Pattern.distinctFields : List (String × Pattern) → Bool
  | [] => true
  | (_, pattern) :: rest => pattern.distinct && distinctFields rest

end

namespace Term

mutual

/-- No table inside the term has a label twice, those of its types and patterns
included. -/
def distinct : Term → Bool
  | .succ term => term.distinct
  | .pred term => term.distinct
  | .isZero term => term.distinct
  | .abs _ ty body => ty.distinct && body.distinct
  | .app function argument => function.distinct && argument.distinct
  | .ite condition yes no => condition.distinct && yes.distinct && no.distinct
  | .tuple fields => decide (Table.keys fields).Nodup && distinctFields fields
  | .letIn pattern value body => pattern.distinct && value.distinct && body.distinct
  | .tag _ payload ty => payload.distinct && ty.distinct
  | .case scrutinee branches =>
      scrutinee.distinct && decide (Table.keys branches).Nodup && distinctBranches branches
  | .fix term => term.distinct
  | _ => true

def distinctFields : List (String × Term) → Bool
  | [] => true
  | (_, term) :: rest => term.distinct && distinctFields rest

def distinctBranches : List (String × Branch Term) → Bool
  | [] => true
  | (_, ⟨_, _, body⟩) :: rest => body.distinct && distinctBranches rest

end

theorem distinctFields_iff {fields : List (String × Term)} :
    distinctFields fields = true ↔ ∀ entry ∈ fields, entry.2.distinct = true := by
  induction fields with
  | nil => simp [distinctFields]
  | cons entry rest ih => simp [distinctFields, ih]

theorem distinctBranches_iff {branches : List (String × Branch Term)} :
    distinctBranches branches = true ↔ ∀ entry ∈ branches, entry.2.body.distinct = true := by
  induction branches with
  | nil => simp [distinctBranches]
  | cons entry rest ih => simp [distinctBranches, ih]

mutual

/-- Every node of the term has a form, and so has every node of its patterns. -/
def known : Term → Bool
  | .succ term => term.known
  | .pred term => term.known
  | .isZero term => term.known
  | .abs _ _ body => body.known
  | .app function argument => function.known && argument.known
  | .ite condition yes no => condition.known && yes.known && no.known
  | .tuple fields => knownFields fields
  | .letIn pattern value body => pattern.length?.isSome && value.known && body.known
  | .tag _ payload _ => payload.known
  | .case scrutinee branches => scrutinee.known && knownBranches branches
  | .fix term => term.known
  | .foreign => false
  | _ => true

def knownFields : List (String × Term) → Bool
  | [] => true
  | (_, term) :: rest => term.known && knownFields rest

def knownBranches : List (String × Branch Term) → Bool
  | [] => true
  | (_, ⟨_, _, body⟩) :: rest => body.known && knownBranches rest

end

theorem knownFields_iff {fields : List (String × Term)} :
    knownFields fields = true ↔ ∀ entry ∈ fields, entry.2.known = true := by
  induction fields with
  | nil => simp [knownFields]
  | cons entry rest ih => simp [knownFields, ih]

theorem knownBranches_iff {branches : List (String × Branch Term)} :
    knownBranches branches = true ↔ ∀ entry ∈ branches, entry.2.body.known = true := by
  induction branches with
  | nil => simp [knownBranches]
  | cons entry rest ih => simp [knownBranches, ih]

end Term

/-! ## Contexts -/

namespace Context

def distinct (Γ : Context) : Bool :=
  (Γ.vars.all fun entry => entry.2.distinct) && (Γ.aliases.all fun entry => entry.2.distinct) &&
    Γ.named.all fun entry => entry.2.distinct

end Context

end TypedLambda
