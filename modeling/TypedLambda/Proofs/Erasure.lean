import TypedLambda.Proofs.Lockstep
import TypedLambda.Proofs.Rearrangement

/-!
# Evaluation without types and names

`Term.erase` blanks out everything that a term stores for the checker or for printing alone:
the types of abstractions and tags, and the names of variables, binders and branches. Labels
and the keys of branches stay.

Erasure commutes with every operation that a step is made of, up to what a fault says. So two
terms with the same erasure are in lockstep.
-/

namespace TypedLambda

/-! ## Erasure -/

mutual

def Pattern.erase : Pattern → Pattern
  | .var _ => .var ""
  | .record fields => .record (eraseFields fields)
  | .foreign => .foreign

def Pattern.eraseFields : List (String × Pattern) → List (String × Pattern)
  | [] => []
  | (label, pattern) :: rest => (label, pattern.erase) :: eraseFields rest

end

theorem Pattern.renamed_erase (pattern : Pattern) :
    pattern.Renamed (fun _ _ => True) pattern.erase := by
  induction pattern with
  | var name => exact .var trivial
  | record fields ih =>
      refine .record ?_
      induction fields with
      | nil => exact .nil
      | cons entry rest ihrest =>
          rw [List.forall_mem_cons] at ih
          exact .cons ih.1 (ihrest ih.2)
  | foreign => exact .foreign

@[simp] theorem Pattern.arity_erase (pattern : Pattern) : pattern.erase.arity = pattern.arity := by
  unfold Pattern.arity
  rw [pattern.renamed_erase.length?_eq]

namespace Term

mutual

/-- The term without its names, and with the unit type in place of every type. -/
def erase : Term → Term
  | .unit => .unit
  | .bool value => .bool value
  | .zero => .zero
  | .succ term => .succ term.erase
  | .pred term => .pred term.erase
  | .isZero term => .isZero term.erase
  | .var index _ => .var index ""
  | .abs _ _ body => .abs "" .unit body.erase
  | .app function argument => .app function.erase argument.erase
  | .ite condition yes no => .ite condition.erase yes.erase no.erase
  | .tuple fields => .tuple (eraseFields fields)
  | .letIn pattern value body => .letIn pattern.erase value.erase body.erase
  | .tag label payload _ => .tag label payload.erase .unit
  | .case scrutinee branches => .case scrutinee.erase (eraseBranches branches)
  | .fix term => .fix term.erase
  | .foreign => .foreign

def eraseFields : List (String × Term) → List (String × Term)
  | [] => []
  | (label, term) :: rest => (label, term.erase) :: eraseFields rest

def eraseBranches : List (String × Branch Term) → List (String × Branch Term)
  | [] => []
  | (key, ⟨_, _, body⟩) :: rest => (key, ⟨"", "", body.erase⟩) :: eraseBranches rest

end

theorem lookup_eraseFields (label : String) (fields : List (String × Term)) :
    (eraseFields fields).lookup label = (fields.lookup label).map erase := by
  rw [← Table.lookup_map]
  congr 1
  induction fields with
  | nil => rfl
  | cons entry rest ih => rw [eraseFields, ih, List.map_cons]

theorem lookup_eraseBranches (key : String) (branches : List (String × Branch Term)) :
    (eraseBranches branches).lookup key =
      (branches.lookup key).map fun branch => ⟨"", "", branch.body.erase⟩ := by
  rw [← Table.lookup_map]
  congr 1
  induction branches with
  | nil => rfl
  | cons entry rest ih => rw [eraseBranches, ih, List.map_cons]

/-! ## Values -/

@[simp] theorem isNumeral_erase (t : Term) : t.erase.isNumeral = t.isNumeral := by
  induction t with
  | succ term ih => exact ih
  | _ => rfl

@[simp] theorem isValue_erase (t : Term) : t.erase.isValue = t.isValue := by
  induction t with
  | succ term _ => exact isNumeral_erase term
  | tuple fields ih =>
      show allValues (eraseFields fields) = allValues fields
      induction fields with
      | nil => rfl
      | cons entry rest ihrest =>
          rw [List.forall_mem_cons] at ih
          rw [eraseFields, allValues, allValues, ih.1, ihrest ih.2]
  | tag label payload ty ih => exact ih
  | _ => rfl

/-! ## Substitution

Each operation on a term is parallel to the same operation on the erased term. -/

open Outcome (Parallel)

def Erases (t u : Term) : Prop := t.erase = u

section
variable {act act' : Nat → Int → String → Except Fault Term}

theorem erase_traverse
    (hact : ∀ k index name, Parallel Erases (act k index name) (act' k index "")) (t : Term)
    (k : Nat) : Parallel Erases (t.traverse act k) (t.erase.traverse act' k) := by
  have hfields : ∀ {fields : List (String × Term)} {k : Nat},
      (∀ entry ∈ fields, ∀ k, Parallel Erases (entry.2.traverse act k)
        (entry.2.erase.traverse act' k)) →
      Parallel (fun fs gs => eraseFields fs = gs) (traverseFields act k fields)
        (traverseFields act' k (eraseFields fields)) := by
    intro fields k ih
    induction fields with
    | nil => exact .ok rfl
    | cons entry rest ihrest =>
        rw [List.forall_mem_cons] at ih
        refine (ih.1 k).bind fun {t u} ht => (ihrest ih.2).bind fun {fs gs} hrest => .ok ?_
        rw [eraseFields, ht, hrest]
  have hbranches : ∀ {branches : List (String × Branch Term)} {k : Nat},
      (∀ entry ∈ branches, ∀ k, Parallel Erases (entry.2.body.traverse act k)
        (entry.2.body.erase.traverse act' k)) →
      Parallel (fun bs cs => eraseBranches bs = cs) (traverseBranches act k branches)
        (traverseBranches act' k (eraseBranches branches)) := by
    intro branches k ih
    induction branches with
    | nil => exact .ok rfl
    | cons entry rest ihrest =>
        rw [List.forall_mem_cons] at ih
        refine (ih.1 k).bind fun {t u} ht => (ihrest ih.2).bind fun {bs cs} hrest => .ok ?_
        rw [eraseBranches, ht, hrest]
  induction t generalizing k with
  | unit | bool | zero => exact .ok rfl
  | succ term ih => exact (ih k).bind fun h => .ok (congrArg succ h)
  | pred term ih => exact (ih k).bind fun h => .ok (congrArg pred h)
  | isZero term ih => exact (ih k).bind fun h => .ok (congrArg isZero h)
  | var index name => exact hact k index name
  | abs name ty body ih => exact (ih (k + 1)).bind fun h => .ok (congrArg (abs "" .unit) h)
  | app f a ihf iha =>
      exact (ihf k).bind fun hf => (iha k).bind fun ha => .ok (congrArg₂ app hf ha)
  | ite condition yes no ihc ihy ihn =>
      refine (ihc k).bind fun hc => (ihy k).bind fun hy => (ihn k).bind fun hn => .ok ?_
      rw [Erases, erase, hc, hy, hn]
  | tuple fields ih => exact (hfields ih).bind fun h => .ok (congrArg tuple h)
  | letIn pattern value body ihv ihb =>
      refine (ihv k).bind fun {v w} hv => ?_
      rw [Pattern.arity_erase]
      refine (Parallel.refl (fun _ => rfl) pattern.arity).bind fun {n m} hn => ?_
      subst hn
      exact (ihb (k + n)).bind fun hb => .ok (congrArg₂ (letIn pattern.erase) hv hb)
  | tag label payload ty ih => exact (ih k).bind fun h => .ok (congrArg (tag label · .unit) h)
  | case scrutinee branches ihs ihb =>
      exact (ihs k).bind fun hs => (hbranches ihb).bind fun hb => .ok (congrArg₂ case hs hb)
  | fix term ih => exact (ih k).bind fun h => .ok (congrArg fix h)
  | foreign => exact .error rfl

end

theorem erase_shift (t : Term) (d cutoff : Int) :
    Parallel Erases (t.shift d cutoff) (t.erase.shift d cutoff) := by
  unfold shift
  split
  · exact .ok rfl
  · refine erase_traverse (fun k index name => .ok ?_) t 0
    unfold shiftVar
    split <;> rfl

theorem erase_substitute (j : Int) (s t : Term) (cutoff : Int) :
    Parallel Erases (substitute j s t cutoff) (substitute j s.erase t.erase cutoff) := by
  refine erase_traverse (fun k index name => ?_) t 0
  split
  · exact erase_shift s (cutoff + k) 0
  · exact .ok rfl

theorem erase_substTop (s body : Term) :
    Parallel Erases (substTop s body) (substTop s.erase body.erase) := by
  refine (erase_shift s 1 0).bind fun {s' _} hs => ?_
  subst hs
  refine (erase_substitute 0 s' body 0).bind fun {body' _} hbody => ?_
  subst hbody
  exact erase_shift body' (-1) 0

theorem erase_instantiate (terms : List Term) (body : Term) :
    Parallel Erases (instantiate terms body) (instantiate (terms.map erase) body.erase) := by
  induction terms generalizing body with
  | nil => exact .ok rfl
  | cons s rest ih =>
      rw [List.map_cons, instantiate, instantiate, List.length_map]
      refine (erase_shift s rest.length 0).bind fun {s' _} hs => ?_
      subst hs
      refine (erase_substTop s' body).bind fun {body' _} hbody => ?_
      subst hbody
      exact ih body'

/-! ## Steps -/

theorem erase_destructure (pattern : Pattern) (t : Term) :
    Parallel (fun bs cs => (bs.map Prod.snd).map erase = cs.map Prod.snd)
      (pattern.destructure t) (pattern.erase.destructure t.erase) := by
  induction pattern generalizing t with
  | var name => exact .ok rfl
  | record fields ih =>
      cases t with
      | tuple terms =>
          show Parallel _ (Pattern.destructureFields fields terms)
            (Pattern.destructureFields (Pattern.eraseFields fields) (eraseFields terms))
          induction fields with
          | nil => exact .ok rfl
          | cons entry rest ihrest =>
              rw [List.forall_mem_cons] at ih
              rw [Pattern.eraseFields, Pattern.destructureFields, Pattern.destructureFields,
                lookup_eraseFields]
              cases terms.lookup entry.1 with
              | none => exact .error rfl
              | some term =>
                  refine (ih.1 term).bind fun {bs cs} hfirst => ?_
                  refine (ihrest ih.2).bind fun {bs' cs'} hothers => .ok ?_
                  simp only [List.map_append, hfirst, hothers]
      | _ => exact .error rfl
  | foreign => cases t <;> exact .error rfl

theorem erase_openLet (pattern : Pattern) (value body : Term) :
    Parallel Erases (openLet pattern value body)
      (openLet pattern.erase value.erase body.erase) := by
  refine (erase_destructure pattern value).bind fun {bs cs} hbindings => ?_
  rw [← hbindings]
  exact erase_instantiate (bs.map Prod.snd) body

theorem erase_contract? (t : Term) :
    Option.Rel (Parallel Erases) t.contract? t.erase.contract? := by
  cases t with
  | app f a =>
      cases f with
      | abs name ty body =>
          simp only [erase, contract?, isValue_erase]
          split
          · exact .some (erase_substTop a body)
          · exact .none
      | _ => exact .none
  | ite condition yes no =>
      cases condition with
      | bool value => cases value <;> exact .some (.ok rfl)
      | _ => exact .none
  | pred term =>
      cases term with
      | zero => exact .some (.ok rfl)
      | succ term =>
          simp only [erase, contract?, isNumeral_erase]
          split
          · exact .some (.ok rfl)
          · exact .none
      | _ => exact .none
  | isZero term =>
      cases term with
      | zero => exact .some (.ok rfl)
      | succ term =>
          simp only [erase, contract?, isNumeral_erase]
          split
          · exact .some (.ok rfl)
          · exact .none
      | _ => exact .none
  | letIn pattern value body =>
      simp only [erase, contract?, isValue_erase]
      split
      · exact .some (erase_openLet pattern value body)
      · exact .none
  | case scrutinee branches =>
      cases scrutinee with
      | tag label payload ty =>
          simp only [erase, contract?, isValue_erase, lookup_eraseBranches]
          split
          · cases branches.lookup label with
            | none => exact .some (.error rfl)
            | some branch => exact .some (erase_substTop payload branch.body)
          · exact .none
      | _ => exact .none
  | fix term =>
      cases term with
      | abs name ty body => exact .some (erase_substTop (fix (abs name ty body)) body)
      | _ => exact .none
  | _ => exact .none

/-- Where no rule applies at the root of the term, none applies at the root of its erasure, so
only the steps of the parts are left to compare. -/
theorem erase_step_of_parts {t : Term}
    (hparts : t.contract? = none → t.erase.contract? = none → Parallel Erases t.step t.erase.step) :
    Parallel Erases t.step t.erase.step := by
  have hcontract := erase_contract? t
  generalize hleft : t.contract? = left, hright : t.erase.contract? = right at hcontract
  cases hcontract with
  | none => exact hparts hleft hright
  | some h =>
      rw [step.eq_def, step.eq_def t.erase, hleft, hright]
      exact h

theorem erase_stepFields {fields : List (String × Term)}
    (hparts : ∀ entry ∈ fields, Parallel Erases entry.2.step entry.2.erase.step) :
    Option.Rel (Parallel fun fs gs => eraseFields fs = gs) (stepFields fields)
      (stepFields (eraseFields fields)) := by
  induction fields with
  | nil => exact .none
  | cons entry rest ih =>
      rw [List.forall_mem_cons] at hparts
      simp only [stepFields, eraseFields, isValue_erase]
      split
      · have hrest := ih hparts.2
        generalize stepFields rest = left, stepFields (eraseFields rest) = right at hrest
        cases hrest with
        | none => exact .none
        | some h => exact .some (h.map fun h => by rw [eraseFields, h])
      · refine .some (hparts.1.map fun {t u} h => ?_)
        rw [eraseFields, h]

/-- A step of the erased term is the step of the term, erased. -/
theorem erase_step (t : Term) : Parallel Erases t.step t.erase.step := by
  induction t with
  | unit | bool | zero | var | abs | foreign => exact .error rfl
  | succ term ih => exact ih.map fun h => congrArg succ h
  | tag label payload ty ih => exact ih.map fun h => congrArg (tag label · .unit) h
  | tuple fields ih =>
      have hstep := erase_stepFields ih
      rw [step.eq_def, step.eq_def (erase _)]
      simp only [erase, contract?]
      generalize stepFields fields = left, stepFields (eraseFields fields) = right at hstep
      cases hstep with
      | none => exact .error rfl
      | some h => exact h.map fun h => congrArg tuple h
  | app f a ihf iha =>
      apply erase_step_of_parts
      intro hleft hright
      rw [step.eq_def, step.eq_def (erase _), hleft, hright]
      simp only [erase, isValue_erase]
      split
      · exact iha.map fun h => congrArg (app f.erase) h
      · exact ihf.map fun h => congrArg (app · a.erase) h
  | pred term ih =>
      apply erase_step_of_parts
      intro hleft hright
      rw [step.eq_def, step.eq_def (erase _), hleft, hright]
      exact ih.map fun h => congrArg pred h
  | isZero term ih =>
      apply erase_step_of_parts
      intro hleft hright
      rw [step.eq_def, step.eq_def (erase _), hleft, hright]
      exact ih.map fun h => congrArg isZero h
  | ite condition yes no ih _ _ =>
      apply erase_step_of_parts
      intro hleft hright
      rw [step.eq_def, step.eq_def (erase _), hleft, hright]
      exact ih.map fun h => congrArg (ite · yes.erase no.erase) h
  | letIn pattern value body ih _ =>
      apply erase_step_of_parts
      intro hleft hright
      rw [step.eq_def, step.eq_def (erase _), hleft, hright]
      exact ih.map fun h => congrArg (letIn pattern.erase · body.erase) h
  | case scrutinee branches ih _ =>
      apply erase_step_of_parts
      intro hleft hright
      rw [step.eq_def, step.eq_def (erase _), hleft, hright]
      exact ih.map fun h => congrArg (case · (eraseBranches branches)) h
  | fix term ih =>
      apply erase_step_of_parts
      intro hleft hright
      rw [step.eq_def, step.eq_def (erase _), hleft, hright]
      exact ih.map fun h => congrArg fix h

/-! ## Runs -/

theorem lockstep_erase : Lockstep fun t u => t.erase = u.erase := by
  constructor
  · intro t u h
    rw [← isValue_erase t, h, isValue_erase]
  · intro t u h
    have ht : Parallel Erases t.step u.erase.step := h ▸ erase_step t
    exact ht.meet (erase_step u) fun ha hb => ha.trans hb.symm

/-- Evaluation looks at neither types nor names. Of two terms that differ in them alone, both
are values or neither is; both step, to terms that differ in them alone, or both fail in the
same way; and evaluation ends in the same way on both, after the same number of steps. -/
theorem evaluation_erased {t u : Term} (h : t.erase = u.erase) :
    t.isValue = u.isValue ∧
    Parallel (fun a b => a.erase = b.erase) t.step u.step ∧
    ∀ (settings : Settings) (fuel : Nat), ∃ n e e',
      t.Concludes settings fuel n e ∧ u.Concludes settings fuel n e' ∧
        e.Parallel (fun a b => a.erase = b.erase) e' :=
  ⟨lockstep_erase.isValue h, lockstep_erase.step h, lockstep_erase.evaluate h⟩

theorem evaluation_erased_renamed :
    let t : Term := .letIn (.record [("f", .var "next"), ("n", .var "count")])
      (.tuple [("n", .zero), ("f", .abs "x" .int (.succ (.var 0 "x")))])
      (.case (.tag "some" (.app (.var 0 "next") (.var 1 "count")) (.sum [("some", .int)]))
        [("some", ⟨"some", "y", .var 0 "y"⟩), ("none", ⟨"none", "z", .foreign⟩)])
    let u : Term := .letIn (.record [("f", .var "a"), ("n", .var "a")])
      (.tuple [("n", .zero), ("f", .abs "b" (.base "N") (.succ (.var 0 "c")))])
      (.case (.tag "some" (.app (.var 0 "d") (.var 1 "e")) .bool)
        [("some", ⟨"none", "f", .var 0 "g"⟩), ("none", ⟨"some", "h", .foreign⟩)])
    t.isValue = u.isValue ∧
    Parallel (fun a b => a.erase = b.erase) t.step u.step ∧
    ∀ (settings : Settings) (fuel : Nat), ∃ n e e',
      t.Concludes settings fuel n e ∧ u.Concludes settings fuel n e' ∧
        e.Parallel (fun a b => a.erase = b.erase) e' :=
  evaluation_erased rfl

end Term

end TypedLambda
