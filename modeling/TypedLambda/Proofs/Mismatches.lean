import TypedLambda.Proofs.BoundedRuns
import TypedLambda.Proofs.Stability

/-!
# Patterns that do not fit

Evaluation of a term whose nodes all have a form is meant to end in a value, to be stuck or to be
given up at its limit. One fault escapes: a let whose value does not have the parts that its pattern
asks for. Such a let is a normal form like any other, but the fault of the match comes out of its
step as it is, and out of evaluation too.

`Term.Mismatched` describes the terms at which this happens. It is the only exception: every other
step that fails does so for want of a rule (`Term.noRule_or_mismatched`), and evaluation is then
stuck.
-/

namespace TypedLambda

namespace Term

variable {t u : Term} {fault : Fault}

/-! ## Lets without a match -/

/-- The place where the term is reduced is a let with a value that its pattern does not fit, with
this fault as the result of the match. -/
inductive Mismatched : Term → Fault → Prop
  | root {pattern : Pattern} {value body : Term} {fault : Fault} : value.isValue = true →
      pattern.destructure value = .error fault → Mismatched (.letIn pattern value body) fault
  | inside {F : Frame} {t : Term} {fault : Fault} : F.ready = true → Mismatched t fault →
      Mismatched (F.fill t) fault

theorem Mismatched.isValue (h : t.Mismatched fault) : t.isValue = false := by
  induction h with
  | root => rfl
  | inside _ _ ih => exact isValue_fill ih

theorem Mismatched.step (h : t.Mismatched fault) : t.step = .error fault := by
  induction h with
  | root hvalue hmatch =>
      rw [step.eq_def, contract?, if_pos hvalue]
      exact Outcome.bind_eq_error.2 (.inl hmatch)
  | inside hready hpart ih =>
      rw [step_fill hready hpart.isValue, ih]
      rfl

theorem Mismatched.ofMatch (h : t.Mismatched fault) : fault.ofMatch = true := by
  induction h with
  | root _ hmatch => exact Pattern.ofMatch_of_destructure hmatch
  | inside _ _ ih => exact ih

theorem Mismatched.ne_noRule (h : t.Mismatched fault) (w : Term) : fault ≠ .noRule w := by
  rintro rfl
  cases h.ofMatch

/-! ## The faults of single steps -/

theorem noRule_or_mismatched_of_redex {result : Except Fault Term} (ht : t.known = true)
    (h : Redex t result) (hfault : result = .error fault) :
    (∃ w, fault = .noRule w) ∨ t.Mismatched fault := by
  -- substitution does not fail on known nodes, which leaves the match of a let
  cases h with
  | beta hvalue =>
      simp only [known, Bool.and_eq_true] at ht
      rw [substTop_eq_ok ht.2 ht.1] at hfault
      cases hfault
  | yes | no | predZero | predSucc | isZeroZero | isZeroSucc => cases hfault
  | @letIn pattern value body hvalue =>
      simp only [known, Bool.and_eq_true] at ht
      rcases Outcome.bind_eq_error.1 hfault with hmatch | ⟨bindings, hmatch, hopened⟩
      · exact .inr (.root hvalue hmatch)
      · rw [instantiate_eq_ok (known_of_destructure hmatch ht.1.2) ht.2] at hopened
        cases hopened
  | case hvalue hbranch =>
      simp only [known, Bool.and_eq_true, knownBranches_iff] at ht
      rw [substTop_eq_ok ht.1 (ht.2 _ (Table.mem_of_lookup hbranch))] at hfault
      cases hfault
  | noBranch =>
      cases hfault
      exact .inl ⟨_, rfl⟩
  | @fix name ty body =>
      have hbody : body.known = true := ht
      rw [substTop_eq_ok ht hbody] at hfault
      cases hfault

/-- A step that fails does so for want of a rule, or at a let without a match. -/
theorem noRule_or_mismatched (ht : t.known = true) (h : t.step = .error fault) :
    (∃ w, fault = .noRule w) ∨ t.Mismatched fault := by
  refine step_outcome (motive := fun t result => t.known = true → result = .error fault →
    (∃ w, fault = .noRule w) ∨ t.Mismatched fault) ?_ ?_ ?_ t ht h
  · intro t result hcontract ht hresult
    exact noRule_or_mismatched_of_redex ht (redex_of_contract? hcontract) hresult
  · intro F u hready ih ht hresult
    rcases ih (known_fill ht).1 (Outcome.map_eq_error.1 hresult) with hrule | hpart
    · exact .inl hrule
    · exact .inr (.inside hready hpart)
  · intro t _ hresult
    cases hresult
    exact .inl ⟨t, rfl⟩

/-! ## The faults of evaluation -/

variable {settings : Settings}

/-- The outcomes that evaluation is meant to have: a value, a term at which it is stuck, or that
the limit was reached. -/
inductive Foreseen (settings : Settings) : Except Fault Term → Prop
  | value {v : Term} : v.isValue = true → Foreseen settings (.ok v)
  | stuck {u : Term} : u.isValue = false → Foreseen settings (.error (.stuck u))
  | limited {limit : Nat} {u : Term} : settings.maxSteps = some limit →
      Foreseen settings (.error (.stepLimit limit u))

/-- On its way evaluation comes to a let without a match, and the limit lets it try the step. -/
def MeetsMismatch (t : Term) (settings : Settings) : Prop :=
  ∃ k u fault, settings.allows (k + 1) ∧ t.stepN k = .ok u ∧ u.Mismatched fault

theorem Stops.foreseen_iff {k : Nat} {outcome : Except Fault Term} (ht : t.known = true)
    (h : t.Stops settings k outcome) :
    Foreseen settings outcome ↔ ¬ t.MeetsMismatch settings := by
  cases h with
  | value hallows hv hvalue =>
      refine iff_of_true (.value hvalue) ?_
      rintro ⟨j, u, fault, -, hu, hmismatch⟩
      rcases step_of_isValue hvalue with ⟨w, hw⟩
      rcases stepN_unique_of_error hw hmismatch.step hv hu with ⟨-, rfl⟩
      rw [hmismatch.isValue] at hvalue
      cases hvalue
  | stuck hallows hu hvalue hw =>
      refine iff_of_true (.stuck hvalue) ?_
      rintro ⟨j, u', fault, -, hu', hmismatch⟩
      rcases stepN_unique_of_error hw hmismatch.step hu hu' with ⟨-, rfl⟩
      exact hmismatch.ne_noRule _ (Except.error.inj (hmismatch.step.symm.trans hw))
  | broken hallows hu hvalue hstep hrule =>
      rcases noRule_or_mismatched (known_of_stepN ht hu) hstep with ⟨w, hw⟩ | hmismatch
      · exact absurd hw (hrule w)
      refine iff_of_false ?_ (not_not.2 ⟨k, _, _, hallows, hu, hmismatch⟩)
      intro hforeseen
      have hmatch := hmismatch.ofMatch
      cases hforeseen <;> cases hmatch
  | limited hlimit hu hvalue =>
      refine iff_of_true (.limited hlimit) ?_
      rintro ⟨j, u', fault, hallows, hu', hmismatch⟩
      -- the limit leaves room for a step after `j`, so the run does not end there
      rcases step_of_stepN_lt hu (hallows _ hlimit) hu' with ⟨next, hnext⟩
      rw [hmismatch.step] at hnext
      cases hnext

theorem completes_or_continues (t : Term) (settings : Settings) :
    (∃ run, t.Completes settings run) ∨
      (settings.maxSteps = none ∧ ∀ k, ∃ u, t.stepN k = .ok u ∧ u.isValue = false) := by
  by_cases hstops : ∃ k outcome, t.Stops settings k outcome
  · rcases hstops with ⟨k, outcome, hstops⟩
    rcases hstops.completes with ⟨events, hcompletes⟩
    exact .inl ⟨_, hcompletes⟩
  · right
    -- a run with any amount of fuel can only have spent it all
    have hspent : ∀ fuel, ∃ u, (t.evaluate settings fuel).outcome = .error (.unfinished u) := by
      intro fuel
      rcases exists_ends t (settings.maxSteps.getD fuel) with ⟨k, e, hends⟩
      by_contra hnone
      rw [not_exists, evaluate_of_ends hends] at hnone
      exact hstops ⟨k, _, hends.stops hnone⟩
    have hrun : ∀ fuel, settings.maxSteps = none ∧ ∃ u, t.stepN fuel = .ok u ∧
        u.isValue = false := by
      intro fuel
      rcases hspent fuel with ⟨u, hu⟩
      have hevaluate : t.evaluate settings fuel =
          ⟨.error (.unfinished u), (t.evaluate settings fuel).events⟩ := by rw [← hu]
      rcases evaluate_eq_unfinished_iff.1 hevaluate with ⟨hlimit, hsteps, hnone, -⟩
      exact ⟨hlimit, u, hsteps, (noValueBefore_succ_iff hsteps).1 hnone⟩
    exact ⟨(hrun 0).1, fun fuel => (hrun fuel).2⟩

theorem completes_of_normal (ht : t.known = true) {k : Nat} (hallows : settings.allows (k + 1))
    (hu : t.stepN k = .ok u) (hvalue : u.isValue = false) (hnormal : ∀ w, u.step ≠ .ok w) :
    (∀ fault, u.Mismatched fault → fault.ofMatch = true ∧
      ∃ events, t.Completes settings ⟨.error fault, events⟩) ∧
    ((∀ fault, ¬ u.Mismatched fault) →
      ∃ events, t.Completes settings ⟨.error (.stuck u), events⟩) := by
  constructor
  · intro fault hmismatch
    have hstops : t.Stops settings k (.error fault) :=
      .broken hallows hu hvalue hmismatch.step hmismatch.ne_noRule
    exact ⟨hmismatch.ofMatch, hstops.completes⟩
  · intro hnone
    cases hstep : u.step with
    | ok w => exact absurd hstep (hnormal w)
    | error fault =>
        rcases noRule_or_mismatched (known_of_stepN ht hu) hstep with ⟨w, rfl⟩ | hmismatch
        · exact (Stops.stuck hallows hu hvalue hstep).completes
        · exact absurd hmismatch (hnone fault)

/-- How evaluation of a term can end whose nodes all have a form, whether it has a type or not. It
ends as foreseen exactly if it does not come to a let whose value its pattern does not fit; and of
the normal forms that are no values, it is stuck at all but those. -/
theorem evaluation_foreseen_iff (ht : t.known = true) (settings : Settings) :
    ((∃ run, t.Completes settings run) ∨
      (settings.maxSteps = none ∧ ∀ k, ∃ u, t.stepN k = .ok u ∧ u.isValue = false)) ∧
    (∀ run, t.Completes settings run →
      (Foreseen settings run.outcome ↔ ¬ t.MeetsMismatch settings)) ∧
    ∀ k u, settings.allows (k + 1) → t.stepN k = .ok u → u.isValue = false →
      (∀ w, u.step ≠ .ok w) →
      (∀ fault, u.Mismatched fault → fault.ofMatch = true ∧
        ∃ events, t.Completes settings ⟨.error fault, events⟩) ∧
      ((∀ fault, ¬ u.Mismatched fault) →
        ∃ events, t.Completes settings ⟨.error (.stuck u), events⟩) := by
  refine ⟨completes_or_continues t settings, ?_, ?_⟩
  · intro run hcompletes
    rcases completes_iff.1 hcompletes with ⟨k, hstops, -⟩
    exact hstops.foreseen_iff ht
  · intro k u hallows hu hvalue hnormal
    exact completes_of_normal ht hallows hu hvalue hnormal

/-- After one step, an open term without a type is stuck at an application of a number, and another
one is at a let that asks a number for its parts. -/
theorem evaluation_foreseen_iff_open :
    let settings : Settings := { maxSteps := some 5 }
    let pattern : Pattern := .record [("a", .var "x")]
    let t : Term := .pred (.app (.abs "p" .int (.app (.var 0 "p") (.var 1 "free"))) .zero)
    let t' : Term := .pred (.app
      (.abs "p" .int (.letIn pattern (.var 0 "p") (.var 2 "free"))) .zero)
    (∃ events, t.Completes settings
      ⟨.error (.stuck (.pred (.app .zero (.var 0 "free")))), events⟩) ∧
    (∃ events, t'.Completes settings ⟨.error (.noMatch pattern .zero), events⟩) ∧
    ∀ run, t'.Completes settings run → ¬ Foreseen settings run.outcome := by
  intro settings pattern t t'
  have hallows : settings.allows (1 + 1) := by
    intro limit hlimit
    cases hlimit
    decide
  have hnone : ∀ fault, ¬ (Term.pred (.app .zero (.var 0 "free"))).Mismatched fault := by
    intro fault h
    cases h.step
    cases h.ofMatch
  have hmismatch : (Term.pred (.letIn pattern .zero (.var 1 "free"))).Mismatched
      (.noMatch pattern .zero) := .inside (F := .pred) rfl (.root rfl rfl)
  have hends := evaluation_foreseen_iff (t := t) rfl settings
  have hends' := evaluation_foreseen_iff (t := t') rfl settings
  have hstuck := hends.2.2 1 _ hallows rfl rfl nofun
  have hfault := hends'.2.2 1 _ hallows rfl rfl nofun
  refine ⟨hstuck.2 hnone, (hfault.1 _ hmismatch).2, ?_⟩
  intro run hrun hforeseen
  exact (hends'.2.1 run hrun).1 hforeseen ⟨1, _, _, hallows, rfl, hmismatch⟩

/-- A let that asks unit for its parts, and one that asks a tuple for a part that it does not have,
are no values and have no step. Yet evaluation is not stuck at them. -/
theorem evaluation_not_foreseen :
    let pattern : Pattern := .record [("a", .var "x")]
    let t : Term := .letIn pattern .unit (.var 0 "x")
    let t' : Term := .letIn pattern (.tuple [("b", .zero)]) (.var 0 "x")
    (t.known = true ∧ t.isValue = false ∧ (∀ w, t.step ≠ .ok w) ∧
      ∀ settings : Settings, settings.allows 1 →
        (∃ events, t.Completes settings ⟨.error (.noMatch pattern .unit), events⟩) ∧
        ¬ Foreseen settings (.error (.noMatch pattern .unit))) ∧
    (t'.known = true ∧ t'.isValue = false ∧ (∀ w, t'.step ≠ .ok w) ∧
      ∀ settings : Settings, settings.allows 1 →
        (∃ events, t'.Completes settings ⟨.error (.missingLabel "a"), events⟩) ∧
        ¬ Foreseen settings (.error (.missingLabel "a"))) := by
  intro pattern t t'
  refine ⟨⟨rfl, rfl, nofun, ?_⟩, ⟨rfl, rfl, nofun, ?_⟩⟩
  · intro settings hallows
    have hstops : t.Stops settings 0 (.error (.noMatch pattern .unit)) :=
      .broken hallows rfl rfl rfl nofun
    exact ⟨hstops.completes, nofun⟩
  · intro settings hallows
    have hstops : t'.Stops settings 0 (.error (.missingLabel "a")) :=
      .broken hallows rfl rfl rfl nofun
    exact ⟨hstops.completes, nofun⟩

end Term

end TypedLambda
