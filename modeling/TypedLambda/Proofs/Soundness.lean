import TypedLambda.Proofs.Preservation
import TypedLambda.Proofs.Progress
import TypedLambda.Toplevel

/-!
# Soundness of the top level

What a step keeps, a run keeps: from a typed term without free variables, a run meets only
terms of the same type, and stops at a value or for want of budget. Checking and running
fold the named terms of the context each for itself, and come to the same term.
-/

namespace TypedLambda

/-! ## Runs -/

namespace Term

variable {detect : Bool} {Γ : Context} {T : Ty}

/-- The invariant of a run: the term has the type, and its tables are mappings. -/
structure Keeps (detect : Bool) (Γ : Context) (T : Ty) (t : Term) : Prop where
  distinct : t.distinct = true
  hasTy : t.HasTy detect Γ T

theorem Keeps.step {t : Term} (h : Keeps detect Γ T t) (hΓ : Γ.Regular) (hvars : Γ.vars = [])
    (hvalue : t.isValue = false) : ∃ t', t.step = .ok t' ∧ Keeps detect Γ T t' := by
  obtain ⟨hdistinct, U, hU, hUT⟩ := h
  rcases (advances_of_infer hdistinct hU).closed hvars with hv | ⟨t', ht'⟩
  · rw [hvalue] at hv
    cases hv
  · obtain ⟨hdistinct', hty⟩ := hasTy_of_step hΓ hdistinct hU ht'
    exact ⟨t', ht', hdistinct', hty.conv hUT⟩

/-- A run ends at a value, or when its budget is spent, in a term that keeps the
invariant. -/
theorem Keeps.reduce {t : Term} (h : Keeps detect Γ T t) (hΓ : Γ.Regular) (hvars : Γ.vars = [])
    (trace : Bool) (budget taken : Nat) (events : List Event) :
    ∃ u, Keeps detect Γ T u ∧
      (u.isValue = true ∧ (t.reduce trace budget taken events).1 = .value u ∨
        u.isValue = false ∧ (t.reduce trace budget taken events).1 = .exhausted u) := by
  induction budget generalizing t taken events with
  | zero =>
      refine ⟨t, h, ?_⟩
      cases hvalue : t.isValue <;> simp [Term.reduce, hvalue]
  | succ budget ih =>
      cases hvalue : t.isValue with
      | true => exact ⟨t, h, .inl ⟨hvalue, by simp [Term.reduce, hvalue]⟩⟩
      | false =>
          obtain ⟨t', ht', hkeeps⟩ := h.step hΓ hvars hvalue
          simp only [Term.reduce, hvalue, ht', Bool.false_eq_true, if_false]
          exact ih hkeeps _ _

end Term

/-! ## Named terms -/

namespace Script

theorem distinct_wrap {bindings : List (String × Term)} {types : List Ty} {body : Term}
    (hbindings : ∀ binding ∈ bindings, binding.2.distinct = true)
    (htypes : ∀ ty ∈ types, ty.distinct = true) (hbody : body.distinct = true) :
    (wrap bindings types body).distinct = true := by
  induction bindings generalizing types with
  | nil => exact hbody
  | cons binding rest ih =>
      cases types with
      | nil => exact hbody
      | cons ty types =>
          rw [List.forall_mem_cons] at hbindings htypes
          simp [wrap, Term.distinct, ih hbindings.2 htypes.2, hbindings.1, htypes.1]

theorem typesOf_cons_iff {detect : Bool} {Γ : Context} {binding : String × Term}
    {rest : List (String × Term)} {types : List Ty} :
    typesOf detect Γ (binding :: rest) = .ok types ↔
      ∃ ty others, binding.2.infer detect Γ = .ok ty ∧
        typesOf detect (Γ.extend [ty]) rest = .ok others ∧ types = ty :: others := by
  simp only [typesOf, Outcome.bind_eq_ok, Fault.blame_eq_ok, Outcome.pure_eq_ok]
  constructor
  · intro h
    rcases h with ⟨ty, hty, others, hothers, rfl⟩
    exact ⟨ty, others, hty, hothers, rfl⟩
  · intro h
    rcases h with ⟨ty, others, hty, hothers, rfl⟩
    exact ⟨ty, hty, others, hothers, rfl⟩

theorem distinct_of_typesOf {detect : Bool} {Γ : Context} (hΓ : Γ.Regular)
    {bindings : List (String × Term)}
    (hbindings : ∀ binding ∈ bindings, binding.2.distinct = true) {types : List Ty}
    (h : typesOf detect Γ bindings = .ok types) : ∀ ty ∈ types, ty.distinct = true := by
  induction bindings generalizing Γ types with
  | nil =>
      cases h
      simp
  | cons binding rest ih =>
      rw [List.forall_mem_cons] at hbindings
      obtain ⟨ty, others, hty, hothers, rfl⟩ := typesOf_cons_iff.1 h
      have hdistinct := (Term.hasTy_of_infer hΓ.toOrderly hbindings.1 hty).alike.left
      rw [List.forall_mem_cons]
      exact ⟨hdistinct, ih (hΓ.extend (by simpa using hdistinct)) hbindings.2 hothers⟩

end Script

/-! ## The two entry points -/

namespace Toplevel

theorem outcome_announce {α : Type} (term : Term) (outcome : Except Fault α) :
    (announce term outcome).outcome = outcome := by
  unfold announce
  split <;> rfl

theorem distinct_of_fold {settings : Settings} {Γ : Context} {term folded : Term}
    (hΓ : Γ.distinct = true) (hregular : Γ.Regular) (hterm : term.distinct = true)
    (h : fold settings Γ term = .ok folded) : folded.distinct = true := by
  simp only [Context.distinct, Bool.and_eq_true, List.all_eq_true] at hΓ
  unfold fold at h
  split at h
  · cases h
    exact hterm
  · simp only [Script.fold, Script.bindingTypes, Outcome.bind_eq_ok, Outcome.pure_eq_ok] at h
    obtain ⟨types, htypes, rfl⟩ := h
    have hbare : Γ.withoutNamed.Regular := ⟨⟨hregular.vars, hregular.aliases⟩, hregular.unsigned⟩
    exact Script.distinct_wrap hΓ.2 (Script.distinct_of_typesOf hbare hΓ.2 htypes) hterm

theorem typeOf_eq_ok {settings : Settings} {Γ : Context} {term : Term} {T : Ty} :
    (typeOf settings Γ term).outcome = .ok T ↔ ∃ folded, fold settings Γ term = .ok folded ∧
      folded.infer settings.detectAliasCycles Γ.withoutNamed = .ok T := by
  unfold typeOf
  cases hfold : fold settings Γ term with
  | error fault => simp [outcome_announce]
  | ok folded => simp [outcome_announce]

theorem typeOf_withoutNamed {settings : Settings} {Γ : Context} {term : Term} {T : Ty} :
    (typeOf settings Γ.withoutNamed term).outcome = .ok T ↔
      term.infer settings.detectAliasCycles Γ.withoutNamed = .ok T := by
  rw [typeOf_eq_ok]
  constructor
  · intro h
    rcases h with ⟨folded, hfold, hT⟩
    cases hfold
    exact hT
  · intro hT
    exact ⟨term, rfl, hT⟩

/-- Soundness: running a term that has a type gives a value of that type, or is given up
at a term of that type which is no value. -/
theorem evaluate_sound {settings : Settings} {Γ : Context} {term : Term} {T : Ty}
    (hΓ : Γ.distinct = true) (hvars : Γ.vars = []) (hterm : term.distinct = true)
    (hT : (typeOf settings Γ term).outcome = .ok T) (fuel : Nat) :
    ∃ u T', (typeOf settings Γ.withoutNamed u).outcome = .ok T' ∧ T'.same T = true ∧
      (u.isValue = true ∧ (evaluate settings fuel Γ term).outcome = .ok u ∨
        u.isValue = false ∧ (∃ u', u.step = .ok u') ∧
          ((∃ limit, settings.maxSteps = some limit ∧
              (evaluate settings fuel Γ term).outcome = .error (.stepLimit limit u)) ∨
            settings.maxSteps = none ∧
              (evaluate settings fuel Γ term).outcome = .error (.unfinished u))) := by
  obtain ⟨folded, hfold, hinfer⟩ := typeOf_eq_ok.1 hT
  have hregular : Γ.Regular := Context.regular_of_distinct hΓ (by simp [hvars])
  have hbare : Γ.withoutNamed.Regular := ⟨⟨hregular.vars, hregular.aliases⟩, hregular.unsigned⟩
  have hdistinct := distinct_of_fold hΓ hregular hterm hfold
  have hstart : Term.Keeps settings.detectAliasCycles Γ.withoutNamed T folded :=
    ⟨hdistinct, Term.hasTy_of_infer hbare.toOrderly hdistinct hinfer⟩
  obtain ⟨u, hkeeps, hend⟩ := hstart.reduce hbare hvars settings.traceSteps
    (settings.maxSteps.getD fuel) 0 [.started folded]
  obtain ⟨T', hT', halike⟩ := hkeeps.hasTy
  refine ⟨u, T', typeOf_withoutNamed.2 hT', halike.same, ?_⟩
  simp only [evaluate, hfold, Term.evaluate]
  rcases hend with ⟨hvalue, hend⟩ | ⟨hvalue, hend⟩
  · rw [hend]
    exact .inl ⟨hvalue, rfl⟩
  · obtain ⟨u', hu', -⟩ := hkeeps.step hbare hvars hvalue
    rw [hend]
    refine .inr ⟨hvalue, ⟨u', hu'⟩, ?_⟩
    cases hmax : settings.maxSteps with
    | some limit => exact .inl ⟨limit, rfl, rfl⟩
    | none => exact .inr ⟨rfl, rfl⟩

theorem evaluate_sound_named :
    let settings : Settings := { maxSteps := some 2 }
    let Γ : Context := ⟨[], [("N", .int)],
      [("one", .succ .zero), ("next", .abs "x" (.base "N") (.succ (.var 0 "x")))]⟩
    let term : Term := .app (.var 0 "next") (.var 1 "one")
    ∃ u T', (typeOf settings Γ.withoutNamed u).outcome = .ok T' ∧ T'.same .int = true ∧
      (u.isValue = true ∧ (evaluate settings 0 Γ term).outcome = .ok u ∨
        u.isValue = false ∧ (∃ u', u.step = .ok u') ∧
          ((∃ limit, settings.maxSteps = some limit ∧
              (evaluate settings 0 Γ term).outcome = .error (.stepLimit limit u)) ∨
            settings.maxSteps = none ∧
              (evaluate settings 0 Γ term).outcome = .error (.unfinished u))) :=
  evaluate_sound (by decide) rfl (by decide) rfl 0

end Toplevel

end TypedLambda
