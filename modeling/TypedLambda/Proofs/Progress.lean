import TypedLambda.Proofs.TypedValues

/-!
# Progress

A typed term is a value, has a step, or waits for the value of a free variable. Nothing
else can stop it: patterns match, cases have a branch for every tag, and operands have the
form that their operator asks for.
-/

namespace TypedLambda.Term

/-- The term is a value, has a step, or stops at a variable of the context. -/
def Advances (Γ : Context) (t : Term) : Prop :=
  t.isValue = true ∨ (∃ t', t.step = .ok t') ∨
    ∃ index name, t.step = .error (.noRule (.var index name)) ∧ (Γ.lookup? index).isSome = true

namespace Advances

variable {Γ : Context}

theorem root {t u : Term} (ht : t.known = true) (h : Contracts t u) : Advances Γ t :=
  .inr (.inl ⟨u, (step_eq_ok_iff ht).2 (.root h)⟩)

theorem fill (F : Frame) {u : Term} (hF : F.ready = true) (hu : Advances Γ u)
    (hvalue : u.isValue = true → Advances Γ (F.fill u)) : Advances Γ (F.fill u) := by
  cases hv : u.isValue with
  | true => exact hvalue hv
  | false =>
      rcases hu with hv' | ⟨u', hu'⟩ | ⟨index, name, hu', hbound⟩
      · rw [hv] at hv'
        cases hv'
      · exact .inr (.inl ⟨F.fill u', by rw [step_fill hF hv, hu']; rfl⟩)
      · exact .inr (.inr ⟨index, name, by rw [step_fill hF hv, hu']; rfl, hbound⟩)

end Advances

variable {detect : Bool} {Γ : Context}

theorem advances_of_infer {t : Term} {T : Ty} (ht : t.distinct = true)
    (hT : t.infer detect Γ = .ok T) : Advances Γ t := by
  have hknown := known_of_infer ht hT
  induction t generalizing T with
  | unit | bool | zero | abs => exact .inl rfl
  | var index name =>
      obtain ⟨a, ha, -⟩ := infer_var_iff.1 hT
      exact .inr (.inr ⟨index, name, rfl, by rw [ha]; rfl⟩)
  | succ term ih =>
      have hint := (infer_succ_iff.1 hT).1
      refine .fill .succ rfl (ih ht hint hknown) fun hvalue => .inl ?_
      exact canonical hvalue hint
  | pred term ih =>
      have hint := (infer_pred_iff.1 hT).1
      apply Advances.fill .pred rfl (ih ht hint hknown)
      intro hvalue
      have hnumeral : term.isNumeral = true := canonical hvalue hint
      cases term with
      | zero => exact .root hknown .predZero
      | succ n => exact .root hknown (.predSucc hnumeral)
      | _ => cases hnumeral
  | isZero term ih =>
      have hint := (infer_isZero_iff.1 hT).1
      apply Advances.fill .isZero rfl (ih ht hint hknown)
      intro hvalue
      have hnumeral : term.isNumeral = true := canonical hvalue hint
      cases term with
      | zero => exact .root hknown .isZeroZero
      | succ n => exact .root hknown (.isZeroSucc hnumeral)
      | _ => cases hnumeral
  | app f a ihf iha =>
      have hparts := hknown
      simp only [distinct, known, Bool.and_eq_true] at ht hparts
      obtain ⟨p, q, hf, ha, -⟩ := infer_app_iff.1 hT
      apply Advances.fill (.function a) rfl (ihf ht.1 hf hparts.1)
      intro hfvalue
      apply Advances.fill (.argument f) hfvalue (iha ht.2 ha hparts.2)
      intro havalue
      obtain ⟨name, ty, body, rfl⟩ : ∃ name ty body, f = .abs name ty body := canonical hfvalue hf
      exact .root hknown (.beta havalue)
  | ite condition yes no ihc _ _ =>
      have hparts := hknown
      simp only [distinct, known, Bool.and_eq_true] at ht hparts
      have hbool := (infer_ite_iff.1 hT).1
      apply Advances.fill (.condition yes no) rfl (ihc ht.1.1 hbool hparts.1.1)
      intro hvalue
      obtain ⟨value, rfl⟩ : ∃ value, condition = .bool value := canonical hvalue hbool
      cases value with
      | true => exact .root hknown .yes
      | false => exact .root hknown .no
  | tuple fields ih =>
      -- the first field that is no value decides
      rcases exists_first_nonvalue fields with hall | ⟨before, label, u, after, rfl, hbefore, hu⟩
      · exact .inl hall
      · simp only [distinct, known, Bool.and_eq_true, distinctFields_iff, knownFields_iff]
          at ht hknown
        have hmem : (label, u) ∈ before ++ (label, u) :: after := by simp
        obtain ⟨types, hfields, -⟩ := infer_tuple_iff.1 hT
        obtain ⟨U, hU⟩ := hfields.exists_of_mem hmem
        refine .fill (.field before label after) hbefore
          (ih _ hmem (ht.2 _ hmem) hU (hknown _ hmem)) fun hvalue => ?_
        rw [hu] at hvalue
        cases hvalue
  | letIn pattern value body ihv _ =>
      have hparts := hknown
      simp only [distinct, known, Bool.and_eq_true] at ht hparts
      obtain ⟨a, types, ha, hbind, -⟩ := infer_letIn_iff.1 hT
      apply Advances.fill (.value pattern body) rfl (ihv ht.1.2 ha hparts.1.2)
      intro hvalue
      obtain ⟨bindings, hbindings, -⟩ := destructure_typed hvalue ha hbind
      exact .root hknown (.letIn hvalue hbindings)
  | tag label payload ty ih =>
      simp only [distinct, Bool.and_eq_true] at ht
      obtain ⟨variants, a, p, -, -, hp, -, -⟩ := infer_tag_iff.1 hT
      exact .fill (.payload label ty) rfl (ih ht.1 hp hknown) .inl
  | case scrutinee branches ihs _ =>
      have hparts := hknown
      simp only [distinct, known, Bool.and_eq_true] at ht hparts
      obtain ⟨variants, hs, -, -, hall⟩ := infer_case_inv hT
      apply Advances.fill (.scrutinee branches) rfl (ihs ht.1.1 hs hparts.1)
      intro hvalue
      obtain ⟨label, payload, ty, rfl⟩ : ∃ label payload ty, scrutinee = .tag label payload ty :=
        canonical hvalue hs
      obtain ⟨_, a, p, -, hlabel, -, -, heq⟩ := infer_tag_iff.1 hs
      cases heq
      obtain ⟨branch, U, hbranch, -, -⟩ := hall hlabel
      exact .root hknown (.case hvalue hbranch)
  | fix term ih =>
      obtain ⟨p, hf, -⟩ := infer_fix_iff.1 hT
      apply Advances.fill .fix rfl (ih ht hf hknown)
      intro hvalue
      obtain ⟨name, ty, body, rfl⟩ : ∃ name ty body, term = .abs name ty body :=
        canonical hvalue hf
      exact .root hknown .fix
  | foreign => exact absurd hT infer_foreign_ne

theorem Advances.closed {t : Term} (h : Advances Γ t) (hΓ : Γ.vars = []) :
    t.isValue = true ∨ ∃ t', t.step = .ok t' := by
  rcases h with hvalue | hstep | ⟨index, name, -, hbound⟩
  · exact .inl hvalue
  · exact .inr hstep
  · rw [Context.lookup?, hΓ] at hbound
    cases hbound

/-- Progress: a typed term is a value, has a step, or stops at a variable that the context
binds. Without such variables it is a value or has a step. -/
theorem progress {t : Term} {T : Ty} (ht : t.distinct = true)
    (hT : t.infer detect Γ = .ok T) :
    (t.isValue = true ∨ (∃ t', t.step = .ok t') ∨ ∃ index name,
      t.step = .error (.noRule (.var index name)) ∧ (Γ.lookup? index).isSome = true) ∧
    (Γ.vars = [] → t.isValue = true ∨ ∃ t', t.step = .ok t') :=
  ⟨advances_of_infer ht hT, (advances_of_infer ht hT).closed⟩

theorem progress_open_case :
    let t : Term := .case (.tag "l" (.var (-1) "x") (.base "S"))
      [("r", ⟨"r", "y", .zero⟩), ("l", ⟨"other", "y", .succ (.var 0 "y")⟩)]
    let Γ : Context := ⟨[(-1, .int)], [("S", .sum [("l", .int), ("r", .unit)])], []⟩
    (t.isValue = true ∨ (∃ t', t.step = .ok t') ∨ ∃ index name,
      t.step = .error (.noRule (.var index name)) ∧ (Γ.lookup? index).isSome = true) ∧
    (Γ.vars = [] → t.isValue = true ∨ ∃ t', t.step = .ok t') :=
  @progress true _ _ .int (by decide) rfl

end TypedLambda.Term
