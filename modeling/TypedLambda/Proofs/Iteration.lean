import TypedLambda.Evaluation.Run
import TypedLambda.Proofs.Reduction
import TypedLambda.Proofs.Shuffles

/-!
# Counted steps

`Term.stepN` takes a number of steps at once. Values have no step, so a term that is reached
by steps has no value before it, and the number of steps to a value is determined. A run with
a budget ends in a value exactly if that number is within the budget.
-/

namespace TypedLambda.Term

def stepN : Nat → Term → Except Fault Term
  | 0, term => .ok term
  | n + 1, term => do (← term.step).stepN n

variable {t u v : Term} {n m : Nat}

theorem stepN_succ_eq_ok : t.stepN (n + 1) = .ok v ↔ ∃ u, t.step = .ok u ∧ u.stepN n = .ok v :=
  Outcome.bind_eq_ok

theorem stepN_add_eq_ok :
    t.stepN (n + m) = .ok v ↔ ∃ u, t.stepN n = .ok u ∧ u.stepN m = .ok v := by
  induction n generalizing t with
  | zero =>
      rw [Nat.zero_add]
      constructor
      · intro h
        exact ⟨t, rfl, h⟩
      · intro h
        obtain ⟨u, hu, hv⟩ := h
        cases hu
        exact hv
  | succ n ih =>
      rw [Nat.succ_add, stepN_succ_eq_ok]
      constructor
      · intro h
        obtain ⟨s, hs, hv⟩ := h
        obtain ⟨u, hu, hv⟩ := ih.1 hv
        exact ⟨u, stepN_succ_eq_ok.2 ⟨s, hs, hu⟩, hv⟩
      · intro h
        obtain ⟨u, hu, hv⟩ := h
        obtain ⟨s, hs, hu⟩ := stepN_succ_eq_ok.1 hu
        exact ⟨s, hs, ih.2 ⟨u, hu, hv⟩⟩

theorem stepN_trans (h₁ : t.stepN n = .ok u) (h₂ : u.stepN m = .ok v) :
    t.stepN (n + m) = .ok v :=
  stepN_add_eq_ok.2 ⟨u, h₁, h₂⟩

theorem step_of_stepN_lt (h : t.stepN n = .ok v) (hlt : m < n) (hu : t.stepN m = .ok u) :
    ∃ next, u.step = .ok next := by
  have hsplit : n = m + ((n - m - 1) + 1) := by omega
  rw [hsplit] at h
  obtain ⟨s, hs, hrest⟩ := stepN_add_eq_ok.1 h
  obtain rfl : s = u := Except.ok.inj (hs.symm.trans hu)
  obtain ⟨next, hnext, -⟩ := stepN_succ_eq_ok.1 hrest
  exact ⟨next, hnext⟩

theorem isValue_of_stepN_lt (h : t.stepN n = .ok v) (hlt : m < n) (hu : t.stepN m = .ok u) :
    u.isValue = false := by
  obtain ⟨_, hnext⟩ := step_of_stepN_lt h hlt hu
  exact isValue_of_step hnext

theorem stepN_unique_of_error {f g : Fault} (hu : u.step = .error f) (hv : v.step = .error g)
    (h₁ : t.stepN n = .ok u) (h₂ : t.stepN m = .ok v) : n = m ∧ u = v := by
  have heq : n = m := by
    by_contra hne
    rcases Nat.lt_or_gt_of_ne hne with hlt | hgt
    · obtain ⟨next, hnext⟩ := step_of_stepN_lt h₂ hlt h₁
      rw [hu] at hnext
      cases hnext
    · obtain ⟨next, hnext⟩ := step_of_stepN_lt h₁ hgt h₂
      rw [hv] at hnext
      cases hnext
  subst heq
  exact ⟨rfl, Except.ok.inj (h₁.symm.trans h₂)⟩

/-- Two values that a term reaches are one value, reached by the same number of steps. -/
theorem stepN_unique (hv : v.isValue = true) (hu : u.isValue = true) (h₁ : t.stepN n = .ok v)
    (h₂ : t.stepN m = .ok u) : n = m ∧ v = u := by
  obtain ⟨_, hv'⟩ := step_of_isValue hv
  obtain ⟨_, hu'⟩ := step_of_isValue hu
  exact stepN_unique_of_error hv' hu' h₁ h₂

/-! ## Steps inside of a frame -/

theorem stepN_fill {F : Frame} (hF : F.ready = true) (h : t.stepN n = .ok u) :
    (F.fill t).stepN n = .ok (F.fill u) := by
  induction n generalizing t with
  | zero =>
      cases h
      rfl
  | succ n ih =>
      obtain ⟨s, hs, hrest⟩ := stepN_succ_eq_ok.1 h
      have hframe : (F.fill t).step = .ok (F.fill s) := by
        rw [step_fill hF (isValue_of_step hs), hs]
        rfl
      exact stepN_succ_eq_ok.2 ⟨_, hframe, ih hrest⟩

/-- The fields of a tuple run one after another, from the first to the last. -/
theorem stepN_tuple {fields : List (String × Term)} {results : List (String × Term × Nat)}
    (h : Table.InStep (fun _ t r => t.stepN r.2 = .ok r.1 ∧ r.1.isValue = true) fields results)
    {before : List (String × Term)} (hbefore : allValues before = true) :
    (tuple (before ++ fields)).stepN (Table.total Prod.snd results) =
      .ok (tuple (before ++ results.map fun r => (r.1, r.2.1))) := by
  induction h generalizing before with
  | nil => rfl
  | @cons label t r fields results hhead _ ih =>
      have hmore : allValues (before ++ [(label, r.1)]) = true := by
        rw [allValues_iff] at hbefore ⊢
        rw [List.forall_mem_append]
        exact ⟨hbefore, by simpa using hhead.2⟩
      have hrest := ih hmore
      rw [List.append_assoc, List.append_assoc] at hrest
      have hfirst : (Frame.fill (.field before label fields) t).stepN r.2 =
          .ok (Frame.fill (.field before label fields) r.1) := stepN_fill hbefore hhead.1
      exact stepN_trans hfirst hrest

/-! ## Runs -/

theorem reaches_of_isValue (ht : t.isValue = true) {budget : Nat} :
    (v.isValue = true ∧ ∃ n ≤ budget, t.stepN n = .ok v) ↔ t = v := by
  constructor
  · intro h
    obtain ⟨hv, n, -, hn⟩ := h
    exact (stepN_unique (n := 0) ht hv rfl hn).2
  · intro h
    subst h
    exact ⟨ht, 0, Nat.zero_le budget, rfl⟩

theorem reaches_of_not_isValue (ht : t.isValue = false) {budget : Nat} :
    (v.isValue = true ∧ ∃ n ≤ budget + 1, t.stepN n = .ok v) ↔
      ∃ u, t.step = .ok u ∧ v.isValue = true ∧ ∃ n ≤ budget, u.stepN n = .ok v := by
  constructor
  · intro h
    obtain ⟨hv, n, hle, hn⟩ := h
    cases n with
    | zero =>
        cases hn
        rw [ht] at hv
        cases hv
    | succ n =>
        obtain ⟨u, hu, hrest⟩ := stepN_succ_eq_ok.1 hn
        exact ⟨u, hu, hv, n, by omega, hrest⟩
  · intro h
    obtain ⟨u, hu, hv, n, hle, hn⟩ := h
    exact ⟨hv, n + 1, by omega, stepN_succ_eq_ok.2 ⟨u, hu, hn⟩⟩

/-- A run ends in the values that are reached within its budget. -/
theorem reduce_eq_value_iff {trace : Bool} {budget taken : Nat} {events : List Event} :
    (t.reduce trace budget taken events).1 = .value v ↔
      v.isValue = true ∧ ∃ n ≤ budget, t.stepN n = .ok v := by
  induction budget generalizing t taken events with
  | zero =>
      cases ht : t.isValue with
      | true =>
          rw [reaches_of_isValue ht]
          simp [reduce, ht]
      | false =>
          simp only [reduce, ht, Nat.le_zero_eq, exists_eq_left, stepN]
          simp only [Bool.false_eq_true, if_false, reduceCtorEq, Except.ok.injEq, false_iff,
            not_and]
          rintro hv rfl
          rw [ht] at hv
          cases hv
  | succ budget ih =>
      cases ht : t.isValue with
      | true =>
          rw [reaches_of_isValue ht]
          simp [reduce, ht]
      | false =>
          rw [reaches_of_not_isValue ht, reduce, ht]
          cases hstep : t.step with
          | ok next =>
              simp only [Bool.false_eq_true, if_false, Except.ok.injEq, exists_eq_left']
              exact ih
          | error fault => cases fault <;> simp

theorem evaluate_eq_ok_iff {settings : Settings} {fuel : Nat} :
    (t.evaluate settings fuel).outcome = .ok v ↔
      v.isValue = true ∧ ∃ n ≤ settings.maxSteps.getD fuel, t.stepN n = .ok v := by
  rw [← @reduce_eq_value_iff t v settings.traceSteps _ 0 [.started t]]
  simp only [evaluate]
  cases (t.reduce settings.traceSteps (settings.maxSteps.getD fuel) 0 [.started t]).1 with
  | value value => simp
  | exhausted term => cases settings.maxSteps <;> simp
  | _ => simp

end TypedLambda.Term
