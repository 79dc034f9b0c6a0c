import TypedLambda.Proofs.Iteration

/-!
# Runs side by side

Two outcomes are parallel if both are results, related in a given way, or both are faults of
one kind. A relation is in lockstep if related terms are values together and have parallel
steps. Then their runs are parallel too: `Term.Lockstep.stepN` for a number of steps, and
`Term.Lockstep.evaluate` for evaluation, which ends in the same way after the same number of
steps whatever the budget is.
-/

namespace TypedLambda

def Fault.kind (fault : Fault) : Nat := fault.ctorIdx

/-! ## Outcomes -/

namespace Outcome

/-- Both outcomes are results, which are related, or both are faults of one kind. -/
inductive Parallel {α β : Type} (R : α → β → Prop) : Except Fault α → Except Fault β → Prop
  | ok {a : α} {b : β} : R a b → Parallel R (.ok a) (.ok b)
  | error {f g : Fault} : f.kind = g.kind → Parallel R (.error f) (.error g)

namespace Parallel

variable {α β γ δ : Type} {R : α → β → Prop} {x : Except Fault α} {y : Except Fault β}

theorem refl {R : α → α → Prop} (hR : ∀ a, R a a) (x : Except Fault α) : Parallel R x x := by
  cases x with
  | ok a => exact .ok (hR a)
  | error fault => exact .error rfl

theorem ok_or_error (h : Parallel R x y) :
    (∃ a b, x = .ok a ∧ y = .ok b ∧ R a b) ∨
      ∃ f g, x = .error f ∧ y = .error g ∧ f.kind = g.kind := by
  cases h with
  | ok hab => exact .inl ⟨_, _, rfl, rfl, hab⟩
  | error hkind => exact .inr ⟨_, _, rfl, rfl, hkind⟩

theorem bind {S : γ → δ → Prop} {f : α → Except Fault γ} {g : β → Except Fault δ}
    (h : Parallel R x y) (hfg : ∀ {a b}, R a b → Parallel S (f a) (g b)) :
    Parallel S (x >>= f) (y >>= g) := by
  cases h with
  | ok hab => exact hfg hab
  | error hkind => exact .error hkind

theorem map {S : γ → δ → Prop} {f : α → γ} {g : β → δ} (h : Parallel R x y)
    (hfg : ∀ {a b}, R a b → S (f a) (g b)) : Parallel S (x.map f) (y.map g) := by
  cases h with
  | ok hab => exact .ok (hfg hab)
  | error hkind => exact .error hkind

theorem blame (h : Parallel R x y) (wrap : TypeError → TypeError) :
    Parallel R (Fault.blame wrap x) y := by
  cases h with
  | ok hab => exact .ok hab
  | @error f g hkind => cases f <;> exact .error hkind

theorem imp {S : α → β → Prop} (h : Parallel R x y)
    (himp : ∀ {a b}, x = .ok a → R a b → S a b) : Parallel S x y := by
  cases h with
  | ok hab => exact .ok (himp rfl hab)
  | error hkind => exact .error hkind

theorem meet {S : γ → β → Prop} {T : α → γ → Prop} {z : Except Fault γ} (h : Parallel R x y)
    (h' : Parallel S z y) (himp : ∀ {a b c}, R a b → S c b → T a c) : Parallel T x z := by
  cases h with
  | ok hab =>
      cases h' with
      | ok hcb => exact .ok (himp hab hcb)
  | error hkind =>
      cases h' with
      | error hkind' => exact .error (hkind.trans hkind'.symm)

theorem eq_ok_iff {y : Except Fault α} (h : Parallel Eq x y) {a : α} : x = .ok a ↔ y = .ok a := by
  cases h with
  | ok hab => rw [hab]
  | error => exact iff_of_false nofun nofun

end Parallel

end Outcome

/-! ## Endings -/

namespace Ending

inductive Parallel (R : Term → Term → Prop) : Ending → Ending → Prop
  | value {v w : Term} : R v w → Parallel R (.value v) (.value w)
  | stuck {t u : Term} : R t u → Parallel R (.stuck t) (.stuck u)
  | exhausted {t u : Term} : R t u → Parallel R (.exhausted t) (.exhausted u)
  | failed {f g : Fault} : f.kind = g.kind → Parallel R (.failed f) (.failed g)

def outcome (limit : Option Nat) : Ending → Except Fault Term
  | .value v => .ok v
  | .stuck t => .error (.stuck t)
  | .exhausted t =>
      match limit with
      | some n => .error (.stepLimit n t)
      | none => .error (.unfinished t)
  | .failed fault => .error fault

theorem Parallel.outcome {R : Term → Term → Prop} {e e' : Ending} (h : e.Parallel R e')
    (limit : Option Nat) : Outcome.Parallel R (e.outcome limit) (e'.outcome limit) := by
  cases h with
  | value hR => exact .ok hR
  | stuck => exact .error rfl
  | exhausted => cases limit <;> exact .error rfl
  | failed hkind => exact .error hkind

/-- The ending at a term whose step fails: stuck for want of a rule, and failed otherwise. -/
def ofFault (t : Term) : Fault → Ending
  | .noRule _ => .stuck t
  | fault => .failed fault

theorem Parallel.ofFault {R : Term → Term → Prop} {t u : Term} (htu : R t u) {f g : Fault}
    (hkind : f.kind = g.kind) : Parallel R (ofFault t f) (ofFault u g) := by
  cases f with
  | noRule w =>
      cases g with
      | noRule => exact .stuck htu
      | _ => cases hkind
  | _ =>
      cases g with
      | noRule => cases hkind
      | _ => exact .failed hkind

end Ending

namespace Term

/-- A run of the term comes to an end within the budget, after `n` steps: at a value, at a term
whose step fails, or because the budget is spent. -/
inductive Ends (t : Term) (budget : Nat) : Nat → Ending → Prop
  | value {n : Nat} {v : Term} : n ≤ budget → t.stepN n = .ok v → v.isValue = true →
      Ends t budget n (.value v)
  | fault {n : Nat} {u : Term} {f : Fault} : n < budget → t.stepN n = .ok u →
      u.isValue = false → u.step = .error f → Ends t budget n (.ofFault u f)
  | exhausted {u : Term} : t.stepN budget = .ok u → u.isValue = false →
      Ends t budget budget (.exhausted u)

theorem Ends.of_step {t u : Term} {budget n : Nat} {e : Ending} (h : t.step = .ok u)
    (hends : u.Ends budget n e) : t.Ends (budget + 1) (n + 1) e := by
  have hsteps : ∀ {m w}, u.stepN m = .ok w → t.stepN (m + 1) = .ok w :=
    fun hw => stepN_succ_eq_ok.2 ⟨u, h, hw⟩
  cases hends with
  | value hle hv hvalue => exact .value (by omega) (hsteps hv) hvalue
  | fault hlt hu hvalue hstep => exact .fault (by omega) (hsteps hu) hvalue hstep
  | exhausted hu hvalue => exact .exhausted (hsteps hu) hvalue

structure Concludes (t : Term) (settings : Settings) (fuel n : Nat) (e : Ending) : Prop where
  ends : t.Ends (settings.maxSteps.getD fuel) n e
  outcome : (t.evaluate settings fuel).outcome = e.outcome settings.maxSteps

section
variable {t : Term} {trace : Bool} {budget taken : Nat} {events : List Event}

theorem reduce_of_isValue (h : t.isValue = true) :
    t.reduce trace budget taken events = (.value t, .finished taken t :: events) := by
  cases budget <;> simp [reduce, h]

theorem reduce_zero (h : t.isValue = false) :
    t.reduce trace 0 taken events = (.exhausted t, events) := by
  simp [reduce, h]

theorem reduce_of_error (h : t.isValue = false) {f : Fault} (hf : t.step = .error f) :
    t.reduce trace (budget + 1) taken events = (.ofFault t f, events) := by
  simp only [reduce, h, Bool.false_eq_true, if_false, hf]
  cases f <;> rfl

theorem evaluate_outcome (t : Term) (settings : Settings) (fuel : Nat) :
    (t.evaluate settings fuel).outcome =
      (t.reduce settings.traceSteps (settings.maxSteps.getD fuel) 0 [.started t]).1.outcome
        settings.maxSteps := rfl

end

/-! ## Lockstep -/

/-- Related terms are values together, and their steps lead to related terms or to faults of
one kind. -/
structure Lockstep (R : Term → Term → Prop) : Prop where
  isValue : ∀ {t u}, R t u → t.isValue = u.isValue
  step : ∀ {t u}, R t u → Outcome.Parallel R t.step u.step

namespace Lockstep

variable {R : Term → Term → Prop} {t u : Term}

/-- What one step keeps, every number of steps keeps. -/
theorem stepN (h : Lockstep R) (htu : R t u) (n : Nat) :
    Outcome.Parallel R (t.stepN n) (u.stepN n) := by
  induction n generalizing t u with
  | zero => exact .ok htu
  | succ n ih => exact (h.step htu).bind ih

theorem reduce (h : Lockstep R) (htu : R t u) (trace : Bool) (budget taken : Nat)
    (events events' : List Event) :
    ∃ n, t.Ends budget n (t.reduce trace budget taken events).1 ∧
      u.Ends budget n (u.reduce trace budget taken events').1 ∧
      Ending.Parallel R (t.reduce trace budget taken events).1
        (u.reduce trace budget taken events').1 := by
  have hsame := h.isValue htu
  induction budget generalizing t u taken events events' with
  | zero =>
      refine ⟨0, ?_⟩
      cases ht : t.isValue with
      | true =>
          have hu : u.isValue = true := hsame ▸ ht
          rw [reduce_of_isValue ht, reduce_of_isValue hu]
          exact ⟨.value (Nat.le_refl 0) rfl ht, .value (Nat.le_refl 0) rfl hu, .value htu⟩
      | false =>
          have hu : u.isValue = false := hsame ▸ ht
          rw [reduce_zero ht, reduce_zero hu]
          exact ⟨.exhausted rfl ht, .exhausted rfl hu, .exhausted htu⟩
  | succ budget ih =>
      cases ht : t.isValue with
      | true =>
          have hu : u.isValue = true := hsame ▸ ht
          rw [reduce_of_isValue ht, reduce_of_isValue hu]
          exact ⟨0, .value (Nat.zero_le _) rfl ht, .value (Nat.zero_le _) rfl hu, .value htu⟩
      | false =>
          have hu : u.isValue = false := hsame ▸ ht
          rcases (h.step htu).ok_or_error with ⟨t', u', ht', hu', hnext⟩ | ⟨f, g, hf, hg, hkind⟩
          · obtain ⟨n, hends, hends', hparallel⟩ := ih hnext (taken + 1) _ _ (h.isValue hnext)
            simp only [Term.reduce, ht, hu, ht', hu', Bool.false_eq_true, if_false]
            exact ⟨n + 1, hends.of_step ht', hends'.of_step hu', hparallel⟩
          · rw [reduce_of_error ht hf, reduce_of_error hu hg]
            exact ⟨0, .fault (Nat.succ_pos _) rfl ht hf, .fault (Nat.succ_pos _) rfl hu hg,
              .ofFault htu hkind⟩

theorem evaluate (h : Lockstep R) (htu : R t u) (settings : Settings) (fuel : Nat) :
    ∃ n e e', t.Concludes settings fuel n e ∧ u.Concludes settings fuel n e' ∧
      e.Parallel R e' := by
  obtain ⟨n, hends, hends', hparallel⟩ := h.reduce htu settings.traceSteps
    (settings.maxSteps.getD fuel) 0 [.started t] [.started u]
  exact ⟨n, _, _, ⟨hends, evaluate_outcome t settings fuel⟩,
    ⟨hends', evaluate_outcome u settings fuel⟩, hparallel⟩

end Lockstep

end Term

end TypedLambda
