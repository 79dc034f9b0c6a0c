import TypedLambda.Proofs.Lockstep

/-!
# Evaluation as bounded iteration

Evaluation repeats single steps until it meets a value, until its limit is reached or until a step
fails, in this order of precedence. `Term.Stops` says so in terms of `Term.stepN` alone, and
`Term.completes_iff` ties it to the loop, with every event that the loop announces.

A fault of a step ends evaluation. Steps have few kinds of them (`Term.steplike_step`), none of
which is a fault that evaluation raises by itself. So the fault tells where evaluation stopped.
-/

namespace TypedLambda

/-! ## The faults of a step -/

def Fault.ofStep : Fault → Bool
  | .noRule _ => true
  | .noMatch _ _ => true
  | .missingLabel _ => true
  | .foreignTerm => true
  | .unsupported => true
  | _ => false

def Fault.ofMatch : Fault → Bool
  | .noMatch _ _ => true
  | .missingLabel _ => true
  | _ => false

theorem Fault.ofStep_of_ofMatch {fault : Fault} (h : fault.ofMatch = true) :
    fault.ofStep = true := by
  cases fault with
  | noMatch | missingLabel => rfl
  | _ => cases h

namespace Outcome

/-- The outcome is a result or a fault of a step. -/
def Steplike {α : Type} (x : Except Fault α) : Prop :=
  ∀ fault, x = .error fault → fault.ofStep = true

namespace Steplike

variable {α β : Type} {x : Except Fault α}

theorem ok (a : α) : Steplike (.ok a) := nofun

theorem error {fault : Fault} (h : fault.ofStep = true) :
    Steplike (.error fault : Except Fault α) := by
  rintro _ ⟨⟩
  exact h

theorem bind {f : α → Except Fault β} (h : Steplike x) (hf : ∀ a, Steplike (f a)) :
    Steplike (x >>= f) := by
  cases x with
  | ok a => exact hf a
  | error fault => exact .error (h fault rfl)

theorem map {f : α → β} (h : Steplike x) : Steplike (x.map f) := by
  cases x with
  | ok a => exact .ok (f a)
  | error fault => exact .error (h fault rfl)

end Steplike

end Outcome

open Outcome (Steplike)

theorem Pattern.steplike_arity (pattern : Pattern) : Steplike pattern.arity := by
  unfold arity
  split
  · exact .ok _
  · exact .error rfl

theorem Pattern.ofMatch_of_destructure {pattern : Pattern} {t : Term} {fault : Fault}
    (h : pattern.destructure t = .error fault) : fault.ofMatch = true := by
  induction pattern generalizing t with
  | var name => cases h
  | record fields ih =>
      cases t with
      | tuple terms =>
          rw [destructure] at h
          induction fields with
          | nil => cases h
          | cons entry rest ihrest =>
              rw [List.forall_mem_cons] at ih
              rw [destructureFields] at h
              cases hterm : terms.lookup entry.1 with
              | none =>
                  rw [hterm] at h
                  cases h
                  rfl
              | some term =>
                  rw [hterm] at h
                  rcases Outcome.bind_eq_error.1 h with hfirst | ⟨_, -, hrest⟩
                  · exact ih.1 hfirst
                  · exact ihrest ih.2 (Outcome.bind_pure_eq_error.1 hrest)
      | _ =>
          cases h
          rfl
  | foreign => cases t <;> cases h <;> rfl

theorem Pattern.steplike_destructure (pattern : Pattern) (t : Term) :
    Steplike (pattern.destructure t) :=
  fun _ h => Fault.ofStep_of_ofMatch (ofMatch_of_destructure h)

namespace Term

theorem steplike_traverse {act : Nat → Int → String → Except Fault Term}
    (hact : ∀ k index name, Steplike (act k index name)) (t : Term) (k : Nat) :
    Steplike (t.traverse act k) := by
  have hfields : ∀ {fields : List (String × Term)} {k : Nat},
      (∀ entry ∈ fields, ∀ k, Steplike (entry.2.traverse act k)) →
      Steplike (traverseFields act k fields) := by
    intro fields k ih
    induction fields with
    | nil => exact .ok _
    | cons entry rest ihrest =>
        rw [List.forall_mem_cons] at ih
        exact (ih.1 k).bind fun _ => (ihrest ih.2).bind fun _ => .ok _
  have hbranches : ∀ {branches : List (String × Branch Term)} {k : Nat},
      (∀ entry ∈ branches, ∀ k, Steplike (entry.2.body.traverse act k)) →
      Steplike (traverseBranches act k branches) := by
    intro branches k ih
    induction branches with
    | nil => exact .ok _
    | cons entry rest ihrest =>
        rw [List.forall_mem_cons] at ih
        exact (ih.1 k).bind fun _ => (ihrest ih.2).bind fun _ => .ok _
  induction t generalizing k with
  | unit | bool | zero => exact .ok _
  | succ term ih | pred term ih | isZero term ih | fix term ih => exact (ih k).bind fun _ => .ok _
  | tag label payload ty ih => exact (ih k).bind fun _ => .ok _
  | var index name => exact hact k index name
  | abs name ty body ih => exact (ih (k + 1)).bind fun _ => .ok _
  | app f a ihf iha => exact (ihf k).bind fun _ => (iha k).bind fun _ => .ok _
  | ite condition yes no ihc ihy ihn =>
      exact (ihc k).bind fun _ => (ihy k).bind fun _ => (ihn k).bind fun _ => .ok _
  | tuple fields ih => exact (hfields ih).bind fun _ => .ok _
  | letIn pattern value body ihv ihb =>
      refine (ihv k).bind fun _ => pattern.steplike_arity.bind fun n => ?_
      exact (ihb (k + n)).bind fun _ => .ok _
  | case scrutinee branches ihs ihb =>
      exact (ihs k).bind fun _ => (hbranches ihb).bind fun _ => .ok _
  | foreign => exact .error rfl

theorem steplike_shift (t : Term) (d cutoff : Int) : Steplike (t.shift d cutoff) := by
  unfold shift
  split
  · exact .ok t
  · exact steplike_traverse (fun _ _ _ => .ok _) t 0

theorem steplike_substTop (s body : Term) : Steplike (substTop s body) := by
  refine (steplike_shift s 1 0).bind fun s => ?_
  have hsubstitute : Steplike (substitute 0 s body 0) := by
    refine steplike_traverse (fun k index name => ?_) body 0
    split
    · exact steplike_shift s _ 0
    · exact .ok _
  exact hsubstitute.bind fun body => steplike_shift body (-1) 0

theorem steplike_instantiate (terms : List Term) (body : Term) :
    Steplike (instantiate terms body) := by
  induction terms generalizing body with
  | nil => exact .ok body
  | cons s rest ih =>
      exact (steplike_shift s rest.length 0).bind fun s => (steplike_substTop s body).bind ih

theorem steplike_of_redex {t : Term} {result : Except Fault Term} (h : Redex t result) :
    Steplike result := by
  cases h with
  | beta | case | fix => exact steplike_substTop _ _
  | yes | no | predZero | predSucc | isZeroZero | isZeroSucc => exact .ok _
  | @letIn pattern value body =>
      exact (pattern.steplike_destructure value).bind fun _ => steplike_instantiate _ body
  | noBranch => exact .error rfl

theorem steplike_step (t : Term) : Steplike t.step := by
  refine step_outcome (motive := fun _ result => Steplike result) ?_ ?_ ?_ t
  · intro t result hcontract
    exact steplike_of_redex (redex_of_contract? hcontract)
  · intro F u _ hpart
    exact hpart.map
  · intro t
    exact .error rfl

/-! ## Events -/

/-- What a run announces before it ends after `k` steps: that it starts, and, if steps are traced,
the term after each of them. -/
def log (t : Term) (trace : Bool) (k : Nat) : List Event :=
  .started t ::
    if trace then (List.range' 1 k).filterMap fun n => (t.stepN n).toOption.map (.stepped n)
    else []

def stepEvents (t : Term) (taken k : Nat) : List Event :=
  (List.range' 1 k).filterMap fun n => (t.stepN n).toOption.map (.stepped (taken + n))

variable {t u v : Term} {k : Nat}

theorem log_eq (trace : Bool) :
    t.log trace k = .started t :: if trace then t.stepEvents 0 k else [] := by
  simp only [log, stepEvents, Nat.zero_add]

theorem stepEvents_succ (h : t.step = .ok u) (taken k : Nat) :
    t.stepEvents taken (k + 1) = .stepped (taken + 1) u :: u.stepEvents (taken + 1) k := by
  have hsteps : ∀ n, t.stepN (1 + n) = u.stepN n := by
    intro n
    rw [Nat.add_comm, stepN, h]
    rfl
  have hrange : List.range' 1 (k + 1) = 1 :: (List.range' 1 k).map (1 + ·) := by
    rw [List.range'_succ, List.map_add_range']
  simp only [stepEvents, hrange, List.filterMap_cons, List.filterMap_map, Function.comp_def, hsteps,
    Nat.add_assoc]
  rw [show t.stepN 1 = .ok u from hsteps 0]
  rfl

/-- A run whose budget allows for `k` steps and more goes on from the term after `k` steps. -/
theorem reduce_add (h : t.stepN k = .ok u) (trace : Bool) (budget taken : Nat)
    (events : List Event) :
    t.reduce trace (k + budget) taken events =
      u.reduce trace budget (taken + k)
        ((if trace then t.stepEvents taken k else []).reverse ++ events) := by
  induction k generalizing t taken events with
  | zero =>
      cases h
      simp [stepEvents]
  | succ k ih =>
      obtain ⟨s, hs, hrest⟩ := stepN_succ_eq_ok.1 h
      have hbudget : k + 1 + budget = (k + budget) + 1 := by omega
      have htaken : taken + (k + 1) = (taken + 1) + k := by omega
      rw [hbudget, htaken, stepEvents_succ hs]
      simp only [reduce, isValue_of_step hs, hs, Bool.false_eq_true, if_false]
      rw [ih hrest]
      cases trace <;> simp

def closing (k : Nat) : Except Fault Term → List Event
  | .ok v => [.finished k v]
  | .error _ => []

theorem evaluate_of_ends {settings : Settings} {fuel : Nat} {e : Ending}
    (h : t.Ends (settings.maxSteps.getD fuel) k e) :
    t.evaluate settings fuel = ⟨e.outcome settings.maxSteps,
      t.log settings.traceSteps k ++ closing k (e.outcome settings.maxSteps)⟩ := by
  suffices hreduce : t.reduce settings.traceSteps (settings.maxSteps.getD fuel) 0 [.started t] =
      (e, (t.log settings.traceSteps k ++ closing k (e.outcome settings.maxSteps)).reverse) by
    show Logged.mk (Ending.outcome settings.maxSteps (Prod.fst _)) (List.reverse (Prod.snd _)) = _
    rw [hreduce, List.reverse_reverse]
  rw [log_eq]
  cases h with
  | @value _ v hle hv hvalue =>
      have hbudget : settings.maxSteps.getD fuel = k + (settings.maxSteps.getD fuel - k) := by omega
      rw [hbudget, reduce_add hv, reduce_of_isValue hvalue]
      simp [Ending.outcome, closing]
  | @fault _ u f hlt hu hvalue hf =>
      have hbudget : settings.maxSteps.getD fuel =
          k + ((settings.maxSteps.getD fuel - k - 1) + 1) := by omega
      rw [hbudget, reduce_add hu, reduce_of_error hvalue hf]
      cases f <;> simp [Ending.outcome, Ending.ofFault, closing]
  | exhausted hu hvalue =>
      have hspent := reduce_add hu settings.traceSteps 0 0 [.started t]
      rw [Nat.add_zero, reduce_zero hvalue] at hspent
      rw [hspent]
      cases settings.maxSteps <;> simp [Ending.outcome, closing]

theorem exists_ends (t : Term) (budget : Nat) : ∃ k e, t.Ends budget k e := by
  have hself : Lockstep Eq :=
    ⟨fun h => congrArg isValue h, fun {t u} h => h ▸ .refl (fun _ => rfl) t.step⟩
  obtain ⟨k, hends, -⟩ := hself.reduce (Eq.refl t) false budget 0 [] []
  exact ⟨k, _, hends⟩

end Term

/-! ## Where evaluation stops -/

/-- There is no limit, or it is not below `k`. -/
def Settings.allows (settings : Settings) (k : Nat) : Prop :=
  ∀ limit, settings.maxSteps = some limit → k ≤ limit

theorem Settings.allows_of_le {settings : Settings} {k fuel : Nat}
    (h : k ≤ settings.maxSteps.getD fuel) : settings.allows k := by
  intro limit hlimit
  rwa [hlimit] at h

theorem Settings.allows.le_getD {settings : Settings} {k fuel : Nat} (h : settings.allows k)
    (hle : k ≤ fuel) : k ≤ settings.maxSteps.getD fuel := by
  cases hlimit : settings.maxSteps with
  | none => exact hle
  | some limit => exact h limit hlimit

namespace Term

variable {t u v : Term} {k : Nat} {settings : Settings}

/-- Evaluation under the settings stops after `k` steps: at a value that the limit lets it reach,
at a term before the limit whose step fails, or at the limit. -/
inductive Stops (t : Term) (settings : Settings) : Nat → Except Fault Term → Prop
  | value {k : Nat} {v : Term} : settings.allows k → t.stepN k = .ok v → v.isValue = true →
      Stops t settings k (.ok v)
  | stuck {k : Nat} {u w : Term} : settings.allows (k + 1) → t.stepN k = .ok u →
      u.isValue = false → u.step = .error (.noRule w) → Stops t settings k (.error (.stuck u))
  | broken {k : Nat} {u : Term} {fault : Fault} : settings.allows (k + 1) → t.stepN k = .ok u →
      u.isValue = false → u.step = .error fault → (∀ w, fault ≠ .noRule w) →
      Stops t settings k (.error fault)
  | limited {limit : Nat} {u : Term} : settings.maxSteps = some limit → t.stepN limit = .ok u →
      u.isValue = false → Stops t settings limit (.error (.stepLimit limit u))

/-- A run stops where it ends, unless it has only run out of fuel. -/
theorem Ends.stops {fuel : Nat} {e : Ending} (h : t.Ends (settings.maxSteps.getD fuel) k e)
    (hfinished : ∀ u, e.outcome settings.maxSteps ≠ .error (.unfinished u)) :
    t.Stops settings k (e.outcome settings.maxSteps) := by
  cases h with
  | value hle hv hvalue => exact .value (Settings.allows_of_le hle) hv hvalue
  | @fault _ u f hlt hu hvalue hf =>
      have hallows : settings.allows (k + 1) := Settings.allows_of_le hlt
      cases f with
      | noRule w => exact .stuck hallows hu hvalue hf
      | _ => exact .broken hallows hu hvalue hf nofun
  | @exhausted u hu hvalue =>
      cases hlimit : settings.maxSteps with
      | some limit =>
          rw [hlimit] at hu
          exact .limited hlimit hu hvalue
      | none =>
          rw [hlimit] at hfinished
          exact absurd rfl (hfinished u)

theorem Stops.ends {outcome : Except Fault Term} (h : t.Stops settings k outcome) :
    ∃ e, e.outcome settings.maxSteps = outcome ∧
      ∀ fuel, k < fuel → t.Ends (settings.maxSteps.getD fuel) k e := by
  cases h with
  | @value v hallows hv hvalue =>
      refine ⟨.value v, rfl, fun fuel hlt => ?_⟩
      exact .value (hallows.le_getD (by omega)) hv hvalue
  | @stuck u w hallows hu hvalue hw =>
      refine ⟨.stuck u, rfl, fun fuel hlt => ?_⟩
      exact .fault (hallows.le_getD hlt) hu hvalue hw
  | @broken u fault hallows hu hvalue hf hrule =>
      have hfailed : Ending.ofFault u fault = .failed fault := by
        cases fault with
        | noRule w => exact absurd rfl (hrule w)
        | _ => rfl
      refine ⟨.failed fault, rfl, fun fuel hlt => ?_⟩
      rw [← hfailed]
      exact .fault (hallows.le_getD hlt) hu hvalue hf
  | @limited u hlimit hu hvalue =>
      refine ⟨.exhausted u, by rw [hlimit]; rfl, fun fuel _ => ?_⟩
      rw [hlimit]
      exact .exhausted hu hvalue

/-- Evaluation under the settings comes to an end, with this outcome and these events. Fuel stands
in for a limit that the settings do not have; once there is enough of it for an end other than
its own, more makes no difference. -/
def Completes (t : Term) (settings : Settings) (run : Logged Term) : Prop :=
  (∀ u, run.outcome ≠ .error (.unfinished u)) ∧
    ∃ enough, ∀ fuel, enough ≤ fuel → t.evaluate settings fuel = run

theorem completes_iff {run : Logged Term} :
    t.Completes settings run ↔ ∃ k, t.Stops settings k run.outcome ∧
      run.events = t.log settings.traceSteps k ++ closing k run.outcome := by
  constructor
  · intro h
    obtain ⟨hfinished, enough, hrun⟩ := h
    obtain ⟨k, e, hends⟩ := exists_ends t (settings.maxSteps.getD enough)
    have hevaluate := evaluate_of_ends hends
    rw [hrun enough (Nat.le_refl enough)] at hevaluate
    subst hevaluate
    exact ⟨k, hends.stops hfinished, rfl⟩
  · intro h
    obtain ⟨k, hstops, hevents⟩ := h
    obtain ⟨e, houtcome, hends⟩ := hstops.ends
    refine ⟨fun u hunfinished => ?_, k + 1, fun fuel hlt => ?_⟩
    · rw [hunfinished] at hstops
      cases hstops with
      | broken _ _ _ hstep _ => cases steplike_step _ _ hstep
    · rw [evaluate_of_ends (hends fuel hlt), houtcome, ← hevents]

theorem Stops.completes {outcome : Except Fault Term} (h : t.Stops settings k outcome) :
    ∃ events, t.Completes settings ⟨outcome, events⟩ :=
  ⟨t.log settings.traceSteps k ++ closing k outcome, completes_iff.2 ⟨k, h, rfl⟩⟩

/-! ## The loop -/

/-- None of the terms after fewer than `k` steps is a value. -/
def NoValueBefore (t : Term) (k : Nat) : Prop :=
  ∀ j < k, ∀ u, t.stepN j = .ok u → u.isValue = false

theorem noValueBefore_of_stepN (h : t.stepN k = .ok u) : t.NoValueBefore k :=
  fun _ hlt _ hu => isValue_of_stepN_lt h hlt hu

theorem noValueBefore_succ_iff (h : t.stepN k = .ok u) :
    t.NoValueBefore (k + 1) ↔ u.isValue = false := by
  constructor
  · intro hnone
    exact hnone k (Nat.lt_succ_self k) u h
  · intro hu j hlt w hw
    rcases Nat.lt_succ_iff_lt_or_eq.1 hlt with hj | rfl
    · exact isValue_of_stepN_lt h hj hw
    · obtain rfl : u = w := Except.ok.inj (h.symm.trans hw)
      exact hu

theorem completes_value_iff {events : List Event} :
    t.Completes settings ⟨.ok v, events⟩ ↔ ∃ k, settings.allows k ∧ t.stepN k = .ok v ∧
      v.isValue = true ∧ t.NoValueBefore k ∧
      events = t.log settings.traceSteps k ++ [.finished k v] := by
  rw [completes_iff]
  refine exists_congr fun k => ?_
  constructor
  · intro h
    obtain ⟨hstops, hevents⟩ := h
    cases hstops with
    | value hallows hv hvalue =>
        exact ⟨hallows, hv, hvalue, noValueBefore_of_stepN hv, hevents⟩
  · intro h
    obtain ⟨hallows, hv, hvalue, -, hevents⟩ := h
    exact ⟨.value hallows hv hvalue, hevents⟩

theorem completes_stuck_iff {events : List Event} :
    t.Completes settings ⟨.error (.stuck u), events⟩ ↔ ∃ k, settings.allows (k + 1) ∧
      t.stepN k = .ok u ∧ t.NoValueBefore (k + 1) ∧ (∃ w, u.step = .error (.noRule w)) ∧
      events = t.log settings.traceSteps k := by
  rw [completes_iff]
  refine exists_congr fun k => ?_
  rw [closing, List.append_nil]
  constructor
  · intro h
    obtain ⟨hstops, hevents⟩ := h
    cases hstops with
    | stuck hallows hu hvalue hw =>
        exact ⟨hallows, hu, (noValueBefore_succ_iff hu).2 hvalue, ⟨_, hw⟩, hevents⟩
    | broken _ _ _ hstep _ => cases steplike_step _ _ hstep
  · intro h
    obtain ⟨hallows, hu, hnone, ⟨w, hw⟩, hevents⟩ := h
    exact ⟨.stuck hallows hu ((noValueBefore_succ_iff hu).1 hnone) hw, hevents⟩

theorem completes_stepLimit_iff {limit : Nat} {events : List Event} :
    t.Completes settings ⟨.error (.stepLimit limit u), events⟩ ↔
      settings.maxSteps = some limit ∧ t.stepN limit = .ok u ∧ t.NoValueBefore (limit + 1) ∧
      events = t.log settings.traceSteps limit := by
  rw [completes_iff]
  constructor
  · intro h
    obtain ⟨k, hstops, hevents⟩ := h
    rw [closing, List.append_nil] at hevents
    cases hstops with
    | limited hlimit hu hvalue =>
        exact ⟨hlimit, hu, (noValueBefore_succ_iff hu).2 hvalue, hevents⟩
    | broken _ _ _ hstep _ => cases steplike_step _ _ hstep
  · intro h
    obtain ⟨hlimit, hu, hnone, hevents⟩ := h
    refine ⟨limit, .limited hlimit hu ((noValueBefore_succ_iff hu).1 hnone), ?_⟩
    rw [closing, List.append_nil]
    exact hevents

theorem completes_error_iff {fault : Fault} (hfault : fault.ofStep = true)
    (hrule : ∀ w, fault ≠ .noRule w) {events : List Event} :
    t.Completes settings ⟨.error fault, events⟩ ↔ ∃ k u, settings.allows (k + 1) ∧
      t.stepN k = .ok u ∧ t.NoValueBefore (k + 1) ∧ u.step = .error fault ∧
      events = t.log settings.traceSteps k := by
  rw [completes_iff]
  refine exists_congr fun k => ?_
  rw [closing, List.append_nil]
  constructor
  · intro h
    obtain ⟨hstops, hevents⟩ := h
    cases hstops with
    | broken hallows hu hvalue hstep _ =>
        exact ⟨_, hallows, hu, (noValueBefore_succ_iff hu).2 hvalue, hstep, hevents⟩
    | _ => cases hfault
  · intro h
    obtain ⟨u, hallows, hu, hnone, hstep, hevents⟩ := h
    exact ⟨.broken hallows hu ((noValueBefore_succ_iff hu).1 hnone) hstep hrule, hevents⟩

/-- A run without a limit that has spent its fuel has only announced its steps so far. -/
theorem evaluate_eq_unfinished_iff {fuel : Nat} {events : List Event} :
    t.evaluate settings fuel = ⟨.error (.unfinished u), events⟩ ↔
      settings.maxSteps = none ∧ t.stepN fuel = .ok u ∧ t.NoValueBefore (fuel + 1) ∧
      events = t.log settings.traceSteps fuel := by
  constructor
  · intro h
    obtain ⟨k, e, hends⟩ := exists_ends t (settings.maxSteps.getD fuel)
    rw [evaluate_of_ends hends] at h
    obtain ⟨houtcome, rfl⟩ := Logged.mk.inj h
    rw [houtcome, closing, List.append_nil]
    cases hends with
    | value => cases houtcome
    | @fault _ _ fault _ _ _ hstep =>
        cases fault with
        | unfinished => cases steplike_step _ _ hstep
        | _ => cases houtcome
    | exhausted hu hvalue =>
        cases hlimit : settings.maxSteps with
        | some limit =>
            rw [hlimit] at houtcome
            cases houtcome
        | none =>
            rw [hlimit] at hu houtcome
            cases houtcome
            exact ⟨rfl, hu, (noValueBefore_succ_iff hu).2 hvalue, rfl⟩
  · intro h
    obtain ⟨hlimit, hu, hnone, rfl⟩ := h
    have hends : t.Ends (settings.maxSteps.getD fuel) fuel (.exhausted u) := by
      rw [hlimit]
      exact .exhausted hu ((noValueBefore_succ_iff hu).1 hnone)
    rw [evaluate_of_ends hends, hlimit]
    simp only [Ending.outcome, closing, List.append_nil]

theorem completes_of_noRule {w : Term} (hallows : settings.allows (k + 1))
    (hu : t.stepN k = .ok u) (hw : u.step = .error (.noRule w)) :
    ∃ events, t.Completes settings
      ⟨if u.isValue then .ok u else .error (.stuck u), events⟩ := by
  cases hvalue : u.isValue with
  | true =>
      have hless : settings.allows k := fun limit hlimit => by
        have := hallows limit hlimit
        omega
      exact (Stops.value hless hu hvalue).completes
  | false => exact (Stops.stuck hallows hu hvalue hw).completes

theorem outcome_of_maxSteps {other : Settings} (h : other.maxSteps = settings.maxSteps)
    (fuel : Nat) : (t.evaluate other fuel).outcome = (t.evaluate settings fuel).outcome := by
  obtain ⟨k, e, hends⟩ := exists_ends t (settings.maxSteps.getD fuel)
  have hother : t.Ends (other.maxSteps.getD fuel) k e := by rwa [h]
  rw [evaluate_of_ends hends, evaluate_of_ends hother, h]

/-- Evaluation is iteration of single steps up to the limit, if there is one. It gives the first
value on the way; it is stuck at a term before the limit that is no value and has no rule; it is
given up at the limit if there was no value up to there; and other faults of a step end it as they
are. Without a limit it may also go on for as long as there is fuel. Its start, its steps if they
are traced and its value are announced, and nothing else. Values have no rule, so it ends at terms
without a rule and, before the limit, at every one of them. Tracing changes none of this. -/
theorem evaluation_iterates (t : Term) (settings : Settings) :
    (∀ v events, t.Completes settings ⟨.ok v, events⟩ ↔
      ∃ k, settings.allows k ∧ t.stepN k = .ok v ∧ v.isValue = true ∧ t.NoValueBefore k ∧
        events = t.log settings.traceSteps k ++ [.finished k v]) ∧
    (∀ u events, t.Completes settings ⟨.error (.stuck u), events⟩ ↔
      ∃ k, settings.allows (k + 1) ∧ t.stepN k = .ok u ∧ t.NoValueBefore (k + 1) ∧
        (∃ w, u.step = .error (.noRule w)) ∧ events = t.log settings.traceSteps k) ∧
    (∀ limit u events, t.Completes settings ⟨.error (.stepLimit limit u), events⟩ ↔
      settings.maxSteps = some limit ∧ t.stepN limit = .ok u ∧ t.NoValueBefore (limit + 1) ∧
        events = t.log settings.traceSteps limit) ∧
    (∀ fault events, fault.ofStep = true → (∀ w, fault ≠ .noRule w) →
      (t.Completes settings ⟨.error fault, events⟩ ↔
        ∃ k u, settings.allows (k + 1) ∧ t.stepN k = .ok u ∧ t.NoValueBefore (k + 1) ∧
          u.step = .error fault ∧ events = t.log settings.traceSteps k)) ∧
    (∀ fuel u events, t.evaluate settings fuel = ⟨.error (.unfinished u), events⟩ ↔
      settings.maxSteps = none ∧ t.stepN fuel = .ok u ∧ t.NoValueBefore (fuel + 1) ∧
        events = t.log settings.traceSteps fuel) ∧
    (∀ v : Term, v.isValue = true → ∃ w, v.step = .error (.noRule w)) ∧
    (∀ k u w, settings.allows (k + 1) → t.stepN k = .ok u → u.step = .error (.noRule w) →
      ∃ events, t.Completes settings
        ⟨if u.isValue then .ok u else .error (.stuck u), events⟩) ∧
    ∀ trace fuel, (t.evaluate { settings with traceSteps := trace } fuel).outcome =
      (t.evaluate settings fuel).outcome :=
  ⟨fun _ _ => completes_value_iff, fun _ _ => completes_stuck_iff,
    fun _ _ _ => completes_stepLimit_iff,
    fun _ _ hfault hrule => completes_error_iff hfault hrule,
    fun _ _ _ => evaluate_eq_unfinished_iff, fun _ => step_of_isValue,
    fun _ _ _ => completes_of_noRule, fun _ => outcome_of_maxSteps rfl⟩

end Term

end TypedLambda
