import TypedLambda.Proofs.Iteration

/-!
# Call by value in big steps

`Term.Evaluates` says what a term evaluates to and how many contractions that takes, one rule
for each way in which a form is evaluated. There is no order of evaluation in it, no place
where reduction goes on and no intermediate term.

Single steps compute this relation (`Term.reaches_iff_evaluates`). Taken together, the steps
of the parts and one contraction make up the steps of the whole. Conversely the relation is
closed under going one step back, so it follows a run from its end to its start.
-/

namespace TypedLambda.Term

/-- The first term evaluates to the second in a number of contractions. -/
inductive Evaluates : Term → Term → Nat → Prop
  | value {v : Term} : v.isValue = true → Evaluates v v 0
  | app {f a body v u w : Term} {name : String} {ty : Ty} {k m n : Nat} :
      Evaluates f (.abs name ty body) k → Evaluates a v m → substTop v body = .ok u →
      Evaluates u w n → Evaluates (.app f a) w (k + m + n + 1)
  | iteTrue {c yes no w : Term} {k n : Nat} : Evaluates c (.bool true) k → Evaluates yes w n →
      Evaluates (.ite c yes no) w (k + n + 1)
  | iteFalse {c yes no w : Term} {k n : Nat} : Evaluates c (.bool false) k → Evaluates no w n →
      Evaluates (.ite c yes no) w (k + n + 1)
  | succ {t w : Term} {k : Nat} : Evaluates t w k → w.isNumeral = true →
      Evaluates (.succ t) (.succ w) k
  | predZero {t : Term} {k : Nat} : Evaluates t .zero k → Evaluates (.pred t) .zero (k + 1)
  | predSucc {t w : Term} {k : Nat} : Evaluates t (.succ w) k → w.isNumeral = true →
      Evaluates (.pred t) w (k + 1)
  | isZeroZero {t : Term} {k : Nat} : Evaluates t .zero k →
      Evaluates (.isZero t) (.bool true) (k + 1)
  | isZeroSucc {t w : Term} {k : Nat} : Evaluates t (.succ w) k → w.isNumeral = true →
      Evaluates (.isZero t) (.bool false) (k + 1)
  | tuple {fields : List (String × Term)} {results : List (String × Term × Nat)} :
      Table.InStep (fun _ t r => Evaluates t r.1 r.2) fields results →
      Evaluates (.tuple fields) (.tuple (results.map fun r => (r.1, r.2.1)))
        (Table.total Prod.snd results)
  | tag {label : String} {t v : Term} {ty : Ty} {k : Nat} : Evaluates t v k →
      Evaluates (.tag label t ty) (.tag label v ty) k
  | letIn {pattern : Pattern} {t body v u w : Term} {bindings : List (String × Term)}
      {k n : Nat} : Evaluates t v k → pattern.destructure v = .ok bindings →
      instantiate (bindings.map Prod.snd) body = .ok u → Evaluates u w n →
      Evaluates (.letIn pattern t body) w (k + n + 1)
  | case {s v u w : Term} {label : String} {ty : Ty} {branches : List (String × Branch Term)}
      {branch : Branch Term} {k n : Nat} : Evaluates s (.tag label v ty) k →
      branches.lookup label = some branch → substTop v branch.body = .ok u → Evaluates u w n →
      Evaluates (.case s branches) w (k + n + 1)
  | fix {t body u w : Term} {name : String} {ty : Ty} {k n : Nat} :
      Evaluates t (.abs name ty body) k → substTop (.fix (.abs name ty body)) body = .ok u →
      Evaluates u w n → Evaluates (.fix t) w (k + n + 1)

namespace Evaluates

@[elab_as_elim]
theorem least {motive : Term → Term → Nat → Prop}
    (value : ∀ {v : Term}, v.isValue = true → motive v v 0)
    (app : ∀ {f a body v u w name ty k m n}, motive f (.abs name ty body) k → motive a v m →
      substTop v body = .ok u → motive u w n → motive (.app f a) w (k + m + n + 1))
    (iteTrue : ∀ {c yes no w k n}, motive c (.bool true) k → motive yes w n →
      motive (.ite c yes no) w (k + n + 1))
    (iteFalse : ∀ {c yes no w k n}, motive c (.bool false) k → motive no w n →
      motive (.ite c yes no) w (k + n + 1))
    (succ : ∀ {t w k}, motive t w k → w.isNumeral = true → motive (.succ t) (.succ w) k)
    (predZero : ∀ {t k}, motive t .zero k → motive (.pred t) .zero (k + 1))
    (predSucc : ∀ {t w k}, motive t (.succ w) k → w.isNumeral = true → motive (.pred t) w (k + 1))
    (isZeroZero : ∀ {t k}, motive t .zero k → motive (.isZero t) (.bool true) (k + 1))
    (isZeroSucc : ∀ {t w k}, motive t (.succ w) k → w.isNumeral = true →
      motive (.isZero t) (.bool false) (k + 1))
    (tuple : ∀ {fields : List (String × Term)} {results : List (String × Term × Nat)},
      Table.InStep (fun _ t r => motive t r.1 r.2) fields results →
      motive (.tuple fields) (.tuple (results.map fun r => (r.1, r.2.1)))
        (Table.total Prod.snd results))
    (tag : ∀ {label t v ty k}, motive t v k → motive (.tag label t ty) (.tag label v ty) k)
    (letIn : ∀ {pattern t body v u w bindings k n}, motive t v k →
      Pattern.destructure pattern v = .ok bindings →
      instantiate (bindings.map Prod.snd) body = .ok u → motive u w n →
      motive (.letIn pattern t body) w (k + n + 1))
    (case : ∀ {s v u w label ty} {branches : List (String × Branch Term)} {branch : Branch Term}
      {k n}, motive s (.tag label v ty) k → branches.lookup label = some branch →
      substTop v branch.body = .ok u → motive u w n → motive (.case s branches) w (k + n + 1))
    (fix : ∀ {t body u w name ty k n}, motive t (.abs name ty body) k →
      substTop (.fix (.abs name ty body)) body = .ok u → motive u w n →
      motive (.fix t) w (k + n + 1))
    {t v : Term} {n : Nat} (h : Evaluates t v n) : motive t v n :=
  -- the fields of a tuple have a motive of their own in the principle that comes with the relation
  @Evaluates.rec (fun t v n _ => motive t v n)
    (fun fields results _ =>
      Table.InStep (fun _ t (r : Term × Nat) => motive t r.1 r.2) fields results)
    value (fun _ _ hu _ ihf iha ihw => app ihf iha hu ihw) (fun _ _ ihc ihw => iteTrue ihc ihw)
    (fun _ _ ihc ihw => iteFalse ihc ihw) (fun _ hw iht => succ iht hw) (fun _ iht => predZero iht)
    (fun _ hw iht => predSucc iht hw) (fun _ iht => isZeroZero iht)
    (fun _ hw iht => isZeroSucc iht hw) (fun _ ih => tuple ih) (fun _ iht => tag iht)
    (fun _ hbindings hu _ iht ihw => letIn iht hbindings hu ihw)
    (fun _ hbranch hu _ ihs ihw => case ihs hbranch hu ihw)
    (fun _ hu _ iht ihw => fix iht hu ihw) Table.InStep.nil
    (fun _ _ ih tail => Table.InStep.cons ih tail) t v n h

/-! ## From big steps to single steps -/

/-- The part in a frame takes its steps, the whole is contracted, and its contraction goes
on. -/
theorem stepN_contract {F : Frame} (hF : F.ready = true) {t r u w : Term} {k n : Nat}
    (ht : t.stepN k = .ok r) (hcontract : (F.fill r).contract? = some (.ok u))
    (hw : u.stepN n = .ok w) : (F.fill t).stepN (k + n + 1) = .ok w := by
  have hstep : (F.fill r).step = .ok u := by rw [step.eq_def, hcontract]
  have hrest : (F.fill r).stepN (n + 1) = .ok w := stepN_succ_eq_ok.2 ⟨u, hstep, hw⟩
  rw [Nat.add_assoc]
  exact stepN_trans (stepN_fill hF ht) hrest

theorem reaches {t v : Term} {n : Nat} (h : Evaluates t v n) :
    t.stepN n = .ok v ∧ v.isValue = true := by
  refine h.least (motive := fun t v n => t.stepN n = .ok v ∧ v.isValue = true)
    ?value ?app ?iteTrue ?iteFalse ?succ ?predZero ?predSucc ?isZeroZero ?isZeroSucc ?tuple ?tag
    ?letIn ?case ?fix
  case value => exact fun hv => ⟨rfl, hv⟩
  case app =>
    intro f a body v u w name ty k m n hf ha hu hw
    have hcontract : (Term.app (.abs name ty body) v).contract? = some (.ok u) := by
      rw [contract?, if_pos ha.2, hu]
    have hfunction := stepN_fill (F := .function a) rfl hf.1
    have hargument := stepN_contract (F := .argument (.abs name ty body)) rfl ha.1 hcontract hw.1
    have hsteps := stepN_trans hfunction hargument
    rw [← Nat.add_assoc, ← Nat.add_assoc] at hsteps
    exact ⟨hsteps, hw.2⟩
  case iteTrue =>
    intro c yes no w k n hc hw
    exact ⟨stepN_contract (F := .condition yes no) rfl hc.1 rfl hw.1, hw.2⟩
  case iteFalse =>
    intro c yes no w k n hc hw
    exact ⟨stepN_contract (F := .condition yes no) rfl hc.1 rfl hw.1, hw.2⟩
  case succ =>
    intro t w k ht hw
    exact ⟨stepN_fill (F := .succ) rfl ht.1, hw⟩
  case predZero =>
    intro t k ht
    exact ⟨stepN_contract (F := .pred) (n := 0) rfl ht.1 rfl rfl, rfl⟩
  case predSucc =>
    intro t w k ht hw
    have hcontract : (Term.pred (.succ w)).contract? = some (.ok w) := by rw [contract?, if_pos hw]
    exact ⟨stepN_contract (F := .pred) (n := 0) rfl ht.1 hcontract rfl, isValue_of_isNumeral hw⟩
  case isZeroZero =>
    intro t k ht
    exact ⟨stepN_contract (F := .isZero) (n := 0) rfl ht.1 rfl rfl, rfl⟩
  case isZeroSucc =>
    intro t w k ht hw
    have hcontract : (Term.isZero (.succ w)).contract? = some (.ok (.bool false)) := by
      rw [contract?, if_pos hw]
    exact ⟨stepN_contract (F := .isZero) (n := 0) rfl ht.1 hcontract rfl, rfl⟩
  case tuple =>
    intro fields results hfields
    refine ⟨@stepN_tuple _ _ hfields [] rfl, ?_⟩
    rw [isValue_tuple_iff, List.forall_mem_map]
    exact hfields.forall_right (P := fun r => r.1.isValue = true) fun _ _ _ h => h.2
  case tag =>
    intro label t v ty k ht
    exact ⟨stepN_fill (F := .payload label ty) rfl ht.1, ht.2⟩
  case letIn =>
    intro pattern t body v u w bindings k n ht hbindings hu hw
    have hcontract : (Term.letIn pattern v body).contract? = some (.ok u) := by
      rw [contract?, if_pos ht.2, openLet, hbindings]
      exact congrArg some hu
    exact ⟨stepN_contract (F := .value pattern body) rfl ht.1 hcontract hw.1, hw.2⟩
  case case =>
    intro s v u w label ty branches branch k n hs hbranch hu hw
    have hpayload : v.isValue = true := hs.2
    have hcontract : (Term.case (.tag label v ty) branches).contract? = some (.ok u) := by
      rw [contract?, if_pos hpayload, hbranch]
      exact congrArg some hu
    exact ⟨stepN_contract (F := .scrutinee branches) rfl hs.1 hcontract hw.1, hw.2⟩
  case fix =>
    intro t body u w name ty k n ht hu hw
    have hcontract : (Term.fix (.abs name ty body)).contract? = some (.ok u) := by
      rw [contract?, hu]
    exact ⟨stepN_contract (F := .fix) rfl ht.1 hcontract hw.1, hw.2⟩

/-! ## From single steps to big steps -/

theorem cast {t v : Term} {n m : Nat} (h : Evaluates t v n) (heq : n = m) : Evaluates t v m :=
  heq ▸ h

theorem eq_of_isValue {t v : Term} {n : Nat} (h : Evaluates t v n) (ht : t.isValue = true) :
    n = 0 ∧ v = t := by
  obtain ⟨hsteps, hv⟩ := h.reaches
  exact stepN_unique hv ht hsteps rfl

theorem of_numeral {t : Term} (h : t.isNumeral = true) : Evaluates t t 0 :=
  .value (isValue_of_isNumeral h)

theorem succ_inv {t v : Term} {n : Nat} (h : Evaluates (.succ t) v n) :
    ∃ w, Evaluates t w n ∧ w.isNumeral = true ∧ v = .succ w := by
  cases h with
  | value hv => exact ⟨t, of_numeral hv, hv, rfl⟩
  | @succ _ w _ ht hw => exact ⟨w, ht, hw, rfl⟩

theorem tag_inv {label : String} {t v : Term} {ty : Ty} {n : Nat}
    (h : Evaluates (.tag label t ty) v n) : ∃ w, Evaluates t w n ∧ v = .tag label w ty := by
  cases h with
  | value hv => exact ⟨t, .value hv, rfl⟩
  | @tag _ _ w _ _ ht => exact ⟨w, ht, rfl⟩

theorem tuple_inv {fields : List (String × Term)} {v : Term} {n : Nat}
    (h : Evaluates (.tuple fields) v n) :
    ∃ results : List (String × Term × Nat),
      Table.InStep (fun _ t r => Evaluates t r.1 r.2) fields results ∧
      v = .tuple (results.map fun r => (r.1, r.2.1)) ∧ n = Table.total Prod.snd results := by
  cases h with
  | value hv =>
      rw [isValue_tuple_iff] at hv
      refine ⟨fields.map fun field => (field.1, field.2, 0), ?_, ?_, ?_⟩
      · exact .map_right (f := fun t => (t, 0)) fun field hmem => .value (hv field hmem)
      · simp [Function.comp_def]
      · clear hv
        induction fields with
        | nil => rfl
        | cons field rest ih => simpa [Table.total] using ih
  | @tuple _ results hfields => exact ⟨results, hfields, rfl, rfl⟩

theorem of_contract {t u v : Term} {n : Nat} (hcontract : t.contract? = some (.ok u))
    (h : Evaluates u v n) : Evaluates t v (n + 1) := by
  -- one case for each redex, in which every part is a value already
  have hredex := redex_of_contract? hcontract
  generalize hu : Except.ok u = result at hredex
  cases hredex with
  | beta hvalue => exact cast (.app (.value rfl) (.value hvalue) hu.symm h) (by omega)
  | yes =>
      cases hu
      exact cast (.iteTrue (.value rfl) h) (by omega)
  | no =>
      cases hu
      exact cast (.iteFalse (.value rfl) h) (by omega)
  | predZero =>
      cases hu
      cases h
      exact .predZero (.value rfl)
  | predSucc hn =>
      cases hu
      obtain ⟨rfl, rfl⟩ := h.eq_of_isValue (isValue_of_isNumeral hn)
      exact .predSucc (.value hn) hn
  | isZeroZero =>
      cases hu
      cases h
      exact .isZeroZero (.value rfl)
  | isZeroSucc hn =>
      cases hu
      cases h
      exact .isZeroSucc (.value hn) hn
  | letIn hvalue =>
      obtain ⟨bindings, hbindings, hopened⟩ := Outcome.bind_eq_ok.1 hu.symm
      exact cast (.letIn (.value hvalue) hbindings hopened h) (by omega)
  | case hvalue hbranch => exact cast (.case (.value hvalue) hbranch hu.symm h) (by omega)
  | noBranch => cases hu
  | fix => exact cast (.fix (.value rfl) hu.symm h) (by omega)

/-- Evaluation in a frame follows the evaluation of the part: if the part takes one more
contraction, so does the whole. -/
theorem of_fill {F : Frame} (hF : F.ready = true) {t u : Term}
    (hpart : ∀ {w k}, Evaluates u w k → Evaluates t w (k + 1)) {v : Term} {n : Nat}
    (h : Evaluates (F.fill u) v n) : Evaluates (F.fill t) v (n + 1) := by
  cases F with
  | function a =>
      cases h with
      | value hv => cases hv
      | app hf ha hu hw => exact cast (.app (hpart hf) ha hu hw) (by omega)
  | argument f =>
      cases h with
      | value hv => cases hv
      | app hf ha hu hw => exact cast (.app hf (hpart ha) hu hw) (by omega)
  | condition yes no =>
      cases h with
      | value hv => cases hv
      | iteTrue hc hw => exact cast (.iteTrue (hpart hc) hw) (by omega)
      | iteFalse hc hw => exact cast (.iteFalse (hpart hc) hw) (by omega)
  | succ =>
      obtain ⟨w, hw, hn, rfl⟩ := succ_inv h
      exact .succ (hpart hw) hn
  | pred =>
      cases h with
      | value hv => cases hv
      | predZero hw => exact .predZero (hpart hw)
      | predSucc hw hn => exact .predSucc (hpart hw) hn
  | isZero =>
      cases h with
      | value hv => cases hv
      | isZeroZero hw => exact .isZeroZero (hpart hw)
      | isZeroSucc hw hn => exact .isZeroSucc (hpart hw) hn
  | field before label after =>
      obtain ⟨results, hresults, rfl, rfl⟩ := tuple_inv h
      obtain ⟨first, rest, rfl, hfirst, hrest⟩ := hresults.exists_append
      cases hrest with
      | @cons _ _ r _ rest hr hrest =>
          have hfields : Table.InStep (fun _ t r => Evaluates t r.1 r.2)
              (before ++ (label, t) :: after) (first ++ (label, r.1, r.2 + 1) :: rest) :=
            hfirst.append (.cons (hpart hr) hrest)
          have htuple := Evaluates.tuple hfields
          simp only [List.map_append, List.map_cons, Table.total_append, Table.total] at htuple ⊢
          exact cast htuple (by omega)
  | value pattern body =>
      cases h with
      | value hv => cases hv
      | letIn hw hbindings hu hbody => exact cast (.letIn (hpart hw) hbindings hu hbody) (by omega)
  | payload label ty =>
      obtain ⟨w, hw, rfl⟩ := tag_inv h
      exact .tag (hpart hw)
  | scrutinee branches =>
      cases h with
      | value hv => cases hv
      | case hs hbranch hu hw => exact cast (.case (hpart hs) hbranch hu hw) (by omega)
  | fix =>
      cases h with
      | value hv => cases hv
      | fix hw hu hbody => exact cast (.fix (hpart hw) hu hbody) (by omega)

theorem of_step {t u v : Term} {n : Nat} (hstep : t.step = .ok u) (h : Evaluates u v n) :
    Evaluates t v (n + 1) := by
  have hback : ∀ {w k}, Evaluates u w k → Evaluates t w (k + 1) :=
    step_induction (motive := fun t u => ∀ {w k}, Evaluates u w k → Evaluates t w (k + 1))
      (fun hcontract _ _ h => of_contract hcontract h) (fun hF _ ih _ _ h => of_fill hF ih h) hstep
  exact hback h

theorem of_stepN {t v : Term} {n : Nat} (hsteps : t.stepN n = .ok v) (hv : v.isValue = true) :
    Evaluates t v n := by
  induction n generalizing t with
  | zero =>
      cases hsteps
      exact .value hv
  | succ n ih =>
      obtain ⟨u, hstep, hrest⟩ := stepN_succ_eq_ok.1 hsteps
      exact of_step hstep (ih hrest)

end Evaluates

/-- The steps of a term lead to a value exactly if the term evaluates to it, in as many
contractions; no value is passed on the way. -/
theorem reaches_iff_evaluates {t v : Term} {n : Nat} :
    (t.stepN n = .ok v ∧ v.isValue = true ∧
      ∀ m < n, ∀ u, t.stepN m = .ok u → u.isValue = false) ↔ Evaluates t v n := by
  constructor
  · intro h
    obtain ⟨hsteps, hv, -⟩ := h
    exact .of_stepN hsteps hv
  · intro h
    obtain ⟨hsteps, hv⟩ := h.reaches
    exact ⟨hsteps, hv, fun m hlt u hu => isValue_of_stepN_lt hsteps hlt hu⟩

end TypedLambda.Term
