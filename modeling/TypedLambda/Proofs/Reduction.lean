import TypedLambda.Proofs.Commutation

/-!
# Reduction as a relation

A frame is a term with a hole, one level deep, at a place where `Term.step` goes on to
look for a redex. A term that is no value is reduced inside of a frame exactly as it is
by itself, whatever comes of it.

`Term.Contracts` is the list of the contraction rules and `Term.Reduces` their closure
under frames. Every step of `Term.step` is such a reduction, and on terms whose nodes all
have a form the converse holds.
-/

namespace TypedLambda

/-- A term with a hole where reduction goes on. -/
inductive Frame where
  | function (a : Term)
  | argument (f : Term)
  | condition (yes no : Term)
  | succ
  | pred
  | isZero
  | field (before : List (String × Term)) (label : String) (after : List (String × Term))
  | value (pattern : Pattern) (body : Term)
  | payload (label : String) (ty : Ty)
  | scrutinee (branches : List (String × Branch Term))
  | fix

namespace Frame

def fill : Frame → Term → Term
  | .function a, term => .app term a
  | .argument f, term => .app f term
  | .condition yes no, term => .ite term yes no
  | .succ, term => .succ term
  | .pred, term => .pred term
  | .isZero, term => .isZero term
  | .field before label after, term => .tuple (before ++ (label, term) :: after)
  | .value pattern body, term => .letIn pattern term body
  | .payload label ty, term => .tag label term ty
  | .scrutinee branches, term => .case term branches
  | .fix, term => .fix term

/-- Everything that is reduced before the hole is a value. -/
def ready : Frame → Bool
  | .argument f => f.isValue
  | .field before _ _ => Term.allValues before
  | _ => true

end Frame

namespace Term

/-! ## Reduction in a frame -/

theorem contract?_fill {F : Frame} {u : Term} (hu : u.isValue = false) :
    (F.fill u).contract? = none := by
  cases F with
  | function a => cases u <;> simp_all [Frame.fill, contract?, isValue]
  | argument f => cases f <;> simp [Frame.fill, contract?, hu]
  | condition yes no => cases u <;> simp_all [Frame.fill, contract?, isValue]
  | succ => rfl
  | pred => cases u <;> simp_all [Frame.fill, contract?, isValue]
  | isZero => cases u <;> simp_all [Frame.fill, contract?, isValue]
  | field before label after => rfl
  | value pattern body => simp [Frame.fill, contract?, hu]
  | payload label ty => rfl
  | scrutinee branches => cases u <;> simp_all [Frame.fill, contract?, isValue]
  | fix => cases u <;> simp_all [Frame.fill, contract?, isValue]

theorem stepFields_append {before : List (String × Term)} (hbefore : allValues before = true)
    {label : String} {u : Term} (hu : u.isValue = false) (after : List (String × Term)) :
    stepFields (before ++ (label, u) :: after) =
      some (u.step.map fun term => before ++ (label, term) :: after) := by
  induction before with
  | nil => simp [stepFields, hu]
  | cons entry rest ih =>
      obtain ⟨key, term⟩ := entry
      simp only [allValues, Bool.and_eq_true] at hbefore
      rw [List.cons_append, stepFields, if_pos hbefore.1, ih hbefore.2]
      cases u.step <;> rfl

theorem stepFields_of_allValues {fields : List (String × Term)} (h : allValues fields = true) :
    stepFields fields = none := by
  induction fields with
  | nil => rfl
  | cons entry rest ih =>
      simp only [allValues, Bool.and_eq_true] at h
      rw [stepFields, if_pos h.1, ih h.2]
      rfl

theorem exists_first_nonvalue (fields : List (String × Term)) :
    allValues fields = true ∨ ∃ before label u after,
      fields = before ++ (label, u) :: after ∧ allValues before = true ∧ u.isValue = false := by
  induction fields with
  | nil => exact .inl rfl
  | cons entry rest ih =>
      obtain ⟨label, u⟩ := entry
      cases hu : u.isValue with
      | false => exact .inr ⟨[], label, u, rest, rfl, rfl, hu⟩
      | true =>
          rcases ih with hall | ⟨before, key, v, after, rfl, hbefore, hv⟩
          · exact .inl (by simp [allValues, hu, hall])
          · have hmore : allValues ((label, u) :: before) = true := by
              simp [allValues, hu, hbefore]
            exact .inr ⟨(label, u) :: before, key, v, after, rfl, hmore, hv⟩

/-- A term that is no value reduces inside of a frame as it does by itself. -/
theorem step_fill {F : Frame} (hF : F.ready = true) {u : Term} (hu : u.isValue = false) :
    (F.fill u).step = u.step.map F.fill := by
  have hnone : (F.fill u).contract? = none := contract?_fill hu
  rw [step.eq_def, hnone]
  cases F with
  | function a => simp only [Frame.fill, hu]; rfl
  | argument f => exact if_pos hF
  | field before label after =>
      simp only [Frame.fill, stepFields_append hF hu]
      cases u.step <;> rfl
  | _ => rfl

/-! ## Values -/

theorem isValue_tuple_iff {fields : List (String × Term)} :
    (tuple fields).isValue = true ↔ ∀ entry ∈ fields, entry.2.isValue = true := by
  rw [isValue, allValues_iff]

theorem isValue_fill {F : Frame} {u : Term} (hu : u.isValue = false) :
    (F.fill u).isValue = false := by
  cases F with
  | succ =>
      rw [← Bool.not_eq_true]
      intro hnumeral
      rw [isValue_of_isNumeral hnumeral] at hu
      cases hu
  | field before label after =>
      rw [← Bool.not_eq_true, Frame.fill, isValue_tuple_iff]
      intro hall
      have hpart : u.isValue = true := hall (label, u) (by simp)
      rw [hu] at hpart
      cases hpart
  | payload label ty => exact hu
  | _ => rfl

theorem step_of_isValue {v : Term} (h : v.isValue = true) : ∃ u, v.step = .error (.noRule u) := by
  induction v with
  | unit | bool | zero | abs => exact ⟨_, rfl⟩
  | succ term ih =>
      obtain ⟨u, hu⟩ := ih (isValue_of_isNumeral h)
      exact ⟨u, by rw [step, hu]; rfl⟩
  | tuple fields _ =>
      have hnone : stepFields fields = none := stepFields_of_allValues h
      exact ⟨_, by rw [step, hnone]; rfl⟩
  | tag label payload ty ih =>
      obtain ⟨u, hu⟩ := ih h
      exact ⟨u, by rw [step, hu]; rfl⟩
  | _ => cases h

/-! ## Contraction -/

inductive Contracts : Term → Term → Prop
  | beta {name : String} {ty : Ty} {body a : Term} : a.isValue = true →
      Contracts (.app (.abs name ty body) a) (body.plug [a])
  | yes {yes no : Term} : Contracts (.ite (.bool true) yes no) yes
  | no {yes no : Term} : Contracts (.ite (.bool false) yes no) no
  | predZero : Contracts (.pred .zero) .zero
  | predSucc {n : Term} : n.isNumeral = true → Contracts (.pred (.succ n)) n
  | isZeroZero : Contracts (.isZero .zero) (.bool true)
  | isZeroSucc {n : Term} : n.isNumeral = true → Contracts (.isZero (.succ n)) (.bool false)
  | letIn {pattern : Pattern} {value body : Term} {bindings : List (String × Term)} :
      value.isValue = true → pattern.destructure value = .ok bindings →
      Contracts (.letIn pattern value body) (body.plug (bindings.map Prod.snd))
  | case {label : String} {payload : Term} {ty : Ty} {branches : List (String × Branch Term)}
      {branch : Branch Term} : payload.isValue = true → branches.lookup label = some branch →
      Contracts (.case (.tag label payload ty) branches) (branch.body.plug [payload])
  | fix {name : String} {ty : Ty} {body : Term} :
      Contracts (.fix (.abs name ty body)) (body.plug [.fix (.abs name ty body)])

theorem destructureFields_cons_iff {field : String × Pattern} {rest : List (String × Pattern)}
    {terms bindings : List (String × Term)} :
    Pattern.destructureFields (field :: rest) terms = .ok bindings ↔
      ∃ term first others, terms.lookup field.1 = some term ∧
        field.2.destructure term = .ok first ∧
        Pattern.destructureFields rest terms = .ok others ∧ first ++ others = bindings := by
  rw [Pattern.destructureFields]
  cases terms.lookup field.1 with
  | none => simp
  | some term => simp only [Outcome.bind_eq_ok, Outcome.pure_eq_ok, Option.some.injEq,
      exists_and_left, exists_eq_left']

/-- What a term hands down to the fields of a tuple, a value hands down to the parts that
a pattern takes from it. -/
theorem destructure_parts {property : Term → Prop}
    (hfields : ∀ {fields}, property (.tuple fields) → ∀ entry ∈ fields, property entry.2)
    {pattern : Pattern} {value : Term} {bindings : List (String × Term)}
    (h : pattern.destructure value = .ok bindings) (hvalue : property value) :
    ∀ binding ∈ bindings, property binding.2 := by
  induction pattern generalizing value bindings with
  | var name =>
      cases h
      simpa using hvalue
  | record patterns ih =>
      cases value with
      | tuple terms =>
          rw [Pattern.destructure] at h
          induction patterns generalizing bindings with
          | nil =>
              cases h
              simp
          | cons field rest ihrest =>
              rw [List.forall_mem_cons] at ih
              obtain ⟨term, first, others, hterm, hfirst, hothers, rfl⟩ :=
                destructureFields_cons_iff.1 h
              have hpart := hfields hvalue _ (Table.mem_of_lookup hterm)
              rw [List.forall_mem_append]
              exact ⟨ih.1 hfirst hpart, ihrest ih.2 hothers⟩
      | _ => cases h
  | foreign => cases value <;> cases h

theorem known_of_destructure {pattern : Pattern} {value : Term}
    {bindings : List (String × Term)} (h : pattern.destructure value = .ok bindings)
    (hvalue : value.known = true) : ∀ term ∈ bindings.map Prod.snd, term.known = true := by
  rw [List.forall_mem_map]
  refine @destructure_parts (fun term => term.known = true) (fun {fields} hfields => ?_)
    _ _ _ h hvalue
  rwa [known, knownFields_iff] at hfields

theorem openLet_eq_ok_iff {pattern : Pattern} {value body u : Term}
    (hvalue : value.known = true) (hbody : body.known = true) :
    openLet pattern value body = .ok u ↔ ∃ bindings, pattern.destructure value = .ok bindings ∧
      u = body.plug (bindings.map Prod.snd) := by
  rw [openLet, Outcome.bind_eq_ok]
  refine exists_congr fun bindings => and_congr_right fun hbindings => ?_
  rw [instantiate_eq_ok (known_of_destructure hbindings hvalue) hbody, Except.ok.injEq, eq_comm]

theorem openLet_var (name : String) (value body : Term) :
    openLet (.var name) value body = substTop value body := by
  show (substTop value body >>= instantiate []) = _
  cases substTop value body <;> rfl

/-- The redexes, each with the outcome that contraction has for it. -/
inductive Redex : Term → Except Fault Term → Prop
  | beta {name : String} {ty : Ty} {body a : Term} : a.isValue = true →
      Redex (.app (.abs name ty body) a) (substTop a body)
  | yes {yes no : Term} : Redex (.ite (.bool true) yes no) (.ok yes)
  | no {yes no : Term} : Redex (.ite (.bool false) yes no) (.ok no)
  | predZero : Redex (.pred .zero) (.ok .zero)
  | predSucc {n : Term} : n.isNumeral = true → Redex (.pred (.succ n)) (.ok n)
  | isZeroZero : Redex (.isZero .zero) (.ok (.bool true))
  | isZeroSucc {n : Term} : n.isNumeral = true → Redex (.isZero (.succ n)) (.ok (.bool false))
  | letIn {pattern : Pattern} {value body : Term} : value.isValue = true →
      Redex (.letIn pattern value body) (openLet pattern value body)
  | case {label : String} {payload : Term} {ty : Ty} {branches : List (String × Branch Term)}
      {branch : Branch Term} : payload.isValue = true → branches.lookup label = some branch →
      Redex (.case (.tag label payload ty) branches) (substTop payload branch.body)
  | noBranch {label : String} {payload : Term} {ty : Ty}
      {branches : List (String × Branch Term)} : payload.isValue = true →
      branches.lookup label = none → Redex (.case (.tag label payload ty) branches)
        (.error (.noRule (.case (.tag label payload ty) branches)))
  | fix {name : String} {ty : Ty} {body : Term} :
      Redex (.fix (.abs name ty body)) (substTop (.fix (.abs name ty body)) body)

theorem redex_of_contract? {t : Term} {result : Except Fault Term}
    (h : t.contract? = some result) : Redex t result := by
  unfold contract? at h
  split at h
  · obtain ⟨hvalue, ⟨⟩⟩ := Option.ite_none_right_eq_some.1 h
    exact .beta hvalue
  · cases h
    exact .yes
  · cases h
    exact .no
  · cases h
    exact .predZero
  · obtain ⟨hn, ⟨⟩⟩ := Option.ite_none_right_eq_some.1 h
    exact .predSucc hn
  · cases h
    exact .isZeroZero
  · obtain ⟨hn, ⟨⟩⟩ := Option.ite_none_right_eq_some.1 h
    exact .isZeroSucc hn
  · obtain ⟨hvalue, ⟨⟩⟩ := Option.ite_none_right_eq_some.1 h
    exact .letIn hvalue
  · obtain ⟨hvalue, hbranches⟩ := Option.ite_none_right_eq_some.1 h
    split at hbranches
    · rename_i hbranch
      cases hbranches
      exact .case hvalue hbranch
    · rename_i hbranch
      cases hbranches
      exact .noBranch hvalue hbranch
  · cases h
    exact .fix
  · cases h

/-- A contraction that gives a result is one that the rules give, whether all nodes of the term
have a form or not: substitution has then looked at those that matter. -/
theorem contracts_of_contract? {t u : Term} (h : t.contract? = some (.ok u)) : Contracts t u := by
  have hredex := redex_of_contract? h
  generalize hresult : Except.ok u = result at hredex
  cases hredex with
  | beta hvalue =>
      rw [eq_plug_of_substTop hresult.symm]
      exact .beta hvalue
  | yes =>
      cases hresult
      exact .yes
  | no =>
      cases hresult
      exact .no
  | predZero =>
      cases hresult
      exact .predZero
  | predSucc hn =>
      cases hresult
      exact .predSucc hn
  | isZeroZero =>
      cases hresult
      exact .isZeroZero
  | isZeroSucc hn =>
      cases hresult
      exact .isZeroSucc hn
  | letIn hvalue =>
      obtain ⟨bindings, hbindings, hopened⟩ := Outcome.bind_eq_ok.1 hresult.symm
      rw [eq_plug_of_instantiate hopened]
      exact .letIn hvalue hbindings
  | case hvalue hbranch =>
      rw [eq_plug_of_substTop hresult.symm]
      exact .case hvalue hbranch
  | noBranch => cases hresult
  | fix =>
      rw [eq_plug_of_substTop hresult.symm]
      exact .fix

theorem contract?_eq_ok_iff {t u : Term} (ht : t.known = true) :
    t.contract? = some (.ok u) ↔ Contracts t u := by
  constructor
  · exact contracts_of_contract?
  · intro h
    cases h with
    | beta hvalue =>
        simp only [known, Bool.and_eq_true] at ht
        rw [contract?, if_pos hvalue, substTop_eq_ok ht.2 ht.1]
    | yes | no | predZero | isZeroZero => rfl
    | predSucc hn => rw [contract?, if_pos hn]
    | isZeroSucc hn => rw [contract?, if_pos hn]
    | letIn hvalue hbindings =>
        simp only [known, Bool.and_eq_true] at ht
        rw [contract?, if_pos hvalue, (openLet_eq_ok_iff ht.1.2 ht.2).2 ⟨_, hbindings, rfl⟩]
    | case hvalue hbranch =>
        simp only [known, Bool.and_eq_true, knownBranches_iff] at ht
        rw [contract?, if_pos hvalue, hbranch]
        dsimp only
        rw [substTop_eq_ok ht.1 (ht.2 _ (Table.mem_of_lookup hbranch))]
    | @fix name ty body =>
        have hbody : body.known = true := ht
        rw [contract?, substTop_eq_ok ht hbody]

/-! ## Reduction -/

inductive Reduces : Term → Term → Prop
  | root {t u : Term} : Contracts t u → Reduces t u
  | inside {F : Frame} {t u : Term} : F.ready = true → t.isValue = false → Reduces t u →
      Reduces (F.fill t) (F.fill u)

theorem known_fill {F : Frame} {u : Term} (h : (F.fill u).known = true) :
    u.known = true ∧ ∀ {u' : Term}, u'.known = true → (F.fill u').known = true := by
  cases F with
  | field before label after =>
      simp only [Frame.fill, known, knownFields_iff, List.forall_mem_append,
        List.forall_mem_cons] at h ⊢
      exact ⟨h.2.1, fun hu' => ⟨h.1, hu', h.2.2⟩⟩
  | _ => simp_all [Frame.fill, known]

theorem isValue_of_step {t t' : Term} (h : t.step = .ok t') : t.isValue = false := by
  cases hvalue : t.isValue with
  | false => rfl
  | true =>
      obtain ⟨u, hu⟩ := step_of_isValue hvalue
      rw [hu] at h
      cases h

/-- All that can come of a step: what a contraction of the term itself gives, what the step of a
part gives in its frame, or that there is no rule. -/
theorem step_outcome {motive : Term → Except Fault Term → Prop}
    (root : ∀ {t result}, t.contract? = some result → motive t result)
    (inside : ∀ {F : Frame} {u}, F.ready = true → motive u u.step →
      motive (F.fill u) (u.step.map F.fill))
    (normal : ∀ {t}, motive t (.error (.noRule t))) (t : Term) : motive t t.step := by
  -- a redex is contracted before any of its parts is looked at
  have hroot : ∀ {t : Term}, (t.contract? = none → motive t t.step) → motive t t.step := by
    intro t hrest
    cases hcontract : t.contract? with
    | none => exact hrest hcontract
    | some result =>
        have hstep : t.step = result := by rw [step.eq_def, hcontract]
        rw [hstep]
        exact root hcontract
  induction t with
  | unit | bool | zero | var | abs | foreign => exact normal
  | succ term ih => exact @inside .succ term rfl ih
  | tag label payload ty ih => exact @inside (.payload label ty) payload rfl ih
  | tuple fields ih =>
      rcases exists_first_nonvalue fields with hall | ⟨before, label, u, after, rfl, hbefore, hu⟩
      · have hstep : (tuple fields).step = .error (.noRule (tuple fields)) := by
          rw [step.eq_def]
          simp only [contract?, stepFields_of_allValues hall]
        rw [hstep]
        exact normal
      · have hmem : (label, u) ∈ before ++ (label, u) :: after := by simp
        have hframe := @inside (.field before label after) u hbefore (ih _ hmem)
        rwa [← @step_fill (.field before label after) hbefore u hu] at hframe
  | app f a ihf iha =>
      apply hroot
      intro hnone
      rw [step.eq_def, hnone]
      dsimp only
      split
      · rename_i hvalue
        exact @inside (.argument f) a hvalue iha
      · exact @inside (.function a) f rfl ihf
  | pred term ih =>
      apply hroot
      intro hnone
      rw [step.eq_def, hnone]
      exact @inside .pred term rfl ih
  | isZero term ih =>
      apply hroot
      intro hnone
      rw [step.eq_def, hnone]
      exact @inside .isZero term rfl ih
  | ite condition yes no ih _ _ =>
      apply hroot
      intro hnone
      rw [step.eq_def, hnone]
      exact @inside (.condition yes no) condition rfl ih
  | letIn pattern value body ih _ =>
      apply hroot
      intro hnone
      rw [step.eq_def, hnone]
      exact @inside (.value pattern body) value rfl ih
  | case scrutinee branches ih _ =>
      apply hroot
      intro hnone
      rw [step.eq_def, hnone]
      exact @inside (.scrutinee branches) scrutinee rfl ih
  | fix term ih =>
      apply hroot
      intro hnone
      rw [step.eq_def, hnone]
      exact @inside .fix term rfl ih

theorem step_induction {motive : Term → Term → Prop}
    (root : ∀ {t u}, t.contract? = some (.ok u) → motive t u)
    (inside : ∀ {F : Frame} {t u}, F.ready = true → t.step = .ok u → motive t u →
      motive (F.fill t) (F.fill u))
    {t t' : Term} (h : t.step = .ok t') : motive t t' := by
  refine step_outcome (motive := fun t result => ∀ {u}, result = .ok u → motive t u)
    (fun {t result} hcontract {u} hresult => ?_) (fun {F u} hF ih {t'} hmap => ?_)
    (fun {t u} hnone => ?_) t h
  · subst hresult
    exact root hcontract
  · obtain ⟨u', hu', rfl⟩ := Outcome.map_eq_ok.1 hmap
    exact inside hF hu' (ih hu')
  · cases hnone

theorem reduces_of_step {t t' : Term} (h : t.step = .ok t') : Reduces t t' := by
  refine step_induction (fun hcontract => ?_) (fun hF hstep ih => ?_) h
  · exact .root (contracts_of_contract? hcontract)
  · exact .inside hF (isValue_of_step hstep) ih

/-- A step is a reduction, and every reduction is the step. -/
theorem step_eq_ok_iff {t t' : Term} (ht : t.known = true) :
    t.step = .ok t' ↔ Reduces t t' := by
  constructor
  · exact reduces_of_step
  · intro h
    induction h with
    | root hcontract => rw [step.eq_def, (contract?_eq_ok_iff ht).2 hcontract]
    | inside hF hvalue _ ih =>
        rw [step_fill hF hvalue, ih (known_fill ht).1]
        rfl

theorem known_of_contracts {t u : Term} (ht : t.known = true) (h : Contracts t u) :
    u.known = true := by
  cases h with
  | beta _ =>
      simp only [known, Bool.and_eq_true] at ht
      exact known_plug (by simpa using ht.2) ht.1
  | yes =>
      simp only [known, Bool.and_eq_true] at ht
      exact ht.1.2
  | no =>
      simp only [known, Bool.and_eq_true] at ht
      exact ht.2
  | predSucc _ => exact ht
  | predZero | isZeroZero | isZeroSucc => rfl
  | letIn _ hbindings =>
      simp only [known, Bool.and_eq_true] at ht
      exact known_plug (known_of_destructure hbindings ht.1.2) ht.2
  | case _ hbranch =>
      simp only [known, Bool.and_eq_true, knownBranches_iff] at ht
      exact known_plug (by simpa using ht.1) (ht.2 _ (Table.mem_of_lookup hbranch))
  | @fix name ty body =>
      have hbody : body.known = true := ht
      exact known_plug (by simpa using ht) hbody

theorem known_of_step {t t' : Term} (ht : t.known = true) (h : t.step = .ok t') :
    t'.known = true := by
  have hreduces := reduces_of_step h
  clear h
  induction hreduces with
  | root hcontract => exact known_of_contracts ht hcontract
  | inside _ _ _ ih =>
      obtain ⟨hpart, hfill⟩ := known_fill ht
      exact hfill (ih hpart)

end Term

/-! ## The names of bindings -/

namespace Pattern

theorem variables?_of_destructure {pattern : Pattern} {value : Term}
    {bindings : List (String × Term)} (h : pattern.destructure value = .ok bindings) :
    pattern.variables? = some (bindings.map Prod.fst) := by
  induction pattern generalizing value bindings with
  | var name =>
      cases h
      rfl
  | record patterns ih =>
      cases value with
      | tuple terms =>
          rw [destructure] at h
          rw [variables?]
          induction patterns generalizing bindings with
          | nil =>
              cases h
              rfl
          | cons field rest ihrest =>
              rw [List.forall_mem_cons] at ih
              obtain ⟨_, first, others, -, hfirst, hothers, rfl⟩ :=
                Term.destructureFields_cons_iff.1 h
              rw [fieldVariables?, ih.1 hfirst, ihrest ih.2 hothers, List.map_append]
              rfl
      | _ => cases h
  | foreign => cases value <;> cases h

theorem length?_of_destructure {pattern : Pattern} {value : Term}
    {bindings : List (String × Term)} (h : pattern.destructure value = .ok bindings) :
    pattern.length? = some bindings.length :=
  length?_eq_some_iff.2 ⟨_, variables?_of_destructure h, List.length_map _⟩

end Pattern

end TypedLambda
