import TypedLambda.Proofs.Iteration

/-!
# Well-scoped terms

A term is scoped at `n` if each of its variables points to a binder above it or to one of `n`
variables outside of the term. This is a condition on single variables and the number of binders
above them, as `Term.everyVar` states it of a whole term. A walk over a term acts at its variables
only, so it keeps such a condition if it does so there (`Term.everyVar_mapVars`).

A contraction drops a binder, replaces the indices that point to it and moves those beyond it in.
It follows that a step keeps a term scoped, and that a run does. Types play no part, and neither
does the form of the nodes: a step that meets a node of no form either leaves it where it is or
gives no result.
-/

namespace TypedLambda.Term

/-! ## Conditions on variables -/

mutual

/-- Every variable passes the test, which is given the number of binders above it, counted from
`k` on. Those of a pattern that is not known are counted as none. -/
def everyVar (test : Nat → Int → Bool) (k : Nat) : Term → Bool
  | .succ term => term.everyVar test k
  | .pred term => term.everyVar test k
  | .isZero term => term.everyVar test k
  | .var index _ => test k index
  | .abs _ _ body => body.everyVar test (k + 1)
  | .app function argument => function.everyVar test k && argument.everyVar test k
  | .ite condition yes no =>
      condition.everyVar test k && yes.everyVar test k && no.everyVar test k
  | .tuple fields => everyVarFields test k fields
  | .letIn pattern value body =>
      value.everyVar test k && body.everyVar test (k + pattern.size)
  | .tag _ payload _ => payload.everyVar test k
  | .case scrutinee branches =>
      scrutinee.everyVar test k && everyVarBranches test (k + 1) branches
  | .fix term => term.everyVar test k
  | _ => true

def everyVarFields (test : Nat → Int → Bool) (k : Nat) : List (String × Term) → Bool
  | [] => true
  | (_, term) :: rest => term.everyVar test k && everyVarFields test k rest

def everyVarBranches (test : Nat → Int → Bool) (k : Nat) : List (String × Branch Term) → Bool
  | [] => true
  | (_, ⟨_, _, body⟩) :: rest => body.everyVar test k && everyVarBranches test k rest

end

section
variable {test : Nat → Int → Bool} {k : Nat}

theorem everyVarFields_iff {fields : List (String × Term)} :
    everyVarFields test k fields = true ↔ ∀ entry ∈ fields, entry.2.everyVar test k = true := by
  induction fields with
  | nil => simp [everyVarFields]
  | cons entry rest ih => simp [everyVarFields, ih]

theorem everyVarBranches_iff {branches : List (String × Branch Term)} :
    everyVarBranches test k branches = true ↔
      ∀ entry ∈ branches, entry.2.body.everyVar test k = true := by
  induction branches with
  | nil => simp [everyVarBranches]
  | cons entry rest ih => simp [everyVarBranches, ih]

end

/-- A walk that takes every variable which passes one test to a term which passes another does so
with whole terms. The tests may count `a` and `b` binders more than the walk. -/
theorem everyVar_mapVars {test test' : Nat → Int → Bool} {act : Nat → Int → String → Term}
    {a b : Nat}
    (hleaf : ∀ j index name, test (j + a) index = true →
      (act j index name).everyVar test' (j + b) = true)
    {t : Term} {k : Nat} (h : t.everyVar test (k + a) = true) :
    (t.mapVars act k).everyVar test' (k + b) = true := by
  induction t generalizing k with
  | unit | bool | zero | foreign => rfl
  | var index name => exact hleaf k index name h
  | succ term ih | pred term ih | isZero term ih | fix term ih => exact ih h
  | tag label payload ty ih => exact ih h
  | abs name ty body ih =>
      simp only [mapVars, everyVar, Nat.add_right_comm k _ 1] at h ⊢
      exact ih h
  | app function argument ihf iha =>
      simp only [mapVars, everyVar, Bool.and_eq_true] at h ⊢
      exact ⟨ihf h.1, iha h.2⟩
  | ite condition yes no ihc ihy ihn =>
      simp only [mapVars, everyVar, Bool.and_eq_true] at h ⊢
      exact ⟨⟨ihc h.1.1, ihy h.1.2⟩, ihn h.2⟩
  | tuple fields ih =>
      rw [mapVars_tuple]
      simp only [everyVar, everyVarFields_iff, List.forall_mem_map] at h ⊢
      exact fun entry hmem => ih entry hmem (h entry hmem)
  | letIn pattern value body ihv ihb =>
      simp only [mapVars, everyVar, Bool.and_eq_true, Nat.add_right_comm k _ pattern.size] at h ⊢
      exact ⟨ihv h.1, ihb h.2⟩
  | case scrutinee branches ihs ihb =>
      rw [mapVars_case]
      simp only [everyVar, Bool.and_eq_true, everyVarBranches_iff, List.forall_mem_map,
        Nat.add_right_comm k _ 1] at h ⊢
      exact ⟨ihs h.1, fun entry hmem => ihb entry hmem (h.2 entry hmem)⟩

/-! ## Scoped terms -/

def inScope (n k : Nat) (index : Int) : Bool := decide (0 ≤ index ∧ index < n + k)

theorem inScope_iff {n k : Nat} {index : Int} :
    inScope n k index = true ↔ 0 ≤ index ∧ index < n + k := decide_eq_true_iff

/-- Every variable points to a binder above it or to one of `n` variables outside. -/
def scopedAt (n : Nat) (t : Term) : Bool := t.everyVar (inScope n) 0

variable {n : Nat} {t u : Term}

theorem everyVar_moved (h : t.scopedAt n = true) (j : Nat) :
    (t.moved j 0).everyVar (inScope n) j = true := by
  have hleaf : ∀ (m : Nat) (index : Int) (name : String), inScope n (m + 0) index = true →
      (shiftVar j 0 m index name).everyVar (inScope n) (m + j) = true := by
    intro m index name hindex
    rw [inScope_iff] at hindex
    by_cases hlt : index < m
    · simp only [shiftVar, Int.zero_add, hlt, if_true, everyVar, inScope_iff]
      omega
    · simp only [shiftVar, Int.zero_add, hlt, if_false, everyVar, inScope_iff]
      omega
  have hmoved := @everyVar_mapVars _ _ _ 0 j hleaf t 0 h
  rwa [Nat.zero_add] at hmoved

theorem scopedAt_plug {terms : List Term} {body : Term}
    (hterms : ∀ term ∈ terms, term.scopedAt n = true)
    (hbody : body.everyVar (inScope n) terms.length = true) :
    (body.plug terms).scopedAt n = true := by
  have hleaf : ∀ (j : Nat) (index : Int) (name : String),
      inScope n (j + terms.length) index = true →
      (plugVar terms j index name).everyVar (inScope n) (j + 0) = true := by
    intro j index name hindex
    rw [inScope_iff] at hindex
    by_cases hlt : index < j
    · rw [plugVar_of_lt hlt, everyVar, inScope_iff]
      omega
    · cases hterm : terms[(index - j).toNat]? with
      | some term =>
          rw [plugVar_of_some (by omega) hterm]
          exact everyVar_moved (hterms term (List.mem_of_getElem? hterm)) j
      | none =>
          have hlength := List.getElem?_eq_none_iff.1 hterm
          rw [plugVar_of_ge (by omega), everyVar, inScope_iff]
          omega
  exact @everyVar_mapVars _ _ _ terms.length 0 hleaf body 0 (by rwa [Nat.zero_add])

/-! ## Reduction -/

theorem scopedAt_of_destructure {pattern : Pattern} {value : Term}
    {bindings : List (String × Term)} (h : pattern.destructure value = .ok bindings)
    (hvalue : value.scopedAt n = true) :
    ∀ term ∈ bindings.map Prod.snd, term.scopedAt n = true := by
  rw [List.forall_mem_map]
  refine @destructure_parts (fun term => term.scopedAt n = true) (fun {fields} hfields => ?_)
    _ _ _ h hvalue
  rwa [scopedAt, everyVar, everyVarFields_iff] at hfields

theorem Contracts.scopedAt (h : Contracts t u) (ht : t.scopedAt n = true) :
    u.scopedAt n = true := by
  have hparts := ht
  cases h with
  | beta _ =>
      simp only [Term.scopedAt, everyVar, Bool.and_eq_true] at hparts
      exact scopedAt_plug (List.forall_mem_singleton.2 hparts.2) hparts.1
  | yes =>
      simp only [Term.scopedAt, everyVar, Bool.and_eq_true] at hparts
      exact hparts.1.2
  | no =>
      simp only [Term.scopedAt, everyVar, Bool.and_eq_true] at hparts
      exact hparts.2
  | predZero | isZeroZero | isZeroSucc => rfl
  | predSucc _ => exact ht
  | @letIn pattern value body bindings _ hbindings =>
      simp only [Term.scopedAt, everyVar, Bool.and_eq_true, Pattern.size,
        Pattern.length?_of_destructure hbindings, Option.getD_some, Nat.zero_add] at hparts
      refine scopedAt_plug (scopedAt_of_destructure hbindings hparts.1) ?_
      rw [List.length_map]
      exact hparts.2
  | case _ hbranch =>
      simp only [Term.scopedAt, everyVar, Bool.and_eq_true, everyVarBranches_iff] at hparts
      refine scopedAt_plug (List.forall_mem_singleton.2 hparts.1) ?_
      exact hparts.2 _ (Table.mem_of_lookup hbranch)
  | fix =>
      simp only [Term.scopedAt, everyVar] at hparts
      exact scopedAt_plug (List.forall_mem_singleton.2 ht) hparts

theorem scopedAt_fill {F : Frame} (h : (F.fill t).scopedAt n = true) :
    t.scopedAt n = true ∧ ∀ {u : Term}, u.scopedAt n = true → (F.fill u).scopedAt n = true := by
  cases F with
  | field before label after =>
      simp only [Frame.fill, scopedAt, everyVar, everyVarFields_iff, List.forall_mem_append,
        List.forall_mem_cons] at h ⊢
      exact ⟨h.2.1, fun hu => ⟨h.1, hu, h.2.2⟩⟩
  | _ => simp_all [Frame.fill, scopedAt, everyVar]

theorem Reduces.scopedAt (h : Reduces t u) (ht : t.scopedAt n = true) : u.scopedAt n = true := by
  induction h with
  | root hcontract => exact hcontract.scopedAt ht
  | inside _ _ _ ih =>
      obtain ⟨hpart, hfill⟩ := scopedAt_fill ht
      exact hfill (ih hpart)

theorem scopedAt_of_stepN {k : Nat} (ht : t.scopedAt n = true) (h : t.stepN k = .ok u) :
    u.scopedAt n = true := by
  induction k generalizing t with
  | zero =>
      cases h
      exact ht
  | succ k ih =>
      obtain ⟨s, hs, hrest⟩ := stepN_succ_eq_ok.1 h
      exact ih ((reduces_of_step hs).scopedAt ht) hrest

/-- Steps and runs of any length keep a term scoped, typed or not. So no index of a term without
free variables ever comes to point outside of it, or below zero. -/
theorem reduction_scoped (ht : t.scopedAt n = true) :
    (∀ {t'}, t.step = .ok t' → t'.scopedAt n = true) ∧
      ∀ {k t'}, t.stepN k = .ok t' → t'.scopedAt n = true :=
  ⟨fun hstep => (reduces_of_step hstep).scopedAt ht, fun hsteps => scopedAt_of_stepN ht hsteps⟩

/-- An ill-typed term with one free variable and a node of no form. In three steps the variable
is moved out of a let and a case, and under two abstractions. -/
theorem reduction_scoped_open :
    let value : Term := .tuple [("b", .abs "x" .int (.app (.var 0 "x") (.var 1 "free"))),
      ("a", .unit)]
    let t : Term := .ite (.bool true)
      (.letIn (.record [("a", .var "p"), ("b", .var "q")]) value
        (.case (.tag "l" (.var 1 "q") .bool) [("l", ⟨"l", "z",
          .abs "w" .int (.app (.var 1 "z") (.app (.var 2 "p") (.var 4 "free")))⟩)]))
      .foreign
    let u : Term := .abs "w" .int
      (.app (.abs "x" .int (.app (.var 0 "x") (.var 2 "free"))) (.app .unit (.var 1 "free")))
    t.scopedAt 1 = true ∧ t.stepN 3 = .ok u ∧ u.scopedAt 1 = true := by
  intro value t u
  have ht : t.scopedAt 1 = true := rfl
  have hsteps : t.stepN 3 = .ok u := rfl
  exact ⟨ht, hsteps, (reduction_scoped ht).2 hsteps⟩

end TypedLambda.Term
