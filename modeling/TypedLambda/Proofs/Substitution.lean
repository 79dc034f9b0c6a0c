import TypedLambda.Proofs.Forms
import TypedLambda.Proofs.Outcomes
import TypedLambda.Evaluation.Step

/-!
# Simultaneous substitution

`Term.mapVars` is the walk of `Term.traverse` without its failures: on a term whose nodes
all have a form the two agree. Two walks one after the other are one walk that does both
at the leaves, so every law of shifting and substitution is a law about single variables.

`Term.plug` puts several terms in place of the lowest indices at once. It is what the
substitution under one binder and the one under a pattern come to.
-/

namespace TypedLambda

def Pattern.size (pattern : Pattern) : Nat := pattern.length?.getD 0

def Branch.map {α β : Type} (f : α → β) (branch : Branch α) : Branch β :=
  ⟨branch.label, branch.name, f branch.body⟩

namespace Term

/-! ## The walk -/

mutual

/-- Replace every variable by what `act` makes of it, given the number `k` of binders
above it. -/
@[simp] def mapVars (act : Nat → Int → String → Term) (k : Nat) : Term → Term
  | .unit => .unit
  | .bool value => .bool value
  | .zero => .zero
  | .succ term => .succ (term.mapVars act k)
  | .pred term => .pred (term.mapVars act k)
  | .isZero term => .isZero (term.mapVars act k)
  | .var index name => act k index name
  | .abs name ty body => .abs name ty (body.mapVars act (k + 1))
  | .app function argument => .app (function.mapVars act k) (argument.mapVars act k)
  | .ite condition yes no =>
      .ite (condition.mapVars act k) (yes.mapVars act k) (no.mapVars act k)
  | .tuple fields => .tuple (mapFields act k fields)
  | .letIn pattern value body =>
      .letIn pattern (value.mapVars act k) (body.mapVars act (k + pattern.size))
  | .tag label payload ty => .tag label (payload.mapVars act k) ty
  | .case scrutinee branches =>
      .case (scrutinee.mapVars act k) (mapBranches act (k + 1) branches)
  | .fix term => .fix (term.mapVars act k)
  | .foreign => .foreign

@[simp] def mapFields (act : Nat → Int → String → Term) (k : Nat) :
    List (String × Term) → List (String × Term)
  | [] => []
  | (label, term) :: rest => (label, term.mapVars act k) :: mapFields act k rest

@[simp] def mapBranches (act : Nat → Int → String → Term) (k : Nat) :
    List (String × Branch Term) → List (String × Branch Term)
  | [] => []
  | (key, ⟨label, name, body⟩) :: rest =>
      (key, ⟨label, name, body.mapVars act k⟩) :: mapBranches act k rest

end

section
variable {act : Nat → Int → String → Term} {k : Nat}

theorem mapVars_tuple {fields : List (String × Term)} :
    (tuple fields).mapVars act k =
      tuple (fields.map fun entry => (entry.1, entry.2.mapVars act k)) := by
  have hfields : mapFields act k fields =
      fields.map fun entry => (entry.1, entry.2.mapVars act k) := by
    induction fields with
    | nil => rfl
    | cons entry rest ih => rw [mapFields, ih, List.map_cons]
  rw [mapVars, hfields]

theorem mapVars_case {scrutinee : Term} {branches : List (String × Branch Term)} :
    (case scrutinee branches).mapVars act k =
      case (scrutinee.mapVars act k)
        (branches.map fun entry => (entry.1, entry.2.map (mapVars act (k + 1)))) := by
  have hbranches : mapBranches act (k + 1) branches =
      branches.map fun entry => (entry.1, entry.2.map (mapVars act (k + 1))) := by
    induction branches with
    | nil => rfl
    | cons entry rest ih => rw [mapBranches, ih, List.map_cons]; rfl
  rw [mapVars, hbranches]

end

theorem mapVars_id {act : Nat → Int → String → Term}
    (h : ∀ j index name, act j index name = var index name) (t : Term) (k : Nat) :
    t.mapVars act k = t := by
  induction t generalizing k with
  | unit | bool | zero | foreign => rfl
  | succ term ih | pred term ih | isZero term ih | fix term ih => simp only [mapVars, ih]
  | tag label payload ty ih => simp only [mapVars, ih]
  | var index name => exact h k index name
  | abs name ty body ih => simp only [mapVars, ih]
  | app function argument ihf iha => simp only [mapVars, ihf, iha]
  | ite condition yes no ihc ihy ihn => simp only [mapVars, ihc, ihy, ihn]
  | tuple fields ih =>
      rw [mapVars_tuple, tuple.injEq]
      refine (List.map_congr_left fun entry hmem => ?_).trans (List.map_id fields)
      rw [ih entry hmem]
      rfl
  | letIn pattern value body ihv ihb => simp only [mapVars, ihv, ihb]
  | case scrutinee branches ihs ihb =>
      rw [mapVars_case, ihs]
      congr 1
      refine (List.map_congr_left fun entry hmem => ?_).trans (List.map_id branches)
      simp only [Branch.map, ihb entry hmem]
      rfl

/-- A walk after a walk is one walk, with what the second makes of the leaves of the
first. Either may start below other binders. -/
theorem mapVars_mapVars {f g h : Nat → Int → String → Term} {a b : Nat}
    (hleaf : ∀ j index name, (g (j + a) index name).mapVars f (j + b) = h j index name)
    (t : Term) (k : Nat) : (t.mapVars g (k + a)).mapVars f (k + b) = t.mapVars h k := by
  induction t generalizing k with
  | unit | bool | zero | foreign => rfl
  | succ term ih | pred term ih | isZero term ih | fix term ih => simp only [mapVars, ih]
  | tag label payload ty ih => simp only [mapVars, ih]
  | var index name => exact hleaf k index name
  | abs name ty body ih =>
      have hbody := ih (k + 1)
      simp only [mapVars, Nat.add_right_comm k _ 1, hbody]
  | app function argument ihf iha => simp only [mapVars, ihf, iha]
  | ite condition yes no ihc ihy ihn => simp only [mapVars, ihc, ihy, ihn]
  | tuple fields ih =>
      rw [mapVars_tuple, mapVars_tuple, mapVars_tuple, List.map_map, tuple.injEq]
      exact List.map_congr_left fun entry hmem => by simp only [Function.comp, ih entry hmem]
  | letIn pattern value body ihv ihb =>
      have hbody := ihb (k + pattern.size)
      simp only [mapVars, ihv, Nat.add_right_comm k _ pattern.size, hbody]
  | case scrutinee branches ihs ihb =>
      rw [mapVars_case, mapVars_case, mapVars_case, ihs, List.map_map]
      congr 1
      apply List.map_congr_left
      intro entry hmem
      have hbody := ihb entry hmem (k + 1)
      simp only [Function.comp, Branch.map, Nat.add_right_comm k _ 1, hbody]

/-! ## Walks that may fail -/

theorem known_mapVars {act : Nat → Int → String → Term} {k : Nat} {t : Term}
    (hact : ∀ j index name, (act j index name).known = true) (h : t.known = true) :
    (t.mapVars act k).known = true := by
  induction t generalizing k with
  | unit | bool | zero => rfl
  | foreign => cases h
  | var index name => exact hact k index name
  | succ term ih | pred term ih | isZero term ih | fix term ih => exact ih h
  | tag label payload ty ih => exact ih h
  | abs name ty body ih => exact ih h
  | app function argument ihf iha =>
      simp only [mapVars, known, Bool.and_eq_true] at h ⊢
      exact ⟨ihf h.1, iha h.2⟩
  | ite condition yes no ihc ihy ihn =>
      simp only [mapVars, known, Bool.and_eq_true] at h ⊢
      exact ⟨⟨ihc h.1.1, ihy h.1.2⟩, ihn h.2⟩
  | tuple fields ih =>
      rw [mapVars_tuple]
      simp only [known, knownFields_iff, List.forall_mem_map] at h ⊢
      exact fun entry hmem => ih entry hmem (h entry hmem)
  | letIn pattern value body ihv ihb =>
      simp only [mapVars, known, Bool.and_eq_true] at h ⊢
      exact ⟨⟨h.1.1, ihv h.1.2⟩, ihb h.2⟩
  | case scrutinee branches ihs ihb =>
      rw [mapVars_case]
      simp only [known, Bool.and_eq_true, knownBranches_iff, List.forall_mem_map] at h ⊢
      exact ⟨ihs h.1, fun entry hmem => ihb entry hmem (h.2 entry hmem)⟩

theorem distinct_mapVars {act : Nat → Int → String → Term} {k : Nat} {t : Term}
    (hact : ∀ j index name, (act j index name).distinct = true) (h : t.distinct = true) :
    (t.mapVars act k).distinct = true := by
  induction t generalizing k with
  | unit | bool | zero | foreign => rfl
  | var index name => exact hact k index name
  | succ term ih | pred term ih | isZero term ih | fix term ih => exact ih h
  | tag label payload ty ih =>
      simp only [mapVars, distinct, Bool.and_eq_true] at h ⊢
      exact ⟨ih h.1, h.2⟩
  | abs name ty body ih =>
      simp only [mapVars, distinct, Bool.and_eq_true] at h ⊢
      exact ⟨h.1, ih h.2⟩
  | app function argument ihf iha =>
      simp only [mapVars, distinct, Bool.and_eq_true] at h ⊢
      exact ⟨ihf h.1, iha h.2⟩
  | ite condition yes no ihc ihy ihn =>
      simp only [mapVars, distinct, Bool.and_eq_true] at h ⊢
      exact ⟨⟨ihc h.1.1, ihy h.1.2⟩, ihn h.2⟩
  | tuple fields ih =>
      rw [mapVars_tuple]
      simp only [distinct, Bool.and_eq_true, distinctFields_iff, List.forall_mem_map,
        Table.keys_map] at h ⊢
      exact ⟨h.1, fun entry hmem => ih entry hmem (h.2 entry hmem)⟩
  | letIn pattern value body ihv ihb =>
      simp only [mapVars, distinct, Bool.and_eq_true] at h ⊢
      exact ⟨⟨h.1.1, ihv h.1.2⟩, ihb h.2⟩
  | case scrutinee branches ihs ihb =>
      rw [mapVars_case]
      simp only [distinct, Bool.and_eq_true, distinctBranches_iff, List.forall_mem_map,
        Table.keys_map] at h ⊢
      exact ⟨⟨ihs h.1.1, h.1.2⟩, fun entry hmem => ihb entry hmem (h.2 entry hmem)⟩

/-- On a term whose nodes all have a form, a traversal whose action succeeds is the plain
walk. -/
theorem traverse_eq_ok {act : Nat → Int → String → Except Fault Term}
    {f : Nat → Int → String → Term} (hact : ∀ j index name, act j index name = .ok (f j index name))
    {t : Term} (h : t.known = true) (k : Nat) : t.traverse act k = .ok (t.mapVars f k) := by
  have hfields : ∀ {fields : List (String × Term)} {k : Nat},
      (∀ entry ∈ fields, entry.2.traverse act k = .ok (entry.2.mapVars f k)) →
      traverseFields act k fields = .ok (mapFields f k fields) := by
    intro fields k hall
    induction fields with
    | nil => rfl
    | cons entry rest ih =>
        rw [List.forall_mem_cons] at hall
        rw [traverseFields, hall.1, ih hall.2]
        rfl
  have hbranches : ∀ {branches : List (String × Branch Term)} {k : Nat},
      (∀ entry ∈ branches, entry.2.body.traverse act k = .ok (entry.2.body.mapVars f k)) →
      traverseBranches act k branches = .ok (mapBranches f k branches) := by
    intro branches k hall
    induction branches with
    | nil => rfl
    | cons entry rest ih =>
        rw [List.forall_mem_cons] at hall
        rw [traverseBranches, hall.1, ih hall.2]
        rfl
  induction t generalizing k with
  | unit | bool | zero => rfl
  | foreign => cases h
  | var index name => exact hact k index name
  | succ term ih | pred term ih | isZero term ih | fix term ih =>
      rw [traverse, ih h]
      rfl
  | tag label payload ty ih =>
      rw [traverse, ih h]
      rfl
  | abs name ty body ih =>
      rw [traverse, ih h]
      rfl
  | app function argument ihf iha =>
      simp only [known, Bool.and_eq_true] at h
      rw [traverse, ihf h.1, iha h.2]
      rfl
  | ite condition yes no ihc ihy ihn =>
      simp only [known, Bool.and_eq_true] at h
      rw [traverse, ihc h.1.1, ihy h.1.2, ihn h.2]
      rfl
  | tuple fields ih =>
      simp only [known, knownFields_iff] at h
      rw [traverse, hfields fun entry hmem => ih entry hmem (h entry hmem) k]
      rfl
  | letIn pattern value body ihv ihb =>
      simp only [known, Bool.and_eq_true] at h
      obtain ⟨n, hn⟩ := Option.isSome_iff_exists.1 h.1.1
      have harity : pattern.arity = .ok pattern.size := by simp [Pattern.arity, Pattern.size, hn]
      rw [traverse, ihv h.1.2, harity]
      show (body.traverse act (k + pattern.size) >>= fun body => _) = _
      rw [ihb h.2]
      rfl
  | case scrutinee branches ihs ihb =>
      simp only [known, Bool.and_eq_true, knownBranches_iff] at h
      rw [traverse, ihs h.1,
        hbranches fun entry hmem => ihb entry hmem (h.2 entry hmem) (k + 1)]
      rfl

section
variable {act : Nat → Int → String → Except Fault Term} {k : Nat}

theorem traverseFields_eq_ok {fields results : List (String × Term)} :
    traverseFields act k fields = .ok results ↔
      Table.InStep (fun _ t r => t.traverse act k = .ok r) fields results := by
  induction fields generalizing results with
  | nil =>
      constructor
      · intro h
        cases h
        exact .nil
      · intro h
        cases h
        rfl
  | cons field rest ih =>
      obtain ⟨label, term⟩ := field
      simp only [traverseFields, Outcome.bind_eq_ok, Outcome.pure_eq_ok]
      constructor
      · intro h
        obtain ⟨r, hr, others, hothers, rfl⟩ := h
        exact .cons hr (ih.1 hothers)
      · intro h
        cases h with
        | cons hr hrest => exact ⟨_, hr, _, ih.2 hrest, rfl⟩

theorem traverseBranches_eq_ok {branches results : List (String × Branch Term)} :
    traverseBranches act k branches = .ok results ↔
      Table.InStep (fun _ b r => b.label = r.label ∧ b.name = r.name ∧
        b.body.traverse act k = .ok r.body) branches results := by
  induction branches generalizing results with
  | nil =>
      constructor
      · intro h
        cases h
        exact .nil
      · intro h
        cases h
        rfl
  | cons entry rest ih =>
      obtain ⟨key, label, name, body⟩ := entry
      simp only [traverseBranches, Outcome.bind_eq_ok, Outcome.pure_eq_ok]
      constructor
      · intro h
        obtain ⟨r, hr, others, hothers, rfl⟩ := h
        exact .cons ⟨rfl, rfl, hr⟩ (ih.1 hothers)
      · intro h
        cases h with
        | @cons _ _ r _ _ hr hrest =>
            obtain ⟨_, _, body'⟩ := r
            obtain ⟨rfl, rfl, hbody⟩ := hr
            exact ⟨body', hbody, _, ih.2 hrest, rfl⟩

theorem known_of_traverse {t u : Term} (h : t.traverse act k = .ok u) : t.known = true := by
  induction t generalizing k u with
  | unit | bool | zero | var => rfl
  | foreign => cases h
  | succ term ih | pred term ih | isZero term ih | fix term ih =>
      simp only [traverse, Outcome.bind_eq_ok] at h
      obtain ⟨r, hr, -⟩ := h
      exact ih hr
  | tag label payload ty ih =>
      simp only [traverse, Outcome.bind_eq_ok] at h
      obtain ⟨r, hr, -⟩ := h
      exact ih hr
  | abs name ty body ih =>
      simp only [traverse, Outcome.bind_eq_ok] at h
      obtain ⟨r, hr, -⟩ := h
      exact ih hr
  | app function argument ihf iha =>
      simp only [traverse, Outcome.bind_eq_ok] at h
      obtain ⟨f, hf, a, ha, -⟩ := h
      simp only [known, ihf hf, iha ha, Bool.and_self]
  | ite condition yes no ihc ihy ihn =>
      simp only [traverse, Outcome.bind_eq_ok] at h
      obtain ⟨c, hc, y, hy, n, hn, -⟩ := h
      simp only [known, ihc hc, ihy hy, ihn hn, Bool.and_self]
  | tuple fields ih =>
      simp only [traverse, Outcome.bind_eq_ok, traverseFields_eq_ok] at h
      obtain ⟨results, hfields, -⟩ := h
      simp only [known, knownFields_iff]
      intro entry hmem
      obtain ⟨r, hr⟩ := hfields.exists_of_mem hmem
      exact ih entry hmem hr
  | letIn pattern value body ihv ihb =>
      simp only [traverse, Outcome.bind_eq_ok] at h
      obtain ⟨v, hv, n, hn, b, hb, -⟩ := h
      have hlength : pattern.length?.isSome = true := by
        unfold Pattern.arity at hn
        cases hp : pattern.length? with
        | some m => rfl
        | none =>
            rw [hp] at hn
            cases hn
      simp only [known, hlength, ihv hv, ihb hb, Bool.and_self]
  | case scrutinee branches ihs ihb =>
      simp only [traverse, Outcome.bind_eq_ok, traverseBranches_eq_ok] at h
      obtain ⟨s, hs, results, hbranches, -⟩ := h
      simp only [known, ihs hs, knownBranches_iff, Bool.true_and]
      intro entry hmem
      obtain ⟨r, -, -, hr⟩ := hbranches.exists_of_mem hmem
      exact ihb entry hmem hr

end

/-! ## Shifts -/

/-- The term with `d` added to every index that is free above `cutoff`. -/
def moved (d cutoff : Int) (t : Term) : Term := t.mapVars (shiftVar d cutoff) 0

theorem known_shiftVar (d cutoff : Int) (j : Nat) (index : Int) (name : String) :
    (shiftVar d cutoff j index name).known = true := by
  unfold shiftVar
  split <;> rfl

theorem known_moved {d cutoff : Int} {t : Term} (h : t.known = true) :
    (t.moved d cutoff).known = true :=
  known_mapVars (known_shiftVar d cutoff) h

theorem moved_zero (cutoff : Int) (t : Term) : t.moved 0 cutoff = t := by
  refine mapVars_id (fun j index name => ?_) t 0
  unfold shiftVar
  split
  · rfl
  · rw [Int.add_zero]

theorem shift_eq_ok {t : Term} (h : t.known = true) (d cutoff : Int) :
    t.shift d cutoff = .ok (t.moved d cutoff) := by
  unfold shift
  split
  · rename_i hd
    rw [hd, moved_zero]
  · exact traverse_eq_ok (fun _ _ _ => rfl) h 0

theorem eq_moved_of_shift {t u : Term} {d cutoff : Int} (h : t.shift d cutoff = .ok u) :
    u = t.moved d cutoff := by
  by_cases hd : d = 0
  · subst hd
    rw [moved_zero]
    exact (Except.ok.inj h).symm
  · have hwalk := h
    rw [shift, if_neg hd] at hwalk
    exact Except.ok.inj (h.symm.trans (shift_eq_ok (known_of_traverse hwalk) d cutoff))

theorem mapVars_moved {f h : Nat → Int → String → Term} {d : Int} {j : Nat}
    (hleaf : ∀ m index name, (shiftVar d 0 m index name).mapVars f (m + j) = h m index name)
    (t : Term) : (t.moved d 0).mapVars f j = t.mapVars h 0 := by
  have hwalk := @mapVars_mapVars f (shiftVar d 0) h 0 j hleaf t 0
  rwa [Nat.zero_add] at hwalk

theorem moved_moved (a b : Nat) (t : Term) : (t.moved a 0).moved b 0 = t.moved (a + b : Nat) 0 := by
  refine mapVars_moved (fun m index name => ?_) t
  by_cases hlt : index < m
  · simp [shiftVar, mapVars, hlt]
  · have hle : ¬ index + a < m := by omega
    simp only [shiftVar, mapVars, Nat.add_zero, Int.zero_add, hlt, hle, if_false]
    congr 1
    omega

/-! ## Putting terms in place of the lowest indices -/

/-- What becomes of a variable under `k` binders when `terms` take the place of the
indices 0, 1, and so on outside of them: bound indices stay, the lowest free ones are
replaced, and the others move in. -/
def plugVar (terms : List Term) (k : Nat) (index : Int) (name : String) : Term :=
  if index < k then .var index name
  else
    match terms[(index - k).toNat]? with
    | some term => term.moved k 0
    | none => .var (index - terms.length) name

/-- The term with `terms` in place of the indices 0, 1, and so on, all at once. -/
def plug (terms : List Term) (t : Term) : Term := t.mapVars (plugVar terms) 0

theorem plugVar_of_lt {terms : List Term} {k : Nat} {index : Int} {name : String}
    (h : index < k) : plugVar terms k index name = .var index name := if_pos h

theorem plugVar_of_some {terms : List Term} {k : Nat} {index : Int} {name : String}
    {term : Term} (hge : k ≤ index) (h : terms[(index - k).toNat]? = some term) :
    plugVar terms k index name = term.moved k 0 := by
  have hlt : ¬ index < k := by omega
  simp only [plugVar, hlt, if_false, h]

theorem plug_var {terms : List Term} {i : Nat} {term : Term} (h : terms[i]? = some term)
    (name : String) : (var i name).plug terms = term := by
  have hvar : plugVar terms 0 i name = term.moved 0 0 :=
    plugVar_of_some (Int.natCast_nonneg i) (by simpa using h)
  exact hvar.trans (moved_zero 0 term)

theorem plugVar_of_ge {terms : List Term} {k : Nat} {index : Int} {name : String}
    (hge : k + terms.length ≤ index) :
    plugVar terms k index name = .var (index - terms.length) name := by
  have hlt : ¬ index < k := by omega
  have hnone : terms[(index - k).toNat]? = none := List.getElem?_eq_none (by omega)
  simp only [plugVar, hlt, if_false, hnone]

theorem known_plugVar {terms : List Term} (h : ∀ term ∈ terms, term.known = true) (k : Nat)
    (index : Int) (name : String) : (plugVar terms k index name).known = true := by
  unfold plugVar
  split
  · rfl
  · split
    · rename_i term hterm
      exact known_moved (h term (List.mem_of_getElem? hterm))
    · rfl

theorem known_plug {terms : List Term} {t : Term} (hterms : ∀ term ∈ terms, term.known = true)
    (h : t.known = true) : (t.plug terms).known = true :=
  known_mapVars (known_plugVar hterms) h

theorem distinct_plug {terms : List Term} {t : Term}
    (hterms : ∀ term ∈ terms, term.distinct = true) (h : t.distinct = true) :
    (t.plug terms).distinct = true := by
  refine distinct_mapVars (fun k index name => ?_) h
  unfold plugVar
  split
  · rfl
  · split
    · rename_i term hterm
      refine distinct_mapVars (fun j i n => ?_) (hterms term (List.mem_of_getElem? hterm))
      unfold shiftVar
      split <;> rfl
    · rfl

theorem mapVars_plugVar_moved (terms : List Term) (j : Nat) (t : Term) :
    (t.moved (j + terms.length : Nat) 0).mapVars (plugVar terms) j = t.moved j 0 := by
  refine mapVars_moved (fun m index name => ?_) t
  by_cases hlt : index < m
  · have hlt' : index < (m + j : Nat) := by omega
    simp [shiftVar, mapVars, hlt, plugVar_of_lt hlt']
  · have hge : ((m + j : Nat) : Int) + terms.length ≤ index + (j + terms.length : Nat) := by omega
    simp only [shiftVar, mapVars, Int.zero_add, hlt, if_false, plugVar_of_ge hge]
    congr 1
    omega

theorem plug_nil (t : Term) : t.plug [] = t := by
  refine mapVars_id (fun j index name => ?_) t 0
  by_cases hlt : index < j
  · exact plugVar_of_lt hlt
  · rw [plugVar_of_ge (by simp; omega)]
    simp

/-- What becomes of a variable under `k` binders when `s` takes the place of index 0 outside of
them, and the index stays in use. -/
def replaceVar (s : Term) (k : Nat) (index : Int) (name : String) : Term :=
  if index = k then s.moved k 0 else .var index name

theorem known_replaceVar {s : Term} (hs : s.known = true) (k : Nat) (index : Int)
    (name : String) : (replaceVar s k index name).known = true := by
  unfold replaceVar
  split
  · exact known_moved hs
  · rfl

def replaceFrom (j : Int) (s : Term) (cutoff : Int) (k : Nat) (index : Int) (name : String) :
    Term :=
  if index = j + (cutoff + k) then s.moved (cutoff + k) 0 else .var index name

theorem known_replaceFrom {s : Term} (hs : s.known = true) (j cutoff : Int) (k : Nat)
    (index : Int) (name : String) : (replaceFrom j s cutoff k index name).known = true := by
  unfold replaceFrom
  split
  · exact known_moved hs
  · rfl

theorem replaceFrom_eq_ok {s : Term} (hs : s.known = true) (j cutoff : Int) (k : Nat)
    (index : Int) (name : String) :
    (if index = j + (cutoff + k) then s.shift (cutoff + k) 0 else .ok (.var index name)) =
      .ok (replaceFrom j s cutoff k index name) := by
  unfold replaceFrom
  split
  · exact shift_eq_ok hs (cutoff + k) 0
  · rfl

theorem substitute_eq_ok {s t : Term} (hs : s.known = true) (ht : t.known = true)
    (j cutoff : Int) :
    substitute j s t cutoff = .ok (t.mapVars (replaceFrom j s cutoff) 0) :=
  traverse_eq_ok (replaceFrom_eq_ok hs j cutoff) ht 0

theorem replaceFrom_zero (s : Term) : replaceFrom 0 s 0 = replaceVar s := by
  funext k index name
  simp only [replaceFrom, replaceVar, Int.zero_add]

theorem mapVars_replaceVar (s : Term) (j : Nat) (index : Int) (name : String) :
    (replaceVar (s.moved 1 0) j index name).mapVars (shiftVar (-1) 0) j =
      plugVar [s] j index name := by
  unfold replaceVar
  split
  · rename_i heq
    rw [plugVar_of_some (by omega) (by simp [heq] : [s][(index - j).toNat]? = some s)]
    rw [show (1 : Int) = (1 : Nat) from rfl, moved_moved]
    refine mapVars_moved (fun m i n => ?_) s
    by_cases hlt : i < m
    · have hlt' : i < (m + j : Nat) := by omega
      simp only [shiftVar, mapVars, Int.zero_add, hlt, hlt', if_true]
    · have hge : ¬ i + (1 + j : Nat) < (m + j : Nat) := by omega
      simp only [shiftVar, mapVars, Int.zero_add, hlt, if_false, hge]
      congr 1
      omega
  · rename_i hne
    by_cases hlt : index < j
    · simp only [shiftVar, mapVars, Int.zero_add, hlt, if_true, plugVar_of_lt hlt]
    · have hge : (j : Int) + [s].length ≤ index := by
        rw [List.length_singleton]
        omega
      simp only [shiftVar, mapVars, Int.zero_add, hlt, if_false, plugVar_of_ge hge]
      rfl

theorem substTop_eq_ok {s body : Term} (hs : s.known = true) (hbody : body.known = true) :
    substTop s body = .ok (body.plug [s]) := by
  let replaced : Nat → Int → String → Term := replaceVar (s.moved 1 0)
  have hsub : substitute 0 (s.moved 1 0) body 0 = .ok (body.mapVars replaced 0) := by
    rw [substitute_eq_ok (known_moved hs) hbody, replaceFrom_zero]
  have hknown : (body.mapVars replaced 0).known = true :=
    known_mapVars (known_replaceVar (known_moved hs)) hbody
  rw [substTop, shift_eq_ok hs]
  show (substitute 0 (s.moved 1 0) body 0 >>= fun body => body.shift (-1) 0) = _
  rw [hsub]
  show shift (-1) 0 (body.mapVars replaced 0) = _
  rw [shift_eq_ok hknown]
  exact congrArg Except.ok (@mapVars_mapVars _ replaced _ 0 0 (mapVars_replaceVar s) body 0)

/-- Substitution under one binder looks at every node of both terms, so where it gives a result
this is the plain one. -/
theorem eq_plug_of_substTop {s body u : Term} (h : substTop s body = .ok u) :
    u = body.plug [s] := by
  have hwalks := h
  simp only [substTop, Outcome.bind_eq_ok] at hwalks
  obtain ⟨moved, hmoved, replaced, hreplaced, -⟩ := hwalks
  rw [shift, if_neg (by decide)] at hmoved
  have hplain := substTop_eq_ok (known_of_traverse hmoved) (known_of_traverse hreplaced)
  exact Except.ok.inj (h.symm.trans hplain)

end Term

end TypedLambda
