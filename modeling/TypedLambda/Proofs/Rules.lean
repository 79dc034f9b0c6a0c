import TypedLambda.Proofs.Contexts

/-!
# The typing rules

For every form of pattern and term, what it takes for the checker to give it a type. Each
rule is an equivalence between the success of a form and the success of its parts, so the
checker need not be unfolded again.
-/

namespace TypedLambda

/-! ## Patterns -/

namespace Pattern

variable {detect : Bool} {Γ : Context} {ty : Ty} {types : List Ty}

theorem bind_var_iff {name : String} :
    (var name).bind detect Γ ty = .ok types ↔ ∃ r, Γ.resolve detect ty = .ok r ∧ types = [r] := by
  simp only [bind, Outcome.bind_eq_ok, Outcome.pure_eq_ok]
  constructor
  · intro h
    rcases h with ⟨r, hr, rfl⟩
    exact ⟨r, hr, rfl⟩
  · intro h
    rcases h with ⟨r, hr, rfl⟩
    exact ⟨r, hr, rfl⟩

theorem bindFields_eq_map_ok {fields : List (String × Pattern)} {entries : List (String × Ty)}
    {bound : List (List Ty)} :
    bindFields detect Γ fields entries = bound.map .ok ↔
      List.Forall₂ (fun field types => ∃ a, entries.lookup field.1 = some a ∧
        field.2.bind detect Γ a = .ok types) fields bound := by
  induction fields generalizing bound with
  | nil => cases bound <;> simp [bindFields]
  | cons field rest ih =>
      obtain ⟨label, pattern⟩ := field
      cases bound with
      | nil => simp [bindFields]
      | cons types bound =>
          simp only [bindFields, List.map_cons, List.cons.injEq, List.forall₂_cons, ih]
          cases h : entries.lookup label with
          | none => simp [reject_ne_ok]
          | some a => simp

theorem bind_record_iff {fields : List (String × Pattern)} :
    (record fields).bind detect Γ ty = .ok types ↔
      ∃ entries bound, Γ.resolve detect ty = .ok (.product entries) ∧
        List.Forall₂ (fun field types => ∃ a, entries.lookup field.1 = some a ∧
          field.2.bind detect Γ a = .ok types) fields bound ∧ types = bound.flatten := by
  simp only [bind, Outcome.bind_eq_ok]
  constructor
  · intro h
    rcases h with ⟨r, hr, h⟩
    cases r with
    | product entries =>
        simp only [Outcome.bind_eq_ok, Fault.collect_eq_ok, Outcome.pure_eq_ok] at h
        obtain ⟨bound, hbound, rfl⟩ := h
        exact ⟨entries, bound, hr, bindFields_eq_map_ok.1 hbound, rfl⟩
    | _ => cases h
  · intro h
    rcases h with ⟨entries, bound, hr, hbound, rfl⟩
    refine ⟨_, hr, ?_⟩
    simp only [Outcome.bind_eq_ok, Fault.collect_eq_ok, Outcome.pure_eq_ok]
    exact ⟨bound, bindFields_eq_map_ok.2 hbound, rfl⟩

theorem bind_foreign_ne : Pattern.foreign.bind detect Γ ty ≠ .ok types := by
  intro h
  cases h

end Pattern

/-! ## Terms -/

namespace Term

variable {detect : Bool} {Γ : Context} {T : Ty}

theorem infer_unit_iff : unit.infer detect Γ = .ok T ↔ T = .unit := by
  show Except.ok Ty.unit = .ok T ↔ _
  rw [Except.ok.injEq, eq_comm]

theorem infer_bool_iff {value : Bool} : (bool value).infer detect Γ = .ok T ↔ T = .bool := by
  show Except.ok Ty.bool = .ok T ↔ _
  rw [Except.ok.injEq, eq_comm]

theorem infer_zero_iff : zero.infer detect Γ = .ok T ↔ T = .int := by
  show Except.ok Ty.int = .ok T ↔ _
  rw [Except.ok.injEq, eq_comm]

theorem same_int_iff {a : Ty} : a.same .int = true ↔ a = .int := by
  cases a <;> simp [Ty.same]

theorem same_bool_iff {a : Ty} : a.same .bool = true ↔ a = .bool := by
  cases a <;> simp [Ty.same]

theorem number_iff {operator : String} {term : Term} {operand : Except Fault Ty} {result : Ty} :
    Rule.number operator term operand result = .ok T ↔ operand = .ok .int ∧ T = result := by
  simp only [Rule.number, Outcome.bind_eq_ok]
  constructor
  · intro h
    rcases h with ⟨a, ha, h⟩
    split at h
    · rename_i hsame
      rw [same_int_iff.1 hsame] at ha
      exact ⟨ha, (Outcome.pure_eq_ok.1 h).symm⟩
    · cases h
  · intro h
    rcases h with ⟨ha, rfl⟩
    exact ⟨.int, ha, rfl⟩

theorem infer_succ_iff {term : Term} :
    (succ term).infer detect Γ = .ok T ↔ term.infer detect Γ = .ok .int ∧ T = .int :=
  number_iff

theorem infer_pred_iff {term : Term} :
    (pred term).infer detect Γ = .ok T ↔ term.infer detect Γ = .ok .int ∧ T = .int :=
  number_iff

theorem infer_isZero_iff {term : Term} :
    (isZero term).infer detect Γ = .ok T ↔ term.infer detect Γ = .ok .int ∧ T = .bool :=
  number_iff

theorem infer_var_iff {index : Int} {name : String} :
    (var index name).infer detect Γ = .ok T ↔
      ∃ a, Γ.lookup? index = some a ∧ Γ.resolve detect a = .ok T := by
  rw [infer]
  cases h : Γ.lookup? index with
  | none => simp [reject_ne_ok]
  | some a => simp

theorem infer_abs_iff {name : String} {ty : Ty} {body : Term} :
    (abs name ty body).infer detect Γ = .ok T ↔
      ∃ p r, Γ.resolve detect ty = .ok p ∧ body.infer detect (Γ.extend [ty]) = .ok r ∧
        T = .arrow p r := by
  show (do
    let result ← body.infer detect (Γ.extend [ty])
    let param ← Γ.resolve detect ty
    return Ty.arrow param result) = .ok T ↔ _
  simp only [Outcome.bind_eq_ok, Outcome.pure_eq_ok]
  constructor
  · intro h
    rcases h with ⟨r, hr, p, hp, rfl⟩
    exact ⟨p, r, hp, hr, rfl⟩
  · intro h
    rcases h with ⟨p, r, hp, hr, rfl⟩
    exact ⟨r, hr, p, hp, rfl⟩

theorem infer_app_iff {f a : Term} :
    (app f a).infer detect Γ = .ok T ↔
      ∃ p q, f.infer detect Γ = .ok (.arrow p T) ∧ a.infer detect Γ = .ok q ∧
        p.same q = true := by
  show Rule.app f a (f.infer detect Γ) (a.infer detect Γ) = .ok T ↔ _
  simp only [Rule.app, Outcome.bind_eq_ok, Fault.blame_eq_ok]
  constructor
  · intro h
    rcases h with ⟨function, hf, q, hq, h⟩
    cases function with
    | arrow p r =>
        dsimp only at h
        split at h
        · obtain rfl := Outcome.pure_eq_ok.1 h
          exact ⟨p, q, hf, hq, by assumption⟩
        · cases h
    | _ => cases h
  · intro h
    rcases h with ⟨p, q, hf, hq, hsame⟩
    exact ⟨_, hf, q, hq, if_pos hsame⟩

theorem infer_ite_iff {condition yes no : Term} :
    (ite condition yes no).infer detect Γ = .ok T ↔
      condition.infer detect Γ = .ok .bool ∧ yes.infer detect Γ = .ok T ∧
        ∃ u, no.infer detect Γ = .ok u ∧ T.same u = true := by
  show Rule.ite (condition.infer detect Γ) (yes.infer detect Γ) (no.infer detect Γ) = .ok T ↔ _
  simp only [Rule.ite, Outcome.bind_eq_ok]
  constructor
  · intro h
    rcases h with ⟨c, hc, h⟩
    split at h
    · rename_i hsame
      simp only [Outcome.bind_eq_ok] at h
      obtain ⟨y, hy, n, hn, h⟩ := h
      split at h
      · obtain rfl := Outcome.pure_eq_ok.1 h
        rw [same_bool_iff.1 hsame] at hc
        exact ⟨hc, hy, n, hn, by assumption⟩
      · cases h
    · cases h
  · intro h
    rcases h with ⟨hc, hy, n, hn, hsame⟩
    refine ⟨.bool, hc, ?_⟩
    rw [if_pos (same_bool_iff.2 rfl)]
    simp only [Outcome.bind_eq_ok]
    exact ⟨T, hy, n, hn, if_pos hsame⟩

theorem infer_letIn_iff {pattern : Pattern} {value body : Term} :
    (letIn pattern value body).infer detect Γ = .ok T ↔
      ∃ a types, value.infer detect Γ = .ok a ∧ pattern.bind detect Γ a = .ok types ∧
        body.infer detect (Γ.extend types) = .ok T := by
  show (do
    let ty ← Fault.blame (.letValue value) (value.infer detect Γ)
    let types ← pattern.bind detect Γ ty
    body.infer detect (Γ.extend types)) = .ok T ↔ _
  simp only [Outcome.bind_eq_ok, Fault.blame_eq_ok]
  constructor
  · intro h
    rcases h with ⟨a, ha, types, htypes, hbody⟩
    exact ⟨a, types, ha, htypes, hbody⟩
  · intro h
    rcases h with ⟨a, types, ha, htypes, hbody⟩
    exact ⟨a, ha, types, htypes, hbody⟩

theorem infer_tag_iff {label : String} {payload : Term} {ty : Ty} :
    (tag label payload ty).infer detect Γ = .ok T ↔
      ∃ variants a p, Γ.resolve detect ty = .ok (.sum variants) ∧
        variants.lookup label = some a ∧ payload.infer detect Γ = .ok p ∧ p.same a = true ∧
        T = .sum variants := by
  show Rule.tag label (Γ.resolve detect ty) (payload.infer detect Γ) = .ok T ↔ _
  simp only [Rule.tag, Outcome.bind_eq_ok]
  constructor
  · intro h
    rcases h with ⟨ascribed, hty, h⟩
    cases ascribed with
    | sum variants =>
        dsimp only at h
        cases hlabel : variants.lookup label with
        | none => rw [hlabel] at h; cases h
        | some a =>
            rw [hlabel] at h
            simp only [Outcome.bind_eq_ok] at h
            obtain ⟨p, hp, h⟩ := h
            split at h
            · obtain rfl := Outcome.pure_eq_ok.1 h
              exact ⟨variants, a, p, hty, hlabel, hp, by assumption, rfl⟩
            · cases h
    | _ => cases h
  · intro h
    rcases h with ⟨variants, a, p, hty, hlabel, hp, hsame, rfl⟩
    refine ⟨_, hty, ?_⟩
    dsimp only
    rw [hlabel]
    simp only [Outcome.bind_eq_ok]
    exact ⟨p, hp, if_pos hsame⟩

theorem infer_fix_iff {term : Term} :
    (fix term).infer detect Γ = .ok T ↔
      ∃ p, term.infer detect Γ = .ok (.arrow p T) ∧ p.same T = true := by
  show Rule.fix (term.infer detect Γ) = .ok T ↔ _
  simp only [Rule.fix, Outcome.bind_eq_ok]
  constructor
  · intro h
    rcases h with ⟨function, hf, h⟩
    cases function with
    | arrow p r =>
        dsimp only at h
        split at h
        · obtain rfl := Outcome.pure_eq_ok.1 h
          exact ⟨p, hf, by assumption⟩
        · cases h
    | _ => cases h
  · intro h
    rcases h with ⟨p, hf, hsame⟩
    exact ⟨_, hf, if_pos hsame⟩

/-! ### Tuples -/

theorem inferFields_eq_map (fields : List (String × Term)) :
    inferFields detect Γ fields =
      fields.map fun (field : String × Term) => (field.1, field.2.infer detect Γ) := by
  induction fields with
  | nil => rfl
  | cons field rest ih => rw [inferFields, ih, List.map_cons]

theorem infer_tuple_iff {fields : List (String × Term)} :
    (tuple fields).infer detect Γ = .ok T ↔
      ∃ types, Table.InStep (fun _ term ty => term.infer detect Γ = .ok ty) fields types ∧
        T = .product types := by
  let outcome : String × Except Fault Ty → Except Fault (String × Ty) := fun entry =>
    (Fault.blame (.inField entry.1) entry.2).map fun ty => (entry.1, ty)
  have hfields : ∀ types, (inferFields detect Γ fields).map outcome = types.map .ok ↔
      Table.InStep (fun _ term ty => term.infer detect Γ = .ok ty) fields types := by
    intro types
    rw [inferFields_eq_map, List.map_map]
    apply Outcome.map_eq_map_ok_iff_inStep
    intro entry result
    simp only [outcome, Function.comp, Outcome.map_eq_ok, Fault.blame_eq_ok]
  show (do
    let types ← Fault.collect .tuple ((inferFields detect Γ fields).map outcome)
    return Ty.product types) = .ok T ↔ _
  simp only [Outcome.bind_eq_ok, Fault.collect_eq_ok, Outcome.pure_eq_ok, hfields]
  constructor
  · intro h
    rcases h with ⟨types, htypes, rfl⟩
    exact ⟨types, htypes, rfl⟩
  · intro h
    rcases h with ⟨types, htypes, rfl⟩
    exact ⟨types, htypes, rfl⟩

/-! ### Cases -/

theorem lookup_inferBranches {variants : List (String × Ty)}
    {branches : List (String × Branch Term)} (key : String) :
    (inferBranches detect Γ variants branches).lookup key =
      (variants.lookup key).bind fun payload =>
        (branches.lookup key).map fun branch => branch.body.infer detect (Γ.extend [payload]) := by
  induction branches with
  | nil => simp [inferBranches]
  | cons entry rest ih =>
      obtain ⟨k, label, name, body⟩ := entry
      rw [inferBranches, List.lookup_cons]
      by_cases heq : key = k
      · subst heq
        rw [beq_self_eq_true]
        cases hpayload : variants.lookup key with
        | none => simp [ih, hpayload]
        | some payload => simp
      · have hbeq : (key == k) = false := by simpa using heq
        rw [hbeq]
        cases hpayload : variants.lookup k with
        | none => exact ih
        | some payload =>
            dsimp only
            rw [List.lookup_cons, hbeq]
            exact ih

/-- The branch for a label has a type under the payload that the sum gives to the label. -/
def InfersBranch (detect : Bool) (Γ : Context) (variants : List (String × Ty))
    (branches : List (String × Branch Term)) (label : String) (ty : Ty) : Prop :=
  ∃ payload branch, variants.lookup label = some payload ∧
    branches.lookup label = some branch ∧
    branch.body.infer detect (Γ.extend [payload]) = .ok ty

theorem branches_eq_map_ok {variants types : List (String × Ty)}
    {branches : List (String × Branch Term)} :
    Rule.branches variants (Table.keys branches) (inferBranches detect Γ variants branches) =
        types.map .ok ↔
      (∀ key ∈ Table.keys branches, key ∈ Table.keys variants) ∧
        Table.InStep (fun label _ ty => InfersBranch detect Γ variants branches label ty)
          variants types := by
  have hextra : (Table.keys branches).filter (fun key => !Table.has key variants) = [] ↔
      ∀ key ∈ Table.keys branches, key ∈ Table.keys variants := by
    simp [List.filter_eq_nil_iff, Table.has_eq_true_iff]
  have happend : ∀ (outcomes : List (Except Fault (String × Ty))) (keys : List String),
      outcomes ++ keys.map (fun key => reject (.extraBranch key (.sum variants))) =
        types.map .ok ↔ keys = [] ∧ outcomes = types.map .ok := by
    intro outcomes keys
    cases keys with
    | nil => simp
    | cons key rest =>
        refine iff_of_false (fun h => ?_) (by simp)
        have hmem : reject (.extraBranch key (.sum variants)) ∈ types.map .ok := by
          rw [← h]
          simp
        obtain ⟨ty, -, hty⟩ := List.mem_map.1 hmem
        cases hty
  rw [Rule.branches, happend, hextra]
  refine and_congr_right' (Outcome.map_eq_map_ok_iff_inStep ?_)
  intro entry result
  rcases entry with ⟨label, own⟩
  dsimp only [InfersBranch]
  rw [lookup_inferBranches]
  cases variants.lookup label with
  | none => simp [reject_ne_ok]
  | some payload =>
      cases branches.lookup label with
      | none => simp [reject_ne_ok]
      | some branch => simp [Outcome.map_eq_ok, Fault.blame_eq_ok]

theorem joinBranches_iff {scrutinee : Ty} {types : List (String × Ty)} :
    Rule.joinBranches scrutinee types = .ok T ↔
      ∃ label rest, types = (label, T) :: rest ∧ ∀ entry ∈ rest, entry.2.same T = true := by
  cases types with
  | nil => simp [Rule.joinBranches, reject_ne_ok]
  | cons entry rest =>
      obtain ⟨label, ty⟩ := entry
      simp only [Rule.joinBranches]
      constructor
      · intro h
        split at h
        · rename_i hall
          cases h
          exact ⟨label, rest, rfl, List.all_eq_true.1 hall⟩
        · cases h
      · intro h
        rcases h with ⟨label', rest', heq, hall⟩
        cases heq
        exact if_pos (List.all_eq_true.2 hall)

theorem infer_case_iff {scrutinee : Term} {branches : List (String × Branch Term)} :
    (case scrutinee branches).infer detect Γ = .ok T ↔
      ∃ variants types, scrutinee.infer detect Γ = .ok (.sum variants) ∧
        (∀ key ∈ Table.keys branches, key ∈ Table.keys variants) ∧
        Table.InStep (fun label _ ty => InfersBranch detect Γ variants branches label ty)
          variants types ∧
        ∃ label rest, types = (label, T) :: rest ∧ ∀ entry ∈ rest, entry.2.same T = true := by
  simp only [infer, Outcome.bind_eq_ok]
  constructor
  · intro h
    rcases h with ⟨ty, hty, h⟩
    cases ty with
    | sum variants =>
        simp only [Outcome.bind_eq_ok, Fault.collect_eq_ok, branches_eq_map_ok,
          joinBranches_iff] at h
        obtain ⟨types, ⟨hkeys, hstep⟩, hjoin⟩ := h
        exact ⟨variants, types, hty, hkeys, hstep, hjoin⟩
    | _ => cases h
  · intro h
    rcases h with ⟨variants, types, hty, hkeys, hstep, hjoin⟩
    refine ⟨_, hty, ?_⟩
    simp only [Outcome.bind_eq_ok, Fault.collect_eq_ok, branches_eq_map_ok, joinBranches_iff]
    exact ⟨types, ⟨hkeys, hstep⟩, hjoin⟩

/-- A case has the type of a branch, and every variant has a branch of that type up to the
order of labels. -/
theorem infer_case_inv {scrutinee : Term} {branches : List (String × Branch Term)}
    (h : (case scrutinee branches).infer detect Γ = .ok T) :
    ∃ variants, scrutinee.infer detect Γ = .ok (.sum variants) ∧
      (∀ key ∈ Table.keys branches, key ∈ Table.keys variants) ∧
      (∃ label, InfersBranch detect Γ variants branches label T) ∧
      ∀ {label payload}, variants.lookup label = some payload →
        ∃ branch U, branches.lookup label = some branch ∧
          branch.body.infer detect (Γ.extend [payload]) = .ok U ∧ (U = T ∨ U.same T = true) := by
  obtain ⟨variants, types, hscrutinee, hkeys, hstep, first, rest, rfl, hall⟩ :=
    infer_case_iff.1 h
  refine ⟨variants, hscrutinee, hkeys, ?_, ?_⟩
  · cases hstep with
    | cons hfirst _ => exact ⟨first, hfirst⟩
  · intro label payload hpayload
    obtain ⟨U, hU, found, branch, hfound, hbranch, hbody⟩ := hstep.lookup_left hpayload
    obtain rfl : found = payload := Option.some.inj (hfound.symm.trans hpayload)
    refine ⟨branch, U, hbranch, hbody, ?_⟩
    rcases List.mem_cons.1 (Table.mem_of_lookup hU) with heq | hmem
    · exact .inl (congrArg Prod.snd heq)
    · exact .inr (hall _ hmem)

theorem infer_foreign_ne : foreign.infer detect Γ ≠ .ok T := by
  intro h
  cases h

end Term

end TypedLambda
