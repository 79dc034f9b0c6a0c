import TypedLambda.Proofs.TypedSubstitution
import TypedLambda.Term.Derived

/-!
# Typing of derived forms

An ascription, a projection, a recursive let and a sequence have no typing rules of their own, yet
each obeys the rule that one would write for it: `Term.derived_typing`. The rule decides, so it is
read from the parts to the form and back.

The parameter of an ascription and the recursive name stand in the context with the type as it was
written. A recursive let gives its body the type that was found for the value, which may have its
labels in another order than the one announced; this is why its own type is stated up to that order.
-/

namespace TypedLambda

theorem Ty.same_comm {a b : Ty} (ha : a.distinct = true) (hb : b.distinct = true) :
    a.same b = true ↔ b.same a = true :=
  ⟨fun h => (Alike.symm ⟨ha, hb, h⟩).same, fun h => (Alike.symm ⟨hb, ha, h⟩).same⟩

theorem Ty.unit_same_iff {a : Ty} : Ty.unit.same a = true ↔ a = .unit := by
  cases a <;> simp [Ty.same]

namespace Term

variable {detect : Bool} {Γ : Context} {U : Ty}

/-! ## Variables and lets -/

theorem infer_nearest_iff {ty : Ty} {name : String} :
    (var 0 name).infer detect (Γ.extend [ty]) = .ok U ↔ Γ.resolve detect ty = .ok U := by
  have hlookup : (Γ.extend [ty]).lookup? 0 = some ty := by
    rw [Context.lookup?_extend]
    rfl
  rw [infer_var_iff, hlookup, Context.resolve_extend]
  simp only [Option.some.injEq, exists_eq_left']

theorem infer_letVar {term : Term} {ty : Ty} (hterm : term.infer detect Γ = .ok ty)
    (name : String) (body : Term) :
    (letVar name term body).infer detect Γ = body.infer detect (Γ.extend [ty]) := by
  have hbind : (Pattern.var name).bind detect Γ ty = .ok [ty] :=
    Pattern.bind_var_iff.2 ⟨ty, resolve_of_infer hterm, rfl⟩
  rw [letVar, infer, hterm]
  show ((Pattern.var name).bind detect Γ ty >>= fun types => body.infer detect (Γ.extend types)) = _
  rw [hbind]
  rfl

/-! ## Ascriptions -/

theorem infer_ascribe_iff (hΓ : Γ.Orderly) {t : Term} (ht : t.distinct = true) {ty : Ty}
    (hty : ty.distinct = true) :
    (ascribe t ty).infer detect Γ = .ok U ↔
      Γ.resolve detect ty = .ok U ∧ ∃ S, t.infer detect Γ = .ok S ∧ S.same U = true := by
  have hcomm : ∀ {S : Ty}, Γ.resolve detect ty = .ok U → t.infer detect Γ = .ok S →
      (U.same S = true ↔ S.same U = true) := by
    intro S hU hS
    have hS' : S.distinct = true := (hasTy_of_infer hΓ ht hS).alike.left
    exact Ty.same_comm (Ty.distinct_of_resolve hΓ.aliases hty hU) hS'
  rw [ascribe, infer_app_iff]
  constructor
  · intro h
    rcases h with ⟨p, S, hidentity, hS, hsame⟩
    rcases infer_abs_iff.1 hidentity with ⟨q, r, hq, hr, heq⟩
    rw [infer_nearest_iff, hq] at hr
    cases heq
    cases hr
    exact ⟨hq, S, hS, (hcomm hq hS).1 hsame⟩
  · intro h
    rcases h with ⟨hU, S, hS, hsame⟩
    have hidentity : (abs "x" ty (.var 0 "x")).infer detect Γ = .ok (.arrow U U) :=
      infer_abs_iff.2 ⟨U, U, hU, infer_nearest_iff.2 hU, rfl⟩
    exact ⟨U, S, hidentity, hS, (hcomm hU hS).2 hsame⟩

/-! ## Projections -/

section
variable {fields : List (String × Ty)} {label : String}

theorem resolve_field {ty : Ty} (hfields : (Ty.product fields).resolved Γ.aliases = true)
    (hty : fields.lookup label = some ty) : Γ.resolve detect ty = .ok ty :=
  Ty.resolve_of_resolved (Ty.resolved_product.1 hfields _ (Table.mem_of_lookup hty))

theorem bind_field_iff {name : String} {types : List Ty}
    (hfields : (Ty.product fields).resolved Γ.aliases = true) :
    (Pattern.record [(label, .var name)]).bind detect Γ (.product fields) = .ok types ↔
      ∃ ty, fields.lookup label = some ty ∧ types = [ty] := by
  rw [Pattern.bind_record_iff]
  constructor
  · intro h
    rcases h with ⟨entries, bound, hentries, hbound, rfl⟩
    cases Context.eq_of_resolve hfields hentries
    rcases hbound with _ | ⟨⟨ty, hty, hbind⟩, _ | _⟩
    rcases Pattern.bind_var_iff.1 hbind with ⟨r, hr, rfl⟩
    cases (resolve_field hfields hty).symm.trans hr
    exact ⟨ty, hty, rfl⟩
  · intro h
    rcases h with ⟨ty, hty, rfl⟩
    have hbind : (Pattern.var name).bind detect Γ ty = .ok [ty] :=
      Pattern.bind_var_iff.2 ⟨ty, resolve_field hfields hty, rfl⟩
    exact ⟨fields, [[ty]], Ty.resolve_of_resolved hfields, .cons ⟨ty, hty, hbind⟩ .nil, rfl⟩

theorem infer_project_iff {t : Term} :
    (project t label).infer detect Γ = .ok U ↔
      ∃ fields, t.infer detect Γ = .ok (.product fields) ∧ fields.lookup label = some U := by
  rw [project, infer_letIn_iff]
  constructor
  · intro h
    rcases h with ⟨S, types, hS, hbind, hbody⟩
    have hresolved := resolved_of_infer hS
    -- a pattern of one field asks for a product
    rcases Pattern.bind_record_iff.1 hbind with ⟨fields, -, hfields, -⟩
    cases Context.eq_of_resolve hresolved hfields
    rcases (bind_field_iff hresolved).1 hbind with ⟨ty, hty, rfl⟩
    rw [infer_nearest_iff, resolve_field hresolved hty] at hbody
    cases hbody
    exact ⟨fields, hS, hty⟩
  · intro h
    rcases h with ⟨fields, hS, hU⟩
    have hresolved := resolved_of_infer hS
    have hbody : (var 0 "x").infer detect (Γ.extend [U]) = .ok U :=
      infer_nearest_iff.2 (resolve_field hresolved hU)
    exact ⟨_, [U], hS, (bind_field_iff hresolved).2 ⟨U, hU, rfl⟩, hbody⟩

end

/-! ## Recursive lets -/

theorem infer_letrec_iff {name : String} {ty : Ty} {value body : Term} :
    (letrec name ty value body).infer detect Γ = .ok U ↔
      ∃ R E, Γ.resolve detect ty = .ok R ∧ value.infer detect (Γ.extend [ty]) = .ok E ∧
        R.same E = true ∧ body.infer detect (Γ.extend [E]) = .ok U := by
  have hfix : ∀ {E}, (fix (abs name ty value)).infer detect Γ = .ok E ↔
      ∃ R, Γ.resolve detect ty = .ok R ∧ value.infer detect (Γ.extend [ty]) = .ok E ∧
        R.same E = true := by
    intro E
    simp only [infer_fix_iff, infer_abs_iff, Ty.arrow.injEq]
    constructor
    · intro h
      rcases h with ⟨p, ⟨R, E', hR, hE, rfl, rfl⟩, hsame⟩
      exact ⟨_, hR, hE, hsame⟩
    · intro h
      rcases h with ⟨R, hR, hE, hsame⟩
      exact ⟨R, ⟨R, E, hR, hE, rfl, rfl⟩, hsame⟩
  constructor
  · intro h
    rcases infer_letIn_iff.1 h with ⟨E, _, hE, -⟩
    have hbody : body.infer detect (Γ.extend [E]) = .ok U := by
      rw [← infer_letVar hE name]
      exact h
    rcases hfix.1 hE with ⟨R, hR, hvalue, hsame⟩
    exact ⟨R, E, hR, hvalue, hsame, hbody⟩
  · intro h
    rcases h with ⟨R, E, hR, hvalue, hsame, hbody⟩
    exact (infer_letVar (hfix.2 ⟨R, hR, hvalue, hsame⟩) name body).trans hbody

/-- A recursive let has a type exactly if the value has the announced one, and the body has it with
the name at that type, all up to the order of labels. -/
theorem infer_letrec_same_iff (hΓ : Γ.Orderly) {name : String} {ty : Ty} {value body : Term}
    (hty : ty.distinct = true) (hvalue : value.distinct = true) (hbody : body.distinct = true)
    (hU : U.distinct = true) :
    (∃ S, (letrec name ty value body).infer detect Γ = .ok S ∧ S.same U = true) ↔
      ∃ R E S, Γ.resolve detect ty = .ok R ∧
        value.infer detect (Γ.extend [ty]) = .ok E ∧ E.same R = true ∧
        body.infer detect (Γ.extend [R]) = .ok S ∧ S.same U = true := by
  have hwell : ∀ {R E}, Γ.resolve detect ty = .ok R →
      value.infer detect (Γ.extend [ty]) = .ok E → R.distinct = true ∧ E.distinct = true := by
    intro R E hR hE
    have hΓ' : (Γ.extend [ty]).Orderly := hΓ.extend (by simpa using hty)
    exact ⟨Ty.distinct_of_resolve hΓ.aliases hty hR, (hasTy_of_infer hΓ' hvalue hE).alike.left⟩
  -- of two alike types, either may stand in the context of the body
  have hchange : ∀ {A B S}, A.resolved Γ.aliases = true → B.resolved Γ.aliases = true →
      B.Alike A → body.infer detect (Γ.extend [A]) = .ok S → S.same U = true →
      ∃ S', body.infer detect (Γ.extend [B]) = .ok S' ∧ S'.same U = true := by
    intro A B S hA hB hBA hS hsame
    have hstands : Stands detect Γ Γ B A := stands_of_alike hB hA hBA
    rcases hasTy_of_stands hΓ (.cons hstands .nil) hbody hS with ⟨S', hS', hS'S⟩
    exact ⟨S', hS', (hS'S.trans ⟨hS'S.right, hU, hsame⟩).same⟩
  constructor
  · intro h
    rcases h with ⟨S, hS, hsame⟩
    rcases infer_letrec_iff.1 hS with ⟨R, E, hR, hE, hRE, hS⟩
    rcases hwell hR hE with ⟨hdR, hdE⟩
    have halike : R.Alike E := ⟨hdR, hdE, hRE⟩
    rcases hchange (resolved_of_infer (Γ := Γ.extend [ty]) hE) (Ty.resolved_of_resolve hR) halike
      hS hsame with ⟨S', hS', hsame'⟩
    exact ⟨R, E, S', hR, hE, halike.symm.same, hS', hsame'⟩
  · intro h
    rcases h with ⟨R, E, S, hR, hE, hER, hS, hsame⟩
    rcases hwell hR hE with ⟨hdR, hdE⟩
    have halike : E.Alike R := ⟨hdE, hdR, hER⟩
    rcases hchange (Ty.resolved_of_resolve hR) (resolved_of_infer (Γ := Γ.extend [ty]) hE) halike
      hS hsame with ⟨S', hS', hsame'⟩
    exact ⟨S', infer_letrec_iff.2 ⟨R, E, hR, hE, halike.symm.same, hS'⟩, hsame'⟩

/-! ## Sequences -/

theorem sequence_eq_ok {first second : Term} (hsecond : second.known = true) :
    sequence first second = .ok (.app (.abs "_" .unit (second.moved 1 0)) first) := by
  rw [sequence, shift_eq_ok hsecond]
  rfl

theorem infer_sequence_iff (hΓ : Γ.Unsigned) {first second : Term}
    (hsecond : second.known = true) :
    ∃ s, sequence first second = .ok s ∧ ∀ {U}, s.infer detect Γ = .ok U ↔
      first.infer detect Γ = .ok .unit ∧ second.infer detect Γ = .ok U := by
  refine ⟨_, sequence_eq_ok hsecond, ?_⟩
  intro U
  -- the shift makes up for the parameter, which the second part does not use
  have hmoved : (second.moved 1 0).infer detect (Γ.extend [.unit]) = .ok U ↔
      second.infer detect Γ = .ok U := infer_moved_iff hΓ [.unit] second
  have hunit : Γ.resolve detect .unit = .ok .unit := Ty.resolve_of_resolved rfl
  rw [infer_app_iff]
  constructor
  · intro h
    rcases h with ⟨p, q, hf, hq, hsame⟩
    rcases infer_abs_iff.1 hf with ⟨p', r, hp, hr, heq⟩
    cases heq
    cases hunit.symm.trans hp
    rw [Ty.unit_same_iff.1 hsame] at hq
    exact ⟨hq, hmoved.1 hr⟩
  · intro h
    have hf : (abs "_" .unit (second.moved 1 0)).infer detect Γ = .ok (.arrow .unit U) :=
      infer_abs_iff.2 ⟨.unit, U, hunit, hmoved.2 h.2, rfl⟩
    exact ⟨.unit, .unit, hf, h.1, rfl⟩

/-! ## The derived rules -/

/-- The derived forms have their derived typing rules, in both directions. -/
theorem derived_typing (hΓ : Γ.distinct = true) (hvars : ∀ entry ∈ Γ.vars, 0 ≤ entry.1) :
    (∀ {t ty U}, t.distinct = true → ty.distinct = true →
      ((ascribe t ty).infer detect Γ = .ok U ↔
        Γ.resolve detect ty = .ok U ∧ ∃ S, t.infer detect Γ = .ok S ∧ S.same U = true)) ∧
    (∀ {t label U}, (project t label).infer detect Γ = .ok U ↔
      ∃ fields, t.infer detect Γ = .ok (.product fields) ∧ fields.lookup label = some U) ∧
    (∀ {name ty value body U}, ty.distinct = true → value.distinct = true →
      body.distinct = true → U.distinct = true →
      ((∃ S, (letrec name ty value body).infer detect Γ = .ok S ∧ S.same U = true) ↔
        ∃ R E S, Γ.resolve detect ty = .ok R ∧
          value.infer detect (Γ.extend [ty]) = .ok E ∧ E.same R = true ∧
          body.infer detect (Γ.extend [R]) = .ok S ∧ S.same U = true)) ∧
    ∀ {first second}, second.known = true →
      ∃ s, sequence first second = .ok s ∧ ∀ {U}, s.infer detect Γ = .ok U ↔
        first.infer detect Γ = .ok .unit ∧ second.infer detect Γ = .ok U := by
  have horderly := Context.orderly_of_distinct hΓ
  have hunsigned := Context.unsigned_of_vars hvars
  exact ⟨fun ht hty => infer_ascribe_iff horderly ht hty, infer_project_iff,
    fun hty hvalue hbody hU => infer_letrec_same_iff horderly hty hvalue hbody hU,
    fun hsecond => infer_sequence_iff hunsigned hsecond⟩

/-- A context with a hole and with an alias for a record. The tuples write their labels in another
order than the alias, and the recursive one refers to a part of itself. -/
theorem derived_typing_record :
    let Γ : Context := ⟨[(0, .base "P"), (3, .unit)],
      [("P", .product [("a", .base "N"), ("b", .bool)]), ("N", .int)], []⟩
    let P : Ty := .product [("a", .int), ("b", .bool)]
    let pair : Term := .tuple [("b", .project (.var 0 "p") "b"), ("a", .zero)]
    (ascribe pair (.base "P")).infer true Γ = .ok P ∧
      (project (.var 0 "p") "a").infer true Γ = .ok .int ∧
      (∃ S, (letrec "p" (.base "P") pair (.var 0 "p")).infer true Γ = .ok S ∧
        S.same P = true) ∧
      ∃ s, sequence (.var 3 "u") (.var 0 "p") = .ok s ∧ s.infer true Γ = .ok P := by
  intro Γ P pair
  rcases @derived_typing true Γ (by decide) (by decide)
    with ⟨hascribe, hproject, hletrec, hsequence⟩
  have hP : Γ.resolve true (.base "P") = .ok P := rfl
  have hpair : pair.infer true Γ = .ok (.product [("b", .bool), ("a", .int)]) := rfl
  have hinner : pair.infer true (Γ.extend [.base "P"]) =
    .ok (.product [("b", .bool), ("a", .int)]) := rfl
  have hsame : (Ty.product [("b", .bool), ("a", .int)]).same P = true := by decide
  rcases @hsequence (.var 3 "u") (.var 0 "p") rfl with ⟨s, hs, htyped⟩
  exact ⟨(hascribe (by decide) rfl).2 ⟨hP, _, hpair, hsame⟩, hproject.2 ⟨_, rfl, rfl⟩,
    (hletrec rfl (by decide) rfl (by decide)).2 ⟨P, _, P, hP, hinner, hsame, rfl, by decide⟩,
    s, hs, htyped.2 ⟨rfl, rfl⟩⟩

end Term

end TypedLambda
