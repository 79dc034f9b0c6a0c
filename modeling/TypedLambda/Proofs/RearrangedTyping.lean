import TypedLambda.Proofs.Expansion
import TypedLambda.Proofs.Judgement

/-!
# Typing and the order of tables

The type of a term depends neither on the order in which its fields, branches and labels are
written nor on the names that it stores. The checker does look at the order: a case takes
its type from the first variant of the sum, a conditional from its first branch, and a tuple
lists its types as its fields stand. So the types of two rearranged terms need not be equal,
and what is carried through a derivation is `Ty.Alike`.

The two terms are typed under two contexts. `Context.Matches` is what the derivation needs
to know of them; it goes under binders, where the types of the variables differ in order.
-/

namespace TypedLambda

/-! ## Contexts -/

namespace Context

variable {detect : Bool} {Γ Δ : Context}

/-- The contexts give types to the same variables and definitions to the same names, which
differ in the order of labels only. -/
structure Rearranged (Γ Δ : Context) : Prop where
  vars : Table.Agree Ty.Reordered Γ.vars Δ.vars
  aliases : Table.Agree Ty.Reordered Γ.aliases Δ.aliases

theorem Orderly.rearranged (h : Γ.Orderly) : Γ.Rearranged Γ := by
  constructor
  · constructor
    all_goals
      intro index ty hty
      exact ⟨ty, hty, .refl (h.vars hty)⟩
  · constructor
    all_goals
      intro name ty hty
      exact ⟨ty, hty, .refl (h.aliases _ (Table.mem_of_lookup hty))⟩

theorem Rearranged.symm (h : Γ.Rearranged Δ) : Δ.Rearranged Γ :=
  ⟨h.vars.flip fun _ hab => hab.symm, h.aliases.flip fun _ hab => hab.symm⟩

/-- `Δ` has a type for every variable of `Γ`, and what is written for a type of `Γ` under
`Δ` stands for it. -/
structure Matches (detect : Bool) (Γ Δ : Context) : Prop where
  lookup : ∀ {index ty}, Γ.lookup? index = some ty →
    ∃ other, Δ.lookup? index = some other ∧ Term.Stands detect Δ Γ other ty
  written : ∀ {a b : Ty}, a.Reordered b → Term.Stands detect Δ Γ b a

theorem Rearranged.matches (h : Γ.Rearranged Δ) : Γ.Matches detect Δ := by
  have hwritten : ∀ {a b : Ty}, a.Reordered b → Term.Stands detect Δ Γ b a := by
    intro a b hab r hr
    obtain ⟨s, hs, hrs⟩ := (Ty.resolve_eq_ok_iff.1 hr).reordered h.aliases hab
    have halike : r.Alike s := hrs.alike (Ty.resolved_of_resolve hr)
    exact ⟨s, Ty.resolve_eq_ok_iff.2 hs, halike.symm⟩
  refine ⟨fun {index ty} hty => ?_, hwritten⟩
  obtain ⟨other, hother, hreordered⟩ := h.vars.left hty
  exact ⟨other, hother, hwritten hreordered⟩

theorem Matches.extend (h : Γ.Matches detect Δ) {types others : List Ty}
    (hstands : List.Forall₂ (Term.Stands detect Δ Γ) others types) :
    (Γ.extend types).Matches detect (Δ.extend others) := by
  refine ⟨fun {index ty} hty => ?_, h.written⟩
  have hlength : others.length = types.length := hstands.length_eq
  rw [lookup?_extend] at hty
  rw [lookup?_extend, hlength]
  by_cases hnew : 0 ≤ index ∧ index < types.length
  · rw [if_pos hnew] at hty ⊢
    exact getElem?_of_forall₂_right hstands hty
  · rw [if_neg hnew] at hty ⊢
    exact h.lookup hty

end Context

/-! ## Terms -/

namespace Term

variable {detect : Bool} {Γ Δ : Context}

/-- A rearranged term has the type of the term, up to the order of labels. -/
theorem hasTy_of_rearranged {names : String → String → Prop} (h : Γ.Matches detect Δ)
    {t u : Term} (htu : t.Rearranged names u) {T : Ty} (hT : t.infer detect Γ = .ok T) :
    u.HasTy detect Δ T := by
  induction t generalizing Γ Δ u T with
  | unit =>
      cases htu
      rw [infer_unit_iff.1 hT]
      exact .unit
  | bool value =>
      cases htu
      rw [infer_bool_iff.1 hT]
      exact .bool
  | zero =>
      cases htu
      rw [infer_zero_iff.1 hT]
      exact .zero
  | succ term ih =>
      cases htu with
      | succ hterm =>
          obtain ⟨hint, rfl⟩ := infer_succ_iff.1 hT
          exact .succ (ih h hterm hint)
  | pred term ih =>
      cases htu with
      | pred hterm =>
          obtain ⟨hint, rfl⟩ := infer_pred_iff.1 hT
          exact .pred (ih h hterm hint)
  | isZero term ih =>
      cases htu with
      | isZero hterm =>
          obtain ⟨hint, rfl⟩ := infer_isZero_iff.1 hT
          exact .isZero (ih h hterm hint)
  | var index name =>
      cases htu with
      | var _ =>
          obtain ⟨a, ha, hr⟩ := infer_var_iff.1 hT
          obtain ⟨other, hother, hstands⟩ := h.lookup ha
          obtain ⟨s, hs, hsT⟩ := hstands T hr
          exact ⟨s, infer_var_iff.2 ⟨other, hother, hs⟩, hsT⟩
  | abs name ty body ih =>
      cases htu with
      | abs _ hty hbody =>
          obtain ⟨p, r, hp, hr, rfl⟩ := infer_abs_iff.1 hT
          have hstands := h.written hty
          obtain ⟨q, hq, hqp⟩ := hstands p hp
          -- under the binder the contexts hold the two annotations, so they are no longer
          -- rearranged as contexts, but they still match
          have hresult := ih (h.extend (.cons hstands .nil)) hbody hr
          exact .abs hq hqp hresult
  | app f a ihf iha =>
      cases htu with
      | app hf ha => exact .app_congr hT (ihf h hf) (iha h ha)
  | ite condition yes no ihc ihy ihn =>
      cases htu with
      | ite hc hy hn => exact .ite_congr hT (ihc h hc) (ihy h hy) (ihn h hn)
  | tuple fields ih =>
      cases htu with
      | tuple hfields =>
          exact .tuple_congr hT (hfields.imp fun entry hmem _ hterm _ => ih entry hmem h hterm)
  | letIn pattern value body ihv ihb =>
      cases htu with
      | letIn hpattern hvalue hbody =>
          refine .letIn_congr hpattern hT (ihv h hvalue) fun _ hstands hb => ?_
          exact ihb (h.extend hstands) hbody hb
  | tag label payload ty ih =>
      cases htu with
      | tag hpayload hty => exact .tag_congr (h.written hty) hT (ih h hpayload)
  | case scrutinee branches ihs ihb =>
      cases htu with
      | case hscrutinee hbranches =>
          refine .case_congr hT (ihs h hscrutinee) (fun _ => hbranches.mem_keys_iff.1) ?_
          intro label branch payload other U hbranch hstands hU
          obtain ⟨branch', hbranch', hrearranged⟩ := hbranches.agree.left hbranch
          refine ⟨branch', hbranch', ?_⟩
          exact ihb _ (Table.mem_of_lookup hbranch) (h.extend (.cons hstands .nil))
            hrearranged.body hU
  | fix term ih =>
      cases htu with
      | fix hterm => exact .fix_congr hT (ih h hterm)
  | foreign => exact absurd hT infer_foreign_ne

theorem hasTy_of_stands (hΓ : Γ.Orderly) {types others : List Ty}
    (hstands : List.Forall₂ (Stands detect Γ Γ) others types) {t : Term} (ht : t.distinct = true)
    {T : Ty} (h : t.infer detect (Γ.extend types) = .ok T) :
    t.HasTy detect (Γ.extend others) T := by
  have hself : t.Rearranged Eq t := .refl (fun _ => rfl) ht
  exact hasTy_of_rearranged (hΓ.rearranged.matches.extend hstands) hself h

theorem hasTy_of_infer (hΓ : Γ.Orderly) {t : Term} (ht : t.distinct = true) {T : Ty}
    (h : t.infer detect Γ = .ok T) : t.HasTy detect Γ T := by
  have hself : t.Rearranged Eq t := .refl (fun _ => rfl) ht
  exact hasTy_of_rearranged hΓ.rearranged.matches hself h

/-- Typing does not depend on the order of tables, nor on names: of two rearranged terms
under rearranged contexts both have a type or neither, and their types are the same up to
the order of labels. -/
theorem infer_rearranged (hcontexts : Γ.Rearranged Δ) {t u : Term}
    (hterms : t.Rearranged (fun _ _ => True) u) :
    ((∃ T, t.infer detect Γ = .ok T) ↔ ∃ U, u.infer detect Δ = .ok U) ∧
      ∀ {T U}, t.infer detect Γ = .ok T → u.infer detect Δ = .ok U → T.same U = true := by
  have hforth : ∀ {T}, t.infer detect Γ = .ok T → u.HasTy detect Δ T :=
    hasTy_of_rearranged hcontexts.matches hterms
  have hback : ∀ {U}, u.infer detect Δ = .ok U → t.HasTy detect Γ U :=
    hasTy_of_rearranged hcontexts.symm.matches hterms.symm
  refine ⟨⟨?_, ?_⟩, ?_⟩
  · intro h
    obtain ⟨T, hT⟩ := h
    obtain ⟨U, hU, -⟩ := hforth hT
    exact ⟨U, hU⟩
  · intro h
    obtain ⟨U, hU⟩ := h
    obtain ⟨T, hT, -⟩ := hback hU
    exact ⟨T, hT⟩
  · intro T U hT hU
    obtain ⟨S, hS, halike⟩ := hback hU
    obtain rfl : S = T := Except.ok.inj (hS.symm.trans hT)
    exact halike.same

theorem infer_rearranged_swapped :
    ∃ U, (letIn (.record [("b", .var "flag"), ("a", .var "count")]) (.var 0 "pair")
        (.tuple [("size", .succ (.var 1 "count")),
          ("kind", .case (.tag "off" (.var 0 "flag") (.base "S"))
            [("off", ⟨"off", "m", .var 0 "m"⟩), ("on", ⟨"on", "n", .isZero (.var 0 "n")⟩)])])).infer
        true ⟨[(2, .unit), (0, .base "P")], [("S", .sum [("off", .bool), ("on", .int)]),
          ("P", .product [("b", .bool), ("a", .int)])], []⟩ = .ok U ∧
      (Ty.product [("kind", .bool), ("size", .int)]).same U = true := by
  have happly : ∀ {Δ u},
      Context.Rearranged ⟨[(0, .base "P"), (2, .unit)],
        [("P", .product [("a", .int), ("b", .bool)]),
          ("S", .sum [("on", .int), ("off", .bool)])], []⟩ Δ →
      Rearranged (fun _ _ => True)
        (letIn (.record [("b", .var "y"), ("a", .var "x")]) (.var 0 "p")
          (.tuple [("kind", .case (.tag "off" (.var 0 "y") (.base "S"))
            [("on", ⟨"on", "i", .isZero (.var 0 "i")⟩), ("off", ⟨"off", "z", .var 0 "z"⟩)]),
            ("size", .succ (.var 1 "x"))])) u →
      ∃ U, u.infer true Δ = .ok U ∧
        (Ty.product [("kind", .bool), ("size", .int)]).same U = true := by
    intro Δ u hcontexts hterms
    obtain ⟨hiff, hsame⟩ := @infer_rearranged true _ _ hcontexts _ _ hterms
    obtain ⟨U, hU⟩ := hiff.1 ⟨_, rfl⟩
    exact ⟨U, hU, hsame rfl hU⟩
  apply happly
  · refine ⟨Table.Shuffled.agree (.swap (by decide) .base .unit),
      Table.Shuffled.agree (.swap (by decide) ?_ ?_)⟩
    · exact .product (.swap (by decide) .int .bool)
    · exact .sum (.swap (by decide) .int .bool)
  · refine .letIn ?_ (.var trivial) (.tuple (.swap (by decide) ?_ (.succ (.var trivial))))
    · exact .record (.cons (.var trivial) (.cons (.var trivial) .nil))
    · refine .case (.tag (.var trivial) .base) (.swap (by decide) ?_ ?_)
      · exact .mk trivial trivial (.isZero (.var trivial))
      · exact .mk trivial trivial (.var trivial)

end Term

end TypedLambda
