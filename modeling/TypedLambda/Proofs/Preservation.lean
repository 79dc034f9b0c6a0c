import TypedLambda.Proofs.TypedValues

/-!
# Preservation

A reduction keeps the type of a term up to the order of labels, and keeps its tables
mappings. Each contraction rule is checked against the typing rule of the form that it
contracts; a reduction inside of a frame replaces one part of a term by another of the
same type.
-/

namespace TypedLambda.Term

variable {detect : Bool} {Γ : Context}

/-! ## Contraction -/

theorem distinct_of_destructure {pattern : Pattern} {value : Term}
    {bindings : List (String × Term)} (h : pattern.destructure value = .ok bindings)
    (hvalue : value.distinct = true) : ∀ binding ∈ bindings, binding.2.distinct = true := by
  refine @destructure_parts (fun term => term.distinct = true) (fun {fields} hfields => ?_)
    _ _ _ h hvalue
  simp only [distinct, Bool.and_eq_true, distinctFields_iff] at hfields
  exact hfields.2

theorem hasTy_of_contracts (hΓ : Γ.Regular) {t u : Term} {T : Ty} (ht : t.distinct = true)
    (hT : t.infer detect Γ = .ok T) (h : Contracts t u) : u.HasTy detect Γ T := by
  have hself : T.Alike T := (hasTy_of_infer hΓ.toOrderly ht hT).alike
  cases h with
  | @beta name ty body a _ =>
      simp only [distinct, Bool.and_eq_true] at ht
      obtain ⟨p, q, hf, ha, hsame⟩ := infer_app_iff.1 hT
      obtain ⟨_, _, hp, hbody, heq⟩ := infer_abs_iff.1 hf
      cases heq
      refine hasTy_plug hΓ (.cons (fun r hr => ?_) .nil) ht.1.2 hbody
      obtain rfl : p = r := Except.ok.inj (hp.symm.trans hr)
      have harg := hasTy_of_infer hΓ.toOrderly ht.2 ha
      obtain ⟨_, -, hpp⟩ := stands_self rfl hΓ.aliases ht.1.1 _ hr
      exact harg.conv (Ty.Alike.symm ⟨hpp.right, harg.alike.left, hsame⟩)
  | yes =>
      simp only [distinct, Bool.and_eq_true] at ht
      exact hasTy_of_infer hΓ.toOrderly ht.1.2 (infer_ite_iff.1 hT).2.1
  | no =>
      simp only [distinct, Bool.and_eq_true] at ht
      obtain ⟨-, -, u, hu, hsame⟩ := infer_ite_iff.1 hT
      have hno := hasTy_of_infer hΓ.toOrderly ht.2 hu
      exact hno.conv (Ty.Alike.symm ⟨hself.left, hno.alike.left, hsame⟩)
  | predZero =>
      rw [(infer_pred_iff.1 hT).2]
      exact .zero
  | predSucc _ =>
      obtain ⟨hsucc, rfl⟩ := infer_pred_iff.1 hT
      exact ⟨.int, (infer_succ_iff.1 hsucc).1, hself⟩
  | isZeroZero =>
      rw [(infer_isZero_iff.1 hT).2]
      exact .bool
  | isZeroSucc _ =>
      rw [(infer_isZero_iff.1 hT).2]
      exact .bool
  | @letIn pattern value body bindings hvalue hbindings =>
      simp only [distinct, Bool.and_eq_true] at ht
      obtain ⟨a, types, ha, hbind, hbody⟩ := infer_letIn_iff.1 hT
      obtain ⟨found, hfound, htypes⟩ := destructure_typed hvalue ha hbind
      obtain rfl : found = bindings := Except.ok.inj (hfound.symm.trans hbindings)
      have hdistinct := distinct_of_destructure hbindings ht.1.2
      -- the checker binds resolved types, so each part has the very type of its variable
      refine hasTy_plug hΓ (List.forall₂_map_left_iff.2 ?_) ht.2 hbody
      clear hbindings hfound hbody hbind
      induction htypes with
      | nil => exact .nil
      | @cons binding ty _ _ hty _ ih =>
          rw [List.forall_mem_cons] at hdistinct
          refine .cons (fun r hr => ?_) (ih hdistinct.2)
          obtain rfl := Context.eq_of_resolve (resolved_of_infer hty) hr
          exact hasTy_of_infer hΓ.toOrderly hdistinct.1 hty
  | @case label payload ty branches branch _ hbranch =>
      simp only [distinct, Bool.and_eq_true, distinctBranches_iff] at ht
      obtain ⟨variants, hs, -, -, hall⟩ := infer_case_inv hT
      obtain ⟨_, a, p, hty, hlabel, hp, hsame, heq⟩ := infer_tag_iff.1 hs
      cases heq
      obtain ⟨found, U, hfound, hU, hUT⟩ := hall hlabel
      obtain rfl : found = branch := Option.some.inj (hfound.symm.trans hbranch)
      -- the payload has the type of its variant only up to the order of labels
      have hplug : (found.body.plug [payload]).HasTy detect Γ U := by
        refine hasTy_plug hΓ (.cons (fun r hr => ?_) .nil) (ht.2 _ (Table.mem_of_lookup hbranch)) hU
        obtain ⟨_, -, hsum⟩ := stands_self rfl hΓ.aliases ht.1.1.2 _ hty
        have haa := hsum.refl_right.variant hlabel
        have hvariants := Ty.resolved_sum.1 (resolved_of_infer hs)
        obtain rfl := Context.eq_of_resolve (hvariants _ (Table.mem_of_lookup hlabel)) hr
        have hpayload := hasTy_of_infer hΓ.toOrderly ht.1.1.1 hp
        exact hpayload.conv ⟨hpayload.alike.left, haa.left, hsame⟩
      rcases hUT with rfl | hsameU
      · exact hplug
      · exact hplug.conv ⟨hplug.alike.left, hself.left, hsameU⟩
  | @fix name ty body =>
      have hparts := ht
      simp only [distinct, Bool.and_eq_true] at hparts
      obtain ⟨p, hf, hsame⟩ := infer_fix_iff.1 hT
      obtain ⟨_, _, hp, hbody, heq⟩ := infer_abs_iff.1 hf
      cases heq
      refine hasTy_plug hΓ (.cons (fun r hr => ?_) .nil) hparts.2 hbody
      obtain rfl : p = r := Except.ok.inj (hp.symm.trans hr)
      obtain ⟨_, -, hpp⟩ := stands_self rfl hΓ.aliases hparts.1 _ hr
      exact (hasTy_of_infer hΓ.toOrderly ht hT).conv (Ty.Alike.symm ⟨hpp.right, hself.left, hsame⟩)

theorem distinct_of_contracts {t u : Term} (ht : t.distinct = true) (h : Contracts t u) :
    u.distinct = true := by
  cases h with
  | beta _ =>
      simp only [distinct, Bool.and_eq_true] at ht
      exact distinct_plug (by simpa using ht.2) ht.1.2
  | yes =>
      simp only [distinct, Bool.and_eq_true] at ht
      exact ht.1.2
  | no =>
      simp only [distinct, Bool.and_eq_true] at ht
      exact ht.2
  | predZero | isZeroZero | isZeroSucc _ => rfl
  | predSucc _ => exact ht
  | letIn _ hbindings =>
      simp only [distinct, Bool.and_eq_true] at ht
      exact distinct_plug (List.forall_mem_map.2 (distinct_of_destructure hbindings ht.1.2)) ht.2
  | case _ hbranch =>
      simp only [distinct, Bool.and_eq_true, distinctBranches_iff] at ht
      exact distinct_plug (by simpa using ht.1.1.1) (ht.2 _ (Table.mem_of_lookup hbranch))
  | @fix name ty body =>
      have hparts := ht
      simp only [distinct, Bool.and_eq_true] at hparts
      exact distinct_plug (by simpa using ht) hparts.2

/-! ## Frames -/

theorem distinct_fill {F : Frame} {u : Term} (h : (F.fill u).distinct = true) :
    u.distinct = true ∧ ∀ {u' : Term}, u'.distinct = true → (F.fill u').distinct = true := by
  cases F with
  | field before label after =>
      simp only [Frame.fill, distinct, Bool.and_eq_true, distinctFields_iff, Table.keys,
        List.map_append, List.map_cons, List.forall_mem_append, List.forall_mem_cons] at h ⊢
      exact ⟨h.2.2.1, fun hu' => ⟨h.1, h.2.1, hu', h.2.2.2⟩⟩
  | _ => simp_all [Frame.fill, distinct]

theorem hasTy_fill (hΓ : Γ.Regular) {F : Frame} {u u' : Term} {T : Ty}
    (ht : (F.fill u).distinct = true) (hT : (F.fill u).infer detect Γ = .ok T)
    (hu : ∀ {U}, u.infer detect Γ = .ok U → u'.HasTy detect Γ U) :
    (F.fill u').HasTy detect Γ T := by
  cases F with
  | function a =>
      simp only [Frame.fill, distinct, Bool.and_eq_true] at ht
      exact .app_congr hT hu (hasTy_of_infer hΓ.toOrderly ht.2)
  | argument f =>
      simp only [Frame.fill, distinct, Bool.and_eq_true] at ht
      exact .app_congr hT (hasTy_of_infer hΓ.toOrderly ht.1) hu
  | condition yes no =>
      simp only [Frame.fill, distinct, Bool.and_eq_true] at ht
      exact .ite_congr hT hu (hasTy_of_infer hΓ.toOrderly ht.1.2) (hasTy_of_infer hΓ.toOrderly ht.2)
  | succ =>
      obtain ⟨hint, rfl⟩ := infer_succ_iff.1 hT
      exact .succ (hu hint)
  | pred =>
      obtain ⟨hint, rfl⟩ := infer_pred_iff.1 hT
      exact .pred (hu hint)
  | isZero =>
      obtain ⟨hint, rfl⟩ := infer_isZero_iff.1 hT
      exact .isZero (hu hint)
  | field before label after =>
      simp only [Frame.fill, distinct, Bool.and_eq_true, decide_eq_true_eq, distinctFields_iff,
        List.forall_mem_append, List.forall_mem_cons] at ht
      refine .tuple_congr hT (Table.InStep.shuffled ?_ ht.1)
      refine .append (.refl fun entry hmem U hU => ?_) (.cons (fun U hU => hu hU) ?_)
      · exact hasTy_of_infer hΓ.toOrderly (ht.2.1 entry hmem) hU
      · exact .refl fun entry hmem U hU => hasTy_of_infer hΓ.toOrderly (ht.2.2.2 entry hmem) hU
  | value pattern body =>
      simp only [Frame.fill, distinct, Bool.and_eq_true] at ht
      have hpattern : pattern.Renamed Eq pattern := .refl (fun _ => rfl) pattern
      refine .letIn_congr hpattern hT hu fun _ hstands hb => ?_
      exact hasTy_of_stands hΓ.toOrderly hstands ht.2 hb
  | payload label ty =>
      simp only [Frame.fill, distinct, Bool.and_eq_true] at ht
      exact .tag_congr (stands_self rfl hΓ.aliases ht.2) hT hu
  | scrutinee branches =>
      simp only [Frame.fill, distinct, Bool.and_eq_true, distinctBranches_iff] at ht
      refine .case_congr hT hu (fun _ hkey => hkey) ?_
      intro label branch payload other U hbranch hstands hU
      refine ⟨branch, hbranch, hasTy_of_stands hΓ.toOrderly (.cons hstands .nil) ?_ hU⟩
      exact ht.2 _ (Table.mem_of_lookup hbranch)
  | fix => exact .fix_congr hT hu

/-! ## Reduction -/

theorem hasTy_of_reduces (hΓ : Γ.Regular) {t t' : Term} {T : Ty} (ht : t.distinct = true)
    (hT : t.infer detect Γ = .ok T) (h : Reduces t t') : t'.HasTy detect Γ T := by
  induction h generalizing T with
  | root hcontract => exact hasTy_of_contracts hΓ ht hT hcontract
  | inside _ _ _ ih =>
      exact hasTy_fill hΓ ht hT fun hU => ih (distinct_fill ht).1 hU

theorem distinct_of_reduces {t t' : Term} (ht : t.distinct = true) (h : Reduces t t') :
    t'.distinct = true := by
  induction h with
  | root hcontract => exact distinct_of_contracts ht hcontract
  | inside _ _ _ ih =>
      obtain ⟨hu, hfill⟩ := distinct_fill ht
      exact hfill (ih hu)

theorem hasTy_of_step (hΓ : Γ.Regular) {t t' : Term} {T : Ty} (ht : t.distinct = true)
    (hT : t.infer detect Γ = .ok T) (hstep : t.step = .ok t') :
    t'.distinct = true ∧ t'.HasTy detect Γ T := by
  have hreduces := (step_eq_ok_iff (known_of_infer ht hT)).1 hstep
  exact ⟨distinct_of_reduces ht hreduces, hasTy_of_reduces hΓ ht hT hreduces⟩

/-- Preservation: a step keeps the type of a term up to the order of labels. -/
theorem preservation {t t' : Term} {T : Ty} (hΓ : Γ.distinct = true)
    (hvars : ∀ entry ∈ Γ.vars, 0 ≤ entry.1) (ht : t.distinct = true)
    (hT : t.infer detect Γ = .ok T) (hstep : t.step = .ok t') :
    ∃ T', t'.infer detect Γ = .ok T' ∧ T'.same T = true := by
  obtain ⟨-, T', hT', halike⟩ := hasTy_of_step (Context.regular_of_distinct hΓ hvars) ht hT hstep
  exact ⟨T', hT', halike.same⟩

theorem preservation_reordered :
    ∃ T', (Term.tuple [("b", .bool true), ("a", .zero)]).infer true
        ⟨[(3, .base "P")], [("P", .product [("a", .int), ("b", .bool)])], []⟩ = .ok T' ∧
      T'.same (.product [("a", .int), ("b", .bool)]) = true :=
  @preservation true _
    (.ite (.bool false) (.var 3 "p") (.tuple [("b", .bool true), ("a", .zero)])) _ _
    (by decide) (by decide) (by decide) rfl rfl

end TypedLambda.Term
