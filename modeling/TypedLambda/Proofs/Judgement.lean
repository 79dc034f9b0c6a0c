import TypedLambda.Proofs.Rearrangement
import TypedLambda.Proofs.Rules

/-!
# Typing up to the order of labels

Every type that the checker infers is resolved. `Term.HasTy` says that a term has a type
up to the order of labels; it is closed under that equality, and each form of term has an
introduction rule in which the types of the parts need to be right only up to it.

The rules for let and case bind variables at the types that were inferred for the bound
value or the scrutinee, so their premises speak of every type that is alike to the one in
sight.
-/

namespace TypedLambda

/-! ## Inferred types are resolved -/

theorem Pattern.resolved_of_bind {detect : Bool} {Γ : Context} {pattern : Pattern} {ty : Ty}
    {types : List Ty} (h : pattern.bind detect Γ ty = .ok types) :
    ∀ bound ∈ types, bound.resolved Γ.aliases = true := by
  induction pattern generalizing ty types with
  | var name =>
      obtain ⟨r, hr, rfl⟩ := bind_var_iff.1 h
      simpa using Ty.resolved_of_resolve hr
  | record fields ih =>
      obtain ⟨entries, bound, -, hbound, rfl⟩ := bind_record_iff.1 h
      rw [List.forall_mem_flatten]
      clear h
      induction hbound with
      | nil => simp
      | cons head _ ihrest =>
          rw [List.forall_mem_cons] at ih ⊢
          obtain ⟨a, -, ha⟩ := head
          exact ⟨ih.1 ha, ihrest ih.2⟩
  | foreign => exact absurd h bind_foreign_ne

namespace Ty

theorem resolved_arrow {aliases : List (String × Ty)} {param result : Ty} :
    (arrow param result).resolved aliases = true ↔
      param.resolved aliases = true ∧ result.resolved aliases = true := by
  simp [resolved, permitted]

theorem resolved_product {aliases entries : List (String × Ty)} :
    (product entries).resolved aliases = true ↔
      ∀ entry ∈ entries, entry.2.resolved aliases = true := by
  simp [resolved, permitted, permittedEntries_iff]

theorem resolved_sum {aliases entries : List (String × Ty)} :
    (sum entries).resolved aliases = true ↔
      ∀ entry ∈ entries, entry.2.resolved aliases = true := by
  simp [resolved, permitted, permittedEntries_iff]

end Ty

theorem Pattern.length?_of_bind {detect : Bool} {Γ : Context} {pattern : Pattern} {ty : Ty}
    {types : List Ty} (h : pattern.bind detect Γ ty = .ok types) :
    pattern.length? = some types.length := by
  induction pattern generalizing ty types with
  | var name =>
      obtain ⟨r, -, rfl⟩ := bind_var_iff.1 h
      rfl
  | record fields ih =>
      obtain ⟨entries, bound, -, hbound, rfl⟩ := bind_record_iff.1 h
      clear h
      rw [length?]
      induction hbound with
      | nil => rfl
      | cons head _ ihrest =>
          rw [List.forall_mem_cons] at ih
          obtain ⟨a, -, ha⟩ := head
          rw [fieldLength?, ih.1 ha, ihrest ih.2, List.flatten_cons, List.length_append]
          rfl
  | foreign => exact absurd h bind_foreign_ne

/-- A pattern that meets a type meets every type that is alike to it, and binds its
variables at types that are alike. The names in the pattern do not matter, and the two
types may be resolved by different definitions. -/
theorem Pattern.bind_alike {detect : Bool} {Γ Δ : Context} {names : String → String → Prop}
    {p q : Pattern} (hpattern : p.Renamed names q) {a b : Ty} {types : List Ty}
    (ha : a.resolved Γ.aliases = true) (hb : b.resolved Δ.aliases = true)
    (halike : b.Alike a) (h : p.bind detect Γ a = .ok types) :
    ∃ others, q.bind detect Δ b = .ok others ∧ List.Forall₂ Ty.Alike others types := by
  induction p generalizing q a b types with
  | var name =>
      cases hpattern
      obtain ⟨r, hr, rfl⟩ := bind_var_iff.1 h
      obtain rfl := Context.eq_of_resolve ha hr
      exact ⟨[b], bind_var_iff.2 ⟨b, Ty.resolve_of_resolved hb, rfl⟩, by simpa using halike⟩
  | record fields ih =>
      cases hpattern with
      | @record _ fields' hfields =>
          obtain ⟨entries, bound, hr, hbound, rfl⟩ := bind_record_iff.1 h
          obtain rfl := Context.eq_of_resolve ha hr
          obtain ⟨gs, rfl, htables⟩ := Ty.alike_product_iff.1 halike.symm
          have hgs : Δ.resolve detect (.product gs) = .ok (.product gs) :=
            Ty.resolve_of_resolved hb
          rw [Ty.resolved_product] at ha hb
          obtain ⟨others, hothers, hall⟩ : ∃ others, List.Forall₂ (fun field types =>
              ∃ a, gs.lookup field.1 = some a ∧ field.2.bind detect Δ a = .ok types)
                fields' others ∧ List.Forall₂ Ty.Alike others.flatten bound.flatten := by
            clear h hr
            induction hfields generalizing bound with
            | nil =>
                cases hbound
                exact ⟨[], .nil, .nil⟩
            | cons hhead _ ihrest =>
                cases hbound with
                | cons hfound hbound =>
                    rw [List.forall_mem_cons] at ih
                    obtain ⟨c, hc, hbind⟩ := hfound
                    obtain ⟨d, hd, hcd⟩ := htables.agree.left hc
                    obtain ⟨first, hfirst, hall⟩ := ih.1 hhead
                      (ha _ (Table.mem_of_lookup hc)) (hb _ (Table.mem_of_lookup hd)) hcd.symm hbind
                    obtain ⟨rest, hrest, hallrest⟩ := ihrest ih.2 _ hbound
                    exact ⟨first :: rest, .cons ⟨d, hd, hfirst⟩ hrest,
                      List.rel_append hall hallrest⟩
          exact ⟨others.flatten, bind_record_iff.2 ⟨gs, others, hgs, hothers, rfl⟩, hall⟩
  | foreign => exact absurd h bind_foreign_ne

theorem Pattern.distinct_of_bind {detect : Bool} {Γ : Context} {pattern : Pattern} {a : Ty}
    {types : List Ty} (ha : a.resolved Γ.aliases = true) (halike : a.Alike a)
    (h : pattern.bind detect Γ a = .ok types) : ∀ ty ∈ types, ty.distinct = true := by
  have hself : pattern.Renamed Eq pattern := .refl (fun _ => rfl) pattern
  obtain ⟨others, hothers, hall⟩ := bind_alike hself ha ha halike h
  obtain rfl : others = types := Except.ok.inj (hothers.symm.trans h)
  intro ty hmem
  obtain ⟨i, hi⟩ := List.mem_iff_getElem?.1 hmem
  obtain ⟨other, -, hother⟩ := getElem?_of_forall₂_right hall hi
  exact hother.right

theorem Pattern.bind_of_bind {detect : Bool} {Γ Δ : Context} (haliases : Γ.aliases = Δ.aliases)
    {pattern : Pattern} {ty : Ty} {types : List Ty} (h : pattern.bind detect Γ ty = .ok types) :
    pattern.bind detect Δ ty = .ok types := by
  have hresolve := Context.resolve_congr haliases detect
  induction pattern generalizing ty types with
  | var name =>
      rw [bind_var_iff, hresolve] at h
      exact bind_var_iff.2 h
  | record fields ih =>
      obtain ⟨entries, bound, hr, hbound, rfl⟩ := bind_record_iff.1 h
      rw [hresolve] at hr
      refine bind_record_iff.2 ⟨entries, bound, hr, ?_, rfl⟩
      clear h
      induction hbound with
      | nil => exact .nil
      | cons head _ ihrest =>
          rw [List.forall_mem_cons] at ih
          obtain ⟨a, ha, hbind⟩ := head
          exact .cons ⟨a, ha, ih.1 hbind⟩ (ihrest ih.2)
  | foreign => exact absurd h bind_foreign_ne

theorem Pattern.bind_congr {detect : Bool} {Γ Δ : Context} (haliases : Γ.aliases = Δ.aliases)
    {pattern : Pattern} {ty : Ty} {types : List Ty} :
    pattern.bind detect Γ ty = .ok types ↔ pattern.bind detect Δ ty = .ok types :=
  ⟨bind_of_bind haliases, bind_of_bind haliases.symm⟩

namespace Term

variable {detect : Bool}

theorem resolved_of_infer {Γ : Context} {t : Term} {T : Ty} (h : t.infer detect Γ = .ok T) :
    T.resolved Γ.aliases = true := by
  induction t generalizing Γ T with
  | unit => rw [infer_unit_iff.1 h]; rfl
  | bool value => rw [infer_bool_iff.1 h]; rfl
  | zero => rw [infer_zero_iff.1 h]; rfl
  | succ term _ => rw [(infer_succ_iff.1 h).2]; rfl
  | pred term _ => rw [(infer_pred_iff.1 h).2]; rfl
  | isZero term _ => rw [(infer_isZero_iff.1 h).2]; rfl
  | var index name =>
      obtain ⟨a, -, ha⟩ := infer_var_iff.1 h
      exact Ty.resolved_of_resolve ha
  | abs name ty body ih =>
      obtain ⟨p, r, hp, hr, rfl⟩ := infer_abs_iff.1 h
      have hresult := ih hr
      exact Ty.resolved_arrow.2 ⟨Ty.resolved_of_resolve hp, hresult⟩
  | app f a ihf _ =>
      obtain ⟨p, q, hf, -, -⟩ := infer_app_iff.1 h
      exact (Ty.resolved_arrow.1 (ihf hf)).2
  | ite condition yes no _ ihy _ => exact ihy (infer_ite_iff.1 h).2.1
  | tuple fields ih =>
      obtain ⟨types, hstep, rfl⟩ := infer_tuple_iff.1 h
      exact Ty.resolved_product.2 (hstep.forall_right fun entry hmem _ => ih entry hmem)
  | letIn pattern value body _ ihb =>
      obtain ⟨a, types, -, -, hbody⟩ := infer_letIn_iff.1 h
      have hresult := ihb hbody
      exact hresult
  | tag label payload ty _ =>
      obtain ⟨variants, a, p, hty, -, -, -, rfl⟩ := infer_tag_iff.1 h
      exact Ty.resolved_of_resolve hty
  | case scrutinee branches _ ihb =>
      obtain ⟨variants, types, -, -, hstep, label, rest, rfl, -⟩ := infer_case_iff.1 h
      cases hstep with
      | cons hbranch _ =>
          obtain ⟨payload, branch, -, hlookup, hbody⟩ := hbranch
          have hresult := ihb _ (Table.mem_of_lookup hlookup) hbody
          exact hresult
  | fix term ih =>
      obtain ⟨p, hf, -⟩ := infer_fix_iff.1 h
      exact (Ty.resolved_arrow.1 (ih hf)).2
  | foreign => exact absurd h infer_foreign_ne

theorem resolve_of_infer {Γ : Context} {t : Term} {T : Ty} (h : t.infer detect Γ = .ok T) :
    Γ.resolve detect T = .ok T :=
  Ty.resolve_of_resolved (resolved_of_infer h)

theorem known_of_infer {Γ : Context} {t : Term} {T : Ty} (ht : t.distinct = true)
    (h : t.infer detect Γ = .ok T) : t.known = true := by
  induction t generalizing Γ T with
  | unit | bool | zero | var => rfl
  | succ term ih => exact ih ht (infer_succ_iff.1 h).1
  | pred term ih => exact ih ht (infer_pred_iff.1 h).1
  | isZero term ih => exact ih ht (infer_isZero_iff.1 h).1
  | abs name ty body ih =>
      simp only [distinct, Bool.and_eq_true] at ht
      obtain ⟨p, r, -, hr, -⟩ := infer_abs_iff.1 h
      have hknown := ih ht.2 hr
      exact hknown
  | app f a ihf iha =>
      simp only [distinct, Bool.and_eq_true] at ht
      obtain ⟨p, q, hf, ha, -⟩ := infer_app_iff.1 h
      simp only [known, ihf ht.1 hf, iha ht.2 ha, Bool.and_self]
  | ite condition yes no ihc ihy ihn =>
      simp only [distinct, Bool.and_eq_true] at ht
      obtain ⟨hc, hy, u, hn, -⟩ := infer_ite_iff.1 h
      simp only [known, ihc ht.1.1 hc, ihy ht.1.2 hy, ihn ht.2 hn, Bool.and_self]
  | tuple fields ih =>
      simp only [distinct, Bool.and_eq_true, distinctFields_iff] at ht
      obtain ⟨types, hfields, rfl⟩ := infer_tuple_iff.1 h
      simp only [known, knownFields_iff]
      intro entry hmem
      obtain ⟨ty, hty⟩ := hfields.exists_of_mem hmem
      exact ih entry hmem (ht.2 entry hmem) hty
  | letIn pattern value body ihv ihb =>
      simp only [distinct, Bool.and_eq_true] at ht
      obtain ⟨a, types, hv, hbind, hb⟩ := infer_letIn_iff.1 h
      simp only [known, Pattern.length?_of_bind hbind, ihv ht.1.2 hv, ihb ht.2 hb,
        Option.isSome_some, Bool.and_self]
  | tag label payload ty ih =>
      simp only [distinct, Bool.and_eq_true] at ht
      obtain ⟨variants, a, p, -, -, hp, -, -⟩ := infer_tag_iff.1 h
      have hknown := ih ht.1 hp
      exact hknown
  | case scrutinee branches ihs ihb =>
      simp only [distinct, Bool.and_eq_true, decide_eq_true_eq, distinctBranches_iff] at ht
      obtain ⟨variants, hs, hkeys, -, hall⟩ := infer_case_inv h
      simp only [known, ihs ht.1.1 hs, knownBranches_iff, Bool.true_and]
      -- keys are distinct, so each branch is the one that its key leads to and was looked at
      intro entry hmem
      rcases entry with ⟨key, branch⟩
      obtain ⟨payload, hpayload⟩ := Table.mem_keys_iff.1 (hkeys key (List.mem_map.2 ⟨_, hmem, rfl⟩))
      obtain ⟨found, U, hfound, hU, -⟩ := hall hpayload
      obtain rfl : found = branch :=
        Option.some.inj (hfound.symm.trans (Table.lookup_of_mem ht.1.2 hmem))
      exact ihb _ hmem (ht.2 _ hmem) hU
  | fix term ih =>
      obtain ⟨p, hf, -⟩ := infer_fix_iff.1 h
      exact ih ht hf
  | foreign => exact absurd h infer_foreign_ne

/-- Whatever `ty` resolves to under the definitions of `Γ`, `other` resolves to a type that
is alike under those of `Δ`. -/
def Stands (detect : Bool) (Δ Γ : Context) (other ty : Ty) : Prop :=
  ∀ r, Γ.resolve detect ty = .ok r → ∃ s, Δ.resolve detect other = .ok s ∧ s.Alike r

theorem stands_self {Γ Δ : Context} (heq : Γ.aliases = Δ.aliases)
    (haliases : ∀ entry ∈ Γ.aliases, entry.2.distinct = true) {ty : Ty}
    (hty : ty.distinct = true) : Stands detect Δ Γ ty ty := by
  intro r hr
  have halike : r.Alike r :=
    .refl (Ty.resolved_of_resolve hr) (Ty.distinct_of_resolve haliases hty hr)
  rw [Context.resolve_congr heq] at hr
  exact ⟨r, hr, halike⟩

theorem stands_of_alike {Γ Δ : Context} {other ty : Ty}
    (hother : other.resolved Δ.aliases = true) (hty : ty.resolved Γ.aliases = true)
    (halike : other.Alike ty) : Stands detect Δ Γ other ty := by
  intro r hr
  obtain rfl := Context.eq_of_resolve hty hr
  exact ⟨other, Ty.resolve_of_resolved hother, halike⟩

theorem stands_of_forall₂_alike {Γ Δ : Context} {others types : List Ty}
    (hothers : ∀ ty ∈ others, ty.resolved Δ.aliases = true)
    (htypes : ∀ ty ∈ types, ty.resolved Γ.aliases = true)
    (halike : List.Forall₂ Ty.Alike others types) :
    List.Forall₂ (Stands detect Δ Γ) others types := by
  induction halike with
  | nil => exact .nil
  | cons hhead _ ih =>
      rw [List.forall_mem_cons] at hothers htypes
      exact .cons (stands_of_alike hothers.1 htypes.1 hhead) (ih hothers.2 htypes.2)

/-! ## The judgement -/

/-- The term has the type, up to the order of labels. -/
def HasTy (detect : Bool) (Γ : Context) (t : Term) (T : Ty) : Prop :=
  ∃ U, t.infer detect Γ = .ok U ∧ U.Alike T

namespace HasTy

variable {Γ : Context} {T : Ty}

theorem conv {t : Term} {U : Ty} (h : HasTy detect Γ t T) (halike : T.Alike U) :
    HasTy detect Γ t U := by
  obtain ⟨S, hS, hST⟩ := h
  exact ⟨S, hS, hST.trans halike⟩

theorem alike {t : Term} (h : HasTy detect Γ t T) : T.Alike T := by
  obtain ⟨S, -, hST⟩ := h
  exact hST.refl_right

theorem unit : HasTy detect Γ .unit .unit := ⟨.unit, rfl, Ty.alike_unit_iff.2 rfl⟩

theorem bool {value : Bool} : HasTy detect Γ (.bool value) .bool :=
  ⟨.bool, rfl, Ty.alike_bool_iff.2 rfl⟩

theorem zero : HasTy detect Γ .zero .int := ⟨.int, rfl, Ty.alike_int_iff.2 rfl⟩

theorem infer_int {t : Term} (h : HasTy detect Γ t .int) : t.infer detect Γ = .ok .int := by
  obtain ⟨S, hS, hST⟩ := h
  rwa [← Ty.alike_int_iff.1 hST.symm]

theorem infer_bool {t : Term} (h : HasTy detect Γ t .bool) : t.infer detect Γ = .ok .bool := by
  obtain ⟨S, hS, hST⟩ := h
  rwa [← Ty.alike_bool_iff.1 hST.symm]

theorem succ {t : Term} (h : HasTy detect Γ t .int) : HasTy detect Γ (.succ t) .int :=
  ⟨.int, infer_succ_iff.2 ⟨h.infer_int, rfl⟩, Ty.alike_int_iff.2 rfl⟩

theorem pred {t : Term} (h : HasTy detect Γ t .int) : HasTy detect Γ (.pred t) .int :=
  ⟨.int, infer_pred_iff.2 ⟨h.infer_int, rfl⟩, Ty.alike_int_iff.2 rfl⟩

theorem isZero {t : Term} (h : HasTy detect Γ t .int) : HasTy detect Γ (.isZero t) .bool :=
  ⟨.bool, infer_isZero_iff.2 ⟨h.infer_int, rfl⟩, Ty.alike_bool_iff.2 rfl⟩

theorem abs {name : String} {ty q p r : Ty} {body : Term} (hty : Γ.resolve detect ty = .ok q)
    (hqp : q.Alike p) (hbody : HasTy detect (Γ.extend [ty]) body r) :
    HasTy detect Γ (.abs name ty body) (.arrow p r) := by
  obtain ⟨s, hs, hsr⟩ := hbody
  exact ⟨_, infer_abs_iff.2 ⟨q, s, hty, hs, rfl⟩, Ty.alike_arrow_iff.2 ⟨p, r, rfl, hqp, hsr⟩⟩

theorem app {f a : Term} {p : Ty} (hf : HasTy detect Γ f (.arrow p T))
    (ha : HasTy detect Γ a p) : HasTy detect Γ (.app f a) T := by
  obtain ⟨F, hF, halike⟩ := hf
  obtain ⟨q, hq, hqp⟩ := ha
  obtain ⟨p', r', heq, hpp, hrr⟩ := Ty.alike_arrow_iff.1 halike.symm
  subst heq
  exact ⟨r', infer_app_iff.2 ⟨p', q, hF, hq, (hqp.trans hpp).symm.same⟩, hrr.symm⟩

theorem ite {condition yes no : Term} (hc : HasTy detect Γ condition .bool)
    (hy : HasTy detect Γ yes T) (hn : HasTy detect Γ no T) :
    HasTy detect Γ (.ite condition yes no) T := by
  obtain ⟨y, hY, hyT⟩ := hy
  obtain ⟨n, hN, hnT⟩ := hn
  exact ⟨y, infer_ite_iff.2 ⟨hc.infer_bool, hY, n, hN, (hyT.trans hnT.symm).same⟩, hyT⟩

theorem tuple {fields : List (String × Term)} {types : List (String × Ty)}
    (nodup : (Table.keys fields).Nodup)
    (h : Table.InStep (fun _ term ty => HasTy detect Γ term ty) fields types) :
    HasTy detect Γ (.tuple fields) (.product types) := by
  have hkeys := h.keys_eq
  obtain ⟨inferred, hinferred, halike⟩ : ∃ inferred : List (String × Ty),
      Table.InStep (fun _ term ty => term.infer detect Γ = .ok ty) fields inferred ∧
        Table.InStep (fun _ => Ty.Alike) inferred types := h.exists_between
  refine ⟨_, infer_tuple_iff.2 ⟨inferred, hinferred, rfl⟩, ?_⟩
  exact Ty.alike_product_iff.2
    ⟨types, rfl, hinferred.keys_eq ▸ nodup, hkeys ▸ nodup, halike.agree⟩

theorem tag {label : String} {payload : Term} {ty a : Ty} {variants : List (String × Ty)}
    (hty : Γ.resolve detect ty = .ok (.sum variants)) (hT : (Ty.sum variants).Alike T)
    (hlabel : variants.lookup label = some a) (hpayload : HasTy detect Γ payload a) :
    HasTy detect Γ (.tag label payload ty) T := by
  obtain ⟨p, hp, hpa⟩ := hpayload
  exact ⟨_, infer_tag_iff.2 ⟨variants, a, p, hty, hlabel, hp, hpa.same, rfl⟩, hT⟩

theorem fix {t : Term} (h : HasTy detect Γ t (.arrow T T)) : HasTy detect Γ (.fix t) T := by
  obtain ⟨F, hF, halike⟩ := h
  obtain ⟨p, r, heq, hp, hr⟩ := Ty.alike_arrow_iff.1 halike.symm
  subst heq
  exact ⟨r, infer_fix_iff.2 ⟨p, hF, (hp.symm.trans hr).same⟩, hr.symm⟩

theorem letIn {pattern : Pattern} {value body : Term} {a : Ty} {types : List Ty}
    (hvalue : HasTy detect Γ value a) (ha : a.resolved Γ.aliases = true)
    (hbind : pattern.bind detect Γ a = .ok types)
    (hbody : ∀ {others}, List.Forall₂ (Stands detect Γ Γ) others types →
      HasTy detect (Γ.extend others) body T) :
    HasTy detect Γ (.letIn pattern value body) T := by
  obtain ⟨b, hb, hba⟩ := hvalue
  have hself : pattern.Renamed Eq pattern := .refl (fun _ => rfl) pattern
  obtain ⟨others, hothers, hall⟩ := Pattern.bind_alike hself ha (resolved_of_infer hb) hba hbind
  have hstands : List.Forall₂ (Stands detect Γ Γ) others types :=
    stands_of_forall₂_alike (Pattern.resolved_of_bind hothers) (Pattern.resolved_of_bind hbind)
      hall
  obtain ⟨U, hU, hUT⟩ := hbody hstands
  exact ⟨U, infer_letIn_iff.2 ⟨b, others, hb, hothers, hU⟩, hUT⟩

theorem case {scrutinee : Term} {branches : List (String × Branch Term)}
    {variants : List (String × Ty)} (hscrutinee : HasTy detect Γ scrutinee (.sum variants))
    (hne : variants ≠ []) (hkeys : ∀ key ∈ Table.keys branches, key ∈ Table.keys variants)
    (hbranches : ∀ {label payload other}, variants.lookup label = some payload →
      other.Alike payload → other.resolved Γ.aliases = true →
      ∃ branch, branches.lookup label = some branch ∧
        HasTy detect (Γ.extend [other]) branch.body T) :
    HasTy detect Γ (.case scrutinee branches) T := by
  obtain ⟨S, hS, halike⟩ := hscrutinee
  obtain ⟨others, rfl, htables⟩ := Ty.alike_sum_iff.1 halike.symm
  have hresolved := Ty.resolved_sum.1 (resolved_of_infer hS)
  -- the sum that was inferred has the branches in its own order
  have hinfer : ∀ entry ∈ others, ∃ ty,
      InfersBranch detect Γ others branches entry.1 ty ∧ ty.Alike T := by
    intro entry hmem
    rcases entry with ⟨label, other⟩
    have hother := Table.lookup_of_mem htables.right hmem
    obtain ⟨payload, hpayload, hpo⟩ := htables.agree.right hother
    obtain ⟨branch, hbranch, U, hU, hUT⟩ := hbranches hpayload hpo.symm (hresolved _ hmem)
    exact ⟨U, ⟨other, branch, hother, hbranch, hU⟩, hUT⟩
  obtain ⟨types, htypes⟩ : ∃ types, Table.InStep (fun label _ ty =>
      InfersBranch detect Γ others branches label ty ∧ ty.Alike T) others types :=
    Table.InStep.exists_right hinfer
  have hall : ∀ entry ∈ types, entry.2.Alike T :=
    htypes.forall_right fun _ _ _ h => h.2
  have hstep : Table.InStep (fun label _ ty => InfersBranch detect Γ others branches label ty)
      others types := htypes.imp fun _ _ _ h => h.1
  cases types with
  | nil =>
      cases htypes
      obtain ⟨⟨label, payload⟩, hmem⟩ := List.exists_mem_of_ne_nil _ hne
      obtain ⟨other, hother, -⟩ := htables.agree.left (Table.lookup_of_mem htables.left hmem)
      cases hother
  | cons entry rest =>
      obtain ⟨label, U⟩ := entry
      rw [List.forall_mem_cons] at hall
      have hothers : ∀ key ∈ Table.keys branches, key ∈ Table.keys others := by
        intro key hkey
        obtain ⟨payload, hpayload⟩ := Table.mem_keys_iff.1 (hkeys key hkey)
        obtain ⟨other, hother, -⟩ := htables.agree.left hpayload
        exact Table.mem_keys_iff.2 ⟨other, hother⟩
      refine ⟨U, infer_case_iff.2 ⟨others, _, hS, hothers, hstep, label, rest, rfl, ?_⟩, hall.1⟩
      intro entry hmem
      exact ((hall.2 entry hmem).trans hall.1.symm).same

/-! ## Replacing parts

If a term has a type and its parts are replaced by terms that have the types of the old
parts, the new term has the type of the old one. The new parts may be typed under another
context, fields and branches may change places, and patterns may change their names. -/

section
variable {Δ : Context}

theorem app_congr {f f' a a' : Term} (h : (Term.app f a).infer detect Γ = .ok T)
    (hf : ∀ {U}, f.infer detect Γ = .ok U → HasTy detect Δ f' U)
    (ha : ∀ {U}, a.infer detect Γ = .ok U → HasTy detect Δ a' U) :
    HasTy detect Δ (.app f' a') T := by
  obtain ⟨p, q, hp, hq, hsame⟩ := infer_app_iff.1 h
  have hfun := hf hp
  have harg := ha hq
  exact .app hfun (harg.conv (Ty.Alike.symm ⟨hfun.alike.param.left, harg.alike.left, hsame⟩))

theorem ite_congr {c c' y y' n n' : Term} (h : (Term.ite c y n).infer detect Γ = .ok T)
    (hc : ∀ {U}, c.infer detect Γ = .ok U → HasTy detect Δ c' U)
    (hy : ∀ {U}, y.infer detect Γ = .ok U → HasTy detect Δ y' U)
    (hn : ∀ {U}, n.infer detect Γ = .ok U → HasTy detect Δ n' U) :
    HasTy detect Δ (.ite c' y' n') T := by
  obtain ⟨hbool, hT, u, hu, hsame⟩ := infer_ite_iff.1 h
  have hyes := hy hT
  have hno := hn hu
  exact .ite (hc hbool) hyes (hno.conv (Ty.Alike.symm ⟨hyes.alike.left, hno.alike.left, hsame⟩))

theorem tuple_congr {fields fields' : List (String × Term)}
    (h : (Term.tuple fields).infer detect Γ = .ok T)
    (hfields : Table.Shuffled (fun term term' => ∀ U, term.infer detect Γ = .ok U →
      HasTy detect Δ term' U) fields fields') : HasTy detect Δ (.tuple fields') T := by
  obtain ⟨types, htypes, rfl⟩ := infer_tuple_iff.1 h
  obtain ⟨types', htypes', hshuffled⟩ : ∃ types', Table.InStep (fun _ term ty =>
      term.infer detect Δ = .ok ty) fields' types' ∧
        Table.Shuffled (fun ty ty' => Ty.Alike ty' ty) types types' :=
    hfields.follow htypes fun _ _ _ _ hterm hty => hterm _ hty
  have halike : Ty.AlikeTables types' types :=
    Ty.alikeTables_iff_shuffled.2 (hshuffled.flip fun _ _ _ h => h)
  exact ⟨_, infer_tuple_iff.2 ⟨types', htypes', rfl⟩, Ty.alike_product_iff.2 ⟨types, rfl, halike⟩⟩

theorem tag_congr {label : String} {payload payload' : Term} {ty ty' : Ty}
    (hstands : Stands detect Δ Γ ty' ty) (h : (Term.tag label payload ty).infer detect Γ = .ok T)
    (hpayload : ∀ {U}, payload.infer detect Γ = .ok U → HasTy detect Δ payload' U) :
    HasTy detect Δ (.tag label payload' ty') T := by
  obtain ⟨variants, a, p, hty, hlabel, hp, hsame, rfl⟩ := infer_tag_iff.1 h
  obtain ⟨S, hS, hsum⟩ := hstands _ hty
  obtain ⟨variants', rfl, htables⟩ := Ty.alike_sum_iff.1 hsum.symm
  obtain ⟨b, hb, hab⟩ := htables.agree.left hlabel
  have hnew := hpayload hp
  have hpa : p.Alike a := ⟨hnew.alike.left, hab.left, hsame⟩
  exact .tag hS hsum hb (hnew.conv (hpa.trans hab))

theorem fix_congr {t t' : Term} (h : (Term.fix t).infer detect Γ = .ok T)
    (ht : ∀ {U}, t.infer detect Γ = .ok U → HasTy detect Δ t' U) :
    HasTy detect Δ (.fix t') T := by
  obtain ⟨p, hp, hsame⟩ := infer_fix_iff.1 h
  have hfun := ht hp
  obtain ⟨_, _, heq, hp, hr⟩ := Ty.alike_arrow_iff.1 hfun.alike
  cases heq
  exact .fix (hfun.conv (Ty.alike_arrow_iff.2 ⟨T, T, rfl, ⟨hp.left, hr.left, hsame⟩, hr⟩))

theorem letIn_congr {names : String → String → Prop} {pattern pattern' : Pattern}
    (hpattern : pattern.Renamed names pattern') {value value' body body' : Term}
    (h : (Term.letIn pattern value body).infer detect Γ = .ok T)
    (hvalue : ∀ {U}, value.infer detect Γ = .ok U → HasTy detect Δ value' U)
    (hbody : ∀ {types others}, pattern.length? = some types.length →
      List.Forall₂ (Stands detect Δ Γ) others types →
      body.infer detect (Γ.extend types) = .ok T → HasTy detect (Δ.extend others) body' T) :
    HasTy detect Δ (.letIn pattern' value' body') T := by
  obtain ⟨a, types, ha, hbind, hb⟩ := infer_letIn_iff.1 h
  obtain ⟨a', ha', halike⟩ := hvalue ha
  obtain ⟨others, hothers, hall⟩ := Pattern.bind_alike hpattern (resolved_of_infer ha)
    (resolved_of_infer ha') halike hbind
  have hstands : List.Forall₂ (Stands detect Δ Γ) others types :=
    stands_of_forall₂_alike (Pattern.resolved_of_bind hothers) (Pattern.resolved_of_bind hbind)
      hall
  obtain ⟨U, hU, hUT⟩ := hbody (Pattern.length?_of_bind hbind) hstands hb
  exact ⟨U, infer_letIn_iff.2 ⟨a', others, ha', hothers, hU⟩, hUT⟩

theorem case_congr {scrutinee scrutinee' : Term} {branches branches' : List (String × Branch Term)}
    (h : (Term.case scrutinee branches).infer detect Γ = .ok T)
    (hscrutinee : ∀ {U}, scrutinee.infer detect Γ = .ok U → HasTy detect Δ scrutinee' U)
    (hkeys : ∀ key ∈ Table.keys branches', key ∈ Table.keys branches)
    (hbranches : ∀ {label branch payload other U}, branches.lookup label = some branch →
      Stands detect Δ Γ other payload →
      branch.body.infer detect (Γ.extend [payload]) = .ok U →
      ∃ branch', branches'.lookup label = some branch' ∧
        HasTy detect (Δ.extend [other]) branch'.body U) :
    HasTy detect Δ (.case scrutinee' branches') T := by
  obtain ⟨variants, hs, hall, ⟨first, payload₀, branch₀, hpayload₀, hbranch₀, hT₀⟩, htypes⟩ :=
    infer_case_inv h
  have hnew := hscrutinee hs
  have hstands : ∀ {label payload other}, variants.lookup label = some payload →
      other.Alike payload → other.resolved Δ.aliases = true →
      Stands detect Δ Γ other payload := by
    intro label payload other hpayload halike hother
    have hvariants := Ty.resolved_sum.1 (resolved_of_infer hs)
    exact stands_of_alike hother (hvariants _ (Table.mem_of_lookup hpayload)) halike
  have hself : T.Alike T := by
    obtain ⟨S, hS, halike⟩ := hnew
    obtain ⟨others, rfl, htables⟩ := Ty.alike_sum_iff.1 halike.symm
    obtain ⟨other₀, hother₀, halike₀⟩ := htables.agree.left hpayload₀
    have hresolved := Ty.resolved_sum.1 (resolved_of_infer hS) _ (Table.mem_of_lookup hother₀)
    obtain ⟨branch', -, hbody⟩ :=
      hbranches hbranch₀ (hstands hpayload₀ halike₀.symm hresolved) hT₀
    exact hbody.alike
  refine .case hnew ?_ (fun key hkey => hall key (hkeys key hkey)) ?_
  · intro heq
    subst heq
    cases hpayload₀
  · intro label payload other hpayload halike hother
    obtain ⟨branch, U, hbranch, hU, hUT⟩ := htypes hpayload
    obtain ⟨branch', hbranch', hbody⟩ :=
      hbranches hbranch (hstands hpayload halike hother) hU
    refine ⟨branch', hbranch', ?_⟩
    rcases hUT with rfl | hsame
    · exact hbody
    · exact hbody.conv ⟨hbody.alike.left, hself.left, hsame⟩

end

end HasTy

end Term

end TypedLambda
