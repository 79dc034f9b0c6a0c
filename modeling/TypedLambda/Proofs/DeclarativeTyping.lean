import TypedLambda.Proofs.Refusals
import TypedLambda.Proofs.RearrangedTyping

/-!
# The typing rules, and the checker that decides them

`Term.Typed` is typing as a relation: one rule for each form of term and, in `Pattern.Binds`,
one for each form of pattern. Types are resolved by `Ty.Resolves` and compared by
`Ty.Reordered`. The types of the variables are a partial function of
their indices.

The checker decides the relation. It finds only types that the rules give, it finds a type
whenever they give one, and it refuses every other term by a type error. The rules leave
open which of several branches gives a case its type, so the type found and the type given
are the same up to the order of labels only.
-/

namespace TypedLambda

/-! ## The rules -/

/-- The types of the variables, by their indices. -/
abbrev Variables := Int → Option Ty

def Variables.push (vars : Variables) (types : List Ty) : Variables := fun index =>
  if 0 ≤ index ∧ index < types.length then types[index.toNat]? else vars (index - types.length)

mutual

/-- The pattern takes a value of the type apart into variables of the given types. -/
inductive Pattern.Binds (aliases : List (String × Ty)) : Pattern → Ty → List Ty → Prop
  | var {name : String} {ty r : Ty} : ty.Resolves aliases r →
      Pattern.Binds aliases (.var name) ty [r]
  | record {fields : List (String × Pattern)} {ty : Ty} {entries : List (String × Ty)}
      {types : List Ty} : ty.Resolves aliases (.product entries) →
      Pattern.BindsFields aliases entries fields types →
      Pattern.Binds aliases (.record fields) ty types

inductive Pattern.BindsFields (aliases : List (String × Ty)) :
    List (String × Ty) → List (String × Pattern) → List Ty → Prop
  | nil {entries : List (String × Ty)} : Pattern.BindsFields aliases entries [] []
  | cons {entries : List (String × Ty)} {label : String} {pattern : Pattern} {ty : Ty}
      {rest : List (String × Pattern)} {first others : List Ty} :
      entries.lookup label = some ty →
      Pattern.Binds aliases pattern ty first → Pattern.BindsFields aliases entries rest others →
      Pattern.BindsFields aliases entries ((label, pattern) :: rest) (first ++ others)

end

mutual

/-- The term has the type, under the definitions of names and the types of the variables. -/
inductive Term.Typed (aliases : List (String × Ty)) : Variables → Term → Ty → Prop
  | unit {vars : Variables} : Term.Typed aliases vars .unit .unit
  | bool {vars : Variables} {value : Bool} : Term.Typed aliases vars (.bool value) .bool
  | zero {vars : Variables} : Term.Typed aliases vars .zero .int
  | succ {vars : Variables} {t : Term} : Term.Typed aliases vars t .int →
      Term.Typed aliases vars (.succ t) .int
  | pred {vars : Variables} {t : Term} : Term.Typed aliases vars t .int →
      Term.Typed aliases vars (.pred t) .int
  | isZero {vars : Variables} {t : Term} : Term.Typed aliases vars t .int →
      Term.Typed aliases vars (.isZero t) .bool
  | var {vars : Variables} {index : Int} {name : String} {ty T : Ty} :
      vars index = some ty → ty.Resolves aliases T → Term.Typed aliases vars (.var index name) T
  | abs {vars : Variables} {name : String} {ty P R : Ty} {body : Term} :
      ty.Resolves aliases P → Term.Typed aliases (vars.push [ty]) body R →
      Term.Typed aliases vars (.abs name ty body) (.arrow P R)
  | app {vars : Variables} {f a : Term} {P Q R : Ty} :
      Term.Typed aliases vars f (.arrow P R) → Term.Typed aliases vars a Q → P.Reordered Q →
      Term.Typed aliases vars (.app f a) R
  | ite {vars : Variables} {condition yes no : Term} {T U : Ty} :
      Term.Typed aliases vars condition .bool → Term.Typed aliases vars yes T →
      Term.Typed aliases vars no U → T.Reordered U →
      Term.Typed aliases vars (.ite condition yes no) T
  | tuple {vars : Variables} {fields : List (String × Term)} {types : List (String × Ty)} :
      Term.TypedFields aliases vars fields types →
      Term.Typed aliases vars (.tuple fields) (.product types)
  | letIn {vars : Variables} {pattern : Pattern} {value body : Term} {A T : Ty}
      {types : List Ty} : Term.Typed aliases vars value A → pattern.Binds aliases A types →
      Term.Typed aliases (vars.push types) body T →
      Term.Typed aliases vars (.letIn pattern value body) T
  | tag {vars : Variables} {label : String} {payload : Term} {ty A P : Ty}
      {variants : List (String × Ty)} : ty.Resolves aliases (.sum variants) →
      variants.lookup label = some A → Term.Typed aliases vars payload P → P.Reordered A →
      Term.Typed aliases vars (.tag label payload ty) (.sum variants)
  | case {vars : Variables} {scrutinee : Term} {branches : List (String × Branch Term)}
      {variants : List (String × Ty)} {types : List Ty} {T : Ty} :
      Term.Typed aliases vars scrutinee (.sum variants) →
      (∀ key ∈ Table.keys branches, key ∈ Table.keys variants) →
      Term.TypedBranches aliases vars branches variants types →
      T ∈ types → (∀ U ∈ types, U.Reordered T) →
      Term.Typed aliases vars (.case scrutinee branches) T
  | fix {vars : Variables} {t : Term} {P T : Ty} :
      Term.Typed aliases vars t (.arrow P T) → P.Reordered T →
      Term.Typed aliases vars (.fix t) T

inductive Term.TypedFields (aliases : List (String × Ty)) :
    Variables → List (String × Term) → List (String × Ty) → Prop
  | nil {vars : Variables} : Term.TypedFields aliases vars [] []
  | cons {vars : Variables} {label : String} {t : Term} {T : Ty}
      {fields : List (String × Term)} {types : List (String × Ty)} :
      Term.Typed aliases vars t T → Term.TypedFields aliases vars fields types →
      Term.TypedFields aliases vars ((label, t) :: fields) ((label, T) :: types)

inductive Term.TypedBranches (aliases : List (String × Ty)) :
    Variables → List (String × Branch Term) → List (String × Ty) → List Ty → Prop
  | nil {vars : Variables} {branches : List (String × Branch Term)} :
      Term.TypedBranches aliases vars branches [] []
  | cons {vars : Variables} {branches : List (String × Branch Term)} {label : String}
      {payload T : Ty} {branch : Branch Term} {variants : List (String × Ty)} {types : List Ty} :
      branches.lookup label = some branch →
      Term.Typed aliases (vars.push [payload]) branch.body T →
      Term.TypedBranches aliases vars branches variants types →
      Term.TypedBranches aliases vars branches ((label, payload) :: variants) (T :: types)

end

theorem Context.lookup?_extend_eq_push (Γ : Context) (types : List Ty) :
    (Γ.extend types).lookup? = Variables.push Γ.lookup? types :=
  funext fun index => lookup?_extend Γ types index

/-! ## Patterns -/

namespace Pattern

theorem bindsFields_iff {aliases entries : List (String × Ty)} {fields : List (String × Pattern)}
    {types : List Ty} :
    BindsFields aliases entries fields types ↔
      ∃ bound, List.Forall₂ (fun field types => ∃ a, entries.lookup field.1 = some a ∧
        field.2.Binds aliases a types) fields bound ∧ types = bound.flatten := by
  constructor
  · intro h
    induction fields generalizing types with
    | nil =>
        cases h
        exact ⟨[], .nil, rfl⟩
    | cons field rest ih =>
        cases h with
        | @cons _ _ _ ty _ first others hlookup hfirst hrest =>
            obtain ⟨bound, hbound, rfl⟩ := ih hrest
            exact ⟨first :: bound, .cons ⟨ty, hlookup, hfirst⟩ hbound, rfl⟩
  · intro h
    obtain ⟨bound, hbound, rfl⟩ := h
    induction hbound with
    | nil => exact .nil
    | cons hhead _ ih =>
        obtain ⟨ty, hlookup, hfirst⟩ := hhead
        exact .cons hlookup hfirst ih

theorem bind_eq_ok_iff {detect : Bool} {Γ : Context} {pattern : Pattern} {ty : Ty}
    {types : List Ty} :
    pattern.bind detect Γ ty = .ok types ↔ pattern.Binds Γ.aliases ty types := by
  induction pattern generalizing ty types with
  | var name =>
      rw [bind_var_iff]
      constructor
      · intro h
        obtain ⟨r, hr, rfl⟩ := h
        exact .var (Ty.resolve_eq_ok_iff.1 hr)
      · intro h
        cases h with
        | @var _ _ r hr => exact ⟨r, Ty.resolve_eq_ok_iff.2 hr, rfl⟩
  | record fields ih =>
      have hfields : ∀ {entries : List (String × Ty)} {bound : List (List Ty)},
          List.Forall₂ (fun field types => ∃ a, entries.lookup field.1 = some a ∧
            field.2.bind detect Γ a = .ok types) fields bound ↔
          List.Forall₂ (fun field types => ∃ a, entries.lookup field.1 = some a ∧
            field.2.Binds Γ.aliases a types) fields bound := by
        intro entries bound
        induction fields generalizing bound with
        | nil => cases bound <;> simp
        | cons field rest ihrest =>
            rw [List.forall_mem_cons] at ih
            cases bound with
            | nil => simp
            | cons types bound => simp only [List.forall₂_cons, ih.1, ihrest ih.2]
      rw [bind_record_iff]
      constructor
      · intro h
        obtain ⟨entries, bound, hr, hbound, rfl⟩ := h
        exact .record (Ty.resolve_eq_ok_iff.1 hr)
          (bindsFields_iff.2 ⟨bound, hfields.1 hbound, rfl⟩)
      · intro h
        cases h with
        | @record _ _ entries _ hr hbinds =>
            obtain ⟨bound, hbound, rfl⟩ := bindsFields_iff.1 hbinds
            exact ⟨entries, bound, Ty.resolve_eq_ok_iff.2 hr, hfields.2 hbound, rfl⟩
  | foreign =>
      constructor
      · intro h
        exact absurd h bind_foreign_ne
      · intro h
        cases h

end Pattern

namespace Term

variable {detect : Bool} {Γ : Context}

/-! ## Tables of fields and branches -/

theorem typedFields_iff_inStep {aliases : List (String × Ty)} {vars : Variables}
    {fields : List (String × Term)} {types : List (String × Ty)} :
    TypedFields aliases vars fields types ↔
      Table.InStep (fun _ t T => t.Typed aliases vars T) fields types := by
  constructor
  · intro h
    induction fields generalizing types with
    | nil =>
        cases h
        exact .nil
    | cons field rest ih =>
        cases h with
        | cons hhead hrest => exact .cons hhead (ih hrest)
  · intro h
    induction h with
    | nil => exact .nil
    | cons hhead _ ih => exact .cons hhead ih

theorem TypedBranches.lookup {aliases : List (String × Ty)} {vars : Variables}
    {branches : List (String × Branch Term)} {variants : List (String × Ty)} {types : List Ty}
    (h : TypedBranches aliases vars branches variants types) {label : String} {payload : Ty}
    (hlabel : variants.lookup label = some payload) :
    ∃ branch U, branches.lookup label = some branch ∧
      branch.body.Typed aliases (vars.push [payload]) U ∧ U ∈ types := by
  induction variants generalizing types with
  | nil => cases hlabel
  | cons entry rest ih =>
      cases h with
      | @cons _ _ key a T branch _ types hbranch hbody hrest =>
          rw [List.lookup_cons] at hlabel
          by_cases heq : label = key
          · subst heq
            obtain rfl : a = payload := by simpa using hlabel
            exact ⟨branch, T, hbranch, hbody, List.mem_cons_self⟩
          · have hbeq : (label == key) = false := by simpa using heq
            rw [hbeq] at hlabel
            obtain ⟨found, U, hfound, hU, hmem⟩ := ih hrest hlabel
            exact ⟨found, U, hfound, hU, List.mem_cons_of_mem T hmem⟩

/-! ## What the checker finds is given by the rules -/

theorem typedBranches_of_inStep {branches : List (String × Branch Term)}
    {variants part types : List (String × Ty)}
    (hpart : ∀ entry ∈ part, variants.lookup entry.1 = some entry.2)
    (hbody : ∀ {label payload branch U}, variants.lookup label = some payload →
      branches.lookup label = some branch →
      branch.body.infer detect (Γ.extend [payload]) = .ok U →
      branch.body.Typed Γ.aliases (Variables.push Γ.lookup? [payload]) U)
    (h : Table.InStep (fun label _ ty => InfersBranch detect Γ variants branches label ty)
      part types) :
    TypedBranches Γ.aliases Γ.lookup? branches part (types.map Prod.snd) := by
  induction h with
  | nil => exact .nil
  | cons hhead _ ih =>
      rw [List.forall_mem_cons] at hpart
      obtain ⟨payload, branch, hpayload, hbranch, hU⟩ := hhead
      have hsame := Option.some.inj (hpart.1.symm.trans hpayload)
      have htyped := hbody hpayload hbranch hU
      rw [← hsame] at htyped
      exact .cons hbranch htyped (ih hpart.2)

theorem typed_of_infer (hΓ : Γ.Orderly) {t : Term} (ht : t.distinct = true) {T : Ty}
    (h : t.infer detect Γ = .ok T) : t.Typed Γ.aliases Γ.lookup? T := by
  induction t generalizing Γ T with
  | unit =>
      rw [infer_unit_iff.1 h]
      exact .unit
  | bool value =>
      rw [infer_bool_iff.1 h]
      exact .bool
  | zero =>
      rw [infer_zero_iff.1 h]
      exact .zero
  | succ term ih =>
      obtain ⟨hterm, rfl⟩ := infer_succ_iff.1 h
      exact .succ (ih hΓ ht hterm)
  | pred term ih =>
      obtain ⟨hterm, rfl⟩ := infer_pred_iff.1 h
      exact .pred (ih hΓ ht hterm)
  | isZero term ih =>
      obtain ⟨hterm, rfl⟩ := infer_isZero_iff.1 h
      exact .isZero (ih hΓ ht hterm)
  | var index name =>
      obtain ⟨a, ha, hr⟩ := infer_var_iff.1 h
      exact .var ha (Ty.resolve_eq_ok_iff.1 hr)
  | abs name ty body ih =>
      simp only [distinct, Bool.and_eq_true] at ht
      obtain ⟨p, r, hp, hr, rfl⟩ := infer_abs_iff.1 h
      have hextend : (Γ.extend [ty]).Orderly := hΓ.extend (by simpa using ht.1)
      have hbody := ih hextend ht.2 hr
      rw [Context.lookup?_extend_eq_push] at hbody
      exact .abs (Ty.resolve_eq_ok_iff.1 hp) hbody
  | app f a ihf iha =>
      simp only [distinct, Bool.and_eq_true] at ht
      obtain ⟨p, q, hf, ha, hsame⟩ := infer_app_iff.1 h
      -- the checker compares the two types, and the rule wants the one as the other reordered
      have hp := (hasTy_of_infer hΓ ht.1 hf).alike.param
      have hq := (hasTy_of_infer hΓ ht.2 ha).alike
      exact .app (ihf hΓ ht.1 hf) (iha hΓ ht.2 ha) (Ty.Alike.reordered ⟨hp.left, hq.left, hsame⟩)
  | ite condition yes no ihc ihy ihn =>
      simp only [distinct, Bool.and_eq_true] at ht
      obtain ⟨hc, hy, u, hn, hsame⟩ := infer_ite_iff.1 h
      have hT := (hasTy_of_infer hΓ ht.1.2 hy).alike
      have hu := (hasTy_of_infer hΓ ht.2 hn).alike
      exact .ite (ihc hΓ ht.1.1 hc) (ihy hΓ ht.1.2 hy) (ihn hΓ ht.2 hn)
        (Ty.Alike.reordered ⟨hT.left, hu.left, hsame⟩)
  | tuple fields ih =>
      simp only [distinct, Bool.and_eq_true, distinctFields_iff] at ht
      obtain ⟨types, hfields, rfl⟩ := infer_tuple_iff.1 h
      refine .tuple (typedFields_iff_inStep.2 (hfields.imp fun entry hmem _ hty => ?_))
      exact ih entry hmem hΓ (ht.2 entry hmem) hty
  | letIn pattern value body ihv ihb =>
      simp only [distinct, Bool.and_eq_true] at ht
      obtain ⟨a, types, ha, hbind, hb⟩ := infer_letIn_iff.1 h
      have halike := (hasTy_of_infer hΓ ht.1.2 ha).alike
      have htypes := Pattern.distinct_of_bind (resolved_of_infer ha) halike hbind
      have hbody := ihb (hΓ.extend htypes) ht.2 hb
      rw [Context.lookup?_extend_eq_push] at hbody
      exact .letIn (ihv hΓ ht.1.2 ha) (Pattern.bind_eq_ok_iff.1 hbind) hbody
  | tag label payload ty ih =>
      simp only [distinct, Bool.and_eq_true] at ht
      obtain ⟨variants, a, p, hty, hlabel, hp, hsame, rfl⟩ := infer_tag_iff.1 h
      obtain ⟨_, -, hsum⟩ := stands_self rfl hΓ.aliases ht.2 _ hty
      have ha := hsum.refl_right.variant hlabel
      have hpayload := (hasTy_of_infer hΓ ht.1 hp).alike
      exact .tag (Ty.resolve_eq_ok_iff.1 hty) hlabel (ih hΓ ht.1 hp)
        (Ty.Alike.reordered ⟨hpayload.left, ha.left, hsame⟩)
  | case scrutinee branches ihs ihb =>
      simp only [distinct, Bool.and_eq_true, distinctBranches_iff] at ht
      obtain ⟨variants, types, hs, hkeys, hstep, first, rest, rfl, hall⟩ := infer_case_iff.1 h
      have hsum := (hasTy_of_infer hΓ ht.1.1 hs).alike
      have hnodup : (Table.keys variants).Nodup := (Ty.distinct_sum.1 hsum.left).1
      have hpayload : ∀ {label payload}, variants.lookup label = some payload →
          (Γ.extend [payload]).Orderly := by
        intro label payload hlabel
        exact hΓ.extend (by simpa using (hsum.variant hlabel).left)
      have htypes : ∀ entry ∈ (first, T) :: rest, entry.2.distinct = true := by
        refine hstep.forall_right (P := fun ty => ty.distinct = true) fun _ _ U hU => ?_
        obtain ⟨payload, branch, hlabel, hbranch, hU⟩ := hU
        have hmem := Table.mem_of_lookup hbranch
        exact (hasTy_of_infer (hpayload hlabel) (ht.2 _ hmem) hU).alike.left
      have hbranches := typedBranches_of_inStep
        (fun entry hmem => Table.lookup_of_mem hnodup hmem) (fun hlabel hbranch hU => by
          rw [← Context.lookup?_extend_eq_push]
          have hmem := Table.mem_of_lookup hbranch
          exact ihb _ hmem (hpayload hlabel) (ht.2 _ hmem) hU) hstep
      rw [List.forall_mem_cons] at htypes
      refine .case (ihs hΓ ht.1.1 hs) hkeys hbranches List.mem_cons_self ?_
      rw [List.map_cons, List.forall_mem_cons, List.forall_mem_map]
      refine ⟨.refl htypes.1, fun entry hmem => ?_⟩
      exact Ty.Alike.reordered ⟨htypes.2 entry hmem, htypes.1, hall entry hmem⟩
  | fix term ih =>
      obtain ⟨p, hf, hsame⟩ := infer_fix_iff.1 h
      have hterm := (hasTy_of_infer hΓ (t := term) ht hf).alike
      obtain ⟨_, _, heq, hp, hr⟩ := Ty.alike_arrow_iff.1 hterm
      cases heq
      exact .fix (ih hΓ ht hf) (Ty.Alike.reordered ⟨hp.left, hr.left, hsame⟩)
  | foreign => exact absurd h infer_foreign_ne

/-! ## What the rules give is found by the checker -/

theorem HasTy.resolved {t : Term} {T : Ty} (h : t.HasTy detect Γ T) :
    T.resolved Γ.aliases = true := by
  obtain ⟨U, hU, halike⟩ := h
  exact halike.reordered.permitted (resolved_of_infer hU)

theorem HasTy.reorder {t : Term} {T U : Ty} (h : t.HasTy detect Γ T) (hTU : T.Reordered U) :
    t.HasTy detect Γ U :=
  h.conv (hTU.alike h.resolved)

theorem hasTy_of_typed (hΓ : Γ.Orderly) {t : Term} (ht : t.distinct = true) {T : Ty}
    (h : t.Typed Γ.aliases Γ.lookup? T) : t.HasTy detect Γ T := by
  induction t generalizing Γ T with
  | unit =>
      cases h
      exact .unit
  | bool value =>
      cases h
      exact .bool
  | zero =>
      cases h
      exact .zero
  | succ term ih =>
      cases h with
      | succ hterm => exact .succ (ih hΓ ht hterm)
  | pred term ih =>
      cases h with
      | pred hterm => exact .pred (ih hΓ ht hterm)
  | isZero term ih =>
      cases h with
      | isZero hterm => exact .isZero (ih hΓ ht hterm)
  | var index name =>
      cases h with
      | @var _ _ _ ty _ hty hr =>
          exact hasTy_of_infer hΓ ht (infer_var_iff.2 ⟨ty, hty, Ty.resolve_eq_ok_iff.2 hr⟩)
  | abs name ty body ih =>
      simp only [distinct, Bool.and_eq_true] at ht
      cases h with
      | @abs _ _ _ P R _ hP hbody =>
          obtain ⟨Q, hQ, hQP⟩ := stands_self rfl hΓ.aliases ht.1 P (Ty.resolve_eq_ok_iff.2 hP)
          have hextend : (Γ.extend [ty]).Orderly := hΓ.extend (by simpa using ht.1)
          rw [← Context.lookup?_extend_eq_push] at hbody
          exact .abs hQ hQP (ih hextend ht.2 hbody)
  | app f a ihf iha =>
      simp only [distinct, Bool.and_eq_true] at ht
      cases h with
      | app hf ha hPQ => exact .app (ihf hΓ ht.1 hf) ((iha hΓ ht.2 ha).reorder hPQ.symm)
  | ite condition yes no ihc ihy ihn =>
      simp only [distinct, Bool.and_eq_true] at ht
      cases h with
      | ite hc hy hn hTU =>
          exact .ite (ihc hΓ ht.1.1 hc) (ihy hΓ ht.1.2 hy) ((ihn hΓ ht.2 hn).reorder hTU.symm)
  | tuple fields ih =>
      simp only [distinct, Bool.and_eq_true, decide_eq_true_eq, distinctFields_iff] at ht
      cases h with
      | tuple hfields =>
          rw [typedFields_iff_inStep] at hfields
          refine .tuple ht.1 (hfields.imp fun entry hmem _ hty => ?_)
          exact ih entry hmem hΓ (ht.2 entry hmem) hty
  | letIn pattern value body ihv ihb =>
      simp only [distinct, Bool.and_eq_true] at ht
      cases h with
      | @letIn _ _ _ _ A _ types hA hbinds hbody =>
          have hvalue : value.HasTy detect Γ A := ihv hΓ ht.1.2 hA
          have hbind : pattern.bind detect Γ A = .ok types := Pattern.bind_eq_ok_iff.2 hbinds
          have hextend : (Γ.extend types).Orderly :=
            hΓ.extend (Pattern.distinct_of_bind hvalue.resolved hvalue.alike hbind)
          rw [← Context.lookup?_extend_eq_push] at hbody
          obtain ⟨U, hU, hUT⟩ : body.HasTy detect (Γ.extend types) T := ihb hextend ht.2 hbody
          -- the checker binds by the type it finds for the value, which is only like `A`
          refine .letIn hvalue hvalue.resolved hbind fun hstands => ?_
          exact (hasTy_of_stands hΓ hstands ht.2 hU).conv hUT
  | tag label payload ty ih =>
      simp only [distinct, Bool.and_eq_true] at ht
      cases h with
      | @tag _ _ _ _ A P variants hty hlabel hP hPA =>
          have hresolve : Γ.resolve detect ty = .ok (.sum variants) := Ty.resolve_eq_ok_iff.2 hty
          obtain ⟨_, -, hsum⟩ := stands_self rfl hΓ.aliases ht.2 _ hresolve
          exact .tag hresolve hsum.refl_right hlabel ((ih hΓ ht.1 hP).reorder hPA)
  | case scrutinee branches ihs ihb =>
      simp only [distinct, Bool.and_eq_true, distinctBranches_iff] at ht
      cases h with
      | @case _ _ _ variants types _ hS hkeys hbranches hmem hall =>
          have hscrutinee : scrutinee.HasTy detect Γ (.sum variants) := ihs hΓ ht.1.1 hS
          have hvariants := Ty.resolved_sum.1 hscrutinee.resolved
          refine .case hscrutinee ?_ hkeys ?_
          · intro heq
            subst heq
            cases hbranches
            cases hmem
          · -- as for a let, the branch is checked at a payload that is like this one
            intro label payload other hpayload halike hother
            obtain ⟨branch, U, hbranch, hU, hUmem⟩ := hbranches.lookup hpayload
            have hin := Table.mem_of_lookup hbranch
            have hextend : (Γ.extend [payload]).Orderly :=
              hΓ.extend (by simpa using halike.right)
            rw [← Context.lookup?_extend_eq_push] at hU
            obtain ⟨S, hS, hSU⟩ : branch.body.HasTy detect (Γ.extend [payload]) T :=
              HasTy.reorder (ihb _ hin hextend (ht.2 _ hin) hU) (hall U hUmem)
            have hstands : Stands detect Γ Γ other payload :=
              stands_of_alike hother (hvariants _ (Table.mem_of_lookup hpayload)) halike
            refine ⟨branch, hbranch, ?_⟩
            exact (hasTy_of_stands hΓ (.cons hstands .nil) (ht.2 _ hin) hS).conv hSU
  | fix term ih =>
      cases h with
      | @fix _ _ P _ hterm hPT =>
          have hfun : term.HasTy detect Γ (.arrow P T) := ih hΓ ht hterm
          obtain ⟨_, _, heq, -, hT⟩ := Ty.alike_arrow_iff.1 hfun.alike
          cases heq
          exact .fix (hfun.reorder (.arrow hPT hT.reordered))
  | foreign => cases h

/-! ## The checker decides the rules -/

/-- With the detection of cycles, on terms and contexts of known forms, the checker finds a
type that the rules give, the same up to the order of labels whichever they give, and fails
by a type error if they give none. -/
theorem infer_decides {t : Term} (hΓ : Γ.distinct = true) (hknown : Γ.known = true)
    (ht : t.distinct = true) (htknown : t.known = true)
    (htypes : t.annotated Ty.known = true) :
    (∀ {T}, t.infer true Γ = .ok T → t.Typed Γ.aliases Γ.lookup? T) ∧
      (∀ {T}, t.Typed Γ.aliases Γ.lookup? T →
        ∃ T', t.infer true Γ = .ok T' ∧ T'.same T = true) ∧
      ((¬ ∃ T, t.Typed Γ.aliases Γ.lookup? T) →
        ∃ error, t.infer true Γ = .error (.illTyped error)) := by
  have horderly : Γ.Orderly := Context.orderly_of_distinct hΓ
  refine ⟨typed_of_infer horderly ht, ?_, ?_⟩
  · intro T hT
    obtain ⟨T', hT', halike⟩ : t.HasTy true Γ T := hasTy_of_typed horderly ht hT
    exact ⟨T', hT', halike.same⟩
  · intro hnone
    rcases judged_infer (Context.known_of_eq_true hknown) htknown htypes with ⟨T, hT⟩ | herror
    · exact absurd ⟨T, typed_of_infer horderly ht hT⟩ hnone
    · exact herror

/-- Branches that list their fields in different orders, and a name that is defined through
itself. -/
theorem infer_decides_case_and_cycle :
    (letIn (.record [("b", .var "y")]) (.var 0 "p")
      (.case (.tag "off" (.var 0 "y") (.base "S"))
        [("off", ⟨"off", "m", .tuple [("l", .zero), ("r", .var 0 "m")]⟩),
          ("on", ⟨"on", "n", .tuple [("r", .isZero (.var 0 "n")), ("l", .var 0 "n")]⟩)])).Typed
      [("P", .product [("a", .int), ("b", .bool)]), ("S", .sum [("on", .int), ("off", .bool)])]
      (Context.lookup? ⟨[(0, .base "P")], [], []⟩) (.product [("r", .bool), ("l", .int)]) ∧
    ∃ error, (abs "x" (.base "A") .zero).infer true
      ⟨[], [("A", .arrow (.base "B") .int), ("B", .base "A")], []⟩ = .error (.illTyped error) := by
  constructor
  · exact (@infer_decides ⟨[(0, .base "P")], [("P", .product [("a", .int), ("b", .bool)]),
      ("S", .sum [("on", .int), ("off", .bool)])], []⟩ _ (by decide) (by decide) (by decide)
      (by decide) (by decide)).1 rfl
  · obtain ⟨-, hcomplete, hrefused⟩ := @infer_decides
      ⟨[], [("A", .arrow (.base "B") .int), ("B", .base "A")], []⟩ (abs "x" (.base "A") .zero)
      (by decide) (by decide) (by decide) (by decide) (by decide)
    apply hrefused
    intro h
    obtain ⟨T, hT⟩ := h
    obtain ⟨T', hT', -⟩ := hcomplete hT
    cases hT'

end Term

end TypedLambda
