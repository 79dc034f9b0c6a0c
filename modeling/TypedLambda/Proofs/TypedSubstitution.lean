import TypedLambda.Proofs.RearrangedTyping
import TypedLambda.Proofs.Substitution

/-!
# Typing under shifts and substitutions

A shift over indices that the context has gained keeps every type exactly. Replacing
variables by terms of the same types, up to the order of labels, keeps types up to that
order; the types of the variables themselves may change in the same way.
-/

namespace TypedLambda

/-! ## Weakening -/

/-- `Δ` is `Γ` with `d` more indices from `c` on. -/
structure Context.Widens (d c : Nat) (Γ Δ : Context) : Prop where
  aliases : Δ.aliases = Γ.aliases
  lookup : ∀ index : Int,
    Δ.lookup? (if index < c then index else index + d) = Γ.lookup? index

theorem Context.Widens.extend {d c k : Nat} {Γ Δ : Context} (h : Widens d (c + k) Γ Δ)
    (types : List Ty) : Widens d (c + (k + types.length)) (Γ.extend types) (Δ.extend types) := by
  refine ⟨h.aliases, fun index => ?_⟩
  have hold := h.lookup (index - types.length)
  rw [lookup?_extend, lookup?_extend]
  by_cases hnew : 0 ≤ index ∧ index < types.length
  · have hlt : index < (c + (k + types.length) : Nat) := by omega
    rw [if_pos hlt, if_pos hnew, if_pos hnew]
  · rw [if_neg hnew]
    by_cases hlt : index < (c + (k + types.length) : Nat)
    · have hlt' : index - types.length < (c + k : Nat) := by omega
      rw [if_pos hlt, if_neg hnew]
      rwa [if_pos hlt'] at hold
    · have hlt' : ¬ index - types.length < (c + k : Nat) := by omega
      have hmoved : ¬ (0 ≤ index + d ∧ index + d < types.length) := by omega
      have hswap : index + d - types.length = index - types.length + d := by omega
      rw [if_neg hlt, if_neg hmoved, hswap]
      rwa [if_neg hlt'] at hold

theorem Context.Unsigned.widens {Γ : Context} (h : Γ.Unsigned) (types : List Ty) :
    Widens types.length 0 Γ (Γ.extend types) := by
  refine ⟨rfl, fun index => ?_⟩
  rw [lookup?_extend]
  by_cases hlt : index < (0 : Nat)
  · have hneg : ¬ (0 ≤ index ∧ index < types.length) := by omega
    rw [if_pos hlt, if_neg hneg, h index (by omega), h _ (by omega)]
  · have hge : ¬ (0 ≤ index + types.length ∧ index + types.length < types.length) := by omega
    rw [if_neg hlt, if_neg hge, Int.add_sub_cancel]

namespace Term

variable {detect : Bool}

theorem infersBranch_map_iff {Γ Δ : Context} {f : Term → Term} {variants : List (String × Ty)}
    {branches : List (String × Branch Term)} {label : String} {T : Ty}
    (h : ∀ {payload branch}, variants.lookup label = some payload →
      branches.lookup label = some branch →
      ((f branch.body).infer detect (Δ.extend [payload]) = .ok T ↔
        branch.body.infer detect (Γ.extend [payload]) = .ok T)) :
    InfersBranch detect Δ variants (branches.map fun entry => (entry.1, entry.2.map f)) label T ↔
      InfersBranch detect Γ variants branches label T := by
  simp only [InfersBranch, Table.lookup_map]
  constructor
  · intro hinfers
    rcases hinfers with ⟨payload, branch, hpayload, hbranch, hbody⟩
    obtain ⟨old, hold, rfl⟩ := Option.map_eq_some_iff.1 hbranch
    exact ⟨payload, old, hpayload, hold, (h hpayload hold).1 hbody⟩
  · intro hinfers
    rcases hinfers with ⟨payload, branch, hpayload, hbranch, hbody⟩
    exact ⟨payload, _, hpayload, Option.map_eq_some_iff.2 ⟨branch, hbranch, rfl⟩,
      (h hpayload hbranch).2 hbody⟩

theorem infer_shift_iff {d c k : Nat} {Γ Δ : Context} (h : Context.Widens d (c + k) Γ Δ)
    (t : Term) {T : Ty} :
    (t.mapVars (shiftVar d c) k).infer detect Δ = .ok T ↔ t.infer detect Γ = .ok T := by
  induction t generalizing k Γ Δ T with
  | unit | bool | zero | foreign => rfl
  | succ term ih => rw [mapVars, infer_succ_iff, infer_succ_iff, ih h]
  | pred term ih => rw [mapVars, infer_pred_iff, infer_pred_iff, ih h]
  | isZero term ih => rw [mapVars, infer_isZero_iff, infer_isZero_iff, ih h]
  | var index name =>
      have hlookup := h.lookup index
      have hvar : shiftVar d c k index name =
          var (if index < (c + k : Nat) then index else index + d) name := by
        unfold shiftVar
        push_cast
        split <;> rfl
      rw [mapVars, hvar, infer_var_iff, infer_var_iff, hlookup,
        Context.resolve_congr h.aliases]
  | abs name ty body ih =>
      rw [mapVars, infer_abs_iff, infer_abs_iff, Context.resolve_congr h.aliases]
      refine exists_congr fun p => exists_congr fun r => and_congr_right' (and_congr_left' ?_)
      exact ih (h.extend [ty])
  | app f a ihf iha =>
      rw [mapVars, infer_app_iff, infer_app_iff]
      simp only [ihf h, iha h]
  | ite condition yes no ihc ihy ihn =>
      rw [mapVars, infer_ite_iff, infer_ite_iff]
      simp only [ihc h, ihy h, ihn h]
  | tuple fields ih =>
      rw [mapVars_tuple, infer_tuple_iff, infer_tuple_iff]
      refine exists_congr fun types => and_congr_left' ?_
      rw [Table.InStep.map_left_iff]
      exact Table.InStep.iff_of_iff fun entry hmem _ => ih entry hmem h
  | letIn pattern value body ihv ihb =>
      rw [mapVars, infer_letIn_iff, infer_letIn_iff]
      refine exists_congr fun a => exists_congr fun types => and_congr (ihv h) ?_
      rw [Pattern.bind_congr h.aliases]
      apply and_congr_right
      intro hbind
      -- the shift counts the variables of the pattern, and the context their types
      have hsize : pattern.size = types.length := by
        rw [Pattern.size, Pattern.length?_of_bind hbind, Option.getD_some]
      rw [hsize]
      exact ihb (h.extend types)
  | tag label payload ty ih =>
      rw [mapVars, infer_tag_iff, infer_tag_iff, Context.resolve_congr h.aliases]
      simp only [ih h]
  | case scrutinee branches ihs ihb =>
      rw [mapVars_case, infer_case_iff, infer_case_iff, Table.keys_map]
      refine exists_congr fun variants => exists_congr fun types => ?_
      refine and_congr (ihs h) (and_congr_right' (and_congr_left' ?_))
      apply Table.InStep.iff_of_iff
      intro entry _ ty
      apply infersBranch_map_iff
      intro payload branch _ hbranch
      exact ihb _ (Table.mem_of_lookup hbranch) (h.extend [payload])
  | fix term ih =>
      rw [mapVars, infer_fix_iff, infer_fix_iff]
      simp only [ih h]

theorem infer_moved_iff {Γ : Context} (h : Γ.Unsigned) (types : List Ty) (t : Term) {T : Ty} :
    (t.moved types.length 0).infer detect (Γ.extend types) = .ok T ↔
      t.infer detect Γ = .ok T :=
  infer_shift_iff (h.widens types) t

/-! ## Substitution -/

/-- What `act` does to the variables under `k + n` binders is what it does under the outer
`k` of them, moved over the inner `n`. -/
def Lifts (act : Nat → Int → String → Term) : Prop :=
  ∀ (k n : Nat) (index : Int) (name : String), 0 ≤ index → act (k + n) index name =
    if index < n then .var index name else (act k (index - n) name).moved n 0

/-- Every variable that has a type under `Γ` is replaced by a term with that type
under `Δ`. -/
structure Replaces (detect : Bool) (act : Nat → Int → String → Term) (k : Nat)
    (Γ Δ : Context) : Prop where
  aliases : Γ.aliases = Δ.aliases
  source : Γ.Unsigned
  target : Δ.Unsigned
  var : ∀ {index name T}, (Term.var index name).infer detect Γ = .ok T →
    (act k index name).HasTy detect Δ T

theorem Replaces.extend {act : Nat → Int → String → Term} (hlifts : Lifts act) {k : Nat}
    {Γ Δ : Context} (h : Replaces detect act k Γ Δ) {types others : List Ty}
    (htypes : List.Forall₂ (Stands detect Δ Γ) others types) :
    Replaces detect act (k + types.length) (Γ.extend types) (Δ.extend others) := by
  refine ⟨h.aliases, h.source.extend types, h.target.extend others, ?_⟩
  intro index name T hT
  obtain ⟨a, ha, hr⟩ := infer_var_iff.1 hT
  have hpos : 0 ≤ index := by
    by_contra hneg
    rw [h.source.extend types index (by omega)] at ha
    cases ha
  have hlength : others.length = types.length := htypes.length_eq
  rw [hlifts k types.length index name hpos]
  by_cases hnew : index < types.length
  · rw [if_pos hnew]
    rw [Context.lookup?_extend, if_pos ⟨hpos, hnew⟩] at ha
    obtain ⟨other, hother, hstands⟩ := getElem?_of_forall₂_right htypes ha
    obtain ⟨s, hs, hsT⟩ := hstands T hr
    refine ⟨s, infer_var_iff.2 ⟨other, ?_, hs⟩, hsT⟩
    rw [Context.lookup?_extend, hlength, if_pos ⟨hpos, hnew⟩]
    exact hother
  · have hold : ¬ (0 ≤ index ∧ index < types.length) := by omega
    rw [if_neg hnew]
    rw [Context.lookup?_extend, if_neg hold] at ha
    obtain ⟨U, hU, hUT⟩ := h.var (infer_var_iff.2 ⟨a, ha, hr⟩)
    have hmoved := (infer_moved_iff h.target others (act k (index - types.length) name)).2 hU
    rw [hlength] at hmoved
    exact ⟨U, hmoved, hUT⟩

theorem hasTy_mapVars {act : Nat → Int → String → Term} (hlifts : Lifts act) {k : Nat}
    {Γ Δ : Context} (h : Replaces detect act k Γ Δ)
    (haliases : ∀ entry ∈ Γ.aliases, entry.2.distinct = true) {t : Term}
    (ht : t.distinct = true) {T : Ty} (hT : t.infer detect Γ = .ok T) :
    (t.mapVars act k).HasTy detect Δ T := by
  induction t generalizing k Γ Δ T with
  | unit =>
      rw [infer_unit_iff.1 hT]
      exact .unit
  | bool value =>
      rw [infer_bool_iff.1 hT]
      exact .bool
  | zero =>
      rw [infer_zero_iff.1 hT]
      exact .zero
  | succ term ih =>
      obtain ⟨hterm, rfl⟩ := infer_succ_iff.1 hT
      exact .succ (ih h haliases ht hterm)
  | pred term ih =>
      obtain ⟨hterm, rfl⟩ := infer_pred_iff.1 hT
      exact .pred (ih h haliases ht hterm)
  | isZero term ih =>
      obtain ⟨hterm, rfl⟩ := infer_isZero_iff.1 hT
      exact .isZero (ih h haliases ht hterm)
  | var index name => exact h.var hT
  | abs name ty body ih =>
      simp only [distinct, Bool.and_eq_true] at ht
      obtain ⟨p, r, hp, hr, rfl⟩ := infer_abs_iff.1 hT
      have hself : Stands detect Δ Γ ty ty := stands_self h.aliases haliases ht.1
      obtain ⟨q, hq, hqp⟩ := hself p hp
      have hbody := ih (h.extend hlifts (.cons hself .nil)) haliases ht.2 hr
      exact .abs hq hqp hbody
  | app f a ihf iha =>
      simp only [distinct, Bool.and_eq_true] at ht
      exact .app_congr hT (ihf h haliases ht.1) (iha h haliases ht.2)
  | ite condition yes no ihc ihy ihn =>
      simp only [distinct, Bool.and_eq_true] at ht
      exact .ite_congr hT (ihc h haliases ht.1.1) (ihy h haliases ht.1.2)
        (ihn h haliases ht.2)
  | tuple fields ih =>
      simp only [distinct, Bool.and_eq_true, decide_eq_true_eq, distinctFields_iff] at ht
      rw [mapVars_tuple]
      refine .tuple_congr hT (Table.InStep.shuffled ?_ ht.1)
      exact .map_right fun entry hmem U hU => ih entry hmem h haliases (ht.2 entry hmem) hU
  | letIn pattern value body ihv ihb =>
      simp only [distinct, Bool.and_eq_true] at ht
      have hpattern : pattern.Renamed Eq pattern := .refl (fun _ => rfl) pattern
      refine .letIn_congr hpattern hT (ihv h haliases ht.1.2) ?_
      intro types others hlength hstands hb
      rw [Pattern.size, hlength, Option.getD_some]
      exact ihb (h.extend hlifts hstands) haliases ht.2 hb
  | tag label payload ty ih =>
      simp only [distinct, Bool.and_eq_true] at ht
      exact .tag_congr (stands_self h.aliases haliases ht.2) hT (ih h haliases ht.1)
  | case scrutinee branches ihs ihb =>
      simp only [distinct, Bool.and_eq_true, decide_eq_true_eq, distinctBranches_iff] at ht
      rw [mapVars_case]
      refine .case_congr hT (ihs h haliases ht.1.1) (fun key hkey => ?_) ?_
      · rwa [Table.keys_map] at hkey
      intro label branch payload other U hbranch hstands hU
      have hmem := Table.mem_of_lookup hbranch
      refine ⟨_, by rw [Table.lookup_map, hbranch]; rfl, ?_⟩
      exact ihb _ hmem (h.extend hlifts (.cons hstands .nil)) haliases (ht.2 _ hmem) hU
  | fix term ih => exact .fix_congr hT (ih h haliases ht)
  | foreign => exact absurd hT infer_foreign_ne

/-! ## Terms for the lowest indices -/

theorem lifts_plugVar (terms : List Term) : Lifts (plugVar terms) := by
  intro k n index name hpos
  split
  · rename_i hlt
    exact plugVar_of_lt (by omega)
  · rename_i hn
    by_cases hlt : index < (k + n : Nat)
    · have hlt' : index - n < k := by omega
      have hge : ¬ index - n < 0 := by omega
      rw [plugVar_of_lt hlt, plugVar_of_lt hlt']
      simp [moved, mapVars, shiftVar, hge]
    · have hidx : (index - n - k).toNat = (index - (k + n : Nat)).toNat := by omega
      cases hget : terms[(index - (k + n : Nat)).toNat]? with
      | some term =>
          rw [plugVar_of_some (by omega) hget, plugVar_of_some (by omega) (hidx ▸ hget),
            moved_moved]
      | none =>
          have hlen := List.getElem?_eq_none_iff.1 hget
          rw [plugVar_of_ge (by omega), plugVar_of_ge (by omega)]
          simp only [moved, mapVars, shiftVar]
          rw [if_neg (by omega)]
          congr 1
          omega

theorem replaces_plugVar {Γ : Context} (hΓ : Γ.Regular) {terms : List Term} {types : List Ty}
    (h : List.Forall₂ (fun term ty => ∀ r, Γ.resolve detect ty = .ok r →
      term.HasTy detect Γ r) terms types) :
    Replaces detect (plugVar terms) 0 (Γ.extend types) Γ := by
  refine ⟨rfl, hΓ.unsigned.extend types, hΓ.unsigned, ?_⟩
  intro index name T hT
  have hlength : terms.length = types.length := h.length_eq
  obtain ⟨a, ha, hr⟩ := infer_var_iff.1 hT
  rw [Context.lookup?_extend] at ha
  split at ha
  · rename_i hnew
    obtain ⟨term, hterm, hhas⟩ := getElem?_of_forall₂_right h ha
    have hget : terms[(index - (0 : Nat)).toNat]? = some term := by simpa using hterm
    rw [plugVar_of_some (by omega) hget, Int.natCast_zero, moved_zero]
    exact hhas T hr
  · rename_i hold
    have hpos : 0 ≤ index := by
      by_contra hneg
      rw [hΓ.unsigned _ (by omega)] at ha
      cases ha
    rw [plugVar_of_ge (by omega), hlength]
    have hinfer : (Term.var (index - types.length) name).infer detect Γ = .ok T :=
      infer_var_iff.2 ⟨a, ha, hr⟩
    exact hasTy_of_infer hΓ.toOrderly rfl hinfer

theorem hasTy_plug {Γ : Context} (hΓ : Γ.Regular) {terms : List Term} {types : List Ty}
    (h : List.Forall₂ (fun term ty => ∀ r, Γ.resolve detect ty = .ok r →
      term.HasTy detect Γ r) terms types) {t : Term} (ht : t.distinct = true) {T : Ty}
    (hT : t.infer detect (Γ.extend types) = .ok T) : (t.plug terms).HasTy detect Γ T :=
  hasTy_mapVars (lifts_plugVar terms) (replaces_plugVar hΓ h) hΓ.aliases ht hT

/-- The substitution lemma. A term that has the type of the nearest variable, up to the order of
labels, can take its place, whether it is a value or not, and the body keeps its type up to that
order. -/
theorem infer_substTop {Γ : Context} (hΓ : Γ.distinct = true)
    (hvars : ∀ entry ∈ Γ.vars, 0 ≤ entry.1) {A R S T : Ty} {s t : Term}
    (hA : A.distinct = true) (hs : s.distinct = true) (ht : t.distinct = true)
    (hT : t.infer detect (Γ.extend [A]) = .ok T) (hR : Γ.resolve detect A = .ok R)
    (hS : s.infer detect Γ = .ok S) (hsame : S.same R = true) :
    ∃ u T', substTop s t = .ok u ∧ u.infer detect Γ = .ok T' ∧ T'.same T = true := by
  have hregular : Γ.Regular := Context.regular_of_distinct hΓ hvars
  have hterm : s.HasTy detect Γ R := by
    have hself := hasTy_of_infer hregular.toOrderly hs hS
    obtain ⟨_, -, hRR⟩ := stands_self rfl hregular.aliases hA R hR
    exact hself.conv ⟨hself.alike.left, hRR.right, hsame⟩
  -- the context holds `A` as it was written; what counts is what it resolves to
  have hwritten : ∀ r, Γ.resolve detect A = .ok r → s.HasTy detect Γ r := by
    intro r hr
    obtain rfl : R = r := Except.ok.inj (hR.symm.trans hr)
    exact hterm
  obtain ⟨T', hT', halike⟩ := hasTy_plug hregular (.cons hwritten .nil) ht hT
  exact ⟨_, T', substTop_eq_ok (known_of_infer hs hS) (known_of_infer ht hT), hT', halike.same⟩

/-- An open conditional with its labels the other way round takes the place of a variable that
occurs under a let of two variables and a branch. -/
theorem infer_substTop_under_binders :
    let Γ : Context := ⟨[(0, .base "N"), (2, .base "P")],
      [("P", .product [("a", .base "N"), ("b", .bool)]), ("N", .int)], []⟩
    let s : Term := .ite (.bool true) (.tuple [("b", .bool false), ("a", .var 0 "n")]) (.var 2 "p")
    let t : Term := .letIn (.record [("b", .var "q"), ("a", .var "r")]) (.var 0 "x")
      (.case (.tag "l" (.var 1 "r") (.sum [("l", .base "N")]))
        [("l", ⟨"l", "z", .tuple [("c", .var 3 "x"),
          ("d", .ite (.var 1 "q") (.var 2 "r") (.var 4 "n"))]⟩)])
    t.infer true (Γ.extend [.base "P"]) =
        .ok (.product [("c", .product [("a", .int), ("b", .bool)]), ("d", .int)]) ∧
      ∃ u T', substTop s t = .ok u ∧ u.infer true Γ = .ok T' ∧
        T'.same (.product [("c", .product [("a", .int), ("b", .bool)]), ("d", .int)]) = true := by
  intro Γ s t
  have hT : t.infer true (Γ.extend [.base "P"]) =
    .ok (.product [("c", .product [("a", .int), ("b", .bool)]), ("d", .int)]) := rfl
  have hR : Γ.resolve true (.base "P") = .ok (.product [("a", .int), ("b", .bool)]) := rfl
  have hS : s.infer true Γ = .ok (.product [("b", .bool), ("a", .int)]) := rfl
  exact ⟨hT, infer_substTop (by decide) (by decide) (by decide) (by decide) (by decide) hT hR hS
    (by decide)⟩

end Term

end TypedLambda
