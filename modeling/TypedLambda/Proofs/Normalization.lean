import TypedLambda.Proofs.Reducibility

/-!
# Normalization

The run of a typed term without fix and without free variables ends in a value. By
induction on the term, every typed term computes a value of its type once its variables
are replaced by values of theirs.
-/

namespace TypedLambda

/-! ## Terms without fix -/

namespace Term

mutual

def fixFree : Term → Bool
  | .succ term => term.fixFree
  | .pred term => term.fixFree
  | .isZero term => term.fixFree
  | .abs _ _ body => body.fixFree
  | .app function argument => function.fixFree && argument.fixFree
  | .ite condition yes no => condition.fixFree && yes.fixFree && no.fixFree
  | .tuple fields => fixFreeFields fields
  | .letIn _ value body => value.fixFree && body.fixFree
  | .tag _ payload _ => payload.fixFree
  | .case scrutinee branches => scrutinee.fixFree && fixFreeBranches branches
  | .fix _ => false
  | _ => true

def fixFreeFields : List (String × Term) → Bool
  | [] => true
  | (_, term) :: rest => term.fixFree && fixFreeFields rest

def fixFreeBranches : List (String × Branch Term) → Bool
  | [] => true
  | (_, ⟨_, _, body⟩) :: rest => body.fixFree && fixFreeBranches rest

end

theorem fixFreeFields_iff {fields : List (String × Term)} :
    fixFreeFields fields = true ↔ ∀ entry ∈ fields, entry.2.fixFree = true := by
  induction fields with
  | nil => simp [fixFreeFields]
  | cons entry rest ih => simp [fixFreeFields, ih]

theorem fixFreeBranches_iff {branches : List (String × Branch Term)} :
    fixFreeBranches branches = true ↔ ∀ entry ∈ branches, entry.2.body.fixFree = true := by
  induction branches with
  | nil => simp [fixFreeBranches]
  | cons entry rest ih => simp [fixFreeBranches, ih]

end Term

/-! ## Values for the variables -/

/-- Every variable of the context has a value of its type among `values`. -/
structure Context.Models (detect : Bool) (Γ : Context) (values : List Term) : Prop where
  known : ∀ value ∈ values, value.known = true
  value : ∀ {index ty r}, Γ.lookup? index = some ty → Γ.resolve detect ty = .ok r →
    0 ≤ index ∧ ∃ value, values[index.toNat]? = some value ∧ r.Accepts value

namespace Context

variable {detect : Bool} {Γ : Context}

theorem models_nil (h : Γ.vars = []) : Models detect Γ [] := by
  refine ⟨by simp, fun hlookup => ?_⟩
  rw [lookup?, h] at hlookup
  cases hlookup

theorem Models.extend {values new : List Term} {types : List Ty} (h : Models detect Γ values)
    (hknown : ∀ value ∈ new, value.known = true)
    (hnew : List.Forall₂ (fun value ty => ∀ {r}, Γ.resolve detect ty = .ok r → r.Accepts value)
      new types) : Models detect (Γ.extend types) (new ++ values) := by
  have hlength := hnew.length_eq
  refine ⟨List.forall_mem_append.2 ⟨hknown, h.known⟩, fun {index ty r} hlookup hr => ?_⟩
  rw [lookup?_extend] at hlookup
  split at hlookup
  · rename_i hindex
    obtain ⟨value, hvalue, haccepts⟩ := getElem?_of_forall₂_right hnew hlookup
    refine ⟨hindex.1, value, ?_, haccepts hr⟩
    rw [List.getElem?_append_left (by omega)]
    exact hvalue
  · obtain ⟨hpos, value, hvalue, haccepts⟩ := h.value hlookup hr
    have hindex : index.toNat - new.length = (index - types.length).toNat := by omega
    refine ⟨by omega, value, ?_, haccepts⟩
    rw [List.getElem?_append_right (by omega), hindex]
    exact hvalue

theorem Models.cons {values : List Term} (h : Models detect Γ values) {value : Term}
    {ty r : Ty} (hr : Γ.resolve detect ty = .ok r) (hvalue : r.Accepts value) :
    Models detect (Γ.extend [ty]) (value :: values) := by
  refine @extend _ _ _ [value] _ h (by simpa using hvalue.known) (.cons (fun {s} hs => ?_) .nil)
  obtain rfl : r = s := Except.ok.inj (hr.symm.trans hs)
  exact hvalue

end Context

/-! ## The fundamental lemma -/

namespace Term

variable {detect : Bool} {Γ : Context} {T : Ty}

theorem computes_plug (hΓ : Γ.Regular) {t : Term} (ht : t.distinct = true)
    (hfix : t.fixFree = true) {values : List Term} (hvalues : Γ.Models detect values)
    (hT : t.infer detect Γ = .ok T) : T.Computes (t.plug values) := by
  induction t generalizing Γ T values with
    have hknown := known_plug hvalues.known (known_of_infer ht hT)
  | unit =>
      rw [infer_unit_iff.1 hT]
      exact Ty.Accepts.computes ⟨rfl, rfl, rfl⟩
  | bool value =>
      rw [infer_bool_iff.1 hT]
      exact Ty.Accepts.computes ⟨rfl, rfl, value, rfl⟩
  | zero =>
      rw [infer_zero_iff.1 hT]
      exact Ty.Accepts.computes ⟨rfl, rfl, rfl⟩
  | succ term ih =>
      obtain ⟨hint, rfl⟩ := infer_succ_iff.1 hT
      refine .fill .succ hknown rfl (ih hΓ ht hfix hvalues hint) fun {w} hw hwk => ?_
      exact Ty.Accepts.computes ⟨hw.meaning, hwk, hw.meaning⟩
  | pred term ih =>
      obtain ⟨hint, rfl⟩ := infer_pred_iff.1 hT
      refine .fill .pred hknown rfl (ih hΓ ht hfix hvalues hint) fun {w} hw hwk => ?_
      have hnumeral : w.isNumeral = true := hw.meaning
      cases w with
      | zero => exact .root hwk .predZero (Ty.Accepts.computes ⟨rfl, rfl, rfl⟩)
      | succ n =>
          have hn : Ty.int.Accepts n := ⟨isValue_of_isNumeral hnumeral, hwk, hnumeral⟩
          exact .root hwk (.predSucc hnumeral) hn.computes
      | _ => cases hnumeral
  | isZero term ih =>
      obtain ⟨hint, rfl⟩ := infer_isZero_iff.1 hT
      refine .fill .isZero hknown rfl (ih hΓ ht hfix hvalues hint) fun {w} hw hwk => ?_
      have hnumeral : w.isNumeral = true := hw.meaning
      cases w with
      | zero => exact .root hwk .isZeroZero (Ty.Accepts.computes ⟨rfl, rfl, true, rfl⟩)
      | succ n =>
          exact .root hwk (.isZeroSucc hnumeral) (Ty.Accepts.computes ⟨rfl, rfl, false, rfl⟩)
      | _ => cases hnumeral
  | var index name =>
      obtain ⟨a, ha, hr⟩ := infer_var_iff.1 hT
      obtain ⟨hpos, value, hvalue, haccepts⟩ := hvalues.value ha hr
      have hget : values[(index - (0 : Nat)).toNat]? = some value := by simpa using hvalue
      have hplug : (var index name).plug values = value := by
        rw [plug, mapVars, plugVar_of_some (by omega) hget, Int.natCast_zero, moved_zero]
      rw [hplug]
      exact haccepts.computes
  | abs name ty body ih =>
      simp only [distinct, Bool.and_eq_true] at ht
      obtain ⟨p, r, hp, hr, rfl⟩ := infer_abs_iff.1 hT
      refine Ty.Accepts.computes
        ⟨rfl, hknown, name, ty, body.mapVars (plugVar values) 1, rfl, fun w hw hwk hmeaning => ?_⟩
      obtain ⟨u, hu, haccepts⟩ := ih (hΓ.extend (by simpa using ht.1)) ht.2 hfix
        (hvalues.cons hp ⟨hw, hwk, hmeaning⟩) hr
      -- the argument takes its place after the other values, which comes to the same
      rw [plug_mapVars_one]
      exact ⟨u, hu, haccepts.known, haccepts.meaning⟩
  | app f a ihf iha =>
      simp only [distinct, fixFree, Bool.and_eq_true] at ht hfix
      obtain ⟨p, q, hf, ha, hsame⟩ := infer_app_iff.1 hT
      have hp := (hasTy_of_infer hΓ.toOrderly ht.1 hf).alike.param
      have hq := (hasTy_of_infer hΓ.toOrderly ht.2 ha).alike
      apply Ty.Computes.fill (.function (a.plug values)) hknown rfl (ihf hΓ ht.1 hfix.1 hvalues hf)
      intro f' hf' hknown
      apply Ty.Computes.fill (.argument f') hknown hf'.isValue (iha hΓ ht.2 hfix.2 hvalues ha)
      intro a' ha' hknown
      obtain ⟨name, ty, body, rfl, hbody⟩ := hf'.meaning
      have harg := ha'.conv (Ty.Alike.symm ⟨hp.left, hq.left, hsame⟩)
      obtain ⟨u, hu, huk, hmeaning⟩ := hbody a' harg.isValue harg.known harg.meaning
      exact .root hknown (.beta ha'.isValue) ⟨u, hu, hu.isValue, huk, hmeaning⟩
  | ite condition yes no ihc ihy ihn =>
      simp only [distinct, fixFree, Bool.and_eq_true] at ht hfix
      obtain ⟨hc, hy, u, hn, hsame⟩ := infer_ite_iff.1 hT
      have hyes := (hasTy_of_infer hΓ.toOrderly ht.1.2 hy).alike
      have hno := (hasTy_of_infer hΓ.toOrderly ht.2 hn).alike
      refine .fill (.condition (yes.plug values) (no.plug values)) hknown rfl
        (ihc hΓ ht.1.1 hfix.1.1 hvalues hc) fun {w} hw hwk => ?_
      obtain ⟨value, rfl⟩ := hw.meaning
      cases value with
      | true => exact .root hwk .yes (ihy hΓ ht.1.2 hfix.1.2 hvalues hy)
      | false =>
          have hcomputes := ihn hΓ ht.2 hfix.2 hvalues hn
          exact .root hwk .no (hcomputes.conv (Ty.Alike.symm ⟨hyes.left, hno.left, hsame⟩))
  | tuple fields ih =>
      simp only [distinct, fixFree, Bool.and_eq_true, decide_eq_true_eq, distinctFields_iff,
        fixFreeFields_iff] at ht hfix
      obtain ⟨types, hfields, rfl⟩ := infer_tuple_iff.1 hT
      rw [plug, mapVars_tuple]
      refine .tuple (by simpa using ht.1) ((Table.InStep.map_left_iff _).2 ?_)
      exact hfields.imp fun entry hmem _ hty =>
        ih entry hmem hΓ (ht.2 entry hmem) (hfix entry hmem) hvalues hty
  | letIn pattern value body ihv ihb =>
      simp only [distinct, fixFree, Bool.and_eq_true] at ht hfix
      obtain ⟨a, types, ha, hbind, hb⟩ := infer_letIn_iff.1 hT
      have hresolved := resolved_of_infer ha
      have halike := (hasTy_of_infer hΓ.toOrderly ht.1.2 ha).alike
      refine .fill (.value pattern (body.mapVars (plugVar values) (0 + pattern.size))) hknown rfl
        (ihv hΓ ht.1.2 hfix.1 hvalues ha) fun {w} hw hwk => ?_
      obtain ⟨bindings, hbindings, hall⟩ := hw.destructure hresolved hbind
      have hparts := known_of_destructure hbindings hw.known
      have hsize : 0 + pattern.size = (bindings.map Prod.snd).length := by
        rw [Pattern.size, Pattern.length?_of_bind hbind, List.length_map, hall.length_eq]
        simp
      -- the parts of the bound value are values for the variables of the pattern
      have hnew : Context.Models detect (Γ.extend types) (bindings.map Prod.snd ++ values) := by
        refine hvalues.extend hparts (List.forall₂_map_left_iff.2 ?_)
        have htypes := Pattern.resolved_of_bind hbind
        clear hbindings hparts hsize hbind hb
        induction hall with
        | nil => exact .nil
        | cons haccepts _ ih =>
            rw [List.forall_mem_cons] at htypes
            refine .cons (fun {r} hr => ?_) (ih htypes.2)
            obtain rfl := Context.eq_of_resolve htypes.1 hr
            exact haccepts
      have hbody := ihb (hΓ.extend (Pattern.distinct_of_bind hresolved halike hbind)) ht.2 hfix.2
        hnew hb
      refine .root hwk (.letIn hw.isValue hbindings) ?_
      rw [hsize, plug_mapVars_plugVar]
      exact hbody
  | tag label payload ty ih =>
      simp only [distinct, Bool.and_eq_true] at ht
      have halike := (hasTy_of_infer hΓ.toOrderly (by simp [distinct, ht]) hT).alike
      obtain ⟨variants, a, p, hty, hlabel, hp, hsame, rfl⟩ := infer_tag_iff.1 hT
      have hpp := (hasTy_of_infer hΓ.toOrderly ht.1 hp).alike
      refine .fill (.payload label ty) hknown rfl (ih hΓ ht.1 hfix hvalues hp) fun {w} hw hwk => ?_
      have hpayload := hw.conv ⟨hpp.left, (halike.variant hlabel).left, hsame⟩
      exact Ty.Accepts.computes ⟨hw.isValue, hwk, label, w, ty, rfl,
        Ty.meaningVariants_iff.2 ⟨a, hlabel, hpayload.meaning⟩⟩
  | case scrutinee branches ihs ihb =>
      have hself := (hasTy_of_infer hΓ.toOrderly ht hT).alike
      simp only [distinct, fixFree, Bool.and_eq_true, distinctBranches_iff,
        fixFreeBranches_iff] at ht hfix
      obtain ⟨variants, hs, -, -, hbranches⟩ := infer_case_inv hT
      have halike := (hasTy_of_infer hΓ.toOrderly ht.1.1 hs).alike
      have hvariants := Ty.resolved_sum.1 (resolved_of_infer hs)
      rw [plug, mapVars_case] at hknown ⊢
      refine .fill (.scrutinee _) hknown rfl (ihs hΓ ht.1.1 hfix.1 hvalues hs) fun {w} hw hwk => ?_
      obtain ⟨label, payload, ty, rfl, hmeaning⟩ := hw.meaning
      obtain ⟨a, ha, hpayload⟩ := Ty.meaningVariants_iff.1 hmeaning
      obtain ⟨branch, U, hbranch, hU, hUT⟩ := hbranches ha
      have hmem := Table.mem_of_lookup hbranch
      have haccepts : a.Accepts payload := ⟨hw.isValue, hw.known, hpayload⟩
      have hresolve : Γ.resolve detect a = .ok a :=
        Ty.resolve_of_resolved (hvariants _ (Table.mem_of_lookup ha))
      have hregular : (Γ.extend [a]).Regular :=
        hΓ.extend (by simpa using (halike.variant ha).left)
      have hbody : U.Computes (branch.body.plug (payload :: values)) :=
        ihb _ hmem hregular (ht.2 _ hmem) (hfix.2 _ hmem) (hvalues.cons hresolve haccepts) hU
      have hUU := (hasTy_of_infer hregular.toOrderly (ht.2 _ hmem) hU).alike
      refine .root hwk (.case hw.isValue (by rw [Table.lookup_map, hbranch]; rfl)) ?_
      rw [← plug_mapVars_one] at hbody
      rcases hUT with rfl | hsame
      · exact hbody
      · exact hbody.conv ⟨hUU.left, hself.left, hsame⟩
  | fix term _ => cases hfix
  | foreign => exact absurd hT infer_foreign_ne

/-- Normalization: without fix, the run of a typed term without free variables ends in a
value within every budget from some number of steps on. -/
theorem normalization {t : Term} (hΓ : Γ.distinct = true) (hvars : Γ.vars = [])
    (ht : t.distinct = true) (hfix : t.fixFree = true) (hT : t.infer detect Γ = .ok T) :
    ∃ steps v, v.isValue = true ∧
      (∀ (settings : Settings) (limit fuel : Nat), settings.maxSteps = some limit →
        steps ≤ limit → (t.evaluate settings fuel).outcome = .ok v) ∧
      ∀ (settings : Settings) (fuel : Nat), settings.maxSteps = none →
        steps ≤ fuel → (t.evaluate settings fuel).outcome = .ok v := by
  have hregular : Γ.Regular := Context.regular_of_distinct hΓ (by simp [hvars])
  have hcomputes := computes_plug hregular ht hfix (Context.models_nil hvars) hT
  rw [plug_nil] at hcomputes
  obtain ⟨v, hhalts, haccepts⟩ := hcomputes
  obtain ⟨steps, hsteps⟩ := hhalts.exists_budget
  refine ⟨steps, v, haccepts.isValue, ?_, ?_⟩
  · intro settings limit fuel hmax hle
    simp only [evaluate, hmax, Option.getD_some, hsteps limit hle]
  · intro settings fuel hmax hle
    simp only [evaluate, hmax, Option.getD_none, hsteps fuel hle]

theorem normalization_twice :
    let t : Term := .app (.abs "f" (.base "F") (.app (.var 0 "f") (.app (.var 0 "f") .zero)))
      (.abs "x" (.base "N") (.succ (.var 0 "x")))
    ∃ steps v, v.isValue = true ∧
      (∀ (settings : Settings) (limit fuel : Nat), settings.maxSteps = some limit →
        steps ≤ limit → (t.evaluate settings fuel).outcome = .ok v) ∧
      ∀ (settings : Settings) (fuel : Nat), settings.maxSteps = none →
        steps ≤ fuel → (t.evaluate settings fuel).outcome = .ok v :=
  @normalization true ⟨[], [("N", .int), ("F", .arrow (.base "N") (.base "N"))], []⟩ .int _
    (by decide) rfl (by decide) (by decide) rfl

end Term

end TypedLambda
