import TypedLambda.Proofs.WellScoped

/-!
# Laws of shifting

Two walks over a term give the same result exactly if they do so at every variable:
`Term.mapVars_eq_iff`. So an equation between shifts holds of a term exactly if its variables meet
a condition, and the condition is read off a single variable below any number of binders.

Shifts above one cutoff add up as long as the first moves no variable from above the cutoff to
below it, where the second would miss it. A shift outwards never does. Shifts outwards above two
cutoffs commute, with the upper cutoff moved along by the lower shift.

Shifts and substitutions meet in the same way. A shift outwards passes through the filling of a
binder, and the cutoff of a substitution is a shift of what it puts in place
(`Term.substitution_laws`).
-/

namespace TypedLambda.Term

/-! ## Walks that agree -/

theorem mapVars_eq_iff {f g : Nat → Int → String → Term} {test : Nat → Int → Bool}
    (htest : ∀ j index name, f j index name = g j index name ↔ test j index = true) (t : Term)
    (k : Nat) : t.mapVars f k = t.mapVars g k ↔ t.everyVar test k = true := by
  induction t generalizing k with
  | unit | bool | zero | foreign => exact iff_of_true rfl rfl
  | var index name => exact htest k index name
  | succ term ih | pred term ih | isZero term ih | fix term ih =>
      simp only [mapVars, everyVar, succ.injEq, pred.injEq, isZero.injEq, fix.injEq, ih]
  | tag label payload ty ih =>
      simp only [mapVars, everyVar, tag.injEq, true_and, and_true, ih]
  | abs name ty body ih => simp only [mapVars, everyVar, abs.injEq, true_and, ih]
  | app function argument ihf iha =>
      simp only [mapVars, everyVar, app.injEq, Bool.and_eq_true, ihf, iha]
  | ite condition yes no ihc ihy ihn =>
      simp only [mapVars, everyVar, ite.injEq, Bool.and_eq_true, ihc, ihy, ihn, and_assoc]
  | tuple fields ih =>
      rw [mapVars_tuple, mapVars_tuple, tuple.injEq, List.map_inj_left, everyVar,
        everyVarFields_iff]
      refine forall₂_congr fun entry hmem => ?_
      rw [Prod.mk.injEq, ih entry hmem, eq_self, true_and]
  | letIn pattern value body ihv ihb =>
      simp only [mapVars, everyVar, letIn.injEq, true_and, Bool.and_eq_true, ihv, ihb]
  | case scrutinee branches ihs ihb =>
      rw [mapVars_case, mapVars_case, case.injEq, List.map_inj_left, everyVar, Bool.and_eq_true,
        everyVarBranches_iff, ihs]
      refine and_congr_right' (forall₂_congr fun entry hmem => ?_)
      simp only [Branch.map, Prod.mk.injEq, Branch.mk.injEq, true_and, ihb entry hmem]

theorem everyVar_of_forall {test : Nat → Int → Bool} (h : ∀ j index, test j index = true)
    (t : Term) (k : Nat) : t.everyVar test k = true := by
  have hagree := @mapVars_eq_iff (fun _ => var) (fun _ => var) test
    (fun j index _ => iff_of_true rfl (h j index)) t k
  exact hagree.1 rfl

/-! ## Shifts one after the other -/

/-- A variable that is free above the cutoff is so after a shift by `d`. -/
def staysAbove (d cutoff : Int) (k : Nat) (index : Int) : Bool :=
  decide (cutoff ≤ index - k → cutoff ≤ index - k + d)

theorem moved_moved_eq_mapVars (d₁ d₂ c₁ c₂ : Int) (t : Term) :
    (t.moved d₁ c₁).moved d₂ c₂ =
      t.mapVars (fun j index name => (shiftVar d₁ c₁ j index name).mapVars (shiftVar d₂ c₂) j) 0 :=
  @mapVars_mapVars _ _ _ 0 0 (fun _ _ _ => rfl) t 0

theorem shiftVar_shiftVar_iff (d₁ : Int) {d₂ : Int} (hd₂ : d₂ ≠ 0) (c : Int) (j : Nat)
    (index : Int) (name : String) :
    (shiftVar d₁ c j index name).mapVars (shiftVar d₂ c) j = shiftVar (d₁ + d₂) c j index name ↔
      staysAbove d₁ c j index = true := by
  rw [staysAbove, decide_eq_true_iff]
  by_cases hlt : index < c + j
  · have hbelow : ¬ c ≤ index - j := by omega
    simp only [shiftVar, mapVars, hlt, if_true, hbelow, false_implies]
  · have habove : c ≤ index - j := by omega
    simp only [shiftVar, mapVars, hlt, if_false, habove, true_implies]
    by_cases hdrop : index + d₁ < c + j
    · simp only [hdrop, if_true, var.injEq, and_true]
      omega
    · simp only [hdrop, if_false, var.injEq, and_true]
      omega

/-- Two shifts above one cutoff add up exactly if the second does nothing or the first takes no
variable below the cutoff. -/
theorem moved_moved_iff (d₁ d₂ c : Int) (t : Term) :
    (t.moved d₁ c).moved d₂ c = t.moved (d₁ + d₂) c ↔
      d₂ = 0 ∨ t.everyVar (staysAbove d₁ c) 0 = true := by
  by_cases hd₂ : d₂ = 0
  · subst hd₂
    rw [moved_zero, Int.add_zero]
    exact iff_of_true rfl (.inl rfl)
  · have hleaves := mapVars_eq_iff (shiftVar_shiftVar_iff d₁ hd₂ c) t 0
    rw [moved_moved_eq_mapVars, moved, hleaves]
    exact (or_iff_right hd₂).symm

theorem moved_moved_of_nonneg {d₁ : Int} (hd₁ : 0 ≤ d₁) (d₂ c : Int) (t : Term) :
    (t.moved d₁ c).moved d₂ c = t.moved (d₁ + d₂) c := by
  refine (moved_moved_iff d₁ d₂ c t).2 (.inr (everyVar_of_forall (fun j index => ?_) t 0))
  rw [staysAbove, decide_eq_true_iff]
  omega

theorem moved_moved_comm {d₁ d₂ c₁ c₂ : Int} (hd₁ : 0 ≤ d₁) (hd₂ : 0 ≤ d₂) (hc : c₁ ≤ c₂)
    (t : Term) : (t.moved d₁ c₁).moved d₂ (c₂ + d₁) = (t.moved d₂ c₂).moved d₁ c₁ := by
  rw [moved_moved_eq_mapVars, moved_moved_eq_mapVars]
  congr 1
  funext j index name
  by_cases hlower : index < c₁ + j
  · have hupper : index < c₂ + j := by omega
    have hmoved : index < c₂ + d₁ + j := by omega
    simp only [shiftVar, mapVars, hlower, hupper, hmoved, if_true]
  · by_cases hupper : index < c₂ + j
    · have hmoved : index + d₁ < c₂ + d₁ + j := by omega
      simp only [shiftVar, mapVars, hlower, hupper, hmoved, if_true, if_false]
    · have hmoved : ¬ index + d₁ < c₂ + d₁ + j := by omega
      have hmoved' : ¬ index + d₂ < c₁ + j := by omega
      simp only [shiftVar, mapVars, hlower, hupper, hmoved, hmoved', if_false]
      congr 1
      omega

/-! ## The operation itself -/

theorem shift_shift_eq_ok {t : Term} (ht : t.known = true) (d₁ d₂ c₁ c₂ : Int) :
    (t.shift d₁ c₁ >>= shift d₂ c₂) = .ok ((t.moved d₁ c₁).moved d₂ c₂) := by
  rw [shift_eq_ok ht]
  exact shift_eq_ok (known_moved ht) d₂ c₂

/-- The laws of shifting, for all integers. Shifts above one cutoff add up exactly if the second
does nothing or each variable above the cutoff stays above it in the first. So they do after a
shift outwards, which can be undone. Shifts outwards above two cutoffs commute. -/
theorem shift_laws {t : Term} (ht : t.known = true) :
    (∀ d₁ d₂ c, ∃ v w, (t.shift d₁ c >>= shift d₂ c) = .ok v ∧ t.shift (d₁ + d₂) c = .ok w ∧
      (v = w ↔ d₂ = 0 ∨ t.everyVar (staysAbove d₁ c) 0 = true)) ∧
    (∀ d₁ d₂ c, 0 ≤ d₁ → (t.shift d₁ c >>= shift d₂ c) = t.shift (d₁ + d₂) c) ∧
    (∀ d c, 0 ≤ d → (t.shift d c >>= shift (-d) c) = .ok t) ∧
    ∀ d₁ d₂ c₁ c₂, 0 ≤ d₁ → 0 ≤ d₂ → c₁ ≤ c₂ →
      ∃ w, (t.shift d₁ c₁ >>= shift d₂ (c₂ + d₁)) = .ok w ∧
        (t.shift d₂ c₂ >>= shift d₁ c₁) = .ok w := by
  refine ⟨fun d₁ d₂ c => ?_, fun d₁ d₂ c hd₁ => ?_, fun d c hd => ?_,
    fun d₁ d₂ c₁ c₂ hd₁ hd₂ hc => ?_⟩
  · exact ⟨_, _, shift_shift_eq_ok ht d₁ d₂ c c, shift_eq_ok ht (d₁ + d₂) c,
      moved_moved_iff d₁ d₂ c t⟩
  · rw [shift_shift_eq_ok ht, shift_eq_ok ht, moved_moved_of_nonneg hd₁]
  · rw [shift_shift_eq_ok ht, moved_moved_of_nonneg hd, Int.add_right_neg, moved_zero]
  · refine ⟨_, shift_shift_eq_ok ht d₁ d₂ c₁ (c₂ + d₁), ?_⟩
    rw [shift_shift_eq_ok ht, moved_moved_comm hd₁ hd₂ hc]

/-- A let without variables, a let of two, a branch and an abstraction, with the free variables 3
and 0 outside of them. Above the cutoff 1, the first variable stays in a shift inwards by two, and
it drops out in one by three. -/
theorem shift_laws_under_binders :
    let t : Term := .letIn (.record []) (.var 3 "x")
      (.letIn (.record [("a", .var "p"), ("b", .var "q")]) (.var 3 "x")
        (.case (.var 1 "q") [("l", ⟨"l", "y",
          .abs "z" .int (.app (.app (.var 7 "x") (.var 2 "p")) (.var 4 "u"))⟩)]))
    (∃ w, (t.shift (-2) 1 >>= shift 5 1) = .ok w ∧ t.shift 3 1 = .ok w) ∧
      (∃ v w, (t.shift (-3) 1 >>= shift 5 1) = .ok v ∧ t.shift 2 1 = .ok w ∧ v ≠ w) ∧
      (t.shift 4 (-1) >>= shift (-4) (-1)) = .ok t ∧
      ∃ w, (t.shift 2 0 >>= shift 3 4) = .ok w ∧ (t.shift 3 2 >>= shift 2 0) = .ok w := by
  intro t
  obtain ⟨hadd, -, hundo, hcomm⟩ := @shift_laws t rfl
  obtain ⟨v, w, hv, hw, hiff⟩ := hadd (-2) 5 1
  obtain ⟨v', w', hv', hw', hiff'⟩ := hadd (-3) 5 1
  have heq : v = w := hiff.2 (.inr rfl)
  have hne : v' ≠ w' := fun h => absurd (hiff'.1 h) (by decide)
  exact ⟨⟨w, heq ▸ hv, hw⟩, ⟨v', w', hv', hw', hne⟩, hundo 4 (-1) (by decide),
    hcomm 2 3 0 2 (by decide) (by decide) (by decide)⟩

/-! ## Shifts and substitutions -/

/-- A shift outwards passes through a substitution. In the body it acts above the binders that are
filled as well, and the terms that fill them are shifted before. -/
theorem moved_plug_comm {d c : Int} (hd : 0 ≤ d) (hc : 0 ≤ c) (terms : List Term) (t : Term) :
    (t.plug terms).moved d c = (t.moved d (c + terms.length)).plug (terms.map (moved d c)) := by
  have hlength : (terms.map (moved d c)).length = terms.length := List.length_map _
  have hleft := @mapVars_mapVars (shiftVar d c) (plugVar terms) _ 0 0 (fun _ _ _ => rfl) t 0
  refine hleft.trans (Eq.symm ?_)
  refine @mapVars_mapVars _ _ _ 0 0 (fun j index name => ?_) t 0
  show (shiftVar d (c + terms.length) j index name).mapVars (plugVar (terms.map (moved d c))) j =
    (plugVar terms j index name).mapVars (shiftVar d c) j
  by_cases hcutoff : index < c + terms.length + j
  · have hstay : shiftVar d (c + terms.length) j index name = var index name := if_pos hcutoff
    rw [hstay, mapVars]
    by_cases hbound : index < j
    · have hbelow : index < c + j := by omega
      rw [plugVar_of_lt hbound, plugVar_of_lt hbound, mapVars, shiftVar, if_pos hbelow]
    · cases hterm : terms[(index - j).toNat]? with
      | some term =>
          have hmoved : (terms.map (moved d c))[(index - j).toNat]? = some (term.moved d c) := by
            rw [List.getElem?_map, hterm]
            rfl
          rw [plugVar_of_some (by omega) hterm, plugVar_of_some (by omega) hmoved,
            mapVars_shiftVar, moved_moved_comm (Int.natCast_nonneg j) hd hc]
      | none =>
          have hlen := List.getElem?_eq_none_iff.1 hterm
          have hbelow : index - terms.length < c + j := by omega
          rw [plugVar_of_ge (by omega), plugVar_of_ge (by omega), hlength, mapVars, shiftVar,
            if_pos hbelow]
  · have hmove : shiftVar d (c + terms.length) j index name = var (index + d) name :=
      if_neg hcutoff
    have habove : ¬ index - terms.length < c + j := by omega
    rw [hmove, mapVars, plugVar_of_ge (by omega), plugVar_of_ge (by omega), hlength, mapVars,
      shiftVar, if_neg habove]
    congr 1
    omega

/-- A cutoff can be moved into the index and the replacement, which is shifted at its place by what
the cutoff has left over. -/
theorem replaceFrom_moved (j : Int) (s : Term) {cutoff : Int} (hcutoff : 0 ≤ cutoff) :
    replaceFrom (j + cutoff) (s.moved cutoff 0) 0 = replaceFrom j s cutoff := by
  funext k index name
  have hindex : j + cutoff + (k : Int) = j + (cutoff + k) := by omega
  simp only [replaceFrom, Int.zero_add, hindex, moved_moved_of_nonneg hcutoff]

theorem shift_substTop_eq_ok {s t : Term} (hs : s.known = true) (ht : t.known = true)
    (d c : Int) : (substTop s t >>= shift d c) = .ok ((t.plug [s]).moved d c) := by
  rw [substTop_eq_ok hs ht]
  exact shift_eq_ok (known_plug (by simpa using hs) ht) d c

theorem substTop_shift_eq_ok {s t : Term} (hs : s.known = true) (ht : t.known = true)
    (d c : Int) :
    (do
      let s ← s.shift d c
      let t ← t.shift d (c + 1)
      substTop s t) = .ok ((t.moved d (c + 1)).plug [s.moved d c]) := by
  rw [shift_eq_ok hs, shift_eq_ok ht]
  exact substTop_eq_ok (known_moved hs) (known_moved ht)

/-- The laws of substitution with shifts. A cutoff says no more than an index and a replacement that
are moved over it, for any integer as index. A shift outwards can be made before a substitution
under a binder: above its cutoff in the term that is put in place, and above the binder as well in
the body. -/
theorem substitution_laws {s t : Term} (hs : s.known = true) (ht : t.known = true) :
    (∀ j c : Int, 0 ≤ c → ∃ w, substitute j s t c = .ok w ∧
      (s.shift c 0 >>= fun s => substitute (j + c) s t 0) = .ok w) ∧
    ∀ d c : Int, 0 ≤ d → 0 ≤ c → ∃ w, (substTop s t >>= shift d c) = .ok w ∧
      (do
        let s ← s.shift d c
        let t ← t.shift d (c + 1)
        substTop s t) = .ok w := by
  refine ⟨fun j c hc => ⟨_, substitute_eq_ok hs ht j c, ?_⟩,
    fun d c hd hc => ⟨_, shift_substTop_eq_ok hs ht d c, ?_⟩⟩
  · rw [shift_eq_ok hs]
    show substitute (j + c) (s.moved c 0) t 0 = _
    rw [substitute_eq_ok (known_moved hs) ht, replaceFrom_moved j s hc]
  · rw [substTop_shift_eq_ok hs ht, moved_plug_comm hd hc]
    rfl

/-- A let of two variables, a branch and an abstraction stand above the places of the replacement,
which has a binder and free variables of its own. -/
theorem substitution_laws_under_binders :
    let t : Term := .letIn (.record [("a", .var "p"), ("b", .var "q")]) (.var 1 "y")
      (.case (.var 2 "x")
        [("l", ⟨"l", "z", .abs "u" .int (.app (.var 4 "x") (.app (.var 5 "y") (.var 9 "far")))⟩)])
    let s : Term := .abs "n" .int (.app (.var 0 "n") (.app (.var 1 "y") (.var 4 "free")))
    (∃ w, substitute (-2) s t 3 = .ok w ∧
      (s.shift 3 0 >>= fun s => substitute (-2 + 3) s t 0) = .ok w) ∧
    ∃ w, (substTop s t >>= shift 5 2) = .ok w ∧
      (do
        let s ← s.shift 5 2
        let t ← t.shift 5 (2 + 1)
        substTop s t) = .ok w := by
  intro t s
  obtain ⟨hcutoff, hpass⟩ := @substitution_laws s t rfl rfl
  exact ⟨hcutoff (-2) 3 (by decide), hpass 5 2 (by decide) (by decide)⟩

end TypedLambda.Term
