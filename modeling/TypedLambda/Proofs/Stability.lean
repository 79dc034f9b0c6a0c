import TypedLambda.Proofs.Iteration

/-!
# Reduction of open terms

Free variables do not keep a term from being reduced, as long as no rule asks for their form.
Two consequences for substitution are shown here. A let puts all parts of its value in place at
once, with their free variables kept clear of the binders of the body. And reduction is stable:
what a term does with its variables free, it does with any terms in their place. A value stays
a value, the first part that is none stays the first, and each rule applies to the same redex.
-/

namespace TypedLambda

namespace Term

/-! ## Lets -/

/-- What `act` makes of a variable under `k` binders is what a simultaneous substitution of
`values` for the indices 0, 1, and so on makes of it. -/
structure Simultaneous (values : List Term) (act : Nat → Int → String → Term) : Prop where
  bound : ∀ {k : Nat} {index : Int} {name : String}, index < k →
    act k index name = .var index name
  replaced : ∀ {k i : Nat} {value : Term} {name : String}, values[i]? = some value →
    value.shift k 0 = .ok (act k (k + i) name)
  free : ∀ {k : Nat} {index : Int} {name : String}, k + values.length ≤ index →
    act k index name = .var (index - values.length) name

theorem simultaneous_plugVar {values : List Term} (h : ∀ value ∈ values, value.known = true) :
    Simultaneous values (plugVar values) := by
  refine ⟨plugVar_of_lt, fun {k i value name} hvalue => ?_, plugVar_of_ge⟩
  have hplace : ((k + i : Int) - k).toNat = i := by omega
  rw [shift_eq_ok (h value (List.mem_of_getElem? hvalue)),
    plugVar_of_some (by omega) (by rw [hplace, hvalue])]

/-- A let with a value puts the parts that its pattern takes from the value in place of the
variables of the pattern, all at once. -/
theorem step_letIn_simultaneous {pattern : Pattern} {value body : Term}
    {bindings : List (String × Term)} (hvalue : value.isValue = true)
    (hknown : value.known = true) (hbody : body.known = true)
    (h : pattern.destructure value = .ok bindings) :
    pattern.length? = some bindings.length ∧
      ∃ act, Simultaneous (bindings.map Prod.snd) act ∧
        (letIn pattern value body).step = .ok (body.mapVars act 0) := by
  have hopen : openLet pattern value body = .ok (body.plug (bindings.map Prod.snd)) :=
    (openLet_eq_ok_iff hknown hbody).2 ⟨bindings, h, rfl⟩
  refine ⟨Pattern.length?_of_destructure h, _,
    simultaneous_plugVar (known_of_destructure h hknown), ?_⟩
  rw [step.eq_def, contract?, if_pos hvalue]
  exact hopen

theorem step_letIn_simultaneous_nested :
    let pattern : Pattern := .record [("a", .record [("c", .var "p"), ("b", .var "q")]),
      ("d", .var "r")]
    let first : Term := .abs "n" .int (.app (.var 0 "n") (.var 1 "free"))
    let second : Term := .succ .zero
    let third : Term := .tag "l" (.abs "m" .int (.var 3 "far")) (.sum [("l", .base "A")])
    let value : Term := .tuple [("d", third), ("e", .unit),
      ("a", .tuple [("b", second), ("c", first)])]
    let body : Term := .abs "z" .int (.case (.var 3 "r") [("l", ⟨"l", "w",
      .letIn (.var "g") (.var 3 "q") (.app (.var 3 "p") (.app (.var 6 "far") (.var (-1) "x")))⟩)])
    pattern.length? = some 3 ∧
      ∃ act, Simultaneous [first, second, third] act ∧
        (letIn pattern value body).step = .ok (body.mapVars act 0) := by
  intro pattern first second third value body
  have hmatch : pattern.destructure value = .ok [("p", first), ("q", second), ("r", third)] := rfl
  exact step_letIn_simultaneous rfl rfl rfl hmatch

/-! ## Values and matching under a walk -/

section
variable {act : Nat → Int → String → Term} {k : Nat}

theorem mapVars_of_isNumeral {t : Term} (h : t.isNumeral = true) : t.mapVars act k = t := by
  induction t with
  | zero => rfl
  | succ term ih => rw [mapVars, ih h]
  | _ => cases h

theorem isValue_mapVars {v : Term} (h : v.isValue = true) : (v.mapVars act k).isValue = true := by
  induction v with
  | unit | bool | zero | abs => rfl
  | succ term _ =>
      have hclosed : (succ term).mapVars act k = succ term := mapVars_of_isNumeral h
      rw [hclosed]
      exact h
  | tuple fields ih =>
      rw [isValue_tuple_iff] at h
      rw [mapVars_tuple, isValue_tuple_iff, List.forall_mem_map]
      exact fun entry hmem => ih entry hmem (h entry hmem)
  | tag label payload ty ih => exact ih h
  | _ => cases h

theorem destructure_mapVars {pattern : Pattern} {value : Term} {bindings : List (String × Term)}
    (h : pattern.destructure value = .ok bindings) :
    pattern.destructure (value.mapVars act k) =
      .ok (bindings.map fun binding => (binding.1, binding.2.mapVars act k)) := by
  induction pattern generalizing value bindings with
  | var name =>
      cases h
      rfl
  | record patterns ih =>
      cases value with
      | tuple terms =>
          rw [Pattern.destructure] at h
          rw [mapVars_tuple, Pattern.destructure]
          induction patterns generalizing bindings with
          | nil =>
              cases h
              rfl
          | cons field rest ihrest =>
              rw [List.forall_mem_cons] at ih
              obtain ⟨term, first, others, hterm, hfirst, hothers, rfl⟩ :=
                destructureFields_cons_iff.1 h
              have hterm' : (terms.map fun entry => (entry.1, entry.2.mapVars act k)).lookup
                  field.1 = some (term.mapVars act k) := by
                rw [Table.lookup_map, hterm]
                rfl
              rw [List.map_append]
              exact destructureFields_cons_iff.2
                ⟨_, _, _, hterm', ih.1 hfirst, ihrest ih.2 hothers, rfl⟩
      | _ => cases h
  | foreign => cases value <;> cases h

end

end Term

/-! ## Frames under a walk -/

namespace Frame

def mapVars (act : Nat → Int → String → Term) (k : Nat) : Frame → Frame
  | .function a => .function (a.mapVars act k)
  | .argument f => .argument (f.mapVars act k)
  | .condition yes no => .condition (yes.mapVars act k) (no.mapVars act k)
  | .succ => .succ
  | .pred => .pred
  | .isZero => .isZero
  | .field before label after =>
      .field (before.map fun entry => (entry.1, entry.2.mapVars act k)) label
        (after.map fun entry => (entry.1, entry.2.mapVars act k))
  | .value pattern body => .value pattern (body.mapVars act (k + pattern.size))
  | .payload label ty => .payload label ty
  | .scrutinee branches =>
      .scrutinee (branches.map fun entry => (entry.1, entry.2.map (Term.mapVars act (k + 1))))
  | .fix => .fix

variable {act : Nat → Int → String → Term} {k : Nat}

theorem mapVars_fill (F : Frame) (t : Term) :
    (F.fill t).mapVars act k = (F.mapVars act k).fill (t.mapVars act k) := by
  cases F with
  | field before label after =>
      rw [fill, Term.mapVars_tuple, List.map_append, List.map_cons]
      rfl
  | scrutinee branches =>
      rw [fill, Term.mapVars_case]
      rfl
  | _ => rfl

theorem ready_mapVars {F : Frame} (h : F.ready = true) : (F.mapVars act k).ready = true := by
  cases F with
  | argument f => exact Term.isValue_mapVars h
  | field before label after =>
      have hbefore := Term.allValues_iff.1 h
      refine Term.allValues_iff.2 ?_
      rw [List.forall_mem_map]
      exact fun entry hmem => Term.isValue_mapVars (hbefore entry hmem)
  | _ => rfl

end Frame

namespace Term

/-! ## Stability -/

variable {terms : List Term} {t u : Term}

theorem Contracts.plug (h : Contracts t u) (terms : List Term) :
    Contracts (t.plug terms) (u.plug terms) := by
  cases h with
  | beta hvalue =>
      rw [plug_plug_comm]
      exact .beta (isValue_mapVars hvalue)
  | yes => exact .yes
  | no => exact .no
  | predZero => exact .predZero
  | predSucc hn =>
      have hclosed : u.plug terms = u := mapVars_of_isNumeral hn
      have hredex : (pred (succ u)).plug terms = pred (succ (u.plug terms)) := rfl
      rw [hredex, hclosed]
      exact .predSucc hn
  | isZeroZero => exact .isZeroZero
  | @isZeroSucc n hn =>
      have hclosed : n.plug terms = n := mapVars_of_isNumeral hn
      have hredex : (isZero (succ n)).plug terms = isZero (succ (n.plug terms)) := rfl
      rw [hredex, hclosed]
      exact .isZeroSucc hn
  | @letIn pattern value body bindings hvalue hbindings =>
      have hsize : pattern.size = (bindings.map Prod.snd).length := by
        rw [Pattern.size, Pattern.length?_of_destructure hbindings, List.length_map]
        rfl
      have hparts : (bindings.map Prod.snd).map (plug terms) =
          (bindings.map fun binding => (binding.1, binding.2.plug terms)).map Prod.snd := by
        rw [List.map_map, List.map_map]
        rfl
      have hredex : (Term.letIn pattern value body).plug terms = Term.letIn pattern
          (value.plug terms) (body.mapVars (plugVar terms) (0 + pattern.size)) := rfl
      rw [plug_plug_comm, hredex, Nat.zero_add, hsize, hparts]
      exact .letIn (isValue_mapVars hvalue) (destructure_mapVars hbindings)
  | @case label payload ty branches branch hvalue hbranch =>
      have hredex : (Term.case (.tag label payload ty) branches).plug terms =
          Term.case (.tag label (payload.plug terms) ty) (branches.map fun entry =>
            (entry.1, entry.2.map (mapVars (plugVar terms) 1))) := mapVars_case
      have hlookup : (branches.map fun entry =>
          (entry.1, entry.2.map (mapVars (plugVar terms) 1))).lookup label =
            some (branch.map (mapVars (plugVar terms) 1)) := by
        rw [Table.lookup_map, hbranch]
        rfl
      rw [plug_plug_comm, hredex]
      exact .case (isValue_mapVars hvalue) hlookup
  | fix =>
      rw [plug_plug_comm]
      exact .fix

theorem step_plug (hterms : ∀ term ∈ terms, term.known = true) (ht : t.known = true)
    (h : t.step = .ok u) : (t.plug terms).step = .ok (u.plug terms) := by
  have hreduces := reduces_of_step h
  clear h
  induction hreduces with
  | root hcontract =>
      exact (step_eq_ok_iff (known_plug hterms ht)).2 (.root (hcontract.plug terms))
  | @inside F t u hready _ _ ih =>
      have hpart := ih (known_fill ht).1
      have hframe : ∀ part : Term, (F.fill part).plug terms =
          (F.mapVars (plugVar terms) 0).fill (part.plug terms) := F.mapVars_fill
      -- a part with a step is no value, and stays none with terms in place
      rw [hframe, hframe, step_fill (Frame.ready_mapVars hready) (isValue_of_step hpart), hpart]
      rfl

theorem stepN_plug (hterms : ∀ term ∈ terms, term.known = true) (ht : t.known = true) {n : Nat}
    (h : t.stepN n = .ok u) : (t.plug terms).stepN n = .ok (u.plug terms) := by
  induction n generalizing t with
  | zero =>
      cases h
      rfl
  | succ n ih =>
      obtain ⟨s, hs, hrest⟩ := stepN_succ_eq_ok.1 h
      have hnext := ih (known_of_step ht hs) hrest
      exact stepN_succ_eq_ok.2 ⟨_, step_plug hterms ht hs, hnext⟩

theorem known_of_stepN (ht : t.known = true) {n : Nat} (h : t.stepN n = .ok u) :
    u.known = true := by
  induction n generalizing t with
  | zero =>
      cases h
      exact ht
  | succ n ih =>
      obtain ⟨s, hs, hrest⟩ := stepN_succ_eq_ok.1 h
      exact ih (known_of_step ht hs) hrest

/-- Reduction is stable under substitution: values stay values, and the term that a step or a
run leads to is reached with `v` in place, too. This `v` may be any term: a variable is no
value, so no rule that applied to `t` has used one as a value. -/
theorem reduction_stable {v : Term} (hv : v.known = true) (ht : t.known = true) :
    (t.isValue = true → ∃ s, substTop v t = .ok s ∧ s.isValue = true) ∧
    (∀ {t'}, t.step = .ok t' →
      ∃ s s', substTop v t = .ok s ∧ substTop v t' = .ok s' ∧ s.step = .ok s') ∧
    ∀ {n t'}, t.stepN n = .ok t' →
      ∃ s s', substTop v t = .ok s ∧ substTop v t' = .ok s' ∧ s.stepN n = .ok s' := by
  have hterms : ∀ term ∈ [v], term.known = true := by simpa using hv
  have hfilled : substTop v t = .ok (t.plug [v]) := substTop_eq_ok hv ht
  refine ⟨fun hvalue => ?_, fun {t'} h => ?_, fun {n t'} h => ?_⟩
  · exact ⟨_, hfilled, isValue_mapVars hvalue⟩
  · exact ⟨_, _, hfilled, substTop_eq_ok hv (known_of_step ht h), step_plug hterms ht h⟩
  · exact ⟨_, _, hfilled, substTop_eq_ok hv (known_of_stepN ht h), stepN_plug hterms ht h⟩

theorem reduction_stable_open :
    let v : Term := .abs "w" .int (.app (.var 0 "w") (.var 1 "free"))
    let t : Term := .tuple [("l", .abs "x" .int (.var 1 "y")),
      ("m", .letIn (.record [("a", .var "p"), ("b", .var "q")])
        (.tuple [("b", .abs "x" .int (.var 1 "y")), ("a", .zero)])
        (.abs "z" .int (.app (.var 2 "q") (.app (.var 3 "y") (.var 4 "free")))))]
    let t' : Term := .tuple [("l", .abs "x" .int (.var 1 "y")),
      ("m", .abs "z" .int
        (.app (.abs "x" .int (.var 2 "y")) (.app (.var 1 "y") (.var 2 "free"))))]
    t.step = .ok t' ∧ t'.isValue = true ∧
    (∃ s', substTop v t' = .ok s' ∧ s'.isValue = true) ∧
    ∃ s s', substTop v t = .ok s ∧ substTop v t' = .ok s' ∧ s.step = .ok s' := by
  intro v t t'
  have hstep : t.step = .ok t' := rfl
  have hvalue : t'.isValue = true := rfl
  have hstable := reduction_stable (t := t) (v := v) rfl rfl
  have hstable' := reduction_stable (t := t') (v := v) rfl rfl
  exact ⟨hstep, hvalue, hstable'.1 hvalue, hstable.2.1 hstep⟩

end Term

end TypedLambda
