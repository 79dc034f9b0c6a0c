import TypedLambda.Proofs.BoundedRuns
import TypedLambda.Proofs.DerivedTyping
import TypedLambda.Proofs.Stability

/-!
# Runs of derived forms

An ascription and a sequence run their first part to a value and take one more step, which leaves
the value of the one and the second part of the other. A recursive let unfolds its value once.
All of this holds for open terms: `Term.derived_forms_run`.

A projection takes one step from a value to the part under its label, so a chain of projections goes
to the part at a path, one step for each label. A let takes all parts at the paths of its pattern at
once. The two ways to a part agree: `Term.letIn_eq_projections`. Both need every node of the value
to have a form, since substitution looks at all that it puts in place, also where it is not used.
-/

namespace TypedLambda

namespace Term

/-! ## Applied abstractions -/

variable {t u v : Term} {n : Nat}

theorem stepN_app_abs {name : String} {ty : Ty} {body : Term} (hbody : body.known = true)
    (ht : t.known = true) (h : t.stepN n = .ok v) (hv : v.isValue = true) :
    (app (abs name ty body) t).stepN (n + 1) = .ok (body.plug [v]) := by
  have hargument : (app (abs name ty body) t).stepN n = .ok (app (abs name ty body) v) :=
    stepN_fill (F := .argument (.abs name ty body)) rfl h
  have hknown : (app (abs name ty body) v).known = true := by
    simp only [known, Bool.and_eq_true]
    exact ⟨hbody, known_of_stepN ht h⟩
  have hbeta : (app (abs name ty body) v).step = .ok (body.plug [v]) :=
    (step_eq_ok_iff hknown).2 (.root (.beta hv))
  exact stepN_trans hargument (stepN_succ_eq_ok.2 ⟨_, hbeta, rfl⟩)

/-! ## Derived forms -/

theorem shift_substTop {s t : Term} (hs : s.known = true) (ht : t.known = true) :
    (t.shift 1 0 >>= fun moved => substTop s moved) = .ok t := by
  rw [shift_eq_ok ht]
  show substTop s (t.moved 1 0) = .ok t
  rw [substTop_eq_ok hs (known_moved ht)]
  exact congrArg Except.ok (plug_moved [s] t)

/-- A sequence drops the value of its first part and leaves the second as it was written, and an
ascription leaves the value: each takes one step more than the first part. A recursive let unfolds
its value once. -/
theorem derived_forms_run {first second value : Term} (hfirst : first.known = true)
    (hsecond : second.known = true) (hvalue : value.known = true) :
    (∀ {n v}, first.stepN n = .ok v → v.isValue = true →
      (∃ s, sequence first second = .ok s ∧ s.stepN (n + 1) = .ok second) ∧
      ∀ ty, (ascribe first ty).stepN (n + 1) = .ok v) ∧
    (∀ name ty body, ∃ u, substTop (.fix (.abs name ty value)) value = .ok u ∧
      (letrec name ty value body).step = .ok (letVar name u body)) ∧
    (second.shift 1 0 >>= fun moved => substTop first moved) = .ok second := by
  refine ⟨?_, ?_, shift_substTop hfirst hsecond⟩
  · intro n v hn hv
    constructor
    · refine ⟨_, sequence_eq_ok hsecond, ?_⟩
      rw [stepN_app_abs (known_moved hsecond) hfirst hn hv]
      exact congrArg Except.ok (plug_moved [v] second)
    · intro ty
      rw [ascribe, stepN_app_abs rfl hfirst hn hv]
      exact congrArg Except.ok (plug_var (i := 0) rfl "x")
  · intro name ty body
    have hknown : (fix (abs name ty value)).known = true := hvalue
    have hfix : (fix (abs name ty value)).step =
        .ok (value.plug [.fix (.abs name ty value)]) := (step_eq_ok_iff hknown).2 (.root .fix)
    have hletrec := @step_fill (.value (.var name) body) rfl (.fix (.abs name ty value)) rfl
    rw [hfix] at hletrec
    exact ⟨_, substTop_eq_ok hknown hvalue, hletrec⟩

theorem derived_forms_run_open :
    let first : Term := .ite (.isZero .zero) (.abs "z" .int (.var 3 "far")) .unit
    let second : Term := .letIn (.record [("a", .var "p"), ("b", .var "q")]) (.var 0 "y")
      (.abs "w" .int (.app (.var 2 "q") (.app (.var 3 "y") (.var (-1) "out"))))
    let value : Term := .abs "m" .int (.app (.var 1 "f") (.app (.var 2 "y") (.var 0 "m")))
    (∃ s, sequence first second = .ok s ∧ s.stepN 3 = .ok second) ∧
      (ascribe first (.base "A")).stepN 3 = .ok (.abs "z" .int (.var 3 "far")) ∧
      (∃ u, substTop (.fix (.abs "f" (.base "A") value)) value = .ok u ∧
        (letrec "f" (.base "A") value second).step = .ok (letVar "f" u second)) ∧
      (second.shift 1 0 >>= fun moved => substTop first moved) = .ok second := by
  intro first second value
  rcases @derived_forms_run first second value rfl rfl rfl with ⟨hrun, hletrec, hdropped⟩
  have hsteps : first.stepN 2 = .ok (.abs "z" .int (.var 3 "far")) := rfl
  exact ⟨(hrun hsteps rfl).1, (hrun hsteps rfl).2 (.base "A"), hletrec "f" (.base "A") second,
    hdropped⟩

end Term

/-! ## Parts at a path -/

namespace Pattern

mutual

/-- The labels that lead from the root of the pattern to each of its variables, in binding
order. -/
def paths : Pattern → List (List String)
  | .var _ => [[]]
  | .record fields => fieldPaths fields
  | .foreign => []

def fieldPaths : List (String × Pattern) → List (List String)
  | [] => []
  | (label, pattern) :: rest => pattern.paths.map (label :: ·) ++ fieldPaths rest

end

end Pattern

namespace Term

variable {t u v : Term} {n : Nat}

def component : List String → Term → Option Term
  | [], t => some t
  | label :: path, .tuple fields =>
      match fields.lookup label with
      | some part => part.component path
      | none => none
  | _ :: _, _ => none

def projections (t : Term) (path : List String) : Term := path.foldl project t

theorem component_of_destructure {pattern : Pattern} {bindings : List (String × Term)}
    (h : pattern.destructure v = .ok bindings) :
    pattern.paths.map (fun path => v.component path) =
      bindings.map fun binding => some binding.2 := by
  induction pattern generalizing v bindings with
  | var name =>
      cases h
      rfl
  | record patterns ih =>
      cases v with
      | tuple terms =>
          rw [Pattern.destructure] at h
          rw [Pattern.paths]
          induction patterns generalizing bindings with
          | nil =>
              cases h
              rfl
          | cons field rest ihrest =>
              rw [List.forall_mem_cons] at ih
              rcases destructureFields_cons_iff.1 h with
                ⟨part, first, others, hpart, hfirst, hothers, rfl⟩
              have hdown : ∀ path, (tuple terms).component (field.1 :: path) =
                  part.component path := by
                intro path
                rw [component, hpart]
              rw [Pattern.fieldPaths, List.map_append, List.map_append, List.map_map,
                ihrest ih.2 hothers, ← ih.1 hfirst]
              simp only [Function.comp_def, hdown]
      | _ => cases h
  | foreign => cases v <;> cases h

/-! ## Lets and projections -/

theorem step_letIn_var {pattern : Pattern} {bindings : List (String × Term)} {i : Nat} {x : String}
    {part : Term} (hvalue : v.isValue = true) (hknown : v.known = true)
    (h : pattern.destructure v = .ok bindings) (hi : bindings[i]? = some (x, part))
    (name : String) : (letIn pattern v (.var i name)).step = .ok part := by
  have hterm : (bindings.map Prod.snd)[i]? = some part := by
    rw [List.getElem?_map, hi]
    rfl
  have hall : (letIn pattern v (.var i name)).known = true := by
    simp only [known, Pattern.length?_of_destructure h, hknown]
    rfl
  have hcontracts : Contracts (letIn pattern v (.var i name))
      ((var i name).plug (bindings.map Prod.snd)) := .letIn hvalue h
  rw [plug_var hterm] at hcontracts
  exact (step_eq_ok_iff hall).2 (.root hcontracts)

theorem step_project {fields : List (String × Term)} {label : String} {part : Term}
    (hvalue : (tuple fields).isValue = true) (hknown : (tuple fields).known = true)
    (h : fields.lookup label = some part) : (project (.tuple fields) label).step = .ok part := by
  have hmatch : (Pattern.record [(label, .var "x")]).destructure (.tuple fields) =
      .ok [("x", part)] := by
    rw [Pattern.destructure, destructureFields_cons_iff]
    exact ⟨part, [("x", part)], [], h, rfl, rfl, rfl⟩
  exact step_letIn_var (i := 0) hvalue hknown hmatch rfl "x"

theorem stepN_projections (h : t.stepN n = .ok u) (path : List String) :
    (t.projections path).stepN n = .ok (u.projections path) := by
  induction path generalizing t u with
  | nil => exact h
  | cons label path ih =>
      have hframe : (project t label).stepN n = .ok (project u label) :=
        stepN_fill (F := .value (.record [(label, .var "x")]) (.var 0 "x")) rfl h
      exact ih hframe

theorem stepN_projections_of_component {path : List String} (hvalue : v.isValue = true)
    (hknown : v.known = true) (h : v.component path = some u) :
    (v.projections path).stepN path.length = .ok u := by
  induction path generalizing v with
  | nil =>
      cases h
      rfl
  | cons label path ih =>
      cases v with
      | tuple fields =>
          cases hpart : fields.lookup label with
          | none =>
              rw [component, hpart] at h
              cases h
          | some part =>
              rw [component, hpart] at h
              have hmem := Table.mem_of_lookup hpart
              have hrest := ih (isValue_tuple_iff.1 hvalue _ hmem)
                (knownFields_iff.1 hknown _ hmem) h
              have hfirst : (project (.tuple fields) label).stepN 1 = .ok part :=
                stepN_succ_eq_ok.2 ⟨_, step_project hvalue hknown hpart, rfl⟩
              have hsteps := stepN_trans (stepN_projections hfirst path) hrest
              rwa [Nat.add_comm] at hsteps
      | _ => cases h

/-! ## Two ways to a part -/

/-- Where a pattern matches a value, the part at the path of its `i`-th variable is what a let
evaluates to that binds the pattern and gives this variable, and what the chain of projections
along the path evaluates to. -/
theorem letIn_eq_projections {pattern : Pattern} {bindings : List (String × Term)} {size i : Nat}
    (hvalue : v.isValue = true) (hknown : v.known = true)
    (h : pattern.destructure v = .ok bindings) (hsize : pattern.length? = some size)
    (hi : i < size) (name : String) :
    ∃ path part x, pattern.paths[i]? = some path ∧ v.component path = some part ∧
      bindings[i]? = some (x, part) ∧ part.isValue = true ∧
      (∀ settings : Settings, settings.allows 1 →
        ∃ events, (letIn pattern v (.var i name)).Completes settings ⟨.ok part, events⟩) ∧
      ∀ settings : Settings, settings.allows path.length →
        ∃ events, (v.projections path).Completes settings ⟨.ok part, events⟩ := by
  rw [Pattern.length?_of_destructure h] at hsize
  cases hsize
  rcases hbinding : bindings[i] with ⟨x, part⟩
  have hfound : bindings[i]? = some (x, part) := by rw [List.getElem?_eq_getElem hi, hbinding]
  have hpart : part.isValue = true := by
    have hparts := @destructure_parts (fun part => part.isValue = true)
      (fun hfields => isValue_tuple_iff.1 hfields) _ _ _ h hvalue
    exact hparts _ (List.mem_of_getElem? hfound)
  have hpath : (pattern.paths[i]?).map (fun path => v.component path) = some (some part) := by
    rw [← List.getElem?_map, component_of_destructure h, List.getElem?_map, hfound]
    rfl
  rcases Option.map_eq_some_iff.1 hpath with ⟨path, hpath, hcomponent⟩
  have hlet : (letIn pattern v (.var i name)).stepN 1 = .ok part :=
    stepN_succ_eq_ok.2 ⟨_, step_letIn_var hvalue hknown h hfound name, rfl⟩
  have hchain := stepN_projections_of_component hvalue hknown hcomponent
  exact ⟨path, part, x, hpath, hcomponent, hfound, hpart,
    fun settings hallows => (Stops.value hallows hlet hpart).completes,
    fun settings hallows => (Stops.value hallows hchain hpart).completes⟩

theorem letIn_eq_projections_nested :
    let pattern : Pattern := .record [("a", .record [("c", .var "p"), ("b", .var "q")]),
      ("d", .var "r")]
    let part : Term := .tag "l" (.abs "m" .int (.var 3 "far")) (.sum [("l", .base "A")])
    let v : Term := .tuple [("d", .unit), ("e", .zero),
      ("a", .tuple [("b", part), ("f", .bool true), ("c", .succ .zero)])]
    let settings : Settings := { maxSteps := some 2 }
    (∃ events, (letIn pattern v (.var 1 "q")).Completes settings ⟨.ok part, events⟩) ∧
      ∃ events, (project (project v "a") "b").Completes settings ⟨.ok part, events⟩ := by
  intro pattern part v settings
  have hallows : ∀ {k}, k ≤ 2 → settings.allows k := by
    intro k hk limit hlimit
    cases hlimit
    exact hk
  have hmatch : pattern.destructure v =
    .ok [("p", .succ .zero), ("q", part), ("r", .unit)] := rfl
  rcases @letIn_eq_projections v pattern _ 3 1 rfl rfl hmatch rfl (by decide) "q"
    with ⟨path, part', x, hpath, hcomponent, -, -, hlet, hchain⟩
  cases hpath
  cases hcomponent
  exact ⟨hlet settings (hallows (by decide)), hchain settings (hallows (by decide))⟩

/-- Where a part of a value has a node of no form, a pattern that takes it out still matches, and
the other parts can be projected. A let over the pattern has no value, though it only asks for
another part. -/
theorem letIn_ne_projections :
    let pattern : Pattern := .record [("a", .var "x"), ("b", .var "y")]
    let odd : Term := .abs "z" .int .foreign
    let v : Term := .tuple [("a", .unit), ("b", odd)]
    let t : Term := .letIn pattern v (.var 0 "x")
    v.isValue = true ∧ pattern.destructure v = .ok [("x", .unit), ("y", odd)] ∧
      pattern.paths[0]? = some ["a"] ∧ v.component ["a"] = some .unit ∧
      (∃ events, (v.projections ["a"]).Completes {} ⟨.ok .unit, events⟩) ∧
      (∃ events, t.Completes {} ⟨.error .foreignTerm, events⟩) ∧
      ∀ settings fuel u, (t.evaluate settings fuel).outcome ≠ .ok u := by
  intro pattern odd v t
  have hallows : ∀ {k}, Settings.allows {} k := nofun
  have hchain : (v.projections ["a"]).Stops {} 1 (.ok .unit) := .value hallows rfl rfl
  have hlet : t.Stops {} 0 (.error .foreignTerm) := .broken hallows rfl rfl rfl nofun
  refine ⟨rfl, rfl, rfl, rfl, hchain.completes, hlet.completes, ?_⟩
  intro settings fuel u hu
  rcases evaluate_eq_ok_iff.1 hu with ⟨hvalue, n, -, hn⟩
  -- a run to a value would need a first step
  cases n with
  | zero =>
      cases hn
      cases hvalue
  | succ n =>
      rcases stepN_succ_eq_ok.1 hn with ⟨next, hnext, -⟩
      cases hnext

end Term

end TypedLambda
