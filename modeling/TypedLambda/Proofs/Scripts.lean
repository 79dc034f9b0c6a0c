import TypedLambda.Proofs.DerivedTyping
import TypedLambda.Proofs.Lockstep
import TypedLambda.Proofs.Soundness

/-!
# Scripts as terms

A script is folded into abstractions that are applied to its named terms, and each parameter
has the type that was found for its term. So the folded term has a type exactly if the body
has it with all names in sight: checking it once more never fails at a named term.

The same script can be written as nested lets. These have the same type, and they run in
lockstep with the folded term: `Script.Linked` relates the two at every point of a run, which
contracts one binding after the other in both.
-/

namespace TypedLambda

open Outcome (Parallel)

/-! ## Typing -/

def Context.extendEach (Γ : Context) (types : List Ty) : Context :=
  types.foldl (fun Γ ty => Γ.extend [ty]) Γ

namespace Term

variable {detect : Bool} {Γ : Context} {term : Term} {ty : Ty}

theorem infer_withNamed_iff {named : List (String × Term)} (t : Term) {T : Ty} :
    t.infer detect (Γ.withNamed named) = .ok T ↔ t.infer detect Γ = .ok T := by
  have hwidens : Context.Widens 0 (0 + 0) Γ (Γ.withNamed named) := by
    refine ⟨rfl, fun index => ?_⟩
    have hindex : (if index < (0 + 0 : Nat) then index else index + (0 : Nat)) = index := by simp
    rw [hindex]
    rfl
  have hshift := @infer_shift_iff detect 0 0 0 _ _ hwidens t T
  rwa [show t.mapVars (shiftVar (0 : Nat) (0 : Nat)) 0 = t from moved_zero 0 t] at hshift

/-- An abstraction whose parameter has the type of the argument adds nothing to the type of
its body. -/
theorem infer_app_abs (hterm : term.infer detect Γ = .ok ty) (hsame : ty.same ty = true)
    (name : String) (body : Term) :
    (app (abs name ty body) term).infer detect Γ =
      Fault.blame (.function (abs name ty body)) (body.infer detect (Γ.extend [ty])) := by
  rw [infer, infer, hterm, resolve_of_infer hterm]
  cases body.infer detect (Γ.extend [ty]) with
  | error fault => cases fault <;> rfl
  | ok T => exact if_pos hsame

end Term

namespace Script

variable {detect : Bool} {Γ : Context} {bindings : List (String × Term)} {types : List Ty}

def nest (bindings : List (String × Term)) (body : Term) : Term :=
  bindings.foldr (fun binding body => Term.letVar binding.1 binding.2 body) body

/-- The named terms have the types, each under those before it. They have a form at every
node, and each type is equal to itself. -/
inductive Typed (detect : Bool) : Context → List (String × Term) → List Ty → Prop
  | nil {Γ : Context} : Typed detect Γ [] []
  | cons {Γ : Context} {name : String} {term : Term} {ty : Ty} {bindings : List (String × Term)}
      {types : List Ty} : term.infer detect Γ = .ok ty → term.known = true → ty.same ty = true →
      Typed detect (Γ.extend [ty]) bindings types →
      Typed detect Γ ((name, term) :: bindings) (ty :: types)

theorem typed_of_typesOf (hΓ : Γ.Orderly)
    (hbindings : ∀ binding ∈ bindings, binding.2.distinct = true)
    (h : typesOf detect Γ bindings = .ok types) : Typed detect Γ bindings types := by
  induction bindings generalizing Γ types with
  | nil =>
      cases h
      exact .nil
  | cons binding rest ih =>
      rw [List.forall_mem_cons] at hbindings
      obtain ⟨ty, others, hty, hothers, rfl⟩ := typesOf_cons_iff.1 h
      have halike := (Term.hasTy_of_infer hΓ hbindings.1 hty).alike
      have hextend : (Γ.extend [ty]).Orderly := hΓ.extend (by simpa using halike.left)
      exact .cons hty (Term.known_of_infer hbindings.1 hty) halike.same
        (ih hextend hbindings.2 hothers)

theorem Typed.infer_wrap (h : Typed detect Γ bindings types) (body : Term) :
    Parallel Eq ((wrap bindings types body).infer detect Γ)
      (body.infer detect (Γ.extendEach types)) := by
  induction h with
  | nil => exact .refl (fun _ => rfl) _
  | cons hterm _ hsame _ ih =>
      rw [wrap, Term.infer_app_abs hterm hsame]
      exact ih.blame _

theorem Typed.infer_nest (h : Typed detect Γ bindings types) (body : Term) :
    (nest bindings body).infer detect Γ = body.infer detect (Γ.extendEach types) := by
  induction h with
  | nil => rfl
  | cons hterm _ _ _ ih =>
      rw [nest, List.foldr_cons, Term.infer_letVar hterm]
      exact ih

theorem typesOf_withNamed_iff {named : List (String × Term)} :
    typesOf detect (Γ.withNamed named) bindings = .ok types ↔
      typesOf detect Γ bindings = .ok types := by
  induction bindings generalizing Γ types with
  | nil => rfl
  | cons binding rest ih =>
      rw [typesOf_cons_iff, typesOf_cons_iff]
      refine exists_congr fun ty => exists_congr fun others => ?_
      have hrest : typesOf detect ((Γ.withNamed named).extend [ty]) rest = .ok others ↔
          typesOf detect (Γ.extend [ty]) rest = .ok others := @ih (Γ.extend [ty]) others
      rw [Term.infer_withNamed_iff, hrest]

theorem fold_eq_ok_iff {script : Script} {folded : Term} :
    script.fold detect Γ = .ok folded ↔ ∃ types, script.bindingTypes detect Γ = .ok types ∧
      wrap script.bindings types script.body = folded := by
  simp only [fold, Outcome.bind_eq_ok, Outcome.pure_eq_ok]

theorem fold_withNamed_iff {settings : Settings} {script : Script} {folded : Term} :
    Toplevel.fold settings (Γ.withNamed script.bindings) script.body = .ok folded ↔
      script.fold settings.detectAliasCycles Γ = .ok folded := by
  obtain ⟨bindings, body⟩ := script
  cases bindings with
  | nil => rfl
  | cons binding rest =>
      show fold settings.detectAliasCycles (Γ.withNamed []) ⟨binding :: rest, body⟩ = _ ↔ _
      simp only [fold_eq_ok_iff, bindingTypes, typesOf_withNamed_iff]

/-- Folding keeps types exactly. A script can be folded if its named terms have types; the
folded term then has the types that the body has with all names in sight; and these are the
types of the body at the top level, where the names are defined. -/
theorem fold_typed (settings : Settings) {script : Script} (hΓ : Γ.distinct = true)
    (hbindings : ∀ binding ∈ script.bindings, binding.2.distinct = true) :
    ((∃ folded, script.fold settings.detectAliasCycles Γ = .ok folded) ↔
      ∃ types, script.bindingTypes settings.detectAliasCycles Γ = .ok types) ∧
    (∀ {types}, script.bindingTypes settings.detectAliasCycles Γ = .ok types →
      ∃ folded, script.fold settings.detectAliasCycles Γ = .ok folded ∧
        ∀ {T}, folded.infer settings.detectAliasCycles Γ = .ok T ↔
          script.body.infer settings.detectAliasCycles (Γ.extendEach types) = .ok T) ∧
    ∀ {T}, (Toplevel.typeOf settings (Γ.withNamed script.bindings) script.body).outcome = .ok T ↔
      ∃ types, script.bindingTypes settings.detectAliasCycles Γ = .ok types ∧
        script.body.infer settings.detectAliasCycles (Γ.extendEach types) = .ok T := by
  have hinfer : ∀ {types T}, script.bindingTypes settings.detectAliasCycles Γ = .ok types →
      ((wrap script.bindings types script.body).infer settings.detectAliasCycles Γ = .ok T ↔
        script.body.infer settings.detectAliasCycles (Γ.extendEach types) = .ok T) := by
    intro types T htypes
    have htyped := typed_of_typesOf (Context.orderly_of_distinct hΓ) hbindings htypes
    exact (htyped.infer_wrap script.body).eq_ok_iff
  refine ⟨?_, ?_, ?_⟩
  · simp only [fold_eq_ok_iff]
    rw [exists_comm]
    simp
  · intro types htypes
    exact ⟨_, fold_eq_ok_iff.2 ⟨types, htypes, rfl⟩, hinfer htypes⟩
  · intro T
    simp only [Toplevel.typeOf_eq_ok, fold_withNamed_iff, fold_eq_ok_iff, Context.withoutNamed,
      Term.infer_withNamed_iff]
    constructor
    · intro h
      obtain ⟨folded, ⟨types, htypes, rfl⟩, hT⟩ := h
      exact ⟨types, htypes, (hinfer htypes).1 hT⟩
    · intro h
      obtain ⟨types, htypes, hT⟩ := h
      exact ⟨_, ⟨types, htypes, rfl⟩, (hinfer htypes).2 hT⟩

theorem fold_typed_chain :
    let Γ : Context := ⟨[(0, .base "N")], [("N", .int), ("P", .product [("a", .base "N")])], []⟩
    let script : Script := ⟨[("pair", .tuple [("a", .var 0 "n")]),
      ("get", .abs "p" (.base "P") (.project (.var 0 "p") "a"))],
      .app (.var 0 "get") (.var 1 "pair")⟩
    (∃ folded, script.fold true Γ = .ok folded ∧ folded.infer true Γ = .ok .int) ∧
      (Toplevel.typeOf {} (Γ.withNamed script.bindings) script.body).outcome = .ok .int := by
  intro Γ script
  have hΓ : Γ.distinct = true := by decide
  have hbindings : ∀ binding ∈ script.bindings, binding.2.distinct = true := by decide
  obtain ⟨-, hfold, htop⟩ := fold_typed {} hΓ hbindings
  obtain ⟨folded, hfolded, hinfer⟩ := hfold rfl
  exact ⟨⟨folded, hfolded, hinfer.2 rfl⟩, htop.2 ⟨_, rfl, rfl⟩⟩

/-! ## Runs -/

/-- A script in its two forms, at some point of a run: applied abstractions on the left, and
nested lets on the right. What they bind has a form at every node. -/
inductive Linked : Term → Term → Prop
  | body {t : Term} : Linked t t
  | binding {name : String} {ty : Ty} {term t u : Term} : term.known = true → Linked t u →
      Linked (.app (.abs name ty t) term) (.letVar name term u)

theorem Typed.linked (h : Typed detect Γ bindings types) (body : Term) :
    Linked (wrap bindings types body) (nest bindings body) := by
  induction h with
  | nil => exact .body
  | cons _ hknown _ _ ih => exact .binding hknown ih

namespace Linked

variable {t u : Term}

theorem traverse {act : Nat → Int → String → Except Fault Term}
    {f : Nat → Int → String → Term} (hact : ∀ j index name, act j index name = .ok (f j index name))
    (hf : ∀ j index name, (f j index name).known = true) (h : Linked t u) (k : Nat) :
    Parallel Linked (t.traverse act k) (u.traverse act k) := by
  induction h generalizing k with
  | body => exact .refl (fun _ => .body) _
  | @binding name ty term t u hterm _ ih =>
      have hbound : term.traverse act k = .ok (term.mapVars f k) :=
        Term.traverse_eq_ok hact hterm k
      have hknown : (term.mapVars f k).known = true := Term.known_mapVars hf hterm
      -- the two forms go through their parts in different orders, which would show only if
      -- the bound term failed
      rw [Term.letVar, Term.traverse, Term.traverse, Term.traverse, hbound]
      rcases (ih (k + 1)).ok_or_error with ⟨t', u', ht', hu', hlinked⟩ | ⟨f, g, hf, hg, hkind⟩
      · rw [ht']
        show Parallel Linked _ (u.traverse act (k + 1) >>= fun body => _)
        rw [hu']
        exact .ok (.binding hknown hlinked)
      · rw [hf]
        show Parallel Linked _ (u.traverse act (k + 1) >>= fun body => _)
        rw [hg]
        exact .error hkind

theorem shift (h : Linked t u) (d cutoff : Int) :
    Parallel Linked (t.shift d cutoff) (u.shift d cutoff) := by
  unfold Term.shift
  split
  · exact .ok h
  · exact h.traverse (fun _ _ _ => rfl) (Term.known_shiftVar d cutoff) 0

theorem substTop (h : Linked t u) {s : Term} (hs : s.known = true) :
    Parallel Linked (Term.substTop s t) (Term.substTop s u) := by
  have hmoved : (s.moved 1 0).known = true := Term.known_moved hs
  have hsubstitute : Parallel Linked (Term.substitute 0 (s.moved 1 0) t 0)
      (Term.substitute 0 (s.moved 1 0) u 0) :=
    h.traverse (Term.replaceFrom_eq_ok hmoved 0 0) (Term.known_replaceFrom hmoved 0 0) 0
  rw [Term.substTop, Term.substTop, Term.shift_eq_ok hs]
  exact hsubstitute.bind fun hbody => hbody.shift (-1) 0

theorem step (h : Linked t u) : Parallel Linked t.step u.step := by
  cases h with
  | body => exact .refl (fun _ => .body) _
  | @binding name ty term t u hterm hlinked =>
      cases hvalue : term.isValue with
      | true =>
          have hleft : (Term.app (.abs name ty t) term).step = Term.substTop term t := by
            rw [Term.step.eq_def, Term.contract?, if_pos hvalue]
          have hright : (Term.letVar name term u).step = Term.substTop term u := by
            rw [Term.step.eq_def, Term.letVar, Term.contract?, if_pos hvalue]
            exact Term.openLet_var name term u
          rw [hleft, hright]
          exact hlinked.substTop hterm
      | false =>
          have hleft := Term.step_fill (F := .argument (.abs name ty t)) rfl hvalue
          have hright := Term.step_fill (F := .value (.var name) u) rfl hvalue
          simp only [Frame.fill] at hleft hright
          rw [Term.letVar, hleft, hright]
          cases hstep : term.step with
          | ok term' => exact .ok (.binding (Term.known_of_step hterm hstep) hlinked)
          | error fault => exact .error rfl

theorem lockstep : Term.Lockstep Linked := by
  refine ⟨fun {t u} h => ?_, step⟩
  cases h with
  | body => rfl
  | binding => rfl

end Linked

/-- Both terms are the same value, or both have a step, or both have none for the same kind of
reason. -/
inductive Abreast : Term → Term → Prop
  | value {v : Term} : v.isValue = true → Abreast v v
  | step {t u t' u' : Term} : t.isValue = false → u.isValue = false → t.step = .ok t' →
      u.step = .ok u' → Abreast t u
  | fault {t u : Term} {f g : Fault} : t.isValue = false → u.isValue = false →
      t.step = .error f → u.step = .error g → f.kind = g.kind → Abreast t u

theorem Linked.abreast {t u : Term} (h : Linked t u) : Abreast t u := by
  have hsame := lockstep.isValue h
  cases hvalue : t.isValue with
  | true =>
      cases h with
      | body => exact .value hvalue
      | binding => cases hvalue
  | false =>
      rw [hvalue] at hsame
      rcases h.step.ok_or_error with ⟨t', u', ht', hu', -⟩ | ⟨f, g, hf, hg, hkind⟩
      · exact .step hvalue hsame.symm ht' hu'
      · exact .fault hvalue hsame.symm hf hg hkind

theorem Abreast.eq_of_isValue {v w : Term} (h : Abreast v w) (hv : v.isValue = true) : v = w := by
  cases h with
  | value => rfl
  | step hvalue | fault hvalue =>
      rw [hv] at hvalue
      cases hvalue

/-- A script means nested lets. If its named terms have types, the folded term and the nested
lets have the same type or fail in the same way, they are abreast after every number of steps,
and evaluation ends in the same way on both, with the same value if there is one. -/
theorem fold_nest {script : Script} (hΓ : Γ.distinct = true)
    (hbindings : ∀ binding ∈ script.bindings, binding.2.distinct = true)
    (htypes : script.bindingTypes detect Γ = .ok types) :
    ∃ folded, script.fold detect Γ = .ok folded ∧
      Parallel Eq (folded.infer detect Γ) ((nest script.bindings script.body).infer detect Γ) ∧
      (∀ n, Parallel Abreast (folded.stepN n) ((nest script.bindings script.body).stepN n)) ∧
      ∀ (settings : Settings) (fuel : Nat), Parallel Eq (folded.evaluate settings fuel).outcome
        ((nest script.bindings script.body).evaluate settings fuel).outcome := by
  have htyped := typed_of_typesOf (Context.orderly_of_distinct hΓ) hbindings htypes
  have hlinked := htyped.linked script.body
  refine ⟨_, fold_eq_ok_iff.2 ⟨types, htypes, rfl⟩, ?_, fun n => ?_, fun settings fuel => ?_⟩
  · rw [htyped.infer_nest]
    exact htyped.infer_wrap script.body
  · exact (Linked.lockstep.stepN hlinked n).imp fun _ h => h.abreast
  · obtain ⟨n, e, e', he, he', hends⟩ := Linked.lockstep.evaluate hlinked settings fuel
    rw [he.outcome, he'.outcome]
    refine (hends.outcome settings.maxSteps).imp fun {v w} hv h => ?_
    have hvalue : v.isValue = true := (Term.evaluate_eq_ok_iff.1 (he.outcome.trans hv)).1
    exact h.abreast.eq_of_isValue hvalue

theorem fold_nest_chain :
    let Γ : Context := ⟨[(0, .base "N")], [("N", .int)], []⟩
    let script : Script := ⟨[("next", .abs "x" (.base "N") (.succ (.var 0 "x"))),
      ("two", .app (.var 0 "next") (.app (.var 0 "next") .zero))],
      .app (.abs "y" .int (.tuple [("a", .var 1 "two"), ("b", .var 3 "n")])) (.var 0 "two")⟩
    script.bindingTypes true Γ = .ok [.arrow .int .int, .int] ∧
    ∃ folded, script.fold true Γ = .ok folded ∧
      Parallel Eq (folded.infer true Γ) ((nest script.bindings script.body).infer true Γ) ∧
      (∀ n, Parallel Abreast (folded.stepN n) ((nest script.bindings script.body).stepN n)) ∧
      ∀ (settings : Settings) (fuel : Nat), Parallel Eq (folded.evaluate settings fuel).outcome
        ((nest script.bindings script.body).evaluate settings fuel).outcome :=
  ⟨rfl, fold_nest (by decide) (by decide) rfl⟩

end Script

end TypedLambda
