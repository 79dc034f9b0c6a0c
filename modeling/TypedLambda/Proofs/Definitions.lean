import TypedLambda.Proofs.Cycles
import TypedLambda.Proofs.Scripts

/-!
# Typing and the definitions of names

Every type that the checker gives is settled: none of its names has a definition, and resolving it
again changes nothing. So the checker may compare such types as they are.

A name without a definition is an opaque type, equal to itself alone. Giving it a definition keeps
every term well-typed: the type is then what the old type resolves to. Resolution by the larger
table goes through resolution by the smaller one (`Ty.Resolves.through`), and types that were equal
resolve to equal types (`Ty.Resolves.same`). The checker stores some types as they were written and
others resolved; what both have in common is `Ty.Carries`.
-/

namespace TypedLambda

/-! ## Settled types -/

namespace Ty

/-- No name of the type has a definition, and both ways of resolving it return it as it is. -/
def Settled (aliases : List (String × Ty)) (ty : Ty) : Prop :=
  (∀ name ∈ ty.names, name ∉ Table.keys aliases) ∧
    ∀ detect, ty.resolve detect aliases = .ok ty

theorem allowed_of_permitted {allowed : String → Bool} {ty : Ty}
    (h : ty.permitted allowed = true) : ∀ name ∈ ty.names, allowed name = true := by
  have hentries : ∀ {entries : List (String × Ty)},
      (∀ entry ∈ entries, entry.2.permitted allowed = true →
        ∀ name ∈ entry.2.names, allowed name = true) →
      (∀ entry ∈ entries, entry.2.permitted allowed = true) →
      ∀ name ∈ entryNames entries, allowed name = true := by
    intro entries ih hallowed name hname
    obtain ⟨entry, hmem, hname⟩ := mem_entryNames_iff.1 hname
    exact ih entry hmem (hallowed entry hmem) name hname
  induction ty with
  | bool | int | unit => exact nofun
  | base name => exact List.forall_mem_singleton.2 h
  | arrow param result ihp ihr =>
      simp only [permitted, Bool.and_eq_true] at h
      exact List.forall_mem_append.2 ⟨ihp h.1, ihr h.2⟩
  | product fields ih =>
      simp only [permitted, permittedEntries_iff] at h
      exact hentries ih h
  | sum variants ih =>
      simp only [permitted, permittedEntries_iff] at h
      exact hentries ih h
  | foreign => cases h

theorem settled_of_resolved {aliases : List (String × Ty)} {ty : Ty}
    (h : ty.resolved aliases = true) : ty.Settled aliases := by
  refine ⟨fun name hname hkey => ?_, fun detect => resolve_of_resolved h⟩
  have hallowed := allowed_of_permitted h name hname
  rw [Table.has_eq_true_iff.2 hkey] at hallowed
  cases hallowed

end Ty

theorem Script.resolved_of_typesOf {detect : Bool} {Γ : Context} {bindings : List (String × Term)}
    {types : List Ty} (h : typesOf detect Γ bindings = .ok types) :
    ∀ ty ∈ types, ty.resolved Γ.aliases = true := by
  induction bindings generalizing Γ types with
  | nil =>
      cases h
      simp
  | cons binding rest ih =>
      obtain ⟨ty, others, hty, hothers, rfl⟩ := typesOf_cons_iff.1 h
      have hrest := ih hothers
      exact List.forall_mem_cons.2 ⟨Term.resolved_of_infer hty, hrest⟩

/-- Whatever the checker returns is settled: the type of a term, the types of the variables of a
pattern, and the types of the named terms of a script. -/
theorem Context.returns_settled {detect : Bool} {Γ : Context} :
    (∀ {t : Term} {T : Ty}, t.infer detect Γ = .ok T → T.Settled Γ.aliases) ∧
      (∀ {pattern : Pattern} {ty : Ty} {types : List Ty}, pattern.bind detect Γ ty = .ok types →
        ∀ T ∈ types, T.Settled Γ.aliases) ∧
      ∀ {script : Script} {types : List Ty}, script.bindingTypes detect Γ = .ok types →
        ∀ T ∈ types, T.Settled Γ.aliases := by
  refine ⟨?_, ?_, ?_⟩
  · intro t T h
    exact Ty.settled_of_resolved (Term.resolved_of_infer h)
  · intro pattern ty types h T hmem
    exact Ty.settled_of_resolved (Pattern.resolved_of_bind h T hmem)
  · intro script types h T hmem
    exact Ty.settled_of_resolved (Script.resolved_of_typesOf h T hmem)

theorem Context.returns_settled_record :
    let Γ : Context := ⟨[(0, .base "P")], [("P", .product [("f", .arrow (.base "N") (.base "O")),
      ("s", .base "S")]), ("N", .int), ("S", .sum [("l", .base "N")])], []⟩
    let t : Term := .letIn (.record [("f", .var "f")]) (.var 0 "p") (.var 0 "f")
    let pattern : Pattern := .record [("s", .var "s"), ("f", .var "f")]
    let script : Script := ⟨[("p", .var 0 "p"), ("t", .tag "l" .zero (.base "S"))], .var 0 "t"⟩
    let f : Ty := .arrow .int (.base "O")
    let s : Ty := .sum [("l", .int)]
    let p : Ty := .product [("f", f), ("s", s)]
    (t.infer true Γ = .ok f ∧ f.Settled Γ.aliases) ∧
      (pattern.bind true Γ (.base "P") = .ok [s, f] ∧ ∀ T ∈ [s, f], T.Settled Γ.aliases) ∧
      (script.bindingTypes true Γ = .ok [p, s] ∧ ∀ T ∈ [p, s], T.Settled Γ.aliases) := by
  intro Γ t pattern script f s p
  have hT : t.infer true Γ = .ok f := rfl
  have htypes : pattern.bind true Γ (.base "P") = .ok [s, f] := rfl
  have hbindings : script.bindingTypes true Γ = .ok [p, s] := rfl
  obtain ⟨hinfer, hbind, hscript⟩ := @returns_settled true Γ
  exact ⟨⟨hT, hinfer hT⟩, ⟨htypes, hbind htypes⟩, hbindings, hscript hbindings⟩

/-! ## Resolution by more definitions -/

namespace Ty

variable {aliases old new : List (String × Ty)}

theorem Resolves.unique {ty r s : Ty} (hr : Resolves aliases ty r) (hs : Resolves aliases ty s) :
    r = s := by
  have hr' : ty.resolve true aliases = .ok r := resolve_eq_ok_iff.2 hr
  exact Except.ok.inj (hr'.symm.trans (resolve_eq_ok_iff.2 hs))

theorem resolves_of_resolved {ty : Ty} (h : ty.resolved aliases = true) :
    Resolves aliases ty ty := by
  have hself : ty.resolve true aliases = .ok ty := resolve_of_resolved h
  exact resolve_eq_ok_iff.1 hself

theorem Resolves.resolved {ty r : Ty} (h : Resolves aliases ty r) : r.resolved aliases = true := by
  have hr : ty.resolve true aliases = .ok r := resolve_eq_ok_iff.2 h
  exact resolved_of_resolve hr

/-- To resolve by more definitions, one may first resolve by some of them. -/
theorem Resolves.through
    (hkeep : ∀ {name ty}, old.lookup name = some ty → new.lookup name = some ty) {ty r s : Ty}
    (h : Resolves old ty r) (hs : Resolves new r s) : Resolves new ty s := by
  refine h.least (motive := fun ty r => ∀ {s}, Resolves new r s → Resolves new ty s)
    (fun hs => hs) (fun hs => hs) (fun hs => hs) ?undefined ?defined ?arrow ?product ?sum hs
  case undefined =>
    intro name _ s hs
    exact hs
  case defined =>
    intro name ty r hname ih s hs
    exact .defined (hkeep hname) (ih hs)
  case arrow =>
    intro param result p r ihp ihr s hs
    cases hs with
    | arrow hp hr => exact .arrow (ihp hp) (ihr hr)
  case product =>
    intro fields results ih s hs
    cases hs with
    | product hresults => exact .product (ih.trans hresults fun hentry hr => hentry hr)
  case sum =>
    intro variants results ih s hs
    cases hs with
    | sum hresults => exact .sum (ih.trans hresults fun hentry hr => hentry hr)

theorem same_tables_of_inStep {fs gs fs' gs' : List (String × Ty)}
    (hf : Table.InStep (fun _ => Resolves aliases) fs fs')
    (hg : Table.InStep (fun _ => Resolves aliases) gs gs')
    (ih : ∀ entry ∈ fs, ∀ {b r s}, entry.2.same b = true → Resolves aliases entry.2 r →
      Resolves aliases b s → r.same s = true)
    (h : (sameEntries fs gs && gs.all fun entry => Table.has entry.1 fs) = true) :
    (sameEntries fs' gs' && gs'.all fun entry => Table.has entry.1 fs') = true := by
  rw [Bool.and_eq_true, sameEntries_iff, List.all_eq_true] at h ⊢
  constructor
  · intro entry hmem
    obtain ⟨a, ha, hr⟩ := hf.exists_of_mem_right hmem
    obtain ⟨b, hb, hsame⟩ := h.1 _ ha
    obtain ⟨s, hs, hbs⟩ := hg.lookup_left hb
    exact ⟨s, hs, ih _ ha hsame hr hbs⟩
  · intro entry hmem
    obtain ⟨b, hb, -⟩ := hg.exists_of_mem_right hmem
    have hkey := Table.has_eq_true_iff.1 (h.2 _ hb)
    rw [hf.keys_eq] at hkey
    exact Table.has_eq_true_iff.2 hkey

theorem Resolves.same (haliases : ∀ entry ∈ aliases, entry.2.distinct = true) {a b r s : Ty}
    (hsame : a.same b = true) (hr : Resolves aliases a r) (hs : Resolves aliases b s) :
    r.same s = true := by
  induction a generalizing b r s with
  | bool | int | unit =>
      cases b <;> simp only [Ty.same, Bool.false_eq_true] at hsame
      cases hr
      cases hs
      rfl
  | base name =>
      cases b <;> simp only [Ty.same, Bool.false_eq_true, beq_iff_eq] at hsame
      subst hsame
      -- a name resolves to one type, and a well-formed type is the same as itself
      obtain rfl := hr.unique hs
      have hresolve : (Ty.base name).resolve true aliases = .ok r := resolve_eq_ok_iff.2 hr
      have hdistinct : r.distinct = true := distinct_of_resolve haliases rfl hresolve
      exact (Alike.refl hr.resolved hdistinct).same
  | arrow param result ihp ihr =>
      cases b <;> simp only [Ty.same, Bool.false_eq_true, Bool.and_eq_true] at hsame
      cases hr with
      | arrow hp hr =>
          cases hs with
          | arrow hp' hr' =>
              simp only [Ty.same, Bool.and_eq_true]
              exact ⟨ihp hsame.1 hp hp', ihr hsame.2 hr hr'⟩
  | product fields ih =>
      cases b <;> simp only [Ty.same, Bool.false_eq_true] at hsame
      cases hr with
      | product hf =>
          cases hs with
          | product hg => exact same_tables_of_inStep hf hg ih hsame
  | sum variants ih =>
      cases b <;> simp only [Ty.same, Bool.false_eq_true] at hsame
      cases hr with
      | sum hf =>
          cases hs with
          | sum hg => exact same_tables_of_inStep hf hg ih hsame
  | foreign => cases hr

/-- `other` resolves by the new definitions to what `ty` resolves to by the old ones and then by
the new ones. -/
def Carries (old new : List (String × Ty)) (ty other : Ty) : Prop :=
  ∀ {r s}, Resolves old ty r → Resolves new r s → Resolves new other s

theorem Resolves.carries {ty other : Ty} (hty : ty.resolved old = true)
    (h : Resolves new ty other) : Carries old new ty other := by
  intro r s hr hs
  obtain rfl := hr.unique (resolves_of_resolved hty)
  obtain rfl := hs.unique h
  exact resolves_of_resolved h.resolved

end Ty

/-! ## Contexts with more definitions -/

namespace Context

variable {Γ Δ : Context}

/-- `Δ` has all definitions of `Γ` and others, by which every type of known forms resolves, and
its variables carry the types that they have under `Γ`. -/
structure Refines (Γ Δ : Context) : Prop where
  keep : ∀ {name ty}, Γ.aliases.lookup name = some ty → Δ.aliases.lookup name = some ty
  distinct : ∀ entry ∈ Δ.aliases, entry.2.distinct = true
  total : ∀ {ty : Ty}, ty.known = true → ∃ r, Ty.Resolves Δ.aliases ty r
  lookup : ∀ {index ty}, Γ.lookup? index = some ty →
    ∃ other, Δ.lookup? index = some other ∧ Ty.Carries Γ.aliases Δ.aliases ty other

namespace Refines

theorem carries (h : Γ.Refines Δ) (ty : Ty) : Ty.Carries Γ.aliases Δ.aliases ty ty :=
  fun hr hs => hr.through h.keep hs

theorem extend (h : Γ.Refines Δ) {types others : List Ty}
    (htypes : List.Forall₂ (Ty.Carries Γ.aliases Δ.aliases) types others) :
    (Γ.extend types).Refines (Δ.extend others) := by
  refine ⟨h.keep, h.distinct, h.total, fun {index ty} hty => ?_⟩
  rw [lookup?_extend] at hty ⊢
  rw [← htypes.length_eq]
  by_cases hnew : 0 ≤ index ∧ index < types.length
  · rw [if_pos hnew] at hty ⊢
    have hrel := rel_getElem?_of_forall₂ htypes index.toNat
    rw [hty] at hrel
    generalize others[index.toNat]? = found at hrel
    cases hrel with
    | some hcarries => exact ⟨_, rfl, hcarries⟩
  · rw [if_neg hnew] at hty ⊢
    exact h.lookup hty

theorem extend_written (h : Γ.Refines Δ) (ty : Ty) : (Γ.extend [ty]).Refines (Δ.extend [ty]) :=
  h.extend (.cons (h.carries ty) .nil)

theorem extend_resolved (h : Γ.Refines Δ) {types others : List Ty}
    (htypes : ∀ ty ∈ types, ty.resolved Γ.aliases = true)
    (hothers : List.Forall₂ (Ty.Resolves Δ.aliases) types others) :
    (Γ.extend types).Refines (Δ.extend others) := by
  refine h.extend ?_
  induction hothers with
  | nil => exact .nil
  | cons hhead _ ih =>
      rw [List.forall_mem_cons] at htypes
      exact .cons (hhead.carries htypes.1) (ih htypes.2)

end Refines

end Context

/-- A pattern that meets a resolved type meets what this type resolves to by other definitions,
and so do the types of its variables. -/
theorem Pattern.bind_resolves {detect : Bool} {Γ Δ : Context} {pattern : Pattern} {a A : Ty}
    {types : List Ty} (ha : a.resolved Γ.aliases = true) (hA : Ty.Resolves Δ.aliases a A)
    (h : pattern.bind detect Γ a = .ok types) :
    ∃ others, pattern.bind detect Δ A = .ok others ∧
      List.Forall₂ (Ty.Resolves Δ.aliases) types others := by
  have hself : Δ.resolve detect A = .ok A := Ty.resolve_of_resolved hA.resolved
  induction pattern generalizing a A types with
  | var name =>
      obtain ⟨r, hr, rfl⟩ := bind_var_iff.1 h
      obtain rfl := Context.eq_of_resolve ha hr
      exact ⟨[A], bind_var_iff.2 ⟨A, hself, rfl⟩, .cons hA .nil⟩
  | record fields ih =>
      obtain ⟨entries, bound, hr, hbound, rfl⟩ := bind_record_iff.1 h
      obtain rfl := Context.eq_of_resolve ha hr
      rw [Ty.resolved_product] at ha
      cases hA with
      | @product _ results hresults =>
          obtain ⟨others, hothers, hall⟩ : ∃ others, List.Forall₂ (fun field types =>
              ∃ a, results.lookup field.1 = some a ∧ field.2.bind detect Δ a = .ok types)
                fields others ∧
              List.Forall₂ (Ty.Resolves Δ.aliases) bound.flatten others.flatten := by
            clear h hr hself
            induction hbound with
            | nil => exact ⟨[], .nil, .nil⟩
            | cons hfound _ ihrest =>
                rw [List.forall_mem_cons] at ih
                obtain ⟨b, hb, hbind⟩ := hfound
                obtain ⟨B, hB, hbB⟩ := hresults.lookup_left hb
                obtain ⟨first, hfirst, hhead⟩ := ih.1 (ha _ (Table.mem_of_lookup hb)) hbB hbind
                  (Ty.resolve_of_resolved hbB.resolved)
                obtain ⟨rest, hrest, htail⟩ := ihrest ih.2
                exact ⟨first :: rest, .cons ⟨B, hB, hfirst⟩ hrest, List.rel_append hhead htail⟩
          exact ⟨others.flatten, bind_record_iff.2 ⟨results, others, hself, hothers, rfl⟩, hall⟩
  | foreign => exact absurd h bind_foreign_ne

namespace Term

variable {detect : Bool} {Γ Δ : Context}

theorem infersBranches_refined {variants results types : List (String × Ty)}
    {branches : List (String × Branch Term)}
    (hresults : Table.InStep (fun _ => Ty.Resolves Δ.aliases) variants results)
    (h : Table.InStep (fun label _ T => InfersBranch detect Γ variants branches label T)
      variants types)
    (hbody : ∀ {label payload other branch T}, variants.lookup label = some payload →
      Ty.Resolves Δ.aliases payload other → branches.lookup label = some branch →
      branch.body.infer detect (Γ.extend [payload]) = .ok T →
      ∃ S, Ty.Resolves Δ.aliases T S ∧ branch.body.infer detect (Δ.extend [other]) = .ok S) :
    ∃ found, Table.InStep (fun label _ S => InfersBranch detect Δ results branches label S)
        results found ∧
      Table.InStep (fun _ => Ty.Resolves Δ.aliases) types found := by
  rw [Table.InStep.iff_keys_eq] at h
  have hbranch : ∀ entry ∈ types, ∃ S, Ty.Resolves Δ.aliases entry.2 S ∧
      InfersBranch detect Δ results branches entry.1 S := by
    intro entry hmem
    obtain ⟨payload, branch, hpayload, hbranch, hT⟩ := h.2 entry hmem
    obtain ⟨other, hother, hresolves⟩ := hresults.lookup_left hpayload
    obtain ⟨S, hS, hinfer⟩ := hbody hpayload hresolves hbranch hT
    exact ⟨S, hS, other, branch, hother, hbranch, hinfer⟩
  obtain ⟨found, hfound⟩ := Table.InStep.exists_right (R := fun label ty S =>
    Ty.Resolves Δ.aliases ty S ∧ InfersBranch detect Δ results branches label S) hbranch
  refine ⟨found, ?_, hfound.imp fun _ _ _ hentry => hentry.1⟩
  rw [Table.InStep.iff_keys_eq, ← hresults.keys_eq, h.1]
  refine ⟨hfound.keys_eq, fun entry hmem => ?_⟩
  obtain ⟨_, -, -, hentry⟩ := hfound.exists_of_mem_right hmem
  exact hentry

/-- Under more definitions a term has the type to which its old type resolves by them. -/
theorem infer_refined (h : Γ.Refines Δ) {t : Term} {T : Ty} (hT : t.infer detect Γ = .ok T) :
    ∃ S, Ty.Resolves Δ.aliases T S ∧ t.infer detect Δ = .ok S := by
  have hwritten : ∀ {Γ Δ : Context} {ty r : Ty}, Γ.Refines Δ → Γ.resolve detect ty = .ok r →
      ∃ s, Ty.Resolves Δ.aliases r s ∧ Δ.resolve detect ty = .ok s := by
    intro Γ Δ ty r h hr
    obtain ⟨s, hs⟩ := h.total (Ty.known_of_permitted (Ty.resolved_of_resolve hr))
    exact ⟨s, hs, Ty.resolve_eq_ok_iff.2 (h.carries ty (Ty.resolve_eq_ok_iff.1 hr) hs)⟩
  -- for all contexts at once: below a binder they hold different types for its variables, but
  -- the one still refines the other
  induction t generalizing Γ Δ T with
  | unit =>
      rw [infer_unit_iff.1 hT]
      exact ⟨_, .unit, rfl⟩
  | bool value =>
      rw [infer_bool_iff.1 hT]
      exact ⟨_, .bool, rfl⟩
  | zero =>
      rw [infer_zero_iff.1 hT]
      exact ⟨_, .int, rfl⟩
  | succ term ih =>
      obtain ⟨hterm, rfl⟩ := infer_succ_iff.1 hT
      obtain ⟨_, hint, hterm'⟩ := ih h hterm
      cases hint
      exact ⟨_, .int, infer_succ_iff.2 ⟨hterm', rfl⟩⟩
  | pred term ih =>
      obtain ⟨hterm, rfl⟩ := infer_pred_iff.1 hT
      obtain ⟨_, hint, hterm'⟩ := ih h hterm
      cases hint
      exact ⟨_, .int, infer_pred_iff.2 ⟨hterm', rfl⟩⟩
  | isZero term ih =>
      obtain ⟨hterm, rfl⟩ := infer_isZero_iff.1 hT
      obtain ⟨_, hint, hterm'⟩ := ih h hterm
      cases hint
      exact ⟨_, .bool, infer_isZero_iff.2 ⟨hterm', rfl⟩⟩
  | var index name =>
      obtain ⟨a, ha, hr⟩ := infer_var_iff.1 hT
      obtain ⟨other, hother, hcarries⟩ := h.lookup ha
      obtain ⟨S, hS⟩ := h.total (Ty.known_of_permitted (Ty.resolved_of_resolve hr))
      have hresolve := hcarries (Ty.resolve_eq_ok_iff.1 hr) hS
      exact ⟨S, hS, infer_var_iff.2 ⟨other, hother, Ty.resolve_eq_ok_iff.2 hresolve⟩⟩
  | abs name ty body ih =>
      obtain ⟨p, r, hp, hr, rfl⟩ := infer_abs_iff.1 hT
      obtain ⟨P, hP, hty⟩ := hwritten h hp
      obtain ⟨R, hR, hbody⟩ := ih (h.extend_written ty) hr
      exact ⟨_, .arrow hP hR, infer_abs_iff.2 ⟨P, R, hty, hbody, rfl⟩⟩
  | app f a ihf iha =>
      obtain ⟨p, q, hf, ha, hsame⟩ := infer_app_iff.1 hT
      obtain ⟨_, hF, hf'⟩ := ihf h hf
      obtain ⟨Q, hQ, ha'⟩ := iha h ha
      cases hF with
      | @arrow _ _ P S hP hS =>
          exact ⟨S, hS, infer_app_iff.2 ⟨P, Q, hf', ha', hP.same h.distinct hsame hQ⟩⟩
  | ite condition yes no ihc ihy ihn =>
      obtain ⟨hc, hy, u, hn, hsame⟩ := infer_ite_iff.1 hT
      obtain ⟨_, hbool, hc'⟩ := ihc h hc
      obtain ⟨S, hS, hy'⟩ := ihy h hy
      obtain ⟨U, hU, hn'⟩ := ihn h hn
      cases hbool
      exact ⟨S, hS, infer_ite_iff.2 ⟨hc', hy', U, hn', hS.same h.distinct hsame hU⟩⟩
  | tuple fields ih =>
      obtain ⟨types, hfields, rfl⟩ := infer_tuple_iff.1 hT
      have hboth : Table.InStep (fun _ term ty => ∃ S, term.infer detect Δ = .ok S ∧
          Ty.Resolves Δ.aliases ty S) fields types := by
        refine hfields.imp fun entry hmem _ hty => ?_
        obtain ⟨S, hS, hinfer⟩ := ih entry hmem h hty
        exact ⟨S, hinfer, hS⟩
      obtain ⟨results, hinfer, hresolves⟩ := hboth.exists_between
      exact ⟨_, .product hresolves.flip, infer_tuple_iff.2 ⟨results, hinfer, rfl⟩⟩
  | letIn pattern value body ihv ihb =>
      obtain ⟨a, types, ha, hbind, hb⟩ := infer_letIn_iff.1 hT
      obtain ⟨A, hA, ha'⟩ := ihv h ha
      obtain ⟨others, hbind', hothers⟩ := Pattern.bind_resolves (resolved_of_infer ha) hA hbind
      obtain ⟨S, hS, hb'⟩ := ihb (h.extend_resolved (Pattern.resolved_of_bind hbind) hothers) hb
      exact ⟨S, hS, infer_letIn_iff.2 ⟨A, others, ha', hbind', hb'⟩⟩
  | tag label payload ty ih =>
      obtain ⟨variants, a, p, hty, hlabel, hp, hsame, rfl⟩ := infer_tag_iff.1 hT
      obtain ⟨_, hS, hty'⟩ := hwritten h hty
      obtain ⟨P, hP, hp'⟩ := ih h hp
      cases hS with
      | @sum _ results hresults =>
          obtain ⟨A, hlabel', hA⟩ := hresults.lookup_left hlabel
          exact ⟨_, .sum hresults, infer_tag_iff.2 ⟨results, A, P, hty', hlabel', hp',
            hP.same h.distinct hsame hA, rfl⟩⟩
  | case scrutinee branches ihs ihb =>
      obtain ⟨variants, types, hs, hkeys, hstep, first, rest, rfl, hall⟩ := infer_case_iff.1 hT
      obtain ⟨_, hsum, hs'⟩ := ihs h hs
      have hvariants := Ty.resolved_sum.1 (resolved_of_infer hs)
      cases hsum with
      | @sum _ results hresults =>
          have hbranches := infersBranches_refined hresults hstep ?_
          · obtain ⟨found, hinfers, hfound⟩ := hbranches
            rw [hresults.keys_eq] at hkeys
            cases hfound with
            | @cons _ _ S _ others hfirst hothers =>
                refine ⟨S, hfirst, infer_case_iff.2 ⟨results, _, hs', hkeys, hinfers, first, others,
                  rfl, fun entry hmem => ?_⟩⟩
                obtain ⟨U, hU, hresolves⟩ := hothers.exists_of_mem_right hmem
                exact hresolves.same h.distinct (hall _ hU) hfirst
          · intro label payload other branch U hpayload hother hlookup hbody
            have hpayloads : ∀ ty ∈ [payload], ty.resolved Γ.aliases = true := by
              simpa using hvariants _ (Table.mem_of_lookup hpayload)
            have hextend := h.extend_resolved hpayloads (.cons hother .nil)
            exact ihb _ (Table.mem_of_lookup hlookup) hextend hbody
  | fix term ih =>
      obtain ⟨p, hf, hsame⟩ := infer_fix_iff.1 hT
      obtain ⟨_, hF, hf'⟩ := ih h hf
      cases hF with
      | @arrow _ _ P S hP hS =>
          exact ⟨S, hS, infer_fix_iff.2 ⟨P, hf', hP.same h.distinct hsame hS⟩⟩
  | foreign => exact absurd hT infer_foreign_ne

end Term

namespace Context

theorem refines_withAliases {Γ : Context} {new : List (String × Ty)}
    (hnew : ∀ name ∈ Table.keys new, name ∉ Table.keys Γ.aliases)
    (hknown : ∀ entry ∈ (Γ.withAliases new).aliases, entry.2.known = true)
    (hdistinct : ∀ entry ∈ (Γ.withAliases new).aliases, entry.2.distinct = true)
    (hacyclic : ∀ name, ¬ Ty.Cyclic (Γ.withAliases new).aliases name) :
    Γ.Refines (Γ.withAliases new) := by
  have hkeep : ∀ {name ty}, Γ.aliases.lookup name = some ty →
      (Γ.withAliases new).aliases.lookup name = some ty := by
    intro name ty hty
    have hkey : name ∈ Table.keys Γ.aliases := Table.mem_keys_iff.2 ⟨ty, hty⟩
    exact (Table.lookup_merge_of_not_mem fun hmem => hnew name hmem hkey).trans hty
  refine ⟨hkeep, hdistinct, fun {ty} hty => ?_, fun {index ty} hty => ⟨ty, hty, ?_⟩⟩
  · rw [Ty.exists_resolves_iff hknown hty]
    intro name _ htangled
    obtain ⟨knot, -, hcyclic⟩ := htangled
    exact hacyclic knot hcyclic
  · exact fun hr hs => hr.through hkeep hs

end Context

/-- Defining an opaque type keeps every term well-typed: its type is then what the old type
resolves to. The new definitions are for names that have none, and no definition is cyclic. -/
theorem Term.infer_withAliases {detect : Bool} {Γ : Context} {new : List (String × Ty)} {t : Term}
    {T : Ty} (hT : t.infer detect Γ = .ok T)
    (hnew : ∀ name ∈ Table.keys new, name ∉ Table.keys Γ.aliases)
    (hknown : ∀ entry ∈ (Γ.withAliases new).aliases, entry.2.known = true)
    (hdistinct : ∀ entry ∈ (Γ.withAliases new).aliases, entry.2.distinct = true)
    (hacyclic : ∀ name, ¬ Ty.Cyclic (Γ.withAliases new).aliases name) :
    ∃ S, T.resolve detect (Γ.withAliases new).aliases = .ok S ∧
      t.infer detect (Γ.withAliases new) = .ok S := by
  obtain ⟨S, hS, hinfer⟩ :=
    infer_refined (Context.refines_withAliases hnew hknown hdistinct hacyclic) hT
  exact ⟨S, Ty.resolve_eq_ok_iff.2 hS, hinfer⟩

/-- An opaque type that occurs in an old definition and in the context becomes a function type. -/
theorem Term.infer_withAliases_function :
    let Γ : Context := ⟨[(0, .base "P"), (2, .base "K")],
      [("P", .product [("a", .base "K"), ("b", .base "N")]), ("N", .int)], []⟩
    let new : List (String × Ty) :=
      [("K", .arrow (.base "N") (.base "L")), ("L", .sum [("l", .base "M"), ("r", .unit)])]
    let t : Term := .letIn (.record [("a", .var "k")]) (.var 0 "p")
      (.tuple [("x", .ite (.bool true) (.var 0 "k") (.var 3 "k")),
        ("y", .abs "z" (.base "N") .zero)])
    t.infer true Γ = .ok (.product [("x", .base "K"), ("y", .arrow .int .int)]) ∧
      ∃ S, Ty.resolve true (Γ.withAliases new).aliases
          (.product [("x", .base "K"), ("y", .arrow .int .int)]) = .ok S ∧
        t.infer true (Γ.withAliases new) = .ok S := by
  intro Γ new t
  have hknown : ∀ entry ∈ (Γ.withAliases new).aliases, entry.2.known = true := by decide
  have hacyclic := (Ty.acyclic_iff hknown).2 (by decide)
  exact ⟨rfl, infer_withAliases rfl (by decide) hknown (by decide) hacyclic⟩

end TypedLambda
