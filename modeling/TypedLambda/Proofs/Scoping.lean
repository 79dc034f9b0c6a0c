import TypedLambda.Proofs.Refusals
import TypedLambda.Proofs.Scripts

/-!
# Names and types side by side

A scope gives an index to a name, a context gives a type to an index. Binders are entered in
both: the scope gets the new names in front, the context renumbers its table. An `Extension` is
one binder with the types of its variables, and `Extension.Aligned` is what entering it keeps:
the scope and the context list the same bindings, innermost first.

So the index of a name leads to the type that came with the latest binding of the name.
`Extension.Latest` says which one that is without looking at scope or context.
-/

namespace TypedLambda

/-! ## Contexts that only hold what was entered -/

namespace Context

theorem vars_extend (Γ : Context) (types : List Ty) :
    (Γ.extend types).vars = types.zipIdx.map (fun entry => ((entry.2 : Int), entry.1)) ++
      (Γ.vars.map fun entry => (entry.1 + (types.length : Int), entry.2)).filter
        fun entry => entry.1 < 0 || (types.length : Int) ≤ entry.1 := rfl

theorem extend_extend (Γ : Context) (outer inner : List Ty) :
    (Γ.extend outer).extend inner = Γ.extend (inner ++ outer) := by
  have hfresh : ((outer.zipIdx.map fun entry => ((entry.2 : Int), entry.1)).map
      fun entry => (entry.1 + (inner.length : Int), entry.2)).filter
        (fun entry => entry.1 < 0 || (inner.length : Int) ≤ entry.1) =
      (outer.zipIdx inner.length).map fun entry => ((entry.2 : Int), entry.1) := by
    have hshift := @List.zipIdx_eq_map_add _ outer inner.length
    rw [hshift, List.map_map, List.map_map, List.filter_eq_self.2]
    · apply List.map_congr_left
      intro entry _
      simp [Int.add_comm]
    · rw [List.forall_mem_map]
      intro entry _
      have hge : (inner.length : Int) ≤ (entry.2 : Int) + inner.length := by omega
      simp [hge]
  -- an old entry survives both extensions or their union, wherever its index lies
  have hkept : ∀ index : Int,
      ((index + outer.length + inner.length < 0 ||
          (inner.length : Int) ≤ index + outer.length + inner.length) &&
        (index + outer.length < 0 || (outer.length : Int) ≤ index + outer.length)) =
      (index + (inner ++ outer).length < 0 ||
        ((inner ++ outer).length : Int) ≤ index + (inner ++ outer).length) := by
    intro index
    rw [Bool.eq_iff_iff]
    simp only [List.length_append, Bool.and_eq_true, Bool.or_eq_true, decide_eq_true_eq]
    omega
  have hmoved : (((Γ.vars.map fun entry => (entry.1 + (outer.length : Int), entry.2)).filter
      fun entry => entry.1 < 0 || (outer.length : Int) ≤ entry.1).map
        fun entry => (entry.1 + (inner.length : Int), entry.2)).filter
          (fun entry => entry.1 < 0 || (inner.length : Int) ≤ entry.1) =
      (Γ.vars.map fun entry => (entry.1 + ((inner ++ outer).length : Int), entry.2)).filter
        fun entry => entry.1 < 0 || ((inner ++ outer).length : Int) ≤ entry.1 := by
    simp only [List.filter_map, List.map_map, List.filter_filter, Function.comp_def, hkept]
    apply List.map_congr_left
    intro entry _
    have hsum : entry.1 + outer.length + inner.length =
        entry.1 + ((inner ++ outer).length : Int) := by
      rw [List.length_append]
      omega
    rw [hsum]
  have hvars : ((Γ.extend outer).extend inner).vars = (Γ.extend (inner ++ outer)).vars := by
    simp only [vars_extend, List.map_append, List.filter_append, hfresh, hmoved,
      List.zipIdx_append, Nat.zero_add, List.append_assoc]
  exact congrArg (fun vars => { Γ with vars }) hvars

theorem keys_extend_empty (types : List Ty) :
    Table.keys (extend {} types).vars = (List.range types.length).map Nat.cast := by
  have hkeys : types.zipIdx.map (fun entry => (entry.2 : Int)) =
      (types.zipIdx.map Prod.snd).map Nat.cast := by
    rw [List.map_map]
    rfl
  rw [List.zipIdx_map_snd, ← List.range_eq_range'] at hkeys
  simp only [vars_extend, Table.keys, List.map_nil, List.filter_nil, List.append_nil,
    List.map_map]
  exact hkeys

theorem lookup?_extend_empty (types : List Ty) (index : Nat) :
    (extend {} types).lookup? index = types[index]? := by
  rw [lookup?_extend]
  by_cases hlt : index < types.length
  · rw [if_pos (by omega)]
    rfl
  · rw [if_neg (by omega), List.getElem?_eq_none (by omega)]
    rfl

theorem typeAt_eq_ok_iff {Γ : Context} {index : Int} {ty : Ty} :
    Γ.typeAt index = .ok ty ↔ Γ.lookup? index = some ty := by
  unfold typeAt
  cases Γ.lookup? index <;> simp

end Context

/-! ## Indices of names -/

namespace Scope

variable {scope : Scope} {name : String}

theorem nameOf_eq_ok_iff {index : Int} :
    scope.nameOf index = .ok name ↔ 0 ≤ index ∧ scope.names[index.toNat]? = some name := by
  unfold nameOf
  by_cases hneg : index < 0
  · have hnot : ¬ 0 ≤ index := by omega
    simp [hneg, hnot]
  · have hpos : 0 ≤ index := by omega
    cases scope.names[index.toNat]? <;> simp [hneg, hpos]

theorem indexOf_eq_ok_iff {index : Nat} :
    scope.indexOf name = .ok index ↔
      scope.names[index]? = some name ∧ ∀ j < index, scope.names[j]? ≠ some name := by
  have hfound : scope.indexOf name = .ok index ↔ scope.names.idxOf? name = some index := by
    unfold indexOf
    cases scope.names.idxOf? name <;> simp
  rw [hfound, List.idxOf?_eq_some_iff]
  constructor
  · intro h
    obtain ⟨hlt, hname, hfirst⟩ := h
    refine ⟨List.getElem?_eq_some_iff.2 ⟨hlt, hname⟩, fun j hj heq => ?_⟩
    obtain ⟨hlt', hname'⟩ := List.getElem?_eq_some_iff.1 heq
    exact hfirst j hj hname'
  · intro h
    obtain ⟨hlt, hname⟩ := List.getElem?_eq_some_iff.1 h.1
    refine ⟨hlt, hname, fun j hj heq => ?_⟩
    exact h.2 j hj (List.getElem?_eq_some_iff.2 ⟨by omega, heq⟩)

theorem least_of_indexOf {index : Nat} (h : scope.indexOf name = .ok index) :
    scope.nameOf index = .ok name ∧
      ∀ other : Int, scope.nameOf other = .ok name → index ≤ other := by
  obtain ⟨hname, hfirst⟩ := indexOf_eq_ok_iff.1 h
  refine ⟨nameOf_eq_ok_iff.2 ⟨by omega, hname⟩, fun other hother => ?_⟩
  obtain ⟨hpos, hother⟩ := nameOf_eq_ok_iff.1 hother
  by_contra hless
  exact hfirst other.toNat (by omega) hother

theorem indexOf_of_not_contains (h : scope.contains name = false) :
    scope.indexOf name = .error (.unboundName name) := by
  have hmem : name ∉ scope.names := by simpa [contains] using h
  rw [indexOf, List.idxOf?_eq_none_iff.2 hmem]

end Scope

/-! ## Extensions of both -/

/-- A binder that a scope and a context enter together: one name with its type, or the
variables of a pattern with as many types. -/
inductive Extension where
  | single (name : String) (ty : Ty)
  | several (pattern : Pattern) (types : List Ty) (fits : pattern.length? = some types.length)

namespace Extension

/-- The names bound, that of index 0 first. -/
def names : Extension → List String
  | .single name _ => [name]
  | .several pattern _ _ => pattern.variables?.getD []

def types : Extension → List Ty
  | .single _ ty => [ty]
  | .several _ types _ => types

def enterScope (scope : Scope) : Extension → Except Fault Scope
  | .single name _ => .ok (scope.bind name)
  | .several pattern _ _ => scope.bindPattern pattern

def enterContext (Γ : Context) : Extension → Context
  | .single _ ty => Γ.extend [ty]
  | .several _ types _ => Γ.extend types

def scopeAfter (extensions : List Extension) : Except Fault Scope :=
  extensions.foldlM enterScope {}

def contextAfter (extensions : List Extension) : Context := extensions.foldl enterContext {}

/-- The extension binds the name, and `ty` comes with the first of its variables so called. -/
def Binds (name : String) (ty : Ty) (e : Extension) : Prop :=
  ∃ i : Nat, e.names[i]? = some name ∧ e.types[i]? = some ty ∧ ∀ j < i, e.names[j]? ≠ some name

/-- The last of the extensions that bind the name binds it with `ty`. -/
inductive Latest (name : String) (ty : Ty) : List Extension → Prop
  | here {e : Extension} {rest : List Extension} : e.Binds name ty →
      (∀ later ∈ rest, name ∉ later.names) → Latest name ty (e :: rest)
  | later {e : Extension} {rest : List Extension} : Latest name ty rest →
      Latest name ty (e :: rest)

theorem length_names (e : Extension) : e.names.length = e.types.length := by
  cases e with
  | single name ty => rfl
  | several pattern bound fits =>
      obtain ⟨found, hfound, hlength⟩ := Pattern.length?_eq_some_iff.1 fits
      simp [names, types, hfound, hlength]

theorem enterScope_eq (e : Extension) (scope : Scope) :
    e.enterScope scope = .ok ⟨e.names ++ scope.names⟩ := by
  cases e with
  | single name ty => rfl
  | several pattern bound fits =>
      obtain ⟨found, hfound, -⟩ := Pattern.length?_eq_some_iff.1 fits
      simp only [enterScope, Scope.bindPattern, names, hfound, Option.getD_some]

theorem enterContext_eq (e : Extension) (Γ : Context) :
    e.enterContext Γ = Γ.extend e.types := by
  cases e <;> rfl

/-! ## Bindings -/

def bindings (e : Extension) : List (String × Ty) := e.names.zip e.types

def allBindings (held : List (String × Ty)) (extensions : List Extension) : List (String × Ty) :=
  extensions.foldl (fun held e => e.bindings ++ held) held

section
variable {e : Extension} {name : String} {ty : Ty}

theorem keys_bindings (e : Extension) : Table.keys e.bindings = e.names :=
  List.map_fst_zip (Nat.le_of_eq e.length_names)

theorem binds_iff : e.Binds name ty ↔ e.bindings.lookup name = some ty := by
  rw [Table.lookup_eq_some_iff_getElem?, keys_bindings, Binds]
  simp only [bindings, List.getElem?_zip_eq_some, and_assoc]

theorem not_mem_names_iff : name ∉ e.names ↔ e.bindings.lookup name = none := by
  rw [← keys_bindings, Table.mem_keys_iff, Option.eq_none_iff_forall_ne_some, not_exists]

theorem latest_cons_iff {rest : List Extension} : Latest name ty (e :: rest) ↔
    Latest name ty rest ∨ (∀ later ∈ rest, name ∉ later.names) ∧ e.Binds name ty := by
  constructor
  · intro h
    cases h with
    | here hbinds hrest => exact .inr ⟨hrest, hbinds⟩
    | later hlater => exact .inl hlater
  · intro h
    rcases h with hlater | ⟨hrest, hbinds⟩
    · exact .later hlater
    · exact .here hbinds hrest

/-- A name is bound as the latest extension that binds it says, and as before if none does. -/
theorem lookup_allBindings {held : List (String × Ty)} {extensions : List Extension} :
    (allBindings held extensions).lookup name = some ty ↔ Latest name ty extensions ∨
      (∀ e ∈ extensions, name ∉ e.names) ∧ held.lookup name = some ty := by
  induction extensions generalizing held with
  | nil =>
      have hnone : ¬ Latest name ty [] := by
        intro h
        cases h
      simp [allBindings, hnone]
  | cons e rest ih =>
      have hrest : allBindings held (e :: rest) = allBindings (e.bindings ++ held) rest := rfl
      rw [hrest, ih, latest_cons_iff, List.forall_mem_cons, List.lookup_append, binds_iff,
        not_mem_names_iff]
      cases e.bindings.lookup name with
      | none => simp
      | some bound => simp

theorem lookup_allBindings_nil {extensions : List Extension} :
    (allBindings [] extensions).lookup name = some ty ↔ Latest name ty extensions := by
  simp [lookup_allBindings]

end

/-! ## Alignment -/

/-- The scope and the context list the same bindings, innermost first. -/
structure Aligned (held : List (String × Ty)) (scope : Scope) (Γ : Context) : Prop where
  scope : scope.names = held.map Prod.fst
  context : Γ = Context.extend {} (held.map Prod.snd)

theorem aligned_nil : Aligned [] {} {} := ⟨rfl, rfl⟩

namespace Aligned

variable {held : List (String × Ty)} {scope : Scope} {Γ : Context}

/-- An extension puts its bindings in front, in the scope as in the context. -/
theorem enter (h : Aligned held scope Γ) (e : Extension) :
    Aligned (e.bindings ++ held) ⟨e.names ++ scope.names⟩ (Γ.extend e.types) := by
  have hlength := e.length_names
  constructor
  · rw [List.map_append, bindings, List.map_fst_zip (by omega), h.scope]
  · rw [List.map_append, bindings, List.map_snd_zip (by omega), h.context,
      Context.extend_extend]

theorem enterAll (h : Aligned held scope Γ) (extensions : List Extension) :
    ∃ scope', extensions.foldlM enterScope scope = .ok scope' ∧
      Aligned (allBindings held extensions) scope' (extensions.foldl enterContext Γ) := by
  induction extensions generalizing held scope Γ with
  | nil => exact ⟨scope, rfl, h⟩
  | cons e rest ih =>
      rw [List.foldlM_cons, List.foldl_cons, enterScope_eq, enterContext_eq]
      exact ih (h.enter e)

theorem keys (h : Aligned held scope Γ) :
    Table.keys Γ.vars = (List.range scope.size).map Nat.cast := by
  rw [h.context, Context.keys_extend_empty, Scope.size, h.scope, List.length_map,
    List.length_map]

theorem size (h : Aligned held scope Γ) : Γ.size = scope.size := by
  have hlength := congrArg List.length h.keys
  simpa [Table.keys, Context.size] using hlength

theorem lookup_iff (h : Aligned held scope Γ) {name : String} {ty : Ty} :
    held.lookup name = some ty ↔
      ∃ index : Nat, scope.indexOf name = .ok index ∧ Γ.lookup? index = some ty := by
  have hkeys : Table.keys held = scope.names := h.scope.symm
  have hnames : ∀ i : Nat, scope.names[i]? = (held[i]?).map Prod.fst := by
    intro i
    rw [h.scope, List.getElem?_map]
  rw [Table.lookup_eq_some_iff_getElem?, hkeys]
  apply exists_congr
  intro index
  rw [h.context, Context.lookup?_extend_empty, List.getElem?_map, Scope.indexOf_eq_ok_iff,
    hnames index]
  cases held[index]? with
  | none => simp
  | some entry => simp [Prod.ext_iff, and_right_comm]

end Aligned

end Extension

/-! ## Scripts -/

namespace Script

def extensions (bindings : List (String × Term)) (types : List Ty) : List Extension :=
  (bindings.zip types).map fun entry => .single entry.1.1 entry.2

theorem forall₂_of_typesOf {detect : Bool} {Γ : Context} {bindings : List (String × Term)}
    {types : List Ty} (h : typesOf detect Γ bindings = .ok types) :
    List.Forall₂ (fun _ ty => ty.known = true) bindings types := by
  induction bindings generalizing Γ types with
  | nil =>
      cases h
      exact .nil
  | cons binding rest ih =>
      obtain ⟨ty, others, hty, hothers, rfl⟩ := typesOf_cons_iff.1 h
      exact .cons (Ty.known_of_permitted (Term.resolved_of_infer hty)) (ih hothers)

section
variable {bindings before after : List (String × Term)} {types : List Ty}

theorem foldl_extensions (h : bindings.length = types.length) (scope : Scope) (Γ : Context) :
    (extensions bindings types).foldlM Extension.enterScope scope =
        .ok (bindings.foldl (fun scope binding => scope.bind binding.1) scope) ∧
      (extensions bindings types).foldl Extension.enterContext Γ = Γ.extendEach types := by
  induction bindings generalizing types scope Γ with
  | nil =>
      cases types with
      | nil => exact ⟨rfl, rfl⟩
      | cons ty types => cases h
  | cons binding rest ih =>
      cases types with
      | nil => cases h
      | cons ty types =>
          have hrest : rest.length = types.length := by simpa using h
          exact ih hrest (scope.bind binding.1) (Γ.extend [ty])

theorem latest_extensions {name : String} {term : Term}
    (h : (before ++ (name, term) :: after).length = types.length)
    (hafter : ∀ binding ∈ after, binding.1 ≠ name) :
    ∃ ty, types[before.length]? = some ty ∧
      Extension.Latest name ty (extensions (before ++ (name, term) :: after) types) := by
  induction before generalizing types with
  | nil =>
      cases types with
      | nil => cases h
      | cons ty types =>
          refine ⟨ty, rfl, .here ⟨0, rfl, rfl, by simp⟩ fun later hlater => ?_⟩
          obtain ⟨entry, hentry, rfl⟩ := List.mem_map.1 hlater
          have hmem : entry.1 ∈ after := (List.of_mem_zip hentry).1
          simpa [Extension.names] using (hafter _ hmem).symm
  | cons binding rest ih =>
      cases types with
      | nil => cases h
      | cons ty types =>
          have hrest : (rest ++ (name, term) :: after).length = types.length := by simpa using h
          obtain ⟨found, hfound, hlatest⟩ := ih hrest
          exact ⟨found, hfound, .later hlatest⟩

theorem aligned_naming {name : String} {term : Term}
    (h : (before ++ (name, term) :: after).length = types.length)
    (hafter : ∀ binding ∈ after, binding.1 ≠ name) :
    ∃ (held : List (String × Ty)) (ty : Ty), types[before.length]? = some ty ∧
      Extension.Aligned held
        ((before ++ (name, term) :: after).foldl (fun scope binding => scope.bind binding.1) {})
        (Context.extendEach {} types) ∧ held.lookup name = some ty := by
  obtain ⟨ty, hty, hlatest⟩ := latest_extensions h hafter
  obtain ⟨scope, hscope, haligned⟩ := Extension.aligned_nil.enterAll (extensions _ types)
  obtain ⟨hnaming, hcontext⟩ := foldl_extensions h {} {}
  rw [hcontext] at haligned
  obtain rfl := Except.ok.inj (hnaming.symm.trans hscope)
  exact ⟨_, ty, hty, haligned, Extension.lookup_allBindings_nil.2 hlatest⟩

end

end Script

namespace Extension

/-- Names and types stay aligned, whatever is entered. The indices of the context are those below
its size, which is the size of the scope. A name in scope has the least index that leads back to
it, and there the context has the type of its latest binding; another name has no index. So a
name of a script stands for a variable of the type of the last named term so called. -/
theorem scope_context_aligned :
    (∀ extensions : List Extension, ∃ scope, scopeAfter extensions = .ok scope ∧
      Table.keys (contextAfter extensions).vars =
        (List.range (contextAfter extensions).size).map Nat.cast ∧
      (contextAfter extensions).size = scope.size ∧
      (∀ name, scope.contains name = true → ∃ (index : Nat) (ty : Ty),
        scope.indexOf name = .ok index ∧
        (scope.nameOf index = .ok name ∧
          ∀ other : Int, scope.nameOf other = .ok name → index ≤ other) ∧
        (contextAfter extensions).typeAt index = .ok ty ∧ Latest name ty extensions) ∧
      ∀ name, scope.contains name = false → scope.indexOf name = .error (.unboundName name)) ∧
    ∀ {detect : Bool} {Γ : Context} {script : Script} {types : List Ty},
      script.bindingTypes detect Γ = .ok types →
      ∀ {name term before after}, script.bindings = before ++ (name, term) :: after →
        (∀ binding ∈ after, binding.1 ≠ name) →
        ∃ (index : Nat) (ty : Ty), types[before.length]? = some ty ∧
          (script.naming {}).var name = .ok (.var index name) ∧
          (Term.var index name).infer detect (Context.extendEach {} types) = .ok ty := by
  constructor
  · intro extensions
    obtain ⟨scope, hscope, haligned⟩ := aligned_nil.enterAll extensions
    have hkeys := haligned.keys
    rw [← haligned.size] at hkeys
    refine ⟨scope, hscope, hkeys, haligned.size, fun name hname => ?_,
      fun name => Scope.indexOf_of_not_contains⟩
    have hmem : name ∈ Table.keys (allBindings [] extensions) := by
      rw [Table.keys, ← haligned.scope]
      simpa [Scope.contains] using hname
    obtain ⟨ty, hty⟩ := Table.mem_keys_iff.1 hmem
    obtain ⟨index, hindex, hlookup⟩ := haligned.lookup_iff.1 hty
    exact ⟨index, ty, hindex, Scope.least_of_indexOf hindex,
      Context.typeAt_eq_ok_iff.2 hlookup, lookup_allBindings_nil.1 hty⟩
  · intro detect Γ script types htypes name term before after hsplit hafter
    obtain ⟨bindings, body⟩ := script
    dsimp only at hsplit
    subst hsplit
    have hall := Script.forall₂_of_typesOf htypes
    obtain ⟨held, ty, hty, haligned, hheld⟩ := Script.aligned_naming hall.length_eq hafter
    obtain ⟨index, hindex, hlookup⟩ := haligned.lookup_iff.1 hheld
    obtain ⟨_, -, hknown⟩ := getElem?_of_forall₂_right hall hty
    have hresolve : (Context.extendEach {} types).resolve detect ty = .ok ty := by
      rw [haligned.context]
      exact Ty.resolve_of_resolved hknown
    refine ⟨index, ty, hty, ?_, Term.infer_var_iff.2 ⟨ty, hlookup, hresolve⟩⟩
    rw [Script.naming, Scope.var, hindex]
    rfl

theorem scope_context_aligned_shadowed :
    let pattern : Pattern := .record [("a", .var "x"), ("b", .record [("c", .var "y")]),
      ("d", .var "x")]
    let extensions : List Extension := [.single "x" .unit,
      .several pattern [.int, .bool, .unit] rfl, .single "z" .bool]
    let scope : Scope := ⟨["z", "x", "y", "x", "x"]⟩
    let script : Script := ⟨[("x", .zero), ("y", .isZero (.var 0 "x")),
      ("x", .abs "z" .int (.var 1 "y"))], .app (.var 0 "x") .zero⟩
    let types : List Ty := [.int, .bool, .arrow .int .bool]
    scopeAfter extensions = .ok scope ∧ script.bindingTypes true {} = .ok types ∧
    (∃ (index : Nat) (ty : Ty), scope.indexOf "x" = .ok index ∧
      (contextAfter extensions).typeAt index = .ok ty ∧ Latest "x" ty extensions) ∧
    ∃ (index : Nat) (ty : Ty), types[2]? = some ty ∧
      (script.naming {}).var "x" = .ok (.var index "x") ∧
      (Term.var index "x").infer true (Context.extendEach {} types) = .ok ty := by
  intro pattern extensions scope script types
  have hentered : scopeAfter extensions = .ok scope := rfl
  have htypes : script.bindingTypes true {} = .ok types := rfl
  refine ⟨hentered, htypes, ?_, ?_⟩
  · obtain ⟨found, hfound, -, -, hbound, -⟩ := scope_context_aligned.1 extensions
    obtain rfl : scope = found := Except.ok.inj hfound
    obtain ⟨index, ty, hindex, -, htype, hlatest⟩ := hbound "x" (by decide)
    exact ⟨index, ty, hindex, htype, hlatest⟩
  · have hsplit : script.bindings = [("x", .zero), ("y", .isZero (.var 0 "x"))] ++
        ("x", .abs "z" .int (.var 1 "y")) :: [] := rfl
    exact scope_context_aligned.2 htypes hsplit (by decide)

end Extension

end TypedLambda
