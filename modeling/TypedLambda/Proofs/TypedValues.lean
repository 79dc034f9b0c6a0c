import TypedLambda.Proofs.Reduction
import TypedLambda.Proofs.TypedSubstitution

/-!
# Values and their types

The type of a value decides its form, also under a context with variables, and the types of its
parts are those of the type (`Term.canonical_forms`). A pattern that the checker has let meet the
type of a value takes that value apart, and the parts have the types that the checker has bound.
-/

namespace TypedLambda

def Ty.form : Ty → Term → Prop
  | .bool, v => ∃ value, v = .bool value
  | .int, v => v.isNumeral = true
  | .unit, v => v = .unit
  | .arrow _ _, v => ∃ name ty body, v = .abs name ty body
  | .product _, v => ∃ fields, v = .tuple fields
  | .sum _, v => ∃ label payload ty, v = .tag label payload ty
  -- a name that is left in a resolved type has no definition, and so no values
  | .base _, _ => False
  | .foreign, _ => False

variable {detect : Bool} {Γ : Context}

theorem Term.canonical {v : Term} {T : Ty} (hv : v.isValue = true)
    (h : v.infer detect Γ = .ok T) : T.form v := by
  cases v with
  | unit =>
      rw [infer_unit_iff.1 h]
      rfl
  | bool value =>
      rw [infer_bool_iff.1 h]
      exact ⟨value, rfl⟩
  | zero =>
      rw [infer_zero_iff.1 h]
      rfl
  | succ term =>
      rw [(infer_succ_iff.1 h).2]
      exact hv
  | abs name ty body =>
      obtain ⟨p, r, -, -, rfl⟩ := infer_abs_iff.1 h
      exact ⟨name, ty, body, rfl⟩
  | tuple fields =>
      obtain ⟨types, -, rfl⟩ := infer_tuple_iff.1 h
      exact ⟨fields, rfl⟩
  | tag label payload ty =>
      obtain ⟨variants, a, p, -, -, -, -, rfl⟩ := infer_tag_iff.1 h
      exact ⟨label, payload, ty, rfl⟩
  | _ => cases hv

/-! ## Canonical forms -/

namespace Term

theorem canonical_int {v : Term} (hv : v.isValue = true) (h : v.infer detect Γ = .ok .int) :
    ∃ n, v = numeral n ∧ (∀ m, v = numeral m → m = n) ∧ v.toNat? = some n ∧
      v.isNumeral = true ∧ v.text = Text.ofString (toString n) := by
  have hnumeral : v.isNumeral = true := canonical hv h
  obtain ⟨n, rfl⟩ := isNumeral_iff.1 hnumeral
  have hunique : ∀ m, numeral n = numeral m → m = n := fun m hm => (numeral_inj.1 hm).symm
  exact ⟨n, rfl, hunique, toNat?_numeral n, hnumeral, text_numeral n⟩

theorem canonical_bool {v : Term} (hv : v.isValue = true) (h : v.infer detect Γ = .ok .bool) :
    v = .bool true ∨ v = .bool false := by
  obtain ⟨value, rfl⟩ : ∃ value, v = .bool value := canonical hv h
  cases value with
  | true => exact .inl rfl
  | false => exact .inr rfl

theorem canonical_arrow {v : Term} {param result : Ty} (hv : v.isValue = true)
    (h : v.infer detect Γ = .ok (.arrow param result)) :
    ∃ name ty body, v = .abs name ty body ∧ Γ.resolve detect ty = .ok param ∧
      body.infer detect (Γ.extend [ty]) = .ok result := by
  obtain ⟨name, ty, body, rfl⟩ : ∃ name ty body, v = .abs name ty body := canonical hv h
  obtain ⟨p, r, hp, hr, heq⟩ := infer_abs_iff.1 h
  cases heq
  exact ⟨name, ty, body, rfl, hp, hr⟩

theorem canonical_product {v : Term} {types : List (String × Ty)} (hv : v.isValue = true)
    (h : v.infer detect Γ = .ok (.product types)) :
    ∃ fields, v = .tuple fields ∧ Table.keys fields = Table.keys types ∧
      Table.InStep (fun _ term ty => term.isValue = true ∧ term.infer detect Γ = .ok ty)
        fields types := by
  obtain ⟨fields, rfl⟩ : ∃ fields, v = .tuple fields := canonical hv h
  obtain ⟨_, hfields, heq⟩ := infer_tuple_iff.1 h
  cases heq
  rw [isValue_tuple_iff] at hv
  exact ⟨fields, rfl, hfields.keys_eq, hfields.imp fun entry hmem _ hty => ⟨hv entry hmem, hty⟩⟩

theorem canonical_sum {v : Term} {variants : List (String × Ty)} (hv : v.isValue = true)
    (h : v.infer detect Γ = .ok (.sum variants)) :
    ∃ label payload ty expected found, v = .tag label payload ty ∧
      variants.lookup label = some expected ∧ payload.isValue = true ∧
      payload.infer detect Γ = .ok found ∧ found.same expected = true := by
  obtain ⟨label, payload, ty, rfl⟩ : ∃ label payload ty, v = .tag label payload ty :=
    canonical hv h
  obtain ⟨_, expected, found, -, hlabel, hfound, hsame, heq⟩ := infer_tag_iff.1 h
  cases heq
  exact ⟨label, payload, ty, expected, found, rfl, hlabel, hv, hfound, hsame⟩

/-- The type of a value tells its form. A number is the numeral of exactly one number, which the
test for numerals, the reading of a number and the printer agree on; a truth value and unit are
what they are called; a function is an abstraction whose body has the type of the result. A record
is a tuple of values under just the labels of its type, and a variant is a tag with one of the
labels and a value of the type there. No value has a type that is a bare name. -/
theorem canonical_forms {v : Term} {T : Ty} (hv : v.isValue = true)
    (h : v.infer detect Γ = .ok T) :
    (T = .int → ∃ n, v = numeral n ∧ (∀ m, v = numeral m → m = n) ∧ v.toNat? = some n ∧
      v.isNumeral = true ∧ v.text = Text.ofString (toString n)) ∧
    (T = .bool → v = .bool true ∨ v = .bool false) ∧
    (T = .unit → v = .unit) ∧
    (∀ param result, T = .arrow param result → ∃ name ty body, v = .abs name ty body ∧
      Γ.resolve detect ty = .ok param ∧ body.infer detect (Γ.extend [ty]) = .ok result) ∧
    (∀ types, T = .product types → ∃ fields, v = .tuple fields ∧
      Table.keys fields = Table.keys types ∧
      Table.InStep (fun _ term ty => term.isValue = true ∧ term.infer detect Γ = .ok ty)
        fields types) ∧
    (∀ variants, T = .sum variants → ∃ label payload ty expected found,
      v = .tag label payload ty ∧ variants.lookup label = some expected ∧
      payload.isValue = true ∧ payload.infer detect Γ = .ok found ∧
      found.same expected = true) ∧
    ∀ name, T ≠ .base name := by
  refine ⟨?int, ?bool, ?unit, ?arrow, ?product, ?sum, ?base⟩
  case int =>
    rintro rfl
    exact canonical_int hv h
  case bool =>
    rintro rfl
    exact canonical_bool hv h
  case unit =>
    rintro rfl
    exact canonical hv h
  case arrow =>
    rintro param result rfl
    exact canonical_arrow hv h
  case product =>
    rintro types rfl
    exact canonical_product hv h
  case sum =>
    rintro variants rfl
    exact canonical_sum hv h
  case base =>
    rintro name rfl
    exact canonical hv h

theorem canonical_forms_open :
    let Γ : Context := ⟨[(0, .base "N")], [("N", .int), ("S", .sum [("l", .base "N")])], []⟩
    let number : Term := .succ (.succ .zero)
    let v : Term := .tuple [("a", number), ("f", .abs "z" (.base "N") (.var 1 "n")),
      ("s", .tag "l" (.succ .zero) (.base "S"))]
    let types : List (String × Ty) :=
      [("a", .int), ("f", .arrow .int .int), ("s", .sum [("l", .int)])]
    (∃ n, number = numeral n ∧ (∀ m, number = numeral m → m = n) ∧ number.toNat? = some n ∧
      number.isNumeral = true ∧ number.text = Text.ofString (toString n)) ∧
    ∃ fields, v = .tuple fields ∧ Table.keys fields = Table.keys types ∧
      Table.InStep (fun _ term ty => term.isValue = true ∧ term.infer true Γ = .ok ty)
        fields types := by
  intro Γ number v types
  have hnumber : number.infer true Γ = .ok .int := rfl
  have hv : v.infer true Γ = .ok (.product types) := rfl
  obtain ⟨hint, -⟩ := canonical_forms rfl hnumber
  obtain ⟨-, -, -, -, hproduct, -⟩ := canonical_forms rfl hv
  exact ⟨hint rfl, hproduct types rfl⟩

end Term

/-! ## Values under patterns -/

/-- A pattern that meets a type takes apart every term that is related to the type, if
what is related to a product is a tuple with related fields. The parts are related to the
types that the pattern binds. -/
theorem Pattern.destructure_of_bind {R : Term → Ty → Prop}
    (hresolved : ∀ {v A}, R v A → A.resolved Γ.aliases = true)
    (hproduct : ∀ {v entries}, R v (.product entries) → ∃ terms, v = .tuple terms ∧
      ∀ {label a}, entries.lookup label = some a →
        ∃ term, terms.lookup label = some term ∧ R term a)
    {pattern : Pattern} {v : Term} {A : Ty} {types : List Ty} (hv : R v A)
    (hbind : pattern.bind detect Γ A = .ok types) :
    ∃ bindings, pattern.destructure v = .ok bindings ∧
      List.Forall₂ (fun binding ty => R binding.2 ty) bindings types := by
  induction pattern generalizing v A types with
  | var name =>
      obtain ⟨r, hr, rfl⟩ := bind_var_iff.1 hbind
      obtain rfl := Context.eq_of_resolve (hresolved hv) hr
      exact ⟨[(name, v)], rfl, .cons hv .nil⟩
  | record patterns ih =>
      obtain ⟨entries, bound, hr, hbound, rfl⟩ := bind_record_iff.1 hbind
      obtain rfl := Context.eq_of_resolve (hresolved hv) hr
      obtain ⟨terms, rfl, hterms⟩ := hproduct hv
      rw [destructure]
      clear hbind hr hv
      induction hbound with
      | nil => exact ⟨[], rfl, .nil⟩
      | @cons field types rest _ head _ ihrest =>
          obtain ⟨label, pattern⟩ := field
          obtain ⟨a, ha, hbind⟩ := head
          rw [List.forall_mem_cons] at ih
          obtain ⟨term, hterm, hR⟩ := hterms ha
          obtain ⟨first, hfirst, hall⟩ := ih.1 hR hbind
          obtain ⟨others, hothers, hallrest⟩ := ihrest ih.2
          refine ⟨first ++ others, ?_, List.rel_append hall hallrest⟩
          rw [destructureFields, hterm]
          dsimp only
          rw [hfirst, hothers]
          rfl
  | foreign => exact absurd hbind bind_foreign_ne

theorem Term.destructure_typed {pattern : Pattern} {v : Term} {A : Ty} {types : List Ty}
    (hv : v.isValue = true) (hA : v.infer detect Γ = .ok A)
    (hbind : pattern.bind detect Γ A = .ok types) :
    ∃ bindings, pattern.destructure v = .ok bindings ∧
      List.Forall₂ (fun binding ty => binding.2.infer detect Γ = .ok ty) bindings types := by
  let R : Term → Ty → Prop := fun v A => v.isValue = true ∧ v.infer detect Γ = .ok A
  have hproduct : ∀ {v entries}, R v (.product entries) → ∃ terms, v = .tuple terms ∧
      ∀ {label a}, entries.lookup label = some a →
        ∃ term, terms.lookup label = some term ∧ R term a := by
    intro v entries h
    obtain ⟨terms, rfl, -, hterms⟩ := canonical_product h.1 h.2
    exact ⟨terms, rfl, fun ha => hterms.agree.right ha⟩
  have hresolved : ∀ {v A}, R v A → A.resolved Γ.aliases = true := fun h => resolved_of_infer h.2
  obtain ⟨bindings, hbindings, hall⟩ :=
    Pattern.destructure_of_bind hresolved hproduct ⟨hv, hA⟩ hbind
  exact ⟨bindings, hbindings, hall.imp fun _ _ h => h.2⟩

/-- A pattern that the checker lets meet the type of a value takes the value apart. It has as many
variables as the checker has bound types, and in its own order, whatever that of the labels is,
the bindings have the names of the variables and hold values of the types. -/
theorem Pattern.destructure_irrefutable {pattern : Pattern} {v : Term} {T : Ty} {types : List Ty}
    (hv : v.isValue = true) (hT : v.infer detect Γ = .ok T)
    (hbind : pattern.bind detect Γ T = .ok types) :
    ∃ bindings, pattern.destructure v = .ok bindings ∧
      pattern.variables? = some (bindings.map Prod.fst) ∧
      pattern.length? = some bindings.length ∧ types.length = bindings.length ∧
      ∀ {i : Nat} {name : String} {part : Term}, bindings[i]? = some (name, part) →
        part.isValue = true ∧ ∃ ty, types[i]? = some ty ∧ part.infer detect Γ = .ok ty := by
  obtain ⟨bindings, hbindings, htyped⟩ := Term.destructure_typed hv hT hbind
  have hvalues : ∀ binding ∈ bindings, binding.2.isValue = true :=
    @Term.destructure_parts (fun term => term.isValue = true)
      (fun {_} => Term.isValue_tuple_iff.1) _ _ _ hbindings hv
  refine ⟨bindings, hbindings, variables?_of_destructure hbindings,
    length?_of_destructure hbindings, htyped.length_eq.symm, ?_⟩
  intro i name part hpart
  refine ⟨hvalues _ (List.mem_of_getElem? hpart), ?_⟩
  obtain ⟨ty, hty, hinfer⟩ := getElem?_of_forall₂_right htyped.flip hpart
  exact ⟨ty, hty, hinfer⟩

theorem Pattern.destructure_irrefutable_nested :
    let Γ : Context := ⟨[(0, .base "N")], [("N", .int)], []⟩
    let pattern : Pattern := .record [("c", .record [("e", .var "x"), ("d", .var "y")]),
      ("a", .var "x")]
    let first : Term := .abs "z" (.base "N") (.var 1 "n")
    let second : Term := .tag "l" .zero (.sum [("l", .base "N"), ("m", .unit)])
    let v : Term := .tuple [("a", .succ .zero), ("b", .unit),
      ("c", .tuple [("d", second), ("e", first)])]
    let types : List Ty := [.arrow .int .int, .sum [("l", .int), ("m", .unit)], .int]
    ∃ bindings, pattern.destructure v = .ok bindings ∧
      pattern.variables? = some (bindings.map Prod.fst) ∧
      pattern.length? = some bindings.length ∧ types.length = bindings.length ∧
      ∀ {i : Nat} {name : String} {part : Term}, bindings[i]? = some (name, part) →
        part.isValue = true ∧ ∃ ty, types[i]? = some ty ∧ part.infer true Γ = .ok ty := by
  intro Γ pattern first second v types
  have hT : v.infer true Γ = .ok (.product [("a", .int), ("b", .unit),
    ("c", .product [("d", .sum [("l", .int), ("m", .unit)]), ("e", .arrow .int .int)])]) := rfl
  exact destructure_irrefutable rfl hT rfl

end TypedLambda
