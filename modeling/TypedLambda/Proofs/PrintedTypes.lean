import TypedLambda.Proofs.Forms

/-!
# Printed types

Two types are printed alike only if they are the same (`Ty.text_unambiguous`). Their names have to
be spelled without the punctuation of types, and no name may be spelled like a type that is built
in.

The printer leaves out all parentheses but those around the parameter of an arrow, so where a type
ends depends on its place. As a whole it ends at a comma or at a closing bracket, while the
parameter of an arrow ends at a blank as well. Both ways of standing in a text are carried through
one induction, with any text behind the type.
-/

namespace TypedLambda

/-! ## Names -/

def punctuation : List Char := [' ', ',', ':', '-', '>', '<', '(', ')', '\x7b', '\x7d']

/-- A character that is no punctuation, such as a letter, a digit or an underscore. -/
def isNameChar (c : Char) : Bool := !punctuation.contains c

def isName (name : String) : Bool := !name.toList.isEmpty && name.toList.all isNameChar

def builtIn : List String := ["bool", "int", "unit"]

def isTypeName (name : String) : Bool := isName name && !builtIn.contains name

def terminators : List Char := [',', ')', '>', '\x7d']

/-- No name goes on in the text. -/
def Stops (text : List Char) : Prop := ∀ c ∈ text.head?, isNameChar c = false

/-- Nothing in the text can belong to a type before it. -/
def Ends (text : List Char) : Prop := ∀ c ∈ text.head?, c ∈ terminators

theorem Ends.stops {text : List Char} (h : Ends text) : Stops text := by
  have hterminators : terminators.all (fun c => !isNameChar c) = true := by decide
  intro c hc
  simpa using List.all_eq_true.1 hterminators c (h c hc)

theorem ends_nil : Ends [] := fun _ hc => by cases hc

theorem stops_cons {c : Char} (h : isNameChar c = false) (text : List Char) : Stops (c :: text) := by
  intro d hd
  cases hd
  exact h

theorem ends_cons {c : Char} (h : c ∈ terminators) (text : List Char) : Ends (c :: text) := by
  intro d hd
  cases hd
  exact h

theorem name_append_inj {l m r s : List Char} (hl : ∀ c ∈ l, isNameChar c = true)
    (hm : ∀ c ∈ m, isNameChar c = true) (hr : Stops r) (hs : Stops s) (h : l ++ r = m ++ s) :
    l = m ∧ r = s := by
  induction l generalizing m with
  | nil =>
      cases m with
      | nil => exact ⟨rfl, h⟩
      | cons c m =>
          rw [List.nil_append] at h
          have hstop : isNameChar c = false := hr c (by rw [h]; rfl)
          rw [hm c List.mem_cons_self] at hstop
          cases hstop
  | cons c l ih =>
      cases m with
      | nil =>
          rw [List.nil_append] at h
          have hstop : isNameChar c = false := hs c (by rw [← h]; rfl)
          rw [hl c List.mem_cons_self] at hstop
          cases hstop
      | cons d m =>
          rw [List.forall_mem_cons] at hl hm
          obtain ⟨rfl, hrest⟩ := List.cons.inj h
          obtain ⟨rfl, htext⟩ := ih hl.2 hm.2 hrest
          exact ⟨rfl, htext⟩

namespace Ty

mutual

/-- The labels and names inside the type can be told from the punctuation around them, and every
node has a form. -/
def wellNamed : Ty → Bool
  | .base name => isTypeName name
  | .arrow param result => param.wellNamed && result.wellNamed
  | .product fields => wellNamedEntries fields
  | .sum variants => wellNamedEntries variants
  | .foreign => false
  | _ => true

def wellNamedEntries : List (String × Ty) → Bool
  | [] => true
  | (label, ty) :: rest => isName label && ty.wellNamed && wellNamedEntries rest

end

/-! ## Printed types as characters -/

def chars (ty : Ty) : List Char := ty.text.string.toList

def paramChars (ty : Ty) : List Char :=
  if ty.isArrow then '(' :: (ty.chars ++ [')']) else ty.chars

theorem exists_arrow {A : Ty} (h : A.isArrow = true) : ∃ param result, A = .arrow param result := by
  cases A with
  | arrow param result => exact ⟨param, result, rfl⟩
  | _ => cases h

theorem paramChars_of_not_isArrow {A : Ty} (h : A.isArrow = false) : A.paramChars = A.chars := by
  rw [paramChars, h]
  rfl

/-- What is printed behind the first entry of a record or variant type, with the bracket at its
end. -/
def restChars (close : Char) : List (String × Ty) → List Char
  | [] => [close]
  | (label, ty) :: rest =>
      [',', ' '] ++ label.toList ++ [':'] ++ ty.chars ++ restChars close rest

def entryChars (close : Char) : List (String × Ty) → List Char
  | [] => [close]
  | (label, ty) :: rest => label.toList ++ [':'] ++ ty.chars ++ restChars close rest

theorem chars_arrow (param result : Ty) :
    (arrow param result).chars = param.paramChars ++ [' ', '-', '>', ' '] ++ result.chars := by
  unfold chars paramChars
  rw [text]
  cases param.isArrow <;> simp [chars]

theorem join_entryTexts (close : Char) (entries : List (String × Ty)) :
    (Text.join ", " (entryTexts entries)).string.toList ++ [close] = entryChars close entries := by
  cases entries with
  | nil => rfl
  | cons entry rest =>
      obtain ⟨label, ty⟩ := entry
      rw [entryTexts, entryChars]
      induction rest generalizing label ty with
      | nil => simp [entryTexts, Text.join, restChars, chars]
      | cons next rest ih =>
          obtain ⟨label', ty'⟩ := next
          have htail := ih label' ty'
          rw [entryTexts, Text.join_cons_cons, restChars]
          simp only [Text.string_append, Text.string_ofString, String.toList_append,
            List.append_assoc] at htail ⊢
          rw [htail]
          simp [chars]

theorem chars_product (fields : List (String × Ty)) :
    (product fields).chars = '\x7b' :: entryChars '\x7d' fields := by
  rw [← join_entryTexts, chars, text]
  simp

theorem chars_sum (variants : List (String × Ty)) :
    (sum variants).chars = '<' :: entryChars '>' variants := by
  rw [← join_entryTexts, chars, text]
  simp

/-! ## How a printed type begins -/

def name? : Ty → Option String
  | .bool => some "bool"
  | .int => some "int"
  | .unit => some "unit"
  | .base name => some name
  | _ => none

def ofName (name : String) : Ty :=
  if name = "bool" then .bool
  else if name = "int" then .int
  else if name = "unit" then .unit
  else .base name

def opening : Ty → Option Char
  | .product _ => some '\x7b'
  | .sum _ => some '<'
  | .arrow _ _ => some '('
  | _ => none

theorem isTypeName_iff {name : String} :
    isTypeName name = true ↔
      isName name = true ∧ name ≠ "bool" ∧ name ≠ "int" ∧ name ≠ "unit" := by
  simp [isTypeName, builtIn]

theorem isName_iff {name : String} :
    isName name = true ↔ name.toList ≠ [] ∧ ∀ c ∈ name.toList, isNameChar c = true := by
  rw [isName, Bool.and_eq_true, List.all_eq_true]
  simp

section
variable {A B : Ty} {name : String}

theorem paramChars_of_name? (h : A.name? = some name) : A.paramChars = name.toList := by
  cases A with
  | bool | int | unit | base =>
      cases h
      rfl
  | _ => cases h

theorem isName_of_name? (hA : A.wellNamed = true) (h : A.name? = some name) :
    isName name = true := by
  cases A with
  | bool | int | unit =>
      cases h
      decide
  | base other =>
      cases h
      exact (isTypeName_iff.1 hA).1
  | _ => cases h

theorem eq_ofName_of_name? (hA : A.wellNamed = true) (h : A.name? = some name) :
    A = ofName name := by
  cases A with
  | bool | int | unit =>
      cases h
      rfl
  | base other =>
      cases h
      obtain ⟨-, hbool, hint, hunit⟩ := isTypeName_iff.1 hA
      rw [ofName, if_neg hbool, if_neg hint, if_neg hunit]
  | _ => cases h

theorem exists_name?_of_opening (hA : A.wellNamed = true) (h : A.opening = none) :
    ∃ name, A.name? = some name := by
  cases A with
  | bool | int | unit | base => exact ⟨_, rfl⟩
  | foreign => cases hA
  | _ => cases h

theorem opening_of_name? (h : A.name? = some name) : A.opening = none := by
  cases A with
  | bool | int | unit | base => rfl
  | _ => cases h

theorem head?_paramChars (hA : A.wellNamed = true) (text : List Char) :
    ((A.paramChars ++ text).head?.filter fun c => !isNameChar c) = A.opening := by
  cases hname : A.name? with
  | some name =>
      obtain ⟨hne, hall⟩ := isName_iff.1 (isName_of_name? hA hname)
      obtain ⟨c, rest, hchars⟩ := List.exists_cons_of_ne_nil hne
      have hc : isNameChar c = true := hall c (by rw [hchars]; exact List.mem_cons_self)
      rw [paramChars_of_name? hname, opening_of_name? hname, hchars]
      simp [hc]
  | none =>
      cases A with
      | product fields =>
          rw [paramChars_of_not_isArrow rfl, chars_product]
          rfl
      | sum variants =>
          rw [paramChars_of_not_isArrow rfl, chars_sum]
          rfl
      | arrow param result => rfl
      | foreign => cases hA
      | _ => cases hname

end

/-! ## How a printed type ends -/

/-- In front of texts of a kind, the type is told from any other one, and from the text. -/
def Legible (print : Ty → List Char) (Follows : List Char → Prop) (A : Ty) : Prop :=
  ∀ ⦃B : Ty⦄ ⦃r s : List Char⦄, B.wellNamed = true → Follows r → Follows s →
    print A ++ r = print B ++ s → A = B ∧ r = s

section
variable {A : Ty}

theorem opening_eq_of_append {B : Ty} {r s : List Char} (hA : A.wellNamed = true)
    (hB : B.wellNamed = true) (h : A.paramChars ++ r = B.paramChars ++ s) :
    A.opening = B.opening := by
  rw [← head?_paramChars hA r, h, head?_paramChars hB]

theorem legible_of_name? {name : String} (hA : A.wellNamed = true) (hname : A.name? = some name) :
    A.Legible paramChars Stops := by
  intro B r s hB hr hs h
  have hopening := opening_eq_of_append hA hB h
  rw [opening_of_name? hname] at hopening
  obtain ⟨name', hname'⟩ := exists_name?_of_opening hB hopening.symm
  rw [paramChars_of_name? hname, paramChars_of_name? hname'] at h
  have hchars := (isName_iff.1 (isName_of_name? hA hname)).2
  have hchars' := (isName_iff.1 (isName_of_name? hB hname')).2
  obtain ⟨heq, hrest⟩ := name_append_inj hchars hchars' hr hs h
  obtain rfl : name = name' := String.toList_injective heq
  exact ⟨(eq_ofName_of_name? hA hname).trans (eq_ofName_of_name? hB hname').symm, hrest⟩

/-- A type that is no arrow ends at a bracket or comma as it does at any punctuation. An arrow
would go on with a blank. -/
theorem Legible.whole (harrow : A.isArrow = false) (h : A.Legible paramChars Stops) :
    A.Legible chars Ends := by
  intro B r s hB hr hs hchars
  rw [← paramChars_of_not_isArrow harrow] at hchars
  cases hother : B.isArrow with
  | true =>
      obtain ⟨param, result, rfl⟩ := exists_arrow hother
      rw [wellNamed, Bool.and_eq_true] at hB
      rw [chars_arrow, List.append_assoc, List.append_assoc] at hchars
      obtain ⟨-, rfl⟩ := h hB.1 hr.stops (stops_cons (by decide) _) hchars
      exact absurd (hr ' ' rfl) (by decide)
  | false =>
      rw [← paramChars_of_not_isArrow hother] at hchars
      exact h hB hr.stops hs.stops hchars

theorem legible_arrow {param result : Ty} (hparam : param.Legible paramChars Stops)
    (hresult : result.Legible chars Ends) : (arrow param result).Legible chars Ends := by
  intro B r s hB hr hs h
  rw [chars_arrow, List.append_assoc, List.append_assoc] at h
  cases hother : B.isArrow with
  | true =>
      obtain ⟨param', result', rfl⟩ := exists_arrow hother
      rw [wellNamed, Bool.and_eq_true] at hB
      rw [chars_arrow, List.append_assoc, List.append_assoc] at h
      obtain ⟨rfl, htext⟩ :=
        hparam hB.1 (stops_cons (by decide) _) (stops_cons (by decide) _) h
      have hinner : result.chars ++ r = result'.chars ++ s := by simpa using htext
      obtain ⟨rfl, hrest⟩ := hresult hB.2 hr hs hinner
      exact ⟨rfl, hrest⟩
  | false =>
      rw [← paramChars_of_not_isArrow hother] at h
      obtain ⟨-, rfl⟩ := hparam hB (stops_cons (by decide) _) hs.stops h
      exact absurd (hs ' ' rfl) (by decide)

theorem Legible.param {param result : Ty} (hA : (arrow param result).wellNamed = true)
    (h : (arrow param result).Legible chars Ends) :
    (arrow param result).Legible paramChars Stops := by
  intro B r s hB _ _ htext
  have hopening := opening_eq_of_append hA hB htext
  cases B with
  | arrow param' result' =>
      have hinner : (arrow param result).chars ++ ([')'] ++ r) =
          (arrow param' result').chars ++ ([')'] ++ s) := by
        simpa [paramChars, isArrow] using htext
      obtain ⟨heq, hrest⟩ := h hB (ends_cons (by decide) r) (ends_cons (by decide) s) hinner
      exact ⟨heq, (List.cons.inj hrest).2⟩
  | _ => cases hopening

end

/-! ## Records and variants -/

theorem wellNamedEntries_iff {entries : List (String × Ty)} :
    wellNamedEntries entries = true ↔
      ∀ entry ∈ entries, isName entry.1 = true ∧ entry.2.wellNamed = true := by
  induction entries with
  | nil => simp [wellNamedEntries]
  | cons entry rest ih => simp [wellNamedEntries, ih]

section
variable {close : Char} {fs gs : List (String × Ty)} {r s : List Char}

theorem ends_restChars (hclose : close = '>' ∨ close = '\x7d') (entries : List (String × Ty))
    (text : List Char) : Ends (restChars close entries ++ text) := by
  cases entries with
  | nil => exact ends_cons (by rcases hclose with rfl | rfl <;> decide) text
  | cons entry rest => exact ends_cons (by decide) _

theorem entry_append_inj {e f : String × Ty} (he : isName e.1 = true ∧ e.2.Legible chars Ends)
    (hf : isName f.1 = true ∧ f.2.wellNamed = true) (hr : Ends r) (hs : Ends s)
    (h : e.1.toList ++ ([':'] ++ (e.2.chars ++ r)) = f.1.toList ++ ([':'] ++ (f.2.chars ++ s))) :
    e = f ∧ r = s := by
  obtain ⟨hlabel, htext⟩ := name_append_inj (isName_iff.1 he.1).2 (isName_iff.1 hf.1).2
    (stops_cons (by decide) _) (stops_cons (by decide) _) h
  obtain ⟨htype, hrest⟩ := he.2 hf.2 hr hs (List.cons.inj htext).2
  exact ⟨Prod.ext (String.toList_injective hlabel) htype, hrest⟩

theorem restChars_append_inj (hclose : close = '>' ∨ close = '\x7d')
    (hfs : ∀ entry ∈ fs, isName entry.1 = true ∧ entry.2.Legible chars Ends)
    (hgs : ∀ entry ∈ gs, isName entry.1 = true ∧ entry.2.wellNamed = true)
    (h : restChars close fs ++ r = restChars close gs ++ s) : fs = gs ∧ r = s := by
  have hcomma : close ≠ ',' := by rcases hclose with rfl | rfl <;> decide
  induction fs generalizing gs with
  | nil =>
      cases gs with
      | nil => exact ⟨rfl, List.append_cancel_left h⟩
      | cons entry rest => exact absurd (List.cons.inj h).1 hcomma
  | cons entry fs ih =>
      cases gs with
      | nil => exact absurd (List.cons.inj h).1.symm hcomma
      | cons entry' gs =>
          rw [List.forall_mem_cons] at hfs hgs
          simp only [restChars, List.append_assoc] at h
          obtain ⟨rfl, hrest⟩ := entry_append_inj hfs.1 hgs.1 (ends_restChars hclose fs r)
            (ends_restChars hclose gs s) (List.append_cancel_left h)
          obtain ⟨rfl, htext⟩ := ih hfs.2 hgs.2 hrest
          exact ⟨rfl, htext⟩

theorem entryChars_append_inj (hclose : close = '>' ∨ close = '\x7d')
    (hfs : ∀ entry ∈ fs, isName entry.1 = true ∧ entry.2.Legible chars Ends)
    (hgs : ∀ entry ∈ gs, isName entry.1 = true ∧ entry.2.wellNamed = true)
    (h : entryChars close fs ++ r = entryChars close gs ++ s) : fs = gs ∧ r = s := by
  have hbracket : isNameChar close = false := by rcases hclose with rfl | rfl <;> decide
  -- without entries the bracket stands where a label would begin
  have hempty : ∀ {entry : String × Ty} {rest : List (String × Ty)} {r s : List Char},
      isName entry.1 = true → [close] ++ r ≠ entryChars close (entry :: rest) ++ s := by
    intro entry rest r s hname htext
    obtain ⟨hne, hall⟩ := isName_iff.1 hname
    obtain ⟨c, label, hlabel⟩ := List.exists_cons_of_ne_nil hne
    have hc : isNameChar c = true := hall c (by rw [hlabel]; exact List.mem_cons_self)
    rw [entryChars, hlabel] at htext
    obtain ⟨rfl, -⟩ := List.cons.inj htext
    rw [hbracket] at hc
    cases hc
  cases fs with
  | nil =>
      cases gs with
      | nil => exact ⟨rfl, (List.cons.inj h).2⟩
      | cons entry' gs => exact absurd h (hempty (hgs entry' List.mem_cons_self).1)
  | cons entry fs =>
      cases gs with
      | nil => exact absurd h.symm (hempty (hfs entry List.mem_cons_self).1)
      | cons entry' gs =>
          refine restChars_append_inj hclose hfs hgs ?_
          simpa [restChars, entryChars] using h

theorem legible_product (hA : (product fs).wellNamed = true)
    (h : ∀ entry ∈ fs, entry.2.Legible chars Ends) : (product fs).Legible paramChars Stops := by
  intro B r s hB _ _ htext
  have hopening := opening_eq_of_append hA hB htext
  cases B with
  | product gs =>
      rw [paramChars_of_not_isArrow rfl, paramChars_of_not_isArrow rfl, chars_product,
        chars_product] at htext
      rw [wellNamed, wellNamedEntries_iff] at hA hB
      obtain ⟨rfl, hrest⟩ := entryChars_append_inj (.inr rfl)
        (fun entry hmem => ⟨(hA entry hmem).1, h entry hmem⟩) hB (List.cons.inj htext).2
      exact ⟨rfl, hrest⟩
  | _ => cases hopening

theorem legible_sum (hA : (sum fs).wellNamed = true)
    (h : ∀ entry ∈ fs, entry.2.Legible chars Ends) : (sum fs).Legible paramChars Stops := by
  intro B r s hB _ _ htext
  have hopening := opening_eq_of_append hA hB htext
  cases B with
  | sum gs =>
      rw [paramChars_of_not_isArrow rfl, paramChars_of_not_isArrow rfl, chars_sum,
        chars_sum] at htext
      rw [wellNamed, wellNamedEntries_iff] at hA hB
      obtain ⟨rfl, hrest⟩ := entryChars_append_inj (.inl rfl)
        (fun entry hmem => ⟨(hA entry hmem).1, h entry hmem⟩) hB (List.cons.inj htext).2
      exact ⟨rfl, hrest⟩
  | _ => cases hopening

end

/-! ## No two types are printed alike -/

section
variable {A B : Ty}

theorem legible (hA : A.wellNamed = true) :
    A.Legible paramChars Stops ∧ A.Legible chars Ends := by
  induction A with
  | bool | int | unit | base =>
      have hparam := legible_of_name? hA rfl
      exact ⟨hparam, hparam.whole rfl⟩
  | arrow param result ihp ihr =>
      have hparts := hA
      rw [wellNamed, Bool.and_eq_true] at hparts
      have hwhole := legible_arrow (ihp hparts.1).1 (ihr hparts.2).2
      exact ⟨hwhole.param hA, hwhole⟩
  | product fields ih =>
      have hfields := hA
      rw [wellNamed, wellNamedEntries_iff] at hfields
      have hparam := legible_product hA fun entry hmem => (ih entry hmem (hfields entry hmem).2).2
      exact ⟨hparam, hparam.whole rfl⟩
  | sum variants ih =>
      have hvariants := hA
      rw [wellNamed, wellNamedEntries_iff] at hvariants
      have hparam := legible_sum hA fun entry hmem => (ih entry hmem (hvariants entry hmem).2).2
      exact ⟨hparam, hparam.whole rfl⟩
  | foreign => cases hA

theorem complete_entryTexts {entries : List (String × Ty)}
    (h : ∀ entry ∈ entries, entry.2.text.complete = true) :
    (Text.join ", " (entryTexts entries)).complete = true := by
  rw [Text.complete_join, entryTexts_eq_map, List.all_map, List.all_eq_true]
  intro entry hmem
  simp [h entry hmem]

theorem complete_text (hA : A.wellNamed = true) : A.text.complete = true := by
  induction A with
  | bool | int | unit | base => rfl
  | arrow param result ihp ihr =>
      rw [wellNamed, Bool.and_eq_true] at hA
      rw [text]
      cases param.isArrow <;> simp [ihp hA.1, ihr hA.2]
  | product fields ih =>
      rw [wellNamed, wellNamedEntries_iff] at hA
      have hfields := complete_entryTexts fun entry hmem => ih entry hmem (hA entry hmem).2
      simp [text, hfields]
  | sum variants ih =>
      rw [wellNamed, wellNamedEntries_iff] at hA
      have hvariants := complete_entryTexts fun entry hmem => ih entry hmem (hA entry hmem).2
      simp [text, hvariants]
  | foreign => cases hA

/-- Types are printed alike only if they are the same, the order of their labels included. -/
theorem text_unambiguous (hA : A.wellNamed = true) (hB : B.wellNamed = true) :
    ∃ a b, A.text.string? = some a ∧ B.text.string? = some b ∧ (a = b ↔ A = B) := by
  refine ⟨A.text.string, B.text.string, ?_, ?_, ?_⟩
  · exact Text.string?_eq_some_iff.2 ⟨complete_text hA, rfl⟩
  · exact Text.string?_eq_some_iff.2 ⟨complete_text hB, rfl⟩
  · constructor
    · intro h
      have hchars : A.chars ++ [] = B.chars ++ [] := by rw [chars, chars, h]
      exact ((legible hA).2 hB ends_nil ends_nil hchars).1
    · rintro rfl
      rfl

/-- Two arrows that differ in nothing but the order of two fields, in a record inside of their
parameters. -/
theorem text_unambiguous_nested :
    let A : Ty := .arrow (.arrow (.base "N") (.product [("0", .int), ("f", .arrow .int .unit)]))
      (.sum [("l_1", .arrow .unit (.sum [])), ("r", .base "M")])
    let B : Ty := .arrow (.arrow (.base "N") (.product [("f", .arrow .int .unit), ("0", .int)]))
      (.sum [("l_1", .arrow .unit (.sum [])), ("r", .base "M")])
    ∃ a b, A.text.string? = some a ∧ B.text.string? = some b ∧ (a = b ↔ A = B) :=
  text_unambiguous (by decide) (by decide)

end

end Ty

end TypedLambda
