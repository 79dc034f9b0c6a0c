import TypedLambda.Term.Basic

/-!
# Typing contexts

A context gives types to variable indices, definitions to type names, and holds the named
terms of the top level in the order of their definition. Indices may have holes.
-/

namespace TypedLambda

structure Context where
  vars : List (Int × Ty) := []
  aliases : List (String × Ty) := []
  named : List (String × Term) := []

namespace Context

def size (Γ : Context) : Nat := Γ.vars.length

/-- The type bound at `index`, as it was written. -/
def lookup? (Γ : Context) (index : Int) : Option Ty := Γ.vars.lookup index

/-- Bind `types[i]` at index `i` and move every older index out by their number. An older
entry that would land on a new one (its index was negative) gives way to it. -/
def extend (Γ : Context) (types : List Ty) : Context :=
  let fresh := types.zipIdx.map fun (ty, i) => ((i : Int), ty)
  let moved := Γ.vars.map fun (index, ty) => (index + types.length, ty)
  { Γ with vars := fresh ++ moved.filter fun entry =>
      entry.1 < 0 || (types.length : Int) ≤ entry.1 }

def withAliases (Γ : Context) (new : List (String × Ty)) : Context :=
  { Γ with aliases := Table.merge Γ.aliases new }

def withNamed (Γ : Context) (named : List (String × Term)) : Context := { Γ with named }

def withoutNamed (Γ : Context) : Context := Γ.withNamed []

def define (Γ : Context) (name : String) (term : Term) : Context :=
  Γ.withNamed (Γ.named ++ [(name, term)])

def sortedVars (Γ : Context) : List (Int × Ty) :=
  Γ.vars.mergeSort fun a b => a.1 ≤ b.1

def text (Γ : Context) : Text :=
  let vars := Γ.sortedVars.map fun (entry : Int × Ty) =>
    "x" ++ toString entry.1 ++ ":" ++ entry.2.text
  let aliases := Γ.aliases.map fun (entry : String × Ty) => entry.1 ++ "=" ++ entry.2.text
  "Context(terms=[" ++ Text.join ", " vars ++ "], aliases=[" ++ Text.join ", " aliases ++ "])"

def same (Γ Δ : Context) : Bool :=
  sameTable Γ.vars Δ.vars && sameTable Γ.aliases Δ.aliases && sameNamed Γ.named Δ.named
where
  sameTable {κ : Type} [BEq κ] (fs gs : List (κ × Ty)) : Bool :=
    (fs.all fun entry => (gs.lookup entry.1).any entry.2.same) &&
      gs.all fun entry => Table.has entry.1 fs
  sameNamed : List (String × Term) → List (String × Term) → Bool
    | [], [] => true
    | (n, t) :: ts, (m, u) :: us => n == m && t.same u && sameNamed ts us
    | _, _ => false

end Context

end TypedLambda
