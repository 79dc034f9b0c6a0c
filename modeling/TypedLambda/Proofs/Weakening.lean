import TypedLambda.Proofs.TypedSubstitution

/-!
# Weakening and strengthening

New variables may come in at any index of a context. A term that is shifted over them keeps its
type, and a shifted term that has a type had it before: the new variables are not used. The rule
for a binder extends both contexts alike, so what has to be known of them is `Context.Widens`, which
speaks of look-up only. Nothing depends on the indices being without holes.
-/

namespace TypedLambda

namespace Context

/-- Bind `types[i]` at index `c + i`. The indices from `c` on move out by the number of types, and
those below stay. -/
def insert (Γ : Context) (c : Nat) (types : List Ty) : Context :=
  let fresh := (types.zipIdx c).map fun (ty, i) => ((i : Int), ty)
  let moved := Γ.vars.map fun (index, ty) =>
    (if index < c then index else index + types.length, ty)
  { Γ with vars := fresh ++ moved }

theorem widens_insert (Γ : Context) (c : Nat) (types : List Ty) :
    Widens types.length c Γ (Γ.insert c types) := by
  let move : Int → Int := fun index => if index < c then index else index + types.length
  have hinjective : Function.Injective move := by
    intro i j hij
    simp only [move] at hij
    split at hij <;> split at hij <;> omega
  refine ⟨rfl, fun index => ?_⟩
  have hmoved : (Γ.vars.map fun (index, ty) => (move index, ty)).lookup (move index) =
      Γ.lookup? index := Table.lookup_map_keys hinjective index Γ.vars
  have hfresh : ((types.zipIdx c).map fun (ty, i) => ((i : Int), ty)).lookup (move index) =
      none := by
    rw [lookup_fresh]
    by_cases hlt : index < c
    · have hbelow : ¬ (c : Int) ≤ index := by omega
      simp only [move, hlt, if_true, hbelow, if_false]
    · have hpast : types.length ≤ (index + types.length - c).toNat := by omega
      simp only [move, hlt, if_false, List.getElem?_eq_none hpast, ite_self]
  show (_ ++ _ : List (Int × Ty)).lookup (move index) = _
  rw [List.lookup_append, hfresh, hmoved]
  rfl

end Context

namespace Term

variable {detect : Bool}

/-- New variables come and go without a change of types. A term has a type if and only if it can
be shifted over new variables and has that very type among them. -/
theorem infer_insert_iff {Γ : Context} (c : Nat) (types : List Ty) {t : Term}
    (ht : t.distinct = true) {T : Ty} :
    t.infer detect Γ = .ok T ↔
      ∃ u, t.shift types.length c = .ok u ∧ u.infer detect (Γ.insert c types) = .ok T := by
  have hmoved : (t.moved types.length c).infer detect (Γ.insert c types) = .ok T ↔
      t.infer detect Γ = .ok T := infer_shift_iff (Γ.widens_insert c types) t
  constructor
  · intro h
    exact ⟨_, shift_eq_ok (known_of_infer ht h) types.length c, hmoved.2 h⟩
  · intro h
    obtain ⟨u, hu, hT⟩ := h
    rw [eq_moved_of_shift hu] at hT
    exact hmoved.1 hT

/-- Two variables come in below the second of a context with holes, over a let and a case. -/
theorem infer_insert_iff_sparse :
    let Γ : Context := ⟨[(0, .base "N"), (3, .sum [("some", .base "N"), ("none", .unit)])],
      [("N", .int)], []⟩
    let t : Term := .letIn (.record [("a", .var "a"), ("b", .var "b")])
      (.tuple [("a", .var 0 "n"), ("b", .var 3 "s")])
      (.case (.var 1 "b")
        [("some", ⟨"some", "x", .app (.abs "y" (.base "N") (.var 0 "y")) (.var 3 "n")⟩),
        ("none", ⟨"none", "u", .var 1 "a"⟩)])
    t.infer true Γ = .ok .int ∧ ∃ u, t.shift 2 1 = .ok u ∧
      u.infer true (Γ.insert 1 [.unit, .base "M"]) = .ok .int := by
  intro Γ t
  have hT : t.infer true Γ = .ok .int := rfl
  exact ⟨hT, (infer_insert_iff 1 [.unit, .base "M"] (by decide)).1 hT⟩

end Term

end TypedLambda
