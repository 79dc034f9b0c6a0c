import TypedLambda.Proofs.Shuffles
import TypedLambda.Proofs.TypeEquality

/-!
# Syntax up to the order of tables

`Ty.Reordered` relates types that differ in the order of labels only, and `Term.Rearranged`
terms that differ in the order of tuple fields, of case branches and of the labels in their
types. The second may also let names differ: `names` says which names may stand for which.
Keys of branches, labels of tags and the order inside of patterns are the same on both
sides. All related tables are mappings.

On types without foreign nodes, `Ty.Reordered` is the equality `Ty.Alike` that the checker
works with.
-/

namespace TypedLambda

/-! ## Types -/

namespace Ty

/-- The types differ in the order of labels only. -/
inductive Reordered : Ty → Ty → Prop
  | bool : Reordered .bool .bool
  | int : Reordered .int .int
  | unit : Reordered .unit .unit
  | base {name : String} : Reordered (.base name) (.base name)
  | arrow {p q r s : Ty} : Reordered p q → Reordered r s → Reordered (.arrow p r) (.arrow q s)
  | product {fs gs : List (String × Ty)} : Table.Shuffled Reordered fs gs →
      Reordered (.product fs) (.product gs)
  | sum {fs gs : List (String × Ty)} : Table.Shuffled Reordered fs gs →
      Reordered (.sum fs) (.sum gs)
  | foreign : Reordered .foreign .foreign

theorem Reordered.refl {a : Ty} (h : a.distinct = true) : Reordered a a := by
  induction a with
  | bool => exact .bool
  | int => exact .int
  | unit => exact .unit
  | base name => exact .base
  | arrow param result ihp ihr =>
      rw [distinct_arrow] at h
      exact .arrow (ihp h.1) (ihr h.2)
  | product fields ih =>
      rw [distinct_product] at h
      exact .product (.refl h.1 fun entry hmem => ih entry hmem (h.2 entry hmem))
  | sum variants ih =>
      rw [distinct_sum] at h
      exact .sum (.refl h.1 fun entry hmem => ih entry hmem (h.2 entry hmem))
  | foreign => exact .foreign

theorem Reordered.symm {a b : Ty} (h : Reordered a b) : Reordered b a := by
  induction a generalizing b with
  | bool | int | unit | base | foreign =>
      cases h
      constructor
  | arrow param result ihp ihr =>
      cases h with
      | arrow hp hr => exact .arrow (ihp hp) (ihr hr)
  | product fields ih =>
      cases h with
      | product hfields => exact .product (hfields.flip fun entry hmem _ => ih entry hmem)
  | sum variants ih =>
      cases h with
      | sum hvariants => exact .sum (hvariants.flip fun entry hmem _ => ih entry hmem)

theorem alikeTables_iff_shuffled {fs gs : List (String × Ty)} :
    AlikeTables fs gs ↔ Table.Shuffled Alike fs gs := by
  rw [Table.shuffled_iff]
  exact ⟨fun h => ⟨h.left, h.right, h.agree⟩, fun h => ⟨h.1, h.2.1, h.2.2⟩⟩

theorem Alike.reordered {a b : Ty} (h : Alike a b) : Reordered a b := by
  induction a generalizing b with
  | bool =>
      rw [alike_bool_iff.1 h]
      exact .bool
  | int =>
      rw [alike_int_iff.1 h]
      exact .int
  | unit =>
      rw [alike_unit_iff.1 h]
      exact .unit
  | base name =>
      rw [alike_base_iff.1 h]
      exact .base
  | arrow param result ihp ihr =>
      obtain ⟨q, s, rfl, hp, hr⟩ := alike_arrow_iff.1 h
      exact .arrow (ihp hp) (ihr hr)
  | product fields ih =>
      obtain ⟨gs, rfl, htables⟩ := alike_product_iff.1 h
      have hshuffled := alikeTables_iff_shuffled.1 htables
      exact .product (hshuffled.imp fun entry hmem _ => ih entry hmem)
  | sum variants ih =>
      obtain ⟨gs, rfl, htables⟩ := alike_sum_iff.1 h
      have hshuffled := alikeTables_iff_shuffled.1 htables
      exact .sum (hshuffled.imp fun entry hmem _ => ih entry hmem)
  | foreign => exact absurd h not_alike_foreign

theorem Reordered.alike {allowed : String → Bool} {a b : Ty}
    (hallowed : a.permitted allowed = true) (h : Reordered a b) : Alike a b := by
  induction a generalizing b with
  | bool =>
      cases h
      exact alike_bool_iff.2 rfl
  | int =>
      cases h
      exact alike_int_iff.2 rfl
  | unit =>
      cases h
      exact alike_unit_iff.2 rfl
  | base name =>
      cases h
      exact alike_base_iff.2 rfl
  | arrow param result ihp ihr =>
      simp only [permitted, Bool.and_eq_true] at hallowed
      cases h with
      | @arrow _ q _ s hp hr =>
          exact alike_arrow_iff.2 ⟨q, s, rfl, ihp hallowed.1 hp, ihr hallowed.2 hr⟩
  | product fields ih =>
      simp only [permitted, permittedEntries_iff] at hallowed
      cases h with
      | @product _ gs hfields =>
          have hshuffled := hfields.imp fun entry hmem _ => ih entry hmem (hallowed entry hmem)
          exact alike_product_iff.2 ⟨gs, rfl, alikeTables_iff_shuffled.2 hshuffled⟩
  | sum variants ih =>
      simp only [permitted, permittedEntries_iff] at hallowed
      cases h with
      | @sum _ gs hvariants =>
          have hshuffled := hvariants.imp fun entry hmem _ => ih entry hmem (hallowed entry hmem)
          exact alike_sum_iff.2 ⟨gs, rfl, alikeTables_iff_shuffled.2 hshuffled⟩
  | foreign => cases hallowed

theorem Reordered.permitted {allowed : String → Bool} {a b : Ty} (h : Reordered a b)
    (hallowed : a.permitted allowed = true) : b.permitted allowed = true := by
  have hentries : ∀ {fs gs : List (String × Ty)}, Table.Shuffled Reordered fs gs →
      (∀ entry ∈ fs, ∀ {b}, Reordered entry.2 b → entry.2.permitted allowed = true →
        b.permitted allowed = true) →
      permittedEntries allowed fs = true → permittedEntries allowed gs = true := by
    intro fs gs hshuffled ih hfs
    rw [permittedEntries_iff] at hfs ⊢
    intro entry hmem
    obtain ⟨ty, hty, hreordered⟩ := hshuffled.exists_of_mem_right hmem
    exact ih _ hty hreordered (hfs _ hty)
  induction a generalizing b with
  | bool | int | unit | base | foreign =>
      cases h
      exact hallowed
  | arrow param result ihp ihr =>
      simp only [Ty.permitted, Bool.and_eq_true] at hallowed
      cases h with
      | arrow hp hr =>
          simp only [Ty.permitted, Bool.and_eq_true]
          exact ⟨ihp hp hallowed.1, ihr hr hallowed.2⟩
  | product fields ih =>
      cases h with
      | product hfields => exact hentries hfields ih hallowed
  | sum variants ih =>
      cases h with
      | sum hvariants => exact hentries hvariants ih hallowed

end Ty

/-! ## Patterns -/

namespace Pattern

/-- The patterns differ in names only, as far as `names` lets them. -/
inductive Renamed (names : String → String → Prop) : Pattern → Pattern → Prop
  | var {n m : String} : names n m → Renamed names (.var n) (.var m)
  | record {fs gs : List (String × Pattern)} : Table.InStep (fun _ => Renamed names) fs gs →
      Renamed names (.record fs) (.record gs)
  | foreign : Renamed names .foreign .foreign

variable {names : String → String → Prop} {p q : Pattern}

theorem Renamed.refl (hnames : ∀ n, names n n) (p : Pattern) : Renamed names p p := by
  induction p with
  | var name => exact .var (hnames name)
  | record fields ih => exact .record (.refl ih)
  | foreign => exact .foreign

theorem Renamed.symm (h : Renamed names p q) : Renamed (fun n m => names m n) q p := by
  induction p generalizing q with
  | var name =>
      cases h with
      | var hname => exact .var hname
  | record fields ih =>
      cases h with
      | record hfields =>
          refine .record ?_
          induction hfields with
          | nil => exact .nil
          | cons hhead _ ihrest =>
              rw [List.forall_mem_cons] at ih
              exact .cons (ih.1 hhead) (ihrest ih.2)
  | foreign =>
      cases h
      exact .foreign

theorem Renamed.length?_eq (h : Renamed names p q) : p.length? = q.length? := by
  induction p generalizing q with
  | var name =>
      cases h
      rfl
  | record fields ih =>
      cases h with
      | record hfields =>
          rw [length?, length?]
          induction hfields with
          | nil => rfl
          | cons hhead _ ihrest =>
              rw [List.forall_mem_cons] at ih
              rw [fieldLength?, fieldLength?, ih.1 hhead, ihrest ih.2]
  | foreign =>
      cases h
      rfl

end Pattern

/-! ## Terms -/

mutual

/-- The terms differ in the order of fields, branches and labels, and in names as far as
`names` lets them. -/
inductive Term.Rearranged (names : String → String → Prop) : Term → Term → Prop
  | unit : Term.Rearranged names .unit .unit
  | bool {value : Bool} : Term.Rearranged names (.bool value) (.bool value)
  | zero : Term.Rearranged names .zero .zero
  | succ {t u : Term} : Term.Rearranged names t u → Term.Rearranged names (.succ t) (.succ u)
  | pred {t u : Term} : Term.Rearranged names t u → Term.Rearranged names (.pred t) (.pred u)
  | isZero {t u : Term} : Term.Rearranged names t u →
      Term.Rearranged names (.isZero t) (.isZero u)
  | var {index : Int} {n m : String} : names n m →
      Term.Rearranged names (.var index n) (.var index m)
  | abs {n m : String} {a b : Ty} {t u : Term} : names n m → a.Reordered b →
      Term.Rearranged names t u → Term.Rearranged names (.abs n a t) (.abs m b u)
  | app {f g t u : Term} : Term.Rearranged names f g → Term.Rearranged names t u →
      Term.Rearranged names (.app f t) (.app g u)
  | ite {c d t u e f : Term} : Term.Rearranged names c d → Term.Rearranged names t u →
      Term.Rearranged names e f → Term.Rearranged names (.ite c t e) (.ite d u f)
  | tuple {fs gs : List (String × Term)} : Table.Shuffled (Term.Rearranged names) fs gs →
      Term.Rearranged names (.tuple fs) (.tuple gs)
  | letIn {p q : Pattern} {v w t u : Term} : p.Renamed names q → Term.Rearranged names v w →
      Term.Rearranged names t u → Term.Rearranged names (.letIn p v t) (.letIn q w u)
  | tag {label : String} {t u : Term} {a b : Ty} : Term.Rearranged names t u → a.Reordered b →
      Term.Rearranged names (.tag label t a) (.tag label u b)
  | case {s t : Term} {bs cs : List (String × Branch Term)} : Term.Rearranged names s t →
      Table.Shuffled (Branch.Rearranged names) bs cs →
      Term.Rearranged names (.case s bs) (.case t cs)
  | fix {t u : Term} : Term.Rearranged names t u → Term.Rearranged names (.fix t) (.fix u)
  | foreign : Term.Rearranged names .foreign .foreign

inductive Branch.Rearranged (names : String → String → Prop) :
    Branch Term → Branch Term → Prop
  | mk {b c : Branch Term} : names b.label c.label → names b.name c.name →
      Term.Rearranged names b.body c.body → Branch.Rearranged names b c

end

theorem Branch.Rearranged.body {names : String → String → Prop} {b c : Branch Term}
    (h : b.Rearranged names c) : b.body.Rearranged names c.body := by
  cases h with
  | mk _ _ hbody => exact hbody

namespace Term

variable {names : String → String → Prop} {t u : Term}

theorem Rearranged.refl (hnames : ∀ n, names n n) (h : t.distinct = true) :
    Rearranged names t t := by
  induction t with
  | unit => exact .unit
  | bool value => exact .bool
  | zero => exact .zero
  | succ term ih => exact .succ (ih h)
  | pred term ih => exact .pred (ih h)
  | isZero term ih => exact .isZero (ih h)
  | var index name => exact .var (hnames name)
  | abs name ty body ih =>
      simp only [distinct, Bool.and_eq_true] at h
      exact .abs (hnames name) (.refl h.1) (ih h.2)
  | app f a ihf iha =>
      simp only [distinct, Bool.and_eq_true] at h
      exact .app (ihf h.1) (iha h.2)
  | ite condition yes no ihc ihy ihn =>
      simp only [distinct, Bool.and_eq_true] at h
      exact .ite (ihc h.1.1) (ihy h.1.2) (ihn h.2)
  | tuple fields ih =>
      simp only [distinct, Bool.and_eq_true, decide_eq_true_eq, distinctFields_iff] at h
      exact .tuple (.refl h.1 fun entry hmem => ih entry hmem (h.2 entry hmem))
  | letIn pattern value body ihv ihb =>
      simp only [distinct, Bool.and_eq_true] at h
      exact .letIn (.refl hnames pattern) (ihv h.1.2) (ihb h.2)
  | tag label payload ty ih =>
      simp only [distinct, Bool.and_eq_true] at h
      exact .tag (ih h.1) (.refl h.2)
  | case scrutinee branches ihs ihb =>
      simp only [distinct, Bool.and_eq_true, decide_eq_true_eq, distinctBranches_iff] at h
      refine .case (ihs h.1.1) (.refl h.1.2 fun entry hmem => ?_)
      exact .mk (hnames _) (hnames _) (ihb entry hmem (h.2 entry hmem))
  | fix term ih => exact .fix (ih h)
  | foreign => exact .foreign

theorem Rearranged.symm (h : Rearranged names t u) :
    Rearranged (fun n m => names m n) u t := by
  induction t generalizing u with
  | unit | bool | zero | foreign =>
      cases h
      constructor
  | succ term ih =>
      cases h with
      | succ hterm => exact .succ (ih hterm)
  | pred term ih =>
      cases h with
      | pred hterm => exact .pred (ih hterm)
  | isZero term ih =>
      cases h with
      | isZero hterm => exact .isZero (ih hterm)
  | var index name =>
      cases h with
      | var hname => exact .var hname
  | abs name ty body ih =>
      cases h with
      | abs hname hty hbody => exact .abs hname hty.symm (ih hbody)
  | app f a ihf iha =>
      cases h with
      | app hf ha => exact .app (ihf hf) (iha ha)
  | ite condition yes no ihc ihy ihn =>
      cases h with
      | ite hc hy hn => exact .ite (ihc hc) (ihy hy) (ihn hn)
  | tuple fields ih =>
      cases h with
      | tuple hfields => exact .tuple (hfields.flip fun entry hmem _ => ih entry hmem)
  | letIn pattern value body ihv ihb =>
      cases h with
      | letIn hpattern hvalue hbody => exact .letIn hpattern.symm (ihv hvalue) (ihb hbody)
  | tag label payload ty ih =>
      cases h with
      | tag hpayload hty => exact .tag (ih hpayload) hty.symm
  | case scrutinee branches ihs ihb =>
      cases h with
      | case hscrutinee hbranches =>
          refine .case (ihs hscrutinee) (hbranches.flip fun entry hmem branch hbranch => ?_)
          cases hbranch with
          | mk hlabel hname hbody => exact .mk hlabel hname (ihb entry hmem hbody)
  | fix term ih =>
      cases h with
      | fix hterm => exact .fix (ih hterm)

end Term

end TypedLambda
