import TypedLambda.Table

/-!
# Look-up in tables

Two views of a table are tied together here: its entries in order, and the partial
function that `List.lookup` makes of it. They say the same where no key stands twice.
`Table.Agree` compares two tables as partial functions, so it does not see their order;
`Table.InStep` compares them entry by entry.

A table whose entries are written over another keeps the first position of each key and the last
value, and tables that are written one after the other may be put together first.
-/

namespace TypedLambda.Table

variable {κ α β : Type}

@[simp] theorem keys_map (f : α → β) (table : List (κ × α)) :
    keys (table.map fun entry => (entry.1, f entry.2)) = keys table := by
  simp [keys]

/-- The tables have the same keys in the same order, and the entries of each key are
related. -/
inductive InStep (R : κ → α → β → Prop) : List (κ × α) → List (κ × β) → Prop
  | nil : InStep R [] []
  | cons {k : κ} {a : α} {b : β} {fs : List (κ × α)} {gs : List (κ × β)} :
      R k a b → InStep R fs gs → InStep R ((k, a) :: fs) ((k, b) :: gs)

namespace InStep

variable {R S : κ → α → β → Prop} {fs : List (κ × α)} {gs : List (κ × β)}

theorem keys_eq (h : InStep R fs gs) : keys fs = keys gs := by
  induction h with
  | nil => rfl
  | cons _ _ ih => simpa [keys] using ih

theorem imp (h : InStep R fs gs)
    (himp : ∀ entry ∈ fs, ∀ {b}, R entry.1 entry.2 b → S entry.1 entry.2 b) :
    InStep S fs gs := by
  induction h with
  | nil => exact .nil
  | cons hab _ ih =>
      rw [List.forall_mem_cons] at himp
      exact .cons (himp.1 hab) (ih himp.2)

theorem iff_of_iff (himp : ∀ entry ∈ fs, ∀ {b}, R entry.1 entry.2 b ↔ S entry.1 entry.2 b) :
    InStep R fs gs ↔ InStep S fs gs :=
  ⟨fun h => h.imp fun entry hmem _ => (himp entry hmem).1,
    fun h => h.imp fun entry hmem _ => (himp entry hmem).2⟩

theorem flip (h : InStep R fs gs) : InStep (fun k b a => R k a b) gs fs := by
  induction h with
  | nil => exact .nil
  | cons hab _ ih => exact .cons hab ih

theorem exists_of_mem (h : InStep R fs gs) {entry : κ × α} (hmem : entry ∈ fs) :
    ∃ b, R entry.1 entry.2 b := by
  induction h with
  | nil => cases hmem
  | @cons _ _ b _ _ hab _ ih =>
      rcases List.mem_cons.1 hmem with rfl | hrest
      · exact ⟨b, hab⟩
      · exact ih hrest

theorem exists_of_mem_right (h : InStep R fs gs) {entry : κ × β} (hmem : entry ∈ gs) :
    ∃ a, (entry.1, a) ∈ fs ∧ R entry.1 a entry.2 := by
  induction h with
  | nil => cases hmem
  | @cons _ a _ _ _ hab _ ih =>
      rcases List.mem_cons.1 hmem with rfl | hrest
      · exact ⟨a, List.mem_cons_self, hab⟩
      · obtain ⟨a', hmem', hab'⟩ := ih hrest
        exact ⟨a', List.mem_cons_of_mem _ hmem', hab'⟩

theorem iff_keys_eq {P : κ → β → Prop} :
    InStep (fun k (_ : α) b => P k b) fs gs ↔
      keys fs = keys gs ∧ ∀ entry ∈ gs, P entry.1 entry.2 := by
  constructor
  · intro h
    refine ⟨h.keys_eq, fun entry hmem => ?_⟩
    obtain ⟨_, -, hentry⟩ := h.exists_of_mem_right hmem
    exact hentry
  · intro h
    rcases h with ⟨hkeys, hall⟩
    induction gs generalizing fs with
    | nil =>
        obtain rfl : fs = [] := by simpa [keys] using hkeys
        exact .nil
    | cons entry rest ih =>
        cases fs with
        | nil => cases hkeys
        | cons first fs =>
            obtain ⟨k, a⟩ := first
            obtain ⟨rfl, hrest⟩ : k = entry.1 ∧ keys fs = keys rest := by simpa [keys] using hkeys
            rw [List.forall_mem_cons] at hall
            exact .cons hall.1 (ih hrest hall.2)

theorem forall_right {P : β → Prop} (h : InStep R fs gs)
    (himp : ∀ entry ∈ fs, ∀ {b}, R entry.1 entry.2 b → P b) : ∀ entry ∈ gs, P entry.2 := by
  induction h with
  | nil => simp
  | cons hab _ ih =>
      rw [List.forall_mem_cons] at himp ⊢
      exact ⟨himp.1 hab, ih himp.2⟩

theorem refl {R : κ → α → α → Prop} {fs : List (κ × α)}
    (h : ∀ entry ∈ fs, R entry.1 entry.2 entry.2) : InStep R fs fs := by
  induction fs with
  | nil => exact .nil
  | cons entry rest ih =>
      rw [List.forall_mem_cons] at h
      exact .cons h.1 (ih h.2)

theorem append {fs' : List (κ × α)} {gs' : List (κ × β)} (h : InStep R fs gs)
    (h' : InStep R fs' gs') : InStep R (fs ++ fs') (gs ++ gs') := by
  induction h with
  | nil => exact h'
  | cons hab _ ih => exact .cons hab ih

theorem exists_append {fs' : List (κ × α)} (h : InStep R (fs ++ fs') gs) :
    ∃ before after, gs = before ++ after ∧ InStep R fs before ∧ InStep R fs' after := by
  induction fs generalizing gs with
  | nil => exact ⟨[], gs, rfl, .nil, h⟩
  | cons entry rest ih =>
      cases h with
      | @cons k _ b _ _ hab hrest =>
          obtain ⟨before, after, rfl, hbefore, hafter⟩ := ih hrest
          exact ⟨(k, b) :: before, after, rfl, .cons hab hbefore, hafter⟩

theorem map_left_iff {γ : Type} (f : γ → α) {fs : List (κ × γ)} :
    InStep R (fs.map fun entry => (entry.1, f entry.2)) gs ↔
      InStep (fun k c b => R k (f c) b) fs gs := by
  induction fs generalizing gs with
  | nil =>
      constructor
      · intro h
        cases h
        exact .nil
      · intro h
        cases h
        exact .nil
  | cons entry rest ih =>
      constructor
      · intro h
        cases h with
        | cons hb hrest => exact .cons hb (ih.1 hrest)
      · intro h
        cases h with
        | cons hb hrest => exact .cons hb (ih.2 hrest)

theorem map_right {f : α → β} (h : ∀ entry ∈ fs, R entry.1 entry.2 (f entry.2)) :
    InStep R fs (fs.map fun entry => (entry.1, f entry.2)) := by
  induction fs with
  | nil => exact .nil
  | cons entry rest ih =>
      rw [List.forall_mem_cons] at h
      exact .cons h.1 (ih h.2)

theorem exists_between {γ : Type} {P : κ → α → γ → Prop} {Q : κ → γ → β → Prop}
    (h : InStep (fun k a b => ∃ c, P k a c ∧ Q k c b) fs gs) :
    ∃ middle, InStep P fs middle ∧ InStep Q middle gs := by
  induction h with
  | nil => exact ⟨[], .nil, .nil⟩
  | @cons k _ _ _ _ hab _ ih =>
      obtain ⟨c, hac, hcb⟩ := hab
      obtain ⟨rest, hleft, hright⟩ := ih
      exact ⟨(k, c) :: rest, .cons hac hleft, .cons hcb hright⟩

theorem trans {γ : Type} {S : κ → β → γ → Prop} {T : κ → α → γ → Prop} {hs : List (κ × γ)}
    (h₁ : InStep R fs gs) (h₂ : InStep S gs hs)
    (himp : ∀ {k a b c}, R k a b → S k b c → T k a c) : InStep T fs hs := by
  induction h₁ generalizing hs with
  | nil =>
      cases h₂
      exact .nil
  | cons hab _ ih =>
      cases h₂ with
      | cons hbc hrest => exact .cons (himp hab hbc) (ih hrest)

theorem exists_right (h : ∀ entry ∈ fs, ∃ b, R entry.1 entry.2 b) : ∃ gs, InStep R fs gs := by
  induction fs with
  | nil => exact ⟨[], .nil⟩
  | cons entry rest ih =>
      rw [List.forall_mem_cons] at h
      obtain ⟨b, hb⟩ := h.1
      obtain ⟨gs, hgs⟩ := ih h.2
      exact ⟨(entry.1, b) :: gs, .cons hb hgs⟩

end InStep

section
variable [BEq κ]

theorem lookup_map (f : α → β) (k : κ) (table : List (κ × α)) :
    (table.map fun entry => (entry.1, f entry.2)).lookup k = (table.lookup k).map f := by
  induction table with
  | nil => rfl
  | cons entry rest ih =>
      obtain ⟨l, a⟩ := entry
      simp only [List.map_cons, List.lookup_cons]
      cases k == l with
      | true => rfl
      | false => exact ih

/-! ## Tables as partial functions -/

/-- Each key stands in both tables or in neither, and its two entries are related. -/
structure Agree (R : α → β → Prop) (fs : List (κ × α)) (gs : List (κ × β)) : Prop where
  left : ∀ {k a}, fs.lookup k = some a → ∃ b, gs.lookup k = some b ∧ R a b
  right : ∀ {k b}, gs.lookup k = some b → ∃ a, fs.lookup k = some a ∧ R a b

namespace Agree

variable {R : α → β → Prop} {fs : List (κ × α)} {gs : List (κ × β)}

theorem imp {S : α → β → Prop} (h : Agree R fs gs)
    (himp : ∀ {k a b}, fs.lookup k = some a → gs.lookup k = some b → R a b → S a b) :
    Agree S fs gs := by
  constructor
  · intro k a hf
    obtain ⟨b, hg, hab⟩ := h.left hf
    exact ⟨b, hg, himp hf hg hab⟩
  · intro k b hg
    obtain ⟨a, hf, hab⟩ := h.right hg
    exact ⟨a, hf, himp hf hg hab⟩

theorem flip {S : β → α → Prop} (h : Agree R fs gs)
    (himp : ∀ {k a b}, fs.lookup k = some a → R a b → S b a) : Agree S gs fs := by
  constructor
  · intro k b hg
    obtain ⟨a, hf, hab⟩ := h.right hg
    exact ⟨a, hf, himp hf hab⟩
  · intro k a hf
    obtain ⟨b, hg, hab⟩ := h.left hf
    exact ⟨b, hg, himp hf hab⟩

theorem trans {γ : Type} {S : β → γ → Prop} {T : α → γ → Prop} {hs : List (κ × γ)}
    (h₁ : Agree R fs gs) (h₂ : Agree S gs hs)
    (himp : ∀ {k a b c}, fs.lookup k = some a → R a b → S b c → T a c) : Agree T fs hs := by
  constructor
  · intro k a hf
    obtain ⟨b, hg, hab⟩ := h₁.left hf
    obtain ⟨c, hh, hbc⟩ := h₂.left hg
    exact ⟨c, hh, himp hf hab hbc⟩
  · intro k c hh
    obtain ⟨b, hg, hbc⟩ := h₂.right hh
    obtain ⟨a, hf, hab⟩ := h₁.right hg
    exact ⟨a, hf, himp hf hab hbc⟩

end Agree

theorem InStep.agree {R : α → β → Prop} {fs : List (κ × α)} {gs : List (κ × β)}
    (h : InStep (fun _ => R) fs gs) : Agree R fs gs := by
  induction h with
  | nil => constructor <;> simp
  | @cons k a b fs gs hab _ ih =>
      constructor
      · intro l x hx
        rw [List.lookup_cons] at hx ⊢
        cases hkey : l == k with
        | true =>
            obtain rfl : a = x := by simpa [hkey] using hx
            exact ⟨b, rfl, hab⟩
        | false => exact ih.left (by simpa [hkey] using hx)
      · intro l x hx
        rw [List.lookup_cons] at hx ⊢
        cases hkey : l == k with
        | true =>
            obtain rfl : b = x := by simpa [hkey] using hx
            exact ⟨a, rfl, hab⟩
        | false => exact ih.right (by simpa [hkey] using hx)

end

/-! ## Entries and look-up -/

section
variable [BEq κ] [LawfulBEq κ]

theorem mem_of_lookup {k : κ} {a : α} {table : List (κ × α)}
    (h : table.lookup k = some a) : (k, a) ∈ table := by
  obtain ⟨before, after, rfl, -⟩ := List.lookup_eq_some_iff.1 h
  simp

theorem lookup_of_mem {k : κ} {a : α} {table : List (κ × α)} (nodup : (keys table).Nodup)
    (h : (k, a) ∈ table) : table.lookup k = some a := by
  induction table with
  | nil => simp at h
  | cons entry rest ih =>
      obtain ⟨l, b⟩ := entry
      obtain ⟨hfresh, hrest⟩ : l ∉ keys rest ∧ (keys rest).Nodup := by simpa [keys] using nodup
      rcases List.mem_cons.1 h with heq | hmem
      · cases heq
        exact List.lookup_cons_self
      · have hne : (k == l) = false := by
          rw [beq_eq_false_iff_ne]
          intro heq
          subst heq
          exact hfresh (List.mem_map.2 ⟨(k, a), hmem, rfl⟩)
        rw [List.lookup_cons, hne]
        exact ih hrest hmem

theorem InStep.lookup_left {R : κ → α → β → Prop} {fs : List (κ × α)} {gs : List (κ × β)}
    (h : InStep R fs gs) {k : κ} {a : α} (hk : fs.lookup k = some a) :
    ∃ b, gs.lookup k = some b ∧ R k a b := by
  induction h with
  | nil => cases hk
  | @cons l x y _ _ hxy _ ih =>
      rw [List.lookup_cons] at hk ⊢
      cases hkey : k == l with
      | true =>
          obtain rfl : k = l := by simpa using hkey
          obtain rfl : x = a := by simpa using hk
          exact ⟨y, rfl, hxy⟩
      | false => exact ih (by simpa [hkey] using hk)

theorem mem_keys_iff {k : κ} {table : List (κ × α)} :
    k ∈ keys table ↔ ∃ a, table.lookup k = some a := by
  rw [← has_eq_true_iff, ← lookup_isSome_eq_has, Option.isSome_iff_exists]

theorem lookup_map_keys {ι : Type} [BEq ι] [LawfulBEq ι] {f : κ → ι} (hf : Function.Injective f)
    (k : κ) (table : List (κ × α)) :
    (table.map fun entry => (f entry.1, entry.2)).lookup (f k) = table.lookup k := by
  induction table with
  | nil => rfl
  | cons entry rest ih =>
      obtain ⟨l, a⟩ := entry
      rw [List.map_cons, List.lookup_cons, List.lookup_cons]
      by_cases heq : k = l
      · subst heq
        simp
      · have hold : (k == l) = false := by simpa using heq
        have hnew : (f k == f l) = false := by simpa using hf.ne heq
        rw [hold, hnew]
        exact ih

theorem lookup_eq_some_iff_getElem? {k : κ} {a : α} {table : List (κ × α)} :
    table.lookup k = some a ↔
      ∃ i : Nat, table[i]? = some (k, a) ∧ ∀ j < i, (keys table)[j]? ≠ some k := by
  induction table with
  | nil => simp
  | cons entry rest ih =>
      obtain ⟨l, b⟩ := entry
      rw [List.lookup_cons]
      by_cases heq : k = l
      · subst heq
        simp only [BEq.rfl]
        constructor
        · intro h
          cases h
          exact ⟨0, rfl, by simp⟩
        · intro h
          obtain ⟨i, hi, hfirst⟩ := h
          cases i with
          | zero => simpa using hi
          | succ i => exact absurd rfl (hfirst 0 (Nat.succ_pos i))
      · have hbeq : (k == l) = false := by simpa using heq
        simp only [hbeq, ih]
        constructor
        · intro h
          obtain ⟨i, hi, hfirst⟩ := h
          refine ⟨i + 1, hi, fun j hj => ?_⟩
          cases j with
          | zero => simpa [keys] using Ne.symm heq
          | succ j => exact hfirst j (by omega)
        · intro h
          obtain ⟨i, hi, hfirst⟩ := h
          cases i with
          | zero =>
              have hhead : l = k ∧ b = a := by simpa using hi
              exact absurd hhead.1.symm heq
          | succ i => exact ⟨i, hi, fun j hj => hfirst (j + 1) (by omega)⟩

/-! ## Tables written over others -/

theorem lookup_merge_of_not_mem {k : κ} {old new : List (κ × α)} (h : k ∉ keys new) :
    (merge old new).lookup k = old.lookup k := by
  induction new generalizing old with
  | nil => rfl
  | cons entry rest ih =>
      obtain ⟨hne, hrest⟩ : k ≠ entry.1 ∧ k ∉ keys rest := by simpa [keys] using h
      have hbeq : (k == entry.1) = false := by simpa using hne
      rw [merge_cons, ih hrest, lookup_insert, hbeq]
      rfl

theorem insert_insert_self (k : κ) (a b : α) (table : List (κ × α)) :
    insert k a (insert k b table) = insert k a table := by
  induction table with
  | nil => exact insert_cons_self k a b []
  | cons entry rest ih =>
      obtain ⟨l, c⟩ := entry
      by_cases h : k = l
      · subst h
        rw [insert_cons_self, insert_cons_self, insert_cons_self]
      · rw [insert_cons_of_ne h, insert_cons_of_ne h, insert_cons_of_ne h, ih]

/-- A key that is present keeps its place, so it does not matter when its value is written. -/
theorem insert_insert_comm {k l : κ} (hne : k ≠ l) {table : List (κ × α)} (hk : k ∈ keys table)
    (a b : α) : insert k a (insert l b table) = insert l b (insert k a table) := by
  induction table with
  | nil => cases hk
  | cons entry rest ih =>
      obtain ⟨m, c⟩ := entry
      by_cases hkm : k = m
      · subst hkm
        rw [insert_cons_of_ne hne.symm, insert_cons_self, insert_cons_self,
          insert_cons_of_ne hne.symm]
      · have hrest : k ∈ keys rest := (List.mem_cons.1 hk).resolve_left hkm
        by_cases hlm : l = m
        · subst hlm
          rw [insert_cons_self, insert_cons_of_ne hkm, insert_cons_of_ne hkm, insert_cons_self]
        · rw [insert_cons_of_ne hlm, insert_cons_of_ne hkm, insert_cons_of_ne hkm,
            insert_cons_of_ne hlm, ih hrest]

theorem mem_keys_insert {k l : κ} {a : α} {table : List (κ × α)} :
    k ∈ keys (insert l a table) ↔ k = l ∨ k ∈ keys table := by
  rw [mem_keys_iff, mem_keys_iff]
  simp only [lookup_insert]
  by_cases h : k = l
  · simp [h]
  · have hbeq : (k == l) = false := by simpa using h
    simp [hbeq, h]

theorem insert_merge_comm {k : κ} (a : α) {old new : List (κ × α)} (hold : k ∈ keys old)
    (hnew : k ∉ keys new) : insert k a (merge old new) = merge (insert k a old) new := by
  induction new generalizing old with
  | nil => rfl
  | cons entry rest ih =>
      obtain ⟨hne, hrest⟩ : k ≠ entry.1 ∧ k ∉ keys rest := by simpa [keys] using hnew
      rw [merge_cons, merge_cons, ih (mem_keys_insert.2 (.inr hold)) hrest,
        insert_insert_comm hne hold]

theorem merge_insert (old : List (κ × α)) {new : List (κ × α)} (hnew : (keys new).Nodup) (k : κ)
    (a : α) : merge old (insert k a new) = insert k a (merge old new) := by
  induction new generalizing old with
  | nil => rfl
  | cons entry rest ih =>
      obtain ⟨l, b⟩ := entry
      obtain ⟨hfresh, hrest⟩ : l ∉ keys rest ∧ (keys rest).Nodup := by simpa [keys] using hnew
      by_cases h : k = l
      · subst h
        have hwritten : k ∈ keys (insert k b old) := mem_keys_insert.2 (.inl rfl)
        rw [insert_cons_self, merge_cons, merge_cons, insert_merge_comm a hwritten hfresh,
          insert_insert_self]
      · rw [insert_cons_of_ne h, merge_cons, merge_cons, ih _ hrest]

theorem merge_assoc (old : List (κ × α)) {middle : List (κ × α)} (h : (keys middle).Nodup)
    (new : List (κ × α)) : merge (merge old middle) new = merge old (merge middle new) := by
  induction new generalizing middle with
  | nil => rfl
  | cons entry rest ih =>
      rw [merge_cons, merge_cons, ← merge_insert old h, ih (nodup_keys_insert h entry.1 entry.2)]

theorem keys_merge (old : List (κ × α)) {new : List (κ × α)} (hnew : (keys new).Nodup) :
    keys (merge old new) = keys old ++ (keys new).filter fun k => !has k old := by
  induction new generalizing old with
  | nil => exact (List.append_nil _).symm
  | cons entry rest ih =>
      obtain ⟨l, b⟩ := entry
      obtain ⟨hfresh, hrest⟩ : l ∉ keys rest ∧ (keys rest).Nodup := by simpa [keys] using hnew
      have hother : ∀ k ∈ keys rest, (!has k (insert l b old)) = !has k old := by
        intro k hk
        have hne : (k == l) = false := by
          rw [beq_eq_false_iff_ne]
          rintro rfl
          exact hfresh hk
        rw [← lookup_isSome_eq_has, ← lookup_isSome_eq_has, lookup_insert, hne]
        rfl
      have hhead : keys ((l, b) :: rest) = l :: keys rest := rfl
      rw [merge_cons, ih _ hrest, List.filter_congr hother, keys_insert, hhead]
      cases hl : has l old with
      | true => simp [hl]
      | false => simp [hl]

theorem lookup_merge (old : List (κ × α)) {new : List (κ × α)} (hnew : (keys new).Nodup) (k : κ) :
    (merge old new).lookup k = (new.lookup k).or (old.lookup k) := by
  induction new generalizing old with
  | nil => rfl
  | cons entry rest ih =>
      obtain ⟨l, b⟩ := entry
      obtain ⟨hfresh, hrest⟩ : l ∉ keys rest ∧ (keys rest).Nodup := by simpa [keys] using hnew
      rw [merge_cons, ih _ hrest, lookup_insert, List.lookup_cons]
      by_cases h : k = l
      · subst h
        have hnone : rest.lookup k = none := by
          cases hfound : rest.lookup k with
          | none => rfl
          | some a => exact absurd (mem_keys_iff.2 ⟨a, hfound⟩) hfresh
        simp [hnone]
      · have hbeq : (k == l) = false := by simpa using h
        simp [hbeq]

end

end TypedLambda.Table
