/-!
# Tables in insertion order

A table is a list of entries, read by `List.lookup`. Writing to a key that is present
keeps the entry where it stands and changes its value; a new key goes to the end.
-/

namespace TypedLambda.Table

variable {κ α : Type}

section
variable [BEq κ]

/-- Write `a` at `k`: in place if `k` has an entry, at the end otherwise. -/
def insert (k : κ) (a : α) : List (κ × α) → List (κ × α)
  | [] => [(k, a)]
  | (l, b) :: rest => if k == l then (l, a) :: rest else (l, b) :: insert k a rest

/-- The first table with every entry of the second written to it in turn. -/
def merge (old new : List (κ × α)) : List (κ × α) :=
  new.foldl (fun table entry => insert entry.1 entry.2 table) old

def ofList (entries : List (κ × α)) : List (κ × α) := merge [] entries

def has (k : κ) (table : List (κ × α)) : Bool := table.any fun entry => k == entry.1

theorem merge_cons (old : List (κ × α)) (entry : κ × α) (rest : List (κ × α)) :
    merge old (entry :: rest) = merge (insert entry.1 entry.2 old) rest := rfl

theorem lookup_isSome_eq_has (k : κ) (table : List (κ × α)) :
    (table.lookup k).isSome = has k table := by
  induction table with
  | nil => rfl
  | cons entry rest ih =>
      obtain ⟨l, a⟩ := entry
      by_cases h : k == l
      · simp [List.lookup_cons, has, h]
      · simp only [Bool.not_eq_true] at h
        simpa [List.lookup_cons, has, h] using ih

end

def keys (table : List (κ × α)) : List κ := table.map Prod.fst

/-- The items under the labels "0", "1", and so on. -/
def positional (items : List α) : List (String × α) :=
  items.zipIdx.map fun (item, i) => (toString i, item)

section
variable [BEq κ]

theorem keys_insert (k : κ) (a : α) (table : List (κ × α)) :
    keys (insert k a table) = if has k table then keys table else keys table ++ [k] := by
  induction table with
  | nil => rfl
  | cons entry rest ih =>
      obtain ⟨l, b⟩ := entry
      by_cases h : k == l
      · simp [insert, has, keys, h]
      · have ht : has k ((l, b) :: rest) = has k rest := by simp [has, h]
        have hi : insert k a ((l, b) :: rest) = (l, b) :: insert k a rest := by
          simp [insert, h]
        rw [ht, hi]
        show l :: keys (insert k a rest) = _
        rw [ih]
        split <;> rfl

end

section
variable [BEq κ] [LawfulBEq κ]

theorem insert_cons_self (k : κ) (a b : α) (rest : List (κ × α)) :
    insert k a ((k, b) :: rest) = (k, a) :: rest := by
  rw [insert, if_pos BEq.rfl]

theorem insert_cons_of_ne {k l : κ} (h : k ≠ l) (a b : α) (rest : List (κ × α)) :
    insert k a ((l, b) :: rest) = (l, b) :: insert k a rest := by
  rw [insert, if_neg (by simpa using h)]

theorem lookup_insert (k l : κ) (a : α) (table : List (κ × α)) :
    (insert k a table).lookup l = if l == k then some a else table.lookup l := by
  induction table with
  | nil => by_cases h : l == k <;> simp [insert, List.lookup_cons, h]
  | cons entry rest ih =>
      obtain ⟨m, b⟩ := entry
      by_cases hm : k = m
      · subst hm
        by_cases h : l == k <;> simp [insert, List.lookup_cons, h]
      · have hk : (k == m) = false := by simp [hm]
        simp only [insert, hk, List.lookup_cons]
        by_cases h : l = m
        · subst h
          have : (l == k) = false := by simpa using fun he => hm he.symm
          simp [this]
        · have hl : (l == m) = false := by simp [h]
          simp [List.lookup_cons, hl, ih]

theorem has_eq_true_iff {k : κ} {table : List (κ × α)} :
    has k table = true ↔ k ∈ keys table := by
  simp only [has, keys, List.any_eq_true, List.mem_map, beq_iff_eq]
  exact ⟨fun ⟨e, he, hk⟩ => ⟨e, he, hk.symm⟩, fun ⟨e, he, hk⟩ => ⟨e, he, hk.symm⟩⟩

theorem nodup_keys_insert {table : List (κ × α)} (h : (keys table).Nodup) (k : κ) (a : α) :
    (keys (insert k a table)).Nodup := by
  rw [keys_insert]
  split
  · exact h
  · rename_i hk
    have hn : k ∉ keys table := fun hm => hk (has_eq_true_iff.2 hm)
    refine List.nodup_append.2 ⟨h, by simp, ?_⟩
    intro l hl m hm
    obtain rfl : m = k := by simpa using hm
    rintro rfl
    exact hn hl

end

end TypedLambda.Table
