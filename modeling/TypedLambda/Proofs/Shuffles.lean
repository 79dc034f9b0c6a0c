import Mathlib.Data.List.Nodup
import TypedLambda.Proofs.Tables

/-!
# Tables in another order

`Table.Shuffled` relates two mappings that hold related entries under the same keys, in
whatever order. As partial functions such tables agree, and agreement is all there is to it:
`Table.shuffled_iff`. What one table goes through entry by entry, the other can follow.
-/

namespace TypedLambda.Table

variable {κ α β : Type}

/-- The second table holds an entry that is related to each entry of the first, under the
same key but at any place. No key stands twice. -/
inductive Shuffled (R : α → β → Prop) : List (κ × α) → List (κ × β) → Prop
  | nil : Shuffled R [] []
  | cons {k : κ} {a : α} {b : β} {fs : List (κ × α)} {before after : List (κ × β)} :
      R a b → k ∉ keys fs → Shuffled R fs (before ++ after) →
      Shuffled R ((k, a) :: fs) (before ++ (k, b) :: after)

theorem Shuffled.swap {R : α → β → Prop} {k l : κ} {a c : α} {b d : β} (hne : k ≠ l)
    (hab : R a b) (hcd : R c d) : Shuffled R [(k, a), (l, c)] [(l, d), (k, b)] := by
  have hrest : Shuffled R [(l, c)] ([(l, d)] ++ []) :=
    @Shuffled.cons κ α β R l c d [] [] [] hcd (by simp [keys]) .nil
  exact @Shuffled.cons κ α β R k a b [(l, c)] [(l, d)] [] hab (by simpa [keys] using hne) hrest

theorem Shuffled.map {α' β' : Type} {R : α → β → Prop} {S : α' → β' → Prop} {f : α → α'}
    {g : β → β'} (himp : ∀ {a b}, R a b → S (f a) (g b)) {fs : List (κ × α)} {gs : List (κ × β)}
    (h : Shuffled R fs gs) :
    Shuffled S (fs.map fun entry => (entry.1, f entry.2))
      (gs.map fun entry => (entry.1, g entry.2)) := by
  induction h with
  | nil => exact .nil
  | cons hab hk _ ih =>
      rw [List.map_append, List.map_cons]
      rw [List.map_append] at ih
      exact .cons (himp hab) (by rwa [keys_map]) ih

def total (f : α → Nat) : List (κ × α) → Nat
  | [] => 0
  | (_, a) :: rest => f a + total f rest

theorem total_append (f : α → Nat) (fs gs : List (κ × α)) :
    total f (fs ++ gs) = total f fs + total f gs := by
  induction fs with
  | nil => simp [total]
  | cons entry rest ih =>
      simp only [List.cons_append, total, ih]
      omega

theorem Shuffled.total_eq {R : α → β → Prop} {f : α → Nat} {g : β → Nat}
    (himp : ∀ {a b}, R a b → f a = g b) {fs : List (κ × α)} {gs : List (κ × β)}
    (h : Shuffled R fs gs) : total f fs = total g gs := by
  induction h with
  | nil => rfl
  | cons hab _ _ ih =>
      rw [total_append] at ih ⊢
      have heq := himp hab
      simp only [total]
      omega

theorem nodup_keys_middle {k : κ} {b : β} {before after : List (κ × β)} :
    (keys (before ++ (k, b) :: after)).Nodup ↔
      k ∉ keys (before ++ after) ∧ (keys (before ++ after)).Nodup := by
  simp only [keys, List.map_append, List.map_cons]
  rw [List.nodup_middle, List.nodup_cons]

section
variable [BEq κ] [LawfulBEq κ] {R : α → β → Prop} {fs : List (κ × α)} {gs : List (κ × β)}

/-! ## Shuffled tables as partial functions -/

theorem lookup_middle_of_ne {k l : κ} (h : l ≠ k) (b : β) (before after : List (κ × β)) :
    (before ++ (k, b) :: after).lookup l = (before ++ after).lookup l := by
  have hbeq : (l == k) = false := by simpa using h
  simp [List.lookup_append, List.lookup_cons, hbeq]

theorem lookup_middle_self {k : κ} {before : List (κ × β)} (h : k ∉ keys before) (b : β)
    (after : List (κ × β)) : (before ++ (k, b) :: after).lookup k = some b := by
  have hnone : before.lookup k = none := by
    by_contra hsome
    obtain ⟨c, hc⟩ := Option.ne_none_iff_exists'.1 hsome
    exact h (mem_keys_iff.2 ⟨c, hc⟩)
  simp [List.lookup_append, hnone]

theorem Agree.insert {k : κ} {a : α} {b : β} {before after : List (κ × β)}
    (h : Agree R fs (before ++ after)) (hab : R a b) (hk : k ∉ keys before) :
    Agree R ((k, a) :: fs) (before ++ (k, b) :: after) := by
  have hself := lookup_middle_self hk b after
  constructor
  · intro l x hx
    by_cases hl : l = k
    · subst hl
      obtain rfl : a = x := by simpa using hx
      exact ⟨b, hself, hab⟩
    · have hbeq : (l == k) = false := by simpa using hl
      rw [List.lookup_cons, hbeq] at hx
      rw [lookup_middle_of_ne hl]
      exact h.left hx
  · intro l y hy
    by_cases hl : l = k
    · subst hl
      obtain rfl : b = y := Option.some.inj (hself.symm.trans hy)
      exact ⟨a, by simp, hab⟩
    · have hbeq : (l == k) = false := by simpa using hl
      rw [lookup_middle_of_ne hl] at hy
      rw [List.lookup_cons, hbeq]
      exact h.right hy

theorem Agree.erase {k : κ} {a : α} {b : β} {before after : List (κ × β)}
    (h : Agree R ((k, a) :: fs) (before ++ (k, b) :: after)) (hf : k ∉ keys fs)
    (hg : k ∉ keys (before ++ after)) : Agree R fs (before ++ after) := by
  have hne : ∀ {γ : Type} {table : List (κ × γ)} {l : κ} {c : γ}, k ∉ keys table →
      table.lookup l = some c → l ≠ k := by
    intro γ table l c hk hc heq
    subst heq
    exact hk (mem_keys_iff.2 ⟨c, hc⟩)
  constructor
  · intro l x hx
    have hl := hne hf hx
    have hbeq : (l == k) = false := by simpa using hl
    obtain ⟨y, hy, hxy⟩ := h.left (k := l) (by rwa [List.lookup_cons, hbeq])
    rw [lookup_middle_of_ne hl] at hy
    exact ⟨y, hy, hxy⟩
  · intro l y hy
    have hl := hne hg hy
    have hbeq : (l == k) = false := by simpa using hl
    obtain ⟨x, hx, hxy⟩ := h.right (k := l) (by rwa [lookup_middle_of_ne hl])
    rw [List.lookup_cons, hbeq] at hx
    exact ⟨x, hx, hxy⟩

theorem Shuffled.nodup_and_agree (h : Shuffled R fs gs) :
    (keys fs).Nodup ∧ (keys gs).Nodup ∧ Agree R fs gs := by
  induction h with
  | nil => exact ⟨List.nodup_nil, List.nodup_nil, by constructor <;> simp⟩
  | @cons k a b fs before after hab hk _ ih =>
      obtain ⟨hfs, hgs, hagree⟩ := ih
      have hfresh : k ∉ keys (before ++ after) := by
        intro hmem
        obtain ⟨c, hc⟩ := mem_keys_iff.1 hmem
        obtain ⟨d, hd, -⟩ := hagree.right hc
        exact hk (mem_keys_iff.2 ⟨d, hd⟩)
      have hbefore : k ∉ keys before := by
        intro hmem
        exact hfresh (by simp [keys, List.map_append] at hmem ⊢; exact .inl hmem)
      exact ⟨List.nodup_cons.2 ⟨hk, hfs⟩, nodup_keys_middle.2 ⟨hfresh, hgs⟩,
        hagree.insert hab hbefore⟩

theorem Agree.shuffled (h : Agree R fs gs) (hfs : (keys fs).Nodup) (hgs : (keys gs).Nodup) :
    Shuffled R fs gs := by
  induction fs generalizing gs with
  | nil =>
      cases gs with
      | nil => exact .nil
      | cons entry rest =>
          obtain ⟨x, hx, -⟩ := h.right (k := entry.1) List.lookup_cons_self
          cases hx
  | cons entry rest ih =>
      obtain ⟨k, a⟩ := entry
      obtain ⟨hk, hrest⟩ := List.nodup_cons.1 hfs
      obtain ⟨b, hb, hab⟩ := h.left (k := k) List.lookup_cons_self
      obtain ⟨before, after, rfl, -⟩ := List.lookup_eq_some_iff.1 hb
      obtain ⟨hfresh, hothers⟩ := nodup_keys_middle.1 hgs
      exact .cons hab hk (ih (h.erase hk hfresh) hrest hothers)

/-- Tables are shuffles of each other if they are mappings that agree. -/
theorem shuffled_iff :
    Shuffled R fs gs ↔ (keys fs).Nodup ∧ (keys gs).Nodup ∧ Agree R fs gs :=
  ⟨Shuffled.nodup_and_agree, fun h => h.2.2.shuffled h.1 h.2.1⟩

theorem InStep.shuffled (h : InStep (fun _ => R) fs gs) (nodup : (keys fs).Nodup) :
    Shuffled R fs gs :=
  h.agree.shuffled nodup (h.keys_eq ▸ nodup)

namespace Shuffled

theorem agree (h : Shuffled R fs gs) : Agree R fs gs := h.nodup_and_agree.2.2

theorem refl {R : α → α → Prop} (nodup : (keys fs).Nodup)
    (h : ∀ entry ∈ fs, R entry.2 entry.2) : Shuffled R fs fs := by
  refine shuffled_iff.2 ⟨nodup, nodup, ?_, ?_⟩
  all_goals
    intro k a ha
    exact ⟨a, ha, h _ (mem_of_lookup ha)⟩

theorem imp {S : α → β → Prop} (h : Shuffled R fs gs)
    (himp : ∀ entry ∈ fs, ∀ {b}, R entry.2 b → S entry.2 b) : Shuffled S fs gs := by
  obtain ⟨hfs, hgs, hagree⟩ := h.nodup_and_agree
  exact (hagree.imp fun ha _ hab => himp _ (mem_of_lookup ha) hab).shuffled hfs hgs

theorem flip {S : β → α → Prop} (h : Shuffled R fs gs)
    (himp : ∀ entry ∈ fs, ∀ {b}, R entry.2 b → S b entry.2) : Shuffled S gs fs := by
  obtain ⟨hfs, hgs, hagree⟩ := h.nodup_and_agree
  exact (hagree.flip fun ha hab => himp _ (mem_of_lookup ha) hab).shuffled hgs hfs

theorem mem_keys_iff (h : Shuffled R fs gs) {k : κ} : k ∈ keys gs ↔ k ∈ keys fs := by
  rw [Table.mem_keys_iff, Table.mem_keys_iff]
  constructor
  · intro hk
    obtain ⟨b, hb⟩ := hk
    obtain ⟨a, ha, -⟩ := h.agree.right hb
    exact ⟨a, ha⟩
  · intro hk
    obtain ⟨a, ha⟩ := hk
    obtain ⟨b, hb, -⟩ := h.agree.left ha
    exact ⟨b, hb⟩

theorem exists_of_mem_right (h : Shuffled R fs gs) {entry : κ × β} (hmem : entry ∈ gs) :
    ∃ a, (entry.1, a) ∈ fs ∧ R a entry.2 := by
  obtain ⟨-, hgs, hagree⟩ := h.nodup_and_agree
  obtain ⟨a, ha, hab⟩ := hagree.right (lookup_of_mem hgs hmem)
  exact ⟨a, mem_of_lookup ha, hab⟩

end Shuffled

end

/-! ## Following a table entry by entry -/

/-- If the first table goes through `S` entry by entry, so does the second through `S'`, and
the two results are shuffles of each other. -/
theorem Shuffled.follow {α' β' : Type} {R : α → β → Prop} {R' : α' → β' → Prop}
    {S : α → α' → Prop} {S' : β → β' → Prop} {fs : List (κ × α)} {gs : List (κ × β)}
    {fs' : List (κ × α')} (h : Shuffled R fs gs) (hstep : InStep (fun _ => S) fs fs')
    (hfollow : ∀ entry ∈ fs, ∀ {b a'}, R entry.2 b → S entry.2 a' → ∃ b', S' b b' ∧ R' a' b') :
    ∃ gs', InStep (fun _ => S') gs gs' ∧ Shuffled R' fs' gs' := by
  induction h generalizing fs' with
  | nil =>
      cases hstep
      exact ⟨[], .nil, .nil⟩
  | @cons k a b fs before after hab hk _ ih =>
      cases hstep with
      | @cons _ _ a' _ fs' ha hrest =>
          rw [List.forall_mem_cons] at hfollow
          obtain ⟨b', hb, hab'⟩ := hfollow.1 hab ha
          obtain ⟨others, hothers, hshuffled⟩ := ih hrest hfollow.2
          obtain ⟨before', after', rfl, hbefore, hafter⟩ := hothers.exists_append
          refine ⟨before' ++ (k, b') :: after', hbefore.append (.cons hb hafter), ?_⟩
          exact .cons hab' (hrest.keys_eq ▸ hk) hshuffled

end TypedLambda.Table
