import TypedLambda.Proofs.Substitution

/-!
# Substitutions one after the other

Terms put in place twice are put in place once: `Term.plug_plug`. The first terms are themselves
filled in by the second substitution, and the indices that the first one moves in meet the second
terms directly. Every law of this kind is decided at the leaves, for any integer as index. Filling
the variables of a binder one after the other, as `Term.instantiate` does, is a case of it.

The substitution lemma follows. Its inner substitution takes place under the binder that the
outer one drops, which is written as a replacement of index 1 and a shift above it.
-/

namespace TypedLambda.Term

/-! ## Shifts and substitutions under binders -/

/-- A walk that starts below `c` binders is one whose action adds them to its count. -/
theorem mapVars_below {act act' : Nat → Int → String → Term} {c : Nat}
    (h : ∀ j index name, act' j index name = act (j + c) index name) (t : Term) :
    t.mapVars act' 0 = t.mapVars act c := by
  have hstay : ∀ (u : Term) (k : Nat), u.mapVars (fun _ => var) k = u :=
    mapVars_id fun _ _ _ => rfl
  have hwalk := @mapVars_mapVars (fun _ => var) act act' c 0
    (fun j index name => by rw [hstay, h]) t 0
  rw [hstay, Nat.zero_add] at hwalk
  exact hwalk.symm

theorem mapVars_shiftVar (d cutoff : Int) (c : Nat) (t : Term) :
    t.mapVars (shiftVar d cutoff) c = t.moved d (cutoff + c) := by
  refine (mapVars_below (fun j index name => ?_) t).symm
  have hcutoff : cutoff + c + j = cutoff + (j + c : Nat) := by omega
  simp only [shiftVar, hcutoff]

/-- Putting a term in place below `c` binders: it replaces index `c`, over which it was
shifted, and the shift above the index drops it. -/
theorem substitute_below_eq_ok {s t : Term} (hs : s.known = true) (ht : t.known = true)
    (c : Nat) :
    (substitute c (s.moved (1 + c : Nat) 0) t 0 >>= fun t => t.shift (-1) c) =
      .ok (t.mapVars (plugVar [s]) c) := by
  have hmoved : (s.moved (1 + c : Nat) 0).known = true := known_moved hs
  have hreplace : ∀ (j : Nat) (index : Int) (name : String),
      replaceFrom c (s.moved (1 + c : Nat) 0) 0 j index name =
        replaceVar (s.moved 1 0) (j + c) index name := by
    intro j index name
    have hindex : index = c + (j : Int) ↔ index = (j + c : Nat) := by omega
    have hterm : (s.moved (1 + c : Nat) 0).moved j 0 = (s.moved 1 0).moved (j + c : Nat) 0 := by
      rw [moved_moved, show (1 : Int) = (1 : Nat) from rfl, moved_moved, Nat.add_comm j c,
        Nat.add_assoc]
    simp only [replaceFrom, replaceVar, Int.zero_add, hindex, hterm]
  have hsub : substitute c (s.moved (1 + c : Nat) 0) t 0 =
      .ok (t.mapVars (replaceVar (s.moved 1 0)) c) := by
    rw [substitute_eq_ok hmoved ht, mapVars_below hreplace]
  have hknown : (t.mapVars (replaceVar (s.moved 1 0)) c).known = true :=
    known_mapVars (known_replaceVar (known_moved hs)) ht
  have hdrop := mapVars_shiftVar (-1) 0 c (t.mapVars (replaceVar (s.moved 1 0)) c)
  rw [Int.zero_add] at hdrop
  rw [hsub]
  show shift (-1) c (t.mapVars (replaceVar (s.moved 1 0)) c) = _
  rw [shift_eq_ok hknown, ← hdrop]
  exact congrArg Except.ok (@mapVars_mapVars _ _ _ 0 0 (mapVars_replaceVar s) t c)

/-! ## Composition -/

theorem mapVars_shiftVar_moved (m k : Nat) (t : Term) :
    (t.moved m 0).mapVars (shiftVar k 0) m = t.moved (m + k : Nat) 0 := by
  refine mapVars_moved (fun j index name => ?_) t
  by_cases hlt : index < j
  · have hlt' : index < (j + m : Nat) := by omega
    simp only [shiftVar, mapVars, Int.zero_add, hlt, hlt', if_true]
  · have hge : ¬ index + m < (j + m : Nat) := by omega
    simp only [shiftVar, mapVars, Int.zero_add, hlt, hge, if_false]
    congr 1
    omega

theorem moved_plug (terms : List Term) (k : Nat) (t : Term) :
    (t.plug terms).moved k 0 = (t.moved k 0).mapVars (plugVar terms) k := by
  have hleft := @mapVars_mapVars (shiftVar k 0) (plugVar terms) _ 0 0 (fun _ _ _ => rfl) t 0
  refine hleft.trans (mapVars_moved (fun m index name => ?_) t).symm
  show (shiftVar k 0 m index name).mapVars (plugVar terms) (m + k) =
    (plugVar terms m index name).mapVars (shiftVar k 0) m
  by_cases hlt : index < m
  · have hlt' : index < (m + k : Nat) := by omega
    simp only [shiftVar, mapVars, Int.zero_add, hlt, if_true, plugVar_of_lt hlt,
      plugVar_of_lt hlt']
  · have hshift : shiftVar k 0 m index name = var (index + k) name := by
      simp only [shiftVar, Int.zero_add, hlt, if_false]
    have hplace : (index + k - (m + k : Nat)).toNat = (index - m).toNat := by omega
    rw [hshift, mapVars]
    cases hterm : terms[(index - m).toNat]? with
    | some term =>
        rw [plugVar_of_some (by omega) (hplace ▸ hterm), plugVar_of_some (by omega) hterm,
          mapVars_shiftVar_moved]
    | none =>
        have hlen := List.getElem?_eq_none_iff.1 hterm
        have hge : ¬ index - terms.length < m := by omega
        rw [plugVar_of_ge (by omega), plugVar_of_ge (by omega)]
        simp only [shiftVar, mapVars, Int.zero_add, hge, if_false]
        congr 1
        omega

section
variable {inner outer : List Term} {j : Nat} {index : Int} {name : String}

theorem plugVar_append_left (h : index < (j + inner.length : Nat)) :
    plugVar (inner ++ outer) j index name = plugVar inner j index name := by
  by_cases hlt : index < j
  · rw [plugVar_of_lt hlt, plugVar_of_lt hlt]
  · have hfound : inner[(index - j).toNat]? = some inner[(index - j).toNat] :=
      List.getElem?_eq_getElem (by omega)
    have hget : (inner ++ outer)[(index - j).toNat]? = inner[(index - j).toNat]? :=
      List.getElem?_append_left (by omega)
    rw [plugVar_of_some (by omega) (hget.trans hfound), plugVar_of_some (by omega) hfound]

theorem plugVar_append_right (h : (j + inner.length : Nat) ≤ index) :
    plugVar (inner ++ outer) j index name = plugVar outer j (index - inner.length) name := by
  have hget : (inner ++ outer)[(index - j).toNat]? =
      outer[(index - inner.length - j).toNat]? := by
    rw [List.getElem?_append_right (by omega)]
    congr 1
    omega
  cases hfound : outer[(index - inner.length - j).toNat]? with
  | some term =>
      rw [plugVar_of_some (by omega) (hget.trans hfound), plugVar_of_some (by omega) hfound]
  | none =>
      have hlen := List.getElem?_eq_none_iff.1 hfound
      have hlength : (inner ++ outer).length = inner.length + outer.length := List.length_append
      rw [plugVar_of_ge (by omega), plugVar_of_ge (by omega)]
      congr 1
      omega

end

/-- Two substitutions are one: the terms of the first, filled in by the second, and then the
terms of the second. -/
theorem plug_plug (inner outer : List Term) (t : Term) :
    (t.plug inner).plug outer = t.plug (inner.map (plug outer) ++ outer) := by
  have hlength : (inner.map (plug outer)).length = inner.length := List.length_map _
  refine @mapVars_mapVars _ _ _ 0 0 (fun j index name => ?_) t 0
  show (plugVar inner j index name).mapVars (plugVar outer) j =
    plugVar (inner.map (plug outer) ++ outer) j index name
  by_cases hin : index < (j + inner.length : Nat)
  · rw [plugVar_append_left (by omega)]
    by_cases hlt : index < j
    · rw [plugVar_of_lt hlt, plugVar_of_lt hlt, mapVars, plugVar_of_lt hlt]
    · have hterm : inner[(index - j).toNat]? = some inner[(index - j).toNat] :=
        List.getElem?_eq_getElem (by omega)
      have hfilled : (inner.map (plug outer))[(index - j).toNat]? =
          some (inner[(index - j).toNat].plug outer) := by
        rw [List.getElem?_map, hterm]
        rfl
      rw [plugVar_of_some (by omega) hterm, plugVar_of_some (by omega) hfilled, moved_plug]
  · rw [plugVar_of_ge (by omega), mapVars, plugVar_append_right (by omega), hlength]

theorem plug_moved (terms : List Term) (t : Term) : (t.moved terms.length 0).plug terms = t := by
  have hmoved := mapVars_plugVar_moved terms 0 t
  rwa [Nat.zero_add, Int.natCast_zero, moved_zero] at hmoved

/-- The first of several terms may be put in place before the others. It is shifted over the
variables that are still to be filled, so it is not touched again. -/
theorem plug_plug_moved (s : Term) (rest : List Term) (body : Term) :
    (body.plug [s.moved rest.length 0]).plug rest = body.plug (s :: rest) := by
  rw [plug_plug, List.map_singleton, plug_moved]
  rfl

theorem instantiate_eq_ok {terms : List Term} {body : Term}
    (hterms : ∀ term ∈ terms, term.known = true) (hbody : body.known = true) :
    instantiate terms body = .ok (body.plug terms) := by
  induction terms generalizing body with
  | nil => rw [instantiate, plug_nil]
  | cons s rest ih =>
      rw [List.forall_mem_cons] at hterms
      have hs : (s.moved rest.length 0).known = true := known_moved hterms.1
      have hfirst : (body.plug [s.moved rest.length 0]).known = true :=
        known_plug (by simpa using hs) hbody
      rw [instantiate, shift_eq_ok hterms.1]
      show (substTop (s.moved rest.length 0) body >>= instantiate rest) = _
      rw [substTop_eq_ok hs hbody]
      show instantiate rest (body.plug [s.moved rest.length 0]) = _
      rw [ih hterms.2 hfirst, plug_plug_moved]

theorem eq_plug_of_instantiate {terms : List Term} {body u : Term}
    (h : instantiate terms body = .ok u) : u = body.plug terms := by
  induction terms generalizing body with
  | nil =>
      cases h
      exact (plug_nil u).symm
  | cons s rest ih =>
      simp only [instantiate, Outcome.bind_eq_ok] at h
      obtain ⟨moved, hmoved, first, hfirst, hrest⟩ := h
      rw [ih hrest, eq_plug_of_substTop hfirst, eq_moved_of_shift hmoved, plug_plug_moved]

theorem plug_mapVars_plugVar (inner outer : List Term) (t : Term) :
    (t.mapVars (plugVar outer) inner.length).plug inner = t.plug (inner ++ outer) := by
  have hleaf : ∀ j index name,
      (plugVar outer (j + inner.length) index name).mapVars (plugVar inner) j =
        plugVar (inner ++ outer) j index name := by
    intro j index name
    by_cases hin : index < (j + inner.length : Nat)
    · rw [plugVar_of_lt hin, mapVars, plugVar_append_left hin]
    · have hplace : (index - inner.length - j).toNat =
          (index - (j + inner.length : Nat)).toNat := by omega
      rw [plugVar_append_right (by omega)]
      cases hfound : outer[(index - (j + inner.length : Nat)).toNat]? with
      | some term =>
          rw [plugVar_of_some (by omega) hfound,
            plugVar_of_some (by omega) (hplace ▸ hfound)]
          exact mapVars_plugVar_moved inner j term
      | none =>
          have hlen := List.getElem?_eq_none_iff.1 hfound
          rw [plugVar_of_ge (by omega), mapVars, plugVar_of_ge (by omega),
            plugVar_of_ge (by omega)]
          congr 1
          omega
  have hwalk := @mapVars_mapVars _ (plugVar outer) _ inner.length 0 hleaf t 0
  rw [Nat.add_zero, Nat.zero_add] at hwalk
  exact hwalk

theorem plug_mapVars_one (first : Term) (outer : List Term) (t : Term) :
    (t.mapVars (plugVar outer) 1).plug [first] = t.plug (first :: outer) :=
  plug_mapVars_plugVar [first] outer t

/-- A substitution passes through the filling of a binder: into the body below the binder, and
into the terms that fill it. -/
theorem plug_plug_comm (inner outer : List Term) (t : Term) :
    (t.plug inner).plug outer =
      (t.mapVars (plugVar outer) inner.length).plug (inner.map (plug outer)) := by
  have hbelow := plug_mapVars_plugVar (inner.map (plug outer)) outer t
  rw [List.length_map] at hbelow
  rw [hbelow, plug_plug]

/-- Substitutions commute. To put `s` in place and then `u` is to put `u` in place in `s`, and
below the binder in `t`, and then the one in the other. -/
theorem substTop_substTop {t s u : Term} (ht : t.known = true) (hs : s.known = true)
    (hu : u.known = true) :
    ∃ w, (substTop s t >>= fun filled => substTop u filled) = .ok w ∧
      (do
        let inner ← substTop u s
        let moved ← u.shift 2 0
        let replaced ← substitute 1 moved t 0
        let below ← replaced.shift (-1) 1
        substTop inner below) = .ok w := by
  have hfilled : (t.plug [s]).known = true := known_plug (by simpa using hs) ht
  have hinner : (s.plug [u]).known = true := known_plug (by simpa using hu) hs
  have hbelow : (t.mapVars (plugVar [u]) 1).known = true :=
    known_mapVars (known_plugVar (by simpa using hu)) ht
  have hfirst : substTop s t = .ok (t.plug [s]) := substTop_eq_ok hs ht
  have hlast : substTop (s.plug [u]) (t.mapVars (plugVar [u]) 1) =
      .ok ((t.plug [s]).plug [u]) := by
    rw [substTop_eq_ok hinner hbelow, plug_plug_comm]
    rfl
  obtain ⟨replaced, hreplaced, hdropped⟩ :=
    Outcome.bind_eq_ok.1 (substitute_below_eq_ok hu ht 1)
  simp only [Outcome.bind_eq_ok]
  exact ⟨_, ⟨_, hfirst, substTop_eq_ok hu hfilled⟩, _, substTop_eq_ok hu hs, _,
    shift_eq_ok hu 2 0, replaced, hreplaced, _, hdropped, hlast⟩

theorem substTop_substTop_open :
    let t : Term := .letIn (.record [("a", .var "p"), ("b", .var "q")]) (.var 1 "y")
      (.case (.var 2 "x")
        [("l", ⟨"l", "z", .app (.var 3 "x") (.app (.var 4 "y") (.var (-1) "w"))⟩)])
    let s : Term := .abs "n" .int (.app (.var 1 "y") (.var 2 "free"))
    let u : Term := .tuple [("c", .var 0 "free"), ("d", .var 5 "far")]
    ∃ w, (substTop s t >>= fun filled => substTop u filled) = .ok w ∧
      (do
        let inner ← substTop u s
        let moved ← u.shift 2 0
        let replaced ← substitute 1 moved t 0
        let below ← replaced.shift (-1) 1
        substTop inner below) = .ok w :=
  substTop_substTop rfl rfl rfl

end TypedLambda.Term
