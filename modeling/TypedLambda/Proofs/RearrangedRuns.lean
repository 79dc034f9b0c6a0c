import TypedLambda.Proofs.BigStep
import TypedLambda.Proofs.Rearrangement

/-!
# Evaluation and the order of tables

A tuple reduces its fields in the order in which they stand, so two terms that differ in
such an order do not go through the same terms, nor through rearranged ones. They do reach
rearranged values in the same number of steps: big steps do not see the order of fields, and
every operation that a big step uses (substitution, matching, the choice of a branch) takes
rearranged terms to rearranged terms.
-/

namespace TypedLambda

namespace Term

variable {names : String → String → Prop} {t u : Term}

/-! ## Values -/

theorem Rearranged.isNumeral (h : t.Rearranged names u) (ht : t.isNumeral = true) :
    u.isNumeral = true := by
  induction t generalizing u with
  | zero =>
      cases h
      rfl
  | succ term ih =>
      cases h with
      | succ hterm =>
          have hu := ih hterm ht
          exact hu
  | _ => cases ht

theorem Rearranged.isValue (h : t.Rearranged names u) (ht : t.isValue = true) :
    u.isValue = true := by
  induction t generalizing u with
  | unit | bool | zero | abs =>
      cases h
      rfl
  | succ term _ =>
      cases h with
      | succ hterm => exact hterm.isNumeral ht
  | tuple fields ih =>
      cases h with
      | tuple hfields =>
          rw [isValue_tuple_iff] at ht ⊢
          intro entry hmem
          obtain ⟨term, hterm, hrearranged⟩ := hfields.exists_of_mem_right hmem
          exact ih _ hterm hrearranged (ht _ hterm)
  | tag label payload ty ih =>
      cases h with
      | tag hpayload _ =>
          have hu := ih hpayload ht
          exact hu
  | _ => cases ht

/-! ## Substitution -/

/-- If the first outcome is a term, the second is a rearranged one. -/
def Follows (names : String → String → Prop) (x y : Except Fault Term) : Prop :=
  ∀ r, x = .ok r → ∃ s, y = .ok s ∧ r.Rearranged names s

theorem Follows.bind {x y : Except Fault Term} {f g : Term → Except Fault Term}
    (h : Follows names x y)
    (hfg : ∀ {r s}, r.Rearranged names s → Follows names (f r) (g s)) :
    Follows names (x >>= f) (y >>= g) := by
  intro r hr
  obtain ⟨a, ha, hfa⟩ := Outcome.bind_eq_ok.1 hr
  obtain ⟨b, hb, hab⟩ := h a ha
  obtain ⟨s, hs, hrs⟩ := hfg hab r hfa
  exact ⟨s, Outcome.bind_eq_ok.2 ⟨b, hb, hs⟩, hrs⟩

theorem Follows.ok (h : t.Rearranged names u) : Follows names (.ok t) (.ok u) := by
  intro r hr
  cases hr
  exact ⟨u, rfl, h⟩

theorem Rearranged.traverse {act act' : Nat → Int → String → Except Fault Term}
    (hact : ∀ {k index n m}, names n m → Follows names (act k index n) (act' k index m))
    (h : t.Rearranged names u) (k : Nat) :
    Follows names (t.traverse act k) (u.traverse act' k) := by
  induction t generalizing u k with
  | unit | bool | zero =>
      cases h
      exact .ok (by constructor)
  | succ term ih =>
      cases h with
      | succ hterm => exact (ih hterm k).bind fun hr => .ok (.succ hr)
  | pred term ih =>
      cases h with
      | pred hterm => exact (ih hterm k).bind fun hr => .ok (.pred hr)
  | isZero term ih =>
      cases h with
      | isZero hterm => exact (ih hterm k).bind fun hr => .ok (.isZero hr)
  | var index name =>
      cases h with
      | var hname => exact hact hname
  | abs name ty body ih =>
      cases h with
      | abs hname hty hbody => exact (ih hbody (k + 1)).bind fun hr => .ok (.abs hname hty hr)
  | app f a ihf iha =>
      cases h with
      | app hf ha => exact (ihf hf k).bind fun hf => (iha ha k).bind fun ha => .ok (.app hf ha)
  | ite condition yes no ihc ihy ihn =>
      cases h with
      | ite hc hy hn =>
          refine (ihc hc k).bind fun hc => (ihy hy k).bind fun hy => (ihn hn k).bind fun hn => ?_
          exact .ok (.ite hc hy hn)
  | tuple fields ih =>
      cases h with
      | tuple hfields =>
          -- the fields are met in another order, which is seen only where one of them fails
          intro r hr
          simp only [Term.traverse, Outcome.bind_eq_ok, Outcome.pure_eq_ok,
            traverseFields_eq_ok] at hr ⊢
          obtain ⟨results, hresults, rfl⟩ := hr
          obtain ⟨others, hothers, hshuffled⟩ :=
            hfields.follow hresults fun entry hmem _ _ hterm hr => ih entry hmem hterm k _ hr
          exact ⟨_, ⟨others, hothers, rfl⟩, .tuple hshuffled⟩
  | letIn pattern value body ihv ihb =>
      cases h with
      | @letIn _ q _ _ _ _ hpattern hvalue hbody =>
          have harity : pattern.arity = q.arity := by
            unfold Pattern.arity
            rw [hpattern.length?_eq]
          refine (ihv hvalue k).bind fun hv => ?_
          rw [harity]
          cases q.arity with
          | error fault =>
              intro r hr
              cases hr
          | ok n => exact (ihb hbody (k + n)).bind fun hb => .ok (.letIn hpattern hv hb)
  | tag label payload ty ih =>
      cases h with
      | tag hpayload hty => exact (ih hpayload k).bind fun hr => .ok (.tag hr hty)
  | case scrutinee branches ihs ihb =>
      cases h with
      | case hscrutinee hbranches =>
          refine (ihs hscrutinee k).bind fun hs => ?_
          intro r hr
          simp only [Outcome.bind_eq_ok, Outcome.pure_eq_ok, traverseBranches_eq_ok] at hr ⊢
          obtain ⟨results, hresults, rfl⟩ := hr
          have hfollow : ∀ entry ∈ branches, ∀ {branch r : Branch Term},
              entry.2.Rearranged names branch →
              (entry.2.label = r.label ∧ entry.2.name = r.name ∧
                entry.2.body.traverse act (k + 1) = .ok r.body) →
              ∃ s : Branch Term, (branch.label = s.label ∧ branch.name = s.name ∧
                branch.body.traverse act' (k + 1) = .ok s.body) ∧ r.Rearranged names s := by
            intro entry hmem branch r hbranch hr
            obtain ⟨hlabel, hname, hbody⟩ := hr
            cases hbranch with
            | mk hlabels hnames hbodies =>
                obtain ⟨body, hbody, hrearranged⟩ := ihb entry hmem hbodies (k + 1) _ hbody
                refine ⟨⟨branch.label, branch.name, body⟩, ⟨rfl, rfl, hbody⟩, ?_⟩
                exact .mk (hlabel ▸ hlabels) (hname ▸ hnames) hrearranged
          obtain ⟨others, hothers, hshuffled⟩ := hbranches.follow hresults hfollow
          exact ⟨_, ⟨others, hothers, rfl⟩, .case hs hshuffled⟩
  | fix term ih =>
      cases h with
      | fix hterm => exact (ih hterm k).bind fun hr => .ok (.fix hr)
  | foreign =>
      intro r hr
      cases hr

theorem Rearranged.shift (h : t.Rearranged names u) (d cutoff : Int) :
    Follows names (t.shift d cutoff) (u.shift d cutoff) := by
  unfold Term.shift
  split
  · exact .ok h
  · refine h.traverse (fun hname => .ok ?_) 0
    unfold shiftVar
    split <;> exact .var hname

theorem Rearranged.substitute {s s' : Term} (hs : s.Rearranged names s')
    (h : t.Rearranged names u) (j cutoff : Int) :
    Follows names (substitute j s t cutoff) (substitute j s' u cutoff) := by
  refine h.traverse (fun {k index n m} hname => ?_) 0
  split
  · exact hs.shift _ 0
  · exact .ok (.var hname)

theorem Rearranged.substTop {s s' : Term} (hs : s.Rearranged names s')
    (h : t.Rearranged names u) : Follows names (substTop s t) (substTop s' u) := by
  refine (hs.shift 1 0).bind fun hs => ?_
  exact (hs.substitute h 0 0).bind fun h => h.shift (-1) 0

theorem Rearranged.instantiate {terms others : List Term}
    (hterms : List.Forall₂ (Rearranged names) terms others) (h : t.Rearranged names u) :
    Follows names (instantiate terms t) (instantiate others u) := by
  induction hterms generalizing t u with
  | nil => exact .ok h
  | cons hhead htail ih =>
      unfold Term.instantiate
      rw [htail.length_eq]
      exact (hhead.shift _ 0).bind fun hs => (hs.substTop h).bind fun h => ih h

/-! ## Matching -/

theorem Rearranged.destructure {p q : Pattern} (hpattern : p.Renamed names q)
    (h : t.Rearranged names u) {bindings : List (String × Term)}
    (hbindings : p.destructure t = .ok bindings) :
    ∃ others, q.destructure u = .ok others ∧
      List.Forall₂ (Rearranged names) (bindings.map Prod.snd) (others.map Prod.snd) := by
  induction p generalizing q t u bindings with
  | var name =>
      cases hpattern with
      | @var _ m _ =>
          cases hbindings
          exact ⟨[(m, u)], rfl, .cons h .nil⟩
  | record fields ih =>
      cases hpattern with
      | @record _ fields' hfields =>
          cases t with
          | tuple terms =>
              cases h with
              | @tuple _ terms' hterms =>
                  rw [Pattern.destructure] at hbindings ⊢
                  induction hfields generalizing bindings with
                  | nil =>
                      cases hbindings
                      exact ⟨[], rfl, .nil⟩
                  | @cons label p q _ _ hhead _ ihrest =>
                      rw [List.forall_mem_cons] at ih
                      rw [Pattern.destructureFields] at hbindings ⊢
                      cases hlookup : terms.lookup label with
                      | none =>
                          rw [hlookup] at hbindings
                          cases hbindings
                      | some term =>
                          obtain ⟨other, hother, hrearranged⟩ := hterms.agree.left hlookup
                          rw [hlookup] at hbindings
                          simp only [Outcome.bind_eq_ok, Outcome.pure_eq_ok] at hbindings
                          obtain ⟨first, hfirst, rest, hrest, rfl⟩ := hbindings
                          obtain ⟨first', hfirst', hall⟩ := ih.1 hhead hrearranged hfirst
                          obtain ⟨rest', hrest', hallrest⟩ := ihrest ih.2 hrest
                          simp only [hother, Outcome.bind_eq_ok, Outcome.pure_eq_ok]
                          refine ⟨first' ++ rest', ⟨first', hfirst', rest', hrest', rfl⟩, ?_⟩
                          rw [List.map_append, List.map_append]
                          exact List.rel_append hall hallrest
          | _ => cases hbindings
  | foreign => cases t <;> cases hbindings

/-! ## Evaluation -/

theorem Evaluates.rearranged {t v : Term} {n : Nat} (h : Evaluates t v n) {u : Term}
    (htu : t.Rearranged names u) : ∃ w, Evaluates u w n ∧ v.Rearranged names w := by
  refine h.least (motive := fun t v n => ∀ {u}, t.Rearranged names u →
    ∃ w, Evaluates u w n ∧ v.Rearranged names w) ?value ?app ?iteTrue ?iteFalse ?succ ?predZero
    ?predSucc ?isZeroZero ?isZeroSucc ?tuple ?tag ?letIn ?case ?fix htu
  case value =>
    intro v hv u hu
    exact ⟨u, .value (hu.isValue hv), hu⟩
  case app =>
    intro f a body v u w name ty k m n ihf iha hu ihw g hg
    cases hg with
    | app hf ha =>
        obtain ⟨_, hfun, habs⟩ := ihf hf
        obtain ⟨_, harg, hv⟩ := iha ha
        cases habs with
        | abs _ _ hbody =>
            obtain ⟨_, hu', hrearranged⟩ := hv.substTop hbody u hu
            obtain ⟨w', hw', hw⟩ := ihw hrearranged
            exact ⟨w', .app hfun harg hu' hw', hw⟩
  case iteTrue =>
    intro c yes no w k n ihc ihw g hg
    cases hg with
    | ite hc hy _ =>
        obtain ⟨_, hcondition, htrue⟩ := ihc hc
        obtain ⟨w', hw', hw⟩ := ihw hy
        cases htrue
        exact ⟨w', .iteTrue hcondition hw', hw⟩
  case iteFalse =>
    intro c yes no w k n ihc ihw g hg
    cases hg with
    | ite hc _ hn =>
        obtain ⟨_, hcondition, hfalse⟩ := ihc hc
        obtain ⟨w', hw', hw⟩ := ihw hn
        cases hfalse
        exact ⟨w', .iteFalse hcondition hw', hw⟩
  case succ =>
    intro t w k iht hw g hg
    cases hg with
    | succ ht =>
        obtain ⟨w', hw', hrearranged⟩ := iht ht
        exact ⟨_, .succ hw' (hrearranged.isNumeral hw), .succ hrearranged⟩
  case predZero =>
    intro t k iht g hg
    cases hg with
    | pred ht =>
        obtain ⟨_, hoperand, hzero⟩ := iht ht
        cases hzero
        exact ⟨_, .predZero hoperand, .zero⟩
  case predSucc =>
    intro t w k iht hw g hg
    cases hg with
    | pred ht =>
        obtain ⟨_, hoperand, hsucc⟩ := iht ht
        cases hsucc with
        | succ hrearranged =>
            exact ⟨_, .predSucc hoperand (hrearranged.isNumeral hw), hrearranged⟩
  case isZeroZero =>
    intro t k iht g hg
    cases hg with
    | isZero ht =>
        obtain ⟨_, hoperand, hzero⟩ := iht ht
        cases hzero
        exact ⟨_, .isZeroZero hoperand, .bool⟩
  case isZeroSucc =>
    intro t w k iht hw g hg
    cases hg with
    | isZero ht =>
        obtain ⟨_, hoperand, hsucc⟩ := iht ht
        cases hsucc with
        | succ hrearranged =>
            exact ⟨_, .isZeroSucc hoperand (hrearranged.isNumeral hw), .bool⟩
  case tuple =>
    intro fields results ih g hg
    cases hg with
    | @tuple _ others hfields =>
        -- the results of the fields are shuffled as the fields are, each with its own number
        have hfollow : ∀ entry ∈ fields, ∀ {u : Term} {r : Term × Nat},
            entry.2.Rearranged names u →
            (∀ {u}, entry.2.Rearranged names u → ∃ w, Evaluates u w r.2 ∧ r.1.Rearranged names w) →
            ∃ s : Term × Nat, Evaluates u s.1 s.2 ∧ (r.1.Rearranged names s.1 ∧ r.2 = s.2) := by
          intro entry _ u r hu hr
          obtain ⟨w, hw, hrearranged⟩ := hr hu
          exact ⟨(w, r.2), hw, hrearranged, rfl⟩
        obtain ⟨results', hresults', hshuffled⟩ := hfields.follow ih hfollow
        have htotal : Table.total Prod.snd results = Table.total Prod.snd results' :=
          hshuffled.total_eq fun h => h.2
        refine ⟨_, cast (.tuple hresults') htotal.symm, ?_⟩
        exact .tuple (hshuffled.map (f := fun r => r.1) (g := fun r => r.1) fun h => h.1)
  case tag =>
    intro label t v ty k iht g hg
    cases hg with
    | tag ht hty =>
        obtain ⟨v', hv', hrearranged⟩ := iht ht
        exact ⟨_, .tag hv', .tag hrearranged hty⟩
  case letIn =>
    intro pattern t body v u w bindings k n iht hbindings hu ihw g hg
    cases hg with
    | letIn hpattern ht hbody =>
        obtain ⟨_, hvalue, hv⟩ := iht ht
        obtain ⟨_, hbindings', hall⟩ := hv.destructure hpattern hbindings
        obtain ⟨_, hu', hrearranged⟩ := Rearranged.instantiate hall hbody u hu
        obtain ⟨w', hw', hw⟩ := ihw hrearranged
        exact ⟨w', .letIn hvalue hbindings' hu' hw', hw⟩
  case case =>
    intro s v u w label ty branches branch k n ihs hbranch hu ihw g hg
    cases hg with
    | case hs hbranches =>
        obtain ⟨_, hscrutinee, htag⟩ := ihs hs
        obtain ⟨_, hbranch', hbody⟩ := hbranches.agree.left hbranch
        cases htag with
        | tag hv _ =>
            obtain ⟨_, hu', hrearranged⟩ := hv.substTop hbody.body u hu
            obtain ⟨w', hw', hw⟩ := ihw hrearranged
            exact ⟨w', .case hscrutinee hbranch' hu' hw', hw⟩
  case fix =>
    intro t body u w name ty k n iht hu ihw g hg
    cases hg with
    | fix ht =>
        obtain ⟨_, hoperand, habs⟩ := iht ht
        cases habs with
        | abs hname hty hbody =>
            have hfix := Rearranged.fix (.abs hname hty hbody)
            obtain ⟨_, hu', hrearranged⟩ := hfix.substTop hbody u hu
            obtain ⟨w', hw', hw⟩ := ihw hrearranged
            exact ⟨w', .fix hoperand hu' hw', hw⟩

/-! ## Runs -/

theorem Rearranged.reaches (h : t.Rearranged names u) {n : Nat} {v : Term}
    (hsteps : t.stepN n = .ok v) (hv : v.isValue = true) :
    ∃ w, u.stepN n = .ok w ∧ w.isValue = true ∧ v.Rearranged names w := by
  obtain ⟨w, hw, hrearranged⟩ := (Evaluates.of_stepN hsteps hv).rearranged h
  obtain ⟨hsteps', hvalue⟩ := hw.reaches
  exact ⟨w, hsteps', hvalue, hrearranged⟩

theorem Rearranged.evaluate (h : t.Rearranged names u) {settings : Settings} {fuel : Nat}
    {v : Term} (hv : (t.evaluate settings fuel).outcome = .ok v) :
    ∃ w, (u.evaluate settings fuel).outcome = .ok w ∧ v.Rearranged names w := by
  obtain ⟨hvalue, n, hle, hsteps⟩ := evaluate_eq_ok_iff.1 hv
  obtain ⟨w, hsteps', hvalue', hrearranged⟩ := h.reaches hsteps hvalue
  exact ⟨w, evaluate_eq_ok_iff.2 ⟨hvalue', n, hle, hsteps'⟩, hrearranged⟩

/-- Evaluation does not depend on the order of tables: of two terms that differ in it, each
reaches a value in as many steps as the other, and the values differ in such an order
again. So a run of the one ends in a value within the budgets within which a run of the other
does. -/
theorem evaluation_rearranged (h : t.Rearranged Eq u) :
    (∀ {n v}, t.stepN n = .ok v → v.isValue = true →
      ∃ w, u.stepN n = .ok w ∧ w.isValue = true ∧ v.Rearranged Eq w) ∧
    ∀ (settings : Settings) (fuel : Nat),
      (∀ {v}, (t.evaluate settings fuel).outcome = .ok v →
        ∃ w, (u.evaluate settings fuel).outcome = .ok w ∧ v.Rearranged Eq w) ∧
      ∀ {w}, (u.evaluate settings fuel).outcome = .ok w →
        ∃ v, (t.evaluate settings fuel).outcome = .ok v ∧ v.Rearranged Eq w := by
  have hflip : ∀ {a b : Term}, a.Rearranged Eq b → b.Rearranged Eq a := by
    intro a b hab
    have hnames : (fun n m : String => m = n) = Eq := funext₂ fun _ _ => propext eq_comm
    rw [← hnames]
    exact hab.symm
  refine ⟨h.reaches, fun settings fuel => ⟨h.evaluate, fun hw => ?_⟩⟩
  obtain ⟨v, hv, hrearranged⟩ := (hflip h).evaluate hw
  exact ⟨v, hv, hflip hrearranged⟩

theorem evaluation_rearranged_swapped :
    ∃ w, (letIn (.record [("x", .var "p"), ("y", .var "q")])
        (.tuple [("y", .isZero .zero), ("x", .pred (.succ .zero))])
        (.case (.tag "l" (.var 1 "q") (.sum [("r", .int), ("l", .bool)]))
          [("r", ⟨"r", "n", .unit⟩), ("l", ⟨"l", "b", .tuple [("two", .succ (.var 1 "p")),
            ("one", .var 0 "b")]⟩)])).stepN 4 = .ok w ∧ w.isValue = true ∧
      (tuple [("one", .bool true), ("two", .succ .zero)]).Rearranged Eq w := by
  have happly : ∀ {u}, Rearranged Eq
      (letIn (.record [("x", .var "p"), ("y", .var "q")])
        (.tuple [("x", .pred (.succ .zero)), ("y", .isZero .zero)])
        (.case (.tag "l" (.var 1 "q") (.sum [("l", .bool), ("r", .int)]))
          [("l", ⟨"l", "b", .tuple [("one", .var 0 "b"), ("two", .succ (.var 1 "p"))]⟩),
            ("r", ⟨"r", "n", .unit⟩)])) u →
      ∃ w, u.stepN 4 = .ok w ∧ w.isValue = true ∧
        (tuple [("one", .bool true), ("two", .succ .zero)]).Rearranged Eq w := by
    intro u hterms
    exact (evaluation_rearranged hterms).1 rfl rfl
  apply happly
  refine .letIn (.refl (fun _ => rfl) _)
    (.tuple (.swap (by decide) (.pred (.succ .zero)) (.isZero .zero))) ?_
  refine .case (.tag (.var rfl) (.sum (.swap (by decide) .bool .int))) (.swap (by decide) ?_ ?_)
  · exact .mk rfl rfl (.tuple (.swap (by decide) (.var rfl) (.succ (.var rfl))))
  · exact .mk rfl rfl .unit

end Term

end TypedLambda
