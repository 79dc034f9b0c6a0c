import Mathlib.Data.List.Induction
import TypedLambda.Logging.State

/-!
# Configuring the logs again and again

A call of the configuration does one of three things (`State.call_cases`): nothing, if its profile
is in force; else it replaces the sinks by one of its own; and if that one is refused, the old
sinks are gone by then, while the profile is still taken to be in force.

So calls never pile up sinks or handlers (`State.configuration_tidy`), but a refused call silences
the logs, and a later call for the profile that is taken to be in force does not bring them back
(`State.reconfiguration_outcome`).
-/

namespace TypedLambda.Logging

/-! ## The levels of a sink -/

namespace Filter

def named (thresholds : List (String × Option Level)) : List (String × Option String) :=
  thresholds.map fun entry => (entry.1, entry.2.map Level.name)

theorem named_of_resolve? {entries : List (String × Option String)}
    {thresholds : List (String × Option Level)} (h : resolve? entries = some thresholds) :
    named thresholds = entries := by
  induction entries generalizing thresholds with
  | nil =>
      cases h
      rfl
  | cons entry rest ih =>
      obtain ⟨name, level⟩ := entry
      cases level with
      | none =>
          obtain ⟨others, hothers, rfl⟩ := Option.map_eq_some_iff.1 h
          exact congrArg (List.cons _) (ih hothers)
      | some level =>
          obtain ⟨known, hknown, h⟩ := Option.bind_eq_some_iff.1 h
          obtain ⟨others, hothers, h⟩ := Option.bind_eq_some_iff.1 h
          cases h
          have hname : known.name = level := by simpa using List.find?_some hknown
          rw [← ih hothers, ← hname]
          rfl

/-- A filter is refused exactly if it names a level that is not known. -/
theorem resolve?_eq_none_iff {entries : List (String × Option String)} :
    resolve? entries = none ↔
      ∃ entry ∈ entries, ∃ level, entry.2 = some level ∧ Level.ofName? level = none := by
  induction entries with
  | nil => simp [resolve?]
  | cons entry rest ih =>
      obtain ⟨name, level⟩ := entry
      simp only [List.mem_cons, exists_eq_or_imp, ← ih]
      cases level with
      | none => simp [resolve?]
      | some level =>
          cases hlevel : Level.ofName? level with
          | none => simp [resolve?, hlevel]
          | some known => cases hrest : resolve? rest <;> simp [resolve?, hlevel, hrest]

theorem lookup_entries (filter : Filter) (module : String) :
    filter.entries.lookup module = (filter.modules.lookup module).or
      (if module = "" then some (some (String.ofList (Characters.upper filter.level.toList)))
        else none) := by
  unfold entries
  rw [← Table.lookup_isSome_eq_has]
  by_cases hmodule : module = ""
  · subst hmodule
    cases hentry : filter.modules.lookup "" with
    | none => simp [List.lookup_append, hentry]
    | some level => simp [hentry]
  · have hbeq : (module == "") = false := by simpa using hmodule
    rw [if_neg hmodule, Option.or_none]
    split
    · rfl
    · simp [List.lookup_append, List.lookup_cons, hbeq]

end Filter

/-! ## Calls -/

/-- A call of the configuration: the filter of the environment at that time, the profile, and what
becomes of a filter when a sink is added. A sink may be refused for any reason, but one that is
added has the levels of the filter. -/
structure Call where
  filter : Option String
  profile : String
  add : Filter → Option (List (String × Option Level))
  add_sound : ∀ {filter thresholds}, add filter = some thresholds →
    filter.thresholds? = some thresholds

namespace Call

def plain (filter : Option String) (profile : String) : Call :=
  ⟨filter, profile, Filter.thresholds?, id⟩

def parsed (call : Call) : Filter := .ofEnvironment none call.filter

/-- A sink with this filter is refused. -/
def Refused (call : Call) : Prop := call.add call.parsed = none

theorem refused_plain_iff {filter : Option String} {profile : String} :
    (plain filter profile).Refused ↔ ∃ entry ∈ (plain filter profile).parsed.entries,
      ∃ level, entry.2 = some level ∧ Level.ofName? level = none :=
  Filter.resolve?_eq_none_iff

end Call

namespace State

def call (state : State) (c : Call) : State × Bool :=
  configureWith c.add { state with filter := c.filter } c.profile

def after (state : State) (calls : List Call) : State :=
  calls.foldl (fun state c => (state.call c).1) state

@[simp] theorem after_nil (state : State) : state.after [] = state := rfl

@[simp] theorem after_cons (state : State) (c : Call) (calls : List Call) :
    state.after (c :: calls) = (state.call c).1.after calls := rfl

@[simp] theorem after_append (state : State) (calls more : List Call) :
    state.after (calls ++ more) = (state.after calls).after more := List.foldl_append

/-- All that a call can do: nothing, to drop the sinks, or to put a sink in their place. -/
theorem call_cases (state : State) (c : Call) :
    (state.profile = some c.profile ∧
      state.call c = ({ state with filter := c.filter }, true)) ∨
    (state.profile ≠ some c.profile ∧ c.Refused ∧
      state.call c = ({ state with filter := c.filter, sinks := [] }, false)) ∨
    ∃ thresholds, state.profile ≠ some c.profile ∧ c.add c.parsed = some thresholds ∧
      state.call c = ({ state with
        filter := c.filter
        sinks := [⟨c.profile == "console", thresholds⟩]
        handlers := withIntercept state.handlers
        profile := some c.profile }, true) := by
  by_cases hprofile : state.profile = some c.profile
  · exact .inl ⟨hprofile, if_pos hprofile⟩
  · cases hadd : c.add (.ofEnvironment none c.filter) with
    | none =>
        have hcall : state.call c = ({ state with filter := c.filter, sinks := [] }, false) := by
          simp [call, configureWith, hprofile, hadd]
        exact .inr (.inl ⟨hprofile, hadd, hcall⟩)
    | some thresholds =>
        have hcall : state.call c = ({ state with
            filter := c.filter
            sinks := [⟨c.profile == "console", thresholds⟩]
            handlers := withIntercept state.handlers
            profile := some c.profile }, true) := by
          simp [call, configureWith, hprofile, hadd]
        exact .inr (.inr ⟨thresholds, hprofile, hadd, hcall⟩)

theorem configure_eq_call (state : State) (profile : String) :
    state.configure profile = state.call (.plain state.filter profile) := rfl

/-- A configuration fails exactly if its profile is not in force and the filter of the environment
names a level that is not known. All that it leaves behind then is that the sinks are gone. -/
theorem configure_fails_iff {state : State} {profile : String} :
    state.configure profile = ({ state with sinks := [] }, false) ↔
      state.profile ≠ some profile ∧
        ∃ entry ∈ (Filter.ofEnvironment none state.filter).entries, ∃ level,
          entry.2 = some level ∧ Level.ofName? level = none := by
  have hrefused := @Call.refused_plain_iff state.filter profile
  rw [configure_eq_call]
  rcases state.call_cases (.plain state.filter profile)
    with ⟨hprofile, hcall⟩ | ⟨hprofile, hbad, hcall⟩ | ⟨thresholds, -, hadd, hcall⟩
  · rw [hcall]
    refine iff_of_false (fun h => ?_) fun h => h.1 hprofile
    cases congrArg Prod.snd h
  · rw [hcall]
    exact iff_of_true rfl ⟨hprofile, hrefused.1 hbad⟩
  · rw [hcall]
    refine iff_of_false nofun fun h => ?_
    have hbad := hrefused.2 h.2
    rw [Call.Refused, hadd] at hbad
    cases hbad

/-! ## The invariant -/

/-- What calls make of a state without sinks and profile whose root handlers are `others`. -/
inductive Tidy (others : List Handler) (state : State) : Prop
  | untouched (sinks : state.sinks = []) (profile : state.profile = none)
      (handlers : state.handlers = others)
  | configured (name : String) (profile : state.profile = some name)
      (handlers : state.handlers = others ++ [.intercept])
      (sinks : state.sinks = [] ∨ ∃ thresholds, state.sinks = [⟨name == "console", thresholds⟩])

section
variable {others : List Handler} {state : State}

theorem withIntercept_of_not_mem (h : Handler.intercept ∉ others) :
    withIntercept others = others ++ [.intercept] :=
  if_neg (by simpa using h)

theorem withIntercept_append : withIntercept (others ++ [.intercept]) = others ++ [.intercept] :=
  if_pos (by simp)

theorem Tidy.call (hothers : Handler.intercept ∉ others) (h : Tidy others state) (c : Call) :
    Tidy others (state.call c).1 := by
  rcases state.call_cases c with ⟨-, hcall⟩ | ⟨-, -, hcall⟩ | ⟨thresholds, -, -, hcall⟩
  · rw [hcall]
    cases h with
    | untouched sinks profile handlers => exact .untouched sinks profile handlers
    | configured name profile handlers sinks => exact .configured name profile handlers sinks
  · rw [hcall]
    cases h with
    | untouched _ profile handlers => exact .untouched rfl profile handlers
    | configured name profile handlers _ => exact .configured name profile handlers (.inl rfl)
  · rw [hcall]
    have hhandlers : withIntercept state.handlers = others ++ [.intercept] := by
      cases h with
      | untouched _ _ handlers => rw [handlers, withIntercept_of_not_mem hothers]
      | configured _ _ handlers _ => rw [handlers, withIntercept_append]
    exact .configured c.profile rfl hhandlers (.inr ⟨thresholds, rfl⟩)

theorem Tidy.after (hothers : Handler.intercept ∉ others) (h : Tidy others state)
    (calls : List Call) : Tidy others (state.after calls) := by
  induction calls generalizing state with
  | nil => exact h
  | cons c rest ih => exact ih (h.call hothers c)

end

/-! ## Calls that return -/

/-- Each of the calls returned. -/
def Returns (start : State) (calls : List Call) : Prop :=
  ∀ earlier c later, calls = earlier ++ c :: later → ((start.after earlier).call c).2 = true

/-- A call is the last one that changed the profile: the profile was another one before, and the
calls behind it are for the same. -/
def LastChange (start : State) (calls : List Call) (c : Call) : Prop :=
  ∃ earlier later, calls = earlier ++ c :: later ∧
    (start.after earlier).profile ≠ some c.profile ∧ ∀ d ∈ later, d.profile = c.profile

section
variable {start : State} {calls : List Call} {c : Call}

theorem returns_nil (start : State) : start.Returns [] := by
  intro earlier c later h
  cases earlier <;> cases h

theorem returns_cons_iff :
    start.Returns (c :: calls) ↔ (start.call c).2 = true ∧ (start.call c).1.Returns calls := by
  constructor
  · intro h
    refine ⟨h [] c calls rfl, fun earlier d later hcalls => h (c :: earlier) d later ?_⟩
    rw [hcalls]
    rfl
  · intro h earlier d later hcalls
    cases earlier with
    | nil =>
        cases hcalls
        exact h.1
    | cons _ rest =>
        cases hcalls
        exact h.2 rest d later rfl

theorem Returns.of_append (h : start.Returns (calls ++ [c])) :
    start.Returns calls ∧ ((start.after calls).call c).2 = true := by
  refine ⟨fun earlier d later hcalls => h earlier d (later ++ [c]) ?_, h calls c [] rfl⟩
  rw [hcalls, List.append_assoc]
  rfl

/-- Calls that all returned leave the sink of the last one that changed the profile. -/
theorem Returns.lastChange (hprofile : start.profile = none) (hne : calls ≠ [])
    (h : start.Returns calls) :
    ∃ c thresholds, start.LastChange calls c ∧ calls.getLast?.map Call.profile = some c.profile ∧
      c.add c.parsed = some thresholds ∧ (start.after calls).profile = some c.profile ∧
      (start.after calls).sinks = [⟨c.profile == "console", thresholds⟩] := by
  induction calls using List.reverseRecOn with
  | nil => exact absurd rfl hne
  | append_singleton calls d ih =>
      obtain ⟨hcalls, hreturn⟩ := h.of_append
      rw [after_append, after_cons, after_nil, List.getLast?_concat]
      rcases (start.after calls).call_cases d
        with ⟨hd, hcall⟩ | ⟨-, -, hcall⟩ | ⟨thresholds, hd, hadd, hcall⟩
      · -- an idle call is not the first one, for no profile was in force at the start
        have hcalls_ne : calls ≠ [] := by
          rintro rfl
          rw [after_nil, hprofile] at hd
          cases hd
        obtain ⟨c, thresholds, ⟨earlier, later, hsplit, hchange, hlater⟩, -, hadd, hc, hsinks⟩ :=
          ih hcalls_ne hcalls
        have hsame : d.profile = c.profile := Option.some.inj (hd.symm.trans hc)
        refine ⟨c, thresholds, ⟨earlier, later ++ [d], ?_, hchange, ?_⟩, congrArg some hsame, hadd,
          ?_, ?_⟩
        · rw [hsplit, List.append_assoc]
          rfl
        · rw [List.forall_mem_append, List.forall_mem_singleton]
          exact ⟨hlater, hsame⟩
        · rw [hcall]
          exact hc
        · rw [hcall]
          exact hsinks
      · rw [hcall] at hreturn
        cases hreturn
      · rw [hcall]
        exact ⟨d, thresholds, ⟨calls, [], rfl, hd, nofun⟩, rfl, hadd, rfl, rfl⟩

/-! ## No output twice -/

structure Fresh (state : State) : Prop where
  sinks : state.sinks = []
  profile : state.profile = none
  handlers : Handler.intercept ∉ state.handlers

theorem Fresh.tidy (h : start.Fresh) (calls : List Call) :
    Tidy start.handlers (start.after calls) :=
  Tidy.after h.handlers (.untouched h.sinks h.profile rfl) calls

theorem count_intercept_append {others : List Handler} (h : Handler.intercept ∉ others) :
    (others ++ [Handler.intercept]).count .intercept = 1 := by
  rw [List.count_append, List.count_eq_zero.2 h, Nat.zero_add]
  rfl

theorem filter_other {others : List Handler} (h : Handler.intercept ∉ others) :
    others.filter (· ≠ .intercept) = others := by
  rw [List.filter_eq_self]
  intro handler hmem
  rw [decide_eq_true_iff]
  rintro rfl
  exact h hmem

/-- Calls of the configuration, of which any may be refused, leave at most one sink and one
intercepting handler, and the other handlers as they were. A call for the profile in force changes
nothing. If all calls returned, there is exactly one sink and one such handler. The sink is the one
of the last profile, with the levels of the filter at the last change of the profile: those of its
modules, and the global one where no entry stands under the empty name. -/
theorem configuration_tidy (hstart : start.Fresh) (calls : List Call) :
    (start.after calls).sinks.length ≤ 1 ∧ (start.after calls).intercepts ≤ 1 ∧
    (start.after calls).handlers.filter (· ≠ .intercept) = start.handlers ∧
    (∀ add profile, (start.after calls).profile = some profile →
      configureWith add (start.after calls) profile = (start.after calls, true)) ∧
    (calls ≠ [] → start.Returns calls →
      (start.after calls).intercepts = 1 ∧
      ∃ c sink, start.LastChange calls c ∧ calls.getLast?.map Call.profile = some c.profile ∧
        (start.after calls).profile = some c.profile ∧ (start.after calls).sinks = [sink] ∧
        sink.console = (c.profile == "console") ∧
        Filter.named sink.thresholds = c.parsed.entries ∧
        ∀ module, (Filter.named sink.thresholds).lookup module =
          (c.parsed.modules.lookup module).or
            (if module = "" then
              some (some (String.ofList (Characters.upper c.parsed.level.toList)))
            else none)) := by
  have hidle : ∀ add profile, (start.after calls).profile = some profile →
      configureWith add (start.after calls) profile = (start.after calls, true) :=
    fun _ _ hprofile => if_pos hprofile
  have hothers := filter_other hstart.handlers
  cases hstart.tidy calls with
  | untouched sinks profile handlers =>
      refine ⟨by simp [sinks], ?_, by rw [handlers, hothers], hidle, fun hne hreturns => ?_⟩
      · rw [intercepts, handlers, List.count_eq_zero.2 hstart.handlers]
        exact Nat.zero_le 1
      · obtain ⟨c, -, -, -, -, hprofile, -⟩ := hreturns.lastChange hstart.profile hne
        rw [profile] at hprofile
        cases hprofile
  | configured name profile handlers sinks =>
      have hcount : (start.after calls).intercepts = 1 := by
        rw [intercepts, handlers, count_intercept_append hstart.handlers]
      refine ⟨?_, Nat.le_of_eq hcount, ?_, hidle, fun hne hreturns => ⟨hcount, ?_⟩⟩
      · rcases sinks with hnone | ⟨thresholds, hone⟩
        · simp [hnone]
        · simp [hone]
      · rw [handlers, List.filter_append, hothers]
        exact List.append_nil _
      · obtain ⟨c, thresholds, hchange, hlast, hadd, hprofile, hsinks⟩ :=
          hreturns.lastChange hstart.profile hne
        have hnamed : Filter.named thresholds = c.parsed.entries :=
          Filter.named_of_resolve? (c.add_sound hadd)
        exact ⟨c, _, hchange, hlast, hprofile, hsinks, rfl, hnamed, fun module =>
          hnamed ▸ Filter.lookup_entries c.parsed module⟩

/-- Four calls that return, of which the first and the third change the profile, over a handler of
another kind; and a call that is refused, after one that returned. -/
theorem configuration_tidy_twice :
    let start : State := ⟨none, [], none, [.other "capture"], 30⟩
    let calls : List Call := [.plain none "default", .plain (some "bogus") "default",
      .plain (some "Debug, a=false") "console", .plain (some "error") "console"]
    let refusing : Call := ⟨none, "console", fun _ => none, nofun⟩
    start.Fresh ∧ start.Returns calls ∧ (start.after calls).intercepts = 1 ∧
      (∃ c sink, start.LastChange calls c ∧ (start.after calls).sinks = [sink] ∧
        sink.console = true ∧
        c.parsed.entries = [("a", none), ("", some "DEBUG")]) ∧
      (start.after [.plain none "default", refusing]).handlers.filter (· ≠ .intercept) =
        [.other "capture"] := by
  intro start calls refusing
  have hstart : start.Fresh := ⟨rfl, rfl, by decide⟩
  have hreturns : start.Returns calls := by
    simp only [calls, returns_cons_iff, returns_nil, and_true]
    decide +kernel
  obtain ⟨-, -, -, -, hexact⟩ := configuration_tidy hstart calls
  obtain ⟨hcount, c, sink, hchange, -, -, hsinks, -, hnamed, -⟩ :=
    hexact (List.cons_ne_nil _ _) hreturns
  obtain ⟨-, -, hothers, -⟩ := configuration_tidy hstart [.plain none "default", refusing]
  have hrun : (start.after calls).sinks =
      [⟨true, [("a", none), ("", some .debug)]⟩] := by decide +kernel
  obtain rfl := (List.cons.inj (hsinks.symm.trans hrun)).1
  exact ⟨hstart, hreturns, hcount, ⟨c, _, hchange, hrun, rfl, hnamed.symm⟩, hothers⟩

/-! ## Refused calls -/

/-- While the profile was in force, a call for another one was refused, and no call has put up a
sink since. -/
def Silenced (start : State) (calls : List Call) (profile : String) : Prop :=
  ∃ earlier d later, calls = earlier ++ d :: later ∧
    (start.after earlier).profile = some profile ∧ d.profile ≠ profile ∧ d.Refused ∧
    ∀ e ∈ later, e.profile = profile ∨ e.Refused

theorem after_of_silent {state : State} {profile : String} (hprofile : state.profile = some profile)
    (hsinks : state.sinks = []) (hcalls : ∀ e ∈ calls, e.profile = profile ∨ e.Refused) :
    (state.after calls).profile = some profile ∧ (state.after calls).sinks = [] := by
  induction calls generalizing state with
  | nil => exact ⟨hprofile, hsinks⟩
  | cons e rest ih =>
      rw [List.forall_mem_cons] at hcalls
      rw [after_cons]
      rcases state.call_cases e with ⟨-, hcall⟩ | ⟨-, -, hcall⟩ | ⟨thresholds, hne, hadd, -⟩
      · rw [hcall]
        exact ih hprofile hsinks hcalls.2
      · rw [hcall]
        exact ih hprofile rfl hcalls.2
      · rcases hcalls.1 with rfl | hrefused
        · exact absurd hprofile hne
        · rw [Call.Refused, hadd] at hrefused
          cases hrefused

theorem silenced_iff (hstart : start.Fresh) {profile : String} :
    start.Silenced calls profile ↔
      (start.after calls).profile = some profile ∧ (start.after calls).sinks = [] := by
  constructor
  · intro h
    rcases h with ⟨earlier, d, later, rfl, hprofile, hne, hrefused, hlater⟩
    rw [after_append, after_cons]
    rcases (start.after earlier).call_cases d
      with ⟨hd, -⟩ | ⟨-, -, hcall⟩ | ⟨thresholds, -, hadd, -⟩
    · exact absurd (Option.some.inj (hd.symm.trans hprofile)) hne
    · rw [hcall]
      exact after_of_silent hprofile rfl hlater
    · rw [Call.Refused, hadd] at hrefused
      cases hrefused
  · intro h
    induction calls using List.reverseRecOn with
    | nil =>
        rw [after_nil, hstart.profile] at h
        cases h.1
    | append_singleton calls d ih =>
        rw [after_append, after_cons, after_nil] at h
        rcases (start.after calls).call_cases d
          with ⟨hd, hcall⟩ | ⟨hd, hrefused, hcall⟩ | ⟨thresholds, -, -, hcall⟩
        · rw [hcall] at h
          -- the idle call joins those behind the refused one
          obtain ⟨earlier, e, later, hsplit, hprofile, hne, hrefused, hlater⟩ := ih h
          have hsame : d.profile = profile := Option.some.inj (hd.symm.trans h.1)
          refine ⟨earlier, e, later ++ [d], ?_, hprofile, hne, hrefused, ?_⟩
          · rw [hsplit, List.append_assoc]
            rfl
          · rw [List.forall_mem_append, List.forall_mem_singleton]
            exact ⟨hlater, .inl hsame⟩
        · rw [hcall] at h
          refine ⟨calls, d, [], rfl, h.1, ?_, hrefused, nofun⟩
          rintro rfl
          exact hd h.1
        · rw [hcall] at h
          cases h.2

/-- How a call ends after any calls before it. It is refused exactly if its profile is not in force
and its sink is refused. Then the sinks are gone, and all else but the environment is as it was. If
it returns, there is one sink of its profile, unless the profile was silenced: then there is none,
and the call does not put one up. -/
theorem reconfiguration_outcome (hstart : start.Fresh) (calls : List Call) (c : Call) :
    (((start.after calls).call c).2 = false ↔
      (start.after calls).profile ≠ some c.profile ∧ c.Refused) ∧
    (((start.after calls).call c).2 = false →
      ((start.after calls).call c).1 =
        { start.after calls with filter := c.filter, sinks := [] }) ∧
    (((start.after calls).call c).2 = true →
      ((∃ thresholds, ((start.after calls).call c).1.sinks =
          [⟨c.profile == "console", thresholds⟩]) ↔ ¬ start.Silenced calls c.profile)) := by
  rw [silenced_iff hstart]
  rcases (start.after calls).call_cases c
    with ⟨hprofile, hcall⟩ | ⟨hprofile, hrefused, hcall⟩ | ⟨thresholds, hprofile, hadd, hcall⟩
  · rw [hcall]
    refine ⟨iff_of_false nofun fun h => h.1 hprofile, nofun, fun _ => ?_⟩
    cases hstart.tidy calls with
    | untouched _ profile _ =>
        rw [profile] at hprofile
        cases hprofile
    | configured name profile _ sinks =>
        obtain rfl : name = c.profile := Option.some.inj (profile.symm.trans hprofile)
        rcases sinks with hnone | hone
        · refine iff_of_false (fun h => ?_) (fun h => h ⟨hprofile, hnone⟩)
          rcases h with ⟨thresholds, hsinks⟩
          cases hnone.symm.trans hsinks
        · refine iff_of_true hone fun h => ?_
          rcases hone with ⟨thresholds, hsinks⟩
          cases h.2.symm.trans hsinks
  · rw [hcall]
    exact ⟨iff_of_true rfl ⟨hprofile, hrefused⟩, fun _ => rfl, nofun⟩
  · rw [hcall]
    refine ⟨iff_of_false nofun fun h => ?_, nofun,
      fun _ => iff_of_true ⟨thresholds, rfl⟩ fun h => hprofile h.1⟩
    rw [Call.Refused, hadd] at h
    cases h.2

/-- After a refused call for the console, a call for the profile from before returns without a sink,
and one for the console puts up its own. -/
theorem reconfiguration_outcome_silenced :
    let start : State := {}
    let first : Call := .plain none "default"
    let refused : Call := .plain (some "info,a=loud") "console"
    let console : Call := .plain (some "trace") "console"
    start.Fresh ∧
      ((start.after [first]).call refused).1 =
        { start.after [first] with filter := some "info,a=loud", sinks := [] } ∧
      (¬ ∃ thresholds,
        ((start.after [first, refused]).call first).1.sinks = [⟨false, thresholds⟩]) ∧
      ∃ thresholds,
        ((start.after [first, refused]).call console).1.sinks = [⟨true, thresholds⟩] := by
  intro start first refused console
  have hstart : start.Fresh := ⟨rfl, rfl, by decide⟩
  have hrefused : refused.Refused :=
    Call.refused_plain_iff.2 ⟨("a", some "LOUD"), by decide +kernel, "LOUD", rfl, by decide⟩
  have hsilenced : start.Silenced [first, refused] "default" :=
    ⟨[first], refused, [], rfl, by decide +kernel, by decide +kernel, hrefused, nofun⟩
  obtain ⟨hfails, hdrops, -⟩ := reconfiguration_outcome hstart [first] refused
  obtain ⟨-, -, hidle⟩ := reconfiguration_outcome hstart [first, refused] first
  obtain ⟨-, -, hchange⟩ := reconfiguration_outcome hstart [first, refused] console
  refine ⟨hstart, hdrops (hfails.2 ⟨by decide +kernel, hrefused⟩), fun h => ?_, ?_⟩
  · exact (hidle (by decide +kernel)).1 h hsilenced
  · refine (hchange (by decide +kernel)).2 fun h => ?_
    have hprofile : (start.after [first, refused]).profile ≠ some "console" := by decide +kernel
    exact hprofile ((silenced_iff hstart).1 h).1

/-- A call for the console with an unknown level takes the sink away. The call after it, for the
profile that is taken to be in force, returns and leaves it so. -/
theorem refused_call_drops_sink :
    let before : State := State.after {} [.plain none "default"]
    let refused := before.call (.plain (some "bogus") "console")
    let again := refused.1.call (.plain none "default")
    refused.2 = false ∧ refused.1.sinks ≠ before.sinks ∧ again.2 = true ∧ again.1.sinks = [] := by
  decide +kernel

end

end State

end TypedLambda.Logging
