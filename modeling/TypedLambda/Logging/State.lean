import TypedLambda.Event
import TypedLambda.Logging.Filter

/-!
# The state of logging

Records of this program go to the sinks that are installed. Records of the system logger
go there too once an intercepting handler stands at its root; before, those of some weight
are written as they are.

Configuring a profile replaces the sinks by one for that profile. The old sinks are gone by
the time the levels of the new one are looked at, so an unknown level leaves no sink.
-/

namespace TypedLambda.Logging

inductive Handler where
  | intercept
  | other (name : String)
deriving DecidableEq

structure Sink where
  /-- Whether lines go to the console instead of the error stream. -/
  console : Bool
  thresholds : List (String × Option Level)
deriving DecidableEq

structure Record where
  level : String
  severity : Int
  module : String
  function : String
  message : Text

def Record.ofEvent (event : Event) : Record where
  level := event.level.name
  severity := event.level.severity
  module := event.origin.1
  function := event.origin.2
  message := event.text

inductive Line where
  | console (record : Record)
  | stream (record : Record)
  | raw (text : String)

structure State where
  filter : Option String := none
  sinks : List Sink := []
  profile : Option String := none
  handlers : List Handler := []
  /-- The least level that the root of the system logger lets pass. -/
  rootLevel : Int := 30

namespace State

def intercepts (state : State) : Nat := state.handlers.count .intercept

def withIntercept (handlers : List Handler) : List Handler :=
  if handlers.contains .intercept then handlers else handlers ++ [.intercept]

/-- Configure a profile, where `add` gives the levels of a new sink from the filter, unless the
sink is refused. The second component says whether a sink could be installed. A profile that
is in force already is left alone. -/
def configureWith (add : Filter → Option (List (String × Option Level))) (state : State)
    (profile : String) : State × Bool :=
  if state.profile = some profile then (state, true)
  else
    match add (Filter.ofEnvironment none state.filter) with
    | none => ({ state with sinks := [] }, false)
    | some thresholds =>
        ({ state with
            sinks := [⟨profile == "console", thresholds⟩]
            handlers := withIntercept state.handlers
            profile := some profile }, true)

def configure (state : State) (profile : String) : State × Bool :=
  state.configureWith Filter.thresholds? profile

/-- The lines that the sinks make of a record. No sink takes anything below `trace`. -/
def emit (state : State) (record : Record) : List Line :=
  state.sinks.filterMap fun sink =>
    if Level.trace.severity ≤ record.severity &&
        passes sink.thresholds record.module record.severity then
      some (if sink.console then .console record else .stream record)
    else none

def announce (state : State) (events : List Event) : List Line :=
  events.flatMap fun event => state.emit (.ofEvent event)

def systemLevelName (severity : Int) : String :=
  match [Level.debug, .info, .warning, .error, .critical].find? (·.severity == severity) with
  | some level => level.name
  | none => "Level " ++ toString severity

/-- A call to the system logger. Calls without weight and calls below the root's level are
dropped. Without an intercepting handler, warnings and more are written as they are. -/
def system (state : State) (module : String) (severity : Int) (message : String) : List Line :=
  if severity ≤ 0 || severity < state.rootLevel then []
  else if state.handlers.contains .intercept then
    state.emit ⟨systemLevelName severity, severity, module, "caller", message⟩
  else if Level.warning.severity ≤ severity then [.raw (message ++ "\n")]
  else []

end State

end TypedLambda.Logging
