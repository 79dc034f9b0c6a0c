import TypedLambda.Characters.Case
import TypedLambda.Settings.Basic
import TypedLambda.Settings.Raw
import TypedLambda.Settings.Reference

/-!
# Loading the settings

Each setting is taken from the first place that has it: the overrides of the caller, the
environment, the settings file, the default. Names count in any case. In the environment
and in the file a setting goes by its name behind `FULLSIMPLE_`, and the word `null` stands
for nothing.
-/

namespace TypedLambda

inductive Setting where
  | maxSteps
  | detectAliasCycles
  | traceSteps
deriving DecidableEq

namespace Setting

def name : Setting → String
  | .maxSteps => "max_steps"
  | .detectAliasCycles => "detect_alias_cycles"
  | .traceSteps => "trace_steps"

def variableName (setting : Setting) : String := "fullsimple_" ++ setting.name

end Setting

namespace Settings

/-- A value of the environment or of the settings file. -/
def ofVariable (value : String) : Raw := if value = "null" then .null else .text value

def isNamed (name given : String) : Bool :=
  String.ofList (Characters.lower given.toList) == name

def lastOf {α : Type} (name : String) (entries : List (String × α)) : Option α :=
  (entries.reverse.find? fun entry => isNamed name entry.1).map Prod.snd

structure Sources where
  overrides : List (String × Raw) := []
  environment : List (String × String) := []
  file : String := ""

def Sources.inFile? (sources : Sources) (setting : Setting) : Option String :=
  (lastOf setting.variableName
    (SettingsFile.variablesOf sources.environment sources.file)).join

/-- The raw value of a setting, from the first place that has it. Of overrides that differ
in case only, the first one counts. -/
def Sources.find? (sources : Sources) (setting : Setting) : Option Raw :=
  match sources.overrides.find? fun entry => isNamed setting.name entry.1 with
  | some (_, raw) => some raw
  | none =>
      ((lastOf setting.variableName sources.environment).or
        (sources.inFile? setting)).map ofVariable

def readSetting {α : Type} (sources : Sources) (setting : Setting) (default : α)
    (read : Raw → Except Invalid α) : Except (Setting × Invalid) α :=
  match sources.find? setting with
  | none => .ok default
  | some raw => (read raw).mapError fun invalid => (setting, invalid)

def load (sources : Sources) : Except (List (Setting × Invalid)) Settings :=
  let maxSteps := readSetting sources .maxSteps none Raw.toLimit
  let detect := readSetting sources .detectAliasCycles true Raw.toSwitch
  let trace := readSetting sources .traceSteps false Raw.toSwitch
  match maxSteps, detect, trace with
  | .ok maxSteps, .ok detectAliasCycles, .ok traceSteps =>
      .ok { maxSteps, detectAliasCycles, traceSteps }
  | _, _, _ => .error (refusal maxSteps ++ refusal detect ++ refusal trace)
where
  refusal {α : Type} : Except (Setting × Invalid) α → List (Setting × Invalid)
    | .ok _ => []
    | .error reason => [reason]

end Settings

end TypedLambda
