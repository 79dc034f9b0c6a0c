import TypedLambda.Characters.Case
import TypedLambda.Logging.Level
import TypedLambda.Table

/-!
# Log filters

A filter is written as parts between commas. A part `module=level` sets the level of a
module, and `module=false` silences it; a part without an equals sign sets the global
level. Later parts win over earlier ones.
-/

namespace TypedLambda.Logging

/-- The levels as they are written: in lower case the global one, in upper case those of
the modules. A module without a level is silenced. -/
structure Filter where
  level : String := "info"
  modules : List (String × Option String) := []
deriving DecidableEq

namespace Filter

def read (filter : Filter) (part : List Char) : Filter :=
  match Characters.cut? '=' part with
  | some (name, level) =>
      let level := Characters.trim level
      let setting : Option String :=
        if level = ['f', 'a', 'l', 's', 'e'] then none
        else some (String.ofList (Characters.upper level))
      { filter with
        modules := Table.insert (String.ofList (Characters.trim name)) setting filter.modules }
  | none => if part.isEmpty then filter else { filter with level := String.ofList part }

def parts (text : List Char) : List (List Char) :=
  (Characters.splitOn ',' (Characters.lower text)).map Characters.trim

def parse (text : String) : Filter := (parts text.toList).foldl read {}

def ofEnvironment (given environment : Option String) : Filter :=
  parse ((given.or environment).getD "info")

def entries (filter : Filter) : List (String × Option String) :=
  if Table.has "" filter.modules then filter.modules
  else filter.modules ++
    [("", some (String.ofList (Characters.upper filter.level.toList)))]

def resolve? : List (String × Option String) → Option (List (String × Option Level))
  | [] => some []
  | (name, none) :: rest => (resolve? rest).map ((name, none) :: ·)
  | (name, some level) :: rest => do
      let level ← Level.ofName? level
      let rest ← resolve? rest
      return (name, some level) :: rest

def thresholds? (filter : Filter) : Option (List (String × Option Level)) :=
  resolve? filter.entries

end Filter

/-- The enclosing modules of a module, itself first and the empty name last. -/
def enclosing (parts : List (List Char)) : List (List Char) :=
  match parts with
  | [] => []
  | _ => (List.range parts.length).map fun i =>
      ['.'].intercalate (parts.take (parts.length - i))

/-- Whether the levels let a record of a module pass: the entry of the nearest enclosing
module decides, and a module without any passes. -/
def passes (thresholds : List (String × Option Level)) (name : String) (severity : Int) :
    Bool :=
  let scopes := (enclosing (Characters.splitOn '.' name.toList)).map String.ofList ++ [""]
  match scopes.findSome? fun scope => thresholds.lookup scope with
  | some (some level) => level.severity ≤ severity
  | some none => false
  | none => true

end TypedLambda.Logging
