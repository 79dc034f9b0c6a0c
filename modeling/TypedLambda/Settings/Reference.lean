import TypedLambda.Settings.File
import TypedLambda.Table

/-!
# References in settings files

A value may refer to a variable: between a dollar sign with an opening brace and a closing
brace stand a name and possibly, behind `:-`, what to take if there is no such variable.
Entries that come earlier in the file go before the environment.
-/

namespace TypedLambda.SettingsFile

def readReference? (cs : List Char) : Option (String × List Char × List Char) :=
  let name := String.ofList (cs.takeWhile fun c => c != '\x7d' && c != ':')
  match cs.dropWhile fun c => c != '\x7d' && c != ':' with
  | '\x7d' :: rest => some (name, [], rest)
  | ':' :: '-' :: rest =>
    match rest.dropWhile (· != '\x7d') with
    | [] => none
    | _ :: left => some (name, rest.takeWhile (· != '\x7d'), left)
  | _ => none

/-- Replace the references in a value. Each takes characters away, so `count` is the
length of the value to start with. -/
def substitute (find? : String → Option (List Char)) : Nat → List Char → List Char
  | 0, cs => cs
  | _, [] => []
  | count + 1, '$' :: '\x7b' :: rest =>
      match readReference? rest with
      | some (name, fallback, left) =>
          (find? name).getD fallback ++ substitute find? count left
      | none => '$' :: substitute find? count ('\x7b' :: rest)
  | count + 1, c :: rest => c :: substitute find? count rest

def find? (environment : List (String × String)) (earlier : List Entry) (name : String) :
    Option (List Char) :=
  match earlier.lookup name with
  | some value => some (value.getD [])
  | none => (environment.lookup name).map String.toList

def resolveEntry (environment : List (String × String)) (earlier : List Entry)
    (entry : Entry) : List Entry :=
  Table.insert entry.1
    (entry.2.map fun value => substitute (find? environment earlier) value.length value) earlier

def variablesOf (environment : List (String × String)) (text : String) :
    List (String × Option String) :=
  ((read text).foldl (resolveEntry environment) []).map fun (name, value) =>
    (name, value.map String.ofList)

end TypedLambda.SettingsFile
