import TypedLambda.Characters.Basic

/-!
# Settings files

A settings file holds entries `name=value`, each ended by a line break. A name may stand
behind the word `export` and in single quotes; a value may be in single or double quotes,
where it can go over several lines and hold escapes, or end at a comment. A name alone is
an entry without a value. What cannot be read is skipped to the end of its line.
-/

namespace TypedLambda.SettingsFile

open Characters (isBlank)

def plainBreaks : List Char → List Char
  | '\r' :: '\n' :: rest => '\n' :: plainBreaks rest
  | '\r' :: rest => '\n' :: plainBreaks rest
  | c :: rest => c :: plainBreaks rest
  | [] => []

def dropMark : List Char → List Char
  | c :: rest => if c.toNat = 0xFEFF then rest else c :: rest
  | [] => []

def isInline (c : Char) : Bool := isBlank c && c != '\n'

def skipInline (cs : List Char) : List Char := cs.dropWhile isInline

def skipExport : List Char → List Char
  | 'e' :: 'x' :: 'p' :: 'o' :: 'r' :: 't' :: c :: rest =>
      if isInline c then skipInline rest else 'e' :: 'x' :: 'p' :: 'o' :: 'r' :: 't' :: c :: rest
  | cs => cs

def nextLine (cs : List Char) : List Char := (cs.dropWhile (· != '\n')).tail

/-- What a reader found together with what is left, or where it gave up. -/
abbrev Attempt := Except (List Char)

def isNameChar (c : Char) : Bool := !isBlank c && c != '=' && c != '#'

def readName (cs : List Char) : Attempt (Option (List Char) × List Char) :=
  match cs with
  | '#' :: _ => .ok (none, cs)
  | '\'' :: inner =>
      match inner.takeWhile (· != '\''), inner.dropWhile (· != '\'') with
      | [], _ => .error cs
      | _, [] => .error cs
      | name, _ :: rest => .ok (some name, rest)
  | _ =>
      match cs.takeWhile isNameChar with
      | [] => .error cs
      | name => .ok (some name, cs.dropWhile isNameChar)

/-- The characters up to a closing quote and what follows it. A backslash keeps the next
character from closing. -/
def readQuoted? (quote : Char) : List Char → Option (List Char × List Char)
  | [] => none
  | '\\' :: c :: rest => (readQuoted? quote rest).map fun (cs, left) => ('\\' :: c :: cs, left)
  | c :: rest =>
      if c = quote then some ([], rest)
      else (readQuoted? quote rest).map fun (cs, left) => (c :: cs, left)

def unescape (table : List (Char × Char)) : List Char → List Char
  | '\\' :: c :: rest =>
      match table.lookup c with
      | some meant => meant :: unescape table rest
      | none => '\\' :: unescape table (c :: rest)
  | c :: rest => c :: unescape table rest
  | [] => []

def singleEscapes : List (Char × Char) := [('\\', '\\'), ('\'', '\'')]

def doubleEscapes : List (Char × Char) := [
  ('\\', '\\'), ('\'', '\''), ('"', '"'), ('a', '\x07'), ('b', '\x08'), ('f', '\x0c'),
  ('n', '\n'), ('r', '\r'), ('t', '\t'), ('v', '\x0b')]

def dropComment : List Char → List Char
  | [] => []
  | c :: rest =>
      if isBlank c && (rest.dropWhile isBlank).head? == some '#' then []
      else c :: dropComment rest

/-- The value of an entry, from behind the equals sign. A comment may follow at once if a
blank stands before it. -/
def readValue (cs : List Char) : Attempt (List Char × List Char) :=
  match skipInline cs with
  | '\'' :: inner =>
      match readQuoted? '\'' inner with
      | some (value, rest) => .ok (unescape singleEscapes value, rest)
      | none => .error ('\'' :: inner)
  | '"' :: inner =>
      match readQuoted? '"' inner with
      | some (value, rest) => .ok (unescape doubleEscapes value, rest)
      | none => .error ('"' :: inner)
  | _ =>
      .ok (Characters.trim (dropComment (cs.takeWhile (· != '\n'))), cs.dropWhile (· != '\n'))

def readEnd (cs : List Char) : Attempt (List Char) :=
  match skipInline cs with
  | [] => .ok []
  | '\n' :: rest => .ok rest
  | '#' :: rest => .ok (nextLine rest)
  | left => .error left

abbrev Entry := String × Option (List Char)

def readEntry (cs : List Char) : Attempt (Option Entry × List Char) := do
  let (name, cs) ← readName (skipExport cs)
  let (value, cs) ←
    match skipInline cs with
    | '=' :: rest => do
        let (value, cs) ← readValue rest
        pure (some value, cs)
    | cs => pure (none, cs)
  let cs ← readEnd cs
  return (name.map fun name => (String.ofList name, value), cs)

/-- All entries. Each one takes at least a character, so `count` is the length of the text
to start with. -/
def readEntries : Nat → List Char → List Entry
  | 0, _ => []
  | count + 1, cs =>
      match cs.dropWhile isBlank with
      | [] => []
      | cs =>
        match readEntry cs with
        | .ok (entry, rest) => entry.toList ++ readEntries count rest
        | .error left => readEntries count (nextLine left)

def read (text : String) : List Entry :=
  let cs := plainBreaks (dropMark text.toList)
  readEntries cs.length cs

end TypedLambda.SettingsFile
