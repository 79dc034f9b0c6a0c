import TypedLambda.Characters.CaseTable
import TypedLambda.Characters.CasedTable
import TypedLambda.Characters.Basic

/-!
# Lower and upper case of texts

Lower case goes character by character but for two: a dotted capital I becomes two
characters, and a capital sigma takes its final form at the end of a word. Upper case goes
character by character; some characters become sequences.
-/

namespace TypedLambda.Characters

/-- A character that is skipped when the neighbours of a sigma are looked for. -/
def isIgnorable (c : Char) : Bool := inRanges ignorableRanges c.toNat

def isCased (c : Char) : Bool := inRanges casedRanges c.toNat

/-- Whether the nearest character that counts has case. -/
def startsCased : List Char → Bool
  | [] => false
  | c :: rest => if isIgnorable c then startsCased rest else isCased c

def lowerChar (c : Char) : List Char :=
  if c = 'İ' then ['i', Char.ofNat 0x307]
  else [Char.ofNat (mapCode lowerRuns c.toNat)]

/-- The lower case of a text, where `cased` says whether a letter with case comes before. -/
def lowerFrom (cased : Bool) : List Char → List Char
  | [] => []
  | c :: rest =>
      (if c = 'Σ' then [if cased && !startsCased rest then 'ς' else 'σ'] else lowerChar c) ++
        lowerFrom (if isIgnorable c then cased else isCased c) rest

def lower (cs : List Char) : List Char := lowerFrom false cs

def upperChar (c : Char) : List Char :=
  match upperSequences.lookup c.toNat with
  | some codes => codes.map Char.ofNat
  | none => [Char.ofNat (mapCode upperRuns c.toNat)]

def upper (cs : List Char) : List Char := cs.flatMap upperChar

end TypedLambda.Characters
