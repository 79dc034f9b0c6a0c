import TypedLambda.Characters.Basic
import TypedLambda.Decimal.Binary

/-!
# Raw setting values

A setting arrives as a value of any shape. A limit and a switch are read from it leniently:
numbers and booleans stand in for each other where nothing is lost, and texts are read by
small grammars.

A number in a text is plain (a sign and digits) or becomes so when it is cleaned: blanks
around it, a plus sign, zeros in front, a fraction of zeros and single underscores are
taken away.
-/

namespace TypedLambda

inductive Raw where
  | null
  | bool (value : Bool)
  | int (value : Int)
  | float (value : Float)
  | text (value : String)
  | compound

inductive Invalid where
  | notInteger
  | fractional
  | infinite
  | notNumber
  | tooLarge
  | tooSmall
  | notSwitchText
  | notSwitch
deriving DecidableEq

namespace Invalid

def code : Invalid → String
  | .notInteger => "int_parsing"
  | .fractional => "int_from_float"
  | .infinite => "finite_number"
  | .notNumber => "int_type"
  | .tooLarge => "int_parsing_size"
  | .tooSmall => "greater_than_equal"
  | .notSwitchText => "bool_parsing"
  | .notSwitch => "bool_type"

end Invalid

namespace Raw

def ofDigits (digits : List Char) : Nat :=
  digits.foldl (fun n digit => 10 * n + (digit.toNat - '0'.toNat)) 0

/-- The most digits that a number in a text may have. -/
def maxDigits : Nat := 4300

def readPlain (cs : List Char) : Except Invalid Int :=
  let negative := cs.head? == some '-'
  let body := if negative then cs.tail else cs
  let digits := body.takeWhile Char.isDigit
  if digits.isEmpty || (digits.head? == some '0' && digits.length != 1) then
    .error .notInteger
  else if maxDigits < digits.length then .error .tooLarge
  else if digits.length != body.length then .error .notInteger
  else .ok (if negative then -(ofDigits digits : Int) else ofDigits digits)

def startsNumber (c : Char) : Bool := c == '-' || (c.isDigit && c != '0')

/-- Drop zeros, and underscores among them, behind a zero. The last of them stays when
nothing or a fraction follows. -/
def dropZerosAfter? (last : Char) : List Char → Option (List Char)
  | [] => some [last]
  | c :: rest =>
      if c == '0' || c == '_' then dropZerosAfter? c rest
      else if startsNumber c then some (c :: rest)
      else if c == '.' then some (last :: c :: rest)
      else none

def dropZeros? : List Char → Option (List Char)
  | [] => none
  | c :: rest =>
      if c == '0' then dropZerosAfter? c rest
      else if startsNumber c then some (c :: rest)
      else none

def dropFraction? (cs : List Char) : Option (List Char) :=
  match Characters.cut? '.' cs with
  | none => some cs
  | some (whole, fraction) =>
      if !fraction.isEmpty && fraction.all (· == '0') then some whole else none

def dropPlus? : List Char → Option (List Char)
  | '+' :: '-' :: _ => none
  | '+' :: rest => some rest
  | cs => some cs

def hasInnerUnderscores (cs : List Char) : Bool :=
  cs.contains '_' && (Characters.splitOn '_' cs).all fun group => !group.isEmpty

def cleanDigits? (cs : List Char) : Option (List Char) := do
  let bare ← dropFraction? (← dropZeros? cs)
  return if hasInnerUnderscores bare then bare.filter (· != '_') else bare

def clean? (cs : List Char) : Option (List Char) := do
  match ← dropPlus? (Characters.trimBy Characters.isSpace cs) with
  | '-' :: rest => return '-' :: (← cleanDigits? rest)
  | bare => cleanDigits? bare

/-- The number in a text. Its size is looked at only if the text is plain as it stands. -/
def readInt (cs : List Char) : Except Invalid Int :=
  match readPlain cs with
  | .error .notInteger =>
    match (clean? cs).map readPlain with
    | some (.ok n) => .ok n
    | _ => .error .notInteger
  | outcome => outcome

def fitsWord (n : Int) : Bool := -Int.pow 2 63 ≤ n && n < Int.pow 2 63

def wholeNumber (x : Float) : Except Invalid Int :=
  match Decimal.Binary.ofFloat? x with
  | none => .error .infinite
  | some x =>
      if !x.isWhole then .error .fractional
      else if fitsWord x.truncate && x.truncate != -Int.pow 2 63 then .ok x.truncate
      else .error .tooLarge

def atLeastOne (n : Int) : Except Invalid (Option Nat) :=
  if n < 1 then .error .tooSmall else .ok (some n.toNat)

def toLimit : Raw → Except Invalid (Option Nat)
  | .null => .ok none
  | .bool value => atLeastOne (if value then 1 else 0)
  | .int value => atLeastOne value
  | .float value => wholeNumber value >>= atLeastOne
  | .text value => readInt value.toList >>= atLeastOne
  | .compound => .error .notNumber

def onWords : List String := ["1", "true", "t", "yes", "y", "on"]

def offWords : List String := ["0", "false", "f", "no", "n", "off"]

def switchOf (n : Int) : Except Invalid Bool :=
  if n = 1 then .ok true else if n = 0 then .ok false else .error .notSwitchText

def toSwitch : Raw → Except Invalid Bool
  | .bool value => .ok value
  | .int value => if fitsWord value then switchOf value else .error .notSwitch
  | .float value =>
      match wholeNumber value with
      | .ok n => switchOf n
      | .error _ => .error .notSwitch
  | .text value =>
      let word := value.map Char.toLower
      if onWords.contains word then .ok true
      else if offWords.contains word then .ok false
      else .error .notSwitchText
  | .null => .error .notSwitch
  | .compound => .error .notSwitch

end Raw

end TypedLambda
