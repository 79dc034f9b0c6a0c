import TypedLambda.Characters.Basic
import TypedLambda.Decimal.Shortest

/-!
# Messages with arguments

A message of the system logger has places for arguments: `%s` takes the text of one, `%d`
takes a number without its fraction, and `%%` is a percent sign. Inside lists and records
texts are quoted.
-/

namespace TypedLambda.Logging

inductive Argument where
  | nothing
  | truth (value : Bool)
  | number (value : Int)
  | float (value : Float)
  | text (value : String)
  | list (items : List Argument)
  | record (entries : List (String × Argument))
deriving Inhabited

def exponentText (exponent : Int) : List Char :=
  let digits := Nat.toDigits 10 exponent.natAbs
  (if exponent < 0 then '-' else '+') :: (List.replicate (2 - digits.length) '0' ++ digits)

/-- Lay out digits whose first stands at the place `exponent`: with a point and at least one
digit on either side of it from ten-thousandths up to below ten to the sixteenth, and in
scientific form beyond. -/
def layOut (digits : List Char) (exponent : Int) : List Char :=
  if -4 ≤ exponent && exponent < 16 then
    if exponent < 0 then
      ['0', '.'] ++ List.replicate (-exponent - 1).toNat '0' ++ digits
    else
      let before := (exponent + 1).toNat
      let whole := digits.take before
      let fraction := digits.drop before
      whole ++ List.replicate (before - whole.length) '0' ++ ['.'] ++
        (if fraction.isEmpty then ['0'] else fraction)
  else
    digits.take 1 ++ (if digits.length ≤ 1 then [] else '.' :: digits.drop 1) ++
      ['e'] ++ exponentText exponent

def floatText (x : Float) : List Char :=
  match Decimal.Binary.ofFloat? x with
  | none =>
      if x < 0 then ['-', 'i', 'n', 'f']
      else if x > 0 then ['i', 'n', 'f']
      else ['n', 'a', 'n']
  | some x =>
      let body :=
        if x.mantissa = 0 then ['0', '.', '0']
        else
          let d := x.shortest
          layOut (Decimal.significant d.digits)
            (d.exponent + ((Nat.toDigits 10 d.digits).length - 1 : Nat))
      if x.negative then '-' :: body else body

def isHidden (c : Char) : Bool :=
  c != ' ' && (Characters.isBlank c ||
    Characters.inRanges [(0x0, 0x1f), (0x7f, 0xa0), (0xad, 0xad)] c.toNat)

def codeText (code : Nat) : List Char :=
  let digits := Nat.toDigits 16 code
  if code < 0x100 then ['\\', 'x'] ++ List.replicate (2 - digits.length) '0' ++ digits
  else ['\\', 'u'] ++ List.replicate (4 - digits.length) '0' ++ digits

def quotedChar (quote c : Char) : List Char :=
  if c = quote || c = '\\' then ['\\', c]
  else if c = '\n' then ['\\', 'n']
  else if c = '\r' then ['\\', 'r']
  else if c = '\t' then ['\\', 't']
  else if isHidden c then codeText c.toNat
  else [c]

/-- A text in single quotes, or in double quotes if it has single ones only. -/
def quoted (cs : List Char) : List Char :=
  let quote := if cs.contains '\'' && !cs.contains '"' then '"' else '\''
  [quote] ++ cs.flatMap (quotedChar quote) ++ [quote]

namespace Argument

mutual

def innerText : Argument → List Char
  | .nothing => ['N', 'o', 'n', 'e']
  | .truth true => ['T', 'r', 'u', 'e']
  | .truth false => ['F', 'a', 'l', 's', 'e']
  | .number value => (toString value).toList
  | .float value => floatText value
  | .text value => quoted value.toList
  | .list items => ['['] ++ [',', ' '].intercalate (itemTexts items) ++ [']']
  | .record entries => ['\x7b'] ++ [',', ' '].intercalate (entryTexts entries) ++ ['\x7d']

def itemTexts : List Argument → List (List Char)
  | [] => []
  | item :: rest => item.innerText :: itemTexts rest

def entryTexts : List (String × Argument) → List (List Char)
  | [] => []
  | (key, item) :: rest =>
      (quoted key.toList ++ [':', ' '] ++ item.innerText) :: entryTexts rest

end

def asText : Argument → List Char
  | .text value => value.toList
  | argument => argument.innerText

def asNumber? : Argument → Option Int
  | .truth value => some (if value then 1 else 0)
  | .number value => some value
  | .float value => (Decimal.Binary.ofFloat? value).map Decimal.Binary.truncate
  | _ => none

def asNumberText (argument : Argument) : List Char :=
  match argument.asNumber? with
  | some n => (toString n).toList
  | none => argument.asText

end Argument

def fill : List Char → List Argument → List Char
  | '%' :: '%' :: rest, arguments => '%' :: fill rest arguments
  | '%' :: 's' :: rest, argument :: arguments => argument.asText ++ fill rest arguments
  | '%' :: 'd' :: rest, argument :: arguments => argument.asNumberText ++ fill rest arguments
  | c :: rest, arguments => c :: fill rest arguments
  | [], _ => []

/-- The message of a call. A message without arguments is taken as it is. -/
def formatMessage (message : String) (arguments : List Argument) : String :=
  if arguments.isEmpty then message else String.ofList (fill message.toList arguments)

end TypedLambda.Logging
