import RegexDiagram.Json
import RegexDiagram.Json.Units

/-!
The text of a JSON document, in ASCII. Other characters are written as escapes of their 16 bit
units.
-/
namespace RegexDiagram.Json

def hexDigit (n : Nat) : Char :=
  if n < 10 then Char.ofNat ('0'.toNat + n) else Char.ofNat ('a'.toNat + (n - 10))

def escapeUnit (n : Nat) : List Char :=
  ['\\', 'u', hexDigit (n / 4096 % 16), hexDigit (n / 256 % 16), hexDigit (n / 16 % 16),
    hexDigit (n % 16)]

def escapeChar (c : Char) : List Char :=
  if c = '"' then ['\\', '"']
  else if c = '\\' then ['\\', '\\']
  else if 0x20 ≤ c.toNat ∧ c.toNat < 0x7f then [c]
  else (units c).flatMap escapeUnit

def quote (s : String) : String := String.ofList ('"' :: s.toList.flatMap escapeChar ++ ['"'])

namespace Number

/-- Positional text of `digits / 10 ^ places`, without zeros at the end of the fraction. -/
def renderFraction (digits : Int) (places : Nat) : String :=
  let text := (toString digits.natAbs).toList
  let padded := List.replicate (places + 1 - text.length) '0' ++ text
  let whole := padded.take (padded.length - places)
  let fraction := ((padded.drop (padded.length - places)).reverse.dropWhile (· = '0')).reverse
  String.ofList ((if digits < 0 then ['-'] else []) ++ whole
    ++ (if fraction.isEmpty then [] else '.' :: fraction))

def render : Number → String
  | integer n => toString n
  | decimal digits exponent =>
      if 0 ≤ exponent then toString digits ++ "e" ++ toString exponent
      else renderFraction digits exponent.natAbs
  | infinity negative => if negative then "-Infinity" else "Infinity"
  | nan => "NaN"

end Number

mutual

/-- Writes a value after what has been written. -/
def write (out : String) : Json → String
  | null => out ++ "null"
  | bool b => out ++ if b then "true" else "false"
  | number n => out ++ n.render
  | string s => out ++ quote s
  | array [] => out ++ "[]"
  | array (item :: items) => writeItems (write (out ++ "[") item) items ++ "]"
  | object [] => out ++ "\x7b\x7d"
  | object (field :: fields) =>
      writeFields (write (out ++ "\x7b" ++ quote field.1 ++ ":") field.2) fields ++ "\x7d"

def writeItems (out : String) : List Json → String
  | [] => out
  | item :: items => writeItems (write (out ++ ",") item) items

def writeFields (out : String) : List (String × Json) → String
  | [] => out
  | field :: fields =>
      writeFields (write (out ++ "," ++ quote field.1 ++ ":") field.2) fields

end

def render (j : Json) : String := write "" j

end RegexDiagram.Json
