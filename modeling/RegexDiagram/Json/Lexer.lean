import RegexDiagram.Json
import RegexDiagram.Json.Units

/-!
Cuts the text of a JSON document into punctuation, strings and other scalars. Strings admit no
unescaped control characters. Numbers follow the standard grammar; `NaN`, `Infinity` and
`-Infinity` are numbers too.
-/
namespace RegexDiagram.Json

inductive Lexeme
  | openArray
  | closeArray
  | openObject
  | closeObject
  | comma
  | colon
  | null
  | bool (b : Bool)
  | number (n : Number)
  | text (s : String)
  /-- Where the text goes on with what is no lexeme. Nothing is read behind that. -/
  | malformed

namespace Lexeme

/-! ## Strings -/

def hexValue? (c : Char) : Option Nat :=
  if c.isDigit then some (c.toNat - '0'.toNat)
  else if 'a' ≤ c ∧ c ≤ 'f' then some (c.toNat - 'a'.toNat + 10)
  else if 'A' ≤ c ∧ c ≤ 'F' then some (c.toNat - 'A'.toNat + 10)
  else none

def hexUnit? (a b c d : Char) : Option Nat := do
  let a ← hexValue? a
  let b ← hexValue? b
  let c ← hexValue? c
  let d ← hexValue? d
  return ((a * 16 + b) * 16 + c) * 16 + d

def escaped? : Char → Option Nat
  | '"' => some 0x22
  | '\\' => some 0x5c
  | '/' => some 0x2f
  | 'b' => some 0x08
  | 'f' => some 0x0c
  | 'n' => some 0x0a
  | 'r' => some 0x0d
  | 't' => some 0x09
  | _ => none

/-- Reads a string after its opening quote, as code points and escaped 16 bit units. -/
def readUnits : List Char → Option (List Nat × List Char)
  | [] => none
  | '"' :: rest => some ([], rest)
  | '\\' :: 'u' :: a :: b :: c :: d :: rest =>
      (hexUnit? a b c d).bind fun unit => (readUnits rest).map (·.map (unit :: ·) id)
  | '\\' :: c :: rest =>
      (escaped? c).bind fun unit => (readUnits rest).map (·.map (unit :: ·) id)
  | c :: rest =>
      if c = '\\' ∨ c.toNat < 0x20 then none
      else (readUnits rest).map (·.map (c.toNat :: ·) id)

/-! ## Numbers -/

def digitsValue (ds : List Char) : Nat :=
  ds.foldl (fun n c => n * 10 + (c.toNat - '0'.toNat)) 0

/-- More digits than this are not read as a whole number. -/
def maxWholeDigits : Nat := 4300

/-- The digits of a fraction, if a point and at least one digit follow. -/
def readFraction : List Char → Option (List Char × List Char)
  | '.' :: rest =>
      let ds := rest.takeWhile Char.isDigit
      if ds.isEmpty then none else some (ds, rest.dropWhile Char.isDigit)
  | _ => none

def readSign : List Char → Bool × List Char
  | '-' :: rest => (true, rest)
  | '+' :: rest => (false, rest)
  | cs => (false, cs)

def withSign (negative : Bool) (n : Nat) : Int := if negative then -(n : Int) else n

/-- An exponent, if its letter, perhaps a sign and at least one digit follow. -/
def readExponent : List Char → Option (Int × List Char)
  | c :: rest =>
      if c = 'e' ∨ c = 'E' then
        let sign := readSign rest
        let ds := sign.2.takeWhile Char.isDigit
        if ds.isEmpty then none
        else some (withSign sign.1 (digitsValue ds), sign.2.dropWhile Char.isDigit)
      else none
  | [] => none

/-- Reads a number without its sign. Zero is the only whole part that starts with a zero. -/
def readNumber (negative : Bool) (cs : List Char) : Option (Number × List Char) :=
  let whole := cs.takeWhile Char.isDigit
  let rest := cs.dropWhile Char.isDigit
  if whole.isEmpty ∨ (whole.head? = some '0' ∧ whole ≠ ['0']) then none
  else
    let fraction := readFraction rest
    let afterFraction := (fraction.map (·.2)).getD rest
    let exponent := readExponent afterFraction
    if fraction.isNone ∧ exponent.isNone then
      if maxWholeDigits < whole.length then none
      else some (.integer (withSign negative (digitsValue whole)), rest)
    else
      let places := (fraction.map (·.1)).getD []
      some (.decimal (withSign negative (digitsValue (whole ++ places)))
          ((exponent.map (·.1)).getD 0 - places.length),
        (exponent.map (·.2)).getD afterFraction)

/-! ## Documents -/

def keywords : List (List Char × Lexeme) :=
  [("null".toList, null), ("true".toList, bool true), ("false".toList, bool false),
    ("NaN".toList, number .nan), ("Infinity".toList, number (.infinity false)),
    ("-Infinity".toList, number (.infinity true))]

def readKeyword (cs : List Char) : Option (Lexeme × List Char) :=
  (keywords.find? (·.1.isPrefixOf cs)).map fun k => (k.2, cs.drop k.1.length)

def readScalar (cs : List Char) : Option (Lexeme × List Char) :=
  match readKeyword cs with
  | some r => some r
  | none =>
      let r := match cs with
        | '-' :: rest => readNumber true rest
        | cs => readNumber false cs
      r.map (·.map number id)

/-- Reads one lexeme, if there is no space in front of it. -/
def read (cs : List Char) : Option (Lexeme × List Char) :=
  match cs with
  | '[' :: rest => some (openArray, rest)
  | ']' :: rest => some (closeArray, rest)
  | '\x7b' :: rest => some (openObject, rest)
  | '\x7d' :: rest => some (closeObject, rest)
  | ',' :: rest => some (comma, rest)
  | ':' :: rest => some (colon, rest)
  | '"' :: rest => (readUnits rest).map fun r => (text (String.ofList (joinUnits r.1)), r.2)
  | cs => readScalar cs

def isSpace (c : Char) : Bool := c ∈ [' ', '\t', '\n', '\r']

/-- Reads lexemes to the end of the text. Each takes at least one character, so `fuel` of the
length of the text is enough. -/
def readUpTo : Nat → List Char → List Lexeme
  | 0, cs => if (cs.dropWhile isSpace).isEmpty then [] else [malformed]
  | fuel + 1, cs =>
      match cs.dropWhile isSpace with
      | [] => []
      | cs =>
          match read cs with
          | some (l, rest) => l :: readUpTo fuel rest
          | none => [malformed]

def readAll (cs : List Char) : List Lexeme := readUpTo cs.length cs

end Lexeme
end RegexDiagram.Json
