import RegexDiagram.Json.Digit
import RegexDiagram.Json.Lexer

/-!
JSON values as whole numbers. Booleans count as zero and one. A number with a fraction or an
exponent is first rounded to 53 significant bits and then cut off at the point. A string may hold
a number with a sign, single underscores between its digits and space around it.
-/
namespace RegexDiagram.Json

/-- `a / b` rounded to the nearest whole number, halves to the even one. -/
def roundHalfEven (a b : Nat) : Nat :=
  if b < 2 * (a % b) ∨ (2 * (a % b) = b ∧ a / b % 2 = 1) then a / b + 1 else a / b

inductive WholeError
  | notWhole
  | infinite
deriving DecidableEq

/-- The whole part of `num / den`, rounded to 53 significant bits. Both are positive. -/
def wholePart (num den : Nat) : Except WholeError Nat :=
  let scale : Int := num.log2 - den.log2 - 53
  let a := num <<< (-scale).toNat
  let b := den <<< scale.toNat
  let (b, scale) := if 1 <<< 53 ≤ a / b then (2 * b, scale + 1) else (b, scale)
  let rounded := roundHalfEven a b
  let n := rounded <<< scale.toNat >>> (-scale).toNat
  if 1 <<< 1024 ≤ n then .error .infinite else .ok n

/-- The whole part of `digits * 10 ^ exponent`. Exponents far out of range are told apart by the
number of digits. -/
def wholeDecimal (digits : Nat) (exponent : Int) : Except WholeError Nat :=
  let magnitude := exponent + (Nat.toDigits 10 digits).length
  if digits = 0 ∨ magnitude < 0 then .ok 0
  else if 310 < magnitude then .error .infinite
  else wholePart (digits * Nat.pow 10 exponent.toNat) (Nat.pow 10 (-exponent).toNat)

namespace Number

def whole : Number → Except WholeError Int
  | integer n => .ok n
  | decimal digits exponent =>
      (wholeDecimal digits.natAbs exponent).map (Lexeme.withSign (decide (digits < 0)))
  | infinity _ => .error .infinite
  | nan => .error .notWhole

end Number

/-- Reads digits, with single underscores between them. -/
def readDigits : List Char → Option (List Nat)
  | [] => none
  | [c] => (digitValue? c).map ([·])
  | c :: '_' :: rest => (digitValue? c).bind fun d => (readDigits rest).map (d :: ·)
  | c :: rest => (digitValue? c).bind fun d => (readDigits rest).map (d :: ·)

def trimBlank (cs : List Char) : List Char :=
  ((cs.dropWhile isBlank).reverse.dropWhile isBlank).reverse

/-- Reads a text as a whole number. -/
def readWhole (cs : List Char) : Except WholeError Int :=
  let sign := Lexeme.readSign (trimBlank cs)
  match readDigits sign.2 with
  | none => .error .notWhole
  | some digits =>
      if Lexeme.maxWholeDigits < digits.length then .error .notWhole
      else .ok (Lexeme.withSign sign.1 (digits.foldl (fun n d => n * 10 + d) 0))

/-- A JSON value as a whole number. -/
def whole : Json → Except WholeError Int
  | bool b => .ok (if b then 1 else 0)
  | number n => n.whole
  | string s => readWhole s.toList
  | null => .error .notWhole
  | array _ => .error .notWhole
  | object _ => .error .notWhole

end RegexDiagram.Json
