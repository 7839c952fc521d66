/-!
The 16 bit units of characters. A character that does not fit into one of them is a pair of
surrogates, a high one and a low one.
-/
namespace RegexDiagram.Json

def units (c : Char) : List Nat :=
  if c.toNat < 0x10000 then [c.toNat]
  else [0xd800 + (c.toNat - 0x10000) / 0x400, 0xdc00 + (c.toNat - 0x10000) % 0x400]

def isHighSurrogate (n : Nat) : Bool := 0xd800 ≤ n && n < 0xdc00

def isLowSurrogate (n : Nat) : Bool := 0xdc00 ≤ n && n < 0xe000

/-- The character at a code point. A surrogate that stands alone becomes the replacement
character. -/
def charAt (n : Nat) : Char := if n.isValidChar then Char.ofNat n else '\ufffd'

/-- Joins pairs of surrogates. All else is a code point of its own. -/
def joinUnits : List Nat → List Char
  | [] => []
  | [unit] => [charAt unit]
  | high :: low :: rest =>
      if isHighSurrogate high && isLowSurrogate low then
        Char.ofNat (0x10000 + (high - 0xd800) * 0x400 + (low - 0xdc00)) :: joinUnits rest
      else charAt high :: joinUnits (low :: rest)

end RegexDiagram.Json
