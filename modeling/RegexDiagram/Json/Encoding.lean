import RegexDiagram.Json.Units

/-!
The encodings in which a JSON document may arrive. A byte order mark in front of the document tells
its encoding. Without a mark the zeros among the first bytes do, because a document starts with
ASCII characters, which leave the higher bytes of a wider unit empty.
-/
namespace RegexDiagram.Json

inductive ByteOrder
  | big
  | little
deriving DecidableEq

/-- The number that is written with these bytes. -/
def ByteOrder.value (order : ByteOrder) (bytes : List UInt8) : Nat :=
  match order with
  | big => bytes.foldl (fun n b => n * 256 + b.toNat) 0
  | little => bytes.foldr (fun b n => n * 256 + b.toNat) 0

inductive Encoding
  | utf8
  | utf16 (order : ByteOrder)
  | utf32 (order : ByteOrder)
deriving DecidableEq

namespace Encoding

/-- The byte order marks. One of four bytes stands before the one of two bytes that it starts
with. -/
def marks : List (List UInt8 × Encoding) :=
  [([0x00, 0x00, 0xfe, 0xff], utf32 .big), ([0xff, 0xfe, 0x00, 0x00], utf32 .little),
    ([0xfe, 0xff], utf16 .big), ([0xff, 0xfe], utf16 .little), ([0xef, 0xbb, 0xbf], utf8)]

/-- The encoding of a document without a mark. -/
def ofFirstBytes : List UInt8 → Encoding
  | [a, b] => if a = 0 then utf16 .big else if b = 0 then utf16 .little else utf8
  | a :: b :: c :: d :: _ =>
      if a = 0 then if b = 0 then utf32 .big else utf16 .big
      else if b = 0 then if c = 0 ∧ d = 0 then utf32 .little else utf16 .little
      else utf8
  | _ => utf8

/-- Adds the low six bits of a byte that continues a code point. -/
def continued? (n : Nat) (b : UInt8) : Option Nat :=
  if b.toNat / 64 = 2 then some (n * 64 + b.toNat % 64) else none

/-- A code point that takes several bytes, with the bits of the first of them. There is a least
one of each length. -/
def codePoint? (least first : Nat) (bytes : List UInt8) : Option Nat :=
  (bytes.foldlM continued? first).filter fun n => least ≤ n && n < 0x110000

/-- Reads code points of one to four bytes. The first byte tells the length. -/
def readPoints : List UInt8 → Option (List Nat)
  | [] => some []
  | a :: rest =>
      if a < 0x80 then (readPoints rest).map (a.toNat :: ·)
      else
        match rest with
        | b :: rest =>
            if a < 0xe0 then
              (codePoint? 0x80 (a.toNat - 0xc0) [b]).bind fun n => (readPoints rest).map (n :: ·)
            else
              match rest with
              | c :: rest =>
                  if a < 0xf0 then
                    (codePoint? 0x800 (a.toNat - 0xe0) [b, c]).bind fun n =>
                      (readPoints rest).map (n :: ·)
                  else
                    match rest with
                    | d :: rest =>
                        (codePoint? 0x10000 (a.toNat - 0xf0) [b, c, d]).bind fun n =>
                          (readPoints rest).map (n :: ·)
                    | [] => none
              | [] => none
        | [] => none

def readPairs (order : ByteOrder) : List UInt8 → Option (List Nat)
  | [] => some []
  | a :: b :: rest => (readPairs order rest).map (order.value [a, b] :: ·)
  | _ => none

def readQuads (order : ByteOrder) : List UInt8 → Option (List Nat)
  | [] => some []
  | a :: b :: c :: d :: rest => (readQuads order rest).map (order.value [a, b, c, d] :: ·)
  | _ => none

/-- Reads bytes to their end. A surrogate may stand alone in each of the encodings. -/
def read : Encoding → List UInt8 → Option (List Char)
  | utf8, bytes => (readPoints bytes).map (·.map charAt)
  | utf16 order, bytes => (readPairs order bytes).map joinUnits
  | utf32 order, bytes =>
      (readQuads order bytes).bind fun points =>
        if points.all (· < 0x110000) then some (points.map charAt) else none

/-- The text of a document, without a mark in front of it. -/
def text? (bytes : List UInt8) : Option (List Char) :=
  match marks.find? (·.1.isPrefixOf bytes) with
  | some (mark, encoding) => encoding.read (bytes.drop mark.length)
  | none => (ofFirstBytes bytes).read bytes

end Encoding
end RegexDiagram.Json
