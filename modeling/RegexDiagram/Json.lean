/-!
JSON documents, the form in which requests arrive and answers leave. Besides the standard numbers
there are not-a-number and the two infinities, which requests may contain.
-/
namespace RegexDiagram

inductive Json.Number
  | integer (n : Int)
  /-- `digits * 10 ^ exponent`, written with a fraction or an exponent. -/
  | decimal (digits exponent : Int)
  | infinity (negative : Bool)
  | nan
deriving DecidableEq

/-- An object keeps its fields as they were written, repeated keys included. -/
inductive Json
  | null
  | bool (b : Bool)
  | number (n : Json.Number)
  | string (s : String)
  | array (items : List Json)
  | object (fields : List (String × Json))

namespace Json

/-! ## Equality -/

mutual

def same : Json → Json → Bool
  | null, null => true
  | bool a, bool b => a = b
  | number a, number b => a = b
  | string a, string b => a = b
  | array xs, array ys => sameItems xs ys
  | object xs, object ys => sameFields xs ys
  | _, _ => false

def sameItems : List Json → List Json → Bool
  | [], [] => true
  | x :: xs, y :: ys => x.same y && sameItems xs ys
  | _, _ => false

def sameFields : List (String × Json) → List (String × Json) → Bool
  | [], [] => true
  | (k, x) :: xs, (l, y) :: ys => (k = l && x.same y) && sameFields xs ys
  | _, _ => false

end

mutual

theorem same_iff (a b : Json) : a.same b = true ↔ a = b :=
  match a with
  | null => by cases b <;> simp [same]
  | bool _ => by cases b <;> simp [same]
  | number _ => by cases b <;> simp [same]
  | string _ => by cases b <;> simp [same]
  | array xs => by cases b <;> simp [same, sameItems_iff xs]
  | object xs => by cases b <;> simp [same, sameFields_iff xs]

theorem sameItems_iff (xs ys : List Json) : sameItems xs ys = true ↔ xs = ys :=
  match xs with
  | [] => by cases ys <;> simp [sameItems]
  | x :: xs => by cases ys <;> simp [sameItems, same_iff x, sameItems_iff xs]

theorem sameFields_iff (xs ys : List (String × Json)) : sameFields xs ys = true ↔ xs = ys :=
  match xs with
  | [] => by cases ys <;> simp [sameFields]
  | (k, x) :: xs => by
    cases ys <;> simp [sameFields, same_iff x, sameFields_iff xs, Prod.ext_iff]

end

instance : DecidableEq Json := fun a b => decidable_of_iff (a.same b = true) (same_iff a b)

/-! ## Parts -/

/-- The value of a key in a list of fields. Of repeated keys the last one counts. -/
def lookup (key : String) (fields : List (String × Json)) : Option Json :=
  (fields.reverse.find? (·.1 = key)).map (·.2)

/-- The value of a key, if this is an object that has it. -/
def field? (key : String) : Json → Option Json
  | object fields => lookup key fields
  | _ => none

def ofInt (n : Int) : Json := number (.integer n)

def ofNat (n : Nat) : Json := ofInt n

def ofChars (cs : List Char) : Json := string (String.ofList cs)

def ofOption {α : Type} (f : α → Json) : Option α → Json
  | some a => f a
  | none => null

def ofList {α : Type} (f : α → Json) (items : List α) : Json := array (items.map f)

/--
A rational whose denominator is a power of two, written exactly: `n / 2 ^ k` is
`n * 5 ^ k / 10 ^ k`.
-/
def ofRat (q : Rat) : Json :=
  if q.den = 1 then ofInt q.num
  else number (.decimal (q.num * Nat.pow 5 q.den.log2) (-(q.den.log2 : Int)))

end Json
end RegexDiagram
