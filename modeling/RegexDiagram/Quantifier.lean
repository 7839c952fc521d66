/-!
Quantifiers, and the single quantifier that stands for a chain of them.
-/
namespace RegexDiagram

inductive Quantifier
  | optional
  | star
  | plus
deriving DecidableEq

namespace Quantifier

def symbol : Quantifier → Char
  | optional => '?'
  | star => '*'
  | plus => '+'

/-- `??` is `?` and `++` is `+`; anything else repeats any number of times. -/
def ofChain (text : List Char) : Quantifier :=
  if text = ['?', '?'] then optional
  else if text = ['+', '+'] then plus
  else star

/-- The quantifier equivalent to `second` applied to the result of `first`. -/
def fold (first second : Quantifier) : Quantifier :=
  ofChain [first.symbol, second.symbol]

@[simp] theorem fold_self (q : Quantifier) : fold q q = q := by
  cases q <;> decide

theorem fold_of_ne {q r : Quantifier} : q ≠ r → fold q r = star := by
  cases q <;> cases r <;> decide

end Quantifier
end RegexDiagram
