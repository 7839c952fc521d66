import RegexDiagram.Validation.Groups
import RegexDiagram.Validation.EmptyOperands
import RegexDiagram.Validation.QuantifierChains

/-!
Validation rules out the tokens of a regex that cannot be given a meaning and adds the closing
parentheses that it lacks. What is left is well formed. Nothing is removed: tokens are marked.
-/
namespace RegexDiagram

inductive Validation.Pass
  | groups
  | emptyOperands
  | quantifierChains

namespace Analysis

/-- One pass of validation. -/
def apply (a : Analysis) : Validation.Pass → Option Analysis
  | .groups => some a.balanceGroups
  | .emptyOperands => a.dropEmptyOperands
  | .quantifierChains => some a.foldQuantifiers

/-- Applies passes one after the other. Yields each result, up to one that there is not. -/
def applyAll (a : Analysis) : List Validation.Pass → List (Option Analysis)
  | [] => []
  | p :: ps =>
      match a.apply p with
      | some b => some b :: b.applyAll ps
      | none => [none]

/-- All three passes. -/
def validate (a : Analysis) : Option Analysis :=
  a.balanceGroups.dropEmptyOperands.map foldQuantifiers

end Analysis
end RegexDiagram
