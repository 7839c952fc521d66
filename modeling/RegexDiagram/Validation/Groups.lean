import RegexDiagram.Analysis

/-!
Balancing parentheses. A closing parenthesis with no open group is ruled out; a group still open at
the end is closed there, the innermost first. Whether an added closing parenthesis is reported
depends on what the group holds, so that is left to the search for empty operands.
-/
namespace RegexDiagram

/-- A closing parenthesis with no open group. -/
def Finding.unopened (t : Token) : Finding :=
  { category := .unopenedGroup, pos := t.pos, lexemes := [t.index] }

namespace Groups

/--
Balances tokens that follow the groups in `opened`, the innermost of which is the first. Yields the
tokens and the findings.
-/
def balance (opened : List Token) : List Token → List Token × List Finding
  | [] => (opened.map Token.closing, [])
  | t :: ts =>
      match t.piece, opened with
      | .groupOpen, opened => (balance (t :: opened) ts).map (t :: ·) id
      | .groupClose, [] => (balance [] ts).map (t.invalidate :: ·) (.unopened t :: ·)
      | .groupClose, _ :: opened => (balance opened ts).map (t :: ·) id
      | _, opened => (balance opened ts).map (t :: ·) id

end Groups

/-- Balances the parentheses. -/
def Analysis.balanceGroups (a : Analysis) : Analysis :=
  let r := Groups.balance [] a.tokens
  { a with tokens := r.1 }.record r.2

end RegexDiagram
