import RegexDiagram.Symbol

/-!
The text of an expression in reverse Polish notation: the regex as it was understood, without what
was ruled out and with the closing parentheses and brackets that were missing.
-/
namespace RegexDiagram.RepairedText

/-- The texts of the operands read so far, the latest first, after one more symbol. There is no
result if an operand is missing. -/
def step : List (List Char) → Symbol → Option (List (List Char))
  | texts, .token t =>
      match t.piece, texts with
      | .value v, texts => some (v.label :: texts)
      | .quantifier q, text :: texts => some ((text ++ [q.symbol]) :: texts)
      | .alternation, right :: left :: texts => some ((left ++ '|' :: right) :: texts)
      | .groupOpen, text :: texts => some (('(' :: text ++ [')']) :: texts)
      | .groupClose, texts => some texts
      | _, _ => none
  | right :: left :: texts, .concat => some ((left ++ right) :: texts)
  | _, .concat => none
  | texts, .first => some texts
  | texts, .last => some texts

def run (texts : List (List Char)) : List Symbol → Option (List (List Char))
  | [] => some texts
  | s :: rest => (step texts s).bind (run · rest)

/-- The text of the first operand, empty if there is none. -/
def ofSymbols (symbols : List Symbol) : Option (List Char) :=
  (run [] symbols).map fun texts => texts.getLast?.getD []

end RegexDiagram.RepairedText
