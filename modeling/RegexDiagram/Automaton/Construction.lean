import RegexDiagram.Automaton.Fragment
import RegexDiagram.Symbol

/-!
Evaluation of an expression in reverse Polish notation. Symbols work on a stack of fragments at the
bottom of which lies the `first` node; at the end the operand is attached to `first` and followed by
`last`. Operators note on their lexemes what they apply to.
-/
namespace RegexDiagram.Construction

inductive Error
  | missingOperand
  | forkOnTheRight
  | unexpected (s : Symbol)
  /-- A group whose end is not known. -/
  | openGroup
  | noLexeme (index : Nat)
  | leftover (fragments : Nat)
deriving DecidableEq

/-- What an operator applies to. -/
structure Span where
  index : Nat
  left : Operand
  right : Option Operand := none
deriving DecidableEq

/-- The outcome of building, and the spans noted before it was reached. -/
structure Built (α : Type) where
  outcome : Except Error α
  spans : List Span

def Built.note (spans : List Span) {α : Type} (b : Built α) : Built α :=
  { b with spans := spans ++ b.spans }

/-- The fragment of a group, whose end has to be one of the lexemes. -/
def enclose (lexemes : List Lexeme) (t : Token) (f : Fragment) : Except Error Fragment :=
  match t.last with
  | none => .error .openGroup
  | some last =>
      match lexemes[last]? with
      | none => .error (.noLexeme last)
      | some l => .ok (f.enclose t last l.pos)

/-- One token. Its last operand lies on top of the stack. -/
def evaluate (lexemes : List Lexeme) (t : Token) (stack : List Fragment) :
    Except Error (List Fragment × List Span) :=
  match t.piece, stack with
  | .value _, stack => .ok (.ofValue t :: stack, [])
  | .quantifier q, f :: stack => .ok (f.quantify t q :: stack, [⟨t.index, f.extent, none⟩])
  | .alternation, g :: f :: stack =>
      match f.alternate t g with
      | some r => .ok (r :: stack, [⟨t.index, f.extent, some g.extent⟩])
      | none => .error .forkOnTheRight
  | .groupOpen, f :: stack => (enclose lexemes t f).map fun r => (r :: stack, [])
  | .groupClose, _ => .error (.unexpected (.token t))
  | _, _ => .error .missingOperand

def step (lexemes : List Lexeme) (stack : List Fragment) :
    Symbol → Except Error (List Fragment × List Span)
  | .token t => evaluate lexemes t stack
  | .concat =>
      match stack with
      | g :: f :: stack => .ok (f.concat g :: stack, [])
      | _ => .error .missingOperand
  | s => .error (.unexpected s)

def run (lexemes : List Lexeme) (stack : List Fragment) : List Symbol → Built (List Fragment)
  | [] => ⟨.ok stack, []⟩
  | s :: rest =>
      match step lexemes stack s with
      | .ok (stack, spans) => (run lexemes stack rest).note spans
      | .error e => ⟨.error e, []⟩

def firstFragment : Fragment := .single { kind := .first } {}

def lastFragment : Fragment := .single { kind := .last } {}

/-- Attaches what was built to `first` and `last`. -/
def finish : List Fragment → Except Error Fragment
  | [] => .error .missingOperand
  | [f] => .ok (f.concat lastFragment)
  | [g, f] => .ok ((f.concat g).concat lastFragment)
  | stack => .error (.leftover stack.length)

def Error.message : Error → String
  | missingOperand => "NFA: An operand is missing"
  | forkOnTheRight => "NFA: Fork merge should not happen"
  | unexpected s => "NFA: Invalid token type '" ++ s.name ++ "'"
  | openGroup => "NFA: A group has no end"
  | noLexeme index => "NFA: There is no lexeme " ++ toString index
  | leftover n => "NFA: " ++ toString n ++ " fragments left after construction"

/-- Notes a span on the lexeme of its operator. -/
def stamp (l : Lexeme) (s : Span) : Lexeme :=
  if l.index = s.index then { l with left := s.left, right := s.right.getD l.right } else l

/-- Notes on the operators what they apply to. -/
def markOperands (spans : List Span) (ls : List Lexeme) : List Lexeme :=
  ls.map fun l => spans.foldl stamp l

end RegexDiagram.Construction
