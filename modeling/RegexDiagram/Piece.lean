import RegexDiagram.Quantifier
import RegexDiagram.Value

/-!
Pieces are what the source of a regex is cut into: values and operators. `Piece.readAll` cuts a
source into pieces, and the texts of the pieces make up that source again.
-/
namespace RegexDiagram

inductive Piece
  | value (v : Value)
  | alternation
  | quantifier (q : Quantifier)
  | groupOpen
  | groupClose
deriving DecidableEq

namespace BracketItem

/--
Reads items up to a closing bracket or the end. Two characters around a dash are a range, except
that a dash before the closing bracket is a member.
-/
def readAll : List Char → List BracketItem × List Char
  | [] => ([], [])
  | low :: '-' :: high :: rest =>
      if low = ']' then ([], low :: '-' :: high :: rest)
      else if high = ']' then ([single low, single '-'], high :: rest)
      else (readAll rest).map (range low high :: ·) id
  | c :: rest =>
      if c = ']' then ([], c :: rest)
      else (readAll rest).map (single c :: ·) id

/-- A closing bracket or a dash is a member where it is the first character. -/
def readLeading : List Char → List BracketItem × List Char
  | ']' :: rest => ([single ']'], rest)
  | '-' :: rest => ([single '-'], rest)
  | cs => ([], cs)

theorem readAll_text (cs : List Char) :
    (readAll cs).1.flatMap text ++ (readAll cs).2 = cs := by
  fun_induction readAll cs <;> simp_all [text]

theorem readLeading_text (cs : List Char) :
    (readLeading cs).1.flatMap text ++ (readLeading cs).2 = cs := by
  fun_cases readLeading cs <;> simp [text]

/-- Reading stops only at a closing bracket or at the end. -/
theorem readAll_rest (cs : List Char) :
    (readAll cs).2 = [] ∨ ∃ rest, (readAll cs).2 = ']' :: rest := by
  fun_induction readAll cs <;> simp_all

end BracketItem

namespace Bracket

def readNegation : List Char → Bool × List Char
  | '^' :: rest => (true, rest)
  | cs => (false, cs)

/-- Takes the closing bracket if there is one. -/
def readClosing (negated : Bool) (items : List BracketItem) : List Char → Bracket × List Char
  | ']' :: rest => (⟨negated, items, true⟩, rest)
  | rest => (⟨negated, items, false⟩, rest)

/-- Reads what follows an opening bracket. -/
def read (cs : List Char) : Bracket × List Char :=
  let negation := readNegation cs
  let leading := BracketItem.readLeading negation.2
  let others := BracketItem.readAll leading.2
  readClosing negation.1 (leading.1 ++ others.1) others.2

theorem readNegation_text (cs : List Char) :
    (if (readNegation cs).1 then ['^'] else []) ++ (readNegation cs).2 = cs := by
  fun_cases readNegation cs <;> simp

theorem readClosing_text (negated : Bool) (items : List BracketItem) (cs : List Char) :
    (readClosing negated items cs).1.text ++ (readClosing negated items cs).2 =
      '[' :: (if negated then ['^'] else []) ++ items.flatMap BracketItem.text ++ cs := by
  fun_cases readClosing negated items cs <;> simp [text, body]

theorem read_text (cs : List Char) : (read cs).1.text ++ (read cs).2 = '[' :: cs := by
  simp only [read, readClosing_text, List.flatMap_append, List.append_assoc]
  rw [BracketItem.readAll_text, BracketItem.readLeading_text, List.cons_append, readNegation_text]

/-- An expression is left open only at the end of the source. -/
theorem read_rest_of_open {cs : List Char} (h : (read cs).1.closed = false) :
    (read cs).2 = [] := by
  have hr := BracketItem.readAll_rest (BracketItem.readLeading (readNegation cs).2).2
  simp only [read] at h ⊢
  rcases hr with hr | ⟨rest, hr⟩
  · simp [hr, readClosing]
  · simp [hr, readClosing] at h

end Bracket

namespace Piece

/-- The text that a piece takes up in the source. -/
def text : Piece → List Char
  | value v => v.text
  | alternation => ['|']
  | quantifier q => [q.symbol]
  | groupOpen => ['(']
  | groupClose => [')']

/-- The text that a piece is printed with. -/
def label : Piece → List Char
  | value v => v.label
  | p => p.text

def isValue : Piece → Bool
  | value _ => true
  | _ => false

def isQuantifier : Piece → Bool
  | quantifier _ => true
  | _ => false

def name : Piece → String
  | value v => v.name
  | alternation => "|"
  | quantifier q => q.symbol.toString
  | groupOpen => "("
  | groupClose => ")"

/-- The piece at the front of `c :: rest`, and what is left after it. -/
def read (c : Char) (rest : List Char) : Piece × List Char :=
  match c with
  | '[' =>
      let r := Bracket.read rest
      (value (.bracket r.1), r.2)
  | '|' => (alternation, rest)
  | '?' => (quantifier .optional, rest)
  | '*' => (quantifier .star, rest)
  | '+' => (quantifier .plus, rest)
  | '(' => (groupOpen, rest)
  | ')' => (groupClose, rest)
  | '.' => (value .wildcard, rest)
  | '\\' =>
      match rest with
      | [] => (value .danglingEscape, [])
      | d :: rest => (value (.escape d), rest)
  | c => (value (.literal c), rest)

theorem text_ne_nil (p : Piece) : p.text ≠ [] := by
  cases p with
  | value v => cases v <;> simp [text, Value.text, Bracket.text, Bracket.body]
  | _ => simp [text]

theorem read_text (c : Char) (rest : List Char) :
    (read c rest).1.text ++ (read c rest).2 = c :: rest := by
  fun_cases read c rest with
  | case1 => exact Bracket.read_text rest
  | _ => simp [text, Value.text, Quantifier.symbol]

theorem read_length (c : Char) (rest : List Char) :
    (read c rest).2.length < (c :: rest).length := by
  have h := congrArg List.length (read_text c rest)
  have hp := List.length_pos_iff.mpr (text_ne_nil (read c rest).1)
  simp only [List.length_append] at h
  omega

/-- Cuts a source into pieces. -/
def readAll : List Char → List Piece
  | [] => []
  | c :: rest => (read c rest).1 :: readAll (read c rest).2
termination_by cs => cs.length
decreasing_by exact read_length c rest

theorem readAll_text (cs : List Char) : (readAll cs).flatMap text = cs := by
  fun_induction readAll cs with
  | case1 => rfl
  | case2 c rest ih => rw [List.flatMap_cons, ih, read_text]

end Piece
end RegexDiagram
