import RegexDiagram.Lexeme

/-!
Tokens are the pieces of a regex in their places: each knows where it starts in the source, its
first lexeme, and whether validation has ruled it out or added it.
-/
namespace RegexDiagram

structure Token where
  piece : Piece
  pos : Nat
  index : Nat
  /-- The last lexeme of a bracket expression or, once it is known, of a group. -/
  last : Option Nat := none
  invalid : Bool := false
  added : Bool := false
deriving DecidableEq

namespace Token

def label (t : Token) : List Char := t.piece.label

def name (t : Token) : String := t.piece.name

def isValue (t : Token) : Bool := t.piece.isValue

def isQuantifier (t : Token) : Bool := t.piece.isQuantifier

/-- The bracket expression that a token stands for. -/
def bracket? (t : Token) : Option Bracket :=
  match t.piece with
  | .value (.bracket b) => some b
  | _ => none

def invalidate (t : Token) : Token := { t with invalid := true }

/-- The parenthesis that closes an open group at the end of the regex, placed where it opens. -/
def closing (t : Token) : Token :=
  { piece := .groupClose, pos := t.pos, index := t.index, added := true }

end Token

/-- The token of a piece that starts at `pos` with the lexeme at `index`. -/
def Piece.token (p : Piece) (pos index : Nat) : Token :=
  match p with
  | value (.bracket b) =>
      { piece := p, pos := pos, index := index, last := some (index + b.glyphs.length - 1) }
  | p => { piece := p, pos := pos, index := index, invalid := p = value .danglingEscape }

@[simp] theorem Piece.piece_token (p : Piece) (pos index : Nat) : (p.token pos index).piece = p := by
  fun_cases Piece.token p pos index <;> rfl

@[simp] theorem Piece.pos_token (p : Piece) (pos index : Nat) : (p.token pos index).pos = pos := by
  fun_cases Piece.token p pos index <;> rfl

@[simp] theorem Piece.index_token (p : Piece) (pos index : Nat) :
    (p.token pos index).index = index := by
  fun_cases Piece.token p pos index <;> rfl

end RegexDiagram
