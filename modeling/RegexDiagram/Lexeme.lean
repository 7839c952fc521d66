import RegexDiagram.Piece

/-!
Lexemes are the units in which the source of a regex is displayed. Every piece is one lexeme,
except that a bracket expression has one for each of its characters. Later stages mark lexemes as
invalid and note which stretch of lexemes a delimiter encloses or an operator applies to.
-/
namespace RegexDiagram

/-- What a lexeme shows. -/
inductive Glyph
  /-- A whole piece other than a bracket expression. -/
  | whole (p : Piece)
  | bracketOpen (b : Bracket)
  | bracketClose (b : Bracket)
  | negation
  | member (c : Char)
  | rangeLow (c : Char)
  | rangeDash
  | rangeHigh (c : Char)
deriving DecidableEq

namespace Glyph

def label : Glyph → List Char
  | whole p => p.text
  | bracketOpen _ => ['[']
  | bracketClose _ => [']']
  | negation => ['^']
  | member c => [c]
  | rangeLow c => [c]
  | rangeDash => ['-']
  | rangeHigh c => [c]

def name : Glyph → String
  | whole p => p.name
  | bracketOpen _ => "["
  | bracketClose _ => "]"
  | negation => "^"
  | member _ => "bracketChar"
  | rangeLow _ => "bracketRangeLow"
  | rangeDash => "-"
  | rangeHigh _ => "bracketRangeHigh"

/-- The style a lexeme is highlighted with. -/
def style : Glyph → String
  | whole (.value .wildcard) => "value-special"
  | whole (.value (.escape c)) =>
      if (CharClass.ofLetter? c).isSome then "value-special" else "value"
  | whole (.value _) => "value"
  | whole .alternation => "operator"
  | whole (.quantifier _) => "quantifier"
  | whole .groupOpen => "delimiter"
  | whole .groupClose => "delimiter"
  | bracketOpen _ => "delimiter"
  | bracketClose _ => "delimiter"
  | negation => "operator"
  | member _ => "value"
  | rangeLow _ => "value-special"
  | rangeDash => "value-special"
  | rangeHigh _ => "value-special"

/-- The bracket expression that a bracket delimits. -/
def bracket? : Glyph → Option Bracket
  | bracketOpen b => some b
  | bracketClose b => some b
  | _ => none

end Glyph

def BracketItem.glyphs : BracketItem → List Glyph
  | single c => [.member c]
  | range low high => [.rangeLow low, .rangeDash, .rangeHigh high]

def Bracket.glyphs (b : Bracket) : List Glyph :=
  .bracketOpen b :: (if b.negated then [.negation] else []) ++ b.items.flatMap BracketItem.glyphs
    ++ (if b.closed then [.bracketClose b] else [])

def Piece.glyphs : Piece → List Glyph
  | value (.bracket b) => b.glyphs
  | p => [.whole p]

theorem BracketItem.flatMap_glyphs (i : BracketItem) : i.glyphs.flatMap Glyph.label = i.text := by
  cases i <;> rfl

theorem Bracket.flatMap_glyphs (b : Bracket) : b.glyphs.flatMap Glyph.label = b.text := by
  have h : b.items.flatMap (fun i => i.glyphs.flatMap Glyph.label)
      = b.items.flatMap BracketItem.text := by
    simp only [BracketItem.flatMap_glyphs]
  simp only [glyphs, text, body, List.flatMap_append, List.flatMap_cons, List.flatMap_assoc, h]
  split <;> split <;> simp [Glyph.label]

/-- The labels of a piece's lexemes make up its source text. -/
theorem Piece.flatMap_glyphs (p : Piece) : p.glyphs.flatMap Glyph.label = p.text := by
  fun_cases Piece.glyphs p with
  | case1 b => exact b.flatMap_glyphs
  | case2 => simp [Glyph.label]

theorem Piece.glyphs_ne_nil (p : Piece) : p.glyphs ≠ [] := by
  fun_cases Piece.glyphs p <;> simp [Bracket.glyphs]

/-- A stretch of lexemes, both ends included. -/
structure Extent where
  first : Nat
  last : Nat
deriving DecidableEq

/-- The lexemes of an operand. An end is missing where the operand reaches a sentinel. -/
structure Operand where
  first : Option Nat := none
  last : Option Nat := none
deriving DecidableEq

structure Lexeme where
  glyph : Glyph
  pos : Nat
  index : Nat
  invalid : Bool := false
  /-- What a bracket or a parenthesis encloses, itself included. -/
  extent : Option Extent := none
  left : Operand := {}
  right : Operand := {}

namespace Lexeme

def label (l : Lexeme) : List Char := l.glyph.label

end Lexeme

/-- The lexemes of a piece that starts at `pos`, the first of them at `index`. -/
def Piece.lexemes (p : Piece) (pos index : Nat) : List Lexeme :=
  p.glyphs.zipIdx.map fun (g, i) =>
    { glyph := g
      pos := pos + i
      index := index + i
      extent := g.bracket?.map fun _ => ⟨index, index + p.glyphs.length - 1⟩ }

theorem Piece.lexemes_length (p : Piece) (pos index : Nat) :
    (p.lexemes pos index).length = p.glyphs.length := by
  simp [Piece.lexemes]

theorem Piece.labels_lexemes (p : Piece) (pos index : Nat) :
    (p.lexemes pos index).map Lexeme.label = p.glyphs.map Glyph.label := by
  rw [Piece.lexemes, List.map_map, ← List.zipIdx_map_fst 0 p.glyphs, List.map_map,
    List.zipIdx_map_fst]
  rfl

end RegexDiagram
