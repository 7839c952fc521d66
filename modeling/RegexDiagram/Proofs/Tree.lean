import RegexDiagram.Symbol

/-!
Syntax trees of regexes. An expression is a choice of terms, a term a row of factors, a factor an
atom that may have a quantifier, and an atom a value or an expression in parentheses. The precedence
of a tree is an index of its type, so that a tree cannot break the precedence of the operators: only
atoms are quantified, and the right operand of an alternation is never an alternation.
-/
namespace RegexDiagram

inductive Precedence
  | atom
  | factor
  | term
  | expr
deriving DecidableEq

inductive Tree : Precedence → Type
  | value {l : Precedence} (t : Token) (v : Value) (ht : t.piece = .value v) : Tree l
  | group {l : Precedence} (opening closing : Token) (ho : opening.piece = .groupOpen)
      (hc : closing.piece = .groupClose) (body : Tree .expr) : Tree l
  | quantified {l : Precedence} (a : Tree .atom) (t : Token) (q : Quantifier)
      (ht : t.piece = .quantifier q) (hl : l ≠ .atom) : Tree l
  | concat {l : Precedence} (f : Tree .term) (g : Tree .factor) (hl : l = .term ∨ l = .expr) :
      Tree l
  | alternation (e : Tree .expr) (t : Token) (ht : t.piece = .alternation) (g : Tree .term) :
      Tree .expr

namespace Tree

variable {l : Precedence}

/-- The tokens in source order. -/
def tokens : {l : Precedence} → Tree l → List Token
  | _, value t _ _ => [t]
  | _, group opening closing _ _ body => opening :: (body.tokens ++ [closing])
  | _, quantified a t _ _ _ => a.tokens ++ [t]
  | _, concat f g _ => f.tokens ++ g.tokens
  | _, alternation e t _ g => e.tokens ++ t :: g.tokens

/-- The tree in reverse Polish notation. -/
def symbols : {l : Precedence} → Tree l → List Symbol
  | _, value t _ _ => [.token t]
  | _, group opening closing _ _ body =>
      body.symbols ++ [.token { opening with last := some closing.index }]
  | _, quantified a t _ _ _ => a.symbols ++ [.token t]
  | _, concat f g _ => f.symbols ++ g.symbols ++ [.concat]
  | _, alternation e t _ g => e.symbols ++ g.symbols ++ [.token t]

end Tree

/-- A whole regex, which may be empty. -/
abbrev Expression := Option (Tree .expr)

namespace Expression

def tokens : Expression → List Token
  | none => []
  | some e => e.tokens

def symbols : Expression → List Symbol
  | none => []
  | some e => e.symbols

end Expression
end RegexDiagram
