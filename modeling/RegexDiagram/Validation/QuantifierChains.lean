import RegexDiagram.Analysis

/-!
Folding chains of quantifiers. The first quantifier of a chain becomes the one that stands for the
whole chain, and the others are ruled out. Tokens that were ruled out before do not break a chain.
-/
namespace RegexDiagram

/-- A quantifier that follows a chain which so far amounts to `q`. -/
def Finding.quantifierChain (q : Quantifier) (t : Token) : Finding :=
  { category := .quantifierChain, pos := t.pos, label := some (q.symbol :: t.label),
    lexemes := [t.index] }

namespace QuantifierChains

/-- What folding yields: the quantifier that the chain in front ends up as, the tokens, and the
findings. -/
structure Folded where
  chain : Option Quantifier
  tokens : List Token
  findings : List Finding

namespace Folded

def cons (t : Token) (r : Folded) : Folded := { r with tokens := t :: r.tokens }

/-- Puts a token in front that ends the chain `q`. -/
def restart (q : Option Quantifier) (t : Token) (r : Folded) : Folded :=
  { r with chain := q, tokens := t :: r.tokens }

end Folded

/-- Folds the chains of tokens that follow a chain which so far amounts to `q`. -/
def fold (q : Option Quantifier) : List Token → Folded
  | [] => ⟨q, [], []⟩
  | t :: ts =>
      if t.invalid then (fold q ts).cons t
      else
        match t.piece, q with
        | .quantifier r, some q =>
            let rest := (fold (some (q.fold r)) ts).cons t.invalidate
            { rest with findings := .quantifierChain q t :: rest.findings }
        | .quantifier r, none =>
            let rest := fold (some r) ts
            rest.restart none { t with piece := .quantifier (rest.chain.getD r) }
        | _, q => (fold none ts).restart q t

end QuantifierChains

/-- Folds every chain of quantifiers into its first one. -/
def Analysis.foldQuantifiers (a : Analysis) : Analysis :=
  let r := QuantifierChains.fold none a.tokens
  { a with tokens := r.tokens }.record r.findings

end RegexDiagram
