import RegexDiagram.Automaton.Construction

/-!
Automata, and the automaton of a regex that is given in reverse Polish notation.
-/
namespace RegexDiagram

/-- The nodes, of which the first is where runs start. -/
structure Automaton where
  nodes : Array Node

namespace Automaton

/-- Builds the automaton of symbols in reverse Polish notation. -/
def ofSymbols (lexemes : List Lexeme) (symbols : List Symbol) : Construction.Built Automaton :=
  let b := Construction.run lexemes [Construction.firstFragment] symbols
  ⟨(b.outcome.bind Construction.finish).map fun f => ⟨f.nodes.toArray⟩, b.spans⟩

/-- The place of each node among the nodes that are drawn. -/
def drawnPlaces (place : Nat) : List Node → List (Option Nat)
  | [] => []
  | n :: ns =>
      if n.isDrawn then some place :: drawnPlaces (place + 1) ns
      else none :: drawnPlaces place ns

/-- The place of each node in the drawing. -/
def places (a : Automaton) : List (Option Nat) := drawnPlaces 0 a.nodes.toList

end Automaton
end RegexDiagram
