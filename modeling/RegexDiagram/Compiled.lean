import RegexDiagram.Validation
import RegexDiagram.ReversePolish
import RegexDiagram.RepairedText
import RegexDiagram.Run
import RegexDiagram.Hint

/-!
Compiling a regex: its source is read and validated, put into reverse Polish notation, built into an
automaton and drawn. Along the way the lexemes are marked with what validation ruled out, what
parentheses enclose and what operators apply to.
-/
namespace RegexDiagram

structure Compiled where
  source : List Char
  analysis : Analysis
  /-- The valid tokens in reverse Polish notation. -/
  symbols : List Symbol
  automaton : Automaton
  graph : Graph
  /-- The regex as it was understood. -/
  repaired : List Char

inductive CompileError
  /-- A closing parenthesis without an open group was left by balancing. -/
  | unopenedGroup
  | order (e : ReversePolish.Error)
  | construction (e : Construction.Error)
  | layout (e : Layout.Error)
  /-- An operand is missing in the text of the regex. -/
  | repair

def CompileError.message : CompileError → String
  | unopenedGroup => "Validation: A parenthesis closes no group"
  | order e => e.message
  | construction e => e.message
  | layout e => e.message
  | repair => "Repair: An operand is missing"

namespace Compiled

def lexemes (c : Compiled) : List Lexeme := c.analysis.lexemes

def report (c : Compiled) : List Diagnostic := c.analysis.report

def hint (c : Compiled) (index : Int) : Hint := Hint.atIndex c.lexemes index

def highlight (c : Compiled) (s : RunStep) (g : Graph) : Graph :=
  g.highlight c.automaton.places s

/-- The validated regex, in reverse Polish notation and with its parentheses marked. -/
def ordered (source : List Char) : Except CompileError (Analysis × List Symbol) :=
  match (Analysis.ofSource source).validate with
  | none => .error .unopenedGroup
  | some a =>
      match ReversePolish.ofTokens a.valid with
      | .error e => .error (.order e)
      | .ok r => .ok ({ a with lexemes := r.markGroups a.lexemes }, r.symbols)

/-- Builds and draws the automaton of a regex. -/
def ofSymbols (source : List Char) (a : Analysis) (symbols : List Symbol) :
    Except CompileError Compiled :=
  let built := Automaton.ofSymbols a.lexemes symbols
  match built.outcome with
  | .error e => .error (.construction e)
  | .ok automaton =>
      match Graph.ofAutomaton automaton with
      | .error e => .error (.layout e)
      | .ok graph =>
          match RepairedText.ofSymbols symbols with
          | none => .error .repair
          | some repaired =>
              .ok
                { source := source
                  analysis :=
                    { a with lexemes := Construction.markOperands built.spans a.lexemes }
                  symbols := symbols
                  automaton := automaton
                  graph := graph
                  repaired := repaired }

end Compiled

/-- Compiles a regex, well formed or not. -/
def compile (source : List Char) : Except CompileError Compiled :=
  (Compiled.ordered source).bind fun r => Compiled.ofSymbols source r.1 r.2

end RegexDiagram
