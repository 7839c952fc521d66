import RegexDiagram.Token

/-!
Symbols are what expressions in reverse Polish notation are written in: tokens, the concatenation
that no token stands for, and the two ends of an automaton.
-/
namespace RegexDiagram

inductive Symbol
  | token (t : Token)
  | concat
  | first
  | last
deriving DecidableEq

namespace Symbol

def label : Symbol → List Char
  | token t => t.label
  | concat => ['~']
  | first => ['>']
  | last => ['>']

def name : Symbol → String
  | token t => t.name
  | concat => "~"
  | first => "first"
  | last => "last"

def token? : Symbol → Option Token
  | token t => some t
  | _ => none

end Symbol
end RegexDiagram
