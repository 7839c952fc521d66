/-!
Diagnostics report the defects of a regex. A finding is one occurrence of a defect; `report`
gathers the findings of each category, categories in the order in which they first occur.
-/
namespace RegexDiagram

inductive Category
  | openBracket
  | danglingEscape
  | openGroup
  | unopenedGroup
  | quantifierChain
  | quantifierOfNothing
  | alternationAfterNothing
  | alternationBeforeNothing
  | emptyGroup
  | emptyOpenGroup
deriving DecidableEq

namespace Category

def all : List Category :=
  [openBracket, danglingEscape, openGroup, unopenedGroup, quantifierChain, quantifierOfNothing,
    alternationAfterNothing, alternationBeforeNothing, emptyGroup, emptyOpenGroup]

def key : Category → String
  | openBracket => "["
  | danglingEscape => "\\E"
  | openGroup => "("
  | unopenedGroup => ")"
  | quantifierChain => "**"
  | quantifierOfNothing => "E*"
  | alternationAfterNothing => "E|"
  | alternationBeforeNothing => "|E"
  | emptyGroup => "()"
  | emptyOpenGroup => "(E"

def ofKey? (key : String) : Option Category := all.find? (·.key = key)

/-- The text at fault, where it is the same for every occurrence. -/
def label : Category → String
  | openBracket => "["
  | danglingEscape => "\\"
  | openGroup => "("
  | unopenedGroup => ")"
  | quantifierChain => ""
  | quantifierOfNothing => ""
  | alternationAfterNothing => "|"
  | alternationBeforeNothing => "|"
  | emptyGroup => "()"
  | emptyOpenGroup => "("

def issue : Category → String
  | openBracket => "An open bracket has not been closed"
  | danglingEscape => "No character after backslash"
  | openGroup => "An open parenthesis has not been closed"
  | unopenedGroup => "A closing parenthesis has no match"
  | quantifierChain => "Redundant quantifiers"
  | quantifierOfNothing => "A quantifier follows an empty value"
  | alternationAfterNothing => "An alternation follows an empty value"
  | alternationBeforeNothing => "An alternation precedes an empty value"
  | emptyGroup => "A pair of parentheses contains no value"
  | emptyOpenGroup => "An open parenthesis has not been closed and is empty"

def remedy : Category → String
  | openBracket => "The parser is adding an implicit closing bracket."
  | danglingEscape => "The parser is ignoring the backslash."
  | openGroup => "The parser is adding an implicit closing parenthesis."
  | unopenedGroup => "The parser is ignoring the closing parenthesis."
  | quantifierChain => "The parser is simplifying the quantifiers to a single one."
  | quantifierOfNothing => "The parser is ignoring the quantifier."
  | alternationAfterNothing => "The parser is ignoring the alternation."
  | alternationBeforeNothing => "The parser is ignoring the alternation."
  | emptyGroup => "The parser is ignoring the parentheses."
  | emptyOpenGroup => "The parser is ignoring the parenthesis."

theorem ofKey?_key (c : Category) : ofKey? c.key = some c := by cases c <;> decide

end Category

/-- One occurrence of a defect. -/
structure Finding where
  category : Category
  pos : Nat
  /-- The text at fault, where it differs between occurrences. -/
  label : Option (List Char) := none
  /-- The lexemes to mark as invalid. -/
  lexemes : List Nat
deriving DecidableEq

/-- All occurrences of one category. The label is that of the first. -/
structure Diagnostic where
  category : Category
  label : List Char
  positions : List Nat
deriving DecidableEq

namespace Diagnostic

def count (d : Diagnostic) : Nat := d.positions.length

/-- The findings of the category of `f`, of which `f` is the first. -/
def ofFindings (f : Finding) (fs : List Finding) : Diagnostic where
  category := f.category
  label := f.label.getD f.category.label.toList
  positions := (fs.filter (·.category = f.category)).map (·.pos)

/-- The first finding of each category. -/
def leading : List Finding → List Finding
  | [] => []
  | f :: fs => f :: (leading fs).filter (·.category ≠ f.category)

def report (fs : List Finding) : List Diagnostic := (leading fs).map (ofFindings · fs)

def total : List Diagnostic → Nat
  | [] => 0
  | d :: ds => d.count + total ds

end Diagnostic
end RegexDiagram
