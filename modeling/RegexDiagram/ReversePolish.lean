import RegexDiagram.Symbol

/-!
Reverse Polish notation. Concatenation, written between factors that follow each other directly,
binds tighter than alternation; quantifiers follow their operand in the source already; a group is
its content followed by its opening parenthesis. Both operators associate to the left.
-/
namespace RegexDiagram.ReversePolish

/-- An operator that waits for its right operand, or a group that waits for its end. -/
inductive Operator
  | concat
  | alternation (t : Token)
  | group (t : Token)
deriving DecidableEq

inductive Error
  | unbalanced (pos : Nat)
  | unexpected (s : Symbol)
deriving DecidableEq

def Error.message : Error → String
  | unbalanced pos => "RPN: Unbalanced parenthesis at position " ++ toString pos
  | unexpected s => "RPN: Invalid token type '" ++ s.name ++ "'"

/-- The symbols in their new order, and what each closed group encloses. -/
structure Ordered where
  symbols : List Symbol := []
  groups : List Extent := []
deriving DecidableEq

def Ordered.emit (symbols : List Symbol) (r : Ordered) : Ordered :=
  { r with symbols := symbols ++ r.symbols }

def Ordered.close (e : Extent) (r : Ordered) : Ordered := { r with groups := e :: r.groups }

/-- Emits a concatenation from the top of the stack of operators. -/
def popConcat : List Operator → List Symbol × List Operator
  | .concat :: ops => ([.concat], ops)
  | ops => ([], ops)

/-- Emits an alternation from the top of the stack of operators. -/
def popAlternation : List Operator → List Symbol × List Operator
  | .alternation t :: ops => ([.token t], ops)
  | ops => ([], ops)

/-- Ends the current alternative and the alternation in front of it. -/
def endTerm (ops : List Operator) : List Symbol × List Operator :=
  let concat := popConcat ops
  let alternation := popAlternation concat.2
  (concat.1 ++ alternation.1, alternation.2)

/-- A factor that follows another one directly is concatenated to it. -/
def startFactor (follows : Bool) (ops : List Operator) : List Symbol × List Operator :=
  if follows then
    let concat := popConcat ops
    (concat.1, .concat :: concat.2)
  else ([], ops)

/--
Orders symbols under a stack of operators. `follows` says that the symbol in front ends a factor.
Tokens that have been ruled out are skipped.
-/
def order (ops : List Operator) (follows : Bool) : List Symbol → Except Error Ordered
  | [] => .ok { symbols := (endTerm ops).1 }
  | .token t :: rest =>
      if t.invalid then order ops follows rest
      else
        match t.piece with
        | .value _ =>
            let r := startFactor follows ops
            (order r.2 true rest).map (.emit (r.1 ++ [.token t]))
        | .alternation =>
            let r := endTerm ops
            (order (.alternation t :: r.2) false rest).map (.emit r.1)
        | .quantifier _ => (order ops true rest).map (.emit [.token t])
        | .groupOpen =>
            let r := startFactor follows ops
            (order (.group t :: r.2) false rest).map (.emit r.1)
        | .groupClose =>
            match endTerm ops with
            | (symbols, .group g :: ops) =>
                (order ops true rest).map fun r =>
                  (r.close ⟨g.index, t.index⟩).emit
                    (symbols ++ [.token { g with last := some t.index }])
            | _ => .error (.unbalanced t.pos)
  | s :: _ => .error (.unexpected s)

/-- Puts symbols in source order into reverse Polish notation. -/
def ofSymbols (symbols : List Symbol) : Except Error Ordered := order [] false symbols

def ofTokens (ts : List Token) : Except Error Ordered := ofSymbols (ts.map .token)

/-- Notes an extent on the two lexemes that delimit it. -/
def stamp (l : Lexeme) (e : Extent) : Lexeme :=
  if l.index = e.first ∨ l.index = e.last then { l with extent := some e } else l

/-- Notes on the parentheses what they enclose. -/
def Ordered.markGroups (r : Ordered) (ls : List Lexeme) : List Lexeme :=
  ls.map fun l => r.groups.foldl stamp l

end RegexDiagram.ReversePolish
