import RegexDiagram.Analysis

/-!
Ruling out what applies to nothing. Going through the tokens once, the search remembers for each
open group whether its current alternative and its whole content have held a value so far. A
quantifier or an alternation after an empty alternative is ruled out, an alternation whose right
side stays empty is ruled out when its group ends, and so is a group without a value.
-/
namespace RegexDiagram

namespace Finding

def quantifierOfNothing (t : Token) : Finding :=
  { category := .quantifierOfNothing, pos := t.pos, label := some t.label, lexemes := [t.index] }

def alternationAfterNothing (t : Token) : Finding :=
  { category := .alternationAfterNothing, pos := t.pos, lexemes := [t.index] }

def alternationBeforeNothing (t : Token) : Finding :=
  { category := .alternationBeforeNothing, pos := t.pos, lexemes := [t.index] }

/-- A pair of parentheses without a value. Both are marked, the closing one is reported. -/
def emptyGroup (opening closing : Token) : Finding :=
  { category := .emptyGroup, pos := closing.pos, lexemes := [closing.index, opening.index] }

def emptyOpenGroup (opening : Token) : Finding :=
  { category := .emptyOpenGroup, pos := opening.pos, lexemes := [opening.index] }

def openGroup (opening : Token) : Finding :=
  { category := .openGroup, pos := opening.pos, lexemes := [opening.index] }

end Finding

namespace EmptyOperands

/-- A token and its place in the list of tokens. -/
structure Placed where
  place : Nat
  token : Token

/-- What has been seen of one level: the content of a group, or the whole regex. -/
structure Level where
  /-- The current alternative has no value yet. -/
  termEmpty : Bool := true
  /-- The level has no value yet. -/
  exprEmpty : Bool := true
  /-- The last alternation that was kept. -/
  alternation : Option Placed := none

/-- An open group and the level around it. -/
structure Group where
  opening : Placed
  outer : Level

/-- The places of the tokens to rule out, and the reasons. -/
structure Verdict where
  places : List Nat := []
  findings : List Finding := []

instance : Append Verdict := ⟨fun v w => ⟨v.places ++ w.places, v.findings ++ w.findings⟩⟩

structure Search where
  level : Level := {}
  groups : List Group := []

/-- At the end of a level, an alternation with nothing after it is ruled out. -/
def Level.ending (l : Level) : Verdict :=
  match l.alternation with
  | some a =>
      if l.termEmpty then ⟨[a.place], [.alternationBeforeNothing a.token]⟩ else {}
  | none => {}

/-- The verdict on a group of the given content. A closing parenthesis that was added says that
the group has none in the source. -/
def Group.verdict (g : Group) (content : Level) (closing : Placed) : Verdict :=
  if content.exprEmpty then
    ⟨[g.opening.place, closing.place],
      [if closing.token.added then .emptyOpenGroup g.opening.token
        else .emptyGroup g.opening.token closing.token]⟩
  else if closing.token.added then ⟨[], [.openGroup g.opening.token]⟩
  else {}

/-- The level around a group once the group has ended. -/
def Group.resume (g : Group) (content : Level) : Level :=
  { g.outer with
    termEmpty := g.outer.termEmpty && content.exprEmpty
    exprEmpty := g.outer.exprEmpty && content.exprEmpty }

/-- One token. A closing parenthesis needs an open group. -/
def Search.step (s : Search) (p : Placed) : Option (Search × Verdict) :=
  let keep (l : Level) : Option (Search × Verdict) := some ({ s with level := l }, {})
  let drop (f : Finding) : Option (Search × Verdict) := some (s, ⟨[p.place], [f]⟩)
  if p.token.invalid then keep s.level
  else
    match p.token.piece with
    | .value _ => keep { s.level with termEmpty := false, exprEmpty := false }
    | .alternation =>
        if s.level.termEmpty then drop (.alternationAfterNothing p.token)
        else keep { s.level with termEmpty := true, alternation := some p }
    | .quantifier _ =>
        if s.level.termEmpty then drop (.quantifierOfNothing p.token) else keep s.level
    | .groupOpen => some ({ level := {}, groups := ⟨p, s.level⟩ :: s.groups }, {})
    | .groupClose =>
        match s.groups with
        | [] => none
        | g :: groups =>
            some ({ level := g.resume s.level, groups := groups },
              g.verdict s.level p ++ s.level.ending)

/-- The verdict on the tokens from a place on. -/
def Search.run (s : Search) (place : Nat) : List Token → Option Verdict
  | [] => some s.level.ending
  | t :: ts =>
      (s.step ⟨place, t⟩).bind fun r => (r.1.run (place + 1) ts).map (r.2 ++ ·)

/-- Invalidates the tokens at the given places. -/
def invalidate (places : List Nat) (ts : List Token) : List Token :=
  ts.mapIdx fun place t => if places.contains place then t.invalidate else t

end EmptyOperands

/-- Rules out what applies to nothing. There is no result if a parenthesis closes no group. -/
def Analysis.dropEmptyOperands (a : Analysis) : Option Analysis :=
  (EmptyOperands.Search.run {} 0 a.tokens).map fun v =>
    { a with tokens := EmptyOperands.invalidate v.places a.tokens }.record v.findings

end RegexDiagram
