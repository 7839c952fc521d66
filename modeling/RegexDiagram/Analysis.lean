import RegexDiagram.Token
import RegexDiagram.Diagnostic

/-!
The analysis of a regex: its lexemes, its tokens and what was found wrong with it. Reading a source
never fails; what it finds wrong is a bracket expression without an end and a backslash without a
character. Reading is compositional: the analysis of a list of pieces is put together from those of
the single pieces.
-/
namespace RegexDiagram

structure Analysis where
  lexemes : List Lexeme := []
  tokens : List Token := []
  findings : List Finding := []

def Lexeme.markInvalid (indexes : List Nat) (ls : List Lexeme) : List Lexeme :=
  ls.map fun l => if indexes.contains l.index then { l with invalid := true } else l

namespace Analysis

def append (a b : Analysis) : Analysis :=
  ⟨a.lexemes ++ b.lexemes, a.tokens ++ b.tokens, a.findings ++ b.findings⟩

instance : Append Analysis := ⟨append⟩

/-- Adds findings and marks the lexemes they blame. -/
def record (a : Analysis) (fs : List Finding) : Analysis :=
  { a with
    lexemes := Lexeme.markInvalid (fs.flatMap (·.lexemes)) a.lexemes
    findings := a.findings ++ fs }

def report (a : Analysis) : List Diagnostic := Diagnostic.report a.findings

/-- The tokens that validation has not ruled out. -/
def valid (a : Analysis) : List Token := a.tokens.filter (!·.invalid)

theorem mem_valid {a : Analysis} {t : Token} : t ∈ a.valid ↔ t ∈ a.tokens ∧ t.invalid = false := by
  simp [valid]

def invalidLexemes (a : Analysis) : List Nat := (a.lexemes.filter (·.invalid)).map (·.index)

inductive WarnError
  | noLexeme (index : Nat)
  | noCategory (key : String)

/--
Records one occurrence by the key of its category. The lexeme is marked even if there is no such
category.
-/
def warn (a : Analysis) (key : String) (pos index : Nat) (label : Option (List Char)) :
    Analysis × Option WarnError :=
  if a.lexemes.length ≤ index then (a, some (.noLexeme index))
  else
    match Category.ofKey? key with
    | some c => (a.record [{ category := c, pos := pos, label := label, lexemes := [index] }], none)
    | none =>
        ({ a with lexemes := Lexeme.markInvalid [index] a.lexemes }, some (.noCategory key))

end Analysis

namespace Piece

/-- What is wrong with a piece on its own. -/
def findings (p : Piece) (pos index : Nat) : List Finding :=
  match p with
  | value (.bracket b) =>
      if b.closed then [] else [{ category := .openBracket, pos := pos, lexemes := [index] }]
  | value .danglingEscape => [{ category := .danglingEscape, pos := pos, lexemes := [index] }]
  | _ => []

/-- The analysis of one piece that starts at `pos` with the lexeme at `index`. -/
def analysis (p : Piece) (pos index : Nat) : Analysis :=
  Analysis.record ⟨p.lexemes pos index, [p.token pos index], []⟩ (p.findings pos index)

end Piece

namespace Analysis

/-- The analysis of pieces of which the first starts at `pos` with the lexeme at `index`. -/
def ofPieces (pos index : Nat) : List Piece → Analysis
  | [] => {}
  | p :: ps =>
      p.analysis pos index ++ ofPieces (pos + p.text.length) (index + p.glyphs.length) ps

/-- Reads the source of a regex. -/
def ofSource (source : List Char) : Analysis := ofPieces 0 0 (Piece.readAll source)

@[simp] theorem lexemes_append (a b : Analysis) : (a ++ b).lexemes = a.lexemes ++ b.lexemes := rfl

@[simp] theorem tokens_append (a b : Analysis) : (a ++ b).tokens = a.tokens ++ b.tokens := rfl

@[simp] theorem findings_append (a b : Analysis) : (a ++ b).findings = a.findings ++ b.findings :=
  rfl

theorem append_assoc (a b c : Analysis) : a ++ b ++ c = a ++ (b ++ c) := by
  show append (append a b) c = append a (append b c)
  simp only [append, List.append_assoc]

@[simp] theorem tokens_record (a : Analysis) (fs : List Finding) : (a.record fs).tokens = a.tokens :=
  rfl

@[simp] theorem findings_record (a : Analysis) (fs : List Finding) :
    (a.record fs).findings = a.findings ++ fs := rfl

theorem labels_markInvalid (indexes : List Nat) (ls : List Lexeme) :
    (Lexeme.markInvalid indexes ls).map Lexeme.label = ls.map Lexeme.label := by
  simp only [Lexeme.markInvalid, List.map_map]
  refine List.map_congr_left fun l _ => ?_
  simp only [Function.comp]
  split <;> rfl

theorem labels_ofPieces (pos index : Nat) (ps : List Piece) :
    ((ofPieces pos index ps).lexemes.map Lexeme.label).flatten = ps.flatMap Piece.text := by
  induction ps generalizing pos index with
  | nil => rfl
  | cons p ps ih =>
    have hp : ((p.analysis pos index).lexemes.map Lexeme.label).flatten = p.text := by
      rw [← Piece.flatMap_glyphs, List.flatMap_def, Piece.analysis, record, labels_markInvalid,
        Piece.labels_lexemes]
    simp [ofPieces, ih, hp]

/-- The labels of the lexemes make up the source. -/
theorem labels_ofSource (source : List Char) :
    ((ofSource source).lexemes.map Lexeme.label).flatten = source := by
  rw [ofSource, labels_ofPieces, Piece.readAll_text]

end Analysis
end RegexDiagram
