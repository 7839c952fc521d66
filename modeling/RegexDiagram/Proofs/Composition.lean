import RegexDiagram.Proofs.BracketReading
import RegexDiagram.Proofs.Invisible

/-!
Reading is compositional. A piece reads the same wherever it stands, with its positions and its
indexes moved along. A source in which nothing is wrong ends with a finished piece, which is read
whatever comes after it. So in front of another source it is read as it is alone, and the other
source is read as it is alone and moved to its end.
-/
namespace RegexDiagram

/-! ## Moving along -/

def Extent.shift (m : Nat) (e : Extent) : Extent := ⟨e.first + m, e.last + m⟩

def Operand.shift (m : Nat) (o : Operand) : Operand := ⟨o.first.map (· + m), o.last.map (· + m)⟩

/-- A lexeme `k` characters and `m` lexemes further on. -/
def Lexeme.shift (k m : Nat) (l : Lexeme) : Lexeme :=
  { l with
    pos := l.pos + k
    index := l.index + m
    extent := l.extent.map (Extent.shift m)
    left := l.left.shift m
    right := l.right.shift m }

def Token.shift (k m : Nat) (t : Token) : Token :=
  { t with pos := t.pos + k, index := t.index + m, last := t.last.map (· + m) }

def Finding.shift (k m : Nat) (f : Finding) : Finding :=
  { f with pos := f.pos + k, lexemes := f.lexemes.map (· + m) }

def Diagnostic.shift (k : Nat) (d : Diagnostic) : Diagnostic :=
  { d with positions := d.positions.map (· + k) }

def Analysis.shift (k m : Nat) (a : Analysis) : Analysis :=
  ⟨a.lexemes.map (Lexeme.shift k m), a.tokens.map (Token.shift k m),
    a.findings.map (Finding.shift k m)⟩

/-! ## What moves along -/

theorem Lexeme.markInvalid_shift (k m : Nat) (indexes : List Nat) (ls : List Lexeme) :
    markInvalid (indexes.map (· + m)) (ls.map (shift k m)) =
      (markInvalid indexes ls).map (shift k m) := by
  simp only [markInvalid, List.map_map]
  refine List.map_congr_left fun l _ => ?_
  have hsame : (indexes.map (· + m)).contains (l.shift k m).index = indexes.contains l.index := by
    simp [shift]
  simp only [Function.comp, hsame]
  split <;> rfl

namespace Piece

theorem lexemes_shift (p : Piece) (k m pos index : Nat) :
    p.lexemes (pos + k) (index + m) = (p.lexemes pos index).map (Lexeme.shift k m) := by
  have hlength := List.length_pos_iff.mpr p.glyphs_ne_nil
  have hlast : index + m + p.glyphs.length - 1 = index + p.glyphs.length - 1 + m := by omega
  simp only [lexemes, List.map_map]
  refine List.map_congr_left fun x _ => ?_
  obtain ⟨g, i⟩ := x
  simp only [Function.comp, Lexeme.shift, Operand.shift, Option.map_none, Option.map_map, hlast]
  rw [Nat.add_right_comm pos, Nat.add_right_comm index]
  rfl

theorem token_shift (p : Piece) (k m pos index : Nat) :
    p.token (pos + k) (index + m) = (p.token pos index).shift k m := by
  fun_cases Piece.token p pos index with
  | case1 b =>
    have hlength : 0 < b.glyphs.length := by simp [Bracket.glyphs]
    have hlast : index + m + b.glyphs.length - 1 = index + b.glyphs.length - 1 + m := by omega
    simp only [token, Token.shift, Option.map_some, hlast]
  | case2 =>
    rename_i hp
    simp [token.eq_2 _ _ _ hp, Token.shift]

theorem findings_shift (p : Piece) (k m pos index : Nat) :
    p.findings (pos + k) (index + m) = (p.findings pos index).map (Finding.shift k m) := by
  fun_cases Piece.findings p pos index <;> simp_all [findings, Finding.shift]

end Piece

namespace Analysis

theorem shift_append (a b : Analysis) (k m : Nat) :
    (a ++ b).shift k m = a.shift k m ++ b.shift k m := by
  show shift k m (append a b) = append (a.shift k m) (b.shift k m)
  simp only [shift, append, List.map_append]

theorem shift_record (a : Analysis) (fs : List Finding) (k m : Nat) :
    (a.record fs).shift k m = (a.shift k m).record (fs.map (Finding.shift k m)) := by
  have hblamed : (fs.map (Finding.shift k m)).flatMap (·.lexemes) =
      (fs.flatMap (·.lexemes)).map (· + m) := by
    simp only [List.flatMap_map, List.map_flatMap, Finding.shift]
  simp only [shift, record, hblamed, Lexeme.markInvalid_shift, List.map_append]

theorem analysis_shift (p : Piece) (k m pos index : Nat) :
    p.analysis (pos + k) (index + m) = (p.analysis pos index).shift k m := by
  rw [Piece.analysis, Piece.analysis, shift_record, p.findings_shift, p.lexemes_shift,
    p.token_shift]
  rfl

/-- Pieces are read further on as they are read where they stand, moved along. -/
theorem ofPieces_shift (ps : List Piece) (k m pos index : Nat) :
    ofPieces (pos + k) (index + m) ps = (ofPieces pos index ps).shift k m := by
  induction ps generalizing pos index with
  | nil => rfl
  | cons p ps ih =>
    rw [ofPieces, ofPieces, shift_append, analysis_shift, Nat.add_right_comm pos,
      Nat.add_right_comm index, ih]

end Analysis

namespace Diagnostic

theorem leading_shift (k m : Nat) (fs : List Finding) :
    leading (fs.map (Finding.shift k m)) = (leading fs).map (Finding.shift k m) := by
  induction fs with
  | nil => rfl
  | cons f fs ih =>
    rw [List.map_cons, leading, leading, List.map_cons, ih, List.filter_map]
    rfl

/-- The categories and labels of a report do not depend on where the findings are. -/
theorem report_shift (k m : Nat) (fs : List Finding) :
    report (fs.map (Finding.shift k m)) = (report fs).map (shift k) := by
  simp only [report, leading_shift, List.map_map]
  refine List.map_congr_left fun f _ => ?_
  simp only [Function.comp, ofFindings, shift, List.filter_map, List.map_map]
  rfl

end Diagnostic

/-! ## One source in front of another -/

namespace Analysis

theorem readAll_append_of_silent {u : List Char} (h : (ofSource u).findings = [])
    (v : List Char) : Piece.readAll (u ++ v) = Piece.readAll u ++ Piece.readAll v := by
  have hlegible : ∀ p ∈ Piece.readAll u, p.Legible := fun p hp =>
    Piece.legible_of_finished hp ((findings_ofSource_eq_nil_iff u).mp h p hp)
  calc Piece.readAll (u ++ v)
      = Piece.readAll ((Piece.readAll u).flatMap Piece.text ++ v) := by rw [Piece.readAll_text]
    _ = Piece.readAll u ++ Piece.readAll v := Piece.readAll_flatMap_append hlegible v

theorem length_lexemes_ofSource (source : List Char) :
    (ofSource source).lexemes.length = ((Piece.readAll source).flatMap Piece.glyphs).length := by
  rw [ofSource, ← glyphs_ofPieces (Piece.readAll source) 0 0, List.length_map]

theorem ofSource_append {u : List Char} (h : (ofSource u).findings = []) (v : List Char) :
    ofSource (u ++ v) =
      ofSource u ++ (ofSource v).shift u.length (ofSource u).lexemes.length := by
  rw [ofSource, readAll_append_of_silent h, ofPieces_append, Piece.readAll_text,
    ← length_lexemes_ofSource, ofPieces_shift]
  rfl

/--
Reading is compositional. If nothing is reported on a source, then in front of another source its
lexemes and tokens are what they are alone. The lexemes and tokens of the other source follow, and
with them its report: every position is further on by the length of the first source, and every
number of a lexeme by the number of lexemes of the first source.
-/
theorem reading_compositional (u v : List Char) (h : (ofSource u).report = []) :
    (ofSource (u ++ v)).lexemes = (ofSource u).lexemes ++
        (ofSource v).lexemes.map (Lexeme.shift u.length (ofSource u).lexemes.length) ∧
      (ofSource (u ++ v)).tokens = (ofSource u).tokens ++
        (ofSource v).tokens.map (Token.shift u.length (ofSource u).lexemes.length) ∧
      (ofSource (u ++ v)).report = (ofSource v).report.map (Diagnostic.shift u.length) := by
  have hsilent : (ofSource u).findings = [] := Diagnostic.report_eq_nil_iff.mp h
  have happend := ofSource_append hsilent v
  refine ⟨congrArg lexemes happend, congrArg tokens happend, ?_⟩
  have hfindings : (ofSource (u ++ v)).findings = (ofSource v).findings.map
      (Finding.shift u.length (ofSource u).lexemes.length) := by
    rw [happend, findings_append, hsilent, List.nil_append]
    rfl
  rw [report, hfindings, Diagnostic.report_shift]
  rfl

/-- A bracket expression and an escape in front of an expression that is not closed. -/
theorem reading_compositional_bracket :
    (ofSource "[-a-c]\\[".toList).report = [] ∧
      (ofSource ("[-a-c]\\[".toList ++ "]?[^]".toList)).lexemes =
        (ofSource "[-a-c]\\[".toList).lexemes ++
          (ofSource "]?[^]".toList).lexemes.map (Lexeme.shift 8 7) ∧
      (ofSource ("[-a-c]\\[".toList ++ "]?[^]".toList)).tokens =
        (ofSource "[-a-c]\\[".toList).tokens ++
          (ofSource "]?[^]".toList).tokens.map (Token.shift 8 7) ∧
      (ofSource ("[-a-c]\\[".toList ++ "]?[^]".toList)).report =
        (ofSource "]?[^]".toList).report.map (Diagnostic.shift 8) ∧
      (ofSource "]?[^]".toList).report ≠ [] := by
  have hsilent : (ofSource "[-a-c]\\[".toList).report = [] := by decide +kernel
  have hlength : "[-a-c]\\[".toList.length = 8 := by decide +kernel
  have hlexemes : (ofSource "[-a-c]\\[".toList).lexemes.length = 7 := by decide +kernel
  obtain ⟨hl, ht, hr⟩ := reading_compositional "[-a-c]\\[".toList "]?[^]".toList hsilent
  rw [hlength] at hl ht hr
  rw [hlexemes] at hl ht
  exact ⟨hsilent, hl, ht, hr, by decide +kernel⟩

end Analysis
end RegexDiagram
