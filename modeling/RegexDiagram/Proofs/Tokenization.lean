import RegexDiagram.Proofs.Compile
import RegexDiagram.Proofs.Reading

/-!
Reading loses nothing of a source. The lexemes adjoin each other: each one starts where the labels
of those before it end. A token covers the lexemes from its first to its last one, and the tokens
divide all lexemes among themselves, in order.
-/
namespace RegexDiagram

/-- The lexemes that a token covers. -/
def Token.span (t : Token) : List Nat :=
  List.range' t.index (t.last.getD t.index + 1 - t.index)

namespace Lexeme

/-- The first of the lexemes starts at `pos`, and each one after it where the one before ends. -/
def Adjoining (pos : Nat) : List Lexeme → Prop
  | [] => True
  | l :: ls => l.pos = pos ∧ Adjoining (pos + l.label.length) ls

theorem adjoining_append {pos : Nat} {ls ms : List Lexeme} :
    Adjoining pos (ls ++ ms) ↔
      Adjoining pos ls ∧ Adjoining (pos + (ls.flatMap label).length) ms := by
  induction ls generalizing pos with
  | nil => simp [Adjoining]
  | cons l ls ih =>
    simp only [List.cons_append, Adjoining, ih, List.flatMap_cons, List.length_append, and_assoc,
      Nat.add_assoc]

theorem Adjoining.pos_eq {pos i : Nat} {ls : List Lexeme} {l : Lexeme} (h : Adjoining pos ls)
    (hl : ls[i]? = some l) : l.pos = pos + ((ls.take i).flatMap label).length := by
  obtain ⟨hi, rfl⟩ := List.getElem?_eq_some_iff.mp hl
  rw [← List.take_append_drop i ls, adjoining_append, List.drop_eq_getElem_cons hi] at h
  exact h.2.1

theorem adjoining_markInvalid (indexes : List Nat) {pos : Nat} {ls : List Lexeme} :
    Adjoining pos (markInvalid indexes ls) ↔ Adjoining pos ls := by
  induction ls generalizing pos with
  | nil => rfl
  | cons l ls ih =>
    have hmark : markInvalid indexes (l :: ls) =
        (if indexes.contains l.index then { l with invalid := true } else l) ::
          markInvalid indexes ls := rfl
    rw [hmark, Adjoining, Adjoining, ih]
    split <;> rfl

end Lexeme

theorem Bracket.length_label (b : Bracket) : ∀ g ∈ b.glyphs, g.label.length = 1 := by
  intro g hg
  simp only [glyphs, List.mem_append, List.mem_cons, List.mem_flatMap] at hg
  rcases hg with ((rfl | hg) | ⟨i, -, hg⟩) | hg
  · rfl
  · split at hg
    · obtain rfl := List.mem_singleton.mp hg
      rfl
    · simp at hg
  · cases i with
    | single c =>
      obtain rfl := List.mem_singleton.mp hg
      rfl
    | range low high =>
      simp only [BracketItem.glyphs, List.mem_cons, List.not_mem_nil, or_false] at hg
      rcases hg with rfl | rfl | rfl <;> rfl
  · split at hg
    · obtain rfl := List.mem_singleton.mp hg
      rfl
    · simp at hg

/-- Only a piece with a single lexeme can have a label of more than one character. -/
theorem Piece.length_label {p : Piece} (h : p.glyphs.length ≠ 1) :
    ∀ g ∈ p.glyphs, g.label.length = 1 := by
  intro g hg
  fun_cases Piece.glyphs p with
  | case1 b => exact b.length_label g hg
  | case2 =>
    rename_i hp
    simp [glyphs.eq_2 p hp] at h

theorem Lexeme.adjoining_zipIdx {gs : List Glyph} (hgs : ∀ g ∈ gs, g.label.length = 1)
    (make : Glyph × Nat → Lexeme) (pos i : Nat)
    (hmake : ∀ g j, (make (g, j)).glyph = g ∧ (make (g, j)).pos = pos + j) :
    Adjoining (pos + i) ((gs.zipIdx i).map make) := by
  induction gs generalizing i with
  | nil => trivial
  | cons g gs ih =>
    obtain ⟨hg, hgs⟩ := List.forall_mem_cons.mp hgs
    refine ⟨(hmake g i).2, ?_⟩
    rw [label, (hmake g i).1, hg, Nat.add_assoc]
    exact ih hgs (i + 1)

theorem Piece.adjoining_lexemes (p : Piece) (pos index : Nat) :
    Lexeme.Adjoining pos (p.lexemes pos index) := by
  by_cases h : p.glyphs.length = 1
  · obtain ⟨g, hg⟩ := List.length_eq_one_iff.mp h
    simp [lexemes, hg, Lexeme.Adjoining]
  · exact Lexeme.adjoining_zipIdx (length_label h) _ pos 0 fun _ _ => ⟨rfl, rfl⟩

theorem Piece.span_token (p : Piece) (pos index : Nat) :
    (p.token pos index).span = List.range' index p.glyphs.length := by
  have hpos := List.length_pos_iff.mpr p.glyphs_ne_nil
  fun_cases Piece.token p pos index with
  | case1 b =>
    have hlength : index + b.glyphs.length - 1 + 1 - index = b.glyphs.length := by
      have hb : 0 < b.glyphs.length := hpos
      omega
    rw [Token.span, Option.getD_some, hlength, glyphs]
  | case2 =>
    rename_i hp
    simp [Token.span, glyphs.eq_2 p hp]

namespace Analysis

theorem flatMap_label_analysis (p : Piece) (pos index : Nat) :
    (p.analysis pos index).lexemes.flatMap Lexeme.label = p.text := by
  rw [List.flatMap_def, Piece.analysis, record, labels_markInvalid, Piece.labels_lexemes,
    ← List.flatMap_def, Piece.flatMap_glyphs]

theorem length_lexemes_analysis (p : Piece) (pos index : Nat) :
    (p.analysis pos index).lexemes.length = p.glyphs.length := by
  simp [Piece.analysis, record, Piece.lexemes_length]

theorem adjoining_ofPieces (ps : List Piece) (pos index : Nat) :
    Lexeme.Adjoining pos (ofPieces pos index ps).lexemes := by
  induction ps generalizing pos index with
  | nil => trivial
  | cons p ps ih =>
    rw [ofPieces, lexemes_append, Lexeme.adjoining_append, flatMap_label_analysis]
    refine ⟨?_, ih _ _⟩
    rw [Piece.analysis, record, Lexeme.adjoining_markInvalid]
    exact p.adjoining_lexemes pos index

theorem span_ofPieces (ps : List Piece) (pos index : Nat) :
    (ofPieces pos index ps).tokens.flatMap Token.span =
      List.range' index (ofPieces pos index ps).lexemes.length := by
  induction ps generalizing pos index with
  | nil => rfl
  | cons p ps ih =>
    have hfirst : (p.analysis pos index).tokens.flatMap Token.span =
        List.range' index p.glyphs.length := by
      simp [Piece.analysis, Piece.span_token]
    rw [ofPieces, tokens_append, List.flatMap_append, hfirst, ih, lexemes_append,
      List.length_append, length_lexemes_analysis, List.range'_append_1]

theorem span_ne_nil {source : List Char} {t : Token} (ht : t ∈ (ofSource source).tokens) :
    t.span ≠ [] := by
  obtain ⟨p, -, pos, index, rfl⟩ := exists_of_mem_tokens ht
  rw [p.span_token]
  simpa using p.glyphs_ne_nil

/-- The tokens that are read stand one after the other, and so do their lexemes. -/
theorem pairwise_tokens (ps : List Piece) (pos index : Nat) :
    (∀ t ∈ (ofPieces pos index ps).tokens, pos ≤ t.pos ∧ index ≤ t.index) ∧
      (ofPieces pos index ps).tokens.Pairwise fun t u => t.pos < u.pos ∧ t.index < u.index := by
  induction ps generalizing pos index with
  | nil => exact ⟨by simp [ofPieces], .nil⟩
  | cons p ps ih =>
    obtain ⟨hle, hpairwise⟩ := ih (pos + p.text.length) (index + p.glyphs.length)
    have htext := List.length_pos_iff.mpr p.text_ne_nil
    have hglyphs := List.length_pos_iff.mpr p.glyphs_ne_nil
    have htokens : (ofPieces pos index (p :: ps)).tokens = p.token pos index ::
        (ofPieces (pos + p.text.length) (index + p.glyphs.length) ps).tokens := by
      simp [ofPieces, Piece.analysis]
    rw [htokens, List.pairwise_cons, List.forall_mem_cons]
    refine ⟨⟨by simp, fun t ht => ?_⟩, fun t ht => ?_, hpairwise⟩
    · have hlt := hle t ht
      omega
    · have hlt := hle t ht
      rw [p.pos_token, p.index_token]
      omega

theorem nodup_positions (source : List Char) :
    ((ofSource source).tokens.map Token.pos).Nodup :=
  List.pairwise_map.mpr ((pairwise_tokens _ 0 0).2.imp fun h => Nat.ne_of_lt h.1)

theorem nodup_indexes (source : List Char) :
    ((ofSource source).tokens.map Token.index).Nodup :=
  List.pairwise_map.mpr ((pairwise_tokens _ 0 0).2.imp fun h => Nat.ne_of_lt h.2)

/--
The labels of the lexemes make up the source. The lexemes are numbered in order, and each one stands
where the labels before it end. The tokens cover all lexemes, each token one or more of them that
follow each other, and each lexeme belongs to one token; a token stands where its first lexeme does.
-/
theorem reading_lossless (source : List Char) :
    (ofSource source).lexemes.flatMap Lexeme.label = source ∧
      (∀ i l, (ofSource source).lexemes[i]? = some l →
        l.index = i ∧ l.pos = (((ofSource source).lexemes.take i).flatMap Lexeme.label).length) ∧
      (ofSource source).tokens.flatMap Token.span =
        List.range (ofSource source).lexemes.length ∧
      ∀ t ∈ (ofSource source).tokens, t.span ≠ [] ∧
        ∃ l, (ofSource source).lexemes[t.index]? = some l ∧ l.pos = t.pos := by
  have hconsistent := consistent_ofSource source
  refine ⟨?_, fun i l hl => ⟨hconsistent.getElem? hl, ?_⟩, ?_, fun t ht => ⟨span_ne_nil ht, ?_⟩⟩
  · rw [List.flatMap_def]
    exact labels_ofSource source
  · rw [(adjoining_ofPieces (Piece.readAll source) 0 0).pos_eq hl, Nat.zero_add]
    rfl
  · rw [List.range_eq_range']
    exact span_ofPieces (Piece.readAll source) 0 0
  · exact hconsistent.placed t ht

end Analysis
end RegexDiagram
