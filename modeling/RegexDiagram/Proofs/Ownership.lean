import RegexDiagram.Proofs.Extents

/-!
Which stage writes what. The lexemes of a regex go through all stages, and each stage has fields of
its own: validation marks lexemes, ordering notes on parentheses what they enclose, construction
notes on operators what they apply to. Tokens know their lexemes by index, also those that were
added and stand where another token does; even so nothing is ever written on a lexeme of another
token.
-/
namespace RegexDiagram

open Analysis
open List (Forall₂)

theorem Token.isValue_of_isOperator {t : Token} (h : t.isOperator = true) : t.isValue = false := by
  unfold Token.isValue
  cases hp : t.piece with
  | value v =>
    rw [Token.not_isOperator hp rfl (by simp)] at h
    cases h
  | _ => rfl

namespace Lexeme

/-- What validation may make of a lexeme: it may mark it as invalid. -/
structure Judges (l m : Lexeme) : Prop where
  same : m = { l with invalid := m.invalid }
  kept : l.invalid = true → m.invalid = true

/-- What ordering may make of a lexeme: it may note an extent, if it is a parenthesis. -/
structure Encloses (l m : Lexeme) : Prop where
  same : m = { l with extent := m.extent }
  owner : m ≠ l → l.glyph = .whole .groupOpen ∨ l.glyph = .whole .groupClose

/-- What construction may make of a lexeme: it may note operands, if it is that of an operator that
is left. -/
structure Applies (source : List Char) (valid : List Token) (l m : Lexeme) : Prop where
  same : m = { l with left := m.left, right := m.right }
  owner : m ≠ l → ∃ t ∈ valid, t.isOperator = true ∧ t.index = l.index ∧
    ∃ u ∈ (ofSource source).tokens, t.ComesFrom u ∧ l.glyph = .whole u.piece

theorem Judges.refl (l : Lexeme) : l.Judges l := ⟨rfl, id⟩

theorem Judges.trans {l m n : Lexeme} (h : l.Judges m) (h' : m.Judges n) : l.Judges n := by
  refine ⟨?_, fun hl => h'.kept (h.kept hl)⟩
  calc n
    _ = { m with invalid := n.invalid } := h'.same
    _ = { l with invalid := n.invalid } := by rw [h.same]

theorem Judges.markInvalid {ls ms : List Lexeme} (h : Forall₂ Judges ls ms) (indexes : List Nat) :
    Forall₂ Judges ls (markInvalid indexes ms) := by
  refine List.forall₂_map_right_iff.mpr (h.imp fun l m hlm => ?_)
  split
  · exact hlm.trans ⟨rfl, fun _ => rfl⟩
  · exact hlm

end Lexeme

theorem ReversePolish.foldl_stamp_same (groups : List Extent) (l : Lexeme) :
    groups.foldl stamp l = { l with extent := (groups.foldl stamp l).extent } := by
  induction groups generalizing l with
  | nil => rfl
  | cons e groups ih =>
    rw [List.foldl_cons]
    unfold stamp
    split
    · exact ih { l with extent := some e }
    · exact ih l

theorem Construction.foldl_stamp_same (spans : List Span) (l : Lexeme) :
    spans.foldl stamp l =
      { l with left := (spans.foldl stamp l).left, right := (spans.foldl stamp l).right } := by
  induction spans generalizing l with
  | nil => rfl
  | cons s spans ih =>
    rw [List.foldl_cons]
    unfold stamp
    split
    · exact ih { l with left := s.left, right := s.right.getD l.right }
    · exact ih l

namespace Analysis

variable {source : List Char} {a : Analysis} {l : Lexeme} {t : Token}

/-- Each pass of validation only marks lexemes. -/
theorem judges_validate (ha : (ofSource source).validate = some a) :
    Forall₂ Lexeme.Judges (ofSource source).lexemes a.lexemes := by
  obtain ⟨b, hb, rfl⟩ := Option.map_eq_some_iff.mp ha
  obtain ⟨v, -, rfl⟩ := Option.map_eq_some_iff.mp hb
  have hread : Forall₂ Lexeme.Judges (ofSource source).lexemes (ofSource source).lexemes :=
    List.forall₂_same.mpr fun l _ => .refl l
  refine Lexeme.Judges.markInvalid ?_ _
  refine Lexeme.Judges.markInvalid ?_ _
  exact Lexeme.Judges.markInvalid hread _

theorem glyph_of_token (ha : (ofSource source).validate = some a) (hl : l ∈ a.lexemes)
    (ht : t ∈ (ofSource source).tokens) (hvalue : t.isValue = false) (hindex : l.index = t.index) :
    l.glyph = .whole t.piece := by
  obtain ⟨i, hi⟩ := List.mem_iff_getElem?.mp hl
  have hplace := ((consistent_ofSource source).validate ha).getElem? hi
  obtain ⟨m, hm, hglyph, -⟩ := exists_lexeme_of_mem ht (i := 0) (g := .whole t.piece)
    (by rw [Piece.glyphs_eq_whole hvalue]; rfl)
  have hunmark := congrArg (·[i]?) (map_unmark_validate ha)
  rw [Nat.add_zero, ← hindex, hplace] at hm
  simp only [List.getElem?_map, hi, hm, Option.map_some] at hunmark
  have hsame : l.unmark.glyph = m.unmark.glyph := congrArg Lexeme.glyph (Option.some.inj hunmark)
  exact hsame.trans hglyph

theorem exists_source_operator (ha : (ofSource source).validate = some a) (ht : t ∈ a.valid)
    (hoperator : t.isOperator = true) :
    ∃ u ∈ (ofSource source).tokens, t.ComesFrom u ∧ u.index = t.index ∧ u.isValue = false := by
  obtain ⟨us, closings, hvalid, hus, hclosings⟩ := exists_kept ha
  rw [hvalid] at ht
  rcases List.mem_append.mp ht with ht | ht
  · obtain ⟨u, hu, hfrom⟩ := exists_of_mem_left (Token.Revises.sublist_valid hus) ht
    refine ⟨u, hu, hfrom, ?_⟩
    cases hfrom with
    | same => exact ⟨rfl, Token.isValue_of_isOperator hoperator⟩
    | folded hq r => exact ⟨rfl, by rw [Token.isValue, hq]; rfl⟩
  · rw [Token.not_isOperator (hclosings t ht).2 rfl (by simp)] at hoperator
    cases hoperator

end Analysis

namespace Compiled.Stages

variable {source : List Char} {a : Analysis} {A : Expression} {c : Compiled}

theorem glyph_of_ends (h : Stages source a A c) {l : Lexeme} (hl : l ∈ a.lexemes) {e : Extent}
    (he : e ∈ A.extents) (hends : e.Ends l.index) :
    l.glyph = .whole .groupOpen ∨ l.glyph = .whole .groupClose := by
  obtain ⟨o, u, hpair, rfl⟩ := h.exists_pair he
  obtain ⟨ho, hopening⟩ := hpair.mem_opening
  have hclosing := hpair.piece_closing
  have hopen (hindex : l.index = o.index) : l.glyph = .whole .groupOpen :=
    hopening ▸ glyph_of_token h.validated hl ho (by rw [Token.isValue, hopening]; rfl) hindex
  rcases hends with hindex | hindex
  · exact .inl (hopen hindex)
  · obtain ⟨w, hw, hstands, rfl | ⟨rfl, -⟩⟩ := hpair.exists_standing
    · exact .inr (hclosing ▸ glyph_of_token h.validated hl hw
        (by rw [Token.isValue, hclosing]; rfl) hindex)
    · exact .inl (hopen (hindex.trans hstands.symm))

/-- Ordering changes nothing but what is noted on parentheses. -/
theorem encloses_ordered (h : Stages source a A c) :
    Forall₂ Lexeme.Encloses a.lexemes (A.ordered.markGroups a.lexemes) := by
  refine List.forall₂_map_right_iff.mpr (List.forall₂_same.mpr fun l hl => ?_)
  refine ⟨ReversePolish.foldl_stamp_same A.extents l, fun hne => ?_⟩
  by_contra hother
  refine hne (ReversePolish.foldl_stamp_of_untouched fun e he => ?_)
  exact ⟨fun hi => hother (h.glyph_of_ends hl he (.inl hi)),
    fun hi => hother (h.glyph_of_ends hl he (.inr hi))⟩

theorem indexes_spans (h : Stages source a A c) :
    (A.spans.map (·.index)).Perm ((a.valid.filter (·.isOperator)).map Token.index) := by
  rw [← h.tree]
  exact A.indexes_spans

/-- Construction changes nothing but what is noted on operators. -/
theorem applies_built (h : Stages source a A c) :
    Forall₂ (Lexeme.Applies source a.valid) (A.ordered.markGroups a.lexemes) c.lexemes := by
  have hlexemes : c.lexemes =
      Construction.markOperands A.spans (A.ordered.markGroups a.lexemes) := by
    rw [lexemes, h.analysis_eq.2]
  rw [hlexemes]
  refine List.forall₂_map_right_iff.mpr (List.forall₂_same.mpr fun l hl => ?_)
  refine ⟨Construction.foldl_stamp_same A.spans l, fun hne => ?_⟩
  have hnoted : l.index ∈ A.spans.map (·.index) := by
    by_contra hnot
    exact hne (Construction.foldl_stamp_of_notMem hnot)
  rw [h.indexes_spans.mem_iff] at hnoted
  obtain ⟨t, ht, hindex⟩ := List.mem_map.mp hnoted
  obtain ⟨hvalid, hoperator⟩ := List.mem_filter.mp ht
  obtain ⟨u, hu, hfrom, hstands, hvalue⟩ :=
    exists_source_operator h.validated hvalid hoperator
  obtain ⟨k, hk, rfl⟩ := List.mem_map.mp hl
  obtain ⟨hglyph, -, hindex', -⟩ := ReversePolish.keeps_foldl_stamp A.extents k
  refine ⟨t, hvalid, hoperator, hindex, u, hu, hfrom, hglyph.trans ?_⟩
  exact glyph_of_token h.validated hk hu hvalue
    (hindex'.symm.trans (hindex.symm.trans hstands.symm))

theorem exists_bracket (h : Stages source a A c) {i : Nat} {l : Lexeme} {b : Bracket}
    (hl : (ofSource source).lexemes[i]? = some l) (hb : l.glyph.bracket? = some b) :
    ∃ k, c.lexemes[i]? = some k ∧ k.glyph = l.glyph ∧ k.extent = l.extent := by
  obtain ⟨t, ht, hle, hg, hread⟩ := exists_token_of_lexeme hl
  have hvalue : t.isValue = true := Piece.isValue_of_bracket (List.mem_of_getElem? hg) hb
  obtain ⟨k, hk, hglyph, -, hnoted⟩ := h.exists_lexeme_of_value ht hvalue hg
  rw [Nat.add_sub_cancel' hle] at hk
  exact ⟨k, hk, hglyph, hnoted.trans hread.symm⟩

end Compiled.Stages

/--
Which stage changes what about the lexemes. Validation only marks lexemes as invalid, and takes no
mark away. Ordering only notes extents, and only on parentheses. Construction only notes operands,
each on the lexeme of an operator that is left, and there once. Drawing changes nothing, and nothing
is reported after validation. So brackets keep what they were read as, and the extent that was read.
-/
theorem lexemes_owned (source : List Char) :
    ∃ a b symbols c, (ofSource source).validate = some a ∧
      Compiled.ordered source = .ok (b, symbols) ∧ compile source = .ok c ∧
      Forall₂ Lexeme.Judges (ofSource source).lexemes a.lexemes ∧
      Forall₂ Lexeme.Encloses a.lexemes b.lexemes ∧
      Forall₂ (Lexeme.Applies source a.valid) b.lexemes c.lexemes ∧
      (((Automaton.ofSymbols b.lexemes symbols).spans.map (·.index)).Nodup ∧
        ∀ s ∈ (Automaton.ofSymbols b.lexemes symbols).spans,
          ∃ t ∈ a.valid, t.isOperator = true ∧ t.index = s.index) ∧
      c.lexemes =
        Construction.markOperands (Automaton.ofSymbols b.lexemes symbols).spans b.lexemes ∧
      (b.findings = a.findings ∧ c.analysis.findings = a.findings ∧ c.report = a.report) ∧
      ∀ (i : Nat) (l : Lexeme) (d : Bracket), (ofSource source).lexemes[i]? = some l →
        l.glyph.bracket? = some d →
        ∃ k, c.lexemes[i]? = some k ∧ k.glyph = l.glyph ∧ k.extent = l.extent := by
  obtain ⟨a, A, c, h⟩ := Compiled.Stages.exist source
  have hfindings : c.analysis.findings = a.findings := by rw [h.analysis_eq.2]
  refine ⟨a, _, A.symbols, c, h.validated, h.ordered_eq, h.compiled, judges_validate h.validated,
    h.encloses_ordered, h.applies_built, ?_, ?_, ⟨rfl, hfindings, ?_⟩,
    fun i l d hl hd => h.exists_bracket hl hd⟩
  · rw [h.built_eq]
    refine ⟨?_, fun s hs => ?_⟩
    · rw [h.indexes_spans.nodup_iff]
      exact nodup_operators h.validated
    · have hindex := h.indexes_spans.mem_iff.mp (List.mem_map_of_mem hs)
      obtain ⟨t, ht, heq⟩ := List.mem_map.mp hindex
      obtain ⟨hvalid, hoperator⟩ := List.mem_filter.mp ht
      exact ⟨t, hvalid, hoperator, heq⟩
  · rw [h.built_eq, Compiled.lexemes, h.analysis_eq.2]
  · rw [Compiled.report, Analysis.report, Analysis.report, hfindings]

end RegexDiagram
