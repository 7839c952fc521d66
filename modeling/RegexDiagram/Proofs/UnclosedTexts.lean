import Mathlib.Order.Bounds.Basic
import RegexDiagram.Proofs.BracketReading
import RegexDiagram.Proofs.OperandTexts
import RegexDiagram.Proofs.Pairing

/-!
The texts of what is not closed. A bracket expression without its closing bracket ends with its last
member, and a group without its closing parenthesis is noted to end where it opens. Hints leave out
the last lexeme of what is enclosed all the same. So the hint for such a bracket lacks the last
character of the text, the hint for such a parenthesis has no text at all, and the right operand of
an alternation is shown up to where its last group opens.
-/
namespace RegexDiagram

open Analysis

/-! ## Lexemes of a token -/

namespace Analysis

variable {source : List Char} {t : Token}

theorem exists_lexeme_of_mem (ht : t ∈ (ofSource source).tokens) {i : Nat} {g : Glyph}
    (hg : t.piece.glyphs[i]? = some g) : ∃ l, (ofSource source).lexemes[t.index + i]? = some l ∧
      l.glyph = g ∧ l.pos = t.pos + i ∧
      l.extent = g.bracket?.map fun _ => ⟨t.index, t.lastLexeme⟩ := by
  obtain ⟨xs, ys, hps, htoken⟩ := exists_split_of_mem ht
  have hlt : i < t.piece.glyphs.length := (List.getElem?_eq_some_iff.mp hg).1
  have hlast := lastLexeme_of_mem ht
  have hmade : (t.piece.lexemes t.pos t.index)[i]? = some
      { glyph := g, pos := t.pos + i, index := t.index + i
        extent := g.bracket?.map fun _ => ⟨t.index, t.lastLexeme⟩ } := by
    have hend : t.index + t.piece.glyphs.length - 1 = t.lastLexeme := by omega
    rw [Piece.lexemes, List.getElem?_map, List.getElem?_zipIdx, hg]
    simp [hend]
  have hplaces : t.pos = (xs.flatMap Piece.text).length ∧
      t.index = (xs.flatMap Piece.glyphs).length := by
    rw [htoken]
    simp
  have hbefore : (ofPieces 0 0 xs).lexemes.length = t.index := by
    rw [hplaces.2, ← glyphs_ofPieces xs 0 0, List.length_map]
  have hrow : (ofSource source).lexemes = (ofPieces 0 0 xs).lexemes ++
      ((t.piece.analysis t.pos t.index).lexemes ++ (ofPieces (t.pos + t.piece.text.length)
        (t.index + t.piece.glyphs.length) ys).lexemes) := by
    rw [ofSource, hps, ofPieces_append, lexemes_append, ofPieces, lexemes_append, Nat.zero_add,
      Nat.zero_add, ← hplaces.1, ← hplaces.2]
  have hinside : i < (t.piece.analysis t.pos t.index).lexemes.length := by
    rw [length_lexemes_analysis]
    exact hlt
  rw [hrow, List.getElem?_append_right (by omega), hbefore, Nat.add_sub_cancel_left,
    List.getElem?_append_left hinside]
  simp only [Piece.analysis, record, Lexeme.markInvalid, List.getElem?_map, hmade, Option.map_some]
  refine ⟨_, rfl, ?_⟩
  split <;> exact ⟨rfl, rfl, rfl⟩

theorem length_lexemes_of_isUnfinished (ht : t ∈ (ofSource source).tokens)
    (h : t.piece.isUnfinished = true) :
    (ofSource source).lexemes.length = t.index + t.piece.glyphs.length := by
  obtain ⟨xs, ys, hps, htoken⟩ := exists_split_of_mem ht
  obtain rfl := Piece.eq_nil_of_isUnfinished h hps
  have hindex : t.index = (xs.flatMap Piece.glyphs).length := by
    rw [htoken]
    simp
  have hlength := congrArg List.length (glyphs_ofPieces (Piece.readAll source) 0 0)
  rw [List.length_map, hps, List.flatMap_append, List.length_append, ← hindex] at hlength
  simpa [ofSource, hps] using hlength

end Analysis

namespace Expression

/-- The parentheses of the groups of a regex. -/
def groups : Expression → List (Token × Token)
  | none => []
  | some e => e.groups

theorem extents_eq (A : Expression) : A.extents = A.groups.map fun g => ⟨g.1.index, g.2.index⟩ := by
  cases A with
  | none => rfl
  | some e => exact e.extents_eq

theorem exists_group (A : Expression) {u : Token} (hu : u ∈ A.tokens)
    (hp : u.piece = .groupOpen ∨ u.piece = .groupClose) : ∃ g ∈ A.groups, u = g.1 ∨ u = g.2 := by
  cases A with
  | none => simp [tokens] at hu
  | some e => exact e.exists_group hu hp

theorem related_groups (A : Expression) {R : Token → Token → Prop}
    (hvalid : ∀ t ∈ A.tokens, t.invalid = false) (h : Pairs R [] A.tokens) :
    ∀ g ∈ A.groups, R g.1 g.2 := by
  cases A with
  | none => simp [groups]
  | some e =>
    rw [tokens, ← List.append_nil e.tokens] at h
    exact (e.related_groups hvalid h).1

end Expression

namespace Compiled.Stages

variable {source : List Char} {a : Analysis} {A : Expression} {c : Compiled} {t : Token}

theorem exists_read (h : Stages source a A c) {i : Nat} {m : Lexeme}
    (hm : (ofSource source).lexemes[i]? = some m) : ∃ l k, c.lexemes[i]? = some l ∧ k.index = i ∧
      k.extent = m.extent ∧ l.glyph = m.glyph ∧ l.pos = m.pos ∧
      l.extent = (A.extents.foldl ReversePolish.stamp k).extent := by
  have hunmark := congrArg (·[i]?) (map_unmark_validate h.validated)
  simp only [List.getElem?_map, hm, Option.map_some] at hunmark
  obtain ⟨k, hk, heq⟩ := Option.map_eq_some_iff.mp hunmark
  have hindex := ((consistent_ofSource source).validate h.validated).getElem? hk
  have hextent : k.unmark.extent = m.unmark.extent := congrArg Lexeme.extent heq
  have hglyph : k.unmark.glyph = m.unmark.glyph := congrArg Lexeme.glyph heq
  have hpos : k.unmark.pos = m.unmark.pos := congrArg Lexeme.pos heq
  obtain ⟨hglyph', hpos', -⟩ := ReversePolish.keeps_foldl_stamp A.extents k
  obtain ⟨hglyph'', hpos'', -, -, hextent'⟩ :=
    Construction.keeps_foldl_stamp A.spans (A.extents.foldl ReversePolish.stamp k)
  refine ⟨_, k, ?_, hindex, hextent, hglyph''.trans (hglyph'.trans hglyph),
    hpos''.trans (hpos'.trans hpos), hextent'⟩
  rw [h.lexemes_eq.2, List.getElem?_map, hk, Option.map_some]

theorem related_groups (h : Stages source a A c) :
    ∀ g ∈ A.groups, Pair (ofSource source).tokens g.1 g.2 := by
  refine A.related_groups (fun t ht => ?_) (h.tree ▸ pairs_valid h.validated)
  rw [h.tree] at ht
  exact (mem_valid.mp ht).2

theorem exists_pair (h : Stages source a A c) {e : Extent} (he : e ∈ A.extents) :
    ∃ o u, Pair (ofSource source).tokens o u ∧ e = ⟨o.index, u.index⟩ := by
  rw [A.extents_eq] at he
  obtain ⟨g, hg, rfl⟩ := List.mem_map.mp he
  exact ⟨g.1, g.2, h.related_groups g hg, rfl⟩

theorem exists_extent (h : Stages source a A c) (ht : t ∈ a.valid) (hp : t.piece = .groupOpen) :
    ∃ u, Pair (ofSource source).tokens t u ∧ ⟨t.index, u.index⟩ ∈ A.extents := by
  rw [← h.tree] at ht
  obtain ⟨g, hg, rfl | rfl⟩ := A.exists_group ht (.inl hp)
  · rw [A.extents_eq]
    exact ⟨g.2, h.related_groups g hg, List.mem_map.mpr ⟨g, hg, rfl⟩⟩
  · rw [(h.related_groups g hg).piece_closing] at hp
    cases hp

theorem exists_lexeme_of_value (h : Stages source a A c) (ht : t ∈ (ofSource source).tokens)
    (hvalue : t.isValue = true) {i : Nat} {g : Glyph} (hg : t.piece.glyphs[i]? = some g) :
    ∃ l, c.lexemes[t.index + i]? = some l ∧ l.glyph = g ∧ l.pos = t.pos + i ∧
      l.extent = g.bracket?.map fun _ => ⟨t.index, t.lastLexeme⟩ := by
  obtain ⟨m, hm, hglyph, hpos, hextent⟩ := exists_lexeme_of_mem ht hg
  obtain ⟨l, n, hl, hindex, hextent', hglyph', hpos', hstamped⟩ := h.exists_read hm
  have hi : t.index + i ≤ t.lastLexeme := by
    have hlast := lastLexeme_of_mem ht
    have hlt := (List.getElem?_eq_some_iff.mp hg).1
    omega
  have hne {u : Token} (hu : u ∈ (ofSource source).tokens) (hp : u.isValue = false) :
      n.index ≠ u.index := by
    rintro heq
    rw [← eq_of_within ht hu (by omega) (by omega), hvalue] at hp
    cases hp
  have huntouched : ∀ x ∈ A.extents, n.index ≠ x.first ∧ n.index ≠ x.last := by
    intro x hx
    obtain ⟨o, v, hpair, rfl⟩ := h.exists_pair hx
    obtain ⟨ho, hopening⟩ := hpair.mem_opening
    refine ⟨hne ho (by rw [Token.isValue, hopening]; rfl), ?_⟩
    obtain ⟨w, hw, hw', rfl | ⟨rfl, -⟩⟩ := hpair.exists_standing
    · exact hne hw (by rw [Token.isValue, hpair.piece_closing]; rfl)
    · exact hw' ▸ hne hw (by rw [Token.isValue, hopening]; rfl)
  rw [ReversePolish.foldl_stamp_of_untouched huntouched, hextent', hextent] at hstamped
  exact ⟨l, hl, hglyph'.trans hglyph, hpos'.trans hpos, hstamped⟩

/-- The hint for a bracket lacks the last character of an expression that is not closed. -/
theorem range_of_unclosed_bracket (h : Stages source a A c) {b : Bracket}
    (ht : t ∈ (ofSource source).tokens) (hb : t.piece = .value (.bracket b))
    (hopen : b.closed = false) :
    (c.hint t.index).range = some (source.drop (t.pos + 1)).dropLast := by
  have hvalue : t.isValue = true := by rw [Token.isValue, hb, Piece.isValue]
  have hglyphs : t.piece.glyphs = b.glyphs := by rw [hb, Piece.glyphs]
  have hlast := lastLexeme_of_mem ht
  have hlength : c.lexemes.length = t.lastLexeme + 1 := by
    rw [h.length_lexemes, length_lexemes_validate h.validated, hlast,
      length_lexemes_of_isUnfinished ht (by rw [hb, Piece.isUnfinished, hopen]; rfl)]
  obtain ⟨l, hl, hglyph, hpos, hextent⟩ :=
    h.exists_lexeme_of_value ht hvalue (i := 0) (g := .bracketOpen b) (by rw [hglyphs]; rfl)
  have hinside : t.lastLexeme - t.index < t.piece.glyphs.length := by
    have hnonempty : 0 < b.glyphs.length := by simp [Bracket.glyphs]
    rw [← hglyphs] at hnonempty
    omega
  obtain ⟨l', hl', hglyph', -⟩ :=
    h.exists_lexeme_of_value ht hvalue (List.getElem?_eq_getElem hinside)
  have hsingle : l'.label.length = 1 := by
    rw [Lexeme.label, hglyph']
    exact b.length_label _ (hglyphs ▸ List.getElem_mem hinside)
  rw [Nat.add_sub_cancel' (by omega)] at hl'
  have hend := h.spells.length_take_succ hl'
  rw [← hlength, List.take_length, h.spells.text, hsingle, h.lexemes_eq.1] at hend
  have hfirst : l.label.length = 1 := by
    rw [Lexeme.label, hglyph, Glyph.label, List.length_singleton]
  rw [Nat.add_zero] at hl hpos
  rw [hint_of_getElem? hl, Hint.ofLexeme, hextent, Glyph.bracket?, Option.map_some, Option.map_some,
    h.spells.sourceText_eq, h.spells.length_take_succ hl, ← h.spells.adjoining _ l' hl', hfirst,
    hpos, h.lexemes_eq.1, List.drop_take, List.dropLast_eq_take, List.length_drop]
  have hcount : l'.pos - (t.pos + 1) = source.length - (t.pos + 1) - 1 := by omega
  rw [hcount]

theorem extent_of_unclosed_group (h : Stages source a A c) {k : Nat}
    (ht : (ofSource source).tokens[k]? = some t)
    (hk : Unclosed ((ofSource source).tokens.map Token.piece) k) (hvalid : t ∈ a.valid) :
    ⟨t.index, t.index⟩ ∈ A.extents ∧
      ∀ x ∈ A.extents, t.index = x.first ∨ t.index = x.last → x = ⟨t.index, t.index⟩ := by
  have hmem := List.mem_of_getElem? ht
  have hpiece : t.piece = .groupOpen :=
    Option.some.inj ((getElem?_piece ht).symm.trans hk.opening)
  have hself {u : Token} (hpair : Pair (ofSource source).tokens t u) : u.index = t.index := by
    cases hpair with
    | @matched i j ho _ hmatched =>
      have hplace : i = k := (List.getElem?_inj (List.getElem?_eq_some_iff.mp ho).1
        (List.Nodup.of_map Token.index (nodup_indexes source))).mp (ho.trans ht.symm)
      exact absurd (hplace ▸ hmatched) (hk.not_matched j)
    | added _ _ hu => rw [hu, Token.closing]
  obtain ⟨u, hpair, he⟩ := h.exists_extent hvalid hpiece
  refine ⟨hself hpair ▸ he, fun x hx htouch => ?_⟩
  obtain ⟨o, v, hpair', rfl⟩ := h.exists_pair hx
  have hopening (hindex : o.index = t.index) : o = t :=
    List.inj_on_of_nodup_map (nodup_indexes source) hpair'.mem_opening.1 hmem hindex
  have hsame : o = t := by
    rcases htouch with htouch | htouch
    · exact hopening htouch.symm
    · obtain ⟨w, hw, hindex, rfl | ⟨rfl, -⟩⟩ := hpair'.exists_standing
      · have hclosing := hpair'.piece_closing
        rw [← List.inj_on_of_nodup_map (nodup_indexes source) hmem hw (htouch.trans hindex.symm),
          hpiece] at hclosing
        cases hclosing
      · exact hopening (hindex.trans htouch.symm)
  rw [hsame] at hpair'
  rw [hsame, hself hpair']

/-- The hint for an opening parenthesis has no text if its group is not closed. -/
theorem range_of_unclosed_group (h : Stages source a A c) {k : Nat}
    (ht : (ofSource source).tokens[k]? = some t)
    (hk : Unclosed ((ofSource source).tokens.map Token.piece) k) (hvalid : t ∈ a.valid) :
    (c.hint t.index).range = some [] := by
  obtain ⟨he, hall⟩ := h.extent_of_unclosed_group ht hk hvalid
  have hpiece : t.piece = .groupOpen :=
    Option.some.inj ((getElem?_piece ht).symm.trans hk.opening)
  obtain ⟨m, hm, -⟩ := exists_lexeme_of_mem (List.mem_of_getElem? ht) (i := 0)
    (g := .whole .groupOpen) (by rw [hpiece]; rfl)
  obtain ⟨l, n, hl, hindex, -, -, -, hextent⟩ := h.exists_read hm
  rw [Nat.add_zero] at hl hindex
  rw [← hindex] at he hall
  rw [ReversePolish.extent_foldl_stamp hall (.inr ⟨he, .inl rfl⟩)] at hextent
  rw [hint_of_getElem? hl, Hint.ofLexeme, hextent, Option.map_some, Hint.sourceText,
    Nat.sub_eq_zero_of_le (Nat.le_succ _), List.take_zero, List.flatMap_nil]

/-- The right operand of an alternation is shown up to where its last group opens, if that group is
not closed. -/
theorem right_of_unclosed_group (h : Stages source a A c) {k e : Nat} {last : Token}
    (ht : a.valid[k]? = some t) (halternation : t.piece = .alternation)
    (hend : IsLeast {n | k < n ∧ EndsAlternative (a.valid.map Token.piece) k n} e)
    (hlast : a.valid[e - 1]? = some last) (hadded : last.added = true) :
    ∃ j o first l m, Matched (a.valid.map Token.piece) j (e - 1) ∧ a.valid[j]? = some o ∧
      a.valid[k + 1]? = some first ∧ c.lexemes[first.index]? = some l ∧
      c.lexemes[o.index]? = some m ∧ (c.hint t.index).right = some (c.text l m) := by
  obtain ⟨i, e', -, -, l, m, -, -, -, hend', hstretch, hright⟩ :=
    h.texts_of_alternation ht halternation
  obtain rfl := hend'.unique hend
  obtain ⟨first, hfirst, hl⟩ := hstretch.first
  obtain ⟨last', hlast', hm⟩ := hstretch.last
  rw [h.valid] at hfirst hlast'
  obtain rfl := Option.some.inj (hlast.symm.trans hlast')
  have hclose := piece_of_added h.validated (List.mem_of_getElem? hlast) hadded
  obtain ⟨j, o, hmatched, ho, hpair⟩ := (pairs_valid h.validated).exists_matched
    (List.drop_zero (l := a.valid)) (.zero _) .nil (fun u hu => (mem_valid.mp hu).2)
    (Nat.zero_le _) hlast hclose
  have hindex : last.lastLexeme = o.index := by
    cases hpair with
    | matched _ hu _ =>
      rw [(flags_of_mem_ofSource (List.mem_of_getElem? hu)).1] at hadded
      cases hadded
    | added _ _ hu => rw [hu, Token.lastLexeme, Token.closing, Option.getD_none]
  exact ⟨j, o, first, l, m, hmatched, ho, hfirst, hl, hindex ▸ hm, hright⟩

end Compiled.Stages

/--
The texts of what is not closed. The hint for the bracket of an expression without a closing bracket
shows what comes behind it but for the last character. The hint for a parenthesis that is left
though its group is not closed shows no text. An alternation whose right operand ends with a group
that is not closed shows to its right the text up to the parenthesis that opens the group.
-/
theorem unclosed_texts (source : List Char) :
    ∃ c, compile source = .ok c ∧
      (∀ t ∈ (ofSource source).tokens, ∀ b, t.piece = .value (.bracket b) → b.closed = false →
        (c.hint t.index).range = some (source.drop (t.pos + 1)).dropLast) ∧
      (∀ (k : Nat) (t : Token), (ofSource source).tokens[k]? = some t →
        Unclosed ((ofSource source).tokens.map Token.piece) k → t ∈ c.analysis.valid →
        (c.hint t.index).range = some []) ∧
      ∀ (k e : Nat) (t last : Token), c.analysis.valid[k]? = some t → t.piece = .alternation →
        IsLeast {n | k < n ∧ EndsAlternative (c.analysis.valid.map Token.piece) k n} e →
        c.analysis.valid[e - 1]? = some last → last.added = true →
        ∃ j o first l m, Matched (c.analysis.valid.map Token.piece) j (e - 1) ∧
          c.analysis.valid[j]? = some o ∧ c.analysis.valid[k + 1]? = some first ∧
          c.lexemes[first.index]? = some l ∧ c.lexemes[o.index]? = some m ∧
          (c.hint t.index).right = some (c.text l m) := by
  obtain ⟨a, A, c, h⟩ := Compiled.Stages.exist source
  refine ⟨c, h.compiled, fun t ht b hb hopen => h.range_of_unclosed_bracket ht hb hopen, ?_, ?_⟩
  · rw [h.valid]
    exact fun k t ht hk hvalid => h.range_of_unclosed_group ht hk hvalid
  · rw [h.valid]
    exact fun k e t last ht halternation hend hlast hadded =>
      h.right_of_unclosed_group ht halternation hend hlast hadded

/-- Parts of the texts are missing. -/
theorem unclosed_texts_incomplete :
    (compile "[ab".toList).toOption.map (fun c => (c.hint 0).range) = some (some ['a']) ∧
      (compile "(ab".toList).toOption.map (fun c => (c.hint 0).range) = some (some []) ∧
      (compile "a|(bc".toList).toOption.map (fun c => (c.hint 1).right) = some (some ['(']) := by
  decide +kernel

end RegexDiagram
