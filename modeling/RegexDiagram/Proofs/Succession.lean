import RegexDiagram.Proofs.Blame
import RegexDiagram.Proofs.Operands

/-!
The valid tokens stand one after the other. Each token of a source ends in front of the next one,
and validation takes tokens out of the row, but moves none. Behind the valid tokens of the source
come the parentheses that were added. What is between two neighbours in the row has been ruled out.
-/
namespace RegexDiagram

open List (Forall₂)

/-- One token ends in front of another one. -/
def Token.Precedes (t u : Token) : Prop := t.lastLexeme < u.index

namespace Piece

theorem lastLexeme_token (p : Piece) (pos index : Nat) :
    (p.token pos index).lastLexeme + 1 = index + p.glyphs.length := by
  have hpos := List.length_pos_iff.mpr p.glyphs_ne_nil
  fun_cases Piece.token p pos index with
  | case1 b =>
    change index + b.glyphs.length - 1 + 1 = index + b.glyphs.length
    have hb : 0 < b.glyphs.length := hpos
    omega
  | case2 =>
    rename_i hp
    simp [Token.lastLexeme, glyphs.eq_2 p hp]

end Piece

namespace Analysis

variable {a : Analysis} {source : List Char} {t u : Token}

/-- Tokens that are read end within the lexemes, and each one in front of the next. -/
theorem precedes_ofPieces (ps : List Piece) (pos index : Nat) :
    (∀ t ∈ (ofPieces pos index ps).tokens, t.index ≤ t.lastLexeme ∧
        t.lastLexeme < index + (ofPieces pos index ps).lexemes.length) ∧
      (ofPieces pos index ps).tokens.Pairwise Token.Precedes := by
  induction ps generalizing pos index with
  | nil => exact ⟨by simp [ofPieces], .nil⟩
  | cons p ps ih =>
    obtain ⟨hwithin, hpairwise⟩ := ih (pos + p.text.length) (index + p.glyphs.length)
    have hle := (pairwise_tokens ps (pos + p.text.length) (index + p.glyphs.length)).1
    have hfirst := p.lastLexeme_token pos index
    have hglyphs := List.length_pos_iff.mpr p.glyphs_ne_nil
    have htokens : (ofPieces pos index (p :: ps)).tokens = p.token pos index ::
        (ofPieces (pos + p.text.length) (index + p.glyphs.length) ps).tokens := by
      simp [ofPieces, Piece.analysis]
    have hlength : (ofPieces pos index (p :: ps)).lexemes.length = p.glyphs.length +
        (ofPieces (pos + p.text.length) (index + p.glyphs.length) ps).lexemes.length := by
      rw [ofPieces, lexemes_append, List.length_append, length_lexemes_analysis]
    rw [htokens, hlength, List.pairwise_cons, List.forall_mem_cons, p.index_token]
    refine ⟨⟨⟨by omega, by omega⟩, fun t ht => ?_⟩, fun t ht => ?_, hpairwise⟩
    · obtain ⟨hstart, hend⟩ := hwithin t ht
      exact ⟨hstart, by omega⟩
    · have hindex := (hle t ht).2
      change (p.token pos index).lastLexeme < t.index
      omega

theorem eq_of_within (ht : t ∈ (ofSource source).tokens) (hu : u ∈ (ofSource source).tokens)
    (hstart : t.index ≤ u.index) (hend : u.index ≤ t.lastLexeme) : t = u := by
  obtain ⟨hwithin, hpairwise⟩ := precedes_ofPieces (Piece.readAll source) 0 0
  have hlast := (hwithin u hu).1
  obtain ⟨i, hi, rfl⟩ := List.getElem_of_mem ht
  obtain ⟨j, hj, rfl⟩ := List.getElem_of_mem hu
  rcases Nat.lt_trichotomy i j with hlt | rfl | hgt
  · have hprecedes := List.pairwise_iff_getElem.mp hpairwise i j hi hj hlt
    exact absurd hend (Nat.not_le_of_lt hprecedes)
  · rfl
  · have hprecedes := List.pairwise_iff_getElem.mp hpairwise j i hj hi hgt
    exact absurd (Nat.le_trans hstart hlast) (Nat.not_le_of_lt hprecedes)

theorem lastLexeme_of_mem (ht : t ∈ (ofSource source).tokens) :
    t.lastLexeme + 1 = t.index + t.piece.glyphs.length := by
  obtain ⟨p, -, pos, index, rfl⟩ := exists_of_mem_tokens ht
  rw [p.lastLexeme_token, p.index_token, p.piece_token]

theorem lastLexeme_eq_of_frame {t u : Token} (h : u.frame = t.frame) :
    u.index = t.index ∧ u.lastLexeme = t.lastLexeme := by
  have hindex : u.index = t.index := congrArg (·.2.1) h
  have hlast : u.last = t.last := congrArg (·.2.2.1) h
  exact ⟨hindex, by rw [Token.lastLexeme, Token.lastLexeme, hindex, hlast]⟩

/-- A token that was validated was read before, or it is a closing parenthesis that was added. -/
theorem exists_revised (ha : (ofSource source).validate = some a) {u : Token} (hu : u ∈ a.tokens) :
    ∃ t, u.Revises t ∧ (t ∈ (ofSource source).tokens ∨ ∃ o : Token, t = o.closing) := by
  obtain ⟨b, us, left, hb, hrevised, hus, -⟩ := exists_revision source
  obtain rfl := Option.some.inj (ha.symm.trans hb)
  obtain ⟨k, hk, rfl⟩ := List.getElem_of_mem hu
  have hk' : k < (us ++ left.map Token.closing).length := hrevised.length_eq ▸ hk
  have hrevises := hrevised.get hk hk'
  rcases List.mem_append.mp (List.getElem_mem hk') with hmem | hmem
  · obtain ⟨m, hm, heq⟩ := List.getElem_of_mem hmem
    have hm' : m < (ofSource source).tokens.length := hus.length_eq ▸ hm
    have hread : us[m].Revises (ofSource source).tokens[m] := hus.get hm hm'
    rw [heq] at hread
    exact ⟨_, hrevises.trans hread, .inl (List.getElem_mem hm')⟩
  · obtain ⟨o, -, heq⟩ := List.mem_map.mp hmem
    exact ⟨_, hrevises, .inr ⟨o, heq.symm⟩⟩

theorem bounded_validate (ha : (ofSource source).validate = some a) :
    ∀ t ∈ a.tokens, t.Bounded := by
  intro u hu hvalue
  obtain ⟨t, hrevises, ht | ⟨o, rfl⟩⟩ := exists_revised ha hu
  · have hlast := last_eq_none ht (.inl (hrevises.isValue.symm.trans hvalue))
    exact (congrArg (·.2.2.1) hrevises.frame).trans hlast
  · exact congrArg (·.2.2.1) hrevises.frame

theorem length_lexemes_validate (ha : (ofSource source).validate = some a) :
    a.lexemes.length = (ofSource source).lexemes.length := by
  have hplaces := ((Flagged.ofPieces (Piece.readAll source) 0 0).validate ha).2
  simpa [places, ofSource] using congrArg List.length hplaces

theorem lastLexeme_within (ha : (ofSource source).validate = some a) {u : Token}
    (hu : u ∈ a.tokens) : u.index ≤ u.lastLexeme ∧ u.lastLexeme < a.lexemes.length := by
  have hplaced := ((consistent_ofSource source).validate ha).mem_range hu
  cases hvalue : u.isValue with
  | false =>
    rw [(bounded_validate ha u hu).lastLexeme_eq hvalue]
    omega
  | true =>
    obtain ⟨t, hrevises, ht | ⟨o, rfl⟩⟩ := exists_revised ha hu
    · have hwithin := (precedes_ofPieces (Piece.readAll source) 0 0).1 t ht
      obtain ⟨hindex, hlast⟩ := lastLexeme_eq_of_frame hrevises.frame
      rw [hindex, hlast, length_lexemes_validate ha]
      simpa [ofSource] using hwithin
    · have hclosing := hrevises.isValue.symm.trans hvalue
      simp [Token.isValue, Piece.isValue, Token.closing] at hclosing

/-- The valid tokens of the source are in order, and behind them are those that were added. -/
theorem exists_succession (ha : (ofSource source).validate = some a) :
    ∃ kept closings, a.valid = kept ++ closings ∧ (∀ t ∈ kept, t.added = false) ∧
      kept.Pairwise Token.Precedes ∧ ∀ t ∈ closings, t.added = true ∧ t.piece = .groupClose := by
  obtain ⟨us, closings, hvalid, hus, hclosings⟩ := exists_kept ha
  have hends : us.map (fun t => (t.index, t.lastLexeme)) =
      (ofSource source).tokens.map fun t => (t.index, t.lastLexeme) := by
    rw [← List.forall₂_eq_eq_eq, List.forall₂_map_left_iff, List.forall₂_map_right_iff]
    refine hus.imp fun u t h => ?_
    obtain ⟨hindex, hlast⟩ := lastLexeme_eq_of_frame h.frame
    rw [hindex, hlast]
  have hread : ((ofSource source).tokens.map fun t => (t.index, t.lastLexeme)).Pairwise
      fun x y => x.2 < y.1 :=
    List.pairwise_map.mpr (precedes_ofPieces (Piece.readAll source) 0 0).2
  rw [← hends, List.pairwise_map] at hread
  refine ⟨_, closings, hvalid, fun t ht => ?_, hread.filter _, hclosings⟩
  obtain ⟨u, hu, hfrom⟩ := exists_of_mem_left (Token.Revises.sublist_valid hus) ht
  rw [hfrom.added_eq, (flags_of_mem_ofSource hu).1]

theorem piece_of_added (ha : (ofSource source).validate = some a) (ht : t ∈ a.valid)
    (h : t.added = true) : t.piece = .groupClose := by
  obtain ⟨kept, closings, hvalid, hkept, -, hclosings⟩ := exists_succession ha
  rw [hvalid] at ht
  rcases List.mem_append.mp ht with ht | ht
  · rw [hkept t ht] at h
    cases h
  · exact (hclosings t ht).2

theorem added_of_isOperator (ha : (ofSource source).validate = some a) (ht : t ∈ a.valid)
    (h : t.isOperator = true) : t.added = false := by
  by_contra hadded
  have hpiece := piece_of_added ha ht (by simpa using hadded)
  rw [Token.not_isOperator hpiece rfl (by simp)] at h
  cases h

theorem nodup_operators (ha : (ofSource source).validate = some a) :
    ((a.valid.filter (·.isOperator)).map Token.index).Nodup := by
  obtain ⟨kept, closings, hvalid, -, hkept, hclosings⟩ := exists_succession ha
  have hnone : closings.filter (·.isOperator) = [] := by
    refine List.filter_eq_nil_iff.mpr fun t ht => ?_
    simp [Token.not_isOperator (hclosings t ht).2 rfl]
  have hmem (t : Token) (ht : t ∈ kept) : t ∈ a.tokens :=
    (mem_valid.mp (hvalid ▸ List.mem_append_left closings ht)).1
  rw [hvalid, List.filter_append, hnone, List.append_nil]
  refine List.pairwise_map.mpr ((hkept.imp_of_mem fun {t u} ht _ h => ?_).filter _)
  have hwithin := (lastLexeme_within ha (hmem t ht)).1
  exact Nat.ne_of_lt (Nat.lt_of_le_of_lt hwithin h)

theorem precedes_of_lt (ha : (ofSource source).validate = some a) {i k : Nat} {t u : Token}
    (ht : a.valid[i]? = some t) (hu : a.valid[k]? = some u) (hik : i < k)
    (hadded : u.added = false) : t.added = false ∧ t.Precedes u := by
  obtain ⟨kept, closings, hvalid, hsource, hkept, hclosings⟩ := exists_succession ha
  rw [hvalid] at ht hu
  have hk : k < kept.length := by
    by_contra hge
    rw [List.getElem?_append_right (Nat.le_of_not_lt hge)] at hu
    have hclosing := (hclosings u (List.mem_of_getElem? hu)).1
    rw [hadded] at hclosing
    cases hclosing
  rw [List.getElem?_append_left hk] at hu
  rw [List.getElem?_append_left (Nat.lt_trans hik hk)] at ht
  obtain ⟨hi, rfl⟩ := List.getElem?_eq_some_iff.mp ht
  obtain ⟨_, rfl⟩ := List.getElem?_eq_some_iff.mp hu
  exact ⟨hsource _ (List.getElem_mem hi), List.pairwise_iff_getElem.mp hkept i k hi hk hik⟩

/-- Only what has been ruled out stands between a token of the source and the one in front. -/
theorem invalid_between (ha : (ofSource source).validate = some a) {k : Nat} {t last : Token}
    (ht : a.valid[k + 1]? = some t) (hadded : t.added = false) (hlast : a.valid[k]? = some last)
    {x : Lexeme} (hx : x ∈ a.lexemes) (hbehind : last.lastLexeme < x.index)
    (hfront : x.index < t.index) : x.invalid = true := by
  by_contra hvalid
  obtain ⟨u, hu, huadded, hspan⟩ := exists_valid_of_mem_lexemes ha hx (by simpa using hvalid)
  obtain ⟨n, hn⟩ := List.mem_iff_getElem?.mp hu
  have hspan : u.index ≤ x.index ∧ x.index ≤ u.lastLexeme := by
    rw [Token.span, List.mem_range'_1] at hspan
    rw [Token.lastLexeme]
    omega
  have hwithin {w : Token} {i : Nat} (hw : a.valid[i]? = some w) : w.index ≤ w.lastLexeme :=
    (lastLexeme_within ha (mem_valid.mp (List.mem_of_getElem? hw)).1).1
  have hlastWithin := hwithin hlast
  have htWithin := hwithin ht
  rcases Nat.lt_trichotomy n k with hlt | rfl | hgt
  · have hlastAdded := (precedes_of_lt ha hlast ht (Nat.lt_succ_self k) hadded).1
    have hprecedes : u.lastLexeme < last.index := (precedes_of_lt ha hn hlast hlt hlastAdded).2
    omega
  · obtain rfl := Option.some.inj (hn.symm.trans hlast)
    omega
  · rcases Nat.eq_or_lt_of_le (Nat.succ_le_of_lt hgt) with rfl | hgt
    · obtain rfl := Option.some.inj (hn.symm.trans ht)
      omega
    · have hprecedes : t.lastLexeme < u.index := (precedes_of_lt ha ht hn hgt huadded).2
      omega

end Analysis
end RegexDiagram
