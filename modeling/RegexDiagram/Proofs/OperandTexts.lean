import RegexDiagram.Proofs.Stretches
import RegexDiagram.Proofs.Succession

/-!
The texts of operands. An operator that is left shows the texts that it applies to: a quantifier the
value or the group in front of it, an alternation what is in front of it on its level and the
alternative behind it. Nothing else shows a text to its left or to its right.
-/
namespace RegexDiagram

open Analysis

namespace Expression

theorem exists_span (A : Expression) (h : ∀ t ∈ A.tokens, t.Bounded) {k : Nat} {t : Token}
    (ht : A.tokens[k]? = some t) (hoperator : t.isOperator = true) :
    ∃ s ∈ A.spans, s.Explains A.tokens k := by
  cases A with
  | none => simp [tokens] at ht
  | some e =>
    obtain ⟨s, hs, hexplains⟩ := e.exists_span [] [] (by simp [tokens]) h
      (fun _ => ⟨by simp [StartsLevel], by simp [LeavesAlternative]⟩) ht hoperator
    rw [List.length_nil, Nat.zero_add] at hexplains
    exact ⟨s, hs, hexplains⟩

theorem indexes_spans (A : Expression) :
    (A.spans.map (·.index)).Perm ((A.tokens.filter (·.isOperator)).map Token.index) := by
  cases A with
  | none => exact .nil
  | some e => exact e.indexes_spans

end Expression

namespace Compiled

variable {source : List Char} {a : Analysis} {A : Expression} {c : Compiled}

/-- The valid tokens from place `i` to before place `k` take up the lexemes from `l` to `m`. A
closing parenthesis that was added takes up the lexeme that its group opens with. -/
structure Stretch (c : Compiled) (i k : Nat) (l m : Lexeme) : Prop where
  lt : i < k
  first : ∃ t, c.analysis.valid[i]? = some t ∧ c.lexemes[t.index]? = some l
  last : ∃ t, c.analysis.valid[k - 1]? = some t ∧ c.lexemes[t.lastLexeme]? = some m

theorem hint_of_getElem? {i : Nat} {l : Lexeme} (hl : c.lexemes[i]? = some l) :
    c.hint i = Hint.ofLexeme c.lexemes l := by
  rw [hint, Hint.atIndex, if_neg (Int.not_lt.mpr (Int.natCast_nonneg i)), Int.toNat_natCast, hl]

namespace Stages

theorem exists_of_mem_lexemes (h : Stages source a A c) {x : Lexeme} (hx : x ∈ c.lexemes) :
    ∃ y ∈ a.lexemes, x.index = y.index ∧ x.invalid = y.invalid := by
  rw [h.lexemes_eq.2] at hx
  obtain ⟨y, hy, rfl⟩ := List.mem_map.mp hx
  obtain ⟨-, -, hindex, hinvalid, -⟩ :=
    Construction.keeps_foldl_stamp A.spans (A.extents.foldl ReversePolish.stamp y)
  obtain ⟨-, -, hindex', hinvalid', -⟩ := ReversePolish.keeps_foldl_stamp A.extents y
  exact ⟨y, hy, hindex.trans hindex', hinvalid.trans hinvalid'⟩

theorem length_lexemes (h : Stages source a A c) : c.lexemes.length = a.lexemes.length := by
  rw [h.lexemes_eq.2, List.length_map]

theorem exists_unmarked (h : Stages source a A c) {i : Nat} {l : Lexeme}
    (hl : c.lexemes[i]? = some l) : ∃ m, m.index = i ∧ m.left = {} ∧ m.right = {} ∧
      l = A.spans.foldl Construction.stamp m := by
  rw [h.lexemes_eq.2, List.getElem?_map, Option.map_eq_some_iff] at hl
  obtain ⟨m, hm, rfl⟩ := hl
  obtain ⟨-, -, hindex, -, hleft, hright⟩ := ReversePolish.keeps_foldl_stamp A.extents m
  obtain ⟨hnone, hnone'⟩ := operands_of_mem_lexemes h.validated (List.mem_of_getElem? hm)
  have hnumbered := ((consistent_ofSource source).validate h.validated).getElem? hm
  exact ⟨_, hindex.trans hnumbered, hleft.trans hnone, hright.trans hnone', rfl⟩

theorem exists_hint (h : Stages source a A c) {k : Nat} {t : Token} (ht : a.valid[k]? = some t)
    (hoperator : t.isOperator = true) : ∃ s : Construction.Span, s.Explains a.valid k ∧
      (c.hint t.index).left = Hint.operandText c.lexemes s.left ∧
      (c.hint t.index).right = s.right.bind (Hint.operandText c.lexemes) := by
  have hmem := mem_valid.mp (List.mem_of_getElem? ht)
  have hbounded : ∀ u ∈ A.tokens, u.Bounded := by
    rw [h.tree]
    exact fun u hu => bounded_validate h.validated u (mem_valid.mp hu).1
  obtain ⟨s, hs, hexplains⟩ := A.exists_span hbounded (h.tree ▸ ht) hoperator
  rw [h.tree] at hexplains
  have hindex : s.index = t.index := by
    cases hexplains with
    | quantifier hu _ hindex => rw [hindex, Option.some.inj (hu.symm.trans ht)]
    | alternation hu _ hindex => rw [hindex, Option.some.inj (hu.symm.trans ht)]
  have hlt : t.index < c.lexemes.length := by
    obtain ⟨hstart, hend⟩ := lastLexeme_within h.validated hmem.1
    rw [h.length_lexemes]
    omega
  have hl := List.getElem?_eq_getElem hlt
  obtain ⟨m, hm, -, hright, heq⟩ := h.exists_unmarked hl
  have hnodup : (A.spans.map (·.index)).Nodup := by
    rw [A.indexes_spans.nodup_iff, h.tree]
    exact nodup_operators h.validated
  obtain ⟨hleft, hright'⟩ := Construction.foldl_stamp_of_mem hnodup hs (hm.trans hindex.symm)
  refine ⟨s, hexplains, ?_, ?_⟩
  · rw [hint_of_getElem? hl, Hint.ofLexeme, heq, hleft]
  · rw [hint_of_getElem? hl, Hint.ofLexeme, heq, hright', hright]
    cases s.right <;> rfl

theorem exists_operator (h : Stages source a A c) {index : Int}
    (hsome : (c.hint index).left.isSome = true ∨ (c.hint index).right.isSome = true) :
    ∃ t ∈ a.valid, (t.index : Int) = index ∧ t.isOperator = true := by
  obtain ⟨i, l, hindex, hl⟩ : ∃ (i : Nat) (l : Lexeme), (i : Int) = index ∧
      c.lexemes[i]? = some l := by
    unfold hint Hint.atIndex at hsome
    split at hsome
    · simp [Hint.general] at hsome
    · split at hsome
      · rename_i hnonneg _ l hl
        exact ⟨index.toNat, l, by omega, hl⟩
      · simp [Hint.general] at hsome
  subst hindex
  obtain ⟨m, hm, hleft, hright, heq⟩ := h.exists_unmarked hl
  have hnoted : i ∈ A.spans.map (·.index) := by
    by_contra hnot
    rw [Construction.foldl_stamp_of_notMem (hm ▸ hnot)] at heq
    rw [hint_of_getElem? hl, Hint.ofLexeme, heq, hleft, hright] at hsome
    simp [Hint.operandText] at hsome
  rw [A.indexes_spans.mem_iff, h.tree] at hnoted
  obtain ⟨t, ht, rfl⟩ := List.mem_map.mp hnoted
  obtain ⟨hmem, hoperator⟩ := List.mem_filter.mp ht
  exact ⟨t, hmem, rfl, hoperator⟩

theorem exists_stretch (h : Stages source a A c) {o : Operand} {i k : Nat}
    (ho : o.Covers a.valid i k) :
    ∃ l m, c.Stretch i k l m ∧ Hint.operandText c.lexemes o = some (c.text l m) := by
  obtain ⟨first, last, hfirst, hlast, hlt, rfl⟩ := ho
  have hwithin {t : Token} {n : Nat} (ht : a.valid[n]? = some t) :
      t.index < c.lexemes.length ∧ t.lastLexeme < c.lexemes.length := by
    obtain ⟨hstart, hend⟩ := lastLexeme_within h.validated
      (mem_valid.mp (List.mem_of_getElem? ht)).1
    rw [h.length_lexemes]
    omega
  have hl := List.getElem?_eq_getElem (hwithin hfirst).1
  have hm := List.getElem?_eq_getElem (hwithin hlast).2
  refine ⟨_, _, ⟨hlt, ⟨first, h.valid ▸ hfirst, hl⟩, ⟨last, h.valid ▸ hlast, hm⟩⟩, ?_⟩
  exact congrArg some (h.sourceText_eq hl hm)

/-- A quantifier shows the item in front of it, and between them there is nothing valid. -/
theorem left_of_quantifier (h : Stages source a A c) {k : Nat} {t : Token}
    (ht : a.valid[k]? = some t) (hq : t.isQuantifier = true) :
    ∃ i l m, Item (a.valid.map Token.piece) i k ∧ c.Stretch i k l m ∧
      (c.hint t.index).left = some (c.text l m) ∧
      ∀ x ∈ c.lexemes, m.index < x.index → x.index < t.index → x.invalid = true := by
  have hoperator : t.isOperator = true := by rw [Token.isOperator, hq, Bool.true_or]
  obtain ⟨s, hexplains, hleft, -⟩ := h.exists_hint ht hoperator
  cases hexplains with
  | @quantifier u q i hu hq' hindex hitem hcovers hnone =>
    obtain ⟨l, m, hstretch, htext⟩ := h.exists_stretch hcovers
    refine ⟨i, l, m, hitem, hstretch, hleft.trans htext, fun x hx hbehind hfront => ?_⟩
    obtain ⟨last, hlast, hm⟩ := hstretch.last
    obtain ⟨n, rfl⟩ := Nat.exists_eq_add_one_of_ne_zero (Nat.ne_zero_of_lt hstretch.lt)
    obtain ⟨y, hy, hyindex, hyinvalid⟩ := h.exists_of_mem_lexemes hx
    rw [h.valid, Nat.add_sub_cancel] at hlast
    rw [h.spells.numbered _ m hm, hyindex] at hbehind
    rw [hyindex] at hfront
    rw [hyinvalid]
    exact invalid_between h.validated ht
      (added_of_isOperator h.validated (List.mem_of_getElem? ht) hoperator) hlast hy hbehind hfront
  | alternation hu halternation =>
    rw [← Option.some.inj (ht.symm.trans hu)] at halternation
    rw [Token.isQuantifier, halternation] at hq
    cases hq

/-- An alternation shows what is in front of it on its level, and the alternative behind it. -/
theorem texts_of_alternation (h : Stages source a A c) {k : Nat} {t : Token}
    (ht : a.valid[k]? = some t) (halternation : t.piece = .alternation) :
    ∃ i e l m l' m', IsLeast {n | SameLevel (a.valid.map Token.piece) n k} i ∧
      c.Stretch i k l m ∧ (c.hint t.index).left = some (c.text l m) ∧
      IsLeast {n | k < n ∧ EndsAlternative (a.valid.map Token.piece) k n} e ∧
      c.Stretch (k + 1) e l' m' ∧ (c.hint t.index).right = some (c.text l' m') := by
  obtain ⟨s, hexplains, hleft, hright⟩ :=
    h.exists_hint ht (Token.isOperator_of_alternation halternation)
  cases hexplains with
  | quantifier hu hq =>
    rw [← Option.some.inj (ht.symm.trans hu), halternation] at hq
    cases hq
  | @alternation u i e r hu _ hindex hstart hcovers hend hr hcovers' =>
    obtain ⟨l, m, hstretch, htext⟩ := h.exists_stretch hcovers
    obtain ⟨l', m', hstretch', htext'⟩ := h.exists_stretch hcovers'
    rw [hr, Option.bind_some] at hright
    exact ⟨i, e, l, m, l', m', hstart, hstretch, hleft.trans htext, hend, hstretch',
      hright.trans htext'⟩

end Stages
end Compiled

/--
The texts to the left and to the right in hints. They are shown of operators that are left only, the
one to the right of alternations only. To the left of a quantifier it is the text of the value or
the group in front of it, with nothing but invalid lexemes in between. To the left of an alternation
it is the text of all that is in front of it on its level; to its right it is the text of what comes
before the next alternation of the level, or before the end of the level.
-/
theorem operand_texts (source : List Char) :
    ∃ c a, compile source = .ok c ∧ (Analysis.ofSource source).validate = some a ∧
      c.analysis.valid = a.valid ∧
      (∀ index : Int,
        ((c.hint index).left.isSome ↔ ∃ t ∈ c.analysis.valid, (t.index : Int) = index ∧
          (t.isQuantifier ∨ t.piece = .alternation)) ∧
        ((c.hint index).right.isSome ↔ ∃ t ∈ c.analysis.valid, (t.index : Int) = index ∧
          t.piece = .alternation)) ∧
      ∀ (k : Nat) (t : Token), c.analysis.valid[k]? = some t →
        (t.isQuantifier → ∃ i l m, Item (c.analysis.valid.map Token.piece) i k ∧
          c.Stretch i k l m ∧ (c.hint t.index).left = some (c.text l m) ∧
          ∀ x ∈ c.lexemes, m.index < x.index → x.index < t.index → x.invalid = true) ∧
        (t.piece = .alternation → ∃ i e l m l' m',
          IsLeast {n | SameLevel (c.analysis.valid.map Token.piece) n k} i ∧
          c.Stretch i k l m ∧ (c.hint t.index).left = some (c.text l m) ∧
          IsLeast {n | k < n ∧ EndsAlternative (c.analysis.valid.map Token.piece) k n} e ∧
          c.Stretch (k + 1) e l' m' ∧ (c.hint t.index).right = some (c.text l' m')) := by
  obtain ⟨a, A, c, h⟩ := Compiled.Stages.exist source
  refine ⟨c, a, h.compiled, h.validated, h.valid,
    fun index => ⟨⟨fun hsome => ?_, ?_⟩, ⟨fun hsome => ?_, ?_⟩⟩, ?_⟩
  all_goals rw [h.valid]
  · obtain ⟨t, ht, hindex, hoperator⟩ := h.exists_operator (.inl hsome)
    exact ⟨t, ht, hindex, by simpa [Token.isOperator] using hoperator⟩
  · rintro ⟨t, ht, rfl, hq | halternation⟩
    · obtain ⟨k, hk⟩ := List.mem_iff_getElem?.mp ht
      obtain ⟨i, l, m, -, -, hleft, -⟩ := h.left_of_quantifier hk hq
      rw [hleft, Option.isSome_some]
    · obtain ⟨k, hk⟩ := List.mem_iff_getElem?.mp ht
      obtain ⟨i, e, l, m, l', m', -, -, hleft, -⟩ := h.texts_of_alternation hk halternation
      rw [hleft, Option.isSome_some]
  · obtain ⟨t, ht, rfl, hoperator⟩ := h.exists_operator (.inr hsome)
    obtain ⟨k, hk⟩ := List.mem_iff_getElem?.mp ht
    obtain ⟨s, hexplains, -, hright⟩ := h.exists_hint hk hoperator
    rw [hright] at hsome
    cases hexplains with
    | quantifier _ _ _ _ _ hnone =>
      rw [hnone] at hsome
      cases hsome
    | alternation hu halternation =>
      rw [← Option.some.inj (hk.symm.trans hu)] at halternation
      exact ⟨t, ht, rfl, halternation⟩
  · rintro ⟨t, ht, rfl, halternation⟩
    obtain ⟨k, hk⟩ := List.mem_iff_getElem?.mp ht
    obtain ⟨i, e, l, m, l', m', -, -, -, -, -, hright⟩ := h.texts_of_alternation hk halternation
    rw [hright, Option.isSome_some]
  · exact fun k t ht => ⟨h.left_of_quantifier ht, h.texts_of_alternation ht⟩

/-- What is ruled out within an operand is shown with it, and what is ruled out behind it is not. -/
example : (compile "(a|)|*+|b".toList).toOption.map (fun c => ((c.hint 4).left, (c.hint 4).right)) =
    some (some "(a|)".toList, some ['b']) := by decide +kernel

end RegexDiagram
