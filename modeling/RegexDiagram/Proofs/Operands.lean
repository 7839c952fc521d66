import Mathlib.Data.List.Perm.Basic
import RegexDiagram.Proofs.Nesting

/-!
What operators apply to, in terms of the row of tokens. The operand of a quantifier is the value or
the group right in front of it. The left operand of an alternation is all of its level that is in
front of it, and the right one is the alternative behind it. Operands are noted by the lexemes that
they start and end with, which are those of their first and their last token.
-/
namespace RegexDiagram

open Construction (Span)

namespace Token

/-- The last lexeme of a token. -/
def lastLexeme (t : Token) : Nat := t.last.getD t.index

/-- A token that applies to operands. -/
def isOperator (t : Token) : Bool := t.isQuantifier || t.piece = .alternation

/-- Only bracket expressions are known to end at another lexeme than they start at. -/
def Bounded (t : Token) : Prop := t.isValue = false → t.last = none

theorem Bounded.lastLexeme_eq {t : Token} (h : t.Bounded) (ht : t.isValue = false) :
    t.lastLexeme = t.index := by
  rw [lastLexeme, h ht, Option.getD_none]

theorem isOperator_of_quantifier {t : Token} {q : Quantifier} (h : t.piece = .quantifier q) :
    t.isOperator = true := by
  simp [isOperator, isQuantifier, Piece.isQuantifier, h]

theorem isOperator_of_alternation {t : Token} (h : t.piece = .alternation) :
    t.isOperator = true := by
  simp [isOperator, h]

theorem not_isOperator {t : Token} {p : Piece} (hp : t.piece = p) (hq : p.isQuantifier = false)
    (ha : p ≠ .alternation) : t.isOperator = false := by
  simp [isOperator, isQuantifier, hp, hq, ha]

end Token

/-- From one place up to another one there is a value or a group. -/
def Item (ps : List Piece) (i k : Nat) : Prop :=
  (∃ v, ps[i]? = some (.value v) ∧ i + 1 = k) ∨ ∃ j, Matched ps i j ∧ j + 1 = k

/-- An operand has the lexemes of the tokens from one place up to another one. -/
def Operand.Covers (o : Operand) (vs : List Token) (i k : Nat) : Prop :=
  ∃ first last : Token, vs[i]? = some first ∧ vs[k - 1]? = some last ∧ i < k ∧
    o = ⟨some first.index, some last.lastLexeme⟩

/-- What is noted of the operator at a place is what it applies to. -/
inductive Construction.Span.Explains (vs : List Token) (k : Nat) (s : Span) : Prop
  | quantifier {t : Token} {q : Quantifier} {i : Nat} (ht : vs[k]? = some t)
      (hq : t.piece = .quantifier q) (hindex : s.index = t.index)
      (hitem : Item (vs.map Token.piece) i k) (hleft : s.left.Covers vs i k)
      (hright : s.right = none)
  | alternation {t : Token} {i e : Nat} {r : Operand} (ht : vs[k]? = some t)
      (ha : t.piece = .alternation) (hindex : s.index = t.index)
      (hstart : IsLeast {m | SameLevel (vs.map Token.piece) m k} i) (hleft : s.left.Covers vs i k)
      (hend : IsLeast {m | k < m ∧ EndsAlternative (vs.map Token.piece) k m} e)
      (hright : s.right = some r) (hr : r.Covers vs (k + 1) e)

namespace Tree

variable {l : Precedence} {vs : List Token}

theorem exists_extent (t : Tree l) (ht : ∀ tok ∈ t.tokens, tok.Bounded) :
    ∃ first last : Token, t.tokens.head? = some first ∧ t.tokens.getLast? = some last ∧
      t.extent = ⟨some first.index, some last.lastLexeme⟩ := by
  induction t with
  | value tok v hv => exact ⟨tok, tok, rfl, rfl, rfl⟩
  | group opening closing ho hc body _ =>
    have hlast : closing.lastLexeme = closing.index :=
      (ht closing (by simp [tokens])).lastLexeme_eq (by simp [Token.isValue, Piece.isValue, hc])
    refine ⟨opening, closing, rfl, ?_, by rw [extent, hlast]⟩
    rw [tokens, ← List.cons_append, List.getLast?_concat]
  | quantified a tok q hq hl ih =>
    obtain ⟨first, _, hfirst, -, hextent⟩ := ih fun u hu => ht u (by simp [tokens, hu])
    have hlast : tok.lastLexeme = tok.index :=
      (ht tok (by simp [tokens])).lastLexeme_eq (by simp [Token.isValue, Piece.isValue, hq])
    refine ⟨first, tok, ?_, ?_, by rw [extent, hextent, hlast]⟩
    · rw [tokens, List.head?_append, hfirst, Option.some_or]
    · rw [tokens, List.getLast?_concat]
  | concat f g hl ihf ihg =>
    obtain ⟨first, _, hfirst, -, hextent⟩ := ihf fun u hu => ht u (by simp [tokens, hu])
    obtain ⟨_, last, -, hlast, hextent'⟩ := ihg fun u hu => ht u (by simp [tokens, hu])
    refine ⟨first, last, ?_, ?_, by rw [extent, hextent, hextent']⟩
    · rw [tokens, List.head?_append, hfirst, Option.some_or]
    · rw [tokens, List.getLast?_append, hlast, Option.some_or]
  | alternation e tok htok g ihe ihg =>
    obtain ⟨first, _, hfirst, -, hextent⟩ := ihe fun u hu => ht u (by simp [tokens, hu])
    obtain ⟨_, last, -, hlast, hextent'⟩ := ihg fun u hu => ht u (by simp [tokens, hu])
    refine ⟨first, last, ?_, ?_, by rw [extent, hextent, hextent']⟩
    · rw [tokens, List.head?_append, hfirst, Option.some_or]
    · rw [tokens, List.getLast?_append, List.getLast?_cons, hlast, Option.getD_some,
        Option.some_or]

theorem covers_extent (t : Tree l) (ht : ∀ tok ∈ t.tokens, tok.Bounded) (pre post : List Token) :
    t.extent.Covers (pre ++ t.tokens ++ post) pre.length (pre.length + t.tokens.length) := by
  obtain ⟨first, last, hfirst, hlast, hextent⟩ := t.exists_extent ht
  have hpos : 0 < t.tokens.length := List.length_pos_of_mem (List.mem_of_mem_head? hfirst)
  refine ⟨first, last, ?_, ?_, Nat.lt_add_of_pos_right hpos, hextent⟩
  · rw [List.append_assoc, List.getElem?_append_right (Nat.le_refl _), Nat.sub_self,
      List.getElem?_append_left hpos, ← List.head?_eq_getElem?, hfirst]
  · have hplace : pre.length + t.tokens.length - 1 = pre.length + (t.tokens.length - 1) := by omega
    rw [List.append_assoc, hplace, List.getElem?_append_right (Nat.le_add_right _ _),
      Nat.add_sub_cancel_left, List.getElem?_append_left (by omega), ← List.getLast?_eq_getElem?,
      hlast]

theorem item_of_atom (a : Tree .atom) (pre post : List Token) :
    Item ((pre ++ a.tokens ++ post).map Token.piece) pre.length (pre.length + a.tokens.length) := by
  have hlength : pre.length = (pre.map Token.piece).length := (List.length_map _).symm
  rw [List.map_append, List.map_append]
  cases a with
  | value tok v hv => exact .inl ⟨v, by simp [tokens, hv], rfl⟩
  | group opening closing ho hc body =>
    have hmatched := body.balanced.matched.middle (pre.map Token.piece) (post.map Token.piece)
    refine .inr ⟨pre.length + (body.tokens.length + 1), ?_, ?_⟩
    · simpa [tokens, ho, hc] using hmatched
    · simp only [tokens, List.length_cons, List.length_append, List.length_nil]
      omega
  | quantified a tok q hq hl => exact absurd rfl hl
  | concat f g hl => exact absurd hl (by decide)

/-- Every operator of a tree has a span that says what it applies to. A choice has to take up all
of its level up to the end of its last alternative. -/
theorem exists_span (t : Tree l) (pre post : List Token) (hvs : vs = pre ++ t.tokens ++ post)
    (hbounded : ∀ tok ∈ vs, tok.Bounded)
    (hcontext : t.isChoice = true →
      StartsLevel (pre.map Token.piece) ∧ LeavesAlternative (post.map Token.piece))
    {k : Nat} {tok : Token} (hk : t.tokens[k]? = some tok) (hoperator : tok.isOperator = true) :
    ∃ s ∈ t.spans, s.Explains vs (pre.length + k) := by
  induction t generalizing pre post k with
  | value u v hv =>
    obtain rfl : tok = u := by
      simpa [tokens] using List.mem_of_getElem? hk
    simp [Token.not_isOperator hv rfl (by simp)] at hoperator
  | group opening closing ho hc body ih =>
    cases k with
    | zero =>
      obtain rfl : opening = tok := by simpa [tokens] using hk
      simp [Token.not_isOperator ho rfl (by simp)] at hoperator
    | succ k =>
      rw [tokens, List.getElem?_cons_succ] at hk
      rcases Nat.lt_or_ge k body.tokens.length with hlt | hge
      · rw [List.getElem?_append_left hlt] at hk
        obtain ⟨s, hs, hexplains⟩ := ih (pre ++ [opening]) (closing :: post)
          (by simp [hvs, tokens]) (fun _ => ⟨by simp [StartsLevel, ho],
            by simp [LeavesAlternative, hc]⟩) hk
        refine ⟨s, hs, ?_⟩
        rw [List.length_append, List.length_singleton, Nat.add_right_comm] at hexplains
        exact hexplains
      · rw [List.getElem?_append_right hge] at hk
        obtain rfl : tok = closing := by simpa using List.mem_of_getElem? hk
        simp [Token.not_isOperator hc rfl (by simp)] at hoperator
  | quantified a u q hq hl ih =>
    rcases Nat.lt_or_ge k a.tokens.length with hlt | hge
    · rw [tokens, List.getElem?_append_left hlt] at hk
      obtain ⟨s, hs, hexplains⟩ := ih pre (u :: post) (by simp [hvs, tokens])
        (fun h => by simp [a.isChoice_of_ne (by simp)] at h) hk
      exact ⟨s, List.mem_append_left _ hs, hexplains⟩
    · rw [tokens, List.getElem?_append_right hge] at hk
      have hzero : k - a.tokens.length = 0 := by
        have hlt := (List.getElem?_eq_some_iff.mp hk).1
        rw [List.length_singleton] at hlt
        omega
      obtain rfl : k = a.tokens.length := by omega
      have hrow : vs = pre ++ a.tokens ++ u :: post := by simp [hvs, tokens]
      refine ⟨_, List.mem_append_right _ (List.mem_singleton_self _),
        .quantifier (t := u) (i := pre.length) ?_ hq rfl ?_ ?_ rfl⟩
      · rw [hrow, ← List.length_append, List.getElem?_append_right (Nat.le_refl _), Nat.sub_self]
        rfl
      · exact hrow ▸ a.item_of_atom pre (u :: post)
      · exact hrow ▸ a.covers_extent (fun w hw => hbounded w (by simp [hrow, hw])) pre (u :: post)
  | concat f g hl ihf ihg =>
    rcases Nat.lt_or_ge k f.tokens.length with hlt | hge
    · rw [tokens, List.getElem?_append_left hlt] at hk
      obtain ⟨s, hs, hexplains⟩ := ihf pre (g.tokens ++ post) (by simp [hvs, tokens])
        (fun h => by simp [f.isChoice_of_ne (by simp)] at h) hk
      exact ⟨s, List.mem_append_left _ hs, hexplains⟩
    · obtain ⟨n, rfl⟩ := Nat.exists_eq_add_of_le hge
      rw [tokens, List.getElem?_append_right hge, Nat.add_sub_cancel_left] at hk
      obtain ⟨s, hs, hexplains⟩ := ihg (pre ++ f.tokens) post (by simp [hvs, tokens])
        (fun h => by simp [g.isChoice_of_ne (by simp)] at h) hk
      refine ⟨s, List.mem_append_right _ hs, ?_⟩
      rwa [List.length_append, Nat.add_assoc] at hexplains
  | alternation e u hu g ihe ihg =>
    obtain ⟨hstart, hend⟩ := hcontext rfl
    have hrow : vs = pre ++ e.tokens ++ u :: (g.tokens ++ post) := by simp [hvs, tokens]
    rcases Nat.lt_trichotomy k e.tokens.length with hlt | rfl | hgt
    · rw [tokens, List.getElem?_append_left hlt] at hk
      obtain ⟨s, hs, hexplains⟩ := ihe pre (u :: (g.tokens ++ post)) hrow
        (fun _ => ⟨hstart, by simp [LeavesAlternative, hu]⟩) hk
      exact ⟨s, List.mem_append_left _ (List.mem_append_left _ hs), hexplains⟩
    · have hpieces : vs.map Token.piece = pre.map Token.piece ++ e.tokens.map Token.piece ++
          .alternation :: (g.tokens.map Token.piece ++ post.map Token.piece) := by
        simp [hrow, hu]
      have hfront : pre.length + e.tokens.length =
          (pre.map Token.piece ++ e.tokens.map Token.piece).length := by simp
      have hright : vs = (pre ++ e.tokens ++ [u]) ++ g.tokens ++ post := by simp [hrow]
      refine ⟨_, List.mem_append_right _ (List.mem_singleton_self _),
        .alternation (t := u) (i := pre.length)
          (e := pre.length + e.tokens.length + 1 + g.tokens.length) ?_ hu rfl ?_ ?_ ?_ rfl ?_⟩
      · rw [hrow, ← List.length_append, List.getElem?_append_right (Nat.le_refl _), Nat.sub_self]
        rfl
      · simpa [hpieces] using isLeast_sameLevel e.balanced hstart
          (.alternation :: (g.tokens.map Token.piece ++ post.map Token.piece))
      · exact hrow ▸ e.covers_extent (fun w hw => hbounded w (by simp [hrow, hw])) pre
          (u :: (g.tokens ++ post))
      · rw [hpieces, hfront]
        simpa using isLeast_endsAlternative g.balanced g.grouped_of_term hend
          (pre.map Token.piece ++ e.tokens.map Token.piece)
      · have hcovers := g.covers_extent (fun w hw => hbounded w (by simp [hrow, hw]))
          (pre ++ e.tokens ++ [u]) post
        rw [← hright] at hcovers
        simpa [Nat.add_assoc] using hcovers
    · obtain ⟨n, rfl⟩ := Nat.exists_eq_add_of_le (Nat.succ_le_of_lt hgt)
      rw [tokens, List.append_cons, List.getElem?_append_right (by simp)] at hk
      obtain ⟨s, hs, hexplains⟩ := ihg (pre ++ e.tokens ++ [u]) post (k := n)
        (by simp [hrow]) (fun h => by simp [g.isChoice_of_ne (by simp)] at h) (by simpa using hk)
      refine ⟨s, List.mem_append_left _ (List.mem_append_right _ hs), ?_⟩
      simpa [Nat.add_assoc] using hexplains

theorem indexes_spans (t : Tree l) :
    (t.spans.map (·.index)).Perm ((t.tokens.filter (·.isOperator)).map Token.index) := by
  induction t with
  | value tok v hv => simp [spans, tokens, Token.not_isOperator hv rfl (by simp)]
  | group opening closing ho hc body ih =>
    simpa [spans, tokens, List.filter_cons, Token.not_isOperator ho rfl (by simp),
      Token.not_isOperator hc rfl (by simp)] using ih
  | quantified a tok q hq hl ih =>
    simpa [spans, tokens, List.filter_cons, Token.isOperator_of_quantifier hq] using
      ih.append_right [tok.index]
  | concat f g hl ihf ihg => simpa [spans, tokens] using ihf.append ihg
  | alternation e tok ht g ihe ihg =>
    simp only [spans, tokens, List.map_append, List.filter_append, List.map_cons, List.map_nil,
      List.append_assoc, List.filter_cons_of_pos (Token.isOperator_of_alternation ht)]
    exact ihe.append (List.perm_append_comm.trans (ihg.cons tok.index))

end Tree
end RegexDiagram
