import RegexDiagram.Proofs.UnclosedTexts

/-!
What parentheses and brackets enclose. A parenthesis that is left has the extent of its group, from
the opening parenthesis to the one that matches it in the source; if there is none, the extent is
the opening parenthesis alone. A bracket has the extent of its expression. Matching parentheses do
not cross each other, and no parenthesis stands within a bracket expression. So two extents are
apart, or one of them is within the other.
-/
namespace RegexDiagram

open Analysis

/-! ## Extents that do not cross -/

namespace Extent

/-- An extent has a lexeme at one of its ends. -/
def Ends (e : Extent) (i : Nat) : Prop := i = e.first ∨ i = e.last

/-- Two extents share no lexeme. -/
def Apart (e f : Extent) : Prop := e.last < f.first ∨ f.last < e.first

/-- An extent lies between the ends of another one. -/
def Within (e f : Extent) : Prop := f.first < e.first ∧ e.last < f.last

/-- Two extents do not cross each other. -/
def Nests (e f : Extent) : Prop := e = f ∨ e.Apart f ∨ e.Within f ∨ f.Within e

theorem Nests.symm {e f : Extent} (h : e.Nests f) : f.Nests e := by
  rcases h with rfl | h | h | h
  · exact .inl rfl
  · exact .inr (.inl h.symm)
  · exact .inr (.inr (.inr h))
  · exact .inr (.inr (.inl h))

theorem Nests.eq_of_ends {e f : Extent} {i : Nat} (h : e.Nests f) (he : e.first ≤ e.last)
    (hf : f.first ≤ f.last) (hi : e.Ends i) (hi' : f.Ends i) : e = f := by
  unfold Ends at hi hi'
  rcases h with rfl | h | h | h
  · rfl
  · unfold Apart at h
    omega
  · unfold Within at h
    omega
  · unfold Within at h
    omega

end Extent

/-! ## What encloses something in a row of pieces -/

/-- Groups do not cross each other. -/
theorem Matched.behind_or_inside {ps : List Piece} {i j i' j' : Nat} (h : Matched ps i j)
    (h' : Matched ps i' j') (hlt : i < i') : j < i' ∨ j' < j := by
  by_cases hbehind : j < i'
  · exact .inl hbehind
  · right
    have hopening : i' ≠ j := by
      rintro rfl
      simpa [h.closing] using h'.opening
    have hclosing : j ≠ j' := by
      rintro rfl
      exact Nat.ne_of_lt hlt (h.left_unique h')
    by_contra hcross
    have hback := h.height_succ_eq
    have hinside := h.above hlt (by omega)
    have habove := h'.above (m := j + 1) (by omega) (by omega)
    omega

/-- Where something that can enclose something starts and ends: a group that is closed, one that is
not, and a value. -/
inductive Spanned (ps : List Piece) : Nat → Nat → Prop
  | closed {i j : Nat} (h : Matched ps i j) : Spanned ps i j
  | unclosed {i : Nat} (h : Unclosed ps i) : Spanned ps i i
  | value {i : Nat} {v : Value} (h : ps[i]? = some (.value v)) : Spanned ps i i

namespace Spanned

variable {ps : List Piece} {i j i' j' : Nat}

theorem le (h : Spanned ps i j) : i ≤ j := by
  cases h with
  | closed h => exact Nat.le_of_lt h.lt
  | unclosed _ => exact Nat.le_refl _
  | value _ => exact Nat.le_refl _

theorem not_closing (h : Spanned ps i j) : ps[i]? ≠ some .groupClose := by
  cases h with
  | closed h => simp [h.opening]
  | unclosed h => simp [h.opening]
  | value h => simp [h]

theorem right_unique (h : Spanned ps i j) (h' : Spanned ps i j') : j = j' := by
  cases h with
  | closed h =>
    cases h' with
    | closed h' => exact h.right_unique h'
    | unclosed h' => exact absurd h (h'.not_matched j)
    | value h' => simp [h.opening] at h'
  | unclosed h =>
    cases h' with
    | closed h' => exact absurd h' (h.not_matched j')
    | unclosed _ => rfl
    | value _ => rfl
  | value h =>
    cases h' with
    | closed h' => simp [h'.opening] at h
    | unclosed _ => rfl
    | value _ => rfl

theorem behind_or_inside (h : Spanned ps i j) (h' : Spanned ps i' j') (hlt : i < i') :
    j < i' ∨ j' < j := by
  cases h with
  | closed h =>
    have hne : i' ≠ j := by
      rintro rfl
      exact h'.not_closing h.closing
    cases h' with
    | closed h' => exact h.behind_or_inside h' hlt
    | unclosed _ => omega
    | value _ => omega
  | unclosed _ => exact .inl hlt
  | value _ => exact .inl hlt

end Spanned

/-! ## The extents of a source -/

theorem Piece.glyphs_eq_whole {p : Piece} (hp : p.isValue = false) : p.glyphs = [.whole p] := by
  cases p with
  | value v => simp [isValue] at hp
  | _ => rfl

theorem Piece.isValue_of_bracket {p : Piece} {g : Glyph} {b : Bracket} (hg : g ∈ p.glyphs)
    (hb : g.bracket? = some b) : p.isValue = true := by
  by_contra hvalue
  rw [glyphs_eq_whole (by simpa using hvalue), List.mem_singleton] at hg
  simp [hg, Glyph.bracket?] at hb

theorem Piece.eq_of_getElem?_glyphs {p q : Piece} {k : Nat}
    (h : p.glyphs[k]? = some (.whole q)) : k = 0 ∧ p = q := by
  fun_cases Piece.glyphs p with
  | case1 b =>
    have hmem : Glyph.whole q ∈ b.glyphs := List.mem_of_getElem? h
    unfold Bracket.glyphs at hmem
    simp only [List.mem_append, List.mem_cons, List.mem_flatMap] at hmem
    rcases hmem with ((hopen | hnegated) | ⟨x, -, hitem⟩) | hclose
    · simp at hopen
    · split at hnegated <;> simp at hnegated
    · cases x <;> simp [BracketItem.glyphs] at hitem
    · split at hclose <;> simp at hclose
  | case2 =>
    rename_i hp
    rw [Piece.glyphs.eq_2 p hp] at h
    cases k with
    | zero => simpa using h
    | succ k => simp at h

/-- The extent from one token to another one, where something encloses the tokens between them. -/
inductive Token.Spans (ts : List Token) : Extent → Prop
  | intro {i j : Nat} {o u : Token} (h : Spanned (ts.map Token.piece) i j) (ho : ts[i]? = some o)
      (hu : ts[j]? = some u) : Token.Spans ts ⟨o.index, u.lastLexeme⟩

namespace Analysis

variable {source : List Char} {t u : Token} {e f : Extent} {i j : Nat}

theorem index_le_lastLexeme (ht : t ∈ (ofSource source).tokens) : t.index ≤ t.lastLexeme :=
  ((precedes_ofPieces (Piece.readAll source) 0 0).1 t ht).1

theorem precedes_of_places (ht : (ofSource source).tokens[i]? = some t)
    (hu : (ofSource source).tokens[j]? = some u) (hlt : i < j) : t.lastLexeme < u.index := by
  obtain ⟨hi, rfl⟩ := List.getElem?_eq_some_iff.mp ht
  obtain ⟨hj, rfl⟩ := List.getElem?_eq_some_iff.mp hu
  have hpairwise := (precedes_ofPieces (Piece.readAll source) 0 0).2
  exact List.pairwise_iff_getElem.mp hpairwise i j hi hj hlt

theorem lastLexeme_eq_index (ht : t ∈ (ofSource source).tokens) (h : t.isValue = false) :
    t.lastLexeme = t.index := by
  rw [Token.lastLexeme, last_eq_none ht (.inl h), Option.getD_none]

/-- Every lexeme belongs to a token, and has its extent if it is a bracket. -/
theorem exists_token_of_lexeme {m : Lexeme} (hm : (ofSource source).lexemes[i]? = some m) :
    ∃ t ∈ (ofSource source).tokens, t.index ≤ i ∧ t.piece.glyphs[i - t.index]? = some m.glyph ∧
      m.extent = m.glyph.bracket?.map fun _ => ⟨t.index, t.lastLexeme⟩ := by
  have hrange : i ∈ (ofSource source).tokens.flatMap Token.span := by
    have hspan : (ofSource source).tokens.flatMap Token.span =
        List.range' 0 (ofSource source).lexemes.length := span_ofPieces _ 0 0
    rw [hspan, List.mem_range'_1, Nat.zero_add]
    exact ⟨Nat.zero_le i, (List.getElem?_eq_some_iff.mp hm).1⟩
  obtain ⟨t, ht, hi⟩ := List.mem_flatMap.mp hrange
  have hlast := lastLexeme_of_mem ht
  rw [Token.lastLexeme] at hlast
  rw [Token.span, List.mem_range'_1] at hi
  have hlt : i - t.index < t.piece.glyphs.length := by omega
  obtain ⟨l, hl, hglyph, -, hextent⟩ := exists_lexeme_of_mem ht (List.getElem?_eq_getElem hlt)
  rw [Nat.add_sub_cancel' hi.1, hm] at hl
  obtain rfl := Option.some.inj hl
  exact ⟨t, ht, hi.1, hglyph ▸ List.getElem?_eq_getElem hlt, hglyph ▸ hextent⟩

theorem exists_parenthesis {m : Lexeme} {p : Piece} (hm : (ofSource source).lexemes[i]? = some m)
    (hglyph : m.glyph = .whole p) : ∃ t ∈ (ofSource source).tokens, t.index = i ∧ t.piece = p := by
  obtain ⟨t, ht, hle, hg, -⟩ := exists_token_of_lexeme hm
  rw [hglyph] at hg
  obtain ⟨hplace, hpiece⟩ := Piece.eq_of_getElem?_glyphs hg
  exact ⟨t, ht, by omega, hpiece⟩

end Analysis

namespace Token.Spans

variable {source : List Char} {e f : Extent}

theorem first_le_last (h : Spans (ofSource source).tokens e) : e.first ≤ e.last := by
  obtain @⟨i, j, o, u, h, ho, hu⟩ := h
  show o.index ≤ u.lastLexeme
  have hstart := index_le_lastLexeme (List.mem_of_getElem? ho)
  have hend := index_le_lastLexeme (List.mem_of_getElem? hu)
  rcases Nat.eq_or_lt_of_le h.le with rfl | hlt
  · obtain rfl := Option.some.inj (ho.symm.trans hu)
    exact hstart
  · have hprecedes := precedes_of_places ho hu hlt
    omega

theorem nests (he : Spans (ofSource source).tokens e) (hf : Spans (ofSource source).tokens f) :
    e.Nests f := by
  have hlt {i j i' j' : Nat} {o u o' u' : Token}
      (h : Spanned ((ofSource source).tokens.map Token.piece) i j)
      (h' : Spanned ((ofSource source).tokens.map Token.piece) i' j')
      (ho : (ofSource source).tokens[i]? = some o) (hu : (ofSource source).tokens[j]? = some u)
      (ho' : (ofSource source).tokens[i']? = some o')
      (hu' : (ofSource source).tokens[j']? = some u')
      (hlt : i < i') : Extent.Nests ⟨o.index, u.lastLexeme⟩ ⟨o'.index, u'.lastLexeme⟩ := by
    rcases h.behind_or_inside h' hlt with hbehind | hinside
    · exact .inr (.inl (.inl (precedes_of_places hu ho' hbehind)))
    · have hstart := index_le_lastLexeme (List.mem_of_getElem? ho)
      have hend := index_le_lastLexeme (List.mem_of_getElem? hu)
      have hfirst := precedes_of_places ho ho' hlt
      have hlast := precedes_of_places hu' hu hinside
      refine .inr (.inr (.inr ⟨?_, ?_⟩))
      · exact Nat.lt_of_le_of_lt hstart hfirst
      · exact Nat.lt_of_lt_of_le hlast hend
  obtain @⟨i, j, o, u, h, ho, hu⟩ := he
  obtain @⟨i', j', o', u', h', ho', hu'⟩ := hf
  rcases Nat.lt_trichotomy i i' with hii | rfl | hii
  · exact hlt h h' ho hu ho' hu' hii
  · obtain rfl := h.right_unique h'
    obtain rfl := Option.some.inj (ho.symm.trans ho')
    obtain rfl := Option.some.inj (hu.symm.trans hu')
    exact .inl rfl
  · exact (hlt h' h ho' hu' ho hu hii).symm

theorem of_pair {o u : Token} (h : Pair (ofSource source).tokens o u) :
    Spans (ofSource source).tokens ⟨o.index, u.index⟩ := by
  have hend := h.piece_closing
  have hstart := h.mem_opening.2
  cases h with
  | matched ho hu h =>
    have hlast := lastLexeme_eq_index (List.mem_of_getElem? hu) (by rw [Token.isValue, hend]; rfl)
    exact hlast ▸ .intro (.closed h) ho hu
  | @added i ho h hu =>
    have hlast := lastLexeme_eq_index (List.mem_of_getElem? ho) (by rw [Token.isValue, hstart]; rfl)
    have hindex : u.index = o.lastLexeme := by rw [hlast, hu, Token.closing]
    exact hindex ▸ .intro (.unclosed h) ho ho

theorem of_value {t : Token} (ht : t ∈ (ofSource source).tokens) (hvalue : t.isValue = true) :
    Spans (ofSource source).tokens ⟨t.index, t.lastLexeme⟩ := by
  obtain ⟨i, hi⟩ := List.mem_iff_getElem?.mp ht
  have hpiece := getElem?_piece hi
  unfold Token.isValue at hvalue
  cases hp : t.piece with
  | value v => exact .intro (.value (hp ▸ hpiece)) hi hi
  | _ => simp [hp, Piece.isValue] at hvalue

end Token.Spans

namespace Pair

variable {source : List Char} {o u v : Token} {i j : Nat}

theorem place_unique (hi : (ofSource source).tokens[i]? = some o)
    (hj : (ofSource source).tokens[j]? = some o) : i = j :=
  (List.getElem?_inj (List.getElem?_eq_some_iff.mp hi).1
    (List.Nodup.of_map Token.index (nodup_indexes source))).mp (hi.trans hj.symm)

theorem eq_of_matched (h : Pair (ofSource source).tokens o v)
    (ho : (ofSource source).tokens[i]? = some o) (hu : (ofSource source).tokens[j]? = some u)
    (hm : Matched ((ofSource source).tokens.map Token.piece) i j) : v = u := by
  cases h with
  | matched ho' hv h =>
    obtain rfl := place_unique ho' ho
    obtain rfl := h.right_unique hm
    exact Option.some.inj (hv.symm.trans hu)
  | added ho' h _ =>
    obtain rfl := place_unique ho' ho
    exact absurd hm (h.not_matched j)

theorem exists_matched (h : Pair (ofSource source).tokens o u)
    (hu : (ofSource source).tokens[j]? = some u) :
    ∃ i, (ofSource source).tokens[i]? = some o ∧
      Matched ((ofSource source).tokens.map Token.piece) i j := by
  cases h with
  | matched ho hu' h =>
    obtain rfl := place_unique hu' hu
    exact ⟨_, ho, h⟩
  | added _ _ hclosing =>
    have hadded := (flags_of_mem_ofSource (List.mem_of_getElem? hu)).1
    rw [hclosing, Token.closing] at hadded
    cases hadded

end Pair

/-! ## What is noted on lexemes -/

namespace ReversePolish

theorem extent_foldl_stamp_cases (groups : List Extent) (l : Lexeme) :
    (groups.foldl stamp l).extent = l.extent ∨
      ∃ e ∈ groups, e.Ends l.index ∧ (groups.foldl stamp l).extent = some e := by
  induction groups generalizing l with
  | nil => exact .inl rfl
  | cons x groups ih =>
    have hindex : (stamp l x).index = l.index := by
      unfold stamp
      split <;> rfl
    rw [List.foldl_cons]
    rcases ih (stamp l x) with hkept | ⟨e, he, hends, hextent⟩
    · by_cases hx : l.index = x.first ∨ l.index = x.last
      · refine .inr ⟨x, List.mem_cons_self, hx, ?_⟩
        rw [hkept, stamp, if_pos hx]
      · rw [hkept, stamp, if_neg hx]
        exact .inl rfl
    · exact .inr ⟨e, List.mem_cons_of_mem x he, hindex ▸ hends, hextent⟩

end ReversePolish

theorem Tree.mem_tokens_of_mem_groups {l : Precedence} (t : Tree l) {g : Token × Token}
    (hg : g ∈ t.groups) : g.1 ∈ t.tokens ∧ g.2 ∈ t.tokens := by
  induction t with
  | value tok v hv => simp [groups] at hg
  | group opening closing ho hc body ih =>
    simp only [groups, List.mem_append, List.mem_singleton] at hg
    simp only [tokens, List.mem_cons, List.mem_append]
    rcases hg with hg | rfl
    · obtain ⟨hfirst, hsecond⟩ := ih hg
      exact ⟨.inr (.inl hfirst), .inr (.inl hsecond)⟩
    · exact ⟨.inl rfl, .inr (.inr (.inl rfl))⟩
  | quantified a tok q hq hl ih =>
    obtain ⟨hfirst, hsecond⟩ := ih hg
    exact ⟨List.mem_append_left _ hfirst, List.mem_append_left _ hsecond⟩
  | concat f g hl ihf ihg =>
    simp only [groups, List.mem_append] at hg
    simp only [tokens, List.mem_append]
    rcases hg with hg | hg
    · exact (ihf hg).imp .inl .inl
    · exact (ihg hg).imp .inr .inr
  | alternation e tok ht g ihe ihg =>
    simp only [groups, List.mem_append] at hg
    simp only [tokens, List.mem_append, List.mem_cons]
    rcases hg with hg | hg
    · exact (ihe hg).imp .inl .inl
    · exact (ihg hg).imp (.inr ∘ .inr) (.inr ∘ .inr)

theorem Expression.mem_tokens_of_mem_groups (A : Expression) {g : Token × Token}
    (hg : g ∈ A.groups) : g.1 ∈ A.tokens ∧ g.2 ∈ A.tokens := by
  cases A with
  | none => simp [groups] at hg
  | some e => exact e.mem_tokens_of_mem_groups hg

theorem Expression.mem_extents_of_mem_groups (A : Expression) {g : Token × Token}
    (hg : g ∈ A.groups) : ⟨g.1.index, g.2.index⟩ ∈ A.extents := by
  rw [A.extents_eq]
  exact List.mem_map.mpr ⟨g, hg, rfl⟩

namespace Compiled.Stages

variable {source : List Char} {a : Analysis} {A : Expression} {c : Compiled} {t u : Token}
  {l : Lexeme} {e : Extent}

theorem exists_read_of_mem (h : Stages source a A c) (hl : l ∈ c.lexemes) :
    ∃ m k, (ofSource source).lexemes[l.index]? = some m ∧ k.index = l.index ∧
      k.extent = m.extent ∧ l.glyph = m.glyph ∧
      l.extent = (A.extents.foldl ReversePolish.stamp k).extent := by
  obtain ⟨i, hi⟩ := List.mem_iff_getElem?.mp hl
  have hlt : i < (ofSource source).lexemes.length := by
    rw [← length_lexemes_validate h.validated, ← h.length_lexemes]
    exact (List.getElem?_eq_some_iff.mp hi).1
  have hm := List.getElem?_eq_getElem hlt
  obtain ⟨l', k, hl', hindex, hextent, hglyph, -, hnoted⟩ := h.exists_read hm
  obtain rfl := Option.some.inj (hi.symm.trans hl')
  have hnumbered := h.spells.numbered i l hi
  rw [hnumbered]
  exact ⟨_, k, hm, hindex, hextent, hglyph, hnoted⟩

theorem spans_of_mem_lexemes (h : Stages source a A c) (hl : l ∈ c.lexemes)
    (he : l.extent = some e) : Token.Spans (ofSource source).tokens e := by
  obtain ⟨m, k, hm, -, hextent, -, hnoted⟩ := h.exists_read_of_mem hl
  rcases ReversePolish.extent_foldl_stamp_cases A.extents k with hread | ⟨x, hx, -, hgroup⟩
  · obtain ⟨t, ht, -, hg, hbracket⟩ := exists_token_of_lexeme hm
    rw [← hextent, ← hread, ← hnoted, he] at hbracket
    obtain ⟨b, hb, heq⟩ := Option.map_eq_some_iff.mp hbracket.symm
    have hvalue : t.isValue = true := Piece.isValue_of_bracket (List.mem_of_getElem? hg) hb
    exact heq ▸ .of_value ht hvalue
  · obtain rfl : e = x := Option.some.inj (he.symm.trans (hnoted.trans hgroup))
    obtain ⟨o, v, hpair, rfl⟩ := h.exists_pair hx
    exact .of_pair hpair

theorem extent_of_group (h : Stages source a A c) {g : Token × Token} (hg : g ∈ A.groups)
    (hl : l ∈ c.lexemes) (hi : l.index = g.1.index ∨ l.index = g.2.index) :
    l.extent = some ⟨g.1.index, g.2.index⟩ := by
  have hspans := Token.Spans.of_pair (h.related_groups g hg)
  obtain ⟨m, k, -, hindex, -, -, hnoted⟩ := h.exists_read_of_mem hl
  rw [hnoted]
  rw [← hindex] at hi
  refine ReversePolish.extent_foldl_stamp (fun x hx hx' => ?_)
    (.inr ⟨A.mem_extents_of_mem_groups hg, hi⟩)
  obtain ⟨o, v, hpair, rfl⟩ := h.exists_pair hx
  have hspans' := Token.Spans.of_pair hpair
  exact (hspans'.nests hspans).eq_of_ends hspans'.first_le_last hspans.first_le_last hx' hi

theorem exists_group_of_extent (h : Stages source a A c) {p : Piece} (hl : l ∈ c.lexemes)
    (hglyph : l.glyph = .whole p) (he : l.extent = some e) :
    ∃ g ∈ A.groups, l.index = g.1.index ∨ l.index = g.2.index := by
  obtain ⟨m, k, hm, hindex, hextent, hglyph', hnoted⟩ := h.exists_read_of_mem hl
  rcases ReversePolish.extent_foldl_stamp_cases A.extents k with hread | ⟨x, hx, hends, -⟩
  · obtain ⟨t, -, -, -, hbracket⟩ := exists_token_of_lexeme hm
    rw [← hextent, ← hread, ← hnoted, he, ← hglyph', hglyph] at hbracket
    simp [Glyph.bracket?] at hbracket
  · rw [A.extents_eq] at hx
    obtain ⟨g, hg, rfl⟩ := List.mem_map.mp hx
    exact ⟨g, hg, hindex ▸ hends⟩

/-- The lexeme of a parenthesis has an extent if and only if the parenthesis is left. -/
theorem extent_isSome_iff (h : Stages source a A c) (hl : l ∈ c.lexemes)
    (ht : t ∈ (ofSource source).tokens) (hindex : t.index = l.index)
    (hp : t.piece = .groupOpen ∨ t.piece = .groupClose) (hglyph : l.glyph = .whole t.piece) :
    l.extent.isSome = true ↔ t ∈ a.valid := by
  constructor
  · intro hsome
    obtain ⟨e, he⟩ := Option.isSome_iff_exists.mp hsome
    obtain ⟨g, hg, hends⟩ := h.exists_group_of_extent hl hglyph he
    have hpair := h.related_groups g hg
    obtain ⟨hopening, hclosing⟩ := A.mem_tokens_of_mem_groups hg
    rw [h.tree] at hopening hclosing
    have hsame {v : Token} (hv : v ∈ (ofSource source).tokens) (hvi : l.index = v.index) : t = v :=
      List.inj_on_of_nodup_map (nodup_indexes source) ht hv (hindex.trans hvi)
    rcases hends with hends | hends
    · rwa [hsame hpair.mem_opening.1 hends]
    · obtain ⟨w, hw, hwi, rfl | ⟨rfl, -⟩⟩ := hpair.exists_standing
      · rwa [hsame hw hends]
      · rwa [hsame hw (hends.trans hwi.symm)]
  · intro hvalid
    rw [← h.tree] at hvalid
    obtain ⟨g, hg, rfl | rfl⟩ := A.exists_group hvalid hp
    · rw [h.extent_of_group hg hl (.inl hindex.symm)]
      rfl
    · rw [h.extent_of_group hg hl (.inr hindex.symm)]
      rfl

theorem exists_lexeme_of_parenthesis (h : Stages source a A c)
    (ht : t ∈ (ofSource source).tokens) (hp : t.piece = .groupOpen ∨ t.piece = .groupClose) :
    ∃ l, c.lexemes[t.index]? = some l ∧ l ∈ c.lexemes ∧ l.index = t.index ∧
      l.glyph = .whole t.piece := by
  have hg : t.piece.glyphs[0]? = some (.whole t.piece) := by
    rcases hp with hp | hp <;> rw [hp] <;> rfl
  obtain ⟨m, hm, hglyph, -⟩ := exists_lexeme_of_mem ht hg
  rw [Nat.add_zero] at hm
  obtain ⟨l, k, hl, -, -, hglyph', -⟩ := h.exists_read hm
  exact ⟨l, hl, List.mem_of_getElem? hl, h.spells.numbered _ l hl, hglyph'.trans hglyph⟩

theorem exists_group_of_closing (h : Stages source a A c) (ht : t ∈ A.tokens)
    (hp : t.piece = .groupClose) : ∃ g ∈ A.groups, t = g.2 := by
  obtain ⟨g, hg, rfl | rfl⟩ := A.exists_group ht (.inr hp)
  · simp [(h.related_groups g hg).mem_opening.2] at hp
  · exact ⟨g, hg, rfl⟩

theorem not_mem_valid_of_unopened (h : Stages source a A c) {k : Nat}
    (ht : (ofSource source).tokens[k]? = some t)
    (hk : Unopened ((ofSource source).tokens.map Token.piece) k) : t ∉ a.valid := by
  intro hvalid
  have hclosing : t.piece = .groupClose :=
    Option.some.inj ((getElem?_piece ht).symm.trans hk.closing)
  rw [← h.tree] at hvalid
  obtain ⟨g, hg, rfl⟩ := h.exists_group_of_closing hvalid hclosing
  obtain ⟨i, -, hm⟩ := (h.related_groups g hg).exists_matched ht
  exact hk.not_matched i hm

theorem extent_of_open_group (h : Stages source a A c) {k : Nat}
    (ht : (ofSource source).tokens[k]? = some t)
    (hk : Unclosed ((ofSource source).tokens.map Token.piece) k) (hvalid : t ∈ a.valid) :
    ∃ l, c.lexemes[t.index]? = some l ∧ l.extent = some ⟨t.index, t.index⟩ := by
  have hopening : t.piece = .groupOpen :=
    Option.some.inj ((getElem?_piece ht).symm.trans hk.opening)
  obtain ⟨-, hall⟩ := h.extent_of_unclosed_group ht hk hvalid
  obtain ⟨l, hl, hmem, hindex, -⟩ :=
    h.exists_lexeme_of_parenthesis (List.mem_of_getElem? ht) (.inl hopening)
  rw [← h.tree] at hvalid
  obtain ⟨g, hg, rfl | rfl⟩ := A.exists_group hvalid (.inl hopening)
  · have hself := hall _ (A.mem_extents_of_mem_groups hg) (.inl rfl)
    exact ⟨l, hl, hself ▸ h.extent_of_group hg hmem (.inl hindex)⟩
  · simp [(h.related_groups g hg).piece_closing] at hopening

/-- Of a group that is closed, both parentheses are left or none, and if they are left both have
its extent. -/
theorem extents_of_closed_group (h : Stages source a A c) {i j : Nat} {o u : Token}
    (ho : (ofSource source).tokens[i]? = some o) (hu : (ofSource source).tokens[j]? = some u)
    (hm : Matched ((ofSource source).tokens.map Token.piece) i j) :
    (o ∈ a.valid ↔ u ∈ a.valid) ∧ (o ∈ a.valid → ∃ l m, c.lexemes[o.index]? = some l ∧
      c.lexemes[u.index]? = some m ∧ l.extent = some ⟨o.index, u.index⟩ ∧
      m.extent = some ⟨o.index, u.index⟩) := by
  have hopening : o.piece = .groupOpen :=
    Option.some.inj ((getElem?_piece ho).symm.trans hm.opening)
  have hclosing : u.piece = .groupClose :=
    Option.some.inj ((getElem?_piece hu).symm.trans hm.closing)
  have hgroup (hvalid : o ∈ a.valid ∨ u ∈ a.valid) : (o, u) ∈ A.groups := by
    rw [← h.tree] at hvalid
    rcases hvalid with hvalid | hvalid
    · obtain ⟨g, hg, rfl | rfl⟩ := A.exists_group hvalid (.inl hopening)
      · rwa [← (h.related_groups g hg).eq_of_matched ho hu hm]
      · simp [(h.related_groups g hg).piece_closing] at hopening
    · obtain ⟨g, hg, rfl⟩ := h.exists_group_of_closing hvalid hclosing
      obtain ⟨k, hk, hm'⟩ := (h.related_groups g hg).exists_matched hu
      obtain rfl := hm'.left_unique hm
      rwa [← Option.some.inj (hk.symm.trans ho)]
  have hboth (hg : (o, u) ∈ A.groups) : o ∈ a.valid ∧ u ∈ a.valid :=
    h.tree ▸ A.mem_tokens_of_mem_groups hg
  refine ⟨⟨fun ho' => (hboth (hgroup (.inl ho'))).2, fun hu' => (hboth (hgroup (.inr hu'))).1⟩,
    fun ho' => ?_⟩
  obtain ⟨l, hl, hmem, hindex, -⟩ :=
    h.exists_lexeme_of_parenthesis (List.mem_of_getElem? ho) (.inl hopening)
  obtain ⟨m, hm, hmem', hindex', -⟩ :=
    h.exists_lexeme_of_parenthesis (List.mem_of_getElem? hu) (.inr hclosing)
  exact ⟨l, m, hl, hm, h.extent_of_group (hgroup (.inl ho')) hmem (.inl hindex),
    h.extent_of_group (hgroup (.inl ho')) hmem' (.inr hindex')⟩

end Compiled.Stages

/--
What parentheses and brackets enclose, in the lexemes of a compiled regex. A parenthesis has an
extent if and only if its token is left. Of parentheses that match in the source both are left or
none, and if they are left both have the extent from the one to the other. A parenthesis that closes
nothing is not left; one that opens a group without an end has itself as its extent. The brackets of
an expression have its lexemes as their extent. No two extents cross each other.
-/
theorem extents_nested (source : List Char) :
    ∃ c, compile source = .ok c ∧
      (∀ l ∈ c.lexemes, l.glyph = .whole .groupOpen ∨ l.glyph = .whole .groupClose →
        ∃ t ∈ (ofSource source).tokens, t.index = l.index ∧ l.glyph = .whole t.piece ∧
          (l.extent.isSome = true ↔ t ∈ c.analysis.valid)) ∧
      (∀ (i j : Nat) (o u : Token), (ofSource source).tokens[i]? = some o →
        (ofSource source).tokens[j]? = some u →
        Matched ((ofSource source).tokens.map Token.piece) i j →
        (o ∈ c.analysis.valid ↔ u ∈ c.analysis.valid) ∧
          (o ∈ c.analysis.valid → ∃ l m, c.lexemes[o.index]? = some l ∧
            c.lexemes[u.index]? = some m ∧ l.extent = some ⟨o.index, u.index⟩ ∧
            m.extent = some ⟨o.index, u.index⟩)) ∧
      (∀ (k : Nat) (t : Token), (ofSource source).tokens[k]? = some t →
        (Unopened ((ofSource source).tokens.map Token.piece) k → t ∉ c.analysis.valid) ∧
          (Unclosed ((ofSource source).tokens.map Token.piece) k → t ∈ c.analysis.valid →
            ∃ l, c.lexemes[t.index]? = some l ∧ l.extent = some ⟨t.index, t.index⟩)) ∧
      (∀ t ∈ (ofSource source).tokens, ∀ b, t.piece = .value (.bracket b) →
        ∀ (i : Nat) (g : Glyph), b.glyphs[i]? = some g → g.bracket?.isSome = true →
          ∃ l, c.lexemes[t.index + i]? = some l ∧ l.glyph = g ∧
            l.extent = some ⟨t.index, t.index + b.glyphs.length - 1⟩) ∧
      ∀ l ∈ c.lexemes, ∀ m ∈ c.lexemes, ∀ e f, l.extent = some e → m.extent = some f →
        e.Nests f := by
  obtain ⟨a, A, c, h⟩ := Compiled.Stages.exist source
  refine ⟨c, h.compiled, ?_⟩
  rw [h.valid]
  refine ⟨fun l hl hglyph => ?_, fun i j o u ho hu hm => h.extents_of_closed_group ho hu hm,
    fun k t ht => ⟨h.not_mem_valid_of_unopened ht, h.extent_of_open_group ht⟩,
    fun t ht b hb i g hg hbracket => ?_, fun l hl m hm e f he hf => ?_⟩
  · obtain ⟨m, -, hm, -, -, hglyph', -⟩ := h.exists_read_of_mem hl
    obtain ⟨p, hp, hwhole⟩ : ∃ p, (p = .groupOpen ∨ p = .groupClose) ∧ l.glyph = .whole p := by
      rcases hglyph with hglyph | hglyph
      · exact ⟨_, .inl rfl, hglyph⟩
      · exact ⟨_, .inr rfl, hglyph⟩
    obtain ⟨t, ht, hindex, rfl⟩ := exists_parenthesis hm (hglyph'.symm.trans hwhole)
    exact ⟨t, ht, hindex, hwhole, h.extent_isSome_iff hl ht hindex hp hwhole⟩
  · have hglyphs : t.piece.glyphs = b.glyphs := by rw [hb, Piece.glyphs]
    have hlast := lastLexeme_of_mem ht
    obtain ⟨l, hl, hglyph, -, hextent⟩ :=
      h.exists_lexeme_of_value ht (by rw [Token.isValue, hb]; rfl) (hglyphs ▸ hg)
    obtain ⟨b', hb'⟩ := Option.isSome_iff_exists.mp hbracket
    have hend : t.lastLexeme = t.index + b.glyphs.length - 1 := by
      rw [hglyphs] at hlast
      omega
    exact ⟨l, hl, hglyph, by rw [hextent, hb', Option.map_some, hend]⟩
  · exact (h.spans_of_mem_lexemes hl he).nests (h.spans_of_mem_lexemes hm hf)

end RegexDiagram
