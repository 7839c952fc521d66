import RegexDiagram.Proofs.Blame
import RegexDiagram.Proofs.Operands
import RegexDiagram.Proofs.Repair

/-!
The texts that hints show. Compiling notes on lexemes which stretch of lexemes they enclose or apply
to, each stretch on the lexemes that it belongs to and nothing else. The text of a stretch is the
part of the source from where its first lexeme starts to where its last one ends.
-/
namespace RegexDiagram

/-! ## Marks on lexemes -/

namespace Lexeme

/-- A lexeme as it was before validation. -/
def unmark (l : Lexeme) : Lexeme := { l with invalid := false }

theorem map_unmark_markInvalid (indexes : List Nat) (ls : List Lexeme) :
    (markInvalid indexes ls).map unmark = ls.map unmark := by
  simp only [markInvalid, List.map_map]
  refine List.map_congr_left fun l _ => ?_
  simp only [Function.comp]
  split <;> rfl

end Lexeme

namespace Construction

variable {spans : List Span} {l : Lexeme} {s : Span}

theorem keeps_foldl_stamp (spans : List Span) (l : Lexeme) :
    (spans.foldl stamp l).glyph = l.glyph ∧ (spans.foldl stamp l).pos = l.pos ∧
      (spans.foldl stamp l).index = l.index ∧ (spans.foldl stamp l).invalid = l.invalid ∧
      (spans.foldl stamp l).extent = l.extent := by
  have h := Lexeme.foldl_keeps stamp
    (fun l => (l.glyph, l.pos, l.index, l.invalid, l.extent))
    (fun l s => by unfold stamp; split <;> rfl) spans l
  simpa only [Prod.mk.injEq] using h

theorem foldl_stamp_of_notMem (h : l.index ∉ spans.map (·.index)) : spans.foldl stamp l = l := by
  induction spans with
  | nil => rfl
  | cons s spans ih =>
    rw [List.map_cons, List.mem_cons, not_or] at h
    rw [List.foldl_cons, stamp, if_neg h.1, ih h.2]

theorem foldl_stamp_of_mem (hnodup : (spans.map (·.index)).Nodup) (hs : s ∈ spans)
    (h : l.index = s.index) : (spans.foldl stamp l).left = s.left ∧
      (spans.foldl stamp l).right = s.right.getD l.right := by
  induction spans with
  | nil => simp at hs
  | cons u spans ih =>
    rw [List.map_cons, List.nodup_cons] at hnodup
    rcases List.mem_cons.mp hs with rfl | hs
    · have hrest : (stamp l s).index ∉ spans.map (·.index) := by
        have hindex : (stamp l s).index = s.index := by rw [stamp, if_pos h]; exact h
        rw [hindex]
        exact hnodup.1
      rw [List.foldl_cons, foldl_stamp_of_notMem hrest, stamp, if_pos h]
      exact ⟨rfl, rfl⟩
    · have hne : l.index ≠ u.index := by
        rintro heq
        exact hnodup.1 (List.mem_map.mpr ⟨s, hs, h.symm.trans heq⟩)
      rw [List.foldl_cons, stamp, if_neg hne]
      exact ih hnodup.2 hs

end Construction

namespace ReversePolish

variable {groups : List Extent} {l : Lexeme} {e : Extent}

theorem keeps_foldl_stamp (groups : List Extent) (l : Lexeme) :
    (groups.foldl stamp l).glyph = l.glyph ∧ (groups.foldl stamp l).pos = l.pos ∧
      (groups.foldl stamp l).index = l.index ∧ (groups.foldl stamp l).invalid = l.invalid ∧
      (groups.foldl stamp l).left = l.left ∧ (groups.foldl stamp l).right = l.right := by
  have h := Lexeme.foldl_keeps stamp
    (fun l => (l.glyph, l.pos, l.index, l.invalid, l.left, l.right))
    (fun l e => by unfold stamp; split <;> rfl) groups l
  simpa only [Prod.mk.injEq] using h

theorem extent_foldl_stamp (hall : ∀ x ∈ groups, l.index = x.first ∨ l.index = x.last → x = e)
    (h : l.extent = some e ∨ e ∈ groups ∧ (l.index = e.first ∨ l.index = e.last)) :
    (groups.foldl stamp l).extent = some e := by
  induction groups generalizing l with
  | nil => exact h.resolve_right (by simp)
  | cons x groups ih =>
    obtain ⟨hx, hgroups⟩ := List.forall_mem_cons.mp hall
    rw [List.foldl_cons]
    by_cases htouch : l.index = x.first ∨ l.index = x.last
    · rw [stamp, if_pos htouch]
      exact ih hgroups (.inl (congrArg some (hx htouch)))
    · rw [stamp, if_neg htouch]
      refine ih hgroups (h.imp_right fun ⟨he, htouch'⟩ => ⟨?_, htouch'⟩)
      refine (List.mem_cons.mp he).resolve_left ?_
      rintro rfl
      exact htouch htouch'

theorem foldl_stamp_of_untouched
    (h : ∀ x ∈ groups, l.index ≠ x.first ∧ l.index ≠ x.last) : groups.foldl stamp l = l := by
  induction groups with
  | nil => rfl
  | cons x groups ih =>
    obtain ⟨⟨hfirst, hlast⟩, hgroups⟩ := List.forall_mem_cons.mp h
    rw [List.foldl_cons, stamp, if_neg (not_or.mpr ⟨hfirst, hlast⟩), ih hgroups]

end ReversePolish

/-! ## The lexemes of a compiled regex -/

/-- What the groups of a regex enclose. -/
def Expression.extents : Expression → List Extent
  | none => []
  | some e => e.extents

/-- A regex in reverse Polish notation. -/
def Expression.ordered (A : Expression) : ReversePolish.Ordered := ⟨A.symbols, A.extents⟩

theorem Expression.ofTokens_eq (A : Expression) (h : ∀ t ∈ A.tokens, t.invalid = false) :
    ReversePolish.ofTokens A.tokens = .ok ⟨A.symbols, A.extents⟩ := by
  cases A with
  | none => rfl
  | some e => exact e.ofTokens_tokens h

namespace Analysis

variable {a : Analysis} {source : List Char}

theorem map_unmark_validate (ha : (ofSource source).validate = some a) :
    a.lexemes.map Lexeme.unmark = (ofSource source).lexemes.map Lexeme.unmark := by
  obtain ⟨b, hb, rfl⟩ := Option.map_eq_some_iff.mp ha
  obtain ⟨v, -, rfl⟩ := Option.map_eq_some_iff.mp hb
  simp only [foldQuantifiers, balanceGroups, record, Lexeme.map_unmark_markInvalid]

theorem operands_of_mem_lexemes (ha : (ofSource source).validate = some a) {l : Lexeme}
    (hl : l ∈ a.lexemes) : l.left = {} ∧ l.right = {} := by
  have hread (ps : List Piece) (pos index : Nat) : ∀ l ∈ (ofPieces pos index ps).lexemes,
      l.left = {} ∧ l.right = {} := by
    induction ps generalizing pos index with
    | nil => simp [ofPieces]
    | cons p ps ih =>
      refine List.forall_mem_append.mpr ⟨fun l hl => ?_, ih _ _⟩
      obtain ⟨m, hm, rfl⟩ := List.mem_map.mp hl
      have hmade : m.left = {} ∧ m.right = {} := by
        obtain ⟨g, -, rfl⟩ := List.mem_map.mp hm
        exact ⟨rfl, rfl⟩
      split <;> exact hmade
  have hmem : l.unmark ∈ (ofSource source).lexemes.map Lexeme.unmark := by
    rw [← map_unmark_validate ha]
    exact List.mem_map_of_mem hl
  obtain ⟨m, hm, heq⟩ := List.mem_map.mp hmem
  have hm' := hread _ 0 0 m hm
  exact ⟨(congrArg Lexeme.left heq).symm.trans hm'.1, (congrArg Lexeme.right heq).symm.trans hm'.2⟩

end Analysis

namespace Compiled

open Analysis

variable {source : List Char} {c : Compiled} {a : Analysis} {A : Expression}

/-- What a source becomes on its way: an analysis that is validated, a syntax tree, and what it is
compiled to. -/
structure Stages (source : List Char) (a : Analysis) (A : Expression) (c : Compiled) : Prop where
  validated : (ofSource source).validate = some a
  tree : A.tokens = a.valid
  compiled : compile source = .ok c
  valid : c.analysis.valid = a.valid

theorem Stages.exist (source : List Char) : ∃ a A c, Stages source a A c := by
  obtain ⟨c, a, A, hc, ha, -, hrealizes, hA, -⟩ := exists_stages source
  exact ⟨a, A, c, ha, hA, hc, hrealizes.tokens.symm.trans hA⟩

theorem Stages.tree_valid (h : Stages source a A c) : ∀ t ∈ A.tokens, t.invalid = false := by
  rw [h.tree]
  exact fun t ht => (mem_valid.mp ht).2

theorem Stages.ordered_eq (h : Stages source a A c) : ordered source =
    .ok ({ a with lexemes := A.ordered.markGroups a.lexemes }, A.symbols) := by
  have horder := A.ofTokens_eq h.tree_valid
  rw [h.tree] at horder
  simp only [ordered, h.validated, horder, Expression.ordered]

theorem Stages.built_eq (h : Stages source a A c) :
    Automaton.ofSymbols (A.ordered.markGroups a.lexemes) A.symbols = ⟨.ok A.automaton, A.spans⟩ := by
  have hmarked := ((consistent_ofSource source).validate h.validated).mark
    (places_markGroups A.ordered a.lexemes)
  have hplaced : Construction.Placed (A.ordered.markGroups a.lexemes) A.tokens := by
    rw [h.tree]
    exact fun t ht => hmarked.placed t (mem_valid.mp ht).1
  exact A.ofSymbols_symbols hplaced

/-- Nothing but marks on lexemes is added to the analysis after validation. -/
theorem Stages.analysis_eq (h : Stages source a A c) : c.source = source ∧ c.analysis =
    { a with lexemes := Construction.markOperands A.spans (A.ordered.markGroups a.lexemes) } := by
  have hc := h.compiled
  simp only [compile, h.ordered_eq, Except.bind, ofSymbols, h.built_eq] at hc
  split at hc
  · cases hc
  · split at hc
    · cases hc
    · obtain rfl := Except.ok.inj hc
      exact ⟨rfl, rfl⟩

/-- Compiling notes on the lexemes of a validated regex what groups enclose, and then what operators
apply to. -/
theorem Stages.lexemes_eq (h : Stages source a A c) :
    c.source = source ∧ c.lexemes = a.lexemes.map fun l =>
      A.spans.foldl Construction.stamp (A.extents.foldl ReversePolish.stamp l) := by
  refine ⟨h.analysis_eq.1, ?_⟩
  simp only [lexemes, h.analysis_eq.2, Construction.markOperands, ReversePolish.Ordered.markGroups,
    Expression.ordered, List.map_map]
  rfl

end Compiled

/-! ## Texts -/

namespace Lexeme

open Analysis

variable {source : List Char} {ls ms : List Lexeme}

/-- The lexemes of a source, by what they show and where they stand. -/
structure Spells (source : List Char) (ls : List Lexeme) : Prop where
  text : ls.flatMap label = source
  numbered : ∀ (i : Nat) (l : Lexeme), ls[i]? = some l → l.index = i
  adjoining : ∀ (i : Nat) (l : Lexeme),
    ls[i]? = some l → l.pos = ((ls.take i).flatMap label).length

/-- What a lexeme shows and where it stands. No mark changes that. -/
def face (l : Lexeme) : Glyph × Nat × Nat := (l.glyph, l.pos, l.index)

theorem flatMap_label_eq (ls : List Lexeme) :
    ls.flatMap label = (ls.map face).flatMap fun x => x.1.label := by
  rw [List.flatMap_map]
  rfl

theorem Spells.congr (h : Spells source ls) (heq : ms.map face = ls.map face) :
    Spells source ms := by
  have hget (i : Nat) (l : Lexeme) (hl : ms[i]? = some l) :
      ∃ m, ls[i]? = some m ∧ m.face = l.face := by
    have hface := congrArg (·[i]?) heq
    simp only [List.getElem?_map, hl, Option.map_some] at hface
    exact Option.map_eq_some_iff.mp hface.symm
  refine ⟨?_, fun i l hl => ?_, fun i l hl => ?_⟩
  · rw [flatMap_label_eq, heq, ← flatMap_label_eq, h.text]
  · obtain ⟨m, hm, hface⟩ := hget i l hl
    exact (congrArg (·.2.2) hface).symm.trans (h.numbered i m hm)
  · obtain ⟨m, hm, hface⟩ := hget i l hl
    rw [flatMap_label_eq, List.map_take, heq, ← List.map_take, ← flatMap_label_eq]
    exact (congrArg (·.2.1) hface).symm.trans (h.adjoining i m hm)

theorem spells_ofSource (source : List Char) : Spells source (ofSource source).lexemes where
  text := by rw [List.flatMap_def, labels_ofSource]
  numbered _ _ hl := (consistent_ofSource source).getElem? hl
  adjoining _ _ hl :=
    ((adjoining_ofPieces (Piece.readAll source) 0 0).pos_eq hl).trans (Nat.zero_add _)

theorem Spells.flatMap_take (h : Spells source ls) (n : Nat) :
    (ls.take n).flatMap label = source.take ((ls.take n).flatMap label).length := by
  have hsplit : (ls.take n).flatMap label ++ (ls.drop n).flatMap label = source := by
    rw [← List.flatMap_append, List.take_append_drop, h.text]
  rw [← hsplit, List.take_left]

theorem Spells.length_take_succ (h : Spells source ls) {i : Nat} {l : Lexeme}
    (hl : ls[i]? = some l) : ((ls.take (i + 1)).flatMap label).length = l.pos + l.label.length := by
  rw [List.take_add_one, hl, List.flatMap_append, List.length_append, ← h.adjoining i l hl,
    Option.toList_some, List.flatMap_singleton]

theorem Spells.sourceText_eq (h : Spells source ls) (i k : Nat) : Hint.sourceText ls i k =
    (source.take ((ls.take k).flatMap label).length).drop ((ls.take i).flatMap label).length := by
  have hsplit (m n : Nat) (hle : m ≤ n) : (ls.take n).flatMap label =
      (ls.take m).flatMap label ++ ((ls.take n).drop m).flatMap label := by
    have htake : ls.take m = (ls.take n).take m := by rw [List.take_take, Nat.min_eq_left hle]
    rw [htake, ← List.flatMap_append, List.take_append_drop]
  rw [Hint.sourceText, ← List.drop_take, ← h.flatMap_take]
  rcases Nat.le_total i k with hle | hle
  · rw [hsplit i k hle, List.drop_left]
  · rw [List.drop_eq_nil_of_le (Nat.le_trans (List.length_take_le k ls) hle), hsplit k i hle,
      List.drop_eq_nil_of_le (by simp), List.flatMap_nil]

end Lexeme

namespace Compiled

open Analysis Lexeme

variable {source : List Char} {c : Compiled} {l m : Lexeme} {a : Analysis} {A : Expression}

/-- The source text from the start of one lexeme to the end of another one. -/
def text (c : Compiled) (l m : Lexeme) : List Char :=
  (c.source.take (m.pos + m.label.length)).drop l.pos

theorem Stages.spells (h : Stages source a A c) : Spells c.source c.lexemes := by
  obtain ⟨hsource, hlexemes⟩ := h.lexemes_eq
  rw [hsource]
  refine (spells_ofSource source).congr ?_
  calc c.lexemes.map face
    _ = a.lexemes.map face := by
      rw [hlexemes, List.map_map]
      refine List.map_congr_left fun l _ => ?_
      obtain ⟨hglyph, hpos, hindex, -⟩ := Construction.keeps_foldl_stamp A.spans
        (A.extents.foldl ReversePolish.stamp l)
      obtain ⟨hglyph', hpos', hindex', -⟩ := ReversePolish.keeps_foldl_stamp A.extents l
      simp only [Function.comp, face, hglyph, hpos, hindex, hglyph', hpos', hindex']
    _ = (a.lexemes.map unmark).map face := by
      rw [List.map_map]
      rfl
    _ = (ofSource source).lexemes.map face := by
      rw [map_unmark_validate h.validated, List.map_map]
      rfl

theorem Stages.sourceText_eq (h : Stages source a A c) {i k : Nat} (hl : c.lexemes[i]? = some l)
    (hm : c.lexemes[k]? = some m) : Hint.sourceText c.lexemes i (k + 1) = c.text l m := by
  rw [h.spells.sourceText_eq, h.spells.length_take_succ hm, ← h.spells.adjoining i l hl, text]

end Compiled
end RegexDiagram
