import RegexDiagram.Lexeme
import RegexDiagram.Proofs.FirstOccurrences

/-!
The members of a bracket expression. They can be read off its lexemes: a member stands for itself,
and the two ends of a range stand for all characters between them. In the list of the members each
one has the place where it was first inserted.
-/
namespace RegexDiagram

namespace BracketItem

theorem ofNat?_eq_some_iff {n : Nat} {c : Char} :
    (if n.isValidChar then some (Char.ofNat n) else none) = some c ↔ n = c.toNat := by
  constructor
  · intro h
    split at h
    · rename_i hvalid
      have hchar : Char.ofNat n = Char.ofNatAux n hvalid := dif_pos hvalid
      rw [← Option.some.inj h, hchar]
      rfl
    · simp at h
  · intro h
    have hvalid : n.isValidChar := h ▸ c.valid
    rw [if_pos hvalid, h, Char.ofNat_toNat]

theorem mem_chars {i : BracketItem} {c : Char} : c ∈ i.chars ↔ i.contains c = true := by
  cases i with
  | single d => simp [chars, contains]
  | range low high =>
    have hle (a b : Char) : a ≤ b ↔ a.toNat ≤ b.toNat := Char.le_def.trans UInt32.le_iff_toNat_le
    simp only [chars, contains, List.mem_filterMap, ofNat?_eq_some_iff, exists_eq_right,
      List.mem_range'_1, Bool.and_eq_true, decide_eq_true_eq, hle]
    omega

theorem nodup_chars (i : BracketItem) : i.chars.Nodup := by
  cases i with
  | single d => exact List.nodup_singleton d
  | range low high =>
    apply List.Nodup.filterMap _ (List.nodup_range' 1)
    intro m n c hm hn
    rw [ofNat?_eq_some_iff.mp hm, ofNat?_eq_some_iff.mp hn]

end BracketItem

namespace Bracket

/-- What comes after `earlier` items adds the characters that are not among them. -/
theorem membersAfter_eq (earlier items : List BracketItem) :
    membersAfter earlier items = ((items.flatMap BracketItem.chars).filter
      (fun c => !earlier.any (·.contains c))).eraseDups := by
  induction items generalizing earlier with
  | nil => rfl
  | cons i items ih =>
    have hnew := (i.nodup_chars).filter (fun c => !earlier.any (·.contains c))
    rw [membersAfter, List.flatMap_cons, List.filter_append, eraseDups_append_of_nodup hnew,
      List.filter_filter, ih]
    congr 2
    apply List.filter_congr
    intro c hc
    simp only [List.mem_filter, BracketItem.mem_chars, List.any_cons]
    cases i.contains c <;> cases earlier.any (·.contains c) <;> simp

/-- The members are the characters of the items, each where it first occurs. -/
theorem members_eq (b : Bracket) :
    b.members = (b.items.flatMap BracketItem.chars).eraseDups := by
  rw [members, membersAfter_eq]
  simp

theorem mem_members {b : Bracket} {c : Char} : c ∈ b.members ↔ b.contains c = true := by
  rw [members_eq, List.mem_eraseDups, List.mem_flatMap, contains, List.any_eq_true]
  simp only [BracketItem.mem_chars]

theorem nodup_members (b : Bracket) : b.members.Nodup := by
  rw [members_eq]
  exact nodup_eraseDups _

theorem accepts_eq (b : Bracket) (c : Char) :
    b.accepts c = (decide (c ∈ b.members) != b.negated) := by
  have hmem : decide (c ∈ b.members) = b.contains c := by
    rw [Bool.eq_iff_iff, decide_eq_true_eq, mem_members]
  rw [accepts, hmem]

end Bracket

namespace Glyph

/-- The characters that glyphs insert into the members, in order and with repetitions. -/
def insertions : List Glyph → List Char
  | [] => []
  | member c :: gs => c :: insertions gs
  | rangeLow low :: rangeDash :: rangeHigh high :: gs =>
      (BracketItem.range low high).chars ++ insertions gs
  | _ :: gs => insertions gs

/-- The glyphs show `c` as a member, or the two ends of a range that it lies in. -/
def Shows (gs : List Glyph) (c : Char) : Prop :=
  member c ∈ gs ∨
    ∃ low high, [rangeLow low, rangeDash, rangeHigh high] <:+: gs ∧ low ≤ c ∧ c ≤ high

theorem insertions_items (items : List BracketItem) (gs : List Glyph) :
    insertions (items.flatMap BracketItem.glyphs ++ gs) =
      items.flatMap BracketItem.chars ++ insertions gs := by
  induction items with
  | nil => rfl
  | cons i items ih =>
    rw [List.flatMap_cons, List.append_assoc, List.flatMap_cons, List.append_assoc, ← ih]
    cases i <;> rfl

theorem glyphs_bracket (b : Bracket) :
    b.glyphs = (bracketOpen b :: if b.negated then [negation] else []) ++
      (b.items.flatMap BracketItem.glyphs ++ if b.closed then [bracketClose b] else []) := by
  rw [Bracket.glyphs, List.append_assoc]

theorem insertions_bracket (b : Bracket) :
    insertions b.glyphs = b.items.flatMap BracketItem.chars := by
  have hclose : insertions (if b.closed then [bracketClose b] else []) = [] := by
    split <;> rfl
  have hitems := insertions_items b.items (if b.closed then [bracketClose b] else [])
  rw [hclose, List.append_nil] at hitems
  rw [← hitems, glyphs_bracket]
  cases b.negated <;> rfl

theorem range_mem_of_infix {low high : Char} {items : List BracketItem} {gs : List Glyph}
    (hgs : rangeLow low ∉ gs)
    (h : [rangeLow low, rangeDash, rangeHigh high] <:+: items.flatMap BracketItem.glyphs ++ gs) :
    .range low high ∈ items := by
  induction items with
  | nil => exact absurd (h.mem List.mem_cons_self) hgs
  | cons i items ih =>
    cases i with
    | single c =>
      have hrest : [rangeLow low, rangeDash, rangeHigh high] <:+:
          items.flatMap BracketItem.glyphs ++ gs := by
        simpa [BracketItem.glyphs, List.infix_cons_iff, List.cons_prefix_cons] using h
      exact List.mem_cons_of_mem _ (ih hrest)
    | range first last =>
      have hcases : (low = first ∧ high = last) ∨ [rangeLow low, rangeDash, rangeHigh high] <:+:
          items.flatMap BracketItem.glyphs ++ gs := by
        simpa [BracketItem.glyphs, List.infix_cons_iff, List.cons_prefix_cons] using h
      rcases hcases with hrange | hrest
      · rw [hrange.1, hrange.2]
        exact List.mem_cons_self
      · exact List.mem_cons_of_mem _ (ih hrest)

theorem single_mem_of_mem {b : Bracket} {c : Char} (h : member c ∈ b.glyphs) :
    .single c ∈ b.items := by
  have hitem : ∃ i ∈ b.items, member c ∈ i.glyphs := by
    cases hnegated : b.negated <;> cases hclosed : b.closed <;>
      simpa [glyphs_bracket, hnegated, hclosed, List.mem_flatMap] using h
  obtain ⟨i, hi, hc⟩ := hitem
  cases i with
  | single d =>
    obtain rfl : c = d := by simpa [BracketItem.glyphs] using hc
    exact hi
  | range low high => simp [BracketItem.glyphs] at hc

/-- The glyphs of a bracket expression show its members. -/
theorem shows_iff (b : Bracket) (c : Char) : Shows b.glyphs c ↔ c ∈ b.members := by
  rw [Bracket.mem_members, Bracket.contains, List.any_eq_true]
  constructor
  · intro h
    rcases h with hmember | ⟨low, high, hwithin, hc⟩
    · exact ⟨_, single_mem_of_mem hmember, by simp [BracketItem.contains]⟩
    · have hclose : rangeLow low ∉ if b.closed then [bracketClose b] else [] := by
        split <;> simp
      have hitems : [rangeLow low, rangeDash, rangeHigh high] <:+:
          b.items.flatMap BracketItem.glyphs ++ if b.closed then [bracketClose b] else [] := by
        cases hnegated : b.negated <;>
          simpa [glyphs_bracket, hnegated, List.infix_cons_iff, List.cons_prefix_cons] using hwithin
      exact ⟨_, range_mem_of_infix hclose hitems, by simpa [BracketItem.contains] using hc⟩
  · intro h
    obtain ⟨i, hi, hc⟩ := h
    have hwithin : i.glyphs <:+: b.glyphs := by
      apply (List.infix_of_mem_flatten (List.mem_map_of_mem hi)).trans
      rw [← List.flatMap_def, glyphs_bracket]
      exact ⟨_, _, List.append_assoc _ _ _⟩
    cases i with
    | single d =>
      obtain rfl : c = d := by simpa [BracketItem.contains] using hc
      exact .inl (hwithin.mem List.mem_cons_self)
    | range low high => exact .inr ⟨low, high, hwithin, by simpa [BracketItem.contains] using hc⟩

theorem filterMap_bracket? (b : Bracket) :
    b.glyphs.filterMap bracket? = b :: if b.closed then [b] else [] := by
  have hitems : (b.items.flatMap BracketItem.glyphs).filterMap bracket? = [] := by
    apply List.filterMap_eq_nil_iff.mpr
    intro g hg
    obtain ⟨i, -, hg⟩ := List.mem_flatMap.mp hg
    cases i with
    | single c =>
      obtain rfl := List.mem_singleton.mp hg
      rfl
    | range low high =>
      simp only [BracketItem.glyphs, List.mem_cons, List.not_mem_nil, or_false] at hg
      rcases hg with rfl | rfl | rfl <;> rfl
  rw [glyphs_bracket, List.filterMap_append, List.filterMap_append, hitems]
  cases b.negated <;> cases b.closed <;> rfl

end Glyph
end RegexDiagram
