import RegexDiagram.Diagnostic
import RegexDiagram.Proofs.Parentheses

/-!
What the categories of diagnostics mean. A defect is a matter of its place among the pieces of a
regex: of which groups the place is in, of whether there is a value in front of it in the current
alternative, and of whether there is one behind it in its group. Of each place at most one defect
holds.
-/
namespace RegexDiagram

/-- A value that counts. A backslash with nothing after it does not. -/
def ValueAt (ps : List Piece) (k : Nat) : Prop :=
  ∃ v, ps[k]? = some (.value v) ∧ v ≠ .danglingEscape

def QuantifierAt (ps : List Piece) (k : Nat) : Prop := ∃ q, ps[k]? = some (.quantifier q)

/-- There is a value from one place up to another one, at any depth. -/
def ValueBetween (ps : List Piece) (i j : Nat) : Prop := ∃ k, i ≤ k ∧ k < j ∧ ValueAt ps k

/-- Two places are in the same groups. -/
def SameLevel (ps : List Piece) (i k : Nat) : Prop := ∀ x, Encloses ps x i ↔ Encloses ps x k

/-- The current alternative of a place starts behind the last alternation of its level or opening
parenthesis around it. -/
def Separates (ps : List Piece) (b k : Nat) : Prop :=
  Encloses ps b k ∨ (b < k ∧ ps[b]? = some .alternation ∧ SameLevel ps b k)

/-- The current alternative of a place has a value in front of the place. -/
def ValueBefore (ps : List Piece) (k : Nat) : Prop :=
  ∃ v, v < k ∧ ValueAt ps v ∧ ∀ b, Separates ps b k → b < v

/-- The group of a place, or the regex, has a value behind the place. -/
def ValueAfter (ps : List Piece) (k : Nat) : Prop :=
  ∃ v, k < v ∧ ValueAt ps v ∧ ∀ x, Encloses ps x k → Encloses ps x v

/-- The nearest place in front that counts is that of a quantifier. -/
def AfterQuantifier (ps : List Piece) (counts : Nat → Prop) (k : Nat) : Prop :=
  ∃ j, j < k ∧ QuantifierAt ps j ∧ counts j ∧ ∀ m, j < m → m < k → ¬counts m

/-- A place has a defect. For chains of quantifiers it has to be known which pieces count. -/
def Defect (ps : List Piece) (counts : Nat → Prop) (k : Nat) : Category → Prop
  | .openBracket => ∃ b, ps[k]? = some (.value (.bracket b)) ∧ b.closed = false
  | .danglingEscape => ps[k]? = some (.value .danglingEscape)
  | .openGroup => Unclosed ps k ∧ ValueBetween ps (k + 1) ps.length
  | .unopenedGroup => Unopened ps k
  | .quantifierChain => QuantifierAt ps k ∧ ValueBefore ps k ∧ AfterQuantifier ps counts k
  | .quantifierOfNothing => QuantifierAt ps k ∧ ¬ValueBefore ps k
  | .alternationAfterNothing => ps[k]? = some .alternation ∧ ¬ValueBefore ps k
  | .alternationBeforeNothing =>
      ps[k]? = some .alternation ∧ ValueBefore ps k ∧ ¬ValueAfter ps k
  | .emptyGroup => ∃ i, Matched ps i k ∧ ¬ValueBetween ps (i + 1) k
  | .emptyOpenGroup => Unclosed ps k ∧ ¬ValueBetween ps (k + 1) ps.length

/-- The categories of the defects that a piece can have. -/
def Piece.categories : Piece → List Category
  | value _ => [.openBracket, .danglingEscape]
  | quantifier _ => [.quantifierChain, .quantifierOfNothing]
  | alternation => [.alternationAfterNothing, .alternationBeforeNothing]
  | groupOpen => [.openGroup, .emptyOpenGroup]
  | groupClose => [.unopenedGroup, .emptyGroup]

namespace Defect

variable {ps : List Piece} {counts : Nat → Prop} {p : Piece} {k : Nat} {c d : Category}

theorem exists_piece (h : Defect ps counts k c) : ∃ p, ps[k]? = some p ∧ c ∈ p.categories := by
  cases c with
  | openBracket => exact h.elim fun b hb => ⟨_, hb.1, by simp [Piece.categories]⟩
  | danglingEscape => exact ⟨_, h, by simp [Piece.categories]⟩
  | unopenedGroup => exact ⟨_, h.closing, by simp [Piece.categories]⟩
  | quantifierChain | quantifierOfNothing =>
    exact h.1.elim fun q hq => ⟨_, hq, by simp [Piece.categories]⟩
  | alternationAfterNothing | alternationBeforeNothing =>
    exact ⟨_, h.1, by simp [Piece.categories]⟩
  | emptyGroup => exact h.elim fun i hi => ⟨_, hi.1.closing, by simp [Piece.categories]⟩
  | openGroup | emptyOpenGroup => exact ⟨_, h.1.opening, by simp [Piece.categories]⟩

theorem mem_categories (h : Defect ps counts k c) (hp : ps[k]? = some p) : c ∈ p.categories := by
  obtain ⟨q, hq, hc⟩ := h.exists_piece
  obtain rfl := Option.some.inj (hp.symm.trans hq)
  exact hc

theorem eq_or_eq {c₁ c₂ : Category} (h : Defect ps counts k c) (hp : ps[k]? = some p)
    (hcs : p.categories = [c₁, c₂]) : c = c₁ ∨ c = c₂ := by
  simpa [hcs] using h.mem_categories hp

theorem lt_length (h : Defect ps counts k c) : k < ps.length := by
  obtain ⟨p, hp, -⟩ := h.exists_piece
  exact (List.getElem?_eq_some_iff.mp hp).1

theorem unique (hc : Defect ps counts k c) (hd : Defect ps counts k d) : c = d := by
  obtain ⟨p, hp, hmem⟩ := hc.exists_piece
  have hmem' := hd.mem_categories hp
  cases p <;>
    simp only [Piece.categories, List.mem_cons, List.not_mem_nil, or_false] at hmem hmem' <;>
    rcases hmem with rfl | rfl <;> rcases hmem' with rfl | rfl <;>
    first | rfl | grind [Defect, Unopened]

end Defect

/-- The opening parenthesis of a pair has no defect. An empty pair is reported at the closing one.
-/
theorem Matched.not_defect {ps : List Piece} {counts : Nat → Prop} {i k : Nat} {c : Category}
    (h : Matched ps i k) : ¬Defect ps counts i c := by
  intro hd
  rcases hd.eq_or_eq h.opening rfl with rfl | rfl <;> exact hd.1.not_matched k h

section Places

variable {ps : List Piece} {p : Piece} {i j k b : Nat}

theorem ValueAt.lt_length (h : ValueAt ps k) : k < ps.length := by
  obtain ⟨v, hv, -⟩ := h
  exact (List.getElem?_eq_some_iff.mp hv).1

theorem not_valueAt (hp : ps[k]? = some p) (h : p.isValue = false) : ¬ValueAt ps k := by
  rintro ⟨v, hv, -⟩
  obtain rfl := Option.some.inj (hp.symm.trans hv)
  simp [Piece.isValue] at h

theorem not_valueBetween_self (ps : List Piece) (k : Nat) : ¬ValueBetween ps k k := by
  rintro ⟨v, hkv, hvk, -⟩
  omega

theorem valueBetween_succ (h : i ≤ k) :
    ValueBetween ps i (k + 1) ↔ ValueBetween ps i k ∨ ValueAt ps k := by
  constructor
  · rintro ⟨v, hiv, hvk, hv⟩
    rcases Nat.eq_or_lt_of_le (Nat.le_of_lt_succ hvk) with rfl | hlt
    · exact .inr hv
    · exact .inl ⟨v, hiv, hlt, hv⟩
  · rintro (⟨v, hiv, hvk, hv⟩ | hv)
    · exact ⟨v, hiv, Nat.lt_succ_of_lt hvk, hv⟩
    · exact ⟨k, h, Nat.lt_succ_self k, hv⟩

theorem valueBetween_split (hij : i ≤ j) (hjk : j < k) (hj : ¬ValueAt ps j) :
    ValueBetween ps i k ↔ ValueBetween ps i j ∨ ValueBetween ps (j + 1) k := by
  constructor
  · rintro ⟨v, hiv, hvk, hv⟩
    rcases Nat.lt_trichotomy v j with hlt | rfl | hlt
    · exact .inl ⟨v, hiv, hlt, hv⟩
    · exact absurd hv hj
    · exact .inr ⟨v, hlt, hvk, hv⟩
  · rintro (⟨v, hiv, hvj, hv⟩ | ⟨v, hjv, hvk, hv⟩)
    · exact ⟨v, hiv, Nat.lt_trans hvj hjk, hv⟩
    · exact ⟨v, by omega, hvk, hv⟩

theorem not_valueBefore_zero (ps : List Piece) : ¬ValueBefore ps 0 := by
  rintro ⟨v, hv, -⟩
  exact Nat.not_lt_zero v hv

theorem Separates.lt (h : Separates ps b k) : b < k := by
  rcases h with h | ⟨h, -⟩
  · exact h.lt
  · exact h

theorem not_valueBefore_succ (h : Separates ps k (k + 1)) : ¬ValueBefore ps (k + 1) := by
  rintro ⟨v, hvk, -, hseparates⟩
  have hlt := hseparates k h
  omega

theorem valueBefore_succ (hlevel : ∀ x, Encloses ps x (k + 1) ↔ Encloses ps x k)
    (hp : ps[k]? ≠ some .alternation) :
    ValueBefore ps (k + 1) ↔ ValueBefore ps k ∨ ValueAt ps k := by
  have hseparates (b : Nat) : Separates ps b (k + 1) ↔ Separates ps b k := by
    simp only [Separates, SameLevel, hlevel]
    refine or_congr_right ⟨fun ⟨hlt, hb, hsame⟩ => ⟨?_, hb, hsame⟩, fun ⟨hlt, hb, hsame⟩ =>
      ⟨Nat.lt_succ_of_lt hlt, hb, hsame⟩⟩
    have hne : b ≠ k := by
      rintro rfl
      exact hp hb
    omega
  simp only [ValueBefore, hseparates]
  constructor
  · rintro ⟨v, hvk, hv, hall⟩
    rcases Nat.eq_or_lt_of_le (Nat.le_of_lt_succ hvk) with rfl | hlt
    · exact .inr hv
    · exact .inl ⟨v, hlt, hv, hall⟩
  · rintro (⟨v, hvk, hv, hall⟩ | hv)
    · exact ⟨v, Nat.lt_succ_of_lt hvk, hv, hall⟩
    · exact ⟨k, Nat.lt_succ_self k, hv, fun b hb => hb.lt⟩

theorem Matched.valueBefore_behind (h : Matched ps i k) :
    ValueBefore ps (k + 1) ↔ ValueBefore ps i ∨ ValueBetween ps (i + 1) k := by
  have hseparates (b : Nat) : Separates ps b (k + 1) ↔ Separates ps b i := by
    simp only [Separates, SameLevel, h.encloses_behind]
    refine or_congr_right ⟨fun ⟨hlt, hb, hsame⟩ => ⟨?_, hb, hsame⟩, fun ⟨hlt, hb, hsame⟩ =>
      ⟨Nat.lt_succ_of_lt (Nat.lt_trans hlt h.lt), hb, hsame⟩⟩
    have hi : b ≠ i := by
      rintro rfl
      simp [h.opening] at hb
    have hk : b ≠ k := by
      rintro rfl
      simp [h.closing] at hb
    by_contra hle
    have hinside : Encloses ps i b := h.encloses.mono (by omega) (by omega)
    exact Nat.lt_irrefl i ((hsame i).mp hinside).lt
  have ho := not_valueAt h.opening rfl
  have hc := not_valueAt h.closing rfl
  have hlt := h.lt
  simp only [ValueBefore, hseparates]
  constructor
  · rintro ⟨v, hvk, hv, hall⟩
    have hvi : v ≠ i := fun heq => ho (heq ▸ hv)
    have hvk' : v ≠ k := fun heq => hc (heq ▸ hv)
    rcases Nat.lt_or_gt_of_ne hvi with hlt | hgt
    · exact .inl ⟨v, hlt, hv, hall⟩
    · exact .inr ⟨v, hgt, by omega, hv⟩
  · rintro (⟨v, hvi, hv, hall⟩ | ⟨v, hiv, hvk, hv⟩)
    · exact ⟨v, by omega, hv, hall⟩
    · refine ⟨v, by omega, hv, fun b hb => ?_⟩
      have hb := hb.lt
      omega

/-- A value behind a place and in front of another one of its level is in its group. -/
theorem ValueBetween.valueAfter (h : ValueBetween ps (i + 1) k) (hsame : SameLevel ps i k) :
    ValueAfter ps i := by
  obtain ⟨v, hiv, hvk, hv⟩ := h
  refine ⟨v, hiv, hv, fun x hx => ?_⟩
  exact ((hsame x).mp hx).mono (Nat.lt_trans hx.lt hiv) (Nat.le_of_lt hvk)

theorem Matched.valueAfter_iff (h : Matched ps i k) (hsame : SameLevel ps j k) :
    ValueAfter ps j ↔ ValueBetween ps (j + 1) k := by
  refine ⟨?_, fun hvalue => hvalue.valueAfter hsame⟩
  rintro ⟨v, hjv, hv, hall⟩
  have hle := (hall i ((hsame i).mpr h.encloses)).le k h
  have hne : v ≠ k := fun heq => not_valueAt h.closing rfl (heq ▸ hv)
  exact ⟨v, hjv, by omega, hv⟩

theorem valueAfter_iff_of_unclosed (h : ∀ x, Encloses ps x k → Unclosed ps x) :
    ValueAfter ps k ↔ ValueBetween ps (k + 1) ps.length := by
  constructor
  · rintro ⟨v, hkv, hv, -⟩
    exact ⟨v, hkv, hv.lt_length, hv⟩
  · rintro ⟨v, hkv, -, hv⟩
    exact ⟨v, hkv, hv, fun x hx => (h x hx).encloses (Nat.lt_trans hx.lt hkv)⟩

end Places

section AfterQuantifier

variable {ps : List Piece} {counts counts' : Nat → Prop} {k : Nat}

theorem not_afterQuantifier_zero (ps : List Piece) (counts : Nat → Prop) :
    ¬AfterQuantifier ps counts 0 := by
  rintro ⟨j, hj, -⟩
  exact Nat.not_lt_zero j hj

theorem afterQuantifier_succ : AfterQuantifier ps counts (k + 1) ↔
    (counts k ∧ QuantifierAt ps k) ∨ (¬counts k ∧ AfterQuantifier ps counts k) := by
  constructor
  · rintro ⟨j, hjk, hj, hcounts, hbetween⟩
    rcases Nat.eq_or_lt_of_le (Nat.le_of_lt_succ hjk) with rfl | hlt
    · exact .inl ⟨hcounts, hj⟩
    · exact .inr ⟨hbetween k hlt (Nat.lt_succ_self k), j, hlt, hj, hcounts,
        fun m hjm hmk => hbetween m hjm (Nat.lt_succ_of_lt hmk)⟩
  · rintro (⟨hcounts, hk⟩ | ⟨hcounts, j, hjk, hj, hcounts', hbetween⟩)
    · exact ⟨k, Nat.lt_succ_self k, hk, hcounts, fun m hkm hmk => by omega⟩
    · refine ⟨j, Nat.lt_succ_of_lt hjk, hj, hcounts', fun m hjm hmk => ?_⟩
      rcases Nat.eq_or_lt_of_le (Nat.le_of_lt_succ hmk) with rfl | hlt
      · exact hcounts
      · exact hbetween m hjm hlt

theorem AfterQuantifier.congr (h : AfterQuantifier ps counts k)
    (hcounts : ∀ m < k, counts m ↔ counts' m) : AfterQuantifier ps counts' k := by
  obtain ⟨j, hjk, hj, hj', hbetween⟩ := h
  exact ⟨j, hjk, hj, (hcounts j hjk).mp hj',
    fun m hjm hmk hm => hbetween m hjm hmk ((hcounts m hmk).mpr hm)⟩

theorem defect_congr {c : Category} (hcounts : ∀ m < k, counts m ↔ counts' m) :
    Defect ps counts k c ↔ Defect ps counts' k c := by
  cases c with
  | quantifierChain =>
    refine and_congr_right' (and_congr_right' ⟨(·.congr hcounts), (·.congr fun m hm => ?_)⟩)
    exact (hcounts m hm).symm
  | _ => exact Iff.rfl

end AfterQuantifier
end RegexDiagram
