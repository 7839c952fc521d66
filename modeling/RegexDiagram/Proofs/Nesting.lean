import Mathlib.Order.Bounds.Defs
import Mathlib.Data.Set.Operations
import RegexDiagram.Proofs.Blueprint
import RegexDiagram.Proofs.Defect

/-!
Parentheses of a part of a row. What encloses what, and which parentheses match, is the same in a
row and in a part of it; a balanced part ends at the level it starts at. The pieces of a syntax tree
are balanced, and an alternation in them that does not belong to the tree itself is in a group of
the tree. So the alternatives of a level can be told by their places: an alternative goes on up to
the next alternation of its level, or up to the end of the level.
-/
namespace RegexDiagram

section Parts

variable {pre ps post qs : List Piece} {p : Piece} {i j k m : Nat}

theorem getElem?_middle (pre post : List Piece) (h : k < ps.length) :
    (pre ++ ps ++ post)[pre.length + k]? = ps[k]? := by
  rw [List.append_assoc, List.getElem?_append_right (Nat.le_add_right _ _), Nat.add_sub_cancel_left,
    List.getElem?_append_left h]

theorem height_middle (pre post : List Piece) (h : k ≤ ps.length) :
    height (pre ++ ps ++ post) (pre.length + k) = height pre pre.length + height ps k := by
  rw [List.append_assoc, height_append, height_append, Nat.add_sub_cancel_left,
    Nat.sub_eq_zero_of_le h, height_zero, height_of_length_le (Nat.le_add_right _ _), Int.add_zero]

theorem above_middle (pre post : List Piece) (h : k ≤ ps.length) :
    (∀ m, pre.length + i < m → m ≤ pre.length + k →
        height (pre ++ ps ++ post) (pre.length + i) < height (pre ++ ps ++ post) m) ↔
      ∀ m, i < m → m ≤ k → height ps i < height ps m := by
  constructor
  · intro habove m him hmk
    have hm := habove (pre.length + m) (by omega) (by omega)
    rw [height_middle pre post (by omega), height_middle pre post (by omega)] at hm
    omega
  · intro habove m him hmk
    obtain ⟨n, rfl⟩ := Nat.exists_eq_add_of_le (show pre.length ≤ m by omega)
    have hn := habove n (by omega) (by omega)
    rw [height_middle pre post (by omega), height_middle pre post (by omega)]
    omega

theorem encloses_middle (pre post : List Piece) (h : k ≤ ps.length) :
    Encloses (pre ++ ps ++ post) (pre.length + i) (pre.length + k) ↔ Encloses ps i k := by
  have habove := above_middle pre post (i := i) h
  constructor
  · intro hx
    have hlt : i < k := Nat.lt_of_add_lt_add_left hx.lt
    have ho := hx.opening
    rw [getElem?_middle pre post (Nat.lt_of_lt_of_le hlt h)] at ho
    exact encloses_of_above ho hlt (habove.mp fun _ => hx.above)
  · intro hx
    have ho := hx.opening
    rw [← getElem?_middle pre post (Nat.lt_of_lt_of_le hx.lt h)] at ho
    exact encloses_of_above ho (Nat.add_lt_add_left hx.lt _) (habove.mpr fun _ => hx.above)

theorem Encloses.append_right (h : Encloses ps i k) (hk : k ≤ ps.length) (post : List Piece) :
    Encloses (ps ++ post) i k := by
  simpa using (encloses_middle [] post hk).mpr h

theorem Encloses.append_left (h : Encloses ps i k) (hk : k ≤ ps.length) (pre : List Piece) :
    Encloses (pre ++ ps) (pre.length + i) (pre.length + k) := by
  simpa using (encloses_middle pre [] hk).mpr h

theorem Matched.middle (h : Matched ps i j) (pre post : List Piece) :
    Matched (pre ++ ps ++ post) (pre.length + i) (pre.length + j) := by
  obtain ⟨hheight, habove⟩ := h.heights
  have hlt := h.lt
  have hj : j < ps.length := (List.getElem?_eq_some_iff.mp h.closing).1
  have ho := (getElem?_middle pre post (Nat.lt_trans hlt hj)).trans h.opening
  have hc := (getElem?_middle pre post hj).trans h.closing
  refine matched_of_heights ho hc (Nat.add_lt_add_left hlt _) ?_
    ((above_middle pre post (Nat.le_of_lt hj)).mpr habove)
  rw [height_middle pre post (by omega), height_middle pre post (by omega)]
  omega

theorem Balanced.matched (h : Balanced ps) :
    Matched (.groupOpen :: (ps ++ [.groupClose])) 0 (ps.length + 1) where
  opening := rfl
  closing := by simp
  lt := Nat.succ_pos _
  inside := by
    rw [List.take_succ_cons, List.take_left, Nat.zero_add, List.drop_one, List.tail_cons]
    exact h

theorem Balanced.append (hp : Balanced ps) (hq : Balanced qs) : Balanced (ps ++ qs) := by
  induction hp with
  | nil => exact hq
  | other ho hc _ ih => exact .other ho hc ih
  | group hp _ _ ih =>
    rw [List.cons_append, List.append_assoc, List.cons_append]
    exact .group hp ih

theorem SameLevel.symm (h : SameLevel ps i k) : SameLevel ps k i := fun x => (h x).symm

theorem SameLevel.trans (h : SameLevel ps i j) (h' : SameLevel ps j k) : SameLevel ps i k :=
  fun x => (h x).trans (h' x)

theorem sameLevel_succ (hp : ps[k]? = some p) (hrise : p.rise = 0) : SameLevel ps k (k + 1) := by
  have hheight : height ps (k + 1) = height ps k := by rw [height_succ hp, hrise, Int.add_zero]
  have hopen : p ≠ .groupOpen := by
    rintro rfl
    simp [Piece.rise] at hrise
  intro x
  rw [encloses_succ hp, hheight]
  simp only [hopen, and_false, or_false]
  exact ⟨fun hx => ⟨hx, hx.above hx.lt (Nat.le_refl k)⟩, And.left⟩

theorem Balanced.sameLevel (h : Balanced ps) (pre post : List Piece) :
    SameLevel (pre ++ ps ++ post) pre.length (pre.length + ps.length) := by
  obtain ⟨hend, hnonneg⟩ := h.heights
  have hstart := height_middle pre post (Nat.zero_le ps.length)
  have hstop := height_middle pre post (Nat.le_refl ps.length)
  rw [Nat.add_zero, height_zero] at hstart
  intro x
  constructor
  · intro hx
    have hbelow := hx.above hx.lt (Nat.le_refl _)
    apply encloses_of_above hx.opening (Nat.lt_of_lt_of_le hx.lt (Nat.le_add_right _ _))
    intro m hxm hm
    rcases Nat.le_total m pre.length with hle | hle
    · exact hx.above hxm hle
    · obtain ⟨n, rfl⟩ := Nat.exists_eq_add_of_le hle
      have hn := hnonneg n
      rw [height_middle pre post (by omega)]
      omega
  · intro hx
    refine hx.mono ?_ (Nat.le_add_right _ _)
    by_contra hle
    obtain ⟨n, rfl⟩ := Nat.exists_eq_add_of_le (Nat.le_of_not_lt hle)
    have hlt := hx.lt
    have habove := hx.above hx.lt (Nat.le_refl _)
    have hn := hnonneg n
    rw [height_middle pre post (by omega)] at habove
    omega

end Parts

/-! ## Alternatives -/

/-- An alternative ends at a place: it is an alternation of the level of `k`, or that level ends
there. -/
def EndsAlternative (ps : List Piece) (k m : Nat) : Prop :=
  m = ps.length ∨
    SameLevel ps m k ∧ (ps[m]? = some .alternation ∨ ps[m]? = some .groupClose)

/-- A level starts behind these pieces. -/
def StartsLevel (pre : List Piece) : Prop := ∀ p ∈ pre.getLast?, p = .groupOpen

/-- An alternative that comes before these pieces ends with them. -/
def LeavesAlternative (post : List Piece) : Prop :=
  ∀ p ∈ post.head?, p = .alternation ∨ p = .groupClose

/-- An alternation of some pieces, or the end of a group of them, is in a group of them. -/
def Grouped (ps : List Piece) : Prop :=
  ∀ k, ps[k]? = some .alternation ∨ ps[k]? = some .groupClose → ∃ x, Encloses ps x k

section Alternatives

variable {pre ps post : List Piece}

theorem isLeast_sameLevel (h : Balanced ps) (hpre : StartsLevel pre) (post : List Piece) :
    IsLeast {m | SameLevel (pre ++ ps ++ post) m (pre.length + ps.length)} pre.length := by
  refine ⟨h.sameLevel pre post, fun m hm => ?_⟩
  rcases List.eq_nil_or_concat pre with rfl | ⟨front, p, rfl⟩
  · exact Nat.zero_le m
  · rw [List.concat_eq_append] at hpre hm ⊢
    obtain rfl : p = .groupOpen := hpre p (by simp)
    have hgroup : Encloses (.groupOpen :: ps) 0 (ps.length + 1) := by
      refine encloses_of_above rfl (Nat.succ_pos _) fun n hn _ => ?_
      obtain ⟨n, rfl⟩ := Nat.exists_eq_add_one_of_ne_zero (Nat.ne_of_gt hn)
      have hnonneg := h.heights.2 n
      rw [height_zero, height_cons_succ, Piece.rise]
      omega
    have hrow : front ++ [Piece.groupOpen] ++ ps ++ post = front ++ (.groupOpen :: ps) ++ post := by
      simp
    have hplace : (front ++ [Piece.groupOpen]).length + ps.length =
        front.length + (ps.length + 1) := by
      simp only [List.length_append, List.length_singleton]
      omega
    have hencloses := (encloses_middle front post (i := 0) (by simp)).mpr hgroup
    rw [Set.mem_ofPred_eq, hrow, hplace] at hm
    have hlt := ((hm _).mpr hencloses).lt
    rw [List.length_append, List.length_singleton]
    exact hlt

theorem isLeast_endsAlternative (h : Balanced ps) (hgrouped : Grouped ps)
    (hpost : LeavesAlternative post) (pre : List Piece) :
    IsLeast {m | pre.length < m ∧
        EndsAlternative (pre ++ .alternation :: (ps ++ post)) pre.length m}
      (pre.length + 1 + ps.length) := by
  have hrow : pre ++ .alternation :: (ps ++ post) = pre ++ [.alternation] ++ ps ++ post := by simp
  have hfront : (pre ++ [Piece.alternation]).length = pre.length + 1 := by simp
  have halternation : (pre ++ .alternation :: (ps ++ post))[pre.length]? = some .alternation := by
    simp
  have hnext := sameLevel_succ halternation rfl
  have hend := h.sameLevel (pre ++ [.alternation]) post
  rw [← hrow, hfront] at hend
  refine ⟨⟨by omega, ?_⟩, fun m ⟨hlt, hm⟩ => ?_⟩
  · cases post with
    | nil =>
      refine .inl ?_
      simp only [List.append_nil, List.length_append, List.length_cons]
      omega
    | cons p post =>
      refine .inr ⟨(hnext.trans hend).symm, ?_⟩
      have hp : (pre ++ .alternation :: (ps ++ p :: post))[pre.length + 1 + ps.length]? =
          some p := by
        rw [hrow, List.append_assoc, ← hfront, List.getElem?_append_right (Nat.le_add_right _ _),
          Nat.add_sub_cancel_left]
        simp
      rw [hp]
      exact (hpost p rfl).imp (congrArg some) (congrArg some)
  · by_contra hbefore
    obtain ⟨n, rfl⟩ := Nat.exists_eq_add_of_le (show pre.length + 1 ≤ m by omega)
    have hn : n < ps.length := by omega
    have hplace : (pre ++ .alternation :: (ps ++ post))[pre.length + 1 + n]? = ps[n]? := by
      rw [hrow, ← hfront]
      exact getElem?_middle _ post hn
    rcases hm with hm | ⟨hsame, hm⟩
    · simp only [List.length_append, List.length_cons] at hm
      omega
    · rw [hplace] at hm
      obtain ⟨x, hx⟩ := hgrouped n hm
      have hencloses := (encloses_middle (pre ++ [.alternation]) post (Nat.le_of_lt hn)).mpr hx
      rw [← hrow, hfront] at hencloses
      have hback := ((hsame _).mp hencloses).lt
      omega

end Alternatives

/-! ## Syntax trees -/

namespace Tree

variable {l : Precedence}

theorem balanced (t : Tree l) : Balanced (t.tokens.map Token.piece) := by
  have hother (tok : Token) (ho : tok.piece ≠ .groupOpen) (hc : tok.piece ≠ .groupClose) :
      Balanced [tok.piece] := .other ho hc .nil
  induction t with
  | value tok v hv => exact hother tok (by simp [hv]) (by simp [hv])
  | group opening closing ho hc body ih =>
    simp only [tokens, List.map_cons, List.map_append, List.map_nil, ho, hc]
    exact .group ih .nil
  | quantified a tok q hq hl ih =>
    rw [tokens, List.map_append]
    exact ih.append (hother tok (by simp [hq]) (by simp [hq]))
  | concat f g hl ihf ihg =>
    rw [tokens, List.map_append]
    exact ihf.append ihg
  | alternation e tok ht g ihe ihg =>
    rw [tokens, List.map_append, List.map_cons, ht]
    exact ihe.append (.other (by simp) (by simp) ihg)

theorem exists_encloses (t : Tree l) {k : Nat}
    (hk : (t.tokens.map Token.piece)[k]? = some .groupClose ∨
      (t.tokens.map Token.piece)[k]? = some .alternation ∧ t.isChoice = false) :
    ∃ x, Encloses (t.tokens.map Token.piece) x k := by
  have hlt : k < (t.tokens.map Token.piece).length :=
    hk.elim (fun h => (List.getElem?_eq_some_iff.mp h).1)
      fun h => (List.getElem?_eq_some_iff.mp h.1).1
  induction t generalizing k with
  | value tok v hv =>
    obtain rfl : k = 0 := by simpa [tokens] using hlt
    simp [tokens, hv] at hk
  | group opening closing ho hc body _ =>
    have hmatched := body.balanced.matched
    simp only [tokens, List.map_cons, List.map_append, List.map_nil, ho, hc] at hk hlt ⊢
    refine ⟨0, hmatched.encloses.mono (Nat.pos_of_ne_zero ?_) ?_⟩
    · rintro rfl
      simp at hk
    · simp only [List.length_cons, List.length_append, List.length_nil] at hlt
      omega
  | quantified a tok q hq hl ih =>
    simp only [tokens, List.map_append, List.map_cons, List.map_nil, hq] at hk hlt ⊢
    rcases Nat.lt_or_ge k (a.tokens.map Token.piece).length with hka | hka
    · rw [List.getElem?_append_left hka] at hk
      obtain ⟨x, hx⟩ := ih (hk.imp_right fun h => ⟨h.1, a.isChoice_of_ne (by simp)⟩) hka
      exact ⟨x, hx.append_right (Nat.le_of_lt hka) _⟩
    · obtain rfl : k = (a.tokens.map Token.piece).length := by
        simp only [List.length_append, List.length_singleton] at hlt
        omega
      simp at hk
  | concat f g hl ihf ihg =>
    simp only [tokens, List.map_append] at hk hlt ⊢
    rcases Nat.lt_or_ge k (f.tokens.map Token.piece).length with hkf | hkf
    · rw [List.getElem?_append_left hkf] at hk
      obtain ⟨x, hx⟩ := ihf (hk.imp_right fun h => ⟨h.1, f.isChoice_of_ne (by simp)⟩) hkf
      exact ⟨x, hx.append_right (Nat.le_of_lt hkf) _⟩
    · obtain ⟨n, rfl⟩ := Nat.exists_eq_add_of_le hkf
      rw [List.getElem?_append_right hkf, Nat.add_sub_cancel_left] at hk
      have hn : n < (g.tokens.map Token.piece).length := by
        simp only [List.length_append] at hlt
        omega
      obtain ⟨x, hx⟩ := ihg (hk.imp_right fun h => ⟨h.1, g.isChoice_of_ne (by simp)⟩) hn
      exact ⟨_, hx.append_left (Nat.le_of_lt hn) _⟩
  | alternation e tok ht g ihe ihg =>
    have hclose := hk.resolve_right fun h => by simp [isChoice] at h
    simp only [tokens, List.map_append, List.map_cons, ht] at hclose hlt ⊢
    rcases Nat.lt_or_ge k (e.tokens.map Token.piece).length with hke | hke
    · rw [List.getElem?_append_left hke] at hclose
      obtain ⟨x, hx⟩ := ihe (.inl hclose) hke
      exact ⟨x, hx.append_right (Nat.le_of_lt hke) _⟩
    · rw [List.append_cons] at hclose hlt ⊢
      rcases Nat.eq_or_lt_of_le hke with rfl | hke
      · simp at hclose
      · have hfront : (e.tokens.map Token.piece ++ [Piece.alternation]).length ≤ k := by
          simpa using Nat.succ_le_of_lt hke
        obtain ⟨n, rfl⟩ := Nat.exists_eq_add_of_le hfront
        rw [List.getElem?_append_right hfront, Nat.add_sub_cancel_left] at hclose
        have hn : n < (g.tokens.map Token.piece).length := by
          simp only [List.length_append, List.length_singleton] at hlt ⊢
          omega
        obtain ⟨x, hx⟩ := ihg (.inl hclose) hn
        exact ⟨_, hx.append_left (Nat.le_of_lt hn) _⟩

theorem grouped_of_term (g : Tree .term) : Grouped (g.tokens.map Token.piece) := fun _ hk =>
  g.exists_encloses (hk.symm.imp_right fun h => ⟨h, g.isChoice_of_ne (by simp)⟩)

end Tree
end RegexDiagram
