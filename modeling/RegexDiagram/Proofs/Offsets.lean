import RegexDiagram.Proofs.Coordinates

/-!
The offsets of the branches of a fork. Branches are stacked without gaps: from the middle of one to
the middle of the next it is half of the one and half of the other, so that the bands of neighbours
touch and no bands overlap. However uneven the heights are, the fork is in the middle between the
first branch and the last one, and no offset is finer than a quarter.
-/
namespace RegexDiagram.Fork

/-- A branch of some height with its middle at an offset from the fork. -/
structure Band where
  height : Nat
  offset : Rat

namespace Band

def top (p : Band) : Rat := p.offset - p.height / 2

def bottom (p : Band) : Rat := p.offset + p.height / 2

end Band

/-- The bands of the branches of a fork, from top to bottom. -/
def bands (heights : List Nat) : List Band :=
  heights.mapIdx fun b h => ⟨h, (offset? heights b).getD 0⟩

/-- Bands on top of each other, with the fork in the middle. -/
structure Stacked (ps : List Band) : Prop where
  step : ps.IsChain fun p q => q.offset - p.offset = ((p.height : Rat) + q.height) / 2
  increasing : ps.Pairwise fun p q => p.offset < q.offset
  touching : ps.IsChain fun p q => p.bottom = q.top
  apart : ps.Pairwise fun p q => p.bottom ≤ q.top
  opposite : ps.getLast?.map (·.offset) = ps.head?.map fun p => -p.offset
  quarters : ∀ p ∈ ps, OnGrid p.offset

variable {heights : List Nat} {b b' : Nat}

theorem offset?_eq_none (h : heights.length ≤ b) : offset? heights b = none := by
  simp [offset?, offsetQuarters?, h]

theorem between_succ (heights : List Nat) (b : Nat) : between heights b (b + 1) = 0 := by
  rw [between, List.drop_eq_nil_of_le (List.length_take_le ..)]
  rfl

@[simp] theorem length_bands (heights : List Nat) : (bands heights).length = heights.length := by
  simp [bands]

@[simp] theorem map_height_bands (heights : List Nat) :
    (bands heights).map (·.height) = heights := by
  apply List.ext_getElem?
  intro b
  rw [bands, List.getElem?_map, List.getElem?_mapIdx, Option.map_map]
  exact Option.map_id'

theorem offset?_eq (heights : List Nat) (b : Nat) :
    offset? heights b = (bands heights)[b]?.map (·.offset) := by
  rw [bands, List.getElem?_mapIdx, Option.map_map]
  by_cases hb : b < heights.length
  · obtain ⟨dy, hdy⟩ := Layout.offset?_isSome hb
    simp [List.getElem?_eq_getElem hb, hdy]
  · have hle : heights.length ≤ b := Nat.le_of_not_lt hb
    rw [offset?_eq_none hle, List.getElem?_eq_none hle, Option.map_none]

theorem getElem?_bands {p : Band} (hp : (bands heights)[b]? = some p) :
    heights[b]? = some p.height ∧ offset? heights b = some p.offset := by
  constructor
  · rw [← map_height_bands heights, List.getElem?_map, hp, Option.map_some]
  · rw [offset?_eq, hp, Option.map_some]

theorem offset_sub_offset {p q : Band} (hp : (bands heights)[b]? = some p)
    (hq : (bands heights)[b']? = some q) (hlt : b < b') :
    q.offset - p.offset = ((p.height : Rat) + q.height) / 2 + between heights b b' := by
  obtain ⟨hheight, hoffset⟩ := getElem?_bands hp
  obtain ⟨hheight', hoffset'⟩ := getElem?_bands hq
  have hquarters := four_mul_offset_sub hheight hheight' hlt hoffset hoffset'
  linarith

theorem step_bands (heights : List Nat) :
    (bands heights).IsChain fun p q => q.offset - p.offset = ((p.height : Rat) + q.height) / 2 := by
  rw [List.isChain_iff_getElem]
  intro b hb
  have hsub := offset_sub_offset (List.getElem?_eq_getElem (Nat.lt_of_succ_lt hb))
    (List.getElem?_eq_getElem hb) (Nat.lt_succ_self b)
  rwa [between_succ, Nat.cast_zero, add_zero] at hsub

theorem apart_bands (heights : List Nat) :
    (bands heights).Pairwise fun p q => p.bottom ≤ q.top := by
  rw [List.pairwise_iff_getElem]
  intro b b' hb hb' hlt
  have hsub := offset_sub_offset (List.getElem?_eq_getElem hb) (List.getElem?_eq_getElem hb') hlt
  have hbetween : (0 : Rat) ≤ between heights b b' := Nat.cast_nonneg _
  rw [Band.bottom, Band.top]
  linarith

theorem increasing_bands (hpos : ∀ h ∈ heights, 0 < h) :
    (bands heights).Pairwise fun p q => p.offset < q.offset := by
  apply (apart_bands heights).imp_of_mem
  intro p q hp hq hle
  have hpositive : ∀ p ∈ bands heights, (0 : Rat) < p.height := by
    intro p hp
    have hmem := List.mem_map_of_mem (f := (·.height)) hp
    rw [map_height_bands] at hmem
    exact_mod_cast hpos _ hmem
  have hfirst := hpositive p hp
  have hsecond := hpositive q hq
  rw [Band.bottom, Band.top] at hle
  linarith

theorem opposite_bands (heights : List Nat) :
    (bands heights).getLast?.map (·.offset) = (bands heights).head?.map fun p => -p.offset := by
  by_cases hne : heights = []
  · subst hne
    rfl
  · obtain ⟨dy, hfirst, hlast⟩ := exists_offset_ends hne
    rw [offset?_eq, Option.map_eq_some_iff] at hfirst
    obtain ⟨p, hp, hoffset⟩ := hfirst
    rw [List.getLast?_eq_getElem?, length_bands, ← offset?_eq, hlast, List.head?_eq_getElem?, hp,
      Option.map_some, hoffset, neg_neg]

/--
Branches of positive heights are stacked symmetrically. The offsets of neighbours differ by half of
the sum of their heights, so that the offsets increase and the bands of neighbours touch, and no
bands overlap; the first and the last offset are opposite; and all offsets are quarters.
-/
theorem bands_stacked (heights : List Nat) (hpos : ∀ h ∈ heights, 0 < h) :
    (bands heights).map (·.height) = heights ∧
      (∀ b, offset? heights b = (bands heights)[b]?.map (·.offset)) ∧
      Stacked (bands heights) := by
  refine ⟨map_height_bands heights, offset?_eq heights, step_bands heights, increasing_bands hpos,
    ?touching, apart_bands heights, opposite_bands heights, ?quarters⟩
  case touching =>
    apply (step_bands heights).imp
    intro p q hstep
    rw [Band.bottom, Band.top]
    linarith
  case quarters =>
    intro p hp
    obtain ⟨b, hb⟩ := List.mem_iff_getElem?.mp hp
    exact onGrid_offset (getElem?_bands hb).2

/-- A fork of three uneven branches. -/
theorem bands_stacked_uneven :
    (∀ h ∈ [3, 1, 2], 0 < h) ∧
      (bands [3, 1, 2]).map (·.offset) = [-(7 / 4), 1 / 4, 7 / 4] ∧
      (bands [3, 1, 2]).map (·.height) = [3, 1, 2] ∧
      (∀ b, offset? [3, 1, 2] b = (bands [3, 1, 2])[b]?.map (·.offset)) ∧
      Stacked (bands [3, 1, 2]) := by
  have hpos : ∀ h ∈ [3, 1, 2], 0 < h := by decide
  exact ⟨hpos, by decide +kernel, bands_stacked _ hpos⟩

end RegexDiagram.Fork
