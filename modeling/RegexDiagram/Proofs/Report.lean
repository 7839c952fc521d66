import Mathlib.Data.List.Induction
import Mathlib.Data.List.Perm.Basic
import RegexDiagram.Diagnostic

/-!
Gathering findings into a report. Each category that occurs among the findings has one diagnostic,
with the positions of all findings of the category, so that the report has all positions and no
others. Recording the findings one after the other, with a count for each category, comes to the
same.
-/
namespace RegexDiagram.Diagnostic

/-- The positions that a report gives for a category. -/
def positionsOf (c : Category) (ds : List Diagnostic) : List Nat :=
  (ds.filter (·.category = c)).flatMap (·.positions)

theorem filter_leading (fs : List Finding) (c : Category) :
    (leading fs).filter (·.category = c) = (fs.find? (·.category = c)).toList := by
  induction fs with
  | nil => rfl
  | cons f fs ih =>
    rw [leading]
    by_cases hf : f.category = c
    · have hnone :
          ((leading fs).filter (·.category ≠ f.category)).filter (·.category = c) = [] := by
        simp [List.filter_filter, hf]
      rw [List.filter_cons_of_pos (by simpa using hf), hnone,
        List.find?_cons_of_pos (by simpa using hf), Option.toList_some]
    · have hsame : ((leading fs).filter (·.category ≠ f.category)).filter (·.category = c) =
          (leading fs).filter (·.category = c) := by
        rw [List.filter_filter]
        refine List.filter_congr fun g _ => ?_
        by_cases hg : g.category = c <;> simp [hg, Ne.symm hf]
      rw [List.filter_cons_of_neg (by simpa using hf), hsame, ih,
        List.find?_cons_of_neg (by simpa using hf)]

theorem positionsOf_report (fs : List Finding) (c : Category) :
    positionsOf c (report fs) = (fs.filter (·.category = c)).map (·.pos) := by
  have hpositions : positionsOf c (report fs) = ((leading fs).filter (·.category = c)).flatMap
      fun g => (fs.filter (·.category = g.category)).map (·.pos) := by
    simp [positionsOf, report, List.filter_map, List.flatMap_map, Function.comp_def, ofFindings]
  rw [hpositions, filter_leading]
  cases hfind : fs.find? (·.category = c) with
  | none =>
    have hnone : fs.filter (·.category = c) = [] := by
      simpa [List.filter_eq_nil_iff] using hfind
    simp [hnone]
  | some f =>
    have hf : f.category = c := by simpa using List.find?_some hfind
    simp [hf]

theorem nodup_categories_leading (fs : List Finding) : ((leading fs).map (·.category)).Nodup := by
  induction fs with
  | nil => exact List.nodup_nil
  | cons f fs ih =>
    rw [leading, List.map_cons, List.nodup_cons]
    exact ⟨by simp, (List.filter_sublist.map _).nodup ih⟩

theorem mem_categories_leading {fs : List Finding} {f : Finding} (hf : f ∈ fs) :
    f.category ∈ (leading fs).map (·.category) := by
  induction fs with
  | nil => simp at hf
  | cons g fs ih =>
    by_cases hg : f.category = g.category
    · simp [leading, hg]
    · rcases List.mem_cons.mp hf with rfl | hf
      · exact absurd rfl hg
      · obtain ⟨e, he, hcategory⟩ := List.mem_map.mp (ih hf)
        refine List.mem_map.mpr ⟨e, List.mem_cons_of_mem g ?_, hcategory⟩
        simpa [he, hcategory] using hg

/-- Rows of distinct categories have each finding of the categories once. -/
theorem flatMap_filter_perm {cs : List Category} (hcs : cs.Nodup) {fs : List Finding}
    (hfs : ∀ f ∈ fs, f.category ∈ cs) :
    (cs.flatMap fun c => fs.filter (·.category = c)).Perm fs := by
  induction cs generalizing fs with
  | nil =>
    have hnil : fs = [] := List.eq_nil_iff_forall_not_mem.mpr fun f hf => by simpa using hfs f hf
    rw [hnil]
    exact .nil
  | cons c cs ih =>
    obtain ⟨hc, hcs⟩ := List.nodup_cons.mp hcs
    have hrest : (cs.flatMap fun d => fs.filter (·.category = d)) = cs.flatMap fun d =>
        (fs.filter fun f => !decide (f.category = c)).filter (·.category = d) := by
      refine List.flatMap_congr fun d hd => ?_
      rw [List.filter_filter]
      refine List.filter_congr fun f _ => ?_
      have hne : d ≠ c := fun heq => hc (heq ▸ hd)
      by_cases hf : f.category = d <;> simp [hf, hne]
    rw [List.flatMap_cons, hrest]
    refine ((ih hcs fun f hf => ?_).append_left _).trans (List.filter_append_perm _ fs)
    obtain ⟨hf, hne⟩ := List.mem_filter.mp hf
    exact (List.mem_cons.mp (hfs f hf)).resolve_left (by simpa using hne)

theorem positions_report_perm (fs : List Finding) :
    ((report fs).flatMap (·.positions)).Perm (fs.map (·.pos)) := by
  have hreport : (report fs).flatMap (·.positions) = (((leading fs).map (·.category)).flatMap
      fun c => fs.filter (·.category = c)).map (·.pos) := by
    simp [report, ofFindings, List.flatMap_map, List.map_flatMap]
  rw [hreport]
  exact (flatMap_filter_perm (nodup_categories_leading fs) fun f => mem_categories_leading).map _

theorem total_eq (ds : List Diagnostic) : total ds = (ds.flatMap (·.positions)).length := by
  induction ds with
  | nil => rfl
  | cons d ds ih => rw [total, ih, List.flatMap_cons, List.length_append, count]

theorem total_report (fs : List Finding) : total (report fs) = fs.length := by
  rw [total_eq, (positions_report_perm fs).length_eq, List.length_map]

theorem total_report_filter (fs : List Finding) (c : Category) :
    total ((report fs).filter (·.category = c)) = (fs.filter (·.category = c)).length := by
  rw [total_eq, ← positionsOf, positionsOf_report, List.length_map]

/-- A diagnostic that grows with each occurrence: it counts one more and adds a position. -/
structure Tally where
  category : Category
  label : List Char
  count : Nat
  positions : List Nat

namespace Tally

/-- The tally of a category of which the finding is the first. -/
def first (f : Finding) : Tally := ⟨f.category, f.label.getD f.category.label.toList, 1, [f.pos]⟩

/-- Records one occurrence in the tally of its category, or in a new one behind all others. -/
def record (f : Finding) : List Tally → List Tally
  | [] => [first f]
  | t :: ts =>
      if t.category = f.category then
        { t with count := t.count + 1, positions := t.positions ++ [f.pos] } :: ts
      else t :: record f ts

/-- The tallies of findings that are recorded one after the other. -/
def recordAll (fs : List Finding) : List Tally := fs.foldl (fun ts f => record f ts) []

end Tally

def tally (d : Diagnostic) : Tally := ⟨d.category, d.label, d.count, d.positions⟩

variable {fs gs : List Finding} {f g : Finding}

theorem leading_concat (fs : List Finding) (f : Finding) :
    leading (fs ++ [f]) =
      leading fs ++ if ∃ g ∈ fs, g.category = f.category then [] else [f] := by
  induction fs with
  | nil => simp [leading]
  | cons g fs ih =>
    by_cases hg : g.category = f.category
    · simp [leading, ih, hg, apply_ite]
    · by_cases hfs : ∃ h ∈ fs, h.category = f.category <;>
        simp [leading, ih, hfs, hg, Ne.symm hg]

theorem mem_of_mem_leading (h : g ∈ leading fs) : g ∈ fs := by
  induction fs with
  | nil => exact h
  | cons e fs ih =>
    rcases List.mem_cons.mp h with rfl | h
    · exact List.mem_cons_self
    · exact List.mem_cons_of_mem e (ih (List.mem_filter.mp h).1)

theorem ofFindings_concat (h : g.category ≠ f.category) :
    ofFindings g (fs ++ [f]) = ofFindings g fs := by
  simp [ofFindings, h.symm]

theorem record_tally (fs : List Finding) (f : Finding) (hgs : (gs.map (·.category)).Nodup) :
    Tally.record f (gs.map fun g => tally (ofFindings g fs)) =
      gs.map (fun g => tally (ofFindings g (fs ++ [f]))) ++
        if ∃ g ∈ gs, g.category = f.category then [] else [Tally.first f] := by
  induction gs with
  | nil => simp [Tally.record]
  | cons g gs ih =>
    rw [List.map_cons, List.nodup_cons] at hgs
    rw [List.map_cons, Tally.record]
    by_cases hg : g.category = f.category
    · have hrest : gs.map (fun g => tally (ofFindings g (fs ++ [f]))) =
          gs.map fun g => tally (ofFindings g fs) :=
        List.map_congr_left fun h hh => by
          rw [ofFindings_concat fun heq => hgs.1 (List.mem_map.mpr ⟨h, hh, heq.trans hg.symm⟩)]
      rw [List.map_cons, hrest]
      simp [tally, ofFindings, count, hg]
    · have hne : ¬(tally (ofFindings g fs)).category = f.category := hg
      rw [if_neg hne, ih hgs.2, List.map_cons, ofFindings_concat hg]
      simp [hg]

theorem exists_mem_leading :
    (∃ g ∈ leading fs, g.category = f.category) ↔ ∃ g ∈ fs, g.category = f.category := by
  constructor
  · rintro ⟨g, hg, heq⟩
    exact ⟨g, mem_of_mem_leading hg, heq⟩
  · rintro ⟨g, hg, heq⟩
    rw [← heq]
    exact List.mem_map.mp (mem_categories_leading hg)

/-- Recording findings one after the other comes to gathering them all at once. -/
theorem recordAll_eq (fs : List Finding) : Tally.recordAll fs = (report fs).map tally := by
  induction fs using List.reverseRecOn with
  | nil => rfl
  | append_singleton fs f ih =>
    have hrecord := record_tally fs f (nodup_categories_leading fs)
    simp only [exists_mem_leading] at hrecord
    rw [Tally.recordAll, List.foldl_concat, ← Tally.recordAll, ih, report, List.map_map,
      Function.comp_def, hrecord, report, leading_concat, List.map_append, List.map_append,
      List.map_map, Function.comp_def]
    congr 1
    split
    · rfl
    · rename_i hnone
      have hnil : fs.filter (·.category = f.category) = [] := by
        simpa [List.filter_eq_nil_iff] using hnone
      simp [tally, Tally.first, ofFindings, count, hnil]

end RegexDiagram.Diagnostic
