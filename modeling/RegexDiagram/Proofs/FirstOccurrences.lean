import Mathlib.Data.List.Nodup

/-!
Lists from which later repetitions are removed, so that each item stands where it first occurs.
-/
namespace RegexDiagram

variable {α : Type} [DecidableEq α] {as bs : List α}

theorem nodup_eraseDups (as : List α) : as.eraseDups.Nodup := by
  match as with
  | [] => simp
  | a :: as =>
    rw [List.eraseDups_cons, List.nodup_cons]
    constructor
    · simp [List.mem_eraseDups]
    · exact nodup_eraseDups _
termination_by as.length
decreasing_by exact Nat.lt_succ_of_le (List.length_filter_le _ _)

theorem eraseDups_of_nodup (h : as.Nodup) : as.eraseDups = as := by
  induction as with
  | nil => simp
  | cons a as ih =>
    obtain ⟨ha, has⟩ := List.nodup_cons.mp h
    have hfilter : as.filter (fun b => !b == a) = as := by
      apply List.filter_eq_self.mpr
      intro b hb
      simpa using ne_of_mem_of_not_mem hb ha
    rw [List.eraseDups_cons, hfilter, ih has]

theorem eraseDups_append_of_nodup (h : as.Nodup) (bs : List α) :
    (as ++ bs).eraseDups = as ++ (bs.filter (· ∉ as)).eraseDups := by
  rw [List.eraseDups_append, eraseDups_of_nodup h, List.removeAll]
  simp

end RegexDiagram
