import RegexDiagram.Proofs.Language

/-!
The occurrences with which the words of a regex can open. Some of them can be passed over by whoever
looks for them along the branches in order and stops at the end: if a branch that comes first
matches nothing at all, the end is come to before the other branches are.
-/
namespace RegexDiagram

open Computability

section Opens

variable {α : Type} {L M : Language α} {o : α}

/-- Some word of a language opens with a letter. -/
def Opens (L : Language α) (o : α) : Prop := ∃ v, o :: v ∈ L

theorem opens_add : Opens (L + M) o ↔ Opens L o ∨ Opens M o := by
  simp only [Opens, Language.mem_add, exists_or]

theorem opens_one : ¬Opens (1 : Language α) o := by
  intro h
  obtain ⟨v, hv⟩ := h
  simp [Language.mem_one] at hv

theorem opens_mul (hM : ∃ v, v ∈ M) : Opens (L * M) o ↔ Opens L o ∨ [] ∈ L ∧ Opens M o := by
  constructor
  · intro h
    obtain ⟨v, hv⟩ := h
    obtain ⟨x, hx, y, hy, hxy⟩ := Language.mem_mul.mp hv
    cases x with
    | nil =>
      obtain rfl : y = o :: v := hxy
      exact .inr ⟨hx, v, hy⟩
    | cons o' x =>
      obtain ⟨rfl, -⟩ := List.cons.inj hxy
      exact .inl ⟨x, hx⟩
  · intro h
    rcases h with ⟨x, hx⟩ | ⟨hx, y, hy⟩
    · obtain ⟨y, hy⟩ := hM
      exact ⟨x ++ y, Language.append_mem_mul hx hy⟩
    · exact ⟨y, Language.append_mem_mul hx hy⟩

theorem opens_kstar : Opens L∗ o ↔ Opens L o := by
  constructor
  · intro h
    obtain ⟨v, hv⟩ := h
    obtain ⟨ws, hws, hmem⟩ := Language.mem_kstar_iff_exists_nonempty.mp hv
    cases ws with
    | nil => simp at hws
    | cons w ws =>
      obtain ⟨hw, hne⟩ := hmem w List.mem_cons_self
      obtain ⟨o', w, rfl⟩ := List.exists_cons_of_ne_nil hne
      obtain ⟨rfl, -⟩ := List.cons.inj hws
      exact ⟨w, hw⟩
  · intro h
    obtain ⟨v, hv⟩ := h
    exact ⟨v, le_kstar (a := L) hv⟩

theorem opens_apply (q : Quantifier) : Opens (q.apply L) o ↔ Opens L o := by
  cases q with
  | optional => simp only [Quantifier.apply, opens_add, opens_one, false_or]
  | star => exact opens_kstar
  | plus =>
    rw [Quantifier.apply, opens_mul ⟨[], Language.nil_mem_kstar L⟩, opens_kstar]
    exact or_iff_left_of_imp And.right

end Opens

namespace Tree

variable {l : Precedence}

/-- The occurrences that words open with. -/
def firsts : {l : Precedence} → Tree l → List Occurrence
  | _, value t v _ => [⟨some t.index, v⟩]
  | _, group _ _ _ _ body => body.firsts
  | _, quantified a _ _ _ _ => a.firsts
  | _, concat f g _ => if f.nullable then f.firsts ++ g.firsts else f.firsts
  | _, alternation e _ _ g => e.firsts ++ g.firsts

/--
Those that are come to before the end, if the end can be come to at all. Only a star comes back from
the end of its operand before it goes on.
-/
def gathered : {l : Precedence} → Tree l → List Occurrence
  | _, value t v _ => [⟨some t.index, v⟩]
  | _, group _ _ _ _ body => body.gathered
  | _, quantified a _ q _ _ => if q = .star then a.firsts else a.gathered
  | _, concat f g _ =>
      if f.nullable then
        if g.nullable then f.gathered ++ g.gathered else f.firsts ++ g.firsts
      else f.firsts
  | _, alternation e _ _ g => if e.nullable then e.gathered else e.firsts ++ g.gathered

theorem gathered_of_not_nullable (t : Tree l) (h : t.nullable = false) : t.gathered = t.firsts := by
  induction t with
  | value t v hv => rfl
  | group opening closing ho hc body ih => exact ih h
  | quantified a t q hq hl ih =>
    cases q with
    | plus => exact ih h
    | _ => simp [nullable] at h
  | concat f g hl ihf ihg =>
    cases hf : f.nullable <;> cases hg : g.nullable <;> simp_all [nullable, gathered, firsts]
  | alternation e t ht g ihe ihg =>
    rw [nullable, Bool.or_eq_false_iff] at h
    simp only [gathered, firsts, h.1, ihg h.2, Bool.false_eq_true, if_false]

theorem exists_word (t : Tree l) : ∃ u, u ∈ t.words := by
  induction t with
  | value t v hv => exact ⟨_, rfl⟩
  | group opening closing ho hc body ih => exact ih
  | quantified a t q hq hl ih =>
    obtain ⟨u, hu⟩ := ih
    cases q with
    | optional => exact ⟨u, (Language.mem_add _ _ _).mpr (.inr hu)⟩
    | star => exact ⟨[], Language.nil_mem_kstar _⟩
    | plus => exact ⟨u ++ [], Language.append_mem_mul hu (Language.nil_mem_kstar _)⟩
  | concat f g hl ihf ihg =>
    obtain ⟨u, hu⟩ := ihf
    obtain ⟨v, hv⟩ := ihg
    exact ⟨u ++ v, Language.append_mem_mul hu hv⟩
  | alternation e t ht g ihe ihg =>
    obtain ⟨u, hu⟩ := ihe
    exact ⟨u, (Language.mem_add _ _ _).mpr (.inl hu)⟩

theorem mem_firsts_iff (t : Tree l) (o : Occurrence) : o ∈ t.firsts ↔ Opens t.words o := by
  induction t with
  | value t v hv =>
    rw [firsts, List.mem_singleton, words_value]
    constructor
    · rintro rfl
      exact ⟨[], rfl⟩
    · intro h
      obtain ⟨w, hw⟩ := h
      exact (List.cons.inj hw).1
  | group opening closing ho hc body ih => exact ih
  | quantified a t q hq hl ih => exact ih.trans (opens_apply q).symm
  | concat f g hl ihf ihg =>
    rw [words_concat, opens_mul g.exists_word, ← nullable_iff, ← ihf, ← ihg, firsts]
    cases f.nullable <;> simp
  | alternation e t ht g ihe ihg =>
    rw [firsts, List.mem_append, ihe, ihg, words_alternation, opens_add]

end Tree

/-- What a walk from the start gathers in a whole regex. -/
def Expression.gathered : Expression → List Occurrence
  | none => []
  | some e => e.gathered

end RegexDiagram
