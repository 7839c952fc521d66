import RegexDiagram.Automaton

/-!
The stack of construction. Every fragment on it has an entry and ends, and all of them are nodes of
it. Each operation keeps that, so that marking and linking the ends never misses a node.
-/
namespace RegexDiagram

namespace Fragment

/-- The ends of a fragment are nodes of it. -/
structure WellFormed (f : Fragment) : Prop where
  entry : f.drawnEntry < f.nodes.length
  terminals : ∀ x ∈ f.terminals, x < f.nodes.length
  drawnTerminals : ∀ x ∈ f.drawnTerminals, x < f.nodes.length
  ends : f.terminals ≠ []
  drawnEnds : f.drawnTerminals ≠ []

@[simp] theorem length_leadTo (target : Nat) (terminals : List Nat) (nodes : List Node) :
    (leadTo target terminals nodes).length = nodes.length := List.length_mapIdx

@[simp] theorem length_tag (q : Quantifier) (f : Fragment) :
    (f.tag q).length = f.nodes.length := by
  unfold tag
  cases f.drawnTerminals <;> simp

theorem single_wellFormed (n : Node) (extent : Operand) : (single n extent).WellFormed where
  entry := Nat.one_pos
  terminals := by simp [single]
  drawnTerminals := by simp [single]
  ends := by simp [single]
  drawnEnds := by simp [single]

variable {f g : Fragment} {t : Token}

theorem concat_wellFormed (hf : f.WellFormed) (hg : g.WellFormed) : (f.concat g).WellFormed where
  entry := by
    have := hf.entry
    simp only [concat, List.length_append, length_leadTo, List.length_modify, List.length_map]
    omega
  terminals := by
    simpa [concat] using hg.terminals
  drawnTerminals := by
    simpa [concat] using hg.drawnTerminals
  ends := by simpa [concat] using hg.ends
  drawnEnds := by simpa [concat] using hg.drawnEnds

theorem optional_wellFormed (hf : f.WellFormed) : (f.optional t).WellFormed where
  entry := by
    have := hf.entry
    simp [optional]
    omega
  terminals := by
    simpa [optional, or_imp, forall_and, Nat.add_comm 1] using hf.terminals
  drawnTerminals := by
    simpa [optional, Nat.add_comm 1] using hf.drawnTerminals
  ends := by simp [optional]
  drawnEnds := by simpa [optional] using hf.drawnEnds

theorem star_wellFormed (hf : f.WellFormed) : (f.star t).WellFormed where
  entry := by
    have := hf.entry
    simp [star]
    omega
  terminals := by simp [star]
  drawnTerminals := by simpa [star, Nat.add_comm 1] using hf.drawnTerminals
  ends := by simp [star]
  drawnEnds := by simpa [star] using hf.drawnEnds

theorem plus_wellFormed (hf : f.WellFormed) : (f.plus t).WellFormed where
  entry := by
    have := hf.entry
    simp [plus]
    omega
  terminals := by simp [plus]
  drawnTerminals x hx := by
    have := hf.drawnTerminals x hx
    simp [plus]
    omega
  ends := by simp [plus]
  drawnEnds := by simpa [plus] using hf.drawnEnds

theorem quantify_wellFormed (q : Quantifier) (hf : f.WellFormed) : (f.quantify t q).WellFormed := by
  cases q with
  | optional => exact optional_wellFormed hf
  | star => exact star_wellFormed hf
  | plus => exact plus_wellFormed hf

theorem enclose_wellFormed (last pos : Nat) (f : Fragment) :
    (f.enclose t last pos).WellFormed where
  entry := by simp [enclose]
  terminals := by simp [enclose]; omega
  drawnTerminals := by simp [enclose]; omega
  ends := by simp [enclose]
  drawnEnds := by simp [enclose]

theorem mem_shifted {xs ys : List Nat} {k m n : Nat} (hx : ∀ x ∈ xs, x < m) (hy : ∀ y ∈ ys, y < n) :
    ∀ x ∈ xs.map (k + ·) ++ ys.map (k + m + ·), x < k + m + n := by
  intro x hmem
  rcases List.mem_append.mp hmem with hmem | hmem
  · obtain ⟨y, h, rfl⟩ := List.mem_map.mp hmem
    have := hx y h
    omega
  · obtain ⟨y, h, rfl⟩ := List.mem_map.mp hmem
    have := hy y h
    omega

theorem alternate_wellFormed {r : Fragment} (hf : f.WellFormed) (hg : g.WellFormed)
    (h : f.alternate t g = some r) : r.WellFormed := by
  unfold alternate at h
  split at h
  · simp at h
  · obtain rfl := Option.some.inj h
    have hpos := hf.entry
    cases hfork : f.fork? with
    | none =>
      have hlength : (branchOff t f g).length = 1 + f.nodes.length + g.nodes.length := by
        simp [branchOff]
        omega
      simp only [Option.isSome_none, Bool.false_eq_true, if_false]
      refine ⟨?_, ?_, ?_, ?_, ?_⟩
      · show 0 < (branchOff t f g).length
        omega
      · rw [hlength]
        exact mem_shifted hf.terminals hg.terminals
      · rw [hlength]
        exact mem_shifted hf.drawnTerminals hg.drawnTerminals
      · simpa using fun h => absurd h hf.ends
      · simpa using fun h => absurd h hf.drawnEnds
    | some fork =>
      have hlength : (addBranch t fork f g).length = 0 + f.nodes.length + g.nodes.length := by
        simp [addBranch]
        omega
      simp only [Option.isSome_some, if_true]
      refine ⟨?_, ?_, ?_, ?_, ?_⟩
      · show 0 < (addBranch t fork f g).length
        omega
      · rw [hlength]
        exact mem_shifted hf.terminals hg.terminals
      · rw [hlength]
        exact mem_shifted hf.drawnTerminals hg.drawnTerminals
      · simpa using fun h => absurd h hf.ends
      · simpa using fun h => absurd h hf.drawnEnds

end Fragment

namespace Construction

open Fragment

variable {lexemes : List Lexeme} {stack stack' : List Fragment}

theorem wellFormed_of_enclose {t : Token} {f r : Fragment}
    (h : Construction.enclose lexemes t f = .ok r) : r.WellFormed := by
  unfold Construction.enclose at h
  split at h
  · simp at h
  · split at h
    · simp at h
    · obtain rfl := Except.ok.inj h
      exact enclose_wellFormed _ _ f

theorem evaluate_wellFormed {t : Token} {spans : List Span} (h : ∀ f ∈ stack, f.WellFormed)
    (hstep : evaluate lexemes t stack = .ok (stack', spans)) : ∀ f ∈ stack', f.WellFormed := by
  fun_cases evaluate lexemes t stack with
  | case1 v _ hv =>
    simp only [evaluate, hv, Except.ok.injEq, Prod.mk.injEq] at hstep
    obtain ⟨rfl, -⟩ := hstep
    exact List.forall_mem_cons.mpr ⟨single_wellFormed _ _, h⟩
  | case2 q f stack hq =>
    simp only [List.forall_mem_cons] at h
    simp only [evaluate, hq, Except.ok.injEq, Prod.mk.injEq] at hstep
    obtain ⟨rfl, -⟩ := hstep
    exact List.forall_mem_cons.mpr ⟨quantify_wellFormed q h.1, h.2⟩
  | case3 g f stack ht r hr =>
    simp only [List.forall_mem_cons] at h
    simp only [evaluate, ht, hr, Except.ok.injEq, Prod.mk.injEq] at hstep
    obtain ⟨rfl, -⟩ := hstep
    exact List.forall_mem_cons.mpr ⟨alternate_wellFormed h.2.1 h.1 hr, h.2.2⟩
  | case4 g f stack ht hr => simp [evaluate, ht, hr] at hstep
  | case5 f stack ht =>
    simp only [List.forall_mem_cons] at h
    simp only [evaluate, ht] at hstep
    cases he : Construction.enclose lexemes t f with
    | error e => simp [he, Except.map] at hstep
    | ok r =>
      simp only [he, Except.map, Except.ok.injEq, Prod.mk.injEq] at hstep
      obtain ⟨rfl, -⟩ := hstep
      exact List.forall_mem_cons.mpr ⟨wellFormed_of_enclose he, h.2⟩
  | case6 => simp_all [evaluate]
  | case7 => simp_all [evaluate]

/-- One symbol keeps the fragments well formed. -/
theorem step_wellFormed {s : Symbol} {spans : List Span} (h : ∀ f ∈ stack, f.WellFormed)
    (hstep : step lexemes stack s = .ok (stack', spans)) : ∀ f ∈ stack', f.WellFormed := by
  cases s with
  | token t => exact evaluate_wellFormed h hstep
  | concat =>
    match stack, h with
    | g :: f :: stack, h =>
      simp only [List.forall_mem_cons] at h
      obtain ⟨rfl, -⟩ := Prod.mk.inj (Except.ok.inj hstep)
      exact List.forall_mem_cons.mpr ⟨concat_wellFormed h.2.1 h.1, h.2.2⟩
  | first => simp [step] at hstep
  | last => simp [step] at hstep

theorem run_wellFormed {symbols : List Symbol} (h : ∀ f ∈ stack, f.WellFormed)
    (hrun : (run lexemes stack symbols).outcome = .ok stack') : ∀ f ∈ stack', f.WellFormed := by
  induction symbols generalizing stack with
  | nil =>
    obtain rfl := Except.ok.inj hrun
    exact h
  | cons s rest ih =>
    cases hs : step lexemes stack s with
    | error e => simp [run, hs] at hrun
    | ok r =>
      simp only [run, hs, Built.note] at hrun
      exact ih (step_wellFormed h hs) hrun

theorem exists_run_of_append {xs ys : List Symbol}
    (h : (run lexemes stack (xs ++ ys)).outcome = .ok stack') :
    ∃ s, (run lexemes stack xs).outcome = .ok s := by
  induction xs generalizing stack with
  | nil => exact ⟨stack, rfl⟩
  | cons s rest ih =>
    cases hs : step lexemes stack s with
    | error e => simp [run, hs] at h
    | ok r =>
      simp only [List.cons_append, run, hs, Built.note] at h ⊢
      exact ih h

end Construction
end RegexDiagram
