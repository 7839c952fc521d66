import RegexDiagram.Proofs.Regions

/-!
The protocol of a run. After the initial step come running steps and then one that ends the run,
and every step hands on different value nodes. That a step which does not end the run has a node to
hand on is a matter of the automaton: from a node that accepts there is a way to `last`, and what
the way comes to first is a value or `last` itself, where the run would have succeeded. A run on a
longer input starts with the same steps, as only the last step looks at whether the input is over.
-/
namespace RegexDiagram

namespace RunStep

/-- What a step becomes if there is more input behind the character that it consumed. -/
def goOn (more : List Char) (s : RunStep) : RunStep :=
  if s.state = .endOfString ∧ more ≠ [] then { s with state := .running } else s

theorem goOn_nil (s : RunStep) : s.goOn [] = s := by
  unfold goOn
  rw [if_neg]
  intro h
  exact h.2 rfl

theorem goOn_of_ne {s : RunStep} (h : s.state ≠ .endOfString) (more : List Char) :
    s.goOn more = s := by
  unfold goOn
  rw [if_neg]
  intro h'
  exact h h'.1

end RunStep

namespace Advance

variable (r : Advance) {more : List Char}

theorem state_toStep_false : (r.toStep false).state ≠ .endOfString := by
  unfold toStep
  split <;> simp

theorem state_toStep_true : (r.toStep true).state ≠ .running := by
  unfold toStep
  split <;> simp

theorem state_toStep (isLast : Bool) : (r.toStep isLast).state ≠ .starting := by
  unfold toStep
  split
  · simp
  · simp
  · cases isLast <;> simp

theorem goOn_toStep_true (h : more ≠ []) : (r.toStep true).goOn more = r.toStep false := by
  cases r with
  | complete node => exact RunStep.goOn_of_ne (by simp [toStep]) more
  | spread accepting next =>
    cases accepting with
    | nil => exact RunStep.goOn_of_ne (by simp [toStep]) more
    | cons i accepting => simp [toStep, RunStep.goOn, h]

end Advance

namespace Automaton

variable {a : Automaton} {visited : NodeSet} {stack current accepting next : List Nat} {i j : Nat}
  {c : Char} {s : RunStep}

/-- A step of a run hands on different value nodes. What it has besides is a matter of its state. -/
structure Proper (a : Automaton) (s : RunStep) : Prop where
  distinct : s.next.Nodup
  values : ∀ i ∈ s.next, a.IsValue i
  ongoing : s.state = .running ∨ s.state = .endOfString → s.accepting ≠ [] ∧ s.next ≠ []
  success : s.state = .success → (∃ i, s.accepting = [i]) ∧ s.next = []
  failure : s.state = .failure → s.accepting = [] ∧ s.next = []

theorem nodup_walk_found : (a.walk visited stack).found.Nodup := by
  fun_induction walk a visited stack with
  | case1 => exact List.nodup_nil
  | case2 visited i stack hv ih => exact ih
  | case3 visited i stack hv hi n hn => exact List.nodup_nil
  | case4 visited i stack hv hi n hn hvalue ih =>
    show (i :: (a.walk (visited.insert i) stack).found).Nodup
    apply List.nodup_cons.mpr
    refine ⟨?_, ih⟩
    intro hmem
    obtain ⟨-, hnew, -⟩ := mem_walk_found.mp hmem
    exact hnew (by simp)
  | case5 visited i stack hv hi n hn hvalue ih => exact ih
  | case6 visited i stack hv hi ih => exact ih

theorem nodup_advance (h : a.advance c visited current = .ok (.spread accepting next)) :
    next.Nodup ∧ ∀ j ∈ next, ¬visited.contains j = true ∧ a.IsValue j := by
  induction current generalizing visited accepting next with
  | nil =>
    obtain ⟨rfl, rfl⟩ : accepting = [] ∧ next = [] := by simpa [advance, eq_comm] using h
    exact ⟨List.nodup_nil, by simp⟩
  | cons i rest ih =>
    unfold advance at h
    split at h
    · cases h
    split at h
    · cases h
    rename_i n hn _ v hv
    by_cases hc : v.accepts c = true
    · by_cases hw : (a.walk visited n.targets).reached = true
      · simp [hc, hw] at h
      · simp only [hc, hw, if_true, Bool.false_eq_true, if_false] at h
        cases hr : a.advance c (a.walk visited n.targets).visited rest with
        | error e => simp [hr, Except.map] at h
        | ok r =>
          cases r with
          | complete node => simp [hr, Except.map, Advance.cons] at h
          | spread accepting' next' =>
            obtain ⟨rfl, rfl⟩ : i :: accepting' = accepting ∧
                (a.walk visited n.targets).found ++ next' = next := by
              simpa [hr, Except.map, Advance.cons] using h
            obtain ⟨hnodup, hfresh⟩ := ih hr
            constructor
            · apply List.nodup_append.mpr
              refine ⟨nodup_walk_found, hnodup, ?_⟩
              intro j hj m hm heq
              exact (hfresh m hm).1 (heq ▸ (mem_walk_found.mp hj).1)
            · intro j hj
              rcases List.mem_append.mp hj with hj | hj
              · exact (mem_walk_found.mp hj).2
              · obtain ⟨hnew, hvalue⟩ := hfresh j hj
                exact ⟨fun hmark => hnew (contains_walk_of_contains hmark), hvalue⟩
    · rw [if_neg hc] at h
      exact ih h

theorem step_of_values (hcurrent : ∀ i ∈ current, a.IsValue i) (input : List Char) (p : Nat) :
    a.step current input p = match input[p]? with
      | none => .ok { state := .failure }
      | some c => a.consume current c (p + 1 = input.length) := by
  have hrange : current.find? (a.nodes.size ≤ ·) = none := by
    apply List.find?_eq_none.mpr
    intro i hi
    have := Expression.lt_size_of_isValue (hcurrent i hi)
    simp only [decide_eq_true_eq]
    omega
  unfold step
  rewrite [hrange]
  rfl

theorem step_eq_consume (hcurrent : ∀ i ∈ current, a.IsValue i) {input : List Char} {p : Nat}
    (hc : input[p]? = some c) :
    a.step current input p = a.consume current c (p + 1 = input.length) := by
  rw [step_of_values hcurrent, hc]

/-- Behind every value comes another one, or `last`. -/
structure Progressing (a : Automaton) : Prop where
  inRange : a.InRange
  leads : ∀ i, a.IsValue i → ∃ j, a.Leads i j ∧ (a.IsValue j ∨ a.IsLast j)

/-- On the way to `last` the first node that is no control node is a value, or it is `last`. -/
theorem exists_silent_of_reaches (h : a.Reaches i j) (hj : a.IsLast j) :
    ∃ m, a.Silent i m ∧ (a.IsValue m ∨ a.IsLast m) := by
  induction h using Relation.ReflTransGen.head_induction_on with
  | refl => exact ⟨j, .refl, .inr hj⟩
  | @head i m he _ ih =>
    cases hread : a.occurrence? i with
    | some o => exact ⟨i, .refl, .inl (isValue_of_occurrence? hread)⟩
    | none =>
      obtain ⟨k, hk, hend⟩ := ih
      exact ⟨k, .head ⟨control_of_occurrence? he hread, he⟩ hk, hend⟩

theorem proper_of_spread (ha : a.Progressing) (hcurrent : ∀ i ∈ current, a.IsValue i)
    (hadvance : a.advance c {} current = .ok (.spread accepting next))
    (h : a.Spreads c current accepting next) (isLast : Bool) :
    a.Proper ((Advance.spread accepting next).toStep isLast) := by
  cases accepting with
  | nil => constructor <;> simp [Advance.toStep]
  | cons i accepting =>
    obtain ⟨hnodup, hfound⟩ := nodup_advance hadvance
    have hi : a.IsValue i := hcurrent i ((h.accepted i).mp List.mem_cons_self).1
    have hnext : next ≠ [] := by
      obtain ⟨j, hlead, hj⟩ := ha.leads i hi
      rcases hj with hj | hj
      · exact List.ne_nil_of_mem ((h.followed j).mpr ⟨hj, i, List.mem_cons_self, hlead⟩)
      · exact absurd hlead (h.unfinished i List.mem_cons_self j hj)
    refine ⟨hnodup, fun j hj => (hfound j hj).2, fun _ => ⟨by simp [Advance.toStep], hnext⟩, ?_, ?_⟩
    · cases isLast <;> simp [Advance.toStep]
    · cases isLast <;> simp [Advance.toStep]

/-- Consuming a character is a proper step, whether or not it is the last one. -/
theorem exists_advance (ha : a.Progressing) (hcurrent : ∀ i ∈ current, a.IsValue i) (c : Char) :
    ∃ r, a.advance c {} current = .ok r ∧ ∀ isLast, a.Proper (r.toStep isLast) := by
  rcases advance_cases ha.inRange c (closed_empty a) hcurrent with
    ⟨i, -, hadvance, -⟩ | ⟨accepting, next, marked, hadvance, hmarks⟩
  · refine ⟨_, hadvance, fun isLast => ?_⟩
    constructor <;> simp [Advance.toStep]
  · exact ⟨_, hadvance, proper_of_spread ha hcurrent hadvance hmarks.spreads⟩

/-- The steps that consume an input. -/
structure Orderly (a : Automaton) (input : List Char) (steps : List RunStep) : Prop where
  begun : input ≠ [] → steps ≠ []
  bounded : steps.length ≤ input.length
  running : ∀ s ∈ steps.dropLast, s.state = .running
  ended : ∀ s, steps.getLast? = some s → s.state.isTerminal = true
  exhausted : ∀ p s, steps[p]? = some s → s.state = .endOfString → p + 1 = input.length
  proper : ∀ s ∈ steps, a.Proper s

variable {rest input more : List Char} {steps steps' : List RunStep} {r : Advance}

theorem Orderly.single (hproper : a.Proper s) (hs : s.state.isTerminal = true)
    (hend : s.state = .endOfString → rest = []) : a.Orderly (c :: rest) [s] where
  begun _ := by simp
  bounded := by simp
  running := by simp
  ended t ht := by
    obtain rfl : s = t := by simpa using ht
    exact hs
  exhausted p t ht hstate := by
    cases p with
    | zero =>
      obtain rfl : s = t := by simpa using ht
      simp [hend hstate]
    | succ p => simp at ht
  proper := by simpa using hproper

theorem Orderly.cons (h : a.Orderly rest steps) (hproper : a.Proper s) (hs : s.state = .running)
    (hrest : rest ≠ []) : a.Orderly (c :: rest) (s :: steps) where
  begun _ := by simp
  bounded := by
    have := h.bounded
    simp only [List.length_cons]
    omega
  running t ht := by
    rw [List.dropLast_cons_of_ne_nil (h.begun hrest)] at ht
    rcases List.mem_cons.mp ht with rfl | ht
    · exact hs
    · exact h.running t ht
  ended t ht := by
    rw [List.getLast?_cons_of_ne_nil (h.begun hrest)] at ht
    exact h.ended t ht
  exhausted p t ht hstate := by
    cases p with
    | zero =>
      obtain rfl : s = t := by simpa using ht
      simp [hs] at hstate
    | succ p =>
      have := h.exhausted p t (by simpa using ht) hstate
      simp only [List.length_cons]
      omega
  proper := List.forall_mem_cons.mpr ⟨hproper, h.proper⟩

theorem follow_cons (h : a.advance c {} current = .ok r) (rest : List Char) :
    a.follow current (c :: rest) =
      if (r.toStep rest.isEmpty).state.isTerminal then .ok [r.toStep rest.isEmpty]
      else (a.follow (r.toStep rest.isEmpty).next rest).map (r.toStep rest.isEmpty :: ·) := by
  rw [follow, consume, h]
  rfl

theorem exists_of_follow_cons (h : a.follow current (c :: rest) = .ok steps) :
    ∃ r tail, a.advance c {} current = .ok r ∧ steps = r.toStep rest.isEmpty :: tail ∧
      if (r.toStep rest.isEmpty).state.isTerminal then tail = []
      else a.follow (r.toStep rest.isEmpty).next rest = .ok tail := by
  cases hadvance : a.advance c {} current with
  | error e => simp [follow, consume, hadvance, Except.map, Except.bind] at h
  | ok r =>
    rw [follow_cons hadvance] at h
    by_cases hs : (r.toStep rest.isEmpty).state.isTerminal = true
    · rw [if_pos hs] at h
      exact ⟨r, [], rfl, (Except.ok.inj h).symm, by rw [if_pos hs]⟩
    · rw [if_neg hs] at h
      cases hfollow : a.follow (r.toStep rest.isEmpty).next rest with
      | error e => simp [hfollow, Except.map] at h
      | ok tail =>
        rw [hfollow] at h
        exact ⟨r, tail, rfl, (Except.ok.inj h).symm, by rwa [if_neg hs]⟩

theorem state_of_not_isTerminal (isLast : Bool)
    (h : ¬(r.toStep isLast).state.isTerminal = true) : (r.toStep isLast).state = .running := by
  have hstart := r.state_toStep isLast
  cases hs : (r.toStep isLast).state <;> simp_all [RunState.isTerminal]

theorem exists_orderly (ha : a.Progressing) (hcurrent : ∀ i ∈ current, a.IsValue i)
    (input : List Char) : ∃ steps, a.follow current input = .ok steps ∧ a.Orderly input steps := by
  induction input generalizing current with
  | nil => exact ⟨[], rfl, by constructor <;> simp⟩
  | cons c rest ih =>
    obtain ⟨r, hadvance, hproper⟩ := exists_advance ha hcurrent c
    rw [follow_cons hadvance]
    by_cases hs : (r.toStep rest.isEmpty).state.isTerminal = true
    · refine ⟨[r.toStep rest.isEmpty], if_pos hs, .single (hproper _) hs ?_⟩
      intro hend
      cases rest with
      | nil => rfl
      | cons d rest => exact absurd hend r.state_toStep_false
    · have hrunning := state_of_not_isTerminal rest.isEmpty hs
      have hrest : rest ≠ [] := by
        rintro rfl
        exact r.state_toStep_true hrunning
      obtain ⟨steps, hsteps, horderly⟩ := ih (hproper rest.isEmpty).values
      refine ⟨_ :: steps, ?_, horderly.cons (hproper _) hrunning hrest⟩
      rw [if_neg hs, hsteps]
      rfl

theorem follow_append (h : a.follow current input = .ok steps)
    (h' : a.follow current (input ++ more) = .ok steps') :
    steps.map (·.goOn more) <+: steps' := by
  by_cases hmore : more = []
  · subst hmore
    rw [List.append_nil, h] at h'
    obtain rfl := Except.ok.inj h'
    rw [List.map_congr_left fun s _ => s.goOn_nil, List.map_id']
  induction input generalizing current steps steps' with
  | nil =>
    obtain rfl : [] = steps := Except.ok.inj h
    exact List.nil_prefix
  | cons c rest ih =>
    obtain ⟨r, tail, hadvance, rfl, htail⟩ := exists_of_follow_cons h
    rw [List.cons_append] at h'
    obtain ⟨r', tail', hadvance', rfl, htail'⟩ := exists_of_follow_cons h'
    obtain rfl := Except.ok.inj (hadvance.symm.trans hadvance')
    have hempty : (rest ++ more).isEmpty = false := by simp [hmore]
    rw [hempty] at htail' ⊢
    rw [List.map_cons, List.cons_prefix_cons]
    cases rest with
    | nil =>
      obtain rfl : tail = [] := by
        split at htail
        · exact htail
        · exact (Except.ok.inj htail).symm
      exact ⟨r.goOn_toStep_true hmore, List.nil_prefix⟩
    | cons d rest =>
      refine ⟨RunStep.goOn_of_ne r.state_toStep_false more, ?_⟩
      by_cases hs : (r.toStep false).state.isTerminal = true
      · obtain rfl : tail = [] := by simpa [hs] using htail
        exact List.nil_prefix
      · exact ih (by simpa [hs] using htail) (by simpa [hs] using htail')

end Automaton

namespace Expression

open Automaton

theorem progressing (A : Expression) : A.automaton.Progressing where
  inRange := A.inRange
  leads i hi := by
    have hne : i ≠ A.lastAt := by
      rintro rfl
      obtain ⟨n, v, -, -, ho⟩ := hi.exists_occurrence
      simp [A.occurrence?_last] at ho
    rcases (A.reaches_last (lt_size_of_isValue hi)).cases_head with heq | ⟨m, he, hm⟩
    · exact absurd heq hne
    · obtain ⟨j, hj, hend⟩ := exists_silent_of_reaches hm ((A.isLast_iff _).mpr rfl)
      exact ⟨j, ⟨m, he, hj⟩, hend⟩

end Expression

namespace Automaton

/-- The step before any character is consumed. -/
structure Initial (a : Automaton) (s : RunStep) : Prop where
  starting : s.state = .starting
  first : ∃ i n, s.accepting = [i] ∧ a.nodes[i]? = some n ∧ n.kind = .first
  proper : a.Proper s

end Automaton

theorem Expression.initial (A : Expression) : A.automaton.Initial A.automaton.start where
  starting := rfl
  first := ⟨0, _, rfl, A.first_node, rfl⟩
  proper := by
    refine ⟨Automaton.nodup_walk_found, ?_, ?_, ?_, ?_⟩
    · intro i hi
      exact (Automaton.mem_walk_found.mp hi).2.2
    all_goals simp [Automaton.start]

/--
The protocol of a run on any input for any regex. Behind the initial step come the steps that
consume the input, each of them proper, and on a longer input there are the same steps first.
-/
theorem run_keeps_protocol (source input : List Char) :
    ∃ c steps, compile source = .ok c ∧
      c.automaton.run input = .ok (c.automaton.start :: steps) ∧
      c.automaton.Initial c.automaton.start ∧ c.automaton.Orderly input steps ∧
      ∀ more, ∃ steps', c.automaton.run (input ++ more) = .ok steps' ∧
        (c.automaton.start :: steps).map (·.goOn more) <+: steps' := by
  obtain ⟨c, A, hcompile, hA⟩ := exists_compile source
  have hinitial := A.initial
  have hsteps := Automaton.exists_orderly A.progressing hinitial.proper.values
  rw [← hA.automaton] at hinitial hsteps
  obtain ⟨steps, hfollow, horderly⟩ := hsteps input
  refine ⟨c, steps, hcompile, ?_, hinitial, horderly, ?_⟩
  · rw [Automaton.run, hfollow]
    rfl
  · intro more
    obtain ⟨steps', hfollow', -⟩ := hsteps (input ++ more)
    refine ⟨c.automaton.start :: steps', ?_, ?_⟩
    · rw [Automaton.run, hfollow']
      rfl
    · rw [List.map_cons, List.cons_prefix_cons]
      exact ⟨RunStep.goOn_of_ne (by simp [Automaton.start]) more,
        Automaton.follow_append hfollow hfollow'⟩

end RegexDiagram
