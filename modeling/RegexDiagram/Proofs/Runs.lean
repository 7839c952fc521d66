import RegexDiagram.Proofs.Closure

/-!
What a run does, from the nodes that it starts with. After each character the next nodes are those
to which there is a way from the start that reads occurrences accepting the input so far. The run
succeeds as soon as such a way leads to `last`, and fails as soon as there is no way at all.
-/
namespace RegexDiagram.Automaton

variable {a : Automaton} {start current : List Nat} {i j n : Nat} {u v : List Occurrence}
  {o : Occurrence} {w : List Char} {c : Char}

/-- A way from one of the first nodes reads some occurrences. -/
def Reads (a : Automaton) (start : List Nat) (u : List Occurrence) (j : Nat) : Prop :=
  ∃ i ∈ start, ∃ n, a.Trace n i u j

/-- A way from one of the first nodes reads occurrences that accept a word. -/
def Spells (a : Automaton) (start : List Nat) (w : List Char) (j : Nat) : Prop :=
  ∃ u, List.Forall₂ Occurrence.Accepts u w ∧ a.Reads start u j

theorem isValue_of_occurrence? (h : a.occurrence? i = some o) : a.IsValue i := by
  cases hn : a.nodes[i]? with
  | none => simp [occurrence?, hn] at h
  | some n =>
    refine ⟨n, hn, ?_⟩
    cases hv : n.value? with
    | none => simp [occurrence?, hn, Node.occurrence?, hv] at h
    | some v => rfl

theorem AcceptsAt.isValue (h : a.AcceptsAt c i) : a.IsValue i := by
  obtain ⟨o, ho, -⟩ := h
  exact isValue_of_occurrence? ho

theorem Trace.exists_read (h : a.Trace n i (u ++ o :: v) j) :
    ∃ k m, (∃ n, a.Trace n i u k) ∧ a.occurrence? k = some o ∧ a.Edge k m ∧
      ∃ n, a.Trace n m v j := by
  generalize hu : u ++ o :: v = r at h
  induction h generalizing u with
  | refl => simp at hu
  | @step n i m j r he ht ih =>
    cases hread : a.occurrence? i with
    | none =>
      obtain ⟨k, m', ⟨n', ht'⟩, h⟩ := ih (by simpa [hread] using hu)
      have hstep := Trace.step he ht'
      rw [hread] at hstep
      exact ⟨k, m', ⟨_, hstep⟩, h⟩
    | some o' =>
      rw [hread] at hu
      cases u with
      | nil =>
        obtain ⟨rfl, rfl⟩ : o = o' ∧ v = r := by simpa using hu
        exact ⟨i, m, ⟨0, .refl i⟩, hread, he, n, ht⟩
      | cons o'' u =>
        obtain ⟨rfl, hrest⟩ : o'' = o' ∧ u ++ o :: v = r := by simpa using hu
        obtain ⟨k, m', ⟨n', ht'⟩, h⟩ := ih hrest
        have hstep := Trace.step he ht'
        rw [hread] at hstep
        exact ⟨k, m', ⟨_, hstep⟩, h⟩

theorem reads_concat :
    a.Reads start (u ++ [o]) j ↔
      ∃ i, a.Reads start u i ∧ a.occurrence? i = some o ∧ a.Leads i j := by
  constructor
  · intro h
    obtain ⟨s, hs, n, ht⟩ := h
    obtain ⟨i, m, hi, hread, he, hm⟩ := ht.exists_read
    exact ⟨i, ⟨s, hs, hi⟩, hread, m, he, silent_iff.mpr hm⟩
  · intro h
    obtain ⟨i, ⟨s, hs, n, ht⟩, hread, m, he, hm⟩ := h
    obtain ⟨n', hm⟩ := silent_iff.mp hm
    have hstep := Trace.step he hm
    rw [hread] at hstep
    obtain ⟨n'', ht⟩ := ht.trans hstep
    exact ⟨s, hs, n'', ht⟩

theorem exists_concat_of_forall₂ (h : List.Forall₂ Occurrence.Accepts u (w ++ [c])) :
    ∃ u' o, u = u' ++ [o] ∧ List.Forall₂ Occurrence.Accepts u' w ∧ o.Accepts c := by
  rcases List.eq_nil_or_concat u with rfl | ⟨u, o, rfl⟩
  · simp at h
  · rw [List.concat_eq_append] at h ⊢
    obtain ⟨x, y, hxy, hx, hy⟩ := forall₂_append_left.mp h
    obtain ⟨c', cs, hc, hcs, rfl⟩ := List.forall₂_cons_left_iff.mp hy
    obtain rfl := List.forall₂_nil_left_iff.mp hcs
    obtain ⟨rfl, rfl⟩ : x = w ∧ c' = c := by simpa using List.append_inj' hxy rfl
    exact ⟨u, o, rfl, hx, hc⟩

theorem spells_concat :
    a.Spells start (w ++ [c]) j ↔ ∃ i, a.Spells start w i ∧ a.AcceptsAt c i ∧ a.Leads i j := by
  constructor
  · intro h
    obtain ⟨u, hu, hread⟩ := h
    obtain ⟨u, o, rfl, hu, ho⟩ := exists_concat_of_forall₂ hu
    obtain ⟨i, hi, hread, hlead⟩ := reads_concat.mp hread
    exact ⟨i, ⟨u, hu, hi⟩, ⟨o, hread, ho⟩, hlead⟩
  · intro h
    obtain ⟨i, ⟨u, hu, hread⟩, ⟨o, ho, hc⟩, hlead⟩ := h
    exact ⟨u ++ [o], List.rel_append hu (.cons hc .nil), reads_concat.mpr ⟨i, hread, ho, hlead⟩⟩

/-- The nodes to be tested next once a word has been consumed. -/
def Tracks (a : Automaton) (start : List Nat) (w : List Char) (current : List Nat) : Prop :=
  ∀ j, j ∈ current ↔ a.IsValue j ∧ a.Spells start w j

theorem spells_nil : a.Spells start [] j ↔ ∃ i ∈ start, a.Silent i j := by
  simp [Spells, Reads, silent_iff]

theorem Silent.eq_of_isValue (h : a.Silent i j) (hi : a.IsValue i) : i = j := by
  rcases Relation.ReflTransGen.cases_head h with rfl | ⟨m, ⟨hcontrol, -⟩, -⟩
  · rfl
  · exact absurd hi (not_isValue_of_control hcontrol)

theorem tracks_start (h : ∀ i ∈ start, a.IsValue i) : a.Tracks start [] start := by
  intro j
  rw [spells_nil]
  constructor
  · exact fun hj => ⟨h j hj, j, hj, .refl⟩
  · intro h'
    obtain ⟨-, i, hi, hs⟩ := h'
    exact hs.eq_of_isValue (h i hi) ▸ hi

/-- A word leads from the start to `last`. -/
def Completes (a : Automaton) (start : List Nat) (w : List Char) : Prop :=
  ∃ j, a.IsLast j ∧ a.Spells start w j

/-- A word leads from the start somewhere. -/
def Survives (a : Automaton) (start : List Nat) (w : List Char) : Prop := ∃ j, a.Spells start w j

/-- A run goes on after a word. -/
def Ongoing (a : Automaton) (start : List Nat) (w : List Char) : Prop :=
  a.Survives start w ∧ ¬a.Completes start w

/-- What the step of a run is once it has consumed a word. -/
inductive Judges (a : Automaton) (start : List Nat) (w : List Char) (isLast : Bool) :
    RunStep → Prop
  | success {s : RunStep} (hs : s.state = .success) (h : a.Completes start w) :
      Judges a start w isLast s
  | failure {s : RunStep} (hs : s.state = .failure) (h : ¬a.Survives start w) :
      Judges a start w isLast s
  | ongoing {s : RunStep} (hs : s.state = if isLast then .endOfString else .running)
      (h : a.Ongoing start w) (hnext : a.Tracks start w s.next) : Judges a start w isLast s

/-- An automaton without dead ends. -/
structure Live (a : Automaton) : Prop where
  inRange : a.InRange
  leads : ∀ i, a.IsValue i → ∃ j, a.Leads i j

theorem exists_consume (ha : a.Live) (h : a.Tracks start w current) (c : Char) (isLast : Bool) :
    ∃ s, a.consume current c isLast = .ok s ∧ a.Judges start (w ++ [c]) isLast s := by
  have hcurrent : ∀ i ∈ current, a.IsValue i := fun i hi => ((h i).mp hi).1
  rcases advance_cases ha.inRange c (closed_empty a) hcurrent with
    ⟨i, hi, hadvance, hc, j, hj, hlead⟩ | ⟨accepting, next, marked, hadvance, hmarks⟩
  · refine ⟨_, by rw [consume, hadvance]; rfl, .success rfl ⟨j, hj, ?_⟩⟩
    exact spells_concat.mpr ⟨i, ((h i).mp hi).2, hc, hlead⟩
  · obtain ⟨haccepted, hfollowed, hunfinished⟩ := hmarks.spreads
    have hspells (j : Nat) :
        a.Spells start (w ++ [c]) j ↔ ∃ i ∈ accepting, a.Leads i j := by
      rw [spells_concat]
      constructor
      · intro h'
        obtain ⟨i, hi, hc, hlead⟩ := h'
        exact ⟨i, (haccepted i).mpr ⟨(h i).mpr ⟨hc.isValue, hi⟩, hc⟩, hlead⟩
      · intro h'
        obtain ⟨i, hi, hlead⟩ := h'
        obtain ⟨hi, hc⟩ := (haccepted i).mp hi
        exact ⟨i, ((h i).mp hi).2, hc, hlead⟩
    cases accepting with
    | nil =>
      refine ⟨_, by rw [consume, hadvance]; rfl, .failure rfl ?_⟩
      intro h'
      obtain ⟨j, hj⟩ := h'
      simpa using (hspells j).mp hj
    | cons i accepting =>
      refine ⟨_, by rw [consume, hadvance]; rfl, .ongoing rfl ⟨?_, ?_⟩ fun j => ?_⟩
      · obtain ⟨j, hj⟩ := ha.leads i (hcurrent i ((haccepted i).mp List.mem_cons_self).1)
        exact ⟨j, (hspells j).mpr ⟨i, List.mem_cons_self, hj⟩⟩
      · intro h'
        obtain ⟨j, hj, hspell⟩ := h'
        obtain ⟨i, hi, hlead⟩ := (hspells j).mp hspell
        exact hunfinished i hi j hj hlead
      · rw [hspells]
        exact hfollowed j

/-- The steps that consume a word, up to the first after which the run does not go on. -/
structure Runs (a : Automaton) (start : List Nat) (w input : List Char) (steps : List RunStep) :
    Prop where
  step : ∀ p < input.length, (∀ q < p, a.Ongoing start (w ++ input.take (q + 1))) →
    ∃ s, steps[p]? = some s ∧
      a.Judges start (w ++ input.take (p + 1)) (decide (p + 1 = input.length)) s
  stop : ∀ p, steps[p]?.isSome = true →
    p < input.length ∧ ∀ q < p, a.Ongoing start (w ++ input.take (q + 1))

variable {rest : List Char} {s : RunStep} {steps : List RunStep}

theorem Runs.single (h : a.Judges start (w ++ [c]) rest.isEmpty s)
    (hstop : rest = [] ∨ ¬a.Ongoing start (w ++ [c])) : a.Runs start w (c :: rest) [s] where
  step p hp hq := by
    cases p with
    | zero => exact ⟨s, rfl, by cases rest <;> exact h⟩
    | succ p =>
      rcases hstop with rfl | hstop
      · simp at hp
      · exact absurd (hq 0 (Nat.zero_lt_succ p)) hstop
  stop p hp := by
    cases p with
    | zero => exact ⟨Nat.zero_lt_succ _, by simp⟩
    | succ p => simp at hp

theorem Runs.cons (h : a.Judges start (w ++ [c]) rest.isEmpty s)
    (hgoes : a.Ongoing start (w ++ [c])) (hsteps : a.Runs start (w ++ [c]) rest steps) :
    a.Runs start w (c :: rest) (s :: steps) where
  step p hp hq := by
    cases p with
    | zero => exact ⟨s, rfl, by cases rest <;> exact h⟩
    | succ p =>
      have hp' : p < rest.length := by simpa using hp
      have hq' : ∀ q < p, a.Ongoing start (w ++ [c] ++ rest.take (q + 1)) := fun q hlt => by
        simpa using hq (q + 1) (Nat.succ_lt_succ hlt)
      simpa using hsteps.step p hp' hq'
  stop p hp := by
    cases p with
    | zero => exact ⟨Nat.zero_lt_succ _, by simp⟩
    | succ p =>
      obtain ⟨hlt, hq⟩ := hsteps.stop p (by simpa using hp)
      refine ⟨by simpa using hlt, fun q hq' => ?_⟩
      cases q with
      | zero => simpa using hgoes
      | succ q => simpa using hq q (Nat.lt_of_succ_lt_succ hq')

theorem exists_follow (ha : a.Live) (h : a.Tracks start w current) (input : List Char) :
    ∃ steps, a.follow current input = .ok steps ∧ a.Runs start w input steps := by
  induction input generalizing current w with
  | nil => exact ⟨[], rfl, by simp, by simp⟩
  | cons c rest ih =>
    obtain ⟨s, hs, hjudge⟩ := exists_consume ha h c rest.isEmpty
    have hterminal (ht : s.state.isTerminal = true) : a.follow current (c :: rest) = .ok [s] := by
      simp only [follow, hs, Except.bind, ht, if_true]
    cases hjudge with
    | success hstate hdone =>
      refine ⟨[s], hterminal (by rw [hstate]; rfl), .single (.success hstate hdone) ?_⟩
      exact .inr fun hgoes => hgoes.2 hdone
    | failure hstate hdead =>
      refine ⟨[s], hterminal (by rw [hstate]; rfl), .single (.failure hstate hdead) ?_⟩
      exact .inr fun hgoes => hdead hgoes.1
    | ongoing hstate hgoes hnext =>
      cases rest with
      | nil =>
        refine ⟨[s], hterminal (by rw [hstate]; rfl), ?_⟩
        exact .single (.ongoing hstate hgoes hnext) (.inl rfl)
      | cons d rest =>
        obtain ⟨steps, hfollow, hsteps⟩ := ih hnext
        refine ⟨s :: steps, ?_, .cons (.ongoing hstate hgoes hnext) hgoes hsteps⟩
        have hrunning : s.state.isTerminal = false := by rw [hstate]; rfl
        simp only [follow, hs, Except.bind, hrunning, Bool.false_eq_true, if_false] at hfollow ⊢
        rw [hfollow]
        rfl

variable {input : List Char}

theorem Completes.survives (h : a.Completes start w) : a.Survives start w := by
  obtain ⟨j, -, hj⟩ := h
  exact ⟨j, hj⟩

theorem Survives.of_append {v : List Char} (h : a.Survives start (w ++ v)) :
    a.Survives start w := by
  induction v using List.reverseRecOn with
  | nil => simpa using h
  | append_singleton v c ih =>
    rw [← List.append_assoc] at h
    obtain ⟨j, hj⟩ := h
    obtain ⟨i, hi, -⟩ := spells_concat.mp hj
    exact ih ⟨i, hi⟩

theorem Survives.take_of_lt {p q : Nat} (h : a.Survives start (w ++ input.take (p + 1)))
    (hq : q < p) : a.Survives start (w ++ input.take (q + 1)) := by
  have hsplit : input.take (p + 1) = input.take (q + 1) ++ (input.drop (q + 1)).take (p - q) := by
    rw [← List.take_add]
    congr 1
    omega
  rw [hsplit, ← List.append_assoc] at h
  exact h.of_append

namespace Judges

variable {isLast : Bool}

theorem state_ne_success {b : Bool} :
    (if b = true then RunState.endOfString else .running) ≠ .success := by
  cases b <;> simp

theorem state_ne_failure {b : Bool} :
    (if b = true then RunState.endOfString else .running) ≠ .failure := by
  cases b <;> simp

theorem success_iff (h : a.Judges start w isLast s) :
    s.state = .success ↔ a.Completes start w := by
  cases h with
  | success hs h => exact iff_of_true hs h
  | failure hs h => exact iff_of_false (by simp [hs]) fun hc => h hc.survives
  | ongoing hs h hnext => exact iff_of_false (hs ▸ state_ne_success) h.2

theorem failure_iff (h : a.Judges start w isLast s) :
    s.state = .failure ↔ ¬a.Survives start w := by
  cases h with
  | success hs h => exact iff_of_false (by simp [hs]) fun hdead => hdead h.survives
  | failure hs h => exact iff_of_true hs h
  | ongoing hs h hnext => exact iff_of_false (hs ▸ state_ne_failure) fun hdead => hdead h.1

theorem ongoing_iff (h : a.Judges start w isLast s) :
    s.state = (if isLast = true then .endOfString else .running) ↔ a.Ongoing start w := by
  cases h with
  | success hs h => exact iff_of_false (hs ▸ state_ne_success.symm) fun hgoes => hgoes.2 h
  | failure hs h => exact iff_of_false (hs ▸ state_ne_failure.symm) fun hgoes => h hgoes.1
  | ongoing hs h hnext => exact iff_of_true hs h

theorem tracks (h : a.Judges start w isLast s) (hsuccess : s.state ≠ .success)
    (hfailure : s.state ≠ .failure) : a.Tracks start w s.next := by
  cases h with
  | success hs h => exact absurd hs hsuccess
  | failure hs h => exact absurd hs hfailure
  | ongoing hs h hnext => exact hnext

end Judges

namespace Runs

variable {p : Nat}

theorem judges (h : a.Runs start w input steps) (hs : steps[p]? = some s) :
    p < input.length ∧ (∀ q < p, a.Ongoing start (w ++ input.take (q + 1))) ∧
      a.Judges start (w ++ input.take (p + 1)) (decide (p + 1 = input.length)) s := by
  obtain ⟨hp, hq⟩ := h.stop p (by simp [hs])
  obtain ⟨s', hs', hjudge⟩ := h.step p hp hq
  obtain rfl := Option.some.inj (hs.symm.trans hs')
  exact ⟨hp, hq, hjudge⟩

theorem isSome_iff (h : a.Runs start w input steps) :
    steps[p]?.isSome = true ↔
      p < input.length ∧ ∀ q < p, a.Ongoing start (w ++ input.take (q + 1)) := by
  constructor
  · exact h.stop p
  · intro h'
    obtain ⟨hp, hq⟩ := h'
    obtain ⟨s, hs, -⟩ := h.step p hp hq
    rw [hs]
    rfl

theorem success_iff (h : a.Runs start w input steps) :
    (∃ s, steps[p]? = some s ∧ s.state = .success) ↔
      p < input.length ∧ a.Completes start (w ++ input.take (p + 1)) ∧
        ∀ q < p, ¬a.Completes start (w ++ input.take (q + 1)) := by
  constructor
  · intro h'
    obtain ⟨s, hs, hstate⟩ := h'
    obtain ⟨hp, hq, hjudge⟩ := h.judges hs
    exact ⟨hp, hjudge.success_iff.mp hstate, fun q hlt => (hq q hlt).2⟩
  · intro h'
    obtain ⟨hp, hdone, hq⟩ := h'
    obtain ⟨s, hs, hjudge⟩ := h.step p hp fun q hlt => ⟨hdone.survives.take_of_lt hlt, hq q hlt⟩
    exact ⟨s, hs, hjudge.success_iff.mpr hdone⟩

theorem failure_iff (h : a.Runs start w input steps) :
    (∃ s, steps[p]? = some s ∧ s.state = .failure) ↔
      p < input.length ∧ ¬a.Survives start (w ++ input.take (p + 1)) ∧
        ∀ q < p, a.Ongoing start (w ++ input.take (q + 1)) := by
  constructor
  · intro h'
    obtain ⟨s, hs, hstate⟩ := h'
    obtain ⟨hp, hq, hjudge⟩ := h.judges hs
    exact ⟨hp, hjudge.failure_iff.mp hstate, hq⟩
  · intro h'
    obtain ⟨hp, hdead, hq⟩ := h'
    obtain ⟨s, hs, hjudge⟩ := h.step p hp hq
    exact ⟨s, hs, hjudge.failure_iff.mpr hdead⟩

theorem ongoing_iff (h : a.Runs start w input steps) :
    (∃ s, steps[p]? = some s ∧
      s.state = if p + 1 = input.length then .endOfString else .running) ↔
      p < input.length ∧ ∀ q ≤ p, a.Ongoing start (w ++ input.take (q + 1)) := by
  constructor
  · intro h'
    obtain ⟨s, hs, hstate⟩ := h'
    obtain ⟨hp, hq, hjudge⟩ := h.judges hs
    refine ⟨hp, fun q hle => ?_⟩
    rcases Nat.lt_or_eq_of_le hle with hlt | rfl
    · exact hq q hlt
    · exact hjudge.ongoing_iff.mp (by simpa using hstate)
  · intro h'
    obtain ⟨hp, hq⟩ := h'
    obtain ⟨s, hs, hjudge⟩ := h.step p hp fun q hlt => hq q (Nat.le_of_lt hlt)
    exact ⟨s, hs, by simpa using hjudge.ongoing_iff.mpr (hq p (Nat.le_refl p))⟩

end Runs

end RegexDiagram.Automaton
