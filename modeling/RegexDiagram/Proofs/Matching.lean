import RegexDiagram.Proofs.Regions

/-!
What a run finds in its input. A run starts with values with which words of the regex open. If it
starts with all of them, it knows after each character which values can follow, it succeeds as soon
as the input so far is a word of the regex, and it fails as soon as no word starts that way.
-/
namespace RegexDiagram

/-- Occurrences that accept a word one by one start a word of the language. -/
def Begins (L : Language Occurrence) (w : List Char) : Prop :=
  ∃ u v, u ++ v ∈ L ∧ List.Forall₂ Occurrence.Accepts u w

/-- An occurrence can follow occurrences that accept a word one by one. -/
def MayFollow (L : Language Occurrence) (w : List Char) (o : Occurrence) : Prop :=
  ∃ u v, u ++ o :: v ∈ L ∧ List.Forall₂ Occurrence.Accepts u w

/--
The steps of a run that looks for the shortest word of `M` at the start of its input, and that knows
what the occurrences it has read can be the start of from `L`.
-/
structure Automaton.Finds (a : Automaton) (L : Language Occurrence) (M : Language Char)
    (input : List Char) (steps : List RunStep) : Prop where
  starting : ∃ s, steps[0]? = some s ∧ s.state = .starting
  consumes : ∀ p, steps[p + 1]?.isSome = true ↔ p < input.length ∧
    ∀ q < p, Begins L (input.take (q + 1)) ∧ input.take (q + 1) ∉ M
  success : ∀ p, (∃ s, steps[p + 1]? = some s ∧ s.state = .success) ↔
    p < input.length ∧ input.take (p + 1) ∈ M ∧ ∀ q < p, input.take (q + 1) ∉ M
  failure : ∀ p, (∃ s, steps[p + 1]? = some s ∧ s.state = .failure) ↔
    p < input.length ∧ ¬Begins L (input.take (p + 1)) ∧
      ∀ q < p, Begins L (input.take (q + 1)) ∧ input.take (q + 1) ∉ M
  goesOn : ∀ p, (∃ s, steps[p + 1]? = some s ∧
      s.state = if p + 1 = input.length then .endOfString else .running) ↔
    p < input.length ∧ ∀ q ≤ p, Begins L (input.take (q + 1)) ∧ input.take (q + 1) ∉ M
  /-- The nodes to be tested next are those of the occurrences that can follow. -/
  next : ∀ p s, steps[p]? = some s → s.state ≠ .success → s.state ≠ .failure →
    (∀ i, i ∈ s.next ↔ ∃ o, a.occurrence? i = some o ∧ MayFollow L (input.take p) o) ∧
      ∀ o, MayFollow L (input.take p) o → ∃ i, a.occurrence? i = some o

theorem Automaton.Trace.lt_size {a : Automaton} {n i j : Nat} {u : List Occurrence}
    (h : a.Trace n i u j) (ha : a.InRange) (hi : i < a.nodes.size) : j < a.nodes.size := by
  induction h with
  | refl => exact hi
  | step he _ ih => exact ih (ha _ _ he)

namespace Expression

open Automaton

variable {A : Expression} {G : Set Occurrence} {start next : List Nat} {i j : Nat}
  {u v : List Occurrence} {o : Occurrence} {w : List Char}

/-- Words that do not open with other occurrences than those given. -/
def wordsFrom (A : Expression) (G : Set Occurrence) : Language Occurrence :=
  {u | u ∈ A.words ∧ ∀ o ∈ u.head?, o ∈ G}

/-- A run starts with these occurrences. -/
def StartsWith (A : Expression) (G : Set Occurrence) (start : List Nat) : Prop :=
  ∀ i, i ∈ start ↔ ∃ o ∈ G, A.automaton.occurrence? i = some o ∧ ∃ n, A.automaton.Trace n 0 [] i

theorem exists_trace_last (h : ∃ n, A.automaton.Trace n 0 u j) :
    ∃ n v, A.automaton.Trace n j v A.lastAt := by
  obtain ⟨n, ht⟩ := h
  have hzero : 0 < A.automaton.nodes.size := (Array.getElem?_eq_some_iff.mp A.first_node).1
  exact (A.reaches_last (ht.lt_size A.inRange hzero)).exists_trace

theorem exists_trace_from_iff :
    (∃ j n, A.automaton.Trace n 0 u j) ↔ ∃ v, u ++ v ∈ A.words := by
  constructor
  · intro h
    obtain ⟨j, n, ht⟩ := h
    obtain ⟨m, v, hv⟩ := exists_trace_last ⟨n, ht⟩
    exact ⟨v, (A.exists_trace_iff _).mp (ht.trans hv)⟩
  · intro h
    obtain ⟨v, hv⟩ := h
    obtain ⟨n, ht⟩ := (A.exists_trace_iff _).mpr hv
    cases v with
    | nil => exact ⟨_, n, by simpa using ht⟩
    | cons o v =>
      obtain ⟨k, m, hk, -⟩ := ht.exists_read
      exact ⟨k, hk⟩

theorem exists_trace_to_iff (hA : A.automaton.Distinct) (ho : A.automaton.occurrence? j = some o) :
    (∃ n, A.automaton.Trace n 0 u j) ↔ ∃ v, u ++ o :: v ∈ A.words := by
  constructor
  · intro h
    obtain ⟨n, ht⟩ := h
    obtain ⟨m, v, hv⟩ := exists_trace_last ⟨n, ht⟩
    have hne : j ≠ A.lastAt := by
      rintro rfl
      simp [A.occurrence?_last] at ho
    obtain ⟨-, -, v', -, -, rfl, -⟩ := hv.exists_edge hne
    rw [ho] at hv
    exact ⟨v', (A.exists_trace_iff _).mp (ht.trans hv)⟩
  · intro h
    obtain ⟨v, hv⟩ := h
    obtain ⟨n, ht⟩ := (A.exists_trace_iff _).mpr hv
    obtain ⟨k, m, hk, hread, -⟩ := ht.exists_read
    exact hA k j o hread ho ▸ hk

theorem exists_node (h : u ++ o :: v ∈ A.words) : ∃ i, A.automaton.occurrence? i = some o := by
  obtain ⟨n, ht⟩ := (A.exists_trace_iff _).mpr h
  obtain ⟨k, m, -, hread, -⟩ := ht.exists_read
  exact ⟨k, hread⟩

theorem StartsWith.isValue (h : A.StartsWith G start) (hi : i ∈ start) : A.automaton.IsValue i := by
  obtain ⟨o, -, ho, -⟩ := (h i).mp hi
  exact isValue_of_occurrence? ho

theorem reads_iff (h : A.StartsWith G start) (hu : u ≠ []) :
    A.automaton.Reads start u j ↔
      (∃ n, A.automaton.Trace n 0 u j) ∧ ∀ o ∈ u.head?, o ∈ G := by
  constructor
  · intro h'
    obtain ⟨i, hi, n, ht⟩ := h'
    obtain ⟨o, ho, hread, m, hm⟩ := (h i).mp hi
    refine ⟨hm.trans ht, ?_⟩
    cases ht with
    | refl => exact absurd rfl hu
    | step he ht => simpa [hread] using ho
  · intro h'
    obtain ⟨⟨n, ht⟩, hG⟩ := h'
    obtain ⟨o, u, rfl⟩ := List.exists_cons_of_ne_nil hu
    obtain ⟨k, m, hk, hread, he, n', ht⟩ := Trace.exists_read (u := []) ht
    refine ⟨k, (h k).mpr ⟨o, hG o rfl, hread, hk⟩, n' + 1, ?_⟩
    have hstep := Trace.step he ht
    rwa [hread] at hstep

theorem ne_nil_of_forall₂ (hu : List.Forall₂ Occurrence.Accepts u w) (hw : w ≠ []) : u ≠ [] := by
  rintro rfl
  exact hw (List.forall₂_nil_left_iff.mp hu)

theorem head?_append_of_ne_nil (hu : u ≠ []) (v : List Occurrence) :
    (u ++ v).head? = u.head? := by
  cases u with
  | nil => exact absurd rfl hu
  | cons => rfl

theorem completes_iff (h : A.StartsWith G start) (hw : w ≠ []) :
    A.automaton.Completes start w ↔ w ∈ image Occurrence.Accepts (A.wordsFrom G) := by
  simp only [Completes, isLast_iff, exists_eq_left, Spells, wordsFrom]
  refine exists_congr fun u => ?_
  rw [and_comm]
  refine and_congr_left fun hu => ?_
  rw [reads_iff h (ne_nil_of_forall₂ hu hw), A.exists_trace_iff]
  rfl

theorem survives_iff (h : A.StartsWith G start) (hw : w ≠ []) :
    A.automaton.Survives start w ↔ Begins (A.wordsFrom G) w := by
  constructor
  · intro h'
    obtain ⟨j, u, hu, hread⟩ := h'
    have hne := ne_nil_of_forall₂ hu hw
    obtain ⟨ht, hG⟩ := (reads_iff h hne).mp hread
    obtain ⟨v, hv⟩ := exists_trace_from_iff.mp ⟨j, ht⟩
    exact ⟨u, v, ⟨hv, by rwa [head?_append_of_ne_nil hne]⟩, hu⟩
  · intro h'
    obtain ⟨u, v, ⟨hv, hG⟩, hu⟩ := h'
    have hne := ne_nil_of_forall₂ hu hw
    rw [head?_append_of_ne_nil hne] at hG
    obtain ⟨j, ht⟩ := exists_trace_from_iff.mpr ⟨v, hv⟩
    exact ⟨j, u, hu, (reads_iff h hne).mpr ⟨ht, hG⟩⟩

theorem reads_iff_of_occurrence? (hA : A.automaton.Distinct) (h : A.StartsWith G start)
    (ho : A.automaton.occurrence? i = some o) :
    A.automaton.Reads start u i ↔ ∃ v, u ++ o :: v ∈ A.wordsFrom G := by
  cases u with
  | nil =>
    have hstart : A.automaton.Reads start [] i ↔ i ∈ start := by
      constructor
      · intro h'
        obtain ⟨s, hs, ht⟩ := h'
        exact (silent_iff.mpr ht).eq_of_isValue (h.isValue hs) ▸ hs
      · exact fun hi => ⟨i, hi, 0, .refl i⟩
    rw [hstart, h]
    constructor
    · intro h'
      obtain ⟨o', hG, ho', ht⟩ := h'
      obtain rfl := Option.some.inj (ho.symm.trans ho')
      obtain ⟨v, hv⟩ := (exists_trace_to_iff hA ho).mp ht
      exact ⟨v, hv, by simpa using hG⟩
    · intro h'
      obtain ⟨v, hv, hG⟩ := h'
      exact ⟨o, hG o rfl, ho, (exists_trace_to_iff hA ho).mpr ⟨v, hv⟩⟩
  | cons o' u =>
    rw [reads_iff h (List.cons_ne_nil o' u), exists_trace_to_iff hA ho]
    exact exists_and_right.symm

theorem mem_next_iff (hA : A.automaton.Distinct) (h : A.StartsWith G start)
    (hnext : A.automaton.Tracks start w next) :
    i ∈ next ↔ ∃ o, A.automaton.occurrence? i = some o ∧ MayFollow (A.wordsFrom G) w o := by
  rw [hnext]
  constructor
  · intro h'
    obtain ⟨hi, u, hu, hread⟩ := h'
    obtain ⟨n, v, -, -, ho⟩ := hi.exists_occurrence
    obtain ⟨v, hv⟩ := (reads_iff_of_occurrence? hA h ho).mp hread
    exact ⟨_, ho, u, v, hv, hu⟩
  · intro h'
    obtain ⟨o, ho, u, v, hv, hu⟩ := h'
    exact ⟨isValue_of_occurrence? ho, u, hu, (reads_iff_of_occurrence? hA h ho).mpr ⟨v, hv⟩⟩

/-- A run from given occurrences finds what the words that open with them spell. -/
theorem finds_of_runs {input : List Char} {s : RunStep} {steps : List RunStep}
    (hA : A.automaton.Distinct) (hs : s.state = .starting) (h : A.StartsWith G s.next)
    (hr : A.automaton.Runs s.next [] input steps) :
    A.automaton.Finds (A.wordsFrom G) (image Occurrence.Accepts (A.wordsFrom G)) input
      (s :: steps) := by
  have htake {p q : Nat} (hp : p < input.length) (hq : q ≤ p) : input.take (q + 1) ≠ [] := by
    rw [ne_eq, List.take_eq_nil_iff]
    intro h'
    rcases h' with h | rfl
    · exact absurd h (Nat.succ_ne_zero q)
    · exact absurd hp (Nat.not_lt_zero p)
  have hongoing {p q : Nat} (hp : p < input.length) (hq : q ≤ p) :
      A.automaton.Ongoing s.next (input.take (q + 1)) ↔
        Begins (A.wordsFrom G) (input.take (q + 1)) ∧
          input.take (q + 1) ∉ image Occurrence.Accepts (A.wordsFrom G) := by
    rw [Ongoing, survives_iff h (htake hp hq), completes_iff h (htake hp hq)]
  have hvalue : ∀ i ∈ s.next, A.automaton.IsValue i := fun i hi => h.isValue hi
  refine ⟨⟨s, rfl, hs⟩, fun p => ?_, fun p => ?_, fun p => ?_, fun p => ?_,
    fun p s' hs' hne hne' => ⟨fun i => ?_, ?_⟩⟩
  · refine hr.isSome_iff.trans (and_congr_right fun hp => ?_)
    exact forall₂_congr fun q hq => hongoing hp (Nat.le_of_lt hq)
  · refine hr.success_iff.trans (and_congr_right fun hp => ?_)
    refine and_congr (completes_iff h (htake hp (Nat.le_refl p))) ?_
    exact forall₂_congr fun q hq => not_congr (completes_iff h (htake hp (Nat.le_of_lt hq)))
  · refine hr.failure_iff.trans (and_congr_right fun hp => ?_)
    refine and_congr (not_congr (survives_iff h (htake hp (Nat.le_refl p)))) ?_
    exact forall₂_congr fun q hq => hongoing hp (Nat.le_of_lt hq)
  · refine hr.ongoing_iff.trans (and_congr_right fun hp => ?_)
    exact forall₂_congr fun q hq => hongoing hp hq
  · cases p with
    | zero =>
      obtain rfl := Option.some.inj hs'
      exact mem_next_iff hA h (tracks_start hvalue)
    | succ p => exact mem_next_iff hA h ((hr.judges hs').2.2.tracks hne hne')
  · intro o h'
    obtain ⟨u, v, hv, -⟩ := h'
    exact exists_node hv.1

/-- The occurrences that the walk from `first` finds. -/
def openings (A : Expression) : Set Occurrence :=
  {o | ∃ i ∈ A.automaton.start.next, A.automaton.occurrence? i = some o}

theorem startsWith_openings (hA : A.automaton.Distinct) :
    A.StartsWith A.openings A.automaton.start.next := by
  intro i
  constructor
  · intro hi
    obtain ⟨hmark, hnew, hvalue⟩ := mem_walk_found.mp hi
    obtain ⟨n, v, -, -, ho⟩ := hvalue.exists_occurrence
    obtain ⟨s, hs, hsilent⟩ := (silent_of_contains hmark).resolve_right hnew
    obtain rfl := List.mem_singleton.mp hs
    exact ⟨_, ⟨i, hi, ho⟩, ho, silent_iff.mp hsilent⟩
  · intro h
    obtain ⟨o, ⟨j, hj, ho⟩, hi, -⟩ := h
    exact hA j i o ho hi ▸ hj

theorem exists_run (hA : A.automaton.Distinct) (input : List Char) :
    ∃ steps, A.automaton.run input = .ok steps ∧
      A.automaton.Finds (A.wordsFrom A.openings)
        (image Occurrence.Accepts (A.wordsFrom A.openings)) input steps := by
  have h := startsWith_openings hA
  obtain ⟨steps, hfollow, hr⟩ :=
    exists_follow A.live (tracks_start fun i hi => h.isValue hi) input
  exact ⟨_, by rw [run, hfollow]; rfl, finds_of_runs hA rfl h hr⟩

theorem wordsFrom_openings (hA : [] ∉ A.words) : A.wordsFrom A.openings = A.words := by
  have hzero : 0 < A.automaton.nodes.size := (Array.getElem?_eq_some_iff.mp A.first_node).1
  have hreached : (A.automaton.walk {} [0]).reached = false := by
    by_contra hreached
    obtain ⟨j, hj, hmark, -⟩ := exists_last_of_reached (by simpa using hreached)
    obtain ⟨s, hs, hsilent⟩ := (silent_of_contains hmark).resolve_right (by simp)
    obtain rfl := List.mem_singleton.mp hs
    obtain rfl := (A.isLast_iff j).mp hj
    exact hA ((A.exists_trace_iff []).mp (silent_iff.mp hsilent))
  have hclosed := (closed_empty A.automaton).walk A.inRange hreached
  have hfirst := (exhausted_of_not_reached hreached).stack 0 (List.mem_singleton_self 0) hzero
  refine Set.ext fun u => ⟨fun h => h.1, fun hu => ⟨hu, fun o ho => ?_⟩⟩
  obtain ⟨v, rfl⟩ := List.head?_eq_some_iff.mp ho
  obtain ⟨n, ht⟩ := (A.exists_trace_iff _).mpr hu
  obtain ⟨k, m, hk, hread, -⟩ := Trace.exists_read (u := []) ht
  have hmark := hclosed.silent hfirst (silent_iff.mpr hk)
  exact ⟨k, mem_walk_found.mpr ⟨hmark, by simp, isValue_of_occurrence? hread⟩, hread⟩

end Expression

/-- Every run ends, and finds what words that open with what it starts with spell. -/
theorem exists_compile_run (source input : List Char) :
    ∃ c a steps, compile source = .ok c ∧ (Analysis.ofSource source).validate = some a ∧
      c.analysis.valid = a.valid ∧ c.automaton.run input = .ok steps ∧
      (∃ A : Expression, A.tokens = a.valid) ∧
      ∀ B : Expression, B.tokens = a.valid → c.Realizes B ∧
        c.automaton.Finds (B.wordsFrom B.openings)
          (image Occurrence.Accepts (B.wordsFrom B.openings)) input steps := by
  obtain ⟨c, a, A, hc, ha, hvalid, h⟩ := exists_compile_validated source
  obtain ⟨steps, hsteps, -⟩ := A.exists_run h.distinct input
  rw [← h.automaton] at hsteps
  refine ⟨c, a, steps, hc, ha, hvalid, hsteps, ⟨A, h.tokens.trans hvalid⟩, fun B hB => ?_⟩
  have hB := h.of_tokens (hB.trans hvalid.symm)
  refine ⟨hB, ?_⟩
  obtain ⟨steps', hsteps', hfinds⟩ := B.exists_run hB.distinct input
  rw [← hB.automaton] at hsteps' hfinds
  obtain rfl : steps = steps' := Except.ok.inj (hsteps.symm.trans hsteps')
  exact hfinds

/--
A run that succeeds has read a word of the regex. Unless the empty word is one, it succeeds after
the shortest word that the input starts with, and fails after the shortest input that starts no word.
-/
theorem run_finds_words (source input : List Char) :
    ∃ c a steps, compile source = .ok c ∧ (Analysis.ofSource source).validate = some a ∧
      c.analysis.valid = a.valid ∧ c.automaton.run input = .ok steps ∧
      (∃ A : Expression, A.tokens = a.valid) ∧
      ∀ A : Expression, A.tokens = a.valid →
        (∀ p s, steps[p + 1]? = some s → s.state = .success →
          input.take (p + 1) ∈ A.language) ∧
        ([] ∉ A.language → c.automaton.Finds A.words A.language input steps) := by
  obtain ⟨c, a, steps, hc, ha, hvalid, hsteps, hA, hall⟩ := exists_compile_run source input
  refine ⟨c, a, steps, hc, ha, hvalid, hsteps, hA, fun B hB => ?_⟩
  obtain ⟨-, hfinds⟩ := hall B hB
  refine ⟨fun p s hs hstate => ?_, fun hempty => ?_⟩
  · obtain ⟨-, ⟨u, ⟨hu, -⟩, hw⟩, -⟩ := (hfinds.success p).mp ⟨s, hs, hstate⟩
    rw [← B.image_words]
    exact ⟨u, hu, hw⟩
  · rw [B.nil_mem_language_iff] at hempty
    rwa [Expression.wordsFrom_openings hempty, B.image_words] at hfinds

end RegexDiagram
