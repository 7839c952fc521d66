import RegexDiagram.Proofs.Matching
import RegexDiagram.Proofs.Openings

/-!
What a walk finds in the nodes of a tree. If it cannot come to the exit of the tree, or has been
there before, it finds everything that words of the tree open with.
-/
namespace RegexDiagram

namespace NodeSet

/-- None of `m` nodes is in the set, the first of them at `k`. -/
def Fresh (s : NodeSet) (k m : Nat) : Prop := ∀ j, k ≤ j → j < k + m → ¬s.contains j = true

variable {s : NodeSet} {k m : Nat}

theorem Fresh.sub (h : s.Fresh k m) (k' m' : Nat) (hk : k ≤ k') (hm : k' + m' ≤ k + m) :
    s.Fresh k' m' := fun j hj hlt => h j (by omega) (by omega)

end NodeSet

namespace Automaton

/-- The automaton without the edges that start outside of `size` nodes, the first of them at `k`. -/
def within (a : Automaton) (k size : Nat) : Automaton :=
  ⟨a.nodes.mapIdx fun i n => if k ≤ i ∧ i < k + size then n else { n with next := [] }⟩

section Within

variable {a : Automaton} {k size i j n : Nat} {u : List Occurrence} {ns : List Node}

theorem getElem?_within (a : Automaton) (k size i : Nat) :
    (a.within k size).nodes[i]? = a.nodes[i]?.map fun n =>
      if k ≤ i ∧ i < k + size then n else { n with next := [] } := by
  simp [within]

theorem edge_within : (a.within k size).Edge i j ↔ a.Edge i j ∧ k ≤ i ∧ i < k + size := by
  simp only [Edge, getElem?_within, Option.map_eq_some_iff]
  by_cases h : k ≤ i ∧ i < k + size
  · simp [h]
  · simp [h]

theorem occurrence?_within : (a.within k size).occurrence? i = a.occurrence? i := by
  rw [occurrence?, occurrence?, getElem?_within]
  cases a.nodes[i]? with
  | none => rfl
  | some n =>
    simp only [Option.map_some, Option.bind_some]
    split <;> rfl

theorem Holds.within (h : a.Holds k ns) : (a.within k ns.length).Holds k ns := by
  refine (eachFrom_iff _ k ns).mpr fun i n hn => ?_
  have hi := (List.getElem?_eq_some_iff.mp hn).1
  rw [getElem?_within, (eachFrom_iff _ k ns).mp h i n hn, Option.map_some, if_pos (by omega)]

theorem Trace.eq_of_outside (h : (a.within k size).Trace n i u j) (hi : i < k ∨ k + size ≤ i) :
    u = [] := by
  cases h with
  | refl => rfl
  | step he ht =>
    have := (edge_within.mp he).2
    omega

theorem control_within (h : (a.within k size).Control i) : a.Control i := by
  obtain ⟨n, hn, hv⟩ := h
  obtain ⟨m, hm, rfl⟩ := Option.map_eq_some_iff.mp (getElem?_within a k size i ▸ hn)
  refine ⟨m, hm, ?_⟩
  split at hv <;> exact hv

theorem Control.within (h : a.Control i) : (a.within k size).Control i := by
  obtain ⟨n, hn, hv⟩ := h
  refine ⟨_, by rw [getElem?_within, hn]; rfl, ?_⟩
  split <;> exact hv

theorem Holds.exists_mem (h : a.Holds k ns) (hi : k ≤ i) (hlt : i < k + ns.length) :
    ∃ n ∈ ns, a.nodes[i]? = some n := by
  have hn := List.getElem?_eq_getElem (l := ns) (i := i - k) (by omega)
  refine ⟨ns[i - k], List.getElem_mem _, ?_⟩
  have := (eachFrom_iff _ k ns).mp h (i - k) _ hn
  rwa [show k + (i - k) = i by omega] at this

end Within

end Automaton

namespace Tree

open Automaton

variable {l : Precedence} {a : Automaton} {k x e j : Nat} {i : Inlet} {q : Option Quantifier}
  {visited : NodeSet} {o : Occurrence}

/-- There is a way from an entry that reads nothing and stays in the tree. -/
def Inside (t : Tree l) (a : Automaton) (k j : Nat) : Prop :=
  (k ≤ j ∧ j < k + t.branchSize) ∧ ∃ e ∈ t.entries k, (a.within k t.branchSize).Silent e j

section Inside

variable (t : Tree l) (h : a.Holds k (t.branchNodes k [x] i q))

include h

theorem holds_within : (a.within k t.branchSize).Holds k (t.branchNodes k [x] i q) := by
  have := h.within
  rwa [length_branchNodes] at this

theorem inside_edge (hj : t.Inside a k j) (hcontrol : a.Control j) {m : Nat} (he : a.Edge j m)
    (hx : x < k ∨ k + t.branchSize ≤ x) :
    t.Inside a k m ∨ m = x ∧ t.nullable = true := by
  obtain ⟨⟨hk, hlt⟩, e, hentry, hsilent⟩ := hj
  obtain ⟨n, hn, hnode⟩ := h.exists_mem hk (by rwa [length_branchNodes])
  have hsilent := hsilent.tail ⟨hcontrol.within, edge_within.mpr ⟨he, hk, hlt⟩⟩
  rcases t.mem_next_branchNodes hn ((edge_iff hnode).mp he) with hm | hm
  · obtain rfl := List.mem_singleton.mp hm
    obtain ⟨n, ht⟩ := silent_iff.mp hsilent
    obtain ⟨-, v, w, -, huv, hv, -⟩ := t.passes_branchNodes (t.holds_within h) hx hentry ht
    obtain ⟨rfl, -⟩ := List.append_eq_nil_iff.mp huv.symm
    exact .inr ⟨rfl, t.nullable_iff.mpr hv⟩
  · exact .inl ⟨hm, e, hentry, hsilent⟩

theorem inside_opens (hj : t.Inside a k j) (ho : a.occurrence? j = some o)
    (hx : x < k ∨ k + t.branchSize ≤ x) : o ∈ t.firsts := by
  obtain ⟨⟨hk, hlt⟩, e, hentry, hsilent⟩ := hj
  obtain ⟨n, ht⟩ := silent_iff.mp hsilent
  obtain ⟨m, v, hv⟩ := (t.reaches_branchNodes (t.holds_within h) hk hlt).exists_trace
  obtain ⟨-, -, v, -, -, rfl, -⟩ := hv.exists_edge (by omega)
  rw [occurrence?_within, ho] at hv
  obtain ⟨m, htrace⟩ := ht.trans hv
  obtain ⟨_, v', w, -, huv, hv', hrest⟩ := t.passes_branchNodes (t.holds_within h) hx hentry htrace
  rw [hrest.eq_of_outside hx, List.append_nil] at huv
  rw [mem_firsts_iff]
  exact ⟨v, by simpa [← huv] using hv'⟩

theorem exists_inside (ho : o ∈ t.firsts) : ∃ j, t.Inside a k j ∧ a.occurrence? j = some o := by
  obtain ⟨v, hv⟩ := (t.mem_firsts_iff o).mp ho
  obtain ⟨e, hentry, n, ht⟩ := t.exists_trace_branchNodes (t.holds_within h) hv
  obtain ⟨j, m, hj, hread, he, -⟩ := Trace.exists_read (u := []) ht
  exact ⟨j, ⟨(edge_within.mp he).2, e, hentry, silent_iff.mpr hj⟩, occurrence?_within ▸ hread⟩

/-- A walk from the entries that is not led out of the tree finds what words open with. -/
theorem walk_entries (ha : a.InRange) (hx : x < k ∨ k + t.branchSize ≤ x)
    (hnew : visited.Fresh k t.branchSize)
    (hstop : visited.contains x = true ∨ t.nullable = false) :
    (a.walk visited (t.entries k)).reached = false ∧
      (∀ j, (a.walk visited (t.entries k)).visited.contains j = true →
        (k ≤ j ∧ j < k + t.branchSize) ∨ visited.contains j = true) ∧
      ∀ o, (∃ j ∈ (a.walk visited (t.entries k)).found, a.occurrence? j = some o) ↔
        o ∈ t.firsts := by
  have hnodes {j : Nat} (hk : k ≤ j) (hlt : j < k + t.branchSize) :
      ∃ n ∈ t.branchNodes k [x] i q, a.nodes[j]? = some n :=
    h.exists_mem hk (by rwa [length_branchNodes])
  have hinside (j : Nat) (hj : (a.walk visited (t.entries k)).visited.contains j = true) :
      t.Inside a k j ∨ visited.contains j = true := by
    refine walk_within (p := t.Inside a k) (fun j hj hcontrol m he => ?_) (fun e he => ?_) hj
    · refine (t.inside_edge h hj hcontrol he hx).imp_right ?_
      intro h'
      obtain ⟨rfl, hnull⟩ := h'
      exact hstop.resolve_right (by simp [hnull])
    · exact .inl ⟨t.mem_entries he, e, he, .refl⟩
  have hreached : (a.walk visited (t.entries k)).reached = false := by
    by_contra hreached
    obtain ⟨j, ⟨n, hn, hlast⟩, hmark, hj⟩ := exists_last_of_reached (by simpa using hreached)
    obtain ⟨⟨hk, hlt⟩, -⟩ := (hinside j hmark).resolve_right hj
    obtain ⟨n', hn', hnode⟩ := hnodes hk hlt
    obtain rfl := Option.some.inj (hn.symm.trans hnode)
    obtain ⟨p, hp⟩ := t.piece_of_mem_branchNodes hn'
    simp [hlast] at hp
  refine ⟨hreached, fun j hj => (hinside j hj).imp_left And.left, fun o => ⟨?_, fun ho => ?_⟩⟩
  · intro h'
    obtain ⟨j, hj, ho⟩ := h'
    obtain ⟨hmark, hj, -⟩ := mem_walk_found.mp hj
    exact t.inside_opens h ((hinside j hmark).resolve_right hj) ho hx
  · obtain ⟨j, ⟨⟨hk, hlt⟩, e, hentry, hsilent⟩, ho⟩ := t.exists_inside h ho
    have hall := exhausted_of_not_reached hreached
    have hmark : (a.walk visited (t.entries k)).visited.contains j = true := by
      clear ho hk hlt
      induction hsilent with
      | refl =>
        obtain ⟨n, -, hn⟩ := hnodes (t.mem_entries hentry).1 (t.mem_entries hentry).2
        exact hall.stack e hentry (Array.getElem?_eq_some_iff.mp hn).1
      | tail _ hstep ih =>
        obtain ⟨hcontrol, he⟩ := hstep
        obtain ⟨he, hk, hlt⟩ := edge_within.mp he
        exact hall.edges _ ih (hnew _ hk hlt) (control_within hcontrol) _ he (ha _ _ he)
    exact ⟨j, mem_walk_found.mpr ⟨hmark, hnew j hk hlt, isValue_of_occurrence? ho⟩, ho⟩

end Inside

end Tree
end RegexDiagram
