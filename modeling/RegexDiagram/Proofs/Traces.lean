import RegexDiagram.Proofs.Fragments
import RegexDiagram.Proofs.Language

/-!
Traces through an automaton. A trace that enters the nodes of a tree and ends behind them leaves
them by their exit, having read a word of the tree, and every word of the tree is read on the way
from an entry to the exit. Loops go by the number of edges.
-/
namespace RegexDiagram

open Computability

/-- The occurrence that a value node stands for. -/
def Node.occurrence? (n : Node) : Option Occurrence := n.value?.map (⟨n.index, ·⟩)

namespace Automaton

def Edge (a : Automaton) (i j : Nat) : Prop := ∃ n, a.nodes[i]? = some n ∧ some j ∈ n.next

def occurrence? (a : Automaton) (i : Nat) : Option Occurrence :=
  a.nodes[i]?.bind Node.occurrence?

/-- A trace of so many edges from one node to another, and the occurrences that it leaves behind. -/
inductive Trace (a : Automaton) : Nat → Nat → List Occurrence → Nat → Prop
  | refl (i : Nat) : Trace a 0 i [] i
  | step {n i m j : Nat} {u : List Occurrence} (he : a.Edge i m) (ht : Trace a n m u j) :
      Trace a (n + 1) i ((a.occurrence? i).toList ++ u) j

variable {a : Automaton} {i j k m n : Nat} {u v : List Occurrence}

theorem edge_iff {node : Node} (h : a.nodes[i]? = some node) :
    a.Edge i j ↔ some j ∈ node.next := by
  constructor
  · intro hx
    obtain ⟨node', h', hj⟩ := hx
    obtain rfl := Option.some.inj (h.symm.trans h')
    exact hj
  · exact fun hj => ⟨node, h, hj⟩

theorem occurrence?_of_control {node : Node} (h : a.nodes[i]? = some node)
    (hn : node.value? = none) : a.occurrence? i = none := by
  simp only [occurrence?, h, Option.bind_some, Node.occurrence?, hn, Option.map_none]

theorem occurrence?_of_value {node : Node} {value : Value} (h : a.nodes[i]? = some node)
    (hn : node.value? = some value) : a.occurrence? i = some ⟨node.index, value⟩ := by
  simp only [occurrence?, h, Option.bind_some, Node.occurrence?, hn, Option.map_some]

theorem Trace.trans (h : a.Trace m i u j) (h' : a.Trace n j v k) :
    ∃ n', a.Trace n' i (u ++ v) k := by
  induction h with
  | refl i => exact ⟨n, h'⟩
  | step he ht ih =>
    obtain ⟨n', hn'⟩ := ih h'
    exact ⟨n' + 1, by rw [List.append_assoc]; exact .step he hn'⟩

theorem Trace.exists_edge (h : a.Trace n i u j) (hij : i ≠ j) :
    ∃ n' m v, n' < n ∧ a.Edge i m ∧ u = (a.occurrence? i).toList ++ v ∧ a.Trace n' m v j := by
  cases h with
  | refl => exact absurd rfl hij
  | step he ht => exact ⟨_, _, _, Nat.lt_succ_self _, he, rfl, ht⟩

theorem Trace.exists_edge_of_control {node : Node} (h : a.Trace n i u j) (hij : i ≠ j)
    (hi : a.nodes[i]? = some node) (hn : node.value? = none) :
    ∃ n' m, n' < n ∧ some m ∈ node.next ∧ a.Trace n' m u j := by
  obtain ⟨n', m, v, hlt, he, rfl, ht⟩ := h.exists_edge hij
  rw [occurrence?_of_control hi hn]
  exact ⟨n', m, hlt, (edge_iff hi).mp he, ht⟩

theorem Trace.step_of_control {node : Node} (h : a.Trace n m u j) (hi : a.nodes[i]? = some node)
    (hn : node.value? = none) (hm : some m ∈ node.next) : a.Trace (n + 1) i u j := by
  have ht := Trace.step ((edge_iff hi).mpr hm) h
  rwa [occurrence?_of_control hi hn] at ht

/-- A trace that starts with a word and then goes on elsewhere, with fewer edges. -/
def Passes (a : Automaton) (L : Language Occurrence) (n : Nat) (u : List Occurrence)
    (x z : Nat) : Prop :=
  ∃ m v w, m < n ∧ u = v ++ w ∧ v ∈ L ∧ a.Trace m x w z

variable {L M : Language Occurrence} {x y z : Nat}

theorem Passes.mul (h : a.Passes L n u y z)
    (hy : ∀ m w, a.Trace m y w z → a.Passes M m w x z) : a.Passes (L * M) n u x z := by
  obtain ⟨m, v, w, hm, rfl, hv, ht⟩ := h
  obtain ⟨m', v', w', hm', rfl, hv', ht⟩ := hy m w ht
  refine ⟨m', v ++ v', w', hm'.trans hm, (List.append_assoc ..).symm, ?_, ht⟩
  exact Language.append_mem_mul hv hv'

theorem Passes.mono (h : a.Passes L n u x z) (hL : ∀ v ∈ L, v ∈ M) : a.Passes M n u x z := by
  obtain ⟨m, v, w, hm, hu, hv, ht⟩ := h
  exact ⟨m, v, w, hm, hu, hL v hv, ht⟩

/-- A loop: from `y` there is a way out to `x`, and a way through a word back to `y`. -/
theorem passes_kstar {s : Nat}
    (hy : ∀ n u, a.Trace n y u z → ∃ m < n, a.Trace m s u z ∨ a.Trace m x u z)
    (hs : ∀ n u, a.Trace n s u z → a.Passes L n u y z) (h : a.Trace n y u z) :
    a.Passes L∗ n u x z := by
  induction n using Nat.strong_induction_on generalizing u with
  | _ n ih =>
    obtain ⟨m, hm, ht | ht⟩ := hy n u h
    · obtain ⟨m', v, w, hm', rfl, hv, ht⟩ := hs m u ht
      obtain ⟨m'', v', w', hm'', rfl, hv', ht⟩ := ih m' (hm'.trans hm) ht
      refine ⟨m'', v ++ v', w', by omega, (List.append_assoc ..).symm, ?_, ht⟩
      rw [← Language.one_add_self_mul_kstar_eq_kstar, Language.mem_add]
      exact .inr (Language.append_mem_mul hv hv')
    · exact ⟨m, [], u, hm, rfl, Language.nil_mem_kstar L, ht⟩

/-- Going through a loop any number of times. -/
theorem exists_trace_kstar {s : Nat} {node : Node} (hnode : a.nodes[y]? = some node)
    (hcontrol : node.value? = none) (hs : some s ∈ node.next) (hx : some x ∈ node.next)
    (hloop : ∀ v ∈ L, ∃ n, a.Trace n s v y) (hu : u ∈ L∗) : ∃ n, a.Trace n y u x := by
  obtain ⟨vs, rfl, hvs⟩ := Language.mem_kstar.mp hu
  clear hu
  induction vs with
  | nil => exact ⟨1, (Trace.refl x).step_of_control hnode hcontrol hx⟩
  | cons v vs ih =>
    obtain ⟨n, ht⟩ := ih fun w hw => hvs w (List.mem_cons_of_mem v hw)
    obtain ⟨m, hv⟩ := hloop v (hvs v List.mem_cons_self)
    obtain ⟨n, ht⟩ := hv.trans ht
    exact ⟨n + 1, ht.step_of_control hnode hcontrol hs⟩

end Automaton

namespace Tree

open Automaton

variable {l : Precedence} {a : Automaton} {k x z e n : Nat} {i : Inlet} {q : Option Quantifier}
  {u : List Occurrence}

theorem value?_ofToken {t : Token} {v : Value} (ht : t.piece = .value v) :
    (Node.ofToken t).value? = some v := by
  simp [Node.value?, Node.ofToken, ht]

theorem value?_ofToken_of_control {t : Token} (ht : ∀ v, t.piece ≠ .value v) :
    (Node.ofToken t).value? = none := by
  unfold Node.value? Node.ofToken
  split
  · next v h => exact absurd (Node.Kind.piece.inj h) (ht v)
  · rfl

theorem exists_fork (t : Tree l) (hc : t.isChoice = true) (h : a.Holds k (t.forkNodes k i)) :
    ∃ node, a.nodes[k]? = some node ∧ node.kind ≠ .last ∧ node.value? = none ∧
      node.next = (t.entries (k + 1)).map some := by
  cases t with
  | alternation e tok htok g =>
    have hcontrol : (Node.ofToken tok).value? = none := value?_ofToken_of_control (by simp [htok])
    exact ⟨_, h.1, by simp [Node.ofToken], hcontrol, rfl⟩
  | _ => simp [isChoice] at hc

theorem passes_nodes_of (t : Tree l)
    (ht : ∀ k e n i, a.Holds k (t.branchNodes k [x] i q) → (z < k ∨ k + t.branchSize ≤ z) →
      e ∈ t.entries k → a.Trace n e u z → a.Passes t.words n u x z)
    (h : a.Holds k (t.nodes k [x] i q)) (hz : z < k ∨ k + t.size ≤ z)
    (htrace : a.Trace n k u z) : a.Passes t.words n u x z := by
  obtain ⟨hfork, hbranches⟩ := (eachFrom_nodes ..).mp h
  rw [size] at hz
  cases hc : t.isChoice with
  | false =>
    rw [t.forkSize_of_not_isChoice hc] at hbranches hz
    refine ht k k n _ hbranches (by omega) ?_ htrace
    rw [(t.single_branch hc k).1]
    exact List.mem_singleton_self k
  | true =>
    have hsize : t.forkSize = 1 := by rw [forkSize, hc]; rfl
    rw [hsize] at hbranches hz
    obtain ⟨node, hnode, -, hcontrol, hnext⟩ := t.exists_fork hc hfork
    have hpos := t.branchSize_pos
    obtain ⟨n', e, hlt, he, htrace⟩ := htrace.exists_edge_of_control (by omega) hnode hcontrol
    rw [hnext, List.mem_map_of_injective (Option.some_injective _)] at he
    obtain ⟨m, v, w, hm, hw⟩ := ht (k + 1) e n' _ hbranches (by omega) he htrace
    exact ⟨m, v, w, hm.trans hlt, hw⟩

/-- A trace through the nodes of a tree reads one of its words and leaves by the exit. -/
theorem passes_branchNodes (t : Tree l) (h : a.Holds k (t.branchNodes k [x] i q))
    (hz : z < k ∨ k + t.branchSize ≤ z) (he : e ∈ t.entries k) (ht : a.Trace n e u z) :
    a.Passes t.words n u x z := by
  induction t generalizing k x e i q n u with
  | value t v hv =>
    obtain rfl := List.mem_singleton.mp he
    simp only [branchSize] at hz
    obtain ⟨n', m, w, hlt, hedge, hu, hrest⟩ := ht.exists_edge (by omega)
    obtain rfl : m = x := by simpa using (edge_iff h.1).mp hedge
    rw [occurrence?_of_value h.1 (value?_ofToken hv)] at hu
    exact ⟨n', _, w, hlt, hu, rfl, hrest⟩
  | group opening closing ho hc body ih =>
    obtain rfl := List.mem_singleton.mp he
    obtain ⟨hopen, hbody, hclose⟩ := (eachFrom_group ..).mp h
    simp only [branchSize] at hz
    obtain ⟨n₁, m, hlt₁, hm, ht⟩ := ht.exists_edge_of_control (by omega) hopen
      (value?_ofToken_of_control (by simp [ho]))
    obtain rfl : m = e + 1 := by simpa [opener] using hm
    obtain ⟨n₂, v, w, hlt₂, rfl, hv, ht⟩ := body.passes_nodes_of
      (fun _ _ _ _ h hz he ht => ih h hz he ht) hbody (by simp only [size]; omega) ht
    obtain ⟨n₃, m, hlt₃, hm, ht⟩ :=
      ht.exists_edge_of_control (by simp only [size]; omega) hclose rfl
    obtain rfl : m = x := by simpa [closer] using hm
    exact ⟨n₃, v, w, by omega, rfl, hv, ht⟩
  | quantified b t q' hq hl ih =>
    obtain rfl := List.mem_singleton.mp he
    have hb (k : Nat) : k ∈ b.entries k := by
      simp [(b.single_branch (b.isChoice_of_ne (by simp)) k).1]
    have hcontrol : (Node.ofToken t).value? = none := value?_ofToken_of_control (by simp [hq])
    simp only [branchSize] at hz
    cases q' with
    | optional =>
      obtain ⟨n₁, m, hlt₁, hm, ht⟩ := ht.exists_edge_of_control (by omega) h.1 hcontrol
      simp only [List.map_cons, List.map_nil, List.mem_cons, Option.some.injEq, List.not_mem_nil,
        or_false] at hm
      rcases hm with rfl | rfl
      · obtain ⟨n₂, v, w, hlt₂, hu, hv, ht⟩ := ih h.2 (by omega) (hb _) ht
        exact ⟨n₂, v, w, hlt₂.trans hlt₁, hu, (Language.mem_add _ _ _).mpr (.inr hv), ht⟩
      · exact ⟨n₁, [], u, hlt₁, rfl, (Language.mem_add _ _ _).mpr (.inl rfl), ht⟩
    | star =>
      refine passes_kstar (s := e + 1) (fun n u ht => ?_) (fun n u => ih h.2 (by omega) (hb _)) ht
      obtain ⟨m, j, hlt, hj, ht⟩ := ht.exists_edge_of_control (by omega) h.1 hcontrol
      simp only [List.map_cons, List.map_nil, List.mem_cons, Option.some.injEq, List.not_mem_nil,
        or_false] at hj
      rcases hj with rfl | rfl
      · exact ⟨m, hlt, .inl ht⟩
      · exact ⟨m, hlt, .inr ht⟩
    | plus =>
      rw [branchNodes, holds_append, length_branchNodes] at h
      have hbody (n : Nat) (u : List Occurrence) := ih (n := n) (u := u) h.1 (by omega) (hb _)
      refine (hbody n u ht).mul fun n u ht => passes_kstar (s := e) (fun n u ht => ?_) hbody ht
      obtain ⟨m, j, hlt, hj, hrest⟩ := ht.exists_edge_of_control (by omega) h.2.1 hcontrol
      simp only [List.map_cons, List.map_nil, List.mem_cons, Option.some.injEq, List.not_mem_nil,
        or_false] at hj
      rcases hj with rfl | rfl
      · exact ⟨m, hlt, .inl hrest⟩
      · exact ⟨m, hlt, .inr hrest⟩
  | concat f g hl ihf ihg =>
    rw [branchNodes, holds_append, length_branchNodes] at h
    simp only [branchSize] at hz
    obtain rfl := List.mem_singleton.mp he
    have hf := (f.single_branch (f.isChoice_of_ne (by simp)) e).1
    have hg := (g.single_branch (g.isChoice_of_ne (by simp)) (e + f.branchSize)).1
    exact (ihf h.1 (by omega) (by simp [hf]) ht).mul
      fun m w ht => ihg h.2 (by omega) (by simp [hg]) ht
  | alternation e' t htok g ihe ihg =>
    rw [branchNodes, holds_append, length_branchNodes] at h
    simp only [branchSize] at hz
    have hg := (g.single_branch (g.isChoice_of_ne (by simp)) (k + e'.branchSize)).1
    rcases List.mem_append.mp he with he | he
    · exact (ihe h.1 (by omega) he ht).mono fun v hv => (Language.mem_add _ _ _).mpr (.inl hv)
    · exact (ihg h.2 (by omega) (by rwa [hg]) ht).mono fun v hv =>
        (Language.mem_add _ _ _).mpr (.inr hv)

theorem trace_of_entry (t : Tree l) (hc : t.isChoice = false)
    (h : ∃ e ∈ t.entries k, ∃ n, a.Trace n e u x) : ∃ n, a.Trace n k u x := by
  obtain ⟨e, he, ht⟩ := h
  rw [(t.single_branch hc k).1, List.mem_singleton] at he
  exact he ▸ ht

/-- From the start of a tree to its exit, by way of its fork. -/
theorem exists_trace_nodes_of (t : Tree l)
    (ht : ∀ k i, a.Holds k (t.branchNodes k [x] i q) → ∃ e ∈ t.entries k, ∃ n, a.Trace n e u x)
    (h : a.Holds k (t.nodes k [x] i q)) : ∃ n, a.Trace n k u x := by
  obtain ⟨hfork, hbranches⟩ := (eachFrom_nodes ..).mp h
  have htrace := ht _ _ hbranches
  cases hc : t.isChoice with
  | false =>
    rw [t.forkSize_of_not_isChoice hc] at htrace
    exact t.trace_of_entry hc htrace
  | true =>
    obtain ⟨node, hnode, -, hcontrol, hnext⟩ := t.exists_fork hc hfork
    have hsize : t.forkSize = 1 := by rw [forkSize, hc]; rfl
    rw [hsize] at htrace
    obtain ⟨e, he, n, htrace⟩ := htrace
    exact ⟨n + 1, htrace.step_of_control hnode hcontrol (hnext ▸ List.mem_map_of_mem he)⟩

/-- Every word of a tree is read between one of its entries and its exit. -/
theorem exists_trace_branchNodes (t : Tree l) (h : a.Holds k (t.branchNodes k [x] i q))
    (hu : u ∈ t.words) : ∃ e ∈ t.entries k, ∃ n, a.Trace n e u x := by
  induction t generalizing k x i q u with
  | value t v hv =>
    obtain rfl : u = _ := hu
    refine ⟨k, List.mem_singleton_self k, 1, ?_⟩
    have hread := occurrence?_of_value h.1 (value?_ofToken hv)
    have htrace := Trace.step ((edge_iff h.1).mpr (by simp)) (.refl x)
    rw [hread] at htrace
    exact htrace
  | group opening closing ho hc body ih =>
    obtain ⟨hopen, hbody, hclose⟩ := (eachFrom_group ..).mp h
    obtain ⟨n, ht⟩ := body.exists_trace_nodes_of (fun _ _ h => ih h hu) hbody
    obtain ⟨n, ht⟩ := ht.trans
      ((Trace.refl x).step_of_control hclose rfl (by simp [closer]))
    rw [List.append_nil] at ht
    refine ⟨k, List.mem_singleton_self k, n + 1, ?_⟩
    exact ht.step_of_control hopen (value?_ofToken_of_control (by simp [ho])) (by simp [opener])
  | quantified b t q' hq hl ih =>
    have hb : b.isChoice = false := b.isChoice_of_ne (by simp)
    have hcontrol : (Node.ofToken t).value? = none := value?_ofToken_of_control (by simp [hq])
    refine ⟨k, List.mem_singleton_self k, ?_⟩
    cases q' with
    | optional =>
      rcases (Language.mem_add _ _ _).mp hu with rfl | hu
      · exact ⟨1, (Trace.refl x).step_of_control h.1 hcontrol (by simp)⟩
      · obtain ⟨n, ht⟩ := b.trace_of_entry hb (ih h.2 hu)
        exact ⟨n + 1, ht.step_of_control h.1 hcontrol (by simp)⟩
    | star =>
      exact exists_trace_kstar h.1 hcontrol (s := k + 1) (by simp) (by simp)
        (fun v hv => b.trace_of_entry hb (ih h.2 hv)) hu
    | plus =>
      rw [branchNodes, holds_append, length_branchNodes] at h
      have hbody (v : List Occurrence) (hv : v ∈ b.words) := b.trace_of_entry hb (ih h.1 hv)
      obtain ⟨v, hv, w, hw, rfl⟩ := Language.mem_mul.mp hu
      obtain ⟨n, ht⟩ := hbody v hv
      obtain ⟨m, ht'⟩ := exists_trace_kstar h.2.1 hcontrol (s := k) (x := x) (by simp) (by simp)
        hbody hw
      exact ht.trans ht'
  | concat f g hl ihf ihg =>
    rw [branchNodes, holds_append, length_branchNodes] at h
    obtain ⟨v, hv, w, hw, rfl⟩ := Language.mem_mul.mp hu
    obtain ⟨n, ht⟩ := f.trace_of_entry (f.isChoice_of_ne (by simp)) (ihf h.1 hv)
    obtain ⟨m, ht'⟩ := g.trace_of_entry (g.isChoice_of_ne (by simp)) (ihg h.2 hw)
    exact ⟨k, List.mem_singleton_self k, ht.trans ht'⟩
  | alternation e t htok g ihe ihg =>
    rw [branchNodes, holds_append, length_branchNodes] at h
    rcases (Language.mem_add _ _ _).mp hu with hu | hu
    · obtain ⟨e', he', ht⟩ := ihe h.1 hu
      exact ⟨e', List.mem_append_left _ he', ht⟩
    · obtain ⟨e', he', ht⟩ := ihg h.2 hu
      rw [(g.single_branch (g.isChoice_of_ne (by simp)) _).1] at he'
      exact ⟨e', List.mem_append_right _ he', ht⟩

end Tree
end RegexDiagram
