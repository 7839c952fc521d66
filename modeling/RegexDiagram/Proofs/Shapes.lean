import RegexDiagram.Proofs.Display

/-!
The shapes of a drawing. A link, a fork or a merge is drawn by the fields that its node happens to
have, and each of the three looks at other fields. That every node is led to by exactly one of them
is a matter of how trees are built: a node hangs on a fork as one of its branches, or it stands
behind nodes that are no forks, and a fork itself is led to by nothing, as it is drawn over the node
in front of it.
-/
namespace RegexDiagram

open List (Forall₂)

namespace Automaton

variable {a : Automaton} {i : Inlet} {j k : Nat} {n : Node}

def ForkAt (a : Automaton) (i : Nat) : Prop := ∃ n, a.nodes[i]? = some n ∧ n.isFork = true

/-- A node at `j` can hang on the inlet: behind nodes that are no forks, or as the branch of a
fork. -/
structure Admits (a : Automaton) (j : Nat) (i : Inlet) : Prop where
  ordered : i.sources.Pairwise (· < ·)
  behind : i.branch = none → ∀ s ∈ i.sources, ¬a.ForkAt s
  branch : ∀ b, i.branch = some b → ∃ s m f, i.sources = [s] ∧ a.nodes[s]? = some m ∧
    m.fork = some f ∧ f.branches[b]? = some j

theorem admits_behind {s : Nat} (hs : ¬a.ForkAt s) (j : Nat) : a.Admits j ⟨[s], none⟩ where
  ordered := List.pairwise_singleton _ s
  behind _ := by simpa using hs
  branch := by simp

/-- What shapes rely on at a node. -/
structure Joined (a : Automaton) (j : Nat) (n : Node) : Prop where
  fork : n.fork.isSome = n.isFork
  bare : n.isFork = true → n.branch = none
  inlet : a.Admits j ⟨n.sources, n.branch⟩

theorem Admits.joined (h : a.Admits j i) (hs : n.sources = i.sources) (hb : n.branch = i.branch)
    (hfork : n.fork = none) (hkind : n.isFork = false) : a.Joined j n where
  fork := by rw [hfork, hkind, Option.isSome_none]
  bare h' := by simp [hkind] at h'
  inlet := by rw [hs, hb]; exact h

theorem admits_nil (a : Automaton) (j : Nat) : a.Admits j {} where
  ordered := List.Pairwise.nil
  behind := by simp
  branch := by simp

end Automaton

namespace Tree

open Automaton

variable {l : Precedence} {a : Automaton} {k : Nat} {exit : List Nat} {i : Inlet}
  {q : Option Quantifier}

theorem pairwise_drawnExits (t : Tree l) (k : Nat) : (t.drawnExits k).Pairwise (· < ·) := by
  induction t generalizing k with
  | quantified a t q hq hl ih =>
    rw [drawnExits]
    split
    · exact ih k
    · exact ih (k + 1)
  | concat f g hl _ ihg => exact ihg (k + f.branchSize)
  | alternation e t ht g ihe ihg =>
    rw [drawnExits, List.pairwise_append]
    refine ⟨ihe k, ihg (k + e.branchSize), ?_⟩
    intro x hx y hy
    have hleft := e.mem_drawnExits hx
    have hright := g.mem_drawnExits hy
    omega
  | _ => exact List.pairwise_singleton ..

theorem admits_drawnExits (t : Tree l) (h : a.Holds k (t.branchNodes k exit i q)) (j : Nat) :
    a.Admits j ⟨t.drawnExits k, none⟩ where
  ordered := t.pairwise_drawnExits k
  behind _ := by
    intro s hs hfork
    obtain ⟨m, hm, hkind⟩ := hfork
    obtain ⟨n, hn, hend⟩ := t.kind_drawnExits h s hs
    obtain rfl := Option.some.inj (hn.symm.trans hm)
    rcases hend with ⟨v, hv⟩ | hclose
    · simp [Node.isFork, hv] at hkind
    · simp [Node.isFork, hclose] at hkind
  branch := by simp

/-- The branches of a tree can be drawn from where they start: the first one hangs on the inlet as
it is, and the others are its further branches. -/
def Opens (t : Tree l) (a : Automaton) (k : Nat) (i : Inlet) : Prop :=
  ∀ b j, (t.drawnEntries k)[b]? = some j →
    a.Admits j (if b = 0 then i else { i with branch := some b })

theorem opens_iff (t : Tree l) (ht : t.isChoice = false) :
    t.Opens a k i ↔ a.Admits (k + t.lead) i := by
  unfold Opens
  rw [(t.single_branch ht k).2.1]
  constructor
  · intro h
    simpa using h 0 _ rfl
  · intro h b j hj
    obtain ⟨hb, rfl⟩ := List.getElem?_eq_some_iff.mp hj
    obtain rfl : b = 0 := by simpa using hb
    simpa using h

theorem joined_quantifier {t : Token} {q : Quantifier} (hq : t.piece = .quantifier q)
    (next : List (Option Nat)) : a.Joined k { Node.ofToken t with next := next } :=
  (a.admits_nil k).joined rfl rfl rfl (by simp [Node.isFork, Node.ofToken, hq])

/-- The nodes of a level behind a node that is no fork, if those behind its own fork are known. -/
theorem joined_nodes_of (e : Tree l) {s : Nat}
    (he : ∀ k i, a.Holds k (e.branchNodes k exit i q) → e.Opens a k i →
      EachFrom a.Joined k (e.branchNodes k exit i q))
    (h : a.Holds k (e.nodes k exit ⟨[s], none⟩ q)) (hs : ¬a.ForkAt s) :
    EachFrom a.Joined k (e.nodes k exit ⟨[s], none⟩ q) := by
  cases hc : e.isChoice with
  | false =>
    rw [e.nodes_of_not_isChoice hc] at h ⊢
    exact he k _ h ((e.opens_iff hc).mpr (admits_behind hs _))
  | true =>
    obtain ⟨hfork, hbranches⟩ := (eachFrom_nodes ..).mp h
    apply (eachFrom_nodes ..).mpr
    cases e with
    | alternation e t ht g =>
      have hkind : (Node.ofToken t).kind = .piece .alternation := by rw [Node.ofToken, ht]
      constructor
      · exact ⟨⟨by simp [Node.isFork, hkind], fun _ => rfl, admits_behind hs k⟩, trivial⟩
      · apply he _ _ hbranches
        intro b j hj
        have hbranch : a.Admits j ⟨[k], some b⟩ := by
          refine ⟨List.pairwise_singleton _ k, by simp, ?_⟩
          intro c hc
          obtain rfl : b = c := by simpa using hc
          exact ⟨k, _, _, rfl, hfork.1, rfl, hj⟩
        by_cases hb : b = 0
        · simpa [hb, branchInlet, isChoice] using hbranch
        · simpa [hb, branchInlet, isChoice] using hbranch
    | _ => simp [isChoice] at hc

theorem joined_branchNodes (t : Tree l) (h : a.Holds k (t.branchNodes k exit i q))
    (hi : t.Opens a k i) : EachFrom a.Joined k (t.branchNodes k exit i q) := by
  induction t generalizing k exit i q with
  | value t v hv =>
    have hadmits : a.Admits k i := (opens_iff _ rfl).mp hi
    exact ⟨hadmits.joined rfl rfl rfl (by simp [Node.isFork, Node.ofToken, hv]), trivial⟩
  | group opening closing ho hc body ih =>
    obtain ⟨hopen, hbody, hclose⟩ := (eachFrom_group ..).mp h
    have hadmits : a.Admits k i := (opens_iff _ rfl).mp hi
    have hkind : (opener opening k body.size i q).isFork = false := by
      simp [opener, Node.isFork, Node.ofToken, ho]
    have hplain : ¬a.ForkAt k := by
      intro hfork
      obtain ⟨m, hm, hfork⟩ := hfork
      obtain rfl := Option.some.inj (hopen.symm.trans hm)
      simp [hkind] at hfork
    have hexits := body.admits_drawnExits ((eachFrom_nodes ..).mp hbody).2
    apply (eachFrom_group ..).mpr
    refine ⟨hadmits.joined rfl rfl rfl hkind, ?_, (hexits _).joined rfl rfl rfl rfl⟩
    exact body.joined_nodes_of (fun _ _ h hi => ih h hi) hbody hplain
  | quantified b t q' hq hl ih =>
    have hchoice : b.isChoice = false := b.isChoice_of_ne (by simp)
    have hadmits := (opens_iff _ rfl).mp hi
    simp only [lead] at hadmits
    cases q' with
    | plus =>
      have hb : b.Opens a k i := (b.opens_iff hchoice).mpr (by simpa [b.lead_of_atom] using hadmits)
      exact (eachFrom_append ..).mpr
        ⟨ih (holds_append.mp h).1 hb, joined_quantifier hq _, trivial⟩
    | _ =>
      have hb : b.Opens a (k + 1) i :=
        (b.opens_iff hchoice).mpr (by simpa [b.lead_of_atom] using hadmits)
      exact ⟨joined_quantifier hq _, ih h.2 hb⟩
  | concat f g hl ihf ihg =>
    rw [branchNodes, holds_append, length_branchNodes] at h
    have hadmits : a.Admits (k + f.lead) i := ((concat f g hl).opens_iff rfl).mp hi
    have hf : f.Opens a k i := (f.opens_iff (f.isChoice_of_ne (by simp))).mpr hadmits
    have hg : g.Opens a (k + f.branchSize) ⟨f.drawnExits k, none⟩ :=
      (g.opens_iff (g.isChoice_of_ne (by simp))).mpr (f.admits_drawnExits h.1 _)
    rw [branchNodes, eachFrom_append, length_branchNodes]
    exact ⟨ihf h.1 hf, ihg h.2 hg⟩
  | alternation e t ht g ihe ihg =>
    rw [branchNodes, holds_append, length_branchNodes] at h
    have hcount := e.length_drawnEntries k
    have hpos := e.branchCount_pos
    have he : e.Opens a k i := by
      intro b j hj
      have hlt := (List.getElem?_eq_some_iff.mp hj).1
      apply hi b j
      rw [drawnEntries, List.getElem?_append_left hlt, hj]
    have hg : g.Opens a (k + e.branchSize) { i with branch := some e.branchCount } := by
      apply (g.opens_iff (g.isChoice_of_ne (by simp))).mpr
      have hlast := hi e.branchCount (k + e.branchSize + g.lead) (by simp [drawnEntries, hcount])
      rwa [if_neg (by omega)] at hlast
    rw [branchNodes, eachFrom_append, length_branchNodes]
    exact ⟨ihe h.1 he, ihg h.2 hg⟩

end Tree

/-- What is known of the links of all nodes. -/
structure Automaton.Jointed (a : Automaton) : Prop where
  linked : ∀ i n, a.nodes[i]? = some n → a.Linked i n
  joined : ∀ i n, a.nodes[i]? = some n → a.Joined i n
  hanging : ∀ i n f, a.nodes[i]? = some n → n.fork = some f → ∀ b j, f.branches[b]? = some j →
    a.HangsOn ⟨[i], some b⟩ j
  start : ∃ n, a.nodes[0]? = some n ∧ n.kind = .first
  first : ∀ i n, a.nodes[i]? = some n → (n.kind = .first ↔ i = 0)

namespace Expression

open Automaton

theorem joined_nodes (A : Expression) : EachFrom A.automaton.Joined 0 A.nodes := by
  have hplain : ¬A.automaton.ForkAt 0 := by
    intro hfork
    obtain ⟨n, hn, hkind⟩ := hfork
    obtain rfl := Option.some.inj (A.first_node.symm.trans hn)
    simp [Node.isFork] at hkind
  have hfirst : A.automaton.Joined 0 { kind := .first, next := [some 1] } :=
    (admits_nil _ 0).joined rfl rfl rfl rfl
  have h := A.holds_nodes
  cases A with
  | none => exact ⟨hfirst, (admits_behind hplain 1).joined rfl rfl rfl rfl, trivial⟩
  | some e =>
    have htree := ((eachFrom_some _ e).mp h).2.1
    have hexits := e.admits_drawnExits ((eachFrom_nodes ..).mp htree).2
    refine (eachFrom_some _ e).mpr ⟨hfirst, ?_, (hexits _).joined rfl rfl rfl rfl⟩
    exact e.joined_nodes_of (fun _ _ h hi => e.joined_branchNodes h hi) htree hplain

theorem jointed (A : Expression) : A.automaton.Jointed where
  linked := A.linked_automaton
  joined i n hn := by
    simpa using (eachFrom_iff _ 0 A.nodes).mp A.joined_nodes i n (by simpa [automaton] using hn)
  hanging i n f hn hf := by
    have hjoined := (eachFrom_iff _ 0 A.nodes).mp A.joined_nodes i n (by simpa [automaton] using hn)
    have hfork : n.isFork = true := by rw [← hjoined.fork, hf, Option.isSome_some]
    have hmem : (n, i) ∈ A.automaton.forks := by
      simp [Automaton.forks, select, List.mem_zipIdx_iff_getElem?, hn, hfork]
    obtain ⟨b, hb⟩ := List.mem_iff_getElem?.mp hmem
    obtain ⟨e, -, f', hbranches⟩ := exists_getElem?_right A.forkOf_choices hb
    obtain rfl := Option.some.inj (hf.symm.trans hbranches.fork)
    exact hbranches.hanging
  start := ⟨_, A.first_node, rfl⟩
  first := A.automaton_wellFormed.first

end Expression

/-- Shapes between nodes, which are given by their positions in the automaton. -/
structure Shapes where
  /-- The two ends of each link. -/
  links : List (Nat × Nat)
  /-- Each fork with the starts of its branches. -/
  forks : List (Nat × List Nat)
  /-- Each node at which lines meet with the nodes they come from. -/
  merges : List (Nat × List Nat)

/-- The nodes that the shapes lead to. -/
def Shapes.targets (s : Shapes) : List Nat :=
  s.links.map (·.2) ++ s.forks.flatMap (·.2) ++ s.merges.map (·.1)

/-- The shapes that an automaton is drawn with. -/
def Automaton.shapes (a : Automaton) : Shapes where
  links := (Graph.drawnNodes a).filterMap fun x => x.1.linkSource?.map fun s => (s, x.2)
  forks := (Graph.drawnNodes a).filterMap fun x => x.1.fork.map fun f => (x.2, f.branches)
  merges := (Graph.drawnNodes a).filterMap fun x => x.1.mergeSources?.map fun ss => (x.2, ss)

/-- The node at `j` needs a line to it: it is drawn, and it is neither `first` nor a fork. -/
def Automaton.Target (a : Automaton) (j : Nat) : Prop :=
  ∃ n, (n, j) ∈ Graph.drawnNodes a ∧ n.kind ≠ .first ∧ n.isFork = false

/-- The shapes are those of the lines of the automaton. -/
structure Automaton.Outlined (a : Automaton) (s : Shapes) : Prop where
  link : ∀ i j, (i, j) ∈ s.links ↔ a.Target j ∧ ¬a.ForkAt i ∧ ∃ n, a.nodes[j]? = some n ∧
    n.sources = [i]
  fork : ∀ i js, (i, js) ∈ s.forks ↔ a.ForkAt i ∧
    ∀ b j, js[b]? = some j ↔ a.HangsOn ⟨[i], some b⟩ j
  merge : ∀ j is, (j, is) ∈ s.merges ↔ a.Target j ∧ 1 < is.length ∧ ∃ n, a.nodes[j]? = some n ∧
    n.sources = is
  ordered : ∀ j is, (j, is) ∈ s.merges → is.Pairwise (· < ·)
  forks : (s.forks.map (·.1)).Nodup
  once : s.targets.Nodup
  target : ∀ j, j ∈ s.targets ↔ a.Target j

theorem Node.linkSource?_eq_some {n : Node} {s : Nat} : n.linkSource? = some s ↔
    n.kind ≠ .first ∧ n.fork = none ∧ n.branch = none ∧ n.sources = [s] := by
  rw [linkSource?]
  split
  · rename_i hno
    simp only [reduceCtorEq, false_iff, not_and]
    intro hkind hfork hbranch
    simp [hkind, hfork, hbranch] at hno
  · rename_i hlink
    simp only [not_or, Option.not_isSome_iff_eq_none] at hlink
    obtain ⟨hkind, hfork, hbranch⟩ := hlink
    split
    · rename_i hs
      simp [hkind, hfork, hbranch, hs]
    · rename_i hs
      simp only [reduceCtorEq, false_iff, not_and]
      intro _ _ _ hsingle
      exact hs s hsingle

theorem Node.mergeSources?_eq_some {n : Node} {ss : List Nat} : n.mergeSources? = some ss ↔
    n.fork = none ∧ 1 < ss.length ∧ n.sources = ss := by
  rw [mergeSources?, Option.ite_none_right_eq_some, Option.isNone_iff_eq_none, Option.some_inj]
  constructor
  · intro h
    exact ⟨h.1.1, h.2 ▸ h.1.2, h.2⟩
  · intro h
    exact ⟨⟨h.1, h.2.2 ▸ h.2.1⟩, h.2.2⟩

namespace Automaton

variable {a : Automaton} {i j : Nat} {n : Node}

theorem HangsOn.inlet_unique {x y : Inlet} (hx : a.HangsOn x j) (hy : a.HangsOn y j) : x = y := by
  obtain ⟨n, hn, hs, hb⟩ := hx
  obtain ⟨n', hn', hs', hb'⟩ := hy
  obtain rfl := Option.some.inj (hn.symm.trans hn')
  cases x
  cases y
  simp_all

theorem nodup_links (a : Automaton) : (a.shapes.links.map (·.2)).Nodup :=
  (pairwise_filterMap_drawnNodes a (by simp)).imp Nat.ne_of_lt

theorem nodup_forks (a : Automaton) : (a.shapes.forks.map (·.1)).Nodup :=
  (pairwise_filterMap_drawnNodes a (by simp)).imp Nat.ne_of_lt

theorem nodup_merges (a : Automaton) : (a.shapes.merges.map (·.1)).Nodup :=
  (pairwise_filterMap_drawnNodes a (by simp)).imp Nat.ne_of_lt

theorem mem_links : (i, j) ∈ a.shapes.links ↔
    ∃ n, (n, j) ∈ Graph.drawnNodes a ∧ n.linkSource? = some i := by
  simp [shapes]

theorem mem_forks {js : List Nat} : (i, js) ∈ a.shapes.forks ↔
    ∃ n f, (n, i) ∈ Graph.drawnNodes a ∧ n.fork = some f ∧ f.branches = js := by
  simp only [shapes, List.mem_filterMap, Option.map_eq_some_iff, Prod.exists, Prod.mk.injEq]
  constructor
  · intro h
    obtain ⟨n, k, hn, f, hf, rfl, hjs⟩ := h
    exact ⟨n, f, hn, hf, hjs⟩
  · intro h
    obtain ⟨n, f, hn, hf, hjs⟩ := h
    exact ⟨n, i, hn, f, hf, rfl, hjs⟩

theorem mem_merges {is : List Nat} : (j, is) ∈ a.shapes.merges ↔
    ∃ n, (n, j) ∈ Graph.drawnNodes a ∧ n.mergeSources? = some is := by
  simp [shapes]

namespace Jointed

variable (h : a.Jointed)
include h

theorem fork_eq_none (hn : a.nodes[i]? = some n) : n.fork = none ↔ n.isFork = false := by
  rw [← (h.joined i n hn).fork, Option.isSome_eq_false_iff, Option.isNone_iff_eq_none]

/-- Forks are where there are forks, and they are drawn. -/
theorem forkAt_iff : a.ForkAt i ↔ ∃ n f, (n, i) ∈ Graph.drawnNodes a ∧ n.fork = some f := by
  constructor
  · intro hfork
    obtain ⟨n, hn, hkind⟩ := hfork
    have hsome : n.fork.isSome = true := (h.joined i n hn).fork.trans hkind
    obtain ⟨f, hf⟩ := Option.isSome_iff_exists.mp hsome
    have hdrawn : n.isDrawn = true := by
      have hpiece : n.kind = .piece .alternation := by simpa [Node.isFork] using hkind
      rw [Node.isDrawn, hpiece]
    exact ⟨n, f, Graph.mem_drawnNodes.mpr ⟨hn, hdrawn⟩, hf⟩
  · intro hfork
    obtain ⟨n, f, hmem, hf⟩ := hfork
    have hn := (Graph.mem_drawnNodes.mp hmem).1
    exact ⟨n, hn, by rw [← (h.joined i n hn).fork, hf, Option.isSome_some]⟩

theorem kind_ne_first (hn : a.nodes[i]? = some n) (hs : n.sources ≠ []) : n.kind ≠ .first := by
  intro hkind
  obtain ⟨s, hmem⟩ := List.exists_mem_of_ne_nil _ hs
  have hzero := (h.first i n hn).mp hkind
  have hearlier := ((h.linked i n hn).earlier s hmem).1
  omega

theorem branch_eq_none (hn : a.nodes[j]? = some n) (hs : n.sources = [i]) :
    n.branch = none ↔ ¬a.ForkAt i := by
  have hinlet := (h.joined j n hn).inlet
  constructor
  · intro hb
    exact hinlet.behind hb i (by simp [hs])
  · intro hplain
    cases hb : n.branch with
    | none => rfl
    | some b =>
      obtain ⟨s, m, f, hsources, hm, hf, -⟩ := hinlet.branch b hb
      obtain rfl : i = s := by simpa [hs] using hsources
      exact absurd ⟨m, hm, by rw [← (h.joined i m hm).fork, hf, Option.isSome_some]⟩ hplain

theorem getElem?_branches {f : Fork} (hn : a.nodes[i]? = some n) (hf : n.fork = some f)
    (b j : Nat) : f.branches[b]? = some j ↔ a.HangsOn ⟨[i], some b⟩ j := by
  constructor
  · exact h.hanging i n f hn hf b j
  · intro hhangs
    obtain ⟨m, hm, hs, hb⟩ := hhangs
    obtain ⟨s, m', f', hsources, hm', hf', hget⟩ := (h.joined j m hm).inlet.branch b hb
    obtain rfl : i = s := by simpa [hs] using hsources
    obtain rfl := Option.some.inj (hn.symm.trans hm')
    obtain rfl := Option.some.inj (hf.symm.trans hf')
    exact hget

theorem link_iff : (i, j) ∈ a.shapes.links ↔ a.Target j ∧ ¬a.ForkAt i ∧
    ∃ n, a.nodes[j]? = some n ∧ n.sources = [i] := by
  rw [mem_links]
  constructor
  · intro hlink
    obtain ⟨n, hmem, hlink⟩ := hlink
    obtain ⟨hkind, hfork, hb, hs⟩ := Node.linkSource?_eq_some.mp hlink
    have hn := (Graph.mem_drawnNodes.mp hmem).1
    exact ⟨⟨n, hmem, hkind, (h.fork_eq_none hn).mp hfork⟩, (h.branch_eq_none hn hs).mp hb, n, hn, hs⟩
  · intro hline
    obtain ⟨⟨n, hmem, hkind, hfork⟩, hplain, m, hm, hs⟩ := hline
    have hn := (Graph.mem_drawnNodes.mp hmem).1
    obtain rfl := Option.some.inj (hn.symm.trans hm)
    have hb := (h.branch_eq_none hn hs).mpr hplain
    exact ⟨n, hmem, Node.linkSource?_eq_some.mpr ⟨hkind, (h.fork_eq_none hn).mpr hfork, hb, hs⟩⟩

theorem fork_iff {js : List Nat} : (i, js) ∈ a.shapes.forks ↔ a.ForkAt i ∧
    ∀ b j, js[b]? = some j ↔ a.HangsOn ⟨[i], some b⟩ j := by
  rw [mem_forks]
  constructor
  · intro hfork
    obtain ⟨n, f, hmem, hf, rfl⟩ := hfork
    have hn := (Graph.mem_drawnNodes.mp hmem).1
    exact ⟨h.forkAt_iff.mpr ⟨n, f, hmem, hf⟩, h.getElem?_branches hn hf⟩
  · intro hfork
    obtain ⟨hfork, hbranches⟩ := hfork
    obtain ⟨n, f, hmem, hf⟩ := h.forkAt_iff.mp hfork
    have hn := (Graph.mem_drawnNodes.mp hmem).1
    refine ⟨n, f, hmem, hf, ?_⟩
    apply List.ext_getElem?
    intro b
    apply Option.ext
    intro j
    rw [h.getElem?_branches hn hf, hbranches]

theorem merge_iff {is : List Nat} : (j, is) ∈ a.shapes.merges ↔ a.Target j ∧ 1 < is.length ∧
    ∃ n, a.nodes[j]? = some n ∧ n.sources = is := by
  rw [mem_merges]
  constructor
  · intro hmerge
    obtain ⟨n, hmem, hmerge⟩ := hmerge
    obtain ⟨hfork, hlength, rfl⟩ := Node.mergeSources?_eq_some.mp hmerge
    have hn := (Graph.mem_drawnNodes.mp hmem).1
    have hkind := h.kind_ne_first hn (List.ne_nil_of_length_pos (by omega))
    exact ⟨⟨n, hmem, hkind, (h.fork_eq_none hn).mp hfork⟩, hlength, n, hn, rfl⟩
  · intro hline
    obtain ⟨⟨n, hmem, -, hfork⟩, hlength, m, hm, hs⟩ := hline
    have hn := (Graph.mem_drawnNodes.mp hmem).1
    obtain rfl := Option.some.inj (hn.symm.trans hm)
    exact ⟨n, hmem, Node.mergeSources?_eq_some.mpr ⟨(h.fork_eq_none hn).mpr hfork, hlength, hs⟩⟩

theorem mem_branches_iff : (∃ i js, (i, js) ∈ a.shapes.forks ∧ j ∈ js) ↔
    ∃ i b, a.ForkAt i ∧ a.HangsOn ⟨[i], some b⟩ j := by
  constructor
  · intro hj
    obtain ⟨i, js, hfork, hj⟩ := hj
    obtain ⟨b, hb⟩ := List.mem_iff_getElem?.mp hj
    obtain ⟨hfork, hbranches⟩ := h.fork_iff.mp hfork
    exact ⟨i, b, hfork, (hbranches b j).mp hb⟩
  · intro hj
    obtain ⟨i, b, hfork, hhangs⟩ := hj
    obtain ⟨n, f, hmem, hf⟩ := h.forkAt_iff.mp hfork
    have hn := (Graph.mem_drawnNodes.mp hmem).1
    have hb := (h.getElem?_branches hn hf b j).mpr hhangs
    exact ⟨i, f.branches, mem_forks.mpr ⟨n, f, hmem, hf, rfl⟩, List.mem_of_getElem? hb⟩

theorem target_of_hangsOn {b : Nat} (hfork : a.ForkAt i) (hhangs : a.HangsOn ⟨[i], some b⟩ j) :
    a.Target j := by
  obtain ⟨n, f, hmem, hf⟩ := h.forkAt_iff.mp hfork
  have hn := (Graph.mem_drawnNodes.mp hmem).1
  have hj := List.mem_of_getElem? ((h.getElem?_branches hn hf b j).mpr hhangs)
  obtain ⟨m, hm, hd⟩ := (h.linked i n hn).branches f hf j hj
  obtain ⟨m', hm', hs, hb⟩ := hhangs
  obtain rfl := Option.some.inj (hm.symm.trans hm')
  refine ⟨m, Graph.mem_drawnNodes.mpr ⟨hm, hd⟩, h.kind_ne_first hm (by simp [hs]), ?_⟩
  cases hkind : m.isFork with
  | false => rfl
  | true =>
    rw [(h.joined j m hm).bare hkind] at hb
    contradiction

theorem mem_targets_iff : j ∈ a.shapes.targets ↔ a.Target j := by
  have hsplit : j ∈ a.shapes.targets ↔ (∃ i, (i, j) ∈ a.shapes.links) ∨
      (∃ i js, (i, js) ∈ a.shapes.forks ∧ j ∈ js) ∨ ∃ is, (j, is) ∈ a.shapes.merges := by
    simp [Shapes.targets]
  rw [hsplit, h.mem_branches_iff]
  constructor
  · intro hj
    rcases hj with ⟨i, hlink⟩ | ⟨i, b, hfork, hhangs⟩ | ⟨is, hmerge⟩
    · exact (h.link_iff.mp hlink).1
    · exact h.target_of_hangsOn hfork hhangs
    · exact (h.merge_iff.mp hmerge).1
  · intro hj
    obtain ⟨n, hmem, hkind, hplain⟩ := hj
    have htarget : a.Target j := ⟨n, hmem, hkind, hplain⟩
    obtain ⟨hn, hd⟩ := Graph.mem_drawnNodes.mp hmem
    cases hs : n.sources with
    | nil => exact absurd hs ((h.linked j n hn).sourced hd hkind)
    | cons i is =>
      cases is with
      | cons i' is => exact .inr (.inr ⟨_, h.merge_iff.mpr ⟨htarget, by simp, n, hn, hs⟩⟩)
      | nil =>
        by_cases hfork : a.ForkAt i
        · cases hb : n.branch with
          | none => exact absurd hfork ((h.branch_eq_none hn hs).mp hb)
          | some b => exact .inr (.inl ⟨i, b, hfork, n, hn, hs, hb⟩)
        · exact .inl ⟨i, h.link_iff.mpr ⟨htarget, hfork, n, hn, hs⟩⟩

theorem nodup_flatMap_forks : (a.shapes.forks.flatMap (·.2)).Nodup := by
  rw [List.nodup_flatMap]
  constructor
  · intro x hx
    obtain ⟨-, hbranches⟩ := h.fork_iff.mp hx
    rw [List.nodup_iff_getElem?_ne_getElem?]
    intro b b' hlt hlength heq
    have hj := List.getElem?_eq_getElem hlength
    have hinlet := ((hbranches b _).mp (heq.trans hj)).inlet_unique ((hbranches b' _).mp hj)
    simp only [Inlet.mk.injEq, true_and, Option.some_inj] at hinlet
    omega
  · apply (List.pairwise_map.mp (nodup_forks a)).imp_of_mem
    intro x y hx hy hne j hjx hjy
    obtain ⟨b, hb⟩ := List.mem_iff_getElem?.mp hjx
    obtain ⟨b', hb'⟩ := List.mem_iff_getElem?.mp hjy
    have hinlet := (((h.fork_iff.mp hx).2 b j).mp hb).inlet_unique (((h.fork_iff.mp hy).2 b' j).mp hb')
    simp only [Inlet.mk.injEq, List.cons.injEq, and_true] at hinlet
    exact hne hinlet.1

theorem nodup_targets : a.shapes.targets.Nodup := by
  have hlinks : ∀ j ∈ a.shapes.links.map (·.2), j ∉ a.shapes.forks.flatMap (·.2) := by
    intro j hlink hbranch
    obtain ⟨x, hx, rfl⟩ := List.mem_map.mp hlink
    obtain ⟨y, hy, hj⟩ := List.mem_flatMap.mp hbranch
    obtain ⟨-, hplain, n, hn, hs⟩ := h.link_iff.mp hx
    obtain ⟨i, b, hfork, n', hn', hs', hb⟩ := h.mem_branches_iff.mp ⟨y.1, y.2, hy, hj⟩
    obtain rfl := Option.some.inj (hn.symm.trans hn')
    obtain rfl : x.1 = i := by simpa [hs] using hs'
    exact hplain hfork
  have hmerges : ∀ j ∈ a.shapes.links.map (·.2) ++ a.shapes.forks.flatMap (·.2),
      j ∉ a.shapes.merges.map (·.1) := by
    intro j hj hmerge
    obtain ⟨y, hy, rfl⟩ := List.mem_map.mp hmerge
    obtain ⟨-, hlength, n, hn, hs⟩ := h.merge_iff.mp hy
    have hsingle : ∃ i, n.sources = [i] := by
      rcases List.mem_append.mp hj with hlink | hbranch
      · obtain ⟨x, hx, hxy⟩ := List.mem_map.mp hlink
        obtain ⟨-, -, n', hn', hs'⟩ := h.link_iff.mp hx
        rw [hxy] at hn'
        obtain rfl := Option.some.inj (hn.symm.trans hn')
        exact ⟨_, hs'⟩
      · obtain ⟨x, hx, hxy⟩ := List.mem_flatMap.mp hbranch
        obtain ⟨i, b, -, n', hn', hs', -⟩ := h.mem_branches_iff.mp ⟨x.1, x.2, hx, hxy⟩
        obtain rfl := Option.some.inj (hn.symm.trans hn')
        exact ⟨i, hs'⟩
    obtain ⟨i, hi⟩ := hsingle
    rw [← hs, hi] at hlength
    simp at hlength
  apply List.Nodup.append
  · exact (nodup_links a).append h.nodup_flatMap_forks hlinks
  · exact nodup_merges a
  · exact hmerges

theorem outlined_shapes : a.Outlined a.shapes where
  link _ _ := h.link_iff
  fork _ _ := h.fork_iff
  merge _ _ := h.merge_iff
  ordered j is hmerge := by
    obtain ⟨-, -, n, hn, rfl⟩ := h.merge_iff.mp hmerge
    exact (h.joined j n hn).inlet.ordered
  forks := nodup_forks a
  once := h.nodup_targets
  target _ := h.mem_targets_iff

theorem exists_drawn_iff :
    (∃ n, (n, j) ∈ Graph.drawnNodes a) ↔ j = 0 ∨ a.ForkAt j ∨ a.Target j := by
  constructor
  · intro hj
    obtain ⟨n, hn⟩ := hj
    have hat := (Graph.mem_drawnNodes.mp hn).1
    by_cases hkind : n.kind = .first
    · exact .inl ((h.first j n hat).mp hkind)
    · cases hfork : n.isFork with
      | true => exact .inr (.inl ⟨n, hat, hfork⟩)
      | false => exact .inr (.inr ⟨n, hn, hkind, hfork⟩)
  · intro hj
    rcases hj with rfl | hfork | htarget
    · obtain ⟨n, hn, hkind⟩ := h.start
      exact ⟨n, Graph.mem_drawnNodes.mpr ⟨hn, by rw [Node.isDrawn, hkind]⟩⟩
    · obtain ⟨n, f, hn, -⟩ := h.forkAt_iff.mp hfork
      exact ⟨n, hn⟩
    · obtain ⟨n, hn, -⟩ := htarget
      exact ⟨n, hn⟩

theorem mem_forks_iff : j ∈ a.shapes.forks.map (·.1) ↔ a.ForkAt j := by
  simp [h.forkAt_iff, mem_forks]

theorem nodup_drawn : (0 :: a.shapes.forks.map (·.1) ++ a.shapes.targets).Nodup := by
  rw [List.cons_append, List.nodup_cons]
  constructor
  · rw [List.mem_append, h.mem_forks_iff, h.mem_targets_iff]
    intro hzero
    rcases hzero with ⟨n, hn, hfork⟩ | ⟨n, hn, hkind, -⟩
    · simp [Node.isFork, (h.first 0 n hn).mpr rfl] at hfork
    · exact hkind ((h.first 0 n (Graph.mem_drawnNodes.mp hn).1).mpr rfl)
  · apply (nodup_forks a).append h.nodup_targets
    intro j hfork htarget
    obtain ⟨n, hn, hkind⟩ := h.mem_forks_iff.mp hfork
    obtain ⟨m, hm, -, hplain⟩ := h.mem_targets_iff.mp htarget
    obtain rfl := Option.some.inj (hn.symm.trans (Graph.mem_drawnNodes.mp hm).1)
    simp [hkind] at hplain

theorem perm_drawnNodes :
    (0 :: a.shapes.forks.map (·.1) ++ a.shapes.targets).Perm ((Graph.drawnNodes a).map (·.2)) := by
  apply (List.perm_ext_iff_of_nodup h.nodup_drawn (nodup_drawnNodes a)).mpr
  intro j
  have hdrawn : j ∈ (Graph.drawnNodes a).map (·.2) ↔ ∃ n, (n, j) ∈ Graph.drawnNodes a := by simp
  rw [hdrawn, h.exists_drawn_iff, List.cons_append, List.mem_cons, List.mem_append,
    h.mem_forks_iff, h.mem_targets_iff]

end Jointed
end Automaton

namespace Graph

variable (a : Automaton) (p : Layout.Places)

theorem links_shapes :
    (draw a p).links = a.shapes.links.map fun x => (coordAt p x.1, coordAt p x.2) := by
  simp only [draw, Automaton.shapes, List.map_filterMap, Option.map_map]
  rfl

theorem forks_shapes :
    (draw a p).forks = a.shapes.forks.map fun x => coordAt p x.1 :: x.2.map (coordAt p) := by
  simp only [draw, Automaton.shapes, List.map_filterMap, Option.map_map]
  rfl

theorem merges_shapes :
    (draw a p).merges = a.shapes.merges.map fun x => coordAt p x.1 :: x.2.map (coordAt p) := by
  simp only [draw, Automaton.shapes, List.map_filterMap, Option.map_map]
  rfl

end Graph

/-- A drawing shows the nodes of the automaton and these shapes, all in the places of the nodes. -/
structure Compiled.Depicts (c : Compiled) (s : Shapes) : Prop where
  nodes : Forall₂ (fun g x => c.Displays x.2 g) c.graph.nodes (Graph.drawnNodes c.automaton)
  links : Forall₂ (fun z x => c.LiesAt x.1 z.1 ∧ c.LiesAt x.2 z.2) c.graph.links s.links
  forks : Forall₂ (fun zs x => Forall₂ c.LiesAt (x.1 :: x.2) zs) c.graph.forks s.forks
  merges : Forall₂ (fun zs x => Forall₂ c.LiesAt (x.1 :: x.2) zs) c.graph.merges s.merges

theorem Compiled.depicts_shapes {c : Compiled} {p : Layout.Places} (h : c.automaton.Jointed)
    (hgraph : c.graph = Graph.draw c.automaton p) : c.Depicts c.automaton.shapes := by
  have hlies (j : Nat) (hj : c.automaton.DrawnAt j) : c.LiesAt j (Graph.coordAt p j) :=
    liesAt_coordAt hgraph hj
  have hstar (j : Nat) (js : List Nat) (hj : ∀ x ∈ j :: js, c.automaton.DrawnAt x) :
      Forall₂ c.LiesAt (j :: js) (Graph.coordAt p j :: js.map (Graph.coordAt p)) := by
    rw [← List.map_cons, List.forall₂_map_right_iff, List.forall₂_same]
    exact fun x hx => hlies x (hj x hx)
  constructor
  · rw [hgraph, Graph.nodes_draw, List.forall₂_map_left_iff, List.forall₂_same]
    exact fun x hx => (displays_iff hgraph).mpr ⟨x.1, hx, rfl⟩
  · rw [hgraph, Graph.links_shapes, List.forall₂_map_left_iff, List.forall₂_same]
    intro x hx
    obtain ⟨⟨n, hn, -⟩, -, m, hm, hs⟩ := h.link_iff.mp hx
    have hsource := ((h.linked _ m hm).earlier x.1 (by simp [hs])).2
    exact ⟨hlies _ hsource, hlies _ ⟨n, Graph.mem_drawnNodes.mp hn⟩⟩
  · rw [hgraph, Graph.forks_shapes, List.forall₂_map_left_iff, List.forall₂_same]
    intro x hx
    obtain ⟨n, f, hn, hf, hbranches⟩ := Automaton.mem_forks.mp hx
    obtain ⟨hat, hd⟩ := Graph.mem_drawnNodes.mp hn
    apply hstar
    intro j hj
    rcases List.mem_cons.mp hj with rfl | hj
    · exact ⟨n, hat, hd⟩
    · exact (h.linked _ n hat).branches f hf j (hbranches ▸ hj)
  · rw [hgraph, Graph.merges_shapes, List.forall₂_map_left_iff, List.forall₂_same]
    intro x hx
    obtain ⟨⟨n, hn, -⟩, -, m, hm, hs⟩ := h.merge_iff.mp hx
    apply hstar
    intro j hj
    rcases List.mem_cons.mp hj with rfl | hj
    · exact ⟨n, Graph.mem_drawnNodes.mp hn⟩
    · exact ((h.linked _ m hm).earlier j (hs ▸ hj)).2

theorem Compiled.Realizes.jointed {c : Compiled} {A : Expression} (h : c.Realizes A) :
    c.automaton.Jointed := by
  rw [h.automaton]
  exact A.jointed

theorem Compiled.Realizes.depicts {c : Compiled} {A : Expression} (h : c.Realizes A) :
    c.Depicts c.automaton.shapes := by
  obtain ⟨p, -, hgraph⟩ := h.drawing
  exact depicts_shapes h.jointed hgraph

/-- Every node but the first one is led to by one line of a shape, forks apart. -/
theorem Compiled.Depicts.length_nodes {c : Compiled} (h : c.Depicts c.automaton.shapes)
    (hjointed : c.automaton.Jointed) :
    c.graph.links.length + (c.graph.forks.flatMap List.tail).length +
      c.graph.merges.length + c.graph.forks.length + 1 = c.graph.nodes.length := by
  have hbranches : (c.graph.forks.flatMap List.tail).length =
      (c.automaton.shapes.forks.flatMap (·.2)).length := by
    have htails : Forall₂ (fun z j => c.LiesAt j z) (c.graph.forks.flatMap List.tail)
        (c.automaton.shapes.forks.flatMap (·.2)) := by
      apply List.rel_flatMap h.forks
      intro zs x hx
      cases hx with
      | cons _ hbranches => exact List.Forall₂.flip hbranches
    exact htails.length_eq
  have hlength := hjointed.perm_drawnNodes.length_eq
  simp only [List.cons_append, List.length_cons, List.length_append, List.length_map,
    Shapes.targets] at hlength
  rw [hbranches, h.links.length_eq, h.forks.length_eq, h.merges.length_eq, h.nodes.length_eq]
  omega

/-- Every source is drawn with exactly the shapes of the lines of its automaton, and every node that
is neither the first one nor a fork is led to by exactly one of them. -/
theorem shapes_complete (source : List Char) :
    ∃ c, compile source = .ok c ∧ ∃ s, c.automaton.Outlined s ∧ c.Depicts s ∧
      c.graph.links.length + (c.graph.forks.flatMap List.tail).length +
        c.graph.merges.length + c.graph.forks.length + 1 = c.graph.nodes.length := by
  obtain ⟨c, A, hc, hA⟩ := exists_compile source
  exact ⟨c, hc, _, hA.jointed.outlined_shapes, hA.depicts, hA.depicts.length_nodes hA.jointed⟩

end RegexDiagram
