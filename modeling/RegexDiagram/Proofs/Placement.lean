import RegexDiagram.Graph
import RegexDiagram.Proofs.Fragments

/-!
Places in the drawing. In the automaton of a regex every line comes from a drawn node further ahead,
a branch belongs to a fork that has it, and parentheses and branches refer to drawn nodes. This is
what layout relies on, so it finds a place for every node that is drawn.
-/
namespace RegexDiagram

namespace Automaton

variable {a : Automaton} {k : Nat} {i : Inlet}

def DrawnAt (a : Automaton) (x : Nat) : Prop := ∃ n, a.nodes[x]? = some n ∧ n.isDrawn = true

/-- The nodes are forks with such a branch. -/
def ForksAt (a : Automaton) (sources : List Nat) (branch : Nat) : Prop :=
  ∀ s ∈ sources, ∃ n f, a.nodes[s]? = some n ∧ n.fork = some f ∧ branch < f.heights.length

/-- What layout relies on at a node. -/
structure Linked (a : Automaton) (k : Nat) (n : Node) : Prop where
  sourced : n.isDrawn = true → n.kind ≠ .first → n.sources ≠ []
  earlier : ∀ s ∈ n.sources, s < k ∧ a.DrawnAt s
  branching : ∀ b, n.branch = some b → a.ForksAt n.sources b
  branches : ∀ f, n.fork = some f → ∀ b ∈ f.branches, a.DrawnAt b
  closing : ∀ c, n.close = some c → a.DrawnAt c

/-- A node at `k` can be linked this way. -/
structure Offers (a : Automaton) (k : Nat) (i : Inlet) : Prop where
  sourced : i.sources ≠ []
  earlier : ∀ s ∈ i.sources, s < k ∧ a.DrawnAt s
  branching : ∀ b, i.branch = some b → a.ForksAt i.sources b

theorem Offers.mono {k' : Nat} (h : a.Offers k i) (hk : k ≤ k') : a.Offers k' i where
  sourced := h.sourced
  earlier s hs := ⟨Nat.lt_of_lt_of_le (h.earlier s hs).1 hk, (h.earlier s hs).2⟩
  branching := h.branching

theorem Offers.linked (h : a.Offers k i) {n : Node} (hs : n.sources = i.sources)
    (hb : n.branch = i.branch) (hf : ∀ f, n.fork = some f → ∀ b ∈ f.branches, a.DrawnAt b)
    (hc : ∀ c, n.close = some c → a.DrawnAt c) : a.Linked k n where
  sourced _ _ := hs ▸ h.sourced
  earlier := hs ▸ h.earlier
  branching := by rw [hs, hb]; exact h.branching
  branches := hf
  closing := hc

theorem linked_quantifier {t : Token} {q : Quantifier} (hq : t.piece = .quantifier q)
    (next : List (Option Nat)) : a.Linked k { Node.ofToken t with next := next } where
  sourced hd := by simp [Node.isDrawn, Node.ofToken, hq] at hd
  earlier := by simp [Node.ofToken]
  branching := by simp [Node.ofToken]
  branches := by simp [Node.ofToken]
  closing := by simp [Node.ofToken]

end Automaton

namespace Tree

open Automaton

variable {l : Precedence} {a : Automaton}

theorem drawnExits_ne_nil (t : Tree l) (k : Nat) : t.drawnExits k ≠ [] := by
  induction t generalizing k with
  | quantified a t q hq hl ih =>
    rw [drawnExits]
    split <;> exact ih _
  | concat f g hl _ ihg => exact ihg _
  | alternation e t ht g ihe _ => exact List.append_ne_nil_of_left_ne_nil (ihe k) _
  | _ => simp [drawnExits]

theorem length_heights (t : Tree l) : t.heights.length = t.branchCount := by
  induction t with
  | alternation e t ht g ihe _ => simp [heights, branchCount, ihe]
  | _ => rfl

/-- A tree starts and ends in the drawing at nodes that are drawn. -/
theorem drawnAt_lead (t : Tree l) (ht : t.isChoice = false) {k : Nat} {exit : List Nat} {i : Inlet}
    {q : Option Quantifier} (h : a.Holds k (t.branchNodes k exit i q)) :
    a.DrawnAt (k + t.lead) := by
  induction t generalizing k exit i q with
  | value t v hv => exact ⟨_, h.1, by simp [Node.isDrawn, Node.ofToken, hv]⟩
  | group opening closing ho hc body _ =>
    exact ⟨_, h.1, by simp [opener, Node.isDrawn, Node.ofToken, ho]⟩
  | quantified a t q' hq hl ih =>
    have ha : a.isChoice = false := a.isChoice_of_ne (by simp)
    rw [a.lead_of_atom] at ih
    cases q' with
    | plus => exact ih ha (holds_append.mp h).1
    | _ => exact ih ha h.2
  | concat f g hl ihf _ => exact ihf (f.isChoice_of_ne (by simp)) (holds_append.mp h).1
  | alternation e t _ g _ _ => simp [isChoice] at ht

theorem drawnAt_drawnEntries (t : Tree l) {k : Nat} {exit : List Nat} {i : Inlet}
    {q : Option Quantifier} (h : a.Holds k (t.branchNodes k exit i q)) :
    ∀ x ∈ t.drawnEntries k, a.DrawnAt x := by
  induction t generalizing k exit i q with
  | alternation e t ht g ihe _ =>
    rw [branchNodes, holds_append, length_branchNodes] at h
    simp only [drawnEntries, List.forall_mem_append, List.mem_singleton, forall_eq]
    exact ⟨ihe h.1, g.drawnAt_lead (g.isChoice_of_ne (by simp)) h.2⟩
  | _ =>
    intro x hx
    obtain rfl := List.mem_singleton.mp hx
    exact drawnAt_lead _ rfl h

theorem kind_drawnExits (t : Tree l) {k : Nat} {exit : List Nat} {i : Inlet}
    {q : Option Quantifier} (h : a.Holds k (t.branchNodes k exit i q)) :
    ∀ x ∈ t.drawnExits k, ∃ n, a.nodes[x]? = some n ∧
      ((∃ v, n.kind = .piece (.value v)) ∨ n.kind = .piece .groupClose) := by
  induction t generalizing k exit i q with
  | value t v hv =>
    simp only [drawnExits, List.mem_singleton, forall_eq]
    exact ⟨_, h.1, .inl ⟨v, by simp [Node.ofToken, hv]⟩⟩
  | group opening closing ho hc body _ =>
    obtain ⟨-, -, hclose⟩ := (eachFrom_group ..).mp h
    simp only [drawnExits, List.mem_singleton, forall_eq]
    exact ⟨_, hclose, .inr rfl⟩
  | quantified a t q' hq hl ih =>
    cases q' with
    | plus => exact ih (holds_append.mp h).1
    | _ => exact ih h.2
  | concat f g hl _ ihg =>
    rw [branchNodes, holds_append, length_branchNodes] at h
    exact ihg h.2
  | alternation e t ht g ihe ihg =>
    rw [branchNodes, holds_append, length_branchNodes] at h
    simp only [drawnExits, List.forall_mem_append]
    exact ⟨ihe h.1, ihg h.2⟩

theorem drawnAt_drawnExits (t : Tree l) {k : Nat} {exit : List Nat} {i : Inlet}
    {q : Option Quantifier} (h : a.Holds k (t.branchNodes k exit i q)) :
    ∀ x ∈ t.drawnExits k, a.DrawnAt x := by
  intro x hx
  obtain ⟨n, hn, hkind⟩ := t.kind_drawnExits h x hx
  refine ⟨n, hn, ?_⟩
  rcases hkind with ⟨v, hv⟩ | hclose
  · rw [Node.isDrawn, hv]
  · rw [Node.isDrawn, hclose]

theorem forksAt_branches (e : Tree l) (he : e.isChoice = true) {k : Nat} {i : Inlet}
    (h : a.Holds k (e.forkNodes k i)) {b : Nat} (hb : b < e.branchCount) : a.ForksAt [k] b := by
  cases e with
  | alternation e t ht g =>
    simp only [ForksAt, List.mem_singleton, forall_eq]
    exact ⟨_, _, h.1, rfl, by rw [length_heights]; exact hb⟩
  | _ => simp [isChoice] at he

theorem drawnAt_fork (e : Tree l) (he : e.isChoice = true) {k : Nat} {i : Inlet}
    (h : a.Holds k (e.forkNodes k i)) : a.DrawnAt k := by
  cases e with
  | alternation e t ht g => exact ⟨_, h.1, by simp [Node.isDrawn, Node.ofToken, ht]⟩
  | _ => simp [isChoice] at he

theorem linked_fork (e : Tree l) {k : Nat} {i : Inlet} (hi : a.Offers k i)
    (h : ∀ x ∈ e.drawnEntries (k + 1), a.DrawnAt x) : EachFrom a.Linked k (e.forkNodes k i) := by
  cases e with
  | alternation e t ht g =>
    refine ⟨hi.linked rfl rfl (fun f hf => ?_) (by simp [Node.ofToken]), trivial⟩
    obtain rfl := Option.some.inj hf
    exact h
  | _ => trivial

theorem branchCount_pos (t : Tree l) : 0 < t.branchCount := by
  cases t <;> simp [branchCount]

/-- The nodes of a tree are linked if those behind its fork are. -/
theorem linked_nodes_of (t : Tree l) {k : Nat} {exit : List Nat} {i : Inlet} {q : Option Quantifier}
    (ht : ∀ (k : Nat) (i : Inlet), a.Holds k (t.branchNodes k exit i q) → a.Offers k i →
      (∀ b < t.branchCount, 0 < b → a.Offers k { i with branch := some b }) →
      EachFrom a.Linked k (t.branchNodes k exit i q))
    (h : a.Holds k (t.nodes k exit i q)) (hi : a.Offers k i) :
    EachFrom a.Linked k (t.nodes k exit i q) := by
  cases hc : t.isChoice with
  | false =>
    rw [t.nodes_of_not_isChoice hc] at h ⊢
    exact ht k i h hi (t.forall_branch hc)
  | true =>
    have hsize : t.forkSize = 1 := by rw [forkSize, hc]; rfl
    have hinlet : t.branchInlet k i = ⟨[k], some 0⟩ := by rw [branchInlet, hc]; rfl
    obtain ⟨hfork, hbranches⟩ := (eachFrom_nodes ..).mp h
    rw [eachFrom_nodes]
    rw [hsize, hinlet] at hbranches ⊢
    have hoffers (b : Nat) (hb : b < t.branchCount) : a.Offers (k + 1) ⟨[k], some b⟩ := by
      refine ⟨by simp, ?_, ?_⟩
      · simp only [List.mem_singleton, forall_eq]
        exact ⟨Nat.lt_succ_self k, t.drawnAt_fork hc hfork⟩
      · intro _ h'
        obtain ⟨⟩ := h'
        exact t.forksAt_branches hc hfork hb
    refine ⟨t.linked_fork hi (t.drawnAt_drawnEntries hbranches), ?_⟩
    exact ht (k + 1) _ hbranches (hoffers 0 t.branchCount_pos) fun b hb _ => hoffers b hb

theorem linked_branchNodes (t : Tree l) {k : Nat} {exit : List Nat} {i : Inlet}
    {q : Option Quantifier} (h : a.Holds k (t.branchNodes k exit i q)) (hi : a.Offers k i)
    (hb : ∀ b < t.branchCount, 0 < b → a.Offers k { i with branch := some b }) :
    EachFrom a.Linked k (t.branchNodes k exit i q) := by
  induction t generalizing k exit i q with
  | value t v hv =>
    exact ⟨hi.linked rfl rfl (by simp [Node.ofToken]) (by simp [Node.ofToken]), trivial⟩
  | group opening closing ho hc body ih =>
    obtain ⟨hopen, hbody, hclose⟩ := (eachFrom_group ..).mp h
    have hdrawn : a.DrawnAt k := ⟨_, hopen, by simp [opener, Node.isDrawn, Node.ofToken, ho]⟩
    refine (eachFrom_group ..).mpr ⟨?_, ?_, ?_⟩
    · refine hi.linked rfl rfl (by simp [opener, Node.ofToken]) fun c hc => ?_
      obtain rfl := Option.some.inj hc
      exact ⟨_, hclose, rfl⟩
    · refine body.linked_nodes_of (fun k i => ih) hbody ⟨by simp, ?_, by simp⟩
      simp only [List.mem_singleton, forall_eq]
      exact ⟨Nat.lt_succ_self k, hdrawn⟩
    · have hexits := body.drawnAt_drawnExits ((eachFrom_nodes ..).mp hbody).2
      refine ⟨fun _ _ => body.drawnExits_ne_nil _, fun s hs => ⟨?_, hexits s hs⟩, ?_, ?_, ?_⟩
      · have := body.mem_drawnExits hs
        rw [size]
        omega
      all_goals simp [closer]
  | quantified a' t q' hq hl ih =>
    have hone {k : Nat} {j : Inlet} : ∀ b < a'.branchCount, 0 < b →
        a.Offers k { j with branch := some b } :=
      a'.forall_branch (a'.isChoice_of_ne (by simp))
    cases q' with
    | optional => exact ⟨linked_quantifier hq _, ih h.2 (hi.mono (Nat.le_succ k)) hone⟩
    | star => exact ⟨linked_quantifier hq _, ih h.2 (hi.mono (Nat.le_succ k)) hone⟩
    | plus =>
      exact (eachFrom_append ..).mpr
        ⟨ih (holds_append.mp h).1 hi hone, linked_quantifier hq _, trivial⟩
  | concat f g hl ihf ihg =>
    rw [branchNodes, holds_append, length_branchNodes] at h
    have hf : f.isChoice = false := f.isChoice_of_ne (by simp)
    have hg : g.isChoice = false := g.isChoice_of_ne (by simp)
    rw [branchNodes, eachFrom_append, length_branchNodes]
    refine ⟨ihf h.1 hi (f.forall_branch hf),
      ihg h.2 ⟨f.drawnExits_ne_nil k, ?_, by simp⟩ (g.forall_branch hg)⟩
    exact fun s hs => ⟨(f.mem_drawnExits hs).2, f.drawnAt_drawnExits h.1 s hs⟩
  | alternation e t ht g ihe ihg =>
    rw [branchNodes, holds_append, length_branchNodes] at h
    have hg : g.isChoice = false := g.isChoice_of_ne (by simp)
    have hlast := hb e.branchCount (Nat.lt_succ_self _) e.branchCount_pos
    rw [branchNodes, eachFrom_append, length_branchNodes]
    refine ⟨ihe h.1 hi fun b hlt => hb b (Nat.lt_succ_of_lt hlt), ?_⟩
    exact ihg h.2 (hlast.mono (Nat.le_add_right k _)) (g.forall_branch hg)

end Tree

namespace Expression

open Automaton

theorem linked_nodes (A : Expression) : EachFrom A.automaton.Linked 0 A.nodes := by
  have h := A.holds_nodes
  cases A with
  | none =>
    refine ⟨⟨by simp, by simp, by simp, by simp, by simp⟩,
      ⟨by simp, ?_, by simp, by simp, by simp⟩, trivial⟩
    simp only [List.mem_singleton, forall_eq]
    exact ⟨Nat.one_pos, _, h.1, rfl⟩
  | some e =>
    obtain ⟨hfirst, htree, -⟩ := (eachFrom_some _ e).mp h
    have hexits := e.drawnAt_drawnExits ((eachFrom_nodes ..).mp htree).2
    refine (eachFrom_some _ e).mpr ⟨⟨by simp, by simp, by simp, by simp, by simp⟩, ?_, ?_⟩
    · refine e.linked_nodes_of (fun k i h hi hb => e.linked_branchNodes h hi hb) htree
        ⟨by simp, ?_, by simp⟩
      simp only [List.mem_singleton, forall_eq]
      exact ⟨Nat.one_pos, _, hfirst, rfl⟩
    · refine ⟨fun _ _ => e.drawnExits_ne_nil _, fun s hs => ⟨?_, hexits s hs⟩, by simp, by simp,
        by simp⟩
      have := e.mem_drawnExits hs
      rw [Tree.size]
      omega

end Expression

namespace Layout

/-- Every drawn node up to here has its place. -/
def Complete (a : Automaton) (placed : Places) : Prop :=
  ∀ x < placed.size, a.DrawnAt x → ∃ c, placed[x]? = some (some c)

theorem offset?_isSome {heights : List Nat} {branch : Nat} (h : branch < heights.length) :
    ∃ dy, Fork.offset? heights branch = some dy := by
  simp [Fork.offset?, Fork.offsetQuarters?, List.getElem?_eq_getElem h]

theorem Complete.get {a : Automaton} {placed : Places} (h : Complete a placed) {x : Nat}
    (hx : x < placed.size) (hd : a.DrawnAt x) : ∃ c, placed.get x = .ok c := by
  obtain ⟨c, hc⟩ := h x hx hd
  exact ⟨c, by simp only [Places.get, hc]⟩

theorem mapM_get {placed : Places} {xs : List Nat} (h : ∀ x ∈ xs, ∃ c, placed.get x = .ok c) :
    ∃ cs, xs.mapM placed.get = .ok cs := by
  induction xs with
  | nil => exact ⟨[], rfl⟩
  | cons x xs ih =>
    obtain ⟨c, hc⟩ := h x List.mem_cons_self
    obtain ⟨cs, hcs⟩ := ih fun y hy => h y (List.mem_cons_of_mem x hy)
    exact ⟨c :: cs, by rw [List.mapM_cons, hc, hcs]; rfl⟩

theorem place_of_linked {a : Automaton} {placed : Places} {n : Node} (h : Complete a placed)
    (hn : a.Linked placed.size n) (hd : n.isDrawn = true) :
    ∃ c, place a.nodes placed n = .ok (some c) := by
  have hget (s : Nat) (hs : s ∈ n.sources) : ∃ c, placed.get s = .ok c :=
    h.get (hn.earlier s hs).1 (hn.earlier s hs).2
  by_cases hfirst : n.kind = .first
  · exact ⟨⟨0, 0⟩, by simp only [place, hfirst, if_true]⟩
  have hsources := hn.sourced hd hfirst
  cases hs : n.sources with
  | nil => exact absurd hs hsources
  | cons s rest =>
    obtain ⟨c, hc⟩ := hget s (by simp [hs])
    cases hf : n.fork with
    | some f =>
      obtain ⟨c, hc⟩ := h s (hn.earlier s (by simp [hs])).1 (hn.earlier s (by simp [hs])).2
      exact ⟨c, by simp [place, hfirst, hf, hs, hc]⟩
    | none =>
      cases hb : n.branch with
      | some b =>
        obtain ⟨m, f, hm, hf', hlt⟩ := hn.branching b hb s (by simp [hs])
        obtain ⟨dy, hdy⟩ := offset?_isSome hlt
        have hplace : placeBranch a.nodes placed s b = .ok (c.right dy) := by
          simp only [placeBranch, hc, hm, Option.bind_some, hf', Option.elim, hdy]
          rfl
        exact ⟨c.right dy, by simp [place, hfirst, hf, hb, hs, hplace, Except.map]⟩
      | none =>
        cases rest with
        | nil => exact ⟨c.right 0, by simp [place, hfirst, hf, hb, hs, hc, Except.map]⟩
        | cons s' rest =>
          obtain ⟨cs, hcs⟩ := mapM_get fun x hx => hget x (hs ▸ List.mem_cons_of_mem s hx)
          exact ⟨c.meet cs, by simp only [place, hfirst, hf, hb, hs, hc, hcs]; rfl⟩

theorem Complete.push {a : Automaton} {placed : Places} (h : Complete a placed) {c : Option Coord}
    (hc : a.DrawnAt placed.size → c.isSome = true) : Complete a (placed.push c) := by
  intro x hx hd
  rw [Array.size_push] at hx
  by_cases hlt : x < placed.size
  · rw [Array.getElem?_push_lt hlt, ← Array.getElem?_eq_getElem hlt]
    exact h x hlt hd
  · obtain rfl : x = placed.size := by omega
    obtain ⟨c, rfl⟩ := Option.isSome_iff_exists.mp (hc hd)
    exact ⟨c, Array.getElem?_push_size⟩

theorem placeAll_of_linked {a : Automaton} {placed : Places} (ns : List Node)
    (h : Complete a placed) (hns : a.Holds placed.size ns) (hl : EachFrom a.Linked placed.size ns) :
    ∃ p, placeAll a.nodes placed ns = (p, none) ∧ p.size = placed.size + ns.length ∧
      Complete a p := by
  induction ns generalizing placed with
  | nil => exact ⟨placed, rfl, rfl, h⟩
  | cons n ns ih =>
    obtain ⟨hn, hns⟩ := hns
    obtain ⟨hlinked, hl⟩ := hl
    have hnext {c : Option Coord} (hc : a.DrawnAt placed.size → c.isSome = true) :
        ∃ p, placeAll a.nodes (placed.push c) ns = (p, none) ∧
          p.size = placed.size + (ns.length + 1) ∧ Complete a p := by
      rw [← Array.size_push] at hns hl
      obtain ⟨p, hp, hsize, hcomplete⟩ := ih (h.push hc) hns hl
      rw [Array.size_push] at hsize
      exact ⟨p, hp, by omega, hcomplete⟩
    by_cases hd : n.isDrawn
    · obtain ⟨c, hc⟩ := place_of_linked h hlinked hd
      simp only [placeAll, hd, if_true, hc]
      exact hnext fun _ => rfl
    · simp only [placeAll, hd]
      refine hnext ?_
      intro h'
      obtain ⟨m, hm, hdrawn⟩ := h'
      obtain rfl := Option.some.inj (hn.symm.trans hm)
      exact absurd hdrawn hd

theorem ofAutomaton_automaton (A : Expression) :
    ∃ p, ofAutomaton A.automaton = (p, none) ∧ p.size = A.automaton.nodes.size ∧
      Complete A.automaton p := by
  have hnone : Complete A.automaton #[] := fun x hx => by simp at hx
  obtain ⟨p, hp, hsize, hcomplete⟩ :=
    placeAll_of_linked A.nodes hnone A.holds_nodes A.linked_nodes
  exact ⟨p, hp, by simpa [Expression.automaton] using hsize, hcomplete⟩

end Layout

namespace Graph

theorem mem_drawnNodes {a : Automaton} {n : Node} {i : Nat} :
    (n, i) ∈ drawnNodes a ↔ a.nodes[i]? = some n ∧ n.isDrawn = true := by
  simp [drawnNodes, List.mem_zipIdx_iff_getElem?]

/-- The nodes whose places are used to draw a node. -/
def usedPlaces (n : Node) (i : Nat) : List Nat :=
  i :: n.sources ++ n.fork.elim [] (·.branches) ++ n.close.toList

/-- The drawing of an automaton in these places uses no place that is missing. -/
def Placed (a : Automaton) (placed : Layout.Places) : Prop :=
  ∀ n i, (n, i) ∈ drawnNodes a → ∀ x ∈ usedPlaces n i, ∃ c, placed[x]? = some (some c)

theorem placed_of_linked {a : Automaton} {placed : Layout.Places}
    (hsize : placed.size = a.nodes.size) (h : Layout.Complete a placed)
    (hl : ∀ i n, a.nodes[i]? = some n → a.Linked i n) : Placed a placed := by
  intro n i hn x hx
  obtain ⟨hi, hd⟩ := mem_drawnNodes.mp hn
  have hlinked := hl i n hi
  have hdrawn : a.DrawnAt x := by
    simp only [usedPlaces, List.cons_append, List.mem_cons, List.mem_append,
      Option.mem_toList] at hx
    rcases hx with rfl | (hx | hx) | hx
    · exact ⟨n, hi, hd⟩
    · exact (hlinked.earlier x hx).2
    · cases hf : n.fork with
      | none => simp [hf] at hx
      | some f => exact hlinked.branches f hf x (by simpa [hf] using hx)
    · exact hlinked.closing x hx
  have hlt : x < placed.size := by
    obtain ⟨m, hm, -⟩ := hdrawn
    rw [hsize]
    exact (Array.getElem?_eq_some_iff.mp hm).1
  exact h x hlt hdrawn

/-- The automaton of a regex can be drawn. -/
theorem ofAutomaton_automaton (A : Expression) :
    ∃ p, Placed A.automaton p ∧ ofAutomaton A.automaton = .ok (draw A.automaton p) := by
  obtain ⟨p, hp, hsize, hcomplete⟩ := Layout.ofAutomaton_automaton A
  have hlinked := (eachFrom_iff _ 0 A.nodes).mp A.linked_nodes
  have hplaced : Placed A.automaton p := by
    refine placed_of_linked hsize hcomplete fun i n hn => ?_
    simpa using hlinked i n (by simpa [Expression.automaton] using hn)
  refine ⟨p, hplaced, ?_⟩
  have hall (x : Node × Nat) (hx : x ∈ drawnNodes A.automaton) : p[x.2]?.join.isSome = true := by
    obtain ⟨c, hc⟩ := hplaced x.1 x.2 hx x.2 (by simp [usedPlaces])
    simp only [hc, Option.join_some, Option.isSome_some]
  rw [ofAutomaton, hp]
  exact if_pos (List.all_eq_true.mpr hall)

end Graph
end RegexDiagram
