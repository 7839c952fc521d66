import RegexDiagram.Proofs.Blueprint

/-!
Construction follows the blueprint. Moving the nodes of a tree, leading its terminals on, linking it
in the drawing and marking it with a quantifier each give the nodes of the same tree under other
parameters, so every operation on fragments yields the fragment of the larger tree.
-/

theorem List.modify_append_left {α : Type} {xs ys : List α} {i : Nat} {f : α → α}
    (hi : i < xs.length) : (xs ++ ys).modify i f = xs.modify i f ++ ys := by
  induction xs generalizing i with
  | nil => simp at hi
  | cons x xs ih =>
    cases i with
    | zero => rfl
    | succ i => simpa using ih (by simpa using hi)

namespace RegexDiagram

namespace Node

def link (i : Inlet) (n : Node) : Node := { n with sources := i.sources, branch := i.branch }

end Node

namespace Fragment

/-- Adds an edge from each terminal to a node, where the first node is at `k`. -/
def leadFrom (k target : Nat) (terminals : List Nat) (nodes : List Node) : List Node :=
  nodes.mapIdx fun i n => if terminals.contains (k + i) then n.addEdge target else n

variable {k target : Nat} {terminals : List Nat}

theorem leadTo_eq_leadFrom (target : Nat) (terminals : List Nat) (nodes : List Node) :
    leadTo target terminals nodes = leadFrom 0 target terminals nodes := by
  simp only [leadTo, leadFrom, Nat.zero_add]

theorem leadFrom_append (k target : Nat) (terminals : List Nat) (xs ys : List Node) :
    leadFrom k target terminals (xs ++ ys) =
      leadFrom k target terminals xs ++ leadFrom (k + xs.length) target terminals ys := by
  simp only [leadFrom, List.mapIdx_append, Nat.add_assoc, Nat.add_comm xs.length]

theorem leadFrom_cons (k target : Nat) (terminals : List Nat) (n : Node) (ns : List Node) :
    leadFrom k target terminals (n :: ns) =
      (if terminals.contains k then n.addEdge target else n)
        :: leadFrom (k + 1) target terminals ns := by
  simp only [leadFrom, List.mapIdx_cons, Nat.add_zero, Nat.add_assoc, Nat.add_comm 1]

theorem leadFrom_congr {others : List Nat} {nodes : List Node}
    (h : ∀ x, k ≤ x → x < k + nodes.length → (x ∈ terminals ↔ x ∈ others)) :
    leadFrom k target terminals nodes = leadFrom k target others nodes := by
  refine List.ext_getElem (by simp [leadFrom]) fun i hi _ => ?_
  have hi : i < nodes.length := by simpa [leadFrom] using hi
  have hx := h (k + i) (by omega) (by omega)
  simp only [leadFrom, List.getElem_mapIdx, List.contains_iff_mem, hx]

theorem leadFrom_nil (k target : Nat) (nodes : List Node) : leadFrom k target [] nodes = nodes := by
  refine List.ext_getElem (by simp [leadFrom]) fun i _ _ => ?_
  simp [leadFrom]

theorem leadFrom_map (d k target : Nat) (terminals : List Nat) (nodes : List Node) :
    leadFrom (d + k) target (terminals.map (d + ·)) nodes = leadFrom k target terminals nodes := by
  have h (x : Nat) : (terminals.map (d + ·)).contains (d + k + x) = terminals.contains (k + x) := by
    simp [Nat.add_assoc]
  simp only [leadFrom, h]

theorem leadFrom_of_outside {nodes : List Node}
    (h : ∀ x ∈ terminals, k ≤ x → k + nodes.length ≤ x) :
    leadFrom k target terminals nodes = nodes := by
  have hnone : leadFrom k target terminals nodes = leadFrom k target [] nodes := by
    refine leadFrom_congr fun x hk hx => ?_
    simp only [List.not_mem_nil, iff_false]
    intro hmem
    have := h x hmem hk
    omega
  rw [hnone, leadFrom_nil]

end Fragment

namespace Tree

open Fragment

variable {l : Precedence}

theorem map_shift_forkNodes (t : Tree l) (d k : Nat) (i : Inlet) :
    (t.forkNodes k i).map (·.shift d) = t.forkNodes (d + k) (i.shift d) := by
  cases t with
  | alternation e t ht g =>
    simp only [forkNodes, List.map_cons, List.map_nil, Node.shift, Node.ofToken, Inlet.shift,
      Option.map_some, Option.map_none, map_drawnEntries, ← map_entries _ d, List.map_map,
      Nat.add_assoc]
    rfl
  | _ => rfl

theorem shift_branchInlet (t : Tree l) (d k : Nat) (i : Inlet) :
    (t.branchInlet k i).shift d = t.branchInlet (d + k) (i.shift d) := by
  unfold branchInlet
  split <;> rfl

theorem map_shift_branchNodes (t : Tree l) (d k : Nat) (exit : List Nat) (i : Inlet)
    (q : Option Quantifier) :
    (t.branchNodes k exit i q).map (·.shift d) =
      t.branchNodes (d + k) (exit.map (d + ·)) (i.shift d) q := by
  induction t generalizing k exit i q with
  | value t v hv => simp [branchNodes, Node.shift, Node.ofToken, Inlet.shift]
  | group opening closing ho hc body ih =>
    simp only [branchNodes, List.map_append, List.map_cons, List.map_nil, map_shift_forkNodes, ih,
      shift_branchInlet]
    simp [opener, closer, Node.shift, Node.ofToken, Inlet.shift, map_drawnExits, Nat.add_assoc]
  | quantified a t q' hq hl ih =>
    cases q' <;>
      simp only [branchNodes, List.map_append, List.map_cons, List.map_nil, ih] <;>
      simp [Node.shift, Node.ofToken, Nat.add_assoc]
  | concat f g hl ihf ihg =>
    simp [branchNodes, ihf, ihg, Inlet.shift, map_drawnExits, Nat.add_assoc]
  | alternation e t ht g ihe ihg =>
    simp [branchNodes, ihe, ihg, Inlet.shift, Nat.add_assoc]

theorem map_shift_nodes (t : Tree l) (d k : Nat) (exit : List Nat) (i : Inlet)
    (q : Option Quantifier) :
    (t.nodes k exit i q).map (·.shift d) = t.nodes (d + k) (exit.map (d + ·)) (i.shift d) q := by
  simp only [nodes, List.map_append, map_shift_forkNodes, map_shift_branchNodes,
    shift_branchInlet, Nat.add_assoc]

theorem leadFrom_branchNodes (t : Tree l) (k target : Nat) (exit : List Nat) (i : Inlet)
    (q : Option Quantifier) :
    leadFrom k target (t.terminals k) (t.branchNodes k exit i q) =
      t.branchNodes k (exit ++ [target]) i q := by
  induction t generalizing k exit i q with
  | value t v hv => simp [branchNodes, terminals, leadFrom, Node.addEdge]
  | group opening closing ho hc body ih =>
    have hbody : leadFrom (k + 1) target [k + 1 + body.size]
        (body.forkNodes (k + 1) ⟨[k], none⟩ ++
          body.branchNodes (k + 1 + body.forkSize) [k + 1 + body.size]
            (body.branchInlet (k + 1) ⟨[k], none⟩) none) = _ :=
      leadFrom_of_outside (by simp [length_forkNodes, length_branchNodes, size])
    simp only [branchNodes, terminals, List.cons_append, leadFrom_cons, leadFrom_append, hbody]
    simp [length_forkNodes, length_branchNodes, size, leadFrom, Node.addEdge, closer, Nat.add_assoc]
  | quantified a t q' hq hl ih =>
    cases q' with
    | optional =>
      have ha : leadFrom (k + 1) target (a.terminals (k + 1) ++ [k])
          (a.branchNodes (k + 1) exit i (some .optional)) = _ :=
        (leadFrom_congr fun x hx _ => by simp; omega).trans (ih (k + 1) exit i (some .optional))
      simp [branchNodes, terminals, leadFrom_cons, ha, Node.addEdge]
    | star =>
      have ha : leadFrom (k + 1) target [k] (a.branchNodes (k + 1) [k] i (some .star)) = _ :=
        leadFrom_of_outside fun x hx hle => by
          obtain rfl := List.mem_singleton.mp hx
          omega
      simp [branchNodes, terminals, leadFrom_cons, ha, Node.addEdge]
    | plus =>
      have ha : leadFrom k target [k + a.branchSize]
          (a.branchNodes k [k + a.branchSize] i (some .plus)) = _ :=
        leadFrom_of_outside (by simp [length_branchNodes])
      simp only [branchNodes, terminals, leadFrom_append, ha, length_branchNodes]
      simp [leadFrom, Node.addEdge]
  | concat f g hl ihf ihg =>
    have hf : leadFrom k target (g.terminals (k + f.branchSize))
        (f.branchNodes k [k + f.branchSize] i none) = _ :=
      leadFrom_of_outside fun x hx _ => by
        rw [length_branchNodes]
        exact (g.mem_terminals hx).1
    simp only [branchNodes, terminals, leadFrom_append, hf, length_branchNodes, ihg]
  | alternation e t ht g ihe ihg =>
    have he : leadFrom k target (e.terminals k ++ g.terminals (k + e.branchSize))
        (e.branchNodes k exit i none) = _ :=
      (leadFrom_congr fun x _ hx => by
        rw [length_branchNodes] at hx
        have := fun h => (g.mem_terminals (x := x) (k := k + e.branchSize) h).1
        simp only [List.mem_append]
        exact ⟨fun h => h.resolve_right fun h => by have := this h; omega, .inl⟩).trans
        (ihe k exit i none)
    have hg : leadFrom (k + e.branchSize) target (e.terminals k ++ g.terminals (k + e.branchSize))
        (g.branchNodes (k + e.branchSize) exit { i with branch := some e.branchCount } none) = _ :=
      (leadFrom_congr fun x hx _ => by
        have := fun h => (e.mem_terminals (x := x) (k := k) h).2
        simp only [List.mem_append]
        exact ⟨fun h => h.resolve_left fun h => by have := this h; omega, .inr⟩).trans
        (ihg _ exit _ none)
    simp only [branchNodes, terminals, leadFrom_append, length_branchNodes, he, hg]

/-- The entry of a tree is what is linked in the drawing. -/
theorem modify_branchNodes (t : Tree l) (ht : t.isChoice = false) (k : Nat) (exit : List Nat)
    {i j : Inlet} (q : Option Quantifier) {f : Node → Node}
    (hf : ∀ n : Node, f (n.link i) = n.link j) :
    (t.branchNodes k exit i q).modify t.lead f = t.branchNodes k exit j q := by
  induction t generalizing k exit q with
  | value t v hv =>
    exact congrArg (· :: []) (hf { Node.ofToken t with next := exit.map some, quantifier := q })
  | group opening closing ho hc body _ =>
    exact congrArg (· :: _) (hf
      { Node.ofToken opening with
          next := [some (k + 1)], quantifier := q, close := some (k + 1 + body.size) })
  | quantified a t q' hq hl ih =>
    have ha : a.isChoice = false := a.isChoice_of_ne (by simp)
    rw [a.lead_of_atom] at ih
    cases q' with
    | optional => exact congrArg (_ :: ·) (ih ha (k + 1) exit (some .optional))
    | star => exact congrArg (_ :: ·) (ih ha (k + 1) [k] (some .star))
    | plus =>
      have hlead : a.lead < (a.branchNodes k [k + a.branchSize] i (some .plus)).length := by
        rw [length_branchNodes]
        exact a.lead_lt
      rw [a.lead_of_atom] at hlead
      simp only [branchNodes, lead, if_true, List.modify_append_left hlead, ih ha]
  | concat f' g hl ihf _ =>
    have hlead : f'.lead < (f'.branchNodes k [k + f'.branchSize] i none).length := by
      rw [length_branchNodes]
      exact f'.lead_lt
    simp only [branchNodes, lead, List.modify_append_left hlead]
    rw [ihf (f'.isChoice_of_ne (by simp))]
  | alternation e t ht g _ _ => simp [isChoice] at ht

theorem modify_nodes (t : Tree l) (k : Nat) (exit : List Nat) {i j : Inlet}
    (q : Option Quantifier) {f : Node → Node} (hf : ∀ n : Node, f (n.link i) = n.link j) :
    (t.nodes k exit i q).modify t.lead f = t.nodes k exit j q := by
  cases t with
  | alternation e t ht g =>
    exact congrArg (· :: _) (hf
      { Node.ofToken t with
          next := ((alternation e t ht g).entries (k + 1)).map some
          fork := some ⟨(alternation e t ht g).drawnEntries (k + 1),
            (alternation e t ht g).heights⟩ })
  | _ => exact modify_branchNodes _ rfl k exit q hf

/-- A quantifier is drawn at both ends of an atom. -/
theorem tag_fragment (a : Tree .atom) (q : Quantifier) :
    a.fragment.tag q = a.branchNodes 0 [] {} (some q) := by
  cases a with
  | value t v hv => rfl
  | group opening closing ho hc body =>
    have hclose (xs : List Node) (n : Node) (h : xs.length = 1 + body.size) :
        (xs ++ [n]).modify (0 + 1 + body.size) (·.setQuantifier q) = xs ++ [n.setQuantifier q] := by
      rw [Nat.zero_add, ← h]
      exact List.modifyTailIdx_add (List.modifyHead (·.setQuantifier q)) 0 xs [n]
    have hlength (n : Node) : (n :: (body.forkNodes (0 + 1) ⟨[0], none⟩ ++
        body.branchNodes (0 + 1 + body.forkSize) [0 + 1 + body.size]
          (body.branchInlet (0 + 1) ⟨[0], none⟩) none)).length = 1 + body.size := by
      simp only [List.length_cons, List.length_append, length_forkNodes, length_branchNodes, size]
      omega
    exact hclose _ _ (hlength _)
  | quantified a t q hq hl => exact absurd rfl hl
  | concat f g hl => simp at hl

theorem mem_next_forkNodes (t : Tree l) {k x : Nat} {i : Inlet} {n : Node}
    (hn : n ∈ t.forkNodes k i) (hx : some x ∈ n.next) : k < x ∧ x < k + t.size := by
  cases t with
  | alternation e t ht g =>
    obtain rfl := List.mem_singleton.mp hn
    have := (alternation e t ht g).mem_entries (k := k + 1) (by simpa using hx)
    simp only [size, forkSize, isChoice, if_true]
    omega
  | _ => simp [forkNodes] at hn

/-- Edges stay in the tree or lead to its exit. -/
theorem mem_next_branchNodes (t : Tree l) {k x : Nat} {exit : List Nat} {i : Inlet}
    {q : Option Quantifier} {n : Node} (hn : n ∈ t.branchNodes k exit i q)
    (hx : some x ∈ n.next) : x ∈ exit ∨ k ≤ x ∧ x < k + t.branchSize := by
  induction t generalizing k exit i q with
  | value t v hv =>
    obtain rfl := List.mem_singleton.mp hn
    exact .inl (by simpa using hx)
  | group opening closing ho hc body ih =>
    simp only [branchNodes, List.mem_append, List.mem_cons, List.not_mem_nil, or_false] at hn
    simp only [branchSize]
    rcases hn with (rfl | hn | hn) | rfl
    · have hx : x = k + 1 := by simpa [opener] using hx
      omega
    · have := body.mem_next_forkNodes hn hx
      simp only [size] at this
      omega
    · have := ih hn
      simp only [List.mem_singleton, size] at this
      omega
    · exact .inl (by simpa [closer] using hx)
  | quantified a t q' hq hl ih =>
    have ha := a.branchSize_pos
    simp only [branchSize]
    cases q' with
    | optional =>
      rcases List.mem_cons.mp hn with rfl | hn
      · have hx : x = k + 1 ∨ x ∈ exit := by simpa using hx
        rcases hx with rfl | hx
        · exact .inr (by omega)
        · exact .inl hx
      · exact (ih hn).imp_right fun h => by omega
    | star =>
      rcases List.mem_cons.mp hn with rfl | hn
      · have hx : x = k + 1 ∨ x ∈ exit := by simpa using hx
        rcases hx with rfl | hx
        · exact .inr (by omega)
        · exact .inl hx
      · have := ih hn
        simp only [List.mem_singleton] at this
        exact .inr (by omega)
    | plus =>
      rcases List.mem_append.mp hn with hn | hn
      · have := ih hn
        simp only [List.mem_singleton] at this
        exact .inr (by omega)
      · obtain rfl := List.mem_singleton.mp hn
        have hx : x = k ∨ x ∈ exit := by simpa using hx
        rcases hx with rfl | hx
        · exact .inr (by omega)
        · exact .inl hx
  | concat f g hl ihf ihg =>
    have hg := g.branchSize_pos
    simp only [branchSize]
    rcases List.mem_append.mp hn with hn | hn
    · have := ihf hn
      simp only [List.mem_singleton] at this
      exact .inr (by omega)
    · exact (ihg hn).imp_right fun h => by omega
  | alternation e t ht g ihe ihg =>
    simp only [branchSize]
    rcases List.mem_append.mp hn with hn | hn
    · exact (ihe hn).imp_right fun h => by omega
    · exact (ihg hn).imp_right fun h => by omega

theorem map_loseTarget_branchNodes (t : Tree l) (k : Nat) (i : Inlet) (q : Option Quantifier) :
    (t.branchNodes (k + 1) [] i q).map (·.loseTarget k) = t.branchNodes (k + 1) [] i q := by
  refine (List.map_congr_left fun n hn => ?_).trans (List.map_id _)
  have hnext : n.next.map (fun e => if e = some k then none else e) = n.next := by
    refine (List.map_congr_left fun e he => if_neg ?_).trans (List.map_id _)
    rintro rfl
    have := t.mem_next_branchNodes hn he
    simp only [List.not_mem_nil, false_or] at this
    omega
  simp only [Node.loseTarget, hnext, id]

theorem branchNodes_ne_nil (t : Tree l) (k : Nat) (exit : List Nat) (i : Inlet)
    (q : Option Quantifier) : t.branchNodes k exit i q ≠ [] := by
  rw [ne_eq, ← List.length_eq_zero_iff, length_branchNodes]
  exact Nat.ne_of_gt t.branchSize_pos

theorem head?_branchNodes_append (t : Tree l) (k : Nat) (exit : List Nat) (i : Inlet)
    (q : Option Quantifier) (ns : List Node) :
    (t.branchNodes k exit i q ++ ns).head? = (t.branchNodes k exit i q).head? := by
  cases h : t.branchNodes k exit i q with
  | nil => exact absurd h (t.branchNodes_ne_nil k exit i q)
  | cons => rfl

theorem fork_branchNodes (t : Tree l) (ht : t.isChoice = false) (k : Nat) (exit : List Nat)
    (i : Inlet) (q : Option Quantifier) :
    (t.branchNodes k exit i q).head?.bind (·.fork) = none := by
  induction t generalizing k exit q with
  | quantified a t q' hq hl ih =>
    cases q' with
    | plus =>
      rw [branchNodes, head?_branchNodes_append]
      exact ih (a.isChoice_of_ne (by simp)) ..
    | _ => rfl
  | concat f g hl ihf _ =>
    rw [branchNodes, head?_branchNodes_append]
    exact ihf (f.isChoice_of_ne (by simp)) ..
  | alternation e t ht g _ _ => simp [isChoice] at ht
  | _ => rfl

theorem terminals_fragment (t : Tree l) (d : Nat) :
    t.fragment.terminals.map (d + ·) = t.terminals (d + t.forkSize) := t.map_terminals d t.forkSize

theorem drawnTerminals_fragment (t : Tree l) (d : Nat) :
    t.fragment.drawnTerminals.map (d + ·) = t.drawnExits (d + t.forkSize) :=
  t.map_drawnExits d t.forkSize

theorem length_fragment (t : Tree l) : t.fragment.nodes.length = t.size := t.length_nodes ..

end Tree
end RegexDiagram
