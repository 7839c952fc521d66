import RegexDiagram.Proofs.Stack

/-!
Where the edges of fragments lead. An edge leads to a node of the fragment, or it has lost its
target when a fork took the place of the one that it led to. Each operation adds a few edges to
those of its operands, and none of the operations but the addition of a branch loses any.
-/
namespace RegexDiagram

namespace Node

def edges (ns : List Node) : List (Option Nat) := ns.flatMap (·.next)

variable {ns ms : List Node} {n : Node} {o : Option Nat} {j k : Nat}

@[simp] theorem edges_nil : edges [] = [] := rfl

@[simp] theorem edges_cons (n : Node) (ns : List Node) : edges (n :: ns) = n.next ++ edges ns := rfl

@[simp] theorem edges_append (ns ms : List Node) : edges (ns ++ ms) = edges ns ++ edges ms :=
  List.flatMap_append

@[simp] theorem edges_shift (k : Nat) (ns : List Node) :
    edges (ns.map (·.shift k)) = (edges ns).map (·.map (k + ·)) := by
  simp [edges, List.flatMap_map, List.map_flatMap, shift]

theorem some_mem_shift {es : List (Option Nat)} :
    some j ∈ es.map (·.map (k + ·)) ↔ k ≤ j ∧ some (j - k) ∈ es := by
  simp only [List.mem_map, Option.map_eq_some_iff]
  constructor
  · rintro ⟨o, ho, i, rfl, rfl⟩
    exact ⟨Nat.le_add_right k i, by rwa [Nat.add_sub_cancel_left]⟩
  · rintro ⟨hk, hj⟩
    exact ⟨_, hj, j - k, rfl, by omega⟩

theorem none_mem_shift {es : List (Option Nat)} : none ∈ es.map (·.map (k + ·)) ↔ none ∈ es := by
  simp [List.mem_map]

theorem edges_modify {g : Node → Node} (hg : ∀ n, (g n).next = n.next) (i : Nat) (ns : List Node) :
    edges (ns.modify i g) = edges ns := by
  induction ns generalizing i with
  | nil => cases i <;> rfl
  | cons n ns ih =>
    cases i with
    | zero => simp [hg]
    | succ i => simp [ih]

@[simp] theorem edges_modify_setQuantifier (q : Quantifier) (i : Nat) (ns : List Node) :
    edges (ns.modify i (·.setQuantifier q)) = edges ns :=
  edges_modify (g := (·.setQuantifier q)) (fun _ => rfl) i ns

@[simp] theorem edges_modify_setSources (sources : List Nat) (i : Nat) (ns : List Node) :
    edges (ns.modify i (·.setSources sources)) = edges ns :=
  edges_modify (g := (·.setSources sources)) (fun _ => rfl) i ns

@[simp] theorem edges_modify_asBranch (fork branch i : Nat) (ns : List Node) :
    edges (ns.modify i (·.asBranch fork branch)) = edges ns :=
  edges_modify (g := (·.asBranch fork branch)) (fun _ => rfl) i ns

theorem mem_edges_loseTarget (k : Nat) (ns : List Node) : o ∈ edges (ns.map (·.loseTarget k)) ↔
    (o ∈ edges ns ∧ o ≠ some k) ∨ (o = none ∧ some k ∈ edges ns) := by
  have hedges : edges (ns.map (·.loseTarget k)) =
      (edges ns).map fun e => if e = some k then none else e := by
    simp [edges, List.flatMap_map, List.map_flatMap, loseTarget]
  rw [hedges, List.mem_map]
  constructor
  · rintro ⟨e, he, rfl⟩
    split
    · rename_i heq
      exact .inr ⟨rfl, heq ▸ he⟩
    · rename_i hne
      exact .inl ⟨he, hne⟩
  · rintro (⟨ho, hne⟩ | ⟨rfl, hk⟩)
    · exact ⟨o, ho, if_neg hne⟩
    · exact ⟨some k, hk, if_pos rfl⟩

end Node

namespace Fragment

open Node

variable {f g r : Fragment} {t : Token} {o : Option Nat} {j k target : Nat} {terminals : List Nat}
  {ns : List Node}

theorem mem_edges_leadTo : o ∈ edges (leadTo target terminals ns) ↔
    o ∈ edges ns ∨ (o = some target ∧ ∃ i ∈ terminals, i < ns.length) := by
  unfold edges leadTo
  simp only [List.mem_flatMap, List.mem_mapIdx]
  constructor
  · rintro ⟨n, ⟨i, hi, rfl⟩, ho⟩
    split at ho
    · rename_i hmem
      rcases List.mem_append.mp ho with ho | ho
      · exact .inl ⟨_, List.getElem_mem hi, ho⟩
      · exact .inr ⟨List.mem_singleton.mp ho, i, by simpa using hmem, hi⟩
    · exact .inl ⟨_, List.getElem_mem hi, ho⟩
  · rintro (⟨n, hn, ho⟩ | ⟨rfl, i, hmem, hi⟩)
    · obtain ⟨i, hi, rfl⟩ := List.getElem_of_mem hn
      refine ⟨_, ⟨i, hi, rfl⟩, ?_⟩
      split
      · exact List.mem_append_left _ ho
      · exact ho
    · refine ⟨_, ⟨i, hi, rfl⟩, ?_⟩
      rw [if_pos (by simpa using hmem)]
      exact List.mem_append_right _ (List.mem_singleton_self _)

theorem none_mem_edges_leadTo : none ∈ edges (leadTo target terminals ns) ↔ none ∈ edges ns := by
  simp [mem_edges_leadTo]

@[simp] theorem edges_tag (q : Quantifier) (f : Fragment) : edges (f.tag q) = edges f.nodes := by
  unfold tag
  split
  · rw [edges_modify_setQuantifier, edges_modify_setQuantifier]
  · rw [edges_modify_setQuantifier]

/-- The edges of the entry of a fragment. -/
def rootEdges (f : Fragment) : List (Option Nat) := f.nodes.head?.elim [] (·.next)

theorem edges_eq_rootEdges (f : Fragment) :
    edges f.nodes = f.rootEdges ++ edges f.nodes.tail := by
  unfold rootEdges
  cases f.nodes <;> rfl

/-! ## Edges of each operation -/

theorem edges_concat (f g : Fragment) : edges (f.concat g).nodes =
    edges (leadTo f.nodes.length f.terminals f.nodes) ++
      (edges g.nodes).map (·.map (f.nodes.length + ·)) := by
  simp [concat]

theorem edges_optional (t : Token) (f : Fragment) :
    edges (f.optional t).nodes = some 1 :: (edges f.nodes).map (·.map (1 + ·)) := by
  simp [optional]

theorem edges_plus (t : Token) (f : Fragment) : edges (f.plus t).nodes =
    edges (leadTo f.nodes.length f.terminals (f.tag .plus)) ++ [some 0] := by
  simp [plus]

theorem edges_star (t : Token) (f : Fragment) : edges (f.star t).nodes =
    some 1 :: edges (leadTo 0 f.terminals ((f.tag .star).map (·.shift 1))) := by
  simp [star]

theorem edges_enclose (t : Token) (last pos : Nat) (f : Fragment) :
    edges (f.enclose t last pos).nodes = some 1 :: edges (leadTo (1 + f.nodes.length) f.terminals
      ((f.nodes.map (·.shift 1)).modify f.drawnEntry (·.setSources [0]))) := by
  simp [enclose]

theorem edges_branchOff (t : Token) (f g : Fragment) : edges (branchOff t f g) =
    some 1 :: some (1 + f.nodes.length) :: ((edges f.nodes).map (·.map (1 + ·)) ++
      (edges g.nodes).map (·.map (1 + f.nodes.length + ·))) := by
  simp [branchOff]

theorem edges_addBranch (t : Token) (fork : Fork) (f g : Fragment) :
    edges (addBranch t fork f g) = f.rootEdges ++ some f.nodes.length ::
      (edges (f.nodes.tail.map (·.loseTarget 0)) ++
        (edges g.nodes).map (·.map (f.nodes.length + ·))) := by
  simp [addBranch, rootEdges]

end Fragment
end RegexDiagram
