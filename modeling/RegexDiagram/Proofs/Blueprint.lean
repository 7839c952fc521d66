import RegexDiagram.Automaton
import RegexDiagram.Proofs.Tree

/-!
The blueprint of an automaton: the nodes of a syntax tree written down directly, given the position
of the first one, where the tree leads to, and how it is linked in the drawing. Chained alternations
have one fork, so an alternation is laid out as a fork followed by its branches, and the branches of
an alternation on the left come first among them.
-/
namespace RegexDiagram

/-- How the drawn entry of a tree is linked: where lines come from and which branch starts there. -/
structure Inlet where
  sources : List Nat := []
  branch : Option Nat := none

def Inlet.shift (k : Nat) (i : Inlet) : Inlet := { i with sources := i.sources.map (k + ·) }

namespace Tree

variable {l : Precedence}

def isChoice : {l : Precedence} → Tree l → Bool
  | _, alternation _ _ _ _ => true
  | _, _ => false

/-- A choice has a fork in front of its branches. -/
def forkSize (t : Tree l) : Nat := if t.isChoice then 1 else 0

def branchSize : {l : Precedence} → Tree l → Nat
  | _, value _ _ _ => 1
  | _, group _ _ _ _ body => 1 + (body.forkSize + body.branchSize) + 1
  | _, quantified a _ _ _ _ => a.branchSize + 1
  | _, concat f g _ => f.branchSize + g.branchSize
  | _, alternation e _ _ g => e.branchSize + g.branchSize

def size (t : Tree l) : Nat := t.forkSize + t.branchSize

/-- The number of branches, one if there is no choice. -/
def branchCount : {l : Precedence} → Tree l → Nat
  | _, alternation e _ _ _ => e.branchCount + 1
  | _, _ => 1

/-- Where the branches start if the first one does at `k`. -/
def entries (k : Nat) : {l : Precedence} → Tree l → List Nat
  | _, alternation e _ _ _ => e.entries k ++ [k + e.branchSize]
  | _, _ => [k]

/-- How far behind its start a tree starts in the drawing. -/
def lead : {l : Precedence} → Tree l → Nat
  | _, quantified _ _ q _ _ => if q = .plus then 0 else 1
  | _, concat f _ _ => f.lead
  | _, _ => 0

/-- Where the branches start in the drawing. -/
def drawnEntries (k : Nat) : {l : Precedence} → Tree l → List Nat
  | _, alternation e _ _ g => e.drawnEntries k ++ [k + e.branchSize + g.lead]
  | _, t => [k + t.lead]

/-- Where branches that start at `k` end. -/
def terminals : {l : Precedence} → Tree l → Nat → List Nat
  | _, value _ _ _, k => [k]
  | _, group _ _ _ _ body, k => [k + 1 + body.size]
  | _, quantified a _ q _ _, k =>
      match q with
      | .optional => a.terminals (k + 1) ++ [k]
      | .star => [k]
      | .plus => [k + a.branchSize]
  | _, concat f g _, k => g.terminals (k + f.branchSize)
  | _, alternation e _ _ g, k => e.terminals k ++ g.terminals (k + e.branchSize)

/-- Where they end in the drawing. -/
def drawnExits : {l : Precedence} → Tree l → Nat → List Nat
  | _, value _ _ _, k => [k]
  | _, group _ _ _ _ body, k => [k + 1 + body.size]
  | _, quantified a _ q _ _, k => if q = .plus then a.drawnExits k else a.drawnExits (k + 1)
  | _, concat f g _, k => g.drawnExits (k + f.branchSize)
  | _, alternation e _ _ g, k => e.drawnExits k ++ g.drawnExits (k + e.branchSize)

/-- The number of values on top of each other. -/
def height : {l : Precedence} → Tree l → Nat
  | _, value _ _ _ => 1
  | _, group _ _ _ _ body => body.height
  | _, quantified a _ _ _ _ => a.height
  | _, concat f g _ => max f.height g.height
  | _, alternation e _ _ g => e.height + g.height

def heights : {l : Precedence} → Tree l → List Nat
  | _, alternation e _ _ g => e.heights ++ [g.height]
  | _, t => [t.height]

def extent : {l : Precedence} → Tree l → Operand
  | _, value t _ _ => ⟨some t.index, some (t.last.getD t.index)⟩
  | _, group opening closing _ _ _ => ⟨some opening.index, some closing.index⟩
  | _, quantified a t _ _ _ => ⟨a.extent.first, some t.index⟩
  | _, concat f g _ => ⟨f.extent.first, g.extent.last⟩
  | _, alternation e _ _ g => ⟨e.extent.first, g.extent.last⟩

/-- The fork of a choice at `k`. -/
def forkNodes (k : Nat) (i : Inlet) : {l : Precedence} → Tree l → List Node
  | _, alternation e t ht g =>
      [{ Node.ofToken t with
          next := ((alternation e t ht g).entries (k + 1)).map some
          sources := i.sources
          fork := some ⟨(alternation e t ht g).drawnEntries (k + 1),
            (alternation e t ht g).heights⟩
          branch := i.branch }]
  | _, _ => []

/-- The branches of a choice hang on its fork. -/
def branchInlet (t : Tree l) (k : Nat) (i : Inlet) : Inlet :=
  if t.isChoice then ⟨[k], some 0⟩ else i

/-- The opening parenthesis of a group at `k` with `size` nodes between the parentheses. -/
def opener (t : Token) (k size : Nat) (i : Inlet) (q : Option Quantifier) : Node :=
  { Node.ofToken t with
      next := [some (k + 1)]
      quantifier := q
      close := some (k + 1 + size)
      sources := i.sources
      branch := i.branch }

def closer (t : Token) (sources exit : List Nat) (q : Option Quantifier) : Node where
  kind := .piece .groupClose
  pos := some t.pos
  index := some t.index
  next := exit.map some
  quantifier := q
  sources := sources

/--
The nodes of a tree without the fork in front, the first of them at `k`. The terminals lead to the
nodes in `exit`, and `q` is drawn at the ends of an atom.
-/
def branchNodes : {l : Precedence} → Tree l → (k : Nat) → (exit : List Nat) → Inlet →
    Option Quantifier → List Node
  | _, value t _ _, _, exit, i, q =>
      [{ Node.ofToken t with
          next := exit.map some, quantifier := q, sources := i.sources, branch := i.branch }]
  | _, group opening closing _ _ body, k, exit, i, q =>
      opener opening k body.size i q
        :: (body.forkNodes (k + 1) ⟨[k], none⟩
          ++ body.branchNodes (k + 1 + body.forkSize) [k + 1 + body.size]
            (body.branchInlet (k + 1) ⟨[k], none⟩) none)
        ++ [closer closing (body.drawnExits (k + 1 + body.forkSize)) exit q]
  | _, quantified a t q _ _, k, exit, i, _ =>
      match q with
      | .optional =>
          { Node.ofToken t with next := some (k + 1) :: exit.map some }
            :: a.branchNodes (k + 1) exit i (some .optional)
      | .star =>
          { Node.ofToken t with next := some (k + 1) :: exit.map some }
            :: a.branchNodes (k + 1) [k] i (some .star)
      | .plus =>
          a.branchNodes k [k + a.branchSize] i (some .plus)
            ++ [{ Node.ofToken t with next := some k :: exit.map some }]
  | _, concat f g _, k, exit, i, _ =>
      f.branchNodes k [k + f.branchSize] i none
        ++ g.branchNodes (k + f.branchSize) exit ⟨f.drawnExits k, none⟩ none
  | _, alternation e _ _ g, k, exit, i, _ =>
      e.branchNodes k exit i none
        ++ g.branchNodes (k + e.branchSize) exit { i with branch := some e.branchCount } none

/-- The nodes of a tree, the first of them at `k`. -/
def nodes (t : Tree l) (k : Nat) (exit : List Nat) (i : Inlet) (q : Option Quantifier) :
    List Node :=
  t.forkNodes k i ++ t.branchNodes (k + t.forkSize) exit (t.branchInlet k i) q

/-- The fragment that a tree is built into. -/
def fragment (t : Tree l) : Fragment where
  nodes := t.nodes 0 [] {} none
  terminals := t.terminals t.forkSize
  drawnEntry := t.lead
  drawnTerminals := t.drawnExits t.forkSize
  height := t.height
  extent := t.extent

/-- What the operators apply to, in the order in which they are built. -/
def spans : {l : Precedence} → Tree l → List Construction.Span
  | _, value _ _ _ => []
  | _, group _ _ _ _ body => body.spans
  | _, quantified a t _ _ _ => a.spans ++ [⟨t.index, a.extent, none⟩]
  | _, concat f g _ => f.spans ++ g.spans
  | _, alternation e t _ g => e.spans ++ g.spans ++ [⟨t.index, e.extent, some g.extent⟩]

theorem branchNodes_group (opening closing : Token) (ho : opening.piece = .groupOpen)
    (hc : closing.piece = .groupClose) (body : Tree .expr) (k : Nat) (exit : List Nat) (i : Inlet)
    (q : Option Quantifier) :
    (group opening closing ho hc body : Tree l).branchNodes k exit i q =
      opener opening k body.size i q
        :: (body.nodes (k + 1) [k + 1 + body.size] ⟨[k], none⟩ none
          ++ [closer closing (body.drawnExits (k + 1 + body.forkSize)) exit q]) :=
  rfl

theorem isChoice_of_ne (t : Tree l) (hl : l ≠ .expr) : t.isChoice = false := by
  cases t with
  | alternation e t ht g => exact absurd rfl hl
  | _ => rfl

theorem forkSize_of_not_isChoice (t : Tree l) (ht : t.isChoice = false) : t.forkSize = 0 := by
  rw [forkSize, ht]
  rfl

theorem nodes_of_not_isChoice (t : Tree l) (ht : t.isChoice = false) (k : Nat) (exit : List Nat)
    (i : Inlet) (q : Option Quantifier) : t.nodes k exit i q = t.branchNodes k exit i q := by
  cases t with
  | alternation e t _ g => simp [isChoice] at ht
  | _ => rfl

theorem length_forkNodes (t : Tree l) (k : Nat) (i : Inlet) :
    (t.forkNodes k i).length = t.forkSize := by
  cases t <;> rfl

theorem length_branchNodes (t : Tree l) (k : Nat) (exit : List Nat) (i : Inlet)
    (q : Option Quantifier) : (t.branchNodes k exit i q).length = t.branchSize := by
  induction t generalizing k exit i q with
  | value t v hv => rfl
  | group opening closing ho hc body ih =>
    simp only [branchNodes, branchSize, List.length_append, List.length_cons, List.length_nil,
      length_forkNodes, ih]
    omega
  | quantified a t q' hq hl ih =>
    cases q' <;> simp [branchNodes, branchSize, ih]
  | concat f g hl ihf ihg => simp [branchNodes, branchSize, ihf, ihg]
  | alternation e t ht g ihe ihg => simp [branchNodes, branchSize, ihe, ihg]

theorem length_nodes (t : Tree l) (k : Nat) (exit : List Nat) (i : Inlet) (q : Option Quantifier) :
    (t.nodes k exit i q).length = t.size := by
  rw [nodes, List.length_append, length_forkNodes, length_branchNodes, size]

theorem branchSize_pos (t : Tree l) : 0 < t.branchSize := by
  induction t with
  | alternation e t ht g _ _ => simp only [branchSize]; omega
  | concat f g hl _ _ => simp only [branchSize]; omega
  | _ => simp only [branchSize]; omega

theorem lead_of_atom (a : Tree .atom) : a.lead = 0 := by
  cases a with
  | value => rfl
  | group => rfl
  | quantified a t q hq hl => exact absurd rfl hl
  | concat f g hl => simp at hl

theorem lead_lt (t : Tree l) : t.lead < t.branchSize := by
  induction t with
  | quantified a t q hq hl ih =>
    have := a.branchSize_pos
    cases q <;> simp [lead, branchSize] <;> omega
  | concat f g hl ihf ihg => simp only [lead, branchSize]; omega
  | alternation e t ht g ihe ihg =>
    have := e.branchSize_pos
    simp only [lead, branchSize]
    omega
  | _ => simp only [lead, branchSize]; omega

theorem mem_terminals (t : Tree l) {k x : Nat} (hx : x ∈ t.terminals k) :
    k ≤ x ∧ x < k + t.branchSize := by
  induction t generalizing k with
  | value => simp_all [terminals, branchSize]
  | group opening closing ho hc body _ =>
    simp only [terminals, List.mem_singleton, size] at hx
    simp only [branchSize]
    omega
  | quantified a t q hq hl ih =>
    cases q with
    | optional =>
      simp only [terminals, List.mem_append, List.mem_singleton] at hx
      simp only [branchSize]
      rcases hx with hx | rfl
      · have := ih hx
        omega
      · omega
    | star => simp_all [terminals, branchSize]
    | plus => simp_all [terminals, branchSize]
  | concat f g hl _ ihg =>
    have := ihg hx
    simp only [branchSize]
    omega
  | alternation e t ht g ihe ihg =>
    simp only [terminals, List.mem_append] at hx
    simp only [branchSize]
    rcases hx with hx | hx
    · have := ihe hx
      omega
    · have := ihg hx
      omega

theorem mem_drawnExits (t : Tree l) {k x : Nat} (hx : x ∈ t.drawnExits k) :
    k ≤ x ∧ x < k + t.branchSize := by
  induction t generalizing k with
  | value => simp_all [drawnExits, branchSize]
  | group opening closing ho hc body _ =>
    simp only [drawnExits, List.mem_singleton, size] at hx
    simp only [branchSize]
    omega
  | quantified a t q hq hl ih =>
    simp only [drawnExits] at hx
    simp only [branchSize]
    split at hx
    · have := ih hx
      omega
    · have := ih hx
      omega
  | concat f g hl _ ihg =>
    have := ihg hx
    simp only [branchSize]
    omega
  | alternation e t ht g ihe ihg =>
    simp only [drawnExits, List.mem_append] at hx
    simp only [branchSize]
    rcases hx with hx | hx
    · have := ihe hx
      omega
    · have := ihg hx
      omega

theorem mem_entries (t : Tree l) {k x : Nat} (hx : x ∈ t.entries k) :
    k ≤ x ∧ x < k + t.branchSize := by
  induction t generalizing k with
  | alternation e t ht g ihe _ =>
    have hg := g.branchSize_pos
    simp only [entries, List.mem_append, List.mem_singleton] at hx
    simp only [branchSize]
    rcases hx with hx | rfl
    · have := ihe hx
      omega
    · omega
  | _ =>
    obtain rfl := List.mem_singleton.mp hx
    exact ⟨Nat.le_refl _, Nat.lt_add_of_pos_right (branchSize_pos _)⟩

theorem map_terminals (t : Tree l) (d k : Nat) :
    (t.terminals k).map (d + ·) = t.terminals (d + k) := by
  induction t generalizing k with
  | quantified a t q hq hl ih => cases q <;> simp [terminals, ih, Nat.add_assoc]
  | _ => simp_all [terminals, Nat.add_assoc]

theorem map_drawnExits (t : Tree l) (d k : Nat) :
    (t.drawnExits k).map (d + ·) = t.drawnExits (d + k) := by
  induction t generalizing k with
  | quantified a t q hq hl ih => cases q <;> simp [drawnExits, ih, Nat.add_assoc]
  | _ => simp_all [drawnExits, Nat.add_assoc]

theorem map_entries (t : Tree l) (d k : Nat) : (t.entries k).map (d + ·) = t.entries (d + k) := by
  induction t generalizing k with
  | alternation e t ht g ihe _ => simp [entries, ihe, Nat.add_assoc]
  | _ => simp [entries]

theorem map_drawnEntries (t : Tree l) (d k : Nat) :
    (t.drawnEntries k).map (d + ·) = t.drawnEntries (d + k) := by
  induction t generalizing k with
  | alternation e t ht g ihe _ => simp [drawnEntries, ihe, Nat.add_assoc]
  | _ => simp [drawnEntries, Nat.add_assoc]

theorem length_drawnEntries (t : Tree l) (k : Nat) : (t.drawnEntries k).length = t.branchCount := by
  induction t generalizing k with
  | alternation e t ht g ihe _ => simp [drawnEntries, branchCount, ihe]
  | _ => rfl

/-- What a choice without a fork in front has in place of the lists of its branches. -/
theorem single_branch (e : Tree l) (he : e.isChoice = false) (k : Nat) :
    e.entries k = [k] ∧ e.drawnEntries k = [k + e.lead] ∧ e.heights = [e.height] ∧
      e.branchCount = 1 := by
  cases e with
  | alternation e t ht g => simp [isChoice] at he
  | _ => exact ⟨rfl, rfl, rfl, rfl⟩

theorem branchCount_of_not_isChoice (t : Tree l) (ht : t.isChoice = false) : t.branchCount = 1 :=
  (t.single_branch ht 0).2.2.2

/-- A tree without alternatives has no branch but the first. -/
theorem forall_branch (t : Tree l) (ht : t.isChoice = false) {P : Nat → Prop} :
    ∀ b < t.branchCount, 0 < b → P b := by
  intro b hb hpos
  rw [t.branchCount_of_not_isChoice ht] at hb
  omega

end Tree
end RegexDiagram
