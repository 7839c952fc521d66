import RegexDiagram.Proofs.Diagram
import RegexDiagram.Proofs.Repair

/-!
The places that layout finds are those of the diagram of the syntax tree. Layout knows only which
nodes lines come from, so this goes by what a place says about the places of the next nodes: a tree
that is linked to a node at its left ends where its diagram ends, and behind a level, where lines
from all of its alternatives meet, the drawing is back in the row of the fork.
-/
namespace RegexDiagram

theorem Coord.meet_nil (c : Coord) : c.meet [] = ⟨c.x + 1, c.y⟩ := by
  simp only [meet, List.foldl_nil, List.getLastD_nil]
  congr 1
  grind

theorem Coord.right_zero (c : Coord) : c.right 0 = ⟨c.x + 1, c.y⟩ := by
  rw [right, Rat.add_zero]

namespace Layout

variable {a : Automaton} {p p' : Places}

def Places.Has (p : Places) (i : Nat) (c : Coord) : Prop := p[i]? = some (some c)

theorem Places.get_of_has {i : Nat} {c : Coord} (h : p.Has i c) : p.get i = .ok c := by
  rw [Places.get, h]

theorem mapM_get_of_has {ss : List Nat} {cs : List Coord} (h : List.Forall₂ p.Has ss cs) :
    ss.mapM p.get = .ok cs := by
  induction h with
  | nil => rfl
  | cons hs _ ih =>
    rw [List.mapM_cons, Places.get_of_has hs, ih]
    rfl

theorem mapM_get_congr {ss : List Nat} (h : ∀ s ∈ ss, p.get s = p'.get s) :
    ss.mapM p.get = ss.mapM p'.get := by
  induction ss with
  | nil => rfl
  | cons s ss ih =>
    rw [List.mapM_cons, List.mapM_cons, h s List.mem_cons_self,
      ih fun x hx => h x (List.mem_cons_of_mem s hx)]

theorem place_congr {nodes : Array Node} {n : Node} (h : ∀ s ∈ n.sources, p[s]? = p'[s]?) :
    place nodes p n = place nodes p' n := by
  have hget : ∀ s ∈ n.sources, p.get s = p'.get s := fun s hs => by simp only [Places.get, h s hs]
  unfold place
  split
  · rfl
  split
  · rfl
  · rename_i hs
    rw [h _ (hs ▸ List.mem_cons_self)]
  · rfl
  · rename_i hs
    rw [placeBranch, placeBranch, hget _ (hs ▸ List.mem_cons_self)]
  · rfl
  · rename_i hs
    rw [hget _ (hs ▸ List.mem_cons_self)]
  · rename_i hs
    rw [hget _ (hs ▸ List.mem_cons_self),
      mapM_get_congr fun s hmem => hget s (hs ▸ List.mem_cons_of_mem _ hmem)]

/-- The node is in the place that its own links say. -/
def SettledAt (a : Automaton) (p : Places) (i : Nat) (n : Node) : Prop :=
  n.isDrawn = true → ∃ c, place a.nodes p n = .ok c ∧ p[i]? = some c

theorem placeAll_settles {placed : Places} (ns : List Node)
    (h : placeAll a.nodes placed ns = (p, none)) (hl : EachFrom a.Linked placed.size ns) :
    (∀ x < placed.size, p[x]? = placed[x]?) ∧ EachFrom (SettledAt a p) placed.size ns := by
  induction ns generalizing placed with
  | nil =>
    obtain rfl : placed = p := (Prod.mk.inj h).1
    exact ⟨fun _ _ => rfl, trivial⟩
  | cons n ns ih =>
    obtain ⟨hlinked, hl⟩ := hl
    have hnext {c : Option Coord} (hrest : placeAll a.nodes (placed.push c) ns = (p, none)) :
        (∀ x < placed.size, p[x]? = placed[x]?) ∧ p[placed.size]? = some c ∧
          EachFrom (SettledAt a p) (placed.size + 1) ns := by
      rw [← Array.size_push c] at hl
      obtain ⟨hkept, hsettled⟩ := ih hrest hl
      rw [Array.size_push] at hkept hsettled
      refine ⟨fun x hx => ?_, ?_, hsettled⟩
      · rw [hkept x (Nat.lt_succ_of_lt hx), Array.getElem?_push_lt hx, Array.getElem?_eq_getElem hx]
      · rw [hkept _ (Nat.lt_succ_self _), Array.getElem?_push_size]
    rw [placeAll] at h
    split at h
    · split at h
      · rename_i c hc
        obtain ⟨hkept, hplace, hsettled⟩ := hnext h
        refine ⟨hkept, fun _ => ⟨c, ?_, hplace⟩, hsettled⟩
        rw [place_congr fun s hs => hkept s (hlinked.earlier s hs).1, hc]
      · simp at h
    · rename_i hd
      obtain ⟨hkept, -, hsettled⟩ := hnext h
      exact ⟨hkept, fun hdrawn => absurd hdrawn hd, hsettled⟩

/-- Every drawn node is in the place that its own links say. -/
def Settled (a : Automaton) (p : Places) : Prop :=
  ∀ i n, a.nodes[i]? = some n → SettledAt a p i n

theorem settled_automaton {A : Expression} (h : ofAutomaton A.automaton = (p, none)) :
    Settled A.automaton p := by
  obtain ⟨-, hsettled⟩ := placeAll_settles A.nodes h A.linked_nodes
  intro i n hn
  simpa using (eachFrom_iff _ _ A.nodes).mp hsettled i n (by simpa [Expression.automaton] using hn)

theorem Settled.has (h : Settled a p) {i : Nat} {n : Node} {c : Coord} (hn : a.nodes[i]? = some n)
    (hd : n.isDrawn = true) (hc : place a.nodes p n = .ok (some c)) : p.Has i c := by
  obtain ⟨c', hc', hplace⟩ := h i n hn hd
  obtain rfl := Except.ok.inj (hc.symm.trans hc')
  exact hplace

theorem place_fork {n : Node} {f : Fork} {s : Nat} {c : Coord} (hkind : n.kind ≠ .first)
    (hf : n.fork = some f) (hs : n.sources = [s]) (h : p.Has s c) :
    place a.nodes p n = .ok (some c) := by
  simp only [Places.Has] at h
  simp [place, hkind, hf, hs, h]

theorem place_meet {n : Node} {first : Coord} {others : List Coord} (hkind : n.kind ≠ .first)
    (hf : n.fork = none) (hb : n.branch = none)
    (h : List.Forall₂ p.Has n.sources (first :: others)) :
    place a.nodes p n = .ok (some (first.meet others)) := by
  cases hs : n.sources with
  | nil => simp [hs] at h
  | cons s rest =>
    rw [hs] at h
    obtain ⟨hfirst, hothers⟩ := List.forall₂_cons.mp h
    cases hothers with
    | nil =>
      rw [Coord.meet_nil, ← Coord.right_zero]
      simp [place, hkind, hf, hb, hs, Places.get_of_has hfirst, Except.map]
    | cons hs' hrest =>
      have hget := mapM_get_of_has (.cons hs' hrest)
      simp only [place, hkind, hf, hb, hs, Places.get_of_has hfirst, hget]
      rfl

/-- A node that hangs on the inlet is placed at `c`. -/
structure Leads (a : Automaton) (p : Places) (i : Inlet) (c : Coord) : Prop where
  single : i.sources.length = 1
  place : ∀ n : Node, n.kind ≠ .first → n.fork = none → n.sources = i.sources →
    n.branch = i.branch → place a.nodes p n = .ok (some c)

theorem leads_right {s : Nat} {c : Coord} (h : p.Has s c) :
    Leads a p ⟨[s], none⟩ ⟨c.x + 1, c.y⟩ where
  single := rfl
  place n hkind hf hs hb := by
    have hsources : List.Forall₂ p.Has n.sources [c] := by
      rw [hs]
      exact .cons h .nil
    rw [place_meet hkind hf hb hsources, Coord.meet_nil]

theorem leads_branch {s b : Nat} {m : Node} {f : Fork} {c : Coord} {dy : Rat}
    (hm : a.nodes[s]? = some m) (hf : m.fork = some f) (hdy : Fork.offset? f.heights b = some dy)
    (h : p.Has s c) : Leads a p ⟨[s], some b⟩ (c.right dy) where
  single := rfl
  place n hkind hnone hs hb := by
    have hplace : placeBranch a.nodes p s b = .ok (c.right dy) := by
      simp only [placeBranch, Places.get_of_has h, hm, Option.bind_some, hf, Option.elim, hdy]
      rfl
    simp [Layout.place, hkind, hnone, hb, hs, hplace, Except.map]

/-- The drawn nodes among `ns`, the first of which is at `k`, show these marks. -/
def Shows (p : Places) (k : Nat) (ns : List Node) (ms : List (Token × Coord)) : Prop :=
  List.Forall₂ (fun x m => x.1.StandsFor m.1 ∧ p.Has x.2 m.2) (select Node.isDrawn k ns) ms

theorem shows_append {k : Nat} {xs ys : List Node} {ms ms' : List (Token × Coord)}
    (hxs : Shows p k xs ms) (hys : Shows p (k + xs.length) ys ms') :
    Shows p k (xs ++ ys) (ms ++ ms') := by
  rw [Shows, select_append]
  exact List.rel_append hxs hys

theorem shows_cons {k : Nat} {n : Node} {ns : List Node} {t : Token} {c : Coord}
    {ms : List (Token × Coord)} (hd : n.isDrawn = true) (ht : n.StandsFor t) (h : p.Has k c)
    (hns : Shows p (k + 1) ns ms) : Shows p k (n :: ns) ((t, c) :: ms) := by
  rw [Shows, select_cons, if_pos hd]
  exact .cons ⟨ht, h⟩ hns

theorem shows_cons_of_not_isDrawn {k : Nat} {n : Node} {ns : List Node}
    {ms : List (Token × Coord)} (hd : n.isDrawn = false) (hns : Shows p (k + 1) ns ms) :
    Shows p k (n :: ns) ms := by
  rw [Shows, select_cons, hd]
  exact hns

/-- The nodes are drawn in one row. -/
def Places.SameRow (p : Places) (i j : Nat) : Prop := ∃ c d, p.Has i c ∧ p.Has j d ∧ c.y = d.y

/-- The nodes in front of a level and behind it: the parentheses of a group, or `first` and
`last`. -/
def Enclosing (a : Automaton) (i j : Nat) : Prop :=
  ∃ m n, a.nodes[i]? = some m ∧ a.nodes[j]? = some n ∧
    (m.close = some j ∨ m.kind = .first ∧ n.kind = .last)

/-- A closing parenthesis is level with the opening one, and a node at which the branches of a level
meet is level with its fork. -/
structure Aligned (a : Automaton) (p : Places) (j : Nat) (n : Node) : Prop where
  closing : ∀ c, n.close = some c → p.SameRow j c
  meeting : 1 < n.sources.length → ∃ i m f, Enclosing a i j ∧ a.nodes[i + 1]? = some m ∧
    m.fork = some f ∧ f.branches.length = n.sources.length ∧ p.SameRow (i + 1) j

theorem aligned_of_single {j : Nat} {n : Node} (hclose : n.close = none)
    (hsources : n.sources.length ≤ 1) : Aligned a p j n :=
  ⟨by simp [hclose], fun h => absurd h (Nat.not_lt.mpr hsources)⟩

end Layout

namespace Tree

open Automaton Layout

variable {l : Precedence} {a : Automaton} {p : Places} {k : Nat} {exit : List Nat} {i : Inlet}
  {q : Option Quantifier}

/-- The nodes of a tree whose alternatives start in these places. -/
structure Draws (t : Tree l) (p : Places) (a : Automaton) (k : Nat) (ns : List Node) (x : Int)
    (row : Nat → Rat) : Prop where
  shows : Shows p k ns (t.marks x row)
  exits : List.Forall₂ p.Has (t.drawnExits k) (t.exitPlaces x row)
  aligned : EachFrom (Aligned a p) k ns

/-- The nodes of a level that starts at `x` and `y`. -/
structure DrawsLevel (e : Tree l) (p : Places) (a : Automaton) (k : Nat) (ns : List Node) (x : Int)
    (y : Rat) : Prop where
  shows : Shows p k ns (e.levelMarks x y)
  exits : List.Forall₂ p.Has (e.drawnExits (k + e.forkSize)) (e.exitPlaces x (e.rows y))
  aligned : EachFrom (Aligned a p) k ns
  fork : e.isChoice = true → p.Has k ⟨x - 1, y⟩ ∧ ∃ m f, a.nodes[k]? = some m ∧ m.fork = some f ∧
    f.branches.length = e.branchCount

theorem leads_of_fork (e : Tree l) (he : e.isChoice = true) (h : a.Holds k (e.forkNodes k i))
    {x : Int} {y : Rat} (hk : p.Has k ⟨x - 1, y⟩) {b : Nat} (hb : b < e.branchCount) :
    Leads a p ⟨[k], some b⟩ ⟨x, e.rows y b⟩ := by
  cases e with
  | alternation e t ht g =>
    rw [← length_heights] at hb
    obtain ⟨dy, hdy⟩ := offset?_isSome hb
    have hplace : Coord.right ⟨x - 1, y⟩ dy = ⟨x, (alternation e t ht g).rows y b⟩ := by
      simp [Coord.right, rows, isChoice, hdy]
    exact hplace ▸ leads_branch h.1 rfl hdy hk
  | _ => simp [isChoice] at he

/-- A level is drawn behind the node at `s`, if alternatives are drawn from where they start. -/
theorem drawsLevel_nodes_of (e : Tree .expr) (hp : Settled a p) {s : Nat} {x : Int} {y : Rat}
    (he : ∀ k i row, a.Holds k (e.branchNodes k exit i q) → Leads a p i ⟨x, row 0⟩ →
      (∀ b < e.branchCount, 0 < b → Leads a p { i with branch := some b } ⟨x, row b⟩) →
      e.Draws p a k (e.branchNodes k exit i q) x row)
    (h : a.Holds k (e.nodes k exit ⟨[s], none⟩ q)) (hs : p.Has s ⟨x - 1, y⟩) :
    e.DrawsLevel p a k (e.nodes k exit ⟨[s], none⟩ q) x y := by
  cases hc : e.isChoice with
  | false =>
    have hlead : Leads a p ⟨[s], none⟩ ⟨x, e.rows y 0⟩ := by
      simpa [rows, hc] using leads_right hs
    rw [e.nodes_of_not_isChoice hc] at h ⊢
    have hdraws := he k _ (e.rows y) h hlead (e.forall_branch hc)
    refine ⟨?_, ?_, hdraws.aligned, by simp [hc]⟩
    · rw [levelMarks, e.forkMark_of_not_isChoice hc]
      exact hdraws.shows
    · rw [e.forkSize_of_not_isChoice hc]
      exact hdraws.exits
  | true =>
    obtain ⟨hfork, hbranches⟩ := (eachFrom_nodes ..).mp h
    cases e with
    | alternation e t ht g =>
      have hkind : (Node.ofToken t).kind = .piece .alternation := by rw [Node.ofToken, ht]
      have hdrawn {n : Node} (hn : n.kind = (Node.ofToken t).kind) : n.isDrawn = true := by
        rw [Node.isDrawn, hn, hkind]
      have hk : p.Has k ⟨x - 1, y⟩ :=
        hp.has hfork.1 (hdrawn rfl) (place_fork (by simp [hkind]) rfl rfl hs)
      have hlead {b : Nat} := leads_of_fork _ hc hfork hk (b := b)
      have hdraws := he _ _ _ hbranches (hlead (branchCount_pos _)) fun b hb _ => hlead hb
      exact
        { shows := shows_cons (hdrawn rfl) ⟨rfl, rfl, rfl⟩ hk hdraws.shows
          exits := hdraws.exits
          aligned := (eachFrom_nodes ..).mpr
            ⟨⟨aligned_of_single rfl (Nat.le_refl 1), trivial⟩, hdraws.aligned⟩
          fork := fun _ => ⟨hk, _, _, hfork.1, rfl, length_drawnEntries _ _⟩ }
    | _ => simp [isChoice] at hc

theorem DrawsLevel.close {e : Tree l} {ns : List Node} {x : Int} {y : Rat} {o j : Nat} {n : Node}
    (h : e.DrawsLevel p a (o + 1) ns x y) (hp : Settled a p) (hn : a.nodes[j]? = some n)
    (hd : n.isDrawn = true) (hkind : n.kind ≠ .first) (hf : n.fork = none) (hb : n.branch = none)
    (hsources : n.sources = e.drawnExits (o + 1 + e.forkSize)) (hclose : n.close = none)
    (ho : Enclosing a o j) : p.Has j ⟨e.exitColumn x + 1, y⟩ ∧ Aligned a p j n := by
  have hends := h.exits
  rw [← hsources] at hends
  have hcount : n.sources.length = e.branchCount := by
    rw [hends.length_eq, length_exitPlaces]
  obtain ⟨first, others, hexits, -⟩ := e.exists_exitPlaces x (e.rows y)
  rw [hexits] at hends
  have hplace := hp.has hn hd (place_meet hkind hf hb hends)
  rw [e.meet_exitPlaces x y hexits] at hplace
  refine ⟨hplace, by simp [hclose], fun hmeets => ?_⟩
  have hchoice : e.isChoice = true := by
    cases hc : e.isChoice with
    | true => rfl
    | false =>
      rw [hcount, e.branchCount_of_not_isChoice hc] at hmeets
      omega
  obtain ⟨hplaced, m, f, hm, hfork, hbranches⟩ := h.fork hchoice
  exact ⟨o, m, f, ho, hm, hfork, hbranches.trans hcount.symm, _, _, hplaced, hplace, rfl⟩

theorem draws_group (opening closing : Token) (ho : opening.piece = .groupOpen)
    (hc : closing.piece = .groupClose) (body : Tree .expr) (hp : Settled a p) {x : Int}
    {row : Nat → Rat}
    (hbody : p.Has k ⟨x, row 0⟩ →
      body.DrawsLevel p a (k + 1) (body.nodes (k + 1) [k + 1 + body.size] ⟨[k], none⟩ none) (x + 1)
        (row 0))
    (h : a.Holds k ((group opening closing ho hc body : Tree l).branchNodes k exit i q))
    (hi : Leads a p i ⟨x, row 0⟩) :
    (group opening closing ho hc body : Tree l).Draws p a k
      ((group opening closing ho hc body : Tree l).branchNodes k exit i q) x row := by
  obtain ⟨hopen, -, hclose⟩ := (eachFrom_group ..).mp h
  have hd : (opener opening k body.size i q).isDrawn = true := by
    simp [opener, Node.isDrawn, Node.ofToken, ho]
  have hplace : p.Has k ⟨x, row 0⟩ :=
    hp.has hopen hd (hi.place _ (by simp [opener, Node.ofToken]) rfl rfl rfl)
  have hlevel := hbody hplace
  obtain ⟨hend, haligned⟩ := hlevel.close hp hclose rfl (by simp [closer]) rfl rfl rfl rfl
    ⟨_, _, hopen, hclose, .inl rfl⟩
  have hclosing : Shows p (k + 1 + body.size)
      [closer closing (body.drawnExits (k + 1 + body.forkSize)) exit q]
      [(closing, ⟨body.exitColumn (x + 1) + 1, row 0⟩)] :=
    shows_cons rfl ⟨by rw [hc]; rfl, rfl, rfl⟩ hend .nil
  have hopening : Aligned a p k (opener opening k body.size i q) := by
    refine ⟨fun c hclose => ?_, fun hmeets => absurd hmeets (Nat.not_lt.mpr ?_)⟩
    · obtain rfl := Option.some.inj hclose
      exact ⟨_, _, hplace, hend, rfl⟩
    · exact Nat.le_of_eq hi.single
  rw [← body.length_nodes] at hclosing
  exact
    { shows := shows_cons hd ⟨rfl, rfl, rfl⟩ hplace (shows_append hlevel.shows hclosing)
      exits := .cons hend .nil
      aligned := (eachFrom_group ..).mpr ⟨hopening, hlevel.aligned, haligned⟩ }

/-- The nodes of a tree are drawn from where the tree starts. -/
theorem draws_branchNodes (t : Tree l) (hp : Settled a p) {x : Int} {row : Nat → Rat}
    (h : a.Holds k (t.branchNodes k exit i q)) (hi : Leads a p i ⟨x, row 0⟩)
    (hb : ∀ b < t.branchCount, 0 < b → Leads a p { i with branch := some b } ⟨x, row b⟩) :
    t.Draws p a k (t.branchNodes k exit i q) x row := by
  induction t generalizing k exit i q x row with
  | value t v hv =>
    have hd {n : Node} (hn : n.kind = (Node.ofToken t).kind) : n.isDrawn = true := by
      rw [Node.isDrawn, hn, Node.ofToken, hv]
    have hplace : p.Has k ⟨x, row 0⟩ :=
      hp.has h.1 (hd rfl) (hi.place _ (by simp [Node.ofToken]) rfl rfl rfl)
    exact
      { shows := shows_cons (hd rfl) ⟨rfl, rfl, rfl⟩ hplace .nil
        exits := .cons hplace .nil
        aligned := ⟨aligned_of_single rfl (Nat.le_of_eq hi.single), trivial⟩ }
  | group opening closing ho hc body ih =>
    refine draws_group opening closing ho hc body hp (fun hplace => ?_) h hi
    exact body.drawsLevel_nodes_of hp (fun _ _ _ h hi hb => ih h hi hb)
      ((eachFrom_group ..).mp h).2.1 (by simpa using hplace)
  | quantified b t q' hq hl ih =>
    have hchoice : b.isChoice = false := b.isChoice_of_ne (by simp)
    have hexits : (quantified b t q' hq hl : Tree _).exitPlaces x row = b.exitPlaces x row :=
      (b.exitPlaces_of_not_isChoice hchoice x row).symm
    have hskip (next : List (Option Nat)) :
        ({ Node.ofToken t with next := next } : Node).isDrawn = false := by
      simp [Node.isDrawn, Node.ofToken, hq]
    have halign {j : Nat} (next : List (Option Nat)) :
        Aligned a p j { Node.ofToken t with next := next } :=
      aligned_of_single rfl (Nat.zero_le 1)
    cases q' with
    | plus =>
      have hdraws := ih (holds_append.mp h).1 hi (b.forall_branch hchoice)
      exact
        { shows := by
            rw [← List.append_nil (marks _ x row)]
            exact shows_append hdraws.shows (shows_cons_of_not_isDrawn (hskip _) .nil)
          exits := hexits ▸ hdraws.exits
          aligned := (eachFrom_append ..).mpr ⟨hdraws.aligned, halign _, trivial⟩ }
    | _ =>
      have hdraws := ih h.2 hi (b.forall_branch hchoice)
      exact
        { shows := shows_cons_of_not_isDrawn (hskip _) hdraws.shows
          exits := hexits ▸ hdraws.exits
          aligned := ⟨halign _, hdraws.aligned⟩ }
  | concat f g hl ihf ihg =>
    rw [branchNodes, holds_append, length_branchNodes] at h
    have hf : f.isChoice = false := f.isChoice_of_ne (by simp)
    have hg : g.isChoice = false := g.isChoice_of_ne (by simp)
    have hdrawsf := ihf h.1 hi (f.forall_branch hf)
    have hends := hdrawsf.exits
    rw [f.exitPlaces_of_not_isChoice hf] at hends
    obtain ⟨s, rest, hs, hrest, hexits⟩ := List.forall₂_cons_right_iff.mp hends
    obtain rfl := List.forall₂_nil_right_iff.mp hrest
    have hlead : Leads a p ⟨f.drawnExits k, none⟩ ⟨f.exitColumn x + 1, row 0⟩ :=
      hexits ▸ leads_right hs
    have hdrawsg := ihg h.2 hlead (g.forall_branch hg)
    refine ⟨shows_append hdrawsf.shows ?_, ?_, (eachFrom_append ..).mpr ⟨hdrawsf.aligned, ?_⟩⟩
    · rw [length_branchNodes]
      exact hdrawsg.shows
    · have hends' := hdrawsg.exits
      rw [g.exitPlaces_of_not_isChoice hg] at hends'
      exact hends'
    · rw [length_branchNodes]
      exact hdrawsg.aligned
  | alternation e t ht g ihe ihg =>
    rw [branchNodes, holds_append, length_branchNodes] at h
    have hg : g.isChoice = false := g.isChoice_of_ne (by simp)
    have hdrawse := ihe h.1 hi fun b hlt => hb b (Nat.lt_succ_of_lt hlt)
    have hlead := hb e.branchCount (Nat.lt_succ_self _) e.branchCount_pos
    have hdrawsg : g.Draws p a (k + e.branchSize) _ x fun _ => row e.branchCount :=
      ihg h.2 hlead (g.forall_branch hg)
    have hends := hdrawsg.exits
    rw [g.exitPlaces_of_not_isChoice hg] at hends
    refine ⟨shows_append hdrawse.shows ?_, List.rel_append hdrawse.exits hends,
      (eachFrom_append ..).mpr ⟨hdrawse.aligned, ?_⟩⟩
    · rw [length_branchNodes]
      exact hdrawsg.shows
    · rw [length_branchNodes]
      exact hdrawsg.aligned

end Tree

/-- The node stands for the symbol. -/
def Node.Represents (n : Node) : Symbol → Prop
  | .token t => n.StandsFor t
  | .first => n.kind = .first
  | .last => n.kind = .last
  | .concat => False

namespace Expression

open Automaton Layout

variable {A : Expression} {p : Places}

/-- The drawn nodes are in the places of the diagram. -/
theorem shows_nodes (A : Expression) (hp : Settled A.automaton p) :
    List.Forall₂ (fun x m => x.1.Represents m.1 ∧ p.Has x.2 m.2)
        (select Node.isDrawn 0 A.nodes) A.diagram ∧
      EachFrom (Aligned A.automaton p) 0 A.nodes := by
  have h := A.holds_nodes
  cases A with
  | none =>
    have hfirst : p.Has 0 ⟨0, 0⟩ := hp.has h.1 rfl rfl
    have hlead : Leads (automaton none) p ⟨[0], none⟩ ⟨1, 0⟩ := leads_right hfirst
    have hlast : p.Has 1 ⟨1, 0⟩ := hp.has h.2.1 rfl (hlead.place _ (by simp) rfl rfl rfl)
    exact ⟨.cons ⟨rfl, hfirst⟩ (.cons ⟨rfl, hlast⟩ .nil),
      aligned_of_single rfl (Nat.zero_le 1), aligned_of_single rfl (Nat.le_refl 1), trivial⟩
  | some e =>
    obtain ⟨hfirst, htree, hlast⟩ := (eachFrom_some _ e).mp h
    have hplace : p.Has 0 ⟨0, 0⟩ := hp.has hfirst rfl rfl
    have hlevel := e.drawsLevel_nodes_of (x := 1) (y := 0) hp
      (fun _ _ _ h hi hb => e.draws_branchNodes hp h hi hb) htree hplace
    obtain ⟨hend, haligned⟩ := hlevel.close hp hlast rfl (by simp) rfl rfl rfl rfl
      ⟨_, _, hfirst, hlast, .inr ⟨rfl, rfl⟩⟩
    have hselect : select Node.isDrawn 0 (nodes (some e)) =
        ({ kind := .first, next := [some 1] }, 0)
          :: (select Node.isDrawn 1 (e.nodes 1 [1 + e.size] ⟨[0], none⟩ none)
            ++ [({ kind := .last, sources := e.drawnExits (1 + e.forkSize) }, 1 + e.size)]) := by
      simp [nodes, select_cons, select_append, Node.isDrawn, Tree.length_nodes, Nat.add_comm]
    rw [hselect]
    refine ⟨.cons ⟨rfl, hplace⟩ (List.rel_append ?_ (.cons ⟨rfl, hend⟩ .nil)),
      (eachFrom_some _ e).mpr ⟨aligned_of_single rfl (Nat.zero_le 1), hlevel.aligned, haligned⟩⟩
    rw [e.diagram_eq_levelMarks]
    exact List.forall₂_map_right_iff.mpr hlevel.shows

end Expression

/-- A compiled regex is drawn as the diagram of its syntax tree, in the places that layout finds. -/
structure Compiled.DrawnAs (c : Compiled) (A : Expression) (p : Layout.Places) : Prop where
  layout : Layout.ofAutomaton c.automaton = (p, none)
  graph : c.graph = Graph.draw c.automaton p
  nodes : List.Forall₂ (fun x m => x.1.Represents m.1 ∧ p.Has x.2 m.2)
    (Graph.drawnNodes c.automaton) A.diagram
  coords : c.graph.nodes.map (·.coord) = A.diagram.map (·.2)
  aligned : ∀ i n, c.automaton.nodes[i]? = some n → Layout.Aligned c.automaton p i n

theorem Graph.coordAt_of_has {p : Layout.Places} {i : Nat} {c : Coord} (h : p.Has i c) :
    coordAt p i = c := by
  rw [coordAt, h]
  rfl

theorem Graph.map_coordAt {p : Layout.Places} {xs : List (Node × Nat)} {ms : List (Symbol × Coord)}
    (h : List.Forall₂ (fun x m => x.1.Represents m.1 ∧ p.Has x.2 m.2) xs ms) :
    xs.map (fun x => coordAt p x.2) = ms.map (·.2) := by
  induction h with
  | nil => rfl
  | cons hm _ ih => rw [List.map_cons, List.map_cons, ih, coordAt_of_has hm.2]

theorem Graph.draw_of_ofAutomaton {a : Automaton} {p : Layout.Places} {g : Graph}
    (hp : Layout.ofAutomaton a = (p, none)) (h : ofAutomaton a = .ok g) : g = draw a p := by
  rw [ofAutomaton, hp, ofLayout] at h
  split at h
  · contradiction
  · split at h
    · exact (Except.ok.inj h).symm
    · contradiction

/-- Every source is compiled to a drawing in the places of the diagram of the syntax tree. -/
theorem compile_draws_diagram (source : List Char) :
    ∃ c a, compile source = .ok c ∧ (Analysis.ofSource source).validate = some a ∧
      c.analysis.valid = a.valid ∧ (∃ A : Expression, A.tokens = a.valid) ∧
      ∀ A : Expression, A.tokens = a.valid → ∃ p, c.DrawnAs A p := by
  obtain ⟨c, a, A, hc, ha, hthrough, h, htokens, -⟩ := exists_stages source
  have hvalid := h.tokens.symm.trans htokens
  refine ⟨c, a, hc, ha, hvalid, ⟨A, htokens⟩, fun B hB => ?_⟩
  have hautomaton := (h.of_tokens (hB.trans hvalid.symm)).automaton
  obtain ⟨p, hp, -, -⟩ := Layout.ofAutomaton_automaton B
  obtain ⟨hshows, haligned⟩ := B.shows_nodes (Layout.settled_automaton hp)
  rw [← hautomaton] at hp haligned
  have hgraph := Graph.draw_of_ofAutomaton hp hthrough.graph
  have hnodes : List.Forall₂ (fun x m => x.1.Represents m.1 ∧ p.Has x.2 m.2)
      (Graph.drawnNodes c.automaton) B.diagram := by
    rw [hautomaton]
    exact hshows
  refine ⟨p, hp, hgraph, hnodes, ?_, fun i n hn => ?_⟩
  · rw [hgraph, Graph.draw, List.map_map]
    exact Graph.map_coordAt hnodes
  rw [hautomaton] at hn
  simpa using (eachFrom_iff _ 0 B.nodes).mp haligned i n (by simpa [Expression.automaton] using hn)

end RegexDiagram
