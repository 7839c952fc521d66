import RegexDiagram.Proofs.Fragments
import RegexDiagram.Proofs.Rereading
import RegexDiagram.Run

/-!
Regexes without their places in a source. A plain token is the token of a completed piece that
stands nowhere, and plain trees and automata are made of such tokens. A tree is built into the same
automaton as its plain tree, but for the places of the nodes; and nodes are placed, drawn and run
the same way whether or not they are plain.
-/
namespace RegexDiagram

namespace Value

@[simp] theorem label_complete (v : Value) : v.complete.label = v.label := by cases v <;> rfl

@[simp] theorem name_complete (v : Value) : v.complete.name = v.name := by cases v <;> rfl

@[simp] theorem accepts_complete (v : Value) : v.complete.accepts = v.accepts := by cases v <;> rfl

@[simp] theorem complete_complete (v : Value) : v.complete.complete = v.complete := by
  cases v <;> rfl

end Value

namespace Piece

@[simp] theorem label_complete (p : Piece) : p.complete.label = p.label := by
  cases p with
  | value v => exact v.label_complete
  | _ => rfl

@[simp] theorem name_complete (p : Piece) : p.complete.name = p.name := by
  cases p with
  | value v => exact v.name_complete
  | _ => rfl

@[simp] theorem complete_complete (p : Piece) : p.complete.complete = p.complete := by
  cases p with
  | value v => exact congrArg value v.complete_complete
  | _ => rfl

end Piece

/-- What a token says, apart from where. -/
def Token.plain (t : Token) : Token := { piece := t.piece.complete, pos := 0, index := 0 }

namespace Tree

def plain : {l : Precedence} → Tree l → Tree l
  | _, value t v ht => value t.plain v.complete (by rw [Token.plain, ht]; rfl)
  | _, group opening closing ho hc body =>
      group opening.plain closing.plain (by rw [Token.plain, ho]; rfl)
        (by rw [Token.plain, hc]; rfl) body.plain
  | _, quantified a t q ht hl => quantified a.plain t.plain q (by rw [Token.plain, ht]; rfl) hl
  | _, concat f g hl => concat f.plain g.plain hl
  | _, alternation e t ht g => alternation e.plain t.plain (by rw [Token.plain, ht]; rfl) g.plain

section Equations

variable {l : Precedence} {opening closing t : Token} {q : Quantifier} (e body : Tree .expr)
  (f g' : Tree .term) (g : Tree .factor) (a : Tree .atom)

@[simp] theorem plain_group (ho : opening.piece = .groupOpen) (hc : closing.piece = .groupClose) :
    (group opening closing ho hc body : Tree l).plain =
      group opening.plain closing.plain (by rw [Token.plain, ho]; rfl)
        (by rw [Token.plain, hc]; rfl) body.plain := rfl

@[simp] theorem plain_quantified (ht : t.piece = .quantifier q) (hl : l ≠ .atom) :
    (quantified a t q ht hl).plain =
      quantified a.plain t.plain q (by rw [Token.plain, ht]; rfl) hl := rfl

@[simp] theorem plain_concat (hl : l = .term ∨ l = .expr) :
    (concat f g hl).plain = concat f.plain g.plain hl := rfl

@[simp] theorem plain_alternation (ht : t.piece = .alternation) :
    (alternation e t ht g').plain =
      alternation e.plain t.plain (by rw [Token.plain, ht]; rfl) g'.plain := rfl

end Equations

variable {l : Precedence}

theorem tokens_plain (t : Tree l) : t.plain.tokens = t.tokens.map Token.plain := by
  induction t with
  | value => rfl
  | _ => simp_all [tokens]

@[simp] theorem isChoice_plain (t : Tree l) : t.plain.isChoice = t.isChoice := by
  cases t <;> rfl

@[simp] theorem forkSize_plain (t : Tree l) : t.plain.forkSize = t.forkSize := by
  cases t <;> rfl

@[simp] theorem branchSize_plain (t : Tree l) : t.plain.branchSize = t.branchSize := by
  induction t with
  | value => rfl
  | _ => simp_all [branchSize]

@[simp] theorem size_plain (t : Tree l) : t.plain.size = t.size := by simp [size]

@[simp] theorem branchCount_plain (t : Tree l) : t.plain.branchCount = t.branchCount := by
  induction t with
  | alternation e t ht g ihe _ => simp [branchCount, ihe]
  | _ => rfl

@[simp] theorem entries_plain (t : Tree l) (k : Nat) : t.plain.entries k = t.entries k := by
  induction t with
  | alternation e t ht g ihe _ => simp [entries, ihe]
  | _ => rfl

@[simp] theorem lead_plain (t : Tree l) : t.plain.lead = t.lead := by
  induction t with
  | concat f g hl ihf _ => exact ihf
  | _ => rfl

@[simp] theorem drawnEntries_plain (t : Tree l) (k : Nat) :
    t.plain.drawnEntries k = t.drawnEntries k := by
  induction t with
  | alternation e t ht g ihe _ => simp [drawnEntries, ihe]
  | concat f g hl => simp [drawnEntries, lead]
  | _ => rfl

@[simp] theorem drawnExits_plain (t : Tree l) (k : Nat) : t.plain.drawnExits k = t.drawnExits k := by
  induction t generalizing k with
  | value => rfl
  | _ => simp_all [drawnExits]

@[simp] theorem height_plain (t : Tree l) : t.plain.height = t.height := by
  induction t with
  | value => rfl
  | _ => simp_all [height]

@[simp] theorem heights_plain (t : Tree l) : t.plain.heights = t.heights := by
  induction t with
  | alternation e t ht g ihe _ => simp [heights, ihe]
  | value => rfl
  | _ => simp [heights, height]

end Tree

def Node.Kind.complete : Node.Kind → Node.Kind
  | piece p => piece p.complete
  | k => k

namespace Node

/-- What a node is, apart from where its token stands. -/
def plain (n : Node) : Node :=
  { n with
    kind := n.kind.complete
    pos := n.pos.map fun _ => 0
    index := n.index.map fun _ => 0 }

variable (n : Node)

@[simp] theorem label_plain : n.plain.label = n.label := by
  cases h : n.kind <;> simp [label, plain, h, Kind.complete, Kind.label]

@[simp] theorem name_plain : n.plain.name = n.name := by
  cases h : n.kind <;> simp [name, plain, h, Kind.complete, Kind.name]

@[simp] theorem value?_plain : n.plain.value? = n.value?.map Value.complete := by
  cases h : n.kind with
  | piece p => cases p <;> simp [value?, plain, h, Kind.complete, Piece.complete]
  | _ => simp [value?, plain, h, Kind.complete]

@[simp] theorem isDrawn_plain : n.plain.isDrawn = n.isDrawn := by
  cases h : n.kind with
  | piece p => cases p <;> simp [isDrawn, plain, h, Kind.complete, Piece.complete]
  | _ => simp [isDrawn, plain, h, Kind.complete]

theorem kind_plain_eq (k : Kind) (hk : ∀ v, k ≠ .piece (.value v)) :
    n.plain.kind = k ↔ n.kind = k := by
  cases h : n.kind with
  | piece p =>
    cases p <;> simp [plain, h, Kind.complete, Piece.complete, (hk _).symm]
  | _ => simp [plain, h, Kind.complete]

@[simp] theorem kindClass_plain : n.plain.kindClass = n.kindClass := by
  cases h : n.kind with
  | piece p =>
    cases p with
    | value v => cases v <;> simp [kindClass, plain, h, Kind.complete, Piece.complete, Value.complete]
    | _ => simp [kindClass, plain, h, Kind.complete, Piece.complete]
  | _ => simp [kindClass, plain, h, Kind.complete]

@[simp] theorem classes_plain : n.plain.classes = n.classes := by
  simp only [classes, kindClass_plain]
  rfl

@[simp] theorem linkSource?_plain : n.plain.linkSource? = n.linkSource? := by
  simp only [linkSource?, n.kind_plain_eq .first (by simp)]
  rfl

@[simp] theorem mergeSources?_plain : n.plain.mergeSources? = n.mergeSources? := rfl

@[simp] theorem quantifiedClose?_plain : n.plain.quantifiedClose? = n.quantifiedClose? := by
  simp only [quantifiedClose?, n.kind_plain_eq (.piece .groupOpen) (by simp)]
  rfl

end Node

namespace Tree

variable {l : Precedence}

theorem branchInlet_plain (t : Tree l) (k : Nat) (i : Inlet) :
    t.plain.branchInlet k i = t.branchInlet k i := by
  simp [branchInlet]

theorem forkNodes_plain (t : Tree l) (k : Nat) (i : Inlet) :
    t.plain.forkNodes k i = (t.forkNodes k i).map Node.plain := by
  cases t with
  | alternation e t ht g =>
    simp [forkNodes, Node.plain, Node.ofToken, Token.plain, entries, drawnEntries, heights,
      Node.Kind.complete]
  | _ => rfl

theorem branchNodes_plain (t : Tree l) (k : Nat) (exit : List Nat) (i : Inlet)
    (q : Option Quantifier) :
    t.plain.branchNodes k exit i q = (t.branchNodes k exit i q).map Node.plain := by
  induction t generalizing k exit i q with
  | value => rfl
  | group opening closing ho hc body ih =>
    simp [branchNodes, ih, forkNodes_plain, branchInlet_plain, opener, closer, Node.plain,
      Node.ofToken, Token.plain, Node.Kind.complete, Piece.complete]
  | quantified a t q' hq hl ih =>
    cases q' <;>
      simp [branchNodes, ih, Node.plain, Node.ofToken, Token.plain, Node.Kind.complete]
  | concat f g hl ihf ihg => simp [branchNodes, ihf, ihg]
  | alternation e t ht g ihe ihg => simp [branchNodes, ihe, ihg]

theorem nodes_plain (t : Tree l) (k : Nat) (exit : List Nat) (i : Inlet) (q : Option Quantifier) :
    t.plain.nodes k exit i q = (t.nodes k exit i q).map Node.plain := by
  simp [nodes, forkNodes_plain, branchNodes_plain, branchInlet_plain]

end Tree

def Automaton.plain (a : Automaton) : Automaton := ⟨a.nodes.map Node.plain⟩

namespace Expression

def plain (A : Expression) : Expression := A.map Tree.plain

theorem tokens_plain (A : Expression) : A.plain.tokens = A.tokens.map Token.plain := by
  cases A with
  | none => rfl
  | some e => exact e.tokens_plain

theorem automaton_plain (A : Expression) : A.plain.automaton = A.automaton.plain := by
  have hnodes : A.plain.nodes = A.nodes.map Node.plain := by
    cases A with
    | none => rfl
    | some e =>
      simp [plain, nodes, Tree.nodes_plain, Node.plain, Node.Kind.complete]
  simp [automaton, Automaton.plain, hnodes]

end Expression

namespace Automaton

variable (a : Automaton)

theorem drawnPlaces_plain (ns : List Node) (place : Nat) :
    drawnPlaces place (ns.map Node.plain) = drawnPlaces place ns := by
  induction ns generalizing place with
  | nil => rfl
  | cons n ns ih => simp [drawnPlaces, ih]

theorem places_plain : a.plain.places = a.places := by
  simp [places, plain, drawnPlaces_plain]

@[simp] theorem size_plain : a.plain.nodes.size = a.nodes.size := by simp [plain]

theorem getElem_plain {i : Nat} (hi : i < a.nodes.size) (hi' : i < a.plain.nodes.size) :
    a.plain.nodes[i] = a.nodes[i].plain := by
  simp [plain]

theorem kind_last_plain {i : Nat} (hi : i < a.nodes.size) (hi' : i < a.plain.nodes.size) :
    a.plain.nodes[i].kind = .last ↔ a.nodes[i].kind = .last := by
  rw [a.getElem_plain hi hi', Node.kind_plain_eq _ .last (by simp)]

theorem walk_plain (visited : NodeSet) (stack : List Nat) :
    a.plain.walk visited stack = a.walk visited stack := by
  fun_induction walk a visited stack with
  | case1 => rw [walk_nil]
  | case2 visited i stack hv ih => rw [walk_visited _ _ hv, ih]
  | case3 visited i stack hv hi n hn =>
    have hi' : i < a.plain.nodes.size := a.size_plain.symm ▸ hi
    rw [walk_last _ _ hv hi' ((a.kind_last_plain hi hi').mpr hn)]
  | case4 visited i stack hv hi n hn hvalue ih =>
    have hi' : i < a.plain.nodes.size := a.size_plain.symm ▸ hi
    have hvalue' : a.plain.nodes[i].value?.isSome := by simpa [a.getElem_plain hi hi'] using hvalue
    rw [walk_value _ _ hv hi' (mt (a.kind_last_plain hi hi').mp hn) hvalue', ih]
  | case5 visited i stack hv hi n hn hvalue ih =>
    have hi' : i < a.plain.nodes.size := a.size_plain.symm ▸ hi
    have hvalue' : ¬a.plain.nodes[i].value?.isSome := by
      simpa [a.getElem_plain hi hi'] using hvalue
    have htargets : a.plain.nodes[i].targets = n.targets := by
      rw [a.getElem_plain hi hi']
      rfl
    rw [walk_control _ _ hv hi' (mt (a.kind_last_plain hi hi').mp hn) hvalue', htargets, ih]
  | case6 visited i stack hv hi ih => rw [walk_absent _ _ (a.size_plain.symm ▸ hi), ih]

theorem advance_plain (c : Char) (visited : NodeSet) (current : List Nat) :
    a.plain.advance c visited current = a.advance c visited current := by
  induction current generalizing visited with
  | nil => rfl
  | cons i rest ih =>
    have hnode : a.plain.nodes[i]? = a.nodes[i]?.map Node.plain := by simp [plain]
    cases hn : a.nodes[i]? with
    | none => simp [advance, hnode, hn]
    | some n =>
      have htargets : n.plain.targets = n.targets := rfl
      cases hv : n.value? <;> simp [advance, hnode, hn, hv, htargets, walk_plain, ih]

theorem run_plain (input : List Char) : a.plain.run input = a.run input := by
  have hfollow (current : List Nat) : a.plain.follow current input = a.follow current input := by
    induction input generalizing current with
    | nil => rfl
    | cons c rest ih => simp only [follow, consume, advance_plain, ih]
  simp only [run, start, walk_plain, hfollow]

end Automaton

namespace Layout

variable (nodes : Array Node) (placed : Places)

theorem place_plain (n : Node) : place (nodes.map Node.plain) placed n.plain = place nodes placed n := by
  have hfork (i : Nat) : (nodes.map Node.plain)[i]?.bind (·.fork) = nodes[i]?.bind (·.fork) := by
    cases h : nodes[i]? <;> simp [h, Node.plain]
  have hbranch (source branch : Nat) : placeBranch (nodes.map Node.plain) placed source branch =
      placeBranch nodes placed source branch := by
    simp only [placeBranch, hfork]
  simp only [place, n.kind_plain_eq .first (by simp), hbranch]
  rfl

theorem placeAll_plain (ns : List Node) :
    placeAll (nodes.map Node.plain) placed (ns.map Node.plain) = placeAll nodes placed ns := by
  induction ns generalizing placed with
  | nil => rfl
  | cons n ns ih => simp only [List.map_cons, placeAll, Node.isDrawn_plain, place_plain, ih]

theorem ofAutomaton_plain (a : Automaton) : ofAutomaton a.plain = ofAutomaton a := by
  rw [ofAutomaton, Automaton.plain, Array.toList_map, placeAll_plain]
  rfl

end Layout

namespace Graph

theorem drawnNodes_plain (a : Automaton) :
    drawnNodes a.plain = (drawnNodes a).map fun x => (x.1.plain, x.2) := by
  simp only [drawnNodes, Automaton.plain, Array.toList_map, List.zipIdx_map, List.filter_map]
  congr 1
  refine List.filter_congr fun x _ => ?_
  simp

theorem draw_plain (a : Automaton) (placed : Layout.Places) : draw a.plain placed = draw a placed := by
  simp only [draw, drawnNodes_plain, List.map_map, List.filterMap_map, Function.comp_def,
    Node.label_plain, Node.classes_plain, Node.linkSource?_plain, Node.mergeSources?_plain,
    Node.quantifiedClose?_plain]
  rfl

theorem ofAutomaton_plain (a : Automaton) : ofAutomaton a.plain = ofAutomaton a := by
  rw [ofAutomaton, ofAutomaton, Layout.ofAutomaton_plain, ofLayout, ofLayout]
  simp only [drawnNodes_plain, List.all_map, draw_plain]
  rfl

end Graph

end RegexDiagram
