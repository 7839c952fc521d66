import RegexDiagram.Proofs.Assembly

/-!
Construction builds the fragment of a tree. Every operator of a regex makes the fragment of a larger
tree from those of its operands, so that the symbols of a tree leave its fragment on the stack.
-/
namespace RegexDiagram.Tree

open Fragment

variable {l : Precedence}

theorem leadTo_nodes (t : Tree l) (k target : Nat) (exit : List Nat) (i : Inlet)
    (q : Option Quantifier) :
    leadTo target t.fragment.terminals (t.nodes k exit i q) =
      t.nodes k (exit ++ [target]) i q := by
  have hfork : leadFrom k target (t.terminals (k + t.forkSize)) (t.forkNodes k i) = _ :=
    leadFrom_of_outside fun x hx _ => by
      rw [length_forkNodes]
      exact (t.mem_terminals hx).1
  rw [leadTo_eq_leadFrom, ← leadFrom_map k, terminals_fragment, nodes, leadFrom_append,
    Nat.add_zero, hfork, length_forkNodes, leadFrom_branchNodes, nodes]

theorem leadTo_branchNodes (t : Tree l) (ht : t.isChoice = false) (k target : Nat)
    (exit : List Nat) (i : Inlet) (q : Option Quantifier) :
    leadTo target t.fragment.terminals (t.branchNodes k exit i q) =
      t.branchNodes k (exit ++ [target]) i q := by
  rw [← t.nodes_of_not_isChoice ht, leadTo_nodes, t.nodes_of_not_isChoice ht]

theorem link_fragment (t : Tree l) (k : Nat) {j : Inlet} {f : Node → Node}
    (hf : ∀ n : Node, f (n.link {}) = n.link j) :
    (t.fragment.nodes.map (·.shift k)).modify t.fragment.drawnEntry f = t.nodes k [] j none := by
  have hmoved : t.fragment.nodes.map (·.shift k) = t.nodes k [] {} none := t.map_shift_nodes k 0 ..
  rw [hmoved]
  exact t.modify_nodes k [] none hf

theorem fragment_of_not_isChoice (t : Tree l) (ht : t.isChoice = false) :
    t.fragment = ⟨t.branchNodes 0 [] {} none, t.terminals 0, t.lead, t.drawnExits 0, t.height,
      t.extent⟩ := by
  cases t with
  | alternation e t _ g => simp [isChoice] at ht
  | _ => rfl

theorem fragment_quantified (a : Tree .atom) (t : Token) (q : Quantifier)
    (hq : t.piece = .quantifier q) (hl : l ≠ .atom) :
    (quantified a t q hq hl : Tree l).fragment = a.fragment.quantify t q := by
  have ha : a.isChoice = false := a.isChoice_of_ne (by simp)
  have hsize : a.forkSize = 0 := a.forkSize_of_not_isChoice ha
  have hentry : a.fragment.drawnEntry = 0 := a.lead_of_atom
  have hterminals := a.terminals_fragment 1
  have hdrawn := a.drawnTerminals_fragment 1
  rw [hsize] at hterminals hdrawn
  cases q with
  | optional =>
    simp only [Fragment.quantify, Fragment.optional, tag_fragment, map_shift_branchNodes,
      hterminals, hdrawn, hentry]
    rfl
  | star =>
    simp only [Fragment.quantify, Fragment.star, tag_fragment, map_shift_branchNodes,
      leadTo_branchNodes a ha, hdrawn, hentry]
    rfl
  | plus =>
    have hlength : a.fragment.nodes.length = a.branchSize := by
      rw [length_fragment, size, hsize, Nat.zero_add]
    rw [fragment_of_not_isChoice _ rfl]
    simp only [Fragment.quantify, Fragment.plus, tag_fragment, leadTo_branchNodes a ha, hlength,
      hentry]
    simp only [fragment_of_not_isChoice a ha, branchNodes, terminals, drawnExits, lead,
      Nat.zero_add, if_true]
    rfl

theorem fragment_concat (f : Tree .term) (g : Tree .factor) (hl : l = .term ∨ l = .expr) :
    (concat f g hl).fragment = f.fragment.concat g.fragment := by
  have hf : f.isChoice = false := f.isChoice_of_ne (by simp)
  have hg : g.isChoice = false := g.isChoice_of_ne (by simp)
  have hlength : f.fragment.nodes.length = f.branchSize := by
    rw [length_fragment, size, forkSize_of_not_isChoice f hf, Nat.zero_add]
  have hon : leadTo f.branchSize f.fragment.terminals f.fragment.nodes =
      f.branchNodes 0 [f.branchSize] {} none :=
    (leadTo_nodes f 0 f.branchSize [] {} none).trans (f.nodes_of_not_isChoice hf ..)
  have hlink : (g.fragment.nodes.map (·.shift f.branchSize)).modify g.fragment.drawnEntry
      (·.setSources f.fragment.drawnTerminals) =
        g.branchNodes f.branchSize [] ⟨f.fragment.drawnTerminals, none⟩ none :=
    (g.link_fragment _ fun _ => rfl).trans (g.nodes_of_not_isChoice hg ..)
  rw [fragment_of_not_isChoice _ rfl]
  simp only [Fragment.concat, hlength, hon, hlink, terminals_fragment, drawnTerminals_fragment,
    forkSize_of_not_isChoice g hg]
  simp only [fragment_of_not_isChoice f hf, fragment_of_not_isChoice g hg, branchNodes, terminals,
    drawnExits, Nat.zero_add, Nat.add_zero]
  rfl

theorem fragment_group (opening closing : Token) (ho : opening.piece = .groupOpen)
    (hc : closing.piece = .groupClose) (body : Tree .expr) :
    (group opening closing ho hc body : Tree l).fragment =
      body.fragment.enclose { opening with last := some closing.index } closing.index
        closing.pos := by
  have hlink : (body.fragment.nodes.map (·.shift 1)).modify body.fragment.drawnEntry
      (·.setSources [0]) = body.nodes 1 [] ⟨[0], none⟩ none :=
    body.link_fragment 1 fun _ => rfl
  simp only [Fragment.enclose, length_fragment, hlink, leadTo_nodes, drawnTerminals_fragment]
  rfl

theorem fork?_fragment_of_not_isChoice (t : Tree l) (ht : t.isChoice = false) :
    t.fragment.fork? = none := by
  rw [Fragment.fork?, fragment_of_not_isChoice t ht]
  exact t.fork_branchNodes ht 0 [] {} none

theorem fragment_nodes_of_isChoice (e : Tree l) (he : e.isChoice = true) :
    ∃ t, e.fragment.nodes =
      { Node.ofToken t with
          next := (e.entries 1).map some, fork := some ⟨e.drawnEntries 1, e.heights⟩ }
        :: e.branchNodes 1 [] ⟨[0], some 0⟩ none := by
  cases e with
  | alternation e t ht g => exact ⟨t, rfl⟩
  | _ => simp [isChoice] at he

theorem fragment_eq_alternation (e : Tree .expr) (t : Token) (ht : t.piece = .alternation)
    (g : Tree .term) :
    (alternation e t ht g).fragment =
      { nodes :=
          { Node.ofToken t with
              next := (e.entries 1 ++ [1 + e.branchSize]).map some
              fork := some ⟨e.drawnEntries 1 ++ [1 + e.branchSize + g.lead],
                e.heights ++ [g.height]⟩ }
            :: (e.branchNodes 1 [] ⟨[0], some 0⟩ none
              ++ g.branchNodes (1 + e.branchSize) [] ⟨[0], some e.branchCount⟩ none)
        terminals := e.terminals 1 ++ g.terminals (1 + e.branchSize)
        drawnEntry := 0
        drawnTerminals := e.drawnExits 1 ++ g.drawnExits (1 + e.branchSize)
        height := e.height + g.height
        extent := ⟨e.extent.first, g.extent.last⟩ } :=
  rfl

theorem fragment_alternation (e : Tree .expr) (t : Token) (ht : t.piece = .alternation)
    (g : Tree .term) :
    e.fragment.alternate t g.fragment = some (alternation e t ht g).fragment := by
  have hg : g.isChoice = false := g.isChoice_of_ne (by simp)
  have hlink (k b : Nat) : (g.fragment.nodes.map (·.shift k)).modify g.fragment.drawnEntry
      (·.asBranch 0 b) = g.branchNodes k [] ⟨[0], some b⟩ none :=
    (g.link_fragment k fun _ => rfl).trans (g.nodes_of_not_isChoice hg ..)
  simp only [Fragment.alternate, fork?_fragment_of_not_isChoice g hg, Option.isSome_none,
    Bool.false_eq_true, if_false, terminals_fragment, drawnTerminals_fragment, length_fragment,
    forkSize_of_not_isChoice g hg]
  cases he : e.isChoice with
  | false =>
    have hfirst : (e.fragment.nodes.map (·.shift 1)).modify e.fragment.drawnEntry
        (·.asBranch 0 0) = e.branchNodes 1 [] ⟨[0], some 0⟩ none :=
      (e.link_fragment 1 fun _ => rfl).trans (e.nodes_of_not_isChoice he ..)
    obtain ⟨hentries, hdrawn, hheights, hcount⟩ := e.single_branch he 1
    rw [fragment_eq_alternation, hentries, hdrawn, hheights, hcount]
    simp only [fork?_fragment_of_not_isChoice e he, Fragment.branchOff, hfirst, hlink,
      length_fragment, size, forkSize_of_not_isChoice e he]
    simp [fragment]
  | true =>
    obtain ⟨u, hu⟩ := e.fragment_nodes_of_isChoice he
    have hfork : e.fragment.fork? = some ⟨e.drawnEntries 1, e.heights⟩ := by
      rw [Fragment.fork?, hu]
      rfl
    have hsize : e.forkSize = 1 := by rw [forkSize, he]; rfl
    rw [fragment_eq_alternation]
    simp only [hfork, Fragment.addBranch, hu, List.head?_cons, List.tail_cons, Option.elim,
      map_loseTarget_branchNodes, hlink, length_drawnEntries, Option.isSome_some, if_true,
      size, hsize, List.length_cons, length_branchNodes]
    simp [fragment, Nat.add_comm]

end RegexDiagram.Tree

namespace RegexDiagram.Construction

theorem Built.note_note {α : Type} (xs ys : List Span) (b : Built α) :
    (b.note ys).note xs = b.note (xs ++ ys) := by
  simp only [Built.note, List.append_assoc]

theorem Built.note_nil {α : Type} (b : Built α) : b.note [] = b := rfl

/-- Every token has its lexeme. -/
def Placed (lexemes : List Lexeme) (ts : List Token) : Prop :=
  ∀ t ∈ ts, ∃ l, lexemes[t.index]? = some l ∧ l.pos = t.pos

variable {lexemes : List Lexeme}

theorem run_cons {stack stack' : List Fragment} {s : Symbol} {spans : List Span}
    (h : step lexemes stack s = .ok (stack', spans)) (rest : List Symbol) :
    run lexemes stack (s :: rest) = (run lexemes stack' rest).note spans := by
  simp only [run, h]

theorem run_symbols {l : Precedence} (t : Tree l) (ht : Placed lexemes t.tokens)
    (stack : List Fragment) (rest : List Symbol) :
    run lexemes stack (t.symbols ++ rest) =
      (run lexemes (t.fragment :: stack) rest).note t.spans := by
  induction t generalizing stack rest with
  | value tok v hv =>
    have hstep : step lexemes stack (.token tok) = .ok (.ofValue tok :: stack, []) := by
      simp only [step, evaluate, hv]
    exact run_cons hstep rest
  | group opening closing ho hc body ih =>
    obtain ⟨lexeme, hlexeme, hpos⟩ := ht closing (by simp [Tree.tokens])
    have hbody : Placed lexemes body.tokens := fun t h => ht t (by simp [Tree.tokens, h])
    have hstep : step lexemes (body.fragment :: stack)
        (.token { opening with last := some closing.index }) =
          .ok ((Tree.group opening closing ho hc body : Tree .expr).fragment :: stack, []) := by
      simp only [step, evaluate, ho, enclose, hlexeme, hpos, Tree.fragment_group, Except.map]
    rw [Tree.symbols, List.append_assoc, ih hbody]
    exact congrArg (·.note body.spans) (run_cons hstep rest)
  | quantified a tok q hq hl ih =>
    have hatom : Placed lexemes a.tokens := fun t h => ht t (by simp [Tree.tokens, h])
    have hstep : step lexemes (a.fragment :: stack) (.token tok) =
        .ok ((Tree.quantified a tok q hq hl).fragment :: stack,
          [⟨tok.index, a.fragment.extent, none⟩]) := by
      simp only [step, evaluate, hq, Tree.fragment_quantified]
    rw [Tree.symbols, List.append_assoc, ih hatom, List.singleton_append, run_cons hstep,
      Built.note_note]
    rfl
  | concat f g hl ihf ihg =>
    have hf : Placed lexemes f.tokens := fun t h => ht t (by simp [Tree.tokens, h])
    have hg : Placed lexemes g.tokens := fun t h => ht t (by simp [Tree.tokens, h])
    have hstep : step lexemes (g.fragment :: f.fragment :: stack) .concat =
        .ok ((Tree.concat f g hl).fragment :: stack, []) := by
      simp only [step, Tree.fragment_concat]
    rw [Tree.symbols, List.append_assoc, List.append_assoc, ihf hf, ihg hg, List.singleton_append,
      run_cons hstep, Built.note_nil, Built.note_note]
    rfl
  | alternation e tok htok g ihe ihg =>
    have he : Placed lexemes e.tokens := fun t h => ht t (by simp [Tree.tokens, h])
    have hg : Placed lexemes g.tokens := fun t h => ht t (by simp [Tree.tokens, h])
    have hstep : step lexemes (g.fragment :: e.fragment :: stack) (.token tok) =
        .ok ((Tree.alternation e tok htok g).fragment :: stack,
          [⟨tok.index, e.fragment.extent, some g.fragment.extent⟩]) := by
      simp only [step, evaluate, htok, Tree.fragment_alternation e tok htok g]
    rw [Tree.symbols, List.append_assoc, List.append_assoc, ihe he, ihg hg, List.singleton_append,
      run_cons hstep, Built.note_note, Built.note_note]
    simp only [Tree.spans, List.append_assoc]
    rfl

end RegexDiagram.Construction

namespace RegexDiagram

namespace Expression

open Fragment Construction

/-- The nodes of the automaton of a whole regex. -/
def nodes : Expression → List Node
  | none => [{ kind := .first, next := [some 1] }, { kind := .last, sources := [0] }]
  | some e =>
      { kind := .first, next := [some 1] }
        :: e.nodes 1 [1 + e.size] ⟨[0], none⟩ none
        ++ [{ kind := .last, sources := e.drawnExits (1 + e.forkSize) }]

def automaton (A : Expression) : Automaton := ⟨A.nodes.toArray⟩

def spans : Expression → List Span
  | none => []
  | some e => e.spans

theorem nodes_finish (e : Tree .expr) :
    ((firstFragment.concat e.fragment).concat lastFragment).nodes = nodes (some e) := by
  let f := firstFragment.concat e.fragment
  have hlink : (e.fragment.nodes.map (·.shift 1)).modify e.fragment.drawnEntry
      (·.setSources [0]) = e.nodes 1 [] ⟨[0], none⟩ none :=
    e.link_fragment 1 fun _ => rfl
  have hnodes : f.nodes =
      { kind := .first, next := [some 1] } :: e.nodes 1 [] ⟨[0], none⟩ none :=
    congrArg (_ :: ·) hlink
  have hlength : f.nodes.length = 1 + e.size := by
    rw [hnodes, List.length_cons, Tree.length_nodes, Nat.add_comm]
  have hbody : leadFrom 1 (1 + e.size) (e.fragment.terminals.map (1 + ·))
      (e.nodes 1 [] ⟨[0], none⟩ none) = e.nodes 1 [1 + e.size] ⟨[0], none⟩ none := by
    rw [leadFrom_map 1 0, ← leadTo_eq_leadFrom, e.leadTo_nodes, List.nil_append]
  have hon : leadTo (1 + e.size) f.terminals f.nodes =
      { kind := .first, next := [some 1] } :: e.nodes 1 [1 + e.size] ⟨[0], none⟩ none := by
    have hfirst : ¬(e.fragment.terminals.map (1 + ·)).contains 0 := by simp
    rw [leadTo_eq_leadFrom, hnodes, leadFrom_cons]
    exact congr (congrArg _ (if_neg hfirst)) hbody
  have hlast : (f.concat lastFragment).nodes =
      leadTo f.nodes.length f.terminals f.nodes ++
        [{ kind := .last, sources := f.drawnTerminals }] := rfl
  rw [hlast, hlength, hon, show f.drawnTerminals = _ from e.drawnTerminals_fragment 1]
  rfl

theorem ofSymbols_symbols {lexemes : List Lexeme} (A : Expression) (hA : Placed lexemes A.tokens) :
    Automaton.ofSymbols lexemes A.symbols = ⟨.ok A.automaton, A.spans⟩ := by
  cases A with
  | none => rfl
  | some e =>
    have hrun := run_symbols e hA [firstFragment] []
    rw [List.append_nil] at hrun
    simp only [Automaton.ofSymbols, symbols, hrun, run, Built.note, Except.bind, finish, Except.map,
      nodes_finish, List.append_nil, spans, automaton]

end Expression

/-- A property of every node at its position, the first one at `k`. -/
def EachFrom (p : Nat → Node → Prop) (k : Nat) : List Node → Prop
  | [] => True
  | n :: ns => p k n ∧ EachFrom p (k + 1) ns

theorem eachFrom_append (p : Nat → Node → Prop) (k : Nat) (xs ys : List Node) :
    EachFrom p k (xs ++ ys) ↔ EachFrom p k xs ∧ EachFrom p (k + xs.length) ys := by
  induction xs generalizing k with
  | nil => simp [EachFrom]
  | cons x xs ih =>
    simp only [List.cons_append, EachFrom, ih, List.length_cons, and_assoc, Nat.add_assoc,
      Nat.add_comm 1]

theorem eachFrom_iff (p : Nat → Node → Prop) (k : Nat) (ns : List Node) :
    EachFrom p k ns ↔ ∀ i n, ns[i]? = some n → p (k + i) n := by
  induction ns generalizing k with
  | nil => simp [EachFrom]
  | cons m ns ih =>
    rw [EachFrom, ih]
    refine ⟨fun h i n hn => ?_, fun h => ⟨h 0 m rfl, fun i n hn => ?_⟩⟩
    · cases i with
      | zero =>
        obtain rfl := Option.some.inj hn
        exact h.1
      | succ i =>
        rw [Nat.add_comm i, ← Nat.add_assoc]
        exact h.2 i n hn
    · rw [Nat.add_assoc, Nat.add_comm 1]
      exact h (i + 1) n hn

theorem eachFrom_of_mem {p : Nat → Node → Prop} {ns : List Node} (h : ∀ n ∈ ns, ∀ i, p i n)
    (k : Nat) : EachFrom p k ns :=
  (eachFrom_iff p k ns).mpr fun _ n hn => h n (List.mem_of_getElem? hn) _

theorem eachFrom_nodes (p : Nat → Node → Prop) {l : Precedence} (t : Tree l) (k : Nat)
    (exit : List Nat) (i : Inlet) (q : Option Quantifier) :
    EachFrom p k (t.nodes k exit i q) ↔ EachFrom p k (t.forkNodes k i) ∧
      EachFrom p (k + t.forkSize) (t.branchNodes (k + t.forkSize) exit (t.branchInlet k i) q) := by
  rw [Tree.nodes, eachFrom_append, Tree.length_forkNodes]

theorem eachFrom_group (p : Nat → Node → Prop) {l : Precedence} (opening closing : Token)
    (ho : opening.piece = .groupOpen) (hc : closing.piece = .groupClose) (body : Tree .expr)
    (k : Nat) (exit : List Nat) (i : Inlet) (q : Option Quantifier) :
    EachFrom p k ((Tree.group opening closing ho hc body : Tree l).branchNodes k exit i q) ↔
      p k (Tree.opener opening k body.size i q) ∧
        EachFrom p (k + 1) (body.nodes (k + 1) [k + 1 + body.size] ⟨[k], none⟩ none) ∧
        p (k + 1 + body.size)
          (Tree.closer closing (body.drawnExits (k + 1 + body.forkSize)) exit q) := by
  rw [Tree.branchNodes_group]
  simp only [EachFrom, eachFrom_append, Tree.length_nodes, and_true]

namespace Automaton

/-- The automaton has these nodes, the first one at `k`. -/
def Holds (a : Automaton) (k : Nat) (ns : List Node) : Prop :=
  EachFrom (fun i n => a.nodes[i]? = some n) k ns

theorem holds_append {a : Automaton} {k : Nat} {xs ys : List Node} :
    a.Holds k (xs ++ ys) ↔ a.Holds k xs ∧ a.Holds (k + xs.length) ys :=
  eachFrom_append _ k xs ys

end Automaton

theorem Expression.holds_nodes (A : Expression) : A.automaton.Holds 0 A.nodes :=
  (eachFrom_iff _ 0 A.nodes).mpr fun i n hn => by simpa [automaton] using hn

theorem Expression.eachFrom_some (p : Nat → Node → Prop) (e : Tree .expr) :
    EachFrom p 0 (nodes (some e)) ↔
      p 0 { kind := .first, next := [some 1] } ∧
        EachFrom p 1 (e.nodes 1 [1 + e.size] ⟨[0], none⟩ none) ∧
        p (1 + e.size) { kind := .last, sources := e.drawnExits (1 + e.forkSize) } := by
  simp only [nodes, List.cons_append, EachFrom, eachFrom_append, Tree.length_nodes, Nat.zero_add,
    and_true]

end RegexDiagram
