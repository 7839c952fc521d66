import RegexDiagram.Proofs.Plain
import RegexDiagram.Proofs.Repair

/-!
What a repair leaves as it was. The valid tokens of a regex and the tokens of its repaired text are
the same apart from where they stand, so that both are compiled to automata that differ in nothing
but the places in the source that nodes stand for.
-/
namespace RegexDiagram

open List (Forall₂)

/-- Nodes that differ at most in where in the source they come from, and in whether the bracket
expression that they test for has its closing bracket there. -/
structure Node.Alike (n m : Node) : Prop where
  label : n.label = m.label
  name : n.name = m.name
  next : n.next = m.next
  accepts : n.value?.map Value.accepts = m.value?.map Value.accepts
  quantifier : n.quantifier = m.quantifier
  close : n.close = m.close
  sources : n.sources = m.sources
  fork : n.fork = m.fork
  branch : n.branch = m.branch

theorem Node.alike_of_plain_eq {n m : Node} (h : n.plain = m.plain) : n.Alike m where
  label := by rw [← n.label_plain, h, m.label_plain]
  name := by rw [← n.name_plain, h, m.name_plain]
  next := (congrArg Node.next h :)
  accepts := by
    have hvalue := congrArg (fun n => n.value?.map Value.accepts) h
    simpa [Function.comp_def] using hvalue
  quantifier := (congrArg Node.quantifier h :)
  close := (congrArg Node.close h :)
  sources := (congrArg Node.sources h :)
  fork := (congrArg Node.fork h :)
  branch := (congrArg Node.branch h :)

namespace Automaton

variable {a b : Automaton}

theorem alike_of_plain_eq (h : a.plain = b.plain) :
    Forall₂ Node.Alike a.nodes.toList b.nodes.toList := by
  have hnodes : a.nodes.toList.map Node.plain = b.nodes.toList.map Node.plain := by
    simpa [plain] using congrArg (·.nodes.toList) h
  rw [← List.forall₂_eq_eq_eq, List.forall₂_map_left_iff, List.forall₂_map_right_iff] at hnodes
  exact hnodes.imp fun _ _ => Node.alike_of_plain_eq

theorem places_of_plain_eq (h : a.plain = b.plain) : a.places = b.places := by
  rw [← a.places_plain, h, b.places_plain]

theorem run_of_plain_eq (h : a.plain = b.plain) (input : List Char) : a.run input = b.run input := by
  rw [← a.run_plain, h, b.run_plain]

theorem drawing_of_plain_eq (h : a.plain = b.plain) :
    Graph.ofAutomaton a = Graph.ofAutomaton b := by
  rw [← Graph.ofAutomaton_plain a, h, Graph.ofAutomaton_plain b]

end Automaton

theorem Token.map_plain_of_pieces {ts us : List Token}
    (h : ts.map Token.piece = us.map fun t => t.piece.complete) :
    ts.map Token.plain = us.map Token.plain := by
  have hmap := congrArg (List.map fun p : Piece => Token.mk p.complete 0 0 none false false) h
  simp only [List.map_map, Function.comp_def, Piece.complete_complete] at hmap
  exact hmap

theorem Expression.plain_automaton_eq {A B : Expression}
    (h : B.tokens.map Token.plain = A.tokens.map Token.plain) :
    A.automaton.plain = B.automaton.plain := by
  rw [← automaton_plain, ← automaton_plain]
  rw [← tokens_plain, ← tokens_plain] at h
  have hvalid : ∀ t ∈ A.plain.tokens, t.invalid = false := by
    rw [tokens_plain, List.forall_mem_map]
    exact fun t _ => rfl
  have hplaced : Construction.Placed [{ glyph := .negation, pos := 0, index := 0 }]
      A.plain.tokens := by
    rw [tokens_plain, Construction.Placed, List.forall_mem_map]
    exact fun t _ => ⟨_, rfl, rfl⟩
  exact (eq_of_tokens h hvalid hplaced).2

/--
A repaired text means what the regex was compiled to, unless the regex ends in a bracket expression
without a member: its automaton has the same nodes but for their places in the source, is drawn in
the same way and runs in the same way.
-/
theorem repair_keeps_meaning (source : List Char)
    (h : ∀ t ∈ (Analysis.ofSource source).tokens, t.piece.isHollow = false) :
    ∃ c d, compile source = .ok c ∧ compile c.repaired = .ok d ∧
      Forall₂ Node.Alike c.automaton.nodes.toList d.automaton.nodes.toList ∧
      c.automaton.places = d.automaton.places ∧ c.graph = d.graph ∧
      ∀ input, c.automaton.run input = d.automaton.run input := by
  obtain ⟨c, a, A, hc, ha, hthrough, hA, htokens, hrepaired⟩ := exists_stages source
  obtain ⟨d, b, B, hd, hb, hthrough', hB, htokens', -⟩ := exists_stages c.repaired
  obtain ⟨hvalidate, -, hvalid, hpieces⟩ := Analysis.validate_labels ha h
  rw [← hrepaired, hb] at hvalidate
  rw [← hrepaired, ← Option.some.inj hvalidate] at hvalid hpieces
  have hplain : B.tokens.map Token.plain = A.tokens.map Token.plain := by
    rw [htokens, htokens', hvalid, Token.map_plain_of_pieces hpieces]
  have heq := Expression.plain_automaton_eq hplain
  rw [← hA.automaton, ← hB.automaton] at heq
  refine ⟨c, d, hc, hd, Automaton.alike_of_plain_eq heq, Automaton.places_of_plain_eq heq, ?_,
    Automaton.run_of_plain_eq heq⟩
  have hgraph := Automaton.drawing_of_plain_eq heq
  rw [hthrough.graph, hthrough'.graph] at hgraph
  exact Except.ok.inj hgraph

/-- It keeps the meaning of `(a?+[b-`, where a parenthesis, a bracket and a quantifier are at
fault. -/
theorem repair_keeps_open_group :
    (∀ t ∈ (Analysis.ofSource ['(', 'a', '?', '+', '[', 'b', '-']).tokens,
        t.piece.isHollow = false) ∧
      (compile ['(', 'a', '?', '+', '[', 'b', '-']).toOption.map (·.repaired) =
        some ['(', 'a', '*', '[', 'b', '-', ']', ')'] ∧
      ∃ c d, compile ['(', 'a', '?', '+', '[', 'b', '-'] = .ok c ∧ compile c.repaired = .ok d ∧
        Forall₂ Node.Alike c.automaton.nodes.toList d.automaton.nodes.toList ∧
        c.automaton.places = d.automaton.places ∧ c.graph = d.graph ∧
        ∀ input, c.automaton.run input = d.automaton.run input := by
  have h : ∀ t ∈ (Analysis.ofSource ['(', 'a', '?', '+', '[', 'b', '-']).tokens,
      t.piece.isHollow = false := by
    decide +kernel
  exact ⟨h, by decide +kernel, repair_keeps_meaning _ h⟩

end RegexDiagram
