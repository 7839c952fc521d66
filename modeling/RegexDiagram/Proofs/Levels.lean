import Mathlib.Data.List.Forall2
import RegexDiagram.Proofs.Compile

/-!
The levels of a regex and their forks. A level is the whole regex or the content of a group, and the
alternations that are in no group of it separate its alternatives. However many alternatives there
are, they share one fork: the forks of an automaton stand for the levels with alternatives, one for
each. Runs enter an alternative at a quantifier that may skip what it applies to, while the drawing
starts with its first token, so the two lists of successors of a fork may differ.
-/
namespace RegexDiagram

/-- The alternations outside of parentheses, of which `depth` are open in front. -/
def bars (depth : Nat) : List Token → List Token
  | [] => []
  | t :: ts =>
      match t.piece with
      | .groupOpen => bars (depth + 1) ts
      | .groupClose => bars (depth - 1) ts
      | .alternation => if depth = 0 then t :: bars depth ts else bars depth ts
      | _ => bars depth ts

/-- The nodes of a kind with their positions, the first node of all at `k`. -/
def select (p : Node → Bool) (k : Nat) (ns : List Node) : List (Node × Nat) :=
  (ns.zipIdx k).filter (p ·.1)

@[simp] theorem select_nil (p : Node → Bool) (k : Nat) : select p k [] = [] := rfl

theorem select_append (p : Node → Bool) (k : Nat) (xs ys : List Node) :
    select p k (xs ++ ys) = select p k xs ++ select p (k + xs.length) ys := by
  simp only [select, List.zipIdx_append, List.filter_append]

theorem select_cons (p : Node → Bool) (k : Nat) (n : Node) (ns : List Node) :
    select p k (n :: ns) = (if p n then [(n, k)] else []) ++ select p (k + 1) ns := by
  cases h : p n <;> simp [select, h]

/-- The node was made for the token. -/
structure Node.StandsFor (n : Node) (t : Token) : Prop where
  kind : n.kind = .piece t.piece
  pos : n.pos = some t.pos
  index : n.index = some t.index

def Node.isFork (n : Node) : Bool := n.kind = .piece .alternation

namespace Tree

variable {l : Precedence}

/-- The contents of the groups, in the order of their opening parentheses. -/
def contents : {l : Precedence} → Tree l → List (Tree .expr)
  | _, value _ _ _ => []
  | _, group _ _ _ _ body => body :: body.contents
  | _, quantified a _ _ _ _ => a.contents
  | _, concat f g _ => f.contents ++ g.contents
  | _, alternation e _ _ g => e.contents ++ g.contents

/-- What the alternations outside of groups separate. -/
def alternatives : {l : Precedence} → Tree l → List (Sigma Tree)
  | _, alternation e _ _ g => e.alternatives ++ [⟨.term, g⟩]
  | l, t => [⟨l, t⟩]

/-- The token at which runs enter. -/
def entryToken : {l : Precedence} → Tree l → Token
  | _, value t _ _ => t
  | _, group opening _ _ _ _ => opening
  | _, quantified a t q _ _ => if q = .plus then a.entryToken else t
  | _, concat f _ _ => f.entryToken
  | _, alternation _ t _ _ => t

/-- The alternations between the alternatives. -/
def separators : {l : Precedence} → Tree l → List Token
  | _, alternation e t _ _ => e.separators ++ [t]
  | _, _ => []

theorem length_alternatives (t : Tree l) : t.alternatives.length = t.separators.length + 1 := by
  induction t with
  | alternation e t ht g ihe _ => simp [alternatives, separators, ihe]
  | _ => rfl

theorem heights_eq (t : Tree l) : t.heights = t.alternatives.map (·.2.height) := by
  induction t with
  | alternation e t ht g ihe _ => simp [heights, alternatives, ihe]
  | _ => rfl

theorem separators_eq_nil (t : Tree l) : t.separators = [] ↔ t.isChoice = false := by
  cases t <;> simp [separators, isChoice]

theorem bars_append (t : Tree l) (depth : Nat) (ts : List Token) :
    bars depth (t.tokens ++ ts) = (if depth = 0 then t.separators else []) ++ bars depth ts := by
  induction t generalizing depth ts with
  | value t v hv => simp [tokens, bars, separators, hv]
  | group opening closing ho hc body ih => simp [tokens, bars, separators, ho, hc, ih]
  | quantified a t q hq hl ih =>
    have ha := a.separators_eq_nil.mpr (a.isChoice_of_ne (by simp))
    simp [tokens, bars, separators, hq, ih, ha]
  | concat f g hl ihf ihg =>
    have hf := f.separators_eq_nil.mpr (f.isChoice_of_ne (by simp))
    have hg := g.separators_eq_nil.mpr (g.isChoice_of_ne (by simp))
    simp [tokens, separators, ihf, ihg, hf, hg]
  | alternation e t ht g ihe ihg =>
    have hg := g.separators_eq_nil.mpr (g.isChoice_of_ne (by simp))
    by_cases hdepth : depth = 0
    · simp [tokens, bars, separators, ht, ihe, ihg, hg, hdepth]
    · simp [tokens, bars, ht, ihe, ihg, hdepth]

theorem bars_tokens (t : Tree l) : bars 0 t.tokens = t.separators := by
  simpa [bars] using t.bars_append 0 []

end Tree

namespace Automaton

/-- The node at `i` was made for the token. -/
def StandsAt (a : Automaton) (i : Nat) (t : Token) : Prop :=
  ∃ n, a.nodes[i]? = some n ∧ n.StandsFor t

/-- The node at `j` is linked in the drawing as the inlet says. -/
def HangsOn (a : Automaton) (i : Inlet) (j : Nat) : Prop :=
  ∃ n, a.nodes[j]? = some n ∧ n.sources = i.sources ∧ n.branch = i.branch

/-- The node `n` at `i` forks into the alternatives of a level. -/
structure Branches (a : Automaton) (i : Nat) (e : Tree .expr) (n : Node) (f : Fork) : Prop where
  node : a.nodes[i]? = some n
  fork : n.fork = some f
  token : ∃ t, (bars 0 e.tokens).getLast? = some t ∧ n.StandsFor t
  alternatives : e.alternatives.length = (bars 0 e.tokens).length + 1
  successors : ∃ targets, n.next = targets.map some ∧
    List.Forall₂ (fun j g => a.StandsAt j g.2.entryToken) targets e.alternatives
  drawn : List.Forall₂ (fun j g => ∃ t, g.2.tokens.head? = some t ∧ a.StandsAt j t) f.branches
    e.alternatives
  heights : f.heights = e.alternatives.map (·.2.height)
  hanging : ∀ b j, f.branches[b]? = some j → a.HangsOn ⟨[i], some b⟩ j

/-- A node with its position is the fork of a level. -/
def ForkOf (a : Automaton) (x : Node × Nat) (e : Tree .expr) : Prop :=
  ∃ f, a.Branches x.2 e x.1 f

/-- The forks of an automaton with their positions. -/
def forks (a : Automaton) : List (Node × Nat) := select Node.isFork 0 a.nodes.toList

end Automaton

namespace Tree

open Automaton

variable {l : Precedence} {a : Automaton} {k : Nat} {exit : List Nat} {i : Inlet}
  {q : Option Quantifier}

theorem standsAt_entryToken (t : Tree l) (ht : t.isChoice = false)
    (h : a.Holds k (t.branchNodes k exit i q)) : a.StandsAt k t.entryToken := by
  induction t generalizing k exit i q with
  | value t v hv => exact ⟨_, h.1, rfl, rfl, rfl⟩
  | group opening closing ho hc body _ => exact ⟨_, h.1, rfl, rfl, rfl⟩
  | quantified b t q' hq hl ih =>
    cases q' with
    | plus => exact ih (b.isChoice_of_ne (by simp)) (holds_append.mp h).1
    | _ => exact ⟨_, h.1, rfl, rfl, rfl⟩
  | concat f g hl ihf _ => exact ihf (f.isChoice_of_ne (by simp)) (holds_append.mp h).1
  | alternation e t _ g _ _ => simp [isChoice] at ht

theorem standsAt_entries (t : Tree l) (h : a.Holds k (t.branchNodes k exit i q)) :
    List.Forall₂ (fun j g => a.StandsAt j g.2.entryToken) (t.entries k) t.alternatives := by
  induction t generalizing k exit i q with
  | alternation e t ht g ihe _ =>
    rw [branchNodes, holds_append, length_branchNodes] at h
    exact List.rel_append (ihe h.1)
      (.cons (g.standsAt_entryToken (g.isChoice_of_ne (by simp)) h.2) .nil)
  | _ => exact .cons (standsAt_entryToken _ rfl h) .nil

/-- The drawing of a tree starts with its first token, which takes the inlet. -/
theorem exists_lead (t : Tree l) (ht : t.isChoice = false)
    (h : a.Holds k (t.branchNodes k exit i q)) :
    (∃ s, t.tokens.head? = some s ∧ a.StandsAt (k + t.lead) s) ∧ a.HangsOn i (k + t.lead) := by
  induction t generalizing k exit i q with
  | value t v hv => exact ⟨⟨t, rfl, _, h.1, rfl, rfl, rfl⟩, _, h.1, rfl, rfl⟩
  | group opening closing ho hc body _ =>
    exact ⟨⟨opening, rfl, _, h.1, rfl, rfl, rfl⟩, _, h.1, rfl, rfl⟩
  | quantified b t q' hq hl ih =>
    have hb : b.isChoice = false := b.isChoice_of_ne (by simp)
    have hatom {k : Nat} {exit : List Nat} {q : Option Quantifier}
        (h : a.Holds k (b.branchNodes k exit i q)) :
        (∃ s, (b.tokens ++ [t]).head? = some s ∧ a.StandsAt k s) ∧ a.HangsOn i k := by
      obtain ⟨⟨s, hs, hstands⟩, hhangs⟩ := ih hb h
      rw [b.lead_of_atom] at hstands hhangs
      exact ⟨⟨s, by simp [hs], hstands⟩, hhangs⟩
    cases q' with
    | plus => exact hatom (holds_append.mp h).1
    | _ => exact hatom h.2
  | concat f g hl ihf _ =>
    obtain ⟨⟨s, hs, hstands⟩, hhangs⟩ :=
      ihf (f.isChoice_of_ne (by simp)) (holds_append.mp h).1
    exact ⟨⟨s, by simp [tokens, hs], hstands⟩, hhangs⟩
  | alternation e t _ g _ _ => simp [isChoice] at ht

theorem standsAt_drawnEntries (t : Tree l) (h : a.Holds k (t.branchNodes k exit i q)) :
    List.Forall₂ (fun j g => ∃ s, g.2.tokens.head? = some s ∧ a.StandsAt j s) (t.drawnEntries k)
      t.alternatives := by
  induction t generalizing k exit i q with
  | alternation e t ht g ihe _ =>
    rw [branchNodes, holds_append, length_branchNodes] at h
    exact List.rel_append (ihe h.1)
      (.cons (g.exists_lead (g.isChoice_of_ne (by simp)) h.2).1 .nil)
  | _ => exact .cons (exists_lead _ rfl h).1 .nil

theorem hangsOn_drawnEntries (t : Tree l) (h : a.Holds k (t.branchNodes k exit i q)) {b j : Nat}
    (hj : (t.drawnEntries k)[b]? = some j) :
    a.HangsOn (if b = 0 then i else { i with branch := some b }) j := by
  induction t generalizing k exit i q with
  | alternation e t ht g ihe _ =>
    rw [branchNodes, holds_append, length_branchNodes] at h
    have hcount := e.length_drawnEntries k
    have hpos := e.branchCount_pos
    rw [drawnEntries, List.getElem?_append] at hj
    split at hj
    · exact ihe h.1 hj
    · obtain ⟨hb, rfl⟩ := List.getElem?_eq_some_iff.mp hj
      simp only [List.length_singleton] at hb
      obtain rfl : b = e.branchCount := by omega
      simpa [hcount, Nat.ne_of_gt hpos] using (g.exists_lead (g.isChoice_of_ne (by simp)) h.2).2
  | _ =>
    obtain ⟨hb, rfl⟩ := List.getElem?_eq_some_iff.mp hj
    obtain rfl : b = 0 := by simpa [drawnEntries] using hb
    exact (exists_lead _ rfl h).2

/-- The node in front of a choice is the fork of its level, and the only one. -/
theorem forkOf_forkNodes (e : Tree .expr) (h : a.Holds k (e.nodes k exit i q)) :
    List.Forall₂ a.ForkOf (select Node.isFork k (e.forkNodes k i))
      (if e.isChoice then [e] else []) := by
  cases e with
  | alternation e t ht g =>
    obtain ⟨hfork, hbranches⟩ := (eachFrom_nodes ..).mp h
    have hkind : (Node.ofToken t).kind = .piece .alternation := by rw [Node.ofToken, ht]
    rw [forkNodes, select_cons, if_pos (by simp [Node.isFork, hkind])]
    refine .cons ⟨_, hfork.1, rfl, ?_, ?_, ⟨_, rfl, standsAt_entries _ hbranches⟩,
      standsAt_drawnEntries _ hbranches, heights_eq _, fun b j hj => ?_⟩ .nil
    · refine ⟨t, ?_, rfl, rfl, rfl⟩
      rw [bars_tokens]
      exact List.getLast?_concat
    · rw [bars_tokens, length_alternatives]
    · have hangs := hangsOn_drawnEntries _ hbranches hj
      by_cases hb : b = 0
      · simpa [hb, branchInlet, isChoice] using hangs
      · simpa [hb, branchInlet, isChoice] using hangs
  | _ => exact .nil

theorem forkOf_nodes_of (e : Tree .expr)
    (he : ∀ k i, a.Holds k (e.branchNodes k exit i q) →
      List.Forall₂ a.ForkOf (select Node.isFork k (e.branchNodes k exit i q))
        (e.contents.filter isChoice))
    (h : a.Holds k (e.nodes k exit i q)) :
    List.Forall₂ a.ForkOf (select Node.isFork k (e.nodes k exit i q))
      ((e :: e.contents).filter isChoice) := by
  have hbranches := he _ _ ((eachFrom_nodes ..).mp h).2
  have hlevels : (e :: e.contents).filter isChoice =
      (if e.isChoice then [e] else []) ++ e.contents.filter isChoice := by
    cases hc : e.isChoice <;> simp [hc]
  rw [nodes, select_append, length_forkNodes, hlevels]
  exact List.rel_append (e.forkOf_forkNodes h) hbranches

theorem forkOf_branchNodes (t : Tree l) (h : a.Holds k (t.branchNodes k exit i q)) :
    List.Forall₂ a.ForkOf (select Node.isFork k (t.branchNodes k exit i q))
      (t.contents.filter isChoice) := by
  induction t generalizing k exit i q with
  | value t v hv =>
    simp [branchNodes, contents, select_cons, Node.isFork, Node.ofToken, hv]
  | group opening closing ho hc body ih =>
    have hbody := body.forkOf_nodes_of (fun _ _ h => ih h) ((eachFrom_group ..).mp h).2.1
    have hopener : (opener opening k body.size i q).isFork = false := by
      simp [opener, Node.isFork, Node.ofToken, ho]
    have hcloser (sources : List Nat) : (closer closing sources exit q).isFork = false := rfl
    rw [branchNodes_group, contents]
    simpa [select_cons, select_append, hopener, hcloser] using hbody
  | quantified b t q' hq hl ih =>
    have hskip (next : List (Option Nat)) :
        ({ Node.ofToken t with next := next } : Node).isFork = false := by
      simp [Node.isFork, Node.ofToken, hq]
    cases q' with
    | plus =>
      simpa [branchNodes, contents, select_append, select_cons, hskip] using
        ih (holds_append.mp h).1
    | _ => simpa [branchNodes, contents, select_cons, hskip] using ih h.2
  | concat f g hl ihf ihg =>
    rw [branchNodes, holds_append, length_branchNodes] at h
    rw [branchNodes, select_append, length_branchNodes, contents, List.filter_append]
    exact List.rel_append (ihf h.1) (ihg h.2)
  | alternation e t ht g ihe ihg =>
    rw [branchNodes, holds_append, length_branchNodes] at h
    rw [branchNodes, select_append, length_branchNodes, contents, List.filter_append]
    exact List.rel_append (ihe h.1) (ihg h.2)

end Tree

namespace Expression

/-- The whole regex, if there is something in it, and the contents of its groups. -/
def levels : Expression → List (Tree .expr)
  | none => []
  | some e => e :: e.contents

/-- The levels in which there is an alternation outside of groups. -/
def choices (A : Expression) : List (Tree .expr) := A.levels.filter fun e => bars 0 e.tokens ≠ []

theorem choices_eq (A : Expression) : A.choices = A.levels.filter Tree.isChoice := by
  refine List.filter_congr fun e _ => ?_
  rw [e.bars_tokens]
  cases he : e.isChoice with
  | false => simpa using e.separators_eq_nil.mpr he
  | true => simpa [he] using e.separators_eq_nil

/-- The forks of an automaton are those of its choices, one for each. -/
theorem forkOf_choices (A : Expression) :
    List.Forall₂ A.automaton.ForkOf A.automaton.forks A.choices := by
  rw [choices_eq]
  cases A with
  | none => exact .nil
  | some e =>
    have htree := ((eachFrom_some _ e).mp (holds_nodes (some e))).2.1
    have hforks := e.forkOf_nodes_of (fun _ _ h => e.forkOf_branchNodes h) htree
    simpa [Automaton.forks, automaton, nodes, levels, select_cons, select_append,
      Node.isFork] using hforks

end Expression

/--
Every source is compiled to an automaton whose forks stand for the levels of the syntax tree with
alternations, one for each: however many alternations a level has, they share a fork.
-/
theorem compile_forks_levels (source : List Char) :
    ∃ c a, compile source = .ok c ∧ (Analysis.ofSource source).validate = some a ∧
      c.analysis.valid = a.valid ∧ (∃ A : Expression, A.tokens = a.valid) ∧
      ∀ A : Expression, A.tokens = a.valid →
        List.Forall₂ c.automaton.ForkOf c.automaton.forks A.choices := by
  obtain ⟨c, a, A, hc, ha, hvalid, h⟩ := exists_compile_validated source
  refine ⟨c, a, hc, ha, hvalid, ⟨A, h.tokens.trans hvalid⟩, fun B hB => ?_⟩
  rw [(h.of_tokens (hB.trans hvalid.symm)).automaton]
  exact B.forkOf_choices

end RegexDiagram
