import RegexDiagram.Proofs.Descent
import RegexDiagram.Proofs.Extents
import RegexDiagram.Proofs.Nesting
import RegexDiagram.Proofs.Shapes

/-!
Quantifiers in the drawing. A quantifier has no node of its own there: it is shown at the value that
it stands behind, or at both parentheses of the group. In the row of valid tokens nothing stands
behind two things, so every node shows at most one quantifier, and every quantifier is shown.
-/
namespace RegexDiagram

open List (Forall₂)

/-- What a quantifier can stand behind: a value, or a group with its parentheses. -/
inductive Atom (ps : List Piece) : Nat → Nat → Prop
  | value {i : Nat} {v : Value} (h : ps[i]? = some (.value v)) : Atom ps i i
  | group {i j : Nat} (h : Matched ps i j) : Atom ps i j

/-- The quantifier directly behind what starts or ends at `m`. -/
def Applied (ps : List Piece) (m : Nat) (q : Quantifier) : Prop :=
  ∃ i j, Atom ps i j ∧ (m = i ∨ m = j) ∧ ps[j + 1]? = some (.quantifier q)

section Atoms

variable {ps : List Piece} {i j i' j' m : Nat} {q : Quantifier}

theorem Atom.unique (h : Atom ps i j) (h' : Atom ps i' j') (hm : m = i ∨ m = j)
    (hm' : m = i' ∨ m = j') : i = i' ∧ j = j' := by
  have hgroup {v : Value} {i j : Nat} (h : Matched ps i j) (hm : m = i ∨ m = j) :
      ps[m]? ≠ some (.value v) := by
    rcases hm with rfl | rfl
    · simp [h.opening]
    · simp [h.closing]
  have hsides {i j i' j' : Nat} (h : Matched ps i j) (h' : Matched ps i' j') : i ≠ j' := by
    rintro rfl
    have hpiece := h.opening.symm.trans h'.closing
    simp at hpiece
  cases h with
  | value h =>
    obtain rfl : m = i := by omega
    cases h' with
    | value _ => omega
    | group h' => exact absurd h (hgroup h' hm')
  | group h =>
    cases h' with
    | value h' =>
      obtain rfl : m = i' := by omega
      exact absurd h' (hgroup h hm)
    | group h' =>
      rcases hm with rfl | rfl
      · rcases hm' with rfl | rfl
        · exact ⟨rfl, h.right_unique h'⟩
        · exact absurd rfl (hsides h h')
      · rcases hm' with rfl | rfl
        · exact absurd rfl (hsides h' h)
        · exact ⟨h.left_unique h', rfl⟩

theorem applied_iff (h : Atom ps i j) (hm : m = i ∨ m = j) :
    Applied ps m q ↔ ps[j + 1]? = some (.quantifier q) := by
  constructor
  · intro happlied
    obtain ⟨i', j', h', hm', hq⟩ := happlied
    rwa [(h.unique h' hm hm').2]
  · intro hq
    exact ⟨i, j, h, hm, hq⟩

end Atoms

/-- A piece at an end of what a quantifier can stand behind. -/
def Piece.endsAtom : Piece → Bool
  | value _ => true
  | groupOpen => true
  | groupClose => true
  | _ => false

theorem Atom.exists_endsAtom {ps : List Piece} {i j m : Nat} (h : Atom ps i j)
    (hm : m = i ∨ m = j) : ∃ p, ps[m]? = some p ∧ p.endsAtom = true := by
  cases h with
  | value h =>
    obtain rfl : m = i := by omega
    exact ⟨_, h, rfl⟩
  | group h =>
    rcases hm with rfl | rfl
    · exact ⟨_, h.opening, rfl⟩
    · exact ⟨_, h.closing, rfl⟩

def Node.endsAtom (n : Node) : Bool :=
  match n.kind with
  | .piece p => p.endsAtom
  | _ => false

/-- The values and parentheses of a row with their places, the first token at `k`. -/
def ends (k : Nat) (ts : List Token) : List (Token × Nat) :=
  (ts.zipIdx k).filter (·.1.piece.endsAtom)

theorem ends_append (k : Nat) (xs ys : List Token) :
    ends k (xs ++ ys) = ends k xs ++ ends (k + xs.length) ys := by
  simp only [ends, List.zipIdx_append, List.filter_append]

theorem ends_cons (k : Nat) (t : Token) (ts : List Token) :
    ends k (t :: ts) = (if t.piece.endsAtom then [(t, k)] else []) ++ ends (k + 1) ts := by
  cases h : t.piece.endsAtom <;> simp [ends, h]

/-- A node that stands for the token at a place, and shows the quantifier that applies there. -/
structure Tagged (a : Automaton) (ts : List Token) (x : Node × Nat) (y : Token × Nat) : Prop where
  token : x.1.StandsFor y.1
  tag : ∀ q, x.1.quantifier = some q ↔ Applied (ts.map Token.piece) y.2 q
  opening : y.1.piece = .groupOpen → x.1.fork = none ∧ x.1.sources.length = 1 ∧
    ∃ j u k, Matched (ts.map Token.piece) y.2 j ∧ ts[j]? = some u ∧ x.1.close = some k ∧
      a.StandsAt k u

namespace Tree

open Automaton

variable {l : Precedence} {a : Automaton} {ts pre post : List Token} {k : Nat} {exit : List Nat}
  {i : Inlet} {q : Option Quantifier}

/-- A tree stands in a row, in front of the quantifier `q` if there is one. -/
structure StandsIn (t : Tree l) (ts pre post : List Token) (q : Option Quantifier) : Prop where
  row : ts = pre ++ (t.tokens ++ post)
  behind : ∀ r, (post.map Token.piece).head? = some (.quantifier r) ↔ q = some r
  loose : l ≠ .atom → q = none

theorem length_drawnExits (t : Tree l) (k : Nat) : (t.drawnExits k).length = t.branchCount := by
  induction t generalizing k with
  | quantified a t q hq hl ih =>
    rw [drawnExits]
    split
    · exact (ih k).trans (a.branchCount_of_not_isChoice (a.isChoice_of_ne (by simp)))
    · exact (ih (k + 1)).trans (a.branchCount_of_not_isChoice (a.isChoice_of_ne (by simp)))
  | concat f g hl _ ihg =>
    exact (ihg _).trans (g.branchCount_of_not_isChoice (g.isChoice_of_ne (by simp)))
  | alternation e t ht g ihe ihg =>
    rw [drawnExits, List.length_append, ihe, ihg,
      g.branchCount_of_not_isChoice (g.isChoice_of_ne (by simp))]
    rfl
  | _ => rfl

theorem length_branchInlet (e : Tree l) (hi : i.sources.length = 1) :
    (e.branchInlet k i).sources.length = 1 := by
  rw [branchInlet]
  split
  · rfl
  · exact hi

theorem select_endsAtom_nodes (e : Tree l) (k : Nat) (exit : List Nat) (i : Inlet)
    (q : Option Quantifier) :
    select Node.endsAtom k (e.nodes k exit i q) =
      select Node.endsAtom (k + e.forkSize)
        (e.branchNodes (k + e.forkSize) exit (e.branchInlet k i) q) := by
  have hfork : select Node.endsAtom k (e.forkNodes k i) = [] := by
    cases e with
    | alternation e t ht g =>
      simp [forkNodes, select_cons, Node.endsAtom, Node.ofToken, ht, Piece.endsAtom]
    | _ => rfl
  rw [nodes, select_append, hfork, length_forkNodes, List.nil_append]

namespace StandsIn

theorem body {opening closing : Token} {ho : opening.piece = .groupOpen}
    {hc : closing.piece = .groupClose} {body : Tree .expr}
    (h : (group opening closing ho hc body : Tree l).StandsIn ts pre post q) :
    body.StandsIn ts (pre ++ [opening]) (closing :: post) none where
  row := by rw [h.row, tokens]; simp
  behind r := by simp [hc]
  loose _ := rfl

theorem atom {b : Tree .atom} {t : Token} {q' : Quantifier} {hq : t.piece = .quantifier q'}
    {hl : l ≠ .atom} (h : (quantified b t q' hq hl).StandsIn ts pre post q) :
    b.StandsIn ts pre (t :: post) (some q') where
  row := by rw [h.row, tokens]; simp
  behind r := by simp [hq]
  loose hne := absurd rfl hne

theorem left {f : Tree .term} {g : Tree .factor} {hl : l = .term ∨ l = .expr}
    (h : (concat f g hl).StandsIn ts pre post q) : f.StandsIn ts pre (g.tokens ++ post) none where
  row := by rw [h.row, tokens, List.append_assoc]
  behind r := by
    obtain ⟨s, rest, hs, hstart⟩ := g.exists_first_token
    rw [hs]
    cases hp : s.piece <;> simp [Token.startsFactor, hp] at hstart ⊢
  loose _ := rfl

theorem right {f : Tree .term} {g : Tree .factor} {hl : l = .term ∨ l = .expr}
    (h : (concat f g hl).StandsIn ts pre post q) :
    g.StandsIn ts (pre ++ f.tokens) post none where
  row := by rw [h.row, tokens]; simp
  behind r := by
    have hloose := h.loose (by rcases hl with rfl | rfl <;> simp)
    rw [h.behind r, hloose]
  loose _ := rfl

theorem first {e : Tree .expr} {t : Token} {ht : t.piece = .alternation} {g : Tree .term}
    (h : (alternation e t ht g).StandsIn ts pre post q) :
    e.StandsIn ts pre (t :: (g.tokens ++ post)) none where
  row := by rw [h.row, tokens]; simp
  behind r := by simp [ht]
  loose _ := rfl

theorem last {e : Tree .expr} {t : Token} {ht : t.piece = .alternation} {g : Tree .term}
    (h : (alternation e t ht g).StandsIn ts pre post q) :
    g.StandsIn ts (pre ++ (e.tokens ++ [t])) post none where
  row := by rw [h.row, tokens]; simp
  behind r := by rw [h.behind r, h.loose (by simp)]
  loose _ := rfl

theorem pieces_eq {t : Tree l} (h : t.StandsIn ts pre post q) :
    ts.map Token.piece = pre.map Token.piece ++ t.tokens.map Token.piece ++ post.map Token.piece := by
  rw [h.row, List.map_append, List.map_append, List.append_assoc]

theorem atom_value {v : Value} {t : Token} {hv : t.piece = .value v}
    (h : (value t v hv : Tree l).StandsIn ts pre post q) :
    Atom (ts.map Token.piece) pre.length pre.length := by
  have hpiece : (ts.map Token.piece)[pre.length]? = some (.value v) := by
    rw [h.pieces_eq]
    simp [tokens, hv]
  exact .value hpiece

theorem matched_group {opening closing : Token} {ho : opening.piece = .groupOpen}
    {hc : closing.piece = .groupClose} {body : Tree .expr}
    (h : (group opening closing ho hc body : Tree l).StandsIn ts pre post q) :
    Matched (ts.map Token.piece) pre.length (pre.length + 1 + body.tokens.length) := by
  have hmiddle := body.balanced.matched.middle (pre.map Token.piece) (post.map Token.piece)
  rw [h.pieces_eq]
  simpa [tokens, ho, hc, Nat.add_assoc, Nat.add_comm 1] using hmiddle

theorem applied {t : Tree l} (h : t.StandsIn ts pre post q) {i j m : Nat}
    (hatom : Atom (ts.map Token.piece) i j) (hend : j + 1 = pre.length + t.tokens.length)
    (hm : m = i ∨ m = j) (r : Quantifier) : q = some r ↔ Applied (ts.map Token.piece) m r := by
  rw [applied_iff hatom hm, hend, h.pieces_eq, ← h.behind, List.getElem?_append_right (by simp),
    List.head?_eq_getElem?]
  simp

theorem exists_atom {b : Tree .atom} (h : b.StandsIn ts pre post q) :
    ∃ i j, Atom (ts.map Token.piece) i j ∧ j + 1 = pre.length + b.tokens.length := by
  cases b with
  | value t v hv => exact ⟨_, _, h.atom_value, by simp [tokens]⟩
  | group opening closing ho hc body =>
    refine ⟨_, _, .group h.matched_group, ?_⟩
    simp only [tokens, List.length_cons, List.length_append, List.length_nil]
    omega
  | quantified b t q' hq hl => exact absurd rfl hl
  | concat f g hl => simp at hl

end StandsIn

theorem exists_atom_behind (t : Tree l) (h : t.StandsIn ts pre post q) {m : Nat} {r : Quantifier}
    (hm : (t.tokens.map Token.piece)[m]? = some (.quantifier r)) :
    ∃ i j, Atom (ts.map Token.piece) i j ∧ pre.length + m = j + 1 := by
  induction t generalizing pre post q m with
  | value t v hv =>
    have hmem := List.mem_of_getElem? hm
    simp [tokens, hv] at hmem
  | group opening closing ho hc body ih =>
    rw [tokens, List.map_cons, List.map_append] at hm
    cases m with
    | zero => simp [ho] at hm
    | succ m =>
      rw [List.getElem?_cons_succ, List.getElem?_append] at hm
      split at hm
      · obtain ⟨i, j, hatom, hend⟩ := ih h.body hm
        rw [List.length_append, List.length_singleton] at hend
        exact ⟨i, j, hatom, by omega⟩
      · have hmem := List.mem_of_getElem? hm
        simp [hc] at hmem
  | quantified b t q' hq hl ih =>
    rw [tokens, List.map_append, List.getElem?_append] at hm
    split at hm
    · exact ih h.atom hm
    · obtain ⟨i, j, hatom, hend⟩ := h.atom.exists_atom
      have hlast := (List.getElem?_eq_some_iff.mp hm).1
      simp only [List.map_cons, List.map_nil, List.length_singleton, List.length_map] at hlast
      rename_i hge
      rw [List.length_map] at hge
      exact ⟨i, j, hatom, by omega⟩
  | concat f g hl ihf ihg =>
    rw [tokens, List.map_append, List.getElem?_append] at hm
    split at hm
    · exact ihf h.left hm
    · obtain ⟨i, j, hatom, hend⟩ := ihg h.right hm
      rename_i hge
      rw [List.length_map] at hge hend
      rw [List.length_append] at hend
      exact ⟨i, j, hatom, by omega⟩
  | alternation e t htok g ihe ihg =>
    rw [tokens, List.map_append, List.getElem?_append] at hm
    split at hm
    · exact ihe h.first hm
    · rename_i hge
      rw [List.length_map] at hge hm
      rw [List.map_cons, htok] at hm
      cases hd : m - e.tokens.length with
      | zero => simp [hd] at hm
      | succ d =>
        rw [hd, List.getElem?_cons_succ] at hm
        obtain ⟨i, j, hatom, hend⟩ := ihg h.last hm
        rw [List.length_append, List.length_append, List.length_singleton] at hend
        exact ⟨i, j, hatom, by omega⟩

theorem tagged_value {v : Value} {t : Token} (hv : t.piece = .value v)
    (ht : (value t v hv : Tree l).StandsIn ts pre post q) (next : List (Option Nat)) :
    Tagged a ts
      ({ Node.ofToken t with
          next := next, quantifier := q, sources := i.sources, branch := i.branch }, k)
      (t, pre.length) where
  token := ⟨rfl, rfl, rfl⟩
  tag := ht.applied ht.atom_value (by simp [tokens]) (.inl rfl)
  opening ho := by simp [hv] at ho

/-- Both parentheses of a group show the quantifier behind it. -/
theorem tagged_group {opening closing : Token} {ho : opening.piece = .groupOpen}
    {hc : closing.piece = .groupClose} {body : Tree .expr}
    (h : a.Holds k ((group opening closing ho hc body : Tree l).branchNodes k exit i q))
    (hi : i.sources.length = 1)
    (ht : (group opening closing ho hc body : Tree l).StandsIn ts pre post q) :
    Tagged a ts (opener opening k body.size i q, k) (opening, pre.length) ∧
      Tagged a ts (closer closing (body.drawnExits (k + 1 + body.forkSize)) exit q,
        k + 1 + body.size) (closing, pre.length + 1 + body.tokens.length) := by
  obtain ⟨-, -, hclose⟩ := (eachFrom_group ..).mp h
  have hend : pre.length + 1 + body.tokens.length + 1 =
      pre.length + (group opening closing ho hc body : Tree l).tokens.length := by
    simp only [tokens, List.length_cons, List.length_append, List.length_nil]
    omega
  have hclosing : ts[pre.length + 1 + body.tokens.length]? = some closing := by
    have hrow : ts = (pre ++ opening :: body.tokens) ++ closing :: post := by
      rw [ht.row, tokens]
      simp
    have hlength : (pre ++ opening :: body.tokens).length = pre.length + 1 + body.tokens.length := by
      rw [List.length_append, List.length_cons]
      omega
    rw [hrow, ← hlength, List.getElem?_append_right (Nat.le_refl _), Nat.sub_self]
    rfl
  constructor
  · exact
      { token := ⟨rfl, rfl, rfl⟩
        tag := ht.applied (.group ht.matched_group) hend (.inl rfl)
        opening := fun _ => ⟨rfl, hi, _, closing, _, ht.matched_group, hclosing, rfl, _, hclose,
          by rw [hc]; rfl, rfl, rfl⟩ }
  · exact
      { token := ⟨by rw [hc]; rfl, rfl, rfl⟩
        tag := ht.applied (.group ht.matched_group) hend (.inr rfl)
        opening := fun ho => by simp [hc] at ho }

theorem tagged_branchNodes (t : Tree l) (h : a.Holds k (t.branchNodes k exit i q))
    (hi : i.sources.length = 1) (ht : t.StandsIn ts pre post q) :
    Forall₂ (Tagged a ts) (select Node.endsAtom k (t.branchNodes k exit i q))
      (ends pre.length t.tokens) := by
  induction t generalizing k exit i q pre post with
  | value t v hv =>
    rw [branchNodes, select_cons, if_pos (by simp [Node.endsAtom, Node.ofToken, hv, Piece.endsAtom]),
      tokens, ends_cons, if_pos (by simp [hv, Piece.endsAtom])]
    exact .cons (tagged_value hv ht _) .nil
  | group opening closing ho hc body ih =>
    obtain ⟨hopening, hclosing⟩ := tagged_group h hi ht
    have hbody := ih ((eachFrom_nodes ..).mp ((eachFrom_group ..).mp h).2.1).2
      (body.length_branchInlet rfl) ht.body
    have hopen : (opener opening k body.size i q).endsAtom = true := by
      simp [opener, Node.endsAtom, Node.ofToken, ho, Piece.endsAtom]
    have hclose : (closer closing (body.drawnExits (k + 1 + body.forkSize)) exit q).endsAtom = true :=
      rfl
    rw [branchNodes_group, select_cons, if_pos hopen, select_append, select_endsAtom_nodes,
      length_nodes, select_cons, if_pos hclose, tokens, ends_cons, if_pos (by rw [ho]; rfl),
      ends_append, ends_cons, if_pos (by rw [hc]; rfl)]
    rw [List.length_append, List.length_singleton] at hbody
    exact .cons hopening (List.rel_append hbody (.cons hclosing .nil))
  | quantified b t q' hq hl ih =>
    have hskip (next : List (Option Nat)) :
        ({ Node.ofToken t with next := next } : Node).endsAtom = false := by
      simp [Node.endsAtom, Node.ofToken, hq, Piece.endsAtom]
    have hend : (Piece.quantifier q').endsAtom = false := rfl
    have hrow (k : Nat) : ends k (b.tokens ++ [t]) = ends k b.tokens := by
      rw [ends_append, ends_cons, hq]
      simp [Piece.endsAtom, ends]
    rw [tokens, hrow]
    cases q' with
    | plus =>
      rw [branchNodes, select_append, select_cons, hskip]
      simpa using ih (holds_append.mp h).1 hi ht.atom
    | _ =>
      rw [branchNodes, select_cons, hskip]
      exact ih h.2 hi ht.atom
  | concat f g hl ihf ihg =>
    rw [branchNodes, holds_append, length_branchNodes] at h
    have hinlet : (⟨f.drawnExits k, none⟩ : Inlet).sources.length = 1 :=
      (f.length_drawnExits k).trans (f.branchCount_of_not_isChoice (f.isChoice_of_ne (by simp)))
    have hright := ihg h.2 hinlet ht.right
    rw [branchNodes, select_append, length_branchNodes, tokens, ends_append]
    rw [List.length_append] at hright
    exact List.rel_append (ihf h.1 hi ht.left) hright
  | alternation e t htok g ihe ihg =>
    rw [branchNodes, holds_append, length_branchNodes] at h
    have hlast := ihg h.2 hi ht.last
    have hbar : t.piece.endsAtom = false := by rw [htok]; rfl
    rw [branchNodes, select_append, length_branchNodes, tokens, ends_append, ends_cons, hbar]
    rw [List.length_append, List.length_append, List.length_singleton, ← Nat.add_assoc] at hlast
    exact List.rel_append (ihe h.1 hi ht.first) hlast

theorem quantifier_branchNodes (t : Tree l) (k : Nat) (exit : List Nat) (i : Inlet)
    (q : Option Quantifier) :
    ∀ n ∈ t.branchNodes k exit i q, n.endsAtom = false → n.quantifier = none := by
  induction t generalizing k exit i q with
  | value t v hv =>
    simp [branchNodes, Node.endsAtom, Node.ofToken, hv, Piece.endsAtom]
  | group opening closing ho hc body ih =>
    have hopen : (opener opening k body.size i q).endsAtom = true := by
      simp [opener, Node.endsAtom, Node.ofToken, ho, Piece.endsAtom]
    have hfork : ∀ n ∈ body.forkNodes (k + 1) ⟨[k], none⟩, n.quantifier = none := by
      cases body <;> simp [forkNodes, Node.ofToken]
    intro n hn hends
    simp only [branchNodes, List.cons_append, List.mem_cons, List.mem_append,
      List.not_mem_nil, or_false] at hn
    rcases hn with rfl | (hn | hn) | rfl
    · simp [hopen] at hends
    · exact hfork n hn
    · exact ih _ _ _ _ n hn hends
    · simp [closer, Node.endsAtom, Piece.endsAtom] at hends
  | quantified b t q' hq hl ih =>
    intro n hn hends
    cases q' with
    | plus =>
      rcases List.mem_append.mp hn with hn | hn
      · exact ih _ _ _ _ n hn hends
      · obtain rfl := List.mem_singleton.mp hn
        rfl
    | _ =>
      rcases List.mem_cons.mp hn with rfl | hn
      · rfl
      · exact ih _ _ _ _ n hn hends
  | concat f g hl ihf ihg =>
    simp only [branchNodes, List.forall_mem_append]
    exact ⟨ihf _ _ _ _, ihg _ _ _ _⟩
  | alternation e t ht g ihe ihg =>
    simp only [branchNodes, List.forall_mem_append]
    exact ⟨ihe _ _ _ _, ihg _ _ _ _⟩

end Tree

theorem Node.StandsFor.eq_of_standsFor {n : Node} {t u : Token} (h : n.StandsFor t)
    (h' : n.StandsFor u) : (t.piece, t.index) = (u.piece, u.index) := by
  have hkind := h.kind.symm.trans h'.kind
  have hindex := h.index.symm.trans h'.index
  simp only [Node.Kind.piece.injEq, Option.some_inj] at hkind hindex
  rw [hkind, hindex]

theorem mem_ends {ts : List Token} {t : Token} {m : Nat} :
    (t, m) ∈ ends 0 ts ↔ ts[m]? = some t ∧ t.piece.endsAtom = true := by
  simp [ends, List.mem_zipIdx_iff_getElem?]

theorem nodup_ends (k : Nat) (ts : List Token) : (ends k ts).Nodup := by
  apply List.Nodup.of_map Prod.snd
  apply List.Sublist.nodup (List.filter_sublist.map _)
  rw [List.zipIdx_map_snd]
  exact List.nodup_range'

namespace Expression

open Automaton

variable {A : Expression} {n : Node} {i m : Nat} {t : Token}

theorem standsIn (e : Tree .expr) : e.StandsIn e.tokens [] [] none where
  row := by simp
  behind r := by simp
  loose _ := rfl

/-- The values and parentheses of a regex have their nodes, one after the other. -/
theorem tagged_nodes (A : Expression) :
    Forall₂ (Tagged A.automaton A.tokens) (select Node.endsAtom 0 A.nodes) (ends 0 A.tokens) := by
  have h := A.holds_nodes
  cases A with
  | none => exact .nil
  | some e =>
    have htree := ((eachFrom_nodes ..).mp ((eachFrom_some _ e).mp h).2.1).2
    have hnodes := e.tagged_branchNodes htree (e.length_branchInlet rfl) (standsIn e)
    have hselect : select Node.endsAtom 0 (nodes (some e)) =
        select Node.endsAtom 1 (e.nodes 1 [1 + e.size] ⟨[0], none⟩ none) := by
      simp [nodes, select_cons, select_append, Node.endsAtom]
    rw [hselect, e.select_endsAtom_nodes]
    exact hnodes

theorem quantifier_of_not_endsAtom (hn : A.automaton.nodes[i]? = some n)
    (hends : n.endsAtom = false) : n.quantifier = none := by
  have hmem : n ∈ A.nodes := List.mem_of_getElem? (by simpa [automaton] using hn)
  cases A with
  | none =>
    rcases List.mem_cons.mp hmem with rfl | hmem
    · rfl
    · obtain rfl := List.mem_singleton.mp hmem
      rfl
  | some e =>
    simp only [nodes, Tree.nodes, List.cons_append, List.mem_cons, List.mem_append,
      List.not_mem_nil, or_false] at hmem
    rcases hmem with rfl | (hmem | hmem) | rfl
    · rfl
    · cases e with
      | alternation e t ht g =>
        obtain rfl := List.mem_singleton.mp hmem
        rfl
      | _ => simp [Tree.forkNodes] at hmem
    · exact e.quantifier_branchNodes _ _ _ _ n hmem hends
    · rfl

theorem mem_select_endsAtom : (n, i) ∈ select Node.endsAtom 0 A.nodes ↔
    A.automaton.nodes[i]? = some n ∧ n.endsAtom = true := by
  simp [select, automaton, List.mem_zipIdx_iff_getElem?]

theorem exists_token (hn : A.automaton.nodes[i]? = some n) (hends : n.endsAtom = true) :
    ∃ t m, A.tokens[m]? = some t ∧ Tagged A.automaton A.tokens (n, i) (t, m) := by
  obtain ⟨k, hk⟩ := List.mem_iff_getElem?.mp (mem_select_endsAtom.mpr ⟨hn, hends⟩)
  obtain ⟨⟨t, m⟩, ht, htagged⟩ := exists_getElem?_right A.tagged_nodes hk
  exact ⟨t, m, (mem_ends.mp (List.mem_of_getElem? ht)).1, htagged⟩

theorem exists_node_of_token (ht : A.tokens[m]? = some t) (hends : t.piece.endsAtom = true) :
    ∃ n i, A.automaton.nodes[i]? = some n ∧ Tagged A.automaton A.tokens (n, i) (t, m) := by
  obtain ⟨k, hk⟩ := List.mem_iff_getElem?.mp (mem_ends.mpr ⟨ht, hends⟩)
  obtain ⟨⟨n, i⟩, hn, htagged⟩ := exists_getElem?_left A.tagged_nodes hk
  exact ⟨n, i, (mem_select_endsAtom.mp (List.mem_of_getElem? hn)).1, htagged⟩

theorem node_unique (hdistinct : (A.tokens.map fun t => (t.piece, t.index)).Nodup) {j : Nat}
    (ht : A.tokens[m]? = some t) (hends : t.piece.endsAtom = true) (hi : A.automaton.StandsAt i t)
    (hj : A.automaton.StandsAt j t) : i = j := by
  have hplace {i : Nat} (hi : A.automaton.StandsAt i t) :
      ∃ (k : Nat) (n : Node), (select Node.endsAtom 0 A.nodes)[k]? = some (n, i) ∧
        (ends 0 A.tokens)[k]? = some (t, m) := by
    obtain ⟨n, hn, hstands⟩ := hi
    have hnode : n.endsAtom = true := by rw [Node.endsAtom, hstands.kind]; exact hends
    obtain ⟨k, hk⟩ := List.mem_iff_getElem?.mp (mem_select_endsAtom.mpr ⟨hn, hnode⟩)
    obtain ⟨⟨u, m'⟩, hu, htagged⟩ := exists_getElem?_right A.tagged_nodes hk
    have hrow := (mem_ends.mp (List.mem_of_getElem? hu)).1
    have hkey := hstands.eq_of_standsFor htagged.token
    obtain rfl := place_unique hdistinct ht hrow hkey
    obtain rfl := Option.some.inj (ht.symm.trans hrow)
    exact ⟨k, n, hk, hu⟩
  obtain ⟨k, n, hk, hm⟩ := hplace hi
  obtain ⟨k', n', hk', hm'⟩ := hplace hj
  obtain rfl := (List.getElem?_inj (List.getElem?_eq_some_iff.mp hm).1 (nodup_ends 0 _)).mp
    (hm.trans hm'.symm)
  exact congrArg Prod.snd (Option.some.inj (hk.symm.trans hk'))

end Expression

namespace Analysis

variable {source : List Char} {a : Analysis}

theorem opening_unique {o u o' u' : Token} (h : Pair (ofSource source).tokens o u)
    (h' : Pair (ofSource source).tokens o' u') (hindex : u.index = u'.index) :
    o.index = o'.index := by
  have hspans := Token.Spans.of_pair h
  have hspans' := Token.Spans.of_pair h'
  have hextent := (hspans.nests hspans').eq_of_ends hspans.first_le_last hspans'.first_le_last
    (.inr rfl) (.inr hindex)
  exact congrArg Extent.first hextent

theorem index_lt_of_lt (ha : (ofSource source).validate = some a) {i j : Nat} {t u : Token}
    (ht : a.valid[i]? = some t) (hu : a.valid[j]? = some u) (hlt : i < j)
    (hadded : u.added = false) : t.index < u.index := by
  have hwithin := (lastLexeme_within ha (mem_valid.mp (List.mem_of_getElem? ht)).1).1
  have hprecedes : t.lastLexeme < u.index := (precedes_of_lt ha ht hu hlt hadded).2
  omega

theorem opening_place_unique (ha : (ofSource source).validate = some a) {i j : Nat} {o o' : Token}
    (ho : a.valid[i]? = some o) (ho' : a.valid[j]? = some o') (hp : o.piece = .groupOpen)
    (hp' : o'.piece = .groupOpen) (hindex : o.index = o'.index) : i = j := by
  have hadded {i : Nat} {o : Token} (ho : a.valid[i]? = some o) (hp : o.piece = .groupOpen) :
      o.added = false := by
    by_contra hadded
    have hclose := piece_of_added ha (List.mem_of_getElem? ho) (by simpa using hadded)
    simp [hp] at hclose
  rcases Nat.lt_trichotomy i j with hlt | heq | hlt
  · have := index_lt_of_lt ha ho ho' hlt (hadded ho' hp')
    omega
  · exact heq
  · have := index_lt_of_lt ha ho' ho hlt (hadded ho hp)
    omega

/-- No two of the valid tokens look the same: a parenthesis that is added stands where its group
opens, and no other closing parenthesis stands there. -/
theorem nodup_valid (ha : (ofSource source).validate = some a) :
    (a.valid.map fun t => (t.piece, t.index)).Nodup := by
  have hgroup {j : Nat} {u : Token} (hu : a.valid[j]? = some u) (hp : u.piece = .groupClose) :=
    (pairs_valid ha).exists_matched (List.drop_zero (l := a.valid)) (.zero _) .nil
      (fun t ht => (mem_valid.mp ht).2) (Nat.zero_le j) hu hp
  rw [List.nodup_iff_getElem?_ne_getElem?]
  intro i j hlt hj heq
  rw [List.length_map] at hj
  have hu := List.getElem?_eq_getElem hj
  have ht := List.getElem?_eq_getElem (Nat.lt_trans hlt hj)
  rw [List.getElem?_map, List.getElem?_map, ht, hu, Option.map_some, Option.map_some,
    Option.some_inj, Prod.mk.injEq] at heq
  obtain ⟨hpiece, hindex⟩ := heq
  by_cases hadded : a.valid[j].added = true
  · have hclose := piece_of_added ha (List.getElem_mem hj) hadded
    obtain ⟨x, o, hmatched, ho, hpair⟩ := hgroup ht (hpiece.trans hclose)
    obtain ⟨x', o', hmatched', ho', hpair'⟩ := hgroup hu hclose
    obtain rfl := opening_place_unique ha ho ho' hpair.mem_opening.2 hpair'.mem_opening.2
      (opening_unique hpair hpair' hindex)
    have hends := hmatched.right_unique hmatched'
    omega
  · have := index_lt_of_lt ha ht hu hlt (by simpa using hadded)
    omega

end Analysis

namespace Compiled

variable {c : Compiled} {A : Expression} {n m : Nat}

/-- The pieces of the valid tokens. -/
def pieces (c : Compiled) : List Piece := c.analysis.valid.map Token.piece

/-- The node `n` of the automaton stands for the valid token at `m`. -/
def Shows (c : Compiled) (n m : Nat) : Prop :=
  ∃ t, c.analysis.valid[m]? = some t ∧ c.automaton.StandsAt n t

/-- The node stands for an end of what goes from `i` to `j`. -/
def ShowsEnd (c : Compiled) (n i j : Nat) : Prop := c.Shows n i ∨ c.Shows n j

theorem ShowsEnd.exists_end {i j : Nat} (h : c.ShowsEnd n i j) :
    ∃ m, (m = i ∨ m = j) ∧ c.Shows n m := by
  rcases h with hi | hj
  · exact ⟨i, .inl rfl, hi⟩
  · exact ⟨j, .inr rfl, hj⟩

/-- The drawing shows each quantifier at what it stands behind. -/
structure ShowsQuantifiers (c : Compiled) : Prop where
  tag : ∀ n g, c.Displays n g → ∀ q, g.quantifier = some q ↔
    ∃ i j, Atom c.pieces i j ∧ c.ShowsEnd n i j ∧
      c.pieces[j + 1]? = some (.quantifier q)
  /-- A node is an end of one thing only. -/
  single : ∀ n i j i' j', Atom c.pieces i j → Atom c.pieces i' j' → c.ShowsEnd n i j →
    c.ShowsEnd n i' j' → i = i' ∧ j = j'
  /-- Both ends of everything have their node, and it is displayed. -/
  shown : ∀ i j m, Atom c.pieces i j → m = i ∨ m = j →
    (∃! n, c.Shows n m) ∧ ∀ n, c.Shows n m → ∃ g, c.Displays n g
  behind : ∀ m q, c.pieces[m]? = some (.quantifier q) → ∃ i j, Atom c.pieces i j ∧ m = j + 1
  /-- The parentheses are those of the groups with a quantifier, in the order of their nodes. -/
  parentheses : ∃ gs : List (Nat × Nat), gs.Pairwise (fun x y => x.1 < y.1) ∧
    (∀ n k, (n, k) ∈ gs ↔ ∃ i j q, Matched c.pieces i j ∧
      c.pieces[j + 1]? = some (.quantifier q) ∧ c.Shows n i ∧ c.Shows k j) ∧
    Forall₂ (fun z x => c.LiesAt x.1 z.1 ∧ c.LiesAt x.2 z.2) c.graph.parentheses gs

/-- What tags rely on. -/
structure Tagging (c : Compiled) (A : Expression) : Prop where
  automaton : c.automaton = A.automaton
  tokens : A.tokens = c.analysis.valid
  distinct : (A.tokens.map fun t => (t.piece, t.index)).Nodup

namespace Tagging

variable (h : c.Tagging A)
include h

theorem shows_iff : c.Shows n m ↔ ∃ t, A.tokens[m]? = some t ∧ A.automaton.StandsAt n t := by
  rw [Shows, h.automaton, h.tokens]

theorem place_unique {m' : Nat} (hm : c.Shows n m) (hm' : c.Shows n m') : m = m' := by
  obtain ⟨t, ht, x, hx, hstands⟩ := h.shows_iff.mp hm
  obtain ⟨t', ht', x', hx', hstands'⟩ := h.shows_iff.mp hm'
  obtain rfl := Option.some.inj (hx.symm.trans hx')
  exact RegexDiagram.place_unique h.distinct ht ht' (hstands.eq_of_standsFor hstands')

theorem exists_end {i j : Nat} (hatom : Atom c.pieces i j) (hm : m = i ∨ m = j) :
    ∃ t, A.tokens[m]? = some t ∧ t.piece.endsAtom = true := by
  obtain ⟨p, hp, hends⟩ := hatom.exists_endsAtom hm
  rw [pieces, ← h.tokens, List.getElem?_map, Option.map_eq_some_iff] at hp
  obtain ⟨t, ht, rfl⟩ := hp
  exact ⟨t, ht, hends⟩

theorem shown {i j : Nat} (hatom : Atom c.pieces i j) (hm : m = i ∨ m = j) :
    (∃! n, c.Shows n m) ∧ ∀ n, c.Shows n m → c.automaton.DrawnAt n := by
  obtain ⟨t, ht, hends⟩ := h.exists_end hatom hm
  constructor
  · obtain ⟨n, k, hn, htagged⟩ := A.exists_node_of_token ht hends
    have hstands : A.automaton.StandsAt k t := ⟨n, hn, htagged.token⟩
    refine ⟨k, h.shows_iff.mpr ⟨t, ht, hstands⟩, ?_⟩
    intro k' hk'
    obtain ⟨t', ht', hstands'⟩ := h.shows_iff.mp hk'
    obtain rfl := Option.some.inj (ht.symm.trans ht')
    exact A.node_unique h.distinct ht hends hstands' hstands
  · intro n hn
    obtain ⟨t', ht', x, hx, hstands⟩ := h.shows_iff.mp hn
    obtain rfl := Option.some.inj (ht.symm.trans ht')
    rw [h.automaton]
    refine ⟨x, hx, ?_⟩
    rw [Node.isDrawn, hstands.kind]
    cases hp : t.piece <;> simp [hp, Piece.endsAtom] at hends ⊢

theorem tag_iff {x : Node} (hx : c.automaton.nodes[n]? = some x) (q : Quantifier) :
    x.quantifier = some q ↔ ∃ i j, Atom c.pieces i j ∧ c.ShowsEnd n i j ∧
      c.pieces[j + 1]? = some (.quantifier q) := by
  rw [h.automaton] at hx
  cases hends : x.endsAtom with
  | false =>
    rw [A.quantifier_of_not_endsAtom hx hends]
    simp only [reduceCtorEq, false_iff, not_exists, not_and]
    intro i j hatom hshows
    obtain ⟨m, hm, hshows⟩ := hshows.exists_end
    obtain ⟨t, ht, htoken⟩ := h.exists_end hatom hm
    obtain ⟨t', ht', x', hx', hstands⟩ := h.shows_iff.mp hshows
    obtain rfl := Option.some.inj (ht.symm.trans ht')
    obtain rfl := Option.some.inj (hx.symm.trans hx')
    rw [Node.endsAtom, hstands.kind] at hends
    simp [htoken] at hends
  | true =>
    obtain ⟨t, m, ht, htagged⟩ := A.exists_token hx hends
    have hshows : c.Shows n m := h.shows_iff.mpr ⟨t, ht, x, hx, htagged.token⟩
    have hplace {m' : Nat} : c.Shows n m' ↔ m = m' :=
      ⟨fun hm' => h.place_unique hshows hm', fun heq => heq ▸ hshows⟩
    rw [htagged.tag, h.tokens]
    simp only [Applied, ShowsEnd, hplace, pieces]

/-- The node of an opening parenthesis knows the node of the one that closes the group. -/
theorem exists_group {x : Node} (hx : c.automaton.nodes[n]? = some x)
    (hkind : x.kind = .piece .groupOpen) : x.fork = none ∧ x.sources.length = 1 ∧
      ∃ i j k, Matched c.pieces i j ∧ c.Shows n i ∧ c.Shows k j ∧ x.close = some k := by
  rw [h.automaton] at hx
  obtain ⟨t, i, ht, htagged⟩ := A.exists_token hx (by rw [Node.endsAtom, hkind]; rfl)
  have hpiece : t.piece = .groupOpen := by simpa using htagged.token.kind.symm.trans hkind
  obtain ⟨hfork, hsources, j, u, k, hmatched, hu, hclose, hstands⟩ := htagged.opening hpiece
  rw [h.tokens] at hmatched
  exact ⟨hfork, hsources, i, j, k, hmatched, h.shows_iff.mpr ⟨t, ht, x, hx, htagged.token⟩,
    h.shows_iff.mpr ⟨u, hu, hstands⟩, hclose⟩

/-- The parentheses of the drawing are those of the groups with a quantifier. -/
theorem quantifiedClose_iff {k : Nat} :
    (∃ x, (x, n) ∈ Graph.drawnNodes c.automaton ∧ x.quantifiedClose? = some k) ↔
      ∃ i j q, Matched c.pieces i j ∧ c.pieces[j + 1]? = some (.quantifier q) ∧ c.Shows n i ∧
        c.Shows k j := by
  constructor
  · intro hclose
    obtain ⟨x, hx, hclose⟩ := hclose
    have hn := (Graph.mem_drawnNodes.mp hx).1
    rw [Node.quantifiedClose?, Option.ite_none_right_eq_some] at hclose
    obtain ⟨⟨-, -, hkind, hquantifier⟩, hclose⟩ := hclose
    obtain ⟨-, -, i, j, k', hmatched, hi, hj, hclose'⟩ := h.exists_group hn hkind
    obtain rfl := Option.some.inj (hclose.symm.trans hclose')
    obtain ⟨q, hq⟩ := Option.isSome_iff_exists.mp hquantifier
    obtain ⟨i', j', hatom, hshows, hbehind⟩ := (h.tag_iff hn q).mp hq
    have hend : i = i' ∨ i = j' := hshows.imp (h.place_unique hi) (h.place_unique hi)
    obtain ⟨rfl, rfl⟩ := (Atom.group hmatched).unique hatom (.inl rfl) hend
    exact ⟨i, j, q, hmatched, hbehind, hi, hj⟩
  · intro hgroup
    obtain ⟨i, j, q, hmatched, hbehind, hi, hj⟩ := hgroup
    have hatom : Atom c.pieces i j := .group hmatched
    obtain ⟨t, ht, x, hx, hstands⟩ := h.shows_iff.mp hi
    have hkind : x.kind = .piece .groupOpen := by
      have hpiece := hmatched.opening
      rw [pieces, ← h.tokens, List.getElem?_map, ht, Option.map_some, Option.some_inj] at hpiece
      rw [hstands.kind, hpiece]
    rw [← h.automaton] at hx
    obtain ⟨hfork, hsources, i', j', k', hmatched', hi', hj', hclose⟩ := h.exists_group hx hkind
    obtain rfl := h.place_unique hi hi'
    obtain rfl := hmatched.right_unique hmatched'
    obtain rfl := (h.shown hatom (.inr rfl)).1.unique hj hj'
    have htag := (h.tag_iff hx q).mpr ⟨i, j, hatom, .inl hi, hbehind⟩
    obtain ⟨x', hx', hdrawn⟩ := (h.shown hatom (.inl rfl)).2 n hi
    obtain rfl := Option.some.inj (hx.symm.trans hx')
    refine ⟨x, Graph.mem_drawnNodes.mpr ⟨hx, hdrawn⟩, ?_⟩
    rw [Node.quantifiedClose?, if_pos, hclose]
    exact ⟨by rw [hfork]; rfl, Nat.le_of_eq hsources, hkind, by rw [htag]; rfl⟩

theorem showsQuantifiers {p : Layout.Places} (hgraph : c.graph = Graph.draw c.automaton p) :
    c.ShowsQuantifiers where
  tag n g hg := by
    obtain ⟨x, hx, rfl⟩ := (displays_iff hgraph).mp hg
    exact h.tag_iff (Graph.mem_drawnNodes.mp hx).1
  single n i j i' j' hatom hatom' hn hn' := by
    obtain ⟨m, hm, hshows⟩ := hn.exists_end
    obtain ⟨m', hm', hshows'⟩ := hn'.exists_end
    obtain rfl := h.place_unique hshows hshows'
    exact hatom.unique hatom' hm hm'
  shown i j m hatom hm := by
    obtain ⟨hone, hdrawn⟩ := h.shown hatom hm
    refine ⟨hone, fun n hn => ?_⟩
    obtain ⟨x, hx, hd⟩ := hdrawn n hn
    exact ⟨_, (displays_iff hgraph).mpr ⟨x, Graph.mem_drawnNodes.mpr ⟨hx, hd⟩, rfl⟩⟩
  behind m q hm := by
    rw [pieces, ← h.tokens] at hm ⊢
    cases A with
    | none => simp [Expression.tokens] at hm
    | some e =>
      obtain ⟨i, j, hatom, hend⟩ := e.exists_atom_behind (Expression.standsIn e) hm
      exact ⟨i, j, hatom, by simpa using hend⟩
  parentheses := by
    let gs := (Graph.drawnNodes c.automaton).filterMap fun x =>
      x.1.quantifiedClose?.map fun k => (x.2, k)
    have hmem (n k : Nat) : (n, k) ∈ gs ↔ ∃ i j q, Matched c.pieces i j ∧
        c.pieces[j + 1]? = some (.quantifier q) ∧ c.Shows n i ∧ c.Shows k j := by
      rw [← h.quantifiedClose_iff]
      simp [gs]
    have hgs : c.graph.parentheses =
        gs.map fun x => (Graph.coordAt p x.1, Graph.coordAt p x.2) := by
      simp only [hgraph, Graph.draw, gs, List.map_filterMap, Option.map_map]
      rfl
    refine ⟨gs, List.pairwise_map.mp (pairwise_filterMap_drawnNodes _ (by simp)), hmem, ?_⟩
    rw [hgs, List.forall₂_map_left_iff, List.forall₂_same]
    intro x hx
    obtain ⟨i, j, q, hmatched, -, hi, hj⟩ := (hmem x.1 x.2).mp hx
    have hatom : Atom c.pieces i j := .group hmatched
    exact ⟨liesAt_coordAt hgraph ((h.shown hatom (.inl rfl)).2 _ hi),
      liesAt_coordAt hgraph ((h.shown hatom (.inr rfl)).2 _ hj)⟩

end Tagging

theorem Realizes.showsQuantifiers (h : c.Realizes A)
    (hdistinct : (A.tokens.map fun t => (t.piece, t.index)).Nodup) : c.ShowsQuantifiers := by
  obtain ⟨p, -, hgraph⟩ := h.drawing
  have htagging : c.Tagging A :=
    { automaton := h.automaton, tokens := h.tokens, distinct := hdistinct }
  exact htagging.showsQuantifiers hgraph

end Compiled

/-- Every quantifier that is left of a source is shown in its drawing, at the value that it stands
behind or at both parentheses of the group, and nothing else is. -/
theorem quantifiers_shown (source : List Char) :
    ∃ c, compile source = .ok c ∧ c.ShowsQuantifiers := by
  obtain ⟨c, a, A, hc, ha, -, hA, htokens, -⟩ := exists_stages source
  exact ⟨c, hc, hA.showsQuantifiers (htokens ▸ Analysis.nodup_valid ha)⟩

end RegexDiagram
