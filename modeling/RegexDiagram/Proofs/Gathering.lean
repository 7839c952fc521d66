import RegexDiagram.Proofs.Enclosure

/-!
What a run starts with. The walk that gathers it ends when it comes to `last`, so that of a regex
that matches nothing at all it gathers only what stands in front of the first way to the end. From
then on the run finds the words that open with something that was gathered, and no others.
-/
namespace RegexDiagram

namespace Automaton

variable {a : Automaton} {visited marked marked' : NodeSet} {xs ys zs : List Nat}
  {os os' : List Occurrence} {i k m m' : Nat}

/--
Whatever else is on its stack, a walk from some nodes goes on with others, having found the nodes of
the given occurrences.
-/
def Gathers (a : Automaton) (visited : NodeSet) (xs : List Nat) (os : List Occurrence)
    (marked : NodeSet) (ys : List Nat) : Prop :=
  ∃ found, (∀ o, (∃ j ∈ found, a.occurrence? j = some o) ↔ o ∈ os) ∧
    ∀ stack, a.walk visited (xs ++ stack) =
      { a.walk marked (ys ++ stack) with found := found ++ (a.walk marked (ys ++ stack)).found }

theorem Gathers.trans (h : a.Gathers visited xs os marked ys)
    (h' : a.Gathers marked ys os' marked' zs) : a.Gathers visited xs (os ++ os') marked' zs := by
  obtain ⟨found, hfound, hwalk⟩ := h
  obtain ⟨found', hfound', hwalk'⟩ := h'
  refine ⟨found ++ found', fun o => ?_, fun stack => ?_⟩
  · rw [List.mem_append, ← hfound, ← hfound']
    simp only [List.mem_append, or_and_right, exists_or]
  · rw [hwalk, hwalk']
    simp only [List.append_assoc]

theorem Gathers.frame (h : a.Gathers visited xs os marked ys) (zs : List Nat) :
    a.Gathers visited (xs ++ zs) os marked (ys ++ zs) := by
  obtain ⟨found, hfound, hwalk⟩ := h
  exact ⟨found, hfound, fun stack => by rw [List.append_assoc, List.append_assoc, hwalk]⟩

theorem gathers_visited (h : visited.contains i = true) : a.Gathers visited [i] [] visited [] :=
  ⟨[], by simp, fun stack => a.walk_visited stack h⟩

theorem gathers_control {n : Node} (hn : a.nodes[i]? = some n) (hlast : n.kind ≠ .last)
    (hvalue : n.value? = none) (hnew : ¬visited.contains i = true) :
    a.Gathers visited [i] [] (visited.insert i) n.targets := by
  obtain ⟨hi, rfl⟩ := Array.getElem?_eq_some_iff.mp hn
  exact ⟨[], by simp, fun stack => a.walk_control stack hnew hi hlast (by simp [hvalue])⟩

theorem gathers_walk (h : (a.walk visited xs).reached = false)
    (hos : ∀ o, (∃ j ∈ (a.walk visited xs).found, a.occurrence? j = some o) ↔ o ∈ os) :
    a.Gathers visited xs os (a.walk visited xs).visited [] :=
  ⟨_, hos, fun stack => by rw [walk_append, Walk.andThen, h]; rfl⟩

/-- On its way the walk marks only nodes among the `m` from `k` on. -/
structure Explores (a : Automaton) (k m : Nat) (visited : NodeSet) (xs : List Nat)
    (os : List Occurrence) (marked : NodeSet) (ys : List Nat) : Prop where
  gathers : a.Gathers visited xs os marked ys
  kept : ∀ j, visited.contains j = true → marked.contains j = true
  marks : ∀ j, marked.contains j = true → (k ≤ j ∧ j < k + m) ∨ visited.contains j = true

namespace Explores

theorem trans {k' : Nat} (h : a.Explores k m visited xs os marked ys)
    (h' : a.Explores k' m' marked ys os' marked' zs) (hk : k' = k + m) :
    a.Explores k (m + m') visited xs (os ++ os') marked' zs where
  gathers := h.gathers.trans h'.gathers
  kept j hj := h'.kept j (h.kept j hj)
  marks j hj := by
    rcases h'.marks j hj with hj | hj
    · exact .inl (by omega)
    · exact (h.marks j hj).imp_left fun hj => by omega

theorem frame (h : a.Explores k m visited xs os marked ys) (zs : List Nat) :
    a.Explores k m visited (xs ++ zs) os marked (ys ++ zs) :=
  ⟨h.gathers.frame zs, h.kept, h.marks⟩

theorem mono (h : a.Explores k m visited xs os marked ys) (hm : m ≤ m') :
    a.Explores k m' visited xs os marked ys :=
  ⟨h.gathers, h.kept, fun j hj => (h.marks j hj).imp_left fun hj => by omega⟩

theorem refl (a : Automaton) (k : Nat) (visited : NodeSet) (xs : List Nat) :
    a.Explores k 0 visited xs [] visited xs :=
  ⟨⟨[], by simp, fun _ => rfl⟩, fun _ => id, fun _ => .inr⟩

theorem skip (h : a.Explores k m visited xs os marked (i :: ys)) (hi : marked.contains i = true) :
    a.Explores k m visited xs os marked ys where
  gathers := by
    have := h.gathers.trans ((gathers_visited hi).frame ys)
    rwa [List.append_nil] at this
  kept := h.kept
  marks := h.marks

theorem not_contains (h : a.Explores k m visited xs os marked ys)
    (hi : ¬visited.contains i = true) (hout : i < k ∨ k + m ≤ i) : ¬marked.contains i = true :=
  fun hmark => (h.marks i hmark).elim (fun hi => by omega) hi

theorem fresh {k' : Nat} (h : a.Explores k m visited xs os marked ys) (hnew : visited.Fresh k' m')
    (hk : k + m ≤ k') : marked.Fresh k' m' := fun j hj hlt =>
  h.not_contains (hnew j hj hlt) (.inr (by omega))

end Explores

theorem explores_control {n : Node} (hn : a.nodes[k]? = some n) (hlast : n.kind ≠ .last)
    (hvalue : n.value? = none) (hnew : ¬visited.contains k = true) :
    a.Explores k 1 visited [k] [] (visited.insert k) n.targets where
  gathers := gathers_control hn hlast hvalue hnew
  kept j hj := NodeSet.contains_insert_iff.mpr (.inr hj)
  marks j hj := (NodeSet.contains_insert_iff.mp hj).imp_left fun hj => by omega

end Automaton

namespace Tree

open Automaton

variable {l : Precedence} {a : Automaton} {k x : Nat} {i : Inlet} {q : Option Quantifier}
  {visited : NodeSet}

theorem exists_explores_entries (t : Tree l) (h : a.Holds k (t.branchNodes k [x] i q))
    (ha : a.InRange) (hx : x < k ∨ k + t.branchSize ≤ x) (hnew : visited.Fresh k t.branchSize)
    (hstop : visited.contains x = true ∨ t.nullable = false) :
    ∃ marked, a.Explores k t.branchSize visited (t.entries k) t.firsts marked [] := by
  obtain ⟨hreached, hmarks, hfound⟩ := t.walk_entries h ha hx hnew hstop
  exact ⟨_, gathers_walk hreached hfound, fun _ => contains_walk_of_contains, hmarks⟩

theorem exists_explores_fork (t : Tree l) (h : a.Holds k (t.forkNodes k i))
    (hnew : visited.Fresh k t.size) :
    ∃ marked, a.Explores k t.forkSize visited [k] [] marked (t.entries (k + t.forkSize)) := by
  cases hc : t.isChoice with
  | false =>
    rw [t.forkSize_of_not_isChoice hc, Nat.add_zero, (t.single_branch hc k).1]
    exact ⟨visited, .refl a k visited [k]⟩
  | true =>
    obtain ⟨node, hnode, hlast, hvalue, hnext⟩ := t.exists_fork hc h
    have hsize : t.forkSize = 1 := by rw [forkSize, hc]; rfl
    have htargets : node.targets = t.entries (k + 1) := by
      rw [Node.targets, hnext, List.filterMap_map]
      exact List.filterMap_some
    have hk := hnew k (Nat.le_refl k) (by rw [size, hsize]; omega)
    rw [hsize, ← htargets]
    exact ⟨_, explores_control hnode hlast hvalue hk⟩

/-- A walk from the entries of a tree comes to its exit when what stands in front is gathered. -/
def Exits (t : Tree l) (a : Automaton) : Prop :=
  ∀ ⦃k x : Nat⦄ ⦃i : Inlet⦄ ⦃q : Option Quantifier⦄ ⦃visited : NodeSet⦄,
    a.Holds k (t.branchNodes k [x] i q) → (x < k ∨ k + t.branchSize ≤ x) →
      visited.Fresh k t.branchSize → ¬visited.contains x = true →
        ∃ marked pending,
          a.Explores k t.branchSize visited (t.entries k) t.gathered marked (x :: pending) ∧
            (t.isChoice = false → marked.contains k = true)

section Exits

variable {body e : Tree .expr} {b : Tree .atom} {f g' : Tree .term} {g : Tree .factor} {t : Token}

theorem Exits.group {opening closing : Token} {ho : opening.piece = .groupOpen}
    {hc : closing.piece = .groupClose} (hbody : body.Exits a) :
    (group opening closing ho hc body : Tree l).Exits a := by
  intro k x i q visited h hx hnew _
  obtain ⟨hopen, hinner, hclose⟩ := (eachFrom_group ..).mp h
  obtain ⟨hfork, hbranches⟩ := (eachFrom_nodes ..).mp hinner
  have hsize : body.size = body.forkSize + body.branchSize := rfl
  rw [branchSize, ← hsize] at hx hnew
  have hkind : (opener opening k body.size i q).kind ≠ .last := by simp [opener, Node.ofToken]
  have hvalue : (opener opening k body.size i q).value? = none :=
    value?_ofToken_of_control (by simp [ho])
  have h₁ := explores_control hopen hkind hvalue (hnew k (Nat.le_refl k) (by omega))
  have hfresh := h₁.fresh (hnew.sub (k + 1) body.size (by omega) (by omega)) (by omega)
  obtain ⟨m₂, h₂⟩ := body.exists_explores_fork hfork hfresh
  have h₁₂ := h₁.trans h₂ rfl
  have hclosing : ¬m₂.contains (k + 1 + body.size) = true :=
    h₁₂.not_contains (hnew _ (by omega) (by omega)) (by omega)
  obtain ⟨m₃, ys, h₃, -⟩ := hbody hbranches (by omega)
    (h₁₂.fresh (hnew.sub _ _ (by omega) (by omega)) (by omega)) hclosing
  have h₄ := explores_control hclose (by simp [closer]) rfl (h₃.not_contains hclosing (by omega))
  have hall := (h₁₂.trans h₃ (by omega)).trans (h₄.frame ys) (by omega)
  have hmark := NodeSet.contains_insert_iff (s := visited).mpr (.inl (rfl : k = k))
  refine ⟨_, ys, ?_, fun _ => h₄.kept k (h₃.kept k (h₂.kept k hmark))⟩
  rw [List.append_nil] at hall
  rw [branchSize, ← Nat.add_assoc]
  exact hall

/-- An option leads to its operand first and then to the exit. -/
theorem Exits.optional {hq : t.piece = .quantifier .optional} {hl : l ≠ .atom} (ha : a.InRange)
    (hb : b.nullable = true → b.Exits a) : (quantified b t .optional hq hl).Exits a := by
  intro k x i q visited h hx hnew hexit
  have hentries := (b.single_branch (b.isChoice_of_ne (by simp)) (k + 1)).1
  rw [branchSize] at hx hnew
  have h₁ := explores_control h.1 (by simp [Node.ofToken])
    (value?_ofToken_of_control (t := t) (by simp [hq])) (hnew k (Nat.le_refl k) (by omega))
  have hmark := NodeSet.contains_insert_iff (s := visited).mpr (.inl (rfl : k = k))
  have hfresh := h₁.fresh (hnew.sub (k + 1) b.branchSize (by omega) (by omega)) (by omega)
  rw [gathered, if_neg (by simp), branchSize, Nat.add_comm]
  cases hnull : b.nullable with
  | true =>
    obtain ⟨m₂, ys, h₂, -⟩ := hb hnull h.2 (by omega) hfresh (h₁.not_contains hexit (by omega))
    rw [hentries] at h₂
    exact ⟨m₂, ys ++ [x], h₁.trans (h₂.frame [x]) rfl, fun _ => h₂.kept k hmark⟩
  | false =>
    obtain ⟨m₂, h₂⟩ := b.exists_explores_entries h.2 ha (by omega) hfresh (.inr hnull)
    rw [hentries, ← b.gathered_of_not_nullable hnull] at h₂
    exact ⟨m₂, [], h₁.trans (h₂.frame [x]) rfl, fun _ => h₂.kept k hmark⟩

/-- The operand of a star leads back to where the walk comes from, so that all of it is found. -/
theorem exits_star {hq : t.piece = .quantifier .star} {hl : l ≠ .atom} (ha : a.InRange) :
    (quantified b t .star hq hl).Exits a := by
  intro k x i q visited h hx hnew hexit
  have hentries := (b.single_branch (b.isChoice_of_ne (by simp)) (k + 1)).1
  rw [branchSize] at hx hnew
  have h₁ := explores_control h.1 (by simp [Node.ofToken])
    (value?_ofToken_of_control (t := t) (by simp [hq])) (hnew k (Nat.le_refl k) (by omega))
  have hmark := NodeSet.contains_insert_iff (s := visited).mpr (.inl (rfl : k = k))
  have hfresh := h₁.fresh (hnew.sub (k + 1) b.branchSize (by omega) (by omega)) (by omega)
  obtain ⟨m₂, h₂⟩ := b.exists_explores_entries h.2 ha (by omega) hfresh (.inl hmark)
  rw [hentries] at h₂
  rw [gathered, if_pos rfl, branchSize, Nat.add_comm]
  exact ⟨m₂, [], h₁.trans (h₂.frame [x]) rfl, fun _ => h₂.kept k hmark⟩

/-- Behind the operand, the way back has been taken before and is skipped. -/
theorem Exits.plus {hq : t.piece = .quantifier .plus} {hl : l ≠ .atom} (hb : b.Exits a) :
    (quantified b t .plus hq hl).Exits a := by
  intro k x i q visited h hx hnew _
  have hchoice : b.isChoice = false := b.isChoice_of_ne (by simp)
  have hentries := (b.single_branch hchoice k).1
  rw [branchSize] at hx hnew
  rw [branchNodes, holds_append, length_branchNodes] at h
  have hback : ¬visited.contains (k + b.branchSize) = true := hnew _ (by omega) (by omega)
  obtain ⟨m₁, ys, h₁, hmark⟩ := hb h.1 (.inr (Nat.le_refl _))
    (hnew.sub _ _ (Nat.le_refl k) (by omega)) hback
  have h₂ := explores_control h.2.1 (by simp [Node.ofToken])
    (value?_ofToken_of_control (t := t) (by simp [hq])) (h₁.not_contains hback (by omega))
  rw [hentries] at h₁
  have hall := h₁.trans (h₂.frame ys) rfl
  have hmark := h₂.kept k (hmark hchoice)
  refine ⟨_, ys, ?_, fun _ => hmark⟩
  rw [gathered, if_neg (by simp), branchSize]
  rw [List.append_nil] at hall
  exact hall.skip hmark

theorem Exits.concat {hl : l = .term ∨ l = .expr} (hf : f.Exits a) (hg : g.Exits a)
    (hfnull : f.nullable = true) (hgnull : g.nullable = true) : (concat f g hl).Exits a := by
  intro k x i q visited h hx hnew hexit
  rw [branchNodes, holds_append, length_branchNodes] at h
  rw [branchSize] at hx hnew
  have hpos := g.branchSize_pos
  have hchoice := f.isChoice_of_ne (by simp)
  have hfentries := (f.single_branch hchoice k).1
  have hgentries := (g.single_branch (g.isChoice_of_ne (by simp)) (k + f.branchSize)).1
  obtain ⟨m₁, ys, h₁, hk⟩ := hf h.1 (.inr (Nat.le_refl _))
    (hnew.sub _ _ (Nat.le_refl _) (by omega)) (hnew _ (by omega) (by omega))
  have hfresh := h₁.fresh (hnew.sub (k + f.branchSize) g.branchSize (by omega) (by omega)) (by omega)
  obtain ⟨m₂, zs, h₂, -⟩ := hg h.2 (by omega) hfresh (h₁.not_contains hexit (by omega))
  rw [hfentries] at h₁
  rw [hgentries] at h₂
  refine ⟨m₂, zs ++ ys, ?_, fun _ => h₂.kept k (hk hchoice)⟩
  simp only [gathered, hfnull, hgnull, if_true]
  exact h₁.trans (h₂.frame ys) rfl

/-- The branches behind one that matches nothing at all are left pending. -/
theorem Exits.alternation_left {ht : t.piece = .alternation} (he : e.Exits a)
    (hnull : e.nullable = true) : (alternation e t ht g').Exits a := by
  intro k x i q visited h hx hnew hexit
  rw [branchNodes, holds_append, length_branchNodes] at h
  rw [branchSize] at hx hnew
  obtain ⟨m₁, ys, h₁, -⟩ :=
    he h.1 (by omega) (hnew.sub k e.branchSize (Nat.le_refl k) (by omega)) hexit
  refine ⟨m₁, ys ++ [k + e.branchSize], ?_, fun hc => by simp [isChoice] at hc⟩
  simp only [gathered, hnull, if_true, entries]
  exact (h₁.frame [k + e.branchSize]).mono (Nat.le_add_right _ _)

theorem Exits.alternation_right {ht : t.piece = .alternation} (ha : a.InRange)
    (hg : g'.Exits a) (hnull : e.nullable = false) : (alternation e t ht g').Exits a := by
  intro k x i q visited h hx hnew hexit
  rw [branchNodes, holds_append, length_branchNodes] at h
  rw [branchSize] at hx hnew
  have hentries := (g'.single_branch (g'.isChoice_of_ne (by simp)) (k + e.branchSize)).1
  have hfresh := hnew.sub k e.branchSize (Nat.le_refl k) (by omega)
  obtain ⟨m₁, h₁⟩ := e.exists_explores_entries h.1 ha (by omega) hfresh (.inr hnull)
  have hrest := h₁.fresh (hnew.sub (k + e.branchSize) g'.branchSize (by omega) (by omega)) (by omega)
  obtain ⟨m₂, ys, h₂, -⟩ := hg h.2 (by omega) hrest (h₁.not_contains hexit (by omega))
  rw [hentries] at h₂
  refine ⟨m₂, ys, ?_, fun hc => by simp [isChoice] at hc⟩
  simp only [gathered, hnull, Bool.false_eq_true, if_false, entries]
  exact (h₁.frame [k + e.branchSize]).trans h₂ rfl

end Exits

/-- Every tree that matches nothing at all is left when what stands in front has been gathered. -/
theorem exits (t : Tree l) (ha : a.InRange) (hnull : t.nullable = true) : t.Exits a := by
  induction t with
  | value t v hv => simp [nullable] at hnull
  | group opening closing ho hc body ih => exact .group (ih hnull)
  | quantified b t q hq hl ih =>
    cases q with
    | optional => exact .optional ha ih
    | star => exact exits_star ha
    | plus => exact .plus (ih hnull)
  | concat f g hl ihf ihg =>
    rw [nullable, Bool.and_eq_true] at hnull
    exact .concat (ihf hnull.1) (ihg hnull.2) hnull.1 hnull.2
  | alternation e t ht g ihe ihg =>
    cases he : e.nullable with
    | true => exact .alternation_left (ihe he) he
    | false =>
      rw [nullable, he, Bool.false_or] at hnull
      exact .alternation_right ha (ihg hnull) he

end Tree

namespace Expression

open Automaton

theorem exists_explores_first (A : Expression) :
    ∃ m marked ys, A.automaton.Explores 0 m {} [0] A.gathered marked ys ∧ m ≤ A.lastAt ∧
      (ys = [] ∨ ∃ pending, ys = A.lastAt :: pending) := by
  have h₁ : A.automaton.Explores 0 1 {} [0] [] (NodeSet.insert {} 0) [1] :=
    explores_control A.first_node (by simp) rfl (by simp)
  cases A with
  | none => exact ⟨1, _, [1], h₁, Nat.le_refl 1, .inr ⟨[], rfl⟩⟩
  | some e =>
    have htree := ((eachFrom_some _ e).mp (holds_nodes (some e))).2.1
    obtain ⟨hfork, hbranches⟩ := (eachFrom_nodes ..).mp htree
    have hsize : e.size = e.forkSize + e.branchSize := rfl
    have hnew : ({} : NodeSet).Fresh 1 e.size := fun j _ _ => by simp
    obtain ⟨m₂, h₂⟩ := e.exists_explores_fork hfork (h₁.fresh hnew (Nat.le_refl 1))
    have h₁₂ := h₁.trans h₂ rfl
    have hfresh := h₁₂.fresh (hnew.sub (1 + e.forkSize) e.branchSize (by omega) (by omega))
      (by omega)
    have hle : 1 + e.forkSize + e.branchSize ≤ lastAt (some e) := by simp only [lastAt]; omega
    cases hnull : e.nullable with
    | true =>
      have hexit := h₁₂.not_contains (i := 1 + e.size) (by simp) (by omega)
      obtain ⟨m₃, ys, h₃, -⟩ :=
        e.exits (inRange (some e)) hnull hbranches (by omega) hfresh hexit
      exact ⟨_, m₃, _, h₁₂.trans h₃ (by omega), hle, .inr ⟨ys, rfl⟩⟩
    | false =>
      obtain ⟨m₃, h₃⟩ := e.exists_explores_entries hbranches (inRange (some e)) (by omega) hfresh
        (.inr hnull)
      rw [← e.gathered_of_not_nullable hnull] at h₃
      exact ⟨_, m₃, _, h₁₂.trans h₃ (by omega), hle, .inl rfl⟩

theorem openings_eq (A : Expression) : A.openings = {o | o ∈ A.gathered} := by
  obtain ⟨m, marked, ys, h, hm, hys⟩ := A.exists_explores_first
  have hnothing : (A.automaton.walk marked (ys ++ [])).found = [] := by
    rcases hys with rfl | ⟨pending, rfl⟩
    · rw [List.append_nil, walk_nil]
    · obtain ⟨n, hn, hlast, -⟩ := A.last_node
      obtain ⟨hlt, rfl⟩ := Array.getElem?_eq_some_iff.mp hn
      have hnew := h.not_contains (i := A.lastAt) (by simp) (by omega)
      rw [List.cons_append, walk_last _ _ hnew hlt hlast]
  obtain ⟨found, hfound, hwalk⟩ := h.gathers
  have hstart : A.automaton.start.next = found := by
    have hwhole := congrArg Walk.found (hwalk [])
    rw [hnothing] at hwhole
    exact hwhole.trans (List.append_nil found)
  refine Set.ext fun o => ?_
  rw [openings, hstart]
  exact hfound o

theorem mem_start_iff (A : Expression) (hA : A.automaton.Distinct) (i : Nat) :
    i ∈ A.automaton.start.next ↔ ∃ o ∈ A.gathered, A.automaton.occurrence? i = some o := by
  have hmem (o : Occurrence) : o ∈ A.gathered ↔ o ∈ A.openings := by rw [A.openings_eq]; rfl
  simp only [hmem]
  constructor
  · intro hi
    obtain ⟨o, hmem, ho, -⟩ := (startsWith_openings hA i).mp hi
    exact ⟨o, hmem, ho⟩
  · intro h
    obtain ⟨o, ⟨j, hj, ho⟩, hi⟩ := h
    exact hA j i o ho hi ▸ hj

theorem wordsFrom_gathered {A : Expression} (h : ∀ o, Opens A.words o → o ∈ A.gathered) :
    A.wordsFrom {o | o ∈ A.gathered} = A.words := by
  refine Set.ext fun u => ⟨fun hu => hu.1, fun hu => ⟨hu, fun o ho => h o ?_⟩⟩
  obtain ⟨v, rfl⟩ := List.head?_eq_some_iff.mp ho
  exact ⟨v, hu⟩

theorem mem_gathered_of_opens {A : Expression} (hA : [] ∉ A.words) {o : Occurrence}
    (ho : Opens A.words o) : o ∈ A.gathered := by
  obtain ⟨v, hv⟩ := ho
  rw [← wordsFrom_openings hA, A.openings_eq] at hv
  exact hv.2 o rfl

end Expression

/--
A run starts with the occurrences that are gathered, and succeeds after the shortest word that the
input starts with among those that open with one of them. If they are all that words open with, as
they are unless the empty word is matched, these are all words of the regex.
-/
theorem run_finds_gathered (source input : List Char) :
    ∃ c a steps, compile source = .ok c ∧ (Analysis.ofSource source).validate = some a ∧
      c.analysis.valid = a.valid ∧ c.automaton.run input = .ok steps ∧
      (∃ A : Expression, A.tokens = a.valid) ∧
      ∀ A : Expression, A.tokens = a.valid →
        (∀ i, i ∈ c.automaton.start.next ↔ ∃ o ∈ A.gathered, c.automaton.occurrence? i = some o) ∧
        c.automaton.Finds (A.wordsFrom {o | o ∈ A.gathered})
          (image Occurrence.Accepts (A.wordsFrom {o | o ∈ A.gathered})) input steps ∧
        ([] ∉ A.language → ∀ o, Opens A.words o → o ∈ A.gathered) ∧
        ((∀ o, Opens A.words o → o ∈ A.gathered) →
          c.automaton.Finds A.words A.language input steps) := by
  obtain ⟨c, a, steps, hc, ha, hvalid, hsteps, hA, hall⟩ := exists_compile_run source input
  refine ⟨c, a, steps, hc, ha, hvalid, hsteps, hA, fun B hB => ?_⟩
  obtain ⟨hB, hfinds⟩ := hall B hB
  rw [B.openings_eq] at hfinds
  refine ⟨hB.automaton ▸ B.mem_start_iff hB.distinct, hfinds, fun hempty o ho => ?_, fun hall => ?_⟩
  · rw [B.nil_mem_language_iff] at hempty
    exact Expression.mem_gathered_of_opens hempty ho
  · rwa [Expression.wordsFrom_gathered hall, B.image_words] at hfinds

/-- The syntax tree of `a*|b`. -/
def starOrLiteral : Tree .expr :=
  .alternation
    (.quantified
      (.value { piece := .value (.literal 'a'), pos := 0, index := 0 } (.literal 'a') rfl)
      { piece := .quantifier .star, pos := 1, index := 1 } .star rfl (by decide))
    { piece := .alternation, pos := 2, index := 2 } rfl
    (.value { piece := .value (.literal 'b'), pos := 3, index := 3 } (.literal 'b') rfl)

/-- Nothing is gathered behind a star that comes first: `a*|b` matches `b`, but the run fails. -/
theorem run_misses_second_branch :
    ∃ c steps, compile ['a', '*', '|', 'b'] = .ok c ∧ c.automaton.run ['b'] = .ok steps ∧
      Expression.tokens (some starOrLiteral) = c.analysis.valid ∧
      ['b'] ∈ Expression.language (some starOrLiteral) ∧
      ∃ s, steps[1]? = some s ∧ s.state = .failure := by
  have hvalid : (compile ['a', '*', '|', 'b']).toOption.map (·.analysis.valid) =
      some starOrLiteral.tokens := by
    decide +kernel
  obtain ⟨c, a, steps, hc, -, hanalysis, hsteps, -, hall⟩ :=
    exists_compile_run ['a', '*', '|', 'b'] ['b']
  rw [hc] at hvalid
  have htokens := (Option.some.inj hvalid).symm
  refine ⟨c, steps, hc, hsteps, htokens, .inr ⟨'b', rfl, rfl⟩, ?_⟩
  obtain ⟨-, hfinds⟩ := hall (some starOrLiteral) (htokens.trans hanalysis)
  rw [Expression.openings_eq] at hfinds
  refine (hfinds.failure 0).mpr ⟨Nat.one_pos, ?_, by simp⟩
  intro h
  obtain ⟨u, v, ⟨-, hgathered⟩, hu⟩ := h
  obtain ⟨o, u, ho, -, rfl⟩ := List.forall₂_cons_right_iff.mp hu
  obtain rfl := List.mem_singleton.mp (hgathered o rfl)
  exact absurd ho (by decide)

end RegexDiagram
