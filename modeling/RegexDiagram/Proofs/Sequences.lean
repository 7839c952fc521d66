import RegexDiagram.Analysis
import RegexDiagram.Proofs.Postfix

/-!
What construction makes of any sequence of symbols. An expression tells what the first node of its
fragment is, whether an edge leads back to that node, and whether an edge has lost its target. That
is shown for each operation, and so for every expression; the reading of a sequence is unique, so
that it decides what becomes of the sequence.
-/
namespace RegexDiagram

namespace Postfix

open Fragment Node

variable {e x : Postfix} {f g : Fragment} {n : Node} {t : Token} {ns ms : List Node}
  {lexemes : List Lexeme}

/--
A node starts the automaton of an expression. A fork there has no edge to itself: only then may
another fork take its place.
-/
structure Heads (e : Postfix) (n : Node) : Prop where
  kind : n.kind = e.entry
  fork : n.fork.isSome ↔ e.Forks
  next : e.Forks → some 0 ∉ n.next

/-- The first of the nodes starts the automaton of an expression. -/
def Starts (e : Postfix) (ns : List Node) : Prop := ∃ n, ns.head? = some n ∧ e.Heads n

theorem Heads.of_not_forks (hkind : n.kind = e.entry) (hfork : n.fork = none) (he : ¬ e.Forks) :
    e.Heads n where
  kind := hkind
  fork := by simp [hfork, he]
  next h := absurd h he

theorem Heads.addEdge {k : Nat} (h : e.Heads n) (hk : 0 < k) : e.Heads (n.addEdge k) where
  kind := h.kind
  fork := h.fork
  next he := by
    have := h.next he
    simp only [Node.addEdge, List.mem_append, List.mem_singleton, Option.some_inj, not_or]
    exact ⟨this, Nat.ne_of_lt hk⟩

theorem Heads.starts (h : e.Heads n) (ns : List Node) : e.Starts (n :: ns) := ⟨n, rfl, h⟩

theorem Starts.append (h : e.Starts ns) (ms : List Node) : e.Starts (ns ++ ms) := by
  obtain ⟨n, hn, h⟩ := h
  exact ⟨n, by rw [List.head?_append, hn, Option.some_or], h⟩

theorem Starts.leadTo {k : Nat} (h : e.Starts ns) (hk : 0 < k) (terminals : List Nat) :
    e.Starts (leadTo k terminals ns) := by
  obtain ⟨n, hn, h⟩ := h
  obtain ⟨ns, rfl⟩ := List.head?_eq_some_iff.mp hn
  simp only [Fragment.leadTo, List.mapIdx_cons]
  refine Heads.starts ?_ _
  split
  · exact h.addEdge hk
  · exact h

theorem Starts.tag (h : e.Starts f.nodes) (q : Quantifier) : e.Starts (f.tag q) := by
  have hmodify : ∀ {ns : List Node} (i : Nat), e.Starts ns →
      e.Starts (ns.modify i (·.setQuantifier q)) := by
    rintro ns i ⟨n, hn, h⟩
    obtain ⟨ns, rfl⟩ := List.head?_eq_some_iff.mp hn
    cases i with
    | zero => exact ⟨_, rfl, h.kind, h.fork, h.next⟩
    | succ i => exact h.starts _
  unfold Fragment.tag
  split
  · exact hmodify _ (hmodify _ h)
  · exact hmodify _ h

theorem Starts.fork? (h : e.Starts f.nodes) : f.fork?.isSome ↔ e.Forks := by
  obtain ⟨n, hn, h⟩ := h
  rw [Fragment.fork?, hn]
  exact h.fork

/-- What an expression tells about the nodes of its fragment. -/
structure Shows (e : Postfix) (ns : List Node) : Prop where
  starts : e.Starts ns
  bound : ∀ j, some j ∈ edges ns → j < ns.length
  returns : some 0 ∈ edges ns ↔ e.Returns
  loses : none ∈ edges ns ↔ e.Loses

/-- A fragment is the one of an expression, as far as it can be told. -/
structure Yields (e : Postfix) (f : Fragment) : Prop extends Shows e f.nodes where
  wellFormed : f.WellFormed

theorem Yields.pos (h : e.Yields f) : 0 < f.nodes.length :=
  Nat.zero_lt_of_lt h.wellFormed.entry

/-! ## One operation -/

theorem yields_sentinel : sentinel.Yields Construction.firstFragment where
  wellFormed := single_wellFormed _ _
  starts := (Heads.of_not_forks rfl rfl (by simp [Forks, entry])).starts _
  bound j hj := by simp [Construction.firstFragment, single] at hj
  returns := by simp [Construction.firstFragment, single, Returns]
  loses := by simp [Construction.firstFragment, single, Loses]

theorem yields_value {v : Value} (ht : t.piece = .value v) :
    (value t v ht).Yields (ofValue t) where
  wellFormed := single_wellFormed _ _
  starts := (Heads.of_not_forks rfl rfl (by simp [Forks, entry, ht])).starts _
  bound j hj := by simp [ofValue, single, ofToken] at hj
  returns := by simp [ofValue, single, ofToken, Returns]
  loses := by simp [ofValue, single, ofToken, Loses]

theorem Yields.optional (h : e.Yields f) (ht : t.piece = .quantifier .optional) :
    (quantified e t .optional ht).Yields (f.optional t) where
  wellFormed := optional_wellFormed h.wellFormed
  starts := (Heads.of_not_forks rfl rfl (by simp [Forks, entry, ht])).starts _
  bound j hj := by
    have hpos := h.pos
    rw [edges_optional, List.mem_cons, Option.some_inj, some_mem_shift] at hj
    have hlength : (f.optional t).nodes.length = 1 + f.nodes.length := by
      simp [Fragment.optional, Nat.add_comm]
    rcases hj with rfl | ⟨-, hj⟩
    · omega
    · have := h.bound _ hj
      omega
  returns := by simp [edges_optional, some_mem_shift, Returns]
  loses := by simp [edges_optional, none_mem_shift, Loses, h.loses]

theorem Yields.star (h : e.Yields f) (ht : t.piece = .quantifier .star) :
    (quantified e t .star ht).Yields (f.star t) where
  wellFormed := star_wellFormed h.wellFormed
  starts := (Heads.of_not_forks rfl rfl (by simp [Forks, entry, ht])).starts _
  bound j hj := by
    have hpos := h.pos
    rw [edges_star, List.mem_cons, Option.some_inj, mem_edges_leadTo, edges_shift, edges_tag,
      some_mem_shift, Option.some_inj] at hj
    have hlength : (f.star t).nodes.length = 1 + f.nodes.length := by
      simp [Fragment.star, Nat.add_comm]
    rcases hj with rfl | ⟨-, hj⟩ | ⟨rfl, -⟩
    · omega
    · have := h.bound _ hj
      omega
    · omega
  returns := by
    obtain ⟨i, hi⟩ := List.exists_mem_of_ne_nil _ h.wellFormed.ends
    have hback : some 0 ∈ edges (leadTo 0 f.terminals ((f.tag .star).map (·.shift 1))) :=
      mem_edges_leadTo.mpr (.inr ⟨rfl, i, hi, by simpa using h.wellFormed.terminals i hi⟩)
    simp [edges_star, hback, Returns]
  loses := by simp [edges_star, none_mem_edges_leadTo, none_mem_shift, Loses, h.loses]

theorem Yields.plus (h : e.Yields f) (ht : t.piece = .quantifier .plus) :
    (quantified e t .plus ht).Yields (f.plus t) where
  wellFormed := plus_wellFormed h.wellFormed
  starts := by
    obtain ⟨n, hn, hhead⟩ := ((h.starts.tag .plus).leadTo h.pos f.terminals).append
      [{ Node.ofToken t with next := [some 0] }]
    exact ⟨n, hn, hhead.kind, hhead.fork, hhead.next⟩
  bound j hj := by
    have hlength : (f.plus t).nodes.length = f.nodes.length + 1 := by
      simp [Fragment.plus]
    rw [edges_plus, List.mem_append, mem_edges_leadTo, edges_tag, List.mem_singleton,
      Option.some_inj, Option.some_inj] at hj
    rcases hj with (hj | ⟨rfl, -⟩) | rfl
    · have := h.bound _ hj
      omega
    · omega
    · omega
  returns := by simp [edges_plus, Returns]
  loses := by simp [edges_plus, none_mem_edges_leadTo, Loses, h.loses]

theorem Yields.quantify {q : Quantifier} (h : e.Yields f) (ht : t.piece = .quantifier q) :
    (quantified e t q ht).Yields (f.quantify t q) := by
  cases q with
  | optional => exact h.optional ht
  | star => exact h.star ht
  | plus => exact h.plus ht

theorem Yields.enclose (h : e.Yields f) (ht : t.piece = .groupOpen) (last pos : Nat) :
    (group e t ht).Yields (f.enclose t last pos) where
  wellFormed := enclose_wellFormed last pos f
  starts := by
    refine (Heads.starts ?_ _).append _
    exact Heads.of_not_forks rfl rfl (by simp [Forks, entry, ht])
  bound j hj := by
    have hlength : (f.enclose t last pos).nodes.length = 1 + f.nodes.length + 1 := by
      simp [Fragment.enclose, Nat.add_comm]
    rw [edges_enclose, List.mem_cons, Option.some_inj, mem_edges_leadTo, edges_modify_setSources,
      edges_shift, some_mem_shift, Option.some_inj] at hj
    rcases hj with rfl | ⟨-, hj⟩ | ⟨rfl, -⟩
    · omega
    · have := h.bound _ hj
      omega
    · omega
  returns := by
    have hclose : ¬ 0 = 1 + f.nodes.length := by omega
    simp [edges_enclose, mem_edges_leadTo, some_mem_shift, hclose, Returns]
  loses := by simp [edges_enclose, none_mem_edges_leadTo, none_mem_shift, Loses, h.loses]

theorem Yields.concat (h : e.Yields f) (hx : x.Yields g) : (concat e x).Yields (f.concat g) where
  wellFormed := concat_wellFormed h.wellFormed hx.wellFormed
  starts := by
    obtain ⟨n, hn, hhead⟩ := h.starts.leadTo h.pos f.terminals
    obtain ⟨n, hn, hhead⟩ := Starts.append ⟨n, hn, hhead⟩ _
    exact ⟨n, hn, hhead.kind, hhead.fork, hhead.next⟩
  bound j hj := by
    have hpos := hx.pos
    have hlength : (f.concat g).nodes.length = f.nodes.length + g.nodes.length := by
      simp [Fragment.concat]
    rw [edges_concat, List.mem_append, mem_edges_leadTo, some_mem_shift, Option.some_inj] at hj
    rcases hj with (hj | ⟨rfl, -⟩) | ⟨-, hj⟩
    · have := h.bound _ hj
      omega
    · omega
    · have := hx.bound _ hj
      omega
  returns := by
    have hpos := h.pos
    rw [edges_concat, List.mem_append, mem_edges_leadTo, some_mem_shift, Option.some_inj, h.returns,
      Returns]
    constructor
    · rintro ((hr | ⟨h0, -⟩) | ⟨h0, -⟩)
      · exact hr
      · omega
      · omega
    · exact fun hr => .inl (.inl hr)
  loses := by
    rw [edges_concat, List.mem_append, none_mem_edges_leadTo, none_mem_shift, h.loses, hx.loses,
      Loses]

/-! ## Alternation -/

theorem shows_branchOff (h : e.Yields f) (hx : x.Yields g) (ht : t.piece = .alternation)
    (he : ¬ e.Forks) : (alternation e x t ht).Shows (branchOff t f g) where
  starts := by
    refine ((Heads.starts ⟨rfl, ?_, ?_⟩ _).append _)
    · simp [Forks, entry, ht]
    · intro _ h0
      have hbranch : ¬ 0 = 1 + f.nodes.length := by omega
      simp [hbranch] at h0
  bound j hj := by
    have hf := h.pos
    have hg := hx.pos
    have hlength : (branchOff t f g).length = 1 + f.nodes.length + g.nodes.length := by
      simp [branchOff]
      omega
    simp only [edges_branchOff, List.mem_cons, List.mem_append, Option.some_inj,
      some_mem_shift] at hj
    rcases hj with rfl | rfl | ⟨-, hj⟩ | ⟨-, hj⟩
    · omega
    · omega
    · have := h.bound _ hj
      omega
    · have := hx.bound _ hj
      omega
  returns := by
    have hbranch : ¬ 0 = 1 + f.nodes.length := by omega
    simp [edges_branchOff, some_mem_shift, hbranch, Returns]
  loses := by
    simp [edges_branchOff, none_mem_shift, Loses, h.loses, hx.loses, he]

theorem Yields.zero_notMem_rootEdges (h : e.Yields f) (he : e.Forks) : some 0 ∉ f.rootEdges := by
  obtain ⟨n, hn, hhead⟩ := h.starts
  simpa [rootEdges, hn] using hhead.next he

theorem shows_addBranch (h : e.Yields f) (hx : x.Yields g) (ht : t.piece = .alternation)
    (he : e.Forks) (fork : Fork) : (alternation e x t ht).Shows (addBranch t fork f g) where
  starts := by
    have hroot := h.zero_notMem_rootEdges he
    refine ((Heads.starts ⟨rfl, ?_, ?_⟩ _).append _)
    · simp [Forks, entry, ht]
    · intro _ h0
      simp only [List.mem_append, List.mem_singleton, Option.some_inj] at h0
      rcases h0 with h0 | h0
      · exact hroot h0
      · have := h.pos
        omega
  bound j hj := by
    have hf := h.pos
    have hg := hx.pos
    have hlength : (addBranch t fork f g).length = f.nodes.length + g.nodes.length := by
      simp [addBranch]
      omega
    have hedges := edges_eq_rootEdges f
    have hbound := h.bound j
    simp only [hedges, edges_addBranch, List.mem_cons, List.mem_append, Option.some_inj,
      some_mem_shift, mem_edges_loseTarget, reduceCtorEq, false_and, or_false] at hj hbound
    rcases hj with hj | rfl | ⟨hj, -⟩ | ⟨-, hj⟩
    · have := hbound (.inl hj)
      omega
    · omega
    · have := hbound (.inr hj)
      omega
    · have := hx.bound _ hj
      omega
  returns := by
    have hbranch : ¬ 0 = f.nodes.length := Nat.ne_of_lt h.pos
    have hmoved : ¬ f.nodes.length ≤ 0 := Nat.not_le.mpr h.pos
    have hroot := h.zero_notMem_rootEdges he
    simp only [edges_addBranch, List.mem_cons, List.mem_append, Option.some_inj, some_mem_shift,
      mem_edges_loseTarget, hroot, hbranch, hmoved, Returns]
    simp
  loses := by
    have hroot := h.zero_notMem_rootEdges he
    have hedges := edges_eq_rootEdges f
    have hl := h.loses
    have hr := h.returns
    simp only [hedges, List.mem_append, hroot, false_or] at hl hr
    simp only [edges_addBranch, List.mem_cons, List.mem_append, none_mem_shift,
      mem_edges_loseTarget, hx.loses, Loses, ← hl, ← hr, he]
    simp only [reduceCtorEq, ne_eq, not_false_eq_true, and_true, true_and, false_or]
    tauto

theorem Yields.alternate (h : e.Yields f) (hx : x.Yields g) (ht : t.piece = .alternation)
    {r : Fragment} (hr : f.alternate t g = some r) : (alternation e x t ht).Yields r where
  wellFormed := alternate_wellFormed h.wellFormed hx.wellFormed hr
  toShows := by
    unfold Fragment.alternate at hr
    split at hr
    · exact absurd hr (by simp)
    · obtain rfl := Option.some.inj hr
      cases hfork : f.fork? with
      | none =>
        have he : ¬ e.Forks := by rw [← h.starts.fork?, hfork]; simp
        exact shows_branchOff h hx ht he
      | some fork =>
        have he : e.Forks := by rw [← h.starts.fork?, hfork]; rfl
        exact shows_addBranch h hx ht he fork

theorem Yields.isSome_alternate (hx : x.Yields g) (f : Fragment) (t : Token) :
    (f.alternate t g).isSome ↔ ¬ x.Forks := by
  rw [← hx.starts.fork?]
  unfold Fragment.alternate
  split <;> simp_all

/-! ## Every operation -/

theorem toOption_enclose {r : Fragment} : (Construction.enclose lexemes t f).toOption = some r ↔
    ∃ last l, t.last = some last ∧ lexemes[last]? = some l ∧ f.enclose t last l.pos = r := by
  unfold Construction.enclose
  cases t.last with
  | none => simp [Except.toOption]
  | some last => cases hl : lexemes[last]? <;> simp [Except.toOption, hl]

theorem yields_of_fragment? (hf : e.fragment? lexemes = some f) : e.Yields f := by
  induction e generalizing f with
  | sentinel =>
    obtain rfl := Option.some.inj hf
    exact yields_sentinel
  | value t v ht =>
    obtain rfl := Option.some.inj hf
    exact yields_value ht
  | quantified e t q ht ih =>
    obtain ⟨g, hg, rfl⟩ := Option.map_eq_some_iff.mp hf
    exact (ih hg).quantify ht
  | group e t ht ih =>
    obtain ⟨g, hg, hf⟩ := Option.bind_eq_some_iff.mp hf
    obtain ⟨last, l, -, -, rfl⟩ := toOption_enclose.mp hf
    exact (ih hg).enclose ht last l.pos
  | concat e x ihe ihx =>
    obtain ⟨g, hg, hf⟩ := Option.bind_eq_some_iff.mp hf
    obtain ⟨r, hr, rfl⟩ := Option.map_eq_some_iff.mp hf
    exact (ihe hg).concat (ihx hr)
  | alternation e x t ht ihe ihx =>
    obtain ⟨g, hg, hf⟩ := Option.bind_eq_some_iff.mp hf
    obtain ⟨r, hr, hf⟩ := Option.bind_eq_some_iff.mp hf
    exact (ihe hg).alternate (ihx hr) ht hf

/-- Which expressions have a fragment. -/
theorem exists_fragment? : (∃ f, e.fragment? lexemes = some f) ↔ e.Builds lexemes := by
  induction e with
  | sentinel => simp [fragment?, Builds]
  | value t v ht => simp [fragment?, Builds]
  | quantified e t q ht ih => simp [fragment?, Builds, ← ih]
  | group e t ht ih =>
    simp only [fragment?, Builds, ← ih, Option.bind_eq_some_iff, toOption_enclose]
    constructor
    · rintro ⟨-, f, hf, last, l, hlast, hl, -⟩
      exact ⟨⟨f, hf⟩, last, hlast, (List.getElem?_eq_some_iff.mp hl).1⟩
    · rintro ⟨⟨f, hf⟩, last, hlast, hl⟩
      exact ⟨_, f, hf, last, _, hlast, List.getElem?_eq_getElem hl, rfl⟩
  | concat e x ihe ihx =>
    simp only [fragment?, Builds, ← ihe, ← ihx, Option.bind_eq_some_iff, Option.map_eq_some_iff]
    constructor
    · rintro ⟨-, f, hf, g, hg, -⟩
      exact ⟨⟨f, hf⟩, g, hg⟩
    · rintro ⟨⟨f, hf⟩, g, hg⟩
      exact ⟨_, f, hf, g, hg, rfl⟩
  | alternation e x t ht ihe ihx =>
    simp only [fragment?, Builds, ← ihe, ← ihx, Option.bind_eq_some_iff]
    constructor
    · rintro ⟨r, f, hf, g, hg, hr⟩
      refine ⟨⟨f, hf⟩, ⟨g, hg⟩, ?_⟩
      rw [← (yields_of_fragment? hg).isSome_alternate f t, hr]
      rfl
    · rintro ⟨⟨f, hf⟩, ⟨g, hg⟩, hx⟩
      rw [← (yields_of_fragment? hg).isSome_alternate f t] at hx
      obtain ⟨r, hr⟩ := Option.isSome_iff_exists.mp hx
      exact ⟨r, f, hf, g, hg, hr⟩

/-! ## Sequences of symbols -/

/-- What construction attaches at the end, unless nothing is left but the one expression. -/
def attach (e : Postfix) : Option Postfix → Postfix
  | none => e
  | some x => .concat e x

/--
A sequence is read as what `first` has become, which is all of it or is followed by one more
expression.
-/
structure Reads (e : Postfix) (x : Option Postfix) (symbols : List Symbol) : Prop where
  notMem : .first ∉ symbols
  eq : .first :: symbols = e.written ++ x.elim [] written

theorem Reads.unique {e' : Postfix} {x x' : Option Postfix} {symbols : List Symbol}
    (h : Reads e x symbols) (h' : Reads e' x' symbols) : e = e' ∧ x = x' := by
  have heq := h.eq.symm.trans h'.eq
  match x, x' with
  | none, none =>
    simp only [Option.elim_none, List.append_nil] at heq
    exact ⟨written_inj heq, rfl⟩
  | none, some x' =>
    simp only [Option.elim_none, Option.elim_some, List.append_nil] at heq
    exact absurd heq written_ne_append
  | some x, none =>
    simp only [Option.elim_none, Option.elim_some, List.append_nil] at heq
    exact absurd heq.symm written_ne_append
  | some x, some x' =>
    obtain ⟨hwritten, rfl⟩ := append_written_inj heq
    exact ⟨written_inj hwritten, rfl⟩

theorem Reads.eq_sentinel_iff {x : Option Postfix} {symbols : List Symbol}
    (h : Reads e x symbols) :
    (symbols = [] ∨ ∃ y : Postfix, y.written = symbols) ↔ e = sentinel := by
  constructor
  · rintro (rfl | ⟨y, rfl⟩)
    · have hempty : Reads sentinel none [] := ⟨by simp, rfl⟩
      exact (h.unique hempty).1
    · have hwhole : Reads sentinel (some y) y.written := ⟨h.notMem, rfl⟩
      exact (h.unique hwhole).1
  · rintro rfl
    have heq : symbols = x.elim [] written := (List.cons.inj h.eq).2
    cases x with
    | none => exact .inl heq
    | some y => exact .inr ⟨y, heq.symm⟩

end Postfix

namespace Construction

open Postfix

variable {lexemes : List Lexeme} {symbols : List Symbol} {stack stack' : List Fragment}

theorem first_notMem_of_run (h : (run lexemes stack symbols).outcome = .ok stack') :
    .first ∉ symbols := by
  induction symbols generalizing stack with
  | nil => exact List.not_mem_nil
  | cons s rest ih =>
    cases hs : step lexemes stack s with
    | error e => simp [run, hs] at h
    | ok r =>
      simp only [run, hs, Built.note] at h
      refine List.not_mem_cons_of_ne_of_not_mem ?_ (ih h)
      rintro rfl
      simp [step] at hs

/-- Symbols that leave at most two fragments have a reading. -/
theorem exists_reads {r : Fragment}
    (h : (run lexemes [firstFragment] symbols).outcome.bind finish = .ok r) :
    ∃ e x f, Reads e x symbols ∧ (e.attach x).fragment? lexemes = some f ∧
      f.concat lastFragment = r := by
  cases hrun : (run lexemes [firstFragment] symbols).outcome with
  | error e => simp [hrun, Except.bind] at h
  | ok stack =>
    have hfinish : finish stack = .ok r := by simpa [hrun, Except.bind] using h
    have hnot := first_notMem_of_run hrun
    have hfold : (.first :: symbols).foldlM (advance lexemes) [] = some stack := by
      rw [List.foldlM_cons]
      show symbols.foldlM (advance lexemes) [firstFragment] = some stack
      rw [foldlM_advance hnot, hrun]
      rfl
    obtain ⟨es, hes, hwritten⟩ := Stacked.foldlM .nil hfold
    match es, stack, hes with
    | [], [], _ => simp [finish] at hfinish
    | [e], [f], .cons he .nil =>
      have hread : Reads e none symbols := ⟨hnot, by simpa [writtenAll] using hwritten.symm⟩
      exact ⟨e, none, f, hread, he, Except.ok.inj hfinish⟩
    | [x, e], [g, f], .cons hx (.cons he .nil) =>
      have hread : Reads e (some x) symbols := ⟨hnot, by simpa [writtenAll] using hwritten.symm⟩
      have hboth : (e.attach (some x)).fragment? lexemes = some (f.concat g) := by
        simp [attach, fragment?, he, hx]
      exact ⟨e, some x, f.concat g, hread, hboth, Except.ok.inj hfinish⟩
    | _ :: _ :: _ :: _, _ :: _ :: _ :: _, _ => simp [finish] at hfinish

/-- Symbols with a reading are turned into what it says. -/
theorem finish_of_reads {e : Postfix} {x : Option Postfix} {f : Fragment} (h : Reads e x symbols)
    (hf : (e.attach x).fragment? lexemes = some f) :
    (run lexemes [firstFragment] symbols).outcome.bind finish = .ok (f.concat lastFragment) := by
  have hfold : (run lexemes [firstFragment] symbols).outcome.toOption =
      (e.written ++ x.elim [] written).foldlM (advance lexemes) [] := by
    rw [← h.eq, List.foldlM_cons]
    exact (foldlM_advance h.notMem).symm
  have hrun : ∀ stack, (e.written ++ x.elim [] written).foldlM (advance lexemes) [] =
      some stack → (run lexemes [firstFragment] symbols).outcome = .ok stack := by
    intro stack hstack
    rw [hstack] at hfold
    cases h : (run lexemes [firstFragment] symbols).outcome <;> simp_all [Except.toOption]
  cases x with
  | none =>
    have he : e.fragment? lexemes = some f := hf
    rw [hrun [f] (by simp [foldlM_written he])]
    rfl
  | some x =>
    obtain ⟨g, hg, hf⟩ := Option.bind_eq_some_iff.mp hf
    obtain ⟨k, hk, rfl⟩ := Option.map_eq_some_iff.mp hf
    rw [hrun [k, g] (by simp [foldlM_written hg, foldlM_written hk])]
    rfl

end Construction

/-- The automata of sequences, by their readings. -/
theorem Automaton.ofSymbols_iff {lexemes : List Lexeme} {symbols : List Symbol} {a : Automaton} :
    (ofSymbols lexemes symbols).outcome = .ok a ↔
      ∃ e x f, Postfix.Reads e x symbols ∧ (e.attach x).fragment? lexemes = some f ∧
        (f.concat Construction.lastFragment).nodes = a.nodes.toList := by
  have hmap : (ofSymbols lexemes symbols).outcome = .ok a ↔
      ∃ r : Fragment, (Construction.run lexemes [Construction.firstFragment] symbols).outcome.bind
        Construction.finish = .ok r ∧ r.nodes = a.nodes.toList := by
    obtain ⟨nodes⟩ := a
    simp only [ofSymbols]
    cases (Construction.run lexemes [Construction.firstFragment] symbols).outcome.bind
      Construction.finish with
    | error err => simp [Except.map]
    | ok r =>
      simp only [Except.map, Except.ok.injEq, Automaton.mk.injEq, exists_eq_left']
      rw [← Array.toList_inj]
  rw [hmap]
  constructor
  · rintro ⟨r, hr, hnodes⟩
    obtain ⟨e, x, f, hread, hf, rfl⟩ := Construction.exists_reads hr
    exact ⟨e, x, f, hread, hf, hnodes⟩
  · rintro ⟨e, x, f, hread, hf, hnodes⟩
    exact ⟨_, Construction.finish_of_reads hread hf, hnodes⟩

namespace Postfix

open Fragment Node

variable {e : Postfix} {f : Fragment}

theorem nodes_concat_last (f : Fragment) :
    ∃ n, (f.concat Construction.lastFragment).nodes =
      leadTo f.nodes.length f.terminals f.nodes ++ [n] ∧ n.kind = .last ∧ n.next = [] :=
  ⟨_, rfl, rfl, rfl⟩

theorem Yields.head_concat_last (h : e.Yields f) :
    (f.concat Construction.lastFragment).nodes.head?.map (·.kind) = some e.entry := by
  obtain ⟨last, hnodes, -⟩ := nodes_concat_last f
  obtain ⟨n, hn, hhead⟩ := (h.starts.leadTo h.pos f.terminals).append [last]
  rw [hnodes, hn, Option.map_some, hhead.kind]

theorem Yields.edges_concat_last (h : e.Yields f) :
    (∀ o ∈ edges (f.concat Construction.lastFragment).nodes,
      ∃ j < (f.concat Construction.lastFragment).nodes.length, o = some j) ↔ ¬ e.Loses := by
  obtain ⟨last, hnodes, -, hnext⟩ := nodes_concat_last f
  have hedges : edges (f.concat Construction.lastFragment).nodes =
      edges (leadTo f.nodes.length f.terminals f.nodes) := by
    rw [hnodes, edges_append, edges_cons, hnext, edges_nil, List.nil_append, List.append_nil]
  have hlength : (f.concat Construction.lastFragment).nodes.length = f.nodes.length + 1 := by
    rw [hnodes, List.length_append, length_leadTo, List.length_singleton]
  rw [hedges, hlength, ← h.loses, ← none_mem_edges_leadTo]
  constructor
  · intro hall hnone
    obtain ⟨j, -, hj⟩ := hall none hnone
    simp at hj
  · intro hnone o ho
    cases o with
    | none => exact absurd ho hnone
    | some j =>
      refine ⟨j, ?_, rfl⟩
      rcases mem_edges_leadTo.mp ho with ho | ⟨ho, -⟩
      · exact Nat.lt_succ_of_lt (h.bound j ho)
      · obtain rfl := Option.some.inj ho
        exact Nat.lt_succ_self _

end Postfix

/--
What construction makes of any sequence of symbols. It accepts those that, behind `first`, are one
or two postfix expressions in which no alternation has a fork on its right. What the automaton
starts with is told by the expression that `first` is read in: it is `first` itself unless an
operator in front of its operand took it. All edges lead to nodes unless an alternation took over a
fork to which an edge leads back. The sequence is empty or an expression of its own if and only if
no operator took `first`.
-/
theorem construction_of_sequence (lexemes : List Lexeme) (symbols : List Symbol) :
    ((∃ a, (Automaton.ofSymbols lexemes symbols).outcome = .ok a) ↔
      ∃ e x, Postfix.Reads e x symbols ∧ (e.attach x).Builds lexemes) ∧
    ∀ a e x, (Automaton.ofSymbols lexemes symbols).outcome = .ok a → Postfix.Reads e x symbols →
      a.nodes.toList.head?.map (·.kind) = some e.entry ∧
      a.nodes.toList.getLast?.map (·.kind) = some .last ∧
      ((∀ o ∈ Node.edges a.nodes.toList, ∃ j < a.nodes.size, o = some j) ↔
        ¬ (e.attach x).Loses) ∧
      ((symbols = [] ∨ ∃ y : Postfix, y.written = symbols) ↔ e = .sentinel) := by
  refine ⟨⟨?_, ?_⟩, ?_⟩
  · rintro ⟨a, ha⟩
    obtain ⟨e, x, f, hread, hf, -⟩ := Automaton.ofSymbols_iff.mp ha
    exact ⟨e, x, hread, Postfix.exists_fragment?.mp ⟨f, hf⟩⟩
  · rintro ⟨e, x, hread, hbuilds⟩
    obtain ⟨f, hf⟩ := Postfix.exists_fragment?.mpr hbuilds
    exact ⟨⟨_⟩, Automaton.ofSymbols_iff.mpr ⟨e, x, f, hread, hf, rfl⟩⟩
  · intro a e x ha hread
    obtain ⟨e', x', f, hread', hf, hnodes⟩ := Automaton.ofSymbols_iff.mp ha
    obtain ⟨rfl, rfl⟩ := hread'.unique hread
    have hyields := Postfix.yields_of_fragment? hf
    obtain ⟨last, hlast, hkind, -⟩ := Postfix.nodes_concat_last f
    have hentry : (e'.attach x').entry = e'.entry := by cases x' <;> rfl
    rw [← Array.length_toList, ← hnodes]
    refine ⟨?_, ?_, hyields.edges_concat_last, hread.eq_sentinel_iff⟩
    · rw [hyields.head_concat_last, hentry]
    · rw [hlast, List.getLast?_append, List.getLast?_singleton, Option.some_or, Option.map_some,
        hkind]

/--
Of a star alone, `first` is the operand. Of three branches of which the first two are repeated
together, the edge of the repetition has lost the fork.
-/
theorem construction_of_malformed_sequence :
    (Automaton.ofSymbols (Analysis.ofSource ['*']).lexemes
      ((Analysis.ofSource ['*']).tokens.map .token)).outcome.toOption.map
        (fun a => a.nodes.toList.head?.map (·.kind)) = some (some (.piece (.quantifier .star))) ∧
    (Automaton.ofSymbols (Analysis.ofSource "a|b+|c".toList).lexemes
      ([0, 2, 1, 3, 5, 4].filterMap fun i =>
        ((Analysis.ofSource "a|b+|c".toList).tokens[i]?).map .token)).outcome.toOption.map
        (fun a => Node.edges a.nodes.toList) =
          some [some 1, some 2, some 3, some 5, some 4, some 4, none, some 6, some 6] := by
  decide +kernel

end RegexDiagram
