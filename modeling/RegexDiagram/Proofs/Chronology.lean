import RegexDiagram.Proofs.Blame
import RegexDiagram.Proofs.BracketReading

/-!
In which order defects are reported. What is reported of a token when it is its turn comes in the
order of the source. Groups that are not closed are reported at the end, the innermost first, so
their positions go down. An alternation without a right operand is reported only when its level
ends, but by then the levels around it have a value behind their last alternation, and none of those
is reported any more; so these positions go up as well.
-/
namespace RegexDiagram

open Diagnostic

namespace Finding

/-- The positions of the findings of a category. -/
def positions (c : Category) (fs : List Finding) : List Nat :=
  (fs.filter (·.category = c)).map (·.pos)

variable {c : Category} {fs : List Finding}

@[simp] theorem positions_nil (c : Category) : positions c [] = [] := rfl

@[simp] theorem positions_append (c : Category) (fs gs : List Finding) :
    positions c (fs ++ gs) = positions c fs ++ positions c gs := by
  simp [positions]

theorem positions_single (f : Finding) : positions f.category [f] = [f.pos] := by
  simp [positions]

theorem positions_sublist (c : Category) (fs : List Finding) :
    (positions c fs).Sublist (fs.map (·.pos)) :=
  List.filter_sublist.map _

theorem positions_eq_nil {cs : List Category} (h : ∀ f ∈ fs, f.category ∈ cs) (hc : c ∉ cs) :
    positions c fs = [] := by
  unfold positions
  rw [List.map_eq_nil_iff, List.filter_eq_nil_iff]
  intro f hf heq
  have hmem := h f hf
  rw [decide_eq_true_iff] at heq
  rw [heq] at hmem
  exact hc hmem

theorem positions_single_eq_nil {cs : List Category} {f : Finding} (hc : c ∈ cs)
    (hf : f.category ∉ cs) : positions c [f] = [] := by
  have hsingle : ∀ g ∈ [f], g.category ∈ [f.category] := by simp
  refine positions_eq_nil hsingle ?_
  intro hmem
  obtain rfl := List.mem_singleton.mp hmem
  exact hf hc

end Finding

/-! ## The row that validation goes through -/

/-- A row as balancing leaves it: the tokens of the source in their order, and closing parentheses
that were added. -/
structure Token.Row (ts : List Token) : Prop where
  inOrder : ts.Pairwise fun t u => u.added = false → t.pos < u.pos
  closing : ∀ t ∈ ts, t.added = true → t.piece = .groupClose

namespace Token.Row

variable {t : Token} {ts us left : List Token}

theorem of_cons (h : Row (t :: ts)) : (∀ u ∈ ts, u.added = false → t.pos < u.pos) ∧
    (t.added = true → t.piece = .groupClose) ∧ Row ts := by
  obtain ⟨hfirst, hrest⟩ := List.pairwise_cons.mp h.inOrder
  obtain ⟨ht, hts⟩ := List.forall_mem_cons.mp h.closing
  exact ⟨hfirst, ht, hrest, hts⟩

theorem positions (h : Row ts) : ((ts.filter (!·.added)).map Token.pos).Pairwise (· < ·) := by
  refine List.pairwise_map.mpr ((h.inOrder.filter _).imp_of_mem fun {t u} _ hu hlt => hlt ?_)
  simpa using (List.mem_filter.mp hu).2

theorem invalidate (h : Row ts) (places : List Nat) : Row (EmptyOperands.invalidate places ts) := by
  have hsame {i : Nat} (hi : i < ts.length) :
      (if places.contains i then ts[i].invalidate else ts[i]).pos = ts[i].pos ∧
        (if places.contains i then ts[i].invalidate else ts[i]).added = ts[i].added ∧
        (if places.contains i then ts[i].invalidate else ts[i]).piece = ts[i].piece := by
    split <;> exact ⟨rfl, rfl, rfl⟩
  constructor
  · apply List.pairwise_iff_getElem.mpr
    intro i j hi hj hij hadded
    rw [EmptyOperands.invalidate, List.length_mapIdx] at hi hj
    simp only [EmptyOperands.invalidate, List.getElem_mapIdx, hsame hi, hsame hj] at hadded ⊢
    exact List.pairwise_iff_getElem.mp h.inOrder i j hi hj hij hadded
  · intro t ht hadded
    obtain ⟨i, hi, rfl⟩ := List.mem_mapIdx.mp ht
    rw [(hsame hi).2.1] at hadded
    rw [(hsame hi).2.2]
    exact h.closing _ (List.getElem_mem hi) hadded

end Token.Row

/-! ## What is reported of a token when it is its turn -/

theorem Groups.sublist_balance (opened ts : List Token) :
    ((balance opened ts).2.map (·.pos)).Sublist (ts.map Token.pos) := by
  fun_induction balance opened ts with
  | case1 opened => exact .slnil
  | case3 t ts hp ih => exact ih.cons_cons t.pos
  | _ =>
    rename_i ih
    exact ih.cons _

theorem QuantifierChains.sublist_fold {ts : List Token} (h : Token.Row ts)
    (q : Option Quantifier) :
    ((fold q ts).findings.map (·.pos)).Sublist ((ts.filter (!·.added)).map Token.pos) := by
  fun_induction fold q ts with
  | case1 => exact .slnil
  | case3 t ts ht r q hp rest ih =>
    obtain ⟨-, hclosing, hts⟩ := h.of_cons
    have hadded : t.added = false := by
      by_contra hadded
      simp [hclosing (by simpa using hadded)] at hp
    rw [List.filter_cons_of_pos (by simp [hadded])]
    exact (ih hts).cons_cons t.pos
  | _ =>
    rename_i ih
    obtain ⟨-, -, hts⟩ := h.of_cons
    rw [List.filter_cons]
    split
    · exact (ih hts).cons _
    · exact ih hts

namespace EmptyOperands

open Finding

variable {c : Category} {p : Placed} {s : Search} {l : Level} {g : Group} {ts : List Token}
  {r : Search × Verdict} {v : Verdict} {place : Nat}

/-! ### What one token may lead to -/

theorem Level.findings_ending (l : Level) : l.ending.findings = [] ∨
    ∃ a, l.alternation = some a ∧ l.termEmpty = true ∧
      l.ending.findings = [.alternationBeforeNothing a.token] := by
  unfold ending
  split
  · rename_i a ha
    split
    · rename_i hempty
      exact .inr ⟨a, ha, hempty, rfl⟩
    · exact .inl rfl
  · exact .inl rfl

theorem Level.findings_see (l : Level) (p : Placed) : (l.see p).2.findings = [] ∨
    p.token.piece ≠ .groupClose ∧ ((l.see p).2.findings = [.alternationAfterNothing p.token] ∨
      (l.see p).2.findings = [.quantifierOfNothing p.token]) := by
  unfold see
  split
  · exact .inl rfl
  · split
    · exact .inl rfl
    · rename_i hp
      split
      · exact .inr ⟨by simp [hp], .inl rfl⟩
      · exact .inl rfl
    · rename_i hp
      split
      · exact .inr ⟨by simp [hp], .inr rfl⟩
      · exact .inl rfl
    · exact .inl rfl

theorem Group.findings_verdict (g : Group) (content : Level) (p : Placed) :
    (g.verdict content p).findings = [] ∨
      p.token.added = false ∧
        (g.verdict content p).findings = [.emptyGroup g.opening.token p.token] ∨
      p.token.added = true ∧
        ((g.verdict content p).findings = [.emptyOpenGroup g.opening.token] ∨
          (g.verdict content p).findings = [.openGroup g.opening.token]) := by
  unfold verdict
  cases p.token.added <;> cases content.exprEmpty <;> simp

/-- What a step does: it enters a group, it leaves one, or it stays on its level. -/
theorem Search.step_cases (hr : s.step p = some r) :
    (p.token.piece = .groupOpen ∧ r.1 = ⟨{}, ⟨p, s.level⟩ :: s.groups⟩ ∧ r.2.findings = []) ∨
    (∃ g, s.groups = g :: r.1.groups ∧ r.1.level = g.resume s.level ∧
      r.2.findings = (g.verdict s.level p).findings ++ s.level.ending.findings) ∨
    r.1 = ⟨(s.level.see p).1, s.groups⟩ ∧ r.2.findings = (s.level.see p).2.findings := by
  by_cases ho : p.token.Opens
  · obtain rfl := Option.some.inj ((step_opens s ho).symm.trans hr)
    exact .inl ⟨ho.1, rfl, rfl⟩
  · by_cases hc : p.token.Closes
    · obtain ⟨l, groups⟩ := s
      cases groups with
      | nil => simp [Search.step, hc.1, hc.2] at hr
      | cons g gs =>
        obtain rfl := Option.some.inj ((step_closes l g gs hc).symm.trans hr)
        exact .inr (.inl ⟨g, rfl, rfl, rfl⟩)
    · obtain rfl := Option.some.inj ((step_leaf s ho hc).symm.trans hr)
      exact .inr (.inr ⟨rfl, rfl⟩)

theorem Search.run_cons {t : Token} (hv : s.run place (t :: ts) = some v) :
    ∃ r w, s.step ⟨place, t⟩ = some r ∧ r.1.run (place + 1) ts = some w ∧
      v.findings = r.2.findings ++ w.findings := by
  simp only [run, Option.bind_eq_some_iff, Option.map_eq_some_iff] at hv
  obtain ⟨r, hr, w, hw, rfl⟩ := hv
  exact ⟨r, w, hr, hw, findings_append r.2 w⟩

theorem Search.run_nil (hv : s.run place [] = some v) : v = s.level.ending := by
  simpa [run] using hv.symm

/-! ### Reported at once -/

/-- The categories of defects that the search reports of a token when it is its turn. -/
def promptCategories : List Category :=
  [.alternationAfterNothing, .quantifierOfNothing, .emptyGroup]

/-- The position of a token, if it is one of the source. -/
def Placed.site (p : Placed) : List Nat := ([p.token].filter (!·.added)).map Token.pos

theorem Placed.site_of_source (h : p.token.added = false) : p.site = [p.token.pos] := by
  simp [site, h]

theorem Level.prompt_ending (l : Level) (hc : c ∈ promptCategories) :
    positions c l.ending.findings = [] := by
  rcases l.findings_ending with h | ⟨a, -, -, h⟩
  · rw [h, positions_nil]
  · rw [h]
    exact positions_single_eq_nil hc (by simp [promptCategories, alternationBeforeNothing])

theorem Search.prompt_step (hclosing : p.token.added = true → p.token.piece = .groupClose)
    (hr : s.step p = some r) (hc : c ∈ promptCategories) :
    (positions c r.2.findings).Sublist p.site := by
  have hnone : (positions c []).Sublist p.site := List.nil_sublist _
  have hone {f : Finding} (hf : f.pos = p.token.pos) (hadded : p.token.added = false) :
      (positions c [f]).Sublist p.site := by
    rw [Placed.site_of_source hadded, ← hf]
    exact positions_sublist c [f]
  rcases step_cases hr with ⟨-, -, h⟩ | ⟨g, -, -, h⟩ | ⟨-, h⟩
  · rwa [h]
  · rw [h, positions_append, s.level.prompt_ending hc, List.append_nil]
    rcases g.findings_verdict s.level p with h | ⟨hadded, h⟩ | ⟨-, h | h⟩
    · rwa [h]
    · rw [h]
      exact hone rfl hadded
    · rw [h, positions_single_eq_nil hc (by simp [promptCategories, emptyOpenGroup])]
      exact List.nil_sublist _
    · rw [h, positions_single_eq_nil hc (by simp [promptCategories, openGroup])]
      exact List.nil_sublist _
  · rw [h]
    rcases s.level.findings_see p with h | ⟨hpiece, h⟩
    · rwa [h]
    · have hadded : p.token.added = false := by
        by_contra hadded
        exact hpiece (hclosing (by simpa using hadded))
      rcases h with h | h
      · rw [h]
        exact hone rfl hadded
      · rw [h]
        exact hone rfl hadded

theorem Search.prompt_run (hts : Token.Row ts) (hv : s.run place ts = some v)
    (hc : c ∈ promptCategories) :
    (positions c v.findings).Sublist ((ts.filter (!·.added)).map Token.pos) := by
  induction ts generalizing s place v with
  | nil =>
    rw [run_nil hv, s.level.prompt_ending hc]
    exact .slnil
  | cons t ts ih =>
    obtain ⟨-, hclosing, hts⟩ := hts.of_cons
    obtain ⟨r, w, hr, hw, hfindings⟩ := run_cons hv
    have hsplit : (t :: ts).filter (!·.added) = [t].filter (!·.added) ++ ts.filter (!·.added) := by
      rw [← List.filter_append, List.singleton_append]
    rw [hfindings, positions_append, hsplit, List.map_append]
    exact (prompt_step hclosing hr hc).append (ih hts hw)

/-! ### Reported at the end -/

/-- The categories of defects that the search reports of groups without an end. -/
def openCategories : List Category := [.openGroup, .emptyOpenGroup]

/-- The positions at which the groups open, the innermost first. -/
def Search.openings (s : Search) : List Nat := s.groups.map (·.opening.token.pos)

theorem Level.open_ending (l : Level) (hc : c ∈ openCategories) :
    positions c l.ending.findings = [] := by
  rcases l.findings_ending with h | ⟨a, -, -, h⟩
  · rw [h, positions_nil]
  · rw [h]
    exact positions_single_eq_nil hc (by simp [openCategories, alternationBeforeNothing])

theorem Level.open_see (l : Level) (p : Placed) (hc : c ∈ openCategories) :
    positions c (l.see p).2.findings = [] := by
  rcases l.findings_see p with h | ⟨-, h | h⟩
  · rw [h, positions_nil]
  · rw [h]
    exact positions_single_eq_nil hc (by simp [openCategories, alternationAfterNothing])
  · rw [h]
    exact positions_single_eq_nil hc (by simp [openCategories, quantifierOfNothing])

theorem Group.open_verdict (g : Group) (content : Level) (p : Placed) (hc : c ∈ openCategories) :
    (positions c (g.verdict content p).findings).Sublist [g.opening.token.pos] ∧
      (p.token.added = false → positions c (g.verdict content p).findings = []) := by
  have hone {f : Finding} (hf : f.pos = g.opening.token.pos) :
      (positions c [f]).Sublist [g.opening.token.pos] := by
    rw [← hf]
    exact positions_sublist c [f]
  rcases g.findings_verdict content p with h | ⟨-, h⟩ | ⟨hadded, h⟩
  · rw [h]
    exact ⟨List.nil_sublist _, fun _ => rfl⟩
  · rw [h, positions_single_eq_nil hc (by simp [openCategories, emptyGroup])]
    exact ⟨List.nil_sublist _, fun _ => rfl⟩
  · refine ⟨?_, fun hsource => by simp [hadded] at hsource⟩
    rcases h with h | h
    · rw [h]
      exact hone rfl
    · rw [h]
      exact hone rfl

/-- A step reports that a group has no end only when it leaves the group. -/
theorem Search.open_step (hr : s.step p = some r) (hc : c ∈ openCategories) :
    (p.token.piece = .groupOpen ∧ positions c r.2.findings = [] ∧
      r.1.openings = p.token.pos :: s.openings) ∨
    (positions c r.2.findings ++ r.1.openings).Sublist s.openings ∧
      (p.token.added = false → positions c r.2.findings = []) := by
  rcases step_cases hr with ⟨hp, hgroups, h⟩ | ⟨g, hgroups, -, h⟩ | ⟨hgroups, h⟩
  · refine .inl ⟨hp, ?_, ?_⟩
    · rw [h, positions_nil]
    · rw [hgroups]
      rfl
  · obtain ⟨hverdict, hsource⟩ := g.open_verdict s.level p hc
    rw [h, positions_append, s.level.open_ending hc, List.append_nil]
    have hopenings : s.openings = [g.opening.token.pos] ++ r.1.openings := by
      rw [openings, hgroups]
      rfl
    rw [hopenings]
    exact .inr ⟨hverdict.append (List.Sublist.refl _), hsource⟩
  · rw [h, s.level.open_see p hc, hgroups]
    exact .inr ⟨List.Sublist.refl _, fun _ => rfl⟩

theorem Search.open_closings (hts : ∀ t ∈ ts, t.piece = .groupClose)
    (hv : s.run place ts = some v) (hc : c ∈ openCategories) :
    (positions c v.findings).Sublist s.openings := by
  induction ts generalizing s place v with
  | nil =>
    rw [run_nil hv, s.level.open_ending hc]
    exact List.nil_sublist _
  | cons t ts ih =>
    obtain ⟨ht, hts⟩ := List.forall_mem_cons.mp hts
    obtain ⟨r, w, hr, hw, hfindings⟩ := run_cons hv
    rw [hfindings, positions_append]
    rcases open_step hr hc with ⟨hp, -, -⟩ | ⟨hsublist, -⟩
    · simp [ht] at hp
    · exact ((ih hts hw).append_left _).trans hsublist

/-- The groups that are open always stand in the order of the source. -/
theorem Search.open_run {us closings : List Token} (hus : ∀ t ∈ us, t.added = false)
    (hpos : us.Pairwise fun t u => t.pos < u.pos)
    (hclosings : ∀ t ∈ closings, t.piece = .groupClose)
    (hdescending : s.openings.Pairwise (· > ·))
    (hbehind : ∀ t ∈ us, ∀ pos ∈ s.openings, pos < t.pos)
    (hv : s.run place (us ++ closings) = some v) (hc : c ∈ openCategories) :
    (positions c v.findings).Pairwise (· > ·) := by
  induction us generalizing s place v with
  | nil => exact hdescending.sublist (open_closings hclosings hv hc)
  | cons t us ih =>
    obtain ⟨ht, hus⟩ := List.forall_mem_cons.mp hus
    obtain ⟨hfirst, hpos⟩ := List.pairwise_cons.mp hpos
    obtain ⟨hlast, hbehind⟩ := List.forall_mem_cons.mp hbehind
    obtain ⟨r, w, hr, hw, hfindings⟩ := run_cons hv
    rw [hfindings, positions_append]
    rcases open_step hr hc with ⟨-, hnone, hopenings⟩ | ⟨hsublist, hnone⟩
    · rw [hnone, List.nil_append]
      refine ih hus hpos ?_ ?_ hw
      · rw [hopenings]
        exact List.pairwise_cons.mpr ⟨hlast, hdescending⟩
      · intro u hu
        rw [hopenings]
        exact List.forall_mem_cons.mpr ⟨hfirst u hu, hbehind u hu⟩
    · rw [hnone ht, List.nil_append] at hsublist ⊢
      refine ih hus hpos (hdescending.sublist hsublist) ?_ hw
      exact fun u hu pos hpos => hbehind u hu pos (hsublist.subset hpos)

/-! ### Reported when a level ends -/

/-- What a level remembers: an alternation that was kept has a value in front of it, and so has an
alternative that is not empty. -/
structure Level.Sound (l : Level) : Prop where
  alternation : l.alternation.isSome = true → l.exprEmpty = false
  term : l.termEmpty = false → l.exprEmpty = false

/-- If an alternation of a level is reported as it is now, then its position is not below `n`. -/
def Level.Late (n : Nat) (l : Level) : Prop :=
  l.termEmpty = true → ∀ a ∈ l.alternation, n ≤ a.token.pos

/-- So it is on all levels, but around a group that has a value nothing is reported as it is. -/
def Late (n : Nat) : Level → List Group → Prop
  | l, [] => l.Late n
  | l, g :: gs => l.Late n ∧ (l.exprEmpty = true → Late n g.outer gs)

theorem Level.Sound.see (h : l.Sound) (p : Placed) : (l.see p).1.Sound := by
  unfold Level.see
  split
  · exact h
  · split
    · exact ⟨fun _ => rfl, fun _ => rfl⟩
    · split
      · exact h
      · rename_i hterm
        exact ⟨fun _ => h.term (by simpa using hterm), fun hterm' => by simp at hterm'⟩
    · split <;> exact h
    · exact h

theorem Level.Sound.resume {content : Level} (h : g.outer.Sound) : (g.resume content).Sound := by
  constructor
  · intro hsome
    show (g.outer.exprEmpty && content.exprEmpty) = false
    rw [h.alternation hsome, Bool.false_and]
  · intro hterm
    show (g.outer.exprEmpty && content.exprEmpty) = false
    rcases Bool.and_eq_false_iff.mp hterm with hterm | hcontent
    · rw [h.term hterm, Bool.false_and]
    · rw [hcontent, Bool.and_false]

theorem Late.level {n : Nat} {gs : List Group} (h : Late n l gs) : l.Late n := by
  cases gs with
  | nil => exact h
  | cons g gs => exact h.1

/-- On a level with a value it only matters what the level itself remembers. -/
theorem Late.of_value {n : Nat} (gs : List Group) (hvalue : l.exprEmpty = false) (h : l.Late n) :
    Late n l gs := by
  cases gs with
  | nil => exact h
  | cons g gs => exact ⟨h, fun hempty => by simp [hvalue] at hempty⟩

theorem Late.resume {n : Nat} {gs : List Group} (h : Late n l (g :: gs)) :
    Late n (g.resume l) gs := by
  cases hempty : l.exprEmpty with
  | true =>
    have hsame : g.resume l = g.outer := by simp [Group.resume, hempty]
    rw [hsame]
    exact h.2 hempty
  | false =>
    refine .of_value gs (by simp [Group.resume, hempty]) fun hterm => ?_
    simp [Group.resume, hempty] at hterm

/-- Around a level with an alternation nothing is reported as it is. -/
theorem Late.resume_of_alternation (n : Nat) (gs : List Group) (hl : l.Sound)
    (ha : l.alternation.isSome = true) : Late n (g.resume l) gs := by
  have hvalue := hl.alternation ha
  refine .of_value gs (by simp [Group.resume, hvalue]) fun hterm => ?_
  simp [Group.resume, hvalue] at hterm

theorem Late.see {n : Nat} {gs : List Group} (h : Late n l gs) (hl : l.Sound)
    (hp : p.token.piece = .alternation → n ≤ p.token.pos) : Late n (l.see p).1 gs := by
  unfold Level.see
  split
  · exact h
  · split
    · exact .of_value gs rfl fun hterm => by simp at hterm
    · split
      · exact h
      · rename_i hpiece hterm
        refine .of_value gs (hl.term (by simpa using hterm)) fun _ a ha => ?_
        obtain rfl := Option.some.inj ha
        exact hp hpiece
    · split <;> exact h
    · exact h

theorem Search.Remembers.mono {P Q : Placed → Prop} (h : s.Remembers P) (hPQ : ∀ p, P p → Q p) :
    s.Remembers Q where
  level a ha := hPQ a (h.level a ha)
  groups g hg := ⟨hPQ _ (h.groups g hg).opening, fun a ha => hPQ a ((h.groups g hg).outer a ha)⟩

/-- The search waits for the rest of a row: an alternation that is reported from now on stands at
`n` or behind, whether it is one that the search remembers or one of those to come. -/
structure Search.Waits (n : Nat) (ts : List Token) (s : Search) : Prop where
  level : s.level.Sound
  groups : ∀ g ∈ s.groups, g.outer.Sound
  late : Late n s.level s.groups
  behind : s.Remembers fun p => ∀ u ∈ ts, u.added = false → p.token.pos < u.pos
  ahead : ∀ u ∈ ts, u.added = false → n ≤ u.pos

/-- The end of a level reports nothing, or the last alternation. -/
theorem Search.Waits.ending {n : Nat} (h : s.Waits n ts) :
    positions .alternationBeforeNothing s.level.ending.findings = [] ∨
      ∃ a, s.level.alternation = some a ∧ n ≤ a.token.pos ∧
        positions .alternationBeforeNothing s.level.ending.findings = [a.token.pos] := by
  rcases s.level.findings_ending with hnone | ⟨a, ha, hterm, hone⟩
  · exact .inl (by rw [hnone, positions_nil])
  · refine .inr ⟨a, ha, h.late.level hterm a ha, ?_⟩
    rw [hone]
    exact positions_single (alternationBeforeNothing a.token)

theorem Level.positions_see (l : Level) (p : Placed) :
    positions .alternationBeforeNothing (l.see p).2.findings = [] := by
  rcases l.findings_see p with h | ⟨-, h | h⟩ <;> rw [h] <;> rfl

theorem Group.positions_verdict (g : Group) (content : Level) (p : Placed) :
    positions .alternationBeforeNothing (g.verdict content p).findings = [] := by
  rcases g.findings_verdict content p with h | ⟨-, h⟩ | ⟨-, h | h⟩ <;> rw [h] <;> rfl

/-- A step reports at most one alternation, and the search goes on waiting for those behind it. -/
theorem Search.Waits.step {n : Nat} {t : Token} (h : s.Waits n (t :: ts))
    (hts : Token.Row (t :: ts)) (hr : s.step ⟨place, t⟩ = some r) :
    (positions .alternationBeforeNothing r.2.findings = [] ∧ r.1.Waits n ts) ∨
      ∃ m, positions .alternationBeforeNothing r.2.findings = [m] ∧ n ≤ m ∧
        r.1.Waits (m + 1) ts := by
  obtain ⟨hfirst, hclosing, -⟩ := hts.of_cons
  obtain ⟨hahead, hrest⟩ := List.forall_mem_cons.mp h.ahead
  have hbehind := ((h.behind.mono fun p hp u hu => hp u (List.mem_cons_of_mem t hu)).step
    (p := ⟨place, t⟩) hfirst hr).1
  rcases step_cases hr with ⟨-, hsearch, hnone⟩ | ⟨g, hgroups, hlevel, hfindings⟩ |
    ⟨hsearch, hfindings⟩
  · left
    refine ⟨by rw [hnone, positions_nil], ?_⟩
    rw [hsearch] at hbehind ⊢
    refine ⟨⟨fun hsome => by simp at hsome, fun hterm => by simp at hterm⟩,
      List.forall_mem_cons.mpr ⟨h.level, h.groups⟩, ⟨fun _ a ha => by simp at ha, fun _ => h.late⟩,
      hbehind, hrest⟩
  · obtain ⟨hg, hgs⟩ := List.forall_mem_cons.mp (hgroups ▸ h.groups)
    have hsound : r.1.level.Sound := hlevel ▸ hg.resume
    rw [hfindings, positions_append, g.positions_verdict, List.nil_append]
    rcases h.ending with hnone | ⟨a, ha, hle, hone⟩
    · have hlate := h.late
      rw [hgroups] at hlate
      exact .inl ⟨hnone, hsound, hgs, hlevel ▸ hlate.resume, hbehind, hrest⟩
    · have hlate : Late (a.token.pos + 1) r.1.level r.1.groups :=
        hlevel ▸ .resume_of_alternation _ _ h.level (by rw [ha]; rfl)
      refine .inr ⟨a.token.pos, hone, hle, hsound, hgs, hlate, hbehind, fun u hu hadded => ?_⟩
      exact h.behind.level a ha u (List.mem_cons_of_mem t hu) hadded
  · left
    refine ⟨by rw [hfindings, s.level.positions_see], ?_⟩
    rw [hsearch] at hbehind ⊢
    refine ⟨h.level.see _, h.groups, h.late.see h.level fun hp => ?_, hbehind, hrest⟩
    refine hahead ?_
    by_contra hadded
    simp [hclosing (by simpa using hadded)] at hp

theorem Search.Waits.run {n : Nat} (h : s.Waits n ts) (hts : Token.Row ts)
    (hv : s.run place ts = some v) :
    (positions .alternationBeforeNothing v.findings).Pairwise (· < ·) ∧
      ∀ m ∈ positions .alternationBeforeNothing v.findings, n ≤ m := by
  induction ts generalizing s n place v with
  | nil =>
    rw [run_nil hv]
    rcases h.ending with hnone | ⟨a, -, hle, hone⟩
    · rw [hnone]
      exact ⟨.nil, by simp⟩
    · rw [hone]
      exact ⟨List.pairwise_singleton _ _, by simpa using hle⟩
  | cons t ts ih =>
    obtain ⟨r, w, hr, hw, hfindings⟩ := run_cons hv
    obtain ⟨-, -, hrest⟩ := hts.of_cons
    rw [hfindings, positions_append]
    rcases h.step hts hr with ⟨hnone, hwaits⟩ | ⟨m, hone, hle, hwaits⟩
    · rw [hnone]
      exact ih hwaits hrest hw
    · obtain ⟨hpairwise, hlater⟩ := ih hwaits hrest hw
      rw [hone, List.singleton_append]
      refine ⟨List.pairwise_cons.mpr ⟨fun k hk => hlater k hk, hpairwise⟩, fun k hk => ?_⟩
      rcases List.mem_cons.mp hk with rfl | hk
      · exact hle
      · have hlt := hlater k hk
        omega

theorem Search.waits_start (ts : List Token) : Search.Waits 0 ts {} where
  level := ⟨fun hsome => by simp at hsome, fun hterm => by simp at hterm⟩
  groups := by simp
  late := fun _ a ha => by simp at ha
  behind := ⟨fun a ha => by simp at ha, by simp⟩
  ahead _ _ _ := Nat.zero_le _

end EmptyOperands

/-! ## All diagnostics -/

namespace Analysis

theorem length_findings_ofSource (source : List Char) : (ofSource source).findings.length ≤ 1 := by
  cases hfindings : (ofSource source).findings with
  | nil => exact Nat.zero_le 1
  | cons f fs =>
    have hf : f ∈ (ofSource source).findings := by
      rw [hfindings]
      exact List.mem_cons_self
    obtain ⟨t, ht, hunfinished, -⟩ := exists_of_mem_findings hf
    rw [← hfindings, findings_of_isUnfinished ht hunfinished]
    unfold Piece.findings
    split
    · split <;> simp
    · simp
    · simp

theorem row_balanced (source : List Char) :
    ∃ us left : List Token, (Groups.balance [] (ofSource source).tokens).1 =
        us ++ left.map Token.closing ∧ (∀ t ∈ us, t.added = false) ∧
      (us.Pairwise fun t u => t.pos < u.pos) ∧ Token.Row (us ++ left.map Token.closing) := by
  obtain ⟨us, left, hbalance, hus⟩ := Groups.revises_balance [] (ofSource source).tokens
  have hframes : us.map Token.frame = (ofSource source).tokens.map Token.frame := by
    rw [← List.forall₂_eq_eq_eq, List.forall₂_map_left_iff, List.forall₂_map_right_iff]
    exact hus.imp fun u t h => h.frame
  have hsource : ∀ t ∈ us, t.added = false := by
    intro t ht
    obtain ⟨u, hu, hframe⟩ := List.mem_map.mp (hframes ▸ List.mem_map_of_mem ht)
    rw [← (flags_of_mem_ofSource hu).1]
    exact (congrArg (·.2.2.2) hframe).symm
  have hpos : us.Pairwise fun t u => t.pos < u.pos := by
    have hread : ((ofSource source).tokens.map Token.frame).Pairwise fun x y => x.1 < y.1 :=
      List.pairwise_map.mpr ((pairwise_tokens (Piece.readAll source) 0 0).2.imp And.left)
    rwa [← hframes, List.pairwise_map] at hread
  refine ⟨us, left, hbalance, hsource, hpos, ?_, fun t ht hadded => ?_⟩
  · refine List.pairwise_append.mpr ⟨hpos.imp fun {t u} hlt (_ : u.added = false) => hlt, ?_, ?_⟩
    · refine List.pairwise_map.mpr (List.pairwise_of_forall fun o o' hadded => ?_)
      simp [Token.closing] at hadded
    · intro t _ u hu hadded
      obtain ⟨o, -, rfl⟩ := List.mem_map.mp hu
      simp [Token.closing] at hadded
  · rcases List.mem_append.mp ht with ht | ht
    · simp [hsource t ht] at hadded
    · obtain ⟨o, -, rfl⟩ := List.mem_map.mp ht
      rfl

end Analysis

theorem Groups.category_balance (opened ts : List Token) :
    ∀ f ∈ (balance opened ts).2, f.category ∈ [Category.unopenedGroup] := by
  fun_induction balance opened ts with
  | case1 opened => simp
  | case3 t ts hp ih => exact List.forall_mem_cons.mpr ⟨List.mem_singleton_self _, ih⟩
  | _ =>
    rename_i ih
    exact ih

theorem QuantifierChains.category_fold (q : Option Quantifier) (ts : List Token) :
    ∀ f ∈ (fold q ts).findings, f.category ∈ [Category.quantifierChain] := by
  fun_induction fold q ts with
  | case1 => simp
  | case3 t ts ht r q hp rest ih =>
    exact List.forall_mem_cons.mpr ⟨List.mem_singleton_self _, ih⟩
  | _ =>
    rename_i ih
    exact ih

namespace Analysis

open EmptyOperands

variable {source : List Char} {a : Analysis} {row : List Token} {v : Verdict} {c : Category}

/-- A validated source, with the row that balancing leaves and what the search says about it. -/
structure Passes (source : List Char) (a : Analysis) (row : List Token) (v : Verdict) : Prop where
  validated : (ofSource source).validate = some a
  balanced : (Groups.balance [] (ofSource source).tokens).1 = row
  searched : Search.run {} 0 row = some v
  categories : ∀ f ∈ v.findings, f.category ∈ searchCategories
  findings : a.findings = (ofSource source).findings ++
    (Groups.balance [] (ofSource source).tokens).2 ++ v.findings ++
      (QuantifierChains.fold none (invalidate v.places row)).findings

theorem Passes.exist (source : List Char) : ∃ a row v, Passes source a row v := by
  obtain ⟨v, hrun, hsettles, -⟩ := exists_settles (asRead_ofSource source)
  have hsearch : Exact (ofSource source).tokens (fun _ => True) searchCategories v.findings :=
    .of_due (Nat.le_refl _) (hsettles.ledger _)
  let b : Analysis := record { (ofSource source).balanceGroups with
    tokens := invalidate v.places (Groups.balance [] (ofSource source).tokens).1 } v.findings
  have hb : (ofSource source).balanceGroups.dropEmptyOperands = some b :=
    congrArg (Option.map _) hrun
  exact ⟨b.foldQuantifiers, _, v, congrArg (Option.map foldQuantifiers) hb, rfl, hrun,
    fun f hf => hsearch.category_mem hf, rfl⟩

namespace Passes

/-- The positions of a category are reported by one of the passes. -/
theorem positionsOf_eq (h : Passes source a row v) (c : Category) :
    Diagnostic.positionsOf c a.report = Finding.positions c (ofSource source).findings ++
      Finding.positions c (Groups.balance [] (ofSource source).tokens).2 ++
      Finding.positions c v.findings ++
      Finding.positions c (QuantifierChains.fold none (invalidate v.places row)).findings := by
  rw [Analysis.report, Diagnostic.positionsOf_report, ← Finding.positions, h.findings]
  simp only [Finding.positions_append]

theorem positions_read (hc : c ∉ readingCategories) :
    Finding.positions c (ofSource source).findings = [] :=
  Finding.positions_eq_nil (fun _ hf => (exact_ofSource source fun _ => True).category_mem hf) hc

theorem positions_balanced (hc : c ∉ [Category.unopenedGroup]) :
    Finding.positions c (Groups.balance [] (ofSource source).tokens).2 = [] :=
  Finding.positions_eq_nil (Groups.category_balance [] _) hc

theorem positions_searched (h : Passes source a row v) (hc : c ∉ searchCategories) :
    Finding.positions c v.findings = [] :=
  Finding.positions_eq_nil h.categories hc

theorem positions_folded (hc : c ∉ [Category.quantifierChain]) :
    Finding.positions c (QuantifierChains.fold none (invalidate v.places row)).findings = [] :=
  Finding.positions_eq_nil (QuantifierChains.category_fold none _) hc

theorem positionsOf_search (h : Passes source a row v) (hc : c ∈ searchCategories) :
    Diagnostic.positionsOf c a.report = Finding.positions c v.findings := by
  have hothers : ∀ c ∈ searchCategories, c ∉ readingCategories ∧ c ∉ [Category.unopenedGroup] ∧
      c ∉ [Category.quantifierChain] := by decide
  obtain ⟨hread, hbalanced, hfolded⟩ := hothers c hc
  rw [h.positionsOf_eq, positions_read hread, positions_balanced hbalanced,
    positions_folded hfolded, List.append_nil, List.append_nil, List.nil_append]

/-- Reading reports at most once. -/
theorem length_positionsOf_read (h : Passes source a row v) (hc : c ∈ readingCategories) :
    (Diagnostic.positionsOf c a.report).length ≤ 1 := by
  have hothers : ∀ c ∈ readingCategories, c ∉ [Category.unopenedGroup] ∧ c ∉ searchCategories ∧
      c ∉ [Category.quantifierChain] := by decide
  obtain ⟨hbalanced, hsearched, hfolded⟩ := hothers c hc
  rw [h.positionsOf_eq, positions_balanced hbalanced, h.positions_searched hsearched,
    positions_folded hfolded, List.append_nil, List.append_nil, List.append_nil]
  have hle := (Finding.positions_sublist c (ofSource source).findings).length_le
  rw [List.length_map] at hle
  exact Nat.le_trans hle (length_findings_ofSource source)

theorem pairwise_unopened (h : Passes source a row v) :
    (Diagnostic.positionsOf .unopenedGroup a.report).Pairwise (· < ·) := by
  rw [h.positionsOf_eq, positions_read (by decide), h.positions_searched (by decide),
    positions_folded (by decide), List.append_nil, List.append_nil, List.nil_append]
  have htokens : ((ofSource source).tokens.map Token.pos).Pairwise (· < ·) :=
    List.pairwise_map.mpr ((pairwise_tokens (Piece.readAll source) 0 0).2.imp And.left)
  exact htokens.sublist ((Finding.positions_sublist _ _).trans (Groups.sublist_balance [] _))

theorem pairwise_chain (h : Passes source a row v) (hrow : Token.Row row) :
    (Diagnostic.positionsOf .quantifierChain a.report).Pairwise (· < ·) := by
  rw [h.positionsOf_eq, positions_read (by decide), h.positions_searched (by decide),
    positions_balanced (by decide), List.append_nil, List.append_nil, List.nil_append]
  have hfolded := hrow.invalidate v.places
  exact hfolded.positions.sublist
    ((Finding.positions_sublist _ _).trans (QuantifierChains.sublist_fold hfolded none))

end Passes
end Analysis

open Analysis EmptyOperands in
/--
In which order the diagnostics of a category have their positions. Groups without an end come with
the innermost first, so that the positions go down. All others are in the order of the source: what
is reported at once, and also alternations with nothing behind them, which are reported when their
level ends. A bracket expression without an end, or a backslash without a character, is reported at
most once. No position comes twice.
-/
theorem positions_chronological (source : List Char) :
    ∃ a, (ofSource source).validate = some a ∧
      (∀ c, (Diagnostic.positionsOf c a.report).Nodup) ∧
      (∀ c ∈ [Category.unopenedGroup, .alternationAfterNothing, .quantifierOfNothing, .emptyGroup,
          .alternationBeforeNothing, .quantifierChain],
        (Diagnostic.positionsOf c a.report).Pairwise (· < ·)) ∧
      (∀ c ∈ [Category.openGroup, .emptyOpenGroup],
        (Diagnostic.positionsOf c a.report).Pairwise (· > ·)) ∧
      ∀ c ∈ [Category.openBracket, .danglingEscape],
        (Diagnostic.positionsOf c a.report).length ≤ 1 := by
  obtain ⟨us, left, hbalance, hus, hpos, hrow⟩ := row_balanced source
  obtain ⟨a, row, v, h⟩ := Passes.exist source
  obtain rfl : row = us ++ left.map Token.closing := h.balanced.symm.trans hbalance
  have hprompt {c : Category} (hc : c ∈ promptCategories) (hsearch : c ∈ searchCategories) :
      (Diagnostic.positionsOf c a.report).Pairwise (· < ·) := by
    rw [h.positionsOf_search hsearch]
    exact hrow.positions.sublist (Search.prompt_run hrow h.searched hc)
  have hincreasing : ∀ c ∈ [Category.unopenedGroup, .alternationAfterNothing, .quantifierOfNothing,
      .emptyGroup, .alternationBeforeNothing, .quantifierChain],
      (Diagnostic.positionsOf c a.report).Pairwise (· < ·) := by
    simp only [List.forall_mem_cons]
    refine ⟨h.pairwise_unopened, hprompt (by decide) (by decide), hprompt (by decide) (by decide),
      hprompt (by decide) (by decide), ?_, h.pairwise_chain hrow, by simp⟩
    rw [h.positionsOf_search (by decide)]
    exact ((Search.waits_start _).run hrow h.searched).1
  have hdecreasing : ∀ c ∈ [Category.openGroup, .emptyOpenGroup],
      (Diagnostic.positionsOf c a.report).Pairwise (· > ·) := by
    intro c hc
    have hsearch : ∀ c ∈ [Category.openGroup, .emptyOpenGroup], c ∈ searchCategories := by decide
    rw [h.positionsOf_search (hsearch c hc)]
    refine Search.open_run hus hpos (fun t ht => ?_) .nil (by simp [Search.openings]) h.searched hc
    obtain ⟨o, -, rfl⟩ := List.mem_map.mp ht
    rfl
  have hsingle : ∀ c ∈ [Category.openBracket, .danglingEscape],
      (Diagnostic.positionsOf c a.report).length ≤ 1 := fun c hc => h.length_positionsOf_read hc
  refine ⟨a, h.validated, fun c => ?_, hincreasing, hdecreasing, hsingle⟩
  have hone {ps : List Nat} (hps : ps.length ≤ 1) : ps.Nodup := by
    match ps, hps with
    | [], _ => exact List.nodup_nil
    | [p], _ => exact List.nodup_singleton p
  cases c with
  | openBracket => exact hone (hsingle _ (by decide))
  | danglingEscape => exact hone (hsingle _ (by decide))
  | openGroup => exact (hdecreasing _ (by decide)).imp Nat.ne_of_gt
  | emptyOpenGroup => exact (hdecreasing _ (by decide)).imp Nat.ne_of_gt
  | _ => exact (hincreasing _ (by decide)).imp Nat.ne_of_lt

end RegexDiagram
