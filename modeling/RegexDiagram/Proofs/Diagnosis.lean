import Mathlib.Data.List.Nodup
import RegexDiagram.Proofs.Chains
import RegexDiagram.Proofs.Repair
import RegexDiagram.Proofs.Report
import RegexDiagram.Proofs.Tokenization

/-!
What the diagnostics mean. Reading and the three passes of validation report, between them, every
defect of a regex, and each one once. So the positions that are given for a category are those of
the tokens that have a defect of it, and nothing at all is reported exactly of well formed regexes.
-/
namespace RegexDiagram

theorem place_unique {α : Type} {ts : List Token} {key : Token → α} (hts : (ts.map key).Nodup)
    {i k : Nat} {t u : Token} (ht : ts[i]? = some t) (hu : ts[k]? = some u) (h : key t = key u) :
    i = k := by
  have hi : i < (ts.map key).length := by simpa using (List.getElem?_eq_some_iff.mp ht).1
  refine (List.getElem?_inj hi hts).mp ?_
  rw [List.getElem?_map, List.getElem?_map, ht, hu, Option.map_some, Option.map_some, h]

/-- The findings report all defects of the categories, each one once. -/
def Exact (ts : List Token) (counts : Nat → Prop) (cs : List Category) (fs : List Finding) : Prop :=
  ∃ places, Ledger ts counts places fs ∧ places.Nodup ∧
    ∀ k, k ∈ places ↔ ∃ c ∈ cs, Defect (ts.map Token.piece) counts k c

namespace Exact

variable {ts : List Token} {counts : Nat → Prop} {cs cs' : List Category} {fs fs' : List Finding}

theorem of_due {n : Nat} (hn : ts.length ≤ n)
    (h : Ledger ts counts (due (ts.map Token.piece) counts cs (List.range' 0 n)) fs) :
    Exact ts counts cs fs := by
  refine ⟨_, h, nodup_due List.nodup_range', fun k => ?_⟩
  rw [mem_due_iff, and_iff_right_iff_imp, List.mem_range'_1]
  rintro ⟨c, -, hd⟩
  have hlt := hd.lt_length
  rw [List.length_map] at hlt
  omega

theorem append (h : Exact ts counts cs fs) (h' : Exact ts counts cs' fs')
    (hcs : ∀ c ∈ cs, c ∉ cs') : Exact ts counts (cs ++ cs') (fs ++ fs') := by
  obtain ⟨places, hledger, hnodup, hmem⟩ := h
  obtain ⟨places', hledger', hnodup', hmem'⟩ := h'
  refine ⟨_, hledger.append hledger', hnodup.append hnodup' fun k hk hk' => ?_, fun k => ?_⟩
  · obtain ⟨c, hc, hd⟩ := (hmem k).mp hk
    obtain ⟨c', hc', hd'⟩ := (hmem' k).mp hk'
    obtain rfl := hd.unique hd'
    exact hcs c hc hc'
  · simp only [List.mem_append, hmem, hmem', or_and_right, exists_or]

theorem category_mem (h : Exact ts counts cs fs) {f : Finding} (hf : f ∈ fs) :
    f.category ∈ cs := by
  obtain ⟨places, ⟨es, hperm, rfl, hes⟩, -, hmem⟩ := h
  obtain ⟨e, he, rfl⟩ := List.mem_map.mp hf
  obtain ⟨c, hc, hd⟩ := (hmem e.1).mp (hperm.mem_iff.mp (List.mem_map_of_mem he))
  rwa [(hes e he).defect.unique hd]

theorem positions (h : Exact ts counts cs fs) (hts : (ts.map Token.pos).Nodup) {c : Category}
    (hc : c ∈ cs) :
    ((fs.filter (·.category = c)).map (·.pos)).Nodup ∧
      ∀ pos, pos ∈ (fs.filter (·.category = c)).map (·.pos) ↔
        ∃ k t, ts[k]? = some t ∧ t.pos = pos ∧ Defect (ts.map Token.piece) counts k c := by
  obtain ⟨places, ⟨es, hperm, rfl, hes⟩, hnodup, hmem⟩ := h
  have hentries := hperm.nodup_iff.mpr hnodup
  refine ⟨?_, fun pos => ⟨fun hpos => ?_, ?_⟩⟩
  · refine (List.filter_sublist.map _).nodup ?_
    rw [List.map_map]
    refine List.pairwise_map.mpr ((List.pairwise_map.mp hentries).imp_of_mem ?_)
    intro e e' he he' hne heq
    obtain ⟨t, ht, hpos, -⟩ := (hes e he).exists_token
    obtain ⟨u, hu, hpos', -⟩ := (hes e' he').exists_token
    exact hne (place_unique hts ht hu (hpos.symm.trans (heq.trans hpos')))
  · obtain ⟨f, hf, rfl⟩ := List.mem_map.mp hpos
    obtain ⟨hf, hcategory⟩ := List.mem_filter.mp hf
    obtain ⟨e, he, rfl⟩ := List.mem_map.mp hf
    have hreports := hes e he
    obtain rfl : e.2.category = c := by simpa using hcategory
    obtain ⟨t, ht, hpos, -⟩ := hreports.exists_token
    exact ⟨e.1, t, ht, hpos.symm, hreports.defect⟩
  · rintro ⟨k, t, ht, rfl, hd⟩
    obtain ⟨e, he, rfl⟩ := List.mem_map.mp (hperm.mem_iff.mpr ((hmem k).mpr ⟨c, hc, hd⟩))
    have hreports := hes e he
    obtain ⟨u, hu, hpos, -⟩ := hreports.exists_token
    obtain rfl := Option.some.inj (ht.symm.trans hu)
    refine List.mem_map.mpr ⟨e.2, List.mem_filter.mpr ⟨List.mem_map_of_mem he, ?_⟩, hpos⟩
    simpa using hreports.defect.unique hd

end Exact

namespace Analysis

open EmptyOperands QuantifierChains

/-- The categories pass by pass. -/
def passCategories : List Category :=
  readingCategories ++ [.unopenedGroup] ++ searchCategories ++ [.quantifierChain]

theorem mem_passCategories (c : Category) : c ∈ passCategories := by
  cases c <;> decide

theorem exists_settles {ts : List Token} (hts : AsRead ts) :
    ∃ v, Search.run {} 0 (Groups.balance [] ts).1 = some v ∧
      v.Settles ts (List.range' 0 ts.length) ∧
      Searched ts (invalidate v.places (Groups.balance [] ts).1) ∧
      ∀ counts, Ledger ts counts (due (ts.map Token.piece) counts [.unopenedGroup]
        (List.range' 0 ts.length)) (Groups.balance [] ts).2 := by
  have hbalances : Groups.Balances ts 0 ts (Groups.balance [] ts) :=
    Groups.balances_balance (Nat.zero_add _) rfl (.zero _) rfl
  obtain ⟨left, stack, htokens, hopened, hlength, hledger⟩ := hbalances
  obtain ⟨v, hrun, hsettles⟩ :=
    (Search.at_zero ts).settles hts List.drop_zero (Nat.zero_add _) hopened hlength
  rw [htokens]
  exact ⟨v, hrun, hsettles, searched_invalidate hts hsettles, hledger⟩

theorem exact_ofSource (source : List Char) (counts : Nat → Prop) :
    Exact (ofSource source).tokens counts readingCategories (ofSource source).findings := by
  have hlength := congrArg List.length (pieces_ofSource source)
  rw [List.length_map] at hlength
  exact .of_due (Nat.le_of_eq hlength) (ledger_ofPieces counts _ 0 0 0 rfl)

/-- Reading, balancing and the search report each defect of their categories once, and then it is
settled what folding reports. -/
theorem exists_dropped (source : List Char) :
    ∃ b, (ofSource source).balanceGroups.dropEmptyOperands = some b ∧
      Searched (ofSource source).tokens b.tokens ∧
      Exact (ofSource source).tokens (Stands b.tokens)
        (readingCategories ++ [.unopenedGroup] ++ searchCategories) b.findings ∧
      (fold none b.tokens).Accounts (ofSource source).tokens b.tokens 0 b.tokens := by
  obtain ⟨v, hrun, hsettles, hsearched, hbalanced⟩ := exists_settles (asRead_ofSource source)
  refine ⟨_, congrArg (Option.map _) hrun, hsearched, ?_, accounts_fold hsearched rfl
    (iff_of_false (by simp) (not_afterQuantifier_zero _ _))⟩
  refine ((exact_ofSource source _).append (.of_due (Nat.le_refl _) (hbalanced _)) ?_).append
    (.of_due (Nat.le_refl _) (hsettles.ledger _)) ?_
  all_goals decide

theorem exact_fold {ts us : List Token} (hsearched : Searched ts us)
    (hfolded : (fold none us).Accounts ts us 0 us) :
    Exact ts (Stands us) [.quantifierChain] (fold none us).findings :=
  .of_due hsearched.length_le hfolded.ledger

/-- Reading and the passes of validation report each defect once. -/
theorem exists_exact (source : List Char) :
    ∃ a us, (ofSource source).validate = some a ∧ Searched (ofSource source).tokens us ∧
      Exact (ofSource source).tokens (Stands us) passCategories a.findings ∧
      (fold none us).Accounts (ofSource source).tokens us 0 us ∧
      a.tokens = (fold none us).tokens := by
  obtain ⟨b, hb, hsearched, hexact, hfolded⟩ := exists_dropped source
  exact ⟨b.foldQuantifiers, b.tokens, congrArg (Option.map foldQuantifiers) hb, hsearched,
    hexact.append (exact_fold hsearched hfolded) (by decide), hfolded, rfl⟩

theorem stands_iff {ts us : List Token} {a : Analysis} {k : Nat} {t : Token}
    (hus : Searched ts us) (hfolded : (fold none us).Accounts ts us 0 us)
    (ha : a.tokens = (fold none us).tokens) (ht : ts[k]? = some t) :
    ∃ w, a.tokens[k]? = some w ∧ w.pos = t.pos ∧ (Stands us k ↔ w.invalid = false ∨
      Defect (ts.map Token.piece) (Stands us) k .quantifierChain) := by
  obtain ⟨u, hu, hsite⟩ := hus.site k t ht
  have hk := congrArg (·[k]?) hfolded.tokens
  simp only [← ha, List.getElem?_map, List.getElem?_zipIdx, hu, Option.map_some,
    Option.map_eq_some_iff, Prod.mk.injEq, Nat.zero_add] at hk
  obtain ⟨w, hw, hpos, hinvalid⟩ := hk
  have hstands : Stands us k ↔ u.invalid = false := by simp [Stands, hu]
  refine ⟨w, hw, hpos.trans (congrArg (·.2.1) hsite), ?_⟩
  by_cases hd : Defect (ts.map Token.piece) (Stands us) k .quantifierChain
  · exact iff_of_true (hstands.mpr ((hus.chained_iff hu).mp hd).1) (.inr hd)
  · simp [hstands, hinvalid, hd]

/-- A token counts for chains of quantifiers if it is left or is itself reported as part of one. -/
def Counts (a : Analysis) (k : Nat) : Prop :=
  ∃ t, a.tokens[k]? = some t ∧
    (t.invalid = false ∨ t.pos ∈ Diagnostic.positionsOf .quantifierChain a.report)

/--
For each category, validation gives the position of every token that has a defect of it, once, and
no other position. Defects are a matter of the pieces of the source and their places; only for
chains of quantifiers it takes the tokens that are left to say what they are.
-/
theorem diagnostics_exact (source : List Char) :
    ∃ a, (ofSource source).validate = some a ∧ ∀ c,
      (Diagnostic.positionsOf c a.report).Nodup ∧
        ∀ pos, pos ∈ Diagnostic.positionsOf c a.report ↔
          ∃ k t, (ofSource source).tokens[k]? = some t ∧ t.pos = pos ∧
            Defect ((ofSource source).tokens.map Token.piece) a.Counts k c := by
  obtain ⟨a, us, ha, hus, hexact, hfolded, htokens⟩ := exists_exact source
  have hts := nodup_positions source
  have hpositions (c : Category) := hexact.positions hts (mem_passCategories c)
  simp only [← Diagnostic.positionsOf_report] at hpositions
  have hcounts (k : Nat) (hk : k < (ofSource source).tokens.length) : Stands us k ↔ a.Counts k := by
    have ht := List.getElem?_eq_getElem hk
    obtain ⟨w, hw, hpos, hstands⟩ := stands_iff hus hfolded htokens ht
    have hchain : w.pos ∈ Diagnostic.positionsOf .quantifierChain a.report ↔
        Defect ((ofSource source).tokens.map Token.piece) (Stands us) k .quantifierChain := by
      refine ((hpositions .quantifierChain).2 w.pos).trans
        ⟨?_, fun hd => ⟨k, _, ht, hpos.symm, hd⟩⟩
      rintro ⟨m, t, hm, hpos', hd⟩
      obtain rfl := place_unique hts hm ht (hpos'.trans hpos)
      exact hd
    rw [hstands, ← hchain]
    simp [Counts, hw]
  refine ⟨a, ha, fun c => ⟨(hpositions c).1, fun pos => ((hpositions c).2 pos).trans ?_⟩⟩
  refine exists_congr fun k => exists_congr fun t => and_congr_right fun ht =>
    and_congr_right fun _ => defect_congr fun m hm => hcounts m ?_
  exact Nat.lt_trans hm (List.getElem?_eq_some_iff.mp ht).1

end Analysis

open Analysis in
/--
Nothing is reported of a regex exactly if it has no bracket expression without an end and no
backslash at its end, and its tokens are none or derive from the grammar.
-/
theorem compile_silent_iff (source : List Char) :
    ∃ c, compile source = .ok c ∧ (c.report = [] ↔
      (∀ t ∈ (ofSource source).tokens, t.piece.isUnfinished = false) ∧
        ((ofSource source).tokens = [] ∨
          Derives .expr ((ofSource source).tokens.map Token.piece))) := by
  obtain ⟨c, a, -, hc, ha, hthrough, -⟩ := exists_stages source
  refine ⟨c, hc, ?_⟩
  rw [Compiled.report_eq_nil_iff, hthrough.findings]
  constructor
  · intro h
    obtain ⟨hfindings, htokens⟩ := tokens_of_silent ha h
    have hvalid : a.valid = (ofSource source).tokens := by
      rw [valid_eq_tokens (htokens ▸ valid_ofSource hfindings), htokens]
    rw [findings_ofSource_eq_nil_iff] at hfindings
    exact ⟨fun t ht => hfindings _ (piece_mem_readAll ht), hvalid ▸ derives_valid ha⟩
  · rintro ⟨hfinished, hderives⟩
    have hfindings : (ofSource source).findings = [] := by
      rw [findings_ofSource_eq_nil_iff, ← pieces_ofSource, List.forall_mem_map]
      exact hfinished
    have hvalidate := validate_of_derives hderives (valid_ofSource hfindings)
      fun t ht => (flags_of_mem_ofSource ht).1
    rw [Option.some.inj (ha.symm.trans hvalidate), hfindings]

end RegexDiagram
