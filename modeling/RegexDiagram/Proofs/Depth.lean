import RegexDiagram.Json.Reader

/-!
How deep documents are nested, and what a limit does to the reading of them. A step of the reader
needs a place on the stack only if it opens a container, and keeps account of the most containers
that have been open at once. At the end of a document that is its depth. So a document is read just
as without a limit if it is not deeper than the limit, and otherwise ends the reading as too deep.
-/
namespace RegexDiagram.Json

/-! ## Depth -/

mutual

/-- The greatest number of containers inside each other that a value consists of. -/
def depth : Json → Nat
  | null => 0
  | bool _ => 0
  | number _ => 0
  | string _ => 0
  | array items => depthItems items + 1
  | object fields => depthFields fields + 1

def depthItems : List Json → Nat
  | [] => 0
  | item :: items => max item.depth (depthItems items)

def depthFields : List (String × Json) → Nat
  | [] => 0
  | (_, value) :: fields => max value.depth (depthFields fields)

end

theorem depthItems_append (xs ys : List Json) :
    depthItems (xs ++ ys) = max (depthItems xs) (depthItems ys) := by
  induction xs with
  | nil => simp [depthItems]
  | cons x xs ih => rw [List.cons_append, depthItems, depthItems, ih, Nat.max_assoc]

theorem depthItems_reverse (items : List Json) : depthItems items.reverse = depthItems items := by
  induction items with
  | nil => rfl
  | cons item items ih =>
    rw [List.reverse_cons, depthItems_append, ih, depthItems, depthItems, depthItems, Nat.max_zero,
      Nat.max_comm]

theorem depthFields_eq (fields : List (String × Json)) :
    depthFields fields = depthItems (fields.map Prod.snd) := by
  induction fields with
  | nil => rfl
  | cons field fields ih => rw [depthFields, ih, List.map_cons, depthItems]

theorem depthFields_reverse (fields : List (String × Json)) :
    depthFields fields.reverse = depthFields fields := by
  rw [depthFields_eq, List.map_reverse, depthItems_reverse, depthFields_eq]

/-! ## Open containers -/

namespace Frame

/-- The depth of what a container holds so far. -/
def depth : Frame → Nat
  | array items => depthItems items
  | object fields => depthFields fields
  | field fields _ => depthFields fields

/-- The most containers that have been open at once, as far as the ones on a stack tell. -/
def reach : List Frame → Nat
  | [] => 0
  | f :: stack => max (stack.length + 1 + f.depth) (reach stack)

theorem length_le_reach (stack : List Frame) : stack.length ≤ reach stack := by
  cases stack with
  | nil => exact Nat.zero_le _
  | cons f stack =>
    rw [List.length_cons, reach]
    omega

end Frame

namespace Reader

def frames : Reader → List Frame
  | value stack => stack
  | firstItem stack => .array [] :: stack
  | firstKey stack => .object [] :: stack
  | key fields stack => .object fields :: stack
  | colon fields k stack => .field fields k :: stack
  | separator stack => stack
  | done _ => []

/-- The most containers that have been open at once. -/
def reach : Reader → Nat
  | done j => j.depth
  | r => Frame.reach r.frames

end Reader

/-! ## Limits -/

/-- A limit makes no difference to a reading that needs no more, and ends it otherwise. -/
structure Needs {α : Type} (read : Nat → Except ReadError α) (need : Nat)
    (outcome : Except ReadError α) : Prop where
  enough : ∀ n, need ≤ n → read n = outcome
  short : ∀ n < need, ∃ c, read n = .error (.tooDeep c)
  settled : ∀ c, outcome ≠ .error (.tooDeep c)

namespace Needs

variable {α β : Type} {f : Nat → Except ReadError α} {g : Nat → α → Except ReadError β}
  {m k : Nat} {a : α} {e : Except ReadError α} {e' : Except ReadError β} {x : ReadError}

theorem ok (a : α) : Needs (fun _ => .ok a) 0 (.ok a) where
  enough _ _ := rfl
  short _ h := absurd h (Nat.not_lt_zero _)
  settled _ := by simp

theorem malformed : Needs (fun _ => (.error .malformed : Except ReadError α)) 0
    (.error .malformed) where
  enough _ _ := rfl
  short _ h := absurd h (Nat.not_lt_zero _)
  settled _ := by simp

theorem bind (h : Needs f m (.ok a)) (hg : Needs (g · a) k e') :
    Needs (fun n => (f n).bind (g n)) (max m k) e' where
  enough n hn := by
    rw [h.enough n (by omega)]
    exact hg.enough n (by omega)
  short n hn := by
    by_cases hm : m ≤ n
    · rw [h.enough n hm]
      exact hg.short n (by omega)
    · obtain ⟨c, hc⟩ := h.short n (by omega)
      exact ⟨c, by rw [hc]; rfl⟩
  settled := hg.settled

theorem error (h : Needs f m (.error x)) :
    Needs (fun n => (f n).bind (g n)) m (.error x) where
  enough n hn := by
    rw [h.enough n hn]
    rfl
  short n hn := by
    obtain ⟨c, hc⟩ := h.short n hn
    exact ⟨c, by rw [hc]; rfl⟩
  settled c hc := h.settled c (by rw [Except.error.inj hc])

theorem tooDeep_iff (h : Needs f m e) {n : Nat} :
    (∃ c, f n = .error (.tooDeep c)) ↔ n < m := by
  constructor
  · intro hdeep
    obtain ⟨c, hc⟩ := hdeep
    apply Nat.lt_of_not_le
    intro hle
    exact h.settled c ((h.enough n hle).symm.trans hc)
  · exact h.short n

theorem ok_iff (h : Needs f m e) {n : Nat} : f n = .ok a ↔ e = .ok a ∧ m ≤ n := by
  constructor
  · intro ha
    have hle : m ≤ n := by
      apply Nat.le_of_not_lt
      intro hlt
      obtain ⟨c, hc⟩ := h.short n hlt
      simp [ha] at hc
    exact ⟨(h.enough n hle).symm.trans ha, hle⟩
  · intro ha
    exact (h.enough n ha.2).trans ha.1

end Needs

/-! ## Steps -/

namespace Reader

variable {r : Reader} {stack : List Frame} {opened before : Nat}

/-- Reading on needs a place for at most one container besides those that are open. It keeps account
of the most containers that have been open at once. -/
def Spends (opened before : Nat) (read : Nat → Except ReadError Reader) : Prop :=
  ∃ need outcome, Needs read need outcome ∧ need ≤ opened + 1 ∧
    ∀ r, outcome = .ok r → r.reach = max need before ∧ r.frames.length ≤ opened + 1

theorem spends_malformed : Spends opened before fun _ => .error .malformed :=
  ⟨0, _, .malformed, Nat.zero_le _, by simp⟩

theorem spends_ok (hreach : r.reach = before) (hopened : r.frames.length ≤ opened + 1) :
    Spends opened before fun _ => .ok r := by
  refine ⟨0, _, .ok r, Nat.zero_le _, ?_⟩
  intro r' hr'
  obtain rfl := Except.ok.inj hr'
  exact ⟨by rw [hreach, Nat.zero_max], hopened⟩

theorem spends_complete {j : Json} (hopened : stack.length ≤ opened + 1)
    (hbefore : max (stack.length + j.depth) (Frame.reach stack) = before) :
    Spends opened before fun _ => complete j stack := by
  cases stack with
  | nil =>
    apply spends_ok
    · rw [← hbefore]
      simp [reach, Frame.reach]
    · exact Nat.zero_le _
  | cons f stack =>
    cases f with
    | array items =>
      apply spends_ok
      · rw [← hbefore]
        simp only [reach, frames, Frame.reach, Frame.depth, depthItems, List.length_cons]
        omega
      · exact hopened
    | field fields k =>
      apply spends_ok
      · rw [← hbefore]
        simp only [reach, frames, Frame.reach, Frame.depth, depthFields, List.length_cons]
        omega
      · exact hopened
    | object fields => exact spends_malformed

theorem spends_enter (c : Container) (stack : List Frame) :
    Spends stack.length (Frame.reach stack) (enter · c stack) := by
  refine ⟨stack.length + 1, .ok (Reader.opened c stack), ⟨?_, ?_, ?_⟩, Nat.le_refl _, ?_⟩
  · intro n hn
    exact if_pos hn
  · intro n hn
    exact ⟨c, if_neg (Nat.not_lt.mpr (Nat.le_of_lt_succ hn))⟩
  · simp
  · intro r hr
    obtain rfl := Except.ok.inj hr
    cases c <;>
      simp [Reader.opened, reach, frames, Frame.reach, Frame.depth, depthItems, depthFields]

theorem spends_startValue (stack : List Frame) (l : Lexeme) :
    Spends stack.length (Frame.reach stack) (startValue · stack l) := by
  have hreach : max (stack.length + 0) (Frame.reach stack) = Frame.reach stack :=
    Nat.max_eq_right (Frame.length_le_reach stack)
  cases l with
  | openArray => exact spends_enter .array stack
  | openObject => exact spends_enter .object stack
  | null => exact spends_complete (Nat.le_succ _) hreach
  | bool b => exact spends_complete (Nat.le_succ _) hreach
  | number n => exact spends_complete (Nat.le_succ _) hreach
  | text s => exact spends_complete (Nat.le_succ _) hreach
  | _ => exact spends_malformed

theorem step_firstItem (nesting : Nat) (stack : List Frame) {l : Lexeme} (hl : l ≠ .closeArray) :
    (firstItem stack).step nesting l = startValue nesting (.array [] :: stack) l := by
  cases l with
  | closeArray => exact absurd rfl hl
  | _ => rfl

theorem spends_end {f : Frame} {j : Json} (hj : j.depth = f.depth + 1) :
    Spends (f :: stack).length (Frame.reach (f :: stack)) fun _ => complete j stack := by
  apply spends_complete
  · rw [List.length_cons]
    omega
  · rw [Frame.reach, hj]
    omega

theorem spends_separator (stack : List Frame) (l : Lexeme) :
    Spends stack.length (Frame.reach stack) ((separator stack).step · l) := by
  cases stack with
  | nil => exact spends_malformed
  | cons f stack =>
    cases f with
    | array items =>
      cases l with
      | comma => exact spends_ok rfl (Nat.le_succ _)
      | closeArray => exact spends_end (by rw [Json.depth, depthItems_reverse, Frame.depth])
      | _ => exact spends_malformed
    | object fields =>
      cases l with
      | comma => exact spends_ok rfl (Nat.le_succ _)
      | closeObject => exact spends_end (by rw [Json.depth, depthFields_reverse, Frame.depth])
      | _ => exact spends_malformed
    | field fields k => exact spends_malformed

theorem spends_step (r : Reader) (l : Lexeme) :
    Spends r.frames.length r.reach (r.step · l) := by
  cases r with
  | value stack => exact spends_startValue stack l
  | firstItem stack =>
    by_cases hl : l = .closeArray
    · subst hl
      exact spends_end (f := .array []) rfl
    · simp only [step_firstItem _ _ hl]
      exact spends_startValue (.array [] :: stack) l
  | firstKey stack =>
    cases l with
    | closeObject => exact spends_end (f := .object []) rfl
    | text s => exact spends_ok rfl (Nat.le_succ _)
    | _ => exact spends_malformed
  | key fields stack =>
    cases l with
    | text s => exact spends_ok rfl (Nat.le_succ _)
    | _ => exact spends_malformed
  | colon fields k stack =>
    cases l with
    | colon => exact spends_ok rfl (Nat.le_succ _)
    | _ => exact spends_malformed
  | separator stack => exact spends_separator stack l
  | done j => exact spends_malformed

/-- What a whole run needs is the most containers that are open at once on its way. -/
theorem exists_needs_run (r : Reader) (ls : List Lexeme) :
    ∃ need outcome, Needs (r.run · ls) need outcome ∧ need ≤ r.frames.length + ls.length ∧
      ∀ r', outcome = .ok r' → r'.reach = max need r.reach := by
  induction ls generalizing r with
  | nil =>
    refine ⟨0, _, .ok r, Nat.zero_le _, ?_⟩
    intro r' hr'
    rw [← Except.ok.inj hr', Nat.zero_max]
  | cons l ls ih =>
    obtain ⟨m, outcome, hstep, hm, hreach⟩ := spends_step r l
    cases outcome with
    | error x =>
      refine ⟨m, _, hstep.error, ?_, by simp⟩
      rw [List.length_cons]
      omega
    | ok r' =>
      obtain ⟨hreach, hopened⟩ := hreach r' rfl
      obtain ⟨k, outcome, hrun, hk, hreach'⟩ := ih r'
      refine ⟨max m k, outcome, hstep.bind hrun, ?_, ?_⟩
      · rw [List.length_cons]
        omega
      · intro r'' hr''
        rw [hreach' r'' hr'', hreach]
        omega

theorem needs_document (r : Reader) : Needs (fun _ => r.document) 0 r.document := by
  cases r with
  | done j => exact .ok j
  | _ => exact .malformed

end Reader

/-! ## Documents -/

variable {bytes : List UInt8} {nesting : Nat} {j : Json}

/-- A document needs what it is deep. -/
theorem exists_needs_readLexemes (ls : List Lexeme) :
    ∃ need outcome, Needs (readLexemes · ls) need outcome ∧ need ≤ ls.length ∧
      ∀ j, outcome = .ok j → j.depth = need := by
  obtain ⟨m, outcome, hrun, hm, hreach⟩ := (Reader.value []).exists_needs_run ls
  have hlength : m ≤ ls.length := by simpa [Reader.frames] using hm
  cases outcome with
  | error x => exact ⟨m, _, hrun.error, hlength, by simp⟩
  | ok r =>
    have hdocument := hrun.bind r.needs_document
    rw [Nat.max_zero] at hdocument
    refine ⟨m, _, hdocument, hlength, ?_⟩
    intro j hj
    cases r with
    | done j' =>
      obtain rfl := Except.ok.inj hj
      have hdepth : j'.depth = max m (Reader.value []).reach := hreach _ rfl
      have hempty : (Reader.value []).reach = 0 := rfl
      rwa [hempty, Nat.max_zero] at hdepth
    | _ => simp [Reader.document] at hj

theorem exists_needs_readBytes (bytes : List UInt8) :
    ∃ need outcome, Needs (readBytes · bytes) need outcome ∧
      readBytes? bytes = outcome.toOption ∧ ∀ j, outcome = .ok j → j.depth = need := by
  unfold readBytes readBytes? read?
  cases Encoding.text? bytes with
  | none => exact ⟨0, _, .malformed, rfl, by simp⟩
  | some cs =>
    obtain ⟨m, outcome, hneeds, hm, hdepth⟩ := exists_needs_readLexemes (Lexeme.readAll cs)
    exact ⟨m, outcome, hneeds, congrArg Except.toOption (hneeds.enough _ hm), hdepth⟩

/-- What is read with a limit are the documents that are not deeper. -/
theorem readBytes_eq_ok_iff :
    readBytes nesting bytes = .ok j ↔ readBytes? bytes = some j ∧ j.depth ≤ nesting := by
  obtain ⟨need, outcome, hneeds, hread, hdepth⟩ := exists_needs_readBytes bytes
  rw [hneeds.ok_iff, hread]
  cases outcome with
  | error x => simp [Except.toOption]
  | ok j' =>
    rw [← hdepth j' rfl, Except.ok.injEq, Except.toOption, Option.some.injEq]
    constructor
    · intro h
      exact ⟨h.1, h.1 ▸ h.2⟩
    · intro h
      exact ⟨h.1, h.1 ▸ h.2⟩

/-- A document is too deep if it is deeper than the limit. -/
theorem readBytes_tooDeep_iff (h : readBytes? bytes = some j) :
    (∃ c, readBytes nesting bytes = .error (.tooDeep c)) ↔ nesting < j.depth := by
  obtain ⟨need, outcome, hneeds, hread, hdepth⟩ := exists_needs_readBytes bytes
  rw [hneeds.tooDeep_iff]
  cases outcome with
  | error x => simp [hread, Except.toOption] at h
  | ok j' =>
    obtain rfl : j' = j := Option.some.inj (hread.symm.trans h)
    rw [hdepth j' rfl]

end RegexDiagram.Json
