/-!
Sets of node positions, for marking the nodes that a walk has visited.
-/
namespace RegexDiagram

/-- A set of numbers, one bit for each. -/
structure NodeSet where
  bits : Nat := 0
deriving DecidableEq

namespace NodeSet

def contains (s : NodeSet) (i : Nat) : Bool := s.bits.testBit i

def insert (s : NodeSet) (i : Nat) : NodeSet := ⟨s.bits ||| 1 <<< i⟩

/-- How many of the first `n` numbers are not in the set. -/
def missing (n : Nat) (s : NodeSet) : Nat := (List.range n).countP fun i => !s.contains i

@[simp] theorem contains_empty (i : Nat) : contains {} i = false := by simp [contains]

@[simp] theorem contains_insert (s : NodeSet) (i j : Nat) :
    (s.insert i).contains j = (decide (i = j) || s.contains j) := by
  simp [contains, insert, Nat.one_shiftLeft, Nat.testBit_or, Nat.testBit_two_pow, Bool.or_comm]

theorem missing_insert_le (n : Nat) (s : NodeSet) (i : Nat) :
    (s.insert i).missing n ≤ s.missing n :=
  List.countP_mono_left fun j _ h => by simp at h ⊢; exact h.2

theorem missing_succ (n : Nat) (s : NodeSet) :
    s.missing (n + 1) = s.missing n + if s.contains n then 0 else 1 := by
  cases h : s.contains n <;> simp [missing, List.range_succ, h]

theorem missing_insert_lt {n i : Nat} {s : NodeSet} (hi : i < n) (hs : s.contains i = false) :
    (s.insert i).missing n < s.missing n := by
  induction n with
  | zero => omega
  | succ n ih =>
    rw [missing_succ, missing_succ, contains_insert]
    by_cases hn : i = n
    · have hle := missing_insert_le n s i
      simp [← hn, hs] at hle ⊢
      omega
    · have hlt := ih (by omega)
      simp only [hn, decide_false, Bool.false_or]
      omega

end NodeSet
end RegexDiagram
