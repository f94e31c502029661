/- Sets of characters as closed ranges of code points that ascend and lie apart.
   `holds_iff` says that looking one up is membership in one of the ranges. -/
namespace Stencil.Text

/-- Ranges of code points, each given by its first and its last. -/
abbrev CodeRanges := List (Nat × Nat)

namespace CodeRanges

/-- Whether the set has the code point `n`: of ascending ranges, the first that
does not end before `n` decides. -/
def holds : CodeRanges → Nat → Bool
  | [], _ => false
  | (first, last) :: rest, n => if n ≤ last then first ≤ n else holds rest n

/-- Whether every range starts at `low` or above, ends after its start, and leaves
a gap to the next. -/
def ascendingFrom (low : Nat) : CodeRanges → Bool
  | [] => true
  | (first, last) :: rest => low ≤ first && first ≤ last && ascendingFrom (last + 2) rest

theorem le_of_ascendingFrom {low : Nat} {ranges : CodeRanges} {r : Nat × Nat}
    (h : ranges.ascendingFrom low = true) (hr : r ∈ ranges) : low ≤ r.1 := by
  induction ranges generalizing low with
  | nil => cases hr
  | cons head rest ih =>
    simp only [ascendingFrom, Bool.and_eq_true, decide_eq_true_eq] at h
    cases hr with
    | head => exact h.1.1
    | tail _ hr =>
      have := ih h.2 hr
      omega

/-- A set has exactly the code points that lie in one of its ranges. -/
theorem holds_iff {low : Nat} {ranges : CodeRanges} (h : ranges.ascendingFrom low = true)
    (n : Nat) : ranges.holds n = true ↔ ∃ r ∈ ranges, r.1 ≤ n ∧ n ≤ r.2 := by
  induction ranges generalizing low with
  | nil => simp [holds]
  | cons head rest ih =>
    simp only [ascendingFrom, Bool.and_eq_true] at h
    unfold holds
    split
    · rename_i hn
      constructor
      · intro hf
        exact ⟨head, List.mem_cons_self, by simpa using hf, hn⟩
      · rintro ⟨r, hr, hlow, hhigh⟩
        cases hr with
        | head => simpa using hlow
        | tail _ hr =>
          have := le_of_ascendingFrom h.2 hr
          omega
    · rename_i hn
      rw [ih h.2]
      constructor
      · rintro ⟨r, hr, hin⟩
        exact ⟨r, List.mem_cons_of_mem _ hr, hin⟩
      · rintro ⟨r, hr, hin⟩
        cases hr with
        | head => exact absurd hin.2 hn
        | tail _ hr => exact ⟨r, hr, hin⟩

end CodeRanges

end Stencil.Text
