/-!
# Sets of characters as ranges of code points

A character class of the Unicode standard is given by a table of inclusive ranges in ascending
order. Membership walks the table and stops at the first range that lies above the character.
-/

namespace Reckoner.Text

/-- Whether a code point lies in one of some ascending inclusive ranges. -/
def inRanges (n : Nat) : List (Nat × Nat) → Bool
  | [] => false
  | (low, high) :: rest =>
    if n < low then false
    else if n ≤ high then true
    else inRanges n rest

@[simp] theorem inRanges_nil (n : Nat) : inRanges n [] = false := rfl

/-- A member lies between the ends of some range of the table. -/
theorem exists_range_of_inRanges {n : Nat} {ranges : List (Nat × Nat)}
    (h : inRanges n ranges = true) : ∃ r ∈ ranges, r.1 ≤ n ∧ n ≤ r.2 := by
  induction ranges with
  | nil => simp at h
  | cons r rest ih =>
    obtain ⟨low, high⟩ := r
    rw [inRanges] at h
    split at h
    · simp at h
    · rename_i hlow
      split at h
      · rename_i hhigh
        exact ⟨(low, high), by simp, by simpa using Nat.le_of_not_lt hlow, hhigh⟩
      · obtain ⟨r, hr, hbounds⟩ := ih h
        exact ⟨r, List.mem_cons_of_mem _ hr, hbounds⟩

end Reckoner.Text
