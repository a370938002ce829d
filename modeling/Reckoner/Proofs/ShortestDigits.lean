import Reckoner.Proofs.Significant

/-!
# The fewest digits that read back

The decimals that are read as one float are all decimals in an interval around its value. A decimal
of some count of digits in it has, on its side of the value, a neighbour of the value with the same
count of digits, which is in the interval too. So trying the two neighbours for each count finds the
fewest digits that read back, and for this count the decimal nearest to the value. Seventeen digits
are always enough: the interval reaches further than half a unit of the last of them.
-/

-- Powers are those of the core library.
attribute [instance(2000), default_instance(20000)] instPowNat

namespace Reckoner

namespace Exact

variable {x : Exact} {d : Decimal} {n : Nat}

/-! ### What reads back -/

theorem readsBack_iff : x.readsBack d = true ↔ ofFloat? d.toFloat = some x.abs := decide_eq_true_iff

theorem readsBack_of_near (h : x.Canonical)
    (hnear : |d.rational - x.rational| < x.rational / 2 ^ 54) : x.readsBack d = true :=
  readsBack_iff.mpr (ofFloat?_toFloat_of_near h.abs rfl hnear)

theorem readsBack_of_between {low high : Decimal} (hlow : x.readsBack low = true)
    (hhigh : x.readsBack high = true) (hle : low.rational ≤ d.rational)
    (hge : d.rational ≤ high.rational) : x.readsBack d = true := by
  rw [readsBack_iff] at *
  have hsame : low.toFloat = high.toFloat := ofFloat?_inj hlow hhigh
  rw [Decimal.toFloat_eq_of_between rfl hsame.symm hle hge, hlow]

theorem readsBack_allDigits (h : x.Canonical) (hpos : x.significand ≠ 0) :
    x.readsBack x.allDigits = true :=
  readsBack_iff.mpr (ofFloat?_toFloat h.abs rfl hpos x.rational_allDigits)

/-! ### The nearer neighbour -/

section Neighbours

variable (x) (n)

/-- What a value has beside its whole units, as a part of one unit. -/
theorem rational_eq_units :
    x.rational = (x.wholeUnits n + ((x.scaledUp (n - x.leadingPower)).1 %
      (x.scaledUp (n - x.leadingPower)).2 : Nat) / (x.scaledUp (n - x.leadingPower)).2) *
        10 ^ (x.leadingPower - n) := by
  have hten : (10 : Rat) ≠ 0 := by norm_num
  have hbelow : ((x.scaledUp (n - x.leadingPower)).2 : Rat) ≠ 0 := by
    exact_mod_cast (x.scaledUp_pos _).ne'
  have hvalue : x.rational = ((x.scaledUp (n - x.leadingPower)).1 : Rat) /
      (x.scaledUp (n - x.leadingPower)).2 * 10 ^ (x.leadingPower - n) := by
    rw [scaledUp_rational, mul_assoc, ← zpow_add₀ hten, sub_add_sub_cancel, sub_self, zpow_zero,
      mul_one]
  rw [hvalue, wholeUnits]
  congr 1
  have hsplit := Nat.div_add_mod (x.scaledUp (n - x.leadingPower)).1
    (x.scaledUp (n - x.leadingPower)).2
  generalize x.scaledUp (n - x.leadingPower) = fraction at *
  have hcast : (fraction.2 : Rat) * (fraction.1 / fraction.2 : Nat) +
      (fraction.1 % fraction.2 : Nat) = fraction.1 := by exact_mod_cast hsplit
  field_simp
  linarith

/-- A value lies between its neighbours. -/
theorem rational_bounds :
    (x.ofUnits n (x.wholeUnits n)).rational ≤ x.rational ∧
      x.rational < (x.ofUnits n (x.wholeUnits n + 1)).rational := by
  have hunit := ten_zpow_pos (x.leadingPower - n)
  have hbelow := x.scaledUp_pos (n - x.leadingPower)
  have hbelowRat : (0 : Rat) < (x.scaledUp (n - x.leadingPower)).2 := by exact_mod_cast hbelow
  conv => enter [1, 2]; rw [x.rational_eq_units n]
  conv => enter [2, 1]; rw [x.rational_eq_units n]
  rw [rational_ofUnits, rational_ofUnits]
  constructor
  · apply mul_le_mul_of_nonneg_right _ hunit.le
    exact le_add_of_nonneg_right (by positivity)
  · apply mul_lt_mul_of_pos_right _ hunit
    push_cast
    gcongr
    rw [div_lt_one hbelowRat]
    exact_mod_cast Nat.mod_lt _ hbelow

/-- The lower neighbour is the nearer one if less than half a unit is left. -/
theorem lower_nearer_iff :
    2 * x.rational <
        (x.ofUnits n (x.wholeUnits n)).rational + (x.ofUnits n (x.wholeUnits n + 1)).rational ↔
      2 * ((x.scaledUp (n - x.leadingPower)).1 % (x.scaledUp (n - x.leadingPower)).2) <
        (x.scaledUp (n - x.leadingPower)).2 := by
  have hunit := ten_zpow_pos (x.leadingPower - n)
  have hbelowRat : (0 : Rat) < (x.scaledUp (n - x.leadingPower)).2 := by
    exact_mod_cast x.scaledUp_pos (n - x.leadingPower)
  rw [x.rational_eq_units n, rational_ofUnits, rational_ofUnits, ← mul_assoc, ← add_mul,
    mul_lt_mul_iff_of_pos_right hunit]
  generalize x.wholeUnits n = whole
  generalize x.scaledUp (n - x.leadingPower) = fraction at *
  rw [← Nat.cast_lt (α := Rat), Nat.cast_mul, Nat.cast_ofNat, ← div_lt_one hbelowRat]
  push_cast
  constructor
  · intro h
    rw [mul_div_assoc]
    linarith
  · intro h
    rw [mul_div_assoc] at h
    linarith

/-- If a neighbour reads back, something is found, and nothing further away than it. -/
theorem exists_withDigits?_of_neighbour {m : Nat}
    (hm : m = x.wholeUnits n ∨ m = x.wholeUnits n + 1)
    (hreads : x.readsBack (x.ofUnits n m) = true) :
    ∃ d, x.withDigits? (n + 1) = some d ∧
      |d.rational - x.rational| ≤ |(x.ofUnits n m).rational - x.rational| := by
  obtain ⟨hlow, hhigh⟩ := x.rational_bounds n
  have hnearer := x.lower_nearer_iff n
  have hlower : |(x.ofUnits n (x.wholeUnits n)).rational - x.rational| =
      x.rational - (x.ofUnits n (x.wholeUnits n)).rational := by
    rw [abs_of_nonpos (by linarith), neg_sub]
  have hupper : |(x.ofUnits n (x.wholeUnits n + 1)).rational - x.rational| =
      (x.ofUnits n (x.wholeUnits n + 1)).rational - x.rational := abs_of_pos (by linarith)
  rw [withDigits?_eq]
  split
  · refine ⟨_, rfl, ?_⟩
    split
    · rename_i hless
      have := hnearer.mpr hless
      obtain rfl | rfl := hm
      · exact le_rfl
      · rw [hlower, hupper]
        linarith
    · rename_i hmore
      have := not_lt.mp (mt hnearer.mp hmore)
      obtain rfl | rfl := hm
      · rw [hlower, hupper]
        linarith
      · exact le_rfl
  · rename_i hfirst hsecond
    obtain rfl | rfl := hm
    · exact ⟨_, rfl, le_rfl⟩
    · cases hsecond.symm.trans hreads
  · rename_i hfirst hsecond
    obtain rfl | rfl := hm
    · cases hfirst.symm.trans hreads
    · exact ⟨_, rfl, le_rfl⟩
  · rename_i hfirst hsecond
    obtain rfl | rfl := hm
    · cases hfirst.symm.trans hreads
    · cases hsecond.symm.trans hreads

end Neighbours

/-! ### Decimals with few digits -/

/-- A decimal that starts at a smaller power than the units is less than the units of a value. -/
theorem lt_units {c m : Nat} {j unit : Int} (hlt : c < 10 ^ (n + 1)) (hle : 10 ^ n ≤ m)
    (hfine : j < unit) : (c : Rat) * 10 ^ j < m * 10 ^ unit := by
  have hten : (10 : Rat) ≠ 0 := by norm_num
  calc (c : Rat) * 10 ^ j < (10 ^ (n + 1) : Nat) * 10 ^ j :=
        mul_lt_mul_of_pos_right (by exact_mod_cast hlt) (ten_zpow_pos j)
    _ = (10 ^ n : Nat) * 10 ^ (j + 1) := by
        rw [Nat.pow_succ, zpow_add_one₀ hten]
        push_cast
        ring
    _ ≤ (10 ^ n : Nat) * 10 ^ unit := by
        gcongr
        · norm_num
        · omega
    _ ≤ m * 10 ^ unit := mul_le_mul_of_nonneg_right (by exact_mod_cast hle) (ten_zpow_pos unit).le

/-- A decimal that ends at a power of the units is a number of units. -/
theorem exists_units (c : Nat) {j unit : Int} (hcoarse : unit ≤ j) :
    ∃ m : Nat, (c : Rat) * 10 ^ j = m * 10 ^ unit := by
  obtain ⟨k, rfl⟩ := Int.le.dest hcoarse
  refine ⟨c * 10 ^ k, ?_⟩
  rw [zpow_add₀ (by norm_num), zpow_natCast]
  push_cast
  ring

/-- On either side of a value a neighbour is nearer to it than any other decimal of so many digits. -/
theorem exists_neighbour_between (hpos : x.significand ≠ 0) {c : Nat} {j : Int}
    (hlt : c < 10 ^ (n + 1)) :
    ((c : Rat) * 10 ^ j ≤ x.rational →
      (c : Rat) * 10 ^ j ≤ (x.ofUnits n (x.wholeUnits n)).rational) ∧
    (x.rational < (c : Rat) * 10 ^ j →
      (x.ofUnits n (x.wholeUnits n + 1)).rational ≤ (c : Rat) * 10 ^ j) := by
  have hunit := ten_zpow_pos (x.leadingPower - n)
  obtain ⟨hlow, hhigh⟩ := x.rational_bounds n
  obtain ⟨hleast, -⟩ := x.wholeUnits_bounds n (x.numerator_ne_zero hpos)
  rw [rational_ofUnits] at hlow hhigh ⊢
  rw [rational_ofUnits]
  obtain hfine | hcoarse := lt_or_ge j (x.leadingPower - n)
  · have hless := lt_units hlt hleast hfine
    exact ⟨fun _ => hless.le, fun hmore => absurd (hless.trans_le hlow) hmore.not_gt⟩
  · obtain ⟨m, hm⟩ := exists_units c hcoarse
    rw [hm]
    constructor
    · intro hle
      have hlt := hle.trans_lt hhigh
      rw [mul_lt_mul_iff_of_pos_right hunit] at hlt
      gcongr
      exact Nat.le_of_lt_succ (by exact_mod_cast hlt)
    · intro hmore
      have hlt := hlow.trans_lt hmore
      rw [mul_lt_mul_iff_of_pos_right hunit] at hlt
      gcongr
      exact_mod_cast hlt

/-- If a decimal of so many digits reads back, something is found, and nothing further away than
it. -/
theorem exists_withDigits?_of_readsBack (h : x.Canonical) (hpos : x.significand ≠ 0) {c : Nat}
    {j : Int} (hlt : c < 10 ^ (n + 1)) (hd : d.rational = c * 10 ^ j)
    (hreads : x.readsBack d = true) :
    ∃ found, x.withDigits? (n + 1) = some found ∧
      |found.rational - x.rational| ≤ |d.rational - x.rational| := by
  obtain ⟨hlow, hhigh⟩ := x.rational_bounds n
  obtain ⟨hbelow, habove⟩ := exists_neighbour_between hpos hlt (j := j)
  rw [← hd] at hbelow habove
  have hvalue := readsBack_allDigits h hpos
  have hall := x.rational_allDigits
  obtain hle | hmore := le_or_gt d.rational x.rational
  · have hneighbour := readsBack_of_between hreads hvalue (hbelow hle) (hall ▸ hlow)
    obtain ⟨found, hfound, hnear⟩ := x.exists_withDigits?_of_neighbour n (.inl rfl) hneighbour
    refine ⟨found, hfound, hnear.trans ?_⟩
    rw [abs_of_nonpos (by linarith), abs_of_nonpos (by linarith)]
    linarith [hbelow hle]
  · have hneighbour := readsBack_of_between hvalue hreads (hall ▸ hhigh.le) (habove hmore)
    obtain ⟨found, hfound, hnear⟩ := x.exists_withDigits?_of_neighbour n (.inr rfl) hneighbour
    refine ⟨found, hfound, hnear.trans ?_⟩
    rw [abs_of_pos (by linarith), abs_of_pos (by linarith)]
    linarith [habove hmore]

/-- Seventeen digits are enough. -/
theorem exists_withDigits?_seventeen (h : x.Canonical) (hpos : x.significand ≠ 0) :
    ∃ d, x.withDigits? 17 = some d := by
  obtain ⟨hlow, hhigh⟩ := x.rational_bounds 16
  have hunit := ten_zpow_pos (x.leadingPower - (16 : Nat))
  -- A unit of the last digit is small beside the value, and one neighbour is half a unit away.
  have hsmall : 10 ^ 16 * 10 ^ (x.leadingPower - (16 : Nat)) ≤ x.rational := by
    refine le_of_eq_of_le ?_ (x.leadingPower_bounds (x.numerator_ne_zero hpos)).1
    rw [zpow_sub₀ (by norm_num), zpow_natCast]
    field_simp
  have hstep : (x.ofUnits 16 (x.wholeUnits 16 + 1)).rational =
      (x.ofUnits 16 (x.wholeUnits 16)).rational + 10 ^ (x.leadingPower - (16 : Nat)) := by
    rw [rational_ofUnits, rational_ofUnits]
    push_cast
    ring
  have hneighbour : ∃ m, (m = x.wholeUnits 16 ∨ m = x.wholeUnits 16 + 1) ∧
      |(x.ofUnits 16 m).rational - x.rational| < x.rational / 2 ^ 54 := by
    obtain hnear | hfar := le_or_gt (2 * (x.rational - (x.ofUnits 16 (x.wholeUnits 16)).rational))
      (10 ^ (x.leadingPower - (16 : Nat)))
    · refine ⟨_, .inl rfl, ?_⟩
      rw [abs_of_nonpos (by linarith)]
      linarith
    · refine ⟨_, .inr rfl, ?_⟩
      rw [abs_of_pos (by linarith)]
      linarith
  obtain ⟨m, hm, hnear⟩ := hneighbour
  obtain ⟨d, hd, -⟩ := x.exists_withDigits?_of_neighbour 16 hm (readsBack_of_near h hnear)
  exact ⟨d, hd⟩

/-- The shortest decimal was found, and nothing was found with fewer digits. -/
theorem exists_shortest (h : x.Canonical) (hpos : x.significand ≠ 0) :
    ∃ n, x.withDigits? (n + 1) = some x.shortest ∧ ∀ m < n, x.withDigits? (m + 1) = none := by
  rw [shortest, if_neg hpos]
  cases hfound : (List.range 17).findSome? fun n => x.withDigits? (n + 1) with
  | some d =>
      obtain ⟨before, n, behind, hsplit, hd, hnone⟩ := List.findSome?_eq_some_iff.mp hfound
      rw [List.range_eq_range', List.range'_eq_append_iff] at hsplit
      obtain ⟨k, -, rfl, hrest⟩ := hsplit
      obtain ⟨rfl, -⟩ := List.range'_eq_cons_iff.mp hrest.symm
      refine ⟨_, hd, fun m hm => hnone m ?_⟩
      rw [List.mem_range'_1]
      omega
  | none =>
      obtain ⟨d, hd⟩ := exists_withDigits?_seventeen h hpos
      have hnone := List.findSome?_eq_none_iff.mp hfound 16 (by decide)
      cases hd.symm.trans hnone

end Exact

/-! ### Fewest digits -/

/-- A mantissa without zeros at its end has the fewest digits of all ways to write its number. -/
theorem Scientific.places_lt_digitCount {s : Scientific} (htrimmed : s.mantissa.Trimmed)
    (hone : 1 ≤ s.mantissa.rational) {c : Nat} {j : Int} (h : s.rational = c * 10 ^ j) :
    s.mantissa.places < Decimal.digitCount c := by
  obtain ⟨⟨m, places⟩, exponent⟩ := s
  simp only [Scientific.rational, Decimal.rational, Decimal.Trimmed] at *
  obtain rfl | hplaces := Nat.eq_zero_or_pos places
  · exact Nat.length_toDigits_pos
  have hlast := htrimmed.resolve_left hplaces.ne'
  have hten : (10 : Rat) ≠ 0 := by norm_num
  rw [one_le_div (by positivity)] at hone
  have hm : 10 ^ places ≤ m := by exact_mod_cast hone
  have hvalue : (m : Rat) * 10 ^ (exponent - places) = c * 10 ^ j := by
    rw [← h, zpow_sub₀ hten, zpow_natCast, mul_div_assoc', div_mul_eq_mul_div]
  obtain hless | hmore := lt_or_ge (exponent - places) j
  · -- The last digit of the mantissa would be zero.
    have hpower : j = (exponent - places) + (j - (exponent - places)).toNat := by omega
    rw [hpower, zpow_add₀ hten, mul_comm ((10 : Rat) ^ (exponent - places)), ← mul_assoc,
      zpow_natCast] at hvalue
    have hmultiple : m = c * 10 ^ (j - (exponent - places)).toNat := by
      exact_mod_cast mul_right_cancel₀ (ten_zpow_pos _).ne' hvalue
    have hdvd : 10 ∣ m := by
      rw [hmultiple]
      exact Dvd.dvd.mul_left (dvd_pow_self 10 (by omega)) c
    omega
  · have hpower : exponent - places = j + (exponent - places - j).toNat := by omega
    rw [hpower, zpow_add₀ hten, mul_comm ((10 : Rat) ^ j), ← mul_assoc, zpow_natCast] at hvalue
    have hmultiple : m * 10 ^ (exponent - places - j).toNat = c := by
      exact_mod_cast mul_right_cancel₀ (ten_zpow_pos _).ne' hvalue
    have hc : 10 ^ places ≤ c :=
      hm.trans (hmultiple ▸ Nat.le_mul_of_pos_right m (Nat.pow_pos (by decide)))
    exact Nat.lt_of_not_le fun hle =>
      hc.not_gt ((Nat.length_toDigits_le_iff (by decide) hplaces).mp hle)

namespace Exact

variable {x : Exact} {d : Decimal} {n : Nat}

/-- The shortest decimal in scientific notation has no more digits than it was found with. -/
theorem places_ofDecimal_le (hpos : x.significand ≠ 0)
    (hfound : x.withDigits? (n + 1) = some x.shortest) :
    (Scientific.ofDecimal x.shortest).mantissa.places ≤ n := by
  obtain ⟨m, hm, hshortest⟩ := x.eq_ofUnits_of_withDigits? n hfound
  have hrational : (Scientific.ofDecimal x.shortest).rational =
      m * 10 ^ (x.leadingPower - n) := by
    rw [Scientific.rational_ofDecimal, hshortest, rational_ofUnits]
  have hone : 1 ≤ (Scientific.ofDecimal x.shortest).mantissa.rational := by
    obtain ⟨hzero, -⟩ | ⟨hone, -⟩ := x.standard_shortest
    · have hvalue := (ten_zpow_pos _).trans_le (x.rational_shortest hpos).1
      rw [← Scientific.rational_ofDecimal, Scientific.rational, hzero, zero_mul] at hvalue
      exact absurd hvalue (lt_irrefl 0)
    · exact hone
  have hfewest {c : Nat} {j : Int} :=
    Scientific.places_lt_digitCount (c := c) (j := j) (Decimal.trimmed_trim _) hone
  obtain ⟨-, hlt⟩ := x.wholeUnits_bounds n (x.numerator_ne_zero hpos)
  obtain hfull | hless : m = 10 ^ (n + 1) ∨ m < 10 ^ (n + 1) := by omega
  · -- All digits but the first are zero.
    have hsingle := hfewest (c := 1) (j := x.leadingPower + 1) <| by
      rw [hrational, hfull]
      push_cast
      rw [← zpow_natCast, ← zpow_add₀ (by norm_num), one_mul]
      congr 1
      push_cast
      ring
    have hcount : Decimal.digitCount 1 = 1 := by decide
    omega
  · have hcount := (Nat.length_toDigits_le_iff (by decide) (Nat.succ_pos n)).mpr hless
    exact Nat.le_of_lt_succ ((hfewest hrational).trans_le hcount)

/-- No decimal that reads back has fewer significant digits than the shortest, and of those with as
few none is nearer to the value. -/
theorem shortest_optimal (h : x.Canonical) {c : Nat} {j : Int} (hd : d.rational = c * 10 ^ j)
    (hreads : x.readsBack d = true) :
    (Scientific.ofDecimal x.shortest).mantissa.places + 1 ≤ Decimal.digitCount c ∧
      (Decimal.digitCount c ≤ (Scientific.ofDecimal x.shortest).mantissa.places + 1 →
        |x.shortest.rational - x.rational| ≤ |d.rational - x.rational|) := by
  have hc : 0 < Decimal.digitCount c := Nat.length_toDigits_pos
  by_cases hpos : x.significand = 0
  · have hshortest : x.shortest = ⟨0, 0⟩ := by rw [shortest, if_pos hpos]
    have hplaces : (Scientific.ofDecimal ⟨0, 0⟩).mantissa.places = 0 := rfl
    have hzero : (Decimal.mk 0 0).rational = 0 := Decimal.rational_eq_zero rfl
    rw [hshortest, hplaces, hzero, rational_eq_zero_iff.mpr hpos, sub_zero, abs_zero]
    exact ⟨hc, fun _ => abs_nonneg _⟩
  obtain ⟨n, hfound, hnone⟩ := exists_shortest h hpos
  have hplaces := places_ofDecimal_le hpos hfound
  have hcount {k : Nat} (hle : Decimal.digitCount c ≤ k + 1) : c < 10 ^ (k + 1) :=
    (Nat.length_toDigits_le_iff (by decide) (Nat.succ_pos k)).mp hle
  constructor
  · by_contra hless
    obtain ⟨found, hshorter, -⟩ := exists_withDigits?_of_readsBack h hpos
      (hcount (by omega : _ ≤ Decimal.digitCount c - 1 + 1)) hd hreads
    cases hshorter.symm.trans (hnone (Decimal.digitCount c - 1) (by omega))
  · intro hle
    obtain ⟨found, hsame, hnear⟩ :=
      exists_withDigits?_of_readsBack h hpos (hcount (by omega : _ ≤ n + 1)) hd hreads
    obtain rfl : found = x.shortest := Option.some.inj (hsame.symm.trans hfound)
    exact hnear

end Exact

end Reckoner
