import Mathlib.Data.List.Induction
import Mathlib.Tactic.IntervalCases
import Mathlib.Tactic.Ring
import Reckoner.Text.Digits

/-!
# Writing and reading digits

Writing a number and reading its digits gives the number back, with zeros in front or without.
Reading digits of either letter case and writing the number gives the digits back in lower case,
but for the zeros in front.
-/

-- Powers are those of the core library.
attribute [instance(2000), default_instance(20000)] instPowNat

namespace Reckoner.Text

variable {base n : Nat} {c : Char} {cs ds : List Char}

/-! ### Single digits -/

theorem digitValue?_digitChar (h : n < 16) : digitValue? n.digitChar = some n := by
  interval_cases n <;> rfl

theorem isDigitOf_digitChar (hbase : base ≤ 16) (h : n < base) :
    isDigitOf base n.digitChar = true := by
  rw [isDigitOf, digitValue?_digitChar (Nat.lt_of_lt_of_le h hbase), Option.any_some,
    decide_eq_true_eq]
  exact h

/-- In lower case a digit is the character of its value. -/
theorem toLower_of_digitValue? (h : digitValue? c = some n) : c.toLower = n.digitChar := by
  have hc : c = Char.ofNat c.toNat := (Char.ofNat_toNat c).symm
  have hrange := range_of_digitValue? h
  generalize c.toNat = k at hc hrange
  subst hc
  obtain ⟨hle, hge, rfl⟩ | ⟨hle, hge, rfl⟩ | ⟨hle, hge, rfl⟩ := hrange
  all_goals interval_cases k <;> rfl

/-- A digit of a base has a value below the base. -/
theorem exists_of_isDigitOf (h : isDigitOf base c = true) :
    ∃ n, n < base ∧ digitValue? c = some n := by
  rw [isDigitOf, Option.any_eq_true] at h
  obtain ⟨n, hvalue, hlt⟩ := h
  exact ⟨n, by simpa using hlt, hvalue⟩

/-! ### Reading -/

theorem numberOf_append (base : Nat) (cs ds : List Char) :
    numberOf base (cs ++ ds) = numberOf base cs * base ^ ds.length + numberOf base ds := by
  induction ds using List.reverseRecOn with
  | nil => simp
  | append_singleton ds c ih =>
      rw [← List.append_assoc, numberOf_append_singleton, numberOf_append_singleton, ih,
        List.length_append, List.length_singleton, Nat.pow_succ]
      ring

theorem numberOf_replicate_zero (base k : Nat) :
    numberOf base (List.replicate k '0' ++ ds) = numberOf base ds := by
  have hzero : numberOf base (List.replicate k '0') = 0 := by
    induction k with
    | zero => rfl
    | succ k ih =>
        rw [List.replicate_succ', numberOf_append_singleton, ih, Nat.zero_mul]
        rfl
  rw [numberOf_append, hzero, Nat.zero_mul, Nat.zero_add]

/-! ### Writing -/

/-- A number is written as its digits but the last, and the last. -/
theorem numberOf_toDigits (hlow : 1 < base) (hhigh : base ≤ 16) (n : Nat) :
    numberOf base (Nat.toDigits base n) = n := by
  induction n using Nat.strongRecOn with
  | ind n ih =>
      rw [Nat.toDigits_eq_if hlow]
      split
      · rename_i hsmall
        rw [← List.nil_append [n.digitChar], numberOf_append_singleton,
          digitValue?_digitChar (by omega)]
        simp
      · rename_i hlarge
        have hdiv := Nat.div_lt_self (by omega : 0 < n) hlow
        have hmod : n % base < 16 := (Nat.mod_lt n (by omega)).trans_le hhigh
        rw [numberOf_append_singleton, ih _ hdiv, digitValue?_digitChar hmod, Option.getD_some,
          Nat.mul_comm, Nat.div_add_mod]

theorem isDigitOf_of_mem_toDigits (hlow : 1 < base) (hhigh : base ≤ 16) {n : Nat} :
    ∀ c ∈ Nat.toDigits base n, isDigitOf base c = true := by
  induction n using Nat.strongRecOn with
  | ind n ih =>
      rw [Nat.toDigits_eq_if hlow]
      split
      · rename_i hsmall
        simpa using isDigitOf_digitChar hhigh hsmall
      · have hdiv := Nat.div_lt_self (by omega : 0 < n) hlow
        have hlast := isDigitOf_digitChar hhigh (Nat.mod_lt n (by omega : 0 < base))
        intro c hc
        obtain hc | hc := List.mem_append.mp hc
        · exact ih _ hdiv c hc
        · rw [List.mem_singleton.mp hc]
          exact hlast

theorem numberOf_paddedDigits (hlow : 1 < base) (hhigh : base ≤ 16) (width n : Nat) :
    numberOf base (paddedDigits base width n) = n := by
  rw [paddedDigits, List.leftpad, numberOf_replicate_zero, numberOf_toDigits hlow hhigh]

theorem isDigitOf_of_mem_paddedDigits (hlow : 1 < base) (hhigh : base ≤ 16) {width n : Nat} :
    ∀ c ∈ paddedDigits base width n, isDigitOf base c = true := by
  intro c hc
  rw [paddedDigits, List.leftpad] at hc
  obtain hc | hc := List.mem_append.mp hc
  · rw [List.eq_of_mem_replicate hc]
    exact isDigitOf_digitChar hhigh (by omega : 0 < base)
  · exact isDigitOf_of_mem_toDigits hlow hhigh c hc

/-- Only zeros denote zero. -/
theorem dropWhile_eq_nil_of_numberOf (hlow : 1 < base) (hds : ∀ c ∈ ds, isDigitOf base c = true)
    (hzero : numberOf base ds = 0) : (ds.map Char.toLower).dropWhile (· = '0') = [] := by
  induction ds using List.reverseRecOn with
  | nil => rfl
  | append_singleton ds c ih =>
      obtain ⟨hinit, hlast⟩ := List.forall_mem_append.mp hds
      obtain ⟨n, -, hvalue⟩ := exists_of_isDigitOf (hlast c (by simp))
      rw [numberOf_append_singleton, hvalue, Option.getD_some, Nat.add_eq_zero_iff,
        Nat.mul_eq_zero] at hzero
      obtain ⟨hinitZero, rfl⟩ := hzero
      rw [List.map_append, List.dropWhile_append, ih hinit (by omega)]
      simp [toLower_of_digitValue? hvalue]

/-- Digits are written as they were read, in lower case and without the zeros in front. -/
theorem toDigits_numberOf (hlow : 1 < base) (hds : ∀ c ∈ ds, isDigitOf base c = true)
    (hne : numberOf base ds ≠ 0) :
    Nat.toDigits base (numberOf base ds) = (ds.map Char.toLower).dropWhile (· = '0') := by
  induction ds using List.reverseRecOn with
  | nil => exact absurd rfl hne
  | append_singleton ds c ih =>
      obtain ⟨hinit, hlast⟩ := List.forall_mem_append.mp hds
      obtain ⟨n, hlt, hvalue⟩ := exists_of_isDigitOf (hlast c (by simp))
      rw [numberOf_append_singleton, hvalue, Option.getD_some] at hne ⊢
      rw [List.map_append, List.dropWhile_append, List.map_singleton, toLower_of_digitValue? hvalue]
      by_cases hzero : numberOf base ds = 0
      · have hn : n ≠ 0 := by simpa [hzero] using hne
        rw [dropWhile_eq_nil_of_numberOf hlow hinit hzero, hzero, Nat.zero_mul, Nat.zero_add,
          Nat.toDigits_of_lt_base hlt]
        simp [hn]
      · have hle : base ≤ numberOf base ds * base + n :=
          (Nat.le_mul_of_pos_left base (Nat.pos_of_ne_zero hzero)).trans (Nat.le_add_right _ n)
        have hdiv : (numberOf base ds * base + n) / base = numberOf base ds := by
          rw [Nat.mul_comm, Nat.mul_add_div (by omega), Nat.div_eq_of_lt hlt, Nat.add_zero]
        have hmod : (numberOf base ds * base + n) % base = n := by
          rw [Nat.mul_comm, Nat.mul_add_mod, Nat.mod_eq_of_lt hlt]
        rw [Nat.toDigits_of_base_le hlow hle, hdiv, hmod, ih hinit hzero, if_neg]
        rw [← ih hinit hzero]
        simp

/-- Digits are written to a width as they were read, in lower case and with the zeros in front
brought to the width. -/
theorem paddedDigits_numberOf {width : Nat} (hwidth : 0 < width) (hlow : 1 < base)
    (hds : ∀ c ∈ ds, isDigitOf base c = true) :
    paddedDigits base width (numberOf base ds) =
      ((ds.map Char.toLower).dropWhile (· = '0')).leftpad width '0' := by
  rw [paddedDigits]
  by_cases hzero : numberOf base ds = 0
  · obtain ⟨width, rfl⟩ := Nat.exists_eq_succ_of_ne_zero hwidth.ne'
    rw [dropWhile_eq_nil_of_numberOf hlow hds hzero, hzero, Nat.toDigits_zero]
    simp [List.leftpad, List.replicate_succ']
  · rw [toDigits_numberOf hlow hds hzero]

/-! ### Integers -/

theorem natural?_of_isDigit {digits : List Char} (hne : digits ≠ [])
    (h : ∀ c ∈ digits, c.isDigit = true) : natural? digits = some (numberOf 10 digits) := by
  have hnone : digits.any (fun c => !c.isDigit) = false := by
    simpa using h
  rw [natural?, if_neg]
  simp [hne, hnone]

theorem natural?_toDigits (n : Nat) : natural? (Nat.toDigits 10 n) = some n := by
  have hdigits : ∀ c ∈ Nat.toDigits 10 n, c.isDigit = true := by
    intro c hc
    exact Nat.isDigit_of_mem_toDigits (by decide) (by decide) hc
  have hnatural := natural?_of_isDigit Nat.toDigits_ne_nil hdigits
  rwa [numberOf_toDigits (by decide) (by decide)] at hnatural

/-- The digits of a number denote it as an integer. -/
theorem integer?_toDigits (n : Nat) : integer? (Nat.toDigits 10 n) = some (n : Int) := by
  have hdigits : ∀ c ∈ Nat.toDigits 10 n, c.isDigit = true := by
    intro c hc
    exact Nat.isDigit_of_mem_toDigits (by decide) (by decide) hc
  rw [integer?.eq_def]
  split
  · rename_i hcons
    simp [hcons] at hdigits
  · rename_i hcons
    simp [hcons] at hdigits
  · rw [natural?_toDigits]
    rfl

/-- An integer is read as it was written. -/
theorem integer?_integerDigits (i : Int) : integer? (integerDigits i) = some i := by
  rw [integerDigits]
  split
  · rename_i hnegative
    have hvalue : -(i.natAbs : Int) = i := by omega
    simp only [integer?, natural?_toDigits, Option.map_some, hvalue]
  · rename_i hnegative
    have hvalue : (i.natAbs : Int) = i := by omega
    rw [integer?_toDigits, hvalue]

/-! ### Places -/

def lastDigits : Nat → Nat → List Char
  | 0, _ => []
  | count + 1, n => lastDigits count (n / 10) ++ [(n % 10).digitChar]

theorem lastDigits_succ (count n : Nat) :
    lastDigits (count + 1) n = lastDigits count (n / 10) ++ [(n % 10).digitChar] := rfl

/-- A number that needs no more digits is written with the zeros in front. -/
theorem paddedDigits_eq_lastDigits {count n : Nat} (hcount : count ≠ 0) (h : n < 10 ^ count) :
    paddedDigits 10 count n = lastDigits count n := by
  induction count generalizing n with
  | zero => exact absurd rfl hcount
  | succ count ih =>
      rw [lastDigits_succ, paddedDigits, Nat.toDigits_eq_if (by decide)]
      by_cases hzero : count = 0
      · subst hzero
        have hsmall : n < 10 := by simpa using h
        simp [hsmall, lastDigits, List.leftpad, Nat.mod_eq_of_lt hsmall]
      · have hdiv : n / 10 < 10 ^ count := by
          rw [Nat.pow_succ] at h
          omega
        rw [← ih hzero hdiv, paddedDigits]
        split
        · rename_i hsmall
          rw [Nat.div_eq_of_lt hsmall, Nat.mod_eq_of_lt hsmall, Nat.toDigits_zero]
          obtain ⟨width, rfl⟩ := Nat.exists_eq_succ_of_ne_zero hzero
          simp [List.leftpad, List.replicate_succ']
        · simp [List.leftpad]

theorem lastDigits_mod (count n : Nat) :
    lastDigits count (n % 10 ^ count) = lastDigits count n := by
  induction count generalizing n with
  | zero => rfl
  | succ count ih =>
      have hdiv : n % 10 ^ (count + 1) / 10 = n / 10 % 10 ^ count := by
        rw [Nat.pow_succ, Nat.mul_comm, Nat.mod_mul_right_div_self]
      have hmod : n % 10 ^ (count + 1) % 10 = n % 10 :=
        Nat.mod_mod_of_dvd n (Dvd.intro_left (10 ^ count) rfl)
      rw [lastDigits_succ, lastDigits_succ, hdiv, hmod, ih]

end Reckoner.Text
