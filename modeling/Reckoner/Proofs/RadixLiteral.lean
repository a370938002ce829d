import Mathlib.Data.Nat.Digits.Defs
import Reckoner.Proofs.RadixText

/-!
# Radix literals inside a text

A radix letter and a `$` take the longest run of digits of the radix that follows, however long it
is, and leave the cursor directly behind it. The run denotes a natural number, digit by digit with
the powers of the base; zeros in front add nothing to it. A number below `2 ^ 32` is a pattern of
bits and read as signed, and any other is an overflow.

The number can be found in machine words: a word of 64 bits takes the digits one by one, until a
product or a sum does not fit, and the word is narrowed to 32 bits if these are enough. One of these
checks fails exactly if the number has more than 32 bits (`Radix.radixKind_eq_kindInWords`): what a
word cannot hold is not brought back by the digits behind it.
-/

-- Powers are those of the core library.
attribute [instance(2000), default_instance(20000)] instPowNat

namespace Reckoner

/-! ### Words of 64 bits -/

namespace Word64

def ofNat? (n : Nat) : Option UInt64 := if n < 2 ^ 64 then some (UInt64.ofNat n) else none

def mul? (a b : UInt64) : Option UInt64 :=
  if a.toNat * b.toNat < 2 ^ 64 then some (a * b) else none

def add? (a b : UInt64) : Option UInt64 :=
  if a.toNat + b.toNat < 2 ^ 64 then some (a + b) else none

/-- The low half of a word whose high half is zero. -/
def low? (w : UInt64) : Option UInt32 := if w.toNat < 2 ^ 32 then some w.toUInt32 else none

theorem mul?_eq (a b : UInt64) : mul? a b = ofNat? (a.toNat * b.toNat) := by
  simp only [mul?, ofNat?, UInt64.ofNat_mul, UInt64.ofNat_toNat]

theorem add?_eq (a b : UInt64) : add? a b = ofNat? (a.toNat + b.toNat) := by
  simp only [add?, ofNat?, UInt64.ofNat_add, UInt64.ofNat_toNat]

variable {n : Nat}

theorem ofNat?_of_lt (h : n < 2 ^ 64) : ofNat? n = some (UInt64.ofNat n) := if_pos h

theorem ofNat?_of_le (h : 2 ^ 64 ≤ n) : ofNat? n = none := if_neg (Nat.not_lt.mpr h)

theorem toNat_ofNat (h : n < 2 ^ 64) : (UInt64.ofNat n).toNat = n := UInt64.toNat_ofNat_of_lt' h

/-- The low half of a word, read as signed. -/
theorem toInt_low (h : n < 2 ^ 32) :
    (UInt64.ofNat n).toUInt32.toInt32.toInt = TwosComplement.signed n := by
  have hnat : (UInt64.ofNat n).toUInt32.toBitVec.toNat = n := by
    change (UInt64.ofNat n).toUInt32.toNat = n
    rw [UInt64.toNat_toUInt32, toNat_ofNat (by omega)]
    exact Nat.mod_eq_of_lt h
  simp only [Int32.toInt, UInt32.toBitVec_toInt32, BitVec.toInt_eq_toNat_cond, hnat,
    TwosComplement.signed]
  split <;> split <;> omega

/-- A number is the low half of a word if and only if it has at most 32 bits. -/
theorem bind_low? (n : Nat) :
    (ofNat? n).bind low? = if n < 2 ^ 32 then some (UInt64.ofNat n).toUInt32 else none := by
  by_cases h : n < 2 ^ 64
  · simp only [ofNat?_of_lt h, Option.bind_some, low?, toNat_ofNat h]
  · have hlarge : ¬n < 2 ^ 32 := by omega
    simp only [ofNat?_of_le (Nat.le_of_not_lt h), Option.bind_none, if_neg hlarge]

end Word64

namespace Radix

/-! ### Digits and what they denote -/

/-- The digits of a radix, with letters in either case. -/
def digitChars : Radix → List Char
  | binary => "01".toList
  | octal => "01234567".toList
  | hexadecimal => "0123456789abcdefABCDEF".toList

/-- The value of a digit is its position among the digits in lower case. -/
def digitNumber (c : Char) : Nat := "0123456789abcdef".toList.idxOf c.toLower

/-- The number that digits denote: the last stands for units, and each one before it for the next
power of the base. -/
def denoted (r : Radix) (digits : List Char) : Nat :=
  Nat.ofDigits r.base (digits.reverse.map digitNumber)

variable {r : Radix} {c : Char} {digits : List Char} {n : Nat}

theorem isDigit_iff : r.isDigit c = true ↔ c ∈ r.digitChars := by
  constructor
  · intro h
    have hascii : ∀ k < 0x67, r.isDigit (Char.ofNat k) = true → Char.ofNat k ∈ r.digitChars := by
      cases r <;> decide
    obtain ⟨n, -, hvalue⟩ := Text.exists_of_isDigitOf h
    have hlt : c.toNat < 0x67 := by
      have := Text.range_of_digitValue? hvalue
      omega
    have hmem := hascii c.toNat hlt
    rw [Char.ofNat_toNat] at hmem
    exact hmem h
  · have hall : r.digitChars.all r.isDigit = true := by
      cases r <;> decide
    exact List.all_eq_true.mp hall c

theorem digitNumber_of_digitValue? (hn : n < 16) (h : Text.digitValue? c = some n) :
    digitNumber c = n := by
  have hall : ∀ n < 16, "0123456789abcdef".toList.idxOf n.digitChar = n := by
    decide
  rw [digitNumber, Text.toLower_of_digitValue? h]
  exact hall n hn

/-- Reading digits from the left gives the number that they denote. -/
theorem numberOf_eq_denoted (h : ∀ c ∈ digits, r.isDigit c = true) :
    r.numberOf digits = r.denoted digits := by
  induction digits using List.reverseRecOn with
  | nil => rfl
  | append_singleton digits c ih =>
      obtain ⟨hinit, hlast⟩ := List.forall_mem_append.mp h
      obtain ⟨n, hlt, hvalue⟩ := Text.exists_of_isDigitOf (hlast c (by simp))
      have hn : digitNumber c = n := digitNumber_of_digitValue? (hlt.trans_le r.base_le) hvalue
      have hstep : r.denoted (digits ++ [c]) = n + r.base * r.denoted digits := by
        simp [denoted, Nat.ofDigits_cons, hn]
      calc r.numberOf (digits ++ [c])
          = r.numberOf digits * r.base + (Text.digitValue? c).getD 0 :=
            Text.numberOf_append_singleton r.base digits c
        _ = r.denoted digits * r.base + n := by rw [ih hinit, hvalue, Option.getD_some]
        _ = r.denoted (digits ++ [c]) := by rw [hstep, Nat.mul_comm, Nat.add_comm]

/-! ### Literals in words -/

/-- A word with one more digit behind it, as long as the words are large enough. -/
def pushDigit (r : Radix) (w : UInt64) (c : Char) : Option UInt64 := do
  let digit ← Text.digitValue? c
  let scaled ← Word64.mul? w (UInt64.ofNat r.base)
  Word64.add? scaled (UInt64.ofNat digit)

def wordOf? (r : Radix) (digits : List Char) : Option UInt64 := digits.foldlM r.pushDigit 0

/-- The kind of a literal with the given digits, found in words. -/
def kindInWords (r : Radix) (digits : List Char) : Token.Kind :=
  if digits.isEmpty then .bad .nameless
  else
    match (r.wordOf? digits).bind Word64.low? with
    | some w => .number (Float.ofInt w.toInt32.toInt)
    | none => .bad (.overflow r)

/-- Another digit is the scaled word and its value in one check: the sum is no less than the
product. -/
theorem pushDigit_eq (hn : n < r.base) (h : Text.digitValue? c = some n) (w : UInt64) :
    r.pushDigit w c = Word64.ofNat? (w.toNat * r.base + n) := by
  have hbase : (UInt64.ofNat r.base).toNat = r.base :=
    Word64.toNat_ofNat (r.base_le.trans_lt (by decide))
  have hdigit : (UInt64.ofNat n).toNat = n :=
    Word64.toNat_ofNat (hn.trans (r.base_le.trans_lt (by decide)))
  simp only [pushDigit, h, Word64.mul?_eq, hbase, Option.bind_eq_bind, Option.bind_some]
  by_cases hscaled : w.toNat * r.base < 2 ^ 64
  · simp only [Word64.ofNat?_of_lt hscaled, Option.bind_some, Word64.add?_eq, hdigit,
      Word64.toNat_ofNat hscaled]
  · have hsum : 2 ^ 64 ≤ w.toNat * r.base + n := by omega
    simp only [Word64.ofNat?_of_le (Nat.le_of_not_lt hscaled), Option.bind_none,
      Word64.ofNat?_of_le hsum]

/-- The digits are a word if and only if their number is one: once a number is too large for a word,
it is too large with any digits behind it. -/
theorem wordOf?_eq (h : ∀ c ∈ digits, r.isDigit c = true) :
    r.wordOf? digits = Word64.ofNat? (r.numberOf digits) := by
  induction digits using List.reverseRecOn with
  | nil => rfl
  | append_singleton digits c ih =>
      obtain ⟨hinit, hlast⟩ := List.forall_mem_append.mp h
      obtain ⟨n, hlt, hvalue⟩ := Text.exists_of_isDigitOf (hlast c (by simp))
      have hnumber : r.numberOf (digits ++ [c]) = r.numberOf digits * r.base + n := by
        rw [numberOf, Text.numberOf_append_singleton, hvalue, Option.getD_some]
        rfl
      have hword : r.wordOf? (digits ++ [c]) =
          (Word64.ofNat? (r.numberOf digits)).bind fun w => r.pushDigit w c := by
        rw [← ih hinit]
        simp [wordOf?]
      rw [hword, hnumber]
      by_cases hsmall : r.numberOf digits < 2 ^ 64
      · simp only [Word64.ofNat?_of_lt hsmall, Option.bind_some, pushDigit_eq hlt hvalue,
          Word64.toNat_ofNat hsmall]
      · have hgrown : r.numberOf digits ≤ r.numberOf digits * r.base :=
          Nat.le_mul_of_pos_right _ (Nat.zero_lt_of_lt r.one_lt_base)
        have hlarge : 2 ^ 64 ≤ r.numberOf digits * r.base + n := by omega
        simp only [Word64.ofNat?_of_le (Nat.le_of_not_lt hsmall), Option.bind_none,
          Word64.ofNat?_of_le hlarge]

/-- A literal can be read in words. -/
theorem radixKind_eq_kindInWords (h : ∀ c ∈ digits, r.isDigit c = true) :
    Lexeme.radixKind r digits = r.kindInWords digits := by
  rw [Lexeme.radixKind, kindInWords, wordOf?_eq h, Word64.bind_low?]
  split
  · rfl
  · split
    · rename_i hlt
      simp only [Word64.toInt_low hlt]
    · rfl

/-! ### Literals in front of other text -/

/-- The number of a pattern of 32 bits is a float. -/
theorem exists_toRat_signed (h : n < 2 ^ 32) :
    ∃ x, Exact.ofFloat? (Float.ofInt (TwosComplement.signed n)) = some x ∧
      x.toRat = TwosComplement.signed n := by
  have hsigned := TwosComplement.signed_bounds h
  have habs : (TwosComplement.signed n).natAbs < 2 ^ 53 := by omega
  exact ⟨_, Exact.ofFloat?_ofInt habs, Exact.toRat_ofInt habs⟩

/-- A pull behind blanks takes the radix letter, the `$` and all digits that follow. -/
theorem pull_of_digits {blanks run rest : List Char}
    (hblanks : ∀ c ∈ blanks, Text.isBlank c = true) (hrun : ∀ c ∈ run, r.isDigit c = true)
    (hrest : ∀ c ∈ rest.head?, r.isDigit c = false) (p : Place) :
    Cursor.pull ⟨blanks ++ r.literal (run ++ rest), p⟩ =
      (some ⟨Lexeme.radixKind r run, p.afterAll blanks⟩,
        ⟨rest, p.afterAll (blanks ++ r.literal run)⟩) := by
  let g : Segment :=
    ⟨blanks, r.letter, '$' :: run, Lexeme.radixKind r run, hblanks, r.isBlank_letter⟩
  have hreads : g.ReadsBefore rest := by
    simp only [Segment.ReadsBefore, g, List.cons_append, Lexeme.front_letter r.isLetter_letter]
    simp [Lexeme.afterLetter, Lexeme.radixLiteral, Text.takeWhile_run hrun hrest]
  have hpull := Cursor.pull_segment g hreads p
  simpa [g, Segment.chars, Segment.lexeme, Segment.token, literal] using hpull

theorem isDigit_zero (r : Radix) : r.isDigit '0' = true := by
  cases r <;> decide

/-- Zeros in front of the digits of a literal do not change it. -/
theorem radixKind_zeros (hne : digits ≠ []) (k : Nat) :
    Lexeme.radixKind r (List.replicate k '0' ++ digits) = Lexeme.radixKind r digits := by
  have hnumber : r.numberOf (List.replicate k '0' ++ digits) = r.numberOf digits :=
    Text.numberOf_replicate_zero r.base k
  simp [Lexeme.radixKind, hnumber, hne]

/-- A radix letter and a `$` at the start of a token, with blanks in front or without, are taken
with the longest run of digits of the radix that follows, in either letter case, and the cursor is
left directly behind it. Without digits the token is nameless. Digits that denote a number below
`2 ^ 32` make the token of this number, or of the number less `2 ^ 32` if it is no less than
`2 ^ 31`; the number is exact as a float. Other digits make an overflow. The kind is found in
machine words as well, and zeros in front of the digits do not change it. -/
theorem pull_literal (r : Radix) {blanks : List Char}
    (hblanks : ∀ c ∈ blanks, Text.isBlank c = true) (cs : List Char) (p : Place) :
    let run := cs.takeWhile (· ∈ r.digitChars)
    let rest := cs.dropWhile (· ∈ r.digitChars)
    let n := r.denoted run
    let i : Int := if n < 2 ^ 31 then n else n - 2 ^ 32
    run ++ rest = cs ∧ (∀ c ∈ rest.head?, c ∉ r.digitChars) ∧
      ∃ kind,
        Cursor.pull ⟨blanks ++ r.literal cs, p⟩ =
            (some ⟨kind, p.afterAll blanks⟩, ⟨rest, p.afterAll (blanks ++ r.literal run)⟩) ∧
          (run = [] → kind = .bad .nameless) ∧
          (run ≠ [] → n < 2 ^ 32 → kind = .number (Float.ofInt i) ∧
            ∃ x, Exact.ofFloat? (Float.ofInt i) = some x ∧ x.toRat = i) ∧
          (run ≠ [] → 2 ^ 32 ≤ n → kind = .bad (.overflow r)) ∧
          kind = r.kindInWords run ∧
          (run ≠ [] → ∀ zeros : Nat,
            (Cursor.pull ⟨blanks ++ r.literal (List.replicate zeros '0' ++ cs), p⟩).1 =
              some ⟨kind, p.afterAll blanks⟩) := by
  intro run rest n i
  have hsplit : run ++ rest = cs := List.takeWhile_append_dropWhile
  have hrun : ∀ c ∈ run, r.isDigit c = true := by
    intro c hc
    exact isDigit_iff.mpr (by simpa using List.mem_takeWhile_imp hc)
  have hrest : ∀ c ∈ rest.head?, c ∉ r.digitChars := by
    intro c hc
    have hhead : rest.head? = some c := hc
    have hnot := List.head?_dropWhile_not (fun c => decide (c ∈ r.digitChars)) cs
    rw [hhead] at hnot
    simpa using hnot
  have hrest' : ∀ c ∈ rest.head?, r.isDigit c = false := by
    intro c hc
    exact Bool.eq_false_iff.mpr fun hdigit => hrest c hc (isDigit_iff.mp hdigit)
  have hn : r.numberOf run = n := numberOf_eq_denoted hrun
  have hi : TwosComplement.signed n = i := rfl
  refine ⟨hsplit, hrest, Lexeme.radixKind r run, ?_, ?_, ?_, ?_, ?_, ?_⟩
  · rw [← hsplit]
    exact pull_of_digits hblanks hrun hrest' p
  · intro hnil
    simp [Lexeme.radixKind, hnil]
  · intro hne hlt
    rw [radixKind_of_lt hne (hn ▸ hlt), hn, ← hi]
    exact ⟨rfl, exists_toRat_signed hlt⟩
  · intro hne hle
    simp [Lexeme.radixKind, hne, hn, Nat.not_lt.mpr hle]
  · exact radixKind_eq_kindInWords hrun
  · intro hne zeros
    have hzeros : ∀ c ∈ List.replicate zeros '0' ++ run, r.isDigit c = true := by
      intro c hc
      obtain hc | hc := List.mem_append.mp hc
      · exact List.eq_of_mem_replicate hc ▸ r.isDigit_zero
      · exact hrun c hc
    rw [← hsplit, ← List.append_assoc, pull_of_digits hblanks hzeros hrest', radixKind_zeros hne]

/-- More than sixteen digits, most of them zeros, in both letter cases and in front of a letter that
is no digit. -/
theorem pull_literal_minusTwo :
    Cursor.pull ⟨"\n h$0000000000000000FfFfFfFegh".toList, ⟨3, 5⟩⟩ =
      (some ⟨.number (Float.ofInt (-2)), ⟨4, 2⟩⟩, ⟨"gh".toList, ⟨4, 28⟩⟩) := by
  have hall : "\n ".toList.all Text.isBlank = true := by
    decide
  have hblanks := List.all_eq_true.mp hall
  obtain ⟨-, -, kind, hpull, -, hnumber, -⟩ :=
    pull_literal .hexadecimal hblanks "0000000000000000FfFfFfFegh".toList ⟨3, 5⟩
  obtain ⟨hkind, -⟩ := hnumber (by decide) (by decide)
  have hi : kind = .number (Float.ofInt (-2)) := hkind
  rw [hi] at hpull
  exact hpull

end Radix

end Reckoner
