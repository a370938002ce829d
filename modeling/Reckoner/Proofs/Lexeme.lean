import Mathlib.Data.List.TakeWhile
import Reckoner.Lexeme

/-!
# Lexemes and what follows them

A lexeme is found from the text behind its first character, but it depends on no more of that text
than it takes and the one character behind. What may follow it without changing it is this
character, or a delimiter: a character that continues neither a name, a word or a number, nor turns
a radix letter into the opening of a literal. Blanks and the marks of the grammar are delimiters.

`Lexeme.front_endsLike` states this for every lexeme, well formed or not. So cut off behind its own
characters and set before other text that starts with a delimiter it is the same lexeme
(`Lexeme.local_front`), and a delimiter behind a text does not change the lexemes in it
(`Lexeme.front_before`).
-/

namespace Reckoner

namespace Text

/-- A character that continues no lexeme. -/
def isDelimiter (c : Char) : Bool :=
  !isLetterOrDigit c && c != '.' && c != '$'

private def codePoints (ranges : List (Nat × Nat)) : List Nat :=
  ranges.flatMap fun r => List.range' r.1 (r.2 - r.1 + 1)

private theorem mem_codePoints {n : Nat} {ranges : List (Nat × Nat)}
    (h : inRanges n ranges = true) : n ∈ codePoints ranges := by
  obtain ⟨r, hr, hlow, hhigh⟩ := exists_range_of_inRanges h
  refine List.mem_flatMap.mpr ⟨r, hr, ?_⟩
  rw [List.mem_range'_1]
  omega

/-- The tables of blanks and of letters and digits share no code point. -/
theorem isLetterOrDigit_of_isBlank {c : Char} (h : isBlank c = true) :
    isLetterOrDigit c = false := by
  have apart : ∀ n ∈ codePoints blankRanges,
      inRanges n alphabeticBelow2000 = false ∧ inRanges n alphabeticBelow10000 = false ∧
        inRanges n alphabeticAbove = false ∧ inRanges n numericRanges = false := by
    decide +kernel
  obtain ⟨hlow, hmiddle, habove, hnumeric⟩ := apart c.toNat (mem_codePoints h)
  simp [isLetterOrDigit, isLetter, isNumeric, hlow, hmiddle, habove, hnumeric]

theorem isDelimiter_of_isBlank {c : Char} (h : isBlank c = true) : isDelimiter c = true := by
  have hpoint : c ≠ '.' := by
    rintro rfl
    exact absurd h (by decide)
  have hdollar : c ≠ '$' := by
    rintro rfl
    exact absurd h (by decide)
  simp [isDelimiter, isLetterOrDigit_of_isBlank h, hpoint, hdollar]

/-- A digit of a radix may stand inside a name. -/
theorem isLetterOrDigit_of_isDigitOf {base : Nat} {c : Char} (h : isDigitOf base c = true) :
    isLetterOrDigit c = true := by
  have inside : ∀ n ∈ codePoints [(0x30, 0x39), (0x41, 0x46), (0x61, 0x66)],
      n < 0x2000 ∧ (inRanges n alphabeticBelow2000 || inRanges n numericRanges) = true := by
    decide +kernel
  have hrange : inRanges c.toNat [(0x30, 0x39), (0x41, 0x46), (0x61, 0x66)] = true := by
    obtain ⟨n, hvalue, -⟩ := Option.any_eq_true .. |>.mp h
    have bounds := range_of_digitValue? hvalue
    simp only [inRanges]
    grind
  obtain ⟨hsmall, hmember⟩ := inside c.toNat (mem_codePoints hrange)
  simpa [isLetterOrDigit, isLetter, isNumeric, hsmall] using hmember

theorem isDelimiter_of_isLetterOrDigit {c : Char} (h : isLetterOrDigit c = true) :
    isDelimiter c = false := by
  simp [isDelimiter, h]

theorem isDelimiter_of_isDigitOf {base : Nat} {c : Char} (h : isDigitOf base c = true) :
    isDelimiter c = false :=
  isDelimiter_of_isLetterOrDigit (isLetterOrDigit_of_isDigitOf h)

/-- The digits of a decimal literal are the digits of base ten. -/
theorem isDigitOf_ten {c : Char} (h : c.isDigit = true) : isDigitOf 10 c = true := by
  simp only [Char.isDigit, Bool.and_eq_true, decide_eq_true_eq] at h
  change 0x30 ≤ c.val ∧ c.val ≤ 0x39 at h
  have hdigit : '0' ≤ c ∧ c ≤ '9' := h
  have hbound : c.toNat ≤ 0x39 := by
    simpa [UInt32.le_iff_toNat_le] using h.2
  simp only [isDigitOf, digitValue?, if_pos hdigit, Option.any_some, decide_eq_true_eq]
  change c.toNat - 0x30 < 10
  omega

theorem take_length_takeWhile (p : Char → Bool) (cs : List Char) :
    cs.take (cs.takeWhile p).length = cs.takeWhile p :=
  (List.prefix_iff_eq_take.mp (List.takeWhile_prefix p)).symm

theorem drop_length_takeWhile (p : Char → Bool) (cs : List Char) :
    cs.drop (cs.takeWhile p).length = cs.dropWhile p := by
  have hsplit := List.takeWhile_append_dropWhile (p := p) (l := cs)
  calc cs.drop (cs.takeWhile p).length
      = (cs.takeWhile p ++ cs.dropWhile p).drop (cs.takeWhile p).length := by rw [hsplit]
    _ = cs.dropWhile p := List.drop_left

/-- A longest run ends at the first character that does not belong to it. -/
theorem takeWhile_run {p : Char → Bool} {run rest : List Char} (hrun : ∀ c ∈ run, p c = true)
    (hrest : ∀ c ∈ rest.head?, p c = false) : (run ++ rest).takeWhile p = run := by
  rw [List.takeWhile_append_of_pos hrun]
  cases rest with
  | nil => simp
  | cons c rest => simp [hrest c rfl]

theorem dropWhile_run {p : Char → Bool} {run rest : List Char} (hrun : ∀ c ∈ run, p c = true)
    (hrest : ∀ c ∈ rest.head?, p c = false) : (run ++ rest).dropWhile p = rest := by
  have hsplit := List.takeWhile_append_dropWhile (p := p) (l := run ++ rest)
  rw [takeWhile_run hrun hrest] at hsplit
  exact List.append_cancel_left hsplit

/-- No digit of a decimal literal is a letter. -/
theorem isLetter_of_isDigit {c : Char} (h : c.isDigit = true) : isLetter c = false := by
  have apart : ∀ n ∈ codePoints [(0x30, 0x39)],
      n < 0x2000 ∧ inRanges n alphabeticBelow2000 = false := by
    decide +kernel
  have hrange : inRanges c.toNat [(0x30, 0x39)] = true := by
    simp only [Char.isDigit, Bool.and_eq_true, decide_eq_true_eq, UInt32.le_iff_toNat_le] at h
    change 0x30 ≤ c.toNat ∧ c.toNat ≤ 0x39 at h
    simp only [inRanges]
    grind
  obtain ⟨hsmall, hnone⟩ := apart c.toNat (mem_codePoints hrange)
  simp [isLetter, hsmall, hnone]

end Text

/-- Text in front of which a lexeme ends: none at all, or some that starts with a delimiter. -/
def Delimited (rest : List Char) : Prop :=
  ∀ c ∈ rest.head?, Text.isDelimiter c = true

namespace Delimited

theorem nil : Delimited [] := by
  intro c hc
  simp at hc

theorem cons {c : Char} (h : Text.isDelimiter c = true) (rest : List Char) :
    Delimited (c :: rest) := by
  intro d hd
  obtain rfl : c = d := by simpa using hd
  exact h

theorem of_isBlank {blanks : List Char} (h : ∀ c ∈ blanks, Text.isBlank c = true) :
    Delimited blanks := by
  intro c hc
  exact Text.isDelimiter_of_isBlank (h c (List.mem_of_mem_head? hc))

variable {rest : List Char}

theorem append (h : Delimited rest) (hne : rest ≠ []) (others : List Char) :
    Delimited (rest ++ others) := by
  cases rest with
  | nil => exact absurd rfl hne
  | cons c cs => exact .cons (h c rfl) _

end Delimited

variable {rest : List Char}

/-- Text in front of which a decimal literal ends: none at all, or some that starts with neither a
digit nor a point. -/
def EndsNumeral (rest : List Char) : Prop :=
  ∀ c ∈ rest.head?, (c.isDigit || c == '.') = false

theorem endsNumeral_nil : EndsNumeral [] := by
  intro c hc
  simp at hc

theorem EndsNumeral.cons {c : Char} (h : (c.isDigit || c == '.') = false) (rest : List Char) :
    EndsNumeral (c :: rest) := by
  intro d hd
  obtain rfl : c = d := by simpa using hd
  exact h

theorem EndsNumeral.isDigit_eq_false (h : EndsNumeral rest) :
    ∀ c ∈ rest.head?, c.isDigit = false := by
  intro c hc
  exact (Bool.or_eq_false_iff.mp (h c hc)).1

/-- A numeral of digits is the whole of the literal at the front of a text, if the text behind it
ends the literal. -/
theorem Numeral.front_chars_append {n : Numeral} (h : EndsNumeral rest)
    (hdigits : ∀ c ∈ n.digits, c.isDigit = true) : front (n.chars ++ rest) = n := by
  obtain ⟨whole, fraction?⟩ := n
  have hwhole : ∀ c ∈ whole, c.isDigit = true := fun c hc => hdigits c (by simp [digits, hc])
  cases fraction? with
  | none =>
      have hpoint : ∀ others, rest ≠ '.' :: others := by
        rintro others rfl
        exact absurd (h '.' rfl) (by decide)
      simp only [front, chars, Text.takeWhile_run hwhole h.isDigit_eq_false,
        Text.dropWhile_run hwhole h.isDigit_eq_false]
  | some fraction =>
      have hfraction : ∀ c ∈ fraction, c.isDigit = true :=
        fun c hc => hdigits c (by simp [digits, hc])
      simp only [front, chars, List.append_assoc, List.cons_append,
        List.takeWhile_append_of_pos hwhole, List.dropWhile_append_of_pos hwhole]
      simp [Text.takeWhile_run hfraction h.isDigit_eq_false]

theorem Numeral.isDigit_of_mem_digits_front (cs : List Char) :
    ∀ c ∈ (front cs).digits, c.isDigit = true := by
  intro c hc
  rw [front] at hc
  split at hc
  · obtain hc | hc := List.mem_append.mp hc
    · exact List.mem_takeWhile_imp hc
    · exact List.mem_takeWhile_imp hc
  · exact List.mem_takeWhile_imp (by simpa [digits] using hc)

theorem Numeral.front_of_isDigit {c : Char} (hc : c.isDigit = true) (cs : List Char) :
    front (c :: cs) = ⟨c :: (front cs).whole, (front cs).fraction?⟩ := by
  rw [front, front, List.takeWhile_cons_of_pos hc, List.dropWhile_cons_of_pos hc]
  split <;> rfl

theorem Numeral.front_point (cs : List Char) :
    front ('.' :: cs) = ⟨[], some (cs.takeWhile Char.isDigit)⟩ := rfl

/-- A digit or a point is the first character of its literal. -/
theorem Numeral.front_cons {c : Char} (hc : (c.isDigit || c == '.') = true) (cs : List Char) :
    ∃ taken, (front (c :: cs)).chars = c :: taken := by
  obtain hdigit | rfl : c.isDigit = true ∨ c = '.' := by simpa using hc
  · rw [front_of_isDigit hdigit, chars]
    split <;> simp
  · exact ⟨_, rfl⟩

/-- The second text ends every lexeme that the first one ends: it starts in the same way or with a
delimiter, or it is empty. -/
def EndsLike (rest rest' : List Char) : Prop :=
  ∀ c ∈ rest'.head?, Text.isDelimiter c = true ∨ rest.head? = some c

variable {rest' : List Char}

theorem Delimited.endsLike (h : Delimited rest') (rest : List Char) : EndsLike rest rest' :=
  fun c hc => .inl (h c hc)

theorem EndsLike.of_head?_eq (h : rest'.head? = rest.head?) : EndsLike rest rest' := by
  intro c hc
  rw [h] at hc
  exact .inr hc

/-- If the first text starts with no character of a run, neither does the second. -/
theorem EndsLike.head?_eq_false {p : Char → Bool} (h : EndsLike rest rest')
    (hp : ∀ c, p c = true → Text.isDelimiter c = false) (hrest : ∀ c ∈ rest.head?, p c = false) :
    ∀ c ∈ rest'.head?, p c = false := by
  intro c hc
  obtain hdelimiter | hsame := h c hc
  · by_contra hpc
    simp [hp c (by simpa using hpc)] at hdelimiter
  · exact hrest c hsame

/-- A run that ends in some text ends there as well when the text behind it changes. -/
theorem EndsLike.takeWhile_eq {p : Char → Bool} (h : EndsLike rest rest')
    (hp : ∀ c, p c = true → Text.isDelimiter c = false) {cs : List Char}
    (hcs : ((cs ++ rest).takeWhile p).length ≤ cs.length) :
    (cs ++ rest').takeWhile p = (cs ++ rest).takeWhile p := by
  induction cs with
  | nil =>
      have hrest : ∀ c ∈ rest.head?, p c = false := by
        intro c hc
        obtain ⟨others, rfl⟩ : ∃ others, rest = c :: others := by
          cases rest <;> simp_all
        by_contra hpc
        simp [hpc] at hcs
      have hnone (text : List Char) (htext : ∀ c ∈ text.head?, p c = false) :
          ([] ++ text).takeWhile p = [] :=
        Text.takeWhile_run (by simp) htext
      rw [hnone rest hrest, hnone rest' (h.head?_eq_false hp hrest)]
  | cons c cs ih =>
      simp only [List.cons_append, List.takeWhile_cons] at hcs ⊢
      split
      · rename_i hpc
        simp only [hpc, if_true, List.length_cons, Nat.add_le_add_iff_right] at hcs
        rw [ih hcs]
      · rfl

namespace Numeral

/-- There is no decimal literal before text that ends one. -/
theorem front_of_endsNumeral (h : EndsNumeral rest) : front rest = ⟨[], none⟩ :=
  front_chars_append (n := ⟨[], none⟩) h (by simp [digits])

theorem endsNumeral_of_front (h : (front rest).chars.length ≤ 0) : EndsNumeral rest := by
  cases rest with
  | nil => exact endsNumeral_nil
  | cons c others =>
      apply EndsNumeral.cons
      by_contra hc
      obtain ⟨taken, htaken⟩ := front_cons ((Bool.not_eq_false _).mp hc) others
      simp [htaken] at h

/-- A decimal literal that ends in some text ends there as well when the text behind it changes. -/
theorem front_endsLike (h : EndsLike rest rest') {cs : List Char}
    (hcs : (front (cs ++ rest)).chars.length ≤ cs.length) :
    front (cs ++ rest') = front (cs ++ rest) := by
  have hdigit : ∀ c : Char, c.isDigit = true → Text.isDelimiter c = false :=
    fun c hc => Text.isDelimiter_of_isDigitOf (Text.isDigitOf_ten hc)
  induction cs with
  | nil =>
      have hrest : EndsNumeral rest := endsNumeral_of_front hcs
      have hrest' : EndsNumeral rest' := by
        refine h.head?_eq_false ?_ hrest
        intro c hc
        obtain hc | rfl : c.isDigit = true ∨ c = '.' := by simpa using hc
        · exact hdigit c hc
        · decide
      exact (front_of_endsNumeral hrest').trans (front_of_endsNumeral hrest).symm
  | cons c cs ih =>
      rw [List.cons_append] at hcs
      rw [List.cons_append, List.cons_append]
      by_cases hc : c.isDigit = true
      · rw [front_of_isDigit hc] at hcs
        have hshorter : (front (cs ++ rest)).chars.length ≤ cs.length := by
          cases hfront : (front (cs ++ rest)).fraction? <;>
            simp_all [chars]
        rw [front_of_isDigit hc, front_of_isDigit hc, ih hshorter]
      · by_cases hpoint : c = '.'
        · subst hpoint
          rw [front_point] at hcs
          rw [front_point, front_point, h.takeWhile_eq hdigit (by simpa [chars] using hcs)]
        · have hends (others : List Char) : EndsNumeral (c :: others) :=
            .cons (by simp [hc, hpoint]) others
          rw [front_of_endsNumeral (hends _), front_of_endsNumeral (hends _)]

end Numeral

namespace Lexeme

/-- The characters that decide on a lexeme without being looked up: the marks, which are lexemes of
their own, and the sign of a variable. -/
def marks : List Char := ['(', ')', '=', '+', '-', '*', '/', '^', '$']

theorem front_of_not_mark {c : Char} (h : c ∉ marks) (cs : List Char) :
    front c cs =
      if (c.isDigit || c == '.') = true then decimal (c :: cs)
      else if Text.isLetter c = true then afterLetter c cs
      else ⟨.bad (.unexpected c), 0⟩ := by
  rw [front] <;> simp_all [marks]

theorem front_dollar (cs : List Char) : front '$' cs = nameAfterDollar cs := rfl

theorem front_decimal {c : Char} (hc : (c.isDigit || c == '.') = true) (cs : List Char) :
    front c cs = decimal (c :: cs) := by
  have hmarks : marks.all (fun m => !(m.isDigit || m == '.')) = true := by decide
  rw [front_of_not_mark, if_pos hc]
  intro hmark
  have hnot := List.all_eq_true.mp hmarks c hmark
  simp [hc] at hnot

theorem front_letter {c : Char} (hc : Text.isLetter c = true) (cs : List Char) :
    front c cs = afterLetter c cs := by
  have hmarks : ('.' :: marks).all (fun m => !Text.isLetter m) = true := by decide
  have hdigit : c.isDigit = false := by
    by_contra hdigit
    simp [Text.isLetter_of_isDigit (by simpa using hdigit)] at hc
  have hpoint : c ≠ '.' := by
    rintro rfl
    have hnot := List.all_eq_true.mp hmarks '.' List.mem_cons_self
    simp [hc] at hnot
  rw [front_of_not_mark, if_neg (by simp [hdigit, hpoint]), if_pos hc]
  intro hmark
  have hnot := List.all_eq_true.mp hmarks c (List.mem_cons_of_mem _ hmark)
  simp [hc] at hnot

/-- What the first character of a lexeme decides: a lexeme of this character alone, a name, a
decimal literal, or what a letter starts. -/
theorem front_forms (c : Char) :
    (∃ kind, ∀ cs, front c cs = ⟨kind, 0⟩) ∨
    (c = '$' ∧ ∀ cs, front c cs = nameAfterDollar cs) ∨
    ((c.isDigit || c == '.') = true ∧ ∀ cs, front c cs = decimal (c :: cs)) ∨
    (Text.isLetter c = true ∧ ∀ cs, front c cs = afterLetter c cs) := by
  by_cases hdollar : c = '$'
  · subst hdollar
    exact .inr (.inl ⟨rfl, front_dollar⟩)
  by_cases hmark : c ∈ marks
  · simp only [marks, List.mem_cons, List.not_mem_nil, or_false, hdollar] at hmark
    obtain rfl | rfl | rfl | rfl | rfl | rfl | rfl | rfl := hmark
    all_goals exact .inl ⟨_, fun _ => rfl⟩
  by_cases hdigit : (c.isDigit || c == '.') = true
  · exact .inr (.inr (.inl ⟨hdigit, front_decimal hdigit⟩))
  by_cases hletter : Text.isLetter c = true
  · exact .inr (.inr (.inr ⟨hletter, front_letter hletter⟩))
  · exact .inl ⟨_, fun cs => by rw [front_of_not_mark hmark, if_neg hdigit, if_neg hletter]⟩

/-! ### Lexemes before other text -/

/-- A letter that opens no radix literal here starts a word. -/
theorem afterLetter_eq_bareWord {c : Char} {cs : List Char}
    (h : ∀ r others, Radix.ofLetter? c = some r → cs ≠ '$' :: others) :
    afterLetter c cs = bareWord c cs := by
  rw [afterLetter]
  exact h

variable {cs : List Char}

theorem nameAfterDollar_endsLike (h : EndsLike rest rest')
    (hcs : (nameAfterDollar (cs ++ rest)).more ≤ cs.length) :
    nameAfterDollar (cs ++ rest') = nameAfterDollar (cs ++ rest) := by
  cases cs with
  | nil =>
      have nameless : ∀ text : List Char, (∀ c ∈ text.head?, Text.isLetter c = false) →
          nameAfterDollar ([] ++ text) = ⟨.bad .nameless, 0⟩ := by
        intro text htext
        cases text with
        | nil => rfl
        | cons c others => simp [nameAfterDollar, htext c rfl]
      have hrest : ∀ c ∈ rest.head?, Text.isLetter c = false := by
        intro c hc
        obtain ⟨others, rfl⟩ : ∃ others, rest = c :: others := by
          cases rest <;> simp_all
        by_contra hletter
        have hletter : Text.isLetter c = true := by simpa using hletter
        simp [nameAfterDollar, hletter] at hcs
      have hletter : ∀ c, Text.isLetter c = true → Text.isDelimiter c = false := by
        intro c hc
        exact Text.isDelimiter_of_isLetterOrDigit (by simp [Text.isLetterOrDigit, hc])
      rw [nameless rest hrest, nameless rest' (h.head?_eq_false hletter hrest)]
  | cons c cs =>
      simp only [List.cons_append, nameAfterDollar] at hcs ⊢
      split
      · rename_i hletter
        simp only [hletter, if_true, List.length_cons, Nat.add_le_add_iff_right] at hcs
        rw [h.takeWhile_eq (fun _ => Text.isDelimiter_of_isLetterOrDigit) hcs]
      · rfl

theorem decimal_endsLike (h : EndsLike rest rest') {c : Char}
    (hcs : (decimal (c :: (cs ++ rest))).more ≤ cs.length) :
    decimal (c :: (cs ++ rest')) = decimal (c :: (cs ++ rest)) := by
  have hlength : (Numeral.front ((c :: cs) ++ rest)).chars.length ≤ (c :: cs).length := by
    simp only [decimal] at hcs
    simp only [List.cons_append, List.length_cons]
    omega
  have hfront := Numeral.front_endsLike h hlength
  rw [List.cons_append, List.cons_append] at hfront
  rw [decimal, decimal, hfront]

theorem bareWord_endsLike (h : EndsLike rest rest') {c : Char}
    (hcs : (bareWord c (cs ++ rest)).more ≤ cs.length) :
    bareWord c (cs ++ rest') = bareWord c (cs ++ rest) := by
  rw [bareWord, bareWord, h.takeWhile_eq (fun _ => Text.isDelimiter_of_isLetterOrDigit) hcs]

theorem afterLetter_endsLike (h : EndsLike rest rest') {c : Char}
    (hcs : (afterLetter c (cs ++ rest)).more ≤ cs.length) :
    afterLetter c (cs ++ rest') = afterLetter c (cs ++ rest) := by
  have opened {r : Radix} (hr : Radix.ofLetter? c = some r) (text : List Char) :
      afterLetter c ('$' :: text) = radixLiteral r text := by
    simp [afterLetter, hr]
  cases hradix : Radix.ofLetter? c with
  | none =>
      have hword (text : List Char) : afterLetter c text = bareWord c text :=
        afterLetter_eq_bareWord (by simp [hradix])
      rw [hword] at hcs
      rw [hword, hword, bareWord_endsLike h hcs]
  | some r =>
      have hword {text : List Char} (htext : ∀ others, text ≠ '$' :: others) :
          afterLetter c text = bareWord c text :=
        afterLetter_eq_bareWord fun _ others _ => htext others
      cases cs with
      | nil =>
          have hrest : ∀ others, [] ++ rest ≠ '$' :: others := by
            intro others heq
            obtain rfl : rest = '$' :: others := heq
            rw [List.nil_append, opened hradix, radixLiteral] at hcs
            simp at hcs
          have hrest' : ∀ others, [] ++ rest' ≠ '$' :: others := by
            intro others heq
            obtain rfl : rest' = '$' :: others := heq
            obtain hdelimiter | hsame := h '$' rfl
            · exact absurd hdelimiter (by decide)
            · obtain ⟨others', hrest'⟩ := List.head?_eq_some_iff.mp hsame
              exact hrest others' hrest'
          rw [hword hrest] at hcs
          rw [hword hrest, hword hrest', bareWord_endsLike h hcs]
      | cons d cs =>
          by_cases hd : d = '$'
          · subst hd
            have hdigit : ∀ d, r.isDigit d = true → Text.isDelimiter d = false :=
              fun _ => Text.isDelimiter_of_isDigitOf
            rw [List.cons_append, opened hradix, radixLiteral] at hcs
            rw [List.cons_append, List.cons_append, opened hradix, opened hradix, radixLiteral,
              radixLiteral, h.takeWhile_eq hdigit (by simpa using hcs)]
          · have hne (text others : List Char) : d :: text ≠ '$' :: others := by
              simp [hd]
            rw [List.cons_append, hword (hne _), ← List.cons_append] at hcs
            rw [List.cons_append, hword (hne _), List.cons_append, hword (hne _),
              ← List.cons_append, bareWord_endsLike h hcs, List.cons_append]

/-- A lexeme that ends in some text is the same when the text behind it changes. -/
theorem front_endsLike (h : EndsLike rest rest') {c : Char}
    (hcs : (front c (cs ++ rest)).more ≤ cs.length) :
    front c (cs ++ rest') = front c (cs ++ rest) := by
  obtain ⟨kind, hc⟩ | ⟨-, hc⟩ | ⟨-, hc⟩ | ⟨-, hc⟩ := front_forms c
  · rw [hc, hc]
  · rw [hc] at hcs
    rw [hc, hc, nameAfterDollar_endsLike h hcs]
  · rw [hc] at hcs
    rw [hc, hc, decimal_endsLike h hcs]
  · rw [hc] at hcs
    rw [hc, hc, afterLetter_endsLike h hcs]

/-! ### How much a lexeme takes -/

theorem more_nameAfterDollar_le (cs : List Char) : (nameAfterDollar cs).more ≤ cs.length := by
  cases cs with
  | nil => exact Nat.le_refl _
  | cons c cs =>
      rw [nameAfterDollar]
      split
      · exact Nat.succ_le_succ (List.takeWhile_prefix _).length_le
      · exact Nat.zero_le _

theorem more_decimal_le (c : Char) (cs : List Char) : (decimal (c :: cs)).more ≤ cs.length := by
  obtain ⟨others, hothers⟩ := Numeral.chars_append_front (c :: cs)
  have hlength := congrArg List.length hothers
  simp only [List.length_append, List.length_cons] at hlength
  simp only [decimal]
  omega

theorem more_afterLetter_le (c : Char) (cs : List Char) : (afterLetter c cs).more ≤ cs.length := by
  rw [afterLetter.eq_def]
  split
  · exact Nat.succ_le_succ (List.takeWhile_prefix _).length_le
  · exact (List.takeWhile_prefix _).length_le

/-- A lexeme takes no more text than there is. -/
theorem more_front_le (c : Char) (cs : List Char) : (front c cs).more ≤ cs.length := by
  obtain ⟨kind, h⟩ | ⟨-, h⟩ | ⟨-, h⟩ | ⟨-, h⟩ := front_forms c
  · rw [h]
    exact Nat.zero_le _
  · rw [h]
    exact more_nameAfterDollar_le cs
  · rw [h]
    exact more_decimal_le c cs
  · rw [h]
    exact more_afterLetter_le c cs

/-- A lexeme does not change before text that starts with a delimiter. -/
theorem front_before (h : Delimited rest) (c : Char) (cs : List Char) :
    front c (cs ++ rest) = front c cs := by
  have hcs : (front c (cs ++ [])).more ≤ cs.length := by
    rw [List.append_nil]
    exact more_front_le c cs
  rw [front_endsLike (h.endsLike []) hcs, List.append_nil]

/-- Reading a lexeme from some text takes no more than there is, and depends on what it takes
alone. -/
def Local (lexeme : List Char → Lexeme) : Prop :=
  ∀ cs, (lexeme cs).more ≤ cs.length ∧
    ∀ rest, Delimited rest → lexeme (cs.take (lexeme cs).more ++ rest) = lexeme cs

/-- A lexeme takes no more text than there is, and it is the same before any text that starts with
a delimiter. -/
theorem local_front (c : Char) : Local (front c) := by
  intro cs
  refine ⟨more_front_le c cs, ?_⟩
  intro rest hrest
  let taken := cs.take (front c cs).more
  let behind := cs.drop (front c cs).more
  have hsplit : taken ++ behind = cs := List.take_append_drop _ cs
  have htaken : (front c (taken ++ behind)).more ≤ taken.length := by
    rw [hsplit, List.length_take]
    exact Nat.le_min.mpr ⟨Nat.le_refl _, more_front_le c cs⟩
  have hsame := front_endsLike (hrest.endsLike behind) htaken
  rwa [hsplit] at hsame

end Lexeme

namespace Radix

variable {r : Radix} {digits : List Char}

theorem isLetter_letter (r : Radix) : Text.isLetter r.letter = true := by
  cases r <;> decide

theorem isBlank_letter (r : Radix) : Text.isBlank r.letter = false := by
  cases r <;> decide

/-- Digits of a radix are all taken by its literal. -/
theorem front_letter (h : ∀ c ∈ digits, r.isDigit c = true) :
    Lexeme.front r.letter ('$' :: digits) = ⟨Lexeme.radixKind r digits, digits.length + 1⟩ := by
  have hall : digits.takeWhile r.isDigit = digits := List.takeWhile_eq_self_iff.mpr h
  rw [Lexeme.front_letter r.isLetter_letter]
  simp [Lexeme.afterLetter, Lexeme.radixLiteral, hall]

/-- A literal of a number of 32 bits has the number that the digits stand for as a pattern. -/
theorem radixKind_of_lt (hne : digits ≠ []) (hlt : r.numberOf digits < 2 ^ 32) :
    Lexeme.radixKind r digits =
      .number (Float.ofInt (TwosComplement.signed (r.numberOf digits))) := by
  rw [Lexeme.radixKind, if_neg (by simpa using hne), if_pos hlt]

end Radix

end Reckoner
