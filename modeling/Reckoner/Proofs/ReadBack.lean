import Reckoner.Evaluation
import Reckoner.Format
import Reckoner.Proofs.Notation
import Reckoner.Proofs.Run

/-!
# Reading output back

What a decimal mode writes without a precision may be entered again as an expression. A text is
evaluated segment by segment: the sign of a number, then the number, then what is left. A text
without a power of ten is the number that was written. The `e` of a power of ten stands where an
operator is due, and the name of an infinity or of NaN where an operand is due; both are faults.
-/

namespace Reckoner

namespace Format

def sign (negative : Bool) : List Char :=
  if negative then ['-'] else []

theorem signed_eq_append (x : Exact) (digits : List Char) :
    signed x digits = sign x.negative ++ digits := by
  rw [signed, sign]
  split <;> rfl

end Format

namespace Segment

/-- The sign of a number is one lexeme before any text. -/
theorem exists_minus : ∃ g : Segment, g.chars = ['-'] ∧ g.kind = .minus ∧
    ∀ rest, g.ReadsBefore rest := by
  refine ⟨⟨[], '-', [], .minus, by simp, by decide⟩, rfl, rfl, ?_⟩
  intro rest
  rfl

/-- A letter that opens no radix literal is the first of a word. -/
theorem exists_word {c : Char} (hletter : Text.isLetter c = true)
    (hradix : Radix.ofLetter? c = none) (cs : List Char) :
    ∃ (g : Segment) (text : String) (rest : List Char), c :: cs = g.chars ++ rest ∧
      g.blanks = [] ∧ g.kind = .word text ∧ g.ReadsBefore rest := by
  let run := cs.takeWhile Text.isLetterOrDigit
  refine ⟨⟨[], c, run, .word (String.ofList (c :: run)), by simp,
    Spelling.isBlank_of_isLetter hletter⟩, _, cs.dropWhile Text.isLetterOrDigit, ?_, rfl, rfl, ?_⟩
  · simp [chars, lexeme, run, List.takeWhile_append_dropWhile]
  · have hword : Lexeme.afterLetter c cs = Lexeme.bareWord c cs := by
      apply Lexeme.afterLetter_eq_bareWord
      intro r others hr
      simp [hradix] at hr
    rw [ReadsBefore, List.takeWhile_append_dropWhile, Lexeme.front_letter hletter, hword]
    rfl

end Segment

namespace Evaluation

variable {store : Store} {s next : State} {g : Segment} {rest : List Char} {p : Place}

theorem resume_of_step (hreads : g.ReadsBefore rest) (hstep : step store s (g.token p) = .ok next) :
    resume store s ⟨g.chars ++ rest, p⟩ = resume store next ⟨rest, p.afterAll g.chars⟩ := by
  rw [resume, Scan.ofCursor_of_pull_some (Cursor.pull_segment g hreads p)]
  exact run_cons hstep _ _

theorem resume_of_step_error {e : EvalError} (hreads : g.ReadsBefore rest)
    (hstep : step store s (g.token p) = .error e) :
    resume store s ⟨g.chars ++ rest, p⟩ = ⟨.error e, store⟩ := by
  rw [resume, Scan.ofCursor_of_pull_some (Cursor.pull_segment g hreads p)]
  simp only [run, hstep]

theorem resume_end (store : Store) (s : State) (p : Place) :
    resume store s ⟨[], p⟩ = close p store s := by
  rw [resume, Scan.ofCursor_of_pull_none (Cursor.pull_blanks (by simp) p)]
  rfl

/-! ### Signs, numbers and words -/

/-- What waits behind the sign of a number. -/
def signFrames (negative : Bool) : List Frame :=
  if negative then [.sign true] else []

theorem evaluate_sign (store : Store) (negative : Bool) (cs : List Char) :
    evaluate store (String.ofList (Format.sign negative ++ cs)) =
      resume store (.operand (signFrames negative)) ⟨cs, Place.behind (Format.sign negative)⟩ := by
  have hstart : evaluate store (String.ofList (Format.sign negative ++ cs)) =
      resume store (.operand []) ⟨Format.sign negative ++ cs, Place.start⟩ := by
    rw [evaluate, ofScan, Scan.ofText, Cursor.ofText, String.toList_ofList, resume]
  rw [hstart]
  -- Without a sign nothing is taken yet.
  cases negative with
  | false => rfl
  | true =>
      obtain ⟨g, hchars, hkind, hreads⟩ := Segment.exists_minus
      have hsign : Format.sign true = g.chars := hchars.symm
      rw [hsign, ← Place.start_afterAll]
      have hroom : depth [] < maxNesting := by decide
      apply resume_of_step (hreads cs)
      simp [step, takeOperand, Segment.token, hkind, nest_of_lt hroom, signFrames]

variable {value : Float} {stack : List Frame} {c : Char} {cs : List Char}

theorem resume_number (store : Store) (stack : List Frame) (p : Place) (d : Decimal)
    (hrest : EndsNumeral rest) :
    resume store (.operand stack) ⟨d.text ++ rest, p⟩ =
      resume store (.operator d.toFloat stack) ⟨rest, p.afterAll d.text⟩ := by
  obtain ⟨g, hchars, -, hkind, hreads⟩ := d.exists_segment
  rw [← hchars]
  apply resume_of_step (hreads rest hrest)
  simp [step, takeOperand, Segment.token, hkind]

/-- A word stands where an operand is due. -/
theorem resume_operand_word (hletter : Text.isLetter c = true)
    (hradix : Radix.ofLetter? c = none) :
    resume store (.operand stack) ⟨c :: cs, p⟩ = ⟨.error ⟨.operandExpected, p⟩, store⟩ := by
  obtain ⟨g, text, rest, hcs, hblanks, hkind, hreads⟩ := Segment.exists_word hletter hradix cs
  rw [hcs]
  apply resume_of_step_error hreads
  simp [step, takeOperand, Segment.token, hkind, hblanks]

theorem reduce_signFrames (negative : Bool) (value : Float) :
    reduce 0 value (signFrames negative) = .ok (signed negative value, []) := by
  cases negative <;> rfl

/-- A word stands behind a number. -/
theorem resume_operator_word (hletter : Text.isLetter c = true)
    (hradix : Radix.ofLetter? c = none) (negative : Bool) :
    resume store (.operator value (signFrames negative)) ⟨c :: cs, p⟩ =
      ⟨.error ⟨.misplaced, p⟩, store⟩ := by
  obtain ⟨g, text, rest, hcs, hblanks, hkind, hreads⟩ := Segment.exists_word hletter hradix cs
  rw [hcs]
  apply resume_of_step_error hreads
  simp only [step, takeOperator, Segment.token, hkind, hblanks, Operator.ofKind?,
    reduce_signFrames]
  rfl

/-! ### Texts of numbers -/

/-- The text of a decimal is its float, under its sign. -/
theorem result_evaluate_decimal (store : Store) (negative : Bool) (d : Decimal) :
    (evaluate store (String.ofList (Format.sign negative ++ d.text))).result =
      .ok (signed negative d.toFloat) := by
  have hnumber := resume_number store (signFrames negative)
    (Place.behind (Format.sign negative)) d endsNumeral_nil
  rw [List.append_nil] at hnumber
  rw [evaluate_sign, hnumber, resume_end]
  cases negative <;> rfl

/-- The text of a decimal with a power of ten fails at the `e`. -/
theorem result_evaluate_scientific (store : Store) (negative : Bool) (s : Scientific) :
    (evaluate store (String.ofList (Format.sign negative ++ s.text))).result =
      .error ⟨.misplaced, Place.behind (Format.sign negative ++ s.mantissa.text)⟩ := by
  have hexponent : EndsNumeral (Notation.exponentText s.exponent) := .cons (by decide) _
  rw [evaluate_sign, Scientific.text, resume_number _ _ _ _ hexponent, Place.behind_afterAll,
    Notation.exponentText, resume_operator_word (by decide) (by decide)]

/-- The name of a number that is not finite fails behind its sign. -/
theorem result_evaluate_name (store : Store) (negative : Bool) (hletter : Text.isLetter c = true)
    (hradix : Radix.ofLetter? c = none) :
    (evaluate store (String.ofList (Format.sign negative ++ c :: cs))).result =
      .error ⟨.operandExpected, Place.behind (Format.sign negative)⟩ := by
  rw [evaluate_sign, resume_operand_word hletter hradix]

end Evaluation

namespace Format

variable {v : Float} {x : Exact}

/-! ### What is written -/

theorem ne_e_of_mem_decimal {negative : Bool} {d : Decimal} {c : Char}
    (h : c ∈ sign negative ++ d.text) : c ≠ 'e' := by
  rintro rfl
  obtain hsign | hdigit := List.mem_append.mp h
  · cases negative <;> simp [sign] at hsign
  · exact Decimal.ne_e_of_mem_text hdigit rfl

theorem takeWhile_scientific (negative : Bool) (s : Scientific) :
    (sign negative ++ s.text).takeWhile (· ≠ 'e') = sign negative ++ s.mantissa.text := by
  rw [Scientific.text, ← List.append_assoc]
  apply Text.takeWhile_run
  · intro c hc
    simpa using ne_e_of_mem_decimal hc
  · intro c hc
    obtain rfl : 'e' = c := by simpa [Notation.exponentText] using hc
    simp

theorem e_mem_scientific (negative : Bool) (s : Scientific) : 'e' ∈ sign negative ++ s.text := by
  simp [Scientific.text, Notation.exponentText]

/-- The shortest decimal of a float and its sign are the float. -/
theorem signed_shortest (h : Exact.ofFloat? v = some x) :
    Evaluation.signed x.negative x.shortest.toFloat = v := by
  have hshortest := Exact.ofFloat?_shortest (Exact.canonical_of_ofFloat? h)
  apply Exact.ofFloat?_inj _ h
  obtain ⟨negative, significand, exponent⟩ := x
  cases negative with
  | false => exact hshortest
  | true => exact Exact.ofFloat?_neg hshortest

/-- Without a precision the real mode chooses between the shortest decimal and scientific
notation. -/
theorem realText_cases (x : Exact) :
    realText x none = x.shortest.text ∨ ∃ s : Scientific, realText x none = s.text := by
  simp only [realText, Scientific.plainText, Scientific.splitExponent_append,
    Decimal.trimFraction_text]
  split
  · exact .inr ⟨⟨_, _⟩, rfl⟩
  · exact .inl rfl

/-- The scientific mode writes some number in scientific notation. -/
theorem scientificText_cases (x : Exact) (precision? : Option Nat) :
    ∃ s : Scientific, scientificText x precision? = s.text := by
  let rounded := scientificDecimal x precision?
  refine ⟨⟨rounded.mantissa, (Notation.splitExponent rounded.plainText).2⟩, ?_⟩
  simp only [scientificText, Notation.normalize, Scientific.plainText, rounded,
    Scientific.splitExponent_append, Scientific.text]

/-- Without a precision a finite float is written as its shortest decimal or, but for the fixed
mode, in scientific notation. -/
theorem chars_of_finite {mode : Mode} (hmode : ∀ r, mode ≠ .radix r)
    (h : Exact.ofFloat? v = some x) :
    (Format.mk mode none).chars v = sign x.negative ++ x.shortest.text ∨
      mode ≠ .fixed ∧ ∃ s : Scientific,
        (Format.mk mode none).chars v = sign x.negative ++ s.text := by
  cases mode with
  | fixed =>
      left
      simp only [chars, decimalText, h, signed_eq_append, fixedDecimal]
  | scientific =>
      right
      obtain ⟨s, htext⟩ := scientificText_cases x none
      refine ⟨by decide, s, ?_⟩
      simp only [chars, decimalText, h, signed_eq_append, htext]
  | real =>
      have hchars : (Format.mk .real none).chars v = sign x.negative ++ realText x none := by
        simp only [chars, decimalText, h, signed_eq_append]
      rw [hchars]
      obtain htext | ⟨s, htext⟩ := realText_cases x
      · left
        rw [htext]
      · right
        exact ⟨by decide, s, by rw [htext]⟩
  | radix r => exact absurd rfl (hmode r)

/-- A float that is not finite is written by name, in all decimal modes. -/
theorem chars_of_not_finite {mode : Mode} (hmode : ∀ r, mode ≠ .radix r)
    (h : Exact.ofFloat? v = none) :
    ∃ negative c cs, (Format.mk mode none).chars v = sign negative ++ c :: cs ∧
      Text.isLetter c = true ∧ Radix.ofLetter? c = none := by
  have hname : ∃ negative c cs, notFinite v = sign negative ++ c :: cs ∧
      Text.isLetter c = true ∧ Radix.ofLetter? c = none := by
    rw [notFinite]
    split
    · exact ⟨false, 'N', _, rfl, by decide, by decide⟩
    · split
      · exact ⟨true, 'i', _, rfl, by decide, by decide⟩
      · exact ⟨false, 'i', _, rfl, by decide, by decide⟩
  cases mode with
  | radix r => exact absurd rfl (hmode r)
  | _ => simpa only [chars, decimalText, h] using hname

theorem takeWhile_sign (negative : Bool) {c : Char} (hletter : Text.isLetter c = true)
    (cs : List Char) : (sign negative ++ c :: cs).takeWhile (· = '-') = sign negative := by
  apply Text.takeWhile_run
  · intro d hd
    cases negative <;> simp_all [sign]
  · intro d hd
    obtain rfl : c = d := by simpa using hd
    rw [decide_eq_false_iff_not]
    rintro rfl
    exact absurd hletter (by decide)

/-- Output of a decimal mode without a precision is never read as another number. Evaluated over
any store, the text of a finite float is the float, with the sign of a zero, unless it has a power
of ten; then it fails at the `e`. The fixed mode writes no power of ten. The text of an infinity or
of NaN fails behind its sign. -/
theorem result_evaluate_text {mode : Mode} (hmode : ∀ r, mode ≠ .radix r) (store : Store)
    (v : Float) :
    let written := (Format.mk mode none).chars v
    let result := (evaluate store ((Format.mk mode none).text v)).result
    (v.isFinite = true → 'e' ∉ written → result = .ok v) ∧
    (v.isFinite = true → 'e' ∈ written →
      result = .error ⟨.misplaced, Place.behind (written.takeWhile (· ≠ 'e'))⟩) ∧
    (v.isFinite = false →
      result = .error ⟨.operandExpected, Place.behind (written.takeWhile (· = '-'))⟩) ∧
    (mode = .fixed → v.isFinite = true → 'e' ∉ written) ∧
    (∀ w, result = .ok w → w = v) := by
  intro written result
  have hresult : result = (evaluate store (String.ofList written)).result := rfl
  cases h : Exact.ofFloat? v with
  | none =>
      have hfinite : v.isFinite = false := by
        rw [← Exact.isSome_ofFloat?, h]
        rfl
      obtain ⟨negative, c, cs, hchars, hletter, hradix⟩ := chars_of_not_finite hmode h
      have hwritten : written = sign negative ++ c :: cs := hchars
      rw [hwritten, Evaluation.result_evaluate_name store negative hletter hradix] at hresult
      rw [hresult, hwritten, takeWhile_sign negative hletter, hfinite]
      simp
  | some x =>
      have hfinite : v.isFinite = true := by
        rw [← Exact.isSome_ofFloat?, h]
        rfl
      obtain hchars | ⟨hfixed, s, hchars⟩ := chars_of_finite hmode h
      · have hwritten : written = sign x.negative ++ x.shortest.text := hchars
        have hnone : 'e' ∉ written := by
          intro hmem
          rw [hwritten] at hmem
          exact ne_e_of_mem_decimal hmem rfl
        rw [hwritten, Evaluation.result_evaluate_decimal, signed_shortest h] at hresult
        rw [hresult, hfinite]
        simp [hnone, eq_comm]
      · have hwritten : written = sign x.negative ++ s.text := hchars
        have hsome : 'e' ∈ written := by
          rw [hwritten]
          exact e_mem_scientific _ _
        rw [hwritten, Evaluation.result_evaluate_scientific] at hresult
        have htake : written.takeWhile (· ≠ 'e') = sign x.negative ++ s.mantissa.text := by
          rw [hwritten, takeWhile_scientific]
        rw [hresult, hfinite, htake]
        simp [hsome, hfixed]

/-- The negative zero keeps its sign, and with a power of ten it fails at the third column. -/
theorem result_evaluate_text_negativeZero :
    (evaluate .empty ((Format.mk .fixed none).text (-0.0))).result = .ok (-0.0) ∧
      (evaluate .empty ((Format.mk .scientific none).text (-0.0))).result =
        .error ⟨.misplaced, ⟨1, 3⟩⟩ := by
  have hfinite : (-0.0 : Float).isFinite = true := by
    decide +kernel
  constructor
  · have hmode : ∀ r, Mode.fixed ≠ .radix r := by
      intro r
      simp
    have hread := result_evaluate_text hmode .empty (-0.0)
    exact hread.1 hfinite (hread.2.2.2.1 rfl hfinite)
  · have hmode : ∀ r, Mode.scientific ≠ .radix r := by
      intro r
      simp
    have hwritten : (Format.mk .scientific none).chars (-0.0) = "-0e+00".toList := by
      decide +kernel
    have hread := (result_evaluate_text hmode .empty (-0.0)).2.1 hfinite
    rw [hwritten] at hread
    exact hread (by decide)

end Format

end Reckoner
