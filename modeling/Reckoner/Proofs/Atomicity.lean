import Reckoner.Proofs.CommandLanguage
import Reckoner.Proofs.Shortest

/-!
# Commands are atomic

A command of a mode sets two fields of the format, the mode and the precision, and its argument is a
float that may be no precision at all. The argument is judged by its exact value before either field
is touched: it has to be a whole number within the limit, and either zero is one. So a refused
command changes nothing, and an accepted one sets both fields. No command touches the variables.
-/

-- Powers are those of the core library.
attribute [instance(2000), default_instance(20000)] instPowNat

namespace Reckoner

/-- The exact value of a float. Both zeros have the value zero, and an infinity or NaN has none. -/
def HasValue (v : Float) (q : Rat) : Prop :=
  ∃ x, Exact.ofFloat? v = some x ∧ x.toRat = q

namespace Exact

variable {x y : Exact} {n : Nat}

/-- A whole magnitude is a quotient without remainder. -/
theorem rational_eq_natCast_iff : x.rational = n ↔ x.numerator = n * x.denominator := by
  have hden : (x.denominator : Rat) ≠ 0 := by exact_mod_cast x.denominator_pos.ne'
  rw [rational_eq_div, div_eq_iff hden]
  exact_mod_cast Iff.rfl

/-- There is one canonical value of each magnitude and sign. -/
theorem Canonical.eq_of_rational (hx : x.Canonical) (hy : y.Canonical)
    (hsign : x.negative = y.negative) (h : x.rational = y.rational) : x = y := by
  have hfields : x.significand = y.significand ∧ x.exponent = y.exponent := by
    by_cases hzero : x.significand = 0
    · have hzero' : y.significand = 0 := by
        rw [← rational_eq_zero_iff, ← h, rational_eq_zero_iff, hzero]
      have := hx.full
      have := hy.full
      omega
    · have hzero' : y.significand ≠ 0 := by
        rwa [ne_eq, ← rational_eq_zero_iff, ← h, rational_eq_zero_iff]
      have hexponent : x.exponent = y.exponent := by
        rw [← hx.targetExponent hzero, ← hy.targetExponent hzero', totalExponent_eq hzero hzero' h]
      have hsignificand := eq_mul_pow_of_magnitude hexponent.le h
      rw [hexponent, sub_self, Int.toNat_zero, Nat.pow_zero, Nat.mul_one] at hsignificand
      exact ⟨hsignificand, hexponent⟩
  obtain ⟨negative, significand, exponent⟩ := x
  obtain ⟨rfl, rfl⟩ := hfields
  simp_all

/-- A natural number is the value of a nonnegative magnitude, or zero under a minus. -/
theorem toRat_eq_natCast_iff :
    x.toRat = n ↔ x.rational = n ∧ (x.negative = true → n = 0) := by
  have hnonneg := x.rational_nonneg
  cases hsign : x.negative with
  | false => simp [toRat, hsign]
  | true =>
      have hn : (0 : Rat) ≤ n := by positivity
      simp only [toRat, hsign, if_true, true_implies]
      constructor
      · intro h
        have hzero : (n : Rat) = 0 := by linarith
        exact ⟨by linarith, by exact_mod_cast hzero⟩
      · rintro ⟨h, rfl⟩
        simp [h]

end Exact

/-- The floats of a whole number: the number itself, and for zero the negative zero too. -/
theorem hasValue_natCast_iff {v : Float} {n : Nat} (h : n < 2 ^ 53) :
    HasValue v n ↔ v = Float.ofNat n ∨ n = 0 ∧ v = -0.0 := by
  have hof : Exact.ofFloat? (Float.ofNat n) = some (Exact.ofNat n) := Exact.ofFloat?_ofNat h
  have hvalue := Exact.rational_ofNat h
  constructor
  · rintro ⟨x, hx, hq⟩
    obtain ⟨hrational, hzero⟩ := Exact.toRat_eq_natCast_iff.mp hq
    have hcanonical := Exact.canonical_of_ofFloat? hx
    cases hsign : x.negative with
    | false =>
        left
        have hsame : x = Exact.ofNat n := by
          apply hcanonical.eq_of_rational (Exact.canonical_ofNat h)
          · rw [hsign, Exact.negative_ofNat]
          · rw [hrational, hvalue]
        exact Exact.ofFloat?_inj (hsame ▸ hx) hof
    | true =>
        right
        obtain rfl := hzero hsign
        have hminus : Exact.ofFloat? (-0.0) = some ⟨true, 0, -1074⟩ := by decide +kernel
        have hsame : x = ⟨true, 0, -1074⟩ := by
          apply hcanonical.eq_of_rational (Exact.canonical_of_ofFloat? hminus) hsign
          rw [hrational]
          simp [Exact.rational, magnitude]
        exact ⟨rfl, Exact.ofFloat?_inj (hsame ▸ hx) hminus⟩
  · rintro (rfl | ⟨rfl, rfl⟩)
    · refine ⟨_, hof, Exact.toRat_eq_natCast_iff.mpr ⟨hvalue, ?_⟩⟩
      simp [Exact.negative_ofNat]
    · refine ⟨⟨true, 0, -1074⟩, by decide +kernel, ?_⟩
      simp [Exact.toRat, Exact.rational, magnitude]

namespace Command

variable {v : Float} {p : Nat} {mode : Mode} {default? : Option Nat} {numbers : List Float}

/-- A float asks for a precision if its value is the precision and within the limit. -/
theorem precision?_eq_some_iff : precision? v = some p ↔ p ≤ 64 ∧ HasValue v p := by
  change precision? v = some p ↔ p ≤ Format.maxPrecision ∧ _
  rw [precision?]
  cases hv : Exact.ofFloat? v with
  | none => simp [HasValue, hv]
  | some x =>
      have hvalue : HasValue v p ↔
          x.numerator = p * x.denominator ∧ (x.negative = true → p = 0) := by
        simp only [HasValue, hv, Option.some.injEq, exists_eq_left']
        rw [Exact.toRat_eq_natCast_iff, Exact.rational_eq_natCast_iff]
      have hden := x.denominator_pos
      simp only [hvalue]
      constructor
      · intro h
        simp only [Option.ite_none_left_eq_some, Option.ite_none_right_eq_some,
          Option.some.injEq] at h
        obtain ⟨hmod, hsign, hle, rfl⟩ := h
        have hdvd := Nat.dvd_of_mod_eq_zero (not_not.mp hmod)
        refine ⟨hle, (Nat.div_mul_cancel hdvd).symm, ?_⟩
        intro hnegative
        simpa only [hnegative, Bool.true_and, decide_eq_true_eq, not_not] using hsign
      · rintro ⟨hle, hnumerator, hsign⟩
        have hmod : x.numerator % x.denominator = 0 := by rw [hnumerator, Nat.mul_mod_left]
        have hdiv : x.numerator / x.denominator = p := by
          rw [hnumerator, Nat.mul_div_cancel _ hden]
        simpa [hmod, hdiv, hle] using hsign

/-- A float asks for no precision if no precision within the limit is its value. -/
theorem precision?_eq_none_iff : precision? v = none ↔ ∀ p : Nat, p ≤ 64 → ¬HasValue v p := by
  rw [Option.eq_none_iff_forall_ne_some]
  simp only [ne_eq, precision?_eq_some_iff, not_and]

/-- Whether a command refuses some numbers: the first of them is no precision. -/
def Refuses (numbers : List Float) : Prop :=
  ∃ v ∈ numbers.head?, ∀ p : Nat, p ≤ 64 → ¬HasValue v p

section ChooseFormat

variable (f : Format)

theorem chooseFormat_refused (h : Refuses numbers) :
    chooseFormat f mode default? numbers = .error .invalidArguments := by
  obtain ⟨v, hv, hnone⟩ := h
  obtain ⟨rest, rfl⟩ : ∃ rest, numbers = v :: rest := by
    cases numbers <;> simp_all
  rw [chooseFormat, choosePrecision, precision?_eq_none_iff.mpr hnone]
  rfl

theorem chooseFormat_default (h : (Format.mk mode default?).Allowed) :
    chooseFormat f mode default? [] = .ok ⟨mode, default?⟩ :=
  congrArg Except.ok (Format.withPrecision_of_allowed (f := f.withMode mode) h rfl)

theorem chooseFormat_given (hhead : numbers.head? = some v) (hle : p ≤ 64) (h : HasValue v p) :
    chooseFormat f mode default? numbers = .ok ⟨mode, some p⟩ := by
  obtain ⟨rest, rfl⟩ : ∃ rest, numbers = v :: rest := by
    cases numbers <;> simp_all
  have hallowed : (Format.mk mode (some p)).Allowed := by
    rintro q ⟨rfl⟩
    exact hle
  rw [chooseFormat, choosePrecision, precision?_eq_some_iff.mpr ⟨hle, h⟩]
  exact congrArg Except.ok (Format.withPrecision_of_allowed (f := f.withMode mode) hallowed rfl)

end ChooseFormat

end Command

namespace Session

variable (s : Session)

/-- What a command that takes a precision does: it is refused as a whole, or sets both its mode and a
precision. -/
structure SetsMode (c : Command) (numbers : List Float) (mode : Mode) (default? : Option Nat) :
    Prop where
  fails_iff : (s.command c numbers).result = .error (.command .invalidArguments) ↔
    Command.Refuses numbers
  refused : Command.Refuses numbers → (s.command c numbers).session = s
  without : numbers = [] →
    s.command c numbers = ⟨.ok .nothing, { s with format := ⟨mode, default?⟩ }⟩
  given : ∀ (v : Float) (p : Nat), numbers.head? = some v → p ≤ 64 → HasValue v p →
    s.command c numbers = ⟨.ok .nothing, { s with format := ⟨mode, some p⟩ }⟩

variable {c : Command} {mode : Mode} {default? : Option Nat}

/-- The commands of the modes with a precision do one thing, each with its own mode and default. -/
theorem setsMode_of_formatAfter (hdefault : (Format.mk mode default?).Allowed)
    (numbers : List Float)
    (hformat : c.formatAfter numbers s.format =
      Command.chooseFormat s.format mode default? numbers)
    (houtcome : c.outcome s = .nothing) : s.SetsMode c numbers mode default? := by
  have hrefused (h : Command.Refuses numbers) :
      s.command c numbers = ⟨.error (.command .invalidArguments), s⟩ := by
    simp only [command, hformat, Command.chooseFormat_refused s.format h]
  have hwithout (h : numbers = []) :
      s.command c numbers = ⟨.ok .nothing, { s with format := ⟨mode, default?⟩ }⟩ := by
    subst h
    simp only [command, hformat, Command.chooseFormat_default s.format hdefault, houtcome]
  have hgiven (v : Float) (p : Nat) (hhead : numbers.head? = some v) (hle : p ≤ 64)
      (hvalue : HasValue v p) :
      s.command c numbers = ⟨.ok .nothing, { s with format := ⟨mode, some p⟩ }⟩ := by
    simp only [command, hformat, Command.chooseFormat_given s.format hhead hle hvalue, houtcome]
  refine ⟨⟨?_, fun h => by rw [hrefused h]⟩, fun h => by rw [hrefused h], hwithout, hgiven⟩
  -- A command that is not refused succeeds, with or without a number.
  intro hfails
  by_contra haccepted
  cases hhead : numbers.head? with
  | none =>
      rw [hwithout (List.head?_eq_none_iff.mp hhead)] at hfails
      cases hfails
  | some v =>
      obtain ⟨p, hle, hvalue⟩ : ∃ p : Nat, p ≤ 64 ∧ HasValue v p := by
        by_contra hnone
        push Not at hnone
        exact haccepted ⟨v, hhead, hnone⟩
      rw [hgiven v p hhead hle hvalue] at hfails
      cases hfails

/-- A line on which a command fails leaves the session. -/
theorem line_session_of_command_error {text : String} {fault : CommandFault}
    (h : (s.line text).result = .error (.command fault)) : (s.line text).session = s := by
  rw [line] at h ⊢
  split at h
  · rename_i hblank
    rw [if_pos hblank]
  · rename_i hblank
    rw [if_neg hblank]
    split at h
    · rfl
    · simp only [command] at h ⊢
      split at h
      · cases h
      · rfl
    · simp only [expression] at h
      split at h <;> cases h

/-- A line without a word in front leaves the format. -/
theorem line_format_of_not_word {text : String}
    (h : ∀ first ∈ (Scan.ofText text).tokens.head?, ∀ name, first.kind ≠ .word name) :
    (s.line text).session.format = s.format := by
  have hrequest : Request.isRequest text = false := Token.startsWithWord_eq_false_iff.mpr h
  rw [line_of_not_request hrequest]

/-- Commands are atomic and choose the format alone. Of its arguments a command reads no more than
their numbers, and whatever floats these are, it leaves the variables. The commands of the fixed, the
real and the scientific mode are refused just when there is a first number and it is no whole number
up to 64, where the negative zero counts as zero, and then nothing changes; otherwise they set their
mode with that precision, or with their own default if there is no number. The radix commands set
the mode and keep the precision, and the other commands change nothing. So a line on which a command
fails leaves the session, and a line with an expression leaves the format. -/
theorem command_atomic (s : Session) :
    (∀ c numbers, (s.command c numbers).session.store = s.store) ∧
    (∀ numbers, s.SetsMode .fixed numbers .fixed (some 2)) ∧
    (∀ numbers, s.SetsMode .real numbers .real none) ∧
    (∀ numbers, s.SetsMode .scientific numbers .scientific (some 2)) ∧
    (∀ (v : Float) (p : Nat), p ≤ 64 → (HasValue v p ↔ v = Float.ofNat p ∨ p = 0 ∧ v = -0.0)) ∧
    (∀ r numbers, s.command (.radix r) numbers =
      ⟨.ok .nothing, { s with format := ⟨.radix r, s.format.precision?⟩ }⟩) ∧
    (∀ numbers, s.command .exit numbers = ⟨.ok .leave, s⟩) ∧
    (∀ numbers, s.command .listing numbers =
      ⟨.ok (.message (Command.listingText s.format s.store)), s⟩) ∧
    (∀ numbers, s.command .help numbers = ⟨.ok (.message Command.helpText), s⟩) ∧
    (∀ text fault, (s.line text).result = .error (.command fault) → (s.line text).session = s) ∧
    (∀ text, (∀ first ∈ (Scan.ofText text).tokens.head?, ∀ name, first.kind ≠ .word name) →
      (s.line text).session.format = s.format) := by
  have hnone : (Format.mk .real none).Allowed := by
    rintro p ⟨⟩
  have htwo (mode : Mode) : (Format.mk mode (some 2)).Allowed := by
    rintro p ⟨rfl⟩
    decide
  refine ⟨s.command_store, fun numbers => s.setsMode_of_formatAfter (htwo _) numbers rfl rfl,
    fun numbers => s.setsMode_of_formatAfter hnone numbers rfl rfl,
    fun numbers => s.setsMode_of_formatAfter (htwo _) numbers rfl rfl, ?_, fun _ _ => rfl,
    fun _ => rfl, fun _ => rfl, fun _ => rfl, ?_, ?_⟩
  · intro v p hp
    exact hasValue_natCast_iff (by omega)
  · intro text fault h
    exact s.line_session_of_command_error h
  · intro text h
    exact s.line_format_of_not_word h

/-- A fraction is refused, although a mode with a precision is set; the negative zero is taken. -/
theorem command_atomic_halfAndZero :
    let s : Session := { format := ⟨.radix .octal, some 7⟩ }
    (s.command .scientific [1.5, 3]).session = s ∧
      (s.command .real [-0.0]).session.format = ⟨.real, some 0⟩ := by
  intro s
  obtain ⟨-, -, hreal, hscientific, hvalue, -⟩ := command_atomic s
  constructor
  · have hnone : Command.precision? 1.5 = none := by decide +kernel
    exact (hscientific [1.5, 3]).refused ⟨1.5, rfl, Command.precision?_eq_none_iff.mp hnone⟩
  · have hzero : HasValue (-0.0) (0 : Nat) := (hvalue (-0.0) 0 (by decide)).mpr (.inr ⟨rfl, rfl⟩)
    rw [(hreal [-0.0]).given (-0.0) 0 rfl (by decide) hzero]

end Session

end Reckoner
