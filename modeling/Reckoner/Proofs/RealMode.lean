import Reckoner.Proofs.ReadBack
import Reckoner.Proofs.Significant

/-!
# The real mode

The text of a number denotes a number by itself, whatever wrote it: it is read by its sign, its
digits and its power of ten. The texts of the real mode and of the scientific mode for as many
significant digits denote one number, although in fixed notation the real mode rounds the value
again, to places.
-/

namespace Reckoner

namespace Notation

/-- The number that digits denote, with at most one point among them. -/
def literal? (text : List Char) : Option Rat :=
  if (Numeral.front text).chars = text then
    (Numeral.front text).decimal?.map Decimal.rational
  else none

/-- The number that a text without a sign denotes: digits, and behind an `e` a power of ten. -/
def magnitude? (text : List Char) : Option Rat :=
  match text.dropWhile (· != 'e') with
  | [] => literal? text
  | _ :: exponent =>
    match literal? (text.takeWhile (· != 'e')), Text.integer? exponent with
    | some mantissa, some power => some (mantissa * 10 ^ power)
    | _, _ => none

def number? : List Char → Option Rat
  | '-' :: text => (magnitude? text).map fun q => -q
  | text => magnitude? text

theorem literal?_text (d : Decimal) : literal? d.text = some d.rational := by
  have hfront : Numeral.front d.text = d.numeral := by
    have := Numeral.front_chars_append endsNumeral_nil d.isDigit_of_mem_numeral
    rwa [List.append_nil, Decimal.chars_numeral] at this
  rw [literal?, hfront, Decimal.chars_numeral, if_pos rfl, Decimal.decimal?_numeral,
    Option.map_some]

/-- A decimal denotes itself. -/
theorem magnitude?_decimal (d : Decimal) : magnitude? d.text = some d.rational := by
  have hnone : d.text.dropWhile (· != 'e') = [] := by
    rw [List.dropWhile_eq_nil_iff]
    intro c hc
    exact bne_iff_ne.mpr (Decimal.ne_e_of_mem_text hc)
  rw [magnitude?, hnone]
  exact literal?_text d

theorem integer?_exponent (exponent : Int) :
    Text.integer? ((if exponent < 0 then '-' else '+') ::
      Text.paddedDigits 10 2 exponent.natAbs) = some exponent := by
  have hne : Text.paddedDigits 10 2 exponent.natAbs ≠ [] := by
    intro hnil
    have hlength := Text.length_paddedDigits 10 2 exponent.natAbs
    rw [hnil, List.length_nil] at hlength
    omega
  have hnatural := Text.natural?_of_isDigit hne fun c hc => Decimal.isDigit_of_mem_paddedDigits hc
  rw [Text.numberOf_paddedDigits (by decide) (by decide)] at hnatural
  split
  · have hvalue : -(exponent.natAbs : Int) = exponent := by omega
    simp only [Text.integer?, hnatural, Option.map_some, hvalue]
  · have hvalue : Int.ofNat exponent.natAbs = exponent := by
      have : 0 ≤ exponent := by omega
      exact Int.natAbs_of_nonneg this
    simp only [Text.integer?, hnatural, Option.map_some, hvalue]

/-- Scientific notation denotes its number. -/
theorem magnitude?_scientific (s : Scientific) : magnitude? s.text = some s.rational := by
  have hmantissa : ∀ c ∈ s.mantissa.text, (c != 'e') = true := by
    intro c hc
    exact bne_iff_ne.mpr (Decimal.ne_e_of_mem_text hc)
  have hexponent : ∀ c ∈ (exponentText s.exponent).head?, (c != 'e') = false := by
    rintro c ⟨rfl⟩
    rfl
  rw [magnitude?, Scientific.text, Text.dropWhile_run hmantissa hexponent,
    Text.takeWhile_run hmantissa hexponent, exponentText, literal?_text]
  simp only [integer?_exponent]
  rfl

def withSign (negative : Bool) (q : Rat) : Rat := if negative then -q else q

@[simp] theorem decimalExponent_withSign (negative : Bool) (q : Rat) :
    decimalExponent (withSign negative q) = decimalExponent q := by
  cases negative <;> simp [withSign]

theorem number?_sign {text : List Char} (h : ∀ c ∈ text.head?, c ≠ '-') (negative : Bool) :
    number? (Format.sign negative ++ text) = (magnitude? text).map (withSign negative) := by
  cases negative with
  | true => rfl
  | false =>
      have hplain : number? text = magnitude? text := by
        rw [number?.eq_def]
        split
        · simp at h
        · rfl
      have hsame : withSign false = id := rfl
      rw [hsame, Option.map_id]
      exact hplain

theorem ne_minus_of_mem_head? (d : Decimal) (rest : List Char) :
    ∀ c ∈ (d.text ++ rest).head?, c ≠ '-' := by
  obtain ⟨first, others, htext, hfirst⟩ := d.exists_text_eq_cons
  rw [htext]
  rintro c ⟨rfl⟩ rfl
  simp at hfirst

theorem number?_decimal (negative : Bool) (d : Decimal) :
    number? (Format.sign negative ++ d.text) = some (withSign negative d.rational) := by
  have hhead := ne_minus_of_mem_head? d []
  rw [List.append_nil] at hhead
  rw [number?_sign hhead, magnitude?_decimal, Option.map_some]

theorem number?_scientific (negative : Bool) (s : Scientific) :
    number? (Format.sign negative ++ s.text) = some (withSign negative s.rational) := by
  have hhead : ∀ c ∈ s.text.head?, c ≠ '-' := ne_minus_of_mem_head? s.mantissa _
  rw [number?_sign hhead, magnitude?_scientific, Option.map_some]

/-! ### Texts in either notation -/

/-- Under either sign a text denotes a number and has a power of ten or none. If it has a point, a
digit that is not zero ends its fraction. -/
structure Shows (text : List Char) (q : Rat) (power : Prop) : Prop where
  number : ∀ negative, number? (Format.sign negative ++ text) = some (withSign negative q)
  power_iff : ∀ negative, 'e' ∈ Format.sign negative ++ text ↔ power
  ends : ∀ negative, '.' ∈ Format.sign negative ++ text → ∃ last,
    ((Format.sign negative ++ text).takeWhile (· ≠ 'e')).getLast? = some last ∧
      last ≠ '0' ∧ last ≠ '.'

/-- A mantissa with a point ends in a digit that is not zero, under any sign. -/
theorem getLast?_sign {d : Decimal} (h : d.Trimmed) (negative : Bool) (hpoint : '.' ∈ d.text) :
    ∃ last, (Format.sign negative ++ d.text).getLast? = some last ∧ last ≠ '0' ∧ last ≠ '.' := by
  obtain ⟨last, hlast, hne⟩ := Decimal.getLast?_text h hpoint
  refine ⟨last, ?_, hne⟩
  rw [List.getLast?_append, hlast]
  rfl

theorem point_mem_of_sign {negative : Bool} {text : List Char}
    (h : '.' ∈ Format.sign negative ++ text) : '.' ∈ text := by
  refine (List.mem_append.mp h).resolve_left ?_
  cases negative <;> simp [Format.sign]

theorem point_not_mem_exponentText (exponent : Int) : '.' ∉ exponentText exponent := by
  have hdigits : '.' ∉ Text.paddedDigits 10 2 exponent.natAbs := by
    intro hmem
    exact absurd (Decimal.isDigit_of_mem_paddedDigits hmem) (by decide)
  rw [exponentText]
  split <;> simp [hdigits]

theorem Shows.decimal {d : Decimal} (h : d.Trimmed) : Shows d.text d.rational False where
  number negative := number?_decimal negative d
  power_iff negative := by
    apply iff_false_intro
    intro hmem
    exact Format.ne_e_of_mem_decimal hmem rfl
  ends negative := by
    intro hpoint
    have hall : ∀ c ∈ Format.sign negative ++ d.text, decide (c ≠ 'e') = true := by
      intro c hc
      exact decide_eq_true (Format.ne_e_of_mem_decimal hc)
    rw [List.takeWhile_eq_self_iff.mpr hall]
    exact getLast?_sign h negative (point_mem_of_sign hpoint)

theorem Shows.scientific {s : Scientific} (h : s.mantissa.Trimmed) :
    Shows s.text s.rational True where
  number negative := number?_scientific negative s
  power_iff negative := iff_true_intro (Format.e_mem_scientific negative s)
  ends negative := by
    intro hpoint
    have hmantissa : '.' ∈ s.mantissa.text :=
      (List.mem_append.mp (point_mem_of_sign hpoint)).resolve_right
        (point_not_mem_exponentText s.exponent)
    rw [Format.takeWhile_scientific]
    exact getLast?_sign h negative hmantissa

end Notation

namespace Format

variable {v : Float} {x : Exact}

/-! ### Exponents as texts -/

/-- The exponents of floats fit in 32 bits. -/
theorem exponent_bounds (h : x.Canonical) (precision? : Option Nat) :
    -2 ^ 31 ≤ (scientificDecimal x precision?).exponent ∧
      (scientificDecimal x precision?).exponent < 2 ^ 31 := by
  have hpower := h.leadingPower_bounds
  have hexponent := x.exponent_scientificDecimal precision?
  omega

theorem standard_scientificDecimal (x : Exact) (precision? : Option Nat) :
    (scientificDecimal x precision?).Standard := by
  cases precision? with
  | some p => exact x.standard_toScientific p
  | none => exact x.standard_shortest

theorem scientificText_eq (h : x.Canonical) (precision? : Option Nat) :
    scientificText x precision? = (scientificDecimal x precision?).text := by
  rw [scientificText, Notation.normalize,
    Scientific.splitExponent_plainText (exponent_bounds h precision?)]
  rfl

/-! ### The two notations -/

section Notations

variable (x) (precision? : Option Nat)

/-- The value rounded to the significant digits of the real mode. -/
def significant : Scientific := scientificDecimal x (precision?.map placesOfDigits)

def NeedsPower : Prop :=
  (significant x precision?).exponent < leastFixedPower ∨
    realLimit precision? ≤ (significant x precision?).exponent

variable {x} {precision?}

/-- With a power of ten the digits that were rounded are written. -/
theorem shows_realText_of_needsPower (h : x.Canonical) (hneeds : NeedsPower x precision?) :
    Notation.Shows (realText x precision?) (significant x precision?).rational True := by
  have hsplit := Scientific.splitExponent_plainText
    (exponent_bounds h (precision?.map placesOfDigits))
  let s : Scientific :=
    ⟨(significant x precision?).mantissa.trim, (significant x precision?).exponent⟩
  have htext : realText x precision? = s.text := by
    rw [NeedsPower, significant] at hneeds
    simp only [realText, hsplit, if_pos hneeds, Decimal.trimFraction_text, Scientific.text, s,
      significant]
  have hrational : s.rational = (significant x precision?).rational := by
    rw [Scientific.rational, Scientific.rational, Decimal.rational_trim]
  have hshows := Notation.Shows.scientific (s := s) (Decimal.trimmed_trim _)
  rwa [← htext, hrational] at hshows

/-- Without one the value is rounded again, to places. -/
theorem shows_realText_of_not_needsPower (h : x.Canonical) (hneeds : ¬ NeedsPower x precision?) :
    Notation.Shows (realText x precision?) (significant x precision?).rational False := by
  have hsplit := Scientific.splitExponent_plainText
    (exponent_bounds h (precision?.map placesOfDigits))
  rw [NeedsPower, significant] at hneeds
  cases precision? with
  | none =>
      have htext : realText x none = x.shortest.text := by
        simp only [realText, hsplit, if_neg hneeds]
      have hrational : (significant x none).rational = x.shortest.rational :=
        Scientific.rational_ofDecimal x.shortest
      rw [htext, hrational]
      exact .decimal x.trimmed_shortest
  | some p =>
      let rounded := x.toScientific (placesOfDigits p)
      let d := (x.toPlaces (placesAt (placesOfDigits p + 1) rounded.exponent).toNat).trim
      have hlimit : realLimit (some p) = placesOfDigits p + 1 := by
        simp only [realLimit, placesOfDigits]
        omega
      rw [hlimit] at hneeds
      have htext : realText x (some p) = d.text := by
        simp only [realText, hsplit, if_neg hneeds, hlimit, Decimal.trimFraction_text, d]
        rfl
      have hexponent : rounded.exponent ≤ placesOfDigits p := by
        rw [not_or, not_le] at hneeds
        exact Int.lt_add_one_iff.mp (by exact_mod_cast hneeds.2)
      have hrational : d.rational = rounded.rational := by
        rw [Decimal.rational_trim]
        exact x.rational_toPlaces hexponent
      have hshows := Notation.Shows.decimal (d := d) (Decimal.trimmed_trim _)
      rwa [← htext, hrational] at hshows

theorem shows_realText (h : x.Canonical) (precision? : Option Nat) :
    Notation.Shows (realText x precision?) (significant x precision?).rational
      (NeedsPower x precision?) := by
  by_cases hneeds : NeedsPower x precision?
  · rw [eq_true hneeds]
    exact shows_realText_of_needsPower h hneeds
  · rw [eq_false hneeds]
    exact shows_realText_of_not_needsPower h hneeds

/-- The exponent that is taken from the text is the one that was rounded to. -/
theorem exists_plainText (h : x.Canonical) (precision? : Option Nat) :
    ∃ mantissa exponent,
      (scientificDecimal x precision?).plainText = mantissa ++ 'e' :: exponent ∧
        'e' ∉ mantissa ∧
        Notation.exponent? exponent = some (scientificDecimal x precision?).exponent := by
  refine ⟨(scientificDecimal x precision?).mantissa.text, _, rfl, ?_, ?_⟩
  · intro hmem
    exact Decimal.ne_e_of_mem_text hmem rfl
  · exact Scientific.exponent?_integerDigits (exponent_bounds h precision?)

end Notations

/-- Rounding to significant digits gives one number in the two notations. The text of a finite float
in the real mode denotes the same number as its text in the scientific mode for as many digits, also
where rounding carries into a new digit. It has a power of ten just when the decimal exponent of
this number is less than -4 or reaches the precision, or six without one. With a point it ends, or
stops at the power of ten, behind a digit that is not zero. On the way the exponent is read as it
was written, and the places that it leaves in fixed notation are no fewer than zero. -/
theorem real_mode {v : Float} (hfinite : v.isFinite = true) (precision? : Option Nat) :
    let real := (Format.mk .real precision?).chars v
    let scientific := (Format.mk .scientific (precision?.map fun p => max p 1 - 1)).chars v
    let limit : Nat := precision?.elim 6 fun p => max p 1
    ∃ q : Rat, Notation.number? real = some q ∧ Notation.number? scientific = some q ∧
      ('e' ∈ real ↔ decimalExponent q < -4 ∨ limit ≤ decimalExponent q) ∧
      ('.' ∈ real → ∃ last, (real.takeWhile (· ≠ 'e')).getLast? = some last ∧
        last ≠ '0' ∧ last ≠ '.') ∧
      ('e' ∉ real → 0 ≤ placesAt limit (decimalExponent q)) ∧
      ∃ x, Exact.ofFloat? v = some x ∧ ∃ mantissa exponent,
        (scientificDecimal x (precision?.map fun p => max p 1 - 1)).plainText =
            mantissa ++ 'e' :: exponent ∧
          'e' ∉ mantissa ∧ Notation.exponent? exponent = some (decimalExponent q) := by
  intro real scientific limit
  obtain ⟨x, h⟩ := Option.isSome_iff_exists.mp ((Exact.isSome_ofFloat? v).trans hfinite)
  have hcanonical := Exact.canonical_of_ofFloat? h
  let s := significant x precision?
  have hreal : real = sign x.negative ++ realText x precision? := by
    simp only [real, chars, decimalText, h, signed_eq_append]
  have hscientific : scientific = sign x.negative ++ s.text := by
    simp only [scientific, chars, decimalText, h, signed_eq_append, scientificText_eq hcanonical]
    rfl
  have hexponent : decimalExponent (Notation.withSign x.negative s.rational) = s.exponent := by
    rw [Notation.decimalExponent_withSign]
    exact (standard_scientificDecimal x _).exponent_eq.symm
  have hneeds : NeedsPower x precision? ↔ s.exponent < -4 ∨ limit ≤ s.exponent := by
    cases precision? <;> rfl
  obtain ⟨hnumber, hpower, hends⟩ := shows_realText hcanonical precision?
  refine ⟨Notation.withSign x.negative s.rational, ?_⟩
  rw [hexponent, hreal, hscientific, hpower, hneeds]
  refine ⟨hnumber _, Notation.number?_scientific _ _, Iff.rfl, hends _, ?_, x, h, ?_⟩
  · intro hfixed
    rw [placesAt]
    omega
  · exact exists_plainText hcanonical _

/-- Rounding to three digits carries into a new one, and leaves one place. -/
theorem real_mode_carry :
    (Format.mk .real (some 3)).chars 9.999 = "10".toList ∧
      Notation.number? ((Format.mk .scientific (some 2)).chars 9.999) = some 10 := by
  have hfinite : (9.999 : Float).isFinite = true := by decide +kernel
  have hreal : (Format.mk .real (some 3)).chars 9.999 = "10".toList := by decide +kernel
  refine ⟨hreal, ?_⟩
  obtain ⟨q, hnumber, hscientific, -⟩ := real_mode hfinite (some 3)
  rw [hreal] at hnumber
  have hten : Notation.number? "10".toList = some 10 := by decide +kernel
  rw [hten] at hnumber
  rw [← Option.some.inj hnumber] at hscientific
  exact hscientific

end Format

end Reckoner
