import Mathlib.Data.List.Chain
import Reckoner.Operator
import Reckoner.Proofs.Segmentation

/-!
# Spellings and layouts

A spelling is a well-formed lexeme: a mark of the grammar, the name of a variable, a numeric
literal or a bare word. It carries the proofs of its own shape, so every spelling is read back as
one token of its kind.

A layout sets spellings one behind the other with blanks between them. The blanks may be missing
at each mark; only names, literals and words have to be kept apart from each other. The scan of a
layout has one token for each spelling, at the place where the layout puts it.
-/

namespace Reckoner

inductive Mark where
  | leftParen
  | rightParen
  | assign
  | plus
  | minus
  | times
  | divide
  | power
deriving DecidableEq, Repr

namespace Mark

def char : Mark → Char
  | leftParen => '('
  | rightParen => ')'
  | assign => '='
  | plus => '+'
  | minus => '-'
  | times => '*'
  | divide => '/'
  | power => '^'

def kind : Mark → Token.Kind
  | leftParen => .leftParen
  | rightParen => .rightParen
  | assign => .assign
  | plus => .plus
  | minus => .minus
  | times => .times
  | divide => .divide
  | power => .power

theorem front_char (m : Mark) (cs : List Char) : Lexeme.front m.char cs = ⟨m.kind, 0⟩ := by
  cases m <;> rfl

theorem isDelimiter_char (m : Mark) : Text.isDelimiter m.char = true := by
  cases m <;> decide

theorem isBlank_char (m : Mark) : Text.isBlank m.char = false := by
  cases m <;> decide

end Mark

def Operator.mark : Operator → Mark
  | add => .plus
  | subtract => .minus
  | multiply => .times
  | divide => .divide
  | power => .power

@[simp] theorem Operator.ofKind?_mark (op : Operator) : ofKind? op.mark.kind = some op := by
  cases op <;> rfl

theorem Operator.kind_of_ofKind? {kind : Token.Kind} {op : Operator} (h : ofKind? kind = some op) :
    kind = op.mark.kind := by
  cases kind <;> cases op <;> simp_all [ofKind?, mark, Mark.kind]

/-- A name of a variable: `$`, a letter, and letters and digits. -/
structure Name where
  letter : Char
  others : List Char
  isLetter_letter : Text.isLetter letter = true
  isLetterOrDigit_others : ∀ c ∈ others, Text.isLetterOrDigit c = true

/-- A name as it stands in the store, with its `$`. -/
def Name.text (n : Name) : String := String.ofList ('$' :: n.letter :: n.others)

/-- A bare word: a letter, and letters and digits. -/
structure Word where
  letter : Char
  others : List Char
  isLetter_letter : Text.isLetter letter = true
  isLetterOrDigit_others : ∀ c ∈ others, Text.isLetterOrDigit c = true

def Word.text (w : Word) : String := String.ofList (w.letter :: w.others)

/-- A numeric literal: decimal digits with at most one point among them, or digits of a radix for
a number of at most 32 bits. -/
inductive Literal where
  | decimal (numeral : Numeral) (isDigit_digits : ∀ c ∈ numeral.digits, c.isDigit = true)
      (digits_ne_nil : numeral.digits ≠ [])
  | radix (r : Radix) (digits : List Char) (isDigit_digits : ∀ c ∈ digits, r.isDigit c = true)
      (digits_ne_nil : digits ≠ []) (fits : r.numberOf digits < 2 ^ 32)

namespace Literal

def chars : Literal → List Char
  | decimal numeral _ _ => numeral.chars
  | radix r digits _ _ _ => r.letter :: '$' :: digits

/-- The number that a literal denotes. Digits of a radix are a pattern of 32 bits, read as
signed. -/
def value : Literal → Float
  | decimal numeral _ _ =>
    (Decimal.mk (Text.numberOf 10 numeral.digits) (numeral.fraction?.getD []).length).toFloat
  | radix r digits _ _ _ => Float.ofInt (TwosComplement.signed (r.numberOf digits))

end Literal

/-- A well-formed lexeme. -/
inductive Spelling where
  | mark (m : Mark)
  | name (n : Name)
  | literal (l : Literal)
  | word (w : Word)

namespace Spelling

def chars : Spelling → List Char
  | mark m => [m.char]
  | name n => '$' :: n.letter :: n.others
  | literal l => l.chars
  | word w => w.letter :: w.others

def kind : Spelling → Token.Kind
  | mark m => m.kind
  | name n => .name n.text
  | literal l => .number l.value
  | word w => .word w.text

def isMark : Spelling → Bool
  | mark _ => true
  | _ => false

theorem exists_of_isMark {s : Spelling} (h : s.isMark = true) : ∃ m, s = mark m := by
  cases s with
  | mark m => exact ⟨m, rfl⟩
  | _ => cases h

/-- Characters that start with none of the blanks and, as a text of their own, are all read as one
token of the given kind. -/
def ReadsAs (cs : List Char) (kind : Token.Kind) : Prop :=
  ∃ first others, cs = first :: others ∧ Text.isBlank first = false ∧
    Lexeme.front first others = ⟨kind, others.length⟩

theorem isBlank_of_isLetter {c : Char} (h : Text.isLetter c = true) :
    Text.isBlank c = false := by
  by_contra hblank
  have := Text.isLetterOrDigit_of_isBlank (by simpa using hblank)
  simp [Text.isLetterOrDigit, h] at this

theorem isBlank_of_isDigit {c : Char} (h : c.isDigit = true) : Text.isBlank c = false := by
  by_contra hblank
  have := Text.isLetterOrDigit_of_isBlank (by simpa using hblank)
  simp [Text.isLetterOrDigit_of_isDigitOf (Text.isDigitOf_ten h)] at this

theorem readsAs_name (n : Name) : ReadsAs ('$' :: n.letter :: n.others) (.name n.text) := by
  refine ⟨'$', n.letter :: n.others, rfl, by decide, ?_⟩
  have hall : n.others.takeWhile Text.isLetterOrDigit = n.others :=
    List.takeWhile_eq_self_iff.mpr n.isLetterOrDigit_others
  simp [Lexeme.front_dollar, Lexeme.nameAfterDollar, n.isLetter_letter, hall, Name.text]

theorem readsAs_word (w : Word) : ReadsAs (w.letter :: w.others) (.word w.text) := by
  refine ⟨w.letter, w.others, rfl, isBlank_of_isLetter w.isLetter_letter, ?_⟩
  have hall : w.others.takeWhile Text.isLetterOrDigit = w.others :=
    List.takeWhile_eq_self_iff.mpr w.isLetterOrDigit_others
  rw [Lexeme.front_letter w.isLetter_letter, Lexeme.afterLetter_eq_bareWord]
  · simp [Lexeme.bareWord, hall, Word.text]
  · intro r others _ heq
    have := w.isLetterOrDigit_others '$' (by simp [heq])
    exact absurd this (by decide)

/-- A numeral of digits is the whole of its literal. -/
theorem front_chars_numeral {numeral : Numeral} (h : ∀ c ∈ numeral.digits, c.isDigit = true) :
    Numeral.front numeral.chars = numeral := by
  simpa using Numeral.front_chars_append endsNumeral_nil h

theorem isDigit_or_point_of_mem_chars {numeral : Numeral}
    (h : ∀ c ∈ numeral.digits, c.isDigit = true) :
    ∀ c ∈ numeral.chars, (c.isDigit || c == '.') = true := by
  obtain ⟨whole, fraction?⟩ := numeral
  intro c hc
  cases fraction? with
  | none => simp [h c (by simpa [Numeral.digits, Numeral.chars] using hc)]
  | some fraction =>
      have hmem : c ∈ whole ∨ c = '.' ∨ c ∈ fraction := by simpa [Numeral.chars] using hc
      obtain hmem | rfl | hmem := hmem
      · simp [h c (by simp [Numeral.digits, hmem])]
      · decide
      · simp [h c (by simp [Numeral.digits, hmem])]

private theorem digits_eq_nil_of_chars {numeral : Numeral} (h : numeral.chars = []) :
    numeral.digits = [] := by
  obtain ⟨whole, fraction?⟩ := numeral
  cases fraction? with
  | none => simpa [Numeral.digits, Numeral.chars] using h
  | some fraction => simp [Numeral.chars] at h

theorem readsAs_literal (l : Literal) : ReadsAs l.chars (.number l.value) := by
  cases l with
  | decimal numeral hdigits hne =>
      have hfirst : ∀ c ∈ numeral.chars, (c.isDigit || c == '.') = true :=
        isDigit_or_point_of_mem_chars hdigits
      cases hchars : numeral.chars with
      | nil => exact absurd (digits_eq_nil_of_chars hchars) hne
      | cons first others =>
          have hc := hfirst first (by simp [hchars])
          have hfront := front_chars_numeral hdigits
          rw [hchars] at hfront
          refine ⟨first, others, by simp [Literal.chars, hchars], ?_, ?_⟩
          · obtain hdigit | rfl : first.isDigit = true ∨ first = '.' := by simpa using hc
            · exact isBlank_of_isDigit hdigit
            · decide
          · rw [Lexeme.front_decimal hc]
            simp [Lexeme.decimal, hfront, Numeral.decimal?, hne, hchars, Literal.value]
  | radix r digits hdigits hne hfits =>
      refine ⟨r.letter, '$' :: digits, rfl, r.isBlank_letter, ?_⟩
      rw [Radix.front_letter hdigits, Radix.radixKind_of_lt hne hfits]
      rfl

/-- Every spelling is read as one token of its kind. -/
theorem readsAs (s : Spelling) : ReadsAs s.chars s.kind := by
  cases s with
  | mark m => exact ⟨m.char, [], rfl, m.isBlank_char, m.front_char []⟩
  | name n => exact readsAs_name n
  | literal l => exact readsAs_literal l
  | word w => exact readsAs_word w

end Spelling

/-- A spelling with the blanks in front of it. -/
structure Piece where
  blanks : List Char
  spelling : Spelling
  isBlank_blanks : ∀ c ∈ blanks, Text.isBlank c = true

namespace Piece

def chars (p : Piece) : List Char := p.blanks ++ p.spelling.chars

/-- One piece may follow another if a mark or blanks keep their spellings apart. -/
def Follows (p q : Piece) : Prop :=
  p.spelling.isMark = true ∨ q.blanks ≠ [] ∨ q.spelling.isMark = true

def segment (p : Piece) : Segment where
  blanks := p.blanks
  first := p.spelling.chars.headD ' '
  others := p.spelling.chars.tail
  kind := p.spelling.kind
  isBlank_blanks := p.isBlank_blanks
  isBlank_first := by
    obtain ⟨first, others, hchars, hfirst, -⟩ := p.spelling.readsAs
    rw [hchars]
    exact hfirst

@[simp] theorem segment_chars (p : Piece) : p.segment.chars = p.chars := by
  obtain ⟨first, others, hchars, -, -⟩ := p.spelling.readsAs
  simp [Segment.chars, Segment.lexeme, segment, chars, hchars]

@[simp] theorem segment_blanks (p : Piece) : p.segment.blanks = p.blanks := rfl

@[simp] theorem segment_kind (p : Piece) : p.segment.kind = p.spelling.kind := rfl

/-- A mark is read before any text, and the other spellings before text that starts with a
delimiter. -/
theorem readsBefore {p : Piece} {rest : List Char}
    (h : p.spelling.isMark = true ∨ Delimited rest) : p.segment.ReadsBefore rest := by
  obtain hmark | hrest := h
  · obtain ⟨m, hs⟩ := Spelling.exists_of_isMark hmark
    simp [Segment.ReadsBefore, segment, hs, Spelling.chars, m.front_char, Spelling.kind]
  · obtain ⟨first, others, hchars, -, hfront⟩ := p.spelling.readsAs
    have hlocal := (Lexeme.local_front first others).2 rest hrest
    rw [hfront, List.take_length] at hlocal
    simpa [Segment.ReadsBefore, segment, hchars] using hlocal

theorem delimited_of_blanks {p : Piece} (h : p.blanks ≠ []) (rest : List Char) :
    Delimited (p.chars ++ rest) := by
  rw [chars, List.append_assoc]
  exact (Delimited.of_isBlank p.isBlank_blanks).append h _

theorem delimited_of_mark {p : Piece} (h : p.spelling.isMark = true) (rest : List Char) :
    Delimited (p.chars ++ rest) := by
  by_cases hblanks : p.blanks = []
  · obtain ⟨m, hs⟩ := Spelling.exists_of_isMark h
    simpa [chars, hblanks, hs, Spelling.chars] using Delimited.cons m.isDelimiter_char _
  · exact delimited_of_blanks hblanks rest

/-- What follows a piece in a layout starts with a delimiter, unless the piece is a mark. -/
theorem delimited_of_follows {p q : Piece} (h : p.Follows q) (rest : List Char) :
    p.spelling.isMark = true ∨ Delimited (q.chars ++ rest) := by
  obtain hp | hblanks | hq := h
  · exact .inl hp
  · exact .inr (delimited_of_blanks hblanks rest)
  · exact .inr (delimited_of_mark hq rest)

end Piece

/-- A way of writing spellings: pieces one behind the other, and blanks at the end. -/
structure Layout where
  pieces : List Piece
  tail : List Char
  isBlank_tail : ∀ c ∈ tail, Text.isBlank c = true

namespace Layout

def spellings (w : Layout) : List Spelling := w.pieces.map Piece.spelling

def text (w : Layout) : String := String.ofList (w.pieces.flatMap Piece.chars ++ w.tail)

/-- Where the spelling with the given index starts. -/
def place (w : Layout) (k : Nat) : Place :=
  Place.behind ((w.pieces.take k).flatMap Piece.chars ++ (w.pieces[k]?.map Piece.blanks).getD [])

/-- Names, literals and words do not touch each other. -/
def Separated (w : Layout) : Prop := w.pieces.IsChain Piece.Follows

def tokens (w : Layout) : List Token :=
  w.spellings.mapIdx fun k s => ⟨s.kind, w.place k⟩

private theorem read_pieces {pieces : List Piece} {tail : List Char}
    (hchain : pieces.IsChain Piece.Follows) (htail : ∀ c ∈ tail, Text.isBlank c = true) :
    Segment.Read (pieces.map Piece.segment) tail := by
  induction pieces with
  | nil => exact htail
  | cons p others ih =>
      refine ⟨Piece.readsBefore ?_, ih hchain.tail⟩
      cases others with
      | nil => exact .inr (by simpa using Delimited.of_isBlank htail)
      | cons q others =>
          have hfollows := (List.isChain_cons_cons.mp hchain).1
          simpa using Piece.delimited_of_follows hfollows _

/-- A layout that is read piece by piece has one token for each spelling, at its place. -/
theorem scan_of_read {w : Layout} (h : Segment.Read (w.pieces.map Piece.segment) w.tail) :
    Scan.ofText w.text = ⟨w.tokens, Place.behind w.text.toList⟩ := by
  have hchars :
      (w.pieces.map Piece.segment).flatMap Segment.chars = w.pieces.flatMap Piece.chars := by
    simp [List.flatMap_map]
  have htokens : Segment.tokens Place.start (w.pieces.map Piece.segment) = w.tokens := by
    apply List.ext_getElem?
    intro k
    rw [Segment.getElem?_tokens, tokens, List.getElem?_mapIdx, spellings, List.getElem?_map,
      List.getElem?_map]
    cases hpiece : w.pieces[k]? with
    | none => rfl
    | some p =>
        simp [Segment.token, place, hpiece, ← List.map_take, List.flatMap_map,
          Place.start_afterAll, Place.behind_afterAll]
  rw [Scan.ofText, Cursor.ofText, text, String.toList_ofList, ← hchars,
    Segment.scan_of_read h, htokens, Place.start_afterAll]

/-- A layout is read as its own spellings, each at its place. -/
theorem scan_text {w : Layout} (h : w.Separated) :
    Scan.ofText w.text = ⟨w.tokens, Place.behind w.text.toList⟩ :=
  scan_of_read (read_pieces h w.isBlank_tail)

end Layout

/-! ### The shapes of lexemes -/

theorem Radix.letter_of_ofLetter? {r : Radix} {c : Char} (h : ofLetter? c = some r) :
    r.letter = c := by
  rw [ofLetter?] at h
  split_ifs at h with hb ho hh
  · obtain rfl := Option.some.inj h
    exact hb.symm
  · obtain rfl := Option.some.inj h
    exact ho.symm
  · obtain rfl := Option.some.inj h
    exact hh.symm

namespace Lexeme

/-- What the characters of a lexeme can be, and the kind of each: a spelling, or one of the few
malformed lexemes. -/
inductive Shape : List Char → Token.Kind → Prop where
  | spelling (s : Spelling) : Shape s.chars s.kind
  | unexpected (c : Char) : Shape [c] (.bad (.unexpected c))
  | dollar : Shape ['$'] (.bad .nameless)
  | radixPrefix (r : Radix) : Shape [r.letter, '$'] (.bad .nameless)
  | point : Shape ['.'] (.bad (.notNumber "."))
  | overflow (r : Radix) {digits : List Char} (h : ∀ c ∈ digits, r.isDigit c = true)
      (hle : 2 ^ 32 ≤ r.numberOf digits) :
      Shape (r.letter :: '$' :: digits) (.bad (.overflow r))

variable {c : Char} {cs : List Char} {kind : Token.Kind}

/-- A run that is as long as its text is the text. -/
theorem takeWhile_eq_self_of_length {p : Char → Bool} (h : (cs.takeWhile p).length = cs.length) :
    cs.takeWhile p = cs ∧ ∀ c ∈ cs, p c = true := by
  have hself : cs.takeWhile p = cs := (List.takeWhile_prefix p).eq_of_length h
  exact ⟨hself, List.takeWhile_eq_self_iff.mp hself⟩

theorem shape_nameAfterDollar (h : nameAfterDollar cs = ⟨kind, cs.length⟩) :
    Shape ('$' :: cs) kind := by
  cases cs with
  | nil =>
      obtain ⟨rfl, -⟩ := mk.inj h
      exact .dollar
  | cons c cs =>
      by_cases hc : Text.isLetter c = true
      · simp only [nameAfterDollar, hc, if_true] at h
        obtain ⟨rfl, hlength⟩ := mk.inj h
        obtain ⟨hself, hothers⟩ := takeWhile_eq_self_of_length (Nat.succ.inj hlength)
        rw [hself]
        exact .spelling (.name ⟨c, cs, hc, hothers⟩)
      · simp [nameAfterDollar, hc] at h

theorem shape_decimal (hc : (c.isDigit || c == '.') = true)
    (h : decimal (c :: cs) = ⟨kind, cs.length⟩) : Shape (c :: cs) kind := by
  obtain ⟨hkind, hlength⟩ := mk.inj h
  have hchars : (Numeral.front (c :: cs)).chars = c :: cs := by
    obtain ⟨rest, hrest⟩ := Numeral.chars_append_front (c :: cs)
    obtain ⟨taken, htaken⟩ := Numeral.front_cons hc cs
    have hsum := congrArg List.length hrest
    simp only [List.length_append, List.length_cons, htaken] at hsum hlength
    obtain rfl := List.length_eq_zero_iff.mp (by omega : rest.length = 0)
    simpa using hrest
  have hdigits := Numeral.isDigit_of_mem_digits_front (c :: cs)
  generalize Numeral.front (c :: cs) = numeral at hchars hdigits hkind
  by_cases hne : numeral.digits = []
  · have hpoint : c :: cs = ['.'] := by
      obtain ⟨whole, fraction?⟩ := numeral
      cases fraction? with
      | none => simp_all [Numeral.digits, Numeral.chars]
      | some fraction =>
          obtain ⟨rfl, rfl⟩ : whole = [] ∧ fraction = [] := by
            simpa [Numeral.digits] using hne
          exact hchars.symm
    rw [hpoint] at hchars
    simp only [Numeral.decimal?, hne, hchars] at hkind
    rw [← hkind, hpoint]
    exact .point
  · have hnumber : Token.Kind.number (Literal.decimal numeral hdigits hne).value = kind := by
      simpa [Numeral.decimal?, hne, Literal.value] using hkind
    rw [← hnumber, ← hchars]
    exact .spelling (.literal (.decimal numeral hdigits hne))

theorem shape_radixLiteral {r : Radix} (h : radixLiteral r cs = ⟨kind, cs.length + 1⟩) :
    Shape (r.letter :: '$' :: cs) kind := by
  obtain ⟨hkind, hlength⟩ := mk.inj h
  obtain ⟨hself, hdigits⟩ := takeWhile_eq_self_of_length (Nat.succ.inj hlength)
  rw [hself, radixKind] at hkind
  split at hkind
  · rename_i hnil
    rw [← hkind, List.isEmpty_iff.mp hnil]
    exact .radixPrefix r
  · rename_i hne
    split at hkind
    · rename_i hlt
      rw [← hkind]
      exact .spelling (.literal (.radix r cs hdigits (by simpa using hne) hlt))
    · rename_i hle
      rw [← hkind]
      exact .overflow r hdigits (Nat.le_of_not_lt hle)

theorem shape_afterLetter (hc : Text.isLetter c = true)
    (h : afterLetter c cs = ⟨kind, cs.length⟩) : Shape (c :: cs) kind := by
  fun_cases afterLetter c cs with
  | case1 r rest hr =>
      rw [← Radix.letter_of_ofLetter? hr]
      simp only [afterLetter, hr] at h
      exact shape_radixLiteral h
  | case2 =>
      rename_i hnone
      rw [afterLetter_eq_bareWord hnone] at h
      obtain ⟨rfl, hlength⟩ := mk.inj h
      obtain ⟨hself, hothers⟩ := takeWhile_eq_self_of_length hlength
      rw [hself]
      exact .spelling (.word ⟨c, cs, hc, hothers⟩)

/-- The characters of a lexeme have a shape, and it tells the kind. -/
theorem shape_front (h : front c cs = ⟨kind, cs.length⟩) : Shape (c :: cs) kind := by
  have alone {kind' : Token.Kind} (h : (⟨kind', 0⟩ : Lexeme) = ⟨kind, cs.length⟩) :
      kind' = kind ∧ cs = [] :=
    ⟨(mk.inj h).1, List.length_eq_zero_iff.mp (mk.inj h).2.symm⟩
  have mark (m : Mark) (h : (⟨m.kind, 0⟩ : Lexeme) = ⟨kind, cs.length⟩) :
      Shape (m.char :: cs) kind := by
    obtain ⟨rfl, rfl⟩ := alone h
    exact .spelling (.mark m)
  unfold front at h
  split at h
  case h_1 => exact mark .leftParen h
  case h_2 => exact mark .rightParen h
  case h_3 => exact mark .assign h
  case h_4 => exact mark .plus h
  case h_5 => exact mark .minus h
  case h_6 => exact mark .times h
  case h_7 => exact mark .divide h
  case h_8 => exact mark .power h
  case h_9 => exact shape_nameAfterDollar h
  case h_10 =>
    split at h
    · exact shape_decimal ‹_› h
    · split at h
      · exact shape_afterLetter ‹_› h
      · obtain ⟨rfl, rfl⟩ := alone h
        exact .unexpected c

end Lexeme

/-- A lexeme of a text has a shape. -/
theorem Segment.shape {g : Segment} (h : g.ReadsBefore []) : Lexeme.Shape g.lexeme g.kind := by
  rw [ReadsBefore, List.append_nil] at h
  exact Lexeme.shape_front h

/-! ### Spelled tokens -/

/-- A token whose name is a name of the grammar, and whose number is that of a literal. -/
def Token.Spelled (t : Token) : Prop :=
  (∀ text, t.kind = .name text → ∃ n : Name, n.text = text) ∧
    ∀ v, t.kind = .number v → ∃ l : Literal, l.value = v

theorem Lexeme.Shape.spelled {cs : List Char} {kind : Token.Kind} (h : Shape cs kind) (p : Place) :
    Token.Spelled ⟨kind, p⟩ := by
  cases h with
  | spelling s =>
      cases s with
      | mark m => cases m <;> simp [Token.Spelled, Spelling.kind, Mark.kind]
      | name n => exact ⟨fun _ h => ⟨n, Token.Kind.name.inj h⟩, by simp [Spelling.kind]⟩
      | literal l => exact ⟨by simp [Spelling.kind], fun _ h => ⟨l, Token.Kind.number.inj h⟩⟩
      | word w => exact ⟨by simp [Spelling.kind], by simp [Spelling.kind]⟩
  | _ => exact ⟨by simp, by simp⟩

/-- All tokens of a scan are spelled. -/
theorem Scan.spelled_of_mem {text : String} {t : Token} (h : t ∈ (ofText text).tokens) :
    t.Spelled := by
  obtain ⟨first, others, -, hfront⟩ := Segment.exists_front_of_mem h
  exact (Lexeme.shape_front hfront).spelled t.place

end Reckoner
