import Mathlib.Data.String.Basic
import Reckoner.Proofs.Joining
import Reckoner.Proofs.RadixLiteral

/-!
# Reading with one character of pushback

The lexemes of a text can be read from a tape: character by character, from a position in the bytes
of the text, with the line and the column counted along. A run ends at the first character that is
not accepted. That one has been read already and is put back, and for this the tape keeps where it
stood before the last character. Nothing else is kept from one token to the next.

Putting a character back undoes its reading, also over a newline (`Tape.unread_read`). So where the
tape stands says all about it, and each token read from the tape is the token that a pull from a
cursor at the same place takes (`Tape.next_eq`).
-/

namespace Reckoner

/-- At a character that is no blank, a pull takes the lexeme that starts there. -/
theorem Cursor.pull_cons {first : Char} (h : Text.isBlank first = false) (cs : List Char)
    (p : Place) :
    pull ⟨first :: cs, p⟩ =
      (some ⟨(Lexeme.front first cs).kind, p⟩,
        advance ⟨cs, p.after first⟩ (Lexeme.front first cs).more) := by
  have hskip : skipBlanks ⟨first :: cs, p⟩ = ⟨first :: cs, p⟩ := by
    simp [skipBlanks, h]
  rw [pull, hskip]
  rfl

/-- A position in the bytes of a text, and its line and column. -/
structure Tape.Point where
  position : String.Pos.Raw
  place : Place

/-- A text, where the tape stands in it, and where it stood before the last character that can be
put back. -/
structure Tape where
  text : String
  point : Tape.Point
  saved? : Option Tape.Point := none

namespace Tape

def ofText (text : String) : Tape := { text, point := ⟨0, Place.start⟩ }

/-! ### Characters -/

/-- Read the next character, if there is one. -/
def read (t : Tape) : Option Char × Tape :=
  match t.point.position.get? t.text with
  | none => (none, { t with saved? := none })
  | some c =>
    let point : Point := ⟨t.point.position + c, t.point.place.after c⟩
    (some c, { t with point, saved? := some t.point })

/-- Put the last character back. Only one is kept. -/
def unread (t : Tape) : Tape :=
  match t.saved? with
  | some point => { t with point, saved? := none }
  | none => t

theorem lt_of_utf8GetAux? {cs : List Char} {i position : String.Pos.Raw} {c : Char}
    (h : String.Pos.Raw.utf8GetAux? cs i position = some c) :
    position.byteIdx < i.byteIdx + String.utf8Len cs := by
  induction cs generalizing i with
  | nil => simp [String.Pos.Raw.utf8GetAux?] at h
  | cons d cs ih =>
      rw [String.Pos.Raw.utf8GetAux?] at h
      rw [String.utf8Len_cons]
      have hpos := d.utf8Size_pos
      split at h
      · rename_i heq
        rw [← heq]
        omega
      · have hrest := ih h
        rw [String.Pos.Raw.byteIdx_add_char] at hrest
        omega

/-- Where there is a character, the text has not ended. -/
theorem lt_of_get? {text : String} {position : String.Pos.Raw} {c : Char}
    (h : position.get? text = some c) : position.byteIdx < text.utf8ByteSize := by
  have hlt := lt_of_utf8GetAux? h
  rw [String.utf8Len_toList] at hlt
  simpa using hlt

def left (t : Tape) : Nat := t.text.utf8ByteSize - t.point.position.byteIdx

/-- A character that is read leaves fewer bytes. -/
theorem left_lt_of_read {t t' : Tape} {c : Char} (h : t.read = (some c, t')) :
    t'.left < t.left := by
  rw [read] at h
  split at h
  · simp at h
  · rename_i d hget
    obtain ⟨rfl, rfl⟩ := by simpa using h
    have hend := lt_of_get? hget
    have hpos := d.utf8Size_pos
    simp only [left, String.Pos.Raw.byteIdx_add_char]
    omega

/-- Putting a character back undoes its reading, whatever the character is. -/
theorem unread_read (t : Tape) : t.read.2.unread = { t with saved? := none } := by
  rw [read]
  split <;> rfl

/-! ### Runs -/

/-- Read characters as long as they are accepted, and put the first one back that is not. Whether a
character is accepted may depend on those before it. -/
def readWhile {σ : Type} (accept : σ → Char → Option σ) (s : σ) (t : Tape) : List Char × Tape :=
  match _h : t.read with
  | (none, t') => ([], t')
  | (some c, t') =>
    match accept s c with
    | none => ([], t'.unread)
    | some s' =>
      let r := readWhile accept s' t'
      (c :: r.1, r.2)
termination_by t.left
decreasing_by exact left_lt_of_read _h

/-- The front of some characters that is accepted. -/
def accepted {σ : Type} (accept : σ → Char → Option σ) (s : σ) : List Char → List Char
  | [] => []
  | c :: cs =>
    match accept s c with
    | none => []
    | some s' => c :: accepted accept s' cs

def during (ofKind : Char → Bool) (_ : Unit) (c : Char) : Option Unit :=
  if ofKind c then some () else none

/-- Digits and one point, if it was not seen yet. -/
def inNumeral (seen : Bool) (c : Char) : Option Bool :=
  if c = '.' then if seen then none else some true
  else if c.isDigit then some seen
  else none

/-! ### Tokens -/

def name (t : Tape) : Token.Kind × Tape :=
  match t.read with
  | (some c, t') =>
    if Text.isLetter c then
      let r := t'.readWhile (during Text.isLetterOrDigit) ()
      (.name (String.ofList ('$' :: c :: r.1)), r.2)
    else (.bad .nameless, t'.unread)
  | (none, t') => (.bad .nameless, t')

def decimal (t : Tape) : Token.Kind × Tape :=
  let r := t.readWhile inNumeral false
  ((Lexeme.decimal r.1).kind, r.2)

def radixLiteral (radix : Radix) (t : Tape) : Token.Kind × Tape :=
  let r := t.readWhile (during radix.isDigit) ()
  (radix.kindInWords r.1, r.2)

def bareWord (c : Char) (t : Tape) : Token.Kind × Tape :=
  let r := t.readWhile (during Text.isLetterOrDigit) ()
  (.word (String.ofList (c :: r.1)), r.2)

def afterLetter (c : Char) (t : Tape) : Token.Kind × Tape :=
  match Radix.ofLetter? c with
  | some radix =>
    match t.read with
    | (some '$', t') => t'.radixLiteral radix
    | (_, t') => t'.unread.bareWord c
  | none => t.bareWord c

def lexeme (c : Char) (t : Tape) : Token.Kind × Tape :=
  match c with
  | '(' => (.leftParen, t)
  | ')' => (.rightParen, t)
  | '=' => (.assign, t)
  | '+' => (.plus, t)
  | '-' => (.minus, t)
  | '*' => (.times, t)
  | '/' => (.divide, t)
  | '^' => (.power, t)
  | '$' => t.name
  | c =>
    if c.isDigit || c == '.' then t.unread.decimal
    else if Text.isLetter c then t.afterLetter c
    else (.bad (.unexpected c), t)

/-- Read blanks and the character behind them, which comes with its place. -/
def firstVisible (t : Tape) : Option (Char × Place) × Tape :=
  match _h : t.read with
  | (none, t') => (none, t')
  | (some c, t') => if Text.isBlank c then firstVisible t' else (some (c, t.point.place), t')
termination_by t.left
decreasing_by exact left_lt_of_read _h

/-- Read the next token, or none at the end of the text. -/
def next (t : Tape) : Option Token × Tape :=
  match t.firstVisible with
  | (none, t') => (none, t')
  | (some (c, place), t') =>
    let r := t'.lexeme c
    (some ⟨r.1, place⟩, r.2)

def passed (t : Tape) : Nat → Tape
  | 0 => t
  | k + 1 => (t.passed k).next.2

/-! ### Where a tape stands -/

/-- The tape is at the place of the cursor and has the same characters in front of it. -/
def Stands (t : Tape) (c : Cursor) : Prop :=
  ∃ before, t.text = String.ofList (before ++ c.rest) ∧
    t.point = ⟨⟨String.utf8Len before⟩, c.place⟩

variable {t : Tape} {c : Cursor} {first : Char} {cs : List Char} {p : Place}

theorem stands_ofText (text : String) : (ofText text).Stands (Cursor.ofText text) :=
  ⟨[], (String.ofList_toList (s := text)).symm, rfl⟩

theorem Stands.place_eq (h : t.Stands c) : t.point.place = c.place := by
  obtain ⟨before, -, hpoint⟩ := h
  rw [hpoint]

/-- A character that was read can be put back. -/
theorem Stands.unread (h : t.Stands c) : t.read.2.unread.Stands c := by
  rw [unread_read]
  exact h

theorem Stands.read_nil (h : t.Stands ⟨[], p⟩) :
    ∃ t', t.read = (none, t') ∧ t'.Stands ⟨[], p⟩ := by
  obtain ⟨before, htext, hpoint⟩ := h
  have hget : t.point.position.get? t.text = none := by
    rw [htext, hpoint]
    exact String.get?_of_valid before []
  refine ⟨{ t with saved? := none }, ?_, before, htext, hpoint⟩
  rw [read, hget]

theorem Stands.read_cons (h : t.Stands ⟨first :: cs, p⟩) :
    ∃ t', t.read = (some first, t') ∧ t'.Stands ⟨cs, p.after first⟩ ∧
      t'.unread.Stands ⟨first :: cs, p⟩ := by
  have hunread := h.unread
  obtain ⟨before, htext, hpoint⟩ := h
  have hget : t.point.position.get? t.text = some first := by
    rw [htext, hpoint]
    exact String.get?_of_valid before (first :: cs)
  rw [read, hget] at hunread ⊢
  refine ⟨_, rfl, ⟨before ++ [first], ?_, ?_⟩, hunread⟩
  · simp [htext]
  · simp [hpoint, String.Pos.Raw.ext_iff, Nat.add_comm]

/-! ### What is read -/

theorem accepted_during (ofKind : Char → Bool) (cs : List Char) :
    accepted (during ofKind) () cs = cs.takeWhile ofKind := by
  induction cs with
  | nil => rfl
  | cons c cs ih =>
      cases h : ofKind c with
      | true => simp [accepted, during, h, ih]
      | false => simp [accepted, during, h]

/-- Behind its point a numeral has digits only. -/
theorem accepted_inNumeral_true (cs : List Char) :
    accepted inNumeral true cs = cs.takeWhile Char.isDigit := by
  induction cs with
  | nil => rfl
  | cons c cs ih =>
      by_cases hpoint : c = '.'
      · subst hpoint
        rfl
      · cases h : c.isDigit with
        | true => simp [accepted, inNumeral, h, hpoint, ih]
        | false => simp [accepted, inNumeral, h, hpoint]

theorem accepted_inNumeral (cs : List Char) :
    accepted inNumeral false cs = (Numeral.front cs).chars := by
  induction cs with
  | nil => rfl
  | cons c cs ih =>
      by_cases hpoint : c = '.'
      · subst hpoint
        simp [accepted, inNumeral, accepted_inNumeral_true, Numeral.front_point, Numeral.chars]
      · cases h : c.isDigit with
        | true =>
            have hchars : (Numeral.front (c :: cs)).chars = c :: (Numeral.front cs).chars := by
              rw [Numeral.front_of_isDigit h, Numeral.chars, Numeral.chars]
              cases (Numeral.front cs).fraction? <;> rfl
            simp [accepted, inNumeral, h, hpoint, ih, hchars]
        | false =>
            simp [accepted, inNumeral, h, hpoint, Numeral.front, Numeral.chars]

section ReadWhile

variable {σ : Type} {accept : σ → Char → Option σ} {s s' : σ} {t' : Tape}

theorem readWhile_of_read_none (h : t.read = (none, t')) :
    t.readWhile accept s = ([], t') := by
  rw [readWhile]
  split <;> simp_all

theorem readWhile_of_rejected (h : t.read = (some first, t')) (hs : accept s first = none) :
    t.readWhile accept s = ([], t'.unread) := by
  rw [readWhile]
  split <;> simp_all

theorem readWhile_of_accepted (h : t.read = (some first, t')) (hs : accept s first = some s') :
    t.readWhile accept s =
      (first :: (t'.readWhile accept s').1, (t'.readWhile accept s').2) := by
  rw [readWhile]
  split <;> simp_all

/-- A run is read whole, and the tape stands behind it. -/
theorem readWhile_stands (accept : σ → Char → Option σ) (s : σ) (h : t.Stands ⟨cs, p⟩) :
    (t.readWhile accept s).1 = accepted accept s cs ∧
      (t.readWhile accept s).2.Stands (Cursor.advance ⟨cs, p⟩ (accepted accept s cs).length) := by
  induction cs generalizing s t p with
  | nil =>
      obtain ⟨t', hread, hstands⟩ := h.read_nil
      rw [readWhile_of_read_none hread]
      exact ⟨rfl, hstands⟩
  | cons c cs ih =>
      obtain ⟨t', hread, hstands, hunread⟩ := h.read_cons
      cases hs : accept s c with
      | none =>
          rw [readWhile_of_rejected hread hs, accepted, hs]
          exact ⟨rfl, hunread⟩
      | some s' =>
          obtain ⟨hrest, hbehind⟩ := ih s' hstands
          rw [readWhile_of_accepted hread hs, accepted, hs, hrest]
          exact ⟨rfl, hbehind⟩

/-- A run of one kind is the longest there is. -/
theorem readWhile_during (ofKind : Char → Bool) (h : t.Stands ⟨cs, p⟩) :
    (t.readWhile (during ofKind) ()).1 = cs.takeWhile ofKind ∧
      (t.readWhile (during ofKind) ()).2.Stands
        (Cursor.advance ⟨cs, p⟩ (cs.takeWhile ofKind).length) := by
  rw [← accepted_during]
  exact readWhile_stands (during ofKind) () h

end ReadWhile

/-! ### Lexemes -/

/-- What was read is a lexeme behind a cursor, and the tape stands behind the lexeme. -/
def Takes (c : Cursor) (lexeme : Lexeme) (r : Token.Kind × Tape) : Prop :=
  r.1 = lexeme.kind ∧ r.2.Stands (c.advance lexeme.more)

theorem takes_bareWord (h : t.Stands ⟨cs, p⟩) (first : Char) :
    Takes ⟨cs, p⟩ (Lexeme.bareWord first cs) (t.bareWord first) := by
  obtain ⟨hrun, hstands⟩ := readWhile_during Text.isLetterOrDigit h
  constructor
  · rw [bareWord, hrun]
    rfl
  · exact hstands

theorem takes_name (h : t.Stands ⟨cs, p⟩) : Takes ⟨cs, p⟩ (Lexeme.nameAfterDollar cs) t.name := by
  cases cs with
  | nil =>
      obtain ⟨t', hread, hstands⟩ := h.read_nil
      rw [name, hread]
      exact ⟨rfl, hstands⟩
  | cons c cs =>
      obtain ⟨t', hread, hstands, hunread⟩ := h.read_cons
      rw [name, hread]
      by_cases hletter : Text.isLetter c = true
      · obtain ⟨hrun, hbehind⟩ := readWhile_during Text.isLetterOrDigit hstands
        simp only [Lexeme.nameAfterDollar, if_pos hletter, hrun]
        exact ⟨rfl, hbehind⟩
      · simp only [Lexeme.nameAfterDollar, if_neg hletter]
        exact ⟨rfl, hunread⟩

theorem takes_radixLiteral (r : Radix) (h : t.Stands ⟨cs, p.after '$'⟩) :
    Takes ⟨'$' :: cs, p⟩ (Lexeme.radixLiteral r cs) (t.radixLiteral r) := by
  obtain ⟨hrun, hstands⟩ := readWhile_during r.isDigit h
  have hdigits : ∀ c ∈ cs.takeWhile r.isDigit, r.isDigit c = true :=
    fun c hc => List.mem_takeWhile_imp hc
  constructor
  · rw [radixLiteral, hrun, Lexeme.radixLiteral, Radix.radixKind_eq_kindInWords hdigits]
  · exact hstands

theorem afterLetter_of_dollar {r : Radix} {t' : Tape} (hr : Radix.ofLetter? first = some r)
    (h : t.read = (some '$', t')) : t.afterLetter first = t'.radixLiteral r := by
  simp only [afterLetter, hr, h]

theorem afterLetter_of_other {r : Radix} (hr : Radix.ofLetter? first = some r)
    (h : t.read.1 ≠ some '$') : t.afterLetter first = t.read.2.unread.bareWord first := by
  simp only [afterLetter, hr]

theorem takes_afterLetter (h : t.Stands ⟨cs, p⟩) (first : Char) :
    Takes ⟨cs, p⟩ (Lexeme.afterLetter first cs) (t.afterLetter first) := by
  cases hr : Radix.ofLetter? first with
  | none =>
      rw [Lexeme.afterLetter_eq_bareWord (by simp [hr]), afterLetter, hr]
      exact takes_bareWord h first
  | some r =>
      cases cs with
      | nil =>
          obtain ⟨t', hread, -⟩ := h.read_nil
          rw [Lexeme.afterLetter_eq_bareWord (by simp), afterLetter_of_other hr (by simp [hread])]
          exact takes_bareWord h.unread first
      | cons c cs =>
          obtain ⟨t', hread, hstands, -⟩ := h.read_cons
          by_cases hdollar : c = '$'
          · subst hdollar
            have hliteral : Lexeme.afterLetter first ('$' :: cs) = Lexeme.radixLiteral r cs := by
              simp only [Lexeme.afterLetter, hr]
            rw [hliteral, afterLetter_of_dollar hr hread]
            exact takes_radixLiteral r hstands
          · rw [Lexeme.afterLetter_eq_bareWord (by simp [hdollar]),
              afterLetter_of_other hr (by simp [hread, hdollar])]
            exact takes_bareWord h.unread first

/-- The first character is put back and read again with the others. -/
theorem takes_decimal (hfirst : (first.isDigit || first == '.') = true)
    (h : t.Stands ⟨first :: cs, p⟩) :
    Takes ⟨cs, p.after first⟩ (Lexeme.decimal (first :: cs)) t.decimal := by
  obtain ⟨hrun, hstands⟩ := readWhile_stands inNumeral false h
  rw [accepted_inNumeral] at hrun hstands
  have hnumeral : Numeral.front (Numeral.front (first :: cs)).chars =
      Numeral.front (first :: cs) := by
    have hfront := Numeral.front_chars_append (n := Numeral.front (first :: cs)) endsNumeral_nil
      (Numeral.isDigit_of_mem_digits_front _)
    rwa [List.append_nil] at hfront
  obtain ⟨taken, htaken⟩ := Numeral.front_cons hfirst cs
  constructor
  · simp only [decimal, hrun, Lexeme.decimal, hnumeral]
  · have hmore : (Lexeme.decimal (first :: cs)).more + 1 =
        (Numeral.front (first :: cs)).chars.length := by
      simp [Lexeme.decimal, htaken]
    rw [← hmore] at hstands
    exact hstands

/-- What is read behind the first character of a lexeme is this lexeme. -/
theorem takes_lexeme (h : t.Stands ⟨cs, p.after first⟩)
    (hunread : t.unread.Stands ⟨first :: cs, p⟩) :
    Takes ⟨cs, p.after first⟩ (Lexeme.front first cs) (t.lexeme first) := by
  unfold lexeme
  split
  case h_9 => exact takes_name h
  case h_10 =>
    have hmark : first ∉ Lexeme.marks := by simp_all [Lexeme.marks]
    rw [Lexeme.front_of_not_mark hmark]
    by_cases hdigit : (first.isDigit || first == '.') = true
    · rw [if_pos hdigit, if_pos hdigit]
      exact takes_decimal hdigit hunread
    · rw [if_neg hdigit, if_neg hdigit]
      by_cases hletter : Text.isLetter first = true
      · rw [if_pos hletter, if_pos hletter]
        exact takes_afterLetter h first
      · rw [if_neg hletter, if_neg hletter]
        exact ⟨rfl, h⟩
  all_goals exact ⟨rfl, h⟩

/-! ### Tokens -/

section FirstVisible

variable {t' : Tape}

theorem firstVisible_of_read_none (h : t.read = (none, t')) : t.firstVisible = (none, t') := by
  rw [firstVisible]
  split <;> simp_all

theorem firstVisible_of_blank (h : t.read = (some first, t'))
    (hblank : Text.isBlank first = true) : t.firstVisible = t'.firstVisible := by
  rw [firstVisible]
  split <;> simp_all

theorem firstVisible_of_not_blank (h : t.read = (some first, t'))
    (hblank : Text.isBlank first = false) :
    t.firstVisible = (some (first, t.point.place), t') := by
  rw [firstVisible]
  split <;> simp_all

/-- From a first character that is no blank, the next token is its lexeme. -/
theorem next_of_not_blank (h : t.read = (some first, t')) (hblank : Text.isBlank first = false) :
    t.next = (some ⟨(t'.lexeme first).1, t.point.place⟩, (t'.lexeme first).2) := by
  simp only [next, firstVisible_of_not_blank h hblank]

end FirstVisible

/-- The next token of a tape is the one that a pull takes, and the tape stands behind it where the
cursor does. -/
theorem next_eq (h : t.Stands c) : t.next.1 = c.pull.1 ∧ t.next.2.Stands c.pull.2 := by
  obtain ⟨cs, p⟩ := c
  induction cs generalizing t p with
  | nil =>
      obtain ⟨t', hread, hstands⟩ := h.read_nil
      rw [Cursor.pull_blanks (by simp), next, firstVisible_of_read_none hread]
      exact ⟨rfl, hstands⟩
  | cons first cs ih =>
      obtain ⟨t', hread, hstands, hunread⟩ := h.read_cons
      cases hblank : Text.isBlank first with
      | true =>
          have hall : ∀ c ∈ [first], Text.isBlank c = true := by simpa using hblank
          have hpull : Cursor.pull ⟨first :: cs, p⟩ = Cursor.pull ⟨cs, p.after first⟩ :=
            Cursor.pull_append_blanks hall cs p
          rw [hpull, next, firstVisible_of_blank hread hblank]
          exact ih _ hstands
      | false =>
          obtain ⟨hkind, hbehind⟩ := takes_lexeme hstands hunread
          rw [Cursor.pull_cons hblank, next_of_not_blank hread hblank, hkind,
            h.place_eq]
          exact ⟨rfl, hbehind⟩

theorem passed_stands (h : t.Stands c) (k : Nat) : (t.passed k).Stands (c.pulled k) := by
  induction k with
  | zero => exact h
  | succ k ih => exact (next_eq ih).2

/-- The tokens of a tape are those of its text, and so is the place of the end. -/
theorem next_passed (text : String) (k : Nat) :
    ((ofText text).passed k).next.1 = ((Cursor.ofText text).pulled k).pull.1 ∧
      ((ofText text).passed k).next.2.point.place =
        ((Cursor.ofText text).pulled k).pull.2.place := by
  obtain ⟨htoken, hstands⟩ := next_eq (passed_stands (stands_ofText text) k)
  exact ⟨htoken, hstands.place_eq⟩

end Tape

end Reckoner
