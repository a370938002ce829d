import Reckoner.Proofs.Spacing
import Reckoner.Proofs.Spelling

/-!
# Texts set one behind another

The tokens of a text in front of a delimiter are the tokens that it has alone, and those of the rest
follow. In front of any text, blanks add no token and a mark adds one. So the tokens of a text that
is put together from other texts are found part by part. Where a part stands moves its tokens and
does not change their kinds.
-/

namespace Reckoner

/-- What is read before some text is read before this text in front of a delimiter too. -/
theorem Segment.ReadsBefore.append {g : Segment} {cs rest : List Char} (h : g.ReadsBefore cs)
    (hrest : Delimited rest) : g.ReadsBefore (cs ++ rest) := by
  rw [ReadsBefore] at h ⊢
  rw [← List.append_assoc, Lexeme.front_before hrest, h]

theorem Cursor.pull_append_blanks {blanks : List Char} (h : ∀ c ∈ blanks, Text.isBlank c = true)
    (rest : List Char) (p : Place) :
    pull ⟨blanks ++ rest, p⟩ = pull ⟨rest, p.afterAll blanks⟩ := by
  have hskip : skipBlanks ⟨blanks ++ rest, p⟩ = skipBlanks ⟨rest, p.afterAll blanks⟩ := by
    simp only [skipBlanks_eq, List.takeWhile_append_of_pos h, List.dropWhile_append_of_pos h,
      Place.afterAll_append]
  rw [pull, pull, hskip]

namespace Scan

theorem ofCursor_of_pull_eq {c d : Cursor} (h : c.pull = d.pull) : ofCursor c = ofCursor d := by
  obtain hd | ⟨t, hd⟩ : d.pull.1 = none ∨ ∃ t, d.pull.1 = some t := by
    cases d.pull.1 <;> simp
  · have hnone : d.pull = (none, d.pull.2) := by rw [← hd]
    rw [ofCursor_of_pull_none (h.trans hnone), ofCursor_of_pull_none hnone]
  · have hsome : d.pull = (some t, d.pull.2) := by rw [← hd]
    rw [ofCursor_of_pull_some (h.trans hsome), ofCursor_of_pull_some hsome]

/-- A scan ends behind all of its text. -/
theorem finish_ofCursor (cs : List Char) (p : Place) :
    (ofCursor ⟨cs, p⟩).finish = p.afterAll cs := by
  obtain ⟨gs, tail, rfl, hread, -⟩ := Segment.exists_read cs
  rw [Segment.scan_of_read hread]

/-- The kinds of the tokens do not depend on the place of a text. -/
theorem kinds_ofCursor (cs : List Char) (p q : Place) :
    (ofCursor ⟨cs, p⟩).tokens.map Token.kind = (ofCursor ⟨cs, q⟩).tokens.map Token.kind :=
  (Respaced.refl cs).kinds_eq q p

/-- A text behind blanks adds its own tokens. -/
theorem tokens_blanks_append {blanks : List Char} (h : ∀ c ∈ blanks, Text.isBlank c = true)
    (rest : List Char) (p : Place) :
    (ofCursor ⟨blanks ++ rest, p⟩).tokens = (ofCursor ⟨rest, p.afterAll blanks⟩).tokens := by
  rw [ofCursor_of_pull_eq (Cursor.pull_append_blanks h rest p)]

theorem tokens_blanks {blanks : List Char} (h : ∀ c ∈ blanks, Text.isBlank c = true) (p : Place) :
    (ofCursor ⟨blanks, p⟩).tokens = [] := by
  rw [ofCursor_of_pull_none (Cursor.pull_blanks h p)]

@[simp] theorem tokens_nil (p : Place) : (ofCursor ⟨[], p⟩).tokens = [] :=
  tokens_blanks (by simp) p

/-- A piece adds its token, if what follows does not go on with it. -/
theorem tokens_piece {w : Piece} {rest : List Char}
    (h : w.spelling.isMark = true ∨ Delimited rest) (p : Place) :
    (ofCursor ⟨w.chars ++ rest, p⟩).tokens =
      ⟨w.spelling.kind, p.afterAll w.blanks⟩ ::
        (ofCursor ⟨rest, p.afterAll w.chars⟩).tokens := by
  have hpull := Cursor.pull_segment w.segment (Piece.readsBefore h) p
  rw [Piece.segment_chars] at hpull
  rw [ofCursor_of_pull_some hpull]
  rfl

/-- The tokens of a text in front of a delimiter are its own. -/
theorem tokens_append (cs : List Char) {rest : List Char} (h : Delimited rest) (p : Place) :
    (ofCursor ⟨cs ++ rest, p⟩).tokens =
      (ofCursor ⟨cs, p⟩).tokens ++ (ofCursor ⟨rest, p.afterAll cs⟩).tokens := by
  obtain ⟨gs, tail, rfl, hread, -⟩ := Segment.exists_read cs
  induction gs generalizing p with
  | nil =>
      rw [List.flatMap_nil, List.nil_append, tokens_blanks_append hread, tokens_blanks hread,
        List.nil_append]
  | cons g gs ih =>
      obtain ⟨hreads, hread⟩ := hread
      have hreads' : g.ReadsBefore (gs.flatMap Segment.chars ++ tail ++ rest) := hreads.append h
      have hchars : (g :: gs).flatMap Segment.chars ++ tail =
          g.chars ++ (gs.flatMap Segment.chars ++ tail) := by
        rw [List.flatMap_cons, List.append_assoc]
      rw [hchars, List.append_assoc, ofCursor_of_pull_some (Cursor.pull_segment g hreads' p),
        ofCursor_of_pull_some (Cursor.pull_segment g hreads p)]
      simp only [ih _ hread, List.cons_append, Place.afterAll_append]

/-- A text in front of blanks is read for itself, and then what follows these. -/
theorem ofCursor_append_blanks (cs : List Char) {blanks : List Char} (hne : blanks ≠ [])
    (hblanks : ∀ c ∈ blanks, Text.isBlank c = true) (rest : List Char) (p : Place) :
    ofCursor ⟨cs ++ (blanks ++ rest), p⟩ =
      ⟨(ofCursor ⟨cs, p⟩).tokens ++ (ofCursor ⟨rest, p.afterAll (cs ++ blanks)⟩).tokens,
        (ofCursor ⟨rest, p.afterAll (cs ++ blanks)⟩).finish⟩ := by
  have hdelimited : Delimited (blanks ++ rest) := (Delimited.of_isBlank hblanks).append hne rest
  have htokens := tokens_append cs hdelimited p
  rw [tokens_blanks_append hblanks, ← Place.afterAll_append] at htokens
  have hfinish : (ofCursor ⟨cs ++ (blanks ++ rest), p⟩).finish =
      (ofCursor ⟨rest, p.afterAll (cs ++ blanks)⟩).finish := by
    simp only [finish_ofCursor, Place.afterAll_append]
  rw [← htokens, ← hfinish]

/-- A text in parentheses adds its own tokens, between those of the parentheses. -/
theorem tokens_group (cs rest : List Char) (p : Place) :
    ∃ inner, (ofCursor ⟨'(' :: (cs ++ ')' :: rest), p⟩).tokens =
        ⟨.leftParen, p⟩ :: (inner ++ [⟨.rightParen, p.afterAll ('(' :: cs)⟩]) ++
          (ofCursor ⟨rest, p.afterAll ('(' :: (cs ++ [')']))⟩).tokens ∧
      ∀ q, inner.map Token.kind = (ofCursor ⟨cs, q⟩).tokens.map Token.kind := by
  let opening : Piece := ⟨[], .mark .leftParen, by simp⟩
  let closing : Piece := ⟨[], .mark .rightParen, by simp⟩
  have hdelimited : Delimited (closing.chars ++ rest) := closing.delimited_of_mark rfl rest
  have hopening : (ofCursor ⟨opening.chars ++ (cs ++ (closing.chars ++ rest)), p⟩).tokens = _ :=
    tokens_piece (.inl rfl) p
  rw [tokens_append cs hdelimited, tokens_piece (w := closing) (.inl rfl)] at hopening
  refine ⟨(ofCursor ⟨cs, p.after '('⟩).tokens, ?_, fun q => kinds_ofCursor cs _ q⟩
  simpa [opening, closing, Piece.chars, Spelling.chars, Mark.char, Spelling.kind, Mark.kind]
    using hopening

end Scan

end Reckoner
