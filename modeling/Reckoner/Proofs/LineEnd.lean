import Reckoner.Proofs.Joining

/-!
# Blanks at the end of a line

Blanks at the end of a line add no token, so they do not change what the line does. They move the
end of the line, and an expression that ends too early is refused at its end. No token stands at
the end of a line, and so no other fault is reported there: a line with blanks at its end gives
what the line without them gives, but for a fault at the end, which moves with it.
-/

namespace Reckoner

/-! ### Tokens and places -/

namespace Segment

/-- Behind the place of a token there is more text, its lexeme at least. -/
theorem place_of_mem_tokens {gs : List Segment} {p : Place} {t : Token} (h : t ∈ tokens p gs) :
    ∃ before behind, gs.flatMap chars = before ++ behind ∧ behind ≠ [] ∧
      t.place = p.afterAll before := by
  induction gs generalizing p with
  | nil => simp [tokens] at h
  | cons g gs ih =>
      obtain rfl | h := List.mem_cons.mp h
      · exact ⟨g.blanks, g.lexeme ++ gs.flatMap chars, by simp [chars], by simp [lexeme], rfl⟩
      · obtain ⟨before, behind, hchars, hne, hplace⟩ := ih h
        exact ⟨g.chars ++ before, behind, by simp [hchars], hne, by simp [hplace]⟩

end Segment

/-- Behind more text is another place. -/
theorem Place.behind_append_ne (cs : List Char) {more : List Char} (h : more ≠ []) :
    behind cs ≠ behind (cs ++ more) := by
  intro heq
  simp only [behind, Place.mk.injEq, List.count_append, List.reverse_append] at heq
  obtain ⟨hline, hcolumn⟩ := heq
  have hnewline : '\n' ∉ more := List.count_eq_zero.mp (by omega)
  have hrun : ∀ c ∈ more.reverse, decide (c ≠ '\n') = true := by
    intro c hc
    rw [decide_eq_true_eq]
    rintro rfl
    exact hnewline (List.mem_reverse.mp hc)
  rw [List.takeWhile_append_of_pos hrun] at hcolumn
  have hlength : 0 < more.length := List.length_pos_iff.mpr h
  simp only [List.length_append, List.length_reverse] at hcolumn
  omega

/-- Blanks at the end of a text move its end, behind all tokens, and change no token. -/
theorem Scan.ofText_append_blanks (cs : List Char) {blanks : List Char}
    (hblanks : ∀ c ∈ blanks, Text.isBlank c = true) :
    ∃ tokens, ofText (String.ofList cs) = ⟨tokens, Place.behind cs⟩ ∧
      ofText (String.ofList (cs ++ blanks)) = ⟨tokens, Place.behind (cs ++ blanks)⟩ ∧
      ∀ t ∈ tokens, t.place ≠ Place.behind cs := by
  have hfinish (text : List Char) : ofText (String.ofList text) =
      ⟨(ofCursor ⟨text, Place.start⟩).tokens, Place.behind text⟩ := by
    rw [ofText, Cursor.ofText, String.toList_ofList, ← Place.start_afterAll, ← finish_ofCursor]
  have htokens : (ofCursor ⟨cs ++ blanks, Place.start⟩).tokens =
      (ofCursor ⟨cs, Place.start⟩).tokens := by
    rw [tokens_append cs (.of_isBlank hblanks), tokens_blanks hblanks, List.append_nil]
  refine ⟨(ofCursor ⟨cs, Place.start⟩).tokens, hfinish cs, ?_, ?_⟩
  · rw [hfinish, htokens]
  · intro t ht
    obtain ⟨gs, tail, rfl, hread, -⟩ := Segment.exists_read cs
    rw [Segment.scan_of_read hread] at ht
    obtain ⟨before, behind, hchars, hne, hplace⟩ := Segment.place_of_mem_tokens ht
    rw [hplace, Place.start_afterAll, hchars, List.append_assoc]
    exact Place.behind_append_ne before (by simp [hne])

/-! ### Faults at the end -/

/-- The fault at another place, if it is at the given one. -/
def Located.move {α : Type} (old new : Place) (e : Located α) : Located α :=
  if e.place = old then ⟨e.cause, new⟩ else e

theorem Located.move_of_ne {α : Type} {old : Place} {e : Located α} (h : e.place ≠ old)
    (new : Place) : e.move old new = e :=
  if_neg h

def Place.move (old new p : Place) : Place :=
  if p = old then new else p

theorem Located.move_eq_relocate {α : Type} (old new : Place) (e : Located α) :
    e.move old new = e.relocate (Place.move old new) := by
  rw [move, relocate, Place.move]
  split <;> rfl

namespace Evaluation

def move (old new : Place) (r : Evaluation) : Evaluation :=
  ⟨r.result.mapError (Located.move old new), r.store⟩

/-- Where the text ends matters to faults at its end alone: no token stands there. -/
theorem run_move {ts : List Token} {p : Place} (hts : ∀ t ∈ ts, t.place ≠ p) (new : Place)
    (store : Store) :
    run new store (.operand []) ts = (run p store (.operand []) ts).move p new := by
  have hend : Place.move p new p = new := if_pos rfl
  have htokens : ts.map (Token.relocate (Place.move p new)) = ts := by
    refine (List.map_congr_left ?_).trans (List.map_id ts)
    intro t ht
    rw [Token.relocate, Place.move, if_neg (hts t ht)]
    rfl
  have hrun := run_relocate (Place.move p new) p store (.operand []) ts
  rw [hend, htokens] at hrun
  rw [move, funext (Located.move_eq_relocate p new)]
  exact hrun

end Evaluation

/-! ### Lines -/

/-- The fault of a line with its place moved. Commands fail without a place. -/
def LineFault.move (old new : Place) : LineFault → LineFault
  | .command fault => .command fault
  | .evaluation e => .evaluation (e.move old new)

variable {blanks : List Char}

/-- An expression with blanks at its end has the same value, the same fault but for a fault at the
end, and the same effect on the store. -/
theorem evaluate_append_blanks (store : Store) (cs : List Char)
    (hblanks : ∀ c ∈ blanks, Text.isBlank c = true) :
    evaluate store (String.ofList (cs ++ blanks)) =
      (evaluate store (String.ofList cs)).move (Place.behind cs) (Place.behind (cs ++ blanks)) := by
  obtain ⟨tokens, hscan, hblankScan, hplaces⟩ := Scan.ofText_append_blanks cs hblanks
  rw [evaluate, evaluate, hscan, hblankScan]
  exact Evaluation.run_move hplaces _ store

/-- A line with blanks at its end does what the line does. Only a fault at the end moves. -/
theorem Session.line_append_blanks (s : Session) (cs : List Char)
    (hblanks : ∀ c ∈ blanks, Text.isBlank c = true) :
    s.line (String.ofList (cs ++ blanks)) =
      ⟨(s.line (String.ofList cs)).result.mapError
        (LineFault.move (Place.behind cs) (Place.behind (cs ++ blanks))),
        (s.line (String.ofList cs)).session⟩ := by
  obtain ⟨tokens, hscan, hblankScan, -⟩ := Scan.ofText_append_blanks cs hblanks
  have hall : (cs ++ blanks).all Text.isBlank = cs.all Text.isBlank := by
    rw [List.all_append, List.all_eq_true.mpr hblanks, Bool.and_true]
  have hrequest : Request.ofLine? (String.ofList (cs ++ blanks)) =
      Request.ofLine? (String.ofList cs) := by
    rw [Request.ofLine?, Request.ofLine?, hscan, hblankScan]
  rw [line, line, String.toList_ofList, String.toList_ofList, hall, hrequest]
  split
  · rfl
  · split
    · rfl
    · simp only [command]
      split <;> rfl
    · simp only [expression, evaluate_append_blanks s.store cs hblanks, Evaluation.move]
      cases (evaluate s.store (String.ofList cs)).result <;> rfl

end Reckoner
