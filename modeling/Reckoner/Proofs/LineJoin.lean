import Reckoner.Proofs.Pushback
import Reckoner.Proofs.Relocation

/-!
# Texts split at newlines

A newline ends every lexeme, so a text is read as its lines are. All that a cursor keeps of the text
before it is its place. Moved down by some lines it stands before the same characters, and it pulls
the same tokens with their places moved down. Behind a newline a cursor is in the first column, as
it is at the start of a text, so what follows a newline is read as a text of its own, further down.
This holds for malformed texts too, and whether a text is read at a cursor or from a tape.
-/

namespace Reckoner

/-! ### Further down -/

namespace Place

/-- The place in the same column, so many lines further down. -/
def down (n : Nat) (p : Place) : Place := ⟨p.line + n, p.column⟩

variable (n : Nat) (p : Place)

theorem after_down (c : Char) : (p.down n).after c = (p.after c).down n := by
  simp only [after]
  split
  · simp only [down, Nat.add_right_comm]
  · rfl

@[simp] theorem afterAll_down (cs : List Char) :
    (p.down n).afterAll cs = (p.afterAll cs).down n := by
  induction cs generalizing p with
  | nil => rfl
  | cons c cs ih => simp only [afterAll_cons, after_down, ih]

/-- Behind a newline is the start, moved down by the newlines. -/
theorem start_afterAll_newline (cs : List Char) :
    start.afterAll (cs ++ ['\n']) = start.down (cs.count '\n' + 1) := by
  rw [start_afterAll, behind_append_newline, start, down, Nat.add_comm 1]

end Place

namespace Cursor

/-- The cursor before the same characters, so many lines further down. -/
def down (n : Nat) (c : Cursor) : Cursor := ⟨c.rest, c.place.down n⟩

variable (n : Nat) (c : Cursor)

theorem advance_down (k : Nat) : (c.down n).advance k = (c.advance k).down n := by
  simp only [advance, down, Place.afterAll_down]

/-- Further down a pull takes the same token, further down. -/
theorem pull_down :
    (c.down n).pull = (c.pull.1.map (Token.relocate (Place.down n)), c.pull.2.down n) := by
  have hskip : (c.down n).skipBlanks = c.skipBlanks.down n := advance_down n c _
  have hrest : (c.skipBlanks.down n).rest = c.skipBlanks.rest := rfl
  simp only [pull, hskip, hrest]
  cases c.skipBlanks.rest with
  | nil => rfl
  | cons first others => simp only [advance_down, Option.map_some]; rfl

theorem pulled_down (k : Nat) : (c.down n).pulled k = (c.pulled k).down n := by
  induction k with
  | zero => rfl
  | succ k ih => rw [pulled, ih, pull_down, pulled]

theorem pulled_add (j k : Nat) : c.pulled (j + k) = (c.pulled j).pulled k := by
  induction k with
  | zero => rfl
  | succ k ih => rw [← Nat.add_assoc, pulled, ih, pulled]

/-- Cursors that agree on one pull agree on all later ones. -/
theorem pull_pulled_congr {c d : Cursor} (h : c.pull = d.pull) (k : Nat) :
    (c.pulled k).pull = (d.pulled k).pull := by
  induction k with
  | zero => exact h
  | succ k ih => rw [pulled, pulled, ih]

/-- The first pull moves over the first segment. -/
theorem pulled_segment (g : Segment) {rest : List Char} (h : g.ReadsBefore rest) (p : Place)
    (k : Nat) :
    pulled ⟨g.chars ++ rest, p⟩ (k + 1) = pulled ⟨rest, p.afterAll g.chars⟩ k := by
  rw [Nat.add_comm, pulled_add]
  change pulled (pull ⟨g.chars ++ rest, p⟩).2 k = _
  rw [pull_segment g h p]

/-- Behind the tokens of a text in front of blanks, the next pull is that of what follows these. -/
theorem pull_behind_tokens (cs : List Char) {blanks : List Char} (hne : blanks ≠ [])
    (hblanks : ∀ c ∈ blanks, Text.isBlank c = true) (rest : List Char) (p : Place) :
    (pulled ⟨cs ++ (blanks ++ rest), p⟩ (Scan.ofCursor ⟨cs, p⟩).tokens.length).pull =
      pull ⟨rest, p.afterAll (cs ++ blanks)⟩ := by
  have hdelimited : Delimited (blanks ++ rest) := (Delimited.of_isBlank hblanks).append hne rest
  obtain ⟨gs, tail, rfl, hread, -⟩ := Segment.exists_read cs
  rw [Segment.scan_of_read hread, Segment.length_tokens]
  induction gs generalizing p with
  | nil =>
      have hall : ∀ c ∈ tail ++ blanks, Text.isBlank c = true :=
        List.forall_mem_append.mpr ⟨hread, hblanks⟩
      rw [List.flatMap_nil, List.nil_append, ← List.append_assoc]
      exact pull_append_blanks hall rest p
  | cons g gs ih =>
      obtain ⟨hreads, hread⟩ := hread
      have hchars : (g :: gs).flatMap Segment.chars ++ tail ++ (blanks ++ rest) =
          g.chars ++ (gs.flatMap Segment.chars ++ tail ++ (blanks ++ rest)) := by simp
      rw [hchars, List.length_cons, pulled_segment g (hreads.append hdelimited), ih _ hread]
      simp only [List.flatMap_cons, Place.afterAll_append]

end Cursor

/-! ### Tokens behind a newline -/

/-- A scan further down is the scan, further down. -/
theorem Scan.ofCursor_down (n : Nat) (c : Cursor) :
    ofCursor (c.down n) =
      ⟨(ofCursor c).tokens.map (Token.relocate (Place.down n)), (ofCursor c).finish.down n⟩ := by
  fun_induction ofCursor c with
  | case1 c d hpull =>
      have hdown : (c.down n).pull = (none, d.down n) := by rw [Cursor.pull_down, hpull]; rfl
      exact ofCursor_of_pull_none hdown
  | case2 c t d hpull s ih =>
      have hdown : (c.down n).pull = (some (t.relocate (Place.down n)), d.down n) := by
        rw [Cursor.pull_down, hpull]
        rfl
      rw [ofCursor_of_pull_some hdown, ih]
      rfl

/-- The fault of moved tokens is moved. -/
theorem Token.wellFormed?_relocate (f : Place → Place) (ts : List Token) :
    wellFormed? (ts.map (relocate f)) =
      ((wellFormed? ts).map (List.map (relocate f))).mapError (Located.relocate f) := by
  induction ts with
  | nil => rfl
  | cons t ts ih =>
      simp only [List.map_cons, wellFormed?, fault?_relocate, ih]
      cases t.fault? with
      | some fault => rfl
      | none => cases wellFormed? ts <;> rfl

section Newline

variable (a b : String)

theorem Cursor.ofText_newline :
    ofText (a ++ "\n" ++ b) = ⟨a.toList ++ (['\n'] ++ b.toList), Place.start⟩ := by
  simp [ofText]

/-- Behind a text and a newline stands the cursor of what follows, further down. -/
theorem Cursor.behind_newline :
    ⟨b.toList, Place.start.afterAll (a.toList ++ ['\n'])⟩ =
      (ofText b).down (a.toList.count '\n' + 1) := by
  rw [Place.start_afterAll_newline]
  rfl

theorem Text.isBlank_of_mem_newline : ∀ c ∈ ['\n'], isBlank c = true := by
  simp

/-- The tokens of both texts, those of the second further down. -/
theorem Scan.ofText_newline :
    ofText (a ++ "\n" ++ b) =
      ⟨(ofText a).tokens ++
          (ofText b).tokens.map (Token.relocate (Place.down (a.toList.count '\n' + 1))),
        (ofText b).finish.down (a.toList.count '\n' + 1)⟩ := by
  rw [ofText, Cursor.ofText_newline,
    ofCursor_append_blanks _ (by simp) Text.isBlank_of_mem_newline, Cursor.behind_newline,
    ofCursor_down]
  rfl

/-- Behind the tokens of the first text the pulls are those of the second, further down. -/
theorem Cursor.pull_newline (k : Nat) :
    ((ofText (a ++ "\n" ++ b)).pulled ((Scan.ofText a).tokens.length + k)).pull =
      (((ofText b).pulled k).pull.1.map
          (Token.relocate (Place.down (a.toList.count '\n' + 1))),
        ((ofText b).pulled k).pull.2.down (a.toList.count '\n' + 1)) := by
  have hpull := pull_behind_tokens a.toList (by simp) Text.isBlank_of_mem_newline b.toList
    Place.start
  rw [behind_newline] at hpull
  calc ((ofText (a ++ "\n" ++ b)).pulled ((Scan.ofText a).tokens.length + k)).pull
      = (((ofText b).down (a.toList.count '\n' + 1)).pulled k).pull := by
        rw [pulled_add, ofText_newline]
        exact pull_pulled_congr hpull k
    _ = _ := by rw [pulled_down, pull_down]

end Newline

namespace Scan

/-- A text, a newline and a second text are read one after the other. The first pulls take the
tokens of the first text, and behind them every pull takes what it takes in the second text alone,
its end included, and leaves the cursor where it leaves it there, only further down by the newlines
in front. The same holds of a tape, on which characters are read and put back over the newline. So
the tokens are those of both texts, and what is malformed is reported for the first text before the
second. -/
theorem split_newline (a b : String) :
    let text := a ++ "\n" ++ b
    let down := Place.down (a.toList.count '\n' + 1)
    let first := (ofText a).tokens
    (∀ k, k < first.length →
      ((Cursor.ofText text).pulled k).pull.1 = ((Cursor.ofText a).pulled k).pull.1 ∧
        ((Tape.ofText text).passed k).next.1 = ((Tape.ofText a).passed k).next.1) ∧
    (∀ k, ((Cursor.ofText text).pulled (first.length + k)).pull =
      (((Cursor.ofText b).pulled k).pull.1.map (Token.relocate down),
        ⟨((Cursor.ofText b).pulled k).pull.2.rest,
          down ((Cursor.ofText b).pulled k).pull.2.place⟩)) ∧
    (∀ k, ((Tape.ofText text).passed (first.length + k)).next.1 =
        ((Tape.ofText b).passed k).next.1.map (Token.relocate down) ∧
      ((Tape.ofText text).passed (first.length + k)).next.2.point.place =
        down ((Tape.ofText b).passed k).next.2.point.place) ∧
    ofText text =
      ⟨first ++ (ofText b).tokens.map (Token.relocate down), down (ofText b).finish⟩ ∧
    tokenize text =
      match tokenize a, tokenize b with
      | .error e, _ => .error e
      | .ok _, .error e => .error (e.relocate down)
      | .ok ts, .ok us => .ok (ts ++ us.map (Token.relocate down)) := by
  intro text down first
  have hscan := ofText_newline a b
  have hfirst : ∀ k, k < first.length →
      ((Cursor.ofText text).pulled k).pull.1 = ((Cursor.ofText a).pulled k).pull.1 := by
    intro k hk
    have hget : (ofText text).tokens[k]? = first[k]? := by
      rw [hscan]
      exact List.getElem?_append_left hk
    rw [Cursor.pull_pulled, Cursor.pull_pulled]
    exact hget
  have hrest := Cursor.pull_newline a b
  refine ⟨?_, hrest, ?_, hscan, ?_⟩
  · intro k hk
    refine ⟨hfirst k hk, ?_⟩
    rw [(Tape.next_passed text k).1, (Tape.next_passed a k).1, hfirst k hk]
  · intro k
    obtain ⟨htoken, hplace⟩ := Tape.next_passed text (first.length + k)
    obtain ⟨htoken', hplace'⟩ := Tape.next_passed b k
    rw [htoken, hplace, htoken', hplace', hrest k]
    exact ⟨rfl, rfl⟩
  · rw [tokenize, hscan, Token.wellFormed?_append, Token.wellFormed?_relocate]
    simp only [tokenize]
    cases Token.wellFormed? (ofText a).tokens <;> cases Token.wellFormed? (ofText b).tokens <;> rfl

/-- A point alone is malformed, and it is reported behind the newline. -/
theorem split_newline_point :
    ((Cursor.ofText ("+" ++ "\n" ++ ".")).pulled 0).pull.1 = some ⟨.plus, ⟨1, 1⟩⟩ ∧
      ((Cursor.ofText ("+" ++ "\n" ++ ".")).pulled 1).pull.1 =
        some ⟨.bad (.notNumber "."), ⟨2, 1⟩⟩ ∧
      tokenize ("+" ++ "\n" ++ ".") = .error ⟨.notNumber ".", ⟨2, 1⟩⟩ := by
  have hsign : (ofText "+").tokens = [⟨.plus, ⟨1, 1⟩⟩] := by
    rw [ofText, ofCursor_of_pull_some (c := Cursor.ofText "+") (d := ⟨[], ⟨1, 2⟩⟩) rfl, tokens_nil]
    rfl
  have hpoint : (ofText ".").tokens = [⟨.bad (.notNumber "."), ⟨1, 1⟩⟩] := by
    rw [ofText, ofCursor_of_pull_some (c := Cursor.ofText ".") (d := ⟨[], ⟨1, 2⟩⟩) rfl, tokens_nil]
    rfl
  obtain ⟨hfirst, hrest, -, -, htokenize⟩ := split_newline "+" "."
  rw [hsign] at hfirst hrest
  refine ⟨?_, ?_, ?_⟩
  · exact (hfirst 0 (by decide)).1
  · exact congrArg Prod.fst (hrest 0)
  · rw [htokenize, tokenize, tokenize, hsign, hpoint]
    rfl

end Scan

end Reckoner
