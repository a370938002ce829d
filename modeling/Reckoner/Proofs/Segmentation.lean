import Mathlib.Data.List.Induction
import Reckoner.Proofs.Lexeme
import Reckoner.Scan

/-!
# Segmentation of a text

Pulling tokens cuts a text into segments, each a run of blanks and a lexeme behind it, and a run of
blanks at the end. Nothing is lost between the segments and nothing is read twice: their characters
in order are the text. What a lexeme is depends on its own characters alone, so it is the same
token when it is the whole text; only its place comes from the text before it.
-/

namespace Reckoner

namespace Place

/-- The place behind some text: one line for each newline in it, and one column for each character
since the last of them. -/
def behind (before : List Char) : Place :=
  ⟨1 + before.count '\n', 1 + (before.reverse.takeWhile (· ≠ '\n')).length⟩

/-- Moving over characters one by one counts newlines and columns. -/
theorem start_afterAll (cs : List Char) : start.afterAll cs = behind cs := by
  induction cs using List.reverseRecOn with
  | nil => rfl
  | append_singleton cs c ih =>
      rw [afterAll_append, ih, afterAll_cons, afterAll_nil, after]
      by_cases hc : c = '\n'
      · subst hc
        simp [behind, Nat.add_assoc]
      · simp [behind, hc, Nat.add_comm]

/-- Behind a newline a line starts. -/
theorem behind_append_newline (before : List Char) :
    behind (before ++ ['\n']) = ⟨before.count '\n' + 2, 1⟩ := by
  simp [behind, Nat.add_comm 1]

theorem behind_afterAll (before cs : List Char) :
    (behind before).afterAll cs = behind (before ++ cs) := by
  rw [← start_afterAll, ← afterAll_append, start_afterAll]

end Place

/-- Blanks and the lexeme behind them, with the kind of token that it is read as. -/
structure Segment where
  blanks : List Char
  first : Char
  others : List Char
  kind : Token.Kind
  isBlank_blanks : ∀ c ∈ blanks, Text.isBlank c = true
  isBlank_first : Text.isBlank first = false

namespace Segment

/-- The characters of the lexeme; there is at least one. -/
def lexeme (g : Segment) : List Char := g.first :: g.others

def chars (g : Segment) : List Char := g.blanks ++ g.lexeme

/-- The token of a segment that starts at the given place. -/
def token (g : Segment) (p : Place) : Token := ⟨g.kind, p.afterAll g.blanks⟩

def bare (g : Segment) : Segment :=
  { g with blanks := [], isBlank_blanks := by simp }

@[simp] theorem chars_bare (g : Segment) : g.bare.chars = g.lexeme := rfl

/-- Before the given text, the lexeme is read as a token of its kind and taken whole. -/
def ReadsBefore (g : Segment) (rest : List Char) : Prop :=
  Lexeme.front g.first (g.others ++ rest) = ⟨g.kind, g.others.length⟩

end Segment

namespace Cursor

theorem skipBlanks_eq (c : Cursor) :
    c.skipBlanks = ⟨c.rest.dropWhile Text.isBlank,
      c.place.afterAll (c.rest.takeWhile Text.isBlank)⟩ := by
  rw [skipBlanks, advance, Text.take_length_takeWhile, Text.drop_length_takeWhile]

/-- A pull moves over one segment. -/
theorem pull_segment (g : Segment) {rest : List Char} (h : g.ReadsBefore rest) (p : Place) :
    pull ⟨g.chars ++ rest, p⟩ = (some (g.token p), ⟨rest, p.afterAll g.chars⟩) := by
  have hfirst : (g.lexeme ++ rest).dropWhile Text.isBlank = g.lexeme ++ rest := by
    simp [Segment.lexeme, g.isBlank_first]
  have htake : (g.lexeme ++ rest).takeWhile Text.isBlank = [] := by
    simp [Segment.lexeme, g.isBlank_first]
  have hskip : skipBlanks ⟨g.chars ++ rest, p⟩ = ⟨g.lexeme ++ rest, p.afterAll g.blanks⟩ := by
    rw [skipBlanks_eq]
    simp only [Segment.chars, List.append_assoc]
    rw [List.takeWhile_append_of_pos g.isBlank_blanks, htake,
      List.dropWhile_append_of_pos g.isBlank_blanks, hfirst, List.append_nil]
  rw [pull, hskip]
  rw [Segment.ReadsBefore] at h
  simp only [Segment.lexeme, List.cons_append, h]
  simp [Segment.token, Segment.chars, Segment.lexeme, advance]

/-- Before blanks alone a pull takes no token and moves to the end. -/
theorem pull_blanks {blanks : List Char} (h : ∀ c ∈ blanks, Text.isBlank c = true) (p : Place) :
    pull ⟨blanks, p⟩ = (none, ⟨[], p.afterAll blanks⟩) := by
  have hall : blanks.takeWhile Text.isBlank = blanks := List.takeWhile_eq_self_iff.mpr h
  have hnone : blanks.dropWhile Text.isBlank = [] := by
    simpa using h
  rw [pull, skipBlanks_eq]
  simp [hall, hnone]

/-- Any text is blank or starts with a segment, whose lexeme is also read alone. -/
theorem blank_or_segment (cs : List Char) :
    (∀ c ∈ cs, Text.isBlank c = true) ∨
      ∃ (g : Segment) (rest : List Char),
        cs = g.chars ++ rest ∧ g.ReadsBefore rest ∧ g.ReadsBefore [] := by
  have hsplit := List.takeWhile_append_dropWhile (p := Text.isBlank) (l := cs)
  cases hdrop : cs.dropWhile Text.isBlank with
  | nil => exact .inl (by simpa using hdrop)
  | cons first text =>
      right
      obtain ⟨hmore, hlocal⟩ := Lexeme.local_front first text
      have hfirst : Text.isBlank first = false := by
        have := List.head?_dropWhile_not Text.isBlank cs
        simpa [hdrop] using this
      let more := (Lexeme.front first text).more
      let g : Segment :=
        ⟨cs.takeWhile Text.isBlank, first, text.take more, (Lexeme.front first text).kind,
          fun c hc => List.mem_takeWhile_imp hc, hfirst⟩
      have hlength : (text.take more).length = more := by
        rw [List.length_take]
        omega
      refine ⟨g, text.drop more, ?_, ?_, ?_⟩
      · rw [← hsplit, hdrop]
        simp [g, Segment.chars, Segment.lexeme]
      · simp only [Segment.ReadsBefore, g, List.take_append_drop, hlength]
        rfl
      · simp only [Segment.ReadsBefore, g, hlength]
        exact hlocal [] Delimited.nil

end Cursor

namespace Segment

/-- Segments and the blanks behind them form a text that is read as these segments. -/
def Read : List Segment → List Char → Prop
  | [], tail => ∀ c ∈ tail, Text.isBlank c = true
  | g :: gs, tail => g.ReadsBefore (gs.flatMap chars ++ tail) ∧ Read gs tail

/-- The tokens of segments, the first of which starts at the given place. -/
def tokens (p : Place) : List Segment → List Token
  | [] => []
  | g :: gs => g.token p :: tokens (p.afterAll g.chars) gs

@[simp] theorem length_tokens (p : Place) (gs : List Segment) :
    (tokens p gs).length = gs.length := by
  induction gs generalizing p with
  | nil => rfl
  | cons g gs ih => simp [tokens, ih]

theorem getElem?_tokens (gs : List Segment) (p : Place) (k : Nat) :
    (tokens p gs)[k]? =
      gs[k]?.map fun g => g.token (p.afterAll ((gs.take k).flatMap chars)) := by
  induction gs generalizing p k with
  | nil => simp [tokens]
  | cons g gs ih =>
      cases k with
      | zero => simp [tokens]
      | succ k => simpa [tokens] using ih (p.afterAll g.chars) k

/-- Every text is read as some segments, each of which is also read alone. -/
theorem exists_read (cs : List Char) :
    ∃ (gs : List Segment) (tail : List Char),
      cs = gs.flatMap chars ++ tail ∧ Read gs tail ∧ ∀ g ∈ gs, g.ReadsBefore [] := by
  induction hn : cs.length using Nat.strongRecOn generalizing cs with
  | ind n ih =>
      obtain hblank | ⟨g, rest, rfl, hreads, halone⟩ := Cursor.blank_or_segment cs
      · exact ⟨[], cs, rfl, hblank, by simp⟩
      · have hlt : rest.length < n := by
          rw [← hn]
          simp [chars, lexeme]
          omega
        obtain ⟨gs, tail, rfl, hgs, hall⟩ := ih rest.length hlt rest rfl
        refine ⟨g :: gs, tail, by simp, ⟨hreads, hgs⟩, ?_⟩
        intro h hmem
        obtain rfl | hmem := List.mem_cons.mp hmem
        · exact halone
        · exact hall h hmem

/-- A scan of such a text has one token for each segment. -/
theorem scan_of_read {gs : List Segment} {tail : List Char} (h : Read gs tail) (p : Place) :
    Scan.ofCursor ⟨gs.flatMap chars ++ tail, p⟩ =
      ⟨tokens p gs, p.afterAll (gs.flatMap chars ++ tail)⟩ := by
  induction gs generalizing p with
  | nil => exact Scan.ofCursor_of_pull_none (Cursor.pull_blanks h p)
  | cons g gs ih =>
      have hpull := Cursor.pull_segment g h.1 p
      rw [List.flatMap_cons, List.append_assoc, Scan.ofCursor_of_pull_some hpull, ih h.2]
      simp [tokens]

/-- The token of a scan is a lexeme of the text that is also read alone. -/
theorem exists_front_of_mem {text : String} {t : Token} (h : t ∈ (Scan.ofText text).tokens) :
    ∃ first others, first ∈ text.toList ∧
      Lexeme.front first others = ⟨t.kind, others.length⟩ := by
  obtain ⟨gs, tail, htext, hread, halone⟩ := exists_read text.toList
  rw [Scan.ofText, Cursor.ofText, htext, scan_of_read hread] at h
  obtain ⟨k, hk⟩ := List.mem_iff_getElem?.mp h
  rw [getElem?_tokens] at hk
  obtain ⟨g, hg, rfl⟩ := Option.map_eq_some_iff.mp hk
  have hmem : g ∈ gs := List.mem_of_getElem? hg
  refine ⟨g.first, g.others, ?_, ?_⟩
  · rw [htext]
    exact List.mem_append_left tail
      (List.mem_flatMap.mpr ⟨g, hmem, by simp [chars, lexeme]⟩)
  · have halone := halone g hmem
    rwa [ReadsBefore, List.append_nil] at halone

/-- A text has no tokens if and only if it is blank. -/
theorem tokens_eq_nil_iff (text : String) :
    (Scan.ofText text).tokens = [] ↔ ∀ c ∈ text.toList, Text.isBlank c = true := by
  constructor
  · intro hnil
    obtain ⟨gs, tail, htext, hread, -⟩ := exists_read text.toList
    rw [Scan.ofText, Cursor.ofText, htext, scan_of_read hread] at hnil
    have hlength : gs.length = 0 := by
      simpa using congrArg List.length hnil
    obtain rfl := List.length_eq_zero_iff.mp hlength
    rw [htext]
    exact hread
  · intro hblank
    rw [Scan.ofText, Cursor.ofText, Scan.ofCursor_of_pull_none (Cursor.pull_blanks hblank _)]

/-- A lexeme that is read alone is the only token of its own text. -/
theorem scan_lexeme {g : Segment} (h : g.ReadsBefore []) :
    Scan.ofText (String.ofList g.lexeme) = ⟨[⟨g.kind, Place.start⟩], Place.behind g.lexeme⟩ := by
  have hread : Read [g.bare] [] := ⟨h, by simp [Read]⟩
  have hscan := scan_of_read hread Place.start
  simp only [List.flatMap_singleton, chars_bare, List.append_nil, Place.start_afterAll] at hscan
  rw [Scan.ofText, Cursor.ofText, String.toList_ofList, hscan]
  rfl

theorem isBlank_tail {gs : List Segment} {tail : List Char} (h : Read gs tail) :
    ∀ c ∈ tail, Text.isBlank c = true := by
  induction gs with
  | nil => exact h
  | cons g gs ih => exact ih h.2

/-- A segment holds a character that is not blank. -/
theorem length_le_countP (gs : List Segment) (tail : List Char) :
    gs.length ≤ (gs.flatMap chars ++ tail).countP (fun c => !Text.isBlank c) := by
  induction gs with
  | nil => simp
  | cons g gs ih =>
      have hone : 1 ≤ g.chars.countP (fun c => !Text.isBlank c) := by
        simp [chars, lexeme, List.countP_append, g.isBlank_first]
        omega
      rw [List.flatMap_cons, List.append_assoc, List.countP_append, List.length_cons]
      omega

end Segment

namespace Cursor

def pulled (c : Cursor) : Nat → Cursor
  | 0 => c
  | k + 1 => (c.pulled k).pull.2

/-- The first pulls move over one segment each. -/
theorem pulled_of_read {gs : List Segment} {tail : List Char} (h : Segment.Read gs tail)
    (p : Place) {k : Nat} (hk : k ≤ gs.length) :
    Segment.Read (gs.drop k) tail ∧
      pulled ⟨gs.flatMap Segment.chars ++ tail, p⟩ k =
        ⟨(gs.drop k).flatMap Segment.chars ++ tail,
          p.afterAll ((gs.take k).flatMap Segment.chars)⟩ := by
  induction k with
  | zero => simpa [pulled] using h
  | succ k ih =>
      obtain ⟨hread, hpulled⟩ := ih (by omega)
      have hdrop : gs.drop k = gs[k] :: gs.drop (k + 1) := List.drop_eq_getElem_cons (by omega)
      have htake : gs.take (k + 1) = gs.take k ++ [gs[k]] := by simp
      rw [hdrop] at hread hpulled
      refine ⟨hread.2, ?_⟩
      rw [pulled, hpulled, List.flatMap_cons, List.append_assoc, pull_segment _ hread.1, htake,
        List.flatMap_append, Place.afterAll_append, List.flatMap_singleton]

/-- Once a pull has taken no token, none of the later ones does, and all end at one place. -/
theorem pulled_of_end {c : Cursor} {k : Nat} {p : Place} (h : (c.pulled k).pull = (none, ⟨[], p⟩))
    {n : Nat} (hn : k ≤ n) : (c.pulled n).pull = (none, ⟨[], p⟩) := by
  induction n, hn using Nat.le_induction with
  | base => exact h
  | succ n _ ih =>
      rw [pulled, ih]
      exact pull_blanks (by simp) p

variable {gs : List Segment} {tail : List Char}

/-- Behind the last segment a pull takes no token. -/
theorem pull_end_of_read (h : Segment.Read gs tail) (p : Place) {k : Nat} (hk : gs.length ≤ k) :
    (pulled ⟨gs.flatMap Segment.chars ++ tail, p⟩ k).pull =
      (none, ⟨[], p.afterAll (gs.flatMap Segment.chars ++ tail)⟩) := by
  obtain ⟨hread, hpulled⟩ := pulled_of_read h p (Nat.le_refl gs.length)
  rw [List.drop_length] at hread hpulled
  refine pulled_of_end ?_ hk
  rw [hpulled, List.take_length, Place.afterAll_append]
  exact pull_blanks hread _

/-- The pulls take the tokens of the segments one after the other. -/
theorem pull_pulled_of_read (h : Segment.Read gs tail) (p : Place) (k : Nat) :
    (pulled ⟨gs.flatMap Segment.chars ++ tail, p⟩ k).pull.1 = (Segment.tokens p gs)[k]? := by
  obtain hk | hk := Nat.lt_or_ge k gs.length
  · obtain ⟨hread, hpulled⟩ := pulled_of_read h p hk.le
    rw [List.drop_eq_getElem_cons hk] at hread hpulled
    rw [hpulled, List.flatMap_cons, List.append_assoc, pull_segment _ hread.1,
      Segment.getElem?_tokens, List.getElem?_eq_getElem hk, Option.map_some]
  · rw [pull_end_of_read h p hk, List.getElem?_eq_none (by simpa using hk)]

/-- The pulls from a cursor take the tokens of its scan, and nothing behind them. -/
theorem pull_pulled (c : Cursor) (k : Nat) :
    (c.pulled k).pull.1 = (Scan.ofCursor c).tokens[k]? := by
  obtain ⟨cs, p⟩ := c
  obtain ⟨gs, tail, rfl, hread, -⟩ := Segment.exists_read cs
  rw [pull_pulled_of_read hread, Segment.scan_of_read hread]

/-- The first pulls, up to the end. -/
theorem map_pull_pulled (c : Cursor) :
    ((List.range ((Scan.ofCursor c).tokens.length + 1)).map fun k => (c.pulled k).pull.1) =
      (Scan.ofCursor c).tokens.map some ++ [none] := by
  rw [List.range_succ, List.map_append]
  congr 1
  · apply List.ext_getElem (by simp)
    intro k hk hk'
    simp [pull_pulled]
  · simp [pull_pulled]

end Cursor

/-- Pulling tokens to the end splits a text into segments without loss or overlap. The pull of a
segment leaves exactly the later ones; its token has the place of the first character of its
lexeme, and the kind that the lexeme has as a text of its own. Every pull behind the last segment
takes nothing and reports the end of the text. No text has more tokens than characters that are
not blank. -/
theorem Scan.segmentation (text : String) :
    ∃ (gs : List Segment) (tail : List Char),
      text.toList = gs.flatMap Segment.chars ++ tail ∧ (∀ c ∈ tail, Text.isBlank c = true) ∧
      (∀ k, k ≤ gs.length →
        ((Cursor.ofText text).pulled k).rest = (gs.drop k).flatMap Segment.chars ++ tail) ∧
      (∀ k, (hk : k < gs.length) → ((Cursor.ofText text).pulled k).pull.1 =
        some ⟨gs[k].kind, Place.behind ((gs.take k).flatMap Segment.chars ++ gs[k].blanks)⟩) ∧
      (∀ k, gs.length ≤ k →
        ((Cursor.ofText text).pulled k).pull = (none, ⟨[], Place.behind text.toList⟩)) ∧
      (∀ g ∈ gs, Scan.ofText (String.ofList g.lexeme) =
        ⟨[⟨g.kind, Place.start⟩], Place.behind g.lexeme⟩) ∧
      (∀ k, ((Cursor.ofText text).pulled k).pull.1 = (Scan.ofText text).tokens[k]?) ∧
      (Scan.ofText text).finish = Place.behind text.toList ∧
      (Scan.ofText text).tokens.length = gs.length ∧
      gs.length ≤ text.toList.countP (fun c => !Text.isBlank c) := by
  obtain ⟨gs, tail, htext, hread, halone⟩ := Segment.exists_read text.toList
  have hcursor : Cursor.ofText text = ⟨gs.flatMap Segment.chars ++ tail, Place.start⟩ := by
    rw [Cursor.ofText, htext]
  have hscan : Scan.ofText text = ⟨Segment.tokens Place.start gs, Place.behind text.toList⟩ := by
    rw [Scan.ofText, hcursor, Segment.scan_of_read hread, htext, Place.start_afterAll]
  have hpull : ∀ k,
      ((Cursor.ofText text).pulled k).pull.1 = (Segment.tokens Place.start gs)[k]? := by
    intro k
    rw [hcursor]
    exact Cursor.pull_pulled_of_read hread _ k
  refine ⟨gs, tail, htext, ?_, ?_, ?_, ?_, ?_, ?_, ?_, ?_, ?_⟩
  · exact Segment.isBlank_tail hread
  · intro k hk
    rw [hcursor, (Cursor.pulled_of_read hread _ hk).2]
  · intro k hk
    rw [hpull, Segment.getElem?_tokens, List.getElem?_eq_getElem hk, Option.map_some,
      Segment.token, ← Place.afterAll_append, Place.start_afterAll]
  · intro k hk
    rw [hcursor, Cursor.pull_end_of_read hread _ hk, ← htext, Place.start_afterAll]
  · intro g hg
    exact Segment.scan_lexeme (halone g hg)
  · rw [hscan]
    exact hpull
  · rw [hscan]
  · simp [hscan]
  · rw [htext]
    exact Segment.length_le_countP gs tail

end Reckoner
