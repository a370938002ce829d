import Reckoner.Proofs.Relocation

/-!
# Blanks between tokens

Blanks separate tokens and do nothing else. Put before, between or behind the tokens of a text, or
replaced there by other blanks, they leave the kinds of all tokens as they are; a gap may only be
opened, not closed. With the kinds the text keeps its value, its effect and the command that it
makes; the places in its errors move.

A lexeme looks at one character behind its own, so it is the same before a gap that stays empty and
before one that is filled (`Lexeme.front_endsLike`).
-/

namespace Reckoner

/-- The second text is the first one with other blanks before, between and behind its tokens, which
are what the scan takes there. A gap that is not empty stays so; an empty gap stays or is filled. -/
inductive Respaced : List Char → List Char → Prop
  | gap {gap gap' : List Char} (blank : ∀ c ∈ gap, Text.isBlank c = true)
      (blank' : ∀ c ∈ gap', Text.isBlank c = true) (stays : gap ≠ [] → gap' ≠ []) :
      Respaced gap gap'
  | token {gap gap' : List Char} (first : Char) (others : List Char) {rest rest' : List Char}
      (blank : ∀ c ∈ gap, Text.isBlank c = true) (blank' : ∀ c ∈ gap', Text.isBlank c = true)
      (stays : gap ≠ [] → gap' ≠ []) (solid : Text.isBlank first = false)
      (whole : (Lexeme.front first (others ++ rest)).more = others.length)
      (behind : Respaced rest rest') :
      Respaced (gap ++ first :: (others ++ rest)) (gap' ++ first :: (others ++ rest'))

namespace Respaced

variable {cs cs' : List Char}

/-- A gap in front of text ends the lexeme before it if the gap before did. -/
theorem endsLike_append {gap gap' rest rest' : List Char}
    (hblank' : ∀ c ∈ gap', Text.isBlank c = true) (hstays : gap ≠ [] → gap' ≠ [])
    (hrest : rest'.head? = rest.head?) : EndsLike (gap ++ rest) (gap' ++ rest') := by
  cases gap' with
  | nil =>
      obtain rfl : gap = [] := by
        by_contra hgap
        exact hstays hgap rfl
      exact .of_head?_eq hrest
  | cons c others =>
      exact ((Delimited.of_isBlank hblank').append (by simp) rest').endsLike _

/-- A lexeme before a text is the same before the respaced text. -/
theorem endsLike (h : Respaced cs cs') : EndsLike cs cs' := by
  cases h with
  | gap hblank hblank' hstays =>
      have hends : EndsLike (cs ++ []) (cs' ++ []) := endsLike_append hblank' hstays rfl
      simpa using hends
  | token first others hblank hblank' hstays solid whole behind =>
      exact endsLike_append hblank' hstays rfl

/-- Every text is its own respacing, with each token a lexeme as the scan reads it. -/
theorem refl (cs : List Char) : Respaced cs cs := by
  obtain ⟨gs, tail, rfl, hread, -⟩ := Segment.exists_read cs
  induction gs with
  | nil => exact .gap hread hread id
  | cons g gs ih =>
      have hwhole := congrArg Lexeme.more hread.1
      have htoken := token g.first g.others g.isBlank_blanks g.isBlank_blanks id g.isBlank_first
        hwhole (ih hread.2)
      simpa [Segment.chars, Segment.lexeme] using htoken

/-- A respaced text has tokens of the same kinds, wherever it starts. -/
theorem kinds_eq (h : Respaced cs cs') (p p' : Place) :
    (Scan.ofCursor ⟨cs', p'⟩).tokens.map Token.kind =
      (Scan.ofCursor ⟨cs, p⟩).tokens.map Token.kind := by
  induction h generalizing p p' with
  | gap hblank hblank' hstays =>
      rw [Scan.ofCursor_of_pull_none (Cursor.pull_blanks hblank p),
        Scan.ofCursor_of_pull_none (Cursor.pull_blanks hblank' p')]
  | @token gap gap' first others rest rest' hblank hblank' hstays solid whole behind ih =>
      let kind := (Lexeme.front first (others ++ rest)).kind
      let g : Segment := ⟨gap, first, others, kind, hblank, solid⟩
      let g' : Segment := ⟨gap', first, others, kind, hblank', solid⟩
      have hreads : g.ReadsBefore rest := by
        change Lexeme.front first (others ++ rest) = ⟨kind, others.length⟩
        rw [← whole]
      have hreads' : g'.ReadsBefore rest' := by
        change Lexeme.front first (others ++ rest') = ⟨kind, others.length⟩
        rw [Lexeme.front_endsLike behind.endsLike whole.le]
        exact hreads
      have hchars : gap ++ first :: (others ++ rest) = g.chars ++ rest := by
        simp [g, Segment.chars, Segment.lexeme]
      have hchars' : gap' ++ first :: (others ++ rest') = g'.chars ++ rest' := by
        simp [g', Segment.chars, Segment.lexeme]
      rw [hchars, hchars', Scan.ofCursor_of_pull_some (Cursor.pull_segment g hreads p),
        Scan.ofCursor_of_pull_some (Cursor.pull_segment g' hreads' p'), List.map_cons,
        List.map_cons, ih (p.afterAll g.chars) (p'.afterAll g'.chars)]
      rfl

end Respaced

/-- Blanks do not matter but for the gaps that they make. A text with other blanks before, between
and behind its tokens has the same value or cause of failure and the same effect on the store; as a
line it has the same outcome or cause of failure and leads to the same session; and it makes the
same request with the same arguments, or is the same fault of a command. -/
theorem respaced_same {text text' : String} (h : Respaced text.toList text'.toList) :
    (∀ store : Store,
      (evaluate store text').result.mapError Located.cause =
          (evaluate store text).result.mapError Located.cause ∧
        (evaluate store text').store = (evaluate store text).store) ∧
    (∀ s : Session,
      (s.line text').result.mapError LineFault.cause =
          (s.line text).result.mapError LineFault.cause ∧
        (s.line text').session = (s.line text).session) ∧
    (Request.ofLine? text').map (Option.map Request.kinds) =
      (Request.ofLine? text).map (Option.map Request.kinds) := by
  have hkinds : (Scan.ofText text').tokens.map Token.kind =
      (Scan.ofText text).tokens.map Token.kind := h.kinds_eq _ _
  refine ⟨?_, ?_, ?_⟩
  · exact evaluate_of_kinds hkinds
  · exact Session.line_of_kinds hkinds
  · exact Request.ofLine?_of_kinds hkinds

/-- A division by zero over two lines and with blanks at both ends. The gap behind the literal
stays, others are filled. -/
theorem respaced_same_division :
    Respaced "h$1f\n/($x)".toList "\th$1f  / (\n$x) ".toList ∧
      (evaluate Store.empty "\th$1f  / (\n$x) ").result.mapError Located.cause =
        .error .zeroDivisor := by
  have hblank (gap : List Char) (h : gap.all Text.isBlank = true) :
      ∀ c ∈ gap, Text.isBlank c = true :=
    List.all_eq_true.mp h
  have hright : Respaced [')'] [')', ' '] :=
    .token ')' [] (hblank [] rfl) (hblank [] rfl) (by simp) rfl rfl
      (.gap (hblank [] rfl) (hblank [' '] rfl) (by simp))
  have hname : Respaced ['$', 'x', ')'] ['\n', '$', 'x', ')', ' '] :=
    .token '$' ['x'] (hblank [] rfl) (hblank ['\n'] rfl) (by simp) rfl rfl hright
  have hleft : Respaced ['(', '$', 'x', ')'] [' ', '(', '\n', '$', 'x', ')', ' '] :=
    .token '(' [] (hblank [] rfl) (hblank [' '] rfl) (by simp) rfl rfl hname
  have hdivide : Respaced ['\n', '/', '(', '$', 'x', ')']
      [' ', ' ', '/', ' ', '(', '\n', '$', 'x', ')', ' '] :=
    .token '/' [] (hblank ['\n'] rfl) (hblank [' ', ' '] rfl) (by simp) rfl rfl hleft
  have hrespaced : Respaced "h$1f\n/($x)".toList "\th$1f  / (\n$x) ".toList :=
    .token 'h' ['$', '1', 'f'] (hblank [] rfl) (hblank ['\t'] rfl) (by simp) rfl rfl hdivide
  refine ⟨hrespaced, ?_⟩
  rw [((respaced_same hrespaced).1 Store.empty).1]
  decide +kernel

end Reckoner
