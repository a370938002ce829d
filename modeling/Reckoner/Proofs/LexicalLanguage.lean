import Mathlib.Data.Set.List
import Reckoner.Proofs.Spelling

/-!
# The language of tokens

Spellings are the well-formed lexemes: marks, names, literals and words. Laid out with a gap between
any two that are no marks, they are read back one by one, each with its kind and with the text or
the number that it carries. In the other direction, every text without malformed tokens is a layout
of the spellings of its tokens. They may touch then, as two literals do where a second point ends
the first.

What is malformed has one of a few shapes (`Lexeme.Shape`). In particular no decimal literal is
malformed but a point that stands alone.
-/

namespace Reckoner

/-! ### What tokens carry -/

namespace Spelling

/-- The text that the token of a spelling carries: the spelling itself, for names and words. -/
def carried : Spelling → String
  | name n => String.ofList (name n).chars
  | word w => String.ofList (word w).chars
  | _ => ""

/-- The number that the token of a spelling carries: what a literal denotes. -/
def number : Spelling → Float
  | literal l => l.value
  | _ => 0

variable (s : Spelling) (p : Place)

theorem token_text : (Token.mk s.kind p).text = s.carried := by
  cases s with
  | mark m => cases m <;> rfl
  | _ => rfl

theorem token_number : (Token.mk s.kind p).number = s.number := by
  cases s with
  | mark m => cases m <;> rfl
  | _ => rfl

theorem kind_ne_bad (fault : Token.Fault) : s.kind ≠ .bad fault := by
  cases s with
  | mark m => cases m <;> simp [kind, Mark.kind]
  | _ => simp [kind]

end Spelling

/-- Only a point alone is a malformed number. -/
theorem Lexeme.Shape.eq_point {cs : List Char} {text : String}
    (h : Shape cs (.bad (.notNumber text))) : cs = ['.'] ∧ text = "." := by
  generalize hkind : Token.Kind.bad (.notNumber text) = kind at h
  cases h with
  | spelling s => exact absurd hkind.symm (s.kind_ne_bad _)
  | point => simpa using hkind
  | _ => simp at hkind

/-! ### Texts as layouts -/

/-- A segment that is not malformed is read from a piece. -/
theorem Segment.exists_piece {g : Segment} (h : g.ReadsBefore [])
    (hkind : ∀ fault, g.kind ≠ .bad fault) : ∃ p : Piece, p.segment = g := by
  obtain ⟨blanks, first, others, kind, hblanks, hfirst⟩ := g
  have hshape : Lexeme.Shape (first :: others) kind := shape h
  generalize hchars : first :: others = cs at hshape
  cases hshape with
  | spelling s =>
      refine ⟨⟨blanks, s, hblanks⟩, ?_⟩
      simp [Piece.segment, ← hchars]
  | _ => exact absurd rfl (hkind _)

namespace Layout

variable {w : Layout} {text : String} {ts : List Token}

/-- The tokens of a layout carry what its spellings carry. -/
theorem map_tokens (w : Layout) :
    w.tokens.map (fun t => (t.kind, t.text, t.number)) =
      w.spellings.map fun s => (s.kind, s.carried, s.number) := by
  apply List.ext_getElem (by simp [tokens])
  intro k _ _
  simp [tokens, Spelling.token_text, Spelling.token_number]

theorem fault?_of_mem_tokens {t : Token} (h : t ∈ w.tokens) : t.fault? = none := by
  obtain ⟨k, hk, rfl⟩ := List.mem_mapIdx.mp h
  exact Token.fault?_eq_none_iff.mpr (Spelling.kind_ne_bad _)

/-- No spelling of a separated layout is malformed. -/
theorem tokenize_text (h : w.Separated) : tokenize w.text = .ok w.tokens := by
  rw [tokenize, scan_text h]
  exact Token.wellFormed?_eq_ok_iff.mpr ⟨rfl, fun _ => fault?_of_mem_tokens⟩

/-- Blanks in front of all pieces but the first separate them. -/
theorem separated_of_blanks (h : ∀ p ∈ w.pieces.tail, p.blanks ≠ []) : w.Separated := by
  apply List.isChain_iff_getElem.mpr
  intro i hi
  have hmem : w.pieces[i + 1] ∈ w.pieces.tail := by
    rw [← List.getElem_tail (by simpa using Nat.lt_sub_of_add_lt hi)]
    exact List.getElem_mem _
  exact .inr (.inl (h _ hmem))

/-- Every text without malformed tokens is a layout, and its tokens are those of the layout. -/
theorem exists_of_tokenize (h : tokenize text = .ok ts) :
    ∃ w : Layout, w.text = text ∧ w.tokens = ts := by
  obtain ⟨rfl, hgood⟩ := Token.wellFormed?_eq_ok_iff.mp h
  obtain ⟨gs, tail, htext, hread, halone⟩ := Segment.exists_read text.toList
  have hscan : (Scan.ofText text).tokens = Segment.tokens Place.start gs := by
    rw [Scan.ofText, Cursor.ofText, htext, Segment.scan_of_read hread]
  have hpieces : ∀ g ∈ gs, ∃ p : Piece, p.segment = g := by
    intro g hg
    apply Segment.exists_piece (halone g hg)
    obtain ⟨k, hk⟩ := List.mem_iff_getElem?.mp hg
    have htoken : (Segment.tokens Place.start gs)[k]? = some _ :=
      (Segment.getElem?_tokens gs Place.start k).trans (congrArg _ hk)
    rw [← hscan] at htoken
    exact Token.fault?_eq_none_iff.mp (hgood _ (List.mem_of_getElem? htoken))
  obtain ⟨pieces, rfl⟩ : gs ∈ Set.range (List.map Piece.segment) := by
    rw [Set.range_list_map]
    exact hpieces
  let w : Layout := ⟨pieces, tail, Segment.isBlank_tail hread⟩
  have hw : w.text = text := by
    simp only [w, Layout.text]
    rw [← String.ofList_toList (s := text), htext]
    simp [List.flatMap_map]
  refine ⟨w, hw, ?_⟩
  rw [← hw, scan_of_read hread]

/-- Spellings with blanks between them are separated, and spellings that are separated, in front of,
between and behind any blanks, are tokenized without a fault: there is one token for each, in order,
with its kind, with the spelling itself as text for names and words and no text otherwise, and with
the number that it denotes for literals and zero otherwise. In the other direction, every text that
is tokenized without a fault consists of spellings with blanks around them, and its tokens are
theirs. A malformed number is always a single point. -/
theorem lexes_back :
    (∀ w : Layout, (∀ p ∈ w.pieces.tail, p.blanks ≠ []) → w.Separated) ∧
    (∀ w : Layout, w.Separated →
      tokenize w.text = .ok w.tokens ∧
        w.tokens.map (fun t => (t.kind, t.text, t.number)) =
          w.spellings.map fun s => (s.kind, s.carried, s.number)) ∧
    (∀ (text : String) (ts : List Token), tokenize text = .ok ts →
      ∃ w : Layout, w.text = text ∧ w.tokens = ts ∧
        ts.map (fun t => (t.kind, t.text, t.number)) =
          w.spellings.map fun s => (s.kind, s.carried, s.number)) ∧
    (∀ (text : String) (e : TokenError) (number : String), tokenize text = .error e →
      e.cause = .notNumber number → number = ".") := by
  refine ⟨fun w => separated_of_blanks, ?_, ?_, ?_⟩
  · intro w hw
    exact ⟨tokenize_text hw, w.map_tokens⟩
  · intro text ts h
    obtain ⟨w, htext, rfl⟩ := exists_of_tokenize h
    exact ⟨w, htext, rfl, w.map_tokens⟩
  · intro text e number h hcause
    obtain ⟨t, ht, hkind, -⟩ := Token.exists_of_wellFormed?_eq_error h
    obtain ⟨first, others, -, hfront⟩ := Segment.exists_front_of_mem ht
    have hshape := Lexeme.shape_front hfront
    rw [hkind, hcause] at hshape
    exact hshape.eq_point.2

/-- A name with letters of other alphabets, two literals that need a gap, and a mark that needs
none. -/
theorem lexes_back_name :
    ∃ ts, tokenize "\t$größe2=h$fF .5\n" = .ok ts ∧
      ts.map (fun t => (t.text, t.number)) =
        [("$größe2", 0), ("", 0), ("", Float.ofInt 255), ("", Decimal.toFloat ⟨5, 1⟩)] := by
  let name : Name :=
    ⟨'g', "röße2".toList, by decide +kernel, List.all_eq_true.mp (by decide +kernel)⟩
  let hexadecimal : Literal := .radix .hexadecimal "fF".toList
    (List.all_eq_true.mp (by decide)) (by decide) (by decide)
  let decimal : Literal := .decimal ⟨[], some ['5']⟩ (List.all_eq_true.mp (by decide)) (by decide)
  let w : Layout := ⟨[⟨['\t'], .name name, List.all_eq_true.mp (by decide)⟩,
    ⟨[], .mark .assign, List.all_eq_true.mp (by decide)⟩,
    ⟨[], .literal hexadecimal, List.all_eq_true.mp (by decide)⟩,
    ⟨[' '], .literal decimal, List.all_eq_true.mp (by decide)⟩], ['\n'],
    List.all_eq_true.mp (by decide)⟩
  have hw : w.Separated := by
    simp [w, Separated, Piece.Follows, Spelling.isMark]
  obtain ⟨htokenize, hcarried⟩ := lexes_back.2.1 w hw
  refine ⟨w.tokens, htokenize, ?_⟩
  have hcarried := congrArg (List.map Prod.snd) hcarried
  simp only [List.map_map, Function.comp_def] at hcarried
  exact hcarried

end Layout

end Reckoner
