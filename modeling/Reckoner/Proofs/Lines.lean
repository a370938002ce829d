import Mathlib.Data.List.Basic
import Reckoner.Source
import Reckoner.Text.Blank
import Reckoner.Text.Lines

/-!
# Lines of characters and lines of bytes

A text is cut into lines twice: a script as characters, and the input of a dialogue as bytes. In
UTF-8 the newline is a byte of its own that no other character contains, so both cuts are at the
same places, and the bytes of a line are decoded to its characters.

A line of a script is a piece without its end, and the end is blank.
-/

namespace Reckoner

namespace Text

/-! ### Pieces -/

section Pieces

variable {α β : Type} {ends : α → Bool}

def extendFirst (run : List α) : List (List α) → List (List α)
  | [] => [run]
  | piece :: rest => (run ++ piece) :: rest

theorem extendFirst_extendFirst (run more : List α) (pieces : List (List α)) :
    extendFirst run (extendFirst more pieces) = extendFirst (run ++ more) pieces := by
  cases pieces <;> simp [extendFirst]

theorem pieces_cons_of_ends {x : α} (h : ends x = true) (xs : List α) :
    pieces ends (x :: xs) = [x] :: pieces ends xs := by
  rw [pieces, if_pos h]

theorem pieces_cons_of_not {x : α} (h : ends x = false) (xs : List α) :
    pieces ends (x :: xs) = extendFirst [x] (pieces ends xs) := by
  rw [pieces, if_neg (by simp [h])]
  cases pieces ends xs <;> rfl

/-- Elements that end no piece belong to the first one. -/
theorem pieces_append {run : List α} (hends : ∀ x ∈ run, ends x = false) (hne : run ≠ [])
    (xs : List α) : pieces ends (run ++ xs) = extendFirst run (pieces ends xs) := by
  induction run with
  | nil => exact absurd rfl hne
  | cons x run ih =>
      obtain ⟨hx, hrun⟩ := List.forall_mem_cons.mp hends
      rw [List.cons_append, pieces_cons_of_not hx]
      cases run with
      | nil => rfl
      | cons y run => rw [ih hrun (by simp), extendFirst_extendFirst, List.singleton_append]

/-- Cutting behind some elements and cutting behind their images are the same, if the images of the
others hold nothing to cut behind. -/
theorem pieces_flatMap {endsImage : β → Bool} {image : α → List β}
    (hends : ∀ x, ends x = true → ∃ y, image x = [y] ∧ endsImage y = true)
    (hothers : ∀ x, ends x = false → image x ≠ [] ∧ ∀ y ∈ image x, endsImage y = false)
    (xs : List α) :
    pieces endsImage (xs.flatMap image) =
      (pieces ends xs).map fun piece => piece.flatMap image := by
  induction xs with
  | nil => rfl
  | cons x xs ih =>
      rw [List.flatMap_cons]
      cases hx : ends x with
      | true =>
          obtain ⟨y, himage, hy⟩ := hends x hx
          rw [himage, List.singleton_append, pieces_cons_of_ends hy, pieces_cons_of_ends hx, ih]
          simp [himage]
      | false =>
          obtain ⟨hne, himage⟩ := hothers x hx
          rw [pieces_append himage hne, pieces_cons_of_not hx, ih]
          cases pieces ends xs <;> simp [extendFirst]

/-- Inside a piece nothing ends it. -/
theorem ends_of_mem_pieces {xs piece : List α} (h : piece ∈ pieces ends xs) :
    ∀ x ∈ piece.dropLast, ends x = false := by
  induction xs generalizing piece with
  | nil => simp [pieces] at h
  | cons x xs ih =>
      cases hx : ends x with
      | true =>
          rw [pieces_cons_of_ends hx] at h
          obtain rfl | h := List.mem_cons.mp h
          · simp
          · exact ih h
      | false =>
          rw [pieces_cons_of_not hx] at h
          cases hpieces : pieces ends xs with
          | nil =>
              obtain rfl : piece = [x] := by simpa [hpieces, extendFirst] using h
              simp
          | cons first rest =>
              rw [hpieces] at h ih
              obtain rfl | h := List.mem_cons.mp h
              · intro y hy
                cases first with
                | nil => simp at hy
                | cons z first =>
                    obtain rfl | hy := List.mem_cons.mp hy
                    · exact hx
                    · exact ih List.mem_cons_self y hy
              · exact ih (List.mem_cons_of_mem _ h)

end Pieces

/-! ### Ends of lines -/

/-- What a line loses at its end is blank. Nothing is lost but behind a newline. -/
theorem dropLineEnd_append (piece : List Char) :
    ∃ lineEnd, dropLineEnd piece ++ lineEnd = piece ∧ (∀ c ∈ lineEnd, isBlank c = true) ∧
      (lineEnd = [] ∨ ∃ cs, piece = cs ++ ['\n']) := by
  rw [dropLineEnd]
  split
  · rename_i rest hreverse
    have hpiece : piece = rest.reverse ++ ['\r', '\n'] := by
      simpa using congrArg List.reverse hreverse
    have hblank : ['\r', '\n'].all isBlank = true := by decide
    refine ⟨['\r', '\n'], hpiece.symm, List.all_eq_true.mp hblank, .inr ?_⟩
    refine ⟨rest.reverse ++ ['\r'], ?_⟩
    simpa using hpiece
  · rename_i rest _ hreverse
    have hpiece : piece = rest.reverse ++ ['\n'] := by
      simpa using congrArg List.reverse hreverse
    have hblank : ['\n'].all isBlank = true := by decide
    exact ⟨['\n'], hpiece.symm, List.all_eq_true.mp hblank, .inr ⟨rest.reverse, hpiece⟩⟩
  · exact ⟨[], by simp, by simp, .inl rfl⟩

/-! ### Bytes -/

private theorem toList_loop_eq (bytes : ByteArray) (i : Nat) (read : List UInt8) :
    ByteArray.toList.loop bytes i read = read.reverse ++ bytes.data.toList.drop i := by
  fun_induction ByteArray.toList.loop bytes i read with
  | case1 i read hlt ih =>
      have hi : i < bytes.data.toList.length := by simpa using hlt
      rw [ih, List.drop_eq_getElem_cons hi]
      simp [ByteArray.get!, hlt]
  | case2 i read hge =>
      rw [List.drop_eq_nil_of_le (by simpa using Nat.le_of_not_lt hge), List.append_nil]

/-- The bytes of a text are those of its characters in order. -/
theorem toList_toUTF8 (text : String) :
    text.toUTF8.toList = text.toList.flatMap String.utf8EncodeChar := by
  rw [ByteArray.toList, toList_loop_eq, String.toUTF8_eq_toByteArray, ← String.utf8Encode_toList,
    List.utf8Encode, List.toList_data_toByteArray]
  rfl

/-- The newline is a byte of its own. -/
theorem utf8EncodeChar_newline : String.utf8EncodeChar '\n' = [10] := by decide

/-- No other character contains the newline byte. -/
theorem ne_of_mem_utf8EncodeChar {c : Char} (hc : c ≠ '\n') :
    ∀ b ∈ String.utf8EncodeChar c, b ≠ 10 := by
  have hvalue : c.val.toNat ≠ 10 := by
    intro heq
    exact hc (Char.ext (UInt32.toNat_inj.mp heq))
  intro b hb heq
  have hten : 10 ∈ (String.utf8EncodeChar c).map UInt8.toNat :=
    List.mem_map.mpr ⟨b, hb, by rw [heq]; rfl⟩
  simp only [String.utf8EncodeChar] at hten
  split_ifs at hten
  all_goals
    simp only [List.map_cons, List.map_nil, UInt8.toNat_ofNat', List.mem_cons, List.not_mem_nil,
      or_false] at hten
    omega

/-- The lines of bytes of a text are the bytes of its pieces. -/
theorem byteLines_toUTF8 (text : String) :
    byteLines text.toUTF8 =
      (pieces (· == '\n') text.toList).map fun piece => (String.ofList piece).toUTF8 := by
  rw [byteLines, toList_toUTF8]
  have hpieces : pieces (· == 10) (text.toList.flatMap String.utf8EncodeChar) =
      (pieces (· == '\n') text.toList).map fun piece => piece.flatMap String.utf8EncodeChar := by
    apply pieces_flatMap
    · intro c hc
      obtain rfl : c = '\n' := by simpa using hc
      exact ⟨10, utf8EncodeChar_newline, rfl⟩
    · intro c hc
      refine ⟨fun hnil => ?_, fun b hb => ?_⟩
      · have hlength := String.length_utf8EncodeChar c
        rw [hnil] at hlength
        exact absurd hlength (Nat.ne_of_lt c.utf8Size_pos)
      · simpa using ne_of_mem_utf8EncodeChar (by simpa using hc) b hb
  rw [hpieces, List.map_map]
  refine List.map_congr_left fun piece _ => ?_
  apply ByteArray.ext
  simp [List.utf8Encode]

end Text

/-- The bytes of a text are decoded to the text. -/
theorem Source.decode_toUTF8 (text : String) : decode text.toUTF8 = .ok text := by
  rw [decode, String.toUTF8_eq_toByteArray, String.fromUTF8?, dif_pos text.isValidUTF8]
  rfl

end Reckoner
