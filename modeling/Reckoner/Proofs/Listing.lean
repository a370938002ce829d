import Mathlib.Data.Finset.Dedup
import Mathlib.Data.Finset.Card
import Reckoner.Proofs.Invariant
import Reckoner.Proofs.RadixText
import Reckoner.Proofs.ReadBack

/-!
# The listing of variables

A store has the value that was written last for each name, and lists the names once, in ascending
order. The listing is a line for each of them. It can be taken apart again: names have no blanks, and
no format writes a line break, so the lines give back the names and the texts of their values.
-/

namespace Reckoner

/-! ### Stores and what was written -/

namespace Store

variable {s : Store} {name : String} {v : Float}

/-- Values that are written one after the other, over a store of pairs. -/
theorem foldl_insert_ofList (pairs sets : List (String × Float)) :
    sets.foldl (fun s p => s.insert p.1 p.2) (ofList pairs) =
      empty.writeAll (pairs ++ sets).reverse := by
  rw [ofList, ← List.foldl_append, writeAll, List.foldr_reverse]

theorem mem_toList : (name, v) ∈ s.toList ↔ s.get? name = some v :=
  (get?_eq_some_iff s name v).symm

/-- The value written last is the one that a store has. -/
theorem get?_writeAll_empty (entries : List (String × Float)) (name : String) :
    (empty.writeAll entries).get? name = entries.lookup name := by
  rw [get?_writeAll, get?_empty, Option.or_none]

theorem mem_names_writeAll_empty {entries : List (String × Float)} :
    name ∈ (empty.writeAll entries).names ↔ name ∈ entries.map Prod.fst := by
  rw [mem_names_writeAll]
  exact or_iff_left (List.not_mem_nil)

theorem nodup_names (s : Store) : s.names.Nodup := by
  refine List.pairwise_map.mpr (s.ascending.imp ?_)
  intro a b hlt heq
  exact String.lt_irrefl b.1 (heq ▸ hlt)

/-- A store is as large as its names are many. -/
theorem size_eq_card (s : Store) : s.size = s.names.toFinset.card := by
  rw [List.toFinset_card_of_nodup s.nodup_names, names, List.length_map]
  rfl

/-- The entries of a store, written into an empty one, are the store. -/
theorem ofList_toList (s : Store) : ofList s.toList = s := by
  have hwritten := foldl_insert_ofList s.toList []
  rw [List.append_nil, List.foldl_nil] at hwritten
  apply eq_of_get?
  intro name
  rw [hwritten, get?_writeAll_empty]
  cases hlookup : s.toList.reverse.lookup name with
  | some v =>
      obtain ⟨before, behind, hsplit, -⟩ := List.lookup_eq_some_iff.mp hlookup
      have hmem : (name, v) ∈ s.toList.reverse := by
        rw [hsplit]
        exact List.mem_append_right _ List.mem_cons_self
      exact (mem_toList.mp (List.mem_reverse.mp hmem)).symm
  | none =>
      symm
      rw [Option.eq_none_iff_forall_ne_some]
      intro v hv
      have hmem : (name, v) ∈ s.toList.reverse := List.mem_reverse.mpr (mem_toList.mpr hv)
      simpa using List.lookup_eq_none_iff.mp hlookup _ hmem

end Store

/-! ### Texts of one line -/

namespace Decimal

theorem newline_not_mem_text (d : Decimal) : '\n' ∉ d.text := by
  intro hmem
  exact absurd (d.isDigit_or_point_of_mem_text _ hmem) (by decide)

end Decimal

namespace Scientific

theorem newline_not_mem_text (s : Scientific) : '\n' ∉ s.text := by
  have hdigits : '\n' ∉ Text.paddedDigits 10 2 s.exponent.natAbs := by
    intro hmem
    exact absurd (Decimal.isDigit_of_mem_paddedDigits hmem) (by decide)
  rw [text, Notation.exponentText]
  split <;> simp [s.mantissa.newline_not_mem_text, hdigits]

end Scientific

namespace Format

/-- The real mode writes a decimal, or a number in scientific notation. -/
theorem exists_realText (x : Exact) (precision? : Option Nat) :
    (∃ d : Decimal, realText x precision? = d.text) ∨
      ∃ s : Scientific, realText x precision? = s.text := by
  simp only [realText, Scientific.plainText, Scientific.splitExponent_append,
    Decimal.trimFraction_text]
  split
  · exact .inr ⟨⟨_, _⟩, rfl⟩
  · left
    split
    · exact ⟨_, rfl⟩
    · exact ⟨_, rfl⟩

theorem newline_not_mem_decimalText {magnitude : Exact → List Char}
    (h : ∀ x, '\n' ∉ magnitude x) (v : Float) : '\n' ∉ decimalText v magnitude := by
  rw [decimalText]
  split
  · rename_i x hx
    rw [signed]
    split <;> simp [h x]
  · rw [notFinite]
    split
    · decide
    · split <;> decide

/-- A number is written on one line, in every mode. -/
theorem newline_not_mem_chars (f : Format) (v : Float) : '\n' ∉ f.chars v := by
  rw [chars]
  split
  · exact newline_not_mem_decimalText (fun x => Decimal.newline_not_mem_text _) v
  · refine newline_not_mem_decimalText (fun x => ?_) v
    obtain ⟨d, htext⟩ | ⟨s, htext⟩ := exists_realText x f.precision?
    · rw [htext]
      exact d.newline_not_mem_text
    · rw [htext]
      exact s.newline_not_mem_text
  · refine newline_not_mem_decimalText (fun x => ?_) v
    obtain ⟨s, htext⟩ := scientificText_cases x f.precision?
    rw [htext]
    exact s.newline_not_mem_text
  · rename_i r hmode
    intro hmem
    have hdigit := Text.isDigitOf_of_mem_paddedDigits r.one_lt_base r.base_le _ hmem
    cases r <;> exact absurd hdigit (by decide)

end Format

/-- Names have neither blanks nor line breaks. -/
theorem IsName.isBlank_eq_false {name : String} (h : IsName name) {c : Char}
    (hc : c ∈ name.toList) : Text.isBlank c = false := by
  obtain ⟨n, rfl⟩ := h
  rw [Bool.eq_false_iff]
  intro hblank
  have hnone := Text.isLetterOrDigit_of_isBlank hblank
  rw [Name.text, String.toList_ofList] at hc
  simp only [List.mem_cons] at hc
  obtain rfl | rfl | hc := hc
  · exact absurd hblank (by decide)
  · rw [Text.isLetterOrDigit, n.isLetter_letter] at hnone
    cases hnone
  · rw [n.isLetterOrDigit_others c hc] at hnone
    cases hnone

/-! ### The lines of a listing -/

namespace Command

variable {s : Store} {f : Format}

/-- The name on a line and the text of its value: they stand before the first blank and behind the
arrow. -/
def entryOfLine (line : List Char) : String × String :=
  (String.ofList (line.takeWhile (· ≠ ' ')),
    String.ofList ((line.dropWhile (· ≠ ' ')).drop " => ".length))

def entriesOfListing (text : String) : List (String × String) :=
  (text.toList.splitOn '\n').tail.map entryOfLine

theorem toList_listingLine (name : String) (v : Float) :
    (listingLine f (name, v)).toList = name.toList ++ (" => ".toList ++ f.chars v) := by
  have hline : listingLine f (name, v) = name ++ " => " ++ f.text v := rfl
  have hvalue : (f.text v).toList = f.chars v := String.toList_ofList
  rw [hline, String.toList_append, String.toList_append, hvalue, List.append_assoc]

/-- A line gives back the name and the text of the value. -/
theorem entryOfLine_listingLine {name : String} (h : IsName name) (v : Float) :
    entryOfLine (listingLine f (name, v)).toList = (name, f.text v) := by
  have hname : ∀ c ∈ name.toList, decide (c ≠ ' ') = true := by
    intro c hc
    rw [decide_eq_true_iff]
    rintro rfl
    exact absurd (h.isBlank_eq_false hc) (by decide)
  have harrow : ∀ c ∈ (" => ".toList ++ f.chars v).head?, decide (c ≠ ' ') = false := by
    rintro c ⟨rfl⟩
    rfl
  rw [entryOfLine, toList_listingLine, Text.takeWhile_run hname harrow,
    Text.dropWhile_run hname harrow, String.ofList_toList]
  rfl

theorem newline_not_mem_listingLine {name : String} (h : IsName name) (v : Float) :
    '\n' ∉ (listingLine f (name, v)).toList := by
  have hname : '\n' ∉ name.toList := by
    intro hmem
    exact absurd (h.isBlank_eq_false hmem) (by decide)
  have harrow : '\n' ∉ " => ".toList := by decide
  rw [toList_listingLine, List.mem_append, List.mem_append]
  exact not_or_intro hname (not_or_intro harrow (f.newline_not_mem_chars v))

/-- The lines of a listing are its title and a line for each entry. -/
theorem splitOn_listingText (hnames : ∀ name ∈ s.names, IsName name) (hne : s.toList ≠ []) :
    (listingText f s).toList.splitOn '\n' =
      "Variables:".toList :: s.toList.map fun e => (listingLine f e).toList := by
  let lines := s.toList.map fun e => (listingLine f e).toList
  have hlines : lines ≠ [] := by simpa [lines] using hne
  have htext : (listingText f s).toList = ['\n'].intercalate ("Variables:".toList :: lines) := by
    have hsize : s.isEmpty = false := by simpa [Store.isEmpty, Store.toList] using hne
    rw [List.intercalate_cons_of_ne_nil hlines, listingText, hsize]
    simp [String.toList_intercalate, lines, Function.comp_def]
  have hbreaks : ∀ line ∈ "Variables:".toList :: lines, '\n' ∉ line := by
    intro line hline
    obtain rfl | hline := List.mem_cons.mp hline
    · decide
    · obtain ⟨⟨name, v⟩, hentry, rfl⟩ := List.mem_map.mp hline
      have hname : name ∈ s.names := List.mem_map.mpr ⟨(name, v), hentry, rfl⟩
      exact newline_not_mem_listingLine (hnames name hname) v
  rw [htext, List.splitOn_intercalate '\n' hbreaks (List.cons_ne_nil _ _)]

/-- A listing gives back the names and the texts of their values. -/
theorem entriesOfListing_listingText (hnames : ∀ name ∈ s.names, IsName name) :
    entriesOfListing (listingText f s) = s.toList.map fun e => (e.1, f.text e.2) := by
  by_cases hne : s.toList = []
  · have hempty : s.isEmpty = true := by simpa [Store.isEmpty, Store.toList] using hne
    have hnone : entriesOfListing "No variables defined!" = [] := by decide +kernel
    rw [hne, listingText, if_pos hempty, hnone, List.map_nil]
  · rw [entriesOfListing, splitOn_listingText hnames hne, List.tail_cons, List.map_map]
    apply List.map_congr_left
    rintro ⟨name, v⟩ hentry
    have hname : name ∈ s.names := List.mem_map.mpr ⟨(name, v), hentry, rfl⟩
    exact entryOfLine_listingLine (hnames name hname) v

theorem listingText_eq_iff (hnames : ∀ name ∈ s.names, IsName name) :
    listingText f s = "No variables defined!" ↔ s.toList = [] := by
  constructor
  · intro htext
    by_contra hne
    have hlines := congrArg List.head? (splitOn_listingText (f := f) hnames hne)
    have hmessage : ("No variables defined!".toList.splitOn '\n').head? =
        some "No variables defined!".toList := by decide +kernel
    rw [htext, hmessage, List.head?_cons] at hlines
    exact absurd (Option.some.inj hlines) (by decide)
  · intro hnil
    have hempty : s.isEmpty = true := by simpa [Store.isEmpty, Store.toList] using hnil
    rw [listingText, if_pos hempty]

end Command

namespace Session

theorem line_vars (s : Session) :
    s.line "vars" = ⟨.ok (.message (Command.listingText s.format s.store)), s⟩ := by
  have hblank : "vars".toList.all Text.isBlank = false := by decide
  have hrequest : Request.ofLine? "vars" = .ok (some ⟨.listing, []⟩) := by decide +kernel
  simp only [line, hblank, hrequest]
  rfl

/-- The listing shows the store exactly. A store of some pairs, over which more values are written,
has the value written last for each name, and none for a name that was never written. It lists each
name that was written once, in ascending order of code points, and is as large as these names are
many; every store is one of these. If the names are those of the grammar, the listing is a message of
its own just when nothing was written, and otherwise a title and a line for each name in this order,
with the value in the format of the session. Taken apart, the listing gives back the names and the
texts of their values. -/
theorem listing_shows_store (pairs sets : List (String × Float)) (f : Format) :
    let writes := pairs ++ sets
    let store := sets.foldl (fun s p => s.insert p.1 p.2) (Store.ofList pairs)
    let s : Session := ⟨store, f⟩
    let text := Command.listingText f store
    (∀ name, store.get? name = writes.reverse.lookup name) ∧
    (∀ name, store.get? name = none ↔ name ∉ writes.map Prod.fst) ∧
    (∀ name v, (name, v) ∈ store.toList ↔ writes.reverse.lookup name = some v) ∧
    store.toList.Pairwise
      (fun a b => List.Lex (fun c d => c.toNat < d.toNat) a.1.toList b.1.toList) ∧
    store.size = (writes.map Prod.fst).toFinset.card ∧
    (∀ other : Store, Store.ofList other.toList = other) ∧
    ((∀ name ∈ writes.map Prod.fst, IsName name) →
      s.line "vars" = ⟨.ok (.message text), s⟩ ∧
      (∀ numbers, s.command .listing numbers = ⟨.ok (.message text), s⟩) ∧
      (text = "No variables defined!" ↔ writes = []) ∧
      (writes ≠ [] → text.toList.splitOn '\n' = "Variables:".toList ::
        store.toList.map fun e => e.1.toList ++ (" => ".toList ++ f.chars e.2)) ∧
      Command.entriesOfListing text = store.toList.map fun e => (e.1, f.text e.2)) := by
  intro writes store s text
  have hstore : store = Store.empty.writeAll writes.reverse := Store.foldl_insert_ofList pairs sets
  have hget (name : String) : store.get? name = writes.reverse.lookup name := by
    rw [hstore, Store.get?_writeAll_empty]
  have hmem (name : String) : name ∈ store.names ↔ name ∈ writes.map Prod.fst := by
    rw [hstore, Store.mem_names_writeAll_empty, List.map_reverse, List.mem_reverse]
  have hnil : store.toList = [] ↔ writes = [] := by
    rw [← List.map_eq_nil_iff (f := Prod.fst), ← List.map_eq_nil_iff (f := Prod.fst) (l := writes),
      List.eq_nil_iff_forall_not_mem, List.eq_nil_iff_forall_not_mem]
    exact forall_congr' fun name => not_congr (hmem name)
  refine ⟨hget, ?_, ?_, store.ascending, ?_, Store.ofList_toList, ?_⟩
  · intro name
    rw [← hmem, Store.mem_names, not_exists, Option.eq_none_iff_forall_ne_some]
  · intro name v
    rw [Store.mem_toList, hget]
  · rw [Store.size_eq_card]
    congr 1
    ext name
    rw [List.mem_toFinset, List.mem_toFinset, hmem]
  · intro hwritten
    have hnames : ∀ name ∈ store.names, IsName name := by
      intro name hname
      exact hwritten name ((hmem name).mp hname)
    refine ⟨s.line_vars, fun _ => rfl, ?_, ?_, Command.entriesOfListing_listingText hnames⟩
    · exact (Command.listingText_eq_iff hnames).trans hnil
    · intro hne
      rw [Command.splitOn_listingText hnames (mt hnil.mp hne)]
      congr 1
      apply List.map_congr_left
      rintro ⟨name, v⟩ -
      exact Command.toList_listingLine name v

/-- A name that is written again keeps its line, and has the value written last. -/
theorem listing_shows_store_overwritten :
    let store := [("$b", 0.5), ("$é", -0.0)].foldl (fun s p => s.insert p.1 p.2)
      (Store.ofList [("$b", 1), ("$B", 2)])
    let s : Session := ⟨store, {}⟩
    (∀ name ∈ ["$b", "$B", "$b", "$é"], IsName name) ∧
      (s.line "vars").result = .ok (.message "Variables:\n$B => 2\n$b => 0.5\n$é => -0") := by
  intro store s
  have hnames : ∀ name ∈ ["$b", "$B", "$b", "$é"], IsName name := by
    have hnone : ∀ c ∈ ([] : List Char), Text.isLetterOrDigit c = true := by simp
    intro name hname
    simp only [List.mem_cons, List.not_mem_nil, or_false] at hname
    obtain rfl | rfl | rfl | rfl := hname
    · exact ⟨⟨'b', [], by decide, hnone⟩, rfl⟩
    · exact ⟨⟨'B', [], by decide, hnone⟩, rfl⟩
    · exact ⟨⟨'b', [], by decide, hnone⟩, rfl⟩
    · exact ⟨⟨'é', [], by decide, hnone⟩, rfl⟩
  refine ⟨hnames, ?_⟩
  obtain ⟨-, -, -, -, -, -, hlisting⟩ :=
    listing_shows_store [("$b", 1), ("$B", 2)] [("$b", 0.5), ("$é", -0.0)] {}
  have htext : Command.listingText {} store = "Variables:\n$B => 2\n$b => 0.5\n$é => -0" := by
    decide +kernel
  rw [(hlisting hnames).1, htext]

end Session

end Reckoner
