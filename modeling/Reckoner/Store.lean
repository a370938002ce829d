/-!
# The store of variables

A store gives values to names, each name at most once, in ascending order of code points. The order
is part of the type, so two stores that list the same entries are equal, and a listing needs no
sorting. `get?` is the view through which the operations are described.
-/

namespace Reckoner

/-- Names and their values, in ascending order of names. -/
structure Store where
  entries : List (String × Float)
  ascending : entries.Pairwise (fun a b => a.1 < b.1)

namespace Store

/-- Put an entry into its place in an ascending list, over an older entry of its name. -/
def insertEntry (name : String) (value : Float) : List (String × Float) → List (String × Float)
  | [] => [(name, value)]
  | (n, v) :: rest =>
    if name < n then (name, value) :: (n, v) :: rest
    else if n < name then (n, v) :: insertEntry name value rest
    else (name, value) :: rest

/-- The names after an insertion are the old ones and the new one. -/
theorem fst_of_mem_insertEntry {name : String} {value : Float} {entries : List (String × Float)}
    {e : String × Float} (h : e ∈ insertEntry name value entries) :
    e.1 = name ∨ e ∈ entries := by
  induction entries with
  | nil => simp_all [insertEntry]
  | cons e' rest ih =>
    obtain ⟨n, v⟩ := e'
    rw [insertEntry] at h
    split at h
    · rcases List.mem_cons.mp h with rfl | h
      · exact .inl rfl
      · exact .inr h
    · split at h
      · rcases List.mem_cons.mp h with rfl | h
        · exact .inr (by simp)
        · exact (ih h).imp id (List.mem_cons_of_mem _)
      · rcases List.mem_cons.mp h with rfl | h
        · exact .inl rfl
        · exact .inr (List.mem_cons_of_mem _ h)

/-- Insertion keeps the order. -/
theorem insertEntry_ascending (name : String) (value : Float) {entries : List (String × Float)}
    (h : entries.Pairwise (fun a b => a.1 < b.1)) :
    (insertEntry name value entries).Pairwise (fun a b => a.1 < b.1) := by
  induction entries with
  | nil => simp [insertEntry]
  | cons e rest ih =>
    obtain ⟨n, v⟩ := e
    have hrest := List.pairwise_cons.mp h
    rw [insertEntry]
    split
    · rename_i hlt
      refine List.pairwise_cons.mpr ⟨fun b hb => ?_, h⟩
      rcases List.mem_cons.mp hb with rfl | hb
      · exact hlt
      · exact String.lt_trans hlt (hrest.1 b hb)
    · split
      · rename_i hgt
        refine List.pairwise_cons.mpr ⟨fun b hb => ?_, ih hrest.2⟩
        rcases fst_of_mem_insertEntry hb with hname | hb
        · rw [hname]; exact hgt
        · exact hrest.1 b hb
      · rename_i hlt hgt
        have heq : name = n := String.le_antisymm (String.not_lt.mp hgt) (String.not_lt.mp hlt)
        exact List.pairwise_cons.mpr ⟨fun b hb => heq ▸ hrest.1 b hb, hrest.2⟩

def empty : Store := ⟨[], .nil⟩

/-- Give a value to a name, over the value it had. -/
def insert (s : Store) (name : String) (value : Float) : Store :=
  ⟨insertEntry name value s.entries, insertEntry_ascending name value s.ascending⟩

/-- A store of pairs; the last pair of a name wins. -/
def ofList (pairs : List (String × Float)) : Store :=
  pairs.foldl (fun s p => s.insert p.1 p.2) empty

def toList (s : Store) : List (String × Float) := s.entries

def get? (s : Store) (name : String) : Option Float :=
  s.entries.lookup name

/-- The value that a name stands for in an expression: zero unless it has another. -/
def value (s : Store) (name : String) : Float :=
  (s.get? name).getD 0

def size (s : Store) : Nat := s.entries.length

def isEmpty (s : Store) : Bool := s.entries.isEmpty

@[simp] theorem get?_empty (name : String) : empty.get? name = none := rfl

theorem lookup_insertEntry_self (name : String) (value : Float) (entries : List (String × Float)) :
    (insertEntry name value entries).lookup name = some value := by
  induction entries with
  | nil => simp [insertEntry]
  | cons e rest ih =>
    obtain ⟨n, v⟩ := e
    rw [insertEntry]
    split
    · simp
    · split
      · rename_i hgt
        have hne : (name == n) = false :=
          beq_false_of_ne fun h => String.lt_irrefl n (h ▸ hgt)
        simp [List.lookup_cons, hne, ih]
      · simp

theorem lookup_insertEntry_of_ne {name other : String} (value : Float)
    (entries : List (String × Float)) (hne : other ≠ name) :
    (insertEntry name value entries).lookup other = entries.lookup other := by
  have hb : (other == name) = false := beq_false_of_ne hne
  induction entries with
  | nil => simp [insertEntry, List.lookup_cons, hb]
  | cons e rest ih =>
    obtain ⟨n, v⟩ := e
    rw [insertEntry]
    split
    · simp [List.lookup_cons, hb]
    · split
      · simp [List.lookup_cons, ih]
      · rename_i hlt hgt
        have heq : name = n := String.le_antisymm (String.not_lt.mp hgt) (String.not_lt.mp hlt)
        simp [List.lookup_cons, hb, ← heq]

/-- A name has the value written last. -/
@[simp] theorem get?_insert_self (s : Store) (name : String) (value : Float) :
    (s.insert name value).get? name = some value :=
  lookup_insertEntry_self name value s.entries

/-- Writing one name leaves the others. -/
theorem get?_insert_of_ne (s : Store) {name other : String} (value : Float)
    (hne : other ≠ name) : (s.insert name value).get? other = s.get? other :=
  lookup_insertEntry_of_ne value s.entries hne

end Store

end Reckoner
