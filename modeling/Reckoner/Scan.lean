import Reckoner.Cursor

/-!
# Scans

A scan holds all tokens of a text in order, malformed ones included, and the place where the text
ends. It is what the calculator reads: an expression, and a command with its arguments, are read
from the scan of a line.
-/

namespace Reckoner

/-- The tokens of a text in order, and the place of its end. -/
structure Scan where
  tokens : List Token
  finish : Place
deriving DecidableEq

namespace Scan

/-- Pull tokens from a cursor to the end of its text. -/
def ofCursor (c : Cursor) : Scan :=
  match _h : c.pull with
  | (none, d) => ⟨[], d.place⟩
  | (some t, d) =>
    let s := ofCursor d
    ⟨t :: s.tokens, s.finish⟩
termination_by c.rest.length
decreasing_by exact Cursor.length_lt_of_pull _h

/-- At the end of its text a cursor has no tokens. -/
theorem ofCursor_of_pull_none {c d : Cursor} (h : c.pull = (none, d)) :
    ofCursor c = ⟨[], d.place⟩ := by
  rw [ofCursor]
  split <;> simp_all

/-- The scan from a cursor starts with the token that a pull takes. -/
theorem ofCursor_of_pull_some {c d : Cursor} {t : Token} (h : c.pull = (some t, d)) :
    ofCursor c = ⟨t :: (ofCursor d).tokens, (ofCursor d).finish⟩ := by
  rw [ofCursor]
  split <;> simp_all

def ofText (text : String) : Scan :=
  ofCursor (Cursor.ofText text)

end Scan

/-- The tokens in order, or the fault of the first malformed one. -/
def Token.wellFormed? : List Token → Except TokenError (List Token)
  | [] => .ok []
  | t :: rest =>
    match t.fault? with
    | some fault => .error ⟨fault, t.place⟩
    | none => (wellFormed? rest).map (t :: ·)

/-- Tokens are handed on as they are if none of them is malformed. -/
theorem Token.wellFormed?_eq_ok_iff {ts us : List Token} :
    wellFormed? ts = .ok us ↔ us = ts ∧ ∀ t ∈ ts, t.fault? = none := by
  induction ts generalizing us with
  | nil => simp [wellFormed?, eq_comm]
  | cons t rest ih =>
      rw [wellFormed?]
      cases ht : t.fault? with
      | some fault => simp [ht]
      | none =>
          cases hrest : wellFormed? rest with
          | error e =>
              have hnone : ¬∀ u ∈ rest, u.fault? = none := by
                intro hgood
                cases hrest.symm.trans (ih.mpr ⟨rfl, hgood⟩)
              simp [Except.map, ht, hnone]
          | ok vs =>
              obtain ⟨rfl, hgood⟩ := ih.mp hrest
              have hall : ∀ u ∈ t :: vs, u.fault? = none := List.forall_mem_cons.mpr ⟨ht, hgood⟩
              simp only [Except.map, Except.ok.injEq]
              exact ⟨fun h => ⟨h.symm, hall⟩, fun h => h.1.symm⟩

/-- The fault that is found is that of a token. -/
theorem Token.exists_of_wellFormed?_eq_error {ts : List Token} {e : TokenError}
    (h : wellFormed? ts = .error e) : ∃ t ∈ ts, t.kind = .bad e.cause ∧ t.place = e.place := by
  induction ts with
  | nil => cases h
  | cons t rest ih =>
      rw [wellFormed?] at h
      cases ht : t.fault? with
      | some fault =>
          rw [ht] at h
          obtain rfl := Except.error.inj h
          exact ⟨t, by simp, fault?_eq_some_iff.mp ht, rfl⟩
      | none =>
          rw [ht] at h
          cases hrest : wellFormed? rest with
          | error e' =>
              rw [hrest] at h
              obtain rfl := Except.error.inj h
              obtain ⟨u, hu, hfault⟩ := ih hrest
              exact ⟨u, List.mem_cons_of_mem t hu, hfault⟩
          | ok us =>
              rw [hrest] at h
              cases h

/-- Of tokens one behind another, the fault of the first part is found before one of the second. -/
theorem Token.wellFormed?_append (ts us : List Token) :
    wellFormed? (ts ++ us) = (do
      let first ← wellFormed? ts
      let rest ← wellFormed? us
      return first ++ rest) := by
  induction ts with
  | nil => cases h : wellFormed? us <;> simp [wellFormed?, h, bind, Except.bind, pure, Except.pure]
  | cons t ts ih =>
      simp only [List.cons_append, wellFormed?, ih]
      cases t.fault? with
      | some fault => rfl
      | none => cases wellFormed? ts <;> cases wellFormed? us <;> rfl

/-- The tokens of a text, none of them malformed. -/
def tokenize (text : String) : Except TokenError (List Token) :=
  Token.wellFormed? (Scan.ofText text).tokens

end Reckoner
