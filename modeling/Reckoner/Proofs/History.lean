import Reckoner.Session

/-!
# Histories of sessions

A history lists the lines that a session took, each with the session that took it. Two histories
are compared through a view, a part of the session: lines that leave the view as it is may be left
out of a history, if what is seen of the other lines depends on the view alone.
-/

namespace Reckoner.Session

/-- A line and the session that took it. -/
structure Entry where
  before : Session
  line : String

def Entry.step (e : Entry) : Step := e.before.line e.line

/-- All lines in order, each with the session in front of it. -/
def history (s : Session) : List String → List Entry
  | [] => []
  | line :: rest => ⟨s, line⟩ :: (s.line line).session.history rest

def after (s : Session) (lines : List String) : Session :=
  lines.foldl (fun s line => (s.line line).session) s

@[simp] theorem after_nil (s : Session) : s.after [] = s := rfl

@[simp] theorem after_cons (s : Session) (line : String) (rest : List String) :
    s.after (line :: rest) = (s.line line).session.after rest := rfl

/-- The lines that are kept change a view, and show something, as the view alone says; the others
leave the view as it is. -/
structure Unwinds {α β : Type} (view : Session → α) (seen : Entry → β) (keep : String → Bool) :
    Prop where
  skipped : ∀ s line, keep line = false → view (s.line line).session = view s
  changed : ∀ s t line, keep line = true → view s = view t →
    view (s.line line).session = view (t.line line).session
  shown : ∀ s t line, keep line = true → view s = view t → seen ⟨s, line⟩ = seen ⟨t, line⟩

namespace Unwinds

variable {α β : Type} {view : Session → α} {seen : Entry → β} {keep : String → Bool}
variable {s t : Session}

/-- The lines that are left out do not change the view behind all lines. -/
theorem view_after (h : Unwinds view seen keep) (hview : view s = view t) (lines : List String) :
    view (s.after lines) = view (t.after (lines.filter keep)) := by
  induction lines generalizing s t with
  | nil => exact hview
  | cons line rest ih =>
      rw [List.filter_cons, after_cons]
      cases hkeep : keep line with
      | true => exact ih (h.changed s t line hkeep hview)
      | false => exact ih ((h.skipped s line hkeep).trans hview)

/-- The lines that are left out do not change what is seen of the others. -/
theorem map_history (h : Unwinds view seen keep) (hview : view s = view t) (lines : List String) :
    ((s.history lines).filter fun e => keep e.line).map (fun e => (e.line, seen e)) =
      (t.history (lines.filter keep)).map fun e => (e.line, seen e) := by
  induction lines generalizing s t with
  | nil => rfl
  | cons line rest ih =>
      rw [history, List.filter_cons, List.filter_cons]
      cases hkeep : keep line with
      | true =>
          simp only [if_true, history, List.map_cons]
          rw [h.shown s t line hkeep hview, ih (h.changed s t line hkeep hview)]
      | false => exact ih ((h.skipped s line hkeep).trans hview)

end Unwinds

end Reckoner.Session
