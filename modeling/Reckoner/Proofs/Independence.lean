import Reckoner.Proofs.History

/-!
# Computation and display are independent

A session computes with its store and displays with its format. The lines that start with a bare
word are the requests: they choose the format and show things, and leave the store. All other lines
are blank or expressions: they compute over the store, and leave the format. The two kinds of line
are told apart by their text alone.

So the requests may be left out of a run without any effect on what is computed, and all other lines
without any effect on the format and on which requests fail.
-/

namespace Reckoner

def Token.startsWithWord : List Token → Bool
  | ⟨.word _, _⟩ :: _ => true
  | _ => false

/-- Whether a line is a request, by its first token. -/
def Request.isRequest (line : String) : Bool :=
  Token.startsWithWord (Scan.ofText line).tokens

namespace Request

theorem ofTokens?_of_not_word {ts : List Token} (h : Token.startsWithWord ts = false) :
    ofTokens? ts = .ok none := by
  match ts with
  | [] => rfl
  | ⟨kind, place⟩ :: rest =>
      cases kind with
      | word name => cases h
      | _ => rfl

theorem ofTokens?_ne_none_of_word {ts : List Token} (h : Token.startsWithWord ts = true) :
    ofTokens? ts ≠ .ok none := by
  match ts with
  | [] => cases h
  | ⟨kind, place⟩ :: rest =>
      cases kind with
      | word name =>
          simp only [ofTokens?]
          repeat' split
          all_goals simp
      | _ => cases h

end Request

namespace Session

variable {text : String}

/-- What a line that is no request computes over a store: nothing if it is blank, else the value of
the expression or its fault. -/
def computed (store : Store) (text : String) : Except LineFault (Option Float) :=
  if text.toList.all Text.isBlank then .ok none
  else ((evaluate store text).result.map some).mapError .evaluation

def shownIn (f : Format) : Option Float → Outcome
  | some value => .value (f.text value)
  | none => .nothing

def storeAfter (store : Store) (text : String) : Store :=
  if text.toList.all Text.isBlank then store else (evaluate store text).store

/-- A line that is no request computes over the store, and the format shows the result. -/
theorem line_of_not_request (h : Request.isRequest text = false) (s : Session) :
    s.line text = ⟨(computed s.store text).map (shownIn s.format),
      { s with store := storeAfter s.store text }⟩ := by
  rw [line, computed, storeAfter]
  split
  · rfl
  · rw [Request.ofLine?, Request.ofTokens?_of_not_word h]
    simp only [expression]
    cases (evaluate s.store text).result <;> rfl

/-- A request leaves the store. -/
theorem line_store_of_request (h : Request.isRequest text = true) (s : Session) :
    (s.line text).session.store = s.store := by
  rw [line]
  split
  · rfl
  · split
    · rfl
    · exact command_store s _ _
    · rename_i hnone
      exact absurd hnone (Request.ofTokens?_ne_none_of_word h)

/-- Whether a line succeeds, or with which fault it fails. -/
def Entry.verdict (e : Entry) : Except LineFault Unit := e.step.result.map fun _ => ()

/-- A command chooses the format, and succeeds or fails, in the same way over any store. -/
theorem command_of_format {s t : Session} (h : s.format = t.format) (c : Command)
    (numbers : List Float) :
    (s.command c numbers).session.format = (t.command c numbers).session.format ∧
      (s.command c numbers).result.map (fun _ => ()) =
        (t.command c numbers).result.map fun _ => () := by
  simp only [command, ← h]
  cases c.formatAfter numbers s.format with
  | ok format => exact ⟨rfl, by simp only [Except.map]⟩
  | error fault => exact ⟨h, rfl⟩

/-- A request chooses the format, and succeeds or fails, in the same way over any store. -/
theorem line_of_request (h : Request.isRequest text = true) {s t : Session}
    (hformat : s.format = t.format) :
    (s.line text).session.format = (t.line text).session.format ∧
      (Entry.mk s text).verdict = (Entry.mk t text).verdict := by
  simp only [Entry.verdict, Entry.step, line]
  split
  · exact ⟨hformat, rfl⟩
  · split
    · exact ⟨hformat, rfl⟩
    · rename_i request _
      exact command_of_format hformat request.command _
    · rename_i hnone
      exact absurd hnone (Request.ofTokens?_ne_none_of_word h)

/-- What a line that is no request computes, and the store behind it. -/
def Entry.computation (e : Entry) : Except LineFault (Option Float) × Store :=
  (computed e.before.store e.line, e.step.session.store)

/-- The store sees no request. -/
theorem unwinds_store :
    Unwinds Session.store Entry.computation fun line => !Request.isRequest line where
  skipped := by
    intro s line hline
    exact line_store_of_request (by simpa using hline) s
  changed := by
    intro s t line hline hstore
    rw [line_of_not_request (by simpa using hline), line_of_not_request (by simpa using hline),
      hstore]
  shown := by
    intro s t line hline hstore
    simp only [Entry.computation, Entry.step]
    rw [line_of_not_request (by simpa using hline), line_of_not_request (by simpa using hline),
      hstore]

/-- The format sees requests alone. -/
theorem unwinds_format : Unwinds Session.format Entry.verdict Request.isRequest where
  skipped := by
    intro s line hline
    rw [line_of_not_request hline]
  changed := by
    intro s t line hline hformat
    exact (line_of_request hline hformat).1
  shown := by
    intro s t line hline hformat
    exact (line_of_request hline hformat).2

/-- Leaving all requests out of a run changes neither the final store nor, for any other line, the
value that it computes and its format shows, its fault, or the store behind it. Leaving all other
lines out changes neither the final format nor, for any request, whether it succeeds or with which
fault it fails. -/
theorem noninterference (s : Session) (lines : List String) :
    let others := lines.filter fun line => !Request.isRequest line
    let requests := lines.filter Request.isRequest
    (s.after lines).store = (s.after others).store ∧
      ((s.history lines).filter fun e => !Request.isRequest e.line).map
          (fun e => (e.line, e.computation)) =
        (s.history others).map (fun e => (e.line, e.computation)) ∧
      (∀ e : Entry, Request.isRequest e.line = false →
        e.step.result = e.computation.1.map (shownIn e.before.format)) ∧
      (s.after lines).format = (s.after requests).format ∧
      ((s.history lines).filter fun e => Request.isRequest e.line).map
          (fun e => (e.line, e.verdict)) =
        (s.history requests).map fun e => (e.line, e.verdict) := by
  refine ⟨?_, ?_, ?_, ?_, ?_⟩
  · exact unwinds_store.view_after rfl lines
  · exact unwinds_store.map_history rfl lines
  · intro e he
    rw [Entry.step, line_of_not_request he, Entry.computation]
  · exact unwinds_format.view_after rfl lines
  · exact unwinds_format.map_history rfl lines

end Session

end Reckoner
