import Mathlib.Data.List.Forall2
import Reckoner.Proofs.History
import Reckoner.Proofs.LineEnd
import Reckoner.Proofs.Lines
import Reckoner.Shell.Program

/-!
# A dialogue and a script over one text

The same text can be typed into a dialogue and run as a script. Both take its lines in order in one
session, and show for each line its result. They differ in where they stop: a script at the first
error or at the command to leave, a dialogue at the command to leave alone. And they differ in the
line itself, which in a dialogue still has its end.

So up to where the script stops both show the same, but for a fault at the end of a line: with the
newline on it, the line ends at the start of the next one.
-/

namespace Reckoner

/-! ### Entries up to an end -/

section UpTo

variable {α β : Type}

/-- The elements up to and with the first that ends the list. -/
def upTo (ends : α → Bool) : List α → List α
  | [] => []
  | x :: xs => if ends x then [x] else x :: upTo ends xs

/-- Related lists are related up to the end of the first, if the second does not end before. -/
theorem forall₂_upTo {r : α → β → Prop} {ends : α → Bool} {ends' : β → Bool}
    (hends : ∀ x y, r x y → ends' y = true → ends x = true) {xs : List α} {ys : List β}
    (h : List.Forall₂ r xs ys) :
    List.Forall₂ r (upTo ends xs) ((upTo ends' ys).take (upTo ends xs).length) := by
  induction h with
  | nil => exact .nil
  | @cons x y xs ys hxy _ ih =>
      rw [upTo, upTo]
      cases hx : ends x with
      | true =>
          cases hy : ends' y <;> simpa using hxy
      | false =>
          have hy : ends' y = false := by
            by_contra hy
            simp [hends x y hxy (by simpa using hy)] at hx
          simpa [hy] using ⟨hxy, ih⟩

end UpTo

namespace Session.Entry

def leaves (e : Entry) : Bool :=
  match e.step.result with
  | .ok .leave => true
  | _ => false

def fails (e : Entry) : Bool :=
  match e.step.result with
  | .error _ => true
  | _ => false

/-- Whether a script stops at the line. -/
def halts (e : Entry) : Bool :=
  e.leaves || e.fails

/-- A line and the same line with its end still on it. Both lead to the same session with the same
result, but for a fault at the end of the line. Behind a newline that is the start of the next
line. -/
structure SameButEnd (e e' : Entry) : Prop where
  before : e'.before = e.before
  session : e'.step.session = e.step.session
  line : e'.line = e.line ∨ Place.behind e'.line.toList = ⟨2, 1⟩
  result : e'.step.result = e.step.result.mapError
    (LineFault.move (Place.behind e.line.toList) (Place.behind e'.line.toList))

theorem SameButEnd.leaves_eq {e e' : Entry} (h : SameButEnd e e') : e'.leaves = e.leaves := by
  rw [leaves, leaves, h.result]
  cases e.step.result <;> rfl

end Session.Entry

namespace Session

/-- One line, with its end and without it. -/
theorem sameButEnd_piece (s : Session) {piece : List Char} (h : '\n' ∉ piece.dropLast) :
    Entry.SameButEnd ⟨s, String.ofList (Text.dropLineEnd piece)⟩ ⟨s, String.ofList piece⟩ := by
  obtain ⟨lineEnd, hpiece, hblank, hend⟩ := Text.dropLineEnd_append piece
  have hstep := s.line_append_blanks (Text.dropLineEnd piece) hblank
  rw [hpiece] at hstep
  refine ⟨rfl, ?_, ?_, ?_⟩
  · simp only [Entry.step, hstep]
  · obtain rfl | ⟨cs, rfl⟩ := hend
    · left
      rw [List.append_nil] at hpiece
      rw [hpiece]
    · right
      have hcount : cs.count '\n' = 0 := List.count_eq_zero.mpr (by simpa using h)
      rw [String.toList_ofList, Place.behind_append_newline, hcount]
  · simp only [Entry.step, hstep, String.toList_ofList]

/-- A whole history, with the ends of the lines and without them. -/
theorem forall₂_history (s : Session) {pieces : List (List Char)}
    (h : ∀ piece ∈ pieces, '\n' ∉ piece.dropLast) :
    List.Forall₂ Entry.SameButEnd
      (s.history (pieces.map fun piece => String.ofList (Text.dropLineEnd piece)))
      (s.history (pieces.map String.ofList)) := by
  induction pieces generalizing s with
  | nil => exact .nil
  | cons piece pieces ih =>
      obtain ⟨hpiece, hpieces⟩ := List.forall_mem_cons.mp h
      have hsame := sameButEnd_piece s hpiece
      have hsession : (s.line (String.ofList piece)).session =
          (s.line (String.ofList (Text.dropLineEnd piece))).session := hsame.session
      refine .cons hsame ?_
      rw [hsession]
      exact ih _ hpieces

end Session

namespace Shell

def shown (e : Session.Entry) : String :=
  match e.step.result with
  | .ok (.value text) | .ok (.message text) => text ++ "\n"
  | .ok .nothing | .ok .leave => ""
  | .error fault => describe fault ++ "\n"

/-- The command to leave shows nothing. -/
theorem shown_of_leaves {e : Session.Entry} (h : e.leaves = true) : shown e = "" := by
  rw [Session.Entry.leaves] at h
  rw [shown]
  split at h <;> simp_all

/-- The report of a dialogue over some lines: each is shown behind a prompt, up to the command to
leave or to a last prompt at the end of the input. -/
def dialogueReport (taken : List Session.Entry) : Report where
  out := String.join (taken.map fun e => prompt ++ shown e) ++
    if taken.any Session.Entry.leaves then "" else prompt ++ "\n"

/-- The report of a script over some lines, which come behind so many others: each is shown, but
for an error in the last, which is logged and reported with the number of its line. -/
def scriptReport (log : Log) (path : String) (skipped : Nat) (taken : List Session.Entry) : Report :=
  match taken.getLast? with
  | none => {}
  | some last =>
    if last.fails then
      { code := 1
        out := String.join (taken.dropLast.map shown)
        err := s!"{scriptLabel log path (skipped + taken.length)}: {shown last}" }
    else { out := String.join (taken.map shown) }

/-- A dialogue stops at a line of text if it is the command to leave, and shows it otherwise. -/
theorem turn_toUTF8 (s : Session) (line : String) :
    turn s line.toUTF8 =
      if (Session.Entry.mk s line).leaves then .stop {}
      else .goOn (shown ⟨s, line⟩) (s.line line).session := by
  have hentry : (Session.Entry.mk s line).step = s.line line := rfl
  rw [turn, Source.decode_toUTF8, Session.Entry.leaves, shown, hentry]
  simp only
  split <;> simp_all

theorem dialogueReport_cons {e : Session.Entry} (h : e.leaves = false)
    (taken : List Session.Entry) :
    dialogueReport (e :: taken) = ((dialogueReport taken).after (shown e)).after prompt := by
  simp [dialogueReport, Report.after, h, String.append_assoc]

/-- A dialogue over lines of text shows their history up to the command to leave. -/
theorem dialogue_eq (s : Session) (lines : List String) :
    dialogue s (lines.map String.toUTF8) =
      dialogueReport (upTo Session.Entry.leaves (s.history lines)) := by
  induction lines generalizing s with
  | nil => rfl
  | cons line rest ih =>
      rw [List.map_cons, dialogue, turn_toUTF8, Session.history, upTo]
      cases hleaves : (Session.Entry.mk s line).leaves with
      | true =>
          simp [dialogueReport, hleaves, shown_of_leaves hleaves, Report.after]
      | false =>
          simp only [Bool.false_eq_true, if_false]
          rw [ih, dialogueReport_cons hleaves]

/-- A script stops at a line that fails, with its number, and at the command to leave; any other
line is shown. -/
theorem batch_cons (s : Session) (label line : String) (rest : List (String × String)) :
    batch s ((label, line) :: rest) =
      if (Session.Entry.mk s line).fails then { code := 1, err := s!"{label}: {shown ⟨s, line⟩}" }
      else if (Session.Entry.mk s line).leaves then {}
      else (batch (s.line line).session rest).after (shown ⟨s, line⟩) := by
  have hentry : (Session.Entry.mk s line).step = s.line line := rfl
  rw [batch, Session.Entry.fails, Session.Entry.leaves, shown, hentry]
  split <;> simp_all [Report.after, toString, String.append_assoc]

theorem scriptReport_cons {e : Session.Entry} (h : e.fails = false) (log : Log) (path : String)
    (skipped : Nat) (taken : List Session.Entry) :
    scriptReport log path skipped (e :: taken) =
      (scriptReport log path (skipped + 1) taken).after (shown e) := by
  cases taken with
  | nil => simp [scriptReport, h, Report.after]
  | cons e' taken =>
      have hcount : skipped + 1 + (taken.length + 1) = skipped + (taken.length + 1 + 1) := by omega
      simp only [scriptReport, List.getLast?_cons_cons, List.dropLast_cons_cons, List.map_cons,
        String.join_cons, List.length_cons, hcount]
      split
      · simp at *
      · split <;> simp [Report.after]

/-- A script over lines of text shows their history up to the first error or the command to
leave. -/
theorem batch_eq (log : Log) (path : String) (s : Session) (lines : List String) (skipped : Nat) :
    batch s ((lines.zipIdx (skipped + 1)).map fun (line, n) => (scriptLabel log path n, line)) =
      scriptReport log path skipped (upTo Session.Entry.halts (s.history lines)) := by
  induction lines generalizing s skipped with
  | nil => rfl
  | cons line rest ih =>
      rw [List.zipIdx_cons, List.map_cons, batch_cons, Session.history, upTo, Session.Entry.halts]
      cases hfails : (Session.Entry.mk s line).fails with
      | true => simp [scriptReport, hfails, toString]
      | false =>
          cases hleaves : (Session.Entry.mk s line).leaves with
          | true => simp [scriptReport, hfails, shown_of_leaves hleaves]
          | false =>
              simp only [Bool.or_self, Bool.false_eq_true, if_false]
              rw [ih, scriptReport_cons hfails]

/-- A line with its end on it shows what the line shows, but for a fault at the end of the line. -/
theorem shown_of_sameButEnd {e e' : Session.Entry} (h : e.SameButEnd e')
    (hend : ∀ error, e.step.result = .error (.evaluation error) →
      error.place ≠ Place.behind e.line.toList) : shown e' = shown e := by
  have hresult : e'.step.result = e.step.result := by
    rw [h.result]
    cases hresult : e.step.result with
    | ok outcome => rfl
    | error fault =>
        cases fault with
        | command fault => rfl
        | evaluation error =>
            rw [Except.mapError, LineFault.move, Located.move_of_ne (hend error hresult)]
  rw [shown, shown, hresult]

/-- A text is typed into a dialogue and run as a script. The dialogue shows all lines up to the
command to leave and exits with code zero; the script shows those up to the first error or the
command to leave, and logs the error before it reports it. On the lines of the script both agree: a
line leads to the same session with the same result and shows the same, but for a fault at the end
of the line, which a dialogue reports behind the newline. -/
theorem dialogue_and_script (w : World) (f : Format) (path text : String)
    (hinput : w.input = text.toUTF8) (hfile : w.file path = .ok text.toUTF8) :
    let s : Session := { format := f }
    let pieces := (Text.pieces (· == '\n') text.toList).map String.ofList
    let typed := upTo Session.Entry.leaves (s.history pieces)
    let taken := upTo Session.Entry.halts (s.history (Text.lines text))
    perform w ⟨.interactive, f⟩ = (dialogueReport typed).after greeting ∧
      (perform w ⟨.interactive, f⟩).code = 0 ∧
      perform w ⟨.script path, f⟩ = scriptReport w.log path 0 taken ∧
      List.Forall₂ (fun e e' => e.SameButEnd e' ∧
          ((∀ error, e.step.result = .error (.evaluation error) →
            error.place ≠ Place.behind e.line.toList) → shown e' = shown e))
        taken (typed.take taken.length) := by
  intro s pieces typed taken
  have htyped : perform w ⟨.interactive, f⟩ = (dialogueReport typed).after greeting := by
    have hbytes : Text.byteLines w.input = pieces.map String.toUTF8 := by
      rw [hinput, Text.byteLines_toUTF8, List.map_map]
      rfl
    simp only [perform, hbytes]
    rw [dialogue_eq]
  have htaken : perform w ⟨.script path, f⟩ = scriptReport w.log path 0 taken := by
    have hscript : perform w ⟨.script path, f⟩ = scriptText w.log s path text := by
      simp only [perform, script, hinput, hfile, Source.decode_toUTF8]
      split
      · rfl
      · simp only [bind, Except.bind, Source.decode_toUTF8]
        rfl
    rw [hscript]
    exact batch_eq w.log path s (Text.lines text) 0
  refine ⟨htyped, ?_, htaken, ?_⟩
  · rw [htyped]
    rfl
  · have hpieces : ∀ piece ∈ Text.pieces (· == '\n') text.toList, '\n' ∉ piece.dropLast := by
      intro piece hpiece hmem
      have := Text.ends_of_mem_pieces hpiece '\n' hmem
      simp at this
    have hends : ∀ e e' : Session.Entry, e.SameButEnd e' → e'.leaves = true → e.halts = true := by
      intro e e' h hleaves
      rw [Session.Entry.halts, ← h.leaves_eq, hleaves, Bool.true_or]
    have hsame := forall₂_upTo hends (s.forall₂_history hpieces)
    exact hsame.imp fun e e' h => ⟨h, shown_of_sameButEnd h⟩

/-- A dialogue over an expression that ends too early. -/
theorem dialogue_and_script_unfinished :
    let w : World := ⟨"1 +\n".toUTF8, fun _ => .ok "1 +\n".toUTF8, .off⟩
    w.input = "1 +\n".toUTF8 ∧ w.file "sum" = .ok "1 +\n".toUTF8 ∧
      perform w ⟨.interactive, {}⟩ =
        (dialogueReport (upTo Session.Entry.leaves
          (Session.history {} ["1 +\n"]))).after greeting :=
  ⟨rfl, rfl, (dialogue_and_script _ {} "sum" "1 +\n" rfl rfl).1⟩

/-- What a dialogue and a script report of an expression that ends too early differs in the place of
the error: the start of the next line, and the end of the line. -/
theorem dialogue_ne_script_unfinished :
    let w : World := ⟨"1 +\n".toUTF8, fun _ => .ok "1 +\n".toUTF8, .off⟩
    perform w ⟨.interactive, {}⟩ =
        { out := greeting ++ prompt ++ "ERROR: primary expected at line 2, column 1\n" ++
            prompt ++ "\n" } ∧
      perform w ⟨.script "sum", {}⟩ =
        { code := 1, err := "sum:1: ERROR: primary expected at line 1, column 4\n" } := by
  decide +kernel

end Shell

end Reckoner
