import Reckoner.Proofs.Run
import Reckoner.Proofs.Segmentation
import Reckoner.Session

/-!
# Places are only reported

The place of a token comes back in an error, at once or after it has waited on the stack with an
operator. Nothing is decided by it. So any function on places may be applied to the tokens and the
end of a text: it moves the errors by the same function and changes no value, no store and no
request. What does not depend on places depends on the kinds of the tokens alone.
-/

namespace Reckoner

def Token.relocate (f : Place → Place) (t : Token) : Token := ⟨t.kind, f t.place⟩

@[simp] theorem Token.relocate_kind (f : Place → Place) (t : Token) :
    (t.relocate f).kind = t.kind := rfl

def Located.relocate {α : Type} (f : Place → Place) (e : Located α) : Located α :=
  ⟨e.cause, f e.place⟩

def Frame.relocate (f : Place → Place) : Frame → Frame
  | .operation left op place => .operation left op (f place)
  | frame => frame

@[simp] theorem Frame.isNesting_relocate (f : Place → Place) (frame : Frame) :
    (frame.relocate f).isNesting = frame.isNesting := by
  cases frame <;> rfl

namespace Evaluation

def relocateAll (f : Place → Place) (stack : List Frame) : List Frame :=
  stack.map (Frame.relocate f)

def State.relocate (f : Place → Place) : State → State
  | .operand stack => .operand (relocateAll f stack)
  | .named name stack => .named name (relocateAll f stack)
  | .operator value stack => .operator value (relocateAll f stack)

def relocate (f : Place → Place) (r : Evaluation) : Evaluation :=
  ⟨r.result.mapError (Located.relocate f), r.store⟩

/-- A computation with its error moved and its value changed by a function of its own. -/
def moved {α β : Type} (f : Place → Place) (g : α → β) : Except EvalError α → Except EvalError β
  | .ok a => .ok (g a)
  | .error e => .error (e.relocate f)

variable (f : Place → Place)

theorem moved_bind {α β γ δ : Type} {g : α → γ} {g' : β → δ} {next : α → Except EvalError β}
    {next' : γ → Except EvalError δ} (h : ∀ a, next' (g a) = moved f g' (next a))
    (x : Except EvalError α) : moved f g x >>= next' = moved f g' (x >>= next) := by
  cases x with
  | ok a => exact h a
  | error e => rfl

@[simp] theorem depth_relocateAll (stack : List Frame) :
    depth (relocateAll f stack) = depth stack := by
  simp [depth, relocateAll, List.countP_map, Function.comp_def]

/-! ### Steps -/

/-- An operation is reported at its place if it fails. -/
theorem apply_relocate (op : Operator) (place : Place) (left right : Float) :
    op.apply (f place) left right = moved f id (op.apply place left right) := by
  cases op with
  | divide =>
      simp only [Operator.apply]
      split <;> rfl
  | _ => rfl

theorem reduce_relocate (strength : Nat) (value : Float) (stack : List Frame) :
    reduce strength value (relocateAll f stack) =
      moved f (fun r => (r.1, relocateAll f r.2)) (reduce strength value stack) := by
  induction stack generalizing value with
  | nil => rfl
  | cons frame below ih =>
      cases frame with
      | sign negative => exact ih (signed negative value)
      | operation left op place =>
          change reduce strength value
            (.operation left op (f place) :: relocateAll f below) = _
          rw [reduce, reduce, apply_relocate]
          split
          · cases op.apply place left value with
            | ok result => exact ih result
            | error e => rfl
          · rfl
      | group => rfl
      | assignment name => rfl

theorem nest_relocate (frame : Frame) (stack : List Frame) (place : Place) :
    nest (frame.relocate f) (relocateAll f stack) (f place) =
      moved f (State.relocate f) (nest frame stack place) := by
  rw [nest, nest, depth_relocateAll]
  split <;> rfl

variable (t : Token)

theorem takeOperand_relocate (stack : List Frame) :
    takeOperand (relocateAll f stack) (t.relocate f) =
      moved f (State.relocate f) (takeOperand stack t) := by
  obtain ⟨kind, place⟩ := t
  cases kind with
  | plus => exact nest_relocate f (.sign false) stack place
  | minus => exact nest_relocate f (.sign true) stack place
  | leftParen => exact nest_relocate f .group stack place
  | _ => rfl

theorem takeOther_relocate (value : Float) (stack : List Frame) :
    takeOther value (relocateAll f stack) (t.relocate f) =
      moved f (State.relocate f) (takeOther value stack t) := by
  obtain ⟨kind, place⟩ := t
  cases kind with
  | rightParen =>
      cases stack with
      | nil => rfl
      | cons frame below => cases frame <;> rfl
  | _ => rfl

theorem takeOperator_relocate (value : Float) (stack : List Frame) :
    takeOperator value (relocateAll f stack) (t.relocate f) =
      moved f (State.relocate f) (takeOperator value stack t) := by
  rw [takeOperator, takeOperator, Token.relocate_kind]
  cases Operator.ofKind? t.kind with
  | some op =>
      simp only [reduce_relocate]
      apply moved_bind
      intro r
      rfl
  | none =>
      simp only [reduce_relocate]
      apply moved_bind
      intro r
      exact takeOther_relocate f t r.1 r.2

theorem step_relocate (store : Store) (s : State) :
    step store (s.relocate f) (t.relocate f) = moved f (State.relocate f) (step store s t) := by
  cases s with
  | operand stack => exact takeOperand_relocate f t stack
  | named name stack =>
      simp only [State.relocate, step, Token.relocate_kind]
      split
      · exact nest_relocate f (.assignment name) stack t.place
      · exact takeOperator_relocate f t (store.value name) stack
  | operator value stack => exact takeOperator_relocate f t value stack

/-! ### Runs -/

theorem unwind_relocate (finish : Place) (store : Store) (value : Float) (stack : List Frame) :
    unwind (f finish) store value (relocateAll f stack) =
      (unwind finish store value stack).relocate f := by
  induction stack generalizing store value with
  | nil => rfl
  | cons frame below ih =>
      cases frame with
      | sign negative => exact ih store (signed negative value)
      | operation left op place =>
          change unwind (f finish) store value
            (.operation left op (f place) :: relocateAll f below) = _
          rw [unwind, unwind, apply_relocate]
          cases op.apply place left value with
          | ok result => exact ih store result
          | error e => rfl
      | group => rfl
      | assignment name => exact ih (store.insert name value) value

theorem close_relocate (finish : Place) (store : Store) (s : State) :
    close (f finish) store (s.relocate f) = (close finish store s).relocate f := by
  cases s with
  | operand stack => rfl
  | named name stack => exact unwind_relocate f finish store (store.value name) stack
  | operator value stack => exact unwind_relocate f finish store value stack

/-- A run over moved tokens is the run over the tokens, with its error moved. -/
theorem run_relocate (finish : Place) (store : Store) (s : State) (ts : List Token) :
    run (f finish) store (s.relocate f) (ts.map (Token.relocate f)) =
      (run finish store s ts).relocate f := by
  induction ts generalizing s with
  | nil => exact close_relocate f finish store s
  | cons t rest ih =>
      rw [List.map_cons, run, run, step_relocate]
      cases step store s t with
      | ok next => exact ih next
      | error e => rfl

end Evaluation

/-! ### Requests and lines -/

variable (f : Place → Place)

@[simp] theorem Token.fault?_relocate (t : Token) : (t.relocate f).fault? = t.fault? := rfl

theorem Command.accepts_relocate (c : Command) (arguments : List Token) :
    c.accepts (arguments.map (Token.relocate f)) = c.accepts arguments := by
  have hparameter (p : Parameter) (t : Token) : p.accepts (t.relocate f) = p.accepts t := rfl
  simp [accepts, List.zip_map_right, List.all_map, Function.comp_def, hparameter]

namespace Request

def relocate (r : Request) : Request :=
  ⟨r.command, r.arguments.map (Token.relocate f)⟩

theorem collect_relocate (room : Nat) (ts : List Token) :
    collect room (ts.map (Token.relocate f)) =
      (collect room ts).map (List.map (Token.relocate f)) := by
  induction ts generalizing room with
  | nil => cases room <;> rfl
  | cons t rest ih =>
      rw [List.map_cons, collect.eq_def, collect.eq_def room]
      dsimp only
      rw [Token.fault?_relocate]
      cases t.fault? with
      | some fault => rfl
      | none =>
          cases room with
          | zero => rfl
          | succ room =>
              simp only [ih]
              cases collect room rest <;> rfl

/-- The request of moved tokens has moved arguments. -/
theorem ofTokens?_relocate (ts : List Token) :
    ofTokens? (ts.map (Token.relocate f)) = (ofTokens? ts).map (Option.map (relocate f)) := by
  cases ts with
  | nil => rfl
  | cons first rest =>
      rw [List.map_cons, ofTokens?, ofTokens?, Token.relocate_kind]
      cases first.kind with
      | word name =>
          dsimp only
          cases Command.ofName? name with
          | none => rfl
          | some command =>
              simp only [collect_relocate]
              cases collect command.maxArguments rest with
              | error fault => rfl
              | ok arguments =>
                  simp only [Except.map, Command.accepts_relocate]
                  split <;> rfl
      | _ => rfl

end Request

def LineFault.cause : LineFault → CommandFault ⊕ EvalFault
  | .command fault => .inl fault
  | .evaluation e => .inr e.cause

def Request.kinds (r : Request) : Command × List Token.Kind :=
  (r.command, r.arguments.map Token.kind)

/-! ### Texts with tokens of the same kinds -/

section Kinds

variable {text text' : String}

/-- Moved to one place, tokens of the same kinds are the same. -/
theorem Token.map_relocate_eq {ts us : List Token} (h : ts.map Token.kind = us.map Token.kind)
    (p : Place) : ts.map (relocate fun _ => p) = us.map (relocate fun _ => p) := by
  have hkind : relocate (fun _ => p) = (Token.mk · p) ∘ Token.kind := rfl
  rw [hkind, ← List.map_map, ← List.map_map, h]

/-- Texts with tokens of the same kinds have the same value or cause of failure, and the same effect
on the store. -/
theorem evaluate_of_kinds
    (h : (Scan.ofText text).tokens.map Token.kind = (Scan.ofText text').tokens.map Token.kind)
    (store : Store) :
    (evaluate store text).result.mapError Located.cause =
        (evaluate store text').result.mapError Located.cause ∧
      (evaluate store text).store = (evaluate store text').store := by
  let f : Place → Place := fun _ => Place.start
  have hrelocate : (evaluate store text).relocate f = (evaluate store text').relocate f := by
    have hstate : (Evaluation.State.operand []).relocate f = .operand [] := rfl
    have hrun (scan : Scan) :=
      Evaluation.run_relocate f scan.finish store (.operand []) scan.tokens
    rw [evaluate, evaluate, Evaluation.ofScan, Evaluation.ofScan, ← hrun, ← hrun,
      Token.map_relocate_eq h]
  have hcause (r : Except EvalError Float) :
      r.mapError Located.cause = (r.mapError (Located.relocate f)).mapError Located.cause := by
    cases r <;> rfl
  obtain ⟨hresult, hstore⟩ := Evaluation.mk.inj hrelocate
  exact ⟨by rw [hcause, hresult, ← hcause], hstore⟩

/-- Lines with tokens of the same kinds make the same request, or are the same fault of a command,
or are both expressions. -/
theorem Request.ofLine?_of_kinds
    (h : (Scan.ofText text).tokens.map Token.kind = (Scan.ofText text').tokens.map Token.kind) :
    (ofLine? text).map (Option.map kinds) = (ofLine? text').map (Option.map kinds) := by
  let f : Place → Place := fun _ => Place.start
  have hkinds (r : Except CommandFault (Option Request)) :
      r.map (Option.map kinds) = (r.map (Option.map (relocate f))).map (Option.map kinds) := by
    obtain fault | _ | r := r
    · rfl
    · rfl
    · simp [Except.map, kinds, relocate, Function.comp_def]
  rw [ofLine?, ofLine?, hkinds, ← ofTokens?_relocate, Token.map_relocate_eq h, ofTokens?_relocate,
    ← hkinds]

/-- A line is taken by its request and, if it makes none, as an expression. -/
theorem Session.line_eq (s : Session) (text : String) :
    s.line text =
      if text.toList.all Text.isBlank then ⟨.ok .nothing, s⟩
      else
        match (Request.ofLine? text).map (Option.map Request.kinds) with
        | .error fault => ⟨.error (.command fault), s⟩
        | .ok (some (c, kinds)) => s.command c (kinds.map fun k => (Token.mk k .start).number)
        | .ok none => s.expression text := by
  rw [line]
  split
  · rfl
  · cases Request.ofLine? text with
    | error fault => rfl
    | ok request? =>
        cases request? with
        | none => rfl
        | some r =>
            simp only [Except.map, Option.map, Request.kinds, List.map_map]
            rfl

/-- Lines with tokens of the same kinds have the same outcome or cause of failure and lead to the
same session. -/
theorem Session.line_of_kinds
    (h : (Scan.ofText text).tokens.map Token.kind = (Scan.ofText text').tokens.map Token.kind)
    (s : Session) :
    (s.line text).result.mapError LineFault.cause =
        (s.line text').result.mapError LineFault.cause ∧
      (s.line text).session = (s.line text').session := by
  have hblank : text.toList.all Text.isBlank = text'.toList.all Text.isBlank := by
    have hnil : (Scan.ofText text).tokens = [] ↔ (Scan.ofText text').tokens = [] := by
      rw [← List.map_eq_nil_iff (f := Token.kind), h, List.map_eq_nil_iff]
    rw [Segment.tokens_eq_nil_iff, Segment.tokens_eq_nil_iff] at hnil
    rw [Bool.eq_iff_iff, List.all_eq_true, List.all_eq_true]
    exact hnil
  rw [line_eq, line_eq, hblank, Request.ofLine?_of_kinds h]
  split
  · exact ⟨rfl, rfl⟩
  · split
    · exact ⟨rfl, rfl⟩
    · exact ⟨rfl, rfl⟩
    · obtain ⟨hresult, hstore⟩ := evaluate_of_kinds h s.store
      simp only [expression, hstore, and_true]
      cases hfirst : (evaluate s.store text).result <;>
        cases hsecond : (evaluate s.store text').result <;>
        simp_all [Except.mapError, LineFault.cause]

end Kinds

end Reckoner
