import Reckoner.Evaluation

/-!
# Runs over tokens

Evaluation is a run of single steps, so a run over two lists of tokens is a run over the first and
then over the second. `advance` is the run without its end: the state that some tokens lead to, or
the fault at which they stop.

What a completed operand becomes is decided by the next token, which reduces it against the stack.
`settled` describes a run up to that point: the operand and the stack after a reduction of the
given strength. Reducing stops in front of a frame that blocks it, and reducing further continues
from there, so the end of a text may always be seen as a reduction of all operators first.
-/

namespace Reckoner.Evaluation

/-! ### Levels of nesting -/

@[simp] theorem depth_nil : depth [] = 0 := rfl

@[simp] theorem depth_sign (negative : Bool) (below : List Frame) :
    depth (.sign negative :: below) = depth below + 1 :=
  List.countP_cons_of_pos rfl

@[simp] theorem depth_operation (left : Float) (op : Operator) (place : Place)
    (below : List Frame) : depth (.operation left op place :: below) = depth below :=
  List.countP_cons_of_neg Bool.false_ne_true

@[simp] theorem depth_group (below : List Frame) :
    depth (.group :: below) = depth below + 1 :=
  List.countP_cons_of_pos rfl

@[simp] theorem depth_assignment (name : String) (below : List Frame) :
    depth (.assignment name :: below) = depth below + 1 :=
  List.countP_cons_of_pos rfl

theorem nest_of_lt {stack : List Frame} (h : depth stack < maxNesting) (frame : Frame)
    (place : Place) : nest frame stack place = .ok (.operand (frame :: stack)) :=
  if_pos h

/-- Nesting succeeds only where there is room. -/
theorem lt_of_nest {frame : Frame} {stack : List Frame} {place : Place} {next : State}
    (h : nest frame stack place = .ok next) :
    depth stack < maxNesting ∧ next = .operand (frame :: stack) := by
  rw [nest] at h
  split at h
  · exact ⟨‹_›, (Except.ok.inj h).symm⟩
  · simp at h

/-! ### Reduction -/

/-- Whether nothing on top of a stack waits for an operand at the given strength. -/
def Blocks (strength : Nat) : List Frame → Prop
  | .sign _ :: _ => False
  | .operation _ op _ :: _ => op.strength < strength
  | _ => True

@[simp] theorem blocks_nil (strength : Nat) : Blocks strength [] := trivial

@[simp] theorem blocks_group (strength : Nat) (below : List Frame) :
    Blocks strength (.group :: below) := trivial

@[simp] theorem blocks_assignment (strength : Nat) (name : String) (below : List Frame) :
    Blocks strength (.assignment name :: below) := trivial

@[simp] theorem blocks_operation (strength : Nat) (left : Float) (op : Operator) (place : Place)
    (below : List Frame) :
    Blocks strength (.operation left op place :: below) ↔ op.strength < strength := Iff.rfl

theorem Blocks.mono {stack : List Frame} {weak strong : Nat} (h : Blocks weak stack)
    (hle : weak ≤ strong) : Blocks strong stack := by
  match stack with
  | [] | .group :: _ | .assignment _ :: _ => trivial
  | .sign _ :: _ => exact h
  | .operation .. :: _ => exact Nat.lt_of_lt_of_le h hle

theorem reduce_of_blocks {stack : List Frame} {strength : Nat} (h : Blocks strength stack)
    (value : Float) : reduce strength value stack = .ok (value, stack) := by
  match stack with
  | [] | .group :: _ | .assignment _ :: _ => rfl
  | .sign _ :: _ => exact h.elim
  | .operation .. :: _ => rw [reduce, if_neg (Nat.not_le.mpr h)]

private theorem blocks_of_shape {stack : List Frame} (strength : Nat)
    (hsign : ∀ negative below, stack = .sign negative :: below → False)
    (hoperation : ∀ left op place below, stack = .operation left op place :: below → False) :
    Blocks strength stack := by
  match stack with
  | [] | .group :: _ | .assignment _ :: _ => trivial
  | .sign _ :: _ => exact (hsign _ _ rfl).elim
  | .operation .. :: _ => exact (hoperation _ _ _ _ rfl).elim

variable {stack below : List Frame} {strength : Nat} {value result : Float}

/-- A reduction ends at a stack that blocks it. -/
theorem blocks_of_reduce (h : reduce strength value stack = .ok (result, below)) :
    Blocks strength below := by
  fun_induction reduce strength value stack with
  | case1 value negative rest ih => exact ih h
  | case2 value left op place rest hle applied happly ih => exact ih h
  | case3 value left op place rest hle e happly => simp at h
  | case4 value left op place rest hlt =>
      obtain ⟨-, rfl⟩ := by simpa only [Except.ok.injEq, Prod.mk.injEq] using h
      exact Nat.not_le.mp hlt
  | case5 value stack hsign hoperation =>
      obtain ⟨-, rfl⟩ := by simpa only [Except.ok.injEq, Prod.mk.injEq] using h
      exact blocks_of_shape strength hsign hoperation

/-- What the end of a text makes of an operand and a stack, or of the fault in their place. -/
def conclude (finish : Place) (store : Store) : Except EvalError (Float × List Frame) → Evaluation
  | .ok (value, stack) => unwind finish store value stack
  | .error e => ⟨.error e, store⟩

/-- The end of a text takes up where a reduction stops, or fails as the reduction does. -/
theorem unwind_eq_conclude (finish : Place) (store : Store) (strength : Nat) (value : Float)
    (stack : List Frame) :
    unwind finish store value stack = conclude finish store (reduce strength value stack) := by
  fun_induction reduce strength value stack with
  | case1 value negative rest ih => rw [unwind, ih]
  | case2 value left op place rest hle applied happly ih =>
      rw [unwind, happly]
      exact ih
  | case3 value left op place rest hle e happly =>
      rw [unwind, happly]
      rfl
  | case4 value left op place rest hlt => rfl
  | case5 value stack hsign hoperation => rfl

/-! ### Operands that were read -/

def State.frames : State → List Frame
  | .operand stack | .named _ stack | .operator _ stack => stack

/-- The operand that was read last and what waits for it. Where an operand is due there is none. A
variable has the value that the store gives it. -/
def State.operand? (store : Store) : State → Option (Float × List Frame)
  | .operand _ => none
  | .named name stack => some (store.value name, stack)
  | .operator value stack => some (value, stack)

variable {store : Store} {s : State} {t : Token}

/-- Behind an operand all tokens are taken alike, but for the mark of an assignment behind a
variable. -/
theorem step_of_operand? (h : s.operand? store = some (value, stack))
    (ht : t.kind = .assign → ∀ name below, s ≠ .named name below) :
    step store s t = takeOperator value stack t := by
  cases s with
  | operand stack => simp [State.operand?] at h
  | named name stack =>
      obtain ⟨rfl, rfl⟩ := by simpa [State.operand?] using h
      rw [step]
      split
      · exact absurd rfl (ht ‹_› name stack)
      · rfl
  | operator value stack =>
      obtain ⟨rfl, rfl⟩ := by simpa [State.operand?] using h
      rfl

theorem close_of_operand? (finish : Place) (h : s.operand? store = some (value, stack)) :
    close finish store s = unwind finish store value stack := by
  cases s with
  | operand stack => simp [State.operand?] at h
  | named name stack =>
      obtain ⟨rfl, rfl⟩ := by simpa [State.operand?] using h
      rfl
  | operator value stack =>
      obtain ⟨rfl, rfl⟩ := by simpa [State.operand?] using h
      rfl

/-! ### Runs -/

variable {ts : List Token} {r : Except EvalError (Float × List Frame)}

/-- The state that some tokens lead to, or the fault at the first that is refused. -/
def advance (store : Store) (s : State) : List Token → Except EvalError State
  | [] => .ok s
  | t :: rest => (step store s t).bind fun next => advance store next rest

theorem run_eq_of_advance (finish : Place) (store : Store) (s : State) (ts : List Token) :
    run finish store s ts =
      match advance store s ts with
      | .ok last => close finish store last
      | .error e => ⟨.error e, store⟩ := by
  induction ts generalizing s with
  | nil => rfl
  | cons t rest ih =>
      rw [run, advance]
      cases step store s t with
      | ok next => exact ih next
      | error e => rfl

theorem advance_append (store : Store) (s : State) (ts us : List Token) :
    advance store s (ts ++ us) =
      (advance store s ts).bind fun middle => advance store middle us := by
  induction ts generalizing s with
  | nil => rfl
  | cons t rest ih =>
      rw [List.cons_append, advance, advance]
      cases step store s t with
      | ok next => exact ih next
      | error e => rfl

theorem exists_of_bind_eq_ok {ε α β : Type} {x : Except ε α} {f : α → Except ε β} {b : β}
    (h : x >>= f = .ok b) : ∃ a, x = .ok a ∧ f a = .ok b := by
  cases x with
  | error e => simp [bind, Except.bind] at h
  | ok a => exact ⟨a, rfl, h⟩

theorem exists_of_advance_cons {last : State} (h : advance store s (t :: ts) = .ok last) :
    ∃ next, step store s t = .ok next ∧ advance store next ts = .ok last :=
  exists_of_bind_eq_ok h

theorem exists_of_advance_append {us : List Token} {last : State}
    (h : advance store s (ts ++ us) = .ok last) :
    ∃ middle, advance store s ts = .ok middle ∧ advance store middle us = .ok last := by
  rw [advance_append] at h
  exact exists_of_bind_eq_ok h

/-- The state behind some tokens is what the step of the last of them leads to. -/
theorem exists_of_advance_append_singleton {last : State}
    (h : advance store s (ts ++ [t]) = .ok last) :
    ∃ middle, advance store s ts = .ok middle ∧ step store middle t = .ok last := by
  obtain ⟨middle, hmiddle, hlast⟩ := exists_of_advance_append h
  obtain ⟨next, hstep, hnext⟩ := exists_of_advance_cons hlast
  obtain rfl := Except.ok.inj hnext
  exact ⟨middle, hmiddle, hstep⟩

theorem run_append {middle : State} (h : advance store s ts = .ok middle) (finish : Place)
    (us : List Token) : run finish store s (ts ++ us) = run finish store middle us := by
  rw [run_eq_of_advance, run_eq_of_advance, advance_append, h]
  rfl

/-- A run that fails does so in one of its steps. -/
theorem exists_step_of_advance_error {f : EvalError} (h : advance store s ts = .error f) :
    ∃ before t after middle, ts = before ++ t :: after ∧ advance store s before = .ok middle ∧
      step store middle t = .error f := by
  induction ts generalizing s with
  | nil => simp [advance] at h
  | cons t rest ih =>
      rw [advance] at h
      cases hstep : step store s t with
      | error e =>
          obtain rfl : e = f := by simpa [hstep, Except.bind] using h
          exact ⟨[], t, rest, s, rfl, rfl, hstep⟩
      | ok next =>
          rw [hstep] at h
          obtain ⟨before, u, after, middle, rfl, hbefore, hfault⟩ := ih h
          refine ⟨t :: before, u, after, middle, rfl, ?_, hfault⟩
          rw [advance, hstep]
          exact hbefore

theorem run_cons {next : State} (h : step store s t = .ok next) (finish : Place)
    (ts : List Token) : run finish store s (t :: ts) = run finish store next ts := by
  rw [run, h]

/-- The last operand of some tokens, reduced at the given strength: its value and the stack that
is left, or the fault at which the run or the reduction stops. There is none where the tokens end
and an operand is due. -/
def settled (store : Store) (strength : Nat) (s : State) (ts : List Token) :
    Option (Except EvalError (Float × List Frame)) :=
  match advance store s ts with
  | .ok last => (last.operand? store).map fun (value, stack) => reduce strength value stack
  | .error e => some (.error e)

theorem settled_cons {next : State} (h : step store s t = .ok next) (strength : Nat)
    (ts : List Token) : settled store strength s (t :: ts) = settled store strength next ts := by
  rw [settled, settled, advance, h]
  rfl

/-- A settled operand is the reduction of one that the run has read, or the fault of the run. -/
theorem settled_cases (h : settled store strength s ts = some r) :
    (∃ last value stack, advance store s ts = .ok last ∧
      last.operand? store = some (value, stack) ∧ reduce strength value stack = r) ∨
    ∃ e, advance store s ts = .error e ∧ r = .error e := by
  rw [settled] at h
  cases hlast : advance store s ts with
  | error e =>
      obtain rfl : Except.error e = r := by simpa [hlast] using h
      exact .inr ⟨e, rfl, rfl⟩
  | ok last =>
      simp only [hlast, Option.map_eq_some_iff] at h
      obtain ⟨⟨value, stack⟩, hoperand, hreduce⟩ := h
      exact .inl ⟨last, value, stack, rfl, hoperand, hreduce⟩

/-- An operator takes the operand that is settled at its strength as its left one. -/
theorem advance_operator {op : Operator} (hop : Operator.ofKind? t.kind = some op)
    (h : settled store op.strength s ts = some r) (rest : List Token) :
    advance store s (ts ++ t :: rest) =
      r.bind fun (left, below) =>
        advance store (.operand (.operation left op t.place :: below)) rest := by
  have hassign : t.kind = .assign → ∀ name below, advance store s ts ≠ .ok (.named name below) := by
    intro heq
    simp [heq, Operator.ofKind?] at hop
  rw [advance_append]
  obtain ⟨last, value, stack, hlast, hoperand, rfl⟩ | ⟨e, hlast, rfl⟩ := settled_cases h
  · have ht : t.kind = .assign → ∀ name below, last ≠ .named name below := by
      rintro heq name below rfl
      exact hassign heq name below hlast
    rw [hlast]
    simp only [Except.bind, advance, step_of_operand? hoperand ht, takeOperator, hop]
    cases reduce op.strength value stack <;> rfl
  · rw [hlast]
    rfl

/-- Any other token behind an operand is judged once all operators are applied. -/
theorem advance_other (hop : Operator.ofKind? t.kind = none)
    (hassign : t.kind = .assign → ∀ name below, advance store s ts ≠ .ok (.named name below))
    (h : settled store 0 s ts = some r) (rest : List Token) :
    advance store s (ts ++ t :: rest) =
      r.bind fun (whole, below) =>
        (takeOther whole below t).bind fun next => advance store next rest := by
  rw [advance_append]
  obtain ⟨last, value, stack, hlast, hoperand, rfl⟩ | ⟨e, hlast, rfl⟩ := settled_cases h
  · have ht : t.kind = .assign → ∀ name below, last ≠ .named name below := by
      rintro heq name below rfl
      exact hassign heq name below hlast
    rw [hlast]
    simp only [Except.bind, advance, step_of_operand? hoperand ht, takeOperator, hop]
    cases reduce 0 value stack <;> rfl
  · rw [hlast]
    rfl

/-- The run over an operation yields what the run behind its operator yields. -/
theorem result_run_operator (finish : Place) {op : Operator}
    (hop : Operator.ofKind? t.kind = some op) (h : settled store op.strength s ts = some r)
    (rest : List Token) :
    (run finish store s (ts ++ t :: rest)).result =
      r.bind fun (left, below) =>
        (run finish store (.operand (.operation left op t.place :: below)) rest).result := by
  rw [run_eq_of_advance, advance_operator hop h]
  cases r with
  | ok reduced => simp only [Except.bind, run_eq_of_advance]
  | error e => rfl

/-- At the end of the text the settled operand goes on through the rest of the stack. -/
theorem run_of_settled (finish : Place) (h : settled store strength s ts = some r) :
    run finish store s ts = conclude finish store r := by
  rw [run_eq_of_advance]
  obtain ⟨last, value, stack, hlast, hoperand, rfl⟩ | ⟨e, hlast, rfl⟩ := settled_cases h
  · rw [hlast]
    simp only [close_of_operand? finish hoperand]
    exact unwind_eq_conclude finish store strength value stack
  · rw [hlast]
    rfl

/-! ### Rests of texts -/

/-- Take the rest of a text, from a cursor on. -/
def resume (store : Store) (s : State) (c : Cursor) : Evaluation :=
  run (Scan.ofCursor c).finish store s (Scan.ofCursor c).tokens

variable {c : Cursor}

theorem resume_of_pull_none (h : c.pull.1 = none) (store : Store) (s : State) :
    resume store s c = close c.pull.2.place store s := by
  rw [resume, Scan.ofCursor_of_pull_none (Prod.ext h rfl)]
  rfl

theorem resume_of_pull_some (h : c.pull.1 = some t) (store : Store) (s : State) :
    resume store s c =
      match step store s t with
      | .ok next => resume store next c.pull.2
      | .error e => ⟨.error e, store⟩ := by
  rw [resume, Scan.ofCursor_of_pull_some (Prod.ext h rfl), run]
  rfl

end Reckoner.Evaluation
