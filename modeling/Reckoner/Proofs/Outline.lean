import Reckoner.Proofs.Pending

/-!
# The outline of an expression

Which texts are expressions, and where the others go wrong, is decided without any arithmetic. A
scan from left to right wants an operand or has one. It keeps the open frames, groups and
assignments, and counts how deeply an operand is nested: the signs in front of it and the frames
around it.

The outline is the picture of the evaluation that forgets all values. Each step of the evaluation
is a step of its picture, unless it divides by zero.
-/

namespace Reckoner

inductive Opener where
  | group
  | assignment
deriving DecidableEq, Repr

/-- An open frame, and the count of nesting with which an operand starts in it. -/
structure Level where
  opener : Opener
  count : Nat

/-- How far the scan of an expression has come. -/
inductive Outline where
  /-- It wants an operand, so deeply nested. -/
  | wants (count : Nat) (levels : List Level)
  /-- It has read a variable. That is an operand, unless a `=` follows. -/
  | named (count : Nat) (levels : List Level)
  /-- It has an operand. -/
  | has (levels : List Level)

namespace Outline

def startingCount : List Level → Nat
  | [] => 0
  | level :: _ => level.count

/-- Nest one more time, at the given place. -/
def enter (count : Nat) (place : Place) (next : Outline) : Except EvalError Outline :=
  if count = Evaluation.maxNesting then .error ⟨.tooDeep, place⟩ else .ok next

def follow (levels : List Level) (t : Token) : Except EvalError Outline :=
  match t.kind with
  | .plus | .minus | .times | .divide | .power => .ok (.wants (startingCount levels) levels)
  | .rightParen =>
    match levels with
    | ⟨.group, _⟩ :: outer => .ok (.has outer)
    | _ => .error ⟨.unopenedGroup, t.place⟩
  | .bad fault => .error ⟨.token fault, t.place⟩
  | _ => .error ⟨.misplaced, t.place⟩

def step (o : Outline) (t : Token) : Except EvalError Outline :=
  match o with
  | .wants count levels =>
    match t.kind with
    | .number _ => .ok (.has levels)
    | .name _ => .ok (.named count levels)
    | .plus | .minus => enter count t.place (.wants (count + 1) levels)
    | .leftParen =>
      enter count t.place (.wants (count + 1) (⟨.group, count + 1⟩ :: levels))
    | .bad fault => .error ⟨.token fault, t.place⟩
    | _ => .error ⟨.operandExpected, t.place⟩
  | .named count levels =>
    match t.kind with
    | .assign =>
      enter count t.place (.wants (count + 1) (⟨.assignment, count + 1⟩ :: levels))
    | _ => follow levels t
  | .has levels => follow levels t

/-- Take all of some tokens, or stop at the first that is refused. -/
def pass (o : Outline) (ts : List Token) : Except EvalError Outline :=
  ts.foldlM step o

/-- The end of a text behind an operand: all groups have to be closed. -/
def accept (finish : Place) (levels : List Level) : Except EvalError Unit :=
  if levels.any (·.opener = .group) then .error ⟨.unclosedGroup, finish⟩ else .ok ()

def close (finish : Place) : Outline → Except EvalError Unit
  | .wants .. => .error ⟨.operandExpected, finish⟩
  | .named _ levels => accept finish levels
  | .has levels => accept finish levels

/-- Whether the tokens of a text are an expression, or its first error. -/
def verdict (scan : Scan) : Except EvalError Unit :=
  (pass (.wants 0 []) scan.tokens).bind (close scan.finish)

end Outline

/-! ### The picture of an evaluation -/

namespace Evaluation

def levels : List Frame → List Level
  | [] => []
  | .group :: below => ⟨.group, depth below + 1⟩ :: levels below
  | .assignment _ :: below => ⟨.assignment, depth below + 1⟩ :: levels below
  | .sign _ :: below | .operation .. :: below => levels below

def State.outline : State → Outline
  | .operand stack => .wants (depth stack) (levels stack)
  | .named _ stack => .named (depth stack) (levels stack)
  | .operator _ stack => .has (levels stack)

/-- A computation has the other one as its picture, unless it divides by zero. -/
def Pictured {α β : Type} (picture : α → β) (x : Except EvalError α) (y : Except EvalError β) :
    Prop :=
  (∃ place, x = .error ⟨.zeroDivisor, place⟩) ∨ x.map picture = y

variable {store : Store} {ts us : List Token} {t : Token} {stack below : List Frame} {e : Expr}
variable {v result : Float}

/-- A reduction leaves the open frames. -/
theorem levels_of_reduce {k : Nat} (h : reduce k v stack = .ok (result, below)) :
    levels below = levels stack := by
  fun_induction reduce k v stack with
  | case1 value negative rest ih => exact ih h
  | case2 value left op place rest hle applied happly ih => exact ih h
  | case3 value left op place rest hle f happly => simp at h
  | case4 value left op place rest hlt =>
      obtain ⟨-, rfl⟩ := by simpa only [Except.ok.injEq, Prod.mk.injEq] using h
      rfl
  | case5 value stack hsign hoperation =>
      obtain ⟨-, rfl⟩ := by simpa only [Except.ok.injEq, Prod.mk.injEq] using h
      rfl

/-- Once the signs of an operand are applied, all nesting comes from the open frames. -/
theorem startingCount_levels (hpending : Pending store ts stack) {k : Nat} (h : Blocks k stack) :
    Outline.startingCount (levels stack) = depth stack := by
  induction hpending generalizing k with
  | nil => rfl
  | sign negative below room kind ih => exact h.elim
  | operation below operand closed strong blocks kind ih =>
      rw [levels, depth_operation]
      exact ih blocks
  | group below room kind => simp [levels, Outline.startingCount]
  | assignment n below room name kind => simp [levels, Outline.startingCount]

theorem pictured_nest {frame : Frame} {next : Outline} (place : Place)
    (hdepth : depth stack ≤ maxNesting) (hnext : (State.operand (frame :: stack)).outline = next) :
    Pictured State.outline (nest frame stack place) (Outline.enter (depth stack) place next) := by
  right
  rw [nest, Outline.enter]
  by_cases hroom : depth stack < maxNesting
  · rw [if_pos hroom, if_neg (Nat.ne_of_lt hroom), ← hnext]
    rfl
  · rw [if_neg hroom, if_pos (by omega)]
    rfl

theorem pictured_takeOperand (hpending : Pending store ts stack) (t : Token) :
    Pictured State.outline (takeOperand stack t)
      (Outline.step (.wants (depth stack) (levels stack)) t) := by
  have hnest {frame : Frame} {next : Outline}
      (h : (State.operand (frame :: stack)).outline = next) :=
    pictured_nest t.place hpending.depth_le h
  rw [takeOperand.eq_def, Outline.step]
  cases t.kind with
  | plus => exact hnest (by simp [State.outline, levels])
  | minus => exact hnest (by simp [State.outline, levels])
  | leftParen => exact hnest (by simp [State.outline, levels])
  | _ => exact .inr rfl

/-- A token that is no operator meets the topmost open frame. -/
theorem pictured_takeOther (hop : Operator.ofKind? t.kind = none) (hblocks : Blocks 0 stack)
    (v : Float) :
    Pictured State.outline (takeOther v stack t) (Outline.follow (levels stack) t) := by
  right
  rw [takeOther.eq_def, Outline.follow.eq_def]
  cases hkind : t.kind with
  | rightParen =>
      cases stack with
      | nil => rfl
      | cons frame outer =>
          cases frame with
          | group => rfl
          | assignment n => rfl
          | sign negative => exact hblocks.elim
          | operation left op place => exact absurd hblocks (Nat.not_lt_zero _)
  | plus => simp [hkind, Operator.ofKind?] at hop
  | minus => simp [hkind, Operator.ofKind?] at hop
  | times => simp [hkind, Operator.ofKind?] at hop
  | divide => simp [hkind, Operator.ofKind?] at hop
  | power => simp [hkind, Operator.ofKind?] at hop
  | _ => rfl

theorem pictured_takeOperator (hpending : Pending store ts stack)
    (hoperand : Operand store stack us e v) (hclosed : e.Closed)
    (hprimary : e.strength = Expr.primary) (t : Token) :
    Pictured State.outline (takeOperator v stack t) (Outline.follow (levels stack) t) := by
  have hreduced {k : Nat} (hk : k ≤ Expr.primary) : Reduced store k (ts ++ us) (reduce k v stack) :=
    reduced hpending hoperand hclosed (hprimary ▸ hk)
  rw [takeOperator]
  cases hop : Operator.ofKind? t.kind with
  | some op =>
      have hstrong := hreduced op.strength_lt_primary.le
      dsimp only
      cases hreduce : reduce op.strength v stack with
      | ok pair =>
          obtain ⟨result, below⟩ := pair
          rw [hreduce] at hstrong
          cases hstrong with
          | settled split pending operand closed strong blocks =>
              right
              rw [← levels_of_reduce hreduce, Outline.follow.eq_def, Operator.kind_of_ofKind? hop,
                startingCount_levels pending blocks]
              cases op <;> simp [Operator.mark, Mark.kind, State.outline, levels, bind, Except.bind,
                pure, Except.pure, Except.map]
      | error f =>
          rw [hreduce] at hstrong
          cases hstrong with
          | zeroDivision split division closed weak => exact .inl ⟨_, rfl⟩
  | none =>
      have hall := hreduced (Nat.zero_le _)
      dsimp only
      cases hreduce : reduce 0 v stack with
      | ok pair =>
          obtain ⟨result, below⟩ := pair
          rw [← levels_of_reduce hreduce]
          exact pictured_takeOther hop (blocks_of_reduce hreduce) result
      | error f =>
          rw [hreduce] at hall
          cases hall with
          | zeroDivision split division closed weak => exact .inl ⟨_, rfl⟩

/-- The picture of a step is a step of the picture. -/
theorem pictured_step {s : State} (hstands : Stands store ts s) (t : Token) :
    Pictured State.outline (step store s t) (Outline.step s.outline t) := by
  cases hstands with
  | operand pending => exact pictured_takeOperand pending t
  | @named ts stack u n pending kind =>
      have hfetch := pending.leaf (.fetch kind) rfl rfl
      have hother := pictured_takeOperator pending hfetch trivial rfl t
      have hassign : Pictured State.outline (nest (.assignment n.text) stack t.place) _ :=
        pictured_nest t.place pending.depth_le rfl
      rw [step, State.outline, Outline.step]
      cases hkind : t.kind with
      | assign => simpa [State.outline, levels] using hassign
      | _ => exact hother
  | operator pending operand closed primary unnamed =>
      exact pictured_takeOperator pending operand closed primary t

/-- The picture of a run is a run of the picture. -/
theorem pictured_advance {s : State} (hstands : Stands store ts s)
    (hspelled : ∀ t ∈ us, t.Spelled) :
    Pictured State.outline (advance store s us) (Outline.pass s.outline us) := by
  induction us generalizing ts s with
  | nil => exact .inr rfl
  | cons t rest ih =>
      have heffect := effect_step hstands (hspelled t List.mem_cons_self)
      have hstep := pictured_step hstands t
      rw [advance, Outline.pass, List.foldlM_cons]
      cases h : step store s t with
      | error f =>
          obtain ⟨place, hzero⟩ | hsame := h ▸ hstep
          · exact .inl ⟨place, by rw [hzero]; rfl⟩
          · exact .inr (by rw [← hsame]; rfl)
      | ok next =>
          rw [h] at heffect hstep
          cases heffect with
          | next stands =>
              obtain ⟨place, hzero⟩ | hsame := hstep
              · simp at hzero
              · rw [← hsame]
                apply ih stands
                intro u hu
                exact hspelled u (List.mem_cons_of_mem t hu)

theorem pictured_unwind (finish : Place) (s : Store) (v : Float) (stack : List Frame) :
    Pictured (fun _ => ()) (unwind finish s v stack).result
      (Outline.accept finish (levels stack)) := by
  induction stack generalizing s v with
  | nil => exact .inr rfl
  | cons frame below ih =>
      cases frame with
      | sign negative => exact ih s _
      | operation left op place =>
          rw [unwind, levels]
          cases happly : op.apply place left v with
          | ok c => exact ih s c
          | error f =>
              obtain ⟨-, -, rfl⟩ := Operator.apply_eq_error happly
              exact .inl ⟨place, rfl⟩
      | group =>
          right
          simp [unwind, levels, Outline.accept, Except.map]
      | assignment n =>
          have hsame : Outline.accept finish (levels (.assignment n :: below)) =
              Outline.accept finish (levels below) := by
            simp [levels, Outline.accept]
          rw [hsame]
          exact ih _ v

theorem pictured_close (finish : Place) (store : Store) (s : State) :
    Pictured (fun _ => ()) (close finish store s).result (Outline.close finish s.outline) := by
  cases s with
  | operand stack => exact .inr rfl
  | named name stack => exact pictured_unwind finish store (store.value name) stack
  | operator v stack => exact pictured_unwind finish store v stack

/-- An evaluation succeeds or fails as the outline of its tokens does, unless it divides by zero. -/
theorem pictured_run (hspelled : ∀ t ∈ ts, t.Spelled) (finish : Place) :
    Pictured (fun _ => ()) (run finish store (.operand []) ts).result
      (Outline.verdict ⟨ts, finish⟩) := by
  have hadvance : Pictured State.outline (advance store (.operand []) ts)
      (Outline.pass (.wants 0 []) ts) := pictured_advance .start hspelled
  rw [run_eq_of_advance]
  show Pictured _ _ ((Outline.pass (.wants 0 []) ts).bind (Outline.close finish))
  cases h : advance store (.operand []) ts with
  | error f =>
      obtain ⟨place, hzero⟩ | hsame := h ▸ hadvance
      · obtain rfl := Except.error.inj hzero
        exact .inl ⟨place, rfl⟩
      · exact .inr (by rw [← hsame]; rfl)
  | ok last =>
      obtain ⟨place, hzero⟩ | hsame := h ▸ hadvance
      · simp at hzero
      · rw [← hsame]
        exact pictured_close finish store last

end Evaluation

end Reckoner
