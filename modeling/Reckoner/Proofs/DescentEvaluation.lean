import Reckoner.Proofs.Descent
import Reckoner.Proofs.Run

/-!
# The descent evaluates

The descent and the stack of an evaluation do the same. A part of the descent that is called while
frames wait on the stack gives the value that is complete in front of these frames, with the token
behind it current, or it gives the error at which the evaluation stops. What waits on the stack is
what the calls have still to do: the chains that were left to read an operand, and the signs, groups
and assignments around it. So the primaries that are being read can be counted on the stack, and the
descent also makes its pulls as the evaluation takes the tokens.
-/

namespace Reckoner.Evaluation

/-- The pulls with which the rest of a text is evaluated: one for each token up to the first that
is refused, and one for the end. Each sign, group and assignment that waits is a primary that is
being read, and so is the operand behind them. -/
def pulls (store : Store) (s : State) : List Token → List Descent.Pull
  | [] => [⟨none, depth s.frames + 1⟩]
  | t :: rest =>
    ⟨some t, depth s.frames + 1⟩ ::
      match step store s t with
      | .ok next => pulls store next rest
      | .error _ => []

variable {store : Store} {s next : State} {t : Token} {stack : List Frame} {v : Float}
variable {strength : Nat}

theorem pulls_of_step (h : step store s t = .ok next) (ts : List Token) :
    pulls store s (t :: ts) = ⟨some t, depth s.frames + 1⟩ :: pulls store next ts := by
  rw [pulls, h]

theorem pulls_of_step_error {e : EvalError} (h : step store s t = .error e) (ts : List Token) :
    pulls store s (t :: ts) = [⟨some t, depth s.frames + 1⟩] := by
  rw [pulls, h]

/-! ### Tokens behind an operand -/

theorem reduce_operation {op : Operator} (h : strength ≤ op.strength) (left : Float)
    (place : Place) (v : Float) (stack : List Frame) :
    reduce strength v (.operation left op place :: stack) =
      (op.apply place left v).bind fun w => reduce strength w stack := by
  rw [reduce, if_pos h]
  cases op.apply place left v <;> rfl

theorem takeOperator_operation {op : Operator} {t : Token} {left : Float} {place : Place}
    (h : ∀ next, Operator.ofKind? t.kind = some next → next.strength ≤ op.strength) :
    takeOperator v (.operation left op place :: stack) t =
      (op.apply place left v).bind fun w => takeOperator w stack t := by
  rw [takeOperator]
  split
  · rename_i next hnext
    rw [reduce_operation (h next hnext)]
    cases op.apply place left v with
    | error e => rfl
    | ok w => simp only [Except.bind, takeOperator, hnext]
  · rename_i hnone
    rw [reduce_operation (Nat.zero_le _)]
    cases op.apply place left v with
    | error e => rfl
    | ok w => simp only [Except.bind, takeOperator, hnone]

theorem takeOther_rightParen (h : ¬ ∃ below, stack = .group :: below) (v : Float) (place : Place) :
    takeOther v stack ⟨.rightParen, place⟩ = .error ⟨.unopenedGroup, place⟩ := by
  rw [takeOther.eq_def]
  split
  · exact absurd ⟨_, rfl⟩ h
  · rfl
  all_goals simp_all

end Reckoner.Evaluation

namespace Reckoner.Descent

open Evaluation

variable {r : Reader} {stack : List Frame} {v : Float} {strength active : Nat} {level : Level}

namespace Reader

/-- Evaluate the rest of the text from a state that has taken all tokens. -/
def resume (r : Reader) (s : State) : Evaluation × List Pull :=
  (Evaluation.resume r.store s r.cursor,
    r.pulls ++ Evaluation.pulls r.store s (Scan.ofCursor r.cursor).tokens)

def stop (r : Reader) (e : EvalError) : Evaluation × List Pull := (⟨.error e, r.store⟩, r.pulls)

/-- Evaluate the rest of the text from a state that has still to take the current token. -/
def take (r : Reader) (s : State) : Evaluation × List Pull :=
  match r.current with
  | none => (close r.cursor.place r.store s, r.pulls)
  | some t =>
    match step r.store s t with
    | .ok next => r.resume next
    | .error e => r.stop e

/-- What an evaluation still does with a value behind which the current token follows. -/
def behind (r : Reader) (v : Float) (stack : List Frame) : Evaluation × List Pull :=
  r.take (.operator v stack)

theorem take_of_none (h : r.current = none) (s : State) :
    r.take s = (close r.cursor.place r.store s, r.pulls) := by
  rw [take, h]

theorem take_of_some {t : Token} (h : r.current = some t) (s : State) :
    r.take s =
      match step r.store s t with
      | .ok next => r.resume next
      | .error e => r.stop e := by
  rw [take, h]

theorem resume_eq_take {s : State} (h : active = depth s.frames + 1) :
    r.resume s = (r.pull active).take s := by
  subst h
  cases hpull : r.cursor.pull.1 with
  | none =>
      have hscan := Scan.ofCursor_of_pull_none (Prod.ext hpull rfl)
      simp only [resume, take, pull, hpull, resume_of_pull_none hpull, hscan]
      rfl
  | some t =>
      have hscan := Scan.ofCursor_of_pull_some (Prod.ext hpull rfl)
      rw [take_of_some hpull, pull_store, resume, resume_of_pull_some hpull, hscan]
      cases hstep : step r.store s t with
      | ok next =>
          rw [pulls_of_step hstep, List.append_cons]
          simp only [resume, pull, hpull]
      | error e =>
          rw [pulls_of_step_error hstep]
          simp only [stop, pull, hpull]

/-- The current token is no operator as strong as this. -/
def Weaker (strength : Nat) (r : Reader) : Prop :=
  ∀ t op, r.current = some t → Operator.ofKind? t.kind = some op → op.strength < strength

/-- The current token ends an expression within so many groups. -/
def Ends (groups : Nat) (r : Reader) : Prop :=
  r.current = none ∨ groups ≠ 0 ∧ ∃ place, r.current = some ⟨.rightParen, place⟩

theorem exists_of_operator? {op : Operator} {place : Place}
    (h : r.operator? strength = some (op, place)) :
    ∃ t, r.current = some t ∧ Operator.ofKind? t.kind = some op ∧ op.strength = strength ∧
      t.place = place := by
  rw [operator?] at h
  split at h
  · rename_i t ht
    split at h
    · rename_i op' hop
      split at h
      · rename_i hstrength
        obtain ⟨rfl, rfl⟩ := Prod.mk.inj (Option.some.inj h)
        exact ⟨t, ht, hop, hstrength, rfl⟩
      · simp at h
    · simp at h
  · simp at h

theorem Weaker.of_operator?_none (h : r.Weaker (strength + 1))
    (hnone : r.operator? strength = none) : r.Weaker strength := by
  intro t op ht hop
  have hle : op.strength ≤ strength := Nat.le_of_lt_succ (h t op ht hop)
  have hne : op.strength ≠ strength := by
    intro hstrength
    simp [operator?, ht, hop, hstrength] at hnone
  exact Nat.lt_of_le_of_ne hle hne

theorem place_of_current {t : Token} (h : r.current = some t) : r.place = t.place := by
  rw [place, h]

/-! ### What waits on the stack -/

theorem behind_sign (r : Reader) (negative : Bool) (v : Float) (stack : List Frame) :
    r.behind v (.sign negative :: stack) = r.behind (signed negative v) stack := by
  rw [behind, behind, take, take]
  split
  · rfl
  · rfl

/-- Behind the right operand of an operator stands no operator that is stronger. -/
theorem behind_operation {op : Operator} (h : r.Weaker (op.strength + 1)) (left : Float)
    (place : Place) (v : Float) (stack : List Frame) :
    r.behind v (.operation left op place :: stack) =
      match op.apply place left v with
      | .ok w => r.behind w stack
      | .error e => r.stop e := by
  cases hcurrent : r.current with
  | none =>
      simp only [behind, take, hcurrent, close, unwind]
      cases op.apply place left v <;> rfl
  | some t =>
      have hweak : ∀ next, Operator.ofKind? t.kind = some next → next.strength ≤ op.strength := by
        intro next hnext
        exact Nat.le_of_lt_succ (h t next hcurrent hnext)
      simp only [behind, take, hcurrent, step, takeOperator_operation hweak]
      cases op.apply place left v <;> rfl

theorem behind_operator {t : Token} {op : Operator} (ht : r.current = some t)
    (hop : Operator.ofKind? t.kind = some op) (h : Blocks op.strength stack) (v : Float) :
    r.behind v stack = r.resume (.operand (.operation v op t.place :: stack)) := by
  simp only [behind, take, ht, step, takeOperator, hop, reduce_of_blocks h]
  rfl

/-- Behind an expression nothing is left to reduce. -/
theorem behind_other {t : Token} (ht : r.current = some t) (hop : Operator.ofKind? t.kind = none)
    (h : Blocks 0 stack) (v : Float) :
    r.behind v stack =
      match takeOther v stack t with
      | .ok next => r.resume next
      | .error e => r.stop e := by
  simp only [behind, take, ht, step, takeOperator, hop, reduce_of_blocks h]
  rfl

theorem behind_assignment (h : r.current = none) (name : String) (v : Float)
    (stack : List Frame) :
    r.behind v (.assignment name :: stack) = (r.assign name v).behind v stack := by
  have hassign : (r.assign name v).current = none := h
  simp only [behind, take, h, hassign]
  rfl

/-- Behind a variable that is not assigned its value is the operand. -/
theorem take_named {text : String} (h : ∀ place, r.current ≠ some ⟨.assign, place⟩) :
    r.take (.named text stack) = r.behind (r.store.value text) stack := by
  rw [behind, take, take]
  split
  · rfl
  · rename_i t ht
    have hstep : step r.store (.named text stack) t =
        step r.store (.operator (r.store.value text) stack) t := by
      obtain ⟨kind, place⟩ := t
      rw [step]
      split
      · rename_i hassign
        obtain rfl : kind = .assign := hassign
        exact absurd ht (h place)
      · rfl
    rw [hstep]

theorem take_assign {text : String} {place : Place} (h : r.current = some ⟨.assign, place⟩) :
    r.take (.named text stack) =
      match nest (.assignment text) stack place with
      | .ok s => r.resume s
      | .error e => r.stop e := by
  rw [take, h]
  rfl

end Reader

/-- A result is the value that an evaluation has reached in front of a stack, or its error. -/
def Agrees (evaluation : Evaluation × List Pull) (stack : List Frame) (after : Reader → Prop) :
    Except EvalError Float → Reader → Prop
  | .ok v, r => evaluation = r.behind v stack ∧ after r
  | .error e, r => evaluation = r.stop e

namespace Agrees

variable {evaluation : Evaluation × List Pull} {below : List Frame} {m n : Nat} {a : Answer m}
variable {after after' : Reader → Prop}

/-- Behind a value the rest has to agree; an error stays. -/
theorem andThen {next : Float → (r : Reader) → r.left < m → Answer n}
    (ha : a.All (Agrees evaluation below after))
    (hnext : ∀ v r h, evaluation = r.behind v below → after r →
      (next v r h).All (Agrees evaluation stack after')) :
    (a.andThen next).All (Agrees evaluation stack after') := by
  apply Answer.all_andThen ha
  · intro e r h
    exact h
  · rintro v r h ⟨hevaluation, hafter⟩
    exact hnext v r h hevaluation hafter

/-- What is known behind the value may be changed. -/
theorem imp (ha : a.All (Agrees evaluation below after))
    (hvalue : ∀ v r, evaluation = r.behind v below → after r →
      evaluation = r.behind v stack ∧ after' r) :
    a.All (Agrees evaluation stack after') := by
  apply Answer.All.imp ha
  · intro e r h
    exact h
  · rintro v r ⟨hevaluation, hafter⟩
    exact hvalue v r hevaluation hafter

end Agrees

/-! ### The parts of the descent -/

/-- A part of the descent is called at the depth of the stack, within one primary for each sign,
group and assignment on it. -/
structure Waits (stack : List Frame) (level : Level) (active : Nat) : Prop where
  nesting : level.nesting = depth stack
  active : active = depth stack

namespace Waits

theorem operation (h : Waits stack level active) (left : Float) (op : Operator) (place : Place) :
    Waits (.operation left op place :: stack) level active :=
  ⟨by simpa using h.nesting, by simpa using h.active⟩

theorem enter {frame : Frame} (h : Waits stack level active) (hframe : frame.isNesting = true)
    (groups : Nat) : Waits (frame :: stack) ⟨groups, level.nesting + 1⟩ (active + 1) := by
  have hdepth : depth (frame :: stack) = depth stack + 1 := List.countP_cons_of_pos hframe
  exact ⟨by rw [hdepth, h.nesting], by rw [hdepth, h.active]⟩

end Waits

/-- A primary agrees with the evaluation where an operand is due. -/
def PrimaryAgrees (level : Level) (active : Nat) (r : Reader) : Prop :=
  ∀ stack, Waits stack level active → (primary level active r).All
    (Agrees (r.resume (.operand stack)) stack fun _ => True)

def ChainAgrees (strength : Nat) (level : Level) (active : Nat) (r : Reader) : Prop :=
  ∀ stack, Waits stack level active → Blocks strength stack →
    (chain strength level active r).All
      (Agrees (r.resume (.operand stack)) stack (·.Weaker strength))

def LinksAgree (strength : Nat) (level : Level) (active : Nat) (v : Float) (r : Reader) : Prop :=
  ∀ stack, Waits stack level active → Blocks strength stack → r.Weaker (strength + 1) →
    (links strength level active v r).All
      (Agrees (r.behind v stack) stack (·.Weaker strength))

/-- An expression stands at the bottom, or behind an opened group or assignment. -/
def ExpressionAgrees (level : Level) (active : Nat) (r : Reader) : Prop :=
  ∀ stack, Waits stack level active → Blocks 0 stack →
    (level.groups ≠ 0 ↔ ∃ below, stack = .group :: below) → (expression level active r).All
      (Agrees (r.resume (.operand stack)) stack (·.Ends level.groups))

theorem expression_agrees (hchain : ChainAgrees Operator.add.strength level active r) :
    ExpressionAgrees level active r := by
  intro stack hwaits hblocks hgroups
  rw [expression]
  apply Agrees.andThen (hchain stack hwaits (hblocks.mono (Nat.zero_le _)))
  intro v r' hlt hevaluation hweaker
  rw [hevaluation, Level.finish]
  split
  · rename_i hnone
    exact ⟨rfl, .inl hnone⟩
  · rename_i t ht
    have hop : Operator.ofKind? t.kind = none := by
      cases hkind : Operator.ofKind? t.kind with
      | none => rfl
      | some op =>
          have := hweaker t op ht hkind
          cases op <;> simp [Operator.strength] at this
    have hother := Reader.behind_other ht hop hblocks v
    obtain ⟨kind, place⟩ := t
    split
    · rename_i hkind
      obtain rfl : kind = .rightParen := hkind
      split
      · rename_i hzero
        -- No group is on top of the stack.
        have hopen : ¬ ∃ below, stack = .group :: below := fun h => hgroups.mpr h hzero
        rw [takeOther_rightParen hopen] at hother
        exact hother
      · rename_i hsome
        exact ⟨rfl, .inr ⟨hsome, place, ht⟩⟩
    · rename_i fault hkind
      obtain rfl : kind = .bad fault := hkind
      exact hother
    · rename_i hright hbad
      have hmisplaced : takeOther v stack ⟨kind, place⟩ = .error ⟨.misplaced, place⟩ := by
        cases kind <;> simp_all [takeOther]
      rw [hmisplaced] at hother
      exact hother

theorem chain_agrees (hchain : ChainAgrees (strength + 1) level active r)
    (hlinks : ∀ v r', r'.left < r.left → LinksAgree strength level active v r')
    (hstrength : strength ≤ Operator.power.strength) : ChainAgrees strength level active r := by
  intro stack hwaits hblocks
  rw [chain, if_pos hstrength]
  apply Agrees.andThen (hchain stack hwaits (hblocks.mono (Nat.le_succ strength)))
  intro v r' hlt hevaluation hweaker
  rw [hevaluation]
  exact hlinks v r' hlt stack hwaits hblocks hweaker

theorem chain_agrees_of_primary (hprimary : PrimaryAgrees level active r)
    (hstrength : ¬ strength ≤ Operator.power.strength) : ChainAgrees strength level active r := by
  intro stack hwaits _
  rw [chain, if_neg hstrength]
  apply Agrees.imp (hprimary stack hwaits)
  intro v r' hevaluation _
  refine ⟨hevaluation, ?_⟩
  -- All operators are weaker than that.
  intro t op _ _
  cases op <;> simp only [Operator.strength] at hstrength ⊢ <;> omega

theorem links_agree (hchain : ChainAgrees (strength + 1) level active r)
    (hlinks : ∀ w r', r'.left < r.left → LinksAgree strength level active w r') :
    LinksAgree strength level active v r := by
  intro stack hwaits hblocks hweaker
  rw [links]
  split
  · rename_i hnone
    exact ⟨rfl, hweaker.of_operator?_none hnone⟩
  · rename_i op place hop
    obtain ⟨t, ht, hkind, rfl, rfl⟩ := Reader.exists_of_operator? hop
    rw [Reader.behind_operator ht hkind hblocks]
    have hright := hchain _ (hwaits.operation v op t.place) (by simp)
    apply Agrees.andThen hright
    intro w r' hlt hevaluation hweaker'
    rw [hevaluation, Reader.behind_operation hweaker']
    cases op.apply t.place v w with
    | error e => rfl
    | ok u => exact hlinks u r' hlt stack hwaits hblocks hweaker'

/-- One level deeper, the frame of that level waits on the stack. -/
theorem enter_agrees {n : Nat} {frame : Frame} {place : Place} {after : Reader → Prop}
    {next : Level → Answer n} (hdepth : level.nesting = depth stack) (hplace : r.place = place)
    (h : (next { level with nesting := level.nesting + 1 }).All
      (Agrees (r.resume (.operand (frame :: stack))) stack after)) :
    (level.enter r next).All
      (Agrees
        (match nest frame stack place with
        | .ok s => r.resume s
        | .error e => r.stop e) stack after) := by
  rw [Level.enter, nest, ← hdepth]
  split
  · exact h
  · rw [hplace]
    rfl

theorem closeGroup_agrees {n : Nat} {groups : Nat} (h : r.Ends groups)
    (hactive : active = depth stack + 1) (hlt : r.left < n) :
    (closeGroup active v r hlt).All
      (Agrees (r.behind v (.group :: stack)) stack fun _ => True) := by
  obtain hnone | ⟨-, place, hparen⟩ := h
  · have hplace : r.place = r.cursor.place := by rw [Reader.place, hnone]
    simp only [closeGroup, hnone, Answer.all_fail, Agrees, Reader.behind, Reader.take, hplace]
    rfl
  · have hclosed : r.behind v (.group :: stack) = r.resume (.operator v stack) := by
      rw [Reader.behind_other hparen rfl (blocks_group 0 stack)]
      rfl
    simp only [closeGroup, hparen]
    exact ⟨hclosed.trans (Reader.resume_eq_take hactive), trivial⟩

/-- A primary agrees if what it calls with a shorter text does. -/
theorem primary_agrees
    (ih : ∀ level active r', r'.left < r.left →
      ExpressionAgrees level active r' ∧ PrimaryAgrees level active r') :
    PrimaryAgrees level active r := by
  intro stack hwaits
  have hactive : active + 1 = depth stack + 1 := by rw [hwaits.active]
  let opened := r.pull (active + 1)
  let taken := opened.pull (active + 1)
  have hresume : r.resume (.operand stack) = opened.take (.operand stack) :=
    Reader.resume_eq_take hactive
  rw [hresume, primary]
  split
  · rename_i hnone
    have hplace : opened.place = opened.cursor.place := by rw [Reader.place, hnone]
    rw [Reader.take_of_none hnone]
    exact congrArg (fun place => opened.stop ⟨.operandExpected, place⟩) hplace.symm
  · rename_i t ht
    have hopened : opened.left < r.left := Reader.left_pull_lt ht
    have htaken : taken.left < r.left := Nat.lt_of_le_of_lt (opened.left_pull_le _) hopened
    have hplace : opened.place = t.place := Reader.place_of_current ht
    rw [Reader.take_of_some ht]
    obtain ⟨kind, place⟩ := t
    cases kind with
    | number w =>
        have htake : opened.resume (.operator w stack) = taken.behind w stack :=
          Reader.resume_eq_take hactive
        exact ⟨htake, trivial⟩
    | minus =>
        apply enter_agrees hwaits.nesting hplace
        have hinner := (ih _ _ opened hopened).2 (.sign true :: stack)
          (hwaits.enter rfl level.groups)
        apply Agrees.andThen hinner
        intro w r' hlt hevaluation _
        exact ⟨hevaluation.trans (Reader.behind_sign r' true w stack), trivial⟩
    | plus =>
        apply enter_agrees hwaits.nesting hplace
        have hinner := (ih _ _ opened hopened).2 (.sign false :: stack)
          (hwaits.enter rfl level.groups)
        apply Agrees.imp hinner
        intro w r' hevaluation _
        exact ⟨hevaluation.trans (Reader.behind_sign r' false w stack), trivial⟩
    | name text =>
        have htake : opened.resume (.named text stack) = taken.take (.named text stack) :=
          Reader.resume_eq_take hactive
        change Answer.All _ (Agrees (opened.resume (.named text stack)) stack _)
        rw [htake]
        simp only
        split
        · rename_i place' htoken
          rw [Reader.take_assign htoken]
          apply enter_agrees hwaits.nesting (Reader.place_of_current htoken)
          have hinner := (ih _ _ taken htaken).1 (.assignment text :: stack)
            (hwaits.enter rfl 0) (blocks_assignment 0 text stack) (by simp)
          apply Agrees.andThen hinner
          intro w r' hlt hevaluation hends
          have hnone : r'.current = none := hends.resolve_right fun h => h.1 rfl
          exact ⟨hevaluation.trans (Reader.behind_assignment hnone text w stack), trivial⟩
        · rename_i hother
          exact ⟨Reader.take_named hother, trivial⟩
    | leftParen =>
        apply enter_agrees hwaits.nesting hplace
        have hinner := (ih _ _ opened hopened).1 (.group :: stack)
          (hwaits.enter rfl (level.groups + 1)) (blocks_group 0 stack) (by simp)
        apply Agrees.andThen hinner
        intro w r' hlt hevaluation hends
        rw [hevaluation]
        exact closeGroup_agrees hends hactive _
    | bad fault => rfl
    | _ => rfl

/-! ### Whole texts -/

theorem expressionAgrees (level : Level) (active : Nat) (r : Reader) :
    ExpressionAgrees level active r :=
  induction_on_left
    (fun _ _ _ hchain => expression_agrees hchain)
    (fun _ _ _ _ hstrength hchain hlinks => chain_agrees hchain hlinks hstrength)
    (fun _ _ _ _ hstrength hprimary => chain_agrees_of_primary hprimary hstrength)
    (fun _ _ _ _ _ hchain hlinks => links_agree hchain hlinks)
    (fun _ _ _ ih => primary_agrees ih) level active r

/-- The descent evaluates the text, with the pulls of the evaluation. -/
theorem descend_eq (store : Store) (text : String) :
    descend store text =
      (evaluate store text, Evaluation.pulls store (.operand []) (Scan.ofText text).tokens) := by
  have hagrees : ExpressionAgrees ⟨0, 0⟩ 0 (.ofText store text) := expressionAgrees _ _ _
  have hall := hagrees [] ⟨rfl, rfl⟩ (blocks_nil 0) (by simp)
  have hresume : (Reader.ofText store text).resume (.operand []) =
      (evaluate store text, Evaluation.pulls store (.operand []) (Scan.ofText text).tokens) := rfl
  rw [← hresume, descend]
  generalize expression ⟨0, 0⟩ 0 (.ofText store text) = answer at hall
  obtain ⟨result, r, shorter⟩ := answer
  cases result with
  | error e => exact hall.symm
  | ok v =>
      obtain ⟨hevaluation, hends⟩ := hall
      have hnone : r.current = none := hends.resolve_right fun h => h.1 rfl
      rw [hevaluation, Reader.behind, Reader.take, hnone]
      rfl

end Reckoner.Descent
