import Reckoner.Evaluation

/-!
# Recursive descent

An expression may also be evaluated while its tokens are pulled, one at a time, by functions that
call each other: an expression is a chain of operations, their operands are chains of stronger
operations, and at the bottom stand primaries, in which expressions stand again. Each primary pulls
a token of its own before it calls anything, so the descent ends although it has no counter.

A reader records its pulls, and for each the number of primaries that were being read.
-/

namespace Reckoner.Descent

/-- A pull, and how many primaries were being read when it was made. -/
structure Pull where
  token : Option Token
  active : Nat

/-- What is left of a text, the token that was pulled last, the store, and the pulls in order. -/
structure Reader where
  cursor : Cursor
  current : Option Token
  store : Store
  pulls : List Pull

namespace Reader

variable {r : Reader} {active : Nat} {t : Token}

def ofText (store : Store) (text : String) : Reader := ⟨Cursor.ofText text, none, store, []⟩

def left (r : Reader) : Nat := r.cursor.rest.length

def place (r : Reader) : Place :=
  match r.current with
  | some t => t.place
  | none => r.cursor.place

/-- Pull the next token, while so many primaries are being read. -/
def pull (r : Reader) (active : Nat) : Reader :=
  { r with
    cursor := r.cursor.pull.2
    current := r.cursor.pull.1
    pulls := r.pulls ++ [⟨r.cursor.pull.1, active⟩] }

def assign (r : Reader) (name : String) (value : Float) : Reader :=
  { r with store := r.store.insert name value }

/-- The current token as an operator of the given strength, with its place. -/
def operator? (r : Reader) (strength : Nat) : Option (Operator × Place) :=
  match r.current with
  | some t =>
    match Operator.ofKind? t.kind with
    | some op => if op.strength = strength then some (op, t.place) else none
    | none => none
  | none => none

@[simp] theorem pull_store : (r.pull active).store = r.store := rfl

/-- A token that is pulled shortens what is left. -/
theorem left_pull_lt (h : (r.pull active).current = some t) : (r.pull active).left < r.left := by
  have hpull : r.cursor.pull = (some t, r.cursor.pull.2) := Prod.ext h rfl
  exact Cursor.length_lt_of_pull hpull

theorem left_pull_le (r : Reader) (active : Nat) : (r.pull active).left ≤ r.left := by
  cases h : (r.pull active).current with
  | some t => exact Nat.le_of_lt (left_pull_lt h)
  | none =>
      have hskip : r.cursor.skipBlanks.rest.length ≤ r.cursor.rest.length := by
        simp [Cursor.skipBlanks]
      have hnone : r.cursor.pull.1 = none := h
      have hhere : r.cursor.pull.2 = r.cursor.skipBlanks := by
        rw [Cursor.pull] at hnone ⊢
        split
        · rfl
        · rename_i hcons
          simp [hcons] at hnone
      rw [left, pull, hhere]
      exact hskip

end Reader

/-- What a part of the descent gives. Behind a value fewer characters are left than the bound. -/
structure Answer (bound : Nat) where
  result : Except EvalError Float
  reader : Reader
  shorter : ∀ v, result = .ok v → reader.left < bound

namespace Answer

variable {m n : Nat}

def fail (e : EvalError) (r : Reader) : Answer n := ⟨.error e, r, by simp⟩

def value (v : Float) (r : Reader) (h : r.left < n) : Answer n := ⟨.ok v, r, fun _ _ => h⟩

def andThen (a : Answer m) (next : Float → (r : Reader) → r.left < m → Answer n) : Answer n :=
  match a with
  | ⟨.ok v, r, shorter⟩ => next v r (shorter v rfl)
  | ⟨.error e, r, _⟩ => fail e r

def within (a : Answer m) (h : m ≤ n) : Answer n :=
  ⟨a.result, a.reader, fun v hv => Nat.lt_of_lt_of_le (a.shorter v hv) h⟩

/-- Whether a result and the reader behind it have some property. -/
def All (a : Answer m) (P : Except EvalError Float → Reader → Prop) : Prop := P a.result a.reader

@[simp] theorem all_fail {P : Except EvalError Float → Reader → Prop} {e : EvalError} {r : Reader} :
    (fail e r : Answer n).All P ↔ P (.error e) r := Iff.rfl

theorem All.imp {P Q : Except EvalError Float → Reader → Prop} {a : Answer m} (ha : a.All P)
    (herror : ∀ e r, P (.error e) r → Q (.error e) r) (hvalue : ∀ v r, P (.ok v) r → Q (.ok v) r) :
    a.All Q := by
  obtain ⟨result, r, shorter⟩ := a
  cases result with
  | error e => exact herror e r ha
  | ok v => exact hvalue v r ha

/-- An error stays, and a value is gone on with. -/
theorem all_andThen {P Q : Except EvalError Float → Reader → Prop} {a : Answer m}
    {next : Float → (r : Reader) → r.left < m → Answer n} (ha : a.All P)
    (herror : ∀ e r, P (.error e) r → Q (.error e) r)
    (hvalue : ∀ v r h, P (.ok v) r → (next v r h).All Q) : (a.andThen next).All Q := by
  obtain ⟨result, r, shorter⟩ := a
  cases result with
  | error e => exact herror e r ha
  | ok v => exact hvalue v r _ ha

end Answer

/-- How deep the descent is: in open groups since the last assignment, and in signs, groups and
assignments. -/
structure Level where
  groups : Nat
  nesting : Nat

namespace Level

variable {n : Nat}

/-- Go one level deeper at the current token, if there is room. -/
def enter (level : Level) (r : Reader) (next : Level → Answer n) : Answer n :=
  if level.nesting < Evaluation.maxNesting then next { level with nesting := level.nesting + 1 }
  else .fail ⟨.tooDeep, r.place⟩ r

/-- End an expression at the current token: at the end of the text, or at a `)` within a group. -/
def finish (level : Level) (v : Float) (r : Reader) (h : r.left < n) : Answer n :=
  match r.current with
  | none => .value v r h
  | some t =>
    match t.kind with
    | .rightParen => if level.groups = 0 then .fail ⟨.unopenedGroup, t.place⟩ r else .value v r h
    | .bad fault => .fail ⟨.token fault, t.place⟩ r
    | _ => .fail ⟨.misplaced, t.place⟩ r

end Level

def closeGroup {n : Nat} (active : Nat) (v : Float) (r : Reader) (h : r.left < n) : Answer n :=
  match r.current with
  | some ⟨.rightParen, _⟩ =>
    .value v (r.pull active) (Nat.lt_of_le_of_lt (r.left_pull_le active) h)
  | _ => .fail ⟨.unclosedGroup, r.place⟩ r

mutual

/-- An expression: a chain of the weakest operators and what may end it. -/
def expression (level : Level) (active : Nat) (r : Reader) : Answer r.left :=
  (chain Operator.add.strength level active r).andThen fun v r' h => level.finish v r' h
termination_by (r.left, 6)

/-- A chain of operators of one strength, or a primary behind all strengths. -/
def chain (strength : Nat) (level : Level) (active : Nat) (r : Reader) : Answer r.left :=
  if strength ≤ Operator.power.strength then
    (chain (strength + 1) level active r).andThen fun v r' h =>
      (links strength level active v r').within h
  else primary level active r
termination_by (r.left, 1 + (4 - strength))
decreasing_by
  all_goals simp_wf
  · exact Prod.Lex.right _ (by simp [Operator.strength] at *; omega)
  · exact Prod.Lex.left _ _ h
  · exact Prod.Lex.right _ (by omega)

/-- The operators of one strength that follow an operand, each with its right operand. -/
def links (strength : Nat) (level : Level) (active : Nat) (v : Float) (r : Reader) :
    Answer (r.left + 1) :=
  match r.operator? strength with
  | none => .value v r (Nat.lt_succ_self _)
  | some (op, place) =>
    (chain (strength + 1) level active r).andThen fun right r' h =>
      match op.apply place v right with
      | .error e => .fail e r'
      | .ok w => (links strength level active w r').within (Nat.le_succ_of_le h)
termination_by (r.left, 2 + (4 - strength))

/-- A primary pulls its first token, and leaves the one behind it current. -/
def primary (level : Level) (active : Nat) (r : Reader) : Answer r.left :=
  let opened := r.pull (active + 1)
  match h : opened.current with
  | none => .fail ⟨.operandExpected, opened.place⟩ opened
  | some t =>
    have hopened : opened.left < r.left := Reader.left_pull_lt h
    let taken := opened.pull (active + 1)
    have htaken : taken.left < r.left := Nat.lt_of_le_of_lt (opened.left_pull_le _) hopened
    match t.kind with
    | .number v => .value v taken htaken
    | .minus =>
      level.enter opened fun inner =>
        (primary inner (active + 1) opened).andThen fun v r' h' =>
          .value (-v) r' (Nat.lt_trans h' hopened)
    | .plus =>
      level.enter opened fun inner =>
        (primary inner (active + 1) opened).within (Nat.le_of_lt hopened)
    | .name text =>
      match taken.current with
      | some ⟨.assign, _⟩ =>
        level.enter taken fun inner =>
          (expression { inner with groups := 0 } (active + 1) taken).andThen fun v r' h' =>
            .value v (r'.assign text v) (Nat.lt_trans h' htaken)
      | _ => .value (taken.store.value text) taken htaken
    | .leftParen =>
      level.enter opened fun inner =>
        (expression { inner with groups := inner.groups + 1 } (active + 1) opened).andThen
          fun v r' h' => closeGroup (active + 1) v r' (Nat.lt_trans h' hopened)
    | .bad fault => .fail ⟨.token fault, t.place⟩ opened
    | _ => .fail ⟨.operandExpected, t.place⟩ opened
termination_by (r.left, 0)

end

/-- What holds of each part of the descent, if it holds of the parts that it calls. A primary may
call any part with a shorter text. -/
theorem induction_on_left {E P : Level → Nat → Reader → Prop}
    {C : Nat → Level → Nat → Reader → Prop} {L : Nat → Level → Nat → Float → Reader → Prop}
    (hexpression : ∀ level active r, C Operator.add.strength level active r → E level active r)
    (hchain : ∀ strength level active r, strength ≤ Operator.power.strength →
      C (strength + 1) level active r →
      (∀ v r', r'.left < r.left → L strength level active v r') → C strength level active r)
    (hbottom : ∀ strength level active r, ¬ strength ≤ Operator.power.strength →
      P level active r → C strength level active r)
    (hlinks : ∀ strength level active v r, C (strength + 1) level active r →
      (∀ w r', r'.left < r.left → L strength level active w r') → L strength level active v r)
    (hprimary : ∀ level active r,
      (∀ level active r', r'.left < r.left → E level active r' ∧ P level active r') →
      P level active r) (level : Level) (active : Nat) (r : Reader) : E level active r := by
  suffices hparts : ∀ n r, r.left = n → (∀ level active, E level active r) ∧
      (∀ level active, P level active r) ∧ ∀ strength level active v, L strength level active v r by
    exact (hparts r.left r rfl).1 level active
  intro n
  induction n using Nat.strongRecOn with
  | ind n ih =>
      rintro r rfl
      have hP : ∀ level active, P level active r := by
        intro level active
        apply hprimary
        intro level active r' hlt
        obtain ⟨hE, hP, -⟩ := ih r'.left hlt r' rfl
        exact ⟨hE level active, hP level active⟩
      have hL : ∀ strength level active v r', r'.left < r.left → L strength level active v r' := by
        intro strength level active v r' hlt
        exact (ih r'.left hlt r' rfl).2.2 strength level active v
      -- A chain calls the chain of the next strength with the same text, up to the primaries.
      have hC : ∀ distance strength level active,
          Operator.power.strength + 1 - strength = distance → C strength level active r := by
        intro distance
        induction distance with
        | zero =>
            intro strength level active hdistance
            exact hbottom strength level active r (by omega) (hP level active)
        | succ distance ihdistance =>
            intro strength level active hdistance
            apply hchain strength level active r (by omega)
            · exact ihdistance (strength + 1) level active (by omega)
            · exact hL strength level active
      refine ⟨?_, hP, ?_⟩
      · intro level active
        exact hexpression level active r (hC _ _ level active rfl)
      · intro strength level active v
        exact hlinks strength level active v r (hC _ _ level active rfl) (hL strength level active)

/-! ### Whole texts -/

/-- Evaluate a text by descent: the evaluation, and the pulls that it took. -/
def descend (store : Store) (text : String) : Evaluation × List Pull :=
  let answer := expression ⟨0, 0⟩ 0 (.ofText store text)
  match answer.result with
  | .ok v => (⟨.ok v, answer.reader.store.insert Evaluation.answer v⟩, answer.reader.pulls)
  | .error e => (⟨.error e, answer.reader.store⟩, answer.reader.pulls)

end Reckoner.Descent
