import Reckoner.Proofs.Written

/-!
# The last result

Texts are evaluated one after the other, each over the store that the one before it left. The answer
is then the value of the last text that had one. A failed text leaves the answer, with one
exception: a text that fails at its end has written the assignments behind what failed, and the
answer may be among the variables that they name.

Which texts are such exceptions follows from their results, since these tell what was written.
-/

namespace Reckoner

namespace Store

theorem writeAll_append (s : Store) (before behind : List (String × Float)) :
    s.writeAll (before ++ behind) = (s.writeAll behind).writeAll before :=
  List.foldr_append

/-- Of several entries of one name the first is written last. -/
theorem get?_writeAll (s : Store) (entries : List (String × Float)) (name : String) :
    (s.writeAll entries).get? name = (entries.lookup name).or (s.get? name) := by
  induction entries with
  | nil => rfl
  | cons entry rest ih =>
      obtain ⟨n, v⟩ := entry
      change ((s.writeAll rest).insert n v).get? name = _
      by_cases hname : name = n
      · subst hname
        simp
      · have hbeq : (name == n) = false := beq_false_of_ne hname
        rw [get?_insert_of_ne _ _ hname, ih, List.lookup_cons, hbeq]

def after (store : Store) (texts : List String) : Store :=
  texts.foldl (fun s text => (evaluate s text).store) store

@[simp] theorem after_nil (store : Store) : store.after [] = store := rfl

theorem after_append (store : Store) (before behind : List String) :
    store.after (before ++ behind) = (store.after before).after behind :=
  List.foldl_append

theorem after_append_singleton (store : Store) (texts : List String) (text : String) :
    store.after (texts ++ [text]) = (evaluate (store.after texts) text).store :=
  after_append store texts [text]

end Store

/-- The evaluations of some texts, each over the store that the one before it left. -/
def evaluations (store : Store) : List String → List Evaluation
  | [] => []
  | text :: rest => evaluate store text :: evaluations (evaluate store text).store rest

theorem evaluations_append (store : Store) (before behind : List String) :
    evaluations store (before ++ behind) =
      evaluations store before ++ evaluations (store.after before) behind := by
  induction before generalizing store with
  | nil => rfl
  | cons text rest ih =>
      simp only [List.cons_append, evaluations, ih]
      rfl

/-- The value of the last text that has one. -/
def lastValue? (store : Store) (texts : List String) : Option Float :=
  ((evaluations store texts).filterMap fun r => r.result.toOption).getLast?

theorem lastValue?_append_singleton (store : Store) (texts : List String) (text : String) :
    lastValue? store (texts ++ [text]) =
      (evaluate (store.after texts) text).result.toOption.or (lastValue? store texts) := by
  rw [lastValue?, evaluations_append, List.filterMap_append, List.getLast?_append]
  cases h : (evaluate (store.after texts) text).result.toOption with
  | none => simp [evaluations, h, lastValue?]
  | some v => simp [evaluations, h]

/-! ### Assignments to the answer -/

variable {store : Store} {ts : List Token} {text : String} {e : EvalError}

/-- The assignments among the last tokens are the last assignments among all tokens. -/
theorem assignments_suffix (ts us : List Token) : assignments us <:+ assignments (ts ++ us) := by
  have hcons (t : Token) (us : List Token) : assignments us <:+ assignments (t :: us) := by
    cases us with
    | nil => exact List.nil_suffix
    | cons u rest =>
        by_cases hname : ∃ text, t.kind = .name text
        · by_cases hassign : u.kind = .assign
          · obtain ⟨text, ht⟩ := hname
            rw [assignments_assign ht hassign, assignments_cons (t := u) (.inl (by simp [hassign]))]
            exact List.suffix_cons _ _
          · have hsame : assignments (t :: u :: rest) = assignments (u :: rest) :=
              assignments_cons (.inr (by simpa using hassign))
            exact hsame ▸ List.suffix_rfl
        · have hsame : assignments (t :: u :: rest) = assignments (u :: rest) :=
            assignments_cons (.inl (by simpa using hname))
          exact hsame ▸ List.suffix_rfl
  induction ts with
  | nil => exact List.suffix_rfl
  | cons t ts ih => exact ih.trans (hcons t (ts ++ us))

open Evaluation in
/-- A text fails at its end, by a division by zero or an unclosed group, and among the entries that
it writes nevertheless is one of the answer. Of several the first is the last to be written. -/
def FailsBehindAnswer (store : Store) (text : String) (v : Float) : Prop :=
  ∃ e entries, (evaluate store text).result = .error e ∧
    (e.cause = .zeroDivisor ∨ e.cause = .unclosedGroup) ∧
    Written store (Scan.ofText text).tokens (.error e) entries ∧ entries.lookup answer = some v

/-- A failed text leaves the answer, unless it fails behind an assignment to it. -/
theorem answer_of_failure (h : (evaluate store text).result = .error e) :
    ((evaluate store text).store.get? Evaluation.answer = store.get? Evaluation.answer ∧
        ∀ v, ¬ FailsBehindAnswer store text v) ∨
      ∃ v, FailsBehindAnswer store text v ∧
        (evaluate store text).store.get? Evaluation.answer = some v := by
  obtain ⟨entries, hfits, hstore⟩ := wrote_evaluate store text
  rw [hstore, Store.get?_writeAll]
  cases hlookup : entries.lookup Evaluation.answer with
  | none =>
      refine .inl ⟨rfl, ?_⟩
      rintro v ⟨e', other, he', -, hwritten, hother⟩
      obtain rfl := (hfits other).mp (he' ▸ hwritten)
      simp [hlookup] at hother
  | some v =>
      have hwritten : Written store (Scan.ofText text).tokens (.error e) entries :=
        h ▸ (hfits entries).mpr rfl
      have hcause : e.cause = .zeroDivisor ∨ e.cause = .unclosedGroup := by
        obtain ⟨cause, place⟩ := e
        cases cause with
        | zeroDivisor => exact .inl rfl
        | unclosedGroup => exact .inr rfl
        | _ =>
            obtain rfl : entries = [] := hwritten
            simp at hlookup
      exact .inr ⟨v, ⟨e, entries, h, hcause, hwritten, hlookup⟩, rfl⟩

/-- A text that has a value leaves it as the answer. -/
theorem answer_of_success {v : Float} (h : (evaluate store text).result = .ok v) :
    (evaluate store text).store.get? Evaluation.answer = some v := by
  obtain ⟨entries, hwritten, hstore⟩ := exists_written store text
  rw [h] at hwritten
  obtain ⟨e, assigned, -, -, rfl⟩ := hwritten
  exact hstore ▸ Store.get?_insert_self ..

/-! ### Texts in order -/

/-- Between some texts and others, a text fails behind an assignment to the answer, and no text
behind it has a value. -/
structure LeavesAnswer (store : Store) (before : List String) (text : String)
    (behind : List String) (v : Float) : Prop where
  fails : FailsBehindAnswer (store.after before) text v
  valueless : lastValue? (store.after (before ++ [text])) behind = none

section LeavesAnswer

variable {texts before behind : List String} {last : String} {v : Float}

theorem LeavesAnswer.append_singleton (h : LeavesAnswer store before text behind v)
    (hlast : (evaluate (store.after (before ++ text :: behind)) last).result.toOption = none) :
    LeavesAnswer store before text (behind ++ [last]) v := by
  refine ⟨h.fails, ?_⟩
  rw [lastValue?_append_singleton, ← Store.after_append, ← List.append_cons, hlast, h.valueless]
  rfl

/-- With one more text behind all others, a text that leaves the answer is the new one, or it did so
before and the new one has no value. -/
theorem LeavesAnswer.cases_append_singleton (h : LeavesAnswer store before text behind v)
    (hsplit : texts ++ [last] = before ++ text :: behind) :
    (before = texts ∧ FailsBehindAnswer (store.after texts) last v) ∨
      (evaluate (store.after texts) last).result.toOption = none ∧
        ∃ front, texts = before ++ text :: front ∧ LeavesAnswer store before text front v := by
  obtain rfl | ⟨front, x, rfl⟩ := behind.eq_nil_or_concat'
  · obtain ⟨rfl, rfl⟩ := List.append_singleton_inj.mp hsplit
    exact .inl ⟨rfl, h.fails⟩
  · rw [← List.cons_append, ← List.append_assoc] at hsplit
    obtain ⟨rfl, rfl⟩ := List.append_singleton_inj.mp hsplit
    have hnone := h.valueless
    rw [lastValue?_append_singleton, ← Store.after_append, ← List.append_cons,
      Option.or_eq_none_iff] at hnone
    exact .inr ⟨hnone.1, front, rfl, h.fails, hnone.2⟩

end LeavesAnswer

/-- Behind any texts the answer is the value of the last text that has one, and without such a text
it is as at the start, unless a text behind that one fails behind an assignment to the answer. Then
the answer is what the last text of this kind writes to it. -/
theorem answer_after (store : Store) (texts : List String) :
    ((store.after texts).get? Evaluation.answer =
        (lastValue? store texts).or (store.get? Evaluation.answer) ∧
      ∀ before text behind v, texts = before ++ text :: behind →
        ¬ LeavesAnswer store before text behind v) ∨
      ∃ before text behind v, texts = before ++ text :: behind ∧
        LeavesAnswer store before text behind v ∧
        (∀ before' text' behind' v', texts = before' ++ text' :: behind' →
          LeavesAnswer store before' text' behind' v' → before'.length ≤ before.length) ∧
        (store.after texts).get? Evaluation.answer = some v := by
  induction texts using List.reverseRecOn with
  | nil => exact .inl ⟨rfl, by simp⟩
  | append_singleton texts text ih =>
      rw [lastValue?_append_singleton, Store.after_append_singleton]
      cases hresult : (evaluate (store.after texts) text).result with
      | ok v =>
          left
          rw [answer_of_success hresult]
          refine ⟨rfl, ?_⟩
          intro before failed behind w hsplit hleaves
          obtain ⟨-, e, -, he, -⟩ | ⟨hnone, -⟩ := hleaves.cases_append_singleton hsplit
          · simp [hresult] at he
          · simp [hresult, Except.toOption] at hnone
      | error e =>
          have hnone : (evaluate (store.after texts) text).result.toOption = none := by
            rw [hresult]
            rfl
          obtain ⟨hsame, hkeeps⟩ | ⟨v, hfails, hanswer⟩ := answer_of_failure hresult
          · rw [hsame]
            obtain ⟨hlast, hall⟩ | ⟨before, failed, behind, v, rfl, hleaves, hlast, hanswer⟩ := ih
            · refine .inl ⟨hlast, ?_⟩
              intro before failed behind v hsplit hleaves
              obtain ⟨-, hfails⟩ | ⟨-, front, hfront, hbefore⟩ :=
                hleaves.cases_append_singleton hsplit
              · exact hkeeps v hfails
              · exact hall before failed front v hfront hbefore
            · refine .inr ⟨before, failed, behind ++ [text], v, by simp,
                hleaves.append_singleton hnone, ?_, hanswer⟩
              intro before' failed' behind' v' hsplit hleaves'
              obtain ⟨-, hfails⟩ | ⟨-, front, hfront, hbefore⟩ :=
                hleaves'.cases_append_singleton hsplit
              · exact absurd hfails (hkeeps v')
              · exact hlast before' failed' front v' hfront hbefore
          · refine .inr ⟨texts, text, [], v, rfl, ⟨hfails, rfl⟩, ?_, hanswer⟩
            intro before' failed' behind' v' hsplit _
            have hlength := congrArg List.length hsplit
            simp only [List.length_append, List.length_cons, List.length_nil] at hlength
            omega

theorem answer_ne_lastValue :
    (Store.empty.after ["7", "($ans = 5"]).get? Evaluation.answer = some 5 ∧
      lastValue? .empty ["7", "($ans = 5"] = some 7 := by
  decide +kernel

end Reckoner
