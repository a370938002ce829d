import Reckoner.Proofs.Pending

/-!
# What an evaluation writes

An assignment is a name with a `=` behind it, and all tokens behind these are its right-hand side.
The store is written only where the text ends, and there the stack is completed from its top: the
last assignment first. So a failure in front of the end leaves the store, and a failure at the end
comes after the writes of those assignments that stand behind what failed.
-/

namespace Reckoner

/-- The assignments among some tokens, from left to right: the name and the right-hand side. -/
def assignments : List Token → List (String × List Token)
  | t :: u :: rest =>
    match t.kind, u.kind with
    | .name text, .assign => (text, rest) :: assignments rest
    | _, _ => assignments (u :: rest)
  | _ => []

theorem assignments_assign {t u : Token} {text : String} (ht : t.kind = .name text)
    (hu : u.kind = .assign) (rest : List Token) :
    assignments (t :: u :: rest) = (text, rest) :: assignments rest := by
  rw [assignments, ht, hu]

theorem assignments_cons {t : Token} {ts : List Token}
    (h : (∀ text, t.kind ≠ .name text) ∨ ∀ u ∈ ts.head?, u.kind ≠ .assign) :
    assignments (t :: ts) = assignments ts := by
  cases ts with
  | nil => rfl
  | cons u rest =>
      rw [assignments]
      split
      · rename_i text hname hassign
        obtain h | h := h
        · exact absurd hname (h text)
        · exact absurd hassign (h u rfl)
      · rfl

/-- Tokens without a `=` add no assignment to those behind them. -/
theorem assignments_append {ts us : List Token} (hts : ∀ t ∈ ts, t.kind ≠ .assign)
    (hus : ∀ u ∈ us.head?, u.kind ≠ .assign) : assignments (ts ++ us) = assignments us := by
  induction ts with
  | nil => rfl
  | cons t ts ih =>
      have hrest : assignments (ts ++ us) = assignments us := by
        apply ih
        intro u hu
        exact hts u (List.mem_cons_of_mem t hu)
      rw [List.cons_append, assignments_cons, hrest]
      right
      cases ts with
      | nil => exact hus
      | cons v ts =>
          rintro u ⟨⟩
          exact hts v (by simp)

/-- The tokens of a tree without assignments have no `=` among them. -/
theorem Expr.Closed.ne_assign {e : Expr} (h : e.Closed) : ∀ k ∈ e.kinds, k ≠ .assign := by
  induction e with
  | number l => simp [kinds, spellings, Spelling.kind]
  | fetch n => simp [kinds, spellings, Spelling.kind]
  | signed negative e ih =>
      cases negative <;> simpa [kinds, spellings, Spelling.kind, Mark.kind] using ih h
  | group e ih =>
      have hinner := ih h
      simp only [kinds, spellings, List.map_cons, List.map_append, List.mem_cons,
        List.mem_append] at hinner ⊢
      rintro k (rfl | hk | hk)
      · simp [Spelling.kind, Mark.kind]
      · exact hinner k hk
      · simp_all [Spelling.kind, Mark.kind]
  | assign n e ih => exact h.elim
  | binary left op right ihl ihr =>
      have hleft := ihl h.1
      have hright := ihr h.2
      simp only [kinds, spellings, List.map_cons, List.map_append, List.mem_cons,
        List.mem_append] at hleft hright ⊢
      rintro k (hk | rfl | hk)
      · exact hleft k hk
      · cases op <;> simp [Spelling.kind, Operator.mark, Mark.kind]
      · exact hright k hk

/-- A tree without `=` among its tokens has no assignments. -/
theorem Expr.closed_of_ne_assign {e : Expr} (h : ∀ k ∈ e.kinds, k ≠ .assign) : e.Closed := by
  induction e with
  | number l => trivial
  | fetch n => trivial
  | signed negative e ih =>
      apply ih
      intro k hk
      exact h k (List.mem_cons_of_mem _ hk)
  | group e ih =>
      apply ih
      intro k hk
      apply h
      simp only [kinds, spellings, List.map_cons, List.map_append] at hk ⊢
      simp [hk]
  | assign n e ih =>
      have hmark : Token.Kind.assign ∈ (assign n e).kinds := by
        simp [kinds, spellings, Spelling.kind, Mark.kind]
      exact absurd rfl (h _ hmark)
  | binary left op right ihl ihr =>
      simp only [kinds, spellings, List.map_cons, List.map_append, List.mem_append,
        List.mem_cons] at h
      exact ⟨ihl fun k hk => h k (.inl hk), ihr fun k hk => h k (.inr (.inr hk))⟩

/-- Write entries into a store, from the last to the first. -/
def Store.writeAll (s : Store) (entries : List (String × Float)) : Store :=
  entries.foldr (fun entry s => s.insert entry.1 entry.2) s

/-- Each entry is a variable that is assigned among some tokens and the value of its right-hand
side. -/
def Assigned (store : Store) (ts : List Token) (entries : List (String × Float)) : Prop :=
  List.Forall₂ (fun a entry => entry.1 = a.1 ∧ ∃ e, Denotes store a.2 e entry.2)
    (assignments ts) entries

/-- Entries are written by an evaluation of some tokens that has the given result. They are those of
all assignments, with the answer in front, where there is a value. A division by zero has those
behind its `/`, up to the token in front of which the right operand is complete, and an unclosed
group has those behind its `(`. Any other failure has none. -/
def Written (store : Store) (ts : List Token) :
    Except EvalError Float → List (String × Float) → Prop
  | .ok v, entries =>
    ∃ e assigned, Denotes store ts e v ∧ Assigned store ts assigned ∧
      entries = (Evaluation.answer, v) :: assigned
  | .error ⟨.zeroDivisor, p⟩, entries =>
    ∃ before t us rest e, ts = before ++ t :: (us ++ rest) ∧ t.place = p ∧
      ZeroDivision store t us e ∧ (∀ u ∈ rest.head?, e.Closed ∧ ¬ Continues us u) ∧
      Assigned store us entries
  | .error ⟨.unclosedGroup, _⟩, entries =>
    ∃ before t us e v, ts = before ++ t :: us ∧ t.kind = .leftParen ∧ Denotes store us e v ∧
      Assigned store us entries
  | .error _, entries => entries = []

namespace Evaluation

/-- What the end of a text makes of its tokens. -/
inductive Finished (store : Store) (finish : Place) (ts : List Token) : Evaluation → Prop where
  | complete {e : Expr} {v : Float} {entries : List (String × Float)}
      (whole : Denotes store ts e v) (assigned : Assigned store ts entries) :
      Finished store finish ts ⟨.ok v, (store.writeAll entries).insert answer v⟩
  | zeroDivision {before us : List Token} {t : Token} {e : Expr} {entries : List (String × Float)}
      (split : ts = before ++ t :: us) (division : ZeroDivision store t us e)
      (assigned : Assigned store us entries) :
      Finished store finish ts ⟨.error ⟨.zeroDivisor, t.place⟩, store.writeAll entries⟩
  | unclosedGroup {before us : List Token} {t : Token} {e : Expr} {v : Float}
      {entries : List (String × Float)} (split : ts = before ++ t :: us)
      (kind : t.kind = .leftParen) (inner : Denotes store us e v)
      (assigned : Assigned store us entries) :
      Finished store finish ts ⟨.error ⟨.unclosedGroup, finish⟩, store.writeAll entries⟩

variable {store : Store} {ts us : List Token} {stack : List Frame} {e : Expr} {v : Float}
variable {entries : List (String × Float)}

/-- The end of a text completes the stack from its top, and writes each assignment when it gets
there. -/
theorem finished_unwind (hpending : Pending store ts stack) (hoperand : Operand store stack us e v)
    (hassigned : Assigned store us entries) (finish : Place) :
    Finished store finish (ts ++ us) (unwind finish (store.writeAll entries) v stack) := by
  -- What is written so far are the assignments of the operand, which grows to the left.
  induction hpending generalizing us e v entries with
  | nil => exact .complete hoperand.denotes hassigned
  | @sign ts stack t negative below room kind ih =>
      have hsame : assignments (t :: us) = assignments us := by
        apply assignments_cons
        left
        cases negative <;> simp [kind, Spelling.kind, Mark.kind]
      rw [List.append_assoc]
      exact ih (hoperand.signed kind) (by simpa [Assigned, hsame] using hassigned)
  | @operation ts ls stack t op l a below operand closed strong blocks kind ih =>
      rw [unwind, List.append_assoc, List.append_assoc]
      cases happly : op.apply t.place a v with
      | ok c =>
          have hbinary := hoperand.binary operand closed strong blocks kind happly
          have hop : t.kind ≠ .assign ∧ ∀ text, t.kind ≠ .name text := by
            cases op <;> simp [kind, Operator.mark, Mark.kind]
          have hls : ∀ u ∈ ls, u.kind ≠ .assign := by
            intro u hu
            exact closed.ne_assign u.kind (operand.denotes.kinds ▸ List.mem_map_of_mem hu)
          have hsame : assignments (ls ++ t :: us) = assignments us := by
            rw [assignments_append hls (by simpa using hop.1), assignments_cons (.inl hop.2)]
          exact ih hbinary (by simpa [Assigned, hsame] using hassigned)
      | error f =>
          obtain ⟨hdivision, rfl, rfl⟩ := hoperand.zeroDivision kind happly
          exact .zeroDivision (List.append_assoc ..).symm hdivision hassigned
  | group below room kind =>
      exact .unclosedGroup (List.append_assoc ..) kind hoperand.denotes hassigned
  | @assignment ts stack t u n below room name kind ih =>
      have hentry : Assigned store (t :: u :: us) ((n.text, v) :: entries) := by
        rw [Assigned, assignments_assign name kind]
        exact .cons ⟨rfl, e, hoperand.denotes⟩ hassigned
      rw [List.append_assoc]
      exact ih (hoperand.assign name kind) hentry

theorem assigned_of_closed (h : Denotes store us e v) (hclosed : e.Closed) :
    Assigned store us [] := by
  have hnone : assignments (us ++ []) = assignments [] := by
    apply assignments_append
    · intro u hu
      exact hclosed.ne_assign u.kind (h.kinds ▸ List.mem_map_of_mem hu)
    · simp
  rw [List.append_nil] at hnone
  rw [Assigned, hnone]
  exact .nil

/-- How a run over a whole text ends: with its last token, with a division by zero that is complete
in front of a token, or with a token or an end that is refused. -/
inductive Ended (store : Store) (finish : Place) (ts : List Token) : Evaluation → Prop where
  | finished {last : State} {r : Evaluation} (taken : advance store (.operand []) ts = .ok last)
      (finished : Finished store finish ts r) : Ended store finish ts r
  | zeroDivision {before us rest : List Token} {t u : Token} {last : State} {e : Expr}
      (split : ts = before ++ t :: (us ++ u :: rest))
      (taken : advance store (.operand []) (before ++ t :: us) = .ok last)
      (division : ZeroDivision store t us e) (closed : e.Closed) (complete : ¬ Continues us u) :
      Ended store finish ts ⟨.error ⟨.zeroDivisor, t.place⟩, store⟩
  | refused {f : EvalError} (divisor : f.cause ≠ .zeroDivisor) (group : f.cause ≠ .unclosedGroup) :
      Ended store finish ts ⟨.error f, store⟩

theorem ended_close {last : State} (taken : advance store (.operand []) ts = .ok last)
    (h : Stands store ts last) (finish : Place) :
    Ended store finish ts (close finish store last) := by
  cases h with
  | operand pending => exact .refused (by simp) (by simp)
  | @named before stack t n pending kind =>
      have hfetch : Denotes store [t] (.fetch n) (store.value n.text) := .fetch kind
      exact .finished taken (finished_unwind pending (pending.leaf hfetch rfl rfl)
        (assigned_of_closed hfetch trivial) finish)
  | operator pending operand closed primary unnamed =>
      exact .finished taken (finished_unwind pending operand
        (assigned_of_closed operand.denotes closed) finish)

theorem ended_run (hspelled : ∀ t ∈ ts, t.Spelled) (finish : Place) :
    Ended store finish ts (run finish store (.operand []) ts) := by
  rw [run_eq_of_advance]
  cases hadvance : advance store (.operand []) ts with
  | ok last => exact ended_close hadvance (stands_advance .start hspelled hadvance) finish
  | error f =>
      obtain ⟨before, t, after, middle, rfl, hbefore, hfault⟩ :=
        exists_step_of_advance_error hadvance
      have htaken : ∀ u ∈ before, u.Spelled := by
        intro u hu
        exact hspelled u (List.mem_append_left _ hu)
      have hstands := stands_advance .start htaken hbefore
      have heffect := effect_step hstands (hspelled t (by simp))
      rw [hfault] at heffect
      cases heffect with
      | @zeroDivision left us u e split division closed complete =>
          obtain rfl : before = left ++ u :: us := split
          have hsplit : left ++ u :: us ++ t :: after = left ++ u :: (us ++ t :: after) := by simp
          exact .zeroDivision hsplit hbefore division closed complete
      | refused divisor group => exact .refused divisor group

theorem Ended.exists_written {finish : Place} {r : Evaluation} (h : Ended store finish ts r) :
    ∃ entries, Written store ts r.result entries ∧ r.store = store.writeAll entries := by
  cases h with
  | finished taken finished =>
      cases finished with
      | @complete e v assigned whole hassigned =>
          exact ⟨(answer, v) :: assigned, ⟨e, assigned, whole, hassigned, rfl⟩, rfl⟩
      | @zeroDivision before us t e entries split division assigned =>
          exact ⟨entries, ⟨before, t, us, [], e, by simpa using split, rfl, division, by simp,
            assigned⟩, rfl⟩
      | @unclosedGroup before us t e v entries split kind inner assigned =>
          exact ⟨entries, ⟨before, t, us, e, v, split, kind, inner, assigned⟩, rfl⟩
  | @zeroDivision before us rest t u last e split taken division closed complete =>
      obtain ⟨v, hdenotes, -⟩ := division.zero
      have hcomplete : ∀ x ∈ (u :: rest).head?, e.Closed ∧ ¬ Continues us x := by
        rintro x ⟨⟩
        exact ⟨closed, complete⟩
      exact ⟨[], ⟨before, t, us, u :: rest, e, split, rfl, division, hcomplete,
        assigned_of_closed hdenotes closed⟩, rfl⟩
  | @refused f divisor group =>
      obtain ⟨cause, place⟩ := f
      cases cause with
      | zeroDivisor => exact absurd rfl divisor
      | unclosedGroup => exact absurd rfl group
      | _ => exact ⟨[], rfl, rfl⟩

end Evaluation

/-- An evaluation leaves the store with written entries that fit its result. -/
theorem exists_written (store : Store) (text : String) :
    ∃ entries, Written store (Scan.ofText text).tokens (evaluate store text).result entries ∧
      (evaluate store text).store = store.writeAll entries := by
  apply Evaluation.Ended.exists_written
  apply Evaluation.ended_run
  intro t ht
  exact Scan.spelled_of_mem ht

end Reckoner
