import Mathlib.Data.List.Sort
import Reckoner.Proofs.Answer

/-!
# Locality of an evaluation

An evaluation reads the variables that its text mentions and writes those that it assigns, and the
answer. Over two stores that agree on the variables of the text it takes the same steps, has the
same result and writes the same entries. So a text without assignments that does not mention the
answer may be evaluated again and again: it has one result, and it changes the store only once.
-/

namespace Reckoner

namespace Store

/-- The value of a name is that of its only entry. -/
theorem get?_eq_some_iff (s : Store) (name : String) (v : Float) :
    s.get? name = some v ↔ (name, v) ∈ s.entries := by
  obtain ⟨entries, hascending⟩ := s
  change entries.lookup name = some v ↔ (name, v) ∈ entries
  induction entries with
  | nil => simp
  | cons entry rest ih =>
      obtain ⟨n, w⟩ := entry
      obtain ⟨hfirst, hrest⟩ := List.pairwise_cons.mp hascending
      by_cases hname : name = n
      · subst hname
        have hnone : (name, v) ∉ rest := fun hmem => String.lt_irrefl name (hfirst _ hmem)
        simp [hnone, eq_comm]
      · have hbeq : (name == n) = false := beq_false_of_ne hname
        simp [List.lookup_cons, hbeq, hname, ih hrest]

/-- Stores that give the same values to all names are equal. -/
theorem eq_of_get? {s t : Store} (h : ∀ name, s.get? name = t.get? name) : s = t := by
  have hirrefl : Std.Irrefl fun a b : String × Float => a.1 < b.1 :=
    ⟨fun a => String.lt_irrefl a.1⟩
  have hantisymm : Std.Antisymm fun a b : String × Float => a.1 < b.1 :=
    ⟨fun a b hab hba => absurd (String.lt_trans hab hba) (String.lt_irrefl a.1)⟩
  have hentries : s.entries = t.entries := by
    apply s.ascending.eq_of_mem_iff t.ascending
    rintro ⟨name, v⟩
    rw [← get?_eq_some_iff, ← get?_eq_some_iff, h]
  obtain ⟨entries, ascending⟩ := s
  obtain rfl : entries = t.entries := hentries
  rfl

/-- Entries that are written once more change nothing. -/
theorem writeAll_writeAll (s : Store) (entries : List (String × Float)) :
    (s.writeAll entries).writeAll entries = s.writeAll entries := by
  apply eq_of_get?
  intro name
  rw [get?_writeAll, get?_writeAll, ← Option.or_assoc, Option.or_self]

end Store

/-- Whether the name of a variable occurs among some tokens. -/
def Mentions (ts : List Token) (name : String) : Prop :=
  ∃ t ∈ ts, t.kind = .name name

theorem mentions_iff (ts : List Token) (name : String) :
    Mentions ts name ↔ .name name ∈ ts.map Token.kind := by
  simp [Mentions]

def Assigns (ts : List Token) (name : String) : Prop :=
  ∃ rhs, (name, rhs) ∈ assignments ts

variable {store store' : Store} {ts us : List Token} {name : String}

theorem Assigns.mentions (h : Assigns ts name) : Mentions ts name := by
  obtain ⟨rhs, hmem⟩ := h
  induction ts with
  | nil => simp [assignments] at hmem
  | cons t ts ih =>
      have hrest (h : (name, rhs) ∈ assignments ts) : Mentions (t :: ts) name := by
        obtain ⟨u, hu, hkind⟩ := ih h
        exact ⟨u, List.mem_cons_of_mem t hu, hkind⟩
      by_cases hother : (∀ text, t.kind ≠ .name text) ∨ ∀ u ∈ ts.head?, u.kind ≠ .assign
      · rw [assignments_cons hother] at hmem
        exact hrest hmem
      · push Not at hother
        obtain ⟨⟨text, ht⟩, u, hu, hassign⟩ := hother
        obtain ⟨others, rfl⟩ : ∃ others, ts = u :: others := by
          cases ts <;> simp_all
        rw [assignments_assign ht hassign] at hmem
        obtain heq | hmem := List.mem_cons.mp hmem
        · obtain ⟨rfl, -⟩ := Prod.mk.inj heq
          exact ⟨t, List.mem_cons_self, ht⟩
        · exact hrest ((assignments_suffix [u] others).mem hmem)

namespace Evaluation

variable {s : State} {stack : List Frame} {v : Float}

/-! ### Reading -/

theorem Stands.mentions (h : Stands store ts (.named name stack)) : Mentions ts name := by
  cases h with
  | @named before _ t n pending kind => exact ⟨t, by simp, kind⟩

/-- A step reads the store for the variable that was read last, and for nothing else. -/
theorem step_congr (h : ∀ name stack, s = .named name stack → store.value name = store'.value name)
    (t : Token) : step store s t = step store' s t := by
  cases s with
  | named name stack => rw [step, step, h name stack rfl]
  | _ => rfl

/-- A run reads the variables that its tokens mention. -/
theorem advance_congr (hstands : Stands store ts s) (hspelled : ∀ t ∈ us, t.Spelled)
    (h : ∀ name, Mentions (ts ++ us) name → store.get? name = store'.get? name) :
    advance store s us = advance store' s us := by
  induction us generalizing ts s with
  | nil => rfl
  | cons t rest ih =>
      have hread : ∀ name stack, s = .named name stack → store.value name = store'.value name := by
        rintro name stack rfl
        obtain ⟨u, hu, hkind⟩ := hstands.mentions
        rw [Store.value, Store.value, h name ⟨u, List.mem_append_left _ hu, hkind⟩]
      have heffect := effect_step hstands (hspelled t List.mem_cons_self)
      rw [advance, advance, ← step_congr hread t]
      cases hstep : step store s t with
      | error e => rfl
      | ok next =>
          rw [hstep] at heffect
          cases heffect with
          | next stands =>
              have hrest : ∀ u ∈ rest, u.Spelled := by
                intro u hu
                exact hspelled u (List.mem_cons_of_mem t hu)
              exact ih stands hrest (by simpa using h)

/-! ### Writing -/

/-- What a text yields over every store that has the values it reads: a result and the entries that
are written. They belong to variables of the given names, and a value is written as the answer. -/
structure Yield (names : String → Prop) (r : Except EvalError Float)
    (entries : List (String × Float)) : Prop where
  named : ∀ entry ∈ entries, names entry.1 ∨ entry.1 = answer ∧ ∃ v, r = .ok v
  answered : ∀ v, r = .ok v → entries.lookup answer = some v

theorem Yield.failure (names : String → Prop) (e : EvalError) : Yield names (.error e) [] :=
  ⟨by simp, by simp⟩

theorem Yield.mono {names names' : String → Prop} {r : Except EvalError Float}
    {entries : List (String × Float)} (h : Yield names r entries)
    (hnames : ∀ n, names n → names' n) : Yield names' r entries :=
  ⟨fun entry hentry => (h.named entry hentry).imp_left (hnames entry.1), h.answered⟩

/-- A name that is not written keeps its value. -/
theorem Yield.lookup_eq_none {names : String → Prop} {r : Except EvalError Float}
    {entries : List (String × Float)} (h : Yield names r entries) (hname : ¬ names name)
    (hanswer : (∃ v, r = .ok v) → name ≠ answer) : entries.lookup name = none := by
  rw [List.lookup_eq_none_iff]
  rintro entry hentry
  rw [bne_iff_ne]
  rintro rfl
  obtain hnamed | ⟨heq, hok⟩ := h.named entry hentry
  · exact hname hnamed
  · exact hanswer hok heq

/-- The end of a text writes the assignments that wait on the stack, over any store. -/
theorem exists_yield_unwind (finish : Place) (v : Float) (stack : List Frame) :
    ∃ r entries, Yield (fun n => .assignment n ∈ stack) r entries ∧
      ∀ store, unwind finish store v stack = ⟨r, store.writeAll entries⟩ := by
  induction stack generalizing v with
  | nil =>
      refine ⟨.ok v, [(answer, v)], ⟨?_, ?_⟩, fun store => rfl⟩
      · rintro entry hentry
        obtain rfl := List.mem_singleton.mp hentry
        exact .inr ⟨rfl, v, rfl⟩
      · rintro w ⟨⟩
        simp
  | cons frame below ih =>
      have hbelow (v : Float) :
          ∃ r entries, Yield (fun n => .assignment n ∈ frame :: below) r entries ∧
            ∀ store, unwind finish store v below = ⟨r, store.writeAll entries⟩ := by
        obtain ⟨r, entries, hyield, hunwind⟩ := ih v
        exact ⟨r, entries, hyield.mono fun n hn => List.mem_cons_of_mem frame hn, hunwind⟩
      cases frame with
      | sign negative => exact hbelow (signed negative v)
      | operation left op place =>
          simp only [unwind]
          cases op.apply place left v with
          | ok c => exact hbelow c
          | error e => exact ⟨.error e, [], .failure _ e, fun store => rfl⟩
      | group => exact ⟨_, [], .failure _ ⟨.unclosedGroup, finish⟩, fun store => rfl⟩
      | assignment n =>
          obtain ⟨r, entries, hyield, hunwind⟩ := hbelow v
          refine ⟨r, entries ++ [(n, v)], ⟨?_, ?_⟩, ?_⟩
          · intro entry hentry
            obtain hentry | hentry := List.mem_append.mp hentry
            · exact hyield.named entry hentry
            · obtain rfl := List.mem_singleton.mp hentry
              exact .inl List.mem_cons_self
          · intro w hw
            rw [List.lookup_append, hyield.answered w hw]
            rfl
          · intro store
            rw [unwind, hunwind, Store.writeAll_append]
            rfl

/-- An assignment that waits on the stack is one of the text. -/
theorem Pending.assigns (h : Pending store ts stack) (hmem : .assignment name ∈ stack)
    (us : List Token) : Assigns (ts ++ us) name := by
  induction h generalizing us with
  | nil => simp at hmem
  | sign negative below room kind ih =>
      rw [List.append_assoc]
      exact ih (by simpa using hmem) _
  | operation below operand closed strong blocks kind ih =>
      rw [List.append_assoc, List.append_assoc]
      exact ih (by simpa using hmem) _
  | group below room kind ih =>
      rw [List.append_assoc]
      exact ih (by simpa using hmem) _
  | @assignment ts stack t u n below room hname kind ih =>
      rw [List.append_assoc]
      obtain heq | hmem := List.mem_cons.mp hmem
      · obtain rfl := Frame.assignment.inj heq
        refine ⟨us, (assignments_suffix ts _).mem ?_⟩
        simp [assignments_assign hname kind]
      · exact ih hmem _

/-- What the end of a text yields, from any state that stands for its tokens. -/
theorem exists_yield_close (hstands : Stands store ts s) (finish : Place) :
    ∃ r entries, Yield (Assigns ts) r entries ∧
      ∀ store', (∀ name, Mentions ts name → store.get? name = store'.get? name) →
        close finish store' s = ⟨r, store'.writeAll entries⟩ := by
  cases hstands with
  | operand pending => exact ⟨_, [], .failure _ ⟨.operandExpected, finish⟩, fun _ _ => rfl⟩
  | @named before stack t n pending kind =>
      obtain ⟨r, entries, hyield, hunwind⟩ :=
        exists_yield_unwind finish (store.value n.text) stack
      refine ⟨r, entries, hyield.mono fun _ hn => pending.assigns hn _, ?_⟩
      intro store' h
      have hvalue : store'.value n.text = store.value n.text := by
        rw [Store.value, Store.value, h n.text ⟨t, by simp, kind⟩]
      rw [close, hvalue, hunwind]
  | @operator before us stack e v pending operand closed primary unnamed =>
      obtain ⟨r, entries, hyield, hunwind⟩ := exists_yield_unwind finish v stack
      exact ⟨r, entries, hyield.mono fun _ hn => pending.assigns hn _,
        fun store' _ => hunwind store'⟩

/-- A run yields the same over all stores that agree on what its tokens mention. -/
theorem exists_yield_run (store : Store) (hspelled : ∀ t ∈ ts, t.Spelled) (finish : Place) :
    ∃ r entries, Yield (Assigns ts) r entries ∧
      ∀ store', (∀ name, Mentions ts name → store.get? name = store'.get? name) →
        run finish store' (.operand []) ts = ⟨r, store'.writeAll entries⟩ := by
  cases hadvance : advance store (.operand []) ts with
  | error e =>
      refine ⟨.error e, [], .failure _ e, ?_⟩
      intro store' h
      rw [run_eq_of_advance, ← advance_congr .start hspelled h, hadvance]
      rfl
  | ok last =>
      obtain ⟨r, entries, hyield, hclose⟩ :=
        exists_yield_close (stands_advance .start hspelled hadvance) finish
      refine ⟨r, entries, hyield, ?_⟩
      intro store' h
      rw [run_eq_of_advance, ← advance_congr .start hspelled h, hadvance]
      exact hclose store' h

end Evaluation

/-! ### Texts -/

/-- A text yields the same over all stores that agree on what it mentions. -/
theorem exists_yield (store : Store) (text : String) :
    ∃ r entries, Evaluation.Yield (Assigns (Scan.ofText text).tokens) r entries ∧
      ∀ store', (∀ name, Mentions (Scan.ofText text).tokens name →
          store.get? name = store'.get? name) →
        evaluate store' text = ⟨r, store'.writeAll entries⟩ := by
  apply Evaluation.exists_yield_run
  intro t ht
  exact Scan.spelled_of_mem ht

/-- A text that neither assigns nor mentions the answer has one result over a store, and leaves the
store as its first evaluation left it. -/
theorem evaluate_again {text : String} (hassigns : ∀ name, ¬ Assigns (Scan.ofText text).tokens name)
    (hanswer : ¬ Mentions (Scan.ofText text).tokens Evaluation.answer) (store : Store) :
    evaluate (evaluate store text).store text = evaluate store text := by
  obtain ⟨r, entries, hyield, hall⟩ := exists_yield store text
  have hfirst := hall store fun _ _ => rfl
  have hagree : ∀ name, Mentions (Scan.ofText text).tokens name →
      store.get? name = (evaluate store text).store.get? name := by
    intro name hname
    have hne : name ≠ Evaluation.answer := by
      rintro rfl
      exact hanswer hname
    rw [hfirst, Store.get?_writeAll, hyield.lookup_eq_none (hassigns name) fun _ => hne]
    rfl
  rw [hall _ hagree, hfirst, Store.writeAll_writeAll]

/-- Over two stores that agree on the names in a text, the text has one result; afterwards the
stores agree on these names and, behind a value, on the answer, and all other names are as before. A
text without assignments that does not mention the answer gives the same result and the same store
each time. -/
theorem evaluation_local (text : String) :
    (∀ s t : Store,
      (∀ name, Mentions (Scan.ofText text).tokens name → s.get? name = t.get? name) →
      (evaluate s text).result = (evaluate t text).result ∧
      (∀ name, Mentions (Scan.ofText text).tokens name →
        (evaluate s text).store.get? name = (evaluate t text).store.get? name) ∧
      (∀ v, (evaluate s text).result = .ok v →
        (evaluate s text).store.get? Evaluation.answer = some v ∧
          (evaluate t text).store.get? Evaluation.answer = some v) ∧
      ∀ name, ¬ Mentions (Scan.ofText text).tokens name →
        ((∃ v, (evaluate s text).result = .ok v) → name ≠ Evaluation.answer) →
        (evaluate s text).store.get? name = s.get? name ∧
          (evaluate t text).store.get? name = t.get? name) ∧
    (assignments (Scan.ofText text).tokens = [] →
      ¬ Mentions (Scan.ofText text).tokens Evaluation.answer →
      ∀ (s : Store) (k : Nat),
        evaluations s (List.replicate k text) = List.replicate k (evaluate s text)) := by
  constructor
  · intro s t hagree
    obtain ⟨r, entries, hyield, hall⟩ := exists_yield s text
    rw [hall s fun _ _ => rfl, hall t hagree]
    refine ⟨rfl, ?_, ?_, ?_⟩
    · intro name hname
      rw [Store.get?_writeAll, Store.get?_writeAll, hagree name hname]
    · intro v hv
      rw [Store.get?_writeAll, Store.get?_writeAll, hyield.answered v hv]
      exact ⟨rfl, rfl⟩
    · intro name hname hanswer
      have hunnamed : ¬ Assigns (Scan.ofText text).tokens name := fun h => hname h.mentions
      rw [Store.get?_writeAll, Store.get?_writeAll, hyield.lookup_eq_none hunnamed hanswer]
      exact ⟨rfl, rfl⟩
  · intro hassigns hanswer s k
    have hnone : ∀ name, ¬ Assigns (Scan.ofText text).tokens name := by
      rintro name ⟨rhs, hmem⟩
      simp [hassigns] at hmem
    induction k generalizing s with
    | zero => rfl
    | succ k ih =>
        rw [List.replicate_succ, evaluations, ih, evaluate_again hnone hanswer,
          List.replicate_succ]

theorem evaluation_local_failed_division :
    let s := Store.empty
    let t := Store.empty.insert "$y" 4
    (evaluate s "1 / $z = $x").result = (evaluate t "1 / $z = $x").result ∧
      (evaluate s "1 / $z = $x").store.get? "$z" = (evaluate t "1 / $z = $x").store.get? "$z" ∧
      (evaluate t "1 / $z = $x").store.get? "$y" = some 4 ∧
      evaluations t ["-$y ^ 2", "-$y ^ 2"] = [evaluate t "-$y ^ 2", evaluate t "-$y ^ 2"] := by
  intro s t
  have hkinds : (Scan.ofText "1 / $z = $x").tokens.map Token.kind =
      [.number 1, .divide, .name "$z", .assign, .name "$x"] := by decide +kernel
  have hmentions (name : String) :
      Mentions (Scan.ofText "1 / $z = $x").tokens name ↔ name = "$z" ∨ name = "$x" := by
    simp [mentions_iff, hkinds]
  have hagree : ∀ name, Mentions (Scan.ofText "1 / $z = $x").tokens name →
      s.get? name = t.get? name := by
    intro name hname
    obtain rfl | rfl := (hmentions name).mp hname
    · rfl
    · rfl
  have hfailed : ¬ ∃ v, (evaluate s "1 / $z = $x").result = .ok v := by
    have hresult : (evaluate s "1 / $z = $x").result = .error ⟨.zeroDivisor, ⟨1, 3⟩⟩ := by
      decide +kernel
    simp [hresult]
  have hy : ¬ Mentions (Scan.ofText "1 / $z = $x").tokens "$y" := by
    rw [hmentions]
    decide
  have hanswer : ¬ Mentions (Scan.ofText "-$y ^ 2").tokens Evaluation.answer := by
    have hkinds : (Scan.ofText "-$y ^ 2").tokens.map Token.kind =
        [.minus, .name "$y", .power, .number 2] := by decide +kernel
    simp [mentions_iff, hkinds, Evaluation.answer]
  obtain ⟨hresult, hnames, -, hothers⟩ := (evaluation_local "1 / $z = $x").1 s t hagree
  refine ⟨hresult, hnames "$z" ((hmentions "$z").mpr (.inl rfl)), ?_, ?_⟩
  · exact (hothers "$y" hy fun h => absurd h hfailed).2
  · exact (evaluation_local "-$y ^ 2").2 (by decide +kernel) hanswer t 2

end Reckoner
