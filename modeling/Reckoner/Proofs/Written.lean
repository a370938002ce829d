import Mathlib.Data.List.Forall2
import Mathlib.Data.List.Nodup
import Reckoner.Proofs.Acceptance
import Reckoner.Proofs.Composition
import Reckoner.Proofs.LineEnd

/-!
# Exactly what an evaluation writes

The result of an evaluation tells which entries it writes: for every text there is one list of them
that fits. No two tokens share a place, so the place of a division by zero gives its `/`. The right
operand ends in front of the first token that does not go on with it, since a run fails there; and
behind the `(` of an unclosed group stands a complete tree, in which no other group is unclosed.
-/

namespace Reckoner

/-! ### Places of tokens -/

/-- No two tokens of segments have one place. -/
theorem Segment.nodup_places (cs : List Char) (gs : List Segment) :
    ((tokens (Place.behind cs) gs).map Token.place).Nodup := by
  induction gs generalizing cs with
  | nil => exact List.nodup_nil
  | cons g gs ih =>
      rw [tokens, List.map_cons, List.nodup_cons, Place.behind_afterAll]
      refine ⟨?_, ih _⟩
      intro hmem
      obtain ⟨t, ht, hplace⟩ := List.mem_map.mp hmem
      obtain ⟨before, behind, -, -, hbehind⟩ := place_of_mem_tokens ht
      rw [hbehind, Place.behind_afterAll, token, Place.behind_afterAll] at hplace
      have hne : g.lexeme ++ before ≠ [] := by simp [lexeme]
      apply Place.behind_append_ne (cs ++ g.blanks) hne
      simpa [chars] using hplace.symm

theorem Scan.nodup_places (text : String) : ((ofText text).tokens.map Token.place).Nodup := by
  obtain ⟨gs, tail, htext, hread, -⟩ := Segment.exists_read text.toList
  rw [ofText, Cursor.ofText, htext, Segment.scan_of_read hread]
  exact Segment.nodup_places [] gs

variable {store : Store} {ts us us' rest rest' before before' : List Token} {t t' : Token}
variable {e e' : Expr} {v v' : Float} {entries other : List (String × Float)}

/-- Where no two tokens share a place, a place splits them in one way. -/
theorem split_unique (hplaces : (ts.map Token.place).Nodup) (h : ts = before ++ t :: us)
    (h' : ts = before' ++ t' :: us') (hplace : t.place = t'.place) : t = t' ∧ us = us' := by
  have hnodup : (before' ++ t' :: us').Nodup := h' ▸ hplaces.of_map
  obtain rfl : t = t' := by
    apply List.inj_on_of_nodup_map hplaces
    · simp [h]
    · simp [h']
    · exact hplace
  have hnot : t ∉ before' ++ us' := (List.nodup_middle.mp hnodup).notMem
  rw [List.mem_append, not_or] at hnot
  obtain ⟨-, -, hbehind⟩ := (List.append_cons_inj_of_notMem hnot.1 hnot.2).mp (h'.symm.trans h)
  exact ⟨rfl, hbehind.symm⟩

/-! ### Values of assignments -/

/-- The assignments among some tokens have at most one list of values. -/
theorem Assigned.unique (h : Assigned store ts entries) (h' : Assigned store ts other) :
    entries = other := by
  apply Relator.RightUnique.forall₂ ?_ h h'
  rintro a ⟨n, v⟩ ⟨n', v'⟩ ⟨hname, e, he⟩ ⟨hname', e', he'⟩
  rw [Prod.mk.injEq]
  exact ⟨hname.trans hname'.symm, he.unique he'⟩

/-! ### The end of a right operand -/

namespace Evaluation

/-- Some operand can stand in front of a `/`. -/
theorem exists_dividend (store : Store) (ht : t.kind = .divide) :
    ∃ (u : Token) (left : Float), u.Spelled ∧
      advance store (.operand []) [u, t] = .ok (.operand [.operation left .divide t.place]) := by
  let n : Name := ⟨'a', [], by decide, by simp⟩
  have hname : step store (.operand []) ⟨.name n.text, Place.start⟩ = .ok (.named n.text []) :=
    step_name rfl
  have hdivide : step store (.named n.text []) t =
      .ok (.operand [.operation (store.value n.text) .divide t.place]) := by
    simp only [step, ht]
    simp [takeOperator, ht, Operator.ofKind?, reduce, bind, Except.bind, pure, Except.pure]
  refine ⟨⟨.name n.text, Place.start⟩, store.value n.text, ?_, ?_⟩
  · exact ⟨fun _ h => ⟨n, Token.Kind.name.inj h⟩, by simp⟩
  · simp only [advance, hname, Except.bind, hdivide]

theorem exists_advance_of_settled {s : State} {k : Nat} {operand : Float × List Frame}
    (h : settled store k s ts = some (.ok operand)) : ∃ last, advance store s ts = .ok last := by
  obtain ⟨last, value, stack, hlast, -⟩ | ⟨f, -, hf⟩ := settled_cases h
  · exact ⟨last, hlast⟩
  · simp at hf

theorem exists_advance_of_result {s : State} {finish : Place}
    (h : (run finish store s ts).result = .ok v) : ∃ last, advance store s ts = .ok last := by
  rw [run_eq_of_advance] at h
  cases hadvance : advance store s ts with
  | ok last => exact ⟨last, rfl⟩
  | error f => simp [hadvance] at h

/-- The whole right operand of a division is taken behind its `/`. -/
theorem exists_advance_of_zeroDivision (h : ZeroDivision store t us e) (left : Float) :
    ∃ last, advance store (.operand [.operation left .divide t.place]) us = .ok last := by
  obtain ⟨v, hdenotes, -⟩ := h.zero
  have hdepth : depth [.operation left .divide t.place] + e.nesting ≤ maxNesting := by
    rw [depth_operation, depth_nil, Nat.zero_add]
    exact hdenotes.nested
  by_cases hclosed : e.Closed
  · have hblocks : Blocks e.strength [.operation left .divide t.place] :=
      (blocks_operation ..).mpr h.strong
    have hsettled : settled store e.strength (.operand [.operation left .divide t.place]) us = _ :=
      settled_closed hdenotes.grammatical hclosed hdenotes.kinds hdepth (h.fits left [])
        (Nat.le_refl _)
    rw [hdenotes.outcome, Except.bind, reduce_of_blocks hblocks] at hsettled
    exact exists_advance_of_settled hsettled
  · obtain ⟨w, n, below, hsettled⟩ := settled_open hdenotes.grammatical hclosed hdenotes.kinds
      hdenotes.outcome hdepth (h.fits left [])
    exact exists_advance_of_settled hsettled

/-- Where the right operand of a division by zero is complete, no other operand of the division
goes on. Behind a dividend the longer operand would be taken, but a run fails at the end of the
shorter one. -/
theorem length_le_of_zeroDivision (hspelled : ∀ x ∈ us ++ rest, x.Spelled)
    (h : ZeroDivision store t us e) (hcomplete : ∀ u ∈ rest.head?, e.Closed ∧ ¬ Continues us u)
    (h' : ZeroDivision store t us' e') (hsplit : us' ++ rest' = us ++ rest) :
    us'.length ≤ us.length := by
  obtain ⟨u, left, hu, hdividend⟩ := exists_dividend store h.kind
  obtain ⟨last, hoperand⟩ := exists_advance_of_zeroDivision h' left
  have htaken : advance store (.operand []) (u :: t :: us') = .ok last := by
    have happend := advance_append store (.operand []) [u, t] us'
    rw [hdividend] at happend
    exact happend.trans hoperand
  have hzero : DividesByZero store (u :: t :: us) rest t.place :=
    ⟨[u], t, us, e, rfl, rfl, h, hcomplete⟩
  have hall : ∀ x ∈ (u :: t :: us') ++ rest', x.Spelled := by
    simp only [List.cons_append, List.forall_mem_cons, hsplit]
    exact ⟨hu, by simp [Token.Spelled, h.kind], hspelled⟩
  have hlength := length_le_of_dividesByZero hall htaken
    (show (u :: t :: us') ++ rest' = (u :: t :: us) ++ rest by simp [hsplit]) hzero
  simpa using hlength

/-! ### Unclosed groups -/

/-- A `(` is taken only where an operand is due, and then it waits for its group. -/
theorem exists_of_step_leftParen {s next : State} (ht : t.kind = .leftParen)
    (h : step store s t = .ok next) : ∃ below, next = .operand (.group :: below) := by
  have hbehind {w : Float} {stack : List Frame} : takeOperator w stack t ≠ .ok next := by
    intro h
    simp only [takeOperator, ht, Operator.ofKind?] at h
    obtain ⟨reduced, -, hother⟩ := exists_of_bind_eq_ok h
    simp [takeOther, ht] at hother
  cases s with
  | operand stack =>
      rw [step_leftParen ht] at h
      obtain ⟨-, rfl⟩ := lt_of_nest h
      exact ⟨stack, rfl⟩
  | named name stack =>
      simp only [step, ht] at h
      exact absurd h hbehind
  | operator w stack => exact absurd h hbehind

/-- Among the tokens of a tree no complete tree stands behind a `(`: the group would be unclosed. -/
theorem not_denotes_behind_leftParen (hspelled : ∀ x ∈ before ++ t :: us, x.Spelled)
    (ht : t.kind = .leftParen) (h : Denotes store (before ++ t :: us) e v) :
    ¬ Denotes store us e' v' := by
  intro hinner
  have hresult := h.result_run Place.start
  rw [List.append_cons] at hresult hspelled
  obtain ⟨last, hlast⟩ := exists_advance_of_result hresult
  obtain ⟨middle, htaken, hrest⟩ := exists_of_advance_append hlast
  obtain ⟨s, -, hstep⟩ := exists_of_advance_append_singleton htaken
  obtain ⟨below, rfl⟩ := exists_of_step_leftParen ht hstep
  have hstands := stands_advance .start
    (fun x hx => hspelled x (List.mem_append_left us hx)) htaken
  have hfits : e'.Fits (.group :: below) := Expr.fits_of_blocks (blocks_group ..)
  have hdepth := nesting_le_of_advance hinner.grammatical hinner.kinds hstands.pending.depth_le
    hfits hrest
  rw [run_append htaken, result_run hinner.grammatical hinner.kinds hdepth hfits,
    hinner.outcome] at hresult
  simp [Except.bind, unwind] at hresult

/-- What stands behind the last unclosed group is one tree. -/
theorem length_le_of_unclosedGroup (hspelled : ∀ x ∈ ts, x.Spelled) (h : ts = before ++ t :: us)
    (h' : ts = before' ++ t' :: us') (ht : t.kind = .leftParen) (hdenotes : Denotes store us e v)
    (hdenotes' : Denotes store us' e' v') : us'.length ≤ us.length := by
  by_contra hlt
  have hshort : t :: us <:+ ts := ⟨before, h.symm⟩
  have hlong : us' <:+ ts := ⟨before' ++ [t'], by simp [h']⟩
  obtain ⟨middle, hmiddle⟩ : t :: us <:+ us' :=
    List.suffix_of_suffix_length_le hshort hlong (Nat.succ_le_of_lt (Nat.not_le.mp hlt))
  obtain rfl := hmiddle
  have hinner : ∀ x ∈ middle ++ t :: us, x.Spelled := by
    intro x hx
    exact hspelled x (h' ▸ List.mem_append_right before' (List.mem_cons_of_mem t' hx))
  exact not_denotes_behind_leftParen hinner ht hdenotes' hdenotes

end Evaluation

/-! ### The written entries -/

/-- Where no two tokens share a place, at most one list of entries fits a result. -/
theorem Written.unique (hspelled : ∀ x ∈ ts, x.Spelled) (hplaces : (ts.map Token.place).Nodup)
    {result : Except EvalError Float} (h : Written store ts result entries)
    (h' : Written store ts result other) : entries = other := by
  match result with
  | .ok v =>
      obtain ⟨e, assigned, -, hassigned, rfl⟩ := h
      obtain ⟨e', assigned', -, hassigned', rfl⟩ := h'
      rw [hassigned.unique hassigned']
  | .error ⟨.zeroDivisor, p⟩ =>
      obtain ⟨before, t, us, rest, e, hsplit, rfl, hdivision, hcomplete, hassigned⟩ := h
      obtain ⟨before', t', us', rest', e', hsplit', hplace, hdivision', hcomplete', hassigned'⟩ := h'
      obtain ⟨rfl, hbehind⟩ := split_unique hplaces hsplit hsplit' hplace.symm
      have hafter : ∀ x ∈ us ++ rest, x.Spelled := by
        intro x hx
        exact hspelled x (hsplit ▸ List.mem_append_right before (List.mem_cons_of_mem t hx))
      have hlength : us.length = us'.length := by
        apply Nat.le_antisymm
        · exact Evaluation.length_le_of_zeroDivision (hbehind ▸ hafter) hdivision' hcomplete'
            hdivision hbehind
        · exact Evaluation.length_le_of_zeroDivision hafter hdivision hcomplete hdivision'
            hbehind.symm
      obtain ⟨rfl, -⟩ := List.append_inj hbehind hlength
      exact hassigned.unique hassigned'
  | .error ⟨.unclosedGroup, p⟩ =>
      obtain ⟨before, t, us, e, v, hsplit, ht, hdenotes, hassigned⟩ := h
      obtain ⟨before', t', us', e', v', hsplit', ht', hdenotes', hassigned'⟩ := h'
      have hlength : us.length = us'.length := by
        apply Nat.le_antisymm
        · exact Evaluation.length_le_of_unclosedGroup hspelled hsplit' hsplit ht' hdenotes'
            hdenotes
        · exact Evaluation.length_le_of_unclosedGroup hspelled hsplit hsplit' ht hdenotes
            hdenotes'
      rw [List.append_cons] at hsplit hsplit'
      obtain ⟨-, rfl⟩ := List.append_inj' (hsplit.symm.trans hsplit') hlength
      exact hassigned.unique hassigned'
  | .error ⟨.token fault, p⟩ | .error ⟨.operandExpected, p⟩ | .error ⟨.misplaced, p⟩
  | .error ⟨.unopenedGroup, p⟩ | .error ⟨.tooDeep, p⟩ => exact h.trans h'.symm

/-- An evaluation of some tokens leaves the store with the entries that fit its result, and only one
list of entries fits. -/
def Wrote (store : Store) (ts : List Token) (r : Evaluation) : Prop :=
  ∃ entries, (∀ other, Written store ts r.result other ↔ other = entries) ∧
    r.store = store.writeAll entries

theorem wrote_evaluate (store : Store) (text : String) :
    Wrote store (Scan.ofText text).tokens (evaluate store text) := by
  obtain ⟨entries, hwritten, hstore⟩ := exists_written store text
  refine ⟨entries, ?_, hstore⟩
  intro other
  constructor
  · intro hother
    exact hother.unique (fun _ => Scan.spelled_of_mem) (Scan.nodup_places text) hwritten
  · rintro rfl
    exact hwritten

/-- An evaluation writes all assignments of its text and the answer when it succeeds, those behind
the division or the unclosed group at which its end fails, and nothing when anything else fails. A
source that cannot be read leaves the store. -/
theorem evaluation_writes (store : Store) :
    (∀ text, Wrote store (Scan.ofText text).tokens (evaluate store text)) ∧
      ∀ source : Source,
        match source.text with
        | .ok text => Wrote store (Scan.ofText text).tokens (evaluateSource store source)
        | .error e => evaluateSource store source = ⟨.error ⟨.token e.cause, e.place⟩, store⟩ := by
  refine ⟨wrote_evaluate store, ?_⟩
  intro source
  cases h : source.text with
  | error e => simp [evaluateSource, h]
  | ok text => simpa [evaluateSource, h] using wrote_evaluate store text

/-- An assignment that is a divisor was evaluated when the end of its text finds it zero, and so it
is written. -/
theorem evaluation_writes_divisor :
    let text := "1 / $a = 0"
    let r := evaluate .empty text
    r.result = .error ⟨.zeroDivisor, ⟨1, 3⟩⟩ ∧
      (∀ entries, Written .empty (Scan.ofText text).tokens r.result entries ↔
        entries = [("$a", 0)]) ∧
      r.store = Store.empty.insert "$a" 0 := by
  intro text r
  have hresult : r.result = .error ⟨.zeroDivisor, ⟨1, 3⟩⟩ := by decide +kernel
  let a : Token := ⟨.name "$a", ⟨1, 5⟩⟩
  let mark : Token := ⟨.assign, ⟨1, 8⟩⟩
  let zero : Token := ⟨.number 0, ⟨1, 10⟩⟩
  have htokens : (Scan.ofText text).tokens =
      [⟨.number 1, ⟨1, 1⟩⟩, ⟨.divide, ⟨1, 3⟩⟩, a, mark, zero] := by decide +kernel
  have hvalue : (evaluate .empty "0").result = .ok 0 := by decide +kernel
  obtain ⟨e, he⟩ := exists_denotes hvalue
  have hzero : Denotes .empty [zero] e 0 := he.of_kinds (by decide +kernel)
  have hroom : e.nesting < Evaluation.maxNesting := he.nesting_eq ▸ (by decide +kernel)
  let n : Name := ⟨'a', [], by decide, by simp⟩
  have hdivisor : Denotes .empty [a, mark, zero] (.assign n e) 0 := hzero.assign hroom rfl rfl
  have hdivision : ZeroDivision .empty ⟨.divide, ⟨1, 3⟩⟩ [a, mark, zero] (.assign n e) :=
    ⟨rfl, Operator.divide.strength_lt_primary, 0, hdivisor, .inl rfl⟩
  have hwritten : Written .empty (Scan.ofText text).tokens r.result [("$a", 0)] := by
    rw [hresult, htokens]
    exact ⟨[⟨.number 1, ⟨1, 1⟩⟩], _, _, [], _, rfl, rfl, hdivision, by simp,
      .cons ⟨rfl, e, hzero⟩ .nil⟩
  obtain ⟨entries, hfits, hstore⟩ := (evaluation_writes .empty).1 text
  obtain rfl := (hfits _).mp hwritten
  exact ⟨hresult, hfits, hstore⟩

end Reckoner
