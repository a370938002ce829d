import Reckoner.Proofs.Expression
import Reckoner.Proofs.Run

/-!
# The meaning of expressions

A run over the tokens of a tree leaves its value, with nothing of the tree on the stack but what
the next token would apply first. For a tree without assignments this holds in front of any text:
once the operators of the tree are applied, the operand is the value and the stack is the one
before the tree. A tree with assignments ends with the text, and there its value is what waits on
the stack is applied to.

The main statement takes any tree of the grammar and any way of writing it down.
-/

namespace Reckoner

open Evaluation in
/-- Whether a tree may be the operand of what waits on a stack: signs apply to primaries, and
operators to right operands that hold together more strongly. -/
def Expr.Fits (e : Expr) (stack : List Frame) : Prop :=
  e.strength < primary → Blocks e.strength stack

namespace Expr.Fits

variable {e : Expr} {below : List Frame}

theorem primary_of_sign {negative : Bool} (h : e.Fits (.sign negative :: below)) :
    e.strength = primary := by
  by_contra hne
  exact h (lt_of_le_of_ne e.strength_le_primary hne)

theorem lt_of_operation {left : Float} {op : Operator} {place : Place}
    (h : e.Fits (.operation left op place :: below)) : op.strength < e.strength := by
  obtain hlt | heq := lt_or_eq_of_le e.strength_le_primary
  · exact h hlt
  · exact heq ▸ op.strength_lt_primary

end Expr.Fits

theorem Expr.fits_of_blocks {e : Expr} {stack : List Frame}
    (h : Evaluation.Blocks e.strength stack) : e.Fits stack := by
  intro _
  exact h

theorem Expr.fits_of_primary {e : Expr} (h : e.strength = primary) (stack : List Frame) :
    e.Fits stack := by
  intro hlt
  exact absurd h (Nat.ne_of_lt hlt)

namespace Evaluation

variable {store : Store} {e : Expr} {stack : List Frame} {ts : List Token}

theorem step_sign {t : Token} {negative : Bool}
    (ht : t.kind = (Spelling.mark (if negative then .minus else .plus)).kind) :
    step store (.operand stack) t = nest (.sign negative) stack t.place := by
  have ht' : t.kind = if negative then .minus else .plus := by
    cases negative <;> exact ht
  cases negative <;> simp [step, takeOperand, ht']

theorem step_leftParen {t : Token} (ht : t.kind = .leftParen) :
    step store (.operand stack) t = nest .group stack t.place := by
  simp [step, takeOperand, ht]

theorem step_name {t : Token} {n : Name} (ht : t.kind = (Spelling.name n).kind) :
    step store (.operand stack) t = .ok (.named n.text stack) := by
  simp [step, takeOperand, ht, Spelling.kind]

theorem step_assign {t : Token} {n : String} (ht : t.kind = (Spelling.mark .assign).kind) :
    step store (.named n stack) t = nest (.assignment n) stack t.place := by
  simp [step, ht, Spelling.kind, Mark.kind]

/-- A run over a tree without assignments settles at its value, in front of what was on the stack
before. -/
theorem settled_closed (hgrammar : e.Grammatical) (hclosed : e.Closed)
    (hts : ts.map Token.kind = e.kinds) (hdepth : depth stack + e.nesting ≤ maxNesting)
    (hfits : e.Fits stack) {k : Nat} (hk : k ≤ e.strength) :
    settled store k (.operand stack) ts =
      some ((e.outcome store ts).bind fun v => reduce k v stack) := by
  -- General in the strength as well: an operator settles its left operand at its own strength,
  -- and the reduction of the right one goes on at the given strength.
  induction e generalizing stack ts k with
  | number l =>
      obtain ⟨t, rfl, ht⟩ := List.map_eq_singleton_iff.mp hts
      have hstep : step store (.operand stack) t = .ok (.operator l.value stack) := by
        simp [step, takeOperand, ht, Spelling.kind]
      rw [settled_cons hstep]
      rfl
  | fetch n =>
      obtain ⟨t, rfl, ht⟩ := List.map_eq_singleton_iff.mp hts
      rw [settled_cons (step_name ht)]
      rfl
  | signed negative e ih =>
      obtain ⟨t, rest, rfl, ht, hrest⟩ := List.map_eq_cons_iff.mp hts
      obtain ⟨hprimary, hgrammar⟩ := hgrammar
      simp only [Expr.nesting] at hdepth
      have hroom : depth stack < maxNesting := by omega
      rw [settled_cons ((step_sign ht).trans (nest_of_lt hroom _ _)),
        ih hgrammar hclosed hrest (by rw [depth_sign]; omega)
          (Expr.fits_of_primary hprimary _) (hprimary ▸ hk),
        Expr.outcome_signed]
      cases e.outcome store rest <;> rfl
  | group e ih =>
      obtain ⟨t, inner, u, rfl, ht, hinner, hu⟩ := Expr.exists_of_kinds_group hts
      simp only [Expr.nesting] at hdepth
      have hsettled : settled store 0 (.operand (.group :: stack)) inner = _ :=
        ih hgrammar.2 hclosed hinner (by rw [depth_group]; omega)
          (Expr.fits_of_blocks (blocks_group ..)) (Nat.zero_le _)
      have hadvance := advance_other (t := u) (by simp [hu, Operator.ofKind?]) (by simp [hu])
        hsettled []
      have hroom : depth stack < maxNesting := by omega
      rw [settled_cons ((step_leftParen ht).trans (nest_of_lt hroom _ _)), settled, hadvance,
        Expr.outcome_group t [u] hinner]
      cases e.outcome store inner with
      | error e => rfl
      | ok v =>
          simp only [Except.bind, reduce, takeOther, hu]
          rfl
  | assign n e ih => exact hclosed.elim
  | binary left op right ihl ihr =>
      obtain ⟨hleft, hright, hclosedLeft, hgrammarLeft, hgrammarRight⟩ := hgrammar
      obtain ⟨before, t, after, rfl, hbefore, ht, hafter⟩ := Expr.exists_of_kinds_binary hts
      simp only [Expr.nesting] at hdepth
      have hstack : Blocks op.strength stack := hfits op.strength_lt_primary
      have hsettled : settled store op.strength (.operand stack) before = _ :=
        ihl hgrammarLeft hclosed.1 hbefore (by omega) (Expr.fits_of_blocks (hstack.mono hleft))
          hleft
      have hadvance := advance_operator (by rw [ht, Operator.ofKind?_mark]) hsettled after
      rw [settled, hadvance, Expr.outcome_binary op t after hbefore]
      cases left.outcome store before with
      | error e => rfl
      | ok a =>
          simp only [Except.bind, reduce_of_blocks hstack]
          have hafterwards :
              settled store k (.operand (.operation a op t.place :: stack)) after = _ :=
            ihr hgrammarRight hclosed.2 hafter (by rw [depth_operation]; omega)
              (Expr.fits_of_blocks ((blocks_operation ..).mpr hright))
              (by simp only [Expr.strength] at hk; omega)
          rw [settled] at hafterwards
          rw [hafterwards]
          cases right.outcome store after with
          | error e => rfl
          | ok b =>
              simp only [Except.bind, reduce, if_pos (show k ≤ op.strength from hk)]
              cases op.apply t.place a b <;> rfl

/-- At the end of a text a tree without assignments yields what its value becomes through the
stack. -/
theorem result_run_closed (hgrammar : e.Grammatical) (hclosed : e.Closed)
    (hts : ts.map Token.kind = e.kinds) (hdepth : depth stack + e.nesting ≤ maxNesting)
    (hfits : e.Fits stack) (finish : Place) :
    (run finish store (.operand stack) ts).result =
      (e.outcome store ts).bind fun v => (unwind finish store v stack).result := by
  have hsettled : settled store 0 (.operand stack) ts = _ :=
    settled_closed hgrammar hclosed hts hdepth hfits (Nat.zero_le _)
  rw [run_of_settled finish hsettled]
  cases e.outcome store ts with
  | error e => rfl
  | ok v => simp only [Except.bind, unwind_eq_conclude finish store 0 v stack]

/-- What the end of a text makes of a value does not depend on what it writes. -/
theorem result_unwind (finish : Place) (s s' : Store) (v : Float) (stack : List Frame) :
    (unwind finish s v stack).result = (unwind finish s' v stack).result := by
  induction stack generalizing s s' v with
  | nil => rfl
  | cons frame below ih =>
      cases frame with
      | sign negative => exact ih s s' _
      | operation left op place =>
          simp only [unwind]
          cases op.apply place left v with
          | ok result => exact ih s s' result
          | error e => rfl
      | group => rfl
      | assignment n => exact ih _ _ v

/-- A run over a tree that ends the text yields what its value becomes through the stack. -/
theorem result_run (hgrammar : e.Grammatical) (hts : ts.map Token.kind = e.kinds)
    (hdepth : depth stack + e.nesting ≤ maxNesting)
    (hfits : e.Fits stack) (finish : Place) :
    (run finish store (.operand stack) ts).result =
      (e.outcome store ts).bind fun v => (unwind finish store v stack).result := by
  induction e generalizing stack ts with
  | number l => exact result_run_closed hgrammar trivial hts hdepth hfits finish
  | fetch n => exact result_run_closed hgrammar trivial hts hdepth hfits finish
  | signed negative e ih =>
      obtain ⟨t, rest, rfl, ht, hrest⟩ := List.map_eq_cons_iff.mp hts
      obtain ⟨hprimary, hgrammar⟩ := hgrammar
      simp only [Expr.nesting] at hdepth
      have hroom : depth stack < maxNesting := by omega
      rw [run_cons ((step_sign ht).trans (nest_of_lt hroom _ _)),
        ih hgrammar hrest (by rw [depth_sign]; omega) (Expr.fits_of_primary hprimary _),
        Expr.outcome_signed]
      cases e.outcome store rest <;> rfl
  | group e ih => exact result_run_closed hgrammar hgrammar.1 hts hdepth hfits finish
  | assign n e ih =>
      obtain ⟨t, u, rest, rfl, ht, hu, hrest⟩ := Expr.exists_of_kinds_assign hts
      simp only [Expr.nesting] at hdepth
      have hrun : (run finish store (.operand (.assignment n.text :: stack)) rest).result = _ :=
        ih hgrammar hrest (by rw [depth_assignment]; omega)
          (Expr.fits_of_blocks (blocks_assignment ..))
      have hroom : depth stack < maxNesting := by omega
      rw [run_cons (step_name ht), run_cons ((step_assign hu).trans (nest_of_lt hroom _ _)), hrun,
        Expr.outcome_assign]
      cases e.outcome store rest with
      | error e => rfl
      | ok v => exact result_unwind finish _ store v stack
  | binary left op right ihl ihr =>
      obtain ⟨hleft, hright, hclosed, hgrammarLeft, hgrammarRight⟩ := hgrammar
      obtain ⟨before, t, after, rfl, hbefore, ht, hafter⟩ := Expr.exists_of_kinds_binary hts
      simp only [Expr.nesting] at hdepth
      have hstack : Blocks op.strength stack := hfits op.strength_lt_primary
      have hsettled : settled store op.strength (.operand stack) before = _ :=
        settled_closed hgrammarLeft hclosed hbefore (by omega)
          (Expr.fits_of_blocks (hstack.mono hleft)) hleft
      rw [result_run_operator finish (by rw [ht, Operator.ofKind?_mark]) hsettled after,
        Expr.outcome_binary op t after hbefore]
      cases left.outcome store before with
      | error e => rfl
      | ok a =>
          have hrun :
              (run finish store (.operand (.operation a op t.place :: stack)) after).result = _ :=
            ihr hgrammarRight hafter (by rw [depth_operation]; omega)
              (Expr.fits_of_blocks ((blocks_operation ..).mpr hright))
          simp only [Except.bind, reduce_of_blocks hstack]
          rw [hrun]
          cases right.outcome store after with
          | error e => rfl
          | ok b =>
              simp only [Except.bind, unwind]
              cases op.apply t.place a b <;> rfl

end Evaluation

/-! ### Trees in a layout -/

namespace Spelling

/-- Spellings that may touch each other. -/
def Apart (a b : Spelling) : Prop := a.isMark = true ∨ b.isMark = true

theorem isChain_cons_mark (m : Mark) {l : List Spelling} (h : l.IsChain Apart) :
    (mark m :: l).IsChain Apart := by
  cases l with
  | nil => exact .singleton _
  | cons a l => exact .cons_cons (.inl rfl) h

theorem isChain_append_mark {l : List Spelling} (m : Mark) {r : List Spelling}
    (hl : l.IsChain Apart) (hr : (mark m :: r).IsChain Apart) :
    (l ++ mark m :: r).IsChain Apart := by
  refine List.isChain_append.mpr ⟨hl, hr, ?_⟩
  intro a _ b hb
  obtain rfl : mark m = b := by simpa using hb
  exact .inr rfl

end Spelling

/-- In the spellings of a tree, names and literals are kept apart by marks. -/
theorem Expr.isChain_spellings (e : Expr) : e.spellings.IsChain Spelling.Apart := by
  induction e with
  | number l => exact .singleton _
  | fetch n => exact .singleton _
  | signed negative e ih => exact Spelling.isChain_cons_mark _ ih
  | group e ih =>
      apply Spelling.isChain_cons_mark
      exact Spelling.isChain_append_mark _ ih (.singleton _)
  | assign n e ih =>
      exact Spelling.isChain_append_mark .assign (.singleton (.name n))
        (Spelling.isChain_cons_mark _ ih)
  | binary left op right ihl ihr =>
      exact Spelling.isChain_append_mark _ ihl (Spelling.isChain_cons_mark _ ihr)

namespace Layout

variable {w : Layout} {e : Expr}

theorem separated_of_spellings (hw : w.spellings = e.spellings) : w.Separated := by
  have hchain : w.spellings.IsChain Spelling.Apart := hw ▸ e.isChain_spellings
  rw [spellings, List.isChain_map] at hchain
  refine hchain.imp ?_
  intro p q h
  exact h.imp id .inr

theorem kinds_tokens (hw : w.spellings = e.spellings) : w.tokens.map Token.kind = e.kinds := by
  rw [Expr.kinds, ← hw, tokens]
  apply List.ext_getElem?
  intro k
  rw [List.getElem?_map, List.getElem?_mapIdx, List.getElem?_map]
  cases w.spellings[k]? <;> rfl

theorem placeOf_tokens {k : Nat} (hk : k < w.spellings.length) :
    placeOf w.tokens k = w.place k := by
  simp [placeOf, tokens, List.getElem?_eq_getElem hk]

end Layout

/-- Every tree of the grammar, however it is written down, evaluates to its value, or to the first
division by zero at the place of its mark. -/
theorem result_evaluate_layout {e : Expr} {w : Layout} (hgrammar : e.Grammatical)
    (hnesting : e.nesting ≤ Evaluation.maxNesting) (hw : w.spellings = e.spellings)
    (store : Store) :
    (evaluate store w.text).result =
      (e.value store).mapError fun k => ⟨.zeroDivisor, w.place k⟩ := by
  have hrun (finish : Place) :
      (Evaluation.run finish store (.operand []) w.tokens).result = _ :=
    Evaluation.result_run hgrammar (Layout.kinds_tokens hw) (by simpa using hnesting)
      (Expr.fits_of_blocks (Evaluation.blocks_nil _)) finish
  rw [evaluate, Layout.scan_text (Layout.separated_of_spellings hw), Evaluation.ofScan, hrun,
    Expr.outcome]
  cases he : e.value store with
  | ok v => rfl
  | error k =>
      have hk : k < w.spellings.length := hw ▸ Expr.lt_of_value_eq_error he
      simp [Except.mapError, Except.bind, Layout.placeOf_tokens hk]

theorem result_evaluate_negated_divisor :
    (evaluate .empty "$b-$a=$c\n/ (-$b)").result = .error ⟨.zeroDivisor, ⟨2, 1⟩⟩ := by
  have hspace : Text.isBlank ' ' = true := by decide
  let name (c : Char) (h : Text.isLetter c = true) : Name := ⟨c, [], h, by simp⟩
  let a := name 'a' (by decide)
  let b := name 'b' (by decide)
  let c := name 'c' (by decide)
  let e : Expr :=
    .binary (.fetch b) .subtract
      (.assign a (.binary (.fetch c) .divide (.group (.signed true (.fetch b)))))
  let w : Layout :=
    ⟨[⟨[], .name b, by simp⟩, ⟨[], .mark .minus, by simp⟩, ⟨[], .name a, by simp⟩,
      ⟨[], .mark .assign, by simp⟩, ⟨[], .name c, by simp⟩,
      ⟨['\n'], .mark .divide, by simp⟩,
      ⟨[' '], .mark .leftParen, by simpa using hspace⟩, ⟨[], .mark .minus, by simp⟩,
      ⟨[], .name b, by simp⟩, ⟨[], .mark .rightParen, by simp⟩], [], by simp⟩
  have hgrammar : e.Grammatical := by
    simp [e, Expr.Grammatical, Expr.Closed, Expr.strength, Expr.primary, Operator.strength]
  have htext : w.text = "$b-$a=$c\n/ (-$b)" := by rfl
  have hvalue : e.value .empty = .error 5 := by
    simp [e, Expr.value, Store.value, Expr.spellings, Except.mapError, bind, Except.bind, pure,
      Except.pure, throw, throwThe, MonadExceptOf.throw]
  have hplace : w.place 5 = ⟨2, 1⟩ := by rfl
  rw [← htext, result_evaluate_layout hgrammar (by decide) (by rfl), hvalue, Except.mapError,
    hplace]

end Reckoner
