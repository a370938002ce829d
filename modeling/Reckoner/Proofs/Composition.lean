import Reckoner.Proofs.Joining
import Reckoner.Proofs.Nesting

/-!
# Expressions put together from texts

A text that has a value is the operand of larger texts: in parentheses, behind an assignment, or as
one side of an operation in parentheses. Its value goes into theirs, as long as one more level of
nesting has room; where it has none, the larger text is refused before anything is written.

Only a text without assignments goes into parentheses. An assignment takes all the rest of its text,
so a `)` behind it closes no group, and the group in front of it stays open.
-/

namespace Reckoner

def inGroup (text : String) : String := "(" ++ text ++ ")"

def assignedTo (n : Name) (text : String) : String := n.text ++ " = " ++ text

/-- The operation on two texts in parentheses. -/
def operation (left : String) (op : Operator) (right : String) : String :=
  inGroup left ++ " " ++ String.singleton op.mark.char ++ " " ++ inGroup right

/-! ### The tokens of the parts -/

private theorem isBlank_of_mem_space : ∀ c ∈ [' '], Text.isBlank c = true := by
  intro c hc
  obtain rfl := List.mem_singleton.mp hc
  decide

namespace Scan

theorem tokens_inGroup (text : String) :
    ∃ inner, (ofText (inGroup text)).tokens =
        ⟨.leftParen, Place.start⟩ ::
          (inner ++ [⟨.rightParen, Place.behind ("(" ++ text).toList⟩]) ∧
      inner.map Token.kind = (ofText text).tokens.map Token.kind := by
  have hchars : (inGroup text).toList = '(' :: (text.toList ++ ')' :: []) := by
    simp [inGroup]
  have hplace : Place.start.afterAll ('(' :: text.toList) = Place.behind ("(" ++ text).toList := by
    rw [Place.start_afterAll]
    simp
  obtain ⟨inner, htokens, hkinds⟩ := tokens_group text.toList [] Place.start
  refine ⟨inner, ?_, hkinds _⟩
  rw [ofText, Cursor.ofText, hchars, htokens, tokens_nil, List.append_nil, hplace]

theorem tokens_assignedTo (n : Name) (text : String) :
    ∃ p q inner, (ofText (assignedTo n text)).tokens =
        ⟨.name n.text, p⟩ :: ⟨.assign, q⟩ :: inner ∧
      inner.map Token.kind = (ofText text).tokens.map Token.kind := by
  let name : Piece := ⟨[], .name n, by simp⟩
  let mark : Piece := ⟨[' '], .mark .assign, isBlank_of_mem_space⟩
  have hchars : (assignedTo n text).toList =
      name.chars ++ (mark.chars ++ ([' '] ++ text.toList)) := by
    simp [assignedTo, name, mark, Piece.chars, Spelling.chars, Name.text, Mark.char]
  have hdelimited : Delimited (mark.chars ++ ([' '] ++ text.toList)) :=
    mark.delimited_of_mark rfl _
  rw [ofText, Cursor.ofText, hchars, tokens_piece (.inr hdelimited), tokens_piece (.inl rfl),
    tokens_blanks_append isBlank_of_mem_space]
  exact ⟨_, _, _, rfl, kinds_ofCursor _ _ _⟩

theorem tokens_operation (left : String) (op : Operator) (right : String) :
    ∃ before p after q r, (ofText (operation left op right)).tokens =
        ⟨.leftParen, Place.start⟩ :: (before ++ [⟨.rightParen, p⟩]) ++
          ⟨op.mark.kind, Place.behind (inGroup left ++ " ").toList⟩ ::
            (⟨.leftParen, q⟩ :: (after ++ [⟨.rightParen, r⟩])) ∧
      before.map Token.kind = (ofText left).tokens.map Token.kind ∧
      after.map Token.kind = (ofText right).tokens.map Token.kind := by
  let mark : Piece := ⟨[' '], .mark op.mark, isBlank_of_mem_space⟩
  let behind : List Char := mark.chars ++ ([' '] ++ '(' :: (right.toList ++ ')' :: []))
  have hchars : (operation left op right).toList = '(' :: (left.toList ++ ')' :: behind) := by
    simp [operation, inGroup, behind, mark, Piece.chars, Spelling.chars]
  have hplace : (Place.start.afterAll ('(' :: (left.toList ++ [')']))).afterAll mark.blanks =
      Place.behind (inGroup left ++ " ").toList := by
    rw [Place.start_afterAll, Place.behind_afterAll]
    simp [inGroup, mark]
  obtain ⟨before, hbefore, hkinds⟩ := tokens_group left.toList behind Place.start
  obtain ⟨after, hafter, hkinds'⟩ := tokens_group right.toList []
    (((Place.start.afterAll ('(' :: (left.toList ++ [')']))).afterAll mark.chars).afterAll [' '])
  rw [ofText, Cursor.ofText, hchars, hbefore, tokens_piece (.inl rfl), hplace,
    tokens_blanks_append isBlank_of_mem_space, hafter, tokens_nil, List.append_nil]
  exact ⟨before, _, after, _, _, rfl, hkinds _, hkinds' _⟩

end Scan

/-! ### Texts without assignments -/

/-- Only the character `=` is read as the mark of an assignment. -/
theorem Lexeme.first_of_assign {c : Char} {cs : List Char} (h : (front c cs).kind = .assign) :
    c = '=' := by
  have hname : (nameAfterDollar cs).kind ≠ .assign := by
    rw [nameAfterDollar.eq_def]
    split
    · split <;> simp
    · simp
  have hdecimal : (decimal (c :: cs)).kind ≠ .assign := by
    rw [decimal]
    dsimp only
    split <;> simp
  have hletter : (afterLetter c cs).kind ≠ .assign := by
    rw [afterLetter.eq_def]
    split
    · simp only [radixLiteral, radixKind]
      split
      · simp
      · split <;> simp
    · simp [bareWord]
  unfold front at h
  split at h
  case h_3 => rfl
  case h_9 => exact absurd h hname
  case h_10 =>
    split at h
    · exact absurd h hdecimal
    · split at h
      · exact absurd h hletter
      · simp at h
  all_goals simp at h

/-- A text without the character `=` has no mark of an assignment. -/
theorem Scan.ne_assign {text : String} (h : '=' ∉ text.toList) :
    ∀ k ∈ (ofText text).tokens.map Token.kind, k ≠ .assign := by
  rintro k hk rfl
  obtain ⟨t, ht, hassign⟩ := List.mem_map.mp hk
  obtain ⟨first, others, hmem, hfront⟩ := Segment.exists_front_of_mem ht
  have hfirst : first = '=' := Lexeme.first_of_assign (by rw [hfront, hassign])
  exact h (hfirst ▸ hmem)

namespace Evaluation

variable {store : Store} {ts : List Token} {stack : List Frame} {e : Expr} {v : Float}

/-! ### Runs over parts -/

/-- At the end of a text a tree without assignments leaves its value to the stack. -/
theorem run_closed (h : Denotes store ts e v) (hclosed : e.Closed)
    (hdepth : depth stack + e.nesting ≤ maxNesting) (hfits : e.Fits stack) (finish : Place) :
    run finish store (.operand stack) ts = unwind finish store v stack := by
  have hsettled : settled store 0 (.operand stack) ts = _ :=
    settled_closed h.grammatical hclosed h.kinds hdepth hfits (Nat.zero_le _)
  rw [run_of_settled finish hsettled, h.outcome, unwind_eq_conclude finish store 0]
  rfl

/-- At the end of a text a tree that ends in an assignment leaves this assignment open. -/
theorem settled_open (hgrammar : e.Grammatical) (hopen : ¬ e.Closed)
    (hts : ts.map Token.kind = e.kinds) (hvalue : e.outcome store ts = .ok v)
    (hdepth : depth stack + e.nesting ≤ maxNesting) (hfits : e.Fits stack) :
    ∃ w n below, settled store 0 (.operand stack) ts = some (.ok (w, .assignment n :: below)) := by
  -- The last assignment is a right operand all the way down, and no operator is applied across it.
  induction e generalizing stack ts v with
  | number l => exact absurd trivial hopen
  | fetch n => exact absurd trivial hopen
  | signed negative e ih =>
      obtain ⟨t, rest, rfl, ht, hrest⟩ := List.map_eq_cons_iff.mp hts
      obtain ⟨hprimary, hgrammar⟩ := hgrammar
      obtain ⟨w, hw⟩ := Expr.exists_of_outcome_signed hvalue
      simp only [Expr.nesting] at hdepth
      have hroom : depth stack < maxNesting := by omega
      rw [settled_cons ((step_sign ht).trans (nest_of_lt hroom _ _))]
      exact ih hgrammar hopen hrest hw (by rw [depth_sign]; omega) (Expr.fits_of_primary hprimary _)
  | group e ih => exact absurd hgrammar.1 hopen
  | assign n e ih =>
      obtain ⟨t, u, rest, rfl, ht, hu, hrest⟩ := Expr.exists_of_kinds_assign hts
      rw [Expr.outcome_assign] at hvalue
      simp only [Expr.nesting] at hdepth
      have hgrammar : e.Grammatical := hgrammar
      have hroom : depth stack < maxNesting := by omega
      rw [settled_cons (step_name ht), settled_cons ((step_assign hu).trans (nest_of_lt hroom _ _))]
      have hdepth' : depth (.assignment n.text :: stack) + e.nesting ≤ maxNesting := by
        rw [depth_assignment]
        omega
      have hfits' : e.Fits (.assignment n.text :: stack) :=
        Expr.fits_of_blocks (blocks_assignment ..)
      by_cases hclosed : e.Closed
      · rw [settled_closed hgrammar hclosed hrest hdepth' hfits' (Nat.zero_le _), hvalue]
        exact ⟨v, n.text, stack, rfl⟩
      · exact ih hgrammar hclosed hrest hvalue hdepth' hfits'
  | binary left op right ihl ihr =>
      obtain ⟨hleft, hright, hclosed, hgrammarLeft, hgrammarRight⟩ := hgrammar
      obtain ⟨before, t, after, rfl, hbefore, ht, hafter⟩ := Expr.exists_of_kinds_binary hts
      rw [Expr.outcome_binary op t after hbefore] at hvalue
      obtain ⟨a, ha, hvalue⟩ := exists_of_bind_eq_ok hvalue
      obtain ⟨b, hb, -⟩ := exists_of_bind_eq_ok hvalue
      simp only [Expr.nesting] at hdepth
      have hstack : Blocks op.strength stack := hfits op.strength_lt_primary
      have hsettled : settled store op.strength (.operand stack) before = _ :=
        settled_closed hgrammarLeft hclosed hbefore (by omega)
          (Expr.fits_of_blocks (hstack.mono hleft)) hleft
      have hadvance := advance_operator (by rw [ht, Operator.ofKind?_mark]) hsettled after
      rw [settled, hadvance, ha]
      simp only [Except.bind, reduce_of_blocks hstack]
      exact ihr hgrammarRight (fun hclosedRight => hopen ⟨hclosed, hclosedRight⟩) hafter hb
        (by rw [depth_operation]; omega) (Expr.fits_of_blocks ((blocks_operation ..).mpr hright))

end Evaluation

/-! ### Composed texts -/

section Composed

open Evaluation

variable {store : Store} {left right : String} {d e : Expr} {a b : Float}

theorem evaluate_inGroup (h : Denotes store (Scan.ofText left).tokens e a) (hclosed : e.Closed)
    (hroom : e.nesting < maxNesting) :
    evaluate store (inGroup left) = ⟨.ok a, store.insert answer a⟩ := by
  obtain ⟨inner, htokens, hkinds⟩ := Scan.tokens_inGroup left
  have hgroup := (h.of_kinds hkinds).group (t := ⟨.leftParen, Place.start⟩)
    (u := ⟨.rightParen, Place.behind ("(" ++ left).toList⟩) hclosed hroom rfl rfl
  have hnested : depth [] + (Expr.group e).nesting ≤ maxNesting := by
    rw [depth_nil, Nat.zero_add]
    exact hroom
  rw [evaluate, ofScan, htokens, run_closed hgroup hclosed hnested (Expr.fits_of_primary rfl _)]
  rfl

theorem evaluate_assignedTo (h : Denotes store (Scan.ofText left).tokens e a) (hclosed : e.Closed)
    (hroom : e.nesting < maxNesting) (n : Name) :
    evaluate store (assignedTo n left) =
      ⟨.ok a, (store.insert n.text a).insert answer a⟩ := by
  obtain ⟨p, q, inner, htokens, hkinds⟩ := Scan.tokens_assignedTo n left
  have hnested : depth [.assignment n.text] + e.nesting ≤ maxNesting := by
    rw [depth_assignment, depth_nil]
    omega
  have hassign : step store (.named n.text []) ⟨.assign, q⟩ = .ok (.operand [.assignment n.text]) :=
    (step_assign rfl).trans (nest_of_lt (by decide) _ _)
  rw [evaluate, ofScan, htokens, run_cons (step_name rfl), run_cons hassign,
    run_closed (h.of_kinds hkinds) hclosed hnested (Expr.fits_of_blocks (blocks_assignment ..))]
  rfl

theorem evaluate_operation (hleft : Denotes store (Scan.ofText left).tokens d a)
    (hright : Denotes store (Scan.ofText right).tokens e b) (hclosed : d.Closed)
    (hclosed' : e.Closed) (hroom : d.nesting < maxNesting) (hroom' : e.nesting < maxNesting)
    (op : Operator) :
    evaluate store (operation left op right) =
      if op = .divide ∧ (b = 0 ∨ b = -0) then
        ⟨.error ⟨.zeroDivisor, Place.behind (inGroup left ++ " ").toList⟩, store⟩
      else ⟨.ok (op.compute a b), store.insert answer (op.compute a b)⟩ := by
  obtain ⟨before, p, after, q, r, htokens, hkinds, hkinds'⟩ := Scan.tokens_operation left op right
  have hgroup := (hleft.of_kinds hkinds).group (t := ⟨.leftParen, Place.start⟩)
    (u := ⟨.rightParen, p⟩) hclosed hroom rfl rfl
  have hgroup' := (hright.of_kinds hkinds').group (t := ⟨.leftParen, q⟩)
    (u := ⟨.rightParen, r⟩) hclosed' hroom' rfl rfl
  let whole : Expr := .binary (.group d) op (.group e)
  have hgrammar : whole.Grammatical :=
    ⟨op.strength_lt_primary.le, op.strength_lt_primary, hclosed, hgroup.grammatical,
      hgroup'.grammatical⟩
  have hnested : depth [] + whole.nesting ≤ maxNesting := by
    rw [depth_nil, Nat.zero_add]
    exact Nat.max_le.mpr ⟨hroom, hroom'⟩
  have hwhole : (Scan.ofText (operation left op right)).tokens.map Token.kind = whole.kinds := by
    rw [htokens]
    exact Expr.map_kind_binary hgroup.kinds rfl hgroup'.kinds
  have hsettled :
      settled store 0 (.operand []) (Scan.ofText (operation left op right)).tokens = _ :=
    settled_closed hgrammar ⟨hclosed, hclosed'⟩ hwhole hnested
      (Expr.fits_of_blocks (blocks_nil _)) (Nat.zero_le _)
  rw [evaluate, ofScan, run_of_settled _ hsettled, htokens,
    Expr.outcome_binary op _ _ hgroup.kinds, hgroup.outcome, hgroup'.outcome]
  simp only [Except.bind, Operator.apply_eq]
  by_cases hzero : op = .divide ∧ (b = 0 ∨ b = -0)
  · rw [if_pos hzero, if_pos hzero]
    rfl
  · rw [if_neg hzero, if_neg hzero]
    rfl

/-! ### Composed texts that nest too deeply -/

theorem exists_run_of_tooDeep {s : State} {ts : List Token}
    (h : ∃ p, advance store s ts = .error ⟨.tooDeep, p⟩) (finish : Place) :
    ∃ p, run finish store s ts = ⟨.error ⟨.tooDeep, p⟩, store⟩ := by
  obtain ⟨p, hp⟩ := h
  exact ⟨p, by rw [run_eq_of_advance, hp]⟩

/-- A text at the limit of nesting is refused behind an open parenthesis, whatever follows. -/
theorem exists_tooDeep_group {ts us : List Token} {t : Token} (h : Denotes store ts e a)
    (hdeep : e.nesting = maxNesting) (ht : t.kind = .leftParen) :
    ∃ p, advance store (.operand []) (t :: (ts ++ us)) = .error ⟨.tooDeep, p⟩ := by
  apply exists_tooDeep_nest (step_leftParen ht)
  intro _
  apply exists_tooDeep_append
  have hfits : e.Fits [.group] := Expr.fits_of_blocks (blocks_group ..)
  refine exists_tooDeep h.grammatical h.kinds h.outcome hfits ?_ ?_
  · decide
  · rw [hdeep]
    decide

theorem exists_tooDeep_inGroup (h : Denotes store (Scan.ofText left).tokens e a)
    (hdeep : e.nesting = maxNesting) :
    ∃ p, evaluate store (inGroup left) = ⟨.error ⟨.tooDeep, p⟩, store⟩ := by
  obtain ⟨inner, htokens, hkinds⟩ := Scan.tokens_inGroup left
  rw [evaluate, ofScan, htokens]
  exact exists_run_of_tooDeep (exists_tooDeep_group (h.of_kinds hkinds) hdeep rfl) _

theorem exists_tooDeep_operation (h : Denotes store (Scan.ofText left).tokens e a)
    (hdeep : e.nesting = maxNesting) (op : Operator) (right : String) :
    ∃ p, evaluate store (operation left op right) = ⟨.error ⟨.tooDeep, p⟩, store⟩ := by
  obtain ⟨before, p, after, q, r, htokens, hkinds, -⟩ := Scan.tokens_operation left op right
  rw [evaluate, ofScan, htokens, List.cons_append, List.append_assoc]
  exact exists_run_of_tooDeep (exists_tooDeep_group (h.of_kinds hkinds) hdeep rfl) _

theorem exists_tooDeep_assignedTo (h : Denotes store (Scan.ofText left).tokens e a)
    (hdeep : e.nesting = maxNesting) (n : Name) :
    ∃ p, evaluate store (assignedTo n left) = ⟨.error ⟨.tooDeep, p⟩, store⟩ := by
  obtain ⟨p, q, inner, htokens, hkinds⟩ := Scan.tokens_assignedTo n left
  rw [evaluate, ofScan, htokens, run_cons (step_name rfl)]
  apply exists_run_of_tooDeep
  apply exists_tooDeep_nest (step_assign rfl)
  intro _
  have hinner := h.of_kinds hkinds
  refine exists_tooDeep hinner.grammatical hinner.kinds hinner.outcome
    (Expr.fits_of_blocks (blocks_assignment ..)) ?_ ?_
  · rw [depth_assignment]
    decide
  · rw [depth_assignment, hdeep]
    decide

/-! ### Assignments in parentheses -/

/-- A `)` behind an assignment closes no group. -/
theorem evaluate_inGroup_open (h : Denotes store (Scan.ofText left).tokens e a)
    (hopen : ¬ e.Closed) (hroom : e.nesting < maxNesting) :
    evaluate store (inGroup left) =
      ⟨.error ⟨.unopenedGroup, Place.behind ("(" ++ left).toList⟩, store⟩ := by
  obtain ⟨inner, htokens, hkinds⟩ := Scan.tokens_inGroup left
  have hinner := h.of_kinds hkinds
  have hnested : depth [.group] + e.nesting ≤ maxNesting := by
    rw [depth_group, depth_nil]
    omega
  obtain ⟨w, n, below, hsettled⟩ := settled_open hinner.grammatical hopen hinner.kinds
    hinner.outcome hnested (Expr.fits_of_blocks (blocks_group ..))
  have hopening : step store (.operand []) ⟨.leftParen, Place.start⟩ = .ok (.operand [.group]) :=
    (step_leftParen rfl).trans (nest_of_lt (by decide) _ _)
  have hclosing := advance_other (t := ⟨.rightParen, Place.behind ("(" ++ left).toList⟩) rfl
    (by simp) hsettled []
  rw [evaluate, ofScan, htokens, run_cons hopening, run_eq_of_advance, hclosing]
  rfl

/-- A text is an operand of larger texts by its value. In parentheses it has this value, behind an
assignment it is the value of the variable, and an operation on two texts in parentheses is done on
their values, unless it divides by a zero. At the limit of nesting each of the larger texts is
refused. A text with an assignment leaves a `)` behind it without a group to close. Only the texts
that have a value write the store. -/
theorem evaluate_composed (store : Store) (left : String) (a : Float)
    (hleft : (evaluate store left).result = .ok a) :
    ('=' ∉ left.toList → nesting left < maxNesting →
      evaluate store (inGroup left) = ⟨.ok a, store.insert answer a⟩ ∧
      (∀ n : Name, evaluate store (assignedTo n left) =
        ⟨.ok a, (store.insert n.text a).insert answer a⟩) ∧
      ∀ (right : String) (b : Float), (evaluate store right).result = .ok b →
        '=' ∉ right.toList → nesting right < maxNesting → ∀ op : Operator,
          evaluate store (operation left op right) =
            if op = .divide ∧ (b = 0 ∨ b = -0) then
              ⟨.error ⟨.zeroDivisor, Place.behind (inGroup left ++ " ").toList⟩, store⟩
            else ⟨.ok (op.compute a b), store.insert answer (op.compute a b)⟩) ∧
    (nesting left = maxNesting →
      (∃ p, evaluate store (inGroup left) = ⟨.error ⟨.tooDeep, p⟩, store⟩) ∧
      (∀ n : Name, ∃ p, evaluate store (assignedTo n left) = ⟨.error ⟨.tooDeep, p⟩, store⟩) ∧
      ∀ (op : Operator) (right : String), ∃ p,
        evaluate store (operation left op right) = ⟨.error ⟨.tooDeep, p⟩, store⟩) ∧
    (assignments (Scan.ofText left).tokens ≠ [] → nesting left < maxNesting →
      evaluate store (inGroup left) =
        ⟨.error ⟨.unopenedGroup, Place.behind ("(" ++ left).toList⟩, store⟩) := by
  obtain ⟨d, hd⟩ := exists_denotes hleft
  have hclosed {text : String} {e : Expr} {v : Float}
      (h : Denotes store (Scan.ofText text).tokens e v) (htext : '=' ∉ text.toList) : e.Closed :=
    Expr.closed_of_ne_assign (h.kinds ▸ Scan.ne_assign htext)
  rw [hd.nesting_eq]
  refine ⟨?_, ?_, ?_⟩
  · intro htext hroom
    refine ⟨evaluate_inGroup hd (hclosed hd htext) hroom,
      evaluate_assignedTo hd (hclosed hd htext) hroom, ?_⟩
    intro right b hright htext' hroom' op
    obtain ⟨e, he⟩ := exists_denotes hright
    rw [he.nesting_eq] at hroom'
    exact evaluate_operation hd he (hclosed hd htext) (hclosed he htext') hroom hroom' op
  · intro hdeep
    exact ⟨exists_tooDeep_inGroup hd hdeep, exists_tooDeep_assignedTo hd hdeep,
      exists_tooDeep_operation hd hdeep⟩
  · intro hassignments hroom
    apply evaluate_inGroup_open hd ?_ hroom
    intro hopen
    have hassigned := assigned_of_closed hd hopen
    cases hnone : assignments (Scan.ofText left).tokens with
    | nil => exact hassignments hnone
    | cons entry entries =>
        rw [Assigned, hnone] at hassigned
        cases hassigned

theorem evaluate_composed_quotient :
    let deep := String.ofList (List.replicate 256 '-' ++ ['1'])
    evaluate .empty (operation "$x - -2" .divide "-0") =
        ⟨.error ⟨.zeroDivisor, ⟨1, 11⟩⟩, .empty⟩ ∧
      (∃ p, evaluate .empty (inGroup deep) = ⟨.error ⟨.tooDeep, p⟩, .empty⟩) ∧
      evaluate .empty (inGroup "$y = 3") = ⟨.error ⟨.unopenedGroup, ⟨1, 8⟩⟩, .empty⟩ := by
  intro deep
  have hdifference : (evaluate .empty "$x - -2").result = .ok 2 := by decide +kernel
  have hzero : (evaluate .empty "-0").result = .ok (-0) := by decide +kernel
  have hscan : Scan.ofText deep = .ofCursor ⟨List.replicate 256 '-' ++ ['1'], Place.start⟩ := by
    rw [Scan.ofText, Cursor.ofText, String.toList_ofList]
  have hdeep : (evaluate .empty deep).result = .ok 1 := by
    rw [evaluate, hscan]
    decide +kernel
  have hnesting : nesting deep = maxNesting := by
    rw [nesting, hscan]
    decide +kernel
  have hassigned : (evaluate .empty "$y = 3").result = .ok 3 := by decide +kernel
  refine ⟨?_, ?_, ?_⟩
  · have hparts := (evaluate_composed .empty _ _ hdifference).1 (by decide) (by decide +kernel)
    rw [hparts.2.2 "-0" _ hzero (by decide) (by decide +kernel) .divide]
    rfl
  · exact ((evaluate_composed .empty deep _ hdeep).2.1 hnesting).1
  · exact (evaluate_composed .empty _ _ hassigned).2.2 (by decide +kernel) (by decide +kernel)

end Composed

end Reckoner
