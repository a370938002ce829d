import Reckoner.Proofs.Assignments
import Reckoner.Proofs.Outline

/-!
# Which texts have a value

An evaluation has the verdict of the outline unless it divides by zero. It divides by zero exactly
where the outline passes over some tokens that end in a `/` and the whole of its right operand,
which is a tree of value zero. Of several such places the evaluation fails at the one that is
complete first.
-/

namespace Reckoner

/-- Tokens end in a division by zero, at the given place, that is complete in front of the rest. -/
def DividesByZero (store : Store) (taken rest : List Token) (p : Place) : Prop :=
  ∃ before t us e, taken = before ++ t :: us ∧ t.place = p ∧ ZeroDivision store t us e ∧
    ∀ u ∈ rest.head?, e.Closed ∧ ¬ Continues us u

namespace Evaluation

variable {store : Store} {s next last : State} {stack : List Frame} {t u : Token}
variable {ts us rest taken before : List Token} {e : Expr} {p : Place}

/-- Only behind an operand a `/` is taken, and then it waits for its right operand. -/
theorem step_divide (ht : t.kind = .divide) (h : step store s t = .ok next) :
    ∃ left below, next = .operand (.operation left .divide t.place :: below) := by
  have hbehind {v : Float} {stack : List Frame} (h : takeOperator v stack t = .ok next) :
      ∃ left below, next = .operand (.operation left .divide t.place :: below) := by
    simp only [takeOperator, ht, Operator.ofKind?] at h
    obtain ⟨⟨left, below⟩, -, hnext⟩ := exists_of_bind_eq_ok h
    exact ⟨left, below, (Except.ok.inj hnext).symm⟩
  cases s with
  | operand stack => simp [step, takeOperand, ht] at h
  | named name stack =>
      simp only [step, ht] at h
      exact hbehind h
  | operator v stack => exact hbehind h

/-- Where the tokens of a tree are taken, there is room for its nesting. -/
theorem nesting_le_of_advance (hgrammar : e.Grammatical) (hts : ts.map Token.kind = e.kinds)
    (hdepth : depth stack ≤ maxNesting) (hfits : e.Fits stack)
    (h : advance store (.operand stack) ts = .ok last) :
    depth stack + e.nesting ≤ maxNesting := by
  induction e generalizing stack ts last with
  | number l => exact hdepth
  | fetch n => exact hdepth
  | signed negative e ih =>
      obtain ⟨t, rest, rfl, ht, hrest⟩ := List.map_eq_cons_iff.mp hts
      obtain ⟨next, hstep, h⟩ := exists_of_advance_cons h
      rw [step_sign ht] at hstep
      obtain ⟨hroom, rfl⟩ := lt_of_nest hstep
      have hinner := ih hgrammar.2 hrest (by rw [depth_sign]; omega)
        (Expr.fits_of_primary hgrammar.1 _) h
      rw [depth_sign] at hinner
      simp only [Expr.nesting]
      omega
  | group e ih =>
      obtain ⟨t, inner, u, rfl, ht, hinner, -⟩ := Expr.exists_of_kinds_group hts
      obtain ⟨next, hstep, h⟩ := exists_of_advance_cons h
      rw [step_leftParen ht] at hstep
      obtain ⟨hroom, rfl⟩ := lt_of_nest hstep
      obtain ⟨middle, h, -⟩ := exists_of_advance_append h
      have hinner := ih hgrammar.2 hinner (by rw [depth_group]; omega)
        (Expr.fits_of_blocks (blocks_group ..)) h
      rw [depth_group] at hinner
      simp only [Expr.nesting]
      omega
  | assign n e ih =>
      obtain ⟨t, u, rest, rfl, ht, hu, hrest⟩ := Expr.exists_of_kinds_assign hts
      obtain ⟨next, hname, h⟩ := exists_of_advance_cons h
      obtain ⟨after, hassign, h⟩ := exists_of_advance_cons h
      rw [step_name ht] at hname
      obtain rfl := Except.ok.inj hname
      rw [step_assign hu] at hassign
      obtain ⟨hroom, rfl⟩ := lt_of_nest hassign
      have hinner := ih hgrammar hrest (by rw [depth_assignment]; omega)
        (Expr.fits_of_blocks (blocks_assignment ..)) h
      rw [depth_assignment] at hinner
      simp only [Expr.nesting]
      omega
  | binary left op right ihl ihr =>
      obtain ⟨hleft, hright, hclosed, hgrammarLeft, hgrammarRight⟩ := hgrammar
      obtain ⟨before, t, after, rfl, hbefore, ht, hafter⟩ := Expr.exists_of_kinds_binary hts
      have hstack : Blocks op.strength stack := hfits op.strength_lt_primary
      obtain ⟨middle, htaken, -⟩ := exists_of_advance_append h
      have hfitsLeft : left.Fits stack := Expr.fits_of_blocks (hstack.mono hleft)
      have hleftNesting := ihl hgrammarLeft hbefore hdepth hfitsLeft htaken
      have hsettled : settled store op.strength (.operand stack) before = _ :=
        settled_closed hgrammarLeft hclosed hbefore hleftNesting hfitsLeft hleft
      rw [advance_operator (by rw [ht, Operator.ofKind?_mark]) hsettled] at h
      cases houtcome : left.outcome store before with
      | error f => simp [houtcome, Except.bind] at h
      | ok a =>
          simp only [houtcome, Except.bind, reduce_of_blocks hstack] at h
          have hrightNesting := ihr hgrammarRight hafter (by rw [depth_operation]; exact hdepth)
            (Expr.fits_of_blocks ((blocks_operation ..).mpr hright)) h
          rw [depth_operation] at hrightNesting
          simp only [Expr.nesting]
          omega

/-- Behind the `/` of a division the state waits for the right operand, and there is room for it. -/
theorem exists_of_zeroDivision (hspelled : ∀ u ∈ before ++ t :: us, u.Spelled)
    (hdivision : ZeroDivision store t us e)
    (h : advance store (.operand []) (before ++ t :: us) = .ok last) :
    ∃ left below, advance store (.operand []) (before ++ [t]) =
        .ok (.operand (.operation left .divide t.place :: below)) ∧
      advance store (.operand (.operation left .divide t.place :: below)) us = .ok last ∧
      depth (.operation left .divide t.place :: below) + e.nesting ≤ maxNesting := by
  rw [List.append_cons] at h
  obtain ⟨middle, htaken, hrest⟩ := exists_of_advance_append h
  obtain ⟨s, -, hstep⟩ := exists_of_advance_append_singleton htaken
  obtain ⟨left, below, rfl⟩ := step_divide hdivision.kind hstep
  obtain ⟨v, hdenotes, -⟩ := hdivision.zero
  have hbefore : ∀ u ∈ before ++ [t], u.Spelled := by
    intro u hu
    apply hspelled
    rw [List.append_cons]
    exact List.mem_append_left us hu
  have hstands := stands_advance .start hbefore htaken
  exact ⟨left, below, htaken, hrest, nesting_le_of_advance hdenotes.grammatical hdenotes.kinds
    hstands.pending.depth_le (hdivision.fits left below) hrest⟩

/-- A division by zero that ends a text is its result. -/
theorem result_of_dividesByZero (hspelled : ∀ u ∈ ts, u.Spelled)
    (h : advance store (.operand []) ts = .ok last) (hzero : DividesByZero store ts [] p)
    (finish : Place) :
    (run finish store (.operand []) ts).result = .error ⟨.zeroDivisor, p⟩ := by
  obtain ⟨before, t, us, e, rfl, rfl, hdivision, -⟩ := hzero
  obtain ⟨left, below, htaken, hrest, hdepth⟩ := exists_of_zeroDivision hspelled hdivision h
  obtain ⟨v, hdenotes, hv⟩ := hdivision.zero
  rw [List.append_cons, run_append htaken, result_run hdenotes.grammatical hdenotes.kinds hdepth
    (hdivision.fits left below), Expr.outcome, hdenotes.value]
  simp only [Except.mapError, Except.bind, unwind, Operator.apply_divide_zero _ _ hv]

/-- A division by zero that is complete in front of a token fails there. -/
theorem advance_of_dividesByZero (hspelled : ∀ u ∈ taken, u.Spelled)
    (h : advance store (.operand []) taken = .ok last)
    (hzero : DividesByZero store taken (u :: rest) p) :
    advance store (.operand []) (taken ++ [u]) = .error ⟨.zeroDivisor, p⟩ := by
  obtain ⟨before, t, us, e, rfl, rfl, hdivision, hcomplete⟩ := hzero
  obtain ⟨hclosed, hcomplete⟩ := hcomplete u rfl
  obtain ⟨left, below, htaken, hrest, hdepth⟩ := exists_of_zeroDivision hspelled hdivision h
  obtain ⟨v, hdenotes, hv⟩ := hdivision.zero
  have hsettled {k : Nat} (hk : k ≤ Operator.divide.strength) :
      settled store k (.operand (.operation left .divide t.place :: below)) us =
        some (.error ⟨.zeroDivisor, t.place⟩) := by
    rw [settled_closed hdenotes.grammatical hclosed hdenotes.kinds hdepth
      (hdivision.fits left below) (hk.trans hdivision.strong.le), Expr.outcome, hdenotes.value]
    simp only [Except.mapError, Except.bind, reduce, if_pos hk, Operator.apply_divide_zero _ _ hv]
  have hsplit : before ++ t :: us ++ [u] = (before ++ [t]) ++ (us ++ [u]) := by simp
  rw [hsplit, advance_append, htaken]
  cases hop : Operator.ofKind? u.kind with
  | some op =>
      have hweak : op.strength ≤ Operator.divide.strength := by
        have hkind := Operator.kind_of_ofKind? hop
        cases op with
        | power => exact absurd (.inl hkind) hcomplete
        | _ => decide
      exact advance_operator hop (hsettled hweak) []
  | none =>
      refine advance_other hop ?_ (hsettled (Nat.zero_le _)) []
      intro hassign name stack hnamed
      obtain rfl := Except.ok.inj (hrest.symm.trans hnamed)
      have hname := (stands_advance .start hspelled h).endsInName
      apply hcomplete
      right
      exact ⟨hassign, hname.of_append_cons (by simp [hdivision.kind])⟩

/-- A run that divides by zero does so where some tokens are taken that end in that division. -/
theorem exists_dividesByZero_of_run (hspelled : ∀ t ∈ ts, t.Spelled) {finish : Place}
    (h : (run finish store (.operand []) ts).result = .error ⟨.zeroDivisor, p⟩) :
    ∃ taken rest last, ts = taken ++ rest ∧ advance store (.operand []) taken = .ok last ∧
      DividesByZero store taken rest p := by
  have hended : Ended store finish ts _ := ended_run hspelled finish
  generalize run finish store (.operand []) ts = r at h hended
  cases hended with
  | @finished last r taken finished =>
      cases finished with
      | complete whole assigned => simp at h
      | unclosedGroup split kind inner assigned => simp at h
      | @zeroDivision before us t e entries split division assigned =>
          obtain rfl : t.place = p := by simpa using h
          exact ⟨ts, [], last, by simp, taken, before, t, us, e, split, rfl, division, by simp⟩
  | @zeroDivision before us rest t u last e split taken division closed complete =>
      obtain rfl : t.place = p := by simpa using h
      refine ⟨before ++ t :: us, u :: rest, last, by simpa using split, taken, before, t, us, e,
        rfl, rfl, division, ?_⟩
      rintro u ⟨⟩
      exact ⟨closed, complete⟩
  | refused divisor group =>
      obtain rfl := Except.error.inj h
      exact absurd rfl divisor

end Evaluation

/-- The outline passes over the first of some tokens, and these end in a division by zero. -/
def ReachesZero (store : Store) (ts taken : List Token) (p : Place) : Prop :=
  ∃ rest, ts = taken ++ rest ∧ (∃ o, Outline.pass (.wants 0 []) taken = .ok o) ∧
    DividesByZero store taken rest p

namespace Evaluation

variable {store : Store} {ts taken rest : List Token} {last : State} {p : Place}

theorem result_of_reached (hspelled : ∀ t ∈ taken ++ rest, t.Spelled)
    (h : advance store (.operand []) taken = .ok last) (hzero : DividesByZero store taken rest p)
    (finish : Place) :
    (run finish store (.operand []) (taken ++ rest)).result = .error ⟨.zeroDivisor, p⟩ := by
  have htaken : ∀ t ∈ taken, t.Spelled := by
    intro t ht
    exact hspelled t (List.mem_append_left rest ht)
  cases rest with
  | nil =>
      rw [List.append_nil]
      exact result_of_dividesByZero htaken h hzero finish
  | cons u rest =>
      rw [run_eq_of_advance, List.append_cons, advance_append,
        advance_of_dividesByZero htaken h hzero]
      rfl

/-- The outline passes over what a run takes. -/
theorem pass_of_advance (hspelled : ∀ t ∈ taken, t.Spelled)
    (h : advance store (.operand []) taken = .ok last) :
    ∃ o, Outline.pass (.wants 0 []) taken = .ok o := by
  have hpictured : Pictured State.outline (advance store (.operand []) taken)
      (Outline.pass (.wants 0 []) taken) := pictured_advance .start hspelled
  obtain ⟨q, hq⟩ | hsame := h ▸ hpictured
  · simp at hq
  · exact ⟨last.outline, hsame.symm⟩

/-- Where the outline reaches a division by zero, the run fails at it or at one before. -/
theorem exists_result_of_reachesZero (hspelled : ∀ t ∈ ts, t.Spelled)
    (h : ReachesZero store ts taken p) (finish : Place) :
    ∃ q, (run finish store (.operand []) ts).result = .error ⟨.zeroDivisor, q⟩ := by
  obtain ⟨rest, rfl, ⟨o, ho⟩, hzero⟩ := h
  have hpictured : Pictured State.outline (advance store (.operand []) taken)
      (Outline.pass (.wants 0 []) taken) := by
    apply pictured_advance .start
    intro t ht
    exact hspelled t (List.mem_append_left rest ht)
  cases htaken : advance store (.operand []) taken with
  | ok last => exact ⟨p, result_of_reached hspelled htaken hzero finish⟩
  | error f =>
      obtain ⟨q, hq⟩ | hsame := htaken ▸ hpictured
      · refine ⟨q, ?_⟩
        rw [run_eq_of_advance, advance_append, htaken, hq]
        rfl
      · rw [ho] at hsame
        simp [Except.map] at hsame

/-- A run takes no tokens beyond a division by zero. -/
theorem length_le_of_dividesByZero {taken' rest' : List Token} {p' : Place}
    (hspelled : ∀ t ∈ taken ++ rest, t.Spelled) (h : advance store (.operand []) taken = .ok last)
    (hsplit : taken ++ rest = taken' ++ rest') (hzero : DividesByZero store taken' rest' p') :
    taken.length ≤ taken'.length := by
  by_contra hlt
  obtain ⟨middle, hmiddle⟩ : taken' <+: taken :=
    List.prefix_of_prefix_length_le (List.prefix_append taken' rest')
      (hsplit ▸ List.prefix_append taken rest) (Nat.le_of_lt (Nat.not_le.mp hlt))
  obtain rfl := hmiddle
  cases middle with
  | nil => simp at hlt
  | cons u middle =>
      obtain ⟨before, hbefore, -⟩ := exists_of_advance_append h
      have hrest : rest' = u :: (middle ++ rest) := by simpa using hsplit.symm
      have htaken' : ∀ t ∈ taken', t.Spelled := by
        intro t ht
        exact hspelled t (hsplit ▸ List.mem_append_left rest' ht)
      have hfault := advance_of_dividesByZero htaken' hbefore (hrest ▸ hzero)
      rw [List.append_cons] at h
      obtain ⟨after, hafter, -⟩ := exists_of_advance_append h
      rw [hfault] at hafter
      simp at hafter

end Evaluation

/-- An evaluation has the verdict of the outline, values aside, unless the outline reaches a
division by zero. Then it fails at the one that is reached first. -/
theorem result_evaluate_outline (store : Store) (text : String) :
    (∃ taken p, ReachesZero store (Scan.ofText text).tokens taken p ∧
      (∀ taken' p', ReachesZero store (Scan.ofText text).tokens taken' p' →
        taken.length ≤ taken'.length) ∧
      (evaluate store text).result = .error ⟨.zeroDivisor, p⟩) ∨
    (∀ taken p, ¬ ReachesZero store (Scan.ofText text).tokens taken p) ∧
      (evaluate store text).result.map (fun _ => ()) = Outline.verdict (Scan.ofText text) := by
  have hspelled : ∀ t ∈ (Scan.ofText text).tokens, t.Spelled := by
    intro t ht
    exact Scan.spelled_of_mem ht
  by_cases hzero : ∃ p, (evaluate store text).result = .error ⟨.zeroDivisor, p⟩
  · left
    obtain ⟨p, hresult⟩ := hzero
    obtain ⟨taken, rest, last, hsplit, htaken, hdivides⟩ :=
      Evaluation.exists_dividesByZero_of_run hspelled hresult
    rw [hsplit] at hspelled
    have hspelledTaken : ∀ t ∈ taken, t.Spelled := by
      intro t ht
      exact hspelled t (List.mem_append_left rest ht)
    have hpassed := Evaluation.pass_of_advance hspelledTaken htaken
    refine ⟨taken, p, ⟨rest, hsplit, hpassed, hdivides⟩, ?_, hresult⟩
    rintro taken' p' ⟨rest', hsplit', -, hdivides'⟩
    exact Evaluation.length_le_of_dividesByZero hspelled htaken (hsplit.symm.trans hsplit')
      hdivides'
  · right
    constructor
    · intro taken p hreaches
      exact hzero (Evaluation.exists_result_of_reachesZero hspelled hreaches _)
    · obtain hfault | hverdict := Evaluation.pictured_run hspelled (Scan.ofText text).finish
      · exact absurd hfault hzero
      · exact hverdict

end Reckoner
