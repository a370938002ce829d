import Reckoner.Proofs.Assignments
import Reckoner.Proofs.Outline

/-!
# How deeply a text nests

The outline of an expression counts how deeply each operand is nested. The greatest count that it
reaches is the nesting of the text, found without any arithmetic. For a text that is a tree of the
grammar it is the nesting of that tree, and peaks of texts combine by the greater of them.

Signs, groups and assignments are refused beyond the limit. A tree that has a value and nests deeper
than there is room for on the stack is refused as such, since nothing else in it can fail.
-/

namespace Reckoner

namespace Outline

/-- The count of nesting of the operand that the scan wants or has started with; behind an operand,
that of the frame around it. -/
def count : Outline → Nat
  | wants count _ | named count _ => count
  | has levels => startingCount levels

/-- The greatest count on the way over some tokens, up to the first that is refused. -/
def peak (o : Outline) : List Token → Nat
  | [] => o.count
  | t :: ts =>
    max o.count
      (match o.step t with
      | .ok next => next.peak ts
      | .error _ => 0)

@[simp] theorem count_wants (n : Nat) (levels : List Level) : (wants n levels).count = n := rfl

@[simp] theorem peak_has_nil (levels : List Level) :
    (has levels).peak [] = startingCount levels := rfl

variable {o next last : Outline} {t : Token} {ts : List Token}

theorem pass_cons (h : o.step t = .ok next) (ts : List Token) :
    o.pass (t :: ts) = next.pass ts := by
  rw [pass, List.foldlM_cons, h]
  rfl

theorem pass_append (h : o.pass ts = .ok next) (us : List Token) :
    o.pass (ts ++ us) = next.pass us := by
  rw [pass, List.foldlM_append]
  rw [pass] at h
  rw [h]
  rfl

theorem peak_cons (h : o.step t = .ok next) (ts : List Token) :
    o.peak (t :: ts) = max o.count (next.peak ts) := by
  rw [peak, h]

theorem count_le_peak (o : Outline) (ts : List Token) : o.count ≤ o.peak ts := by
  cases ts with
  | nil => exact Nat.le_refl _
  | cons t ts => exact Nat.le_max_left _ _

theorem exists_of_pass_cons (h : o.pass (t :: ts) = .ok last) :
    ∃ next, o.step t = .ok next ∧ next.pass ts = .ok last := by
  rw [pass, List.foldlM_cons] at h
  exact Evaluation.exists_of_bind_eq_ok h

/-- Peaks combine by the greater of them where one text ends and the other starts. -/
theorem peak_append (h : o.pass ts = .ok next) (us : List Token) :
    o.peak (ts ++ us) = max (o.peak ts) (next.peak us) := by
  induction ts generalizing o with
  | nil =>
      obtain rfl := Except.ok.inj h
      exact (Nat.max_eq_right (count_le_peak o us)).symm
  | cons t ts ih =>
      obtain ⟨middle, hstep, hrest⟩ := exists_of_pass_cons h
      rw [List.cons_append, peak_cons hstep, peak_cons hstep, ih hrest, Nat.max_assoc]

/-- The count behind some tokens is one of those on the way. -/
theorem count_le_peak_of_pass (h : o.pass ts = .ok next) : next.count ≤ o.peak ts := by
  have hpeak := peak_append h []
  rw [List.append_nil] at hpeak
  rw [hpeak]
  exact Nat.le_max_right _ _

/-- The scan has an operand within the given open frames. -/
def Holds (levels : List Level) (o : Outline) : Prop :=
  o = .has levels ∨ ∃ count, o = .named count levels

/-- Behind an operand all tokens are taken alike, but for the mark of an assignment. -/
theorem step_of_holds {levels : List Level} (h : o.Holds levels) (ht : t.kind ≠ .assign) :
    o.step t = follow levels t := by
  obtain rfl | ⟨count, rfl⟩ := h
  · rfl
  · rw [step]
    split
    · exact absurd ‹_› ht
    · rfl

theorem follow_mark {op : Operator} (ht : t.kind = op.mark.kind) (levels : List Level) :
    follow levels t = .ok (.wants (startingCount levels) levels) := by
  rw [follow.eq_def, ht]
  cases op <;> rfl

theorem enter_of_lt {count : Nat} (h : count < Evaluation.maxNesting) (p : Place)
    (next : Outline) : enter count p next = .ok next :=
  if_neg (Nat.ne_of_lt h)

theorem step_sign {negative : Bool} {count : Nat} {levels : List Level}
    (ht : t.kind = (Spelling.mark (if negative then .minus else .plus)).kind) :
    step (.wants count levels) t = enter count t.place (.wants (count + 1) levels) := by
  rw [step, ht]
  cases negative <;> rfl

/-- The outline takes the tokens of a tree within the given frames and reaches the count that the
tree adds to the one with which it starts. -/
structure Takes (e : Expr) (count : Nat) (levels : List Level) (ts : List Token) (last : Outline) :
    Prop where
  pass : (wants count levels).pass ts = .ok last
  peak : (wants count levels).peak ts = count + e.nesting
  holds : e.Closed → last.Holds levels

/-- A tree within the limit is taken. -/
theorem exists_takes {e : Expr} {levels : List Level} {n : Nat} (hgrammar : e.Grammatical)
    (hts : ts.map Token.kind = e.kinds) (hroom : n + e.nesting ≤ Evaluation.maxNesting)
    (hstart : startingCount levels ≤ n)
    (hfits : e.strength < Expr.primary → n = startingCount levels) :
    ∃ last, Takes e n levels ts last := by
  -- Where an operator may stand, no sign waits, so its right operand starts as the left one did.
  induction e generalizing ts levels n with
  | number l =>
      obtain ⟨t, rfl, ht⟩ := List.map_eq_singleton_iff.mp hts
      have hstep : step (.wants n levels) t = .ok (.has levels) := by
        simp [step, ht, Spelling.kind]
      refine ⟨.has levels, pass_cons hstep [], ?_, fun _ => .inl rfl⟩
      rw [peak_cons hstep]
      exact Nat.max_eq_left hstart
  | fetch name =>
      obtain ⟨t, rfl, ht⟩ := List.map_eq_singleton_iff.mp hts
      have hstep : step (.wants n levels) t = .ok (.named n levels) := by
        simp [step, ht, Spelling.kind]
      refine ⟨.named n levels, pass_cons hstep [], ?_, fun _ => .inr ⟨n, rfl⟩⟩
      rw [peak_cons hstep]
      exact Nat.max_self n
  | signed negative e ih =>
      obtain ⟨t, rest, rfl, ht, hrest⟩ := List.map_eq_cons_iff.mp hts
      obtain ⟨hprimary, hgrammar⟩ := hgrammar
      simp only [Expr.nesting] at hroom
      have hstep : step (.wants n levels) t = .ok (.wants (n + 1) levels) :=
        (step_sign ht).trans (enter_of_lt (by omega) _ _)
      obtain ⟨last, hlast⟩ : ∃ last, Takes e (n + 1) levels rest last :=
        ih hgrammar hrest (by omega) (by omega) (fun hlt => absurd hprimary (Nat.ne_of_lt hlt))
      refine ⟨last, (pass_cons hstep rest).trans hlast.pass, ?_, hlast.holds⟩
      rw [peak_cons hstep, hlast.peak]
      simp only [count_wants, Expr.nesting]
      omega
  | group e ih =>
      obtain ⟨t, inner, u, rfl, ht, hinner, hu⟩ := Expr.exists_of_kinds_group hts
      obtain ⟨hclosed, hgrammar⟩ := hgrammar
      simp only [Expr.nesting] at hroom
      have hopen : step (.wants n levels) t = .ok (.wants (n + 1) (⟨.group, n + 1⟩ :: levels)) := by
        rw [step, ht]
        exact enter_of_lt (by omega) _ _
      obtain ⟨last, hlast⟩ : ∃ last, Takes e (n + 1) (⟨.group, n + 1⟩ :: levels) inner last :=
        ih hgrammar hinner (by omega) (Nat.le_refl _) (fun _ => rfl)
      have hclose : last.step u = .ok (.has levels) := by
        rw [step_of_holds (hlast.holds hclosed) (by simp [hu]), follow, hu]
      have hcount := count_le_peak_of_pass hlast.pass
      rw [hlast.peak] at hcount
      refine ⟨.has levels, ?_, ?_, fun _ => .inl rfl⟩
      · rw [pass_cons hopen, pass_append hlast.pass, pass_cons hclose]
        rfl
      · rw [peak_cons hopen, peak_append hlast.pass, peak_cons hclose, hlast.peak]
        simp only [count_wants, peak_has_nil, Expr.nesting]
        omega
  | assign name e ih =>
      obtain ⟨t, u, rest, rfl, ht, hu, hrest⟩ := Expr.exists_of_kinds_assign hts
      simp only [Expr.nesting] at hroom
      have hname : step (.wants n levels) t = .ok (.named n levels) := by
        simp [step, ht]
      have hassign :
          step (.named n levels) u = .ok (.wants (n + 1) (⟨.assignment, n + 1⟩ :: levels)) := by
        rw [step, hu]
        exact enter_of_lt (by omega) _ _
      obtain ⟨last, hlast⟩ : ∃ last, Takes e (n + 1) (⟨.assignment, n + 1⟩ :: levels) rest last :=
        ih hgrammar hrest (by omega) (Nat.le_refl _) (fun _ => rfl)
      refine ⟨last, ?_, ?_, fun hclosed => hclosed.elim⟩
      · rw [pass_cons hname, pass_cons hassign, hlast.pass]
      · rw [peak_cons hname, peak_cons hassign, hlast.peak]
        simp only [count, Expr.nesting]
        omega
  | binary left op right ihl ihr =>
      obtain ⟨-, -, hclosed, hgrammarLeft, hgrammarRight⟩ := hgrammar
      obtain ⟨before, t, after, rfl, hbefore, ht, hafter⟩ := Expr.exists_of_kinds_binary hts
      simp only [Expr.nesting] at hroom
      have hn : n = startingCount levels := hfits op.strength_lt_primary
      obtain ⟨middle, hmiddle⟩ := ihl hgrammarLeft hbefore (by omega) hstart (fun _ => hn)
      obtain ⟨last, hlast⟩ := ihr hgrammarRight hafter (by omega) hstart (fun _ => hn)
      have hop : middle.step t = .ok (.wants n levels) := by
        have hassign : t.kind ≠ .assign := by
          cases op <;> simp [ht, Operator.mark, Mark.kind]
        rw [step_of_holds (hmiddle.holds hclosed) hassign, follow_mark ht, ← hn]
      have hcount := count_le_peak_of_pass hmiddle.pass
      rw [hmiddle.peak] at hcount
      refine ⟨last, ?_, ?_, fun hclosed => hlast.holds hclosed.2⟩
      · rw [pass_append hmiddle.pass, pass_cons hop, hlast.pass]
      · rw [peak_append hmiddle.pass, peak_cons hop, hmiddle.peak, hlast.peak]
        simp only [Expr.nesting]
        omega

end Outline

/-- How deeply signs, groups and assignments of a text stand inside each other. -/
def nesting (text : String) : Nat :=
  Outline.peak (.wants 0 []) (Scan.ofText text).tokens

variable {store : Store} {text : String} {e : Expr} {v : Float}

/-- A text that has a value nests as its tree does. -/
theorem Denotes.nesting_eq (h : Denotes store (Scan.ofText text).tokens e v) :
    nesting text = e.nesting := by
  have hroom : 0 + e.nesting ≤ Evaluation.maxNesting := by
    simpa using h.nested
  obtain ⟨last, htakes⟩ : ∃ last, Outline.Takes e 0 [] (Scan.ofText text).tokens last :=
    Outline.exists_takes h.grammatical h.kinds hroom (Nat.le_refl _) (fun _ => rfl)
  rw [nesting, htakes.peak, Nat.zero_add]

/-- A text that is evaluated to a value has a tree. -/
theorem exists_denotes (h : (evaluate store text).result = .ok v) :
    ∃ e, Denotes store (Scan.ofText text).tokens e v := by
  obtain ⟨entries, hwritten, -⟩ := exists_written store text
  rw [h] at hwritten
  obtain ⟨e, assigned, hdenotes, -⟩ := hwritten
  exact ⟨e, hdenotes⟩

theorem Expr.exists_of_outcome_signed {negative : Bool} {t : Token} {ts : List Token}
    (h : (signed negative e).outcome store (t :: ts) = .ok v) :
    ∃ w, e.outcome store ts = .ok w := by
  rw [outcome_signed] at h
  cases hinner : e.outcome store ts with
  | ok w => exact ⟨w, rfl⟩
  | error f => simp [hinner, Except.map] at h

namespace Evaluation

variable {stack : List Frame} {ts : List Token}

/-- One more level of nesting is refused for want of room, or what follows it is. -/
theorem exists_tooDeep_nest {s : State} {t : Token} {frame : Frame}
    (hstep : step store s t = nest frame stack t.place)
    (h : depth stack < maxNesting →
      ∃ p, advance store (.operand (frame :: stack)) ts = .error ⟨.tooDeep, p⟩) :
    ∃ p, advance store s (t :: ts) = .error ⟨.tooDeep, p⟩ := by
  rw [advance, hstep]
  by_cases hroom : depth stack < maxNesting
  · rw [nest_of_lt hroom]
    exact h hroom
  · exact ⟨t.place, by rw [nest, if_neg hroom]; rfl⟩

theorem exists_tooDeep_append {s : State} (us : List Token)
    (h : ∃ p, advance store s ts = .error ⟨.tooDeep, p⟩) :
    ∃ p, advance store s (ts ++ us) = .error ⟨.tooDeep, p⟩ := by
  obtain ⟨p, hp⟩ := h
  exact ⟨p, by rw [advance_append, hp]; rfl⟩

/-- A tree that has a value is refused where it nests deeper than there is room. -/
theorem exists_tooDeep (hgrammar : e.Grammatical) (hts : ts.map Token.kind = e.kinds)
    (hvalue : e.outcome store ts = .ok v) (hfits : e.Fits stack)
    (hdepth : depth stack ≤ maxNesting) (hdeep : maxNesting < depth stack + e.nesting) :
    ∃ p, advance store (.operand stack) ts = .error ⟨.tooDeep, p⟩ := by
  induction e generalizing stack ts v with
  | number l => exact absurd hdeep (Nat.not_lt.mpr hdepth)
  | fetch n => exact absurd hdeep (Nat.not_lt.mpr hdepth)
  | signed negative e ih =>
      obtain ⟨t, rest, rfl, ht, hrest⟩ := List.map_eq_cons_iff.mp hts
      obtain ⟨hprimary, hgrammar⟩ := hgrammar
      obtain ⟨w, hw⟩ := Expr.exists_of_outcome_signed hvalue
      simp only [Expr.nesting] at hdeep
      apply exists_tooDeep_nest (step_sign ht)
      intro room
      exact ih hgrammar hrest hw (Expr.fits_of_primary hprimary _)
        (by rw [depth_sign]; omega) (by rw [depth_sign]; omega)
  | group e ih =>
      obtain ⟨t, inner, u, rfl, ht, hinner, hu⟩ := Expr.exists_of_kinds_group hts
      rw [Expr.outcome_group t [u] hinner] at hvalue
      simp only [Expr.nesting] at hdeep
      apply exists_tooDeep_nest (step_leftParen ht)
      intro room
      apply exists_tooDeep_append
      exact ih hgrammar.2 hinner hvalue (Expr.fits_of_blocks (blocks_group ..))
        (by rw [depth_group]; omega) (by rw [depth_group]; omega)
  | assign n e ih =>
      obtain ⟨t, u, rest, rfl, ht, hu, hrest⟩ := Expr.exists_of_kinds_assign hts
      rw [Expr.outcome_assign] at hvalue
      simp only [Expr.nesting] at hdeep
      rw [advance, step_name ht]
      apply exists_tooDeep_nest (step_assign hu)
      intro room
      exact ih hgrammar hrest hvalue (Expr.fits_of_blocks (blocks_assignment ..))
        (by rw [depth_assignment]; omega) (by rw [depth_assignment]; omega)
  | binary left op right ihl ihr =>
      obtain ⟨hleft, hright, hclosed, hgrammarLeft, hgrammarRight⟩ := hgrammar
      obtain ⟨before, t, after, rfl, hbefore, ht, hafter⟩ := Expr.exists_of_kinds_binary hts
      have hstack : Blocks op.strength stack := hfits op.strength_lt_primary
      have hfitsLeft : left.Fits stack := Expr.fits_of_blocks (hstack.mono hleft)
      rw [Expr.outcome_binary op t after hbefore] at hvalue
      obtain ⟨a, ha, hvalue⟩ := exists_of_bind_eq_ok hvalue
      obtain ⟨b, hb, -⟩ := exists_of_bind_eq_ok hvalue
      by_cases hroom : depth stack + left.nesting ≤ maxNesting
      · have hsettled : settled store op.strength (.operand stack) before = _ :=
          settled_closed hgrammarLeft hclosed hbefore hroom hfitsLeft hleft
        simp only [Expr.nesting] at hdeep
        rw [advance_operator (by rw [ht, Operator.ofKind?_mark]) hsettled, ha]
        simp only [Except.bind, reduce_of_blocks hstack]
        exact ihr hgrammarRight hafter hb (Expr.fits_of_blocks ((blocks_operation ..).mpr hright))
          (by rw [depth_operation]; omega) (by rw [depth_operation]; omega)
      · apply exists_tooDeep_append
        exact ihl hgrammarLeft hbefore ha hfitsLeft hdepth (Nat.not_le.mp hroom)

end Evaluation

end Reckoner
