import Reckoner.Proofs.DescentEvaluation
import Reckoner.Proofs.Nesting

/-!
# The pulls of a descent

A descent pulls the tokens of a text in their order, each of them once, and no more behind the end
of the text or a malformed token. The primaries that are read inside each other are one more than
the signs, groups and assignments around the innermost, so the limit of nesting bounds them for
every text. Operands that stand beside each other are read one after the other, and there may be any
number of them.
-/

namespace Reckoner

/-- The most primaries that are being read at one of some pulls. -/
def Descent.peak : List Pull → Nat
  | [] => 0
  | p :: ps => max p.active (peak ps)

namespace Evaluation

open Descent

variable {store : Store} {s next middle : State} {stack : List Frame} {t : Token}
variable {ts : List Token} {v : Float} {strength : Nat} {e : Expr}

/-! ### Steps -/

/-- A malformed token is refused in every state. -/
theorem fault?_of_step (h : step store s t = .ok next) : t.fault? = none := by
  obtain ⟨kind, place⟩ := t
  cases kind with
  | bad fault =>
      have hrefused (w : Float) (below : List Frame) :
          takeOperator w below ⟨.bad fault, place⟩ ≠ .ok next := by
        rw [takeOperator.eq_def]
        simp only [Operator.ofKind?]
        intro htake
        obtain ⟨⟨whole, rest⟩, -, hother⟩ := exists_of_bind_eq_ok htake
        simp [takeOther] at hother
      cases s with
      | operand stack => simp [step, takeOperand] at h
      | named name stack => exact absurd h (hrefused _ _)
      | operator w stack => exact absurd h (hrefused _ _)
  | _ => rfl

theorem depth_le_of_reduce {below : List Frame} {result : Float}
    (h : reduce strength v stack = .ok (result, below)) : depth below ≤ depth stack := by
  fun_induction reduce strength v stack with
  | case1 value negative rest ih =>
      rw [depth_sign]
      exact Nat.le_succ_of_le (ih h)
  | case2 value left op place rest hle applied happly ih =>
      rw [depth_operation]
      exact ih h
  | case3 value left op place rest hle e happly => simp at h
  | case4 value left op place rest hlt =>
      obtain ⟨-, rfl⟩ := by simpa only [Except.ok.injEq, Prod.mk.injEq] using h
      exact Nat.le_refl _
  | case5 value stack hsign hoperation =>
      obtain ⟨-, rfl⟩ := by simpa only [Except.ok.injEq, Prod.mk.injEq] using h
      exact Nat.le_refl _

theorem depth_le_of_takeOther (h : takeOther v stack t = .ok next) :
    depth next.frames ≤ depth stack := by
  rw [takeOther.eq_def] at h
  split at h
  · obtain rfl := Except.ok.inj h
    rw [depth_group]
    exact Nat.le_succ _
  all_goals simp at h

/-- Behind an operand no level of nesting is entered. -/
theorem depth_le_of_takeOperator (h : takeOperator v stack t = .ok next) :
    depth next.frames ≤ depth stack := by
  rw [takeOperator.eq_def] at h
  split at h
  · obtain ⟨⟨left, below⟩, hreduce, hnext⟩ := exists_of_bind_eq_ok h
    obtain rfl := Except.ok.inj hnext
    simp only [State.frames, depth_operation]
    exact depth_le_of_reduce hreduce
  · obtain ⟨⟨whole, below⟩, hreduce, hother⟩ := exists_of_bind_eq_ok h
    exact Nat.le_trans (depth_le_of_takeOther hother) (depth_le_of_reduce hreduce)

theorem depth_le_of_nest {frame : Frame} {place : Place}
    (h : nest frame stack place = .ok next) : depth next.frames ≤ maxNesting := by
  obtain ⟨hroom, rfl⟩ := lt_of_nest h
  have hone : depth (frame :: stack) ≤ depth stack + 1 := by
    rw [depth, List.countP_cons, depth]
    split <;> omega
  exact Nat.le_trans hone hroom

/-- No step leaves the limit of nesting. -/
theorem depth_le_of_step (h : step store s t = .ok next) (hs : depth s.frames ≤ maxNesting) :
    depth next.frames ≤ maxNesting := by
  cases s with
  | operand stack =>
      rw [step, takeOperand.eq_def] at h
      split at h
      · obtain rfl := Except.ok.inj h
        exact hs
      · obtain rfl := Except.ok.inj h
        exact hs
      · exact depth_le_of_nest h
      · exact depth_le_of_nest h
      · exact depth_le_of_nest h
      · simp at h
      · simp at h
  | named name stack =>
      rw [step] at h
      split at h
      · exact depth_le_of_nest h
      · exact Nat.le_trans (depth_le_of_takeOperator h) hs
  | operator w stack => exact Nat.le_trans (depth_le_of_takeOperator h) hs

/-! ### Pulls -/

theorem pulls_ne_nil (store : Store) (s : State) (ts : List Token) : pulls store s ts ≠ [] := by
  cases ts <;> simp [pulls]

/-- What is pulled is the front of the tokens, behind which the end follows. -/
theorem token_pulls_prefix (store : Store) (s : State) (ts : List Token) :
    (pulls store s ts).map Pull.token <+: ts.map some ++ [none] := by
  induction ts generalizing s with
  | nil => exact List.prefix_rfl
  | cons t rest ih =>
      cases hstep : step store s t with
      | ok next =>
          rw [pulls_of_step hstep]
          exact (List.prefix_cons_inj _).mpr (ih next)
      | error e =>
          rw [pulls_of_step_error hstep]
          exact (List.prefix_cons_inj _).mpr List.nil_prefix

/-- Only the last pull may be the end of the text or a malformed token. -/
theorem wellFormed_of_mem_dropLast {p : Pull} (h : p ∈ (pulls store s ts).dropLast) :
    ∃ t, p.token = some t ∧ t.fault? = none := by
  induction ts generalizing s with
  | nil => simp [pulls] at h
  | cons t rest ih =>
      cases hstep : step store s t with
      | ok next =>
          rw [pulls_of_step hstep, List.dropLast_cons_of_ne_nil (pulls_ne_nil _ _ _)] at h
          obtain rfl | hrest := List.mem_cons.mp h
          · exact ⟨t, rfl, fault?_of_step hstep⟩
          · exact ih hrest
      | error e => simp [pulls_of_step_error hstep] at h

/-- A run to a value pulls everything, and nothing of it is malformed. -/
theorem token_pulls_of_run {finish : Place} (h : (run finish store s ts).result = .ok v) :
    (pulls store s ts).map Pull.token = ts.map some ++ [none] ∧ ∀ t ∈ ts, t.fault? = none := by
  induction ts generalizing s with
  | nil => exact ⟨rfl, by simp⟩
  | cons t rest ih =>
      rw [run] at h
      cases hstep : step store s t with
      | ok next =>
          rw [hstep] at h
          obtain ⟨htokens, hgood⟩ := ih h
          constructor
          · rw [pulls_of_step hstep, List.map_cons, htokens]
            rfl
          · exact List.forall_mem_cons.mpr ⟨fault?_of_step hstep, hgood⟩
      | error e => simp [hstep] at h

/-- The limit of nesting bounds the primaries that are being read. -/
theorem active_le_of_mem_pulls (hs : depth s.frames ≤ maxNesting) :
    ∀ p ∈ pulls store s ts, p.active ≤ maxNesting + 1 := by
  have hfirst : depth s.frames + 1 ≤ maxNesting + 1 := Nat.succ_le_succ hs
  induction ts generalizing s with
  | nil => simpa [pulls] using hfirst
  | cons t rest ih =>
      cases hstep : step store s t with
      | ok next =>
          have hnext : depth next.frames ≤ maxNesting := depth_le_of_step hstep hs
          rw [pulls_of_step hstep]
          exact List.forall_mem_cons.mpr ⟨hfirst, ih hnext (Nat.succ_le_succ hnext)⟩
      | error e =>
          rw [pulls_of_step_error hstep]
          simpa using hfirst

/-! ### How many primaries are read inside each other -/

theorem peak_pulls_cons (h : step store s t = .ok next) (ts : List Token) :
    peak (pulls store s (t :: ts)) = max (depth s.frames + 1) (peak (pulls store next ts)) := by
  rw [pulls_of_step h, peak]

theorem depth_lt_peak (store : Store) (s : State) (ts : List Token) :
    depth s.frames < peak (pulls store s ts) := by
  cases ts <;> exact Nat.le_max_left _ _

/-- Peaks combine by the greater of them where one text ends and the other starts. -/
theorem peak_pulls_append (h : advance store s ts = .ok middle) (us : List Token) :
    peak (pulls store s (ts ++ us)) =
      max (peak (pulls store s ts)) (peak (pulls store middle us)) := by
  induction ts generalizing s with
  | nil =>
      obtain rfl := Except.ok.inj h
      exact (Nat.max_eq_right (depth_lt_peak store s us)).symm
  | cons t rest ih =>
      obtain ⟨next, hstep, hrest⟩ := exists_of_advance_cons h
      rw [List.cons_append, peak_pulls_cons hstep, peak_pulls_cons hstep, ih hrest, Nat.max_assoc]

/-- The token behind some others is pulled with the last of them. -/
theorem peak_pulls_behind (h : advance store s (ts ++ [t]) = .ok next) (us : List Token) :
    peak (pulls store s (ts ++ t :: us)) =
      max (peak (pulls store s ts)) (peak (pulls store next us)) := by
  obtain ⟨middle, hbefore, hstep⟩ := exists_of_advance_append_singleton h
  have hmiddle : depth middle.frames < peak (pulls store s ts) := by
    have hends := peak_pulls_append hbefore []
    rw [List.append_nil] at hends
    rw [hends]
    exact Nat.lt_of_lt_of_le (depth_lt_peak store middle []) (Nat.le_max_right _ _)
  rw [peak_pulls_append hbefore, peak_pulls_cons hstep]
  omega

/-- While a tree is read, its nesting is added to what waits. -/
theorem peak_pulls (hgrammar : e.Grammatical) (hts : ts.map Token.kind = e.kinds)
    (hvalue : e.outcome store ts = .ok v) (hfits : e.Fits stack)
    (hdepth : depth stack + e.nesting ≤ maxNesting) :
    peak (pulls store (.operand stack) ts) = depth stack + e.nesting + 1 := by
  induction e generalizing stack ts v with
  | number l =>
      obtain ⟨t, rfl, ht⟩ := List.map_eq_singleton_iff.mp hts
      have hstep : step store (.operand stack) t = .ok (.operator l.value stack) := by
        simp [step, takeOperand, ht, Spelling.kind]
      rw [peak_pulls_cons hstep]
      exact Nat.max_self _
  | fetch n =>
      obtain ⟨t, rfl, ht⟩ := List.map_eq_singleton_iff.mp hts
      rw [peak_pulls_cons (step_name ht)]
      exact Nat.max_self _
  | signed negative e ih =>
      obtain ⟨t, rest, rfl, ht, hrest⟩ := List.map_eq_cons_iff.mp hts
      obtain ⟨hprimary, hgrammar⟩ := hgrammar
      obtain ⟨w, hw⟩ := Expr.exists_of_outcome_signed hvalue
      simp only [Expr.nesting] at hdepth ⊢
      have hroom : depth stack < maxNesting := by omega
      have hstep : step store (.operand stack) t = .ok (.operand (.sign negative :: stack)) :=
        (step_sign ht).trans (nest_of_lt hroom _ _)
      have hinner := ih hgrammar hrest hw (Expr.fits_of_primary hprimary (.sign negative :: stack))
        (by rw [depth_sign]; omega)
      rw [depth_sign] at hinner
      rw [peak_pulls_cons hstep, hinner, State.frames]
      omega
  | group e ih =>
      obtain ⟨t, inner, u, rfl, ht, hinner, hu⟩ := Expr.exists_of_kinds_group hts
      obtain ⟨hclosed, hgrammar⟩ := hgrammar
      rw [Expr.outcome_group t [u] hinner] at hvalue
      simp only [Expr.nesting] at hdepth ⊢
      have hroom : depth stack < maxNesting := by omega
      have hstep : step store (.operand stack) t = .ok (.operand (.group :: stack)) :=
        (step_leftParen ht).trans (nest_of_lt hroom _ _)
      have hfits : e.Fits (.group :: stack) := Expr.fits_of_blocks (blocks_group ..)
      have hdepth' : depth (.group :: stack) + e.nesting ≤ maxNesting := by
        rw [depth_group]
        omega
      have hsettled : settled store 0 (.operand (.group :: stack)) inner = _ :=
        settled_closed hgrammar hclosed hinner hdepth' hfits (Nat.zero_le _)
      have hclose : advance store (.operand (.group :: stack)) (inner ++ [u]) =
          .ok (.operator v stack) := by
        rw [advance_other (by simp [hu, Operator.ofKind?]) (by simp [hu]) hsettled, hvalue]
        simp [Except.bind, reduce_of_blocks, takeOther, hu, advance]
      have hpeak := ih hgrammar hinner hvalue hfits hdepth'
      rw [depth_group] at hpeak
      rw [peak_pulls_cons hstep, peak_pulls_behind hclose, hpeak]
      simp only [pulls, peak, State.frames]
      omega
  | assign n e ih =>
      obtain ⟨t, u, rest, rfl, ht, hu, hrest⟩ := Expr.exists_of_kinds_assign hts
      rw [Expr.outcome_assign] at hvalue
      simp only [Expr.nesting] at hdepth ⊢
      have hroom : depth stack < maxNesting := by omega
      have hstep : step store (.named n.text stack) u =
          .ok (.operand (.assignment n.text :: stack)) :=
        (step_assign hu).trans (nest_of_lt hroom _ _)
      have hpeak := ih hgrammar hrest hvalue
        (Expr.fits_of_blocks (blocks_assignment e.strength n.text stack))
        (by rw [depth_assignment]; omega)
      rw [depth_assignment] at hpeak
      rw [peak_pulls_cons (step_name ht), peak_pulls_cons hstep, hpeak]
      simp only [State.frames]
      omega
  | binary left op right ihl ihr =>
      obtain ⟨hleft, hright, hclosed, hgrammarLeft, hgrammarRight⟩ := hgrammar
      obtain ⟨before, t, after, rfl, hbefore, ht, hafter⟩ := Expr.exists_of_kinds_binary hts
      simp only [Expr.nesting] at hdepth ⊢
      have hstack : Blocks op.strength stack := hfits op.strength_lt_primary
      have hfitsLeft : left.Fits stack := Expr.fits_of_blocks (hstack.mono hleft)
      rw [Expr.outcome_binary op t after hbefore] at hvalue
      obtain ⟨a, ha, hvalue⟩ := exists_of_bind_eq_ok hvalue
      obtain ⟨b, hb, -⟩ := exists_of_bind_eq_ok hvalue
      have hsettled : settled store op.strength (.operand stack) before = _ :=
        settled_closed hgrammarLeft hclosed hbefore (by omega) hfitsLeft hleft
      have hmark : advance store (.operand stack) (before ++ [t]) =
          .ok (.operand (.operation a op t.place :: stack)) := by
        rw [advance_operator (by rw [ht, Operator.ofKind?_mark]) hsettled, ha]
        simp only [Except.bind, reduce_of_blocks hstack, advance]
      have hpeakLeft := ihl hgrammarLeft hbefore ha hfitsLeft (by omega)
      have hpeakRight := ihr hgrammarRight hafter hb
        (Expr.fits_of_blocks ((blocks_operation _ a op t.place stack).mpr hright))
        (by rw [depth_operation]; omega)
      rw [depth_operation] at hpeakRight
      rw [peak_pulls_behind hmark, hpeakLeft, hpeakRight]
      omega

end Evaluation

/-! ### Operands beside each other -/

theorem Text.isBlank_of_mem_nil : ∀ c ∈ [], Text.isBlank c = true := by
  simp

def Layout.plain (spellings : List Spelling) : Layout where
  pieces := spellings.map fun s => ⟨[], s, Text.isBlank_of_mem_nil⟩
  tail := []
  isBlank_tail := Text.isBlank_of_mem_nil

@[simp] theorem Layout.spellings_plain (spellings : List Spelling) :
    (Layout.plain spellings).spellings = spellings := by
  simp [Layout.plain, Layout.spellings, Function.comp_def]

def Literal.one : Literal :=
  .decimal ⟨['1'], none⟩ (by simp [Numeral.digits]) (by simp [Numeral.digits])

theorem Literal.value_one_ne_zero : ¬ (one.value = 0 ∨ one.value = -0) := by
  rw [← beq_zero_iff]
  decide +kernel

namespace Expr

/-- Ones beside each other, with so many operators between them. -/
def ones (op : Operator) : Nat → Expr
  | 0 => .number .one
  | n + 1 => .binary (ones op n) op (.number .one)

def grouped (e : Expr) : Nat → Expr
  | 0 => e
  | n + 1 => .group (e.grouped n)

variable {store : Store} {e : Expr}

theorem grammatical_ones (op : Operator) (n : Nat) :
    (ones op n).Closed ∧ (ones op n).Grammatical ∧ op.strength ≤ (ones op n).strength := by
  induction n with
  | zero => exact ⟨trivial, trivial, op.strength_lt_primary.le⟩
  | succ n ih =>
      obtain ⟨hclosed, hgrammar, hstrength⟩ := ih
      exact ⟨⟨hclosed, trivial⟩,
        ⟨hstrength, op.strength_lt_primary, hclosed, hgrammar, trivial⟩, Nat.le_refl _⟩

theorem nesting_ones (op : Operator) (n : Nat) : (ones op n).nesting = 0 := by
  induction n with
  | zero => rfl
  | succ n ih => rw [ones, nesting, ih, nesting, Nat.max_self]

theorem exists_value_ones (store : Store) (op : Operator) (n : Nat) :
    ∃ v, (ones op n).value store = .ok v := by
  induction n with
  | zero => exact ⟨_, rfl⟩
  | succ n ih =>
      obtain ⟨a, ha⟩ := ih
      have hdivisor : ¬ (op = .divide ∧ (Literal.one.value = 0 ∨ Literal.one.value = -0)) :=
        fun h => Literal.value_one_ne_zero h.2
      refine ⟨op.compute a Literal.one.value, ?_⟩
      simp only [ones, value, ha]
      exact if_neg hdivisor

theorem grammatical_grouped (hclosed : e.Closed) (hgrammar : e.Grammatical) (n : Nat) :
    (e.grouped n).Closed ∧ (e.grouped n).Grammatical := by
  induction n with
  | zero => exact ⟨hclosed, hgrammar⟩
  | succ n ih => exact ⟨ih.1, ih⟩

theorem nesting_grouped (e : Expr) (n : Nat) : (e.grouped n).nesting = e.nesting + n := by
  induction n with
  | zero => rfl
  | succ n ih => rw [grouped, nesting, ih, Nat.add_assoc]

theorem value_grouped {v : Float} (h : e.value store = .ok v) (n : Nat) :
    (e.grouped n).value store = .ok v := by
  induction n with
  | zero => exact h
  | succ n ih =>
      rw [grouped, value, ih]
      rfl

end Expr

theorem Denotes.of_layout {store : Store} {e : Expr} {w : Layout} {v : Float}
    (hw : w.spellings = e.spellings) (hgrammar : e.Grammatical)
    (hnesting : e.nesting ≤ Evaluation.maxNesting) (hvalue : e.value store = .ok v) :
    Denotes store (Scan.ofText w.text).tokens e v := by
  rw [Layout.scan_text (Layout.separated_of_spellings hw)]
  exact ⟨Layout.kinds_tokens hw, hgrammar, hnesting, hvalue⟩

namespace Descent

variable {store : Store} {text : String} {e : Expr} {v : Float}

/-- One pull for each token is enough, and one for the end. -/
theorem length_descend_le (store : Store) (text : String) :
    (descend store text).2.length ≤ (Scan.ofText text).tokens.length + 1 := by
  have hprefix := Evaluation.token_pulls_prefix store (.operand []) (Scan.ofText text).tokens
  rw [descend_eq]
  simpa using hprefix.length_le

/-- The pulls of the descent are the first ones of the text. -/
theorem token_descend (store : Store) (text : String) :
    (descend store text).2.map Pull.token =
      (List.range (descend store text).2.length).map
        (fun k => ((Cursor.ofText text).pulled k).pull.1) := by
  have hlength := length_descend_le store text
  have hstream := Cursor.map_pull_pulled (Cursor.ofText text)
  rw [descend_eq] at hlength ⊢
  let tokens := (Scan.ofText text).tokens
  let pulls := Evaluation.pulls store (.operand []) tokens
  have hprefix : pulls.map Pull.token <+: tokens.map some ++ [none] :=
    Evaluation.token_pulls_prefix store (.operand []) tokens
  calc pulls.map Pull.token
      = (tokens.map some ++ [none]).take (pulls.map Pull.token).length :=
        List.prefix_iff_eq_take.mp hprefix
    _ = ((List.range (tokens.length + 1)).map
          fun k => ((Cursor.ofText text).pulled k).pull.1).take pulls.length := by
        rw [List.length_map]
        exact congrArg (List.take pulls.length) hstream.symm
    _ = (List.range pulls.length).map fun k => ((Cursor.ofText text).pulled k).pull.1 := by
        rw [← List.map_take, List.take_range, Nat.min_eq_left hlength]

/-- The descent into a text that has a tree goes as deep as the tree nests. -/
theorem peak_of_denotes (h : Denotes store (Scan.ofText text).tokens e v) :
    peak (descend store text).2 = e.nesting + 1 := by
  have hfits : e.Fits [] := Expr.fits_of_blocks (Evaluation.blocks_nil _)
  have hdepth : Evaluation.depth [] + e.nesting ≤ Evaluation.maxNesting := by
    simpa using h.nested
  rw [descend_eq, Evaluation.peak_pulls h.grammatical h.kinds h.outcome hfits hdepth]
  simp

/-- Any number of operands may stand beside each other, within any number of groups that there is
room for. -/
theorem exists_value_of_ones (store : Store) (op : Operator) (count : Nat) {groups : Nat}
    (h : groups ≤ Evaluation.maxNesting) :
    ∃ v, Denotes store
      (Scan.ofText (Layout.plain ((Expr.ones op count).grouped groups).spellings).text).tokens
      ((Expr.ones op count).grouped groups) v := by
  obtain ⟨hclosed, hgrammar, -⟩ := Expr.grammatical_ones op count
  obtain ⟨v, hv⟩ := Expr.exists_value_ones store op count
  have hnesting : ((Expr.ones op count).grouped groups).nesting = groups := by
    rw [Expr.nesting_grouped, Expr.nesting_ones, Nat.zero_add]
  refine ⟨v, Denotes.of_layout (Layout.spellings_plain _) ?_ ?_ ?_⟩
  · exact (Expr.grammatical_grouped hclosed hgrammar groups).2
  · rw [hnesting]
    exact h
  · exact Expr.value_grouped hv groups

/-- Evaluation is one descent into a text. It ends for every text, and its pulls are the first ones
of the text, each of them made once. Behind the end of the text or a malformed token there is no
further pull; a value is found only if all tokens are well formed and everything up to the end is
pulled. No more than 257 primaries are read inside each other. Where there is a value, their number
comes from the nesting alone, and any number of operands may stand beside each other, at each depth
that there is room for. -/
theorem one_pass (store : Store) (text : String) :
    (descend store text).1 = evaluate store text ∧
    (descend store text).2.map Pull.token =
      (List.range (descend store text).2.length).map
        (fun k => ((Cursor.ofText text).pulled k).pull.1) ∧
    (∀ p ∈ (descend store text).2.dropLast, ∃ t, p.token = some t ∧ t.fault? = none) ∧
    (descend store text).2.length ≤ (Scan.ofText text).tokens.length + 1 ∧
    (∀ v, (evaluate store text).result = .ok v →
      (∀ t ∈ (Scan.ofText text).tokens, t.fault? = none) ∧
      (descend store text).2.map Pull.token = (Scan.ofText text).tokens.map some ++ [none] ∧
      peak (descend store text).2 = nesting text + 1) ∧
    (∀ p ∈ (descend store text).2, p.active ≤ 257) ∧
    ∀ op count groups, groups ≤ 256 → ∃ v,
      (evaluate store
          (Layout.plain ((Expr.ones op count).grouped groups).spellings).text).result = .ok v ∧
      peak (descend store
          (Layout.plain ((Expr.ones op count).grouped groups).spellings).text).2 = groups + 1 := by
  refine ⟨congrArg Prod.fst (descend_eq store text), ?_, ?_, ?_, ?_, ?_, ?_⟩
  · exact token_descend store text
  · intro p hp
    rw [descend_eq] at hp
    exact Evaluation.wellFormed_of_mem_dropLast hp
  · exact length_descend_le store text
  · intro v hv
    obtain ⟨htokens, hgood⟩ := Evaluation.token_pulls_of_run hv
    obtain ⟨e, he⟩ := exists_denotes hv
    refine ⟨hgood, ?_, ?_⟩
    · rw [descend_eq]
      exact htokens
    · rw [peak_of_denotes he, he.nesting_eq]
  · intro p hp
    rw [descend_eq] at hp
    exact Evaluation.active_le_of_mem_pulls (Nat.zero_le _) p hp
  · intro op count groups hgroups
    obtain ⟨v, hv⟩ := exists_value_of_ones store op count hgroups
    refine ⟨v, hv.result_run _, ?_⟩
    rw [peak_of_denotes hv, Expr.nesting_grouped, Expr.nesting_ones, Nat.zero_add]

end Descent

end Reckoner
