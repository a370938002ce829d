import Reckoner.Proofs.Meaning

/-!
# What the stack stands for

A state stands for the tokens that led to it. Each frame of its stack stands for the tokens of what
waits: a sign, an opened group, an assignment, or an operator behind the tree of its left operand.
Behind the stack stands the tree of the operand that was read last. Reducing joins the last trees
into one, so the tokens stay the same, and it stops only in front of a division whose right operand
is zero.

The trees are not in the state. They are found for every state that a run reaches, by one case for
each way in which a token can be taken.
-/

namespace Reckoner

/-- Tokens are those of a tree of the grammar, within the limit of nesting, that has a value. -/
structure Denotes (store : Store) (ts : List Token) (e : Expr) (v : Float) : Prop where
  kinds : ts.map Token.kind = e.kinds
  grammatical : e.Grammatical
  nested : e.nesting ≤ Evaluation.maxNesting
  value : e.value store = .ok v

namespace Denotes

variable {store : Store} {ts us : List Token} {t u : Token} {e left right : Expr} {a b v : Float}

theorem of_kinds (h : Denotes store ts e v) (hus : us.map Token.kind = ts.map Token.kind) :
    Denotes store us e v :=
  ⟨hus.trans h.kinds, h.grammatical, h.nested, h.value⟩

theorem outcome (h : Denotes store ts e v) : e.outcome store ts = .ok v := by
  rw [Expr.outcome, h.value]
  rfl

/-- The value is the one that the tokens have when they are evaluated by themselves. -/
theorem result_run (h : Denotes store ts e v) (finish : Place) :
    (Evaluation.run finish store (.operand []) ts).result = .ok v := by
  have hdepth : Evaluation.depth [] + e.nesting ≤ Evaluation.maxNesting := by
    simpa using h.nested
  have hfits : e.Fits [] := Expr.fits_of_blocks (Evaluation.blocks_nil _)
  rw [Evaluation.result_run h.grammatical h.kinds hdepth hfits, h.outcome]
  rfl

/-- Tokens have at most one value. -/
theorem unique (ha : Denotes store ts left a) (hb : Denotes store ts right b) : a = b := by
  have heq := (ha.result_run Place.start).symm.trans (hb.result_run Place.start)
  exact Except.ok.inj heq

theorem number {l : Literal} (ht : t.kind = .number l.value) :
    Denotes store [t] (.number l) l.value :=
  ⟨by simp [ht, Expr.kinds, Expr.spellings, Spelling.kind], trivial, Nat.zero_le _, rfl⟩

theorem fetch {n : Name} (ht : t.kind = .name n.text) :
    Denotes store [t] (.fetch n) (store.value n.text) :=
  ⟨by simp [ht, Expr.kinds, Expr.spellings, Spelling.kind], trivial, Nat.zero_le _, rfl⟩

theorem signed {negative : Bool} (h : Denotes store ts e v) (hprimary : e.strength = Expr.primary)
    (hnested : e.nesting < Evaluation.maxNesting)
    (ht : t.kind = (Spelling.mark (if negative then .minus else .plus)).kind) :
    Denotes store (t :: ts) (.signed negative e) (Evaluation.signed negative v) := by
  refine ⟨?_, ⟨hprimary, h.grammatical⟩, hnested, ?_⟩
  · rw [List.map_cons, ht, h.kinds]
    rfl
  · rw [Expr.value, h.value]
    rfl

theorem group (h : Denotes store ts e v) (hclosed : e.Closed)
    (hnested : e.nesting < Evaluation.maxNesting) (ht : t.kind = .leftParen)
    (hu : u.kind = .rightParen) : Denotes store (t :: (ts ++ [u])) (.group e) v := by
  refine ⟨?_, ⟨hclosed, h.grammatical⟩, hnested, ?_⟩
  · rw [List.map_cons, List.map_append, List.map_singleton, ht, hu, h.kinds]
    simp [Expr.kinds, Expr.spellings, Spelling.kind, Mark.kind]
  · rw [Expr.value, h.value]
    rfl

theorem assign {n : Name} (h : Denotes store ts e v) (hnested : e.nesting < Evaluation.maxNesting)
    (ht : t.kind = .name n.text) (hu : u.kind = .assign) :
    Denotes store (t :: u :: ts) (.assign n e) v := by
  refine ⟨?_, h.grammatical, hnested, ?_⟩
  · rw [List.map_cons, List.map_cons, ht, hu, h.kinds]
    rfl
  · rw [Expr.value, h.value]
    rfl

theorem binary {op : Operator} (hl : Denotes store ts left a) (hr : Denotes store us right b)
    (hclosed : left.Closed) (hleft : op.strength ≤ left.strength)
    (hright : op.strength < right.strength) (ht : t.kind = op.mark.kind)
    (happly : op.apply t.place a b = .ok v) :
    Denotes store (ts ++ t :: us) (.binary left op right) v := by
  refine ⟨?_, ⟨hleft, hright, hclosed, hl.grammatical, hr.grammatical⟩,
    Nat.max_le.mpr ⟨hl.nested, hr.nested⟩, ?_⟩
  · exact Expr.map_kind_binary hl.kinds ht hr.kinds
  · rw [Operator.apply_eq] at happly
    split at happly
    · simp at happly
    · obtain rfl := Except.ok.inj happly
      simp only [Expr.value, hl.value, hr.value, Except.mapError, bind, Except.bind]
      rw [if_neg ‹_›]
      rfl

end Denotes

/-- A `/` and the tokens of its right operand, which is zero. -/
structure ZeroDivision (store : Store) (t : Token) (us : List Token) (e : Expr) : Prop where
  kind : t.kind = .divide
  strong : Operator.divide.strength < e.strength
  zero : ∃ v, Denotes store us e v ∧ (v = 0 ∨ v = -0)

theorem ZeroDivision.fits {store : Store} {t : Token} {us : List Token} {e : Expr}
    (h : ZeroDivision store t us e) (left : Float) (below : List Frame) :
    e.Fits (.operation left .divide t.place :: below) :=
  Expr.fits_of_blocks ((Evaluation.blocks_operation ..).mpr h.strong)

def EndsInName (ts : List Token) : Prop :=
  ∃ t text, ts.getLast? = some t ∧ t.kind = .name text

namespace EndsInName

variable {ts : List Token}

theorem append (h : EndsInName ts) (before : List Token) : EndsInName (before ++ ts) := by
  obtain ⟨t, text, hlast, hkind⟩ := h
  exact ⟨t, text, by simp [List.getLast?_append, hlast], hkind⟩

theorem of_append_cons {before : List Token} {t : Token} (h : EndsInName (before ++ t :: ts))
    (ht : ∀ text, t.kind ≠ .name text) : EndsInName ts := by
  obtain ⟨u, text, hlast, hkind⟩ := h
  cases ts with
  | nil =>
      obtain rfl : t = u := by simpa using hlast
      exact absurd hkind (ht text)
  | cons v ts =>
      exact ⟨u, text, by simpa [List.getLast?_append, List.getLast?_cons] using hlast, hkind⟩

theorem cons (h : EndsInName ts) (t : Token) : EndsInName (t :: ts) :=
  h.append [t]

end EndsInName

/-- Whether a token goes on with the right operand of a division: a `^`, or the `=` behind a
name. -/
def Continues (us : List Token) (t : Token) : Prop :=
  t.kind = .power ∨ t.kind = .assign ∧ EndsInName us

namespace Evaluation

/-- A tree whose tokens stand behind those of a stack, where its topmost frame waits for it. -/
structure Operand (store : Store) (stack : List Frame) (ts : List Token) (e : Expr) (v : Float) :
    Prop where
  denotes : Denotes store ts e v
  fits : e.Fits stack
  nested : depth stack + e.nesting ≤ maxNesting

namespace Operand

variable {store : Store} {stack : List Frame} {ts us : List Token} {t u : Token} {e left : Expr}
variable {a v c : Float}

theorem signed {negative : Bool} (h : Operand store (.sign negative :: stack) ts e v)
    (ht : t.kind = (Spelling.mark (if negative then .minus else .plus)).kind) :
    Operand store stack (t :: ts) (.signed negative e) (Evaluation.signed negative v) := by
  have hnested : depth stack + 1 + e.nesting ≤ maxNesting := by simpa using h.nested
  refine ⟨h.denotes.signed h.fits.primary_of_sign ?_ ht, Expr.fits_of_primary rfl _, ?_⟩
  · omega
  · simp only [Expr.nesting]
    omega

theorem group (h : Operand store (.group :: stack) ts e v) (hclosed : e.Closed)
    (ht : t.kind = .leftParen) (hu : u.kind = .rightParen) :
    Operand store stack (t :: (ts ++ [u])) (.group e) v := by
  have hnested : depth stack + 1 + e.nesting ≤ maxNesting := by simpa using h.nested
  refine ⟨h.denotes.group hclosed ?_ ht hu, Expr.fits_of_primary rfl _, ?_⟩
  · omega
  · simp only [Expr.nesting]
    omega

theorem assign {n : Name} (h : Operand store (.assignment n.text :: stack) ts e v)
    (ht : t.kind = .name n.text) (hu : u.kind = .assign) :
    Operand store stack (t :: u :: ts) (.assign n e) v := by
  have hnested : depth stack + 1 + e.nesting ≤ maxNesting := by simpa using h.nested
  refine ⟨h.denotes.assign ?_ ht hu, Expr.fits_of_primary rfl _, ?_⟩
  · omega
  · simp only [Expr.nesting]
    omega

theorem binary {op : Operator} {place : Place}
    (h : Operand store (.operation a op place :: stack) us e v)
    (hleft : Operand store stack ts left a) (hclosed : left.Closed)
    (hstrong : op.strength ≤ left.strength) (hblocks : Blocks op.strength stack)
    (ht : t.kind = op.mark.kind) (happly : op.apply t.place a v = .ok c) :
    Operand store stack (ts ++ t :: us) (.binary left op e) c := by
  have hnested : depth stack + e.nesting ≤ maxNesting := by simpa using h.nested
  refine ⟨hleft.denotes.binary h.denotes hclosed hstrong h.fits.lt_of_operation ht happly,
    Expr.fits_of_blocks hblocks, ?_⟩
  have := hleft.nested
  simp only [Expr.nesting]
  omega

/-- The operator in front of an operand fails only as a division, by the value of the operand. -/
theorem zeroDivision {op : Operator} {place : Place} {f : EvalError}
    (h : Operand store (.operation a op place :: stack) us e v) (ht : t.kind = op.mark.kind)
    (happly : op.apply t.place a v = .error f) :
    ZeroDivision store t us e ∧ op = .divide ∧ f = ⟨.zeroDivisor, t.place⟩ := by
  have hstrong := h.fits.lt_of_operation
  obtain ⟨rfl, hzero, rfl⟩ := Operator.apply_eq_error happly
  exact ⟨⟨ht, hstrong, v, h.denotes, hzero⟩, rfl, rfl⟩

end Operand

/-- The tokens that the frames of a stack stand for. -/
inductive Pending (store : Store) : List Token → List Frame → Prop where
  | nil : Pending store [] []
  | sign {ts : List Token} {stack : List Frame} {t : Token} (negative : Bool)
      (below : Pending store ts stack) (room : depth stack < maxNesting)
      (kind : t.kind = (Spelling.mark (if negative then .minus else .plus)).kind) :
      Pending store (ts ++ [t]) (.sign negative :: stack)
  | operation {ts us : List Token} {stack : List Frame} {t : Token} {op : Operator} {e : Expr}
      {left : Float} (below : Pending store ts stack) (operand : Operand store stack us e left)
      (closed : e.Closed) (strong : op.strength ≤ e.strength) (blocks : Blocks op.strength stack)
      (kind : t.kind = op.mark.kind) :
      Pending store (ts ++ us ++ [t]) (.operation left op t.place :: stack)
  | group {ts : List Token} {stack : List Frame} {t : Token} (below : Pending store ts stack)
      (room : depth stack < maxNesting) (kind : t.kind = .leftParen) :
      Pending store (ts ++ [t]) (.group :: stack)
  | assignment {ts : List Token} {stack : List Frame} {t u : Token} (n : Name)
      (below : Pending store ts stack) (room : depth stack < maxNesting)
      (name : t.kind = .name n.text) (kind : u.kind = .assign) :
      Pending store (ts ++ [t, u]) (.assignment n.text :: stack)

/-- What a reduction at some strength makes of the tokens. -/
inductive Reduced (store : Store) (strength : Nat) (ts : List Token) :
    Except EvalError (Float × List Frame) → Prop where
  | settled {before us : List Token} {below : List Frame} {e : Expr} {v : Float}
      (split : ts = before ++ us) (pending : Pending store before below)
      (operand : Operand store below us e v) (closed : e.Closed)
      (strong : strength ≤ e.strength) (blocks : Blocks strength below) :
      Reduced store strength ts (.ok (v, below))
  | zeroDivision {before us : List Token} {t : Token} {e : Expr} (split : ts = before ++ t :: us)
      (division : ZeroDivision store t us e) (closed : e.Closed)
      (weak : strength ≤ Operator.divide.strength) :
      Reduced store strength ts (.error ⟨.zeroDivisor, t.place⟩)

variable {store : Store} {ts us : List Token} {t : Token} {stack : List Frame} {e : Expr}
variable {v : Float}

theorem Pending.depth_le (h : Pending store ts stack) : depth stack ≤ maxNesting := by
  cases h with
  | nil => exact Nat.zero_le _
  | operation below operand closed strong blocks kind =>
      have := operand.nested
      rw [depth_operation]
      omega
  | sign negative below room kind => simpa using Nat.succ_le_of_lt room
  | group below room kind => simpa using Nat.succ_le_of_lt room
  | assignment n below room name kind => simpa using Nat.succ_le_of_lt room

/-- A tree without nesting is an operand on any stack. -/
theorem Pending.leaf (h : Pending store ts stack) (hdenotes : Denotes store us e v)
    (hprimary : e.strength = Expr.primary) (hnesting : e.nesting = 0) :
    Operand store stack us e v :=
  ⟨hdenotes, Expr.fits_of_primary hprimary _, by simpa [hnesting] using h.depth_le⟩

theorem reduced (hpending : Pending store ts stack) (hoperand : Operand store stack us e v)
    (hclosed : e.Closed) {k : Nat} (hk : k ≤ e.strength) :
    Reduced store k (ts ++ us) (reduce k v stack) := by
  -- The operand is general: each frame that is taken off makes a larger tree of it, which is the
  -- operand of the frames below.
  induction hpending generalizing us e v with
  | nil => exact .settled rfl .nil hoperand hclosed hk trivial
  | group below room kind =>
      exact .settled rfl (.group below room kind) hoperand hclosed hk trivial
  | assignment n below room name kind =>
      exact .settled rfl (.assignment n below room name kind) hoperand hclosed hk trivial
  | sign negative below room kind ih =>
      rw [List.append_assoc]
      exact ih (hoperand.signed kind) hclosed (hk.trans e.strength_le_primary)
  | @operation ts ls stack t op l a below operand closed strong blocks kind ih =>
      rw [reduce]
      split
      · rename_i hle
        rw [List.append_assoc, List.append_assoc]
        cases happly : op.apply t.place a v with
        | ok c =>
            have hbinary := hoperand.binary operand closed strong blocks kind happly
            exact ih hbinary ⟨closed, hclosed⟩ hle
        | error f =>
            obtain ⟨hdivision, rfl, rfl⟩ := hoperand.zeroDivision kind happly
            exact .zeroDivision (List.append_assoc ..).symm hdivision hclosed hle
      · rename_i hlt
        exact .settled rfl (.operation below operand closed strong blocks kind) hoperand hclosed
          hk (Nat.not_le.mp hlt)

/-- The tokens that a state stands for. -/
inductive Stands (store : Store) : List Token → State → Prop where
  | operand {ts : List Token} {stack : List Frame} (pending : Pending store ts stack) :
      Stands store ts (.operand stack)
  | named {ts : List Token} {stack : List Frame} {t : Token} (n : Name)
      (pending : Pending store ts stack) (kind : t.kind = .name n.text) :
      Stands store (ts ++ [t]) (.named n.text stack)
  | operator {ts us : List Token} {stack : List Frame} {e : Expr} {v : Float}
      (pending : Pending store ts stack) (operand : Operand store stack us e v) (closed : e.Closed)
      (primary : e.strength = Expr.primary) (unnamed : ¬ EndsInName (ts ++ us)) :
      Stands store (ts ++ us) (.operator v stack)

/-- An expression starts with nothing taken. -/
theorem Stands.start {store : Store} : Stands store [] (.operand []) := .operand .nil

theorem Stands.pending (h : Stands store ts (.operand stack)) : Pending store ts stack := by
  cases h with
  | operand pending => exact pending

theorem Stands.endsInName {name : String} (h : Stands store ts (.named name stack)) :
    EndsInName ts := by
  cases h with
  | @named before _ t n pending kind => exact ⟨t, n.text, by simp, kind⟩

/-- What a step can do. It never fails in front of a token that goes on with the operand. -/
inductive Effect (store : Store) (ts : List Token) (t : Token) : Except EvalError State → Prop where
  | next {s : State} (stands : Stands store (ts ++ [t]) s) : Effect store ts t (.ok s)
  | zeroDivision {before us : List Token} {u : Token} {e : Expr} (split : ts = before ++ u :: us)
      (division : ZeroDivision store u us e) (closed : e.Closed) (complete : ¬ Continues us t) :
      Effect store ts t (.error ⟨.zeroDivisor, u.place⟩)
  | refused {f : EvalError} (divisor : f.cause ≠ .zeroDivisor) (group : f.cause ≠ .unclosedGroup) :
      Effect store ts t (.error f)

theorem effect_nest {frame : Frame}
    (h : depth stack < maxNesting → Pending store (ts ++ [t]) (frame :: stack)) :
    Effect store ts t (nest frame stack t.place) := by
  rw [nest]
  split
  · exact .next (.operand (h ‹_›))
  · exact .refused (by simp) (by simp)

theorem effect_takeOther (hpending : Pending store ts stack) (hoperand : Operand store stack us e v)
    (hclosed : e.Closed) : Effect store (ts ++ us) t (takeOther v stack t) := by
  rw [takeOther.eq_def]
  split
  · rename_i outer hkind
    cases hpending with
    | @group ts _ u below room kind =>
        have hgroup := hoperand.group hclosed kind hkind
        have hunnamed : ¬ EndsInName (ts ++ u :: (us ++ [t])) := by
          simp [EndsInName, hkind, List.getLast?_append, List.getLast?_cons]
        have hstands := Stands.operator below hgroup hclosed rfl hunnamed
        exact .next (by simpa using hstands)
  · exact .refused (by simp) (by simp)
  · exact .refused (by simp) (by simp)
  · exact .refused (by simp) (by simp)

/-- Behind an operand, a token is taken or refused, or a division by zero is complete. -/
theorem effect_takeOperator (hpending : Pending store ts stack)
    (hoperand : Operand store stack us e v) (hclosed : e.Closed)
    (hprimary : e.strength = Expr.primary)
    (hassign : t.kind = .assign → ¬ EndsInName (ts ++ us)) :
    Effect store (ts ++ us) t (takeOperator v stack t) := by
  have hreduced {k : Nat} (hk : k ≤ Expr.primary) : Reduced store k (ts ++ us) (reduce k v stack) :=
    reduced hpending hoperand hclosed (hprimary ▸ hk)
  rw [takeOperator]
  cases hop : Operator.ofKind? t.kind with
  | some op =>
      have hkind : t.kind = op.mark.kind := Operator.kind_of_ofKind? hop
      have hstrong := hreduced op.strength_lt_primary.le
      dsimp only
      generalize reduce op.strength v stack = r at hstrong ⊢
      cases hstrong with
      | settled split pending operand closed strong blocks =>
          rw [split]
          exact .next (.operand (.operation pending operand closed strong blocks hkind))
      | zeroDivision split division closed weak =>
          refine .zeroDivision split division closed ?_
          rintro (hpower | ⟨heq, -⟩)
          · cases op <;> simp_all [Operator.mark, Mark.kind, Operator.strength]
          · cases op <;> simp [Operator.mark, Mark.kind, heq] at hkind
  | none =>
      have hall := hreduced (Nat.zero_le _)
      dsimp only
      generalize reduce 0 v stack = r at hall ⊢
      cases hall with
      | settled split pending operand closed strong blocks =>
          rw [split]
          exact effect_takeOther pending operand closed
      | zeroDivision split division closed weak =>
          refine .zeroDivision split division closed ?_
          rintro (hpower | ⟨heq, hname⟩)
          · simp [hpower, Operator.ofKind?] at hop
          · exact hassign heq (split ▸ (hname.cons _).append _)

theorem effect_takeOperand (hpending : Pending store ts stack) (ht : t.Spelled) :
    Effect store ts t (takeOperand stack t) := by
  rw [takeOperand.eq_def]
  split
  · rename_i v hkind
    obtain ⟨l, rfl⟩ := ht.2 v hkind
    have hunnamed : ¬ EndsInName (ts ++ [t]) := by
      simp [EndsInName, hkind]
    exact .next (.operator hpending (hpending.leaf (.number hkind) rfl rfl) trivial rfl hunnamed)
  · rename_i text hkind
    obtain ⟨n, rfl⟩ := ht.1 text hkind
    exact .next (.named n hpending hkind)
  · apply effect_nest
    intro room
    exact .sign false hpending room ‹_›
  · apply effect_nest
    intro room
    exact .sign true hpending room ‹_›
  · apply effect_nest
    intro room
    exact .group hpending room ‹_›
  · exact .refused (by simp) (by simp)
  · exact .refused (by simp) (by simp)

/-- Every step from a state that stands for some tokens has one of these effects. -/
theorem effect_step {s : State} (hstands : Stands store ts s) (ht : t.Spelled) :
    Effect store ts t (step store s t) := by
  cases hstands with
  | operand pending => exact effect_takeOperand pending ht
  | @named ts stack u n pending kind =>
      rw [step]
      split
      · apply effect_nest
        intro room
        simpa using Pending.assignment n pending room kind ‹_›
      · rename_i hassign
        have hfetch := pending.leaf (.fetch kind) rfl rfl
        exact effect_takeOperator pending hfetch trivial rfl fun heq => absurd heq hassign
  | operator pending operand closed primary unnamed =>
      exact effect_takeOperator pending operand closed primary fun _ => unnamed

/-- What a run has taken is what its state stands for. -/
theorem stands_advance {s last : State} (hstands : Stands store ts s)
    (hspelled : ∀ t ∈ us, t.Spelled) (h : advance store s us = .ok last) :
    Stands store (ts ++ us) last := by
  induction us generalizing ts s with
  | nil =>
      obtain rfl := Except.ok.inj h
      simpa using hstands
  | cons t rest ih =>
      obtain ⟨next, hstep, hrest⟩ := exists_of_advance_cons h
      have heffect := effect_step hstands (hspelled t List.mem_cons_self)
      rw [hstep] at heffect
      cases heffect with
      | next stands =>
          have hothers : ∀ u ∈ rest, u.Spelled := by
            intro u hu
            exact hspelled u (List.mem_cons_of_mem t hu)
          simpa using ih stands hothers hrest

end Evaluation

end Reckoner
