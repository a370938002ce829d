import Reckoner.Evaluation
import Reckoner.Proofs.Spelling

/-!
# Expression trees

The trees of the grammar: sums and differences of products and quotients of powers, where all
operators of one strength group to the left, and primaries: literals, variables, signed primaries,
groups, and assignments. An assignment takes all the text behind it, so it stands last in the text
and in no group.

A tree has a value over a store, computed from its leaves without any stack. Variables are only
read, so all of them have the value that they had at the start. A division by either zero has no
value; what fails is then the first such division in the order of the text, told by the number of
spellings in front of its mark.
-/

namespace Reckoner

inductive Expr where
  | number (l : Literal)
  | fetch (n : Name)
  | signed (negative : Bool) (e : Expr)
  | group (e : Expr)
  | assign (n : Name) (e : Expr)
  | binary (left : Expr) (op : Operator) (right : Expr)

def Operator.compute (op : Operator) (left right : Float) : Float :=
  match op with
  | add => left + right
  | subtract => left - right
  | multiply => left * right
  | divide => left / right
  | power => left.pow right

/-! ### The two zeros -/

section Zeros

open Float.Model

private theorem exists_zero_of_compare {u : UnpackedFloat}
    (h : u.compare (.zero .positive) = some .eq) : ∃ s, u = .zero s := by
  cases u with
  | infinity s => cases s <;> cases h
  | notANumber => cases h
  | zero s => exact ⟨s, rfl⟩
  | finite s m e hm => cases s <;> cases h

private theorem bits_of_unpack {b : BitVec 64} {s : UnpackedFloat.Sign}
    (h : UnpackedFloat.unpack Format.binary64 b = .zero s) :
    b = 0#64 ∨ b = 0x8000000000000000#64 := by
  delta UnpackedFloat.unpack at h
  dsimp only at h
  by_cases hspecial : @UnpackedFloat.unpackExponent Format.binary64 b = -1#11
  · rw [if_pos hspecial] at h
    by_cases hmantissa : @UnpackedFloat.unpackMantissa Format.binary64 b = 0#52
    · rw [if_pos hmantissa] at h
      cases h
    · rw [if_neg hmantissa] at h
      cases h
  rw [if_neg hspecial] at h
  by_cases hexponent : @UnpackedFloat.unpackExponent Format.binary64 b = 0#11
  · rw [if_pos hexponent] at h
    by_cases hmantissa : @UnpackedFloat.unpackMantissa Format.binary64 b = 0#52
    · have hhigh := congrArg BitVec.toNat hexponent
      have hlow := congrArg BitVec.toNat hmantissa
      simp [UnpackedFloat.unpackExponent, UnpackedFloat.unpackMantissa,
        Nat.shiftRight_eq_div_pow] at hhigh hlow
      have hlt := b.isLt
      obtain hbits | hbits : b.toNat = 0 ∨ b.toNat = 2 ^ 63 := by omega
      · exact .inl (BitVec.eq_of_toNat_eq hbits)
      · exact .inr (BitVec.eq_of_toNat_eq hbits)
    · rw [dif_neg hmantissa] at h
      cases h
  · rw [if_neg hexponent] at h
    cases h

/-- The numbers that compare as equal to zero are the two zeros. -/
theorem beq_zero_iff (v : Float) : (v == 0) = true ↔ v = 0 ∨ v = -0 := by
  constructor
  · intro h
    have hcompare : (v.toModel.unpack.compare (.zero .positive) == some .eq) = true := h
    obtain ⟨s, hs⟩ := exists_zero_of_compare (by simpa using hcompare)
    obtain ⟨⟨⟨b⟩, hvalid⟩⟩ := v
    obtain rfl | rfl : b = 0#64 ∨ b = _ := bits_of_unpack hs
    · exact .inl rfl
    · exact .inr rfl
  · rintro (rfl | rfl) <;> rfl

end Zeros

/-- An operation has the value that it computes, unless it divides by a zero. -/
theorem Operator.apply_eq (op : Operator) (place : Place) (left right : Float) :
    op.apply place left right =
      if op = divide ∧ (right = 0 ∨ right = -0) then .error ⟨.zeroDivisor, place⟩
      else .ok (op.compute left right) := by
  cases op <;> simp [apply, compute, beq_zero_iff]

/-- The strength of a primary, above that of every operator. -/
def Expr.primary : Nat := 4

theorem Operator.strength_lt_primary (op : Operator) : op.strength < Expr.primary := by
  cases op <;> decide

theorem Operator.apply_divide_zero (place : Place) (left : Float) {right : Float}
    (h : right = 0 ∨ right = -0) :
    divide.apply place left right = .error ⟨.zeroDivisor, place⟩ := by
  rw [apply_eq, if_pos ⟨rfl, h⟩]

/-- Only a division fails, and only for a right operand that is zero. -/
theorem Operator.apply_eq_error {op : Operator} {place : Place} {left right : Float}
    {e : EvalError} (h : op.apply place left right = .error e) :
    op = divide ∧ (right = 0 ∨ right = -0) ∧ e = ⟨.zeroDivisor, place⟩ := by
  rw [apply_eq] at h
  split at h
  · rename_i hzero
    exact ⟨hzero.1, hzero.2, (Except.error.inj h).symm⟩
  · simp at h

namespace Expr

/-- How strongly a tree holds together: as its topmost operator binds. -/
def strength : Expr → Nat
  | binary _ op _ => op.strength
  | _ => primary

/-- A tree without assignments. -/
def Closed : Expr → Prop
  | number _ | fetch _ => True
  | signed _ e | group e => e.Closed
  | assign .. => False
  | binary left _ right => left.Closed ∧ right.Closed

/-- The trees of the grammar. The left operand of an operator holds together at least as strongly as
the operator binds, and the right one more strongly. An assignment is the last operand of the text
and in no group. -/
def Grammatical : Expr → Prop
  | number _ | fetch _ => True
  | signed _ e => e.strength = primary ∧ e.Grammatical
  | group e => e.Closed ∧ e.Grammatical
  | assign _ e => e.Grammatical
  | binary left op right =>
    op.strength ≤ left.strength ∧ op.strength < right.strength ∧
      left.Closed ∧ left.Grammatical ∧ right.Grammatical

/-- The most signs, groups and assignments on a path from the root. -/
def nesting : Expr → Nat
  | number _ | fetch _ => 0
  | signed _ e | group e | assign _ e => e.nesting + 1
  | binary left _ right => max left.nesting right.nesting

def spellings : Expr → List Spelling
  | number l => [.literal l]
  | fetch n => [.name n]
  | signed negative e => .mark (if negative then .minus else .plus) :: e.spellings
  | group e => .mark .leftParen :: (e.spellings ++ [.mark .rightParen])
  | assign n e => .name n :: .mark .assign :: e.spellings
  | binary left op right => left.spellings ++ .mark op.mark :: right.spellings

/-- The value of a tree over a store, or how many spellings stand in front of the mark of the first
division by zero. -/
def value (s : Store) : Expr → Except Nat Float
  | number l => return l.value
  | fetch n => return s.value n.text
  | signed negative e => do
    let v ← (e.value s).mapError (· + 1)
    return if negative then -v else v
  | group e => (e.value s).mapError (· + 1)
  | assign _ e => (e.value s).mapError (· + 2)
  | binary left op right => do
    let a ← left.value s
    let b ← (right.value s).mapError (left.spellings.length + 1 + ·)
    if op = .divide ∧ (b = 0 ∨ b = -0) then throw left.spellings.length
    else return op.compute a b

def kinds (e : Expr) : List Token.Kind := e.spellings.map Spelling.kind

theorem strength_le_primary (e : Expr) : e.strength ≤ primary := by
  cases e with
  | binary left op right => cases op <;> simp [strength, primary, Operator.strength]
  | _ => simp [strength, primary]

variable {s : Store} {e left right : Expr} {ts : List Token}

private theorem cases_of_bind_eq_error {ε α β : Type} {x : Except ε α} {f : α → Except ε β} {k : ε}
    (h : x >>= f = .error k) : x = .error k ∨ ∃ a, x = .ok a ∧ f a = .error k := by
  cases x with
  | ok a => exact .inr ⟨a, rfl, h⟩
  | error j => exact .inl (by simpa [bind, Except.bind] using h)

private theorem exists_of_mapError_eq_error {ε ε' α : Type} {x : Except ε α} {f : ε → ε'} {k : ε'}
    (h : x.mapError f = .error k) : ∃ j, x = .error j ∧ f j = k := by
  cases x with
  | ok a => simp [Except.mapError] at h
  | error j => exact ⟨j, rfl, Except.error.inj h⟩

/-- The mark of a division stands among the spellings of the tree. -/
theorem lt_of_value_eq_error {k : Nat} (h : e.value s = .error k) : k < e.spellings.length := by
  induction e generalizing k with
  | number l => simp [value, pure, Except.pure] at h
  | fetch n => simp [value, pure, Except.pure] at h
  | signed negative e ih =>
      obtain hinner | ⟨v, -, hdone⟩ := cases_of_bind_eq_error h
      · obtain ⟨j, he, rfl⟩ := exists_of_mapError_eq_error hinner
        have := ih he
        simp only [spellings, List.length_cons]
        omega
      · simp [pure, Except.pure] at hdone
  | group e ih =>
      obtain ⟨j, he, rfl⟩ := exists_of_mapError_eq_error h
      have := ih he
      simp only [spellings, List.length_cons, List.length_append]
      omega
  | assign n e ih =>
      obtain ⟨j, he, rfl⟩ := exists_of_mapError_eq_error h
      have := ih he
      simp only [spellings, List.length_cons]
      omega
  | binary left op right ihl ihr =>
      simp only [spellings, List.length_append, List.length_cons]
      obtain hleft | ⟨a, -, h⟩ := cases_of_bind_eq_error h
      · have := ihl hleft
        omega
      obtain hright | ⟨b, -, h⟩ := cases_of_bind_eq_error h
      · obtain ⟨j, hr, rfl⟩ := exists_of_mapError_eq_error hright
        have := ihr hr
        omega
      split at h
      · obtain rfl : left.spellings.length = k := Except.error.inj h
        omega
      · simp [pure, Except.pure] at h

/-- The tokens of a group are those of the tree inside, between two parentheses. -/
theorem exists_of_kinds_group (h : ts.map Token.kind = (group e).kinds) :
    ∃ t inner u, ts = t :: (inner ++ [u]) ∧ t.kind = .leftParen ∧
      inner.map Token.kind = e.kinds ∧ u.kind = .rightParen := by
  obtain ⟨t, rest, rfl, ht, hrest⟩ := List.map_eq_cons_iff.mp h
  rw [List.map_append, List.map_eq_append_iff] at hrest
  obtain ⟨inner, last, rfl, hinner, hlast⟩ := hrest
  obtain ⟨u, rfl, hu⟩ := List.map_eq_singleton_iff.mp hlast
  exact ⟨t, inner, u, rfl, ht, hinner, hu⟩

/-- The tokens of an assignment are a name, a `=` and those of the right-hand side. -/
theorem exists_of_kinds_assign {n : Name} (h : ts.map Token.kind = (assign n e).kinds) :
    ∃ t u rest, ts = t :: u :: rest ∧ t.kind = .name n.text ∧ u.kind = .assign ∧
      rest.map Token.kind = e.kinds := by
  obtain ⟨t, others, rfl, ht, hothers⟩ := List.map_eq_cons_iff.mp h
  obtain ⟨u, rest, rfl, hu, hrest⟩ := List.map_eq_cons_iff.mp hothers
  exact ⟨t, u, rest, rfl, ht, hu, hrest⟩

/-- The tokens of an operation are those of its operands with the mark between them. -/
theorem exists_of_kinds_binary {op : Operator}
    (h : ts.map Token.kind = (binary left op right).kinds) :
    ∃ before t after, ts = before ++ t :: after ∧ before.map Token.kind = left.kinds ∧
      t.kind = op.mark.kind ∧ after.map Token.kind = right.kinds := by
  rw [kinds, spellings, List.map_append, List.map_eq_append_iff] at h
  obtain ⟨before, rest, rfl, hbefore, hrest⟩ := h
  obtain ⟨t, after, rfl, ht, hafter⟩ := List.map_eq_cons_iff.mp hrest
  exact ⟨before, t, after, rfl, hbefore, ht, hafter⟩

theorem map_kind_binary {op : Operator} {us : List Token} {t : Token}
    (hts : ts.map Token.kind = left.kinds) (ht : t.kind = op.mark.kind)
    (hus : us.map Token.kind = right.kinds) :
    (ts ++ t :: us).map Token.kind = (binary left op right).kinds := by
  rw [List.map_append, List.map_cons, hts, ht, hus]
  simp [kinds, spellings, Spelling.kind]

end Expr

/-! ### Trees read from tokens -/

def placeOf (ts : List Token) (k : Nat) : Place :=
  (ts[k]?.map Token.place).getD Place.start

@[simp] theorem placeOf_cons_succ (t : Token) (ts : List Token) (k : Nat) :
    placeOf (t :: ts) (k + 1) = placeOf ts k := rfl

theorem placeOf_append_left {ts : List Token} (us : List Token) {k : Nat} (hk : k < ts.length) :
    placeOf (ts ++ us) k = placeOf ts k := by
  rw [placeOf, placeOf, List.getElem?_append_left hk]

theorem placeOf_append_right (ts us : List Token) (k : Nat) :
    placeOf (ts ++ us) (ts.length + k) = placeOf us k := by
  rw [placeOf, placeOf, List.getElem?_append_right (Nat.le_add_right _ _), Nat.add_sub_cancel_left]

namespace Expr

/-- The value of a tree that is read from the given tokens, or its division by zero at the place of
its mark. -/
def outcome (s : Store) (e : Expr) (ts : List Token) : Except EvalError Float :=
  (e.value s).mapError fun k => ⟨.zeroDivisor, placeOf ts k⟩

variable {s : Store}

theorem outcome_append {e : Expr} {ts : List Token} (hts : ts.map Token.kind = e.kinds)
    (us : List Token) : e.outcome s (ts ++ us) = e.outcome s ts := by
  have hlength : ts.length = e.spellings.length := by
    simpa [kinds] using congrArg List.length hts
  rw [outcome, outcome]
  cases he : e.value s with
  | ok v => rfl
  | error k =>
      have hk := lt_of_value_eq_error he
      simp [Except.mapError, placeOf_append_left us (hlength ▸ hk)]

theorem outcome_signed (negative : Bool) (e : Expr) (t : Token) (ts : List Token) :
    (signed negative e).outcome s (t :: ts) =
      (e.outcome s ts).map (Evaluation.signed negative) := by
  simp only [outcome, value]
  cases e.value s <;> rfl

theorem outcome_group {e : Expr} (t : Token) {ts : List Token} (us : List Token)
    (hts : ts.map Token.kind = e.kinds) :
    (group e).outcome s (t :: (ts ++ us)) = e.outcome s ts := by
  rw [← outcome_append hts us]
  simp only [outcome, value]
  cases e.value s <;> rfl

theorem outcome_assign (n : Name) (e : Expr) (t u : Token) (ts : List Token) :
    (assign n e).outcome s (t :: u :: ts) = e.outcome s ts := by
  simp only [outcome, value]
  cases e.value s <;> rfl

theorem outcome_binary {left right : Expr} (op : Operator) {ts : List Token} (t : Token)
    (us : List Token) (hts : ts.map Token.kind = left.kinds) :
    (binary left op right).outcome s (ts ++ t :: us) =
      (left.outcome s ts).bind fun a =>
        (right.outcome s us).bind fun b => op.apply t.place a b := by
  have hlength : left.spellings.length = ts.length := by
    simpa [kinds] using (congrArg List.length hts).symm
  rw [← outcome_append hts (t :: us)]
  simp only [outcome, value, hlength, Operator.apply_eq]
  cases left.value s with
  | error k => rfl
  | ok a =>
      cases right.value s with
      | error k =>
          have hplace : placeOf (ts ++ t :: us) (ts.length + 1 + k) = placeOf us k := by
            rw [Nat.add_assoc, placeOf_append_right, Nat.add_comm, placeOf_cons_succ]
          simp [Except.mapError, bind, Except.bind, hplace]
      | ok b =>
          have hplace : placeOf (ts ++ t :: us) ts.length = t.place := by
            simp [placeOf]
          simp only [Except.mapError, bind, Except.bind]
          by_cases hzero : op = .divide ∧ (b = 0 ∨ b = -0)
          · simp [if_pos hzero, throw, throwThe, MonadExceptOf.throw, hplace]
          · simp only [if_neg hzero, pure, Except.pure]

end Expr

end Reckoner
