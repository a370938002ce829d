import Reckoner.Proofs.Independence
import Reckoner.Proofs.Locality

/-!
# The invariant of a session

A session takes lines, and from its owner also commands, modes and precisions. In whatever order
they come, and whether or not they fail, the precision stays within its limit and the variables have
names of the grammar. A variable is never removed. A new one is the answer, or an expression among
the lines assigns it.
-/

namespace Reckoner

namespace Store

variable {s : Store} {name : String}

def names (s : Store) : List String := s.toList.map Prod.fst

theorem mem_names : name ∈ s.names ↔ ∃ v, s.get? name = some v := by
  simp [names, toList, get?_eq_some_iff]

/-- Entries that are written add their names to those of the store. -/
theorem mem_names_writeAll {entries : List (String × Float)} :
    name ∈ (s.writeAll entries).names ↔ name ∈ entries.map Prod.fst ∨ name ∈ s.names := by
  rw [mem_names, mem_names, get?_writeAll]
  cases hlookup : entries.lookup name with
  | none =>
      have hunwritten : name ∉ entries.map Prod.fst := by
        intro hmem
        obtain ⟨entry, hentry, rfl⟩ := List.mem_map.mp hmem
        exact absurd rfl (bne_iff_ne.mp (List.lookup_eq_none_iff.mp hlookup entry hentry))
      simp [hunwritten]
  | some v =>
      have hwritten : name ∈ entries.map Prod.fst := by
        obtain ⟨before, behind, hsplit, -⟩ := List.lookup_eq_some_iff.mp hlookup
        simp [hsplit]
      simp [hwritten]

end Store

/-- Whether a text is a `$` with a letter, and letters and digits, behind it. -/
def IsName (text : String) : Prop := ∃ n : Name, n.text = text

theorem isName_answer : IsName Evaluation.answer := by
  have hothers : ∀ c ∈ ['n', 's'], Text.isLetterOrDigit c = true := by
    intro c hc
    obtain rfl | rfl : c = 'n' ∨ c = 's' := by simpa using hc
    · decide
    · decide
  exact ⟨⟨'a', ['n', 's'], by decide, hothers⟩, rfl⟩

/-- Only names are assigned. -/
theorem Assigns.isName {text name : String} (h : Assigns (Scan.ofText text).tokens name) :
    IsName name := by
  obtain ⟨t, ht, hkind⟩ := h.mentions
  exact (Scan.spelled_of_mem ht).1 name hkind

/-- What a session can be made to do. -/
inductive Action where
  /-- Take a line. -/
  | line (text : String)
  /-- Run a command. Of its arguments a command reads no more than their numbers. -/
  | command (c : Command) (numbers : List Float)
  | mode (m : Mode)
  | precision (precision? : Option Nat)

/-- Whether an action is a line with an expression that gives the name a value: it assigns the name,
or the name is that of the answer. -/
def Action.Introduces (name : String) : Action → Prop
  | line text =>
    Request.isRequest text = false ∧
      (Assigns (Scan.ofText text).tokens name ∨ name = Evaluation.answer)
  | _ => False

theorem Action.Introduces.isName {a : Action} {name : String} (h : a.Introduces name) :
    IsName name := by
  cases a with
  | line text =>
      obtain ⟨-, hassigns | rfl⟩ := h
      · exact hassigns.isName
      · exact isName_answer
  | _ => cases h

namespace Session

variable {s t u : Session} {name : String}

/-- The session after an action, whether or not the action fails. -/
def act (s : Session) : Action → Session
  | .line text => (s.line text).session
  | .command c numbers => (s.command c numbers).session
  | .mode m => { s with format := s.format.withMode m }
  | .precision precision? => { s with format := s.format.withPrecision precision? }

def actAll (s : Session) (actions : List Action) : Session := actions.foldl act s

@[simp] theorem actAll_nil (s : Session) : s.actAll [] = s := rfl

theorem actAll_append (s : Session) (before behind : List Action) :
    s.actAll (before ++ behind) = (s.actAll before).actAll behind :=
  List.foldl_append

/-- A precision within the limit, and variables with names of the grammar. -/
structure WellFormed (s : Session) : Prop where
  allowed : s.format.Allowed
  named : ∀ name ∈ s.store.names, IsName name

/-- The second session has the variables of the first, and others only as `new` allows. -/
structure Extends (new : String → Prop) (s t : Session) : Prop where
  kept : ∀ name ∈ s.store.names, name ∈ t.store.names
  fresh : ∀ name ∈ t.store.names, name ∈ s.store.names ∨ new name

namespace Extends

variable {new new' : String → Prop}

theorem of_store_eq (h : t.store = s.store) : Extends new s t :=
  ⟨fun _ hname => h ▸ hname, fun _ hname => .inl (h ▸ hname)⟩

theorem trans (hst : Extends new s t) (htu : Extends new t u) : Extends new s u where
  kept := by
    intro name hname
    exact htu.kept name (hst.kept name hname)
  fresh := by
    intro name hname
    obtain hname | hnew := htu.fresh name hname
    · exact hst.fresh name hname
    · exact .inr hnew

theorem mono (h : Extends new s t) (hnew : ∀ name, new name → new' name) : Extends new' s t :=
  ⟨h.kept, fun name hname => (h.fresh name hname).imp_right (hnew name)⟩

/-- Names stay in the grammar if the new ones are in it. -/
theorem named (h : Extends new s t) (hs : ∀ name ∈ s.store.names, IsName name)
    (hnew : ∀ name, new name → IsName name) : ∀ name ∈ t.store.names, IsName name := by
  intro name hname
  obtain hname | hname := h.fresh name hname
  · exact hs name hname
  · exact hnew name hname

end Extends

/-! ### One action -/

/-- A command keeps the precision within its limit. -/
theorem allowed_command (h : s.format.Allowed) (c : Command) (numbers : List Float) :
    (s.command c numbers).session.format.Allowed := by
  have hchosen {mode : Mode} {default? : Option Nat} {f : Format}
      (hf : Command.chooseFormat s.format mode default? numbers = .ok f) : f.Allowed := by
    obtain ⟨precision?, rfl⟩ := Command.exists_of_chooseFormat hf
    exact Format.allowed_withPrecision _ _
  simp only [command]
  cases hformat : c.formatAfter numbers s.format with
  | error fault => exact h
  | ok f =>
      cases c with
      | fixed => exact hchosen hformat
      | real => exact hchosen hformat
      | scientific => exact hchosen hformat
      | radix r =>
          cases hformat
          exact h
      | exit | listing | help =>
          cases hformat
          exact h

/-- A line keeps the precision within its limit: it leaves the format, or runs a command. -/
theorem allowed_line (h : s.format.Allowed) (text : String) :
    (s.line text).session.format.Allowed := by
  rw [line]
  split
  · exact h
  · split
    · exact h
    · exact allowed_command h _ _
    · exact h

theorem allowed_act (h : s.format.Allowed) (a : Action) : (s.act a).format.Allowed := by
  cases a with
  | line text => exact allowed_line h text
  | command c numbers => exact allowed_command h c numbers
  | mode m => exact h
  | precision precision? => exact Format.allowed_withPrecision _ _

/-- An evaluation gives values to the names that its text assigns, and to the answer. -/
theorem extends_evaluate (s : Session) (text : String) :
    Extends (fun name => Assigns (Scan.ofText text).tokens name ∨ name = Evaluation.answer) s
      { s with store := (evaluate s.store text).store } := by
  obtain ⟨r, entries, hyield, heval⟩ := exists_yield s.store text
  rw [heval s.store fun _ _ => rfl]
  constructor
  · intro name hname
    exact Store.mem_names_writeAll.mpr (.inr hname)
  · intro name hname
    obtain hwritten | hname := Store.mem_names_writeAll.mp hname
    · obtain ⟨entry, hentry, rfl⟩ := List.mem_map.mp hwritten
      exact .inr ((hyield.named entry hentry).imp_right fun hanswer => hanswer.1)
    · exact .inl hname

/-- An action keeps all variables, and adds those alone that it introduces. -/
theorem extends_act (s : Session) (a : Action) : Extends (a.Introduces ·) s (s.act a) := by
  cases a with
  | line text =>
      cases hrequest : Request.isRequest text with
      | true => exact .of_store_eq (line_store_of_request hrequest s)
      | false =>
          rw [act, line_of_not_request hrequest]
          simp only [storeAfter]
          split
          · exact .of_store_eq rfl
          · exact (extends_evaluate s text).mono fun name hname => ⟨hrequest, hname⟩
  | command c numbers => exact .of_store_eq (command_store s c numbers)
  | mode m => exact .of_store_eq rfl
  | precision precision? => exact .of_store_eq rfl

theorem WellFormed.act (h : s.WellFormed) (a : Action) : (s.act a).WellFormed :=
  ⟨allowed_act h.allowed a,
    (extends_act s a).named h.named fun _ hname => hname.isName⟩

/-! ### All actions -/

theorem WellFormed.actAll (h : s.WellFormed) (actions : List Action) :
    (s.actAll actions).WellFormed := by
  induction actions generalizing s with
  | nil => exact h
  | cons a rest ih => exact ih (h.act a)

theorem extends_actAll (s : Session) (actions : List Action) :
    Extends (fun name => ∃ a ∈ actions, a.Introduces name) s (s.actAll actions) := by
  induction actions generalizing s with
  | nil => exact .of_store_eq rfl
  | cons a rest ih =>
      have hfirst : Extends (fun name => ∃ b ∈ a :: rest, b.Introduces name) s (s.act a) :=
        (extends_act s a).mono fun name hname => ⟨a, List.mem_cons_self, hname⟩
      have hrest : Extends (fun name => ∃ b ∈ a :: rest, b.Introduces name) (s.act a)
          ((s.act a).actAll rest) := by
        refine (ih (s.act a)).mono ?_
        rintro name ⟨b, hb, hname⟩
        exact ⟨b, List.mem_cons_of_mem a hb, hname⟩
      exact hfirst.trans hrest

/-- Whatever a session is made to do, its precision stays within the limit and its variables have
names of the grammar. It keeps all variables that it had on the way, and a variable that it did not
have at the start is the answer or is assigned by an expression among the lines. -/
theorem invariant (h : s.WellFormed) (actions : List Action) :
    (∀ p, (s.actAll actions).format.precision? = some p → p ≤ 64) ∧
      (∀ name ∈ (s.actAll actions).store.names, IsName name) ∧
      (∀ before behind, actions = before ++ behind →
        ∀ name ∈ (s.actAll before).store.names, name ∈ (s.actAll actions).store.names) ∧
      ∀ name ∈ (s.actAll actions).store.names, name ∉ s.store.names →
        name = Evaluation.answer ∨ ∃ text, .line text ∈ actions ∧
          Request.isRequest text = false ∧ Assigns (Scan.ofText text).tokens name := by
  have hreached := h.actAll actions
  refine ⟨hreached.allowed, hreached.named, ?_, ?_⟩
  · rintro before behind rfl name hname
    rw [actAll_append]
    exact (extends_actAll (s.actAll before) behind).kept name hname
  · intro name hname hnew
    obtain hold | ⟨a, ha, hintroduces⟩ := (extends_actAll s actions).fresh name hname
    · exact absurd hold hnew
    · cases a with
      | line text =>
          obtain ⟨hexpression, hassigns | hanswer⟩ := hintroduces
          · exact .inr ⟨text, ha, hexpression, hassigns⟩
          · exact .inl hanswer
      | _ => cases hintroduces

/-- The second line fails behind an assignment, and the command is refused. -/
theorem invariant_failures :
    let s : Session := { store := Store.empty.insert "$x" 1, format := ⟨.fixed, some 3⟩ }
    let actions : List Action :=
      [.precision (some 100), .line "$x + 1", .line "1 / (0 * $z = 2", .command .real [65]]
    s.WellFormed ∧ (s.actAll actions).format.precision? = some 64 ∧
      (s.actAll actions).store.names = ["$ans", "$x", "$z"] ∧
      ∃ text, .line text ∈ actions ∧ Request.isRequest text = false ∧
        Assigns (Scan.ofText text).tokens "$z" := by
  intro s actions
  have hnames : s.store.names = ["$x"] := by decide +kernel
  have hwell : s.WellFormed := by
    constructor
    · rintro p ⟨rfl⟩
      decide
    · intro name hname
      obtain rfl : name = "$x" := by simpa [hnames] using hname
      exact ⟨⟨'x', [], by decide, by simp⟩, rfl⟩
  have hreached : (s.actAll actions).store.names = ["$ans", "$x", "$z"] := by decide +kernel
  refine ⟨hwell, by decide +kernel, hreached, ?_⟩
  obtain ⟨-, -, -, hfresh⟩ := invariant hwell actions
  exact (hfresh "$z" (by simp [hreached]) (by simp [hnames])).resolve_left (by decide)

end Session

end Reckoner
