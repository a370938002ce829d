import Mathlib.Data.List.DropRight
import Reckoner.Proofs.Independence
import Reckoner.Proofs.Segmentation

/-!
# The language of commands

A line that starts with a bare word is a command or has one of four faults, and which of them it is
depends on its tokens alone. The name is looked up first. Then the arguments are taken one by one:
each is first looked at for being malformed and then for being one too many. So a malformed
argument is the fault if there is room for all tokens in front of it, and beyond that it is not even
seen. Only arguments that are all taken are compared with what the command accepts.

`Request.Reading` says this without an order of steps, with one rule for each result. What a session
does with a line then depends on its first token: without a token the line is blank, with a word it
is a command, and with any other token an expression.
-/

namespace Reckoner

/-! ### Commands -/

namespace Command

theorem mem_all (c : Command) : c ∈ all := by
  cases c with
  | radix r => cases r <;> decide
  | _ => decide

theorem ofName?_eq_some_iff {name : String} {c : Command} :
    ofName? name = some c ↔ c.name = name := by
  constructor
  · intro h
    simpa using List.find?_some h
  · rintro rfl
    exact ofName?_name c

theorem ofName?_eq_none_iff {name : String} :
    ofName? name = none ↔ ∀ c : Command, c.name ≠ name := by
  rw [Option.eq_none_iff_forall_ne_some]
  simp only [ne_eq, ofName?_eq_some_iff]

theorem exists_name_iff (name : String) :
    (∃ c : Command, c.name = name) ↔
      name ∈ ["bin", "exit", "fix", "help", "hex", "oct", "real", "sci", "vars"] := by
  have hnames : all.map Command.name =
      ["bin", "exit", "fix", "help", "hex", "oct", "real", "sci", "vars"] := rfl
  rw [← hnames, List.mem_map]
  constructor
  · rintro ⟨c, hc⟩
    exact ⟨c, c.mem_all, hc⟩
  · rintro ⟨c, -, hc⟩
    exact ⟨c, hc⟩

/-- The modes with a precision take one argument, and the other commands take none. -/
theorem maxArguments_eq (c : Command) :
    c.maxArguments = match c with
      | fixed | real | scientific => 1
      | exit | radix _ | listing | help => 0 := by
  cases c <;> rfl

theorem maxArguments_le_one (c : Command) : c.maxArguments ≤ 1 := by
  rw [maxArguments_eq]
  split <;> decide

/-- A command accepts any literals for which it has room. -/
theorem accepts_iff (c : Command) (arguments : List Token) :
    c.accepts arguments = true ↔
      arguments.length ≤ c.maxArguments ∧ ∀ t ∈ arguments, ∃ v, t.kind = .number v := by
  have hnumber (t : Token) : Parameter.number.accepts t = true ↔ ∃ v, t.kind = .number v := by
    cases h : t.kind <;> simp [Parameter.accepts, h]
  rw [maxArguments_eq]
  match arguments with
  | [] => cases c <;> simp [accepts, signatures]
  | [t] => cases c <;> simp [accepts, signatures, hnumber]
  | t :: u :: rest => cases c <;> simp [accepts, signatures]

def mode? : Command → Option Mode
  | fixed => some .fixed
  | real => some .real
  | scientific => some .scientific
  | radix r => some (.radix r)
  | exit | listing | help => none

theorem mode_of_formatAfter {c : Command} {numbers : List Float} {f g : Format}
    (h : c.formatAfter numbers f = .ok g) : g.mode = c.mode?.getD f.mode := by
  have hchosen {mode : Mode} {default? : Option Nat}
      (h : chooseFormat f mode default? numbers = .ok g) : g.mode = mode := by
    obtain ⟨precision?, rfl⟩ := exists_of_chooseFormat h
    rfl
  cases c with
  | fixed | real | scientific => exact hchosen h
  | exit | radix r | listing | help =>
      cases h
      rfl

end Command

/-! ### Requests -/

/-- Tokens start with a word unless there is no first token or it is another one. -/
theorem Token.startsWithWord_eq_false_iff {ts : List Token} :
    startsWithWord ts = false ↔ ∀ first ∈ ts.head?, ∀ name, first.kind ≠ .word name := by
  match ts with
  | [] => simp [startsWithWord]
  | ⟨kind, place⟩ :: rest => cases kind <;> simp [startsWithWord]

theorem Token.exists_not_word_iff {ts : List Token} :
    (∃ first ∈ ts.head?, ∀ name, first.kind ≠ .word name) ↔
      ts ≠ [] ∧ startsWithWord ts = false := by
  rw [startsWithWord_eq_false_iff]
  cases ts <;> simp

namespace Request

section Collect

variable {room : Nat} {ts before after : List Token} {bad : Token} {fault : Token.Fault}

/-- Well-formed tokens are taken if there is room for them. -/
theorem collect_of_wellFormed (h : ∀ t ∈ ts, t.fault? = none) (hroom : ts.length ≤ room) :
    collect room ts = .ok ts := by
  induction ts generalizing room with
  | nil => rw [collect]
  | cons t ts ih =>
      obtain ⟨ht, hts⟩ := List.forall_mem_cons.mp h
      cases room with
      | zero => simp at hroom
      | succ room => simp only [collect, ht, ih hts (Nat.le_of_succ_le_succ hroom), Except.map]

/-- A malformed token is found if there is room for the tokens in front of it. -/
theorem collect_of_malformed (h : ∀ t ∈ before, t.fault? = none) (hbad : bad.fault? = some fault)
    (hroom : before.length ≤ room) :
    collect room (before ++ bad :: after) = .error (.badArgument fault) := by
  induction before generalizing room with
  | nil =>
      rw [List.nil_append, collect.eq_def]
      simp only [hbad]
  | cons t before ih =>
      obtain ⟨ht, hbefore⟩ := List.forall_mem_cons.mp h
      cases room with
      | zero => simp at hroom
      | succ room =>
          have hrest := ih hbefore (Nat.le_of_succ_le_succ hroom)
          simp only [List.cons_append, collect, ht, hrest, Except.map]

/-- The first token without room is one too many, whatever follows it. -/
theorem collect_of_many (h : ∀ t ∈ ts.take (room + 1), t.fault? = none)
    (hroom : room < ts.length) : collect room ts = .error .tooManyArguments := by
  induction ts generalizing room with
  | nil => simp at hroom
  | cons t ts ih =>
      obtain ⟨ht, hts⟩ := List.forall_mem_cons.mp h
      cases room with
      | zero => simp only [collect, ht]
      | succ room => simp only [collect, ht, ih hts (Nat.lt_of_succ_lt_succ hroom), Except.map]

/-- A malformed token with room in front of it, too many tokens, or tokens that are all taken. -/
theorem malformed_or_many_or_wellFormed (room : Nat) (ts : List Token) :
    (∃ before bad fault after, ts = before ++ bad :: after ∧
      (∀ t ∈ before, t.fault? = none) ∧ bad.fault? = some fault ∧ before.length ≤ room) ∨
    ((∀ t ∈ ts.take (room + 1), t.fault? = none) ∧ room < ts.length) ∨
    ((∀ t ∈ ts, t.fault? = none) ∧ ts.length ≤ room) := by
  induction ts generalizing room with
  | nil => exact .inr (.inr ⟨by simp, Nat.zero_le _⟩)
  | cons t ts ih =>
      cases ht : t.fault? with
      | some fault => exact .inl ⟨[], t, fault, ts, rfl, by simp, ht, Nat.zero_le _⟩
      | none =>
          cases room with
          | zero => exact .inr (.inl ⟨by simpa using ht, Nat.succ_pos _⟩)
          | succ room =>
              obtain ⟨before, bad, fault, after, rfl, hbefore, hbad, hroom⟩ | ⟨hgood, hroom⟩ |
                ⟨hgood, hroom⟩ := ih room
              · exact .inl ⟨t :: before, bad, fault, after, rfl,
                  List.forall_mem_cons.mpr ⟨ht, hbefore⟩, hbad, Nat.succ_le_succ hroom⟩
              · exact .inr (.inl ⟨List.forall_mem_cons.mpr ⟨ht, hgood⟩, Nat.succ_lt_succ hroom⟩)
              · exact .inr (.inr ⟨List.forall_mem_cons.mpr ⟨ht, hgood⟩, Nat.succ_le_succ hroom⟩)

end Collect

/-- What the tokens of a line are as a request. -/
inductive Reading : List Token → Except CommandFault (Option Request) → Prop where
  /-- Without a bare word in front the line is no request. -/
  | notRequest {ts : List Token} (h : ∀ first ∈ ts.head?, ∀ name, first.kind ≠ .word name) :
      Reading ts (.ok none)
  /-- No command has the name, and what follows it is not looked at. -/
  | notFound {name : String} {place : Place} {rest : List Token}
      (h : ∀ c : Command, c.name ≠ name) :
      Reading (⟨.word name, place⟩ :: rest) (.error (.notFound name))
  /-- There is room for all tokens in front of the first malformed one. -/
  | badArgument {c : Command} {place : Place} {before after : List Token} {bad : Token}
      {fault : Token.Fault} (hbefore : ∀ t ∈ before, t.fault? = none)
      (hbad : bad.kind = .bad fault) (hroom : before.length ≤ c.maxArguments) :
      Reading (⟨.word c.name, place⟩ :: (before ++ bad :: after)) (.error (.badArgument fault))
  /-- There are too many tokens, and all are well-formed up to the first that is one too many. -/
  | tooManyArguments {c : Command} {place : Place} {rest : List Token}
      (h : ∀ t ∈ rest.take (c.maxArguments + 1), t.fault? = none)
      (hroom : c.maxArguments < rest.length) :
      Reading (⟨.word c.name, place⟩ :: rest) (.error .tooManyArguments)
  /-- The only argument is well-formed and no literal. -/
  | invalidArguments {c : Command} {place : Place} {argument : Token}
      (hroom : c.maxArguments = 1) (hgood : argument.fault? = none)
      (hnumber : ∀ v, argument.kind ≠ .number v) :
      Reading [⟨.word c.name, place⟩, argument] (.error .invalidArguments)
  /-- All that follows the name is taken as arguments. -/
  | request {c : Command} {place : Place} {arguments : List Token}
      (hroom : arguments.length ≤ c.maxArguments)
      (hnumber : ∀ t ∈ arguments, ∃ v, t.kind = .number v) :
      Reading (⟨.word c.name, place⟩ :: arguments) (.ok (some ⟨c, arguments⟩))

variable {ts rest : List Token} {place : Place}

theorem ofTokens?_of_collect_error {c : Command} {fault : CommandFault} (place : Place)
    (h : collect c.maxArguments rest = .error fault) :
    ofTokens? (⟨.word c.name, place⟩ :: rest) = .error fault := by
  simp only [ofTokens?, Command.ofName?_name, h]

theorem ofTokens?_of_collect {c : Command} {arguments : List Token} (place : Place)
    (h : collect c.maxArguments rest = .ok arguments) :
    ofTokens? (⟨.word c.name, place⟩ :: rest) =
      if c.accepts arguments then .ok (some ⟨c, arguments⟩) else .error .invalidArguments := by
  simp only [ofTokens?, Command.ofName?_name, h]

theorem fault?_of_number {t : Token} (h : ∃ v, t.kind = .number v) : t.fault? = none := by
  obtain ⟨v, hv⟩ := h
  simp [Token.fault?, hv]

/-- Each rule gives what the request of the tokens is. -/
theorem Reading.ofTokens?_eq {r : Except CommandFault (Option Request)} (h : Reading ts r) :
    ofTokens? ts = r := by
  cases h with
  | notRequest h => exact ofTokens?_of_not_word (Token.startsWithWord_eq_false_iff.mpr h)
  | notFound h => simp only [ofTokens?, Command.ofName?_eq_none_iff.mpr h]
  | badArgument hbefore hbad hroom =>
      exact ofTokens?_of_collect_error _
        (collect_of_malformed hbefore (Token.fault?_eq_some_iff.mpr hbad) hroom)
  | tooManyArguments h hroom => exact ofTokens?_of_collect_error _ (collect_of_many h hroom)
  | @invalidArguments c place argument hroom hgood hnumber =>
      have hcollect : collect c.maxArguments [argument] = .ok [argument] :=
        collect_of_wellFormed (by simpa using hgood) (Nat.le_of_eq hroom.symm)
      have hrefused : ¬c.accepts [argument] = true := by
        rw [Command.accepts_iff]
        simp [hnumber]
      rw [ofTokens?_of_collect _ hcollect, if_neg hrefused]
  | @request c place arguments hroom hnumber =>
      have hcollect : collect c.maxArguments arguments = .ok arguments :=
        collect_of_wellFormed (fun t ht => fault?_of_number (hnumber t ht)) hroom
      have haccepts := (c.accepts_iff arguments).mpr ⟨hroom, hnumber⟩
      rw [ofTokens?_of_collect _ hcollect, if_pos haccepts]

/-- Behind the name of a command one of the rules applies. -/
theorem exists_reading_of_name (c : Command) (place : Place) (rest : List Token) :
    ∃ r, Reading (⟨.word c.name, place⟩ :: rest) r := by
  obtain ⟨before, bad, fault, after, rfl, hbefore, hbad, hroom⟩ | ⟨hgood, hroom⟩ |
    ⟨hgood, hroom⟩ := malformed_or_many_or_wellFormed c.maxArguments rest
  · exact ⟨_, .badArgument hbefore (Token.fault?_eq_some_iff.mp hbad) hroom⟩
  · exact ⟨_, .tooManyArguments hgood hroom⟩
  · by_cases hnumber : ∀ t ∈ rest, ∃ v, t.kind = .number v
    · exact ⟨_, .request hroom hnumber⟩
    · have hone := c.maxArguments_le_one
      match rest with
      | [] => simp at hnumber
      | [argument] =>
          have hmax : c.maxArguments = 1 := Nat.le_antisymm hone hroom
          exact ⟨_, .invalidArguments hmax (hgood argument (by simp)) (by simpa using hnumber)⟩
      | _ :: _ :: _ =>
          simp only [List.length_cons] at hroom
          omega

theorem exists_reading (ts : List Token) : ∃ r, Reading ts r := by
  match ts with
  | [] => exact ⟨_, .notRequest (by simp)⟩
  | ⟨kind, place⟩ :: rest =>
      cases kind with
      | word name =>
          by_cases hname : ∃ c : Command, c.name = name
          · obtain ⟨c, rfl⟩ := hname
            exact exists_reading_of_name c place rest
          · exact ⟨_, .notFound (by simpa using hname)⟩
      | _ => exact ⟨_, .notRequest (by simp)⟩

/-- The rules describe requests completely. -/
theorem ofTokens?_eq_iff {r : Except CommandFault (Option Request)} :
    ofTokens? ts = r ↔ Reading ts r := by
  constructor
  · rintro rfl
    obtain ⟨r, h⟩ := exists_reading ts
    rwa [h.ofTokens?_eq]
  · exact Reading.ofTokens?_eq

/-- A malformed token is not seen behind one that is too many. -/
example (p : Place) :
    ofTokens? [⟨.word "hex", p⟩, ⟨.number 2, p⟩, ⟨.bad .nameless, p⟩] =
      .error .tooManyArguments := rfl

theorem ofTokens?_eq_none_iff : ofTokens? ts = .ok none ↔ Token.startsWithWord ts = false := by
  constructor
  · intro h
    rw [← Bool.not_eq_true]
    intro hword
    exact ofTokens?_ne_none_of_word hword h
  · exact ofTokens?_of_not_word

end Request

/-! ### Lines -/

def Text.trim (cs : List Char) : List Char :=
  (cs.dropWhile isBlank).rdropWhile isBlank

/-- Nothing is left of blanks, and of blanks alone. -/
theorem Text.trim_eq_nil_iff {cs : List Char} : trim cs = [] ↔ ∀ c ∈ cs, isBlank c = true := by
  rw [trim, List.rdropWhile_eq_nil_iff]
  constructor
  · intro h c hc
    rw [← List.takeWhile_append_dropWhile (p := isBlank) (l := cs)] at hc
    obtain hfirst | hrest := List.mem_append.mp hc
    · exact List.mem_takeWhile_imp hfirst
    · exact h c hrest
  · intro h c hc
    exact h c ((List.dropWhile_sublist isBlank).mem hc)

/-- Whether a result is that of an expression: a value, or a fault of its evaluation. -/
def LineFault.ofExpression : Except LineFault Outcome → Bool
  | .ok (.value _) | .error (.evaluation _) => true
  | _ => false

namespace Session

open LineFault

variable (s : Session) {text : String}

theorem ofExpression_expression (text : String) :
    ofExpression (s.expression text).result = true := by
  simp only [expression]
  cases (evaluate s.store text).result <;> rfl

theorem ofExpression_command (c : Command) (numbers : List Float) :
    ofExpression (s.command c numbers).result = false := by
  simp only [command]
  split
  · cases c <;> rfl
  · rfl

/-- No line with a word in front has the result of an expression. -/
theorem ofExpression_line_of_request (h : Request.isRequest text = true) :
    ofExpression (s.line text).result = false := by
  rw [line]
  split
  · rfl
  · split
    · rfl
    · exact ofExpression_command s _ _
    · rename_i hnone
      exact absurd hnone (Request.ofTokens?_ne_none_of_word h)

/-- Every command is refused, shows something, or chooses another format for some session. -/
theorem exists_command_ne (c : Command) (numbers : List Float) :
    ∃ s : Session, s.command c numbers ≠ ⟨.ok .nothing, s⟩ := by
  obtain ⟨before, hbefore⟩ : ∃ mode, c.mode? ≠ some mode := by
    by_cases h : c.mode? = some .real
    · exact ⟨.fixed, by simp [h]⟩
    · exact ⟨.real, h⟩
  let s : Session := { format := { mode := before } }
  refine ⟨s, ?_⟩
  intro heq
  simp only [command] at heq
  cases hformat : c.formatAfter numbers s.format with
  | error fault => simp [hformat] at heq
  | ok f =>
      rw [hformat] at heq
      obtain ⟨hresult, hsession⟩ := Step.mk.inj heq
      have hmode : f.mode = before := congrArg (·.format.mode) hsession
      rw [Command.mode_of_formatAfter hformat] at hmode
      cases hc : c.mode? with
      | some mode => exact hbefore (hc.trans (congrArg some (by simpa [hc] using hmode)))
      | none => cases c <;> simp [Command.mode?, Command.outcome] at hc hresult

/-- A line without tokens does nothing. -/
theorem line_of_nil (h : (Scan.ofText text).tokens = []) : s.line text = ⟨.ok .nothing, s⟩ := by
  have hblank : text.toList.all Text.isBlank = true :=
    List.all_eq_true.mpr ((Segment.tokens_eq_nil_iff text).mp h)
  rw [line, if_pos hblank]

theorem not_blank_of_ne_nil (h : (Scan.ofText text).tokens ≠ []) :
    ¬text.toList.all Text.isBlank = true := by
  rwa [List.all_eq_true, ← Segment.tokens_eq_nil_iff]

/-- A line with tokens, the first of which is no word, is an expression. -/
theorem line_of_not_word (h : (Scan.ofText text).tokens ≠ [])
    (hword : Request.isRequest text = false) : s.line text = s.expression text := by
  have hnone : Request.ofLine? text = .ok none := Request.ofTokens?_of_not_word hword
  rw [line, if_neg (not_blank_of_ne_nil h), hnone]

theorem ne_nil_of_isRequest (h : Request.isRequest text = true) :
    (Scan.ofText text).tokens ≠ [] := by
  intro hnil
  rw [Request.isRequest, hnil] at h
  cases h

/-- A line with a word in front does something in some session. -/
theorem exists_line_ne (h : Request.isRequest text = true) :
    ∃ s : Session, s.line text ≠ ⟨.ok .nothing, s⟩ := by
  have hblank := not_blank_of_ne_nil (ne_nil_of_isRequest h)
  cases hrequest : Request.ofLine? text with
  | error fault =>
      refine ⟨{}, ?_⟩
      rw [line, if_neg hblank, hrequest]
      simp
  | ok request? =>
      cases request? with
      | none => exact absurd hrequest (Request.ofTokens?_ne_none_of_word h)
      | some request =>
          obtain ⟨s, hs⟩ :=
            exists_command_ne request.command (request.arguments.map Token.number)
          refine ⟨s, ?_⟩
          rwa [line, if_neg hblank, hrequest]

/-- A line does nothing, whatever the session is, if and only if it has no token. -/
theorem line_eq_nothing_iff (text : String) :
    (∀ s : Session, s.line text = ⟨.ok .nothing, s⟩) ↔ (Scan.ofText text).tokens = [] := by
  constructor
  · intro h
    by_contra hne
    cases hword : Request.isRequest text with
    | true =>
        obtain ⟨s, hs⟩ := exists_line_ne hword
        exact hs (h s)
    | false =>
        have hresult := ofExpression_expression {} text
        rw [← line_of_not_word {} hne hword, h] at hresult
        cases hresult
  · intro h s
    exact line_of_nil s h

/-- A line is evaluated as an expression if and only if it has tokens and the first is no word. -/
theorem line_eq_expression_iff (text : String) :
    s.line text = s.expression text ↔
      (Scan.ofText text).tokens ≠ [] ∧ Request.isRequest text = false := by
  constructor
  · intro h
    have hresult := ofExpression_expression s text
    rw [← h] at hresult
    constructor
    · intro hnil
      rw [line_of_nil s hnil] at hresult
      cases hresult
    · cases hword : Request.isRequest text with
      | true =>
          rw [ofExpression_line_of_request s hword] at hresult
          cases hresult
      | false => rfl
  · rintro ⟨hne, hword⟩
    exact line_of_not_word s hne hword

/-- The language of commands. What a line is as a request is described by the rules on the tokens
that are pulled from it, with nine names and with one argument at most for the modes with a
precision. A line is evaluated as an expression if and only if it has tokens and the first of them
is no word, and it is blank, so that trimming leaves nothing of it and no session does anything with
it, if and only if it has no token. -/
theorem command_language (text : String) :
    let tokens := (Scan.ofText text).tokens
    (∀ k, ((Cursor.ofText text).pulled k).pull.1 = tokens[k]?) ∧
    (∀ r, Request.ofLine? text = r ↔ Request.Reading tokens r) ∧
    (Request.ofLine? text = .ok none ↔
      ∀ first ∈ tokens.head?, ∀ name, first.kind ≠ .word name) ∧
    (∀ fault, (CommandFault.badArgument fault).message =
      "general error parsing command: " ++ fault.message) ∧
    (∀ name, (∃ c : Command, c.name = name) ↔
      name ∈ ["bin", "exit", "fix", "help", "hex", "oct", "real", "sci", "vars"]) ∧
    (∀ c : Command, c.maxArguments = match c with
      | .fixed | .real | .scientific => 1
      | .exit | .radix _ | .listing | .help => 0) ∧
    (∀ s : Session, s.line text = s.expression text ↔
      ∃ first ∈ tokens.head?, ∀ name, first.kind ≠ .word name) ∧
    (Text.trim text.toList = [] ↔ tokens = []) ∧
    ((∀ s : Session, s.line text = ⟨.ok .nothing, s⟩) ↔ tokens = []) := by
  intro tokens
  refine ⟨?_, ?_, ?_, ?_, Command.exists_name_iff, Command.maxArguments_eq, ?_, ?_, ?_⟩
  · exact Cursor.pull_pulled _
  · intro r
    exact Request.ofTokens?_eq_iff
  · rw [← Token.startsWithWord_eq_false_iff]
    exact Request.ofTokens?_eq_none_iff
  · intro fault
    rfl
  · intro s
    rw [Token.exists_not_word_iff]
    exact line_eq_expression_iff s text
  · rw [Text.trim_eq_nil_iff]
    exact (Segment.tokens_eq_nil_iff text).symm
  · exact line_eq_nothing_iff text

end Session

end Reckoner
