import Reckoner.Format

/-!
# Options of the command line

The options `--mode` and `--precision` choose the format that a run starts with. Each may be given
once in one place: before the command or behind it. Of two places the one behind the command wins.
-/

namespace Reckoner.Shell

inductive OptionName where
  | mode
  | precision
deriving DecidableEq, Repr

/-- Why arguments lead to no run: help or the version is asked for, or they are refused. -/
inductive Stop where
  | help
  | version
  | refused
deriving DecidableEq, Repr

/-- What one place of the command line says about the format. -/
structure Options where
  mode? : Option Mode := none
  precision? : Option Nat := none
deriving DecidableEq, Repr

def modeOfName? : String → Option Mode
  | "fixed" => some .fixed
  | "real" => some .real
  | "sci" => some .scientific
  | "bin" => some (.radix .binary)
  | "oct" => some (.radix .octal)
  | "hex" => some (.radix .hexadecimal)
  | _ => none

/-- The precision of a text: an integer from zero to the largest precision. -/
def precisionOfText? (text : String) : Option Nat :=
  match Text.integer? text.toList with
  | some i => if 0 ≤ i ∧ i ≤ Format.maxPrecision then some i.toNat else none
  | none => none

namespace Options

/-- Give an option its value, once. -/
def set (o : Options) (name : OptionName) (value : String) : Except Stop Options :=
  match name with
  | .mode =>
    if o.mode?.isSome then .error .refused
    else
      match modeOfName? value with
      | some mode => .ok { o with mode? := some mode }
      | none => .error .refused
  | .precision =>
    if o.precision?.isSome then .error .refused
    else
      match precisionOfText? value with
      | some p => .ok { o with precision? := some p }
      | none => .error .refused

/-- The options of two places; those of the inner place win. -/
def orElse (inner outer : Options) : Options :=
  ⟨inner.mode?.or outer.mode?, inner.precision?.or outer.precision?⟩

def format (o : Options) : Format :=
  (({} : Format).withMode (o.mode?.getD .real)).withPrecision o.precision?

end Options

end Reckoner.Shell
