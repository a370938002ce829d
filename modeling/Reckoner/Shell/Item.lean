import Reckoner.Shell.Options

/-!
# The items of an argument list

Before anything is decided, an argument list is read into items: options with their values, flags,
and plain arguments. An argument that begins with `-` is no plain argument unless it is `-` alone
or stands behind `--`.
-/

namespace Reckoner.Shell

inductive Item where
  /-- An option with its value, which stands behind `=` or is an argument of its own. -/
  | option (name : OptionName) (value : String) (attached : Bool)
  | help
  | version
  /-- A `--` that makes all that follows plain. -/
  | escape
  | plain (text : String)
  | faulty
deriving DecidableEq, Repr

/-- What an argument is by its own look. -/
inductive Look where
  | escape
  | option (name : OptionName) (value? : Option String)
  | help
  | version
  | unknown
  | plain
deriving DecidableEq, Repr

/-- The look of an argument that begins with `--`, from the characters behind. -/
def Look.ofLong (cs : List Char) : Look :=
  let value? :=
    match cs.dropWhile (· != '=') with
    | _ :: value => some (String.ofList value)
    | [] => none
  match String.ofList (cs.takeWhile (· != '=')), value? with
  | "mode", value? => .option .mode value?
  | "precision", value? => .option .precision value?
  | "help", none => .help
  | "version", none => .version
  | _, _ => .unknown

/-- The look of an argument. Of letters behind one `-` the first decides. -/
def Look.ofArgument (argument : String) : Look :=
  match argument.toList with
  | ['-', '-'] => .escape
  | '-' :: '-' :: cs => ofLong cs
  | '-' :: 'h' :: _ => .help
  | '-' :: 'V' :: _ => .version
  | '-' :: _ :: _ => .unknown
  | _ => .plain

/-- The items of an argument list. An option without `=` takes the next argument as its value if
that is plain. Nothing is read behind a fault. -/
def items : List String → List Item
  | [] => []
  | argument :: rest =>
    match Look.ofArgument argument with
    | .escape => .escape :: rest.map .plain
    | .option name (some value) => .option name value true :: items rest
    | .option name none =>
      match rest with
      | value :: others =>
        if Look.ofArgument value = .plain then .option name value false :: items others
        else [.faulty]
      | [] => [.faulty]
    | .help => .help :: items rest
    | .version => .version :: items rest
    | .unknown => [.faulty]
    | .plain => .plain argument :: items rest

end Reckoner.Shell
