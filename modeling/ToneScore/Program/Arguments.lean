import ToneScore.Command.Exit
import ToneScore.Decimal.Reading

/-!
# Command-line arguments

The commands leave the reading of their arguments to whoever runs them. This is the reader of the
program. A command takes a fixed number of plain arguments and some options. An option has a long name
after two dashes and perhaps a letter after one; a value follows as the next argument or after an
equals sign, and right after the letter as well. Letters without a value can share a dash. After
two dashes on their own all arguments are plain. Arguments are judged from left to right, and no
option is given twice.
-/

namespace ToneScore.Command

inductive OptionKind where
  /-- Takes no value. -/
  | switch
  /-- Takes the path of a file. -/
  | path
  /-- Takes a decimal number. -/
  | number
  deriving DecidableEq, Repr

structure OptionSpec where
  long : String
  short : Option Char
  kind : OptionKind
  deriving DecidableEq, Repr

structure Spec where
  name : String
  version : String
  /-- What the command does. -/
  help : String
  /-- The names of the plain arguments, all of which are required. -/
  plain : List String
  options : List OptionSpec

inductive UsageError where
  | unknownOption (arg : String)
  | missingValue (long : String)
  | needlessValue (long : String)
  | repeated (long : String)
  | invalidValue (name value : String)
  | needlessArgument (arg : String)
  | missingArgument (name : String)
  deriving DecidableEq, Repr

def UsageError.message : UsageError → String
  | unknownOption arg => s!"error: unexpected argument \"{arg}\" found\n"
  | missingValue long => s!"error: a value is required for \"--{long}\" but none was supplied\n"
  | needlessValue long => s!"error: \"--{long}\" takes no value\n"
  | repeated long => s!"error: \"--{long}\" cannot be used multiple times\n"
  | invalidValue name value => s!"error: invalid value \"{value}\" for \"{name}\"\n"
  | needlessArgument arg => s!"error: unexpected argument \"{arg}\" found\n"
  | missingArgument name => s!"error: the argument \"{name}\" was not provided\n"

inductive Stop where
  | help
  | version
  | usage (error : UsageError)
  deriving DecidableEq, Repr

def Stop.exit (spec : Spec) : Stop → Exit
  | help => { code := 0, out := spec.help }
  | version => { code := 0, out := s!"{spec.name} {spec.version}\n" }
  | usage error => { code := 2, err := error.message }

structure Scan where
  plain : List String := []
  /-- The long names of the options given, with their values. -/
  values : List (String × String) := []
  /-- The option whose value has to come next. -/
  pending : Option OptionSpec := none
  /-- All further arguments are plain. -/
  plainOnly : Bool := false

namespace Scan

def value? (s : Scan) (long : String) : Option String :=
  s.values.lookup long

/-- An option is given with a value, which has to fit its kind. -/
def store (s : Scan) (o : OptionSpec) (value : String) : Except Stop Scan :=
  let fits := match o.kind with
    | .switch => true
    | .path => value ≠ ""
    | .number => (Decimal.read? value).isSome
  if (s.value? o.long).isSome then .error (.usage (.repeated o.long))
  else if fits then .ok { s with values := s.values ++ [(o.long, value)], pending := none }
  else .error (.usage (.invalidValue o.long value))

def addPlain (spec : Spec) (s : Scan) (arg : String) : Except Stop Scan :=
  match spec.plain[s.plain.length]? with
  | none => .error (.usage (.needlessArgument arg))
  | some name =>
    if arg = "" then .error (.usage (.invalidValue name arg))
    else .ok { s with plain := s.plain ++ [arg] }

/-- An argument with two dashes in front, given without them. -/
def addLong (spec : Spec) (s : Scan) (chars : List Char) : Except Stop Scan :=
  let name := String.ofList (chars.takeWhile (· ≠ '='))
  let value := match chars.dropWhile (· ≠ '=') with
    | [] => none
    | _ :: cs => some (String.ofList cs)
  if name = "help" ∨ name = "version" then
    if value.isSome then .error (.usage (.needlessValue name))
    else if name = "help" then .error .help
    else .error .version
  else
    match spec.options.find? (·.long = name), value with
    | none, _ => .error (.usage (.unknownOption s!"--{name}"))
    | some o, none => if o.kind = .switch then s.store o "" else .ok { s with pending := some o }
    | some o, some v =>
      if o.kind = .switch then .error (.usage (.needlessValue name)) else s.store o v

/-- An argument with one dash in front, given without it. -/
def addShort (spec : Spec) (s : Scan) : List Char → Except Stop Scan
  | [] => .ok s
  | 'h' :: _ => .error .help
  | 'V' :: _ => .error .version
  | c :: cs =>
    match spec.options.find? (·.short = some c) with
    | none => .error (.usage (.unknownOption s!"-{c}"))
    | some o =>
      if o.kind = .switch then
        match s.store o "" with
        | .error stop => .error stop
        | .ok s => addShort spec s cs
      else
        match cs with
        | [] => .ok { s with pending := some o }
        | '=' :: value => s.store o (String.ofList value)
        | value => s.store o (String.ofList value)

/-- A value that is pending is not an argument with a dash in front, unless that is a dash alone. -/
def add (spec : Spec) (s : Scan) (arg : String) : Except Stop Scan :=
  if s.plainOnly then s.addPlain spec arg
  else
    match arg.toList, s.pending with
    | '-' :: _ :: _, some o => .error (.usage (.missingValue o.long))
    | ['-', '-'], none => .ok { s with plainOnly := true }
    | '-' :: '-' :: cs, none => s.addLong spec cs
    | '-' :: c :: cs, none => s.addShort spec (c :: cs)
    | _, some o => s.store o arg
    | _, none => s.addPlain spec arg

def finish (spec : Spec) (s : Scan) : Except Stop Scan :=
  match s.pending, spec.plain[s.plain.length]? with
  | some o, _ => .error (.usage (.missingValue o.long))
  | none, some name => .error (.usage (.missingArgument name))
  | none, none => .ok s

def ofArgs (spec : Spec) (args : List String) : Except Stop Scan := do
  let s ← args.foldlM (add spec) {}
  s.finish spec

end Scan

end ToneScore.Command
