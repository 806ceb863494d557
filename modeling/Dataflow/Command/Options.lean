/-
# Command-line arguments

Options and the one input file may come in any order.  A long option takes its value after an
equals sign or as the next argument, a short one also without anything between; short flags may
be joined, and two dashes end the options.  Tile sizes are separated by commas, may be given
several times, and take every following argument that is no option.
-/
import Dataflow.Bounds
import Dataflow.Config
import Dataflow.Journal

namespace Dataflow
namespace Command

/-! ## 1. What can be asked for -/

/-- What is written at the end. -/
inductive Emit where
  /-- The printed function. -/
  | ir
  /-- The function as JSON. -/
  | json
  /-- What the passes did, as JSON. -/
  | report
  deriving DecidableEq

/-- Flags, which may be given once each. -/
inductive Flag where
  | pointLoopsOnly
  | ignoreCosts
  | ignoreCorrelations
  | simplifyCopies
  | skipParallelize
  | quiet
  deriving DecidableEq

/-- Options that take a value. -/
inductive Setting where
  | output
  | maxUnroll
  | tileSizes
  | emit
  deriving DecidableEq

/-- What an option name stands for. -/
inductive Switch where
  | flag (flag : Flag)
  | setting (setting : Setting)
  | verbose
  | help
  | version
  deriving DecidableEq

/-- Everything that the arguments say about a run. -/
structure Options where
  input : String
  output : Option String
  config : Config
  tileSizes : Option (List Nat)
  simplifyCopies : Bool
  skipParallelize : Bool
  emit : Emit
  /-- Less urgent journal entries are not shown. -/
  level : Level

/-- What the arguments ask for. -/
inductive Request where
  | help
  | version
  | run (options : Options)

/-- Why the arguments make no sense. -/
inductive UsageError where
  | unknownArgument (argument : String)
  | unexpectedValue (argument : String)
  | missingValue (setting : Setting)
  | badValue (setting : Setting) (value : String)
  | repeated (argument : String)
  | emptyInput
  | missingInput
  deriving DecidableEq

/-! ## 2. Names -/

/-- The long name of a flag. -/
def Flag.name : Flag → String
  | .pointLoopsOnly => "--point-loop-only"
  | .ignoreCosts => "--no-complexity-aware"
  | .ignoreCorrelations => "--no-correlation-aware"
  | .simplifyCopies => "--simplify-copy"
  | .skipParallelize => "--skip-parallelize"
  | .quiet => "--quiet"

/-- The long name of a setting. -/
def Setting.name : Setting → String
  | .output => "--output"
  | .maxUnroll => "--max-unroll-factor"
  | .tileSizes => "--tile-size"
  | .emit => "--emit"

/-- The switch of a long name, without its dashes. -/
def longSwitch? : String → Option Switch
  | "output" => some (.setting .output)
  | "max-unroll-factor" => some (.setting .maxUnroll)
  | "tile-size" => some (.setting .tileSizes)
  | "emit" => some (.setting .emit)
  | "point-loop-only" => some (.flag .pointLoopsOnly)
  | "no-complexity-aware" => some (.flag .ignoreCosts)
  | "no-correlation-aware" => some (.flag .ignoreCorrelations)
  | "simplify-copy" => some (.flag .simplifyCopies)
  | "skip-parallelize" => some (.flag .skipParallelize)
  | "quiet" => some (.flag .quiet)
  | "verbose" => some .verbose
  | "help" => some .help
  | "version" => some .version
  | _ => none

/-- The switch of a letter. -/
def shortSwitch? : Char → Option Switch
  | 'o' => some (.setting .output)
  | 'q' => some (.flag .quiet)
  | 'v' => some .verbose
  | 'h' => some .help
  | 'V' => some .version
  | _ => none

/-- The output of a name; capitals matter. -/
def Emit.ofName? : String → Option Emit
  | "ir" => some .ir
  | "json" => some .json
  | "report" => some .report
  | _ => none

/-- The word that decimal digits spell, with a plus sign or without. -/
def wordOf? (text : String) : Option Nat :=
  let digits := match text.toList with
    | '+' :: digits => digits
    | digits => digits
  let n := digits.foldl (fun n c => 10 * n + (c.toNat - 48)) 0
  if !digits.isEmpty && digits.all Char.isDigit && n ≤ wordMax then some n else none

/-! ## 3. Reading the arguments -/

/-- What the arguments read so far have settled, and the setting that waits for values: the flag
tells whether it has one. -/
structure Draft where
  input : Option String := none
  output : Option String := none
  maxUnroll : Option Nat := none
  tileSizes : Option (List Nat) := none
  emit : Option Emit := none
  flags : List Flag := []
  verbosity : Nat := 0
  waiting : Option (Setting × Bool) := none

namespace Draft

/-- Leave the setting that waits for values.  It has to have one. -/
def settle (d : Draft) : Except UsageError Draft :=
  match d.waiting with
  | some (setting, false) => .error (.missingValue setting)
  | _ => .ok { d with waiting := none }

/-- Give a setting a value.  Only tile sizes may be given again; theirs add up. -/
def set (d : Draft) (setting : Setting) (value : String) : Except UsageError Draft :=
  match setting with
  | .output =>
    if d.output.isSome then .error (.repeated setting.name)
    else if value.isEmpty then .error (.badValue setting value)
    else .ok { d with output := some value }
  | .maxUnroll =>
    if d.maxUnroll.isSome then .error (.repeated setting.name)
    else match wordOf? value with
      | some n =>
        if n = 0 then .error (.badValue setting value) else .ok { d with maxUnroll := some n }
      | none => .error (.badValue setting value)
  | .tileSizes =>
    match ((value.splitOn ",").mapM wordOf? : Option (List Nat)) with
    | some sizes => .ok { d with tileSizes := some (d.tileSizes.getD [] ++ sizes) }
    | none => .error (.badValue setting value)
  | .emit =>
    if d.emit.isSome then .error (.repeated setting.name)
    else match Emit.ofName? value with
      | some emit => .ok { d with emit := some emit }
      | none => .error (.badValue setting value)

/-- Give the waiting setting a value.  Tile sizes go on waiting for more. -/
def supply (d : Draft) (setting : Setting) (value : String) : Except UsageError Draft := do
  let d ← d.set setting value
  return { d with waiting := if setting = .tileSizes then some (setting, true) else none }

/-- Take an argument that is no option as the input file. -/
def addInput (d : Draft) (argument : String) : Except UsageError Draft := do
  let d ← d.settle
  if d.input.isSome then throw (.unknownArgument argument)
  if argument.isEmpty then throw .emptyInput
  return { d with input := some argument }

/-- Raise a flag. -/
def raise (d : Draft) (flag : Flag) : Except UsageError Draft :=
  if d.flags.contains flag then .error (.repeated flag.name)
  else .ok { d with flags := d.flags ++ [flag] }

/-- The level of the journal entries shown. -/
def level (d : Draft) : Level :=
  if d.flags.contains .quiet then .error
  else match d.verbosity with
    | 0 => .warn
    | 1 => .info
    | 2 => .debug
    | _ => .trace

/-- What a complete list of arguments asks for. -/
def finish (d : Draft) : Except UsageError Request := do
  let d ← d.settle
  match d.input with
  | none => throw .missingInput
  | some input =>
    return .run {
      input
      output := d.output
      config := {
        maxUnroll := d.maxUnroll.getD 1
        pointLoopsOnly := d.flags.contains .pointLoopsOnly
        costAware := !d.flags.contains .ignoreCosts
        correlationAware := !d.flags.contains .ignoreCorrelations }
      tileSizes := d.tileSizes
      simplifyCopies := d.flags.contains .simplifyCopies
      skipParallelize := d.flags.contains .skipParallelize
      emit := d.emit.getD .ir
      level := d.level }

end Draft

/-- How reading an argument ends: with a draft to go on from, or with a request that makes the
other arguments irrelevant. -/
abbrev Progress := Except Request Draft

/-- Take a switch that needs no value. -/
def takeSwitch (d : Draft) : Switch → Except UsageError Progress
  | .flag flag => do return .ok (← (← d.settle).raise flag)
  | .verbose => do
    let d ← d.settle
    return .ok { d with verbosity := d.verbosity + 1 }
  | .help => do
    let _ ← d.settle
    return .error .help
  | .version => do
    let _ ← d.settle
    return .error .version
  | .setting setting => do return .ok { ← d.settle with waiting := some (setting, false) }

/-- Read a long option, given without its dashes. -/
def readLong (d : Draft) (text : List Char) : Except UsageError Progress :=
  let name := String.ofList (text.takeWhile (· != '='))
  match longSwitch? name, text.dropWhile (· != '=') with
  | none, _ => .error (.unknownArgument ("--" ++ name))
  | some switch, [] => takeSwitch d switch
  | some (.setting setting), _ :: value => do
    return .ok (← (← d.settle).set setting (String.ofList value))
  | some _, _ :: _ => .error (.unexpectedValue ("--" ++ name))

/-- Read joined short options, given without their dash.  What follows the letter of a setting is
its value. -/
def readShort (d : Draft) : List Char → Except UsageError Progress
  | [] => .ok (.ok d)
  | c :: rest =>
    match shortSwitch? c with
    | none => .error (.unknownArgument (String.ofList ['-', c]))
    | some (.setting setting) =>
      match rest with
      | [] => takeSwitch d (.setting setting)
      | '=' :: value => do return .ok (← (← d.settle).set setting (String.ofList value))
      | value => do return .ok (← (← d.settle).set setting (String.ofList value))
    | some switch => do
      match ← takeSwitch d switch with
      | .error request => return .error request
      | .ok d => readShort d rest

/-- Read an argument that is neither an option nor after the end of the options. -/
def readValue (d : Draft) (argument : String) : Except UsageError Draft :=
  match d.waiting with
  | some (setting, _) => d.supply setting argument
  | none => d.addInput argument

/-- Read one argument before the end of the options. -/
def readArgument (d : Draft) (argument : String) : Except UsageError Progress :=
  match argument.toList with
  | '-' :: '-' :: text => readLong d text
  | '-' :: c :: text => readShort d (c :: text)
  | _ => do return .ok (← readValue d argument)

/-- Read the arguments after the end of the options. -/
def readInputs (d : Draft) : List String → Except UsageError Request
  | [] => d.finish
  | argument :: arguments => do readInputs (← d.addInput argument) arguments

/-- Read arguments one after another. -/
def readArguments (d : Draft) : List String → Except UsageError Request
  | [] => d.finish
  | argument :: arguments =>
    if argument = "--" then readInputs d arguments
    else do
      match ← readArgument d argument with
      | .error request => return request
      | .ok d => readArguments d arguments

/-- What the arguments ask for. -/
def parse (arguments : List String) : Except UsageError Request := readArguments {} arguments

/-- The text of a usage error. -/
def UsageError.message : UsageError → String
  | .unknownArgument a => "unexpected argument '" ++ a ++ "' found"
  | .unexpectedValue a => "unexpected value for '" ++ a ++ "' found"
  | .missingValue s => "a value is required for '" ++ s.name ++ "' but none was supplied"
  | .badValue s v => "invalid value '" ++ v ++ "' for '" ++ s.name ++ "'"
  | .repeated a => "the argument '" ++ a ++ "' cannot be used multiple times"
  | .emptyInput => "a value is required for '<FILE>' but none was supplied"
  | .missingInput => "the following required arguments were not provided: <FILE>"

end Command
end Dataflow
