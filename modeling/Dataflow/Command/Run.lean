/-
# A run of the command

Load a function, tile it, parallelize it, remove copies, check the result and write it out.  A
run ends with the text to write or with the reasons why there is none, outermost first.
-/
import Dataflow.Band.Tile
import Dataflow.Codec.Load
import Dataflow.Codec.Report
import Dataflow.Command.Options
import Dataflow.Func.Print
import Dataflow.Memory.Copy
import Dataflow.Text.Control
import Dataflow.Text.Quoted

namespace Dataflow

/-- The version of the program. -/
def version : String := "0.1.0"

namespace Command

/-! ## 1. Texts -/

/-- A text with every line after the first moved in by a margin. -/
def indented (margin text : String) : String := ("\n" ++ margin).intercalate (text.splitOn "\n")

/-- A journal entry on the error stream, without terminal controls.  The level is padded to five
characters. -/
def recordText (r : Record) : String :=
  let level := r.level.text
  Text.withoutControls ("[" ++ level.pushn ' ' (5 - level.length) ++ " " ++ r.topic ++ "] "
    ++ indented "    " r.message ++ "\n")

/-- A journal on the error stream. -/
def journalText (journal : List Record) : String := String.join (journal.map recordText)

/-- The causes of a failure, numbered if there are several. -/
def causesText : List String → String
  | [] => ""
  | [cause] => "\n\nCaused by:\n    " ++ indented "    " cause
  | causes => "\n\nCaused by:" ++ String.join (causes.zipIdx.map fun (cause, i) =>
      let number := toString i
      "\n" ++ "".pushn ' ' (5 - number.length) ++ number ++ ": " ++ indented "       " cause)

/-- A failure on the error stream. -/
def failureText : List String → String
  | [] => "Error: \n"
  | outermost :: causes => "Error: " ++ outermost ++ causesText causes ++ "\n"

/-! ## 2. The passes -/

/-- What the passes of a run did. -/
structure Summary where
  tiled : Bool := false
  parallelized : Option Report := none
  copiesRemoved : Nat := 0

/-- A summary as a record. -/
def Summary.toJson (s : Summary) : Json :=
  .record [
    ("tiled", .bool s.tiled),
    ("parallelize", Json.option Report.toJson s.parallelized),
    ("copies_eliminated", .nat s.copiesRemoved)]

/-- An entry of the command's own in the journal. -/
def note (level : Level) (message : String) : Traced Unit := Traced.say level "dfopt" message

/-- Tile, if sizes are given. -/
def tileStep (o : Options) (f : Func) (s : Summary) : Traced (Func × Summary) := do
  match o.tileSizes with
  | none => return (f, s)
  | some sizes =>
    if ← f.canTile sizes then
      let (f, tiled) ← f.tile sizes
      return (f, { s with tiled })
    note .info "Nothing to tile"
    return (f, s)

/-- Parallelize, unless that is to be skipped. -/
def parallelizeStep (o : Options) (f : Func) (s : Summary) :
    Traced (Except (List String) (Func × Summary)) := do
  if o.skipParallelize then return .ok (f, s)
  note .info "Parallelizing..."
  let (f, outcome) ← f.parallelize o.config
  match outcome with
  | .ok report => return .ok (f, { s with parallelized := some report })
  | .error e =>
    note .error ("Parallelization failed: " ++ ": ".intercalate e.chain)
    return .error e.chain

/-- Remove copies, if that is asked for. -/
def simplifyStep (o : Options) (f : Func) (s : Summary) : Traced (Func × Summary) := do
  if o.simplifyCopies then
    note .info "Simplifying copies..."
    let (f, copiesRemoved) ← f.removeCopies
    return (f, { s with copiesRemoved })
  return (f, s)

/-- The text that a run writes. -/
def emitted (emit : Emit) (f : Func) (s : Summary) : Checked String :=
  match emit with
  | .ir => f.print
  | .json => return f.toJson.pretty
  | .report => return s.toJson.pretty

/-- Why a run fails whose passes left the function malformed. -/
def malformedChain (d : Defect) : List String := ["Transformed function is malformed", d.text]

/-- Run the passes on a loaded function. -/
def transform (o : Options) (f : Func) : Traced (Except (List String) String) := do
  note .debug ("Parallelize config: " ++ o.config.text)
  let (f, s) ← tileStep o f {}
  match ← parallelizeStep o f s with
  | .error chain => return .error chain
  | .ok (f, s) =>
    let (f, s) ← simplifyStep o f s
    match f.verify with
    | .error d => return .error (malformedChain d)
    | .ok () => return .ok (← emitted o.emit f s)

/-- Run on the content of the input file, or on the reason why it could not be read. -/
def process (o : Options) (source : Except String String) :
    Traced (Except (List String) String) := do
  note .info ("dfopt v" ++ version)
  note .debug ("Input file: " ++ Text.quoted o.input)
  match source with
  | .error cause => return .error ["Failed to read input file: " ++ Text.quoted o.input, cause]
  | .ok text =>
    match Func.load text with
    | .error e => return .error (("Failed to load " ++ Text.quoted o.input) :: e.chain)
    | .ok f => transform o f

/-! ## 3. What the caller sees -/

/-- What a run leaves behind: its exit code, its two streams and the file it wrote. -/
structure Outcome where
  code : Nat
  stdout : String := ""
  stderr : String := ""
  /-- Path and content of the file written. -/
  written : Option (String × String) := none

/-- The exit code of a usage error. -/
def usageCode : Nat := 2

/-- The exit code of a run that a fault stopped. -/
def faultCode : Nat := 101

/-- A run that failed. -/
def failed (stderr : String) (chain : List String) : Outcome :=
  { code := 1, stderr := stderr ++ failureText chain }

/-- Put a text where it belongs: on the output stream with one newline more, or into a file as it
is.  `refusal` tells why a path cannot be written, if it cannot. -/
def deliver (o : Options) (stderr text : String) (refusal : String → Option String) : Outcome :=
  match o.output with
  | none => { code := 0, stdout := text ++ "\n", stderr }
  | some path =>
    match refusal path with
    | some cause => failed stderr ["Failed to write output file: " ++ Text.quoted path, cause]
    | none => { code := 0, stderr, written := some (path, text) }

/-- Bring a processed run to its end. -/
def conclude (o : Options) (run : Traced (Except (List String) String))
    (refusal : String → Option String) : Outcome :=
  match run.run (some o.level) with
  | .error _ => { code := faultCode }
  | .ok (result, journal) =>
    let stderr := journalText journal
    match result with
    | .error chain => failed stderr chain
    | .ok text => deliver o stderr text refusal

/-- The help text. -/
def helpText : String := "\n".intercalate [
  "Parallelizes loop bands of dataflow nodes and removes redundant copies",
  "",
  "Usage: dfopt [OPTIONS] <FILE>",
  "",
  "Arguments:",
  "  <FILE>  Input function (JSON)",
  "",
  "Options:",
  "  -o, --output <FILE>            Output file (defaults to stdout)",
  "      --max-unroll-factor <N>    Root parallel budget [default: 1]",
  "      --point-loop-only          Only unroll the point loops of tiled bands",
  "      --no-complexity-aware      Use the same factor for every node",
  "      --no-correlation-aware     Do not unify factors of correlated nodes",
  "      --tile-size <SIZE>...      Tile every band before parallelizing",
  "      --simplify-copy            Eliminate redundant buffer copies",
  "      --skip-parallelize         Do not run dataflow node parallelization",
  "      --emit <KIND>              What to emit: ir, json or report [default: ir]",
  "  -v, --verbose...               Verbose output (-v, -vv, -vvv)",
  "  -q, --quiet                    Quiet mode (suppress warnings)",
  "  -h, --help                     Print help",
  "  -V, --version                  Print version"]

/-- The outcome of arguments that ask for no run. -/
def answer? : Except UsageError Request → Except Outcome Options
  | .error e => .error { code := usageCode, stderr := "error: " ++ e.message ++ "\n" }
  | .ok .help => .error { code := 0, stdout := helpText ++ "\n" }
  | .ok .version => .error { code := 0, stdout := "dfopt " ++ version ++ "\n" }
  | .ok (.run o) => .ok o

end Command
end Dataflow
