/-
# Functions as JSON

The encoding of every part of a function, and its decoding.  Slots and memory spaces are 32-bit
words, sizes, factors and argument positions 64-bit words, bounds and offsets signed 64-bit
words.
-/
import Dataflow.Func
import Dataflow.Json.Schema

namespace Dataflow

open Json

/-! ## 1. Encoding -/

/-- An index, tagged by its form. -/
def Index.toJson : Index → Json
  | .iv l => tagged "Iv" (nat l)
  | .const c => tagged "Const" (.int c)
  | .unknown => .str "Opaque"
  | .tiled tile point => tagged "Tiled" (record [("tile", nat tile), ("point", nat point)])

/-- An access as a record. -/
def Access.toJson (a : Access) : Json :=
  record [("memref", nat a.memref), ("indices", list Index.toJson a.indices)]

/-- A mark, tagged by the change that it tells of. -/
def Mark.toJson : Mark → Json
  | .unrollJam n => tagged "UnrollJam" (nat n)
  | .vectorize n => tagged "Vectorize" (nat n)

/-- A loop header as a record. -/
def Loop.toJson (l : Loop) : Json :=
  record [
    ("name", .str l.name),
    ("lower", .int l.lower),
    ("upper", option .int l.upper),
    ("step", .int l.step),
    ("parallel", .bool l.parallel),
    ("point_of", option nat l.pointOf),
    ("transform", option Mark.toJson l.mark)]

/-- A computation as a record; a lane is a pair. -/
def Compute.toJson (c : Compute) : Json :=
  record [
    ("name", .str c.name),
    ("reads", list Access.toJson c.reads),
    ("writes", list Access.toJson c.writes),
    ("lanes", list (fun (l, offset) => .arr [nat l, .int offset]) c.lanes)]

/-- A schedule as a record. -/
def Schedule.toJson (s : Schedule) : Json :=
  record [
    ("name", .str s.name),
    ("increase", option (fun n : Positive => nat n.val) s.increase),
    ("decrease", option (fun n : Positive => nat n.val) s.decrease)]

/-- What an operation is, tagged by its kind. -/
def Kind.toJson : Kind → Json
  | .schedule s => tagged "Schedule" s.toJson
  | .node name => tagged "Node" (record [("name", .str name)])
  | .loop l => tagged "For" l.toJson
  | .buffer result init =>
    tagged "Buffer" (record [("result", nat result), ("init_value", option .int init)])
  | .view source result =>
    tagged "View" (record [("source", nat source), ("result", nat result)])
  | .copy source target =>
    tagged "Copy" (record [("source", nat source), ("target", nat target)])
  | .compute c => tagged "Compute" c.toJson

/-- An operation as a record. -/
def Op.toJson (op : Op) : Json :=
  record [
    ("id", nat op.id),
    ("kind", op.kind.toJson),
    ("parent", option nat op.parent),
    ("body", list nat op.body),
    ("erased", .bool op.erased)]

/-- Where a value comes from, tagged. -/
def Definition.toJson : Definition → Json
  | .argument position => tagged "Argument" (nat position)
  | .op id => tagged "Op" (nat id)

/-- A value as a record. -/
def Value.toJson (v : Value) : Json :=
  record [
    ("id", nat v.id),
    ("name", .str v.name),
    ("shape", list nat v.shape),
    ("memory_space", nat v.space),
    ("def", v.definition.toJson)]

/-- A function as a record, the tables in slot order. -/
def Func.toJson (f : Func) : Json :=
  record [
    ("name", .str f.name),
    ("arguments", list nat f.arguments),
    ("body", list nat f.body),
    ("ops", list Op.toJson f.ops.toList),
    ("values", list Value.toJson f.values.toList)]

/-! ## 2. Decoding -/

/-- A slot of one of the tables. -/
def slot? : Json → Option Nat := word32?

/-- Read an index. -/
def Index.ofJson? (j : Json) : Option Index := do
  let (tag, payload) ← j.choice?
  match tag with
  | "Iv" => return .iv (← slot? payload)
  | "Const" => return .const (← payload.int?)
  | "Opaque" => payload.empty?; return .unknown
  | "Tiled" =>
    match ← payload.slots? ["tile", "point"] with
    | [tile, point] => return .tiled (← tile.required slot?) (← point.required slot?)
    | _ => none
  | _ => none

/-- Read an access. -/
def Access.ofJson? (j : Json) : Option Access := do
  match ← j.slots? ["memref", "indices"] with
  | [memref, indices] =>
    return {
      memref := ← memref.required slot?
      indices := ← indices.required (list? Index.ofJson?) }
  | _ => none

/-- Read a mark. -/
def Mark.ofJson? (j : Json) : Option Mark := do
  let (tag, payload) ← j.choice?
  match tag with
  | "UnrollJam" => return .unrollJam (← payload.word?)
  | "Vectorize" => return .vectorize (← payload.word?)
  | _ => none

/-- Read a loop header. -/
def Loop.ofJson? (j : Json) : Option Loop := do
  match ← j.slots? ["name", "lower", "upper", "step", "parallel", "point_of", "transform"] with
  | [name, lower, upper, step, parallel, pointOf, mark] =>
    return {
      name := ← name.required string?
      lower := ← lower.required int?
      upper := ← upper.optional int?
      step := ← step.required int?
      parallel := ← parallel.required bool?
      pointOf := ← pointOf.optional slot?
      mark := ← mark.optional Mark.ofJson? }
  | _ => none

/-- Read a computation. -/
def Compute.ofJson? (j : Json) : Option Compute := do
  match ← j.slots? ["name", "reads", "writes", "lanes"] with
  | [name, reads, writes, lanes] =>
    return {
      name := ← name.required string?
      reads := ← reads.required (list? Access.ofJson?)
      writes := ← writes.required (list? Access.ofJson?)
      lanes := ← lanes.required (list? (pair? slot? int?)) }
  | _ => none

/-- A word above zero. -/
def positive? (j : Json) : Option Positive := do Positive.ofNat? (← j.word?)

/-- Read a schedule. -/
def Schedule.ofJson? (j : Json) : Option Schedule := do
  match ← j.slots? ["name", "increase", "decrease"] with
  | [name, increase, decrease] =>
    return {
      name := ← name.required string?
      increase := ← increase.optional positive?
      decrease := ← decrease.optional positive? }
  | _ => none

/-- Read what an operation is. -/
def Kind.ofJson? (j : Json) : Option Kind := do
  let (tag, payload) ← j.choice?
  match tag with
  | "Schedule" => return .schedule (← Schedule.ofJson? payload)
  | "Node" =>
    match ← payload.slots? ["name"] with
    | [name] => return .node (← name.required string?)
    | _ => none
  | "For" => return .loop (← Loop.ofJson? payload)
  | "Buffer" =>
    match ← payload.slots? ["result", "init_value"] with
    | [result, init] => return .buffer (← result.required slot?) (← init.optional int?)
    | _ => none
  | "View" =>
    match ← payload.slots? ["source", "result"] with
    | [source, result] => return .view (← source.required slot?) (← result.required slot?)
    | _ => none
  | "Copy" =>
    match ← payload.slots? ["source", "target"] with
    | [source, target] => return .copy (← source.required slot?) (← target.required slot?)
    | _ => none
  | "Compute" => return .compute (← Compute.ofJson? payload)
  | _ => none

/-- Read an operation. -/
def Op.ofJson? (j : Json) : Option Op := do
  match ← j.slots? ["id", "kind", "parent", "body", "erased"] with
  | [id, kind, parent, body, erased] =>
    return {
      id := ← id.required slot?
      kind := ← kind.required Kind.ofJson?
      parent := ← parent.optional slot?
      body := ← body.required (list? slot?)
      erased := ← erased.defaulted false bool? }
  | _ => none

/-- Read where a value comes from. -/
def Definition.ofJson? (j : Json) : Option Definition := do
  let (tag, payload) ← j.choice?
  match tag with
  | "Argument" => return .argument (← payload.word?)
  | "Op" => return .op (← slot? payload)
  | _ => none

/-- Read a value. -/
def Value.ofJson? (j : Json) : Option Value := do
  match ← j.slots? ["id", "name", "shape", "memory_space", "def"] with
  | [id, name, shape, space, definition] =>
    return {
      id := ← id.required slot?
      name := ← name.required string?
      shape := ← shape.required (list? word?)
      space := ← space.required word32?
      definition := ← definition.required Definition.ofJson? }
  | _ => none

/-- Read a function.  Nothing is checked of it but the types of its parts. -/
def Func.ofJson? (j : Json) : Option Func := do
  match ← j.slots? ["name", "arguments", "body", "ops", "values"] with
  | [name, arguments, body, ops, values] =>
    return {
      name := ← name.required string?
      arguments := ← arguments.required (list? slot?)
      body := ← body.required (list? slot?)
      ops := (← ops.required (list? Op.ofJson?)).toArray
      values := (← values.required (list? Value.ofJson?)).toArray }
  | _ => none

end Dataflow
