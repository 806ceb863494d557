/-
# Functions

A function owns a table of operations and a table of values.  Operations nest through their
`parent` and `body` fields: the top level is the function's own `body`, every other block is
the body of the operation that holds it.  A slot is never given away again; erasing an
operation detaches it and flags it.

Nothing in the type ties the links together, so a lookup can miss.  A computation that looks
things up is `Checked`: it gives a result or the fault that stopped it.  On a function that
`Func.verify` accepts no lookup of a linked slot misses.
-/
import Dataflow.Bounds
import Dataflow.Op

namespace Dataflow

/-- A function made of nested schedules, nodes, loops and buffers. -/
structure Func where
  name : String
  arguments : List ValueId
  /-- The top-level block. -/
  body : List OpId
  ops : Array Op
  values : Array Value
  deriving DecidableEq

/-! ## 1. Faults -/

/-- What can stop a computation on a function whose links nobody has checked. -/
inductive Fault where
  /-- No operation has this slot. -/
  | unknownOp (id : OpId)
  /-- No value has this slot. -/
  | unknownValue (id : ValueId)
  /-- A block has no such position. -/
  | unknownPosition (position : Nat)
  /-- The number of elements of a memref is no 64-bit word. -/
  | elementCount (id : ValueId)
  /-- The nesting or the aliasing of the function runs in a circle. -/
  | circular
  deriving DecidableEq

/-- A result, or the fault that stopped the computation. -/
abbrev Checked (α : Type) := Except Fault α

namespace Checked

variable {α β : Type}

/-- The result of a computation that is known to give one. -/
def get : (x : Checked α) → x.isOk = true → α
  | .ok a, _ => a

theorem eq_ok_get (x : Checked α) (h : x.isOk = true) : x = .ok (x.get h) := by
  cases x with
  | ok a => rfl
  | error e => cases h

/-- A sequence gives a result when its first part does and the rest does from there. -/
theorem bind_eq_ok {x : Checked α} {k : α → Checked β} {b : β} :
    x >>= k = .ok b ↔ ∃ a, x = .ok a ∧ k a = .ok b := by
  cases x with
  | ok a =>
    constructor
    · intro h; exact ⟨a, rfl, h⟩
    · rintro ⟨_, ha, h⟩; cases ha; exact h
  | error e =>
    constructor
    · intro h; cases h
    · rintro ⟨_, ha, _⟩; cases ha

@[simp] theorem pure_eq_ok (a : α) : (pure a : Checked α) = .ok a := rfl

@[simp] theorem ok_bind (a : α) (k : α → Checked β) : (Except.ok a : Checked α) >>= k = k a := rfl

end Checked

namespace Func

/-- A function with nothing in it. -/
def empty (name : String) : Func :=
  { name, arguments := [], body := [], ops := #[], values := #[] }

/-! ## 2. Lookups -/

/-- The operation in a slot. -/
def op (f : Func) (id : OpId) : Checked Op :=
  match f.ops[id]? with
  | some op => .ok op
  | none => .error (.unknownOp id)

/-- The value in a slot. -/
def value (f : Func) (id : ValueId) : Checked Value :=
  match f.values[id]? with
  | some v => .ok v
  | none => .error (.unknownValue id)

theorem op_eq_ok_iff {f : Func} {id : OpId} {op : Op} :
    f.op id = .ok op ↔ f.ops[id]? = some op := by
  unfold Func.op
  split <;> simp_all

theorem value_eq_ok_iff {f : Func} {id : ValueId} {v : Value} :
    f.value id = .ok v ↔ f.values[id]? = some v := by
  unfold Func.value
  split <;> simp_all

/-- What the operation in a slot is. -/
def kind (f : Func) (id : OpId) : Checked Kind := return (← f.op id).kind

/-- The loop in a slot, if the operation there is one. -/
def loop? (f : Func) (id : OpId) : Checked (Option Loop) := return (← f.kind id).loop?

/-- The block of `parent`; the top level for `none`. -/
def block (f : Func) : Option OpId → Checked (List OpId)
  | none => .ok f.body
  | some parent => return (← f.op parent).body

/-- Position of an operation in the block of its parent. -/
def position (f : Func) (id : OpId) : Checked (Option Nat) := do
  let block ← f.block (← f.op id).parent
  return block.findIdx? (· == id)

/-- The operation that defines a value; `none` for an argument. -/
def definer (f : Func) (id : ValueId) : Checked (Option OpId) :=
  return (← f.value id).definition.op?

/-- Number of elements of a memref.  The product is taken from the left, and every partial
product has to be a word. -/
def elementCount (f : Func) (id : ValueId) : Checked Nat := do
  match product? (← f.value id).shape with
  | some n => return n
  | none => throw (.elementCount id)

/-! ## 3. Names for messages -/

/-- How messages refer to a slot of the operation table. -/
def opText (id : OpId) : String := "op" ++ toString id

/-- How messages refer to a slot of the value table. -/
def valueText (id : ValueId) : String := "%" ++ toString id

/-- The name of an operation in messages. -/
def label (f : Func) (id : OpId) : Checked String := do
  match (← f.op id).kind with
  | .schedule s => return "@" ++ s.name
  | .node name => return "@" ++ name
  | .loop l => return "for %" ++ l.name
  | .compute c => return "@" ++ c.name
  | .buffer result _ | .view _ result => return "%" ++ (← f.value result).name
  | .copy _ _ => return "copy " ++ opText id

end Func

end Dataflow
