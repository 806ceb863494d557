/-
# Removing copies

A copy between two buffers is redundant when one of them can stand in for the other: every use
of the source comes before the copy, and every use of the target after it.  Then one of the two
buffers and the copy go, and the uses of that buffer are redirected to the other operand of the
copy.

`removeCopy` is `simplify_buffer_copy` of dfopt; `removeCopies` repeats it as the pass
`simplify_copies` does.
-/
import Dataflow.Func.Edit
import Dataflow.Func.Precedence
import Dataflow.Journal
import Dataflow.Memory.Alias
import Dataflow.Refusal

namespace Dataflow

/-- What the removal of a copy did. -/
inductive CopyRemoval where
  /-- The target buffer went, and the copy's source took its place. -/
  | targetErased (buffer replacement : ValueId)
  /-- The source buffer went, and the copy's target took its place. -/
  | sourceErased (buffer replacement : ValueId)
  deriving DecidableEq

/-- A copy that is a candidate for removal: its operands, their roots and the buffers that
define the roots, and the uses of the two memories. -/
structure CopySite where
  copy : OpId
  source : ValueId
  target : ValueId
  sourceRoot : ValueId
  targetRoot : ValueId
  sourceBuffer : Option OpId
  targetBuffer : Option OpId
  sourceUsers : List OpId
  targetUsers : List OpId

namespace Func

/-! ## 1. When a copy is a candidate -/

/-- The two sides of a copy.  The operands have to be in one memory space and to have roots, and
one of the roots has to be a buffer. -/
def copySite? (f : Func) (copy : OpId) (source target : ValueId) : Checked (Option CopySite) := do
  if (← f.value source).space ≠ (← f.value target).space then return none
  match ← f.root source with
  | none => return none
  | some sourceRoot =>
    match ← f.root target with
    | none => return none
    | some targetRoot =>
      let sourceBuffer ← f.bufferOp sourceRoot
      let targetBuffer ← f.bufferOp targetRoot
      if sourceBuffer.isNone && targetBuffer.isNone then return none
      let sourceUsers ← f.aliasUsers sourceRoot
      let targetUsers ← f.aliasUsers targetRoot
      return some { copy, source, target, sourceRoot, targetRoot, sourceBuffer, targetBuffer,
                    sourceUsers, targetUsers }

/-- True if every use of the source comes before the copy and every use of the target after
it. -/
def usesOrdered (f : Func) (s : CopySite) : Checked Bool := do
  if ← s.sourceUsers.allM fun user => f.precedes user s.copy then
    s.targetUsers.allM fun user => f.precedes s.copy user
  else return false

/-- True if the operation that defines a value dominates all users; an argument always does. -/
def visibleTo (f : Func) (definition : Option OpId) (users : List OpId) : Checked Bool :=
  match definition with
  | none => return true
  | some id => users.allM fun user => f.dominates id user

/-! ## 2. Which side goes -/

/-- The buffer of the target, if it can go: the copy names it directly, and the source is visible
wherever the target is used. -/
def erasableTarget? (f : Func) (s : CopySite) : Checked (Option OpId) := do
  match s.targetBuffer with
  | none => return none
  | some buffer =>
    if some buffer ≠ (← f.definer s.target) then return none
    if ← f.visibleTo (← f.definer s.source) s.targetUsers then return some buffer
    return none

/-- The buffer of the source, if it can go: the copy names it directly, and the target is visible
wherever the source is used. -/
def erasableSource? (f : Func) (s : CopySite) : Checked (Option OpId) := do
  match s.sourceBuffer with
  | none => return none
  | some buffer =>
    if some buffer ≠ (← f.definer s.source) then return none
    if ← f.visibleTo (← f.definer s.target) s.sourceUsers then return some buffer
    return none

/-- Hand the initial value of the source's buffer on to the target's.  None if there is a value
and no buffer to take it, or one that has its own and that the copy names only through a view. -/
def inheritInit? (f : Func) (s : CopySite) (buffer : OpId) : Checked (Option Func) := do
  match (← f.kind buffer).init? with
  | none => return some f
  | some init =>
    match s.targetBuffer with
    | none => return none
    | some survivor =>
      if (← f.kind survivor).init?.isSome && some survivor ≠ (← f.definer s.target) then
        return none
      return some (← f.modifyKind survivor fun
        | .buffer result _ => .buffer result (some init)
        | k => k)

/-- Erase a copy and a buffer, redirecting the uses of the buffer's value. -/
def dropBuffer (f : Func) (copy buffer : OpId) (old new : ValueId) : Checked Func := do
  let f ← f.erase copy
  let f ← f.redirectUses old new
  f.erase buffer

/-! ## 3. One copy -/

/-- Remove a candidate whose uses are ordered, if one side of it can go; the target is tried
first. -/
def removeSite (f : Func) (s : CopySite) : Traced (Func × Option CopyRemoval) := do
  match ← f.erasableTarget? s with
  | some buffer =>
    let g ← f.dropBuffer s.copy buffer s.targetRoot s.source
    Traced.note .debug "dfopt::transform::simplify_copy"
      (do return "erased target " ++ (← g.value s.targetRoot).name)
    return (g, some (.targetErased s.targetRoot s.source))
  | none =>
    match ← f.erasableSource? s with
    | none => return (f, none)
    | some buffer =>
      match ← f.inheritInit? s buffer with
      | none => return (f, none)
      | some g =>
        let g ← g.dropBuffer s.copy buffer s.sourceRoot s.target
        Traced.note .debug "dfopt::transform::simplify_copy"
          (do return "erased source " ++ (← g.value s.sourceRoot).name)
        return (g, some (.sourceErased s.sourceRoot s.target))

/-- Remove a copy if it is redundant.  Nothing is done to an operation that is no copy. -/
def removeCopy (f : Func) (copy : OpId) : Traced (Func × Option CopyRemoval) := do
  match ← f.kind copy with
  | .copy source target =>
    Traced.note .debug "dfopt::transform::simplify_copy" (do return "visiting " ++ (← f.label copy))
    match ← f.copySite? copy source target with
    | none => return (f, none)
    | some s =>
      if ← f.usesOrdered s then
        Traced.note .debug "dfopt::transform::simplify_copy"
          (do return "dominance holds for " ++ (← f.label copy))
        f.removeSite s
      else return (f, none)
  | _ => return (f, none)

/-! ## 4. All copies -/

/-- Try copies one after another, passing over those that were erased meanwhile.  Gives the
number of copies removed. -/
def removeListed : Func → List OpId → Traced (Func × Nat)
  | f, [] => return (f, 0)
  | f, copy :: copies => do
    if (← f.op copy).erased then removeListed f copies
    else
      let (f, removal) ← f.removeCopy copy
      let (f, count) ← removeListed f copies
      return (f, if removal.isSome then count + 1 else count)

/-- Go over all copies again and again until a round removes none, for at most the given number of
rounds. -/
def removeRounds : Nat → Func → Traced (Func × Nat)
  | 0, f => return (f, 0)
  | rounds + 1, f => do
    let (f, count) ← removeListed f (← f.findAll (·.kind.isCopy))
    if count = 0 then return (f, 0)
    let (f, more) ← removeRounds rounds f
    return (f, count + more)

/-- Remove redundant copies until none is left.  Every round but the last erases a copy, so there
are at most one more than operations.  Gives the number of copies removed. -/
def removeCopies (f : Func) : Traced (Func × Nat) := do
  let (f, count) ← removeRounds (f.ops.size + 1) f
  Traced.say .info "dfopt::transform::simplify_copy"
    (Pass.copyElimination.text ++ ": " ++ toString count ++ " copies eliminated")
  return (f, count)

end Func
end Dataflow
