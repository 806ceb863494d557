/-
# Blocks and parent links describe one tree

The nesting of a function is told twice.  Blocks list what is nested in an operation, and the walks
follow them downwards; each operation also names its parent, and the ways up follow these links.
Nothing but the check of a function ties the two together.

Downwards, the text of a block is its pre-order (`Func.Preorder`): each operation is followed by the
pre-order of its body.  A block has one pre-order at most, and the pre-order of an operation is a
piece of every pre-order that lists the operation (`Func.Preorder.segment`).  Both walks give it.
So does a loop with a stack (`StackWalk`) that takes one slot off and puts a whole body on, the
first operation last, so that it comes off first (`Func.Preorder.run`).

Upwards, the way from an operation passes exactly the operations whose walk lists it, and of the
nodes among them the nearest is the innermost.  So either telling can be asked about the nesting
(`Func.blocks_and_parents_agree`).
-/
import Dataflow.Proofs.Bands
import Dataflow.Proofs.Edits
import Dataflow.Proofs.Precedence

namespace Dataflow
namespace Func

variable {f : Func}

/-! ## 1. Pre-order -/

/-- `f.Preorder block order`: the slots of the block, each followed by the pre-order of its body. -/
inductive Preorder (f : Func) : List OpId → List OpId → Prop
  | nil : f.Preorder [] []
  | cons {id : OpId} {op : Op} {block below after : List OpId} : f.ops[id]? = some op →
      f.Preorder op.body below → f.Preorder block after →
        f.Preorder (id :: block) (id :: below ++ after)

namespace Preorder

/-- **A block has one pre-order at most.** -/
theorem unique {block order order' : List OpId} (h : f.Preorder block order) :
    f.Preorder block order' → order = order' := by
  induction h generalizing order' with
  | nil =>
    intro h'
    cases h'
    rfl
  | cons hop _ _ ihbelow ihafter =>
    intro h'
    cases h' with
    | cons hop' hbelow' hafter' =>
      rw [hop] at hop'
      cases hop'
      rw [ihbelow hbelow', ihafter hafter']

theorem append {block block' order order' : List OpId} (h : f.Preorder block order)
    (h' : f.Preorder block' order') : f.Preorder (block ++ block') (order ++ order') := by
  induction h with
  | nil => exact h'
  | cons hop hbelow _ _ ihafter =>
    rw [List.append_assoc]
    exact .cons hop hbelow ihafter

/-- **What is nested in an operation is one piece of the text**, and starts with the operation. -/
theorem segment {block order : List OpId} {r : OpId} (h : f.Preorder block order) :
    r ∈ order → ∃ below, f.Preorder [r] (r :: below) ∧ (r :: below) <:+: order := by
  induction h with
  | nil => exact fun hr => by cases hr
  | @cons id op block below after hop hbelow _ ihbelow ihafter =>
    intro hr
    rw [List.mem_append, List.mem_cons] at hr
    rcases hr with (rfl | hr) | hr
    · have hself : f.Preorder [r] (r :: below ++ []) := .cons hop hbelow .nil
      rw [List.append_nil] at hself
      exact ⟨below, hself, (List.prefix_append _ after).isInfix⟩
    · obtain ⟨inner, hinner, hpiece⟩ := ihbelow hr
      have hcons : below <:+: id :: below := (List.suffix_cons id below).isInfix
      exact ⟨inner, hinner, hpiece.trans (hcons.trans (List.prefix_append _ after).isInfix)⟩
    · obtain ⟨inner, hinner, hpiece⟩ := ihafter hr
      exact ⟨inner, hinner, hpiece.trans (List.suffix_append _ after).isInfix⟩

end Preorder

/-! ## 2. The walks give it -/

/-- What walks list below the operations of a block is the pre-order of the block, if each walk
lists a pre-order. -/
theorem preorder_of_walks {levels : Nat} {block : List OpId} {parts : List (List (OpId × Op))}
    (hparts : List.Forall₂ (fun id part => f.nest levels id = .ok part) block parts)
    (hpart : ∀ id part, f.nest levels id = .ok part → f.Preorder [id] (part.map Prod.fst)) :
    f.Preorder block (parts.flatten.map Prod.fst) := by
  induction hparts with
  | nil => exact .nil
  | @cons id part block parts hnest _ ih =>
    rw [List.flatten_cons, List.map_append]
    exact (hpart id part hnest).append ih

theorem preorder_of_nest : ∀ {levels : Nat} (id : OpId) (es : List (OpId × Op)),
    f.nest levels id = .ok es → f.Preorder [id] (es.map Prod.fst)
  | 0, _, _, hes => by cases hes
  | levels + 1, id, es, hes => by
    obtain ⟨op, below, hop, hbelow, rfl⟩ := nest_eq_ok.mp hes
    have hself := Preorder.cons hop (preorder_of_walks hbelow preorder_of_nest) .nil
    rwa [List.append_nil] at hself

theorem preorder_of_walk {order : List OpId} (hwalk : f.walk = .ok order) :
    f.Preorder f.body order := by
  obtain ⟨es, hes, rfl⟩ := walk_eq_ok.mp hwalk
  obtain ⟨parts, hparts, rfl⟩ := entries_eq_ok.mp hes
  exact preorder_of_walks hparts preorder_of_nest

theorem preorder_of_walkFrom {id : OpId} {order : List OpId} (hwalk : f.walkFrom id = .ok order) :
    f.Preorder [id] order := by
  obtain ⟨es, hes, rfl⟩ := walkFrom_eq_ok.mp hwalk
  exact preorder_of_nest id es hes

/-- **The walk from an operation is a piece of the walk over the function.** -/
theorem Nested.walkFrom_segment (h : f.Nested) {order : List OpId} (hwalk : f.walk = .ok order)
    {r : OpId} (hr : f.Reaches r) :
    ∃ below, f.walkFrom r = .ok (r :: below) ∧ (r :: below) <:+: order := by
  obtain ⟨below, hbelow, hpiece⟩ :=
    (preorder_of_walk hwalk).segment ((h.mem_walk hwalk).mpr hr)
  obtain ⟨order', hwalk'⟩ := h.walkFrom_isOk hr
  rw [(preorder_of_walkFrom hwalk').unique hbelow] at hwalk'
  exact ⟨below, hwalk', hpiece⟩

end Func

/-! ## 3. Walking with a stack -/

/-- A walk under way: the slots that are still to be visited, the next one last, and those visited
so far, in order. -/
structure StackWalk where
  stack : List OpId
  visited : List OpId

namespace StackWalk

variable {f : Func}

/-- Visit the slot on top of the stack, and put its body there, the first operation on top. -/
def next? (f : Func) (w : StackWalk) : Option StackWalk := do
  let id ← w.stack.getLast?
  let op ← f.ops[id]?
  return ⟨w.stack.dropLast ++ op.body.reverse, w.visited ++ [id]⟩

/-- One step of the walk. -/
def Step (f : Func) (w w' : StackWalk) : Prop := w.next? f = some w'

theorem Step.rightUnique (f : Func) : Relator.RightUnique (Step f) := by
  intro w w₁ w₂ h₁ h₂
  rw [Step, h₁] at h₂
  exact Option.some.inj h₂

theorem step_top {id : OpId} {op : Op} (hop : f.ops[id]? = some op) (rest visited : List OpId) :
    Step f ⟨rest ++ [id], visited⟩ ⟨rest ++ op.body.reverse, visited ++ [id]⟩ := by
  simp [Step, next?, hop]

theorem not_step_of_empty {visited : List OpId} {w : StackWalk} : ¬ Step f ⟨[], visited⟩ w := by
  intro h
  cases h

end StackWalk

namespace Func

variable {f : Func}

/-- `f.Unwinds stack order`: a walk from the stack comes to its end, whatever it has come to, and
has then visited `order`. -/
def Unwinds (f : Func) (stack order : List OpId) : Prop :=
  ∀ w, Relation.ReflTransGen (StackWalk.Step f) ⟨stack, []⟩ w →
    Relation.ReflTransGen (StackWalk.Step f) w ⟨[], order⟩

/-- **A block on the stack comes off in pre-order**, and leaves what was below it. -/
theorem Preorder.run {block order : List OpId} (h : f.Preorder block order) :
    ∀ rest visited : List OpId, Relation.ReflTransGen (StackWalk.Step f)
      ⟨rest ++ block.reverse, visited⟩ ⟨rest, visited ++ order⟩ := by
  induction h with
  | nil =>
    intro rest visited
    rw [List.reverse_nil, List.append_nil, List.append_nil]
  | @cons id op block below after hop _ _ ihbelow ihafter =>
    -- The body is put on top of the rest of the block, so that is what lies below it.
    intro rest visited
    have htop := StackWalk.step_top hop (rest ++ block.reverse) visited
    have hbelow := ihbelow (rest ++ block.reverse) (visited ++ [id])
    have hafter := ihafter rest (visited ++ [id] ++ below)
    rw [List.reverse_cons, ← List.append_assoc]
    refine .head htop (hbelow.trans ?_)
    simpa only [List.append_assoc, List.cons_append, List.nil_append] using hafter

/-- The walk has no choice, so there is no other way to go. -/
theorem Preorder.unwinds {block order : List OpId} (h : f.Preorder block order) :
    f.Unwinds block.reverse order := by
  intro w hrun
  have hend := h.run [] []
  rw [List.nil_append, List.nil_append] at hend
  rcases hrun.total_of_right_unique (StackWalk.Step.rightUnique f) hend with hon | hback
  · exact hon
  · rcases hback.cases_head with rfl | ⟨w', hstep, -⟩
    · exact .refl
    · exact absurd hstep StackWalk.not_step_of_empty

/-! ## 4. Upwards -/

/-- `f.WalksOver a b`: the walk from `a` lists `b`. -/
def WalksOver (f : Func) (a b : OpId) : Prop := ∃ order, f.walkFrom a = .ok order ∧ b ∈ order

/-- `f.NodeOf a b`: a reached node other than `b` whose walk lists `b`. -/
structure NodeOf (f : Func) (a b : OpId) : Prop where
  reaches : f.Reaches a
  isNode : f.IsNode a
  ne : a ≠ b
  walksOver : f.WalksOver a b

/-- Every other node above an operation is above the nearest one. -/
theorem InNode.nearest {node a x : OpId} (h : f.InNode node x) (ha : f.IsNode a) (hne : a ≠ x)
    (hup : f.Above a x) : f.Above a node := by
  rw [InNode] at h
  generalize hstart : f.parentOf x = start at h
  induction h generalizing x with
  | here => exact hup.of_ne hne hstart
  | @up id _ op hop hkind _ ih =>
    refine ih ?_ (hup.of_ne hne hstart) (parentOf_eq hop)
    -- The search went on, so the parent is no node.
    rintro rfl
    obtain ⟨op', hop', hkind'⟩ := ha
    rw [hop] at hop'
    cases hop'
    rw [hkind] at hkind'
    cases hkind'

namespace Nested

theorem walksOver_iff (h : f.Nested) {a b : OpId} (ha : f.Reaches a) (hb : f.Reaches b) :
    f.WalksOver a b ↔ f.Above a b := by
  obtain ⟨order, hwalk⟩ := h.walkFrom_isOk ha
  constructor
  · rintro ⟨order', hwalk', hmem⟩
    exact ((h.mem_walkFrom ha hwalk').mp hmem).2
  · exact fun hup => ⟨order, hwalk, (h.mem_walkFrom ha hwalk).mpr ⟨hb, hup⟩⟩

theorem nodeOf_iff (h : f.Nested) {a b : OpId} (hb : f.Reaches b) :
    f.NodeOf a b ↔ f.IsNode a ∧ a ≠ b ∧ f.Above a b := by
  constructor
  · rintro ⟨ha, hnode, hne, hover⟩
    exact ⟨hnode, hne, (h.walksOver_iff ha hb).mp hover⟩
  · rintro ⟨hnode, hne, hup⟩
    have ha := h.reaches_of_above hup hb
    exact ⟨ha, hnode, hne, (h.walksOver_iff ha hb).mpr hup⟩

/-- **The node that the way up finds is the innermost** of those whose walk lists the operation. -/
theorem nodeOf_nodeAround (h : f.Nested) {node b : OpId} (hb : f.Reaches b)
    (haround : f.nodeAround b = .ok (some node)) :
    f.NodeOf node b ∧ ∀ a, f.NodeOf a b → a = node ∨ f.NodeOf a node := by
  have hin : f.InNode node b := inNode_of_nodeAround haround
  have hnode : f.Reaches node := h.reaches_of_above hin.above.1 hb
  refine ⟨(h.nodeOf_iff hb).mpr ⟨hin.above.2, ?_, hin.above.1⟩, fun a ha => ?_⟩
  · rintro rfl
    exact h.not_transGen_self hnode hin.transGen
  · obtain ⟨hisNode, hne, hup⟩ := (h.nodeOf_iff hb).mp ha
    by_cases heq : a = node
    · exact .inl heq
    · exact .inr ((h.nodeOf_iff hnode).mpr ⟨hisNode, heq, hin.nearest hisNode hne hup⟩)

/-- ...and where it finds none, there is none. -/
theorem not_nodeOf (h : f.Nested) {a b : OpId} (hb : f.Reaches b)
    (haround : f.nodeAround b = .ok none) : ¬ f.NodeOf a b := by
  intro ha
  obtain ⟨hnode, hne, hup⟩ := (h.nodeOf_iff hb).mp ha
  obtain ⟨nearest, hin⟩ := h.exists_inNode hb hup hne hnode
  rw [(h.nodeAround_eq_some_iff hb).mpr hin] at haround
  cases haround

end Nested

/-- **Blocks and parent links describe one tree.**  On a function in order the walk ends.  What it
gives is the pre-order of the blocks, and the only one; walking with a stack gives the same; and it
lists the reached operations, each once.  The walk from a reached operation ends too, starts there,
and is a piece of the whole.  One reached operation encloses another exactly if its walk lists it.
The node around a reached operation is the innermost of the reached nodes, other than the operation,
whose walk lists it; there is none exactly if no such node exists. -/
theorem blocks_and_parents_agree {f : Func} (hf : f.verify = .ok ()) :
    ∃ order, f.walk = .ok order
      ∧ ((∀ order', f.Preorder f.body order' ↔ order' = order) ∧ f.Unwinds f.body.reverse order)
      ∧ (order.Nodup ∧ ∀ id, id ∈ order ↔ f.Reaches id)
      ∧ (∀ r, f.Reaches r → ∃ below, f.walkFrom r = .ok (r :: below) ∧ f.Unwinds [r] (r :: below)
          ∧ (r :: below) <:+: order)
      ∧ (∀ a b, f.Reaches a → f.Reaches b → ∃ answer, f.encloses a b = .ok answer
          ∧ (answer = true ↔ f.WalksOver a b))
      ∧ ∀ b, f.Reaches b → ∃ node?, f.nodeAround b = .ok node?
          ∧ (node? = none ↔ ∀ a, ¬ f.NodeOf a b)
          ∧ ∀ node, node? = some node →
              f.NodeOf node b ∧ ∀ a, f.NodeOf a b → a = node ∨ f.NodeOf a node := by
  have h := (verify_eq_ok_iff_tidy.mp hf).toNested
  obtain ⟨order, hwalk⟩ := h.walk_isOk
  have hpre : f.Preorder f.body order := preorder_of_walk hwalk
  refine ⟨order, hwalk, ⟨fun order' => ⟨fun h' => h'.unique hpre, ?_⟩, hpre.unwinds⟩,
    ⟨h.nodup_walk hwalk, fun id => h.mem_walk hwalk⟩, fun r hr => ?_, fun a b ha hb => ?_,
    fun b hb => ?_⟩
  · rintro rfl
    exact hpre
  · obtain ⟨below, hbelow, hpiece⟩ := h.walkFrom_segment hwalk hr
    exact ⟨below, hbelow, (preorder_of_walkFrom hbelow).unwinds, hpiece⟩
  · obtain ⟨answer, hanswer⟩ := h.encloses_isOk a b hb
    exact ⟨answer, hanswer, (encloses_eq_ok hanswer).trans (h.walksOver_iff ha hb).symm⟩
  · obtain ⟨node?, haround⟩ := h.nodeAround_isOk hb
    refine ⟨node?, haround, ⟨?_, fun hnone => ?_⟩, ?_⟩
    · rintro rfl a
      exact h.not_nodeOf hb haround
    · cases node? with
      | none => rfl
      | some node => exact absurd (h.nodeOf_nodeAround hb haround).1 (hnone node)
    · rintro node rfl
      exact h.nodeOf_nodeAround hb haround

/-- A node in a node, with the slots out of order, and an erased node that still lists the loop of
the inner one. -/
def shuffledNest : Func where
  name := "f"
  arguments := []
  body := [4, 0]
  ops := #[
    fresh none 0 (.compute ⟨"last", [], [], []⟩),
    { fresh (some 4) 1 (.schedule { name := "s", increase := none, decrease := none }) with
      body := [5] },
    fresh (some 4) 2 (.compute ⟨"first", [], [], []⟩),
    fresh (some 5) 3 (.loop (.plain "i" 0 (some 4) 1)),
    { fresh none 4 (.node "outer") with body := [2, 1] },
    { fresh (some 1) 5 (.node "inner") with body := [3] },
    { fresh none 6 (.node "gone") with body := [3], erased := true }]
  values := #[]

/-- The loop is in both nodes, and the inner one is around it.  The walk from the erased node lists
the loop as well, but that node is not reached. -/
theorem blocks_and_parents_shuffledNest : shuffledNest.verify = .ok ()
    ∧ shuffledNest.walk = .ok [4, 2, 1, 5, 3, 0]
    ∧ shuffledNest.Unwinds [0, 4] [4, 2, 1, 5, 3, 0]
    ∧ (shuffledNest.walkFrom 1 = .ok [1, 5, 3] ∧ shuffledNest.WalksOver 4 3)
    ∧ (shuffledNest.nodeAround 3 = .ok (some 5) ∧ shuffledNest.NodeOf 5 3
      ∧ shuffledNest.NodeOf 4 3 ∧ shuffledNest.NodeOf 4 5)
    ∧ shuffledNest.WalksOver 6 3 ∧ shuffledNest.encloses 6 3 = .ok false := by
  have hverify : shuffledNest.verify = .ok () := by decide
  have houter : shuffledNest.Reaches 4 := .top (by decide)
  have hinner : shuffledNest.Reaches 5 := .nested (.nested houter (by decide : 1 ∈ _)) (by decide)
  have hloop : shuffledNest.Reaches 3 := .nested hinner (by decide)
  have hlisted : shuffledNest.walk = .ok [4, 2, 1, 5, 3, 0] := rfl
  obtain ⟨order, hwalk, ⟨-, hunwinds⟩, -, -, hencloses, hnode⟩ := blocks_and_parents_agree hverify
  cases hlisted.symm.trans hwalk
  obtain ⟨answer, hanswer, hiff⟩ := hencloses 4 3 houter hloop
  cases (rfl : shuffledNest.encloses 4 3 = .ok true).symm.trans hanswer
  obtain ⟨node?, haround, -, hinnermost⟩ := hnode 3 hloop
  cases (rfl : shuffledNest.nodeAround 3 = .ok (some 5)).symm.trans haround
  have hover : shuffledNest.NodeOf 4 3 := ⟨houter, ⟨_, rfl, rfl⟩, by decide, hiff.mp rfl⟩
  obtain ⟨hself, hothers⟩ := hinnermost 5 rfl
  exact ⟨hverify, hlisted, hunwinds, ⟨rfl, hiff.mp rfl⟩,
    ⟨rfl, hself, hover, (hothers 4 hover).resolve_left (by decide)⟩, ⟨_, rfl, by decide⟩, rfl⟩

end Func
end Dataflow
