/-
# Edits of the table of operations

The changes that passes make to a function are of two forms: entries of the table of operations
change in place (`Func.edit`), and new entries join at its end (`Func.grow`).  Each primitive
change is one of the two, and so is a fold of in-place changes (`Func.foldlM_modifyOp`); what a
pass leaves can then be read off entry by entry.
-/
import Dataflow.Band.Tile
import Dataflow.Band.Unroll
import Dataflow.Proofs.Computations
import Dataflow.Proofs.WellFormed

namespace Dataflow

/-! ## 1. Loops change in place -/

/-- A loop changed, or nothing. -/
def changeLoop (change? : Option (Loop → Loop)) (k : Kind) : Kind :=
  match change? with
  | some change => k.mapLoop change
  | none => k

variable (change? : Option (Loop → Loop))

theorem changeLoop_loop (l : Loop) : changeLoop change? (.loop l) = .loop (change?.getD id l) := by
  cases change? <;> rfl

@[simp] theorem operands_changeLoop (k : Kind) : (changeLoop change? k).operands = k.operands := by
  cases change? <;> cases k <;> rfl

@[simp] theorem result?_changeLoop (k : Kind) : (changeLoop change? k).result? = k.result? := by
  cases change? <;> cases k <;> rfl

@[simp] theorem compute?_changeLoop (k : Kind) : (changeLoop change? k).compute? = k.compute? := by
  cases change? <;> cases k <;> rfl

@[simp] theorem isNode_changeLoop (k : Kind) : (changeLoop change? k).isNode = k.isNode := by
  cases change? <;> cases k <;> rfl

variable {change?}

theorem of_changeLoop_eq_loop {k : Kind} {l' : Loop} (h : changeLoop change? k = .loop l') :
    ∃ l, k = .loop l ∧ l' = change?.getD id l := by
  cases k with
  | loop l =>
    rw [changeLoop_loop] at h
    exact ⟨l, rfl, (Kind.loop.inj h).symm⟩
  | _ => cases change? <;> cases h

theorem of_changeLoop_eq_compute {k : Kind} {c : Compute} (h : changeLoop change? k = .compute c) :
    k = .compute c := by
  have hcompute := compute?_changeLoop change? k
  rw [h] at hcompute
  exact Kind.eq_compute_of_compute? hcompute.symm

namespace Func

variable {f g : Func}

/-! ## 2. Entries change in place -/

/-- Every entry of the table of operations changed by its slot. -/
def edit (f : Func) (change : OpId → Op → Op) : Func := { f with ops := f.ops.mapIdx change }

/-- The change of a single entry. -/
def changeAt (id : OpId) (change : Op → Op) : OpId → Op → Op :=
  fun i op => if i = id then change op else op

@[simp] theorem changeAt_self (id : OpId) (change : Op → Op) (op : Op) :
    changeAt id change id op = change op := if_pos rfl

theorem changeAt_of_ne {id i : OpId} (h : i ≠ id) (change : Op → Op) (op : Op) :
    changeAt id change i op = op := if_neg h

@[simp] theorem getElem?_ops_edit (f : Func) (change : OpId → Op → Op) (i : Nat) :
    (f.edit change).ops[i]? = f.ops[i]?.map (change i) := by simp [edit]

@[simp] theorem size_ops_edit (f : Func) (change : OpId → Op → Op) :
    (f.edit change).ops.size = f.ops.size := by simp [edit]

@[simp] theorem body_edit (f : Func) (change : OpId → Op → Op) :
    (f.edit change).body = f.body := rfl

theorem ext_ops (hname : g.name = f.name) (harguments : g.arguments = f.arguments)
    (hbody : g.body = f.body) (hvalues : g.values = f.values)
    (hops : ∀ i : Nat, g.ops[i]? = f.ops[i]?) : g = f := by
  have : g.ops = f.ops := Array.ext_getElem? fun i => hops i
  cases f
  cases g
  simp_all

/-- One change after another is one change. -/
theorem edit_edit (f : Func) (first second : OpId → Op → Op) :
    (f.edit first).edit second = f.edit fun i op => second i (first i op) := by
  refine ext_ops rfl rfl rfl rfl fun i => ?_
  simp [Function.comp_def]

theorem edit_id (f : Func) : (f.edit fun _ op => op) = f := by
  refine ext_ops rfl rfl rfl rfl fun i => ?_
  simp

theorem modifyOp_eq_ok {id : OpId} {change : Op → Op} :
    f.modifyOp id change = .ok g ↔ id < f.ops.size ∧ g = f.edit (changeAt id change) := by
  have hmodify : ({ f with ops := f.ops.modify id change } : Func) =
      f.edit (changeAt id change) := by
    refine ext_ops rfl rfl rfl rfl fun i => ?_
    rw [getElem?_ops_edit, Array.getElem?_modify]
    by_cases hi : i = id
    · subst hi
      cases f.ops[i]? <;> simp
    · have hi' : ¬ id = i := fun h => hi h.symm
      cases f.ops[i]? <;> simp [hi', changeAt_of_ne hi]
  unfold modifyOp
  split
  · rename_i hlt
    rw [hmodify, Except.ok.injEq]
    exact ⟨fun h => ⟨hlt, h.symm⟩, fun h => h.2.symm⟩
  · rename_i hlt
    simp [hlt]

theorem modifyOps_eq (f : Func) (ids : List OpId) (change : Op → Op) :
    f.modifyOps ids change = f.edit fun i op => if i ∈ ids then change op else op := by
  simp only [modifyOps, edit, List.contains_iff_mem]

/-- **A fold of in-place changes.**  Each entry goes through the changes of its own slot, in
order. -/
theorem foldlM_modifyOp {α : Type} (slot : α → OpId) (change : α → Op → Op) :
    ∀ {l : List α} {f g : Func}, l.foldlM (fun f a => f.modifyOp (slot a) (change a)) f = .ok g →
      g = f.edit fun i op => l.foldl (fun op a => changeAt (slot a) (change a) i op) op
  | [], f, g, h => by
    cases h
    exact (edit_id f).symm
  | a :: l, f, g, h => by
    rw [List.foldlM_cons] at h
    obtain ⟨f', hf', h⟩ := Checked.bind_eq_ok.mp h
    obtain ⟨-, rfl⟩ := modifyOp_eq_ok.mp hf'
    rw [foldlM_modifyOp slot change h, edit_edit]
    rfl

section View

variable {β : Type} {view : Op → β}

theorem map_ops_edit {change : OpId → Op → Op} (h : ∀ i op, view (change i op) = view op)
    (f : Func) (i : OpId) : (f.edit change).ops[i]?.map view = f.ops[i]?.map view := by
  rw [getElem?_ops_edit, Option.map_map]
  exact Option.map_congr fun op _ => h i op

theorem map_ops_modifyOp {id : OpId} {change : Op → Op} (h : f.modifyOp id change = .ok g)
    (hview : ∀ op, view (change op) = view op) (i : OpId) :
    g.ops[i]?.map view = f.ops[i]?.map view := by
  obtain ⟨-, rfl⟩ := modifyOp_eq_ok.mp h
  refine map_ops_edit (fun i op => ?_) f i
  unfold changeAt
  split
  · exact hview op
  · rfl

/-- A fold of in-place changes keeps what each of them keeps. -/
theorem map_ops_foldlM {α : Type} (slot : α → OpId) (change : α → Op → Op) :
    ∀ {l : List α} {f g : Func}, l.foldlM (fun f a => f.modifyOp (slot a) (change a)) f = .ok g →
      (∀ a op, view (change a op) = view op) →
        ∀ i : OpId, g.ops[i]?.map view = f.ops[i]?.map view
  | [], f, g, h, _, i => by
    cases h
    rfl
  | a :: l, f, g, h, hview, i => by
    rw [List.foldlM_cons] at h
    obtain ⟨f', hf', h⟩ := Checked.bind_eq_ok.mp h
    rw [map_ops_foldlM slot change h hview, map_ops_modifyOp hf' (hview a)]

/-- Tables that agree in every slot are equally long. -/
theorem size_eq_of_map_ops (h : ∀ i : OpId, g.ops[i]?.map view = f.ops[i]?.map view) :
    g.ops.size = f.ops.size := by
  have hg := h g.ops.size
  have hf := h f.ops.size
  rw [Array.getElem?_size, Option.map_none, eq_comm, Option.map_eq_none_iff,
    Array.getElem?_eq_none_iff] at hg
  rw [Array.getElem?_size, Option.map_none, Option.map_eq_none_iff,
    Array.getElem?_eq_none_iff] at hf
  exact Nat.le_antisymm hf hg

end View

theorem foldlM_modifyOp_isOk {α : Type} (slot : α → OpId) (change : α → Op → Op) :
    ∀ {l : List α} {f : Func}, (∀ a ∈ l, slot a < f.ops.size) →
      ∃ g, l.foldlM (fun f a => f.modifyOp (slot a) (change a)) f = .ok g
  | [], f, _ => ⟨f, rfl⟩
  | a :: l, f, hlt => by
    obtain ⟨ha, hlt⟩ := List.forall_mem_cons.mp hlt
    have hlt' : ∀ b ∈ l, slot b < (f.edit (changeAt (slot a) (change a))).ops.size := by
      intro b hb
      rw [size_ops_edit]
      exact hlt b hb
    obtain ⟨g, hg⟩ := foldlM_modifyOp_isOk slot change hlt'
    exact ⟨g, Checked.bind_eq_ok.mpr ⟨_, modifyOp_eq_ok.mpr ⟨ha, rfl⟩, hg⟩⟩

/-- Of changes of distinct slots an entry goes through one at most. -/
theorem foldl_changeAt {α : Type} (slot : α → OpId) (change : α → Op → Op) (i : OpId) :
    ∀ {l : List α} (op : Op), (l.map slot).Nodup →
      l.foldl (fun op a => changeAt (slot a) (change a) i op) op
        = ((l.find? fun a => slot a == i).map fun a => change a op).getD op
  | [], op, _ => rfl
  | a :: l, op, hnd => by
    rw [List.map_cons, List.nodup_cons] at hnd
    rw [List.foldl_cons, foldl_changeAt slot change i _ hnd.2, List.find?_cons]
    by_cases hi : i = slot a
    · subst hi
      have hnone : (l.find? fun b => slot b == slot a) = none := by
        rw [List.find?_eq_none]
        intro b hb hba
        rw [beq_iff_eq] at hba
        exact hnd.1 (List.mem_map.mpr ⟨b, hb, hba⟩)
      simp [hnone]
    · have hi' : (slot a == i) = false := beq_false_of_ne fun h => hi h.symm
      simp [hi', changeAt_of_ne hi]

/-! ## 3. New entries join -/

/-- Entries joined to the end of the table of operations. -/
def grow (f : Func) (new : List Op) : Func := { f with ops := f.ops ++ new.toArray }

/-- An entry as it is allocated. -/
def fresh (parent : Option OpId) (id : OpId) (kind : Kind) : Op :=
  { id, kind, parent, body := [], erased := false }

@[simp] theorem size_ops_grow (f : Func) (new : List Op) :
    (f.grow new).ops.size = f.ops.size + new.length := by simp [grow]

theorem getElem?_ops_grow_of_lt (new : List Op) {i : Nat} (hi : i < f.ops.size) :
    (f.grow new).ops[i]? = f.ops[i]? := by
  simp [grow, Array.getElem?_append_left hi]

/-- An entry that was there stays. -/
theorem getElem?_ops_grow_of_some (new : List Op) {i : Nat} {op : Op} (h : f.ops[i]? = some op) :
    (f.grow new).ops[i]? = some op := by
  rw [getElem?_ops_grow_of_lt new (Array.getElem?_eq_some_iff.mp h).1, h]

theorem getElem?_ops_grow_of_le (new : List Op) {i : Nat} (hi : f.ops.size ≤ i) :
    (f.grow new).ops[i]? = new[i - f.ops.size]? := by
  simp [grow, Array.getElem?_append_right hi]

theorem grow_nil (f : Func) : f.grow [] = f := by simp [grow]

theorem grow_grow (f : Func) (first second : List Op) :
    (f.grow first).grow second = f.grow (first ++ second) := by
  simp [grow]

/-! ## 4. What carries over to a changed table -/

theorem lt_size_of_some {id : OpId} {op : Op} (h : f.ops[id]? = some op) : id < f.ops.size :=
  (Array.getElem?_eq_some_iff.mp h).1

theorem exists_op_of_lt {id : OpId} (h : id < f.ops.size) : ∃ op, f.ops[id]? = some op :=
  ⟨f.ops[id], Array.getElem?_eq_getElem h⟩

theorem Nested.lt_size (h : f.Nested) {id : OpId} (hid : f.Reaches id) : id < f.ops.size := by
  obtain ⟨op, hop, -⟩ := h.live id hid
  exact lt_size_of_some hop

/-- Two functions with the same blocks and parent links, and the same operations alive. -/
structure SameNesting (f g : Func) : Prop where
  body : g.body = f.body
  parentOf : ∀ id, g.parentOf id = f.parentOf id
  bodyOf : ∀ id, g.bodyOf id = f.bodyOf id
  isLive : ∀ id, g.IsLive id ↔ f.IsLive id

namespace SameNesting

theorem symm (h : f.SameNesting g) : g.SameNesting f where
  body := h.body.symm
  parentOf := fun id => (h.parentOf id).symm
  bodyOf := fun id => (h.bodyOf id).symm
  isLive := fun id => (h.isLive id).symm

theorem reaches (h : f.SameNesting g) {id : OpId} (hid : f.Reaches id) : g.Reaches id := by
  induction hid with
  | top hid => exact .top (h.body ▸ hid)
  | nested _ hid ih => exact .nested ih (h.bodyOf _ ▸ hid)

theorem reaches_iff (h : f.SameNesting g) {id : OpId} : g.Reaches id ↔ f.Reaches id :=
  ⟨h.symm.reaches, h.reaches⟩

theorem above_iff (h : f.SameNesting g) {a id : OpId} : g.Above a id ↔ f.Above a id := by
  have heq : g.IsParent = f.IsParent := by
    funext parent id
    rw [IsParent, IsParent, h.parentOf]
  rw [Above, Above, heq]

theorem nested (h : f.SameNesting g) (hf : f.Nested) : g.Nested where
  nodup_body := h.body ▸ hf.nodup_body
  parentOf_top := fun id hid => by
    rw [h.parentOf]
    exact hf.parentOf_top id (h.body ▸ hid)
  nodup_bodyOf := fun owner howner => by
    rw [h.bodyOf]
    exact hf.nodup_bodyOf owner (h.reaches_iff.mp howner)
  parentOf_nested := fun owner howner id hid => by
    rw [h.parentOf]
    exact hf.parentOf_nested owner (h.reaches_iff.mp howner) id (h.bodyOf owner ▸ hid)
  live := fun id hid => (h.isLive id).mpr (hf.live id (h.reaches_iff.mp hid))

end SameNesting

/-- An edit that only changes what operations are leaves the nesting as it is. -/
theorem sameNesting_edit {change : OpId → Op → Op}
    (hparent : ∀ id op, (change id op).parent = op.parent)
    (hbody : ∀ id op, (change id op).body = op.body)
    (herased : ∀ id op, (change id op).erased = op.erased) : f.SameNesting (f.edit change) where
  body := rfl
  parentOf := fun id => by
    unfold Func.parentOf
    rw [getElem?_ops_edit]
    cases f.ops[id]? <;> simp [hparent]
  bodyOf := fun id => by
    unfold Func.bodyOf
    rw [getElem?_ops_edit]
    cases f.ops[id]? <;> simp [hbody]
  isLive := fun id => by
    unfold Func.IsLive
    rw [getElem?_ops_edit]
    cases f.ops[id]? <;> simp [herased]

/-- The tables still agree when operations keep their results and new entries know their slots. -/
theorem TablesAgree.transfer (h : f.TablesAgree) (hvalues : g.values = f.values)
    (harguments : g.arguments = f.arguments)
    (hslots : ∀ (i : Nat) (op : Op), g.ops[i]? = some op → op.id = i)
    (hresults : ∀ (i : Nat) (op : Op), f.ops[i]? = some op →
      ∃ op', g.ops[i]? = some op' ∧ op'.kind.result? = op.kind.result?) : g.TablesAgree where
  opSlots := hslots
  valueSlots := by
    rw [hvalues]
    exact h.valueSlots
  definitions := by
    rw [hvalues]
    intro i v hv
    have hbacks := h.definitions i v hv
    cases hdef : v.definition with
    | argument position =>
      rw [hdef] at hbacks
      rw [Backs, harguments]
      exact hbacks
    | op d =>
      rw [hdef] at hbacks
      obtain ⟨op, hop, hres⟩ := hbacks
      obtain ⟨op', hop', hres'⟩ := hresults d op hop
      exact ⟨op', hop', hres'.trans hres⟩
  arguments := by
    rw [hvalues, harguments]
    exact h.arguments

theorem Usable.transfer {v : ValueId} (h : f.Usable v) (hvalues : g.values = f.values)
    (hlive : ∀ d, f.IsLive d → g.IsLive d) : g.Usable v := by
  obtain ⟨value, hv, hdef⟩ := h
  exact ⟨value, hvalues ▸ hv, fun d hd => hlive d (hdef d hd)⟩

/-- What an operation mentions carries over when it keeps its operands and its result, as far as
loops are not concerned. -/
theorem Mentions.transfer {around around' : OpId → Prop} {id : OpId} {op op' : Op}
    (h : f.Mentions around id op) (hvalues : g.values = f.values)
    (hlive : ∀ d, f.IsLive d → g.IsLive d) (hoperands : op'.kind.operands = op.kind.operands)
    (hresult : op'.kind.result? = op.kind.result?)
    (hloop : ∀ l, op'.kind = .loop l → 0 < l.step ∧ ∀ tile, l.pointOf = some tile → g.IsLoop tile)
    (hcompute : ∀ c, op'.kind = .compute c → ∀ l ∈ c.loops, g.IsLoop l ∧ around' l) :
    g.Mentions around' id op' where
  uses := by
    rw [hoperands, hresult]
    exact fun v hv => (h.uses v hv).transfer hvalues hlive
  result := by
    rw [hresult, hvalues]
    exact h.result
  loop := hloop
  compute := hcompute

end Func
end Dataflow
