/-
# Well-formed functions

`Func.WellFormed` says what a function in order is, without a word about how it is checked:
the tables agree with each other, and every operation that the blocks reach stands in exactly
one place, knows its owner, and mentions only what it may.

`Func.Tidy` says the same in the form that proofs about edits need: each block lists distinct
slots, each operation of a block has the block's owner as its parent, and loops are looked for
along parent links.  The two agree (`Func.wellFormed_iff_tidy`), and the check accepts exactly
the functions in order (`Func.inspect_eq_none_iff`).
-/
import Mathlib.Data.List.Nodup
import Mathlib.Logic.Relation
import Dataflow.Func.Verify

namespace Dataflow
namespace Func

/-! ## 1. Reaching, listing, surrounding -/

/-- `f.Reaches id`: the slot is listed in the top-level block, or in the body of an operation
whose slot is reached. -/
inductive Reaches (f : Func) : OpId → Prop
  | top {id : OpId} : id ∈ f.body → f.Reaches id
  | nested {owner id : OpId} : f.Reaches owner → id ∈ f.bodyOf owner → f.Reaches id

/-- A place of a slot: the owner of the block and the position in it.  Only blocks that are
reached have places. -/
def Lists (f : Func) : Option OpId × Nat → OpId → Prop
  | (none, position), id => f.body[position]? = some id
  | (some owner, position), id => f.Reaches owner ∧ (f.bodyOf owner)[position]? = some id

/-- `f.Holds owner id`: the slot is listed in the body of a reached operation. -/
def Holds (f : Func) (owner id : OpId) : Prop := f.Reaches owner ∧ id ∈ f.bodyOf owner

/-- `f.Surrounds a id`: the slot is nested in `a`, at whatever depth. -/
def Surrounds (f : Func) : OpId → OpId → Prop := Relation.TransGen f.Holds

/-- What the operation in a slot is. -/
def kindOf (f : Func) (id : OpId) : Option Kind := f.ops[id]?.map Op.kind

/-- The slot holds a loop. -/
def IsLoop (f : Func) (id : OpId) : Prop := ∃ l, f.kindOf id = some (.loop l)

/-- The slot holds an operation that is not erased. -/
def IsLive (f : Func) (id : OpId) : Prop := ∃ op, f.ops[id]? = some op ∧ op.erased = false

/-! ## 2. What a function in order is -/

/-- `f.Backs definition v`: the place where `v` says it comes from says so too. -/
def Backs (f : Func) : Definition → ValueId → Prop
  | .argument position, v => f.arguments[position]? = some v
  | .op d, v => ∃ op, f.ops[d]? = some op ∧ op.kind.result? = some v

/-- The tables agree: every entry is in its own slot, and values, arguments and defining
operations name each other. -/
structure TablesAgree (f : Func) : Prop where
  opSlots : ∀ (i : Nat) (op : Op), f.ops[i]? = some op → op.id = i
  valueSlots : ∀ (i : Nat) (v : Value), f.values[i]? = some v → v.id = i
  definitions : ∀ (i : Nat) (v : Value), f.values[i]? = some v → f.Backs v.definition i
  arguments : ∀ (position : Nat) (v : ValueId), f.arguments[position]? = some v →
    ∃ value, f.values[v]? = some value ∧ value.definition = .argument position

/-- The value exists, and is no result of an erased operation. -/
def Usable (f : Func) (v : ValueId) : Prop :=
  ∃ value, f.values[v]? = some value ∧ ∀ d, value.definition = .op d → f.IsLive d

/-- What an operation mentions, its place in the nesting apart.  `around l` is to say that the
loop `l` is around the operation. -/
structure Mentions (f : Func) (around : OpId → Prop) (id : OpId) (op : Op) : Prop where
  /-- Operands and results are usable. -/
  uses : ∀ v ∈ op.kind.operands ++ op.kind.result?.toList, f.Usable v
  /-- The result names the operation as its definition. -/
  result : ∀ v, op.kind.result? = some v →
    ∃ value, f.values[v]? = some value ∧ value.definition = .op id
  /-- A loop advances, and the tile loop of a point loop is a loop. -/
  loop : ∀ l, op.kind = .loop l → 0 < l.step ∧ ∀ tile, l.pointOf = some tile → f.IsLoop tile
  /-- A compute mentions loops around it only. -/
  compute : ∀ c, op.kind = .compute c → ∀ l ∈ c.loops, f.IsLoop l ∧ around l

/-- **A function in order.** -/
structure WellFormed (f : Func) : Prop extends f.TablesAgree where
  /-- Every slot that is reached holds an operation. -/
  exists_op : ∀ id, f.Reaches id → ∃ op, f.ops[id]? = some op
  /-- It is listed exactly once. -/
  listed_once : ∀ id, f.Reaches id → ∃! place, f.Lists place id
  /-- The parent link names the owner of the block that lists it. -/
  owned : ∀ id op owner position, f.ops[id]? = some op → f.Lists (owner, position) id →
    op.parent = owner
  live : ∀ id op, f.Reaches id → f.ops[id]? = some op → op.erased = false
  mentions : ∀ id op, f.Reaches id → f.ops[id]? = some op → f.Mentions (f.Surrounds · id) id op

/-! ## 3. The same, along parent links -/

/-- `f.IsParent parent id`: the parent link of the operation in slot `id`. -/
def IsParent (f : Func) (parent id : OpId) : Prop := f.parentOf id = some parent

/-- `f.Above a id`: following parent links up from `id`, `id` included, leads to `a`. -/
def Above (f : Func) : OpId → OpId → Prop := Relation.ReflTransGen f.IsParent

/-- Blocks and parent links describe one forest: each block lists distinct slots, and a listed
slot holds a live operation whose parent is the owner of the block. -/
structure Nested (f : Func) : Prop where
  nodup_body : f.body.Nodup
  parentOf_top : ∀ id ∈ f.body, f.parentOf id = none
  nodup_bodyOf : ∀ owner, f.Reaches owner → (f.bodyOf owner).Nodup
  parentOf_nested : ∀ owner, f.Reaches owner → ∀ id ∈ f.bodyOf owner, f.parentOf id = some owner
  live : ∀ id, f.Reaches id → f.IsLive id

/-- A function in order, said along parent links. -/
structure Tidy (f : Func) : Prop extends f.TablesAgree, f.Nested where
  mentions : ∀ id op, f.Reaches id → f.ops[id]? = some op → f.Mentions (f.Above · id) id op

theorem parentOf_eq {f : Func} {id : OpId} {op : Op} (h : f.ops[id]? = some op) :
    f.parentOf id = op.parent := by simp [parentOf, h]

theorem bodyOf_eq {f : Func} {id : OpId} {op : Op} (h : f.ops[id]? = some op) :
    f.bodyOf id = op.body := by simp [bodyOf, h]

theorem kindOf_eq {f : Func} {id : OpId} {op : Op} (h : f.ops[id]? = some op) :
    f.kindOf id = some op.kind := by simp [kindOf, h]

theorem kind_eq_ok {f : Func} {id : OpId} {k : Kind} :
    f.kind id = .ok k ↔ f.kindOf id = some k := by
  simp only [kind, kindOf, Checked.bind_eq_ok, op_eq_ok_iff, Option.map_eq_some_iff,
    Checked.pure_eq_ok, Except.ok.injEq]

theorem loop?_eq_ok {f : Func} {id : OpId} {l? : Option Loop} :
    f.loop? id = .ok l? ↔ ∃ k, f.kindOf id = some k ∧ k.loop? = l? := by
  simp only [loop?, Checked.bind_eq_ok, kind_eq_ok, Checked.pure_eq_ok, Except.ok.injEq]

/-- An operation that defines no value names itself. -/
theorem label_isOk {f : Func} {id : OpId} {k : Kind} (hk : f.kindOf id = some k)
    (hresult : k.result? = none) : ∃ text, f.label id = .ok text := by
  obtain ⟨op, hop, rfl⟩ := Option.map_eq_some_iff.mp hk
  rw [label, op_eq_ok_iff.mpr hop, Checked.ok_bind]
  cases hkind : op.kind with
  | buffer result init => simp [hkind, Kind.result?] at hresult
  | view source result => simp [hkind, Kind.result?] at hresult
  | _ => exact ⟨_, rfl⟩

/-- The block of an owner. -/
def blockOf (f : Func) : Option OpId → List OpId
  | none => f.body
  | some owner => f.bodyOf owner

/-- A reached slot is listed somewhere. -/
theorem Reaches.listed {f : Func} {id : OpId} (h : f.Reaches id) : ∃ place, f.Lists place id := by
  cases h with
  | top hid =>
    obtain ⟨position, hpos⟩ := List.mem_iff_getElem?.mp hid
    exact ⟨(none, position), hpos⟩
  | @nested owner _ howner hid =>
    obtain ⟨position, hpos⟩ := List.mem_iff_getElem?.mp hid
    exact ⟨(some owner, position), howner, hpos⟩

/-- ...and a listed slot is reached. -/
theorem Lists.reaches {f : Func} {owner : Option OpId} {position : Nat} {id : OpId}
    (h : f.Lists (owner, position) id) : f.Reaches id := by
  cases owner with
  | none => exact .top (List.mem_of_getElem? h)
  | some owner => exact .nested h.1 (List.mem_of_getElem? h.2)

theorem Lists.getElem?_blockOf {f : Func} {owner : Option OpId} {position : Nat} {id : OpId}
    (h : f.Lists (owner, position) id) : (f.blockOf owner)[position]? = some id := by
  cases owner with
  | none => exact h
  | some owner => exact h.2

namespace Nested

variable {f : Func}

/-- Where blocks and parent links agree, a place tells the parent. -/
theorem parentOf_listed (h : f.Nested) {owner : Option OpId} {position : Nat} {id : OpId}
    (hl : f.Lists (owner, position) id) : f.parentOf id = owner := by
  cases owner with
  | none => exact h.parentOf_top id (List.mem_of_getElem? hl)
  | some owner => exact h.parentOf_nested owner hl.1 id (List.mem_of_getElem? hl.2)

/-- ...and the parent of a reached operation holds it. -/
theorem holds_of_isParent (h : f.Nested) {parent id : OpId} (hid : f.Reaches id)
    (hp : f.IsParent parent id) : f.Holds parent id := by
  cases hid with
  | top hmem =>
    rw [IsParent, h.parentOf_top id hmem] at hp
    cases hp
  | @nested owner _ howner hmem =>
    rw [IsParent, h.parentOf_nested owner howner id hmem] at hp
    cases hp
    exact ⟨howner, hmem⟩

theorem isParent_of_holds (h : f.Nested) {parent id : OpId} (hp : f.Holds parent id) :
    f.IsParent parent id := h.parentOf_nested parent hp.1 id hp.2

/-- The way up from a reached operation leads through operations that surround it. -/
theorem surrounds_of_transGen (h : f.Nested) {a id : OpId}
    (hup : Relation.TransGen f.IsParent a id) : f.Reaches id → f.Surrounds a id := by
  induction hup with
  | single hp => exact fun hid => .single (h.holds_of_isParent hid hp)
  | tail _ hp ih =>
    intro hid
    have hholds := h.holds_of_isParent hid hp
    exact .tail (ih hholds.1) hholds

theorem surrounds_of_above (h : f.Nested) {a id : OpId} (hid : f.Reaches id) (hne : a ≠ id)
    (hup : f.Above a id) : f.Surrounds a id := by
  rcases Relation.reflTransGen_iff_eq_or_transGen.mp hup with heq | htrans
  · exact absurd heq.symm hne
  · exact h.surrounds_of_transGen htrans hid

theorem above_of_surrounds (h : f.Nested) {a id : OpId} (hs : f.Surrounds a id) : f.Above a id :=
  Relation.ReflTransGen.mono (fun _ _ => h.isParent_of_holds) _ _ hs.to_reflTransGen

end Nested

/-- What is said of loops around an operation matters only for loops. -/
theorem Mentions.mono {f : Func} {around around' : OpId → Prop} {id : OpId} {op : Op}
    (h : f.Mentions around id op)
    (hmono : ∀ c, op.kind = .compute c → ∀ l, f.IsLoop l → around l → around' l) :
    f.Mentions around' id op where
  uses := h.uses
  result := h.result
  loop := h.loop
  compute := fun c hc l hl =>
    ⟨(h.compute c hc l hl).1, hmono c hc l (h.compute c hc l hl).1 (h.compute c hc l hl).2⟩

namespace WellFormed

variable {f : Func}

/-- In a function in order a block lists distinct slots. -/
theorem nodup_blockOf (h : f.WellFormed) (owner : Option OpId)
    (howner : ∀ p, owner = some p → f.Reaches p) : (f.blockOf owner).Nodup := by
  have hlists : ∀ {position : Nat} {id : OpId}, (f.blockOf owner)[position]? = some id →
      f.Lists (owner, position) id := by
    intro position id hpos
    cases owner with
    | none => exact hpos
    | some p => exact ⟨howner p rfl, hpos⟩
  rw [List.nodup_iff_getElem?_ne_getElem?]
  intro i j hij hj heq
  have hjth : (f.blockOf owner)[j]? = some (f.blockOf owner)[j] := List.getElem?_eq_getElem hj
  have hplace := hlists hjth
  have hsame := (h.listed_once _ hplace.reaches).unique (hlists (heq.trans hjth)) hplace
  have : i = j := congrArg Prod.snd hsame
  omega

theorem parentOf_listed (h : f.WellFormed) (owner : Option OpId) {position : Nat} {id : OpId}
    (hl : f.Lists (owner, position) id) : f.parentOf id = owner := by
  obtain ⟨op, hop⟩ := h.exists_op id hl.reaches
  rw [parentOf_eq hop]
  exact h.owned id op owner position hop hl

theorem tidy (h : f.WellFormed) : f.Tidy where
  toTablesAgree := h.toTablesAgree
  nodup_body := h.nodup_blockOf none fun p hp => by cases hp
  parentOf_top := fun id hid => by
    obtain ⟨position, hpos⟩ := List.mem_iff_getElem?.mp hid
    exact h.parentOf_listed none hpos
  nodup_bodyOf := fun owner howner =>
    h.nodup_blockOf (some owner) fun p hp => by cases hp; exact howner
  parentOf_nested := fun owner howner id hid => by
    obtain ⟨position, hpos⟩ := List.mem_iff_getElem?.mp hid
    exact h.parentOf_listed (some owner) ⟨howner, hpos⟩
  live := fun id hid => by
    obtain ⟨op, hop⟩ := h.exists_op id hid
    exact ⟨op, hop, h.live id op hid hop⟩
  mentions := fun id op hid hop => by
    refine (h.mentions id op hid hop).mono fun _ _ l _ hs => ?_
    refine Relation.ReflTransGen.mono (fun p c hp => ?_) _ _ hs.to_reflTransGen
    obtain ⟨position, hpos⟩ := List.mem_iff_getElem?.mp hp.2
    exact h.parentOf_listed (some p) ⟨hp.1, hpos⟩

end WellFormed

theorem Tidy.wellFormed {f : Func} (h : f.Tidy) : f.WellFormed where
  toTablesAgree := h.toTablesAgree
  exists_op := fun id hid => (h.live id hid).imp fun _ hop => hop.1
  listed_once := fun id hid => by
    obtain ⟨⟨owner, position⟩, hl⟩ := hid.listed
    refine ⟨(owner, position), hl, ?_⟩
    rintro ⟨owner', position'⟩ hl'
    have howner : owner' = owner := (h.parentOf_listed hl').symm.trans (h.parentOf_listed hl)
    subst howner
    have hnd : (f.blockOf owner').Nodup := by
      cases owner' with
      | none => exact h.nodup_body
      | some p => exact h.nodup_bodyOf p hl.1
    have hpos := hl.getElem?_blockOf
    have hlt : position < (f.blockOf owner').length := (List.getElem?_eq_some_iff.mp hpos).1
    rw [(List.getElem?_inj hlt hnd).mp (hpos.trans hl'.getElem?_blockOf.symm)]
  owned := fun id op owner position hop hl => by
    rw [← parentOf_eq hop]
    exact h.parentOf_listed hl
  live := fun id op hid hop => by
    obtain ⟨op', hop', hlive⟩ := h.live id hid
    rw [hop] at hop'
    cases hop'
    exact hlive
  mentions := fun id op hid hop => by
    refine (h.mentions id op hid hop).mono fun c hc l hl hup => ?_
    refine h.surrounds_of_above hid ?_ hup
    -- The operation is a compute and `l` a loop, so they differ.
    rintro rfl
    obtain ⟨header, hheader⟩ := hl
    rw [kindOf_eq hop, hc] at hheader
    cases hheader

/-- **Both ways of saying that a function is in order agree.** -/
theorem wellFormed_iff_tidy {f : Func} : f.WellFormed ↔ f.Tidy := ⟨WellFormed.tidy, Tidy.wellFormed⟩

end Func
end Dataflow
