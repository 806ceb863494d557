/-
# What tiling does to a function

Tiling first splits the loops of a band (`Func.Split`): the point loops hang as a chain below the
innermost loop, the last of them takes over its body, and the loops of the band become tile
loops.  Then the computes below the last point loop are redirected from the loops of the band to
the tile and point loops that stand for them.

Both steps keep a function in order (`Func.Split.tidy`, `Func.Tidy.redirect`), so whole runs of
the pass do (`Func.tile_tidy`).
-/
import Dataflow.Proofs.Bands
import Dataflow.Proofs.Edits

namespace Dataflow
namespace Func

variable {f g h : Func} {audience : Audience}

/-! ## 1. Point loops -/

/-- The entry of the point loop at a position of the chain below `parent`, while the last one of
the chain still holds nothing. -/
def pointEntry (first count : Nat) (parent : OpId) (position : Nat) (e : OpId × TileHeader) :
    Op where
  id := first + position
  kind := .loop (e.2.pointLoop e.1)
  parent := some (if position = 0 then parent else first + (position - 1))
  body := if position + 1 < count then [first + (position + 1)] else []
  erased := false

/-- Without its first loop a chain starts one slot later, below that loop. -/
theorem pointEntry_succ (first count : Nat) (parent : OpId) (position : Nat)
    (e : OpId × TileHeader) : pointEntry (first + 1) count first position e =
      pointEntry first (count + 1) parent (position + 1) e := by
  have hid : first + 1 + position = first + (position + 1) := by omega
  have hnext : first + 1 + (position + 1) = first + (position + 1 + 1) := by omega
  have hparent : (if position = 0 then first else first + 1 + (position - 1)) =
      first + position := by
    split <;> omega
  simp only [pointEntry, hid, hnext, hparent, Nat.add_lt_add_iff_right, Nat.succ_ne_zero, if_false,
    Nat.add_sub_cancel]

/-- `g` is `f` with a chain of point loops below `parent`. -/
structure PointsAdded (f : Func) (parent : OpId) (tiles : List (OpId × TileHeader)) (g : Func)
    (points : List OpId) : Prop where
  name : g.name = f.name
  arguments : g.arguments = f.arguments
  body : g.body = f.body
  values : g.values = f.values
  slots : points = List.range' f.ops.size tiles.length
  size : g.ops.size = f.ops.size + tiles.length
  old : ∀ i, i < f.ops.size → g.ops[i]? = f.ops[i]?.map
    (changeAt parent (fun op => { op with body := op.body ++ points.take 1 }) i)
  point : ∀ (position : Nat) (e : OpId × TileHeader), tiles[position]? = some e →
    g.ops[f.ops.size + position]? =
      some (pointEntry f.ops.size tiles.length parent position e)

theorem push_eq {parent : OpId} {kind : Kind} {id : OpId}
    (h : f.push (some parent) kind = .ok (g, id)) : id = f.ops.size ∧
      g = (f.grow [fresh (some parent) f.ops.size kind]).edit
        (changeAt parent fun op => { op with body := op.body ++ [f.ops.size] }) := by
  have hcreate : f.create (some parent) kind =
      (f.grow [fresh (some parent) f.ops.size kind], f.ops.size) := by
    simp [create, grow, fresh]
  simp only [push, hcreate] at h
  obtain ⟨g', hg', h⟩ := Checked.bind_eq_ok.mp h
  cases h
  exact ⟨rfl, (modifyOp_eq_ok.mp hg').2⟩

/-- **The chain of point loops.** -/
theorem addPointLoops_spec : ∀ {tiles : List (OpId × TileHeader)} {f g : Func} {parent : OpId}
    {points : List OpId}, parent < f.ops.size → f.addPointLoops parent tiles = .ok (g, points) →
      f.PointsAdded parent tiles g points
  | [], f, g, parent, points, _, h => by
    cases h
    exact
      { name := rfl
        arguments := rfl
        body := rfl
        values := rfl
        slots := rfl
        size := rfl
        old := fun i _ => by
          cases f.ops[i]? with
          | none => rfl
          | some op => by_cases hi : i = parent <;> simp [hi, changeAt]
        point := fun _ _ he => by cases he }
  | (tile, header) :: tiles, f, g, parent, points, hparent, h => by
    obtain ⟨⟨f₁, point⟩, hpush, h⟩ := Checked.bind_eq_ok.mp h
    obtain ⟨⟨g', points'⟩, hrest, h⟩ := Checked.bind_eq_ok.mp h
    cases h
    obtain ⟨rfl, rfl⟩ := push_eq hpush
    have ih := addPointLoops_spec (by simp) hrest
    have hne : f.ops.size ≠ parent := Nat.ne_of_gt hparent
    have hsize : ((f.grow [fresh (some parent) f.ops.size (.loop (header.pointLoop tile))]).edit
        (changeAt parent fun op => { op with body := op.body ++ [f.ops.size] })).ops.size
          = f.ops.size + 1 := by simp
    exact
      { name := ih.name
        arguments := ih.arguments
        body := ih.body
        values := ih.values
        slots := by rw [ih.slots, hsize, List.length_cons, List.range'_succ]
        size := by rw [ih.size, hsize, List.length_cons]; omega
        old := fun i hi => by
          have hold := ih.old i (by rw [hsize]; omega)
          rw [getElem?_ops_edit, getElem?_ops_grow_of_lt _ hi] at hold
          rw [hold]
          cases f.ops[i]? with
          | none => rfl
          | some op => simp [changeAt_of_ne (Nat.ne_of_lt hi)]
        point := fun position e he => by
          cases position with
          | zero =>
            cases he
            have hold := ih.old f.ops.size (by rw [hsize]; omega)
            rw [getElem?_ops_edit, getElem?_ops_grow_of_le _ (Nat.le_refl _)] at hold
            rw [Nat.add_zero, hold, ih.slots, hsize]
            cases tiles <;> simp [pointEntry, fresh, changeAt_of_ne hne, List.range'_succ]
          | succ position =>
            have hpoint := ih.point position e (by simpa using he)
            rw [hsize, Nat.add_assoc, Nat.add_comm 1 position] at hpoint
            rw [hpoint, pointEntry_succ _ _ parent, List.length_cons] }

/-! ## 2. Splitting the loops of a band -/

/-- How the loop in a slot becomes a tile loop, if it is one of the band. -/
def tiling (tiles : List (OpId × TileHeader)) (id : OpId) : Option (Loop → Loop) :=
  (tiles.find? fun e => e.1 == id).map fun e => e.2.tileLoop

/-- The slot of the last point loop. -/
def lastPoint (f : Func) (tiles : List (OpId × TileHeader)) : OpId :=
  f.ops.size + (tiles.length - 1)

/-- What becomes of an entry that was there. -/
def splitEntry (f : Func) (innermost : OpId) (tiles : List (OpId × TileHeader)) (id : OpId)
    (op : Op) : Op :=
  { op with
    kind := changeLoop (tiling tiles id) op.kind
    parent := if id ∈ f.bodyOf innermost then some (f.lastPoint tiles) else op.parent
    body := if id = innermost then [f.ops.size] else op.body }

/-- The entry of a point loop: the last one holds the body of the band. -/
def splitPoint (f : Func) (innermost : OpId) (tiles : List (OpId × TileHeader)) (position : Nat)
    (e : OpId × TileHeader) : Op :=
  { pointEntry f.ops.size tiles.length innermost position e with
    body := if position + 1 < tiles.length then [f.ops.size + (position + 1)]
      else f.bodyOf innermost }

/-- `f.Split innermost tiles g`: `g` is `f` with the loops of a band that ends at `innermost`
split. -/
structure Split (f : Func) (innermost : OpId) (tiles : List (OpId × TileHeader)) (g : Func) :
    Prop where
  name : g.name = f.name
  arguments : g.arguments = f.arguments
  body : g.body = f.body
  values : g.values = f.values
  size : g.ops.size = f.ops.size + tiles.length
  old : ∀ id op, f.ops[id]? = some op → g.ops[id]? = some (f.splitEntry innermost tiles id op)
  point : ∀ (position : Nat) (e : OpId × TileHeader), tiles[position]? = some e →
    g.ops[f.ops.size + position]? = some (f.splitPoint innermost tiles position e)

theorem adopt_eq {parent : OpId} {ids : List OpId} (hnd : ids.Nodup)
    (h : f.adopt parent ids = .ok g) :
    g = f.edit fun i op => if i ∈ ids then { op with parent := some parent } else op := by
  have hfold := foldlM_modifyOp (fun id : OpId => id)
    (fun _ op => { op with parent := some parent }) h
  rw [hfold]
  congr 1
  funext i op
  rw [foldl_changeAt _ _ _ _ (by simpa using hnd)]
  cases hfind : ids.find? fun id => id == i with
  | none =>
    have hi : i ∉ ids := fun hi => by simpa using List.find?_eq_none.mp hfind i hi
    simp [hi]
  | some id =>
    have heq : id = i := by simpa using List.find?_some hfind
    have hi : i ∈ ids := heq ▸ List.mem_of_find?_eq_some hfind
    simp [hi]

theorem makeTileLoops_eq {tiles : List (OpId × TileHeader)} (hnd : (tiles.map Prod.fst).Nodup)
    (h : f.makeTileLoops tiles = .ok g) :
    g = f.edit fun id op => { op with kind := changeLoop (tiling tiles id) op.kind } := by
  have hfold := foldlM_modifyOp (fun e : OpId × TileHeader => e.1)
    (fun e op => { op with kind := op.kind.mapLoop e.2.tileLoop }) h
  rw [hfold]
  congr 1
  funext id op
  rw [foldl_changeAt _ _ _ _ hnd, tiling]
  cases tiles.find? fun e => e.1 == id <;> rfl

/-- The steps of splitting put together. -/
theorem split_of_steps {innermost : OpId} {tiles : List (OpId × TileHeader)} {op : Op}
    {f₁ f₂ f₃ f₄ : Func} {points : List OpId} (hop : f.ops[innermost]? = some op)
    (hbody : ∀ id ∈ f.bodyOf innermost, id < f.ops.size) (hnodup : (f.bodyOf innermost).Nodup)
    (htiles : ∀ e ∈ tiles, e.1 < f.ops.size) (hnd : (tiles.map Prod.fst).Nodup) (hne : tiles ≠ [])
    (h₁ : (f.modifyOp innermost fun op => { op with body := [] }) = .ok f₁)
    (h₂ : f₁.addPointLoops innermost tiles = .ok (f₂, points))
    (h₃ : f₂.adopt (points.getLastD innermost) op.body = .ok f₃)
    (h₄ : (f₃.modifyOp (points.getLastD innermost) fun last => { last with body := op.body }) =
      .ok f₄)
    (h₅ : f₄.makeTileLoops tiles = .ok g) :
    points = List.range' f.ops.size tiles.length ∧ f.Split innermost tiles g := by
  obtain ⟨hinner, rfl⟩ := modifyOp_eq_ok.mp h₁
  have hadded := addPointLoops_spec (by simpa using hinner) h₂
  have hslots : points = List.range' f.ops.size tiles.length := by simpa using hadded.slots
  have hpos : 0 < tiles.length := List.length_pos_of_ne_nil hne
  have hlast : points.getLastD innermost = f.lastPoint tiles := by
    rw [hslots, List.getLastD_eq_getLast?, List.getLast?_range', if_neg (by omega)]
    exact Nat.add_sub_assoc hpos _
  have hop' : f.bodyOf innermost = op.body := bodyOf_eq hop
  rw [hlast, ← hop'] at h₃ h₄
  obtain rfl := adopt_eq hnodup h₃
  obtain ⟨-, rfl⟩ := modifyOp_eq_ok.mp h₄
  obtain rfl := makeTileLoops_eq hnd h₅
  refine ⟨hslots, ?_⟩
  exact
    { name := hadded.name
      arguments := hadded.arguments
      body := hadded.body
      values := hadded.values
      size := by simpa using hadded.size
      old := fun id old hold => by
        have hlt : id < f.ops.size := lt_size_of_some hold
        have hneLast : id ≠ f.lastPoint tiles :=
          Nat.ne_of_lt (Nat.lt_of_lt_of_le hlt (Nat.le_add_right _ _))
        have htake : points.take 1 = [f.ops.size] := by
          rw [hslots]
          cases tiles with
          | nil => exact absurd rfl hne
          | cons e tiles => simp [List.range'_succ]
        have hentry := hadded.old id (by simpa using hlt)
        simp only [getElem?_ops_edit, hold, Option.map_some] at hentry
        simp only [getElem?_ops_edit, hentry, Option.map_some, changeAt_of_ne hneLast]
        by_cases hid : id = innermost
        · subst hid
          by_cases hmem : id ∈ f.bodyOf id <;> simp [splitEntry, hmem, htake]
        · by_cases hmem : id ∈ f.bodyOf innermost <;>
            simp [splitEntry, hid, hmem, changeAt_of_ne hid]
      point := fun position e he => by
        have hlt : position < tiles.length := (List.getElem?_eq_some_iff.mp he).1
        have hmem : f.ops.size + position ∉ f.bodyOf innermost := fun hmem =>
          Nat.not_lt.mpr (Nat.le_add_right _ position) (hbody _ hmem)
        have hkind : tiling tiles (f.ops.size + position) = none := by
          have hfind : (tiles.find? fun e => e.1 == f.ops.size + position) = none := by
            rw [List.find?_eq_none]
            intro e' he' heq
            rw [beq_iff_eq] at heq
            exact Nat.not_lt.mpr (Nat.le_add_right _ position) (heq ▸ htiles e' he')
          rw [tiling, hfind]
          rfl
        have hentry := hadded.point position e he
        rw [size_ops_edit] at hentry
        simp only [getElem?_ops_edit, hentry, Option.map_some, hmem, if_false]
        by_cases hposition : position + 1 < tiles.length
        · have hneLast : f.ops.size + position ≠ f.lastPoint tiles := by
            unfold lastPoint
            omega
          simp [changeAt_of_ne hneLast, hkind, changeLoop, splitPoint, pointEntry, hposition]
        · have heqLast : f.ops.size + position = f.lastPoint tiles := by
            unfold lastPoint
            omega
          simp [← heqLast, hkind, changeLoop, splitPoint, hposition] }

/-! ## 3. Splitting keeps a function in order -/

namespace Split

variable {innermost : OpId} {tiles : List (OpId × TileHeader)}

theorem parentOf_old (h : f.Split innermost tiles g) {id : OpId} (hid : id < f.ops.size) :
    g.parentOf id =
      if id ∈ f.bodyOf innermost then some (f.lastPoint tiles) else f.parentOf id := by
  obtain ⟨op, hop⟩ := exists_op_of_lt hid
  rw [parentOf_eq (h.old id op hop), parentOf_eq hop]
  rfl

theorem bodyOf_old (h : f.Split innermost tiles g) {id : OpId} (hid : id < f.ops.size)
    (hne : id ≠ innermost) : g.bodyOf id = f.bodyOf id := by
  obtain ⟨op, hop⟩ := exists_op_of_lt hid
  rw [bodyOf_eq (h.old id op hop), bodyOf_eq hop]
  exact if_neg hne

theorem bodyOf_innermost (h : f.Split innermost tiles g) (hid : innermost < f.ops.size) :
    g.bodyOf innermost = [f.ops.size] := by
  obtain ⟨op, hop⟩ := exists_op_of_lt hid
  rw [bodyOf_eq (h.old innermost op hop)]
  exact if_pos rfl

/-- The entry of a point loop, by its position. -/
theorem point_of_lt (h : f.Split innermost tiles g) {position : Nat}
    (hlt : position < tiles.length) : ∃ e, tiles[position]? = some e ∧
      g.ops[f.ops.size + position]? = some (f.splitPoint innermost tiles position e) := by
  have he : tiles[position]? = some tiles[position] := List.getElem?_eq_getElem hlt
  exact ⟨_, he, h.point position _ he⟩

theorem bodyOf_point (h : f.Split innermost tiles g) {position : Nat}
    (hlt : position < tiles.length) : g.bodyOf (f.ops.size + position) =
      if position + 1 < tiles.length then [f.ops.size + (position + 1)]
      else f.bodyOf innermost := by
  obtain ⟨e, -, hentry⟩ := h.point_of_lt hlt
  rw [bodyOf_eq hentry]
  rfl

theorem parentOf_point (h : f.Split innermost tiles g) {position : Nat}
    (hlt : position < tiles.length) : g.parentOf (f.ops.size + position) =
      some (if position = 0 then innermost else f.ops.size + (position - 1)) := by
  obtain ⟨e, -, hentry⟩ := h.point_of_lt hlt
  rw [parentOf_eq hentry]
  rfl

/-- The point loops are reached if the innermost loop is. -/
theorem reaches_point (h : f.Split innermost tiles g) (hinner : innermost < f.ops.size)
    (hreach : g.Reaches innermost) : ∀ {position : Nat}, position < tiles.length →
      g.Reaches (f.ops.size + position)
  | 0, _ => by
    refine .nested hreach ?_
    rw [h.bodyOf_innermost hinner]
    exact List.mem_cons_self
  | position + 1, hlt => by
    refine .nested (h.reaches_point hinner hreach (Nat.lt_of_succ_lt hlt)) ?_
    rw [h.bodyOf_point (Nat.lt_of_succ_lt hlt), if_pos hlt]
    exact List.mem_cons_self

/-- What was reached is reached: what stood in the innermost loop stands in the last point loop. -/
theorem reaches_old (h : f.Split innermost tiles g) (hn : f.Nested) (hne : tiles ≠ []) {id : OpId}
    (hid : f.Reaches id) : g.Reaches id := by
  have hpos : 0 < tiles.length := List.length_pos_of_ne_nil hne
  induction hid with
  | top hid => exact .top (h.body ▸ hid)
  | @nested owner id howner hid ih =>
    have howner' := hn.lt_size howner
    by_cases heq : owner = innermost
    · subst heq
      have hlt : tiles.length - 1 < tiles.length := Nat.sub_lt hpos Nat.one_pos
      refine .nested (h.reaches_point howner' ih hlt) ?_
      rw [h.bodyOf_point hlt, if_neg (by omega)]
      exact hid
    · refine .nested ih ?_
      rwa [h.bodyOf_old howner' heq]

/-- ...and nothing else, but for the point loops. -/
theorem reaches_cases (h : f.Split innermost tiles g) (hn : f.Nested) (hne : tiles ≠ [])
    (hinner : f.Reaches innermost) {id : OpId} (hid : g.Reaches id) :
    f.Reaches id ∨ ∃ position, position < tiles.length ∧ id = f.ops.size + position := by
  have hpos : 0 < tiles.length := List.length_pos_of_ne_nil hne
  induction hid with
  | top hid => exact .inl (.top (h.body ▸ hid))
  | @nested owner id howner hid ih =>
    rcases ih with hold | ⟨position, hlt, rfl⟩
    · by_cases heq : owner = innermost
      · subst heq
        rw [h.bodyOf_innermost (hn.lt_size hold), List.mem_singleton] at hid
        exact .inr ⟨0, hpos, hid⟩
      · rw [h.bodyOf_old (hn.lt_size hold) heq] at hid
        exact .inl (.nested hold hid)
    · rw [h.bodyOf_point hlt] at hid
      split at hid
      · rename_i hnext
        exact .inr ⟨position + 1, hnext, List.mem_singleton.mp hid⟩
      · exact .inl (.nested hinner hid)

theorem nested (h : f.Split innermost tiles g) (hn : f.Nested) (hne : tiles ≠ [])
    (hinner : f.Reaches innermost) : g.Nested where
  nodup_body := h.body ▸ hn.nodup_body
  parentOf_top := fun id hid => by
    rw [h.body] at hid
    have htop := hn.parentOf_top id hid
    rw [h.parentOf_old (hn.lt_size (.top hid)), if_neg, htop]
    intro hmem
    rw [hn.parentOf_nested innermost hinner id hmem] at htop
    cases htop
  nodup_bodyOf := fun owner howner => by
    rcases h.reaches_cases hn hne hinner howner with hold | ⟨position, hlt, rfl⟩
    · by_cases heq : owner = innermost
      · subst heq
        rw [h.bodyOf_innermost (hn.lt_size hold)]
        exact List.nodup_singleton _
      · rw [h.bodyOf_old (hn.lt_size hold) heq]
        exact hn.nodup_bodyOf owner hold
    · rw [h.bodyOf_point hlt]
      split
      · exact List.nodup_singleton _
      · exact hn.nodup_bodyOf innermost hinner
  parentOf_nested := fun owner howner id hid => by
    have hpos : 0 < tiles.length := List.length_pos_of_ne_nil hne
    rcases h.reaches_cases hn hne hinner howner with hold | ⟨position, hlt, rfl⟩
    · by_cases heq : owner = innermost
      · subst heq
        rw [h.bodyOf_innermost (hn.lt_size hold), List.mem_singleton] at hid
        subst hid
        exact h.parentOf_point hpos
      · rw [h.bodyOf_old (hn.lt_size hold) heq] at hid
        have hparent := hn.parentOf_nested owner hold id hid
        rw [h.parentOf_old (hn.lt_size (.nested hold hid)), if_neg, hparent]
        -- Only one block lists an operation.
        intro hmem
        rw [hn.parentOf_nested innermost hinner id hmem] at hparent
        exact heq (Option.some.inj hparent).symm
    · rw [h.bodyOf_point hlt] at hid
      split at hid
      · rename_i hnext
        rw [List.mem_singleton.mp hid, h.parentOf_point hnext]
        simp
      · rename_i hlast
        rw [h.parentOf_old (hn.lt_size (.nested hinner hid)), if_pos hid, lastPoint]
        have : tiles.length - 1 = position := by omega
        rw [this]
  live := fun id hid => by
    rcases h.reaches_cases hn hne hinner hid with hold | ⟨position, hlt, rfl⟩
    · obtain ⟨op, hop, hlive⟩ := hn.live id hold
      exact ⟨_, h.old id op hop, hlive⟩
    · obtain ⟨e, -, hentry⟩ := h.point_of_lt hlt
      exact ⟨_, hentry, rfl⟩

/-- The innermost loop of the band is above every point loop. -/
theorem above_point (h : f.Split innermost tiles g) : ∀ {position : Nat}, position < tiles.length →
    g.Above innermost (f.ops.size + position)
  | 0, hlt => .single (h.parentOf_point hlt)
  | position + 1, hlt => (h.above_point (Nat.lt_of_succ_lt hlt)).tail (by
      rw [IsParent, h.parentOf_point hlt]
      simp)

/-- Every point loop is above the last. -/
theorem point_above_last (h : f.Split innermost tiles g) : ∀ {count position : Nat},
    position + count < tiles.length →
      g.Above (f.ops.size + position) (f.ops.size + (position + count))
  | 0, _, _ => .refl
  | count + 1, position, hlt => (h.point_above_last (Nat.lt_of_succ_lt hlt)).tail (by
      rw [IsParent, h.parentOf_point hlt]
      simp)

theorem above_lastPoint (h : f.Split innermost tiles g) {position : Nat}
    (hlt : position < tiles.length) : g.Above (f.ops.size + position) (f.lastPoint tiles) := by
  have heq : position + (tiles.length - 1 - position) = tiles.length - 1 := by omega
  have habove : g.Above (f.ops.size + position)
      (f.ops.size + (position + (tiles.length - 1 - position))) :=
    h.point_above_last (by omega)
  rw [heq] at habove
  exact habove

/-- What was above a reached operation still is. -/
theorem above_old (h : f.Split innermost tiles g) (hn : f.Nested) (hne : tiles ≠ [])
    (hinner : f.Reaches innermost) {a id : OpId} (hup : f.Above a id) :
    f.Reaches id → g.Above a id := by
  have hpos : 0 < tiles.length := List.length_pos_of_ne_nil hne
  induction hup with
  | refl => exact fun _ => .refl
  | @tail parent id _ hp ih =>
    intro hid
    have hparent := ih (hn.holds_of_isParent hid hp).1
    have hold := h.parentOf_old (hn.lt_size hid)
    by_cases hmem : id ∈ f.bodyOf innermost
    · rw [if_pos hmem] at hold
      have heq : parent = innermost := by
        rw [IsParent, hn.parentOf_nested innermost hinner id hmem] at hp
        exact (Option.some.inj hp).symm
      subst heq
      exact (hparent.trans (h.above_point (Nat.sub_lt hpos Nat.one_pos))).tail hold
    · rw [if_neg hmem] at hold
      exact hparent.tail (hold.trans hp)

theorem isLive_old (h : f.Split innermost tiles g) {id : OpId} (hid : f.IsLive id) :
    g.IsLive id := by
  obtain ⟨op, hop, hlive⟩ := hid
  exact ⟨_, h.old id op hop, hlive⟩

theorem isLoop_old (h : f.Split innermost tiles g) {id : OpId} (hid : f.IsLoop id) :
    g.IsLoop id := by
  obtain ⟨l, hl⟩ := hid
  obtain ⟨op, hop, hkind⟩ := Option.map_eq_some_iff.mp hl
  rw [IsLoop, kindOf_eq (h.old id op hop)]
  simp only [splitEntry, hkind, changeLoop_loop]
  exact ⟨_, rfl⟩

theorem isLoop_point (h : f.Split innermost tiles g) {position : Nat}
    (hlt : position < tiles.length) : g.IsLoop (f.ops.size + position) := by
  obtain ⟨e, -, hentry⟩ := h.point_of_lt hlt
  exact ⟨_, kindOf_eq hentry⟩

theorem tablesAgree (h : f.Split innermost tiles g) (hf : f.TablesAgree) : g.TablesAgree := by
  refine hf.transfer h.values h.arguments (fun i op hop => ?_) fun i op hop =>
    ⟨_, h.old i op hop, result?_changeLoop _ op.kind⟩
  by_cases hi : i < f.ops.size
  · obtain ⟨op', hop'⟩ := exists_op_of_lt hi
    rw [h.old i op' hop'] at hop
    cases hop
    exact hf.opSlots i op' hop'
  · obtain ⟨position, rfl⟩ := Nat.exists_eq_add_of_le (Nat.not_lt.mp hi)
    have hlt : position < tiles.length :=
      Nat.lt_of_add_lt_add_left (h.size ▸ lt_size_of_some hop)
    obtain ⟨e, -, hentry⟩ := h.point_of_lt hlt
    rw [hentry] at hop
    cases hop
    rfl

/-- An old operation mentions what it mentioned; a tile loop still advances. -/
theorem mentions_old (h : f.Split innermost tiles g) (hf : f.Tidy) (hne : tiles ≠ [])
    (hinner : f.Reaches innermost) (hheaders : ∀ e ∈ tiles, 0 < e.2.step ∧ 0 < e.2.size)
    {id : OpId} {op : Op} (hid : f.Reaches id) (hop : f.ops[id]? = some op) :
    g.Mentions (g.Above · id) id (f.splitEntry innermost tiles id op) := by
  have hment := hf.mentions id op hid hop
  refine hment.transfer h.values (fun d => h.isLive_old) (operands_changeLoop _ op.kind)
    (result?_changeLoop _ op.kind) (fun l' hl' => ?_) fun c hc l hl => ?_
  · obtain ⟨l, hk, rfl⟩ := of_changeLoop_eq_loop hl'
    obtain ⟨hpos, htile⟩ := hment.loop l hk
    unfold tiling
    cases hfind : tiles.find? fun e => e.1 == id with
    | none => exact ⟨hpos, fun tile ht => h.isLoop_old (htile tile ht)⟩
    | some e =>
      obtain ⟨hstep, hsize⟩ := hheaders e (List.mem_of_find?_eq_some hfind)
      exact ⟨Int.mul_pos hstep hsize, fun tile ht => h.isLoop_old (htile tile ht)⟩
  · have hkind : op.kind = .compute c := of_changeLoop_eq_compute hc
    obtain ⟨hloop, hup⟩ := hment.compute c hkind l hl
    exact ⟨h.isLoop_old hloop, h.above_old hf.toNested hne hinner hup hid⟩

/-- **Splitting keeps a function in order.** -/
theorem tidy (h : f.Split innermost tiles g) (hf : f.Tidy) (hne : tiles ≠ [])
    (hinner : f.Reaches innermost)
    (hheaders : ∀ e ∈ tiles, 0 < e.2.step ∧ 0 < e.2.size)
    (hloops : ∀ e ∈ tiles, f.IsLoop e.1) : g.Tidy where
  toTablesAgree := h.tablesAgree hf.toTablesAgree
  toNested := h.nested hf.toNested hne hinner
  mentions := fun id op hid hop => by
    rcases h.reaches_cases hf.toNested hne hinner hid with hold | ⟨position, hlt, rfl⟩
    · obtain ⟨op', hop', -⟩ := hf.live id hold
      rw [h.old id op' hop'] at hop
      cases hop
      exact h.mentions_old hf hne hinner hheaders hold hop'
    · obtain ⟨e, he, hentry⟩ := h.point_of_lt hlt
      rw [hentry] at hop
      cases hop
      have hmem : e ∈ tiles := List.mem_of_getElem? he
      -- A point loop uses no value, and its tile loop is a loop of the band.
      exact
        { uses := fun v hv => by cases hv
          result := fun v hv => by cases hv
          loop := fun l hl => by
            cases hl
            refine ⟨(hheaders e hmem).1, fun tile ht => ?_⟩
            cases ht
            exact h.isLoop_old (hloops e hmem)
          compute := fun c hc => by cases hc }

end Split

/-! ## 4. Redirecting computes -/

theorem mem_of_point? {r : Redirection} {l point : OpId} (h : r.point? l = some point) :
    (l, point) ∈ r := by
  obtain ⟨e, he, rfl⟩ := Option.map_eq_some_iff.mp h
  have heq : e.1 = l := by simpa using List.find?_some he
  rw [← heq]
  exact List.mem_of_find?_eq_some he

theorem mem_loops_index {r : Redirection} {i : Index} {l : OpId} (h : l ∈ (r.index i).loops) :
    l ∈ i.loops ∨ ∃ e ∈ r, l = e.2 := by
  cases i with
  | iv l' =>
    simp only [Redirection.index] at h
    cases hpoint : r.point? l' with
    | none =>
      rw [hpoint] at h
      exact .inl h
    | some point =>
      rw [hpoint] at h
      simp only [Index.loops, List.mem_cons, List.not_mem_nil, or_false] at h
      rcases h with rfl | rfl
      · exact .inl List.mem_cons_self
      · exact .inr ⟨_, mem_of_point? hpoint, rfl⟩
  | _ => exact .inl h

/-- A redirected compute mentions loops it mentioned before, and point loops. -/
theorem mem_loops_redirect {r : Redirection} {c : Compute} {l : OpId}
    (h : l ∈ (r.compute c).loops) : l ∈ c.loops ∨ ∃ e ∈ r, l = e.2 := by
  simp only [Compute.loops, Compute.accesses, Redirection.compute, List.mem_append,
    List.mem_flatMap, List.mem_map, ← List.map_append] at h ⊢
  rcases h with ⟨_, ⟨a, ha, rfl⟩, _, hi, hl⟩ | ⟨_, ⟨o, ho, rfl⟩, rfl⟩
  · obtain ⟨i, hmem, rfl⟩ := List.mem_map.mp hi
    exact (mem_loops_index hl).imp_left fun hl => .inl ⟨a, ha, i, hmem, hl⟩
  · cases hpoint : r.point? o.1 with
    | none => exact .inl (.inr ⟨o, ho, by simp⟩)
    | some point => exact .inr ⟨_, mem_of_point? hpoint, by simp⟩

theorem operands_redirect (r : Redirection) (c : Compute) :
    (Kind.compute (r.compute c)).operands = (Kind.compute c).operands := by
  simp [Kind.operands, Compute.accesses, Redirection.compute, Function.comp_def]

/-- The redirection of the entries listed. -/
def redirectAt (r : Redirection) (ids : List OpId) (id : OpId) (op : Op) : Op :=
  if id ∈ ids then r.op op else op

/-- Only computes are redirected. -/
theorem redirectAt_cases (r : Redirection) (ids : List OpId) (id : OpId) (op : Op) :
    redirectAt r ids id op = op ∨ ∃ c, id ∈ ids ∧ op.kind = .compute c ∧
      redirectAt r ids id op = { op with kind := .compute (r.compute c) } := by
  unfold redirectAt
  split
  · rename_i hid
    unfold Redirection.op
    split
    · rename_i c hc
      exact .inr ⟨c, hid, hc, rfl⟩
    · exact .inl rfl
  · exact .inl rfl

section Redirect

variable (f) (r : Redirection) (ids : List OpId)

theorem modifyOps_redirect : f.modifyOps ids r.op = f.edit (redirectAt r ids) :=
  modifyOps_eq f ids r.op

theorem sameNesting_redirect : f.SameNesting (f.edit (redirectAt r ids)) := by
  refine sameNesting_edit (fun id op => ?_) (fun id op => ?_) fun id op => ?_ <;>
    rcases redirectAt_cases r ids id op with heq | ⟨c, -, -, heq⟩ <;> rw [heq]

variable {f r ids}

theorem isLoop_redirect {l : OpId} (h : f.IsLoop l) : (f.edit (redirectAt r ids)).IsLoop l := by
  obtain ⟨header, hl⟩ := h
  obtain ⟨op, hop, hkind⟩ := Option.map_eq_some_iff.mp hl
  refine ⟨header, ?_⟩
  rw [kindOf, getElem?_ops_edit, hop]
  rcases redirectAt_cases r ids l op with heq | ⟨c, -, hc, -⟩
  · simp [heq, hkind]
  · rw [hkind] at hc
    cases hc

theorem tablesAgree_redirect (hf : f.TablesAgree) : (f.edit (redirectAt r ids)).TablesAgree := by
  refine hf.transfer rfl rfl (fun i op hop => ?_) fun i op hop =>
    ⟨redirectAt r ids i op, by rw [getElem?_ops_edit, hop]; rfl, ?_⟩
  · rw [getElem?_ops_edit, Option.map_eq_some_iff] at hop
    obtain ⟨op', hop', rfl⟩ := hop
    have hslot := hf.opSlots i op' hop'
    rcases redirectAt_cases r ids i op' with heq | ⟨c, -, -, heq⟩ <;> rw [heq] <;> exact hslot
  · rcases redirectAt_cases r ids i op with heq | ⟨c, -, hc, heq⟩
    · rw [heq]
    · rw [heq, hc]
      rfl

/-- A redirected operation mentions what it may, if the point loops are above it. -/
theorem mentions_redirect {id : OpId} {op : Op} (hment : f.Mentions (f.Above · id) id op)
    (hpoints : id ∈ ids → ∀ e ∈ r, f.IsLoop e.2 ∧ f.Above e.2 id) :
    (f.edit (redirectAt r ids)).Mentions ((f.edit (redirectAt r ids)).Above · id) id
      (redirectAt r ids id op) := by
  have hsame := sameNesting_redirect f r ids
  have hlift : ∀ {l : OpId}, f.IsLoop l ∧ f.Above l id → (f.edit (redirectAt r ids)).IsLoop l ∧
      (f.edit (redirectAt r ids)).Above l id := fun hl =>
    ⟨isLoop_redirect hl.1, hsame.above_iff.mpr hl.2⟩
  rcases redirectAt_cases r ids id op with heq | ⟨c, hmem, hc, heq⟩
  · rw [heq]
    refine hment.transfer rfl (fun d => (hsame.isLive d).mpr) rfl rfl (fun l hl => ?_)
      fun c hc l hl => hlift (hment.compute c hc l hl)
    obtain ⟨hpos, htile⟩ := hment.loop l hl
    exact ⟨hpos, fun tile ht => isLoop_redirect (htile tile ht)⟩
  · rw [heq]
    refine hment.transfer rfl (fun d => (hsame.isLive d).mpr) (hc ▸ operands_redirect r c)
      (by rw [hc]; rfl) (fun l hl => by cases hl) fun c' hc' l hl => ?_
    cases hc'
    rcases mem_loops_redirect hl with hl | ⟨e, he, rfl⟩
    · exact hlift (hment.compute c hc l hl)
    · exact hlift (hpoints hmem e he)

/-- **Redirecting keeps a function in order**, if the point loops are above all that is
redirected. -/
theorem Tidy.redirect (hf : f.Tidy) {last : OpId} (hlast : f.Reaches last)
    (hids : f.walkFrom last = .ok ids) (hr : ∀ e ∈ r, f.IsLoop e.2 ∧ f.Above e.2 last) :
    (f.modifyOps ids r.op).Tidy := by
  rw [modifyOps_redirect]
  have hsame := sameNesting_redirect f r ids
  have hwalk : ∀ id ∈ ids, f.Above last id := fun id hid =>
    ((hf.toNested.mem_walkFrom hlast hids).mp hid).2
  refine { toTablesAgree := tablesAgree_redirect hf.toTablesAgree,
           toNested := hsame.nested hf.toNested, mentions := fun id op hid hop => ?_ }
  have hentry : (f.edit (redirectAt r ids)).ops[id]? = some op := hop
  rw [getElem?_ops_edit, Option.map_eq_some_iff] at hentry
  obtain ⟨op', hop', rfl⟩ := hentry
  exact mentions_redirect (hf.mentions id op' (hsame.reaches_iff.mp hid) hop') fun hmem e he =>
    ⟨(hr e he).1, (hr e he).2.trans (hwalk id hmem)⟩

end Redirect

/-! ## 5. One band -/

/-- A header comes from a loop with a known trip count, which the tile size divides, and a whole
tile is within the range of machine words. -/
theorem tileHeader_spec {id : OpId} {size : Nat} {header : TileHeader}
    (h : f.tileHeader id size = .ok (.ok header)) :
    ∃ l trip, f.kindOf id = some (.loop l) ∧ l.tripCount = some trip ∧ size ≠ 0 ∧
      trip % size = 0 ∧ isInt64 (size * l.step) = true ∧
      header = { name := l.name, step := l.step, size := size, parallel := l.parallel } := by
  obtain ⟨l?, hl, h⟩ := Checked.bind_eq_ok.mp h
  obtain ⟨k, hk, rfl⟩ := loop?_eq_ok.mp hl
  cases hloop : k.loop? with
  | none =>
    rw [hloop] at h
    obtain ⟨_, -, h⟩ := Checked.bind_eq_ok.mp h
    cases h
  | some l =>
    rw [hloop] at h
    obtain rfl := Kind.eq_loop_of_loop? hloop
    simp only at h
    split at h
    · obtain ⟨_, -, h⟩ := Checked.bind_eq_ok.mp h
      cases h
    · rename_i trip htrip
      split at h
      · obtain ⟨_, -, h⟩ := Checked.bind_eq_ok.mp h
        cases h
      · rename_i hdivides
        simp only [ne_eq, Bool.or_eq_true, decide_eq_true_eq, not_or, Decidable.not_not] at hdivides
        split at h
        · rename_i hfits
          cases h
          exact ⟨l, trip, hk, htrip, hdivides.1, hdivides.2, (Bool.and_eq_true_iff.mp hfits).2, rfl⟩
        · obtain ⟨_, -, h⟩ := Checked.bind_eq_ok.mp h
          cases h

theorem tileHeaders_spec : ∀ {es : List (OpId × Nat)} {headers : List TileHeader},
    f.tileHeaders es = .ok (.ok headers) →
      List.Forall₂ (fun e header => f.tileHeader e.1 e.2 = .ok (.ok header)) es headers
  | [], _, h => by
    cases h
    exact .nil
  | (id, size) :: es, headers, h => by
    obtain ⟨first, hfirst, h⟩ := Checked.bind_eq_ok.mp h
    cases first with
    | error reason => cases h
    | ok header =>
      obtain ⟨rest, hrest, h⟩ := Checked.bind_eq_ok.mp h
      cases rest with
      | error reason => cases h
      | ok headers' =>
        cases h
        exact .cons hfirst (tileHeaders_spec hrest)

/-- Two neighbours pass as perfectly nested if the inner one names the outer one as its parent, and
the outer one holds a single operation.  Whether that is the inner one is not asked. -/
theorem nestRefusal?_cons_cons {outer inner : OpId} {band : Band}
    (h : f.nestRefusal? (outer :: inner :: band) = .ok none) :
    f.IsParent outer inner ∧ (∃ op, f.ops[outer]? = some op ∧ op.body.length = 1) ∧
      f.nestRefusal? (inner :: band) = .ok none := by
  obtain ⟨iop, hiop, h⟩ := Checked.bind_eq_ok.mp h
  rw [op_eq_ok_iff] at hiop
  split at h
  · rename_i hparent
    obtain ⟨oop, hoop, h⟩ := Checked.bind_eq_ok.mp h
    rw [op_eq_ok_iff] at hoop
    split at h
    · rename_i hlen
      exact ⟨(parentOf_eq hiop).trans hparent, ⟨oop, hoop, hlen⟩, h⟩
    · obtain ⟨_, -, h⟩ := Checked.bind_eq_ok.mp h
      cases h
  · obtain ⟨_, -, h⟩ := Checked.bind_eq_ok.mp h
    cases h

/-- A band that passes is reached if its innermost loop is: the parents lead up. -/
theorem reaches_of_nestRefusal? (hn : f.Nested) : ∀ {band : Band} {innermost : OpId},
    band.getLast? = some innermost → f.Reaches innermost → f.nestRefusal? band = .ok none →
      ∀ id ∈ band, f.Reaches id
  | [], _, hlast, _, _ => by cases hlast
  | [id], _, hlast, hinner, _ => by
    cases hlast
    exact List.forall_mem_singleton.mpr hinner
  | outer :: inner :: band, innermost, hlast, hinner, h => by
    obtain ⟨hparent, -, h⟩ := nestRefusal?_cons_cons h
    rw [List.getLast?_cons_cons] at hlast
    have hrest := reaches_of_nestRefusal? hn hlast hinner h
    exact List.forall_mem_cons.mpr
      ⟨(hn.holds_of_isParent (hrest inner List.mem_cons_self) hparent).1, hrest⟩

/-- A band that passes is a perfect nest, if its loops are reached. -/
theorem perfectNest_of_nestRefusal? (hn : f.Nested) : ∀ {band : Band},
    (∀ id ∈ band, f.Reaches id) → (∀ id ∈ band, f.IsLoop id) → f.nestRefusal? band = .ok none →
      f.PerfectNest band
  | [], _, _, _ => .nil f
  | [id], hreach, hloop, _ =>
    .singleton (hreach id List.mem_cons_self) (hloop id List.mem_cons_self)
  | outer :: inner :: band, hreach, hloop, h => by
    obtain ⟨hparent, ⟨op, hop, hlen⟩, h⟩ := nestRefusal?_cons_cons h
    obtain ⟨houter, hreach⟩ := List.forall_mem_cons.mp hreach
    obtain ⟨houterLoop, hloop⟩ := List.forall_mem_cons.mp hloop
    have hmem := (hn.holds_of_isParent (hreach inner List.mem_cons_self) hparent).2
    exact (perfectNest_of_nestRefusal? hn hreach hloop h).cons houter houterLoop
      (bodyOf_eq_singleton hop hmem hlen)

/-- A plan has one header for each loop of the band, and the band is not refused. -/
theorem tilingPlan_spec {band : Band} {sizes : List Nat} {headers : List TileHeader}
    (h : f.tilingPlan band sizes = .ok (.ok headers)) :
    band.length = sizes.length ∧ f.nestRefusal? band = .ok none ∧
      (∀ id ∈ band, f.isTiled id = .ok false) ∧
      f.tileHeaders (band.zip sizes) = .ok (.ok headers) := by
  unfold tilingPlan at h
  split at h
  · cases h
  · rename_i hlen
    obtain ⟨refusal, hrefusal, h⟩ := Checked.bind_eq_ok.mp h
    cases refusal with
    | some reason => cases h
    | none =>
      obtain ⟨tiled, htiled, h⟩ := Checked.bind_eq_ok.mp h
      split at h
      · obtain ⟨_, -, h⟩ := Checked.bind_eq_ok.mp h
        cases h
      · rename_i tiled _ _ hfresh
        refine ⟨not_not.mp hlen, hrefusal, fun id hid => ?_, h⟩
        cases tiled with
        | false => exact Checked.of_anyM_eq_false htiled id hid
        | true =>
          -- Only the empty band passes then, and it has no loops.
          cases hhead : band.head? with
          | none =>
            rw [List.head?_eq_none_iff.mp hhead] at hid
            cases hid
          | some outermost => exact (hfresh outermost hhead rfl).elim

/-- A loop that is not tiled is no point loop. -/
theorem pointOf_of_isTiled {id : OpId} {l : Loop} (h : f.isTiled id = .ok false)
    (hk : f.kindOf id = some (.loop l)) : l.pointOf = none := by
  have hloop : f.loop? id = .ok (some l) := loop?_eq_ok.mpr ⟨_, hk, rfl⟩
  rw [isTiled, hloop, Checked.ok_bind] at h
  cases hpoint : l.pointOf with
  | none => rfl
  | some tile => simp [hpoint] at h

/-- The steps of splitting loops. -/
theorem splitLoops_steps {innermost : OpId} {tiles : List (OpId × TileHeader)}
    {points : List OpId} (h : f.splitLoops innermost tiles = .ok (g, points)) :
    ∃ op f₁ f₂ f₃ f₄ split ids, f.ops[innermost]? = some op ∧
      (f.modifyOp innermost fun op => { op with body := [] }) = .ok f₁ ∧
      f₁.addPointLoops innermost tiles = .ok (f₂, points) ∧
      f₂.adopt (points.getLastD innermost) op.body = .ok f₃ ∧
      (f₃.modifyOp (points.getLastD innermost) fun last => { last with body := op.body }) =
        .ok f₄ ∧
      f₄.makeTileLoops tiles = .ok split ∧ split.walkFrom (points.getLastD innermost) = .ok ids ∧
      g = split.modifyOps ids (Redirection.op ((tiles.map Prod.fst).zip points)) := by
  obtain ⟨op, hop, h⟩ := Checked.bind_eq_ok.mp h
  obtain ⟨f₁, h₁, h⟩ := Checked.bind_eq_ok.mp h
  obtain ⟨⟨f₂, points'⟩, h₂, h⟩ := Checked.bind_eq_ok.mp h
  obtain ⟨f₃, h₃, h⟩ := Checked.bind_eq_ok.mp h
  obtain ⟨f₄, h₄, h⟩ := Checked.bind_eq_ok.mp h
  obtain ⟨split, h₅, h⟩ := Checked.bind_eq_ok.mp h
  obtain ⟨ids, hids, h⟩ := Checked.bind_eq_ok.mp h
  cases h
  exact ⟨op, f₁, f₂, f₃, f₄, split, ids, op_eq_ok_iff.mp hop, h₁, h₂, h₃, h₄, h₅, hids,
    rfl⟩

/-- **What tiling a band leaves**: its loops split, and the computes below redirected. -/
theorem splitLoops_spec (hn : f.Nested) {innermost : OpId} {tiles : List (OpId × TileHeader)}
    {points : List OpId} (hband : f.PerfectNest (tiles.map Prod.fst))
    (hlast : (tiles.map Prod.fst).getLast? = some innermost)
    (h : f.splitLoops innermost tiles = .ok (g, points)) :
    points = List.range' f.ops.size tiles.length ∧ ∃ split ids, f.Split innermost tiles split ∧
      split.walkFrom (f.lastPoint tiles) = .ok ids ∧
      g = split.modifyOps ids (Redirection.op ((tiles.map Prod.fst).zip points)) := by
  have hmem : innermost ∈ tiles.map Prod.fst := List.mem_of_getLast? hlast
  have hinner : f.Reaches innermost := hband.reaches innermost hmem
  have hne : tiles ≠ [] := fun hnil => by simp [hnil] at hmem
  obtain ⟨op, f₁, f₂, f₃, f₄, split, ids, hop, h₁, h₂, h₃, h₄, h₅, hids, rfl⟩ := splitLoops_steps h
  obtain ⟨hslots, hsplit⟩ := split_of_steps hop
    (fun id hid => hn.lt_size (.nested hinner hid)) (hn.nodup_bodyOf innermost hinner)
    (fun e he => hn.lt_size (hband.reaches e.1 (List.mem_map_of_mem he))) (hband.nodup hn) hne
    h₁ h₂ h₃ h₄ h₅
  refine ⟨hslots, split, ids, hsplit, ?_, rfl⟩
  have hpos : 0 < tiles.length := List.length_pos_of_ne_nil hne
  rw [hslots, List.getLastD_eq_getLast?, List.getLast?_range', if_neg (by omega)] at hids
  rw [lastPoint, ← Nat.add_sub_assoc hpos]
  exact hids

/-- The sort of a loop: none for a tile loop, and the tile loop for a point loop. -/
def sortOf (op : Op) : Option (Option OpId) := op.kind.loop?.map Loop.pointOf

/-- `f.SortsKept tiles g points`: `g` has a point loop for each tile at the end of its table, and
every loop that was there is of the sort that it was. -/
structure SortsKept (f : Func) (tiles : List (OpId × TileHeader)) (g : Func) (points : List OpId) :
    Prop where
  slots : points = List.range' f.ops.size tiles.length
  size : g.ops.size = f.ops.size + tiles.length
  old : ∀ i, i < f.ops.size → g.ops[i]?.map sortOf = f.ops[i]?.map sortOf
  point : ∀ (position : Nat) (e : OpId × TileHeader), tiles[position]? = some e →
    g.ops[f.ops.size + position]?.map sortOf = some (some (some e.1))

theorem sortOf_redirectAt (r : Redirection) (ids : List OpId) (id : OpId) (op : Op) :
    sortOf (redirectAt r ids id op) = sortOf op := by
  rcases redirectAt_cases r ids id op with heq | ⟨c, -, hc, heq⟩
  · rw [heq]
  · rw [heq, sortOf, sortOf, hc]
    rfl

theorem sortOf_mapLoop (header : TileHeader) (op : Op) :
    sortOf { op with kind := op.kind.mapLoop header.tileLoop } = sortOf op := by
  obtain ⟨_, kind, _, _, _⟩ := op
  cases kind <;> rfl

/-- **Splitting adds the point loops and keeps the sort of every loop**, in whatever function. -/
theorem splitLoops_sortsKept {innermost : OpId} {tiles : List (OpId × TileHeader)}
    {points : List OpId} (h : f.splitLoops innermost tiles = .ok (g, points)) :
    f.SortsKept tiles g points := by
  obtain ⟨op, f₁, f₂, f₃, f₄, split, ids, -, h₁, h₂, h₃, h₄, h₅, -, hg⟩ := splitLoops_steps h
  have hcleared : ∀ i : OpId, f₁.ops[i]?.map sortOf = f.ops[i]?.map sortOf :=
    map_ops_modifyOp h₁ fun _ => rfl
  have hsize : f₁.ops.size = f.ops.size := size_eq_of_map_ops hcleared
  have hadded := addPointLoops_spec (hsize ▸ (modifyOp_eq_ok.mp h₁).1) h₂
  -- What follows the chain of point loops keeps the sorts, step by step.
  have hsorts : ∀ i : OpId, g.ops[i]?.map sortOf = f₂.ops[i]?.map sortOf := by
    intro i
    rw [hg, modifyOps_redirect, map_ops_edit (sortOf_redirectAt _ ids),
      map_ops_foldlM (fun e : OpId × TileHeader => e.1)
        (fun e op => { op with kind := op.kind.mapLoop e.2.tileLoop }) h₅
        (fun e => sortOf_mapLoop e.2),
      map_ops_modifyOp h₄ fun _ => rfl,
      map_ops_foldlM (fun id : OpId => id) (fun _ op => { op with parent := some _ }) h₃
        fun _ _ => rfl]
  exact
    { slots := hsize ▸ hadded.slots
      size := by rw [size_eq_of_map_ops hsorts, hadded.size, hsize]
      old := fun i hi => by
        rw [hsorts, hadded.old i (hsize.symm ▸ hi), Option.map_map, ← hcleared]
        refine Option.map_congr fun op _ => ?_
        unfold changeAt
        split <;> rfl
      point := fun position e he => by
        have hpoint := hadded.point position e he
        rw [hsize] at hpoint
        rw [hsorts, hpoint]
        rfl }

theorem splitLoops_tidy (hf : f.Tidy) {innermost : OpId} {tiles : List (OpId × TileHeader)}
    {points : List OpId} (hband : f.PerfectNest (tiles.map Prod.fst))
    (hlast : (tiles.map Prod.fst).getLast? = some innermost)
    (hheaders : ∀ e ∈ tiles, 0 < e.2.step ∧ 0 < e.2.size) (hloops : ∀ e ∈ tiles, f.IsLoop e.1)
    (h : f.splitLoops innermost tiles = .ok (g, points)) :
    g.Tidy ∧ ∀ id, f.Reaches id → g.Reaches id := by
  have hmem : innermost ∈ tiles.map Prod.fst := List.mem_of_getLast? hlast
  have hinner : f.Reaches innermost := hband.reaches innermost hmem
  have hne : tiles ≠ [] := fun hnil => by simp [hnil] at hmem
  have hpos : 0 < tiles.length := List.length_pos_of_ne_nil hne
  obtain ⟨rfl, split, ids, hsplit, hids, rfl⟩ := splitLoops_spec hf.toNested hband hlast h
  have htidy : split.Tidy := hsplit.tidy hf hne hinner hheaders hloops
  have hreach : ∀ id, f.Reaches id → split.Reaches id := fun id hid =>
    hsplit.reaches_old hf.toNested hne hid
  constructor
  · refine htidy.redirect (hsplit.reaches_point (hf.toNested.lt_size hinner) (hreach _ hinner)
      (Nat.sub_lt hpos Nat.one_pos)) hids fun e he => ?_
    -- The partner of a loop of the band is one of the point loops.
    obtain ⟨position, hlt, heq⟩ := List.mem_range'.mp (List.of_mem_zip he).2
    rw [heq, Nat.one_mul]
    exact ⟨hsplit.isLoop_point hlt, hsplit.above_lastPoint hlt⟩
  · intro id hid
    rw [modifyOps_redirect]
    exact (sameNesting_redirect split _ ids).reaches (hreach id hid)

/-- The loops of a plan, each with its header. -/
theorem mem_zip_headers {R : OpId × Nat → TileHeader → Prop} : ∀ {band : Band} {sizes : List Nat}
    {headers : List TileHeader}, band.length = sizes.length →
      List.Forall₂ R (band.zip sizes) headers → (band.zip headers).map Prod.fst = band ∧
        ∀ e ∈ band.zip headers, ∃ size, R (e.1, size) e.2
  | [], _, _, _, _ => ⟨rfl, fun _ he => by cases he⟩
  | _ :: _, [], _, hlen, _ => by cases hlen
  | id :: band, size :: sizes, headers, hlen, h => by
    rw [List.zip_cons_cons, List.forall₂_cons_left_iff] at h
    obtain ⟨header, headers', hfirst, hrest, rfl⟩ := h
    obtain ⟨hmap, hall⟩ := mem_zip_headers (Nat.succ.inj hlen) hrest
    rw [List.zip_cons_cons, List.map_cons, hmap]
    exact ⟨rfl, List.forall_mem_cons.mpr ⟨⟨size, hfirst⟩, hall⟩⟩

/-- A band with a plan is a perfect nest, and every loop of it has a header. -/
theorem nest_of_tilingPlan (hn : f.Nested) {band : Band} {sizes : List Nat}
    {headers : List TileHeader} (hreach : ∀ id ∈ band, f.Reaches id)
    (hplan : f.tilingPlan band sizes = .ok (.ok headers)) :
    (band.zip headers).map Prod.fst = band ∧ f.PerfectNest band ∧
      ∀ e ∈ band.zip headers, ∃ size, f.tileHeader e.1 size = .ok (.ok e.2) := by
  obtain ⟨hlen, hrefusal, -, hheaders⟩ := tilingPlan_spec hplan
  obtain ⟨hband, htiles⟩ := mem_zip_headers hlen (tileHeaders_spec hheaders)
  refine ⟨hband, perfectNest_of_nestRefusal? hn hreach (fun id hid => ?_) hrefusal, htiles⟩
  rw [← hband] at hid
  obtain ⟨e, he, rfl⟩ := List.mem_map.mp hid
  obtain ⟨size, hsize⟩ := htiles e he
  obtain ⟨l, -, hl, -⟩ := tileHeader_spec hsize
  exact ⟨l, hl⟩

/-- Steps and sizes of headers are positive. -/
theorem Tidy.tileHeader_pos (hf : f.Tidy) {id : OpId} {size : Nat} {header : TileHeader}
    (hid : f.Reaches id) (h : f.tileHeader id size = .ok (.ok header)) :
    0 < header.step ∧ 0 < header.size := by
  obtain ⟨l, -, hl, -, hne, -, -, rfl⟩ := tileHeader_spec h
  obtain ⟨op, hop, hkind⟩ := Option.map_eq_some_iff.mp hl
  exact ⟨((hf.mentions id op hid hop).loop l hkind).1,
    Int.natCast_pos.mpr (Nat.pos_of_ne_zero hne)⟩

/-- **Tiling a band keeps the function in order**, and what was reached stays reached. -/
theorem tileBand_tidy (hf : f.Tidy) {band : Band} {sizes : List Nat}
    {outcome : Except Reason Band} (hreach : ∀ id ∈ band, f.Reaches id)
    (hy : (f.tileBand band sizes).Yields audience (g, outcome)) :
    g.Tidy ∧ ∀ id, f.Reaches id → g.Reaches id := by
  unfold tileBand at hy
  split at hy
  · cases Traced.yields_pure.mp hy
    exact ⟨hf, fun _ hid => hid⟩
  · rename_i innermost hlast
    obtain ⟨plan, hplan, hy⟩ := Traced.yields_bind.mp hy
    rw [Traced.yields_lift] at hplan
    cases plan with
    | error reason =>
      cases Traced.yields_pure.mp hy
      exact ⟨hf, fun _ hid => hid⟩
    | ok headers =>
      obtain ⟨⟨g', points⟩, hsplit, hy⟩ := Traced.yields_bind.mp hy
      obtain ⟨_, -, hy⟩ := Traced.yields_bind.mp hy
      cases Traced.yields_pure.mp hy
      rw [Traced.yields_lift] at hsplit
      obtain ⟨hband, hnest, htiles⟩ := nest_of_tilingPlan hf.toNested hreach hplan
      have hmem : ∀ e ∈ band.zip headers, e.1 ∈ band := fun e he => (List.of_mem_zip he).1
      have hpos : ∀ e ∈ band.zip headers, 0 < e.2.step ∧ 0 < e.2.size := fun e he => by
        obtain ⟨size, hsize⟩ := htiles e he
        exact hf.tileHeader_pos (hreach e.1 (hmem e he)) hsize
      exact splitLoops_tidy hf (hband.symm ▸ hnest) (hband.symm ▸ hlast) hpos
        (fun e he => hnest.isLoop e.1 (hmem e he)) hsplit

/-! ## 6. The pass -/

/-- Bands one after another: those that still wait stay reached. -/
theorem tileBands_tidy {sizes : List Nat} : ∀ {bands : List Band} {f g : Func} {changed : Bool},
    f.Tidy → (∀ band ∈ bands, ∀ id ∈ band, f.Reaches id) →
      (tileBands sizes f bands).Yields audience (g, changed) → g.Tidy
  | [], _, _, _, hf, _, hy => by
    cases Traced.yields_pure.mp hy
    exact hf
  | band :: bands, f, g, changed, hf, hreach, hy => by
    obtain ⟨hband, hbands⟩ := List.forall_mem_cons.mp hreach
    obtain ⟨⟨f', outcome⟩, hfirst, hy⟩ := Traced.yields_bind.mp hy
    obtain ⟨hf', hkeep⟩ := tileBand_tidy hf hband hfirst
    have hbands' : ∀ other ∈ bands, ∀ id ∈ other, f'.Reaches id := fun other hother id hid =>
      hkeep id (hbands other hother id hid)
    cases outcome with
    | ok newBand =>
      obtain ⟨⟨g', changed'⟩, hrest, hy⟩ := Traced.yields_bind.mp hy
      cases Traced.yields_pure.mp hy
      exact tileBands_tidy hf' hbands' hrest
    | error reason =>
      obtain ⟨_, -, hy⟩ := Traced.yields_bind.mp hy
      exact tileBands_tidy hf' hbands' hy

/-- The bands that the pass tries are bands of nodes of the function. -/
theorem tilingCandidates_spec (hn : f.Nested) {bands : List Band}
    (h : f.tilingCandidates = .ok bands) : ∀ band ∈ bands, ∃ node, f.OwnBand node band := by
  obtain ⟨nodes, hnodes, h⟩ := Checked.bind_eq_ok.mp h
  obtain ⟨parts, hparts, h⟩ := Checked.bind_eq_ok.mp h
  intro band hband
  obtain ⟨part, hpart, hband⟩ := List.mem_flatten.mp ((Checked.filterM_sublist h).subset hband)
  obtain ⟨node, hnode, hbands⟩ := Checked.forall₂_left (Checked.mapM_eq_ok.mp hparts) hpart
  have hreach : f.Reaches node := ((hn.mem_findAll hnodes).mp hnode).1
  exact ⟨node, ((nodeBands_spec hn hreach hbands).1 band hband).toOwnBand⟩

/-- **A whole run of the tiling pass keeps the function in order.** -/
theorem tile_tidy (hf : f.Tidy) {sizes : List Nat} {changed : Bool}
    (hy : (f.tile sizes).Yields audience (g, changed)) : g.Tidy := by
  obtain ⟨bands, hbands, hy⟩ := Traced.yields_bind.mp hy
  rw [Traced.yields_lift] at hbands
  refine tileBands_tidy hf (fun band hband id hid => ?_) hy
  obtain ⟨node, hown⟩ := tilingCandidates_spec hf.toNested hbands band hband
  exact hown.reaches id hid

end Func
end Dataflow
