/-
# What unrolling does to a function

`Func.Unrolled` says entry by entry what `Func.replicateBand` leaves: the loops with a lane are
widened, every compute of the innermost body is followed by its replicas, the replicas are new
entries at the end of the table, and nothing else changes.

From it follows that unrolling a perfect nest of a function in order gives a function in order
(`Func.Unrolled.tidy`): the replicas stand where the computes stand that they replicate, so the
loops that those mention are around them too, and so are the loops of the band.
-/
import Mathlib.Data.List.Perm.Basic
import Dataflow.Proofs.Bands
import Dataflow.Proofs.Edits

namespace Dataflow

/-! ## 1. Combinations of lanes -/

/-- The offsets of a loop in its lane: none in the first. -/
def Lane.offset (lane : Lane) (k : Nat) : List (OpId × Int) :=
  if k = 0 then [] else [(lane.loop, satMulInt k lane.stride)]

/-- The combinations of lanes, from the first loop on. -/
def combinationsFrom : List Lane → List (List (OpId × Int))
  | [] => [[]]
  | lane :: lanes => (List.range lane.factor).flatMap fun k =>
      (combinationsFrom lanes).map (lane.offset k ++ ·)

theorem laneCombinations_eq (lanes : List Lane) :
    laneCombinations lanes = combinationsFrom lanes := by
  -- The fold extends each combination of the loops so far by those of the rest.
  have hfold : ∀ (lanes : List Lane) (acc : List (List (OpId × Int))),
      lanes.foldl (fun combinations lane => combinations.flatMap fun outer =>
          (List.range lane.factor).map fun (k : Nat) =>
            if k = 0 then outer else outer ++ [(lane.loop, satMulInt k lane.stride)]) acc
        = acc.flatMap fun outer => (combinationsFrom lanes).map (outer ++ ·) := by
    intro lanes
    induction lanes with
    | nil => simp [combinationsFrom]
    | cons lane lanes ih =>
      intro acc
      rw [List.foldl_cons, ih]
      simp only [combinationsFrom, List.flatMap_assoc, List.map_flatMap, List.map_map,
        List.flatMap_map]
      refine List.flatMap_congr fun outer _ => List.flatMap_congr fun k _ => List.map_congr_left ?_
      intro rest _
      by_cases hk : k = 0 <;> simp [Lane.offset, hk]
  rw [laneCombinations, hfold]
  simp

/-- Only loops with a lane run ahead. -/
theorem mem_combinationsFrom : ∀ {lanes : List Lane} {more : List (OpId × Int)},
    more ∈ combinationsFrom lanes → ∀ o ∈ more, ∃ lane ∈ lanes, o.1 = lane.loop
  | [], more, hmore, o, ho => by
    rw [combinationsFrom, List.mem_singleton] at hmore
    subst hmore
    cases ho
  | lane :: lanes, more, hmore, o, ho => by
    simp only [combinationsFrom, List.mem_flatMap, List.mem_map] at hmore
    obtain ⟨k, -, rest, hrest, rfl⟩ := hmore
    rcases List.mem_append.mp ho with ho | ho
    · refine ⟨lane, List.mem_cons_self, ?_⟩
      unfold Lane.offset at ho
      split at ho
      · cases ho
      · rw [List.mem_singleton] at ho
        rw [ho]
    · obtain ⟨lane', hlane', heq⟩ := mem_combinationsFrom hrest o ho
      exact ⟨lane', List.mem_cons_of_mem lane hlane', heq⟩

theorem mem_laneOffsets {lanes : List Lane} {more : List (OpId × Int)}
    (hmore : more ∈ laneOffsets lanes) : ∀ o ∈ more, ∃ lane ∈ lanes, o.1 = lane.loop := by
  rw [laneOffsets, laneCombinations_eq] at hmore
  exact mem_combinationsFrom (List.mem_filter.mp hmore).1

namespace Func

variable {f g : Func}

/-! ## 2. Lanes -/

/-- The lane of a loop, read off the table. -/
def laneOf (f : Func) (id : OpId) (factor : Nat) : Option Lane :=
  ((f.kindOf id).bind Kind.loop?).bind fun l =>
    let factor := clampFactor factor l.tripCount
    if 1 < factor then some { loop := id, factor, stride := l.step } else none

/-- The lanes of a band. -/
def lanesOf (f : Func) (band : Band) (factors : List Nat) : List Lane :=
  (band.zip factors).filterMap fun e => f.laneOf e.1 e.2

theorem lane?_eq_ok {id : OpId} {factor : Nat} {lane? : Option Lane}
    (h : f.lane? id factor = .ok lane?) : lane? = f.laneOf id factor := by
  obtain ⟨l?, hl, h⟩ := Checked.bind_eq_ok.mp h
  obtain ⟨k, hk, rfl⟩ := loop?_eq_ok.mp hl
  simp only [laneOf, hk, Option.bind_some]
  cases hloop : k.loop? with
  | none =>
    rw [hloop] at h
    cases h
    rfl
  | some l =>
    rw [hloop] at h
    cases h
    rfl

theorem laneOf_eq_some {id : OpId} {factor : Nat} {lane : Lane}
    (h : f.laneOf id factor = some lane) : ∃ l, f.kindOf id = some (.loop l) ∧
      1 < clampFactor factor l.tripCount ∧
      lane = { loop := id, factor := clampFactor factor l.tripCount, stride := l.step } := by
  obtain ⟨l, hl, h⟩ := Option.bind_eq_some_iff.mp h
  obtain ⟨k, hk, hloop⟩ := Option.bind_eq_some_iff.mp hl
  obtain rfl := Kind.eq_loop_of_loop? hloop
  simp only [Option.ite_none_right_eq_some, Option.some.injEq] at h
  exact ⟨l, hk, h.1, h.2.symm⟩

/-- A lane belongs to a loop of the band. -/
theorem map_loop_lanesOf_sublist (f : Func) : ∀ (band : Band) (factors : List Nat),
    ((f.lanesOf band factors).map Lane.loop).Sublist band
  | [], _ => by simp [lanesOf]
  | _ :: _, [] => by simp [lanesOf]
  | id :: band, factor :: factors => by
    have ih := map_loop_lanesOf_sublist f band factors
    simp only [lanesOf, List.zip_cons_cons, List.filterMap_cons] at ih ⊢
    cases hlane : f.laneOf id factor with
    | none => exact ih.trans (List.sublist_cons_self id band)
    | some lane =>
      obtain ⟨l, -, -, rfl⟩ := laneOf_eq_some hlane
      exact ih.cons_cons id

theorem loop_mem_of_mem_lanesOf {band : Band} {factors : List Nat} {lane : Lane}
    (h : lane ∈ f.lanesOf band factors) : lane.loop ∈ band :=
  (map_loop_lanesOf_sublist f band factors).subset (List.mem_map_of_mem h)

/-! ## 3. Widened loops -/

/-- How the loop in a slot is widened, if it has a lane. -/
def widening (mark : Nat → Mark) (lanes : List Lane) (id : OpId) : Option (Loop → Loop) :=
  (lanes.find? fun lane => lane.loop == id).map fun lane => lane.widen mark

theorem widening_eq_none (mark : Nat → Mark) {lanes : List Lane} {id : OpId}
    (hlane : ∀ lane ∈ lanes, lane.loop ≠ id) : widening mark lanes id = none := by
  have hfind : lanes.find? (fun lane => lane.loop == id) = none :=
    List.find?_eq_none.mpr fun lane hmem heq => hlane lane hmem (beq_iff_eq.mp heq)
  rw [widening, hfind, Option.map_none]

theorem widenSteps_eq {mark : Nat → Mark} {lanes : List Lane} (hnd : (lanes.map Lane.loop).Nodup)
    (h : f.widenSteps mark lanes = .ok g) :
    g = f.edit fun id op => { op with kind := changeLoop (widening mark lanes id) op.kind } := by
  have hfold := foldlM_modifyOp Lane.loop
    (fun lane op => { op with kind := op.kind.mapLoop (lane.widen mark) }) h
  rw [hfold]
  congr 1
  funext id op
  rw [foldl_changeAt _ _ _ _ hnd, widening]
  cases lanes.find? fun lane => lane.loop == id <;> rfl

theorem satMulInt_pos {a b : Int} (ha : 0 < a) (hb : 0 < b) : 0 < satMulInt a b := by
  have hmul : 0 < a * b := Int.mul_pos ha hb
  simp only [satMulInt, clampInt, intMin, intMax]
  omega

/-- A widened loop still advances, and has the same tile loop. -/
theorem widening_spec (mark : Nat → Mark) {lanes : List Lane}
    (hfactors : ∀ lane ∈ lanes, 1 < lane.factor) (id : OpId) (l : Loop) :
    ((widening mark lanes id).getD (fun l => l) l).pointOf = l.pointOf ∧
      (0 < l.step → 0 < ((widening mark lanes id).getD (fun l => l) l).step) := by
  unfold widening
  cases hfind : lanes.find? fun lane => lane.loop == id with
  | none => exact ⟨rfl, fun h => h⟩
  | some lane =>
    refine ⟨rfl, fun hpos => ?_⟩
    have hfactor := hfactors lane (List.mem_of_find?_eq_some hfind)
    exact satMulInt_pos hpos (by simp only [intMax]; omega)

/-! ## 4. Replicas -/

/-- The kinds of the replicas of the operation in a slot; none unless it is a compute. -/
def replicasOf (f : Func) (offsets : List (List (OpId × Int))) (id : OpId) : List Kind :=
  match (f.kindOf id).bind Kind.compute? with
  | some c => replicaKinds c offsets
  | none => []

/-- Operations of a block, each with the slots of its replicas. -/
abbrev Groups := List (OpId × List OpId)

/-- The block in which each operation is followed by its replicas. -/
def Groups.block (groups : Groups) : List OpId := groups.flatMap fun e => e.1 :: e.2

theorem createAll_eq (parent : Option OpId) : ∀ (kinds : List Kind) (f : Func),
    f.createAll parent kinds =
      (f.grow (kinds.mapIdx fun k kind => fresh parent (f.ops.size + k) kind),
        List.range' f.ops.size kinds.length)
  | [], f => by simp [createAll, grow_nil]
  | kind :: kinds, f => by
    have hcreate : f.create parent kind = (f.grow [fresh parent f.ops.size kind], f.ops.size) := by
      simp [create, grow, fresh]
    simp only [createAll, hcreate, createAll_eq parent kinds, grow_grow, size_ops_grow,
      List.mapIdx_cons, List.length_cons, List.length_nil, List.range'_succ, List.singleton_append,
      Nat.zero_add, Nat.add_zero, Nat.add_assoc, Nat.add_comm 1]

/-- Allocated entries can be looked up. -/
theorem forall₂_grow_fresh (f : Func) (parent : Option OpId) (kinds : List Kind) :
    List.Forall₂ (fun r kind => (f.grow (kinds.mapIdx fun k kind =>
        fresh parent (f.ops.size + k) kind)).ops[r]? = some (fresh parent r kind))
      (List.range' f.ops.size kinds.length) kinds := by
  refine List.forall₂_iff_get.mpr ⟨by simp, fun i h₁ h₂ => ?_⟩
  rw [getElem?_ops_grow_of_le _ (by simp)]
  simp [List.getElem?_eq_getElem h₂]

theorem replicasOf_grow (new : List Op) (offsets : List (List (OpId × Int))) {id : OpId}
    (hid : id < f.ops.size) : (f.grow new).replicasOf offsets id = f.replicasOf offsets id := by
  simp only [replicasOf, kindOf, getElem?_ops_grow_of_lt new hid]

/-- Widening loops leaves computes, and so their replicas, as they are. -/
theorem replicasOf_widen (mark : Nat → Mark) (lanes : List Lane)
    (offsets : List (List (OpId × Int))) (id : OpId) :
    (f.edit fun id op => { op with kind := changeLoop (widening mark lanes id) op.kind }).replicasOf
      offsets id = f.replicasOf offsets id := by
  unfold replicasOf kindOf
  rw [getElem?_ops_edit]
  cases f.ops[id]? <;> simp

/-- **Replicating a block.**  The table grows by the replicas of the computes listed, in order. -/
theorem replicateBlock_spec (owner : OpId) (offsets : List (List (OpId × Int))) :
    ∀ {block newBlock : List OpId} {f g : Func}, (∀ id ∈ block, id < f.ops.size) →
      replicateBlock owner offsets f block = .ok (g, newBlock) →
      ∃ (new : List Op) (groups : Groups), g = f.grow new ∧ groups.map Prod.fst = block ∧
        newBlock = groups.block ∧ groups.flatMap Prod.snd = List.range' f.ops.size new.length ∧
        ∀ e ∈ groups, List.Forall₂ (fun r kind => g.ops[r]? = some (fresh (some owner) r kind)) e.2
          (f.replicasOf offsets e.1)
  | [], _, f, _, _, h => by
    cases h
    exact ⟨[], [], (grow_nil f).symm, rfl, rfl, rfl, fun _ he => by cases he⟩
  | id :: block, newBlock, f, g, hlt, h => by
    obtain ⟨hid, hlt⟩ := List.forall_mem_cons.mp hlt
    obtain ⟨kind, hkind, h⟩ := Checked.bind_eq_ok.mp h
    rw [kind_eq_ok] at hkind
    cases hc : kind.compute? with
    | none =>
      simp only [hc] at h
      obtain ⟨⟨g', rest⟩, hrest, h⟩ := Checked.bind_eq_ok.mp h
      cases h
      obtain ⟨new, groups, rfl, hfst, rfl, hsnd, hgroups⟩ :=
        replicateBlock_spec owner offsets hlt hrest
      refine ⟨new, (id, []) :: groups, rfl, by simp [hfst], by simp [Groups.block],
        by simp [hsnd], List.forall_mem_cons.mpr ⟨?_, hgroups⟩⟩
      simp [replicasOf, hkind, hc]
    | some c =>
      simp only [hc, createAll_eq] at h
      obtain ⟨⟨g', rest⟩, hrest, h⟩ := Checked.bind_eq_ok.mp h
      cases h
      have hlt' : ∀ x ∈ block, x < (f.grow ((replicaKinds c offsets).mapIdx fun k kind =>
          fresh (some owner) (f.ops.size + k) kind)).ops.size := fun x hx => by
        rw [size_ops_grow]
        exact Nat.lt_add_right _ (hlt x hx)
      obtain ⟨new, groups, rfl, hfst, rfl, hsnd, hgroups⟩ :=
        replicateBlock_spec owner offsets hlt' hrest
      refine ⟨_, (id, List.range' f.ops.size (replicaKinds c offsets).length) :: groups,
        grow_grow .., by simp [hfst], by simp [Groups.block], ?_,
        List.forall_mem_cons.mpr ⟨?_, fun e he => ?_⟩⟩
      · rw [List.flatMap_cons, hsnd, size_ops_grow, List.length_append, List.length_mapIdx,
          List.range'_append_1]
      · have hreplicas : f.replicasOf offsets id = replicaKinds c offsets := by
          simp [replicasOf, hkind, hc]
        rw [hreplicas]
        exact (forall₂_grow_fresh f (some owner) _).imp fun r kind hr =>
          getElem?_ops_grow_of_some _ hr
      · have hmem : e.1 ∈ block := hfst ▸ List.mem_map_of_mem he
        rw [← replicasOf_grow _ offsets (hlt e.1 hmem)]
        exact hgroups e he

/-! ## 5. The unrolled function -/

/-- What becomes of an entry: a loop with a lane is widened, the innermost loop gets a new body. -/
def unrolledEntry (innermost : OpId) (lanes : List Lane) (mark : Nat → Mark) (groups : Groups)
    (id : OpId) (op : Op) : Op :=
  { op with
    kind := changeLoop (widening mark lanes id) op.kind
    body := if id = innermost then groups.block else op.body }

/-- `f.Unrolled innermost lanes mark groups g`: `g` is `f` with the loops of the lanes widened and
the body of the innermost loop replicated. -/
structure Unrolled (f : Func) (innermost : OpId) (lanes : List Lane) (mark : Nat → Mark)
    (groups : Groups) (g : Func) : Prop where
  name : g.name = f.name
  arguments : g.arguments = f.arguments
  body : g.body = f.body
  values : g.values = f.values
  size_le : f.ops.size ≤ g.ops.size
  /-- An entry that was there keeps its slot, its parent and its flag. -/
  old : ∀ id op, f.ops[id]? = some op →
    g.ops[id]? = some (unrolledEntry innermost lanes mark groups id op)
  /-- The groups are those of the innermost body. -/
  originals : groups.map Prod.fst = f.bodyOf innermost
  /-- The replicas of a compute stand beside it, and hold nothing. -/
  replicas : ∀ e ∈ groups, List.Forall₂
    (fun r kind => g.ops[r]? = some (fresh (some innermost) r kind)) e.2
    (f.replicasOf (laneOffsets lanes) e.1)
  /-- The new slots are those of the replicas. -/
  slots : groups.flatMap Prod.snd = List.range' f.ops.size (g.ops.size - f.ops.size)

/-- The steps of unrolling put together: the loops are widened, the body is replicated, and the
innermost loop gets the new body. -/
theorem unrolled_of_steps {innermost : OpId} {lanes : List Lane} {mark : Nat → Mark}
    {widened replicated : Func} {op : Op} {block : List OpId} (hnd : (lanes.map Lane.loop).Nodup)
    (hbody : ∀ id ∈ f.bodyOf innermost, id < f.ops.size)
    (hwiden : f.widenSteps mark lanes = .ok widened) (hop : widened.op innermost = .ok op)
    (hrep : replicateBlock innermost (laneOffsets lanes) widened op.body = .ok (replicated, block))
    (hg : (replicated.modifyOp innermost fun op => { op with body := block }) = .ok g) :
    ∃ groups, f.Unrolled innermost lanes mark groups g := by
  obtain rfl := widenSteps_eq hnd hwiden
  rw [op_eq_ok_iff, getElem?_ops_edit, Option.map_eq_some_iff] at hop
  obtain ⟨op, hop, rfl⟩ := hop
  have hbodyOf : f.bodyOf innermost = op.body := bodyOf_eq hop
  have hinner : innermost < f.ops.size := lt_size_of_some hop
  obtain ⟨new, groups, rfl, hfst, rfl, hsnd, hgroups⟩ := replicateBlock_spec innermost _
    (fun id hid => by
      rw [size_ops_edit]
      exact hbody id (hbodyOf ▸ hid)) hrep
  obtain ⟨-, rfl⟩ := modifyOp_eq_ok.mp hg
  rw [size_ops_edit] at hsnd
  exact ⟨groups,
    { name := rfl
      arguments := rfl
      body := rfl
      values := rfl
      size_le := by simp
      old := fun id old hold => by
        have hlt : id < f.ops.size := lt_size_of_some hold
        rw [getElem?_ops_edit, getElem?_ops_grow_of_lt _ (by simpa using hlt), getElem?_ops_edit,
          hold]
        by_cases hid : id = innermost
        · simp [hid, unrolledEntry]
        · simp [hid, unrolledEntry, changeAt_of_ne hid]
      originals := hfst.trans hbodyOf.symm
      replicas := fun e he => by
        rw [← replicasOf_widen mark lanes]
        have hnew : ∀ r ∈ e.2, f.ops.size ≤ r := fun r hr => by
          have hmem : r ∈ groups.flatMap Prod.snd := List.mem_flatMap.mpr ⟨e, he, hr⟩
          rw [hsnd, List.mem_range'_1] at hmem
          exact hmem.1
        refine ((List.forall₂_and_left _ _).mpr ⟨hnew, hgroups e he⟩).imp fun r kind hr => ?_
        -- The innermost loop is an old entry, so the change of its body touches no replica.
        have hne : r ≠ innermost := Nat.ne_of_gt (Nat.lt_of_lt_of_le hinner hr.1)
        rw [getElem?_ops_edit, hr.2]
        simp [changeAt_of_ne hne]
      slots := by simpa using hsnd }⟩

/-- **How unrolling ends.**  It finds nothing to widen and gives the function back, or it widens the
loops with a lane and replicates the innermost block. -/
theorem replicateBand_cases {band : Band} {factors : List Nat} {mark : Nat → Mark} {changed : Bool}
    (h : f.replicateBand band factors mark = .ok (g, changed)) :
    changed = false ∧ g = f ∧
        (band = [] ∨ band.length ≠ factors.length ∨ f.lanesOf band factors = []) ∨
      changed = true ∧ band.length = factors.length ∧ f.lanesOf band factors ≠ [] ∧
        ∃ innermost widened op replicated block, band.getLast? = some innermost ∧
          f.widenSteps mark (f.lanesOf band factors) = .ok widened ∧
          widened.op innermost = .ok op ∧
          replicateBlock innermost (laneOffsets (f.lanesOf band factors)) widened op.body =
            .ok (replicated, block) ∧
          (replicated.modifyOp innermost fun op => { op with body := block }) = .ok g := by
  unfold replicateBand at h
  split at h
  · rename_i hlast
    cases h
    exact .inl ⟨rfl, rfl, .inl (List.getLast?_eq_none_iff.mp hlast)⟩
  · rename_i innermost hlast
    split at h
    · rename_i hlen
      cases h
      exact .inl ⟨rfl, rfl, .inr (.inl hlen)⟩
    · rename_i hlen
      obtain ⟨lanes, hlanes, h⟩ := Checked.bind_eq_ok.mp h
      obtain rfl := Checked.filterMapM_eq_filterMap
        (p := fun e : OpId × Nat => f.laneOf e.1 e.2) (fun e o ho => lane?_eq_ok ho) hlanes
      split at h
      · rename_i hnone
        cases h
        exact .inl ⟨rfl, rfl, .inr (.inr (List.isEmpty_iff.mp hnone))⟩
      · rename_i hsome
        obtain ⟨widened, hwiden, h⟩ := Checked.bind_eq_ok.mp h
        obtain ⟨op, hop, h⟩ := Checked.bind_eq_ok.mp h
        obtain ⟨⟨replicated, block⟩, hrep, h⟩ := Checked.bind_eq_ok.mp h
        obtain ⟨g', hg', h⟩ := Checked.bind_eq_ok.mp h
        cases h
        exact .inr ⟨rfl, not_not.mp hlen, fun hnil => hsome (List.isEmpty_iff.mpr hnil), innermost,
          widened, op, replicated, block, hlast, hwiden, hop, hrep, hg'⟩

/-- Unrolling that changed nothing gives the function back, and had nothing to widen. -/
theorem replicateBand_unchanged {band : Band} {factors : List Nat} {mark : Nat → Mark}
    (h : f.replicateBand band factors mark = .ok (g, false)) :
    g = f ∧ (band = [] ∨ band.length ≠ factors.length ∨ f.lanesOf band factors = []) := by
  rcases replicateBand_cases h with ⟨-, hidle⟩ | ⟨hchanged, -⟩
  · exact hidle
  · cases hchanged

/-- **What unrolling leaves**, when it changed something. -/
theorem replicateBand_spec {band : Band} {factors : List Nat} {mark : Nat → Mark}
    (hnd : band.Nodup)
    (hbody : ∀ innermost, band.getLast? = some innermost →
      ∀ id ∈ f.bodyOf innermost, id < f.ops.size)
    (h : f.replicateBand band factors mark = .ok (g, true)) :
    band.length = factors.length ∧ f.lanesOf band factors ≠ [] ∧
      ∃ innermost groups, band.getLast? = some innermost ∧
        f.Unrolled innermost (f.lanesOf band factors) mark groups g := by
  rcases replicateBand_cases h with ⟨hchanged, -⟩ |
    ⟨-, hlen, hne, innermost, widened, op, replicated, block, hlast, hwiden, hop, hrep, hg⟩
  · cases hchanged
  · obtain ⟨groups, hgroups⟩ := unrolled_of_steps
      ((map_loop_lanesOf_sublist f band factors).nodup hnd) (hbody innermost hlast) hwiden hop
      hrep hg
    exact ⟨hlen, hne, innermost, groups, hlast, hgroups⟩

/-- Replicating a block of known operations gives an answer. -/
theorem replicateBlock_isOk (owner : OpId) (offsets : List (List (OpId × Int))) :
    ∀ {block : List OpId} {f : Func}, (∀ id ∈ block, id < f.ops.size) →
      ∃ r, replicateBlock owner offsets f block = .ok r
  | [], f, _ => ⟨(f, []), rfl⟩
  | id :: block, f, hlt => by
    obtain ⟨hid, hlt⟩ := List.forall_mem_cons.mp hlt
    obtain ⟨op, hop⟩ := exists_op_of_lt hid
    rw [replicateBlock, kind_eq_ok.mpr (kindOf_eq hop)]
    cases hc : op.kind.compute? with
    | none =>
      obtain ⟨⟨g, rest⟩, hrest⟩ := replicateBlock_isOk owner offsets hlt
      exact ⟨(g, id :: rest), by simp [hc, hrest]⟩
    | some c =>
      have hlt' : ∀ x ∈ block,
          x < (f.createAll (some owner) (replicaKinds c offsets)).1.ops.size := by
        intro x hx
        rw [createAll_eq, size_ops_grow]
        exact Nat.lt_add_right _ (hlt x hx)
      obtain ⟨⟨g, rest⟩, hrest⟩ := replicateBlock_isOk owner offsets hlt'
      exact ⟨_, by simp [hc, hrest]; rfl⟩

/-- The steps of unrolling give answers. -/
theorem steps_isOk {innermost : OpId} {lanes : List Lane} (mark : Nat → Mark)
    (hnd : (lanes.map Lane.loop).Nodup) (hloops : ∀ lane ∈ lanes, lane.loop < f.ops.size)
    (hinner : innermost < f.ops.size) (hbody : ∀ id ∈ f.bodyOf innermost, id < f.ops.size) :
    ∃ widened op replicated block g, f.widenSteps mark lanes = .ok widened ∧
      widened.op innermost = .ok op ∧
      replicateBlock innermost (laneOffsets lanes) widened op.body = .ok (replicated, block) ∧
      (replicated.modifyOp innermost fun op => { op with body := block }) = .ok g := by
  obtain ⟨widened, hwiden⟩ := foldlM_modifyOp_isOk Lane.loop
    (fun lane op => { op with kind := op.kind.mapLoop (lane.widen mark) }) hloops
  have hedit := widenSteps_eq hnd hwiden
  have hsize : widened.ops.size = f.ops.size := by rw [hedit, size_ops_edit]
  obtain ⟨op, hop⟩ := exists_op_of_lt hinner
  have hop' : widened.op innermost =
      .ok { op with kind := changeLoop (widening mark lanes innermost) op.kind } := by
    rw [op_eq_ok_iff, hedit, getElem?_ops_edit, hop]
    rfl
  have hblock : ∀ id ∈ op.body, id < widened.ops.size := by
    intro id hid
    rw [hsize]
    exact hbody id (bodyOf_eq hop ▸ hid)
  obtain ⟨⟨replicated, block⟩, hrep⟩ := replicateBlock_isOk innermost (laneOffsets lanes) hblock
  obtain ⟨new, -, hgrow, -⟩ := replicateBlock_spec innermost _ hblock hrep
  have hinner' : innermost < replicated.ops.size := by
    rw [hgrow, size_ops_grow, hsize]
    exact Nat.lt_add_right _ hinner
  exact ⟨widened, _, replicated, block, _, hwiden, hop', hrep, modifyOp_eq_ok.mpr ⟨hinner', rfl⟩⟩

/-- **Unrolling known operations gives an answer.** -/
theorem replicateBand_isOk {band : Band} (factors : List Nat) (mark : Nat → Mark)
    (hnd : band.Nodup) (hlt : ∀ id ∈ band, id < f.ops.size)
    (hbody : ∀ innermost, band.getLast? = some innermost →
      ∀ id ∈ f.bodyOf innermost, id < f.ops.size) :
    ∃ r, f.replicateBand band factors mark = .ok r := by
  unfold replicateBand
  cases hlast : band.getLast? with
  | none => exact ⟨(f, false), rfl⟩
  | some innermost =>
    simp only
    split
    · exact ⟨(f, false), rfl⟩
    have hlanes : ∀ e ∈ band.zip factors, ∃ lane?, f.lane? e.1 e.2 = .ok lane? := by
      intro e he
      obtain ⟨op, hop⟩ := exists_op_of_lt (hlt e.1 (List.of_mem_zip he).1)
      rw [lane?, loop?_eq_ok.mpr ⟨_, kindOf_eq hop, rfl⟩]
      cases hloop : op.kind.loop? with
      | none => exact ⟨_, rfl⟩
      | some l => exact ⟨_, rfl⟩
    obtain ⟨lanes, hlanes⟩ := Checked.filterMapM_isOk hlanes
    by_cases hempty : lanes.isEmpty = true
    · exact ⟨(f, false), Checked.bind_eq_ok.mpr ⟨lanes, hlanes, if_pos hempty⟩⟩
    obtain rfl := Checked.filterMapM_eq_filterMap
      (p := fun e : OpId × Nat => f.laneOf e.1 e.2) (fun e o ho => lane?_eq_ok ho) hlanes
    obtain ⟨widened, op, replicated, block, g, hwiden, hop, hrep, hg⟩ := steps_isOk mark
      ((map_loop_lanesOf_sublist f band factors).nodup hnd)
      (fun lane hlane => hlt lane.loop (loop_mem_of_mem_lanesOf hlane))
      (hlt innermost (List.mem_of_getLast? hlast)) (hbody innermost hlast)
    refine ⟨(g, true), Checked.bind_eq_ok.mpr ⟨_, hlanes, ?_⟩⟩
    rw [if_neg hempty]
    exact Checked.bind_eq_ok.mpr ⟨widened, hwiden, Checked.bind_eq_ok.mpr ⟨op, hop,
      Checked.bind_eq_ok.mpr ⟨_, hrep, Checked.bind_eq_ok.mpr ⟨g, hg, rfl⟩⟩⟩⟩

/-! ## 6. Entries of the unrolled function -/

namespace Unrolled

variable {innermost : OpId} {lanes : List Lane} {mark : Nat → Mark} {groups : Groups}

theorem mem_snd_iff (h : f.Unrolled innermost lanes mark groups g) {r : OpId} :
    (∃ e ∈ groups, r ∈ e.2) ↔ f.ops.size ≤ r ∧ r < g.ops.size := by
  rw [← List.mem_flatMap, h.slots, List.mem_range'_1, Nat.add_sub_cancel' h.size_le]

/-- An entry without a lane stays what it was, unless it is the innermost loop. -/
theorem entry_same (h : f.Unrolled innermost lanes mark groups g) {id : OpId} {op : Op}
    (hop : f.ops[id]? = some op) (hlane : ∀ lane ∈ lanes, lane.loop ≠ id) (hne : id ≠ innermost) :
    g.ops[id]? = some op := by
  rw [h.old id op hop, unrolledEntry, widening_eq_none mark hlane, if_neg hne]
  rfl

theorem parentOf_old (h : f.Unrolled innermost lanes mark groups g) {id : OpId}
    (hid : id < f.ops.size) : g.parentOf id = f.parentOf id := by
  obtain ⟨op, hop⟩ := exists_op_of_lt hid
  rw [parentOf_eq (h.old id op hop), parentOf_eq hop]
  rfl

theorem bodyOf_old (h : f.Unrolled innermost lanes mark groups g) {id : OpId}
    (hid : id < f.ops.size) (hne : id ≠ innermost) : g.bodyOf id = f.bodyOf id := by
  obtain ⟨op, hop⟩ := exists_op_of_lt hid
  rw [bodyOf_eq (h.old id op hop), bodyOf_eq hop]
  exact if_neg hne

theorem bodyOf_innermost (h : f.Unrolled innermost lanes mark groups g)
    (hid : innermost < f.ops.size) : g.bodyOf innermost = groups.block := by
  obtain ⟨op, hop⟩ := exists_op_of_lt hid
  rw [bodyOf_eq (h.old innermost op hop)]
  exact if_pos rfl

theorem kindOf_old (h : f.Unrolled innermost lanes mark groups g) {id : OpId} {k : Kind}
    (hk : f.kindOf id = some k) : g.kindOf id = some (changeLoop (widening mark lanes id) k) := by
  obtain ⟨op, hop, rfl⟩ := Option.map_eq_some_iff.mp hk
  rw [kindOf_eq (h.old id op hop)]
  rfl

/-- A replica differs from the compute it replicates only in running ahead by the offsets of some
combination of lanes. -/
theorem replica (h : f.Unrolled innermost lanes mark groups g) {e : OpId × List OpId}
    (he : e ∈ groups) {r : OpId} (hr : r ∈ e.2) :
    ∃ c more, f.kindOf e.1 = some (.compute c) ∧ more ∈ laneOffsets lanes ∧
      g.ops[r]? =
        some (fresh (some innermost) r (.compute { c with lanes := c.lanes ++ more })) := by
  obtain ⟨kind, hkind, hentry⟩ := Checked.forall₂_right (h.replicas e he) hr
  unfold replicasOf at hkind
  split at hkind
  · rename_i c hc
    obtain ⟨k, hk, hkc⟩ := Option.bind_eq_some_iff.mp hc
    obtain ⟨more, hmore, rfl⟩ := List.mem_map.mp hkind
    obtain rfl := Kind.eq_compute_of_compute? hkc
    exact ⟨c, more, hk, hmore, hentry⟩
  · cases hkind

theorem bodyOf_replica (h : f.Unrolled innermost lanes mark groups g) {e : OpId × List OpId}
    (he : e ∈ groups) {r : OpId} (hr : r ∈ e.2) : g.bodyOf r = [] := by
  obtain ⟨_, _, -, -, hentry⟩ := h.replica he hr
  rw [bodyOf_eq hentry]
  rfl

theorem parentOf_replica (h : f.Unrolled innermost lanes mark groups g) {e : OpId × List OpId}
    (he : e ∈ groups) {r : OpId} (hr : r ∈ e.2) : g.parentOf r = some innermost := by
  obtain ⟨_, _, -, -, hentry⟩ := h.replica he hr
  rw [parentOf_eq hentry]
  rfl

/-- The new body holds what the old one held, and the replicas. -/
theorem mem_block (h : f.Unrolled innermost lanes mark groups g) {id : OpId} :
    id ∈ groups.block ↔ id ∈ f.bodyOf innermost ∨ ∃ e ∈ groups, id ∈ e.2 := by
  simp only [Groups.block, List.mem_flatMap, List.mem_cons, ← h.originals, List.mem_map]
  constructor
  · rintro ⟨e, he, rfl | hid⟩
    · exact .inl ⟨e, he, rfl⟩
    · exact .inr ⟨e, he, hid⟩
  · rintro (⟨e, he, rfl⟩ | ⟨e, he, hid⟩)
    · exact ⟨e, he, .inl rfl⟩
    · exact ⟨e, he, .inr hid⟩

end Unrolled

theorem Groups.block_perm (groups : Groups) :
    groups.block.Perm (groups.map Prod.fst ++ groups.flatMap Prod.snd) := by
  induction groups with
  | nil => exact .nil
  | cons e groups ih =>
    simp only [Groups.block, List.flatMap_cons, List.map_cons, List.cons_append] at ih ⊢
    refine .cons _ ?_
    exact (ih.append_left e.2).trans (List.perm_append_comm_assoc _ _ _)

/-- In the new block the operations keep their order. -/
theorem Groups.map_fst_sublist_block (groups : Groups) :
    (groups.map Prod.fst).Sublist groups.block := by
  induction groups with
  | nil => exact .slnil
  | cons e groups ih =>
    simp only [Groups.block, List.flatMap_cons, List.map_cons, List.cons_append] at ih ⊢
    exact (ih.trans (List.sublist_append_right e.2 _)).cons_cons e.1

/-! ## 7. Unrolling keeps a function in order -/

namespace Unrolled

variable {innermost : OpId} {lanes : List Lane} {mark : Nat → Mark} {groups : Groups}

/-- What was reached is reached. -/
theorem reaches_old (h : f.Unrolled innermost lanes mark groups g) (hn : f.Nested) {id : OpId}
    (hid : f.Reaches id) : g.Reaches id := by
  induction hid with
  | top hid => exact .top (h.body ▸ hid)
  | @nested owner id howner hid ih =>
    refine .nested ih ?_
    by_cases heq : owner = innermost
    · subst heq
      rw [h.bodyOf_innermost (hn.lt_size howner)]
      exact h.mem_block.mpr (.inl hid)
    · rwa [h.bodyOf_old (hn.lt_size howner) heq]

/-- ...and nothing else, but for the replicas. -/
theorem reaches_cases (h : f.Unrolled innermost lanes mark groups g) (hn : f.Nested) {id : OpId}
    (hid : g.Reaches id) : f.Reaches id ∨ ∃ e ∈ groups, id ∈ e.2 := by
  induction hid with
  | top hid => exact .inl (.top (h.body ▸ hid))
  | @nested owner id howner hid ih =>
    rcases ih with hold | ⟨e, he, howner'⟩
    · by_cases heq : owner = innermost
      · subst heq
        rw [h.bodyOf_innermost (hn.lt_size hold), h.mem_block] at hid
        exact hid.imp_left fun hid => .nested hold hid
      · rw [h.bodyOf_old (hn.lt_size hold) heq] at hid
        exact .inl (.nested hold hid)
    · rw [h.bodyOf_replica he howner'] at hid
      cases hid

/-- A widened loop has the bounds it had. -/
theorem kindOf_loop (h : f.Unrolled innermost lanes mark groups g) {id : OpId} {l : Loop}
    (hl : f.kindOf id = some (.loop l)) :
    ∃ l', g.kindOf id = some (.loop l') ∧ l'.lower = l.lower ∧ l'.upper = l.upper := by
  refine ⟨_, changeLoop_loop (widening mark lanes id) l ▸ h.kindOf_old hl, ?_⟩
  unfold widening
  cases lanes.find? fun lane => lane.loop == id <;> exact ⟨rfl, rfl⟩

/-- ...and a loop of the new function was one. -/
theorem isLoop_of_isLoop (h : f.Unrolled innermost lanes mark groups g) (hn : f.Nested) {id : OpId}
    {l' : Loop} (hid : g.Reaches id) (hl' : g.kindOf id = some (.loop l')) :
    f.Reaches id ∧ ∃ l, f.kindOf id = some (.loop l) ∧ l'.lower = l.lower ∧ l'.upper = l.upper := by
  rcases h.reaches_cases hn hid with hold | ⟨e, he, hr⟩
  · obtain ⟨op, hop, -⟩ := hn.live id hold
    have hk := h.kindOf_old (kindOf_eq hop)
    rw [hl', Option.some.injEq] at hk
    obtain ⟨l, hkind, -⟩ := of_changeLoop_eq_loop hk.symm
    have hl : f.kindOf id = some (.loop l) := hkind ▸ kindOf_eq hop
    obtain ⟨l'', hl'', hbounds⟩ := h.kindOf_loop hl
    rw [hl'] at hl''
    cases hl''
    exact ⟨hold, l, hl, hbounds⟩
  · obtain ⟨c, more, -, -, hentry⟩ := h.replica he hr
    rw [kindOf_eq hentry] at hl'
    cases hl'

theorem nested (h : f.Unrolled innermost lanes mark groups g) (hn : f.Nested)
    (hinner : f.Reaches innermost) : g.Nested where
  nodup_body := h.body ▸ hn.nodup_body
  parentOf_top := fun id hid => by
    rw [h.body] at hid
    rw [h.parentOf_old (hn.lt_size (.top hid))]
    exact hn.parentOf_top id hid
  nodup_bodyOf := fun owner howner => by
    rcases h.reaches_cases hn howner with hold | ⟨e, he, hr⟩
    · by_cases heq : owner = innermost
      · subst heq
        rw [h.bodyOf_innermost (hn.lt_size hold), (Groups.block_perm groups).nodup_iff,
          h.originals, h.slots, List.nodup_append']
        refine ⟨hn.nodup_bodyOf owner hold, List.nodup_range', fun id hid hid' => ?_⟩
        -- The operations of the old body are old entries, the replicas new ones.
        have hlt := hn.lt_size (.nested hold hid)
        exact absurd (List.mem_range'_1.mp hid').1 (Nat.not_le.mpr hlt)
      · rw [h.bodyOf_old (hn.lt_size hold) heq]
        exact hn.nodup_bodyOf owner hold
    · rw [h.bodyOf_replica he hr]
      exact List.nodup_nil
  parentOf_nested := fun owner howner id hid => by
    rcases h.reaches_cases hn howner with hold | ⟨e, he, hr⟩
    · by_cases heq : owner = innermost
      · subst heq
        rw [h.bodyOf_innermost (hn.lt_size hold), h.mem_block] at hid
        rcases hid with hid | ⟨e, he, hr⟩
        · rw [h.parentOf_old (hn.lt_size (.nested hold hid))]
          exact hn.parentOf_nested owner hold id hid
        · exact h.parentOf_replica he hr
      · rw [h.bodyOf_old (hn.lt_size hold) heq] at hid
        rw [h.parentOf_old (hn.lt_size (.nested hold hid))]
        exact hn.parentOf_nested owner hold id hid
    · rw [h.bodyOf_replica he hr] at hid
      cases hid
  live := fun id hid => by
    rcases h.reaches_cases hn hid with hold | ⟨e, he, hr⟩
    · obtain ⟨op, hop, hlive⟩ := hn.live id hold
      exact ⟨_, h.old id op hop, hlive⟩
    · obtain ⟨_, _, -, -, hentry⟩ := h.replica he hr
      exact ⟨_, hentry, rfl⟩

theorem isLive_old (h : f.Unrolled innermost lanes mark groups g) {id : OpId} (hid : f.IsLive id) :
    g.IsLive id := by
  obtain ⟨op, hop, hlive⟩ := hid
  exact ⟨_, h.old id op hop, hlive⟩

theorem isLoop_old (h : f.Unrolled innermost lanes mark groups g) {id : OpId}
    (hid : f.IsLoop id) : g.IsLoop id := by
  obtain ⟨l, hl⟩ := hid
  exact ⟨_, changeLoop_loop (widening mark lanes id) l ▸ h.kindOf_old hl⟩

/-- The operations above a reached one are the same. -/
theorem above_old (h : f.Unrolled innermost lanes mark groups g) (hn : f.Nested) {a id : OpId}
    (hup : f.Above a id) : f.Reaches id → g.Above a id := by
  induction hup with
  | refl => exact fun _ => .refl
  | @tail parent id _ hp ih =>
    intro hid
    refine (ih (hn.holds_of_isParent hid hp).1).tail ?_
    rw [IsParent, h.parentOf_old (hn.lt_size hid)]
    exact hp

theorem tablesAgree (h : f.Unrolled innermost lanes mark groups g) (hf : f.TablesAgree) :
    g.TablesAgree := by
  refine hf.transfer h.values h.arguments (fun i op hop => ?_) fun i op hop =>
    ⟨_, h.old i op hop, result?_changeLoop _ op.kind⟩
  by_cases hi : i < f.ops.size
  · obtain ⟨op', hop'⟩ := exists_op_of_lt hi
    rw [h.old i op' hop'] at hop
    cases hop
    exact hf.opSlots i op' hop'
  · obtain ⟨e, he, hr⟩ := h.mem_snd_iff.mpr ⟨Nat.not_lt.mp hi, lt_size_of_some hop⟩
    obtain ⟨_, _, -, -, hentry⟩ := h.replica he hr
    rw [hentry] at hop
    cases hop
    rfl

/-- An old operation mentions what it mentioned. -/
theorem mentions_old (h : f.Unrolled innermost lanes mark groups g) (hf : f.Tidy)
    (hfactors : ∀ lane ∈ lanes, 1 < lane.factor) {id : OpId} {op : Op} (hid : f.Reaches id)
    (hop : f.ops[id]? = some op) :
    g.Mentions (g.Above · id) id (unrolledEntry innermost lanes mark groups id op) := by
  have hment := hf.mentions id op hid hop
  refine hment.transfer h.values (fun d => h.isLive_old) (operands_changeLoop _ op.kind)
    (result?_changeLoop _ op.kind) (fun l' hl' => ?_) fun c hc l hl => ?_
  · obtain ⟨l, hk, rfl⟩ := of_changeLoop_eq_loop hl'
    obtain ⟨hpos, htile⟩ := hment.loop l hk
    obtain ⟨hpoint, hstep⟩ := widening_spec mark hfactors id l
    refine ⟨hstep hpos, fun tile ht => h.isLoop_old (htile tile ?_)⟩
    rw [← hpoint]
    exact ht
  · have hkind : op.kind = .compute c := of_changeLoop_eq_compute hc
    obtain ⟨hloop, hup⟩ := hment.compute c hkind l hl
    exact ⟨h.isLoop_old hloop, h.above_old hf.toNested hup hid⟩

/-- A replica mentions the loops of the compute that it replicates, and loops with a lane. -/
theorem mentions_replica (h : f.Unrolled innermost lanes mark groups g) (hf : f.Tidy)
    (hinner : f.Reaches innermost)
    (hlanes : ∀ lane ∈ lanes, f.IsLoop lane.loop ∧ f.Above lane.loop innermost)
    {e : OpId × List OpId} (he : e ∈ groups) {r : OpId} (hr : r ∈ e.2) {op : Op}
    (hop : g.ops[r]? = some op) : g.Mentions (g.Above · r) r op := by
  obtain ⟨c, more, hc, hmore, hentry⟩ := h.replica he hr
  rw [hentry] at hop
  cases hop
  have horig : e.1 ∈ f.bodyOf innermost := h.originals ▸ List.mem_map_of_mem he
  obtain ⟨op, hop, hkind⟩ := Option.map_eq_some_iff.mp hc
  have hment := hf.mentions e.1 op (.nested hinner horig) hop
  have hup : ∀ {l : OpId}, f.Above l innermost → g.Above l r := fun hl =>
    (h.above_old hf.toNested hl hinner).tail (h.parentOf_replica he hr)
  exact
    { uses := fun v hv => by
        refine (hment.uses v ?_).transfer h.values fun d => h.isLive_old
        rw [hkind]
        exact hv
      result := fun v hv => by cases hv
      loop := fun l hl => by cases hl
      compute := fun c' hc' l hl => by
        cases hc'
        rw [Compute.loops_append_lanes, List.mem_append] at hl
        rcases hl with hl | hl
        · obtain ⟨hloop, hl⟩ := hment.compute c hkind l hl
          refine ⟨h.isLoop_old hloop,
            hup (hl.of_ne ?_ (hf.parentOf_nested _ hinner _ horig))⟩
          -- A loop and a compute are not the same operation.
          rintro rfl
          obtain ⟨l', hl'⟩ := hloop
          rw [hc] at hl'
          cases hl'
        · obtain ⟨o, ho, rfl⟩ := List.mem_map.mp hl
          obtain ⟨lane, hlane, heq⟩ := mem_laneOffsets hmore o ho
          rw [heq]
          exact ⟨h.isLoop_old (hlanes lane hlane).1, hup (hlanes lane hlane).2⟩ }

/-- **Unrolling keeps a function in order**, if the loops with a lane are around the innermost
body. -/
theorem tidy (h : f.Unrolled innermost lanes mark groups g) (hf : f.Tidy)
    (hfactors : ∀ lane ∈ lanes, 1 < lane.factor) (hinner : f.Reaches innermost)
    (hlanes : ∀ lane ∈ lanes, f.IsLoop lane.loop ∧ f.Above lane.loop innermost) : g.Tidy where
  toTablesAgree := h.tablesAgree hf.toTablesAgree
  toNested := h.nested hf.toNested hinner
  mentions := fun id op hid hop => by
    rcases h.reaches_cases hf.toNested hid with hold | ⟨e, he, hr⟩
    · obtain ⟨op', hop', -⟩ := hf.live id hold
      rw [h.old id op' hop'] at hop
      cases hop
      exact h.mentions_old hf hfactors hold hop'
    · exact h.mentions_replica hf hinner hlanes he hr hop

theorem nodeOver_old (h : f.Unrolled innermost lanes mark groups g) {start : Option OpId}
    {node : OpId} (hover : f.NodeOver start node) : g.NodeOver start node := by
  induction hover with
  | @here id op hop hnode =>
    exact .here (h.old id op hop) ((isNode_changeLoop _ op.kind).trans hnode)
  | @up id node op hop hnode _ ih =>
    exact .up (h.old id op hop) ((isNode_changeLoop _ op.kind).trans hnode) ih

/-- A band without a loop of the unrolled one stays a band of its node. -/
theorem ownBand_old (h : f.Unrolled innermost lanes mark groups g) (hn : f.Nested) {node : OpId}
    {band : Band}
    (hband : f.OwnBand node band) (hinner : innermost ∉ band) : g.OwnBand node band where
  reaches := fun id hid => h.reaches_old hn (hband.reaches id hid)
  isLoop := fun id hid => h.isLoop_old (hband.isLoop id hid)
  chain := hband.chain.imp_of_mem_imp fun outer inner houter _ hbody => by
    rw [h.bodyOf_old (hn.lt_size (hband.reaches outer houter)) fun heq => hinner (heq ▸ houter)]
    exact hbody
  inNode := fun id hid => by
    rw [InNode, h.parentOf_old (hn.lt_size (hband.reaches id hid))]
    exact h.nodeOver_old (hband.inNode id hid)

/-- ...and goes as deep as its nest if it did. -/
theorem innerBand_old (h : f.Unrolled innermost lanes mark groups g) (hn : f.Nested) {node : OpId}
    {band : Band} (hband : f.InnerBand node band) (hinner : innermost ∉ band) :
    g.InnerBand node band where
  toOwnBand := h.ownBand_old hn hband.toOwnBand hinner
  endsNest := fun last hlast inner hbody hloop => by
    have hmem : last ∈ band := List.mem_of_getLast? hlast
    have hreach : f.Reaches last := hband.reaches last hmem
    rw [h.bodyOf_old (hn.lt_size hreach) fun heq => hinner (heq ▸ hmem)] at hbody
    obtain ⟨l', hl'⟩ := hloop
    have hchild : f.Reaches inner := .nested hreach (by rw [hbody]; exact List.mem_cons_self)
    obtain ⟨-, l, hl, -⟩ := h.isLoop_of_isLoop hn (h.reaches_old hn hchild) hl'
    exact hband.endsNest last hlast inner hbody ⟨l, hl⟩

end Unrolled

/-! ## 8. One band -/

theorem lanesOf_factor {band : Band} {factors : List Nat} :
    ∀ lane ∈ f.lanesOf band factors, 1 < lane.factor := by
  intro lane hlane
  obtain ⟨e, -, he⟩ := List.mem_filterMap.mp hlane
  obtain ⟨l, -, hfactor, rfl⟩ := laneOf_eq_some he
  exact hfactor

theorem PerfectNest.lt_size_body {band : Band} (hband : f.PerfectNest band) (hf : f.Nested) :
    ∀ innermost, band.getLast? = some innermost →
      ∀ id ∈ f.bodyOf innermost, id < f.ops.size := by
  intro innermost hlast id hid
  exact hf.lt_size (.nested (hband.reaches innermost (List.mem_of_getLast? hlast)) hid)

/-- Unrolling a perfect nest either leaves the function as it is, or unrolls it. -/
theorem PerfectNest.replicateBand (hf : f.Nested) {band : Band} (hband : f.PerfectNest band)
    {factors : List Nat} {mark : Nat → Mark} {changed : Bool}
    (h : f.replicateBand band factors mark = .ok (g, changed)) :
    g = f ∨ (f.lanesOf band factors ≠ [] ∧ ∃ innermost groups, band.getLast? = some innermost ∧
      f.Unrolled innermost (f.lanesOf band factors) mark groups g) := by
  cases changed with
  | false => exact .inl (replicateBand_unchanged h).1
  | true =>
    exact .inr (replicateBand_spec (hband.nodup hf) (hband.lt_size_body hf) h).2

/-- What unrolling a band carries over to the new function. -/
structure Carries (f : Func) (band : Band) (g : Func) : Prop where
  tidy : g.Tidy
  reaches : ∀ id, f.Reaches id → g.Reaches id
  isNode : ∀ id, f.IsNode id → g.IsNode id
  inNode : ∀ node id, f.Reaches id → f.InNode node id → g.InNode node id
  innerBand : ∀ node other, f.InnerBand node other → band.Disjoint other → g.InnerBand node other

theorem Carries.refl (hf : f.Tidy) (band : Band) : f.Carries band f where
  tidy := hf
  reaches := fun _ h => h
  isNode := fun _ h => h
  inNode := fun _ _ _ h => h
  innerBand := fun _ _ h _ => h

/-- **Unrolling a perfect nest keeps the function in order**, and the bands that have no loop in
common with it. -/
theorem PerfectNest.carries (hf : f.Tidy) {band : Band} (hband : f.PerfectNest band)
    {factors : List Nat} {mark : Nat → Mark} {changed : Bool}
    (h : f.replicateBand band factors mark = .ok (g, changed)) : f.Carries band g := by
  rcases hband.replicateBand hf.toNested h with rfl | ⟨-, innermost, groups, hlast, hu⟩
  · exact .refl hf band
  · have hinner : innermost ∈ band := List.mem_of_getLast? hlast
    have hlanes : ∀ lane ∈ f.lanesOf band factors,
        f.IsLoop lane.loop ∧ f.Above lane.loop innermost := fun lane hlane => by
      have hmem : lane.loop ∈ band := loop_mem_of_mem_lanesOf hlane
      exact ⟨hband.isLoop _ hmem, hband.above_last hf.toNested hlast _ hmem⟩
    exact
      { tidy := hu.tidy hf lanesOf_factor (hband.reaches _ hinner) hlanes
        reaches := fun id hid => hu.reaches_old hf.toNested hid
        isNode := fun id hid => by
          obtain ⟨op, hop, hnode⟩ := hid
          exact ⟨_, hu.old id op hop, (isNode_changeLoop _ op.kind).trans hnode⟩
        inNode := fun node id hid hnode => by
          rw [InNode, hu.parentOf_old (hf.toNested.lt_size hid)]
          exact hu.nodeOver_old hnode
        innerBand := fun node other hother hdis =>
          hu.innerBand_old hf.toNested hother (hdis hinner) }

end Func
end Dataflow
