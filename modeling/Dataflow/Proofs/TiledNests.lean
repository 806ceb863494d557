/-
# The nest that tiling leaves

`Func.Tiled` says what a tiled function is: the loops of a band are split, and the computes below
are redirected to the pairs of a tile and a point loop.  Bounds that only a run decides play no
part in it (`Func.Tiled.withBounds`).

Two facts about the new nest carry everything else.  A value of a loop is in one way the sum of a
value of its tile loop and one of its point loop, and the sums are in the order of the pairs
(`TileHeader.Splits.mem_values_iff`, `TileHeader.Splits.add_lt_add_iff`).  And an operation below
the band has the loops around it that it had, and all point loops (`Func.Tiled.around_iff`).
-/
import Dataflow.Proofs.RunTimeBounds
import Dataflow.Proofs.Tiling

namespace Dataflow

/-- In a table without repeated keys an entry is found by its key. -/
theorem find?_fst_of_mem {α : Type} {table : List (OpId × α)} (hnd : (table.map Prod.fst).Nodup)
    {e : OpId × α} (he : e ∈ table) : table.find? (fun e' => e'.1 == e.1) = some e := by
  cases hfind : table.find? fun e' => e'.1 == e.1 with
  | none => simpa using List.find?_eq_none.mp hfind e he
  | some e' =>
    have heq : e'.1 = e.1 := by simpa using List.find?_some hfind
    rw [List.inj_on_of_nodup_map hnd (List.mem_of_find?_eq_some hfind) he heq]

/-! ## 1. A loop and its tiles -/

namespace Loop

/-- The values of a loop with a known trip count. -/
def values (l : Loop) : List Int := l.values?.getD []

theorem mem_values {l : Loop} {n : Nat} (h : l.tripCount = some n) {v : Int} :
    v ∈ l.values ↔ ∃ k : Nat, k < n ∧ v = l.lower + k * l.step := by
  obtain ⟨upper, hupper⟩ := upper_of_tripCount h
  have hstep := step_pos_of_tripCount h
  have hvalues : l.values = (List.range n).map fun (k : Nat) => l.lower + k * l.step := by
    rw [values, values?_eq hupper hstep (lt_tripCount hupper hstep h), Option.getD_some]
  rw [hvalues]
  simp [eq_comm]

end Loop

namespace TileHeader

/-- `h.Splits l`: a header by which `l` is tiled.  The tile size divides the trip count, and a
whole tile is within the range of machine words. -/
structure Splits (h : TileHeader) (l : Loop) : Prop where
  step : h.step = l.step
  divides : ∃ size blocks : Nat, h.size = size ∧ 0 < size ∧ l.tripCount = some (blocks * size)
  fits : isInt64 (h.size * h.step) = true

variable {h : TileHeader} {l : Loop} {tile : OpId}

namespace Splits

theorem tripCount_tileLoop (hs : h.Splits l) {size blocks : Nat} (hsize : h.size = size)
    (hpos : 0 < size) (htrip : l.tripCount = some (blocks * size)) :
    (h.tileLoop l).tripCount = some blocks := by
  have hwide : (h.tileLoop l).step = l.step * size := by
    rw [tileLoop, hs.step, hsize]
  exact Loop.tripCount_blocks hwide hpos htrip rfl rfl

theorem tripCount_pointLoop (hs : h.Splits l) {size blocks : Nat} (hsize : h.size = size)
    (htrip : l.tripCount = some (blocks * size)) : (h.pointLoop tile).tripCount = some size := by
  have hstep := Loop.step_pos_of_tripCount htrip
  have hpoint : 0 < (h.pointLoop tile).step := by
    change 0 < h.step
    rw [hs.step]
    exact hstep
  have hupper : (h.pointLoop tile).upper = some (h.size * h.step) := rfl
  refine Loop.tripCount_eq hupper hpoint fun k => ?_
  change k < size ↔ 0 + (k : Int) * h.step < h.size * h.step
  rw [hs.step, hsize, Int.zero_add, Int.mul_lt_mul_right hstep, Int.ofNat_lt]

/-- The values of a tile loop start the tiles, those of a point loop run through one. -/
theorem values_eq (hs : h.Splits l) (tile : OpId) : ∃ size blocks : Nat, 0 < size ∧ 0 < l.step ∧
    (∀ v, v ∈ l.values ↔ ∃ i : Nat, i < blocks * size ∧ v = l.lower + i * l.step) ∧
    (∀ a, a ∈ (h.tileLoop l).values ↔
      ∃ j : Nat, j < blocks ∧ a = l.lower + j * (l.step * size)) ∧
    ∀ b, b ∈ (h.pointLoop tile).values ↔ ∃ k : Nat, k < size ∧ b = k * l.step := by
  obtain ⟨size, blocks, hsize, hpos, htrip⟩ := hs.divides
  refine ⟨size, blocks, hpos, Loop.step_pos_of_tripCount htrip, fun v => Loop.mem_values htrip,
    fun a => ?_, fun b => ?_⟩
  · rw [Loop.mem_values (hs.tripCount_tileLoop hsize hpos htrip), tileLoop, hs.step, hsize]
  · rw [Loop.mem_values (hs.tripCount_pointLoop hsize htrip)]
    simp [pointLoop, Loop.plain, hs.step]

/-- **A value of the loop is a value of the tile loop and one of the point loop.** -/
theorem mem_values_iff (hs : h.Splits l) (tile : OpId) {v : Int} : v ∈ l.values ↔
    ∃ a ∈ (h.tileLoop l).values, ∃ b ∈ (h.pointLoop tile).values, v = a + b := by
  obtain ⟨size, blocks, hpos, -, hloop, htile, hpoint⟩ := hs.values_eq tile
  rw [hloop]
  constructor
  · rintro ⟨i, hi, rfl⟩
    refine ⟨l.lower + (i / size : Nat) * (l.step * size), (htile _).mpr ⟨i / size, ?_, rfl⟩,
      (i % size : Nat) * l.step, (hpoint _).mpr ⟨i % size, Nat.mod_lt i hpos, rfl⟩, ?_⟩
    · exact (Nat.div_lt_iff_lt_mul hpos).mpr hi
    · have hi : (i : Int) = size * (i / size : Nat) + (i % size : Nat) := by
        rw [← Int.natCast_mul, ← Int.natCast_add, Nat.div_add_mod]
      nth_rewrite 1 [hi]
      ring
  · rintro ⟨a, ha, b, hb, rfl⟩
    obtain ⟨j, hj, rfl⟩ := (htile a).mp ha
    obtain ⟨k, hk, rfl⟩ := (hpoint b).mp hb
    refine ⟨j * size + k, ?_, ?_⟩
    · calc j * size + k < j * size + size := Nat.add_lt_add_left hk _
        _ = (j + 1) * size := (Nat.succ_mul j size).symm
        _ ≤ blocks * size := Nat.mul_le_mul_right size hj
    · push_cast
      ring

/-- An earlier tile is over before a later one starts. -/
theorem add_lt_add_of_lt (hs : h.Splits l) {a a' b b' : Int} (ha : a ∈ (h.tileLoop l).values)
    (ha' : a' ∈ (h.tileLoop l).values) (hb : b ∈ (h.pointLoop tile).values)
    (hb' : b' ∈ (h.pointLoop tile).values) (hlt : a < a') : a + b < a' + b' := by
  obtain ⟨size, blocks, hpos, hstep, -, htile, hpoint⟩ := hs.values_eq tile
  obtain ⟨j, -, rfl⟩ := (htile a).mp ha
  obtain ⟨j', -, rfl⟩ := (htile a').mp ha'
  obtain ⟨k, hk, rfl⟩ := (hpoint b).mp hb
  obtain ⟨k', -, rfl⟩ := (hpoint b').mp hb'
  have htileStep : 0 < l.step * size := Int.mul_pos hstep (Int.natCast_pos.mpr hpos)
  have hj : (j : Int) + 1 ≤ j' := by
    have := (Int.mul_lt_mul_right htileStep).mp (Int.lt_of_add_lt_add_left hlt)
    omega
  have hnext := Int.mul_le_mul_of_nonneg_right hj (Int.le_of_lt htileStep)
  have hwithin : (k : Int) * l.step < l.step * size := by
    rw [Int.mul_comm l.step]
    exact (Int.mul_lt_mul_right hstep).mpr (Int.ofNat_lt.mpr hk)
  have hstart : 0 ≤ (k' : Int) * l.step :=
    Int.mul_nonneg (Int.natCast_nonneg k') (Int.le_of_lt hstep)
  rw [Int.add_mul, Int.one_mul] at hnext
  omega

/-- **The sums are in the order of the pairs.** -/
theorem add_lt_add_iff (hs : h.Splits l) {a a' b b' : Int} (ha : a ∈ (h.tileLoop l).values)
    (ha' : a' ∈ (h.tileLoop l).values) (hb : b ∈ (h.pointLoop tile).values)
    (hb' : b' ∈ (h.pointLoop tile).values) : a + b < a' + b' ↔ a < a' ∨ a = a' ∧ b < b' := by
  constructor
  · intro hlt
    rcases Int.lt_trichotomy a a' with ha₁ | rfl | ha₁
    · exact .inl ha₁
    · exact .inr ⟨rfl, by omega⟩
    · have := hs.add_lt_add_of_lt ha' ha hb' hb ha₁
      omega
  · rintro (hlt | ⟨rfl, hlt⟩)
    · exact hs.add_lt_add_of_lt ha ha' hb hb' hlt
    · omega

/-- So the pair can be told from the sum. -/
theorem add_inj (hs : h.Splits l) {a a' b b' : Int} (ha : a ∈ (h.tileLoop l).values)
    (ha' : a' ∈ (h.tileLoop l).values) (hb : b ∈ (h.pointLoop tile).values)
    (hb' : b' ∈ (h.pointLoop tile).values) (heq : a + b = a' + b') : a = a' ∧ b = b' := by
  have hlt := hs.add_lt_add_iff ha ha' hb hb'
  have hgt := hs.add_lt_add_iff ha' ha hb' hb
  omega

end Splits
end TileHeader

namespace Func

variable {f g : Func} {innermost : OpId} {tiles : List (OpId × TileHeader)}

/-! ## 2. The nesting of a split band -/

/-- The slots of the point loops. -/
def points (f : Func) (tiles : List (OpId × TileHeader)) : List OpId :=
  List.range' f.ops.size tiles.length

/-- Each loop of the band with its point loop. -/
def pairing (f : Func) (tiles : List (OpId × TileHeader)) : Redirection :=
  (tiles.map Prod.fst).zip (f.points tiles)

theorem mem_points {p : OpId} :
    p ∈ f.points tiles ↔ ∃ position, position < tiles.length ∧ p = f.ops.size + position := by
  simp only [points, List.mem_range', Nat.one_mul]

@[simp] theorem map_fst_pairing : (f.pairing tiles).map Prod.fst = tiles.map Prod.fst := by
  simp [pairing, points, List.map_fst_zip]

@[simp] theorem map_snd_pairing : (f.pairing tiles).map Prod.snd = f.points tiles := by
  simp [pairing, points, List.map_snd_zip]

theorem mem_pairing {t p : OpId} : (t, p) ∈ f.pairing tiles ↔
    ∃ position h, tiles[position]? = some (t, h) ∧ p = f.ops.size + position := by
  rw [pairing, List.mem_iff_getElem?]
  refine exists_congr fun position => ?_
  rw [List.getElem?_zip_eq_some]
  simp only [List.getElem?_map, Option.map_eq_some_iff, points]
  constructor
  · rintro ⟨⟨⟨t', h⟩, he, rfl⟩, hp⟩
    rw [List.getElem?_eq_some_iff] at hp
    obtain ⟨hlt, rfl⟩ := hp
    exact ⟨h, he, by simp⟩
  · rintro ⟨h, he, rfl⟩
    have hlt : position < tiles.length := (List.getElem?_eq_some_iff.mp he).1
    exact ⟨⟨(t, h), he, rfl⟩, by simp [hlt]⟩

namespace Split

theorem above_point_iff (h : f.Split innermost tiles g) {a : OpId} : ∀ {position : Nat},
    position < tiles.length → (g.Above a (f.ops.size + position) ↔
      g.Above a innermost ∨ ∃ q, q ≤ position ∧ a = f.ops.size + q)
  | 0, hlt => by
    rw [above_iff, h.parentOf_point hlt]
    constructor
    · rintro (rfl | ⟨parent, hp, hup⟩)
      · exact .inr ⟨0, Nat.le_refl 0, rfl⟩
      · cases hp
        exact .inl hup
    · rintro (hup | ⟨q, hq, rfl⟩)
      · exact .inr ⟨innermost, rfl, hup⟩
      · exact .inl (by rw [Nat.le_zero.mp hq])
  | position + 1, hlt => by
    rw [above_iff, h.parentOf_point hlt]
    have ih := h.above_point_iff (a := a) (Nat.lt_of_succ_lt hlt)
    constructor
    · rintro (rfl | ⟨parent, hp, hup⟩)
      · exact .inr ⟨position + 1, Nat.le_refl _, rfl⟩
      · cases hp
        rcases ih.mp hup with hup | ⟨q, hq, rfl⟩
        · exact .inl hup
        · exact .inr ⟨q, Nat.le_succ_of_le hq, rfl⟩
    · rintro (hup | ⟨q, hq, rfl⟩)
      · exact .inr ⟨_, rfl, ih.mpr (.inl hup)⟩
      · rcases Nat.lt_or_ge position q with hlt' | hle
        · exact .inl (by rw [Nat.le_antisymm hq hlt'])
        · exact .inr ⟨_, rfl, ih.mpr (.inr ⟨q, hle, rfl⟩)⟩

theorem above_lastPoint_iff (h : f.Split innermost tiles g) (hne : tiles ≠ []) {a : OpId} :
    g.Above a (f.lastPoint tiles) ↔ g.Above a innermost ∨ a ∈ f.points tiles := by
  have hpos : 0 < tiles.length := List.length_pos_of_ne_nil hne
  rw [lastPoint, h.above_point_iff (Nat.sub_lt hpos Nat.one_pos), mem_points]
  refine or_congr_right (exists_congr fun q => ?_)
  have : q ≤ tiles.length - 1 ↔ q < tiles.length := by omega
  rw [this]

/-- **What is above an operation after splitting**: what was, and below the band the point
loops. -/
theorem above_iff_old (h : f.Split innermost tiles g) (hn : f.Nested) (hne : tiles ≠ [])
    (hinner : f.Reaches innermost) {a x : OpId} (hx : f.Reaches x) :
    g.Above a x ↔ f.Above a x ∨ (f.Above innermost x ∧ innermost ≠ x) ∧ a ∈ f.points tiles := by
  induction hx with
  | @top x hx =>
    have hold : f.parentOf x = none := hn.parentOf_top x hx
    have hnew : g.parentOf x = none := (h.nested hn hne hinner).parentOf_top x (h.body ▸ hx)
    have hnot : ¬ (f.Above innermost x ∧ innermost ≠ x) := by
      rintro ⟨hup, hne⟩
      rcases above_iff.mp hup with heq | ⟨parent, hp, -⟩
      · exact hne heq
      · rw [hold] at hp
        cases hp
    rw [above_iff, above_iff (f := f), hold, hnew]
    simp [hnot]
  | @nested owner x howner hx ih =>
    have hxr : f.Reaches x := .nested howner hx
    have hparent := hn.parentOf_nested owner howner x hx
    have hold := h.parentOf_old (hn.lt_size hxr)
    rw [above_iff, above_iff (f := f) (a := a), hparent]
    by_cases heq : owner = innermost
    · -- The body of the innermost loop has moved below the last point loop.
      subst heq
      have hin : f.Above owner x ∧ owner ≠ x :=
        ⟨.single hparent, fun heq => hn.not_above_owner howner hx (heq ▸ .refl)⟩
      rw [if_pos hx] at hold
      simp [hold, h.above_lastPoint_iff hne, ih, hin, or_assoc]
    · have hmem : x ∉ f.bodyOf innermost := by
        intro hmem
        rw [hn.parentOf_nested innermost hinner x hmem] at hparent
        exact heq (Option.some.inj hparent).symm
      have hin : f.Above innermost x ∧ innermost ≠ x ↔
          f.Above innermost owner ∧ innermost ≠ owner := by
        constructor
        · rintro ⟨hup, hne⟩
          exact ⟨hup.of_ne hne hparent, fun h => heq h.symm⟩
        · rintro ⟨hup, -⟩
          exact ⟨hup.tail hparent, fun heq => hn.not_above_owner howner hx (heq ▸ hup)⟩
      rw [if_neg hmem] at hold
      simp [hold, hparent, ih, hin, or_assoc]

end Split

/-! ## 3. Tiled functions -/

/-- `f.Tiled innermost tiles g`: `g` is `f` with a band that ends at `innermost` tiled.  Its loops
are split, and the computes below the last point loop redirected. -/
structure Tiled (f : Func) (innermost : OpId) (tiles : List (OpId × TileHeader)) (g : Func) :
    Prop where
  tidy : f.Tidy
  tidy_tiled : g.Tidy
  nest : f.PerfectNest (tiles.map Prod.fst)
  last : (tiles.map Prod.fst).getLast? = some innermost
  splits : ∀ e ∈ tiles, ∃ l, f.kindOf e.1 = some (.loop l) ∧ e.2.Splits l
  steps : ∃ split ids, f.Split innermost tiles split ∧
    (∀ id, id ∈ ids ↔ split.Reaches id ∧ split.Above (f.lastPoint tiles) id) ∧
    g = split.edit (redirectAt (f.pairing tiles) ids)

namespace Tiled

theorem mem_innermost (T : f.Tiled innermost tiles g) : innermost ∈ tiles.map Prod.fst :=
  List.mem_of_getLast? T.last

theorem reaches_innermost (T : f.Tiled innermost tiles g) : f.Reaches innermost :=
  T.nest.reaches innermost T.mem_innermost

theorem isLoop_innermost (T : f.Tiled innermost tiles g) : f.IsLoop innermost :=
  T.nest.isLoop innermost T.mem_innermost

theorem tiles_ne_nil (T : f.Tiled innermost tiles g) : tiles ≠ [] := by
  intro hnil
  have hmem := T.mem_innermost
  rw [hnil] at hmem
  cases hmem

theorem lt_size_of_mem (T : f.Tiled innermost tiles g) {t : OpId} (ht : t ∈ tiles.map Prod.fst) :
    t < f.ops.size := T.tidy.toNested.lt_size (T.nest.reaches t ht)

theorem not_mem_points {x : OpId} (hx : x < f.ops.size) : x ∉ f.points tiles := by
  intro hmem
  obtain ⟨position, -, rfl⟩ := mem_points.mp hmem
  exact Nat.not_lt.mpr (Nat.le_add_right _ position) hx

/-- The nesting is the one that splitting leaves. -/
theorem exists_split (T : f.Tiled innermost tiles g) :
    ∃ split, f.Split innermost tiles split ∧ split.SameNesting g := by
  obtain ⟨split, ids, hsplit, -, rfl⟩ := T.steps
  exact ⟨split, hsplit, sameNesting_redirect split _ ids⟩

theorem reaches_old (T : f.Tiled innermost tiles g) {x : OpId} (hx : f.Reaches x) :
    g.Reaches x := by
  obtain ⟨split, hsplit, hsame⟩ := T.exists_split
  exact hsame.reaches (hsplit.reaches_old T.tidy.toNested T.tiles_ne_nil hx)

theorem reaches_cases (T : f.Tiled innermost tiles g) {x : OpId} (hx : g.Reaches x) :
    f.Reaches x ∨ x ∈ f.points tiles := by
  obtain ⟨split, hsplit, hsame⟩ := T.exists_split
  rw [mem_points]
  exact hsplit.reaches_cases T.tidy.toNested T.tiles_ne_nil T.reaches_innermost
    (hsame.reaches_iff.mp hx)

theorem above_iff_old (T : f.Tiled innermost tiles g) {a x : OpId} (hx : f.Reaches x) :
    g.Above a x ↔ f.Above a x ∨ f.Around innermost x ∧ a ∈ f.points tiles := by
  obtain ⟨split, hsplit, hsame⟩ := T.exists_split
  rw [hsame.above_iff,
    hsplit.above_iff_old T.tidy.toNested T.tiles_ne_nil T.reaches_innermost hx]
  simp [Around, T.isLoop_innermost]

/-! ## 4. What its operations are -/

/-- A loop is split, or stays as it was. -/
theorem kindOf_loop (T : f.Tiled innermost tiles g) {x : OpId} {l : Loop}
    (hk : f.kindOf x = some (.loop l)) :
    g.kindOf x = some (.loop ((tiling tiles x).getD id l)) := by
  obtain ⟨split, ids, hsplit, -, rfl⟩ := T.steps
  obtain ⟨op, hop, hkind⟩ := Option.map_eq_some_iff.mp hk
  have hentry := hsplit.old x op hop
  have hloop : (f.splitEntry innermost tiles x op).kind = .loop ((tiling tiles x).getD id l) := by
    simp only [splitEntry, hkind, changeLoop_loop]
  rw [kindOf, getElem?_ops_edit, hentry]
  rcases redirectAt_cases (f.pairing tiles) ids x (f.splitEntry innermost tiles x op) with
    heq | ⟨c, -, hc, -⟩
  · simp [heq, hloop]
  · rw [hloop] at hc
    cases hc

theorem kindOf_tile (T : f.Tiled innermost tiles g) {e : OpId × TileHeader} (he : e ∈ tiles)
    {l : Loop} (hk : f.kindOf e.1 = some (.loop l)) :
    g.kindOf e.1 = some (.loop (e.2.tileLoop l)) := by
  rw [T.kindOf_loop hk, tiling, find?_fst_of_mem (T.nest.nodup T.tidy.toNested) he]
  rfl

theorem kindOf_other (T : f.Tiled innermost tiles g) {x : OpId} (hx : x ∉ tiles.map Prod.fst)
    {l : Loop} (hk : f.kindOf x = some (.loop l)) : g.kindOf x = some (.loop l) := by
  have hfind : (tiles.find? fun e => e.1 == x) = none := by
    rw [List.find?_eq_none]
    intro e he heq
    exact hx (List.mem_map.mpr ⟨e, he, beq_iff_eq.mp heq⟩)
  rw [T.kindOf_loop hk, tiling, hfind]
  rfl

theorem kindOf_point (T : f.Tiled innermost tiles g) {position : Nat} {e : OpId × TileHeader}
    (he : tiles[position]? = some e) :
    g.kindOf (f.ops.size + position) = some (.loop (e.2.pointLoop e.1)) := by
  obtain ⟨split, ids, hsplit, -, rfl⟩ := T.steps
  rw [kindOf, getElem?_ops_edit, hsplit.point position e he]
  rcases redirectAt_cases (f.pairing tiles) ids (f.ops.size + position)
    (f.splitPoint innermost tiles position e) with heq | ⟨c, -, hc, -⟩
  · rw [Option.map_some, Option.map_some, heq]
    rfl
  · cases hc

/-- A compute is redirected if it stands below the band. -/
theorem kindOf_compute (T : f.Tiled innermost tiles g) {x : OpId} (hx : f.Reaches x) {c : Compute}
    (hk : f.kindOf x = some (.compute c)) :
    (f.Around innermost x → g.kindOf x = some (.compute ((f.pairing tiles).compute c))) ∧
      (¬ f.Around innermost x → g.kindOf x = some (.compute c)) := by
  have hn := T.tidy.toNested
  obtain ⟨split, ids, hsplit, hids, rfl⟩ := T.steps
  obtain ⟨op, hop, hkind⟩ := Option.map_eq_some_iff.mp hk
  have hmem : x ∈ ids ↔ f.Around innermost x := by
    have hlt : ¬ f.Above (f.lastPoint tiles) x := fun hup => by
      have := hn.lt_size (hn.reaches_of_above hup hx)
      simp [lastPoint] at this
    have hlast : f.lastPoint tiles ∈ f.points tiles :=
      mem_points.mpr ⟨_, Nat.sub_lt (List.length_pos_of_ne_nil T.tiles_ne_nil) Nat.one_pos, rfl⟩
    rw [hids, hsplit.above_iff_old hn T.tiles_ne_nil T.reaches_innermost hx]
    simp [hsplit.reaches_old hn T.tiles_ne_nil hx, hlt, hlast, Around, T.isLoop_innermost]
  have hentry : (f.splitEntry innermost tiles x op).kind = .compute c := by
    simp only [splitEntry, hkind]
    cases tiling tiles x <;> rfl
  rw [kindOf, getElem?_ops_edit, hsplit.old x op hop, ← hmem]
  constructor
  · intro hin
    simp [redirectAt, hin, Redirection.op, hentry]
  · intro hout
    simp [redirectAt, hout, hentry]

/-- Tiling makes no computes. -/
theorem of_kindOf_compute (T : f.Tiled innermost tiles g) {x : OpId} {c : Compute}
    (hk : g.kindOf x = some (.compute c)) : ∃ c', f.kindOf x = some (.compute c') := by
  obtain ⟨split, ids, hsplit, -, rfl⟩ := T.steps
  rw [kindOf, getElem?_ops_edit, Option.map_map, Option.map_eq_some_iff] at hk
  obtain ⟨op, hop, hc⟩ := hk
  have hcompute : ∃ c', op.kind = .compute c' := by
    rcases redirectAt_cases (f.pairing tiles) ids x op with heq | ⟨c', -, hc', -⟩
    · exact ⟨c, by rwa [Function.comp_apply, heq] at hc⟩
    · exact ⟨c', hc'⟩
  obtain ⟨c', hc'⟩ := hcompute
  by_cases hx : x < f.ops.size
  · obtain ⟨old, hold⟩ := exists_op_of_lt hx
    rw [hsplit.old x old hold] at hop
    cases hop
    exact ⟨c', (kindOf_eq hold).trans (congrArg some (of_changeLoop_eq_compute hc'))⟩
  · obtain ⟨position, rfl⟩ := Nat.exists_eq_add_of_le (Nat.not_lt.mp hx)
    have hlt : position < tiles.length :=
      Nat.lt_of_add_lt_add_left (hsplit.size ▸ lt_size_of_some hop)
    obtain ⟨e, -, hentry⟩ := hsplit.point_of_lt hlt
    rw [hentry] at hop
    cases hop
    cases hc'

theorem isLoop_iff (T : f.Tiled innermost tiles g) {l : OpId} :
    g.IsLoop l ↔ f.IsLoop l ∨ l ∈ f.points tiles := by
  constructor
  · rintro ⟨header, hk⟩
    obtain ⟨split, ids, hsplit, -, rfl⟩ := T.steps
    rw [kindOf, getElem?_ops_edit, Option.map_map, Option.map_eq_some_iff] at hk
    obtain ⟨op, hop, hkind⟩ := hk
    have hloop : op.kind = .loop header := by
      rcases redirectAt_cases (f.pairing tiles) ids l op with heq | ⟨c, -, -, heq⟩
      · rwa [Function.comp_apply, heq] at hkind
      · rw [Function.comp_apply, heq] at hkind
        cases hkind
    by_cases hl : l < f.ops.size
    · obtain ⟨old, hold⟩ := exists_op_of_lt hl
      rw [hsplit.old l old hold] at hop
      cases hop
      obtain ⟨header', hold', -⟩ := of_changeLoop_eq_loop hloop
      exact .inl ⟨header', (kindOf_eq hold).trans (congrArg some hold')⟩
    · obtain ⟨position, rfl⟩ := Nat.exists_eq_add_of_le (Nat.not_lt.mp hl)
      exact .inr (mem_points.mpr
        ⟨position, Nat.lt_of_add_lt_add_left (hsplit.size ▸ lt_size_of_some hop), rfl⟩)
  · rintro (⟨header, hk⟩ | hmem)
    · exact ⟨_, T.kindOf_loop hk⟩
    · obtain ⟨position, hlt, rfl⟩ := mem_points.mp hmem
      exact ⟨_, T.kindOf_point (List.getElem?_eq_getElem hlt)⟩

/-! ## 5. Loops around an operation -/

/-- **The loops around an operation of a tiled function**: those that were, and below the band all
point loops. -/
theorem around_iff (T : f.Tiled innermost tiles g) {l x : OpId} (hx : f.Reaches x) :
    g.Around l x ↔ f.Around l x ∨ f.Around innermost x ∧ l ∈ f.points tiles := by
  have hn := T.tidy.toNested
  unfold Around
  rw [T.isLoop_iff, T.above_iff_old hx]
  constructor
  · rintro ⟨hloop, hup | ⟨hin, hl⟩, hne⟩
    · have hlr := hn.lt_size (hn.reaches_of_above hup hx)
      exact .inl ⟨hloop.resolve_right (not_mem_points hlr), hup, hne⟩
    · exact .inr ⟨hin, hl⟩
  · rintro (⟨hloop, hup, hne⟩ | ⟨hin, hl⟩)
    · exact ⟨.inl hloop, .inl hup, hne⟩
    · refine ⟨.inr hl, .inr ⟨hin, hl⟩, ?_⟩
      rintro rfl
      exact not_mem_points (hn.lt_size hx) hl

/-- Around the first point loop there are the loops of the band and those around them. -/
theorem around_first_point (T : f.Tiled innermost tiles g) {l : OpId} :
    g.Around l f.ops.size ↔ f.Around l innermost ∨ l = innermost := by
  have hn := T.tidy.toNested
  have hpos : 0 < tiles.length := List.length_pos_of_ne_nil T.tiles_ne_nil
  obtain ⟨split, hsplit, hsame⟩ := T.exists_split
  have hup : g.Above l f.ops.size ↔ f.Above l innermost ∨ l = f.ops.size := by
    have hself : ¬ f.Around innermost innermost := fun hcon => hcon.2.2 rfl
    have hpoint := hsplit.above_point_iff (a := l) hpos
    rw [Nat.add_zero] at hpoint
    rw [hsame.above_iff, hpoint, ← hsame.above_iff, T.above_iff_old T.reaches_innermost]
    simp [hself]
  unfold Around
  rw [hup, T.isLoop_iff]
  constructor
  · rintro ⟨hloop, hup | heq, hne⟩
    · have hlr := hn.lt_size (hn.reaches_of_above hup T.reaches_innermost)
      by_cases heq : l = innermost
      · exact .inr heq
      · exact .inl ⟨hloop.resolve_right (not_mem_points hlr), hup, heq⟩
    · exact absurd heq hne
  · have hne : ∀ {l : OpId}, f.Above l innermost → l ≠ f.ops.size := by
      rintro l hup rfl
      exact Nat.lt_irrefl _ (hn.lt_size (hn.reaches_of_above hup T.reaches_innermost))
    rintro (⟨hloop, hup, -⟩ | rfl)
    · exact ⟨.inl hloop, .inl hup, hne hup⟩
    · exact ⟨.inl T.isLoop_innermost, .inl .refl, hne .refl⟩

end Tiled

/-- Below one loop of a perfect nest there are the other loops, and what is below them all. -/
theorem PerfectNest.mem_or_above_last (hn : f.Nested) : ∀ {band : Band} {innermost : OpId},
    f.PerfectNest band → band.getLast? = some innermost → ∀ {l x : OpId}, l ∈ band → f.Reaches x →
      f.Above l x → x ∈ band ∨ f.Above innermost x
  | [], _, _, hlast, _, _, _, _, _ => by cases hlast
  | [first], innermost, _, hlast, l, x, hl, _, hup => by
    rw [List.getLast?_singleton, Option.some.injEq] at hlast
    rw [List.mem_singleton.mp hl, hlast] at hup
    exact .inr hup
  | first :: second :: band, innermost, h, hlast, l, x, hl, hx, hup => by
    rw [List.getLast?_cons_cons] at hlast
    rcases List.mem_cons.mp hl with rfl | hl
    · rcases (hn.above_iff_body (h.reaches l List.mem_cons_self) hx).mp hup with
        rfl | ⟨child, hchild, hup⟩
      · exact .inl List.mem_cons_self
      · rw [h.bodyOf_head, List.mem_singleton] at hchild
        rw [hchild] at hup
        exact (mem_or_above_last hn h.tail hlast List.mem_cons_self hx hup).imp_left
          (List.mem_cons_of_mem l)
    · exact (mem_or_above_last hn h.tail hlast hl hx hup).imp_left (List.mem_cons_of_mem first)

namespace Tiled

/-- An operation that is no loop of the band is below all its loops or below none. -/
theorem around_tile_iff (T : f.Tiled innermost tiles g) {t x : OpId} (ht : t ∈ tiles.map Prod.fst)
    (hx : f.Reaches x) (hout : x ∉ tiles.map Prod.fst) :
    f.Around t x ↔ f.Around innermost x := by
  have hn := T.tidy.toNested
  have hne : ∀ {l : OpId}, l ∈ tiles.map Prod.fst → l ≠ x := by
    rintro l hl rfl
    exact hout hl
  constructor
  · rintro ⟨-, hup, -⟩
    rcases T.nest.mem_or_above_last hn T.last ht hx hup with hmem | hup
    · exact absurd hmem hout
    · exact ⟨T.isLoop_innermost, hup, hne T.mem_innermost⟩
  · rintro ⟨-, hup, -⟩
    exact ⟨T.nest.isLoop t ht, (T.nest.above_last hn T.last t ht).trans hup, hne ht⟩

end Tiled

/-! ## 6. Values of its loops -/

theorem valuesOf_loop {x : OpId} {l : Loop} (hk : f.kindOf x = some (.loop l)) :
    f.valuesOf x = l.values := by
  simp [valuesOf, hk, Kind.loop?, Loop.values]

namespace Tiled

/-- A pair of a tile and a point loop splits a loop. -/
theorem exists_splits (T : f.Tiled innermost tiles g) {t p : OpId}
    (htp : (t, p) ∈ f.pairing tiles) :
    ∃ l h, f.kindOf t = some (.loop l) ∧ (t, h) ∈ tiles ∧ h.Splits l ∧
      f.valuesOf t = l.values ∧ g.valuesOf t = (h.tileLoop l).values ∧
      g.valuesOf p = (h.pointLoop t).values := by
  obtain ⟨position, h, he, rfl⟩ := mem_pairing.mp htp
  have hmem : (t, h) ∈ tiles := List.mem_of_getElem? he
  obtain ⟨l, hk, hs⟩ := T.splits (t, h) hmem
  exact ⟨l, h, hk, hmem, hs, valuesOf_loop hk, valuesOf_loop (T.kindOf_tile hmem hk),
    valuesOf_loop (T.kindOf_point he)⟩

theorem valuesOf_other (T : f.Tiled innermost tiles g) {l : OpId} (hloop : f.IsLoop l)
    (hl : l ∉ tiles.map Prod.fst) : g.valuesOf l = f.valuesOf l := by
  obtain ⟨header, hk⟩ := hloop
  rw [valuesOf_loop hk, valuesOf_loop (T.kindOf_other hl hk)]

end Tiled

/-! ## 7. Tiling and bounds of a run -/

section Bounds

variable (uppers : OpId → Int)

/-- Splitting and bounding a loop do not touch each other. -/
theorem Split.withBounds (h : f.Split innermost tiles g) :
    (f.withBounds uppers).Split innermost tiles (g.withBounds uppers) where
  name := h.name
  arguments := h.arguments
  body := h.body
  values := h.values
  size := by simp [h.size]
  old := fun id op hop => by
    rw [getElem?_ops_withBounds, Option.map_eq_some_iff] at hop
    obtain ⟨old, hold, rfl⟩ := hop
    have hkind : ((changeLoop (tiling tiles id) old.kind).mapLoop (Loop.bounded (uppers id))) =
        changeLoop (tiling tiles id) (old.kind.mapLoop (Loop.bounded (uppers id))) := by
      unfold tiling
      cases tiles.find? fun e => e.1 == id <;> cases old.kind <;> rfl
    rw [getElem?_ops_withBounds, h.old id old hold, Option.map_some]
    simp [boundedEntry, splitEntry, hkind, lastPoint, (sameNesting_withBounds f uppers).bodyOf]
  point := fun position e he => by
    rw [getElem?_ops_withBounds, size_ops_withBounds, h.point position e he, Option.map_some]
    simp only [splitPoint, size_ops_withBounds, (sameNesting_withBounds f uppers).bodyOf]
    rfl

theorem withBounds_redirect (r : Redirection) (ids : List OpId) :
    (f.edit (redirectAt r ids)).withBounds uppers
      = (f.withBounds uppers).edit (redirectAt r ids) := by
  unfold withBounds
  rw [edit_edit, edit_edit]
  congr 1
  funext id op
  unfold redirectAt
  split
  · obtain ⟨_, kind, _, _, _⟩ := op
    cases kind <;> rfl
  · rfl

@[simp] theorem points_withBounds : (f.withBounds uppers).points tiles = f.points tiles := by
  rw [points, size_ops_withBounds, points]

@[simp] theorem pairing_withBounds : (f.withBounds uppers).pairing tiles = f.pairing tiles := by
  rw [pairing, points_withBounds, pairing]

/-- **A run of a tiled function is a tiled run of the function.** -/
theorem Tiled.withBounds (T : f.Tiled innermost tiles g) :
    (f.withBounds uppers).Tiled innermost tiles (g.withBounds uppers) where
  tidy := T.tidy.withBounds uppers
  tidy_tiled := T.tidy_tiled.withBounds uppers
  nest := T.nest.withBounds uppers
  last := T.last
  splits := by
    intro e he
    obtain ⟨l, hk, hs⟩ := T.splits e he
    obtain ⟨size, blocks, -, -, htrip⟩ := hs.divides
    refine ⟨l, ?_, hs⟩
    rw [kindOf_withBounds_loop hk, Loop.bounded_of_tripCount htrip]
  steps := by
    obtain ⟨split, ids, hsplit, hids, rfl⟩ := T.steps
    have hsame := sameNesting_withBounds split uppers
    refine ⟨split.withBounds uppers, ids, hsplit.withBounds uppers, fun id => ?_, ?_⟩
    · rw [hids, hsame.reaches_iff, hsame.above_iff, lastPoint, lastPoint, size_ops_withBounds]
    · rw [withBounds_redirect, pairing_withBounds]

end Bounds

/-! ## 8. Tiling a band -/

/-- Each loop of a plan, with its size. -/
theorem exists_size {R : OpId × Nat → TileHeader → Prop} : ∀ {band : Band} {sizes : List Nat}
    {headers : List TileHeader}, band.length = sizes.length →
      List.Forall₂ R (band.zip sizes) headers → ∀ (position : Nat) (e : OpId × TileHeader),
        (band.zip headers)[position]? = some e →
        ∃ size, sizes[position]? = some size ∧ R (e.1, size) e.2
  | [], _, _, _, _, _, _, he => by cases he
  | _ :: _, [], _, hlen, _, _, _, _ => by cases hlen
  | id :: band, size :: sizes, headers, hlen, hall, position, e, he => by
    rw [List.zip_cons_cons, List.forall₂_cons_left_iff] at hall
    obtain ⟨header, headers', hfirst, hrest, rfl⟩ := hall
    cases position with
    | zero =>
      cases he
      exact ⟨size, rfl, hfirst⟩
    | succ position => exact exists_size (Nat.succ.inj hlen) hrest position e he

theorem splits_of_tileHeader {id : OpId} {size : Nat} {header : TileHeader}
    (h : f.tileHeader id size = .ok (.ok header)) :
    header.size = size ∧ ∃ l, f.kindOf id = some (.loop l) ∧ header.Splits l := by
  obtain ⟨l, trip, hk, htrip, hne, hmod, hfits, rfl⟩ := tileHeader_spec h
  refine ⟨rfl, l, hk, rfl, ⟨size, trip / size, rfl, Nat.pos_of_ne_zero hne, ?_⟩, hfits⟩
  rw [htrip, Nat.div_mul_cancel (Nat.dvd_of_mod_eq_zero hmod)]

/-- How a band comes to be tiled: there is a plan for it, and its loops are split. -/
theorem tileBand_plan {audience : Audience} {band newBand : Band} {sizes : List Nat}
    (hy : (f.tileBand band sizes).Yields audience (g, .ok newBand)) :
    band = [] ∧ g = f ∧ newBand = [] ∨ ∃ innermost headers points,
      band.getLast? = some innermost ∧ f.tilingPlan band sizes = .ok (.ok headers) ∧
      f.splitLoops innermost (band.zip headers) = .ok (g, points) ∧ newBand = band ++ points := by
  unfold tileBand at hy
  split at hy
  · rename_i hnone
    cases Traced.yields_pure.mp hy
    exact .inl ⟨List.getLast?_eq_none_iff.mp hnone, rfl, rfl⟩
  · rename_i innermost hlast
    obtain ⟨plan, hplan, hy⟩ := Traced.yields_bind.mp hy
    rw [Traced.yields_lift] at hplan
    cases plan with
    | error reason => cases Traced.yields_pure.mp hy
    | ok headers =>
      obtain ⟨⟨g', points⟩, hloops, hy⟩ := Traced.yields_bind.mp hy
      obtain ⟨_, -, hy⟩ := Traced.yields_bind.mp hy
      cases Traced.yields_pure.mp hy
      exact .inr ⟨innermost, headers, points, hlast, hplan, Traced.yields_lift.mp hloops, rfl⟩

/-- **A band with a plan is tiled when its loops are split.** -/
theorem tiled_of_plan (hf : f.Tidy) {band : Band} {sizes : List Nat} {innermost : OpId}
    {headers : List TileHeader} {points : List OpId} (hreach : ∀ id ∈ band, f.Reaches id)
    (hlast : band.getLast? = some innermost)
    (hplan : f.tilingPlan band sizes = .ok (.ok headers))
    (hloops : f.splitLoops innermost (band.zip headers) = .ok (g, points)) :
    (band.zip headers).map Prod.fst = band ∧ f.Tiled innermost (band.zip headers) g ∧
      points = f.points (band.zip headers) := by
  obtain ⟨hband, hnest, htiles⟩ := nest_of_tilingPlan hf.toNested hreach hplan
  have hsplits : ∀ e ∈ band.zip headers, ∃ l, f.kindOf e.1 = some (.loop l) ∧ e.2.Splits l := by
    intro e he
    obtain ⟨size, hsize⟩ := htiles e he
    exact (splits_of_tileHeader hsize).2
  have hisLoop : ∀ e ∈ band.zip headers, f.IsLoop e.1 := fun e he =>
    (hsplits e he).imp fun l hl => hl.1
  have hpos : ∀ e ∈ band.zip headers, 0 < e.2.step ∧ 0 < e.2.size := by
    intro e he
    obtain ⟨size, hsize⟩ := htiles e he
    exact hf.tileHeader_pos (hreach e.1 (List.of_mem_zip he).1) hsize
  rw [← hband] at hnest hlast
  have hg := (splitLoops_tidy hf hnest hlast hpos hisLoop hloops).1
  obtain ⟨rfl, split, ids, hsplit, hids, rfl⟩ := splitLoops_spec hf.toNested hnest hlast hloops
  have hinner : f.Reaches innermost := hnest.reaches innermost (List.mem_of_getLast? hlast)
  have hne : band.zip headers ≠ [] := by
    intro hnil
    rw [hnil] at hlast
    cases hlast
  have hstart : split.Reaches (f.lastPoint (band.zip headers)) :=
    hsplit.reaches_point (hf.toNested.lt_size hinner)
      (hsplit.reaches_old hf.toNested hne hinner)
      (Nat.sub_lt (List.length_pos_of_ne_nil hne) Nat.one_pos)
  refine ⟨hband, ⟨hf, hg, hnest, hlast, hsplits, split, ids, hsplit, fun id => ?_,
    modifyOps_eq _ _ _⟩, rfl⟩
  exact (hsplit.nested hf.toNested hne hinner).mem_walkFrom hstart hids

/-- **What tiling a band does when it does not refuse**: nothing if the band is empty; else the
band is tiled by the sizes given, and the new band ends with the point loops. -/
theorem tileBand_tiled (hf : f.Tidy) {audience : Audience} {band newBand : Band} {sizes : List Nat}
    (hreach : ∀ id ∈ band, f.Reaches id)
    (hy : (f.tileBand band sizes).Yields audience (g, .ok newBand)) :
    band = [] ∧ g = f ∧ newBand = [] ∨ ∃ innermost tiles, tiles.map Prod.fst = band ∧
      f.Tiled innermost tiles g ∧ newBand = band ++ f.points tiles ∧
      ∀ (position : Nat) (e : OpId × TileHeader), tiles[position]? = some e →
        ∃ size : Nat, sizes[position]? = some size ∧ e.2.size = size := by
  rcases tileBand_plan hy with hempty | ⟨innermost, headers, points, hlast, hplan, hloops, rfl⟩
  · exact .inl hempty
  · obtain ⟨hband, T, rfl⟩ := tiled_of_plan hf hreach hlast hplan hloops
    obtain ⟨hlen, -, -, hheaders⟩ := tilingPlan_spec hplan
    refine .inr ⟨innermost, band.zip headers, hband, T, rfl, fun position e he => ?_⟩
    obtain ⟨size, hsize, hheader⟩ := exists_size hlen (tileHeaders_spec hheaders) position e he
    exact ⟨size, hsize, (splits_of_tileHeader hheader).1⟩

end Func
end Dataflow
