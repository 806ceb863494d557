/-
# Iterations of a parallel loop are independent

A loop counts as parallel if each of its iterations stores to elements of its own: the loop drives
a subscript of every access that writes below it, and whatever else may touch the same memory is
the same access.  That says something of the text.  This file says what it means for a run: an
element that one iteration writes is not touched by any other (`Func.isParallel_sound`).

The step from the text to a run is the one subscript that the loop drives (`Func.eval_ne`).  If it
is the induction variable of the loop, its values differ because those of the loop do.  If it is
the sum of a tile and a point loop, the loop is one of the two, and a sum tells both of them as
long as the point loop stays within one step of the tile loop (`Func.add_inj_of_pointsWithin`).
-/
import Dataflow.Proofs.TiledOrder

namespace Dataflow

/-- Two numbers in different blocks, or in different places of one, are different. -/
theorem blocks_inj {step : Int} {j j' : Nat} {b b' : Int} (hb : 0 ≤ b) (hlt : b < step)
    (hb' : 0 ≤ b') (hlt' : b' < step) (h : j * step + b = j' * step + b') : j = j' ∧ b = b' := by
  have hstep : 0 ≤ step := Int.le_of_lt (Int.lt_of_le_of_lt hb hlt)
  -- A later block starts a whole step further on.
  have hnext : ∀ {m n : Nat}, m < n → (m : Int) * step + step ≤ n * step := by
    intro m n hmn
    have hle : (m : Int) + 1 ≤ n := by omega
    have hmul := Int.mul_le_mul_of_nonneg_right hle hstep
    rwa [Int.add_mul, Int.one_mul] at hmul
  rcases Nat.lt_trichotomy j j' with hj | rfl | hj
  · have := hnext hj
    omega
  · exact ⟨rfl, by omega⟩
  · have := hnext hj
    omega

namespace Func

variable {f : Func} {uppers : OpId → Int} {id : OpId}

/-! ## 1. Sums of a tile and a point loop -/

/-- A value of a loop is some steps from its lower bound, and below the upper one. -/
theorem exists_of_mem_valuesOf {l : Loop} {v : Int} (hk : f.kindOf id = some (.loop l))
    (hv : v ∈ (f.withBounds uppers).valuesOf id) :
    ∃ k : Nat, v = l.lower + k * l.step ∧ ∀ upper, l.upper = some upper → v < upper := by
  rw [valuesOf_loop (kindOf_withBounds_loop hk)] at hv
  obtain ⟨hmem, hlt⟩ := List.mem_filter.mp hv
  obtain ⟨k, -, rfl⟩ := List.mem_map.mp hmem
  refine ⟨k, rfl, fun upper hupper => ?_⟩
  simpa [Loop.bounded, hupper] using hlt

/-- `f.PointsWithin t p`: the loop `p` starts at zero and ends within one step of the loop `t`. -/
def PointsWithin (f : Func) (t p : OpId) : Prop :=
  ∃ tile point upper, f.kindOf t = some (.loop tile) ∧ f.kindOf p = some (.loop point) ∧
    point.lower = 0 ∧ point.upper = some upper ∧ upper ≤ tile.step

/-- **A sum of a tile and a point value tells both.** -/
theorem add_inj_of_pointsWithin (hadv : f.Advances) {t p : OpId} (h : f.PointsWithin t p)
    (hp : f.Reaches p) {a a' b b' : Int} (ha : a ∈ (f.withBounds uppers).valuesOf t)
    (ha' : a' ∈ (f.withBounds uppers).valuesOf t) (hb : b ∈ (f.withBounds uppers).valuesOf p)
    (hb' : b' ∈ (f.withBounds uppers).valuesOf p) (hsum : a + b = a' + b') : a = a' ∧ b = b' := by
  obtain ⟨tile, point, upper, htile, hpoint, hlower, hupper, hle⟩ := h
  have hrange : ∀ {v : Int}, v ∈ (f.withBounds uppers).valuesOf p → 0 ≤ v ∧ v < tile.step := by
    intro v hv
    obtain ⟨k, hk, hlt⟩ := exists_of_mem_valuesOf hpoint hv
    have hnonneg := Int.mul_nonneg (Int.natCast_nonneg k) (Int.le_of_lt (hadv p point hp hpoint))
    have hlt := hlt upper hupper
    omega
  obtain ⟨j, rfl, -⟩ := exists_of_mem_valuesOf htile ha
  obtain ⟨j', rfl, -⟩ := exists_of_mem_valuesOf htile ha'
  obtain ⟨rfl, heq⟩ := blocks_inj (hrange hb).1 (hrange hb).2 (hrange hb').1 (hrange hb').2
    (by omega : (j : Int) * tile.step + b = j' * tile.step + b')
  exact ⟨rfl, heq⟩

/-! ## 2. The subscript that a loop drives -/

/-- The loops of an access are around the compute, so each has one of its values. -/
theorem Tidy.mem_valuesOf (h : f.Tidy) {x : OpId} {e : Env} {c : Compute}
    (hmem : (x, e) ∈ (f.withBounds uppers).timeline) (hc : f.kindOf x = some (.compute c))
    {a : Access} (ha : a ∈ c.accesses) {i : Index} (hi : i ∈ a.indices) {l : OpId}
    (hl : l ∈ i.loops) : f.Reaches l ∧ e l ∈ (f.withBounds uppers).valuesOf l := by
  obtain ⟨hx, hvalues⟩ := ((h.withBounds uppers).toNested.mem_timeline x e).mp hmem
  rw [(sameNesting_withBounds f uppers).reaches_iff] at hx
  obtain ⟨op, hop, hkind⟩ := Option.map_eq_some_iff.mp hc
  have hmentioned : l ∈ c.loops :=
    List.mem_append_left _ (List.mem_flatMap.mpr ⟨a, ha, List.mem_flatMap.mpr ⟨i, hi, hl⟩⟩)
  obtain ⟨hloop, hup⟩ := (h.mentions x op hx hop).compute c hkind l hmentioned
  have hne : l ≠ x := by
    rintro rfl
    obtain ⟨header, hheader⟩ := hloop
    rw [hc] at hheader
    cases hheader
  exact ⟨h.toNested.reaches_of_above hup hx,
    (hvalues l).1 (around_withBounds.mpr ⟨hloop, hup, hne⟩)⟩

/-- **A subscript that a loop drives is known, and differs wherever the loop does.** -/
theorem eval_ne {i : Index} {e e' : Env} (huses : i.uses id = true) (hadv : f.Advances)
    (htiled : ∀ t p, i = .tiled t p → f.PointsWithin t p)
    (he : ∀ l ∈ i.loops, f.Reaches l ∧ e l ∈ (f.withBounds uppers).valuesOf l)
    (he' : ∀ l ∈ i.loops, e' l ∈ (f.withBounds uppers).valuesOf l) (hne : e id ≠ e' id) :
    ∃ v w, i.eval e = some v ∧ i.eval e' = some w ∧ v ≠ w := by
  rw [Index.uses_iff] at huses
  cases i with
  | const value => cases huses
  | unknown => cases huses
  | iv l =>
    rw [Index.loops, List.mem_singleton] at huses
    subst huses
    exact ⟨_, _, rfl, rfl, hne⟩
  | tiled t p =>
    refine ⟨_, _, rfl, rfl, fun hsum => hne ?_⟩
    have ht : t ∈ (Index.tiled t p).loops := List.mem_cons_self
    have hp : p ∈ (Index.tiled t p).loops := List.mem_cons_of_mem t List.mem_cons_self
    obtain ⟨htile, hpoint⟩ := add_inj_of_pointsWithin hadv (htiled t p rfl) (he p hp).1 (he t ht).2
      (he' t ht) (he p hp).2 (he' p hp) hsum
    rcases List.mem_cons.mp huses with rfl | huses
    · exact htile
    · rw [List.mem_singleton.mp huses]
      exact hpoint

/-! ## 3. Independent iterations -/

/-- What is accessed below a loop can be told apart: every memref has a root, no compute has lanes,
and every sum of loops is of a tile and a point loop. -/
structure PlainBelow (f : Func) (id : OpId) : Prop where
  roots : ∀ x c, f.Reaches x → f.Above id x → f.kindOf x = some (.compute c) →
    ∀ a ∈ c.accesses, ∃ root, f.root a.memref = .ok (some root)
  lanes : ∀ x c, f.Reaches x → f.Above id x → f.kindOf x = some (.compute c) → c.lanes = []
  tiled : ∀ x c, f.Reaches x → f.Above id x → f.kindOf x = some (.compute c) →
    ∀ a ∈ c.accesses, ∀ t p, Index.tiled t p ∈ a.indices → f.PointsWithin t p

/-- A loop that is parallel by its accesses holds no copy. -/
theorem not_isCopy_of_isParallel (hn : f.Nested) {x : OpId} {l : Loop} {k : Kind}
    (hid : f.Reaches id) (hk : f.kindOf id = some (.loop l)) (hl : l.parallel = false)
    (hp : f.isParallel id = .ok true) (hx : f.Reaches x) (hup : f.Above id x)
    (hkind : f.kindOf x = some k) : k.isCopy = false := by
  obtain ⟨es, hes, hnone, -⟩ := of_isParallel hk hl hp
  obtain ⟨op, hop, rfl⟩ := Option.map_eq_some_iff.mp hkind
  simpa using List.any_eq_false.mp hnone _ (hn.mem_nest_of_above hid hes hx hop hup)

/-- One access with a subscript that the loop drives has different subscripts in different
iterations. -/
theorem differ_of_dimensionOf {a : Access} {e e' : Env} (hdim : (a.dimensionOf id).isSome)
    (hne : ∀ i ∈ a.indices, i.uses id = true →
      ∃ v w, i.eval e = some v ∧ i.eval e' = some w ∧ v ≠ w) :
    Differ (a.eval e).2 (a.eval e').2 := by
  obtain ⟨k, hk⟩ := Option.isSome_iff_exists.mp hdim
  obtain ⟨hlt, huses, -⟩ := List.findIdx?_eq_some_iff_getElem.mp hk
  obtain ⟨v, w, hv, hw, hvw⟩ := hne _ (List.getElem_mem hlt) huses
  refine ⟨k, v, w, ?_, ?_, hvw⟩
  · simp [Access.eval, hlt, hv]
  · simp [Access.eval, hlt, hw]

/-- A run reaches what it executes, and the loops around that. -/
theorem Tidy.reaches_of_timeline (h : f.Tidy) {p : Visit}
    (hp : p ∈ (f.withBounds uppers).timeline) : f.Reaches p.1 :=
  (sameNesting_withBounds f uppers).reaches_iff.mp
    (((h.withBounds uppers).toNested.mem_timeline p.1 p.2).mp hp).1

/-- **A parallel loop has independent iterations.**  Let a loop be parallel by the accesses below
it, not by declaration.  Whatever bounds a run decides, it executes no copy below the loop; and of
two executions in different iterations of the loop, one of which writes, the accesses have different
roots, or go through the same memref with subscripts that differ in a value that both know.  The
loops around the loop may be in the same iteration or not. -/
theorem isParallel_sound (f : Func) (id : OpId) (l : Loop) (uppers : OpId → Int)
    (hf : f.verify = .ok ()) (hk : f.kindOf id = some (.loop l)) (hdeclared : l.parallel = false)
    (hparallel : f.isParallel id = .ok true) (hplain : f.PlainBelow id) :
    (∀ p ∈ (f.withBounds uppers).timeline, f.Above id p.1 →
      ∀ source target, f.kindOf p.1 ≠ some (.copy source target)) ∧
    ∀ p ∈ (f.withBounds uppers).timeline, ∀ q ∈ (f.withBounds uppers).timeline,
      f.Above id p.1 → f.Above id q.1 → p.2 id ≠ q.2 id →
      ∀ c d a b, f.kindOf p.1 = some (.compute c) → f.kindOf q.1 = some (.compute d) →
        a ∈ c.accesses → b ∈ d.accesses → (a ∈ c.writes ∨ b ∈ d.writes) →
        ∃ r s, f.root a.memref = .ok (some r) ∧ f.root b.memref = .ok (some s) ∧
          (r = s → a.memref = b.memref ∧
            Differ (a.eval (shift c.lanes p.2)).2 (b.eval (shift d.lanes q.2)).2) := by
  have htidy : f.Tidy := verify_eq_ok_iff_tidy.mp hf
  have hn := htidy.toNested
  constructor
  · intro p hp hup source target hcopy
    have hx := htidy.reaches_of_timeline hp
    have hnot := not_isCopy_of_isParallel hn (hn.reaches_of_above hup hx) hk hdeclared hparallel hx
      hup hcopy
    cases hnot
  · intro p hp q hq hupp hupq hne c d a b hc hd ha hb hwrites
    have hx := htidy.reaches_of_timeline hp
    have hy := htidy.reaches_of_timeline hq
    have hid := hn.reaches_of_above hupp hx
    obtain ⟨r, hr⟩ := hplain.roots p.1 c hx hupp hc a ha
    obtain ⟨s, hs⟩ := hplain.roots q.1 d hy hupq hd b hb
    refine ⟨r, s, hr, hs, ?_⟩
    rintro rfl
    rw [hplain.lanes p.1 c hx hupp hc, hplain.lanes q.1 d hy hupq hd, shift_nil, shift_nil]
    -- With one root the two accesses are one, and the loop drives a subscript of it.
    have hsame : b = a ∧ (a.dimensionOf id).isSome := by
      rcases hwrites with hwrite | hwrite
      · exact eq_of_isParallel hn hid hk hdeclared hparallel hx hy hupp hupq hc hd hwrite hb hr hs
      · obtain ⟨rfl, hdim⟩ := eq_of_isParallel hn hid hk hdeclared hparallel hy hx hupq hupp hd hc
          hwrite ha hs hr
        exact ⟨rfl, hdim⟩
    obtain ⟨rfl, hdim⟩ := hsame
    refine ⟨rfl, differ_of_dimensionOf hdim fun i hi huses => ?_⟩
    exact eval_ne huses htidy.advances
      (fun t point heq => hplain.tiled p.1 c hx hupp hc b ha t point (heq ▸ hi))
      (fun l hl => htidy.mem_valuesOf hp hc ha hi hl)
      (fun l hl => (htidy.mem_valuesOf hq hd hb hi hl).2) hne

/-- A compute that updates an element of value 2 from itself and some element of value 1; the
element is that of the point loop 4 in its tile loop 3. -/
def tiledUpdate : Compute where
  name := "s"
  reads := [{ memref := 2, indices := [.tiled 3 4] }, { memref := 1, indices := [.unknown] }]
  writes := [{ memref := 2, indices := [.tiled 3 4] }]
  lanes := []

/-- The update in a tiled nest, to a part of an argument, below a loop whose bound is not known. -/
def tiledUpdates : Func where
  name := "f"
  arguments := [0, 1]
  body := [0]
  ops := #[
    { id := 0, kind := .node "n", parent := none, body := [1, 2], erased := false },
    { id := 1, kind := .view 0 2, parent := some 0, body := [], erased := false },
    { id := 2, kind := .loop (.plain "n" 0 none 1), parent := some 0, body := [3],
      erased := false },
    { id := 3, kind := .loop (.plain "t" 1 (some 17) 8), parent := some 2, body := [4],
      erased := false },
    { id := 4, kind := .loop { Loop.plain "p" 0 (some 8) 2 with pointOf := some 3 },
      parent := some 3, body := [5], erased := false },
    { id := 5, kind := .compute tiledUpdate, parent := some 4, body := [], erased := false }]
  values := #[
    { id := 0, name := "A", shape := [32], space := 0, definition := .argument 0 },
    { id := 1, name := "B", shape := [32], space := 0, definition := .argument 1 },
    { id := 2, name := "V", shape := [32], space := 0, definition := .op 1 }]

/-- The tile loop is parallel.  Of the 24 updates in a run of three turns of the outer loop, those
in different tiles are of different elements. -/
theorem isParallel_sound_tiledUpdates : tiledUpdates.verify = .ok () ∧
    tiledUpdates.isParallel 3 = .ok true ∧ tiledUpdates.PlainBelow 3 ∧
    ((tiledUpdates.withBounds fun _ => 3).timeline.map Prod.fst).count 5 = 24 ∧
    ∀ p ∈ (tiledUpdates.withBounds fun _ => 3).timeline,
      ∀ q ∈ (tiledUpdates.withBounds fun _ => 3).timeline, p.1 = 5 → q.1 = 5 → p.2 3 ≠ q.2 3 →
        Differ [some (p.2 3 + p.2 4)] [some (q.2 3 + q.2 4)] := by
  have hf : tiledUpdates.verify = .ok () := by decide
  have hparallel : tiledUpdates.isParallel 3 = .ok true := by decide
  have hkind : tiledUpdates.kindOf 5 = some (.compute tiledUpdate) := rfl
  have hcompute : ∀ x c, tiledUpdates.kindOf x = some (.compute c) → c = tiledUpdate := by
    intro x c hc
    have hone := @kindOf_of_all tiledUpdates (fun k => k.compute?.all (· = tiledUpdate)) (by decide)
      x _ hc
    simpa [Kind.compute?] using hone
  have hplain : tiledUpdates.PlainBelow 3 := by
    refine ⟨fun x c _ _ hc a ha => ?_, fun x c _ _ hc => ?_, fun x c _ _ hc a ha t p hi => ?_⟩
    · obtain rfl := hcompute x c hc
      have hroots : tiledUpdate.accesses.all (fun a =>
          tiledUpdates.root a.memref = .ok (some 0) ∨ tiledUpdates.root a.memref = .ok (some 1)) =
            true := by decide
      have hroot := of_decide_eq_true (List.all_eq_true.mp hroots a ha)
      exact hroot.elim (fun h => ⟨0, h⟩) fun h => ⟨1, h⟩
    · obtain rfl := hcompute x c hc
      rfl
    · obtain rfl := hcompute x c hc
      have hsums : tiledUpdate.accesses.all (fun a =>
          a.indices.all fun i => i = .tiled 3 4 ∨ i = .unknown) = true := by decide
      have hsum := of_decide_eq_true
        (List.all_eq_true.mp (List.all_eq_true.mp hsums a ha) _ hi)
      obtain ⟨rfl, rfl⟩ := Index.tiled.inj (hsum.resolve_right fun heq => by cases heq)
      exact ⟨_, _, 8, rfl, rfl, rfl, rfl, by decide⟩
  have hup : tiledUpdates.Above 3 5 :=
    .tail (.single (show tiledUpdates.parentOf 4 = some 3 from rfl)) rfl
  refine ⟨hf, hparallel, hplain, by decide, ?_⟩
  rintro ⟨_, e⟩ hp ⟨_, e'⟩ hq rfl rfl hne
  obtain ⟨r, s, hr, hs, hdiffer⟩ := (isParallel_sound tiledUpdates 3 _ (fun _ => 3) hf rfl rfl
    hparallel hplain).2 _ hp _ hq hup hup hne tiledUpdate tiledUpdate
    { memref := 2, indices := [.tiled 3 4] } { memref := 2, indices := [.tiled 3 4] } hkind hkind
    List.mem_cons_self List.mem_cons_self (.inl List.mem_cons_self)
  rw [hr] at hs
  cases hs
  have hlanes : tiledUpdate.lanes = [] := rfl
  rw [hlanes, shift_nil, shift_nil] at hdiffer
  exact (hdiffer rfl).2

end Func
end Dataflow
