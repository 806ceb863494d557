/-
# The table after a parallelization

A run of the pass unrolls bands that have no loop in common.  So what it leaves can be said entry by
entry of the function it started from (`Func.Survives`), without the bands in between:

* an entry keeps its slot, its owner and its flag, and its kind unless it is a loop with a lane in
  the one band that lists it;
* a body keeps its operations in their order and gains replicas of computes that stand in it;
* every new entry of the table is such a replica.
-/
import Dataflow.Proofs.Acceptance
import Dataflow.Proofs.Replay

namespace Dataflow

/-- Widening multiplies a step that is positive, and stops at the largest word. -/
theorem Lane.widen_eq {lane : Lane} {mark : Nat → Mark} {l : Loop} (hstep : 0 < l.step)
    (hfactor : 0 < lane.factor) :
    lane.widen mark l =
      { l with step := min (l.step * lane.factor) intMax, mark := some (mark lane.factor) } := by
  have hgrows : ∀ n : Int, 0 ≤ n → n ≤ l.step * n := fun n hn => by
    have hmul := Int.mul_le_mul_of_nonneg_right hstep hn
    rwa [Int.zero_add, Int.one_mul] at hmul
  have hle := hgrows lane.factor (by omega)
  have hmax := hgrows intMax (by decide)
  have hsteps : satMulInt l.step (min (lane.factor : Int) intMax)
      = min (l.step * lane.factor) intMax := by
    rw [satMulInt, clampInt]
    by_cases hword : (lane.factor : Int) ≤ intMax
    · rw [Int.min_eq_left hword]
      simp only [intMin, intMax]
      omega
    · have hmin : min (lane.factor : Int) intMax = intMax := Int.min_eq_right (by omega)
      rw [hmin]
      simp only [intMin, intMax] at *
      omega
  rw [widen, hsteps]

/-- A clamped factor above one is the common divisor with the trip count, where that is known. -/
theorem clampFactor_eq_elim {n : Nat} {trip : Option Nat} (h : 1 < clampFactor n trip) :
    clampFactor n trip = trip.elim n n.gcd := by
  match trip, h with
  | none, _ => rfl
  | some (t + 1), _ => rfl

namespace Func

variable {f g h : Func} {applied : List Applied} {a : Applied} {changed : Bool}

/-! ## 1. What a run leaves of an entry -/

/-- How a run changes the header of a loop: by the listed band in which it has a lane. -/
def widenings (f : Func) (applied : List Applied) (id : OpId) : Option (Loop → Loop) :=
  applied.findSome? fun a => widening a.kind.mark (f.lanesOf a.band a.factors) id

/-- The slot holds a replica in the body of `owner`: a new entry of `g` that is a compute which
stood there in `f`, but for lanes that follow the lanes it had. -/
def ReplicaIn (f g : Func) (owner r : OpId) : Prop :=
  f.ops.size ≤ r ∧ ∃ x ∈ f.bodyOf owner, ∃ c more, f.kindOf x = some (.compute c) ∧
    g.ops[r]? = some (fresh (some owner) r (.compute { c with lanes := c.lanes ++ more }))

/-- `f.Survives g applied id op op'`: what a run from `f` to `g` makes of the entry `op` in a
slot. -/
structure Survives (f g : Func) (applied : List Applied) (id : OpId) (op op' : Op) : Prop where
  id_eq : op'.id = op.id
  parent : op'.parent = op.parent
  erased : op'.erased = op.erased
  kind : op'.kind = changeLoop (f.widenings applied id) op.kind
  sublist : op.body.Sublist op'.body
  added : ∃ added, op'.body.Perm (op.body ++ added) ∧ ∀ r ∈ added, f.ReplicaIn g id r

theorem widening_eq_none_of_notMem {id : OpId} (hid : id ∉ a.band) :
    widening a.kind.mark (f.lanesOf a.band a.factors) id = none :=
  widening_eq_none _ fun _ hlane heq => hid (heq ▸ loop_mem_of_mem_lanesOf hlane)

theorem widenings_eq_none {id : OpId} (hid : ¬ Touched applied id) :
    f.widenings applied id = none :=
  List.findSome?_eq_none_iff.mpr fun a ha =>
    widening_eq_none_of_notMem fun hmem => hid ⟨a, ha, hmem⟩

theorem widenings_append (f : Func) (applied : List Applied) (a : Applied) (id : OpId) :
    f.widenings (applied ++ [a]) id =
      (f.widenings applied id).or (widening a.kind.mark (f.lanesOf a.band a.factors) id) := by
  simp only [widenings, List.findSome?_append, List.findSome?_cons, List.findSome?_nil]
  cases widening a.kind.mark (f.lanesOf a.band a.factors) id <;> rfl

/-- An entry that a run leaves as it is. -/
theorem Survives.same {id : OpId} {op : Op} (hnone : f.widenings applied id = none) :
    f.Survives g applied id op op where
  id_eq := rfl
  parent := rfl
  erased := rfl
  kind := by rw [hnone]; rfl
  sublist := .refl op.body
  added := ⟨[], by simp, fun r hr => by cases hr⟩

/-! ## 2. One turn -/

/-- A replica stays one: no band has a compute in it. -/
theorem ReplicaIn.step (hn : h.Nested) (ht : h.BandTurn a changed g) {owner r : OpId}
    (hr : f.ReplicaIn h owner r) : f.ReplicaIn g owner r := by
  obtain ⟨hnew, x, hx, c, more, hc, hentry⟩ := hr
  refine ⟨hnew, x, hx, c, more, hc, ht.untouched hn hentry fun hmem => ?_⟩
  obtain ⟨l, hl⟩ := ht.isLoop r hmem
  rw [kindOf_eq hentry] at hl
  cases hl

/-- A turn leaves an entry outside its band as the run has left it so far. -/
theorem Survives.step (hn : h.Nested) (ht : h.BandTurn a changed g) {id : OpId} (hid : id ∉ a.band)
    {op op' : Op} (hs : f.Survives h applied id op op') :
    f.Survives g (applied ++ [a]) id op op' where
  id_eq := hs.id_eq
  parent := hs.parent
  erased := hs.erased
  kind := by
    rw [widenings_append, widening_eq_none_of_notMem hid, Option.or_none]
    exact hs.kind
  sublist := hs.sublist
  added := by
    obtain ⟨added, hperm, hadded⟩ := hs.added
    exact ⟨added, hperm, fun r hr => (hadded r hr).step hn ht⟩

/-- What stands in a body stays in it. -/
theorem BandTurn.mem_bodyOf (hn : h.Nested) (ht : h.BandTurn a changed g) {owner id : OpId}
    (hid : id ∈ h.bodyOf owner) : id ∈ g.bodyOf owner := by
  have hlt : owner < h.ops.size := by
    by_contra hge
    have hnone : h.ops[owner]? = none := Array.getElem?_eq_none (Nat.not_lt.mp hge)
    simp [bodyOf, hnone] at hid
  rcases ht.effect hn with ⟨rfl, -⟩ | ⟨-, innermost, groups, -, hu⟩
  · exact hid
  · by_cases heq : owner = innermost
    · subst heq
      rw [hu.bodyOf_innermost hlt]
      exact hu.mem_block.mpr (.inl hid)
    · rwa [hu.bodyOf_old hlt heq]

/-! ## 3. Runs -/

/-- What the function is besides its table of operations stays. -/
theorem Replays.fields (hf : f.Tidy) (hrun : f.Replays applied g) :
    g.name = f.name ∧ g.arguments = f.arguments ∧ g.values = f.values ∧ g.body = f.body ∧
      f.ops.size ≤ g.ops.size := by
  induction hrun with
  | start => exact ⟨rfl, rfl, rfl, rfl, Nat.le_refl _⟩
  | @step applied h g a changed hrun _ ht ih =>
    obtain ⟨hname, harguments, hvalues, hbody, hsize⟩ := ih
    rcases ht.effect (hrun.tidy hf).toNested with ⟨rfl, -⟩ | ⟨-, innermost, groups, -, hu⟩
    · exact ⟨hname, harguments, hvalues, hbody, hsize⟩
    · exact ⟨hu.name.trans hname, hu.arguments.trans harguments, hu.values.trans hvalues,
        hu.body.trans hbody, hsize.trans hu.size_le⟩

/-- The bands of a run have no loop in common. -/
theorem Replays.pairwise (hrun : f.Replays applied g) :
    applied.Pairwise fun a b => a.band.Disjoint b.band := by
  induction hrun with
  | start => exact .nil
  | @step applied h g a changed _ hdis _ ih =>
    refine List.pairwise_append.mpr ⟨ih, List.pairwise_singleton _ _, fun b hb a' ha' => ?_⟩
    rw [List.mem_singleton] at ha'
    exact ha' ▸ hdis b hb

/-- The innermost loop of a band that is unrolled late holds what it held at the start. -/
theorem Replays.replicaIn (hf : f.Tidy) (hrun : f.Replays applied h)
    (hdis : ∀ b ∈ applied, b.band.Disjoint a.band) (ht : h.BandTurn a changed g)
    (hkeep : ∀ id op, f.ops[id]? = some op → ∃ op', h.ops[id]? = some op' ∧
      f.Survives h applied id op op') {innermost : OpId} (hlast : a.band.getLast? = some innermost)
    {groups : Groups} (hu : h.Unrolled innermost (h.lanesOf a.band a.factors) a.kind.mark groups g)
    {e : OpId × List OpId} (he : e ∈ groups) {r : OpId} (hr : r ∈ e.2) :
    f.ReplicaIn g innermost r := by
  obtain ⟨hreach, hentry⟩ :=
    hrun.entry_eq hf ht.toPerfectNest hdis innermost (List.mem_of_getLast? hlast)
  have hbody : h.bodyOf innermost = f.bodyOf innermost := by rw [bodyOf, bodyOf, hentry]
  have hmem : e.1 ∈ f.bodyOf innermost := hbody ▸ hu.originals ▸ List.mem_map_of_mem he
  obtain ⟨c, more, hc, -, hreplica⟩ := hu.replica he hr
  refine ⟨(hrun.fields hf).2.2.2.2.trans (hu.mem_snd_iff.mp ⟨e, he, hr⟩).1, e.1, hmem, c, more, ?_,
    hreplica⟩
  obtain ⟨op, hop, -⟩ := hf.live e.1 (.nested hreach hmem)
  obtain ⟨op', hop', hs⟩ := hkeep e.1 op hop
  rw [kindOf_eq hop', hs.kind, Option.some.injEq] at hc
  rw [kindOf_eq hop, of_changeLoop_eq_compute hc]

/-- **What a run leaves of the old entries.**  Only the band that lists a loop changes it, and it
finds the loop as it was at the start. -/
theorem Replays.survives (hf : f.Tidy) (hrun : f.Replays applied g) : ∀ id op,
    f.ops[id]? = some op → ∃ op', g.ops[id]? = some op' ∧ f.Survives g applied id op op' := by
  induction hrun with
  | start => exact fun id op hop => ⟨op, hop, .same rfl⟩
  | @step applied h g a changed hrun hdis ht ih =>
    have hn := (hrun.tidy hf).toNested
    intro id op hop
    by_cases hid : id ∈ a.band
    · -- No band before lists the loop: the turn finds the entry and the lanes of `f`.
      have hfresh : ¬ Touched applied id := fun ⟨b, hb, hmem⟩ => hdis b hb hmem hid
      have hop' : h.ops[id]? = some op := hrun.untouched hf hop hfresh
      have hlanes := hrun.lanesOf_eq hf ht.toPerfectNest hdis a.factors
      have hwide : f.widenings (applied ++ [a]) id =
          widening a.kind.mark (h.lanesOf a.band a.factors) id := by
        rw [widenings_append, widenings_eq_none hfresh, Option.none_or, hlanes]
      rcases ht.effect hn with ⟨rfl, hnil, -⟩ | ⟨-, innermost, groups, hlast, hu⟩
      · exact ⟨op, hop', .same (by rw [hwide, hnil]; rfl)⟩
      · refine ⟨_, hu.old id op hop', ?_⟩
        have hbody : op.body = groups.map Prod.fst ∨ id ≠ innermost := by
          by_cases heq : id = innermost
          · exact .inl (by rw [hu.originals, ← heq, bodyOf_eq hop'])
          · exact .inr heq
        exact
          { id_eq := rfl
            parent := rfl
            erased := rfl
            kind := by rw [hwide]; rfl
            sublist := by
              by_cases heq : id = innermost
              · rw [unrolledEntry, if_pos heq, hbody.resolve_right (not_not.mpr heq)]
                exact groups.map_fst_sublist_block
              · rw [unrolledEntry, if_neg heq]
            added := by
              by_cases heq : id = innermost
              · refine ⟨groups.flatMap Prod.snd, ?_, fun r hr => ?_⟩
                · rw [unrolledEntry, if_pos heq, hbody.resolve_right (not_not.mpr heq)]
                  exact groups.block_perm
                · obtain ⟨e, he, hr⟩ := List.mem_flatMap.mp hr
                  exact heq ▸ hrun.replicaIn hf hdis ht ih hlast hu he hr
              · refine ⟨[], ?_, fun r hr => by cases hr⟩
                rw [unrolledEntry, if_neg heq, List.append_nil] }
    · obtain ⟨op', hop', hs⟩ := ih id op hop
      exact ⟨op', ht.untouched hn hop' hid, hs.step hn ht hid⟩

/-- **Every new entry is a replica**, in the body of its owner. -/
theorem Replays.new (hf : f.Tidy) (hrun : f.Replays applied g) : ∀ r, f.ops.size ≤ r →
    r < g.ops.size → ∃ owner, r ∈ g.bodyOf owner ∧ f.ReplicaIn g owner r := by
  induction hrun with
  | start => exact fun r hle hlt => absurd hlt (Nat.not_lt.mpr hle)
  | @step applied h g a changed hrun hdis ht ih =>
    have hn := (hrun.tidy hf).toNested
    intro r hle hlt
    by_cases hold : r < h.ops.size
    · obtain ⟨owner, hmem, hr⟩ := ih r hle hold
      exact ⟨owner, ht.mem_bodyOf hn hmem, hr.step hn ht⟩
    · -- The slot was made in this turn.
      rcases ht.effect hn with ⟨rfl, -⟩ | ⟨-, innermost, groups, hlast, hu⟩
      · exact absurd hlt hold
      · obtain ⟨e, he, hr⟩ := hu.mem_snd_iff.mpr ⟨Nat.not_lt.mp hold, hlt⟩
        have hinner := hn.lt_size (ht.reaches innermost (List.mem_of_getLast? hlast))
        refine ⟨innermost, ?_, hrun.replicaIn hf hdis ht (hrun.survives hf) hlast hu he hr⟩
        rw [hu.bodyOf_innermost hinner]
        exact hu.mem_block.mpr (.inr ⟨e, he, hr⟩)

/-! ## 4. Changed loops -/

/-- A loop that changes has a lane in a listed band. -/
theorem of_widenings_eq_some {id : OpId} {change : Loop → Loop}
    (hw : f.widenings applied id = some change) : ∃ a ∈ applied, ∃ n l,
      (id, n) ∈ a.band.zip a.factors ∧ f.kindOf id = some (.loop l) ∧
      1 < clampFactor n l.tripCount ∧
      change = Lane.widen ⟨id, clampFactor n l.tripCount, l.step⟩ a.kind.mark := by
  obtain ⟨a, ha, hw⟩ := List.exists_of_findSome?_eq_some hw
  obtain ⟨lane, hfind, rfl⟩ := Option.map_eq_some_iff.mp hw
  obtain ⟨⟨x, n⟩, hp, hlane⟩ := List.mem_filterMap.mp (List.mem_of_find?_eq_some hfind)
  obtain ⟨l, hl, hfactor, rfl⟩ := laneOf_eq_some hlane
  have heq : x = id := by simpa using List.find?_some hfind
  subst heq
  exact ⟨a, ha, n, l, hp, hl, hfactor, rfl⟩

/-- Of bands without a loop in common, one lists a given loop. -/
theorem filter_bands_eq (hpair : applied.Pairwise fun a b => a.band.Disjoint b.band)
    (ha : a ∈ applied) {id : OpId} (hid : id ∈ a.band) :
    applied.filter (fun b => decide (id ∈ b.band)) = [a] := by
  obtain ⟨before, after, rfl⟩ := List.append_of_mem ha
  rw [List.pairwise_append] at hpair
  obtain ⟨-, hafter, hcross⟩ := hpair
  have hbefore : before.filter (fun b => decide (id ∈ b.band)) = [] :=
    List.filter_eq_nil_iff.mpr fun b hb hmem =>
      hcross b hb a List.mem_cons_self (of_decide_eq_true hmem) hid
  have hrest : after.filter (fun b => decide (id ∈ b.band)) = [] :=
    List.filter_eq_nil_iff.mpr fun b hb hmem =>
      List.rel_of_pairwise_cons hafter hb hid (of_decide_eq_true hmem)
  rw [List.filter_append, List.filter_cons, if_pos (decide_eq_true hid), hbefore, hrest]
  rfl

/-- `WidenedOnce applied id l l'`: one listed band has the loop, with a factor `n`, and the loop was
widened once by the part of `n` that divides its trip count. -/
def WidenedOnce (applied : List Applied) (id : OpId) (l l' : Loop) : Prop :=
  ∃ a n k, applied.filter (fun b => decide (id ∈ b.band)) = [a] ∧ (id, n) ∈ a.band.zip a.factors ∧
    k = l.tripCount.elim n n.gcd ∧ 1 < k ∧
    l' = { l with step := min (l.step * k) intMax, mark := some (a.kind.mark k) }

/-- **A kind that a run changes is that of a loop, and that once.** -/
theorem Replays.widenedOnce (hf : f.Tidy) (hrun : f.Replays applied g) {id : OpId} {op op' : Op}
    (hop : f.ops[id]? = some op) (hs : f.Survives g applied id op op') :
    op'.kind = op.kind ∨
      ∃ l l', op.kind = .loop l ∧ op'.kind = .loop l' ∧ WidenedOnce applied id l l' := by
  cases hw : f.widenings applied id with
  | none => exact .inl (by rw [hs.kind, hw]; rfl)
  | some change =>
    obtain ⟨a, ha, n, l, hmem, hl, hfactor, rfl⟩ := of_widenings_eq_some hw
    have hid : id ∈ a.band := (List.of_mem_zip hmem).1
    have hkind : op.kind = .loop l := by
      rw [kindOf_eq hop] at hl
      exact Option.some.inj hl
    -- The loop is reached, so its step is positive and widening multiplies it.
    have hreach : f.Reaches id := by
      obtain ⟨hreach, -⟩ := hrun.inNode hf a ha id hid
      refine hrun.reaches_of_isLoop hf hreach ?_
      obtain ⟨op'', hop'', hs'⟩ := hrun.survives hf id op hop
      exact ⟨_, by rw [kindOf_eq hop'', hs'.kind, hkind, changeLoop_loop]⟩
    have hstep : 0 < l.step := ((hf.mentions id op hreach hop).loop l hkind).1
    refine .inr ⟨l, _, hkind, by rw [hs.kind, hw, hkind, changeLoop_loop], a, n, _,
      filter_bands_eq hrun.pairwise ha hid, hmem, rfl, ?_, ?_⟩
    · rw [← clampFactor_eq_elim hfactor]
      exact hfactor
    · rw [← clampFactor_eq_elim hfactor, Option.getD_some]
      exact Lane.widen_eq hstep (Nat.lt_of_succ_lt hfactor)

/-! ## 5. Parallelization -/

/-- **A parallelization touches each loop at most once, and nothing else.** -/
theorem parallelize_touches_once (audience : Audience) (f g : Func) (config : Config)
    (report : Report) (hf : f.verify = .ok ())
    (hy : (f.parallelize config).Yields audience (g, .ok report)) :
    g.name = f.name ∧ g.arguments = f.arguments ∧ g.values = f.values ∧ g.body = f.body ∧
    (∀ id op, f.ops[id]? = some op → ∃ op', g.ops[id]? = some op' ∧
      op'.id = op.id ∧ op'.parent = op.parent ∧ op'.erased = op.erased ∧
      (op'.kind = op.kind ∨ ∃ l l', op.kind = .loop l ∧ op'.kind = .loop l' ∧
        WidenedOnce report.applied id l l') ∧
      op.body.Sublist op'.body ∧
      ∃ added, op'.body.Perm (op.body ++ added) ∧ ∀ r ∈ added, f.ReplicaIn g id r) ∧
    ∀ r, f.ops.size ≤ r → r < g.ops.size → ∃ owner, r ∈ g.bodyOf owner ∧ f.ReplicaIn g owner r := by
  have htidy : f.Tidy := verify_eq_ok_iff_tidy.mp hf
  have hrun : f.Replays report.applied g := parallelize_replays htidy hy
  obtain ⟨hname, harguments, hvalues, hbody, -⟩ := hrun.fields htidy
  refine ⟨hname, harguments, hvalues, hbody, fun id op hop => ?_, hrun.new htidy⟩
  obtain ⟨op', hop', hs⟩ := hrun.survives htidy id op hop
  exact ⟨op', hop', hs.id_eq, hs.parent, hs.erased, hrun.widenedOnce htidy hop hs, hs.sublist,
    hs.added⟩

/-- Two nodes with one loop each: the second reads what the first stores.  The first may read,
too. -/
def pipeline (first second : Int) (reads : List Access) : Func where
  name := "f"
  arguments := [0, 1]
  body := [0]
  ops := #[
    { id := 0, kind := .schedule { name := "top", increase := none, decrease := none },
      parent := none, body := [1, 4], erased := false },
    { id := 1, kind := .node "n", parent := some 0, body := [2], erased := false },
    { id := 2, kind := .loop (.plain "i" 0 (some first) 1), parent := some 1, body := [3],
      erased := false },
    { id := 3, kind := .compute { name := "p", reads, lanes := [],
                                  writes := [{ memref := 0, indices := [.iv 2] }] },
      parent := some 2, body := [], erased := false },
    { id := 4, kind := .node "m", parent := some 0, body := [5], erased := false },
    { id := 5, kind := .loop (.plain "k" 0 (some second) 1), parent := some 4, body := [6],
      erased := false },
    { id := 6, kind := .compute { name := "q", reads := [{ memref := 0, indices := [.iv 5] }],
                                  writes := [{ memref := 1, indices := [.iv 5] }], lanes := [] },
      parent := some 5, body := [], erased := false }]
  values := #[{ id := 0, name := "A", shape := [8], space := 0, definition := .argument 0 },
    { id := 1, name := "B", shape := [8], space := 0, definition := .argument 1 }]

/-- The nodes agree on six.  That is the trip count of the first loop; of the second, which takes
four turns, two is left, and one replica. -/
theorem parallelize_touches_once_pipeline : (pipeline 6 4 []).verify = .ok () ∧ ∃ g report,
    ((pipeline 6 4 []).parallelize { maxUnroll := 6, costAware := false }).Yields none
      (g, .ok report) ∧
    WidenedOnce report.applied 5 (.plain "k" 0 (some 4) 1)
      { Loop.plain "k" 0 (some 4) 2 with mark := some (.vectorize 2) } ∧
    ∃ owner, (pipeline 6 4 []).ReplicaIn g owner 12 := by
  have hf : (pipeline 6 4 []).verify = .ok () := by decide
  have hrun : (match ((pipeline 6 4 []).parallelize { maxUnroll := 6, costAware := false }).run none
      with
      | .ok ((g, .ok _), _) => decide (g.ops.size = 13) && decide (g.kindOf 5 =
          some (.loop { Loop.plain "k" 0 (some 4) 2 with mark := some (.vectorize 2) }))
      | _ => false) = true := by decide +kernel
  refine ⟨hf, ?_⟩
  split at hrun
  case h_2 => cases hrun
  case h_1 g report journal hrun' =>
    simp only [Bool.and_eq_true, decide_eq_true_eq] at hrun
    obtain ⟨hsize, hkind⟩ := hrun
    have hy : ((pipeline 6 4 []).parallelize { maxUnroll := 6, costAware := false }).Yields none
        (g, .ok report) := ⟨journal, hrun'⟩
    obtain ⟨-, -, -, -, hold, hnew⟩ := parallelize_touches_once none _ g _ report hf hy
    obtain ⟨op', hop', -, -, -, hloop, -⟩ := hold 5 _ rfl
    obtain ⟨owner, -, hreplica⟩ := hnew 12 (by decide) (by omega)
    refine ⟨g, report, hy, ?_, owner, hreplica⟩
    rw [kindOf_eq hop', Option.some.injEq] at hkind
    rw [hkind] at hloop
    rcases hloop with hsame | ⟨l, l', hl, hl', honce⟩
    · cases hsame
    · cases hl
      cases hl'
      exact honce

end Func
end Dataflow
