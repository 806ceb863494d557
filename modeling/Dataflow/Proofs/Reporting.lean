/-
# What the list of transformed bands tells

A parallelization lists bands with the factors that it asked for.  What a loop of a listed band gets
is the part of its factor that divides the trip count (`Func.Replays.kindOf_listed`), and the two
may differ: factors that were carried over from another node need not divide.

* Every loop that changed is in a listed band, but a band may be listed although none of its loops
  changed: it is vectorized, and no factor of it has a part above one (`Func.Rewrites`).
* A listed factor is the one recorded on its loop if it divides the trip count.  A share of the
  node's own budget always does.
* The function changed exactly if a listed band rewrites a loop or replicates a compute
  (`Func.Replays.eq_iff`), so a list that is not empty does not show that it did.
-/
import Dataflow.Proofs.Limits
import Dataflow.Proofs.Losses

namespace Dataflow

/-- A step that is multiplied stays what it was only at the largest word. -/
theorem min_step_eq_iff {step : Int} {k : Nat} (hstep : 0 < step) (hk : 1 < k) :
    min (step * k) intMax = step ↔ step = intMax := by
  have hgrows : step < step * k := by
    calc step = step * 1 := (Int.mul_one step).symm
      _ < step * k := Int.mul_lt_mul_of_pos_left (by omega) hstep
  omega

/-- A valid factor is recorded as it is. -/
theorem clampFactor_of_valid {trip : Option Nat} {n : Nat} (h : ValidFactor trip n) :
    clampFactor n trip = n := by
  match trip, h with
  | none, _ => rfl
  | some 0, h => exact h.symm
  | some (t + 1), h => exact Nat.gcd_eq_left h

namespace Func

variable {f g h : Func} {audience : Audience} {applied : List Applied} {a : Applied}
  {changed : Bool}

/-! ## 1. The loops of a listed band -/

/-- A listed loop is widened by its lane in the band that lists it, if it has one. -/
theorem Replays.widenings_eq (hf : f.Tidy) (hrun : f.Replays applied g) (ha : a ∈ applied)
    {id : OpId} {n : Nat} (hp : (id, n) ∈ a.band.zip a.factors) :
    f.widenings applied id = (f.laneOf id n).map fun lane => lane.widen a.kind.mark := by
  cases hw : f.widenings applied id with
  | none =>
    rw [← find?_lane f ((hrun.listed hf a ha).nodup_places hf) hp]
    exact (List.findSome?_eq_none_iff.mp hw a ha).symm
  | some change =>
    -- The band that widens the loop is the one that lists it.
    obtain ⟨b, hb, m, l, hm, hl, hfactor, rfl⟩ := of_widenings_eq_some hw
    obtain ⟨rfl, rfl⟩ := hrun.listed_once hf ha hb hp hm
    simp [laneOf, hl, Kind.loop?, hfactor]

theorem Listed.step_pos (hf : f.Tidy) (ha : f.Listed a) {id : OpId} (hid : id ∈ a.band) {l : Loop}
    (hl : f.kindOf id = some (.loop l)) : 0 < l.step := by
  obtain ⟨op, hop, hkind⟩ := Option.map_eq_some_iff.mp hl
  exact ((hf.mentions id op (ha.reaches id hid) hop).loop l hkind).1

/-- **What a run makes of a listed loop.** -/
theorem Replays.kindOf_listed (hf : f.Tidy) (hrun : f.Replays applied g) (ha : a ∈ applied)
    {id : OpId} {n : Nat} (hp : (id, n) ∈ a.band.zip a.factors) {l : Loop}
    (hl : f.kindOf id = some (.loop l)) : g.kindOf id = some (.loop
      (if 1 < clampFactor n l.tripCount then
        { l with step := min (l.step * clampFactor n l.tripCount) intMax,
                 mark := some (a.kind.mark (clampFactor n l.tripCount)) }
      else l)) := by
  obtain ⟨op, hop, hkind⟩ := Option.map_eq_some_iff.mp hl
  obtain ⟨op', hop', hs⟩ := hrun.survives hf id op hop
  rw [kindOf_eq hop', hs.kind, hkind, changeLoop_loop, hrun.widenings_eq hf ha hp]
  by_cases hfactor : 1 < clampFactor n l.tripCount
  · have hstep := (hrun.listed hf a ha).step_pos hf (List.of_mem_zip hp).1 hl
    have hwiden : Lane.widen ⟨id, clampFactor n l.tripCount, l.step⟩ a.kind.mark l = _ :=
      Lane.widen_eq hstep (Nat.lt_of_succ_lt hfactor)
    simp [laneOf, hl, Kind.loop?, hfactor, hwiden]
  · simp [laneOf, hl, Kind.loop?, hfactor]

/-- The step or the mark of the loop is another one. -/
def Retimes (f g : Func) (id : OpId) : Prop :=
  ∃ l l', f.kindOf id = some (.loop l) ∧ g.kindOf id = some (.loop l') ∧
    (l'.step ≠ l.step ∨ l'.mark ≠ l.mark)

/-- A listed band rewrites a loop: the part of its factor that divides the trip count is above one,
and the step can still grow or the mark is another one. -/
def Rewrites (f : Func) (a : Applied) : Prop :=
  ∃ p ∈ a.band.zip a.factors, ∃ l, f.kindOf p.1 = some (.loop l) ∧
    1 < clampFactor p.2 l.tripCount ∧
    (l.step ≠ intMax ∨ l.mark ≠ some (a.kind.mark (clampFactor p.2 l.tripCount)))

theorem Replays.retimes_iff (hf : f.Tidy) (hrun : f.Replays applied g) (ha : a ∈ applied)
    {id : OpId} {n : Nat} (hp : (id, n) ∈ a.band.zip a.factors) {l : Loop}
    (hl : f.kindOf id = some (.loop l)) : f.Retimes g id ↔ 1 < clampFactor n l.tripCount ∧
      (l.step ≠ intMax ∨ l.mark ≠ some (a.kind.mark (clampFactor n l.tripCount))) := by
  have hstep := (hrun.listed hf a ha).step_pos hf (List.of_mem_zip hp).1 hl
  have hg := hrun.kindOf_listed hf ha hp hl
  by_cases hfactor : 1 < clampFactor n l.tripCount
  · rw [if_pos hfactor] at hg
    simp [Retimes, hl, hg, hfactor, min_step_eq_iff hstep hfactor,
      eq_comm (a := l.mark)]
  · rw [if_neg hfactor] at hg
    simp [Retimes, hl, hg, hfactor]

/-- **A listed band has a loop that changed exactly if it rewrites one.** -/
theorem Replays.rewrites_iff (hf : f.Tidy) (hrun : f.Replays applied g) (ha : a ∈ applied) :
    (∃ id ∈ a.band, f.Retimes g id) ↔ f.Rewrites a := by
  have hlisted := hrun.listed hf a ha
  constructor
  · rintro ⟨id, hid, hretimes⟩
    obtain ⟨l, hl⟩ := hlisted.isLoop id hid
    obtain ⟨n, hp⟩ : ∃ n, (id, n) ∈ a.band.zip a.factors := by
      rw [← List.map_fst_zip hlisted.lengths.ge] at hid
      obtain ⟨⟨x, n⟩, hp, rfl⟩ := List.mem_map.mp hid
      exact ⟨n, hp⟩
    obtain ⟨hfactor, hshows⟩ := (hrun.retimes_iff hf ha hp hl).mp hretimes
    exact ⟨(id, n), hp, l, hl, hfactor, hshows⟩
  · rintro ⟨⟨id, n⟩, hp, l, hl, hfactor, hshows⟩
    exact ⟨id, (List.of_mem_zip hp).1, (hrun.retimes_iff hf ha hp hl).mpr ⟨hfactor, hshows⟩⟩

theorem Replays.touched_of_retimes (hf : f.Tidy) (hrun : f.Replays applied g) {id : OpId}
    (h : f.Retimes g id) : Touched applied id := by
  obtain ⟨l, l', hl, hl', hne⟩ := h
  by_contra hnot
  obtain ⟨op, hop, hkind⟩ := Option.map_eq_some_iff.mp hl
  rw [kindOf_eq (hrun.untouched hf hop hnot), hkind, Option.some.injEq, Kind.loop.injEq] at hl'
  subst hl'
  simp at hne

/-- The factor of the mark that a loop bears. -/
def markFactor? (f : Func) (id : OpId) : Option Nat :=
  (((f.kindOf id).bind Kind.loop?).bind Loop.mark).map Mark.factor

/-- **A listed factor is the recorded one if it divides the trip count**, and else only if the run
left the loop alone and it was the recorded one before. -/
theorem Replays.markFactor?_eq_iff (hf : f.Tidy) (hrun : f.Replays applied g) (ha : a ∈ applied)
    {id : OpId} {n : Nat} (hp : (id, n) ∈ a.band.zip a.factors) {l : Loop}
    (hl : f.kindOf id = some (.loop l)) (hn : 1 < n) :
    g.markFactor? id = some n ↔ clampFactor n l.tripCount = n ∨
      (clampFactor n l.tripCount ≤ 1 ∧ f.markFactor? id = some n) := by
  have hg := hrun.kindOf_listed hf ha hp hl
  have hmark : ∀ k, (a.kind.mark k).factor = k := fun k => by cases a.kind <;> rfl
  by_cases hfactor : 1 < clampFactor n l.tripCount
  · rw [if_pos hfactor] at hg
    simp [markFactor?, hg, Kind.loop?, hmark, Nat.not_le.mpr hfactor]
  · rw [if_neg hfactor] at hg
    have hne : clampFactor n l.tripCount ≠ n := by omega
    simp [markFactor?, hg, hl, hne, Nat.not_lt.mp hfactor]

/-! ## 2. Whether the function changed -/

/-- A listed band replicates a compute: it widens a loop, and a compute stands in the body of its
innermost loop. -/
def Replicates (f : Func) (a : Applied) : Prop :=
  f.Widens a ∧ ∃ innermost, a.band.getLast? = some innermost ∧
    ∃ x ∈ f.bodyOf innermost, ∃ c, f.kindOf x = some (.compute c)

theorem BandTurn.listed (ht : h.BandTurn a changed g) : h.Listed a :=
  ⟨ht.toPerfectNest, ht.endsNest, ht.lengths⟩

/-- Where a turn rewrites no loop, widening changes no header. -/
theorem BandTurn.changeLoop_eq (hh : h.Tidy) (ht : h.BandTurn a changed g)
    (hloops : ¬ h.Rewrites a) {id : OpId} {k : Kind} (hk : h.kindOf id = some k) :
    changeLoop (widening a.kind.mark (h.lanesOf a.band a.factors) id) k = k := by
  cases hw : widening a.kind.mark (h.lanesOf a.band a.factors) id with
  | none => rfl
  | some change =>
    have hwidenings : h.widenings [a] id = some change := by simp [widenings, hw]
    obtain ⟨b, hb, n, l, hp, hl, hfactor, rfl⟩ := of_widenings_eq_some hwidenings
    obtain rfl := List.mem_singleton.mp hb
    have hstep := ht.listed.step_pos hh (List.of_mem_zip hp).1 hl
    obtain ⟨hmax, hmark⟩ : l.step = intMax ∧
        l.mark = some (b.kind.mark (clampFactor n l.tripCount)) := by
      by_contra hnot
      rw [not_and_or] at hnot
      exact hloops ⟨(id, n), hp, l, hl, hfactor, hnot⟩
    obtain rfl : k = .loop l := Option.some.inj (hk.symm.trans hl)
    rw [changeLoop_loop, Option.getD_some, Lane.widen_eq hstep (Nat.lt_of_succ_lt hfactor),
      (min_step_eq_iff hstep hfactor).mpr hmax, ← hmark]

/-- **A turn that rewrites no loop and replicates no compute does nothing.** -/
theorem BandTurn.eq_of_still (hh : h.Tidy) (ht : h.BandTurn a changed g) (hloops : ¬ h.Rewrites a)
    (hcomputes : ¬ h.Replicates a) : g = h := by
  rcases ht.effect hh.toNested with ⟨rfl, -⟩ | ⟨hne, innermost, groups, hlast, hu⟩
  · rfl
  · have hwidens : h.Widens a := ⟨ht.lengths.symm, lanesOf_ne_nil_iff.mp hne⟩
    -- No compute has a replica, so the block is the old body and the table has no new slot.
    have hnil : ∀ e ∈ groups, e.2 = [] := fun e he => by
      refine List.eq_nil_iff_forall_not_mem.mpr fun r hr => ?_
      obtain ⟨c, -, hc, -⟩ := hu.replica he hr
      have hbody : e.1 ∈ h.bodyOf innermost := hu.originals ▸ List.mem_map_of_mem he
      exact hcomputes ⟨hwidens, innermost, hlast, e.1, hbody, c, hc⟩
    have hblock : groups.block = h.bodyOf innermost := by
      rw [← hu.originals, Groups.block, ← List.flatMap_singleton' (groups.map Prod.fst),
        List.flatMap_map]
      exact List.flatMap_congr fun e he => by rw [hnil e he]
    have hsize : g.ops.size = h.ops.size := by
      refine Nat.le_antisymm (Nat.not_lt.mp fun hlt => ?_) hu.size_le
      obtain ⟨e, he, hr⟩ := hu.mem_snd_iff.mpr ⟨Nat.le_refl h.ops.size, hlt⟩
      rw [hnil e he] at hr
      cases hr
    have hops : g.ops = h.ops := by
      refine Array.ext_getElem? fun id => ?_
      cases hop : h.ops[id]? with
      | none =>
        rw [Array.getElem?_eq_none_iff] at hop ⊢
        exact hsize ▸ hop
      | some op =>
        rw [hu.old id op hop, unrolledEntry, ht.changeLoop_eq hh hloops (kindOf_eq hop)]
        by_cases heq : id = innermost
        · rw [if_pos heq, hblock, ← heq, bodyOf_eq hop]
        · rw [if_neg heq]
    cases g
    cases h
    simp only [Func.mk.injEq]
    exact ⟨hu.name, hu.arguments, hu.body, hops, hu.values⟩

/-- A turn that replicates a compute makes the table longer. -/
theorem BandTurn.size_lt (hh : h.Tidy) (ht : h.BandTurn a changed g) (hr : h.Replicates a) :
    h.ops.size < g.ops.size := by
  obtain ⟨⟨-, hlane⟩, innermost, hlast, x, hx, c, hc⟩ := hr
  have hne := lanesOf_ne_nil_iff.mpr hlane
  rcases ht.effect hh.toNested with ⟨-, hnil, -⟩ | ⟨-, innermost', groups, hlast', hu⟩
  · exact absurd hnil hne
  · obtain rfl : innermost = innermost' := Option.some.inj (hlast.symm.trans hlast')
    rw [← hu.originals] at hx
    obtain ⟨e, he, rfl⟩ := List.mem_map.mp hx
    obtain ⟨more, hmore⟩ := List.exists_mem_of_ne_nil _ (laneOffsets_ne_nil hne lanesOf_factor)
    have hlen := (hu.replicas e he).length_eq
    have hpos : 0 < e.2.length := by
      rw [hlen, replicasOf, hc]
      simpa [replicaKinds, Kind.compute?] using List.length_pos_of_mem hmore
    obtain ⟨r, hr⟩ := List.exists_mem_of_length_pos hpos
    obtain ⟨hle, hlt⟩ := hu.mem_snd_iff.mp ⟨e, he, hr⟩
    exact Nat.lt_of_le_of_lt hle hlt

/-- A band that replicates a compute at the start does so when it has its turn. -/
theorem Replays.replicates (hf : f.Tidy) (hrun : f.Replays applied h)
    (hdis : ∀ b ∈ applied, b.band.Disjoint a.band) (ht : h.BandTurn a changed g)
    (hr : f.Replicates a) : h.Replicates a := by
  obtain ⟨⟨hlen, hlane⟩, innermost, hlast, x, hx, c, hc⟩ := hr
  have hsame := hrun.entry_eq hf ht.toPerfectNest hdis
  refine ⟨⟨hlen, lanesOf_ne_nil_iff.mp ?_⟩, innermost, hlast, x, ?_, c, ?_⟩
  · rw [hrun.lanesOf_eq hf ht.toPerfectNest hdis]
    exact lanesOf_ne_nil_iff.mpr hlane
  · rwa [bodyOf, (hsame innermost (List.mem_of_getLast? hlast)).2]
  · obtain ⟨op, hop, hkind⟩ := Option.map_eq_some_iff.mp hc
    obtain ⟨op', hop', hs⟩ := hrun.survives hf x op hop
    rw [kindOf_eq hop', hs.kind, hkind]
    cases f.widenings applied x <;> rfl

theorem Replays.size_lt (hf : f.Tidy) (hrun : f.Replays applied g) :
    ∀ a ∈ applied, f.Replicates a → f.ops.size < g.ops.size := by
  induction hrun with
  | start => exact fun a ha => by cases ha
  | @step applied h g a changed hrun hdis ht ih =>
    intro b hb hr
    rcases List.mem_append.mp hb with hb | hb
    · refine Nat.lt_of_lt_of_le (ih b hb hr) ?_
      rcases ht.effect (hrun.tidy hf).toNested with ⟨rfl, -⟩ | ⟨-, innermost, groups, -, hu⟩
      · exact Nat.le_refl _
      · exact hu.size_le
    · obtain rfl := List.mem_singleton.mp hb
      exact Nat.lt_of_le_of_lt (hrun.fields hf).2.2.2.2
        (ht.size_lt (hrun.tidy hf) (hrun.replicates hf hdis ht hr))

/-- **A run leaves the function as it was exactly if no listed band rewrites a loop or replicates a
compute.** -/
theorem Replays.eq_iff (hf : f.Tidy) (hrun : f.Replays applied g) :
    g = f ↔ ∀ a ∈ applied, ¬ f.Rewrites a ∧ ¬ f.Replicates a := by
  constructor
  · rintro rfl a ha
    constructor
    · intro hrewrites
      obtain ⟨id, -, l, l', hl, hl', hne⟩ := (hrun.rewrites_iff hf ha).mpr hrewrites
      obtain rfl : l = l' := Kind.loop.inj (Option.some.inj (hl.symm.trans hl'))
      simp at hne
    · intro hreplicates
      exact Nat.lt_irrefl _ (hrun.size_lt hf a ha hreplicates)
  · intro hstill
    -- As long as nothing changed, the next band has its turn on `f` itself.
    induction hrun with
    | start => rfl
    | @step applied h g a changed hrun _ ht ih =>
      obtain rfl : h = f := ih fun b hb => hstill b (List.mem_append_left [a] hb)
      obtain ⟨hloops, hcomputes⟩ :=
        hstill a (List.mem_append_right applied (List.mem_singleton_self a))
      exact ht.eq_of_still hf hloops hcomputes

/-! ## 3. Where the list can be trusted -/

/-- **A jammed band widens a loop.** -/
theorem Replays.widens_of_jams (hf : f.Tidy) (hrun : f.Replays applied g) :
    ∀ a ∈ applied, a.kind = .unrollJam → f.Widens a := by
  induction hrun with
  | start => exact fun a ha => by cases ha
  | @step applied h g a changed hrun hdis ht ih =>
    intro b hb hkind
    rcases List.mem_append.mp hb with hb | hb
    · exact ih b hb hkind
    · obtain rfl := List.mem_singleton.mp hb
      refine ⟨ht.lengths.symm, lanesOf_ne_nil_iff.mp ?_⟩
      rw [← hrun.lanesOf_eq hf ht.toPerfectNest hdis]
      rcases ht.effect (hrun.tidy hf).toNested with ⟨-, -, hvectorize⟩ | ⟨hne, -⟩
      · rw [hkind] at hvectorize
        cases hvectorize
      · exact hne

/-- **A share of the node's own budget is recorded as it is listed.** -/
theorem clampFactor_of_ownShare {goal : Nat} {band : Band} {id : OpId} {n : Nat}
    (hp : (id, n) ∈ band.zip (f.ownShare goal band)) {l : Loop}
    (hl : f.kindOf id = some (.loop l)) : clampFactor n l.tripCount = n := by
  have hvalid : List.Forall₂ ValidFactor (f.tripsOf band) (f.ownShare goal band) := by
    rw [ownShare, ← length_tripsOf f band]
    exact shareFactor_valid (raisedBase_ones _)
  have htrip := (List.forall₂_iff_zip.mp (List.forall₂_map_left_iff.mp hvalid)).2 hp
  rw [hl] at htrip
  exact clampFactor_of_valid htrip

/-! ## 4. Parallelization -/

/-- **What the report says of the function, and what it does not.**

* A loop whose step or mark changed is in a listed band.  A listed band has such a loop exactly if
  it rewrites one; a jammed one at least widens a loop.
* A listed factor above one is recorded on its loop exactly if it divides the trip count, or if it
  has no part in common with it and was recorded there before.  It divides in every band of a node
  that agreed on nothing.
* The function changed exactly if a listed band rewrites a loop or replicates a compute.  So a list
  that is not empty tells of a change only then. -/
theorem parallelizeWith_listed_iff (audience : Audience) (f g : Func) (config : Config)
    (report : Report) (hf : f.verify = .ok ())
    (hy : (f.parallelizeWith config {}).Yields audience (g, .ok report)) :
    (∀ id, f.Retimes g id → ∃ a ∈ report.applied, id ∈ a.band) ∧
    (∀ a ∈ report.applied,
      ((∃ id ∈ a.band, f.Retimes g id) ↔ f.Rewrites a) ∧
      (a.kind = .unrollJam → f.Widens a) ∧
      ∀ id n l, (id, n) ∈ a.band.zip a.factors → f.kindOf id = some (.loop l) →
        (1 < n → (g.markFactor? id = some n ↔ clampFactor n l.tripCount = n ∨
          (clampFactor n l.tripCount ≤ 1 ∧ f.markFactor? id = some n))) ∧
        (a.node ∉ report.factors.map Prod.fst → clampFactor n l.tripCount = n)) ∧
    (g ≠ f ↔ ∃ a ∈ report.applied, f.Rewrites a ∨ f.Replicates a) := by
  have htidy : f.Tidy := verify_eq_ok_iff_tidy.mp hf
  have haccounts := parallelizeWith_accounts htidy hy
  have hrun := haccounts.replays
  refine ⟨fun id hid => hrun.touched_of_retimes htidy hid, fun a ha => ?_, ?_⟩
  · refine ⟨hrun.rewrites_iff htidy ha, hrun.widens_of_jams htidy a ha, fun id n l hp hl => ?_⟩
    refine ⟨hrun.markFactor?_eq_iff htidy ha hp hl, fun hown => ?_⟩
    rcases haccounts.factorsFrom a ha with hagreed | ⟨-, budget, -, hshare⟩
    · exact absurd (List.mem_map_of_mem hagreed) hown
    · rw [hshare] at hp
      exact clampFactor_of_ownShare hp hl
  · rw [ne_eq, hrun.eq_iff htidy]
    push Not
    refine exists_congr fun a => and_congr_right fun _ => ?_
    exact or_iff_not_imp_left.symm

/-- The first node reads what it stores and is left alone.  The factor three that it carried over
to the second node has nothing in common with the eight turns of that node's loop: the band is
listed, and the function stays what it was. -/
theorem parallelizeWith_lists_idle_pipeline :
    (pipeline 3 8 [{ memref := 0, indices := [.const 0] }]).verify = .ok () ∧ ∃ report,
      ((pipeline 3 8 [{ memref := 0, indices := [.const 0] }]).parallelizeWith
        { maxUnroll := 3, costAware := false } {}).Yields none
          (pipeline 3 8 [{ memref := 0, indices := [.const 0] }], .ok report) ∧
      report.applied = [⟨4, [5], [3], .vectorize⟩] := by
  have hf : (pipeline 3 8 [{ memref := 0, indices := [.const 0] }]).verify = .ok () := by decide
  have hrun : (match ((pipeline 3 8 [{ memref := 0, indices := [.const 0] }]).parallelizeWith
        { maxUnroll := 3, costAware := false } {}).run none with
      | .ok ((_, .ok report), _) => decide (report.applied = [⟨4, [5], [3], .vectorize⟩])
      | _ => false) = true := by decide +kernel
  refine ⟨hf, ?_⟩
  split at hrun
  case h_2 => cases hrun
  case h_1 g report journal hrun' =>
    have happlied := of_decide_eq_true hrun
    obtain ⟨-, -, hchanged⟩ := parallelizeWith_listed_iff none _ g _ report hf ⟨journal, hrun'⟩
    have hidle : ∀ p ∈ [5].zip [3], ∀ l,
        (pipeline 3 8 [{ memref := 0, indices := [.const 0] }]).kindOf p.1 = some (.loop l) →
        ¬ 1 < clampFactor p.2 l.tripCount := by
      intro p hp l hl
      obtain rfl := List.mem_singleton.mp hp
      cases hl
      decide
    have hsame : g = pipeline 3 8 [{ memref := 0, indices := [.const 0] }] := by
      refine not_not.mp fun hne => ?_
      obtain ⟨a, ha, hacts⟩ := hchanged.mp hne
      rw [happlied, List.mem_singleton] at ha
      subst ha
      rcases hacts with ⟨p, hp, l, hl, hfactor, -⟩ | ⟨⟨-, p, hp, l, hl, hfactor⟩, -⟩
      all_goals exact hidle p hp l hl hfactor
    subst hsame
    exact ⟨report, ⟨journal, hrun'⟩, happlied⟩

end Func
end Dataflow
