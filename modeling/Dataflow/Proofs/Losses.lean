/-
# What a parallelization loses

A parallelization unrolls bands, one after another and no loop twice.  What one band loses
(`Func.Widening.total_loses`) can be read off the function it started from: the headers of the
band's loops are still the old ones, and a compute is stranded in its innermost loop exactly if one
was before the bands in front of it were unrolled (`Func.Keeps`).

So a parallelization executes no instance that the function did not, and it executes all of them
if and only if no compute is stranded in the innermost loop of a band that it widens.
-/
import Dataflow.Proofs.Acceptance
import Dataflow.Proofs.Coverage

namespace Dataflow

/-- Losses add up. -/
theorem Loses.trans {lost lost' : Prop} {first second third : Multiset Instance}
    (h : Loses lost second first) (h' : Loses lost' third second) :
    Loses (lost ∨ lost') third first := by
  refine ⟨le_trans h'.1 h.1, ?_⟩
  rw [not_or, ← h.2, ← h'.2]
  constructor
  · rintro rfl
    have hsame : second = third := le_antisymm h.1 h'.1
    exact ⟨hsame, hsame.symm⟩
  · rintro ⟨rfl, rfl⟩
    rfl

namespace Func

variable {f g h : Func}

/-! ## 1. What unrolling a band leaves as it was -/

namespace Unrolled

variable {innermost : OpId} {lanes : List Lane} {mark : Nat → Mark} {groups : Groups}

theorem staticBounds (hu : f.Unrolled innermost lanes mark groups g) (hn : f.Nested)
    (hs : f.StaticBounds) : g.StaticBounds := by
  intro id l' hid hl'
  obtain ⟨hold, l, hl, -, hupper⟩ := hu.isLoop_of_isLoop hn hid hl'
  rw [hupper]
  exact hs id l hold hl

theorem iterates_iff (hu : f.Unrolled innermost lanes mark groups g) (hn : f.Nested) {id : OpId}
    (hid : f.Reaches id) : g.Iterates id ↔ f.Iterates id := by
  constructor
  · intro hiter l hl upper hupper
    obtain ⟨l', hl', hlower', hupper'⟩ := hu.kindOf_loop hl
    rw [← hlower']
    exact hiter l' hl' upper (hupper'.trans hupper)
  · intro hiter l' hl' upper hupper
    obtain ⟨-, l, hl, hlower', hupper'⟩ := hu.isLoop_of_isLoop hn (hu.reaches_old hn hid) hl'
    rw [hlower']
    exact hiter l hl upper (hupper'.symm.trans hupper)

/-- What the body of an old operation holds: what it held, and replicas if it is the innermost
loop. -/
theorem mem_bodyOf (hu : f.Unrolled innermost lanes mark groups g) (hn : f.Nested) {owner id : OpId}
    (howner : f.Reaches owner) : id ∈ g.bodyOf owner ↔
      id ∈ f.bodyOf owner ∨ (owner = innermost ∧ ∃ e ∈ groups, id ∈ e.2) := by
  by_cases heq : owner = innermost
  · subst heq
    rw [hu.bodyOf_innermost (hn.lt_size howner), hu.mem_block]
    simp
  · rw [hu.bodyOf_old (hn.lt_size howner) heq]
    simp [heq]

theorem executes_old (hu : f.Unrolled innermost lanes mark groups g) (hn : f.Nested) {a id : OpId}
    (ha : f.Reaches a) (hexec : f.Executes a id) : g.Executes a id := by
  induction hexec with
  | refl => exact .refl
  | @tail owner id hexec henter ih =>
    have howner : f.Reaches owner := ha.executes hexec
    exact ih.tail ⟨(hu.mem_bodyOf hn howner).mpr (.inl henter.1),
      (hu.iterates_iff hn howner).mpr henter.2⟩

/-- What the new function executes, the old one did, or it is a replica of something that the old
one did. -/
theorem executes_cases (hu : f.Unrolled innermost lanes mark groups g) (hn : f.Nested) {a id : OpId}
    (ha : f.Reaches a) (hexec : g.Executes a id) :
    f.Executes a id ∨ ∃ e ∈ groups, id ∈ e.2 ∧ f.Executes a e.1 := by
  induction hexec with
  | refl => exact .inl .refl
  | @tail owner id hexec henter ih =>
    rcases ih with hexec | ⟨e, he, hr, -⟩
    · have howner : f.Reaches owner := ha.executes hexec
      have hiter := (hu.iterates_iff hn howner).mp henter.2
      rcases (hu.mem_bodyOf hn howner).mp henter.1 with hid | ⟨rfl, e, he, hr⟩
      · exact .inl (hexec.tail ⟨hid, hiter⟩)
      · have horig : e.1 ∈ f.bodyOf owner := hu.originals ▸ List.mem_map_of_mem he
        exact .inr ⟨e, he, hr, hexec.tail ⟨horig, hiter⟩⟩
    · have hempty := henter.1
      rw [hu.bodyOf_replica he hr] at hempty
      cases hempty

theorem not_reaches_replica (hu : f.Unrolled innermost lanes mark groups g) (hn : f.Nested)
    {e : OpId × List OpId} (he : e ∈ groups) {r : OpId} (hr : r ∈ e.2) : ¬ f.Reaches r := fun hid =>
  Nat.not_le.mpr (hn.lt_size hid) (hu.mem_snd_iff.mp ⟨e, he, hr⟩).1

theorem holds_old (hu : f.Unrolled innermost lanes mark groups g) (hn : f.Nested) {owner id : OpId}
    (hid : f.Reaches id) (hholds : g.Holds owner id) : f.Holds owner id := by
  rcases hu.reaches_cases hn hholds.1 with howner | ⟨e, he, hr⟩
  · rcases (hu.mem_bodyOf hn howner).mp hholds.2 with hmem | ⟨-, e, he, hr⟩
    · exact ⟨howner, hmem⟩
    · exact absurd hid (hu.not_reaches_replica hn he hr)
  · have hempty := hholds.2
    rw [hu.bodyOf_replica he hr] at hempty
    cases hempty

/-- Old operations surround each other as before. -/
theorem surrounds_iff (hu : f.Unrolled innermost lanes mark groups g) (hn : f.Nested)
    {a id : OpId} (hid : f.Reaches id) : g.Surrounds a id ↔ f.Surrounds a id := by
  constructor
  · intro hs
    induction hs with
    | single hholds => exact .single (hu.holds_old hn hid hholds)
    | tail _ hholds ih =>
      have hold := hu.holds_old hn hid hholds
      exact .tail (ih hold.1) hold
  · intro hs
    refine Relation.TransGen.mono (fun owner id hholds => ?_) _ _ hs
    exact ⟨hu.reaches_old hn hholds.1, (hu.mem_bodyOf hn hholds.1).mpr (.inl hholds.2)⟩

theorem isCompute_iff (hu : f.Unrolled innermost lanes mark groups g) (hn : f.Nested) {id : OpId}
    (hid : f.Reaches id) : g.IsCompute id ↔ f.IsCompute id := by
  obtain ⟨op, hop, -⟩ := hn.live id hid
  rw [IsCompute, IsCompute, hu.kindOf_old (kindOf_eq hop), kindOf_eq hop]
  constructor
  · rintro ⟨c, hc⟩
    exact ⟨c, congrArg some (of_changeLoop_eq_compute (Option.some.inj hc))⟩
  · rintro ⟨c, hc⟩
    refine ⟨c, ?_⟩
    rw [Option.some.inj hc]
    cases widening mark lanes id <;> rfl

/-- **Unrolling strands nothing in another loop**, and frees nothing there. -/
theorem exists_stranded_iff (hu : f.Unrolled innermost lanes mark groups g) (hn : f.Nested)
    (hinner : f.Reaches innermost) {other : OpId} (hother : f.Reaches other)
    (hne : other ≠ innermost) : (∃ c, g.Stranded other c) ↔ ∃ c, f.Stranded other c := by
  have hbody : g.bodyOf other = f.bodyOf other := hu.bodyOf_old (hn.lt_size hother) hne
  constructor
  · rintro ⟨c, ⟨top, htop, hexec⟩, hc, hin, hdirect⟩
    rw [hu.body] at htop
    rcases hu.executes_cases hn (.top htop) hexec with hexec | ⟨e, he, hr, hexec⟩
    · have hreach : f.Reaches c := (Reaches.top htop).executes hexec
      exact ⟨c, ⟨top, htop, hexec⟩, (hu.isCompute_iff hn hreach).mp hc,
        (hu.surrounds_iff hn hreach).mp hin, hbody ▸ hdirect⟩
    · -- A replica is stranded where the compute is that it replicates.
      obtain ⟨k, _, hk, -, -⟩ := hu.replica he hr
      have horig : e.1 ∈ f.bodyOf innermost := hu.originals ▸ List.mem_map_of_mem he
      have hrep : c ∈ g.bodyOf innermost :=
        (hu.mem_bodyOf hn hinner).mpr (.inr ⟨rfl, e, he, hr⟩)
      rcases ((hu.nested hn hinner).surrounds_child (hu.reaches_old hn hinner) hrep).mp hin with
        heq | hin
      · exact absurd heq hne
      · refine ⟨e.1, ⟨top, htop, hexec⟩, ⟨k, hk⟩,
          ((hu.surrounds_iff hn hinner).mp hin).tail ⟨hinner, horig⟩, fun hmem => hne ?_⟩
        have hparent := hn.parentOf_nested other hother e.1 hmem
        rw [hn.parentOf_nested innermost hinner e.1 horig] at hparent
        exact (Option.some.inj hparent).symm
  · rintro ⟨c, ⟨top, htop, hexec⟩, hc, hin, hdirect⟩
    have hreach : f.Reaches c := (Reaches.top htop).executes hexec
    exact ⟨c, ⟨top, hu.body ▸ htop, hu.executes_old hn (.top htop) hexec⟩,
      (hu.isCompute_iff hn hreach).mpr hc, (hu.surrounds_iff hn hreach).mpr hin, hbody ▸ hdirect⟩

end Unrolled

/-! ## 2. Runs -/

/-- `f.Keeps touched g`: what a run that touched some loops has left of the others. -/
structure Keeps (f : Func) (touched : OpId → Prop) (g : Func) : Prop where
  tidy : g.Tidy
  staticBounds : g.StaticBounds
  reaches : ∀ id, f.Reaches id → g.Reaches id
  isLoop : ∀ id, g.Reaches id → g.IsLoop id → f.Reaches id
  kindOf : ∀ id, f.Reaches id → ¬ touched id → g.kindOf id = f.kindOf id
  stranded : ∀ id, f.Reaches id → ¬ touched id →
    ((∃ c, g.Stranded id c) ↔ ∃ c, f.Stranded id c)

/-- The transformation widens a loop: for some loop of the band the factor, clamped to divide the
trip count, is above one. -/
def Widens (f : Func) (a : Applied) : Prop :=
  a.band.length = a.factors.length ∧ ∃ p ∈ a.band.zip a.factors, ∃ l,
    f.kindOf p.1 = some (.loop l) ∧ 1 < clampFactor p.2 l.tripCount

theorem lanesOf_ne_nil_iff {band : Band} {factors : List Nat} : f.lanesOf band factors ≠ [] ↔
    ∃ p ∈ band.zip factors, ∃ l, f.kindOf p.1 = some (.loop l) ∧
      1 < clampFactor p.2 l.tripCount := by
  constructor
  · intro hne
    obtain ⟨lane, hlane⟩ := List.exists_mem_of_ne_nil _ hne
    obtain ⟨p, hp, hlane⟩ := List.mem_filterMap.mp hlane
    obtain ⟨l, hl, hfactor, -⟩ := laneOf_eq_some hlane
    exact ⟨p, hp, l, hl, hfactor⟩
  · rintro ⟨p, hp, l, hl, hfactor⟩
    have hlane : f.laneOf p.1 p.2 = some ⟨p.1, clampFactor p.2 l.tripCount, l.step⟩ := by
      simp [laneOf, hl, Kind.loop?, hfactor]
    exact List.ne_nil_of_mem (List.mem_filterMap.mpr ⟨p, hp, hlane⟩)

theorem Keeps.mono {touched touched' : OpId → Prop} (k : f.Keeps touched g)
    (hsub : ∀ id, touched id → touched' id) : f.Keeps touched' g where
  tidy := k.tidy
  staticBounds := k.staticBounds
  reaches := k.reaches
  isLoop := k.isLoop
  kindOf := fun id hid hnot => k.kindOf id hid (mt (hsub id) hnot)
  stranded := fun id hid hnot => k.stranded id hid (mt (hsub id) hnot)

/-- One more band. -/
theorem Keeps.replicateBand {touched : OpId → Prop} (k : f.Keeps touched h) {band : Band}
    (hband : h.PerfectNest band) {factors : List Nat} {mark : Nat → Mark} {changed : Bool}
    (hrep : h.replicateBand band factors mark = .ok (g, changed)) :
    f.Keeps (fun id => touched id ∨ id ∈ band) g := by
  have hn := k.tidy.toNested
  have htidy : g.Tidy := (hband.carries k.tidy hrep).tidy
  rcases hband.replicateBand hn hrep with rfl | ⟨-, innermost, groups, hlast, hu⟩
  · exact k.mono fun id hid => .inl hid
  · have hinner : innermost ∈ band := List.mem_of_getLast? hlast
    exact
      { tidy := htidy
        staticBounds := hu.staticBounds hn k.staticBounds
        reaches := fun id hid => hu.reaches_old hn (k.reaches id hid)
        isLoop := fun id hid ⟨l', hl'⟩ => by
          obtain ⟨hold, l, hl, -⟩ := hu.isLoop_of_isLoop hn hid hl'
          exact k.isLoop id hold ⟨l, hl⟩
        kindOf := fun id hid hnot => by
          obtain ⟨hnot, hout⟩ := not_or.mp hnot
          rw [← k.kindOf id hid hnot]
          refine hu.kindOf_same (hn.lt_size (k.reaches id hid)) fun lane hlane heq => hout ?_
          exact heq ▸ loop_mem_of_mem_lanesOf hlane
        stranded := fun id hid hnot => by
          obtain ⟨hnot, hout⟩ := not_or.mp hnot
          rw [← k.stranded id hid hnot]
          exact hu.exists_stranded_iff hn (hband.reaches innermost hinner) (k.reaches id hid)
            fun heq => hout (heq ▸ hinner) }

/-- **A run keeps the loops of the bands that are still to come.** -/
theorem Replays.keeps (hf : f.Tidy) (hs : f.StaticBounds) {applied : List Applied}
    (hrun : f.Replays applied g) : f.Keeps (Touched applied) g := by
  induction hrun with
  | start =>
    exact
      { tidy := hf
        staticBounds := hs
        reaches := fun _ hid => hid
        isLoop := fun _ hid _ => hid
        kindOf := fun _ _ _ => rfl
        stranded := fun _ _ _ => Iff.rfl }
  | @step applied h g a changed _ _ ht ih =>
    refine (ih.replicateBand ht.toPerfectNest ht.unrolls).mono fun id hid => ?_
    rcases hid with ⟨b, hb, hid⟩ | hid
    · exact ⟨b, List.mem_append_left [a] hb, hid⟩
    · exact ⟨a, List.mem_append_right applied (List.mem_singleton_self a), hid⟩

/-- **A band strips the function** if it is widened and a compute is stranded in its innermost
loop. -/
def Strips (f : Func) (a : Applied) : Prop :=
  f.Widens a ∧ ∃ innermost c, a.band.getLast? = some innermost ∧ f.Stranded innermost c

/-- What one band of a run loses, said of the function that the run started from. -/
theorem Keeps.loses {touched : OpId → Prop} (k : f.Keeps touched h) {a : Applied}
    (hband : h.PerfectNest a.band) (hfresh : ∀ id ∈ a.band, ¬ touched id)
    (hfit : f.StepsFit a.band a.factors) {mark : Nat → Mark} {changed : Bool}
    (hrep : h.replicateBand a.band a.factors mark = .ok (g, changed)) :
    Loses (f.Strips a) g.total h.total := by
  have hn := k.tidy.toNested
  have hold : ∀ id ∈ a.band, f.Reaches id := fun id hid =>
    k.isLoop id (hband.reaches id hid) (hband.isLoop id hid)
  have hkind : ∀ p ∈ a.band.zip a.factors, h.kindOf p.1 = f.kindOf p.1 := fun p hp =>
    have hmem : p.1 ∈ a.band := (List.of_mem_zip hp).1
    k.kindOf p.1 (hold p.1 hmem) (hfresh p.1 hmem)
  have hlanes : h.lanesOf a.band a.factors = f.lanesOf a.band a.factors :=
    List.filterMap_congr fun p hp => by rw [laneOf, laneOf, hkind p hp]
  cases changed with
  | false =>
    obtain ⟨rfl, hnone⟩ := replicateBand_unchanged hrep
    refine (Loses.refl _).congr ⟨?_, False.elim⟩
    rintro ⟨hwidens, innermost, c, hlast, -⟩
    rcases hnone with hnil | hlen | hnil
    · rw [hnil] at hlast
      cases hlast
    · exact hlen hwidens.1
    · exact lanesOf_ne_nil_iff.mpr hwidens.2 (hlanes ▸ hnil)
  | true =>
    obtain ⟨hlen, hne, innermost, groups, hlast, hu⟩ :=
      replicateBand_spec (hband.nodup hn) (hband.lt_size_body hn) hrep
    have w : h.Widening a.band a.factors innermost g :=
      { tidy := k.tidy
        staticBounds := k.staticBounds
        nest := hband
        last := hlast
        lengths := hlen
        lanes := hne
        fits := hlanes ▸ hfit.lanes
        unrolled := ⟨mark, groups, hu⟩ }
    have hmem : innermost ∈ a.band := List.mem_of_getLast? hlast
    refine w.total_loses.congr ?_
    rw [k.stranded innermost (hold innermost hmem) (hfresh innermost hmem)]
    constructor
    · rintro ⟨-, innermost', c, hlast', hc⟩
      rw [hlast] at hlast'
      cases hlast'
      exact ⟨c, hc⟩
    · rintro ⟨c, hc⟩
      exact ⟨⟨hlen, lanesOf_ne_nil_iff.mp (hlanes ▸ hne)⟩, innermost, c, hlast, hc⟩

/-- **What a run loses**: what the bands lose that strip the function it started from. -/
theorem Replays.total_loses (hf : f.Tidy) (hs : f.StaticBounds) {applied : List Applied}
    (hrun : f.Replays applied g) (hfit : ∀ a ∈ applied, f.StepsFit a.band a.factors) :
    Loses (∃ a ∈ applied, f.Strips a) g.total f.total := by
  induction hrun with
  | start => exact (Loses.refl _).congr (by simp)
  | @step applied h g a changed hrun hdisj ht ih =>
    have hstep : Loses (f.Strips a) g.total h.total :=
      (hrun.keeps hf hs).loses ht.toPerfectNest
        (fun id hid ⟨b, hb, hid'⟩ => hdisj b hb hid' hid)
        (hfit a (List.mem_append_right applied (List.mem_singleton_self a))) ht.unrolls
    refine ((ih fun b hb => hfit b (List.mem_append_left [a] hb)).trans hstep).congr ?_
    simp [or_and_right, exists_or]

/-! ## 3. Parallelization -/

/-- **When a parallelization keeps the work.**  It executes nothing that the function did not, and
every instance that the function did, as often, if and only if no band that it widens has a compute
running deeper in its innermost loop than that loop's own body. -/
theorem parallelize_keeps_work_iff (audience : Audience) (f g : Func) (config : Config)
    (report : Report) (hf : f.verify = .ok ()) (hs : f.StaticBounds)
    (hy : (f.parallelize config).Yields audience (g, .ok report))
    (hfit : ∀ a ∈ report.applied, f.StepsFit a.band a.factors) :
    ∃ before after, f.instances = some before ∧ g.instances = some after ∧
      (after : Multiset Instance) ≤ before ∧
      ((after : Multiset Instance) = before ↔ ∀ a ∈ report.applied, f.Widens a →
        ∀ innermost, a.band.getLast? = some innermost → ∀ c, ¬ f.Stranded innermost c) := by
  have htidy : f.Tidy := verify_eq_ok_iff_tidy.mp hf
  have hrun : f.Replays report.applied g := parallelize_replays htidy hy
  have k := hrun.keeps htidy hs
  obtain ⟨before, hbefore, htotal⟩ := htidy.toNested.instances_eq hs
  obtain ⟨after, hafter, htotal'⟩ := k.tidy.toNested.instances_eq k.staticBounds
  obtain ⟨hle, hiff⟩ := hrun.total_loses htidy hs hfit
  refine ⟨before, after, hbefore, hafter, ?_, ?_⟩
  · rw [htotal, htotal']
    exact hle
  · rw [htotal, htotal', hiff]
    constructor
    · exact fun hnone a ha hw innermost hlast c hc => hnone ⟨a, ha, hw, innermost, c, hlast, hc⟩
    · rintro hall ⟨a, ha, hw, innermost, c, hlast, hc⟩
      exact hall a ha hw innermost hlast c hc

/-- Two nodes with a buffer between them.  The second holds an imperfect nest: a compute and a loop
side by side in the body of its outer loop. -/
def imperfectNest : Func where
  name := "f"
  arguments := [0]
  body := [0]
  ops := #[
    { id := 0, kind := .schedule { name := "top", increase := none, decrease := none },
      parent := none, body := [1, 2, 5], erased := false },
    { id := 1, kind := .buffer 1 none, parent := some 0, body := [], erased := false },
    { id := 2, kind := .node "n", parent := some 0, body := [3], erased := false },
    { id := 3, kind := .loop (.plain "i" 0 (some 4) 1), parent := some 2, body := [4],
      erased := false },
    { id := 4, kind := .compute { name := "p", reads := [], lanes := [],
                                  writes := [{ memref := 1, indices := [.iv 3] }] },
      parent := some 3, body := [], erased := false },
    { id := 5, kind := .node "m", parent := some 0, body := [6], erased := false },
    { id := 6, kind := .loop (.plain "k" 0 (some 4) 1), parent := some 5, body := [7, 8],
      erased := false },
    { id := 7, kind := .compute { name := "q", reads := [{ memref := 1, indices := [.iv 6] }],
                                  writes := [{ memref := 1, indices := [.iv 6] }], lanes := [] },
      parent := some 6, body := [], erased := false },
    { id := 8, kind := .loop (.plain "j" 0 (some 4) 1), parent := some 6, body := [9],
      erased := false },
    { id := 9, kind := .compute { name := "s", reads := [], lanes := [],
                                  writes := [{ memref := 0, indices := [.iv 6, .iv 8] }] },
      parent := some 8, body := [], erased := false }]
  values := #[{ id := 0, name := "B", shape := [4, 4], space := 0, definition := .argument 0 },
    { id := 1, name := "A", shape := [4], space := 0, definition := .op 1 }]

/-- The outer loop of the second node is vectorized by two, and a third of the instances is gone:
the inner loop is executed for every other value of the outer one only. -/
theorem parallelize_loses_work_imperfectNest :
    imperfectNest.verify = .ok () ∧ imperfectNest.StaticBounds ∧ ∃ g report before after,
      (imperfectNest.parallelize { maxUnroll := 4 }).Yields none (g, .ok report) ∧
      (∀ a ∈ report.applied, imperfectNest.StepsFit a.band a.factors) ∧
      imperfectNest.instances = some before ∧ g.instances = some after ∧
      before.length = 24 ∧ after.length = 16 ∧
      ¬ ∀ a ∈ report.applied, imperfectNest.Widens a → ∀ innermost,
        a.band.getLast? = some innermost → ∀ c, ¬ imperfectNest.Stranded innermost c := by
  have hf : imperfectNest.verify = .ok () := by decide
  have hs : imperfectNest.StaticBounds := staticBounds_of_all (by decide)
  have hcount : imperfectNest.instances.map List.length = some 24 := by decide +kernel
  have hrun : (match (imperfectNest.parallelize { maxUnroll := 4 }).run none with
      | .ok ((g, .ok report), _) => decide (report.applied = [⟨5, [6], [2], .vectorize⟩]) &&
          decide (g.instances.map List.length = some 16)
      | _ => false) = true := by decide +kernel
  refine ⟨hf, hs, ?_⟩
  split at hrun
  case h_2 => cases hrun
  case h_1 g report journal hrun' =>
    simp only [Bool.and_eq_true, decide_eq_true_eq] at hrun
    obtain ⟨happlied, hcount'⟩ := hrun
    have hy : (imperfectNest.parallelize { maxUnroll := 4 }).Yields none (g, .ok report) :=
      ⟨journal, hrun'⟩
    have hfit : ∀ a ∈ report.applied, imperfectNest.StepsFit a.band a.factors := by
      rw [happlied]
      intro a ha p hp l hl
      rw [List.mem_singleton] at ha
      subst ha
      obtain rfl : p = (6, 2) := by simpa using hp
      cases hl
      decide
    obtain ⟨before, after, hbefore, hafter, -, hiff⟩ :=
      parallelize_keeps_work_iff none imperfectNest g { maxUnroll := 4 } report hf hs hy hfit
    rw [hbefore] at hcount
    rw [hafter] at hcount'
    refine ⟨g, report, before, after, hy, hfit, hbefore, hafter, Option.some.inj hcount,
      Option.some.inj hcount', fun hnone => ?_⟩
    have hcard := congrArg Multiset.card (hiff.mpr hnone)
    rw [Multiset.coe_card, Multiset.coe_card, Option.some.inj hcount,
      Option.some.inj hcount'] at hcard
    cases hcard

end Func
end Dataflow
