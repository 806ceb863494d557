/-
# Tiling again

A band with a tiled loop is refused, and a loop that is tiled stays so.  Of a band without one,
tiling other bands changes nothing that the pass asks about: it is found and may be tiled if it was
found before and might be, and it has the plan that it had (`Func.Tiled.candidate_before`,
`Func.Tiled.planned_before`).  So whatever could be tiled after a run could be tiled before it and
was not tried by it (`Func.TileRun.planned_before`); but the run tried all that there was.

Hence a second run with the same sizes tiles nothing, and no later run tiles a band again
(`Func.tile_settles`).  What can still go wrong is the search for bands, if an operand cannot be
followed to its memory: a band of one loop is tiled without asking about its accesses, and the
second run asks about those below its point loop (`Func.strayStore`).
-/
import Dataflow.Proofs.TilingCandidates

namespace Dataflow
namespace Func

variable {f g : Func} {innermost : OpId} {tiles : List (OpId × TileHeader)} {audience : Audience}

/-! ## 1. What tiling a band leaves alone -/

/-- Whether a loop can be tiled, and how, is read off its header. -/
theorem tileHeader_congr {id : OpId} {l : Loop} (hk : f.kindOf id = some (.loop l))
    (hk' : g.kindOf id = some (.loop l)) (size : Nat) :
    g.tileHeader id size = f.tileHeader id size := by
  have hlabel : ∀ {f : Func}, f.kindOf id = some (.loop l) →
      f.label id = .ok ("for %" ++ l.name) := by
    intro f hk
    obtain ⟨op, hop, hkind⟩ := Option.map_eq_some_iff.mp hk
    rw [label, op_eq_ok_iff.mpr hop, Checked.ok_bind, hkind]
    rfl
  have hloop : f.loop? id = .ok (some l) := loop?_eq_ok.mpr ⟨_, hk, rfl⟩
  have hloop' : g.loop? id = .ok (some l) := loop?_eq_ok.mpr ⟨_, hk', rfl⟩
  rw [tileHeader, tileHeader, hloop, hloop', hlabel hk, hlabel hk']

namespace Tiled

theorem pointOf?_old (T : f.Tiled innermost tiles g) {x : OpId} (hx : f.Reaches x) :
    g.pointOf? x = f.pointOf? x := by
  obtain ⟨op, hop, -⟩ := T.tidy.toNested.live x hx
  obtain ⟨op', hop', -⟩ := T.tidy_tiled.toNested.live x (T.reaches_old hx)
  have hk := kindOf_eq hop
  have hk' := kindOf_eq hop'
  rcases T.kindOf_cases hx hk hk' with ⟨l, l', hl, hl'⟩ | ⟨c, hc, hc'⟩ | ⟨heq, -⟩
  · rw [hl] at hk
    have hpoint : ((tiling tiles x).getD id l).pointOf = l.pointOf := by
      unfold tiling
      cases tiles.find? fun e => e.1 == x <;> rfl
    rw [pointOf?_eq hk, pointOf?_eq (T.kindOf_loop hk), hpoint]
  · rw [pointOf?, pointOf?, hk, hk', hc, hc']
    rfl
  · rw [pointOf?, pointOf?, hk, hk', heq]

theorem pointOf?_point (T : f.Tiled innermost tiles g) {t p : OpId}
    (htp : (t, p) ∈ f.pairing tiles) : g.pointOf? p = some t := by
  obtain ⟨position, h, he, rfl⟩ := mem_pairing.mp htp
  exact pointOf?_eq (T.kindOf_point he)

/-- **A tiled loop stays tiled.** -/
theorem tiledLoop_old (T : f.Tiled innermost tiles g) {x : OpId} (hx : f.Reaches x)
    (h : f.TiledLoop x) : g.TiledLoop x := by
  rcases h with hpoint | ⟨p, hp, hpoint⟩
  · exact .inl (by rwa [T.pointOf?_old hx])
  · exact .inr ⟨p, T.reaches_old hp, by rwa [T.pointOf?_old hp]⟩

/-- The loops of the band and their point loops are tiled. -/
theorem tiledLoop_new (T : f.Tiled innermost tiles g) {x : OpId}
    (hx : x ∈ tiles.map Prod.fst ++ f.points tiles) : g.TiledLoop x := by
  rcases List.mem_append.mp hx with hx | hx
  · rw [← map_fst_pairing (f := f)] at hx
    obtain ⟨⟨t, p⟩, htp, rfl⟩ := List.mem_map.mp hx
    exact .inr ⟨p, T.nest_tiled.reaches p (List.mem_append_right _ (point_mem htp)),
      T.pointOf?_point htp⟩
  · rw [← map_snd_pairing] at hx
    obtain ⟨⟨t, p⟩, htp, rfl⟩ := List.mem_map.mp hx
    refine .inl ?_
    rw [T.pointOf?_point htp]
    rfl

/-- A loop that is not tiled afterwards was there before, and not in the band. -/
theorem loop_before (T : f.Tiled innermost tiles g) {x : OpId} (hx : g.Reaches x)
    (hloop : g.IsLoop x) (hfree : ¬ g.TiledLoop x) :
    f.Reaches x ∧ f.IsLoop x ∧ x ∉ tiles.map Prod.fst := by
  have hpoint : x ∉ f.points tiles := fun hmem =>
    hfree (T.tiledLoop_new (List.mem_append_right _ hmem))
  exact ⟨(T.reaches_cases hx).resolve_right hpoint, (T.isLoop_iff.mp hloop).resolve_right hpoint,
    fun hmem => hfree (T.tiledLoop_new (List.mem_append_left _ hmem))⟩

theorem nest_before (T : f.Tiled innermost tiles g) {band : Band} (hnest : g.PerfectNest band)
    (hfree : ∀ x ∈ band, ¬ g.TiledLoop x) :
    f.PerfectNest band ∧ ∀ x ∈ band, x ∉ tiles.map Prod.fst := by
  have hbefore : ∀ x ∈ band, f.Reaches x ∧ f.IsLoop x ∧ x ∉ tiles.map Prod.fst := fun x hx =>
    T.loop_before (hnest.reaches x hx) (hnest.isLoop x hx) (hfree x hx)
  refine ⟨⟨fun x hx => (hbefore x hx).1, fun x hx => (hbefore x hx).2.1, ?_⟩,
    fun x hx => (hbefore x hx).2.2⟩
  refine List.IsChain.imp_of_mem_imp (fun outer inner houter _ hbody => ?_) hnest.chain
  obtain ⟨hreach, -, hout⟩ := hbefore outer houter
  rwa [T.bodyOf_old (T.tidy.toNested.lt_size hreach) fun heq => hout (heq ▸ T.mem_innermost)]
    at hbody

/-- A loop that holds one loop and nothing else still does, or its point loop does. -/
theorem startsNest_before (T : f.Tiled innermost tiles g) {band : Band} (h : g.StartsNest band) :
    f.StartsNest band := by
  intro first hfirst outer houter hloop hbody
  by_cases heq : outer = innermost
  · subst heq
    have hlast := T.nest_tiled.reaches _ (List.mem_of_getLast? T.getLast?_points)
    have hlast' := T.nest_tiled.isLoop _ (List.mem_of_getLast? T.getLast?_points)
    exact h first hfirst _ hlast hlast' (T.bodyOf_lastPoint.trans hbody)
  · exact h first hfirst outer (T.reaches_old houter) (T.isLoop_iff.mpr (.inl hloop))
      ((T.bodyOf_old (T.tidy.toNested.lt_size houter) heq).trans hbody)

theorem isNode_before (T : f.Tiled innermost tiles g) {x : OpId} (hx : f.Reaches x)
    (h : g.IsNode x) : f.IsNode x := by
  obtain ⟨op', hop', hnode⟩ := h
  obtain ⟨op, hop, -⟩ := T.tidy.toNested.live x hx
  refine ⟨op, hop, ?_⟩
  rcases T.kindOf_cases hx (kindOf_eq hop) (kindOf_eq hop') with
    ⟨l, l', -, hl'⟩ | ⟨c, -, hc'⟩ | ⟨heq, -⟩
  · rw [hl'] at hnode
    cases hnode
  · rw [hc'] at hnode
    cases hnode
  · rwa [← heq]

theorem innermost_before (T : f.Tiled innermost tiles g) {x : OpId} (hx : f.Reaches x)
    (hne : x ≠ innermost) (h : g.Innermost x) : f.Innermost x := by
  intro child hchild k hk
  have hreach : f.Reaches child := .nested hx hchild
  obtain ⟨op', hop', -⟩ := T.tidy_tiled.toNested.live child (T.reaches_old hreach)
  have hbody := T.bodyOf_old (T.tidy.toNested.lt_size hx) hne
  have hkinds := h child (hbody ▸ hchild) _ (kindOf_eq hop')
  rcases T.kindOf_cases hreach hk (kindOf_eq hop') with ⟨l, l', -, hl'⟩ | ⟨c, rfl, -⟩ | ⟨heq, -⟩
  · rw [hl'] at hkinds
    cases hkinds.1
  · exact ⟨rfl, rfl⟩
  · rwa [heq] at hkinds

/-- The question whether a band may be tiled has the answer that it had. -/
theorem mayTile_eq (T : f.Tiled innermost tiles g) {band : Band} (hnest : f.PerfectNest band)
    (hout : ∀ x ∈ band, x ∉ tiles.map Prod.fst) :
    g.mayTile band .structural = f.mayTile band .structural := by
  have hkind : ∀ x ∈ band, ∃ l, f.kindOf x = some (.loop l) ∧ g.kindOf x = some (.loop l) := by
    intro x hx
    obtain ⟨l, hl⟩ := hnest.isLoop x hx
    exact ⟨l, hl, T.kindOf_other (hout x hx) hl⟩
  have hparallel : (band.drop 1).allM g.isParallel = (band.drop 1).allM f.isParallel := by
    refine Checked.allM_congr (List.forall₂_same.mpr fun x hx => ?_)
    have hmem : x ∈ band := List.mem_of_mem_drop hx
    obtain ⟨l, hl, hl'⟩ := hkind x hmem
    exact T.isParallel_old (hnest.reaches x hmem) hl hl' rfl
  have hpoints :
      band.allM (fun x => return (← g.loop? x).any fun l => l.pointOf.isNone : OpId → Checked Bool)
        = band.allM fun x => return (← f.loop? x).any fun l => l.pointOf.isNone := by
    refine Checked.allM_congr (List.forall₂_same.mpr fun x hx => ?_)
    obtain ⟨l, hl, hl'⟩ := hkind x hx
    have hloop : f.loop? x = .ok (some l) := loop?_eq_ok.mpr ⟨_, hl, rfl⟩
    have hloop' : g.loop? x = .ok (some l) := loop?_eq_ok.mpr ⟨_, hl', rfl⟩
    rw [hloop, hloop']
  rw [mayTile, mayTile, hpoints]
  exact congrArg (· >>= _) hparallel

/-- **A band without a tiled loop that the pass tries was tried before.** -/
theorem candidate_before (T : f.Tiled innermost tiles g) {band : Band} (h : g.Candidate band)
    (hfree : ∀ x ∈ band, ¬ g.TiledLoop x) : f.Candidate band := by
  obtain ⟨hnest, hout⟩ := T.nest_before h.toPerfectNest hfree
  obtain ⟨x, hlast, hinner, node, hnode, hup⟩ := h.last
  have hmem : x ∈ band := List.mem_of_getLast? hlast
  have hx : f.Reaches x := hnest.reaches x hmem
  have hne : x ≠ innermost := fun heq => hout x hmem (heq ▸ T.mem_innermost)
  -- The point loops are no nodes, so the node above was above before.
  have hnot : node ∉ f.points tiles := by
    intro hpoint
    obtain ⟨op, hop, hkind⟩ := hnode
    obtain ⟨l, hl⟩ := (T.isLoop_iff.mpr (.inr hpoint)).kind hop
    rw [hl] at hkind
    cases hkind
  have hup' : f.Above node x :=
    ((T.above_iff_old hx).mp hup).resolve_right fun hpoint => hnot hpoint.2
  exact
    { toPerfectNest := hnest
      starts := T.startsNest_before h.starts
      last := ⟨x, hlast, T.innermost_before hx hne hinner, node,
        T.isNode_before (T.tidy.toNested.reaches_of_above hup' hx) hnode, hup'⟩
      may := (T.mayTile_eq hnest hout).symm.trans h.may }

/-- **A plan for it is one that it had.** -/
theorem planned_before (T : f.Tiled innermost tiles g) {band : Band} {sizes : List Nat}
    {headers : List TileHeader} (h : g.Planned band sizes headers) :
    f.Planned band sizes headers := by
  obtain ⟨hnest, hout⟩ := T.nest_before h.nest h.fresh
  refine ⟨h.lengths, hnest, fun x hx htiled => ?_, ?_⟩
  · exact h.fresh x hx (T.tiledLoop_old (hnest.reaches x hx) htiled)
  · have hband : ∀ e ∈ band.zip sizes, e.1 ∈ band := fun e he => (List.of_mem_zip he).1
    refine ((List.forall₂_and_left _ _).mpr ⟨hband, h.headers⟩).imp ?_
    rintro e header ⟨hmem, hheader⟩
    obtain ⟨l, hl⟩ := hnest.isLoop e.1 hmem
    rwa [tileHeader_congr hl (T.kindOf_other (hout e.1 hmem) hl)] at hheader

/-- Another band is still a perfect nest, and so is the band itself. -/
theorem nest_after (T : f.Tiled innermost tiles g) {band : Band} (hnest : f.PerfectNest band)
    (h : tiles.map Prod.fst = band ∨ (tiles.map Prod.fst).Disjoint band) : g.PerfectNest band := by
  rcases h with rfl | hdisjoint
  · exact
      { reaches := fun x hx => T.nest_tiled.reaches x (List.mem_append_left _ hx)
        isLoop := fun x hx => T.nest_tiled.isLoop x (List.mem_append_left _ hx)
        chain := T.nest_tiled.chain.left_of_append }
  · refine ⟨fun x hx => T.reaches_old (hnest.reaches x hx),
      fun x hx => T.isLoop_iff.mpr (.inl (hnest.isLoop x hx)), ?_⟩
    refine List.IsChain.imp_of_mem_imp (fun outer inner houter _ hbody => ?_) hnest.chain
    rwa [T.bodyOf_old (T.tidy.toNested.lt_size (hnest.reaches outer houter)) fun heq =>
      hdisjoint T.mem_innermost (heq ▸ houter)]

theorem uses_before (T : f.Tiled innermost tiles g) {v : ValueId} (h : g.Uses v) : f.Uses v := by
  obtain ⟨x, k', hx, hk', hv⟩ := h
  rcases T.reaches_cases hx with hx | hpoint
  · obtain ⟨op, hop, -⟩ := T.tidy.toNested.live x hx
    refine ⟨x, op.kind, hx, kindOf_eq hop, ?_⟩
    rcases T.kindOf_cases hx (kindOf_eq hop) hk' with ⟨l, l', -, rfl⟩ | ⟨c, hc, rfl⟩ | ⟨rfl, -⟩
    · cases hv
    · -- Redirecting keeps the memrefs.
      rw [Kind.operands, Redirection.accesses_compute, List.map_map] at hv
      rw [hc]
      exact hv
    · exact hv
  · obtain ⟨l, hl⟩ := T.isLoop_iff.mpr (.inr hpoint)
    rw [hk'] at hl
    cases hl
    cases hv

end Tiled

/-! ## 2. Tiling further -/

/-- `f.TiledFurther g`: `g` is what tiling bands of `f` leaves.  What was reached still is, what was
tiled still is, and the operands that lead astray did so before. -/
structure TiledFurther (f g : Func) : Prop where
  tidy : g.Tidy
  reaches : ∀ x, f.Reaches x → g.Reaches x
  tiledLoop : ∀ x, f.Reaches x → f.TiledLoop x → g.TiledLoop x
  astray : ∀ fault, g.Astray fault → f.Astray fault

theorem TiledFurther.refl (hf : f.Tidy) : f.TiledFurther f :=
  ⟨hf, fun _ hx => hx, fun _ _ h => h, fun _ h => h⟩

theorem TiledFurther.trans {h : Func} (hfg : f.TiledFurther g) (hgh : g.TiledFurther h) :
    f.TiledFurther h where
  tidy := hgh.tidy
  reaches := fun x hx => hgh.reaches x (hfg.reaches x hx)
  tiledLoop := fun x hx ht => hgh.tiledLoop x (hfg.reaches x hx) (hfg.tiledLoop x hx ht)
  astray := fun fault ha => hfg.astray fault (hgh.astray fault ha)

theorem Tiled.further (T : f.Tiled innermost tiles g) : f.TiledFurther g where
  tidy := T.tidy_tiled
  reaches := fun _ hx => T.reaches_old hx
  tiledLoop := fun _ hx ht => T.tiledLoop_old hx ht
  astray := by
    rintro fault ⟨v, hv, hroot⟩
    exact ⟨v, T.uses_before hv, T.root_eq v ▸ hroot⟩

/-! ## 3. Runs of the pass -/

/-- `TileRun audience sizes f bands tiled g`: told to the audience, the pass tries the bands one
after another, tiles those in `tiled`, and gets from `f` to `g`. -/
inductive TileRun (audience : Audience) (sizes : List Nat) :
    Func → List Band → List Band → Func → Prop
  | done (f : Func) : TileRun audience sizes f [] [] f
  | tiled {f f' g : Func} {band newBand : Band} {bands tiled : List Band} :
      (f.tileBand band (sizesFor sizes band.length)).Yields audience (f', .ok newBand) →
      TileRun audience sizes f' bands tiled g →
      TileRun audience sizes f (band :: bands) (band :: tiled) g
  | skipped {f f' g : Func} {band : Band} {reason : Reason} {bands tiled : List Band} :
      (f.tileBand band (sizesFor sizes band.length)).Yields audience (f', .error reason) →
      TileRun audience sizes f' bands tiled g →
      TileRun audience sizes f (band :: bands) tiled g

/-- `f.Tiles audience sizes tiled g`: a run of the pass on all that it tries in `f`. -/
def Tiles (f : Func) (audience : Audience) (sizes : List Nat) (tiled : List Band) (g : Func) :
    Prop :=
  ∃ bands, f.tilingCandidates = .ok bands ∧ TileRun audience sizes f bands tiled g

variable {sizes : List Nat}

/-- The answer says whether a band was tiled. -/
theorem tileBands_yields_iff : ∀ {bands : List Band} {f g : Func} {changed : Bool},
    (tileBands sizes f bands).Yields audience (g, changed) ↔
      ∃ tiled, TileRun audience sizes f bands tiled g ∧ changed = !tiled.isEmpty
  | [], f, g, changed => by
    rw [tileBands, Traced.yields_pure]
    constructor
    · rintro ⟨⟩
      exact ⟨[], .done f, rfl⟩
    · rintro ⟨tiled, ⟨⟩, rfl⟩
      rfl
  | band :: bands, f, g, changed => by
    rw [tileBands, Traced.yields_bind]
    constructor
    · rintro ⟨⟨f', newBand | reason⟩, hfirst, hy⟩
      · obtain ⟨_, -, hy⟩ := Traced.yields_bind.mp hy
        obtain ⟨tiled, hrun, hchanged⟩ := tileBands_yields_iff.mp hy
        exact ⟨tiled, .skipped hfirst hrun, hchanged⟩
      · obtain ⟨⟨g', changed'⟩, hrest, hy⟩ := Traced.yields_bind.mp hy
        cases Traced.yields_pure.mp hy
        obtain ⟨tiled, hrun, -⟩ := tileBands_yields_iff.mp hrest
        exact ⟨_, .tiled hfirst hrun, rfl⟩
    · rintro ⟨tiled, hrun, rfl⟩
      cases hrun with
      | tiled hfirst hrun =>
        refine ⟨_, hfirst, Traced.yields_bind.mpr ⟨_, tileBands_yields_iff.mpr ⟨_, hrun, rfl⟩, ?_⟩⟩
        exact Traced.yields_pure.mpr rfl
      | skipped hfirst hrun =>
        exact ⟨_, hfirst, Traced.yields_bind.mpr
          ⟨(), Traced.yields_say, tileBands_yields_iff.mpr ⟨_, hrun, rfl⟩⟩⟩

theorem tile_yields_iff {changed : Bool} : (f.tile sizes).Yields audience (g, changed) ↔
    ∃ tiled, f.Tiles audience sizes tiled g ∧ changed = !tiled.isEmpty := by
  rw [tile, Traced.yields_bind]
  simp only [Traced.yields_lift, tileBands_yields_iff]
  constructor
  · rintro ⟨bands, hbands, tiled, hrun, hchanged⟩
    exact ⟨tiled, ⟨bands, hbands, hrun⟩, hchanged⟩
  · rintro ⟨tiled, ⟨bands, hbands, hrun⟩, hchanged⟩
    exact ⟨bands, hbands, tiled, hrun, hchanged⟩

/-- `f.Ready bands`: the bands are perfect nests, and they do not get into each other's way. -/
structure Ready (f : Func) (bands : List Band) : Prop where
  tidy : f.Tidy
  nest : ∀ band ∈ bands, f.PerfectNest band
  ne_nil : ∀ band ∈ bands, band ≠ []
  apart : ∀ band ∈ bands, ∀ other ∈ bands, band = other ∨ band.Disjoint other

namespace Ready

variable {band : Band} {bands : List Band}

theorem tail (h : f.Ready (band :: bands)) : f.Ready bands where
  tidy := h.tidy
  nest := fun other hother => h.nest other (List.mem_cons_of_mem band hother)
  ne_nil := fun other hother => h.ne_nil other (List.mem_cons_of_mem band hother)
  apart := fun other hother other' hother' => h.apart other (List.mem_cons_of_mem band hother)
    other' (List.mem_cons_of_mem band hother')

theorem step (h : f.Ready (band :: bands)) (hband : tiles.map Prod.fst = band)
    (T : f.Tiled innermost tiles g) : g.Ready bands where
  tidy := T.tidy_tiled
  nest := fun other hother => T.nest_after (h.tail.nest other hother)
    (hband ▸ h.apart band List.mem_cons_self other (List.mem_cons_of_mem band hother))
  ne_nil := h.tail.ne_nil
  apart := h.tail.apart

/-- **One band of a run**: it is tiled by its plan, or there is none and nothing happens. -/
theorem tileBand_outcome (h : f.Ready (band :: bands)) (sizes : List Nat) (audience : Audience) :
    (∃ headers newBand innermost g, f.Planned band sizes headers ∧
      (f.tileBand band sizes).Yields audience (g, .ok newBand) ∧
      (band.zip headers).map Prod.fst = band ∧ f.Tiled innermost (band.zip headers) g) ∨
    (¬ ∃ headers, f.Planned band sizes headers) ∧
      ∃ reason, (f.tileBand band sizes).Yields audience (f, .error reason) := by
  obtain ⟨innermost, hlast⟩ := Option.ne_none_iff_exists'.mp fun hnone =>
    h.ne_nil band List.mem_cons_self (List.getLast?_eq_none_iff.mp hnone)
  refine (h.tidy.tileBand_outcome (h.nest band List.mem_cons_self) hlast sizes audience).imp_left ?_
  rintro ⟨headers, g, hplanned, hy, hband, T⟩
  exact ⟨headers, _, innermost, g, hplanned, hy, hband, T⟩

end Ready

/-- What the pass tries, it can try. -/
theorem Tidy.ready (hf : f.Tidy) {bands : List Band} (hbands : f.tilingCandidates = .ok bands) :
    f.Ready bands where
  tidy := hf
  nest := fun _ hband =>
    ((hf.toNested.mem_tilingCandidates hbands).mp hband).toPerfectNest
  ne_nil := fun _ hband => ((hf.toNested.mem_tilingCandidates hbands).mp hband).ne_nil
  apart := fun _ hband _ hother =>
    ((hf.toNested.mem_tilingCandidates hbands).mp hband).eq_or_disjoint hf.toNested
      ((hf.toNested.mem_tilingCandidates hbands).mp hother).toFoundBand

namespace TileRun

variable {bands tiled : List Band}

/-- **Induction over a run**, with what is known of each step. -/
theorem induct {motive : Func → List Band → List Band → Func → Prop}
    (done : ∀ f, f.Tidy → motive f [] [] f)
    (tiled : ∀ {f f' g innermost band headers bands tiled}, f.Ready (band :: bands) →
      f.Planned band (sizesFor sizes band.length) headers →
      (band.zip headers).map Prod.fst = band → f.Tiled innermost (band.zip headers) f' →
      motive f' bands tiled g → motive f (band :: bands) (band :: tiled) g)
    (skipped : ∀ {f g band bands tiled}, f.Ready (band :: bands) →
      (¬ ∃ headers, f.Planned band (sizesFor sizes band.length) headers) →
      motive f bands tiled g → motive f (band :: bands) tiled g)
    {ts : List Band} (hrun : TileRun audience sizes f bands ts g) (hready : f.Ready bands) :
    motive f bands ts g := by
  induction hrun with
  | done f => exact done f hready.tidy
  | tiled hy _ ih =>
    rcases hready.tileBand_outcome _ audience with
      ⟨headers, newBand, innermost, f', hplanned, hy', hband, T⟩ | ⟨-, reason, hy'⟩
    · cases hy.unique hy'
      exact tiled hready hplanned hband T (ih (hready.step hband T))
    · cases hy.unique hy'
  | skipped hy _ ih =>
    rcases hready.tileBand_outcome _ audience with
      ⟨headers, newBand, innermost, f', hplanned, hy', hband, T⟩ | ⟨hnone, reason, hy'⟩
    · cases hy.unique hy'
    · cases hy.unique hy'
      exact skipped hready hnone (ih hready.tail)

/-- **What a run tiles.**  It tiles further, and bands without a tiled loop only; their loops are
tiled from then on. -/
theorem further (h : TileRun audience sizes f bands tiled g) (hready : f.Ready bands) :
    f.TiledFurther g ∧ ∀ band ∈ tiled, band ≠ [] ∧
      ∀ x ∈ band, f.Reaches x ∧ ¬ f.TiledLoop x ∧ g.TiledLoop x := by
  refine h.induct (motive := fun f _ tiled g => f.TiledFurther g ∧ ∀ band ∈ tiled, band ≠ [] ∧
    ∀ x ∈ band, f.Reaches x ∧ ¬ f.TiledLoop x ∧ g.TiledLoop x) ?_ ?_ ?_ hready
  · intro f hf
    exact ⟨.refl hf, fun band hband => by cases hband⟩
  · intro f f' g innermost band headers bands tiled hready hplanned hband T ⟨hfurther, ih⟩
    refine ⟨T.further.trans hfurther, List.forall_mem_cons.mpr
      ⟨⟨hready.ne_nil band List.mem_cons_self, fun x hx => ?_⟩, fun other hother => ?_⟩⟩
    · have hreach : f.Reaches x := hplanned.nest.reaches x hx
      have htiled : f'.TiledLoop x := T.tiledLoop_new (List.mem_append_left _ (hband.symm ▸ hx))
      exact ⟨hreach, hplanned.fresh x hx, hfurther.tiledLoop x (T.reaches_old hreach) htiled⟩
    · obtain ⟨hne, hloops⟩ := ih other hother
      refine ⟨hne, fun x hx => ?_⟩
      obtain ⟨hreach, hfree, htiled⟩ := hloops x hx
      -- It is no point loop of the band just tiled, so it was there before.
      have hold : f.Reaches x := (T.reaches_cases hreach).resolve_right fun hpoint =>
        hfree (T.tiledLoop_new (List.mem_append_right _ hpoint))
      exact ⟨hold, fun ht => hfree (T.tiledLoop_old hold ht), htiled⟩
  · intro f g band bands tiled _ _ ih
    exact ih

/-- **What could be tiled after a run could be tiled before, and was not tried.** -/
theorem planned_before (h : TileRun audience sizes f bands tiled g) (hready : f.Ready bands) :
    ∀ band headers, g.Candidate band → g.Planned band (sizesFor sizes band.length) headers →
      f.Candidate band ∧ f.Planned band (sizesFor sizes band.length) headers ∧ band ∉ bands := by
  refine h.induct (motive := fun f bands _ g => ∀ band headers, g.Candidate band →
    g.Planned band (sizesFor sizes band.length) headers → f.Candidate band ∧
      f.Planned band (sizesFor sizes band.length) headers ∧ band ∉ bands) ?_ ?_ ?_ hready
  · intro f _ band headers hcandidate hplanned
    exact ⟨hcandidate, hplanned, List.not_mem_nil⟩
  · intro f f' g innermost band headers bands tiled _ _ hband T ih other headers' hother hplanned
    obtain ⟨hcandidate, hplanned, hnot⟩ := ih other headers' hother hplanned
    refine ⟨T.candidate_before hcandidate hplanned.fresh, T.planned_before hplanned,
      List.not_mem_cons_of_ne_of_not_mem ?_ hnot⟩
    -- The band that was tiled has a tiled loop now.
    rintro rfl
    obtain ⟨x, hx⟩ := List.exists_mem_of_ne_nil other hcandidate.ne_nil
    exact hplanned.fresh x hx (T.tiledLoop_new (List.mem_append_left _ (hband.symm ▸ hx)))
  · intro f g band bands tiled _ hnone ih other headers hcandidate hplanned
    obtain ⟨hcandidate, hplanned, hnot⟩ := ih other headers hcandidate hplanned
    refine ⟨hcandidate, hplanned, List.not_mem_cons_of_ne_of_not_mem ?_ hnot⟩
    rintro rfl
    exact hnone ⟨headers, hplanned⟩

end TileRun

/-- Bands that can be tried are tried. -/
theorem Ready.exists_run (audience : Audience) (sizes : List Nat) :
    ∀ {bands : List Band} {f : Func}, f.Ready bands →
      ∃ tiled g, TileRun audience sizes f bands tiled g
  | [], f, _ => ⟨[], f, .done f⟩
  | band :: bands, f, h => by
    rcases h.tileBand_outcome (sizesFor sizes band.length) audience with
      ⟨headers, newBand, innermost, f', -, hy, hband, T⟩ | ⟨-, reason, hy⟩
    · obtain ⟨tiled, g, hrun⟩ := exists_run audience sizes (h.step hband T)
      exact ⟨_, g, .tiled hy hrun⟩
    · obtain ⟨tiled, g, hrun⟩ := exists_run audience sizes h.tail
      exact ⟨tiled, g, .skipped hy hrun⟩

/-- Bands without a plan are skipped. -/
theorem Ready.run_of_unplanned (audience : Audience) : ∀ {bands : List Band}, f.Ready bands →
    (∀ band ∈ bands, ¬ ∃ headers, f.Planned band (sizesFor sizes band.length) headers) →
      TileRun audience sizes f bands [] f
  | [], _, _ => .done f
  | band :: bands, h, hnone => by
    obtain ⟨hfirst, hrest⟩ := List.forall_mem_cons.mp hnone
    rcases h.tileBand_outcome (sizesFor sizes band.length) audience with
      ⟨headers, _, _, _, hplanned, -⟩ | ⟨-, reason, hy⟩
    · exact absurd ⟨headers, hplanned⟩ hfirst
    · exact .skipped hy (run_of_unplanned audience h.tail hrest)

/-! ## 4. The pass again -/

namespace Tidy

/-- The pass has its bands, or an operand leads astray. -/
theorem candidates_or_astray (hf : f.Tidy) (audience : Audience) (sizes : List Nat) :
    (∃ bands, f.tilingCandidates = .ok bands) ∨
      ∃ fault, (f.tile sizes).Faults audience fault ∧ f.Astray fault := by
  cases hbands : f.tilingCandidates with
  | ok bands => exact .inl ⟨bands, rfl⟩
  | error fault =>
    exact .inr ⟨fault, Traced.faults_lift_bind hbands, hf.tilingCandidates_stopsBy fault hbands⟩

/-- **The pass gives a result, or an operand leads astray.** -/
theorem tile_outcome (hf : f.Tidy) (audience : Audience) (sizes : List Nat) :
    (∃ tiled g, f.Tiles audience sizes tiled g) ∨
      ∃ fault, (f.tile sizes).Faults audience fault ∧ f.Astray fault := by
  refine (hf.candidates_or_astray audience sizes).imp_left ?_
  rintro ⟨bands, hbands⟩
  obtain ⟨tiled, g, hrun⟩ := (hf.ready hbands).exists_run audience sizes
  exact ⟨tiled, g, bands, hbands, hrun⟩

/-- If nothing that the pass tries has a plan, it does nothing. -/
theorem tile_of_unplanned (hf : f.Tidy) (audience : Audience)
    (h : ∀ band, f.Candidate band →
      ¬ ∃ headers, f.Planned band (sizesFor sizes band.length) headers) :
    (f.tile sizes).Yields audience (f, false) ∨
      ∃ fault, (f.tile sizes).Faults audience fault ∧ f.Astray fault := by
  refine (hf.candidates_or_astray audience sizes).imp_left ?_
  rintro ⟨bands, hbands⟩
  refine tile_yields_iff.mpr ⟨[], ⟨bands, hbands, ?_⟩, rfl⟩
  exact (hf.ready hbands).run_of_unplanned audience fun band hband =>
    h band ((hf.toNested.mem_tilingCandidates hbands).mp hband)

end Tidy

namespace Tiles

variable {tiled : List Band}

theorem further (hf : f.Tidy) (h : f.Tiles audience sizes tiled g) :
    f.TiledFurther g ∧ ∀ band ∈ tiled, band ≠ [] ∧
      ∀ x ∈ band, f.Reaches x ∧ ¬ f.TiledLoop x ∧ g.TiledLoop x := by
  obtain ⟨bands, hbands, hrun⟩ := h
  exact hrun.further (hf.ready hbands)

/-- **A second run finds nothing to tile.** -/
theorem unplanned (hf : f.Tidy) (h : f.Tiles audience sizes tiled g) : ∀ band, g.Candidate band →
    ¬ ∃ headers, g.Planned band (sizesFor sizes band.length) headers := by
  rintro band hcandidate ⟨headers, hplanned⟩
  obtain ⟨bands, hbands, hrun⟩ := h
  obtain ⟨hcandidate, -, hnot⟩ :=
    hrun.planned_before (hf.ready hbands) band headers hcandidate hplanned
  exact hnot ((hf.toNested.mem_tilingCandidates hbands).mpr hcandidate)

end Tiles

/-- `f.Retiles audience g`: a run of the pass, with some sizes, takes `f` to `g`. -/
def Retiles (audience : Audience) (f g : Func) : Prop :=
  ∃ sizes changed, (f.tile sizes).Yields audience (g, changed)

/-- Runs one after another tile further. -/
theorem further_of_retiles (hf : f.Tidy)
    (h : Relation.ReflTransGen (Retiles audience) f g) : f.TiledFurther g := by
  induction h with
  | refl => exact .refl hf
  | tail _ hstep ih =>
    obtain ⟨sizes, changed, hy⟩ := hstep
    obtain ⟨tiled, hrun, -⟩ := tile_yields_iff.mp hy
    exact ih.trans (hrun.further ih.tidy).1

/-- A band that was tiled is tiled by no later run, nor is one that shares a loop with it. -/
theorem Tiles.disjoint_later (hf : f.Tidy) {h h' : Func} {tiled tiled' : List Band}
    {sizes' : List Nat} (hrun : f.Tiles audience sizes tiled g)
    (hlater : Relation.ReflTransGen (Retiles audience) g h)
    (hrun' : h.Tiles audience sizes' tiled' h') :
    ∀ band ∈ tiled, band ∉ tiled' ∧ ∀ band' ∈ tiled', band.Disjoint band' := by
  obtain ⟨hfurther, htiled⟩ := hrun.further hf
  have hfurther' : g.TiledFurther h := further_of_retiles hfurther.tidy hlater
  obtain ⟨-, htiled'⟩ := hrun'.further hfurther'.tidy
  intro band hband
  obtain ⟨hne, hloops⟩ := htiled band hband
  have hdisjoint : ∀ band' ∈ tiled', band.Disjoint band' := by
    intro band' hband' x hx hx'
    obtain ⟨hreach, -, hnow⟩ := hloops x hx
    obtain ⟨-, hfree, -⟩ := (htiled' band' hband').2 x hx'
    exact hfree (hfurther'.tiledLoop x (hfurther.reaches x hreach) hnow)
  refine ⟨fun hmem => ?_, hdisjoint⟩
  obtain ⟨x, hx⟩ := List.exists_mem_of_ne_nil band hne
  exact hdisjoint band hmem hx hx

/-! ## 5. Sizes that tile nothing -/

theorem Planned.size_ne_zero {band : Band} {sizes : List Nat} {headers : List TileHeader}
    (h : f.Planned band sizes headers) : ∀ size ∈ sizes, size ≠ 0 := by
  intro size hsize
  rw [← List.map_snd_zip h.lengths.ge, List.mem_map] at hsize
  obtain ⟨e, he, rfl⟩ := hsize
  obtain ⟨header, -, hheader⟩ := Checked.forall₂_right h.headers he
  obtain ⟨_, _, -, -, hne, -⟩ := tileHeader_spec hheader
  exact hne

/-- A band is planned by sizes that there are, and none of them is zero. -/
theorem Planned.sizes_valid {band : Band} {headers : List TileHeader} (hne : band ≠ [])
    (h : f.Planned band (sizesFor sizes band.length) headers) :
    sizes ≠ [] ∧ ∀ size ∈ sizes, size ≠ 0 := by
  have hpos : 0 < band.length := List.length_pos_of_ne_nil hne
  have hsizes := h.size_ne_zero
  match sizes with
  | [] => exact absurd h.lengths (Nat.ne_of_gt hpos)
  | [size] =>
    refine ⟨List.cons_ne_nil size [], List.forall_mem_singleton.mpr (hsizes size ?_)⟩
    exact List.mem_replicate.mpr ⟨Nat.ne_of_gt hpos, rfl⟩
  | size :: next :: sizes => exact ⟨List.cons_ne_nil size _, hsizes⟩

/-- **What the pass says that it cannot tile has no plan.** -/
theorem Tidy.unplanned_of_canTile (hf : f.Tidy) (h : f.canTile sizes = .ok false) :
    ∀ band, f.Candidate band →
      ¬ ∃ headers, f.Planned band (sizesFor sizes band.length) headers := by
  rintro band hcandidate ⟨headers, hplanned⟩
  obtain ⟨hne, hpositive⟩ := hplanned.sizes_valid hcandidate.ne_nil
  have hvalid : ¬ (sizes.isEmpty || sizes.any (· == 0)) = true := by
    rw [Bool.or_eq_true, List.isEmpty_iff, List.any_eq_true]
    rintro (hnil | ⟨size, hsize, hzero⟩)
    · exact hne hnil
    · exact hpositive size hsize (beq_iff_eq.mp hzero)
  rw [canTile, if_neg hvalid] at h
  obtain ⟨bands, hbands, hempty⟩ := Checked.bind_eq_ok.mp h
  have hmem : band ∈ bands := (hf.toNested.mem_tilingCandidates hbands).mpr hcandidate
  cases bands with
  | nil => cases hmem
  | cons first bands => cases hempty

/-- **The tiling pass settles.**  On a function that is accepted it gives a result, or an operand
leads astray.  If it gives one, then a second run with the same sizes changes nothing, and no run
that follows, with whatever sizes, tiles a band that was tiled or shares a loop with one.  If the
pass says that it can do nothing, it does nothing.  An operand leads astray at the source of a view
that is not reached, so never in a closed function. -/
theorem tile_settles (audience : Audience) (f : Func) (sizes : List Nat)
    (hf : f.verify = .ok ()) :
    ((∃ g changed, (f.tile sizes).Yields audience (g, changed)) ∨
      ∃ fault, (f.tile sizes).Faults audience fault ∧ f.Astray fault) ∧
    (∀ g changed, (f.tile sizes).Yields audience (g, changed) →
      ((g.tile sizes).Yields audience (g, false) ∨
        ∃ fault, (g.tile sizes).Faults audience fault ∧ f.Astray fault) ∧
      ∃ tiled, f.Tiles audience sizes tiled g ∧ (changed = true ↔ tiled ≠ []) ∧
        ∀ h, Relation.ReflTransGen (Retiles audience) g h →
          ∀ sizes' tiled' h', h.Tiles audience sizes' tiled' h' →
            ∀ band ∈ tiled, band ∉ tiled' ∧ ∀ band' ∈ tiled', band.Disjoint band') ∧
    (f.canTile sizes = .ok false → (f.tile sizes).Yields audience (f, false) ∨
      ∃ fault, (f.tile sizes).Faults audience fault ∧ f.Astray fault) ∧
    ∀ fault, f.Astray fault → ¬ f.Closed ∧ ∃ d source result, ¬ f.Reaches d ∧
      f.kindOf d = some (.view source result) ∧ fault = .unknownValue source := by
  have htidy : f.Tidy := verify_eq_ok_iff_tidy.mp hf
  refine ⟨(htidy.tile_outcome audience sizes).imp_left ?_, fun g changed hy => ?_,
    fun hcannot => ?_, fun fault hastray => htidy.of_astray hastray⟩
  · rintro ⟨tiled, g, hrun⟩
    exact ⟨g, _, tile_yields_iff.mpr ⟨tiled, hrun, rfl⟩⟩
  · obtain ⟨tiled, hrun, hchanged⟩ := tile_yields_iff.mp hy
    have hfurther := (hrun.further htidy).1
    refine ⟨(hfurther.tidy.tile_of_unplanned audience (hrun.unplanned htidy)).imp_right ?_,
      tiled, hrun, by simp [hchanged], fun h hlater sizes' tiled' h' hrun' =>
        hrun.disjoint_later htidy hlater hrun'⟩
    rintro ⟨fault, hfault, hastray⟩
    exact ⟨fault, hfault, hfurther.astray fault hastray⟩
  · exact htidy.tile_of_unplanned audience (htidy.unplanned_of_canTile hcannot)

/-- A loop that stores to a view which stands in no block, of a value that does not exist. -/
def strayStore : Func where
  name := "f"
  arguments := []
  body := [0]
  ops := #[
    { id := 0, kind := .node "n", parent := none, body := [1], erased := false },
    { id := 1, kind := .loop (.plain "i" 0 (some 4) 1), parent := some 0, body := [2],
      erased := false },
    { id := 2, kind := .compute { name := "s", reads := [],
                                  writes := [{ memref := 0, indices := [.iv 1] }], lanes := [] },
      parent := some 1, body := [], erased := false },
    { id := 3, kind := .view 7 0, parent := none, body := [], erased := false }]
  values := #[{ id := 0, name := "V", shape := [4], space := 0, definition := .op 3 }]

/-- The loop is tiled by two.  The second run does not end: it asks whether the point loop is
parallel, and the store leads astray. -/
theorem tile_settles_strayStore : strayStore.verify = .ok () ∧
    ∃ g, (strayStore.tile [2]).Yields none (g, true) ∧
      (g.tile [2]).Faults none (.unknownValue 7) ∧ strayStore.Astray (.unknownValue 7) ∧
      (∃ band tiled, strayStore.Tiles none [2] (band :: tiled) g) ∧ ¬ strayStore.Closed := by
  have hf : strayStore.verify = .ok () := by decide
  obtain ⟨g, hy⟩ : ∃ g, (strayStore.tile [2]).Yields none (g, true) := Traced.exists_yields rfl
  have hfault : (g.tile [2]).Faults none (.unknownValue 7) := by
    have htwice : ((strayStore.tile [2]).run none >>= fun r => (r.1.1.tile [2]).run none)
        = .error (.unknownValue 7) := rfl
    obtain ⟨journal, hrun⟩ := hy
    rwa [hrun] at htwice
  obtain ⟨-, hresult, -, hastray⟩ := tile_settles none strayStore [2] hf
  obtain ⟨hagain, tiled, hrun, hchanged, -⟩ := hresult g true hy
  obtain ⟨fault, hfault', hstray⟩ := hagain.resolve_left fun hy => hy.not_faults hfault
  cases hfault'.unique hfault
  obtain ⟨band, bands, rfl⟩ := List.exists_cons_of_ne_nil (hchanged.mp rfl)
  exact ⟨hf, g, hy, hfault, hstray, ⟨band, bands, hrun⟩, (hastray _ hstray).1⟩

end Func
end Dataflow
