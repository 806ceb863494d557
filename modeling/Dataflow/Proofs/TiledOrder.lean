/-
# The order of a tiled run

Tiling moves executions: of two that belong to different tiles the one in the earlier tile comes
first.  Two executions keep their order if the loops of the band below the outermost one agree
(`Func.Tiled.lt_iff_lt`): then what is left to compare of the band is the outermost loop, and the
pairs of its tile and point loop are in the order of its values.

A band may be tiled when the loops below the outermost are parallel, and a loop that is parallel by
its accesses drives a subscript of everything that touches what is written below it
(`Func.eq_of_isParallel`).  So two executions that depend on each other agree on these loops, and
tiling such a band keeps their order (`Func.tileBand_keeps_order`).
-/
import Dataflow.Proofs.TiledRuns

namespace Dataflow
namespace Func

variable {f g : Func} {innermost : OpId} {tiles : List (OpId × TileHeader)}

/-! ## 1. The order of the text -/

/-- Operations of one block stay in one, in their order. -/
theorem Split.earlier (h : f.Split innermost tiles g) (hn : f.Nested) (hne : tiles ≠ [])
    (hinner : f.Reaches innermost) {a b : OpId} (ha : f.Reaches a) (hb : f.Reaches b)
    (hab : f.Earlier a b) : g.Earlier a b := by
  obtain ⟨hparent, before, after, hlt, hbefore, hafter⟩ := hab
  have hmem : ∀ {id : OpId}, f.Reaches id →
      (id ∈ f.bodyOf innermost ↔ f.parentOf id = some innermost) := fun hid =>
    ⟨hn.parentOf_nested innermost hinner _, fun hp => (hn.holds_of_isParent hid hp).2⟩
  have hparentA := h.parentOf_old (hn.lt_size ha)
  have hparentB := h.parentOf_old (hn.lt_size hb)
  simp only [hmem ha] at hparentA
  simp only [hmem hb, hparent] at hparentB
  refine ⟨hparentB.trans hparentA.symm, before, after, hlt, ?_⟩
  have hblock : g.blockOf (g.parentOf a) = f.blockOf (f.parentOf a) := by
    rw [hparentA]
    by_cases hin : f.parentOf a = some innermost
    · have hpos : 0 < tiles.length := List.length_pos_of_ne_nil hne
      rw [if_pos hin, hin]
      change g.bodyOf (f.lastPoint tiles) = f.bodyOf innermost
      rw [lastPoint, h.bodyOf_point (Nat.sub_lt hpos Nat.one_pos), if_neg (by omega)]
    · rw [if_neg hin]
      cases hp : f.parentOf a with
      | none => exact h.body
      | some owner =>
        have howner := (hn.mem_blockOf ha).2 owner hp
        refine h.bodyOf_old (hn.lt_size howner) ?_
        rintro rfl
        exact hin hp
  rw [hblock]
  exact ⟨hbefore, hafter⟩

namespace Tiled

theorem standsBefore (T : f.Tiled innermost tiles g) {x y : OpId} (hx : f.Reaches x)
    (hy : f.Reaches y) (h : f.StandsBefore x y) : g.StandsBefore x y := by
  have hn := T.tidy.toNested
  obtain ⟨split, hsplit, hsame⟩ := T.exists_split
  rw [hsame.standsBefore_iff]
  have hup : ∀ {a id : OpId}, f.Reaches id → f.Above a id → split.Above a id := fun hid hup =>
    hsplit.above_old hn T.tiles_ne_nil T.reaches_innermost hup hid
  rcases h with habove | ⟨a, b, hax, hby, hearlier⟩
  · exact .inl (hup hy habove)
  · refine .inr ⟨a, b, hup hx hax, hup hy hby, ?_⟩
    exact hsplit.earlier hn T.tiles_ne_nil T.reaches_innermost (hn.reaches_of_above hax hx)
      (hn.reaches_of_above hby hy) hearlier

end Tiled

/-! ## 2. Two executions below the band -/

/-- An execution in the tiled function of an operation below the band. -/
structure Inside (f : Func) (innermost : OpId) (tiles : List (OpId × TileHeader)) (g : Func)
    (p : Visit) : Prop where
  reaches : f.Reaches p.1
  other : p.1 ∉ tiles.map Prod.fst
  around : f.Around innermost p.1
  mem : p ∈ g.timeline

/-- An execution has one place in a run. -/
theorem Tidy.place_inj (h : f.Tidy) {i j : Nat} {p : Visit} (hi : f.timeline[i]? = some p)
    (hj : f.timeline[j]? = some p) : i = j :=
  (List.getElem?_inj (List.getElem?_eq_some_iff.mp hi).1
    (h.toNested.timeline_nodup h.advances)).mp (hi.trans hj.symm)

namespace Tiled

variable {p q : Visit}

/-- Where the loops agreed, the tile and point loops do. -/
theorem pair_eq (T : f.Tiled innermost tiles g) (hp : f.Inside innermost tiles g p)
    (hq : f.Inside innermost tiles g q) {t point : OpId} (htp : (t, point) ∈ f.pairing tiles)
    (heq : (f.pairing tiles).rejoin p.2 t = (f.pairing tiles).rejoin q.2 t) :
    p.2 t = q.2 t ∧ p.2 point = q.2 point := by
  obtain ⟨ht, hpoint⟩ := T.mem_valuesOf_pair hp.reaches hp.around hp.mem htp hp.other
  obtain ⟨ht', hpoint'⟩ := T.mem_valuesOf_pair hq.reaches hq.around hq.mem htp hq.other
  obtain ⟨l, h, -, -, hs, -, htile, hvalues⟩ := T.exists_splits htp
  rw [htile] at ht ht'
  rw [hvalues] at hpoint hpoint'
  rw [T.rejoin_tile htp, T.rejoin_tile htp] at heq
  exact hs.add_inj ht ht' hpoint hpoint' heq

/-- Where the loops agreed, those in the same slots do. -/
theorem eq_of_rejoin_eq (T : f.Tiled innermost tiles g) (hp : f.Inside innermost tiles g p)
    (hq : f.Inside innermost tiles g q) {l : OpId} (hl : l ∉ f.points tiles)
    (heq : (f.pairing tiles).rejoin p.2 l = (f.pairing tiles).rejoin q.2 l) : p.2 l = q.2 l := by
  rcases loop_cases f tiles l with ⟨point, hlp⟩ | ⟨t, htl⟩ | ⟨hfst, hsnd⟩
  · exact (T.pair_eq hp hq hlp heq).1
  · exact absurd (point_mem htl) hl
  · rwa [rejoin_other hfst hsnd, rejoin_other hfst hsnd] at heq

/-- If all loops around an operation agreed, all do now. -/
theorem eq_around (T : f.Tiled innermost tiles g) (hp : f.Inside innermost tiles g p)
    (hq : f.Inside innermost tiles g q) {x : OpId} (hx : f.Reaches x)
    (hout : x ∉ tiles.map Prod.fst)
    (hsame : ∀ l, f.Around l x → (f.pairing tiles).rejoin p.2 l = (f.pairing tiles).rejoin q.2 l)
    {l : OpId} (hl : g.Around l x) : p.2 l = q.2 l := by
  rcases (T.around_iff hx).mp hl with hold | ⟨hin, hpoint⟩
  · have hnot : l ∉ f.points tiles := fun hpoint => T.not_around_point hpoint hx hold
    exact T.eq_of_rejoin_eq hp hq hnot (hsame l hold)
  · rw [← map_snd_pairing] at hpoint
    obtain ⟨⟨t, _⟩, htp, rfl⟩ := List.mem_map.mp hpoint
    exact (T.pair_eq hp hq htp (hsame t ((T.around_tile_iff (tile_mem htp) hx hout).mpr hin))).2

/-- A loop outside the band that decided the order still does. -/
theorem before_of_other (T : f.Tiled innermost tiles g) (hp : f.Inside innermost tiles g p)
    (hq : f.Inside innermost tiles g q) {l : OpId} (hout : l ∉ tiles.map Prod.fst)
    (hlp : f.Around l p.1) (hlq : f.Around l q.1)
    (hlt : (f.pairing tiles).rejoin p.2 l < (f.pairing tiles).rejoin q.2 l)
    (hsame : ∀ l', f.Around l' l →
      (f.pairing tiles).rejoin p.2 l' = (f.pairing tiles).rejoin q.2 l') : g.Before p q := by
  have hl : f.Reaches l := T.tidy.toNested.reaches_of_above hlp.2.1 hp.reaches
  have hpoint : l ∉ f.points tiles := not_mem_points (T.tidy.toNested.lt_size hl)
  rw [rejoin_other hout hpoint, rejoin_other hout hpoint] at hlt
  refine .inl ⟨l, ?_, ?_, hlt, fun l' hl' => T.eq_around hp hq hl hout hsame hl'⟩
  · exact (T.around_old_iff hpoint hp.reaches).mpr hlp
  · exact (T.around_old_iff hpoint hq.reaches).mpr hlq

/-- A loop around the innermost one is in the band or around all of it. -/
theorem around_first (T : f.Tiled innermost tiles g) {first l : OpId} {rest : Band}
    (hband : tiles.map Prod.fst = first :: rest) (hl : f.Around l innermost)
    (hout : l ∉ tiles.map Prod.fst) : f.Around l first := by
  have hn := T.tidy.toNested
  have hfirst : first ∈ tiles.map Prod.fst := hband ▸ List.mem_cons_self
  have hlr : f.Reaches l := hn.reaches_of_above hl.2.1 T.reaches_innermost
  refine ⟨hl.1, ?_, fun heq => hout (heq ▸ hfirst)⟩
  rcases hl.2.1.total (T.nest.above_last hn T.last first hfirst) with hup | hup
  · exact hup
  · rcases T.nest.mem_or_above_last hn T.last hfirst hlr hup with hmem | hup'
    · exact absurd hmem hout
    · exact absurd (hn.above_antisymm T.reaches_innermost hl.2.1 hup') hl.2.2

/-- Where a tile loop of the band comes first, the executions are in its order. -/
theorem before_of_tile (T : f.Tiled innermost tiles g) (hp : f.Inside innermost tiles g p)
    (hq : f.Inside innermost tiles g q) {first : OpId} (hfirst : first ∈ tiles.map Prod.fst)
    (hlt : p.2 first < q.2 first)
    (hsame : ∀ l', f.Around l' first →
      (f.pairing tiles).rejoin p.2 l' = (f.pairing tiles).rejoin q.2 l') : g.Before p q := by
  have hn := T.tidy.toNested
  have hreach : f.Reaches first := T.nest.reaches first hfirst
  have haround : ∀ {r : Visit}, f.Inside innermost tiles g r → g.Around first r.1 := fun hr =>
    (T.around_old_iff (not_mem_points (hn.lt_size hreach)) hr.reaches).mpr
      ((T.around_tile_iff hfirst hr.reaches hr.other).mpr hr.around)
  refine .inl ⟨first, haround hp, haround hq, hlt, fun l' hl' => ?_⟩
  have hnot : ¬ f.Around innermost first := fun hin =>
    hin.2.2 (hn.above_antisymm hreach hin.2.1 (T.nest.above_last hn T.last first hfirst))
  have hold : f.Around l' first := by simpa [T.around_iff hreach, hnot] using hl'
  have hpoint : l' ∉ f.points tiles :=
    not_mem_points (hn.lt_size (hn.reaches_of_above hold.2.1 hreach))
  exact T.eq_of_rejoin_eq hp hq hpoint (hsame l' hold)

/-- Within one tile the outermost point loop comes first, and the executions are in its order if
the other loops of the band agree. -/
theorem before_of_point (T : f.Tiled innermost tiles g) (hp : f.Inside innermost tiles g p)
    (hq : f.Inside innermost tiles g q) {first : OpId} {rest : Band}
    (hband : tiles.map Prod.fst = first :: rest)
    (hrest : ∀ l ∈ rest, (f.pairing tiles).rejoin p.2 l = (f.pairing tiles).rejoin q.2 l)
    (htile : p.2 first = q.2 first) (hmem : f.ops.size ∈ f.points tiles)
    (hlt : p.2 f.ops.size < q.2 f.ops.size)
    (hsame : ∀ l', f.Around l' first →
      (f.pairing tiles).rejoin p.2 l' = (f.pairing tiles).rejoin q.2 l') : g.Before p q := by
  have hn := T.tidy.toNested
  refine .inl ⟨f.ops.size, (T.around_point_iff hmem hp.reaches).mpr hp.around,
    (T.around_point_iff hmem hq.reaches).mpr hq.around, hlt, fun l' hl' => ?_⟩
  have hup : f.Above l' innermost := by
    rcases T.around_first_point.mp hl' with hin | rfl
    · exact hin.2.1
    · exact .refl
  have hold : l' ∉ f.points tiles :=
    not_mem_points (hn.lt_size (hn.reaches_of_above hup T.reaches_innermost))
  by_cases hmem : l' ∈ tiles.map Prod.fst
  · rw [hband] at hmem
    rcases List.mem_cons.mp hmem with rfl | hmem
    · exact htile
    · exact T.eq_of_rejoin_eq hp hq hold (hrest l' hmem)
  · rcases T.around_first_point.mp hl' with hin | rfl
    · exact T.eq_of_rejoin_eq hp hq hold (hsame l' (T.around_first hband hin hmem))
    · exact absurd T.mem_innermost hmem

/-- Where the outermost loop of the band decided the order, its tile loop does or, within one tile,
its point loop, provided that the other loops of the band agree. -/
theorem before_of_first (T : f.Tiled innermost tiles g) (hp : f.Inside innermost tiles g p)
    (hq : f.Inside innermost tiles g q) {first : OpId} {rest : Band}
    (hband : tiles.map Prod.fst = first :: rest)
    (hrest : ∀ l ∈ rest, (f.pairing tiles).rejoin p.2 l = (f.pairing tiles).rejoin q.2 l)
    (hlt : (f.pairing tiles).rejoin p.2 first < (f.pairing tiles).rejoin q.2 first)
    (hsame : ∀ l', f.Around l' first →
      (f.pairing tiles).rejoin p.2 l' = (f.pairing tiles).rejoin q.2 l') : g.Before p q := by
  have htp : (first, f.ops.size) ∈ f.pairing tiles := by
    obtain ⟨e, rest', rfl, rfl, -⟩ := List.map_eq_cons_iff.mp hband
    exact mem_pairing.mpr ⟨0, e.2, rfl, rfl⟩
  obtain ⟨ht, hpoint⟩ := T.mem_valuesOf_pair hp.reaches hp.around hp.mem htp hp.other
  obtain ⟨ht', hpoint'⟩ := T.mem_valuesOf_pair hq.reaches hq.around hq.mem htp hq.other
  obtain ⟨header, h, -, -, hs, -, htile, hvalues⟩ := T.exists_splits htp
  rw [htile] at ht ht'
  rw [hvalues] at hpoint hpoint'
  rw [T.rejoin_tile htp, T.rejoin_tile htp, hs.add_lt_add_iff ht ht' hpoint hpoint'] at hlt
  rcases hlt with hlt | ⟨heq, hlt⟩
  · exact T.before_of_tile hp hq (tile_mem htp) hlt hsame
  · exact T.before_of_point hp hq hband hrest heq (point_mem htp) hlt hsame

/-- **Two executions keep their order** if the loops of the band below the outermost agree. -/
theorem before_of_before (T : f.Tiled innermost tiles g) (hp : f.Inside innermost tiles g p)
    (hq : f.Inside innermost tiles g q)
    (hrest : ∀ l ∈ (tiles.map Prod.fst).drop 1,
      (f.pairing tiles).rejoin p.2 l = (f.pairing tiles).rejoin q.2 l)
    (h : f.Before (p.1, (f.pairing tiles).rejoin p.2) (q.1, (f.pairing tiles).rejoin q.2)) :
    g.Before p q := by
  obtain ⟨first, rest, hband⟩ := List.exists_cons_of_ne_nil (List.ne_nil_of_mem T.mem_innermost)
  rw [hband, List.drop_one, List.tail_cons] at hrest
  rcases h with ⟨l, hlp, hlq, hlt, hsame⟩ | ⟨hne, hstands, hsame⟩
  · by_cases hmem : l ∈ tiles.map Prod.fst
    · rw [hband] at hmem
      rcases List.mem_cons.mp hmem with rfl | hmem
      · exact T.before_of_first hp hq hband hrest hlt hsame
      · exact absurd (hrest l hmem) (Int.ne_of_lt hlt)
    · exact T.before_of_other hp hq hmem hlp hlq hlt hsame
  · refine .inr ⟨hne, T.standsBefore hp.reaches hq.reaches hstands, fun l hlp hlq => ?_⟩
    rcases (T.around_iff hp.reaches).mp hlp with hold | ⟨-, hpoint⟩
    · have hnot : l ∉ f.points tiles := fun hpoint => T.not_around_point hpoint hp.reaches hold
      exact T.eq_of_rejoin_eq hp hq hnot
        (hsame l hold ((T.around_old_iff hnot hq.reaches).mp hlq))
    · rw [← map_snd_pairing] at hpoint
      obtain ⟨⟨t, _⟩, htp, rfl⟩ := List.mem_map.mp hpoint
      have haround : ∀ r : Visit, f.Inside innermost tiles g r → f.Around t r.1 := fun r hr =>
        (T.around_tile_iff (tile_mem htp) hr.reaches hr.other).mpr hr.around
      exact (T.pair_eq hp hq htp (hsame t (haround p hp) (haround q hq))).2

/-- The same for their places in the runs. -/
theorem lt_of_lt (T : f.Tiled innermost tiles g) (hp : f.Inside innermost tiles g p)
    (hq : f.Inside innermost tiles g q)
    (hrest : ∀ l ∈ (tiles.map Prod.fst).drop 1,
      (f.pairing tiles).rejoin p.2 l = (f.pairing tiles).rejoin q.2 l) {i j i' j' : Nat}
    (hi : f.timeline[i]? = some (p.1, (f.pairing tiles).rejoin p.2))
    (hj : f.timeline[j]? = some (q.1, (f.pairing tiles).rejoin q.2))
    (hi' : g.timeline[i']? = some p) (hj' : g.timeline[j']? = some q) (hlt : i < j) : i' < j' := by
  obtain ⟨hi₁, hi₂⟩ := List.getElem?_eq_some_iff.mp hi
  obtain ⟨hj₁, hj₂⟩ := List.getElem?_eq_some_iff.mp hj
  have hbefore := List.pairwise_iff_getElem.mp
    (T.tidy.toNested.timeline_pairwise T.tidy.advances) i j hi₁ hj₁ hlt
  rw [hi₂, hj₂] at hbefore
  exact T.tidy_tiled.toNested.lt_of_before T.tidy_tiled.advances hi' hj'
    (T.before_of_before hp hq hrest hbefore)

theorem lt_iff_lt (T : f.Tiled innermost tiles g) (hp : f.Inside innermost tiles g p)
    (hq : f.Inside innermost tiles g q)
    (hrest : ∀ l ∈ (tiles.map Prod.fst).drop 1,
      (f.pairing tiles).rejoin p.2 l = (f.pairing tiles).rejoin q.2 l) {i j i' j' : Nat}
    (hi : f.timeline[i]? = some (p.1, (f.pairing tiles).rejoin p.2))
    (hj : f.timeline[j]? = some (q.1, (f.pairing tiles).rejoin q.2))
    (hi' : g.timeline[i']? = some p) (hj' : g.timeline[j']? = some q) : i < j ↔ i' < j' := by
  refine ⟨T.lt_of_lt hp hq hrest hi hj hi' hj', fun hlt => ?_⟩
  rcases Nat.lt_trichotomy i j with hij | rfl | hji
  · exact hij
  · -- One execution before is one execution now.
    rw [hi] at hj
    obtain ⟨hx, he⟩ := Prod.mk.inj (Option.some.inj hj)
    have hpq : p = q := by
      refine Prod.ext hx (T.rejoin_inj hp.reaches hp.other hp.mem ?_ he)
      rw [hx]
      exact hq.mem
    rw [← hpq] at hj'
    exact absurd hlt (Nat.not_lt.mpr (Nat.le_of_eq (T.tidy_tiled.place_inj hj' hi')))
  · have hback := T.lt_of_lt hq hp (fun l hl => (hrest l hl).symm) hj hi hj' hi' hji
    omega

end Tiled

/-! ## 3. Dependent executions -/

/-- Two lists of subscripts that differ in a value that both know. -/
def Differ (xs ys : List (Option Int)) : Prop :=
  ∃ (k : Nat) (v w : Int), xs[k]? = some (some v) ∧ ys[k]? = some (some w) ∧ v ≠ w

/-- `f.Depend p q`: two executions of computes, of which one writes and the other accesses memory
with the same root.  They may go through different memrefs, and where they go through the same one
no subscript tells them apart. -/
def Depend (f : Func) (p q : Visit) : Prop :=
  ∃ c d a b root, f.kindOf p.1 = some (.compute c) ∧ f.kindOf q.1 = some (.compute d) ∧
    a ∈ c.accesses ∧ b ∈ d.accesses ∧ (a ∈ c.writes ∨ b ∈ d.writes) ∧
    f.root a.memref = .ok (some root) ∧ f.root b.memref = .ok (some root) ∧
    ¬ (a.memref = b.memref ∧
      Differ (a.eval (shift c.lanes p.2)).2 (b.eval (shift d.lanes q.2)).2)

/-- A loop that drives a subscript, in an access without sums of loops, is the value of it. -/
theorem exists_eval_of_dimensionOf {a : Access} {l : OpId} (h : (a.dimensionOf l).isSome)
    (hplain : ∀ t p, Index.tiled t p ∉ a.indices) :
    ∃ k : Nat, ∀ env, (a.eval env).2[k]? = some (some (env l)) := by
  obtain ⟨k, hk⟩ := Option.isSome_iff_exists.mp h
  obtain ⟨hlt, huses, -⟩ := List.findIdx?_eq_some_iff_getElem.mp hk
  have hindex : a.indices[k] = .iv l := by
    have hmem := List.getElem_mem hlt
    cases hi : a.indices[k] with
    | iv l' =>
      rw [hi, Index.uses_iff, Index.loops, List.mem_singleton] at huses
      rw [huses]
    | tiled t p => exact absurd (hi ▸ hmem) (hplain t p)
    | const v => simp [hi, Index.loops] at huses
    | unknown => simp [hi, Index.loops] at huses
  refine ⟨k, fun env => ?_⟩
  simp [Access.eval, hlt, hindex, Index.eval]

/-- The accesses of a compute below a loop are among those that its question looks at. -/
theorem Nested.mem_computes (hn : f.Nested) {id x : OpId} (hid : f.Reaches id) (hx : f.Reaches x)
    (hup : f.Above id x) {es : List (OpId × Op)} (hes : f.entriesOf id = .ok es) {c : Compute}
    (hc : f.kindOf x = some (.compute c)) : c ∈ es.filterMap fun e => e.2.kind.compute? := by
  obtain ⟨op, hop, hkind⟩ := Option.map_eq_some_iff.mp hc
  refine List.mem_filterMap.mpr ⟨(x, op), hn.mem_nest_of_above hid hes hx hop hup, ?_⟩
  rw [hkind]
  rfl

/-- A loop that is parallel by its accesses: every write below it is to an element of its own
iteration, and no copy is below it. -/
theorem of_isParallel {id : OpId} {l : Loop} (hk : f.kindOf id = some (.loop l))
    (hl : l.parallel = false) (hp : f.isParallel id = .ok true) :
    ∃ es, f.entriesOf id = .ok es ∧ (es.any fun e => e.2.kind.isCopy) = false ∧
      ((es.filterMap fun e => e.2.kind.compute?).flatMap Compute.writes).allM
        (f.storesOwnElement id ((es.filterMap fun e => e.2.kind.compute?).flatMap Compute.accesses))
          = .ok true := by
  obtain ⟨l?, hloop, hp⟩ := Checked.bind_eq_ok.mp hp
  obtain ⟨k, hk', rfl⟩ := loop?_eq_ok.mp hloop
  rw [hk] at hk'
  cases hk'
  simp only [Kind.loop?, hl, Bool.false_eq_true, if_false] at hp
  obtain ⟨es, hes, hp⟩ := Checked.bind_eq_ok.mp hp
  obtain ⟨stores, hstores, hp⟩ := Checked.bind_eq_ok.mp hp
  cases stores with
  | false => cases hp
  | true => exact ⟨es, hes, by simpa [pure, Except.pure] using hp, hstores⟩

/-- **What a loop that is parallel by its accesses promises.**  Whatever touches memory that is
written below it is the writing access itself, and the loop drives a subscript of that. -/
theorem eq_of_isParallel (hn : f.Nested) {id x y : OpId} {l : Loop} (hid : f.Reaches id)
    (hk : f.kindOf id = some (.loop l)) (hl : l.parallel = false)
    (hp : f.isParallel id = .ok true) (hx : f.Reaches x) (hy : f.Reaches y)
    (hupx : f.Above id x) (hupy : f.Above id y) {c d : Compute}
    (hc : f.kindOf x = some (.compute c)) (hd : f.kindOf y = some (.compute d)) {a b : Access}
    (ha : a ∈ c.writes) (hb : b ∈ d.accesses) {root : ValueId}
    (hra : f.root a.memref = .ok (some root)) (hrb : f.root b.memref = .ok (some root)) :
    b = a ∧ (a.dimensionOf id).isSome := by
  obtain ⟨es, hes, -, hstores⟩ := of_isParallel hk hl hp
  have hwrite := Checked.allM_eq_true.mp hstores a
    (List.mem_flatMap.mpr ⟨c, hn.mem_computes hid hx hupx hes hc, ha⟩)
  unfold storesOwnElement at hwrite
  split at hwrite
  · cases hwrite
  · rename_i hdim
    obtain ⟨root', hroot, hall⟩ := Checked.bind_eq_ok.mp hwrite
    rw [hra] at hroot
    cases hroot
    have hother := Checked.allM_eq_true.mp hall b
      (List.mem_flatMap.mpr ⟨d, hn.mem_computes hid hy hupy hes hd, hb⟩)
    have heq : b = a := by simpa [mayTouch, hrb] using hother
    exact ⟨heq, Option.isSome_iff_ne_none.mpr (by simpa using hdim)⟩

/-- **Dependent executions agree on the parallel loops of a band.** -/
theorem eq_of_depend (hn : f.Nested) {band : Band} (hlegal : f.mayTile band .structural = .ok true)
    (hdeclared : ∀ id ∈ band, ∀ l, f.kindOf id = some (.loop l) → l.parallel = false)
    (hplain : ∀ x c, f.Under band x → f.kindOf x = some (.compute c) →
      c.lanes = [] ∧ ∀ a ∈ c.accesses, ∀ t p, Index.tiled t p ∉ a.indices) {p q : Visit}
    (hp : f.Under band p.1) (hq : f.Under band q.1) (hdep : f.Depend p q) :
    ∀ l ∈ band.drop 1, p.2 l = q.2 l := by
  intro l hl
  have hparallel : f.isParallel l = .ok true := by
    obtain ⟨all, hall, hrest⟩ := Checked.bind_eq_ok.mp hlegal
    cases all with
    | false => cases hrest
    | true => exact Checked.allM_eq_true.mp hall l hl
  have hmem : l ∈ band := List.mem_of_mem_drop hl
  obtain ⟨⟨header, hk⟩, hupp, -⟩ := hp.2 l hmem
  obtain ⟨-, hupq, -⟩ := hq.2 l hmem
  have hid : f.Reaches l := hn.reaches_of_above hupp hp.1
  have hnot := hdeclared l hmem header hk
  obtain ⟨c, d, a, b, root, hc, hd, ha, hb, hwrites, hra, hrb, hapart⟩ := hdep
  obtain ⟨hlanes, hsums⟩ := hplain p.1 c hp hc
  obtain ⟨hlanes', hsums'⟩ := hplain q.1 d hq hd
  rw [hlanes, hlanes', shift_nil, shift_nil] at hapart
  -- The two accesses are one, and a subscript of it has the value of the loop.
  have hsame : a = b ∧ (a.dimensionOf l).isSome := by
    rcases hwrites with hwrite | hwrite
    · obtain ⟨heq, hdim⟩ := eq_of_isParallel hn hid hk hnot hparallel hp.1 hq.1 hupp hupq hc hd
        hwrite hb hra hrb
      exact ⟨heq.symm, hdim⟩
    · obtain ⟨heq, hdim⟩ := eq_of_isParallel hn hid hk hnot hparallel hq.1 hp.1 hupq hupp hd hc
        hwrite ha hrb hra
      exact ⟨heq, heq ▸ hdim⟩
  obtain ⟨rfl, hdim⟩ := hsame
  obtain ⟨k, heval⟩ := exists_eval_of_dimensionOf hdim (hsums a ha)
  by_contra hne
  exact hapart ⟨rfl, k, p.2 l, q.2 l, heval p.2, heval q.2, hne⟩

/-! ## 4. Tiling keeps their order -/

/-- `Moves r f g i i'`: what a run of `f` executes in place `i`, a run of `g` executes in place
`i'`.  It is the same operation and the same instance, in an environment that `r` rejoins. -/
def Moves (r : Redirection) (f g : Func) (i i' : Nat) : Prop :=
  ∃ x e, f.timeline[i]? = some (x, r.rejoin e) ∧ g.timeline[i']? = some (x, e) ∧
    g.instancesOf (x, e) = f.instancesOf (x, r.rejoin e)

theorem Under.not_mem {band : Band} {x : OpId} (h : f.Under band x) : x ∉ band := fun hmem =>
  (h.2 x hmem).2.2 rfl

namespace Tiled

theorem inside (T : f.Tiled innermost tiles g) {p : Visit} (h : f.Under (tiles.map Prod.fst) p.1)
    (hp : p ∈ g.timeline) : f.Inside innermost tiles g p where
  reaches := h.1
  other := h.not_mem
  around := h.2 innermost T.mem_innermost
  mem := hp

/-- What was executed below the band has moved to one place. -/
theorem existsUnique_moves (T : f.Tiled innermost tiles g) (hplain : f.Untiled (tiles.map Prod.fst))
    {i : Nat} {p : Visit} (hi : f.timeline[i]? = some p) (hp : f.Under (tiles.map Prod.fst) p.1) :
    ∃! i', Moves (f.pairing tiles) f g i i' := by
  obtain ⟨e, he, heq⟩ := T.exists_rejoin hp.1 hp.not_mem (List.mem_of_getElem? hi)
  obtain ⟨i', hi'⟩ := List.mem_iff_getElem?.mp he
  refine ⟨i', ⟨p.1, e, heq ▸ hi, hi', T.instancesOf_eq hplain hp.1 he⟩, ?_⟩
  rintro j' ⟨x, e', hx, hj', -⟩
  rw [hi, Option.some.injEq] at hx
  obtain ⟨hx, he'⟩ := Prod.ext_iff.mp hx
  subst hx
  rw [T.rejoin_inj hp.1 hp.not_mem (List.mem_of_getElem? hj') he (he'.symm.trans heq.symm)] at hj'
  exact T.tidy_tiled.place_inj hj' hi'

/-- What is executed below the band has moved from one place. -/
theorem existsUnique_moves_from (T : f.Tiled innermost tiles g)
    (hplain : f.Untiled (tiles.map Prod.fst)) {i' : Nat} {p : Visit}
    (hi' : g.timeline[i']? = some p) (hp : f.Under (tiles.map Prod.fst) p.1) :
    ∃! i, Moves (f.pairing tiles) f g i i' := by
  have hmem := List.mem_of_getElem? hi'
  obtain ⟨i, hi⟩ := List.mem_iff_getElem?.mp (T.mem_timeline_rejoin hp.1 hp.not_mem hmem)
  refine ⟨i, ⟨p.1, p.2, hi, hi', T.instancesOf_eq hplain hp.1 hmem⟩, ?_⟩
  rintro j ⟨x, e, hj, hx, -⟩
  rw [hi', Option.some.injEq] at hx
  subst hx
  exact T.tidy.place_inj hj hi

end Tiled

/-- Without tiling nothing moves. -/
theorem Tidy.moves_nil (h : f.Tidy) {i i' : Nat} :
    Moves [] f f i i' ↔ i' = i ∧ i < f.timeline.length := by
  have hrejoin : ∀ env : Env, Redirection.rejoin [] env = env := fun env =>
    funext fun l => Redirection.rejoin_other List.not_mem_nil List.not_mem_nil env
  simp only [Moves, hrejoin, and_true]
  constructor
  · rintro ⟨x, e, hi, hi'⟩
    exact ⟨h.place_inj hi' hi, (List.getElem?_eq_some_iff.mp hi).1⟩
  · rintro ⟨rfl, hlt⟩
    exact ⟨_, _, List.getElem?_eq_getElem hlt, List.getElem?_eq_getElem hlt⟩

/-- **Legal tiling keeps dependent executions in order.**  Let a band be legal to tile by the
accesses below it, not by declaration, with no lanes and no sums of loops in them.  If it is tiled,
all that a run executes below the band moves to one place each, and if two executions depend on
each other, the one that came first still does. -/
theorem tileBand_keeps_order (audience : Audience) (f g : Func) (band newBand : Band)
    (sizes : List Nat) (uppers : OpId → Int) (hf : f.verify = .ok ())
    (hreach : ∀ id ∈ band, f.Reaches id) (hlegal : f.mayTile band .structural = .ok true)
    (hdeclared : ∀ id ∈ band, ∀ l, f.kindOf id = some (.loop l) → l.parallel = false)
    (hplain : ∀ x c, f.Under band x → f.kindOf x = some (.compute c) →
      c.lanes = [] ∧ ∀ a ∈ c.accesses, ∀ t p, Index.tiled t p ∉ a.indices)
    (hy : (f.tileBand band sizes).Yields audience (g, .ok newBand)) :
    (∀ i p, (f.withBounds uppers).timeline[i]? = some p → f.Under band p.1 →
      ∃! i', Moves (band.zip (newBand.drop band.length)) (f.withBounds uppers)
        (g.withBounds uppers) i i') ∧
    (∀ i' p, (g.withBounds uppers).timeline[i']? = some p → f.Under band p.1 →
      ∃! i, Moves (band.zip (newBand.drop band.length)) (f.withBounds uppers)
        (g.withBounds uppers) i i') ∧
    ∀ i j i' j' p q,
      Moves (band.zip (newBand.drop band.length)) (f.withBounds uppers) (g.withBounds uppers) i i' →
      Moves (band.zip (newBand.drop band.length)) (f.withBounds uppers) (g.withBounds uppers) j j' →
      (f.withBounds uppers).timeline[i]? = some p → (f.withBounds uppers).timeline[j]? = some q →
      f.Under band p.1 → f.Under band q.1 → f.Depend p q → (i < j ↔ i' < j') := by
  have htidy : f.Tidy := verify_eq_ok_iff_tidy.mp hf
  have huntiled : f.Untiled band := fun x c hx hk a ha t p hi =>
    absurd hi ((hplain x c hx hk).2 a ha t p)
  rcases tileBand_tiled htidy hreach hy with
    ⟨rfl, rfl, rfl⟩ | ⟨innermost, tiles, rfl, T, rfl, -⟩
  · simp only [List.zip_nil_left, (htidy.withBounds uppers).moves_nil]
    refine ⟨fun i p hi _ => ?_, fun i' p hi' _ => ?_, ?_⟩
    · exact ⟨i, ⟨rfl, (List.getElem?_eq_some_iff.mp hi).1⟩, fun _ h => h.1⟩
    · exact ⟨i', ⟨rfl, (List.getElem?_eq_some_iff.mp hi').1⟩, fun _ h => h.1.symm⟩
    · rintro i j i' j' p q ⟨rfl, -⟩ ⟨rfl, -⟩ - - - - -
      exact Iff.rfl
  · have T' := T.withBounds uppers
    have hplain' := huntiled.withBounds uppers
    have hpairing : (tiles.map Prod.fst).zip
        ((tiles.map Prod.fst ++ f.points tiles).drop (tiles.map Prod.fst).length)
          = (f.withBounds uppers).pairing tiles := by
      rw [List.drop_left, pairing_withBounds, pairing]
    rw [hpairing]
    refine ⟨fun i p hi hp => T'.existsUnique_moves hplain' hi (under_withBounds.mpr hp),
      fun i' p hi' hp => T'.existsUnique_moves_from hplain' hi' (under_withBounds.mpr hp), ?_⟩
    rintro i j i' j' p q ⟨x, e, hi, hi', -⟩ ⟨y, d, hj, hj', -⟩ hip hjq hp hq hdep
    rw [hi, Option.some.injEq] at hip
    rw [hj, Option.some.injEq] at hjq
    subst hip
    subst hjq
    have hx : (f.withBounds uppers).Inside innermost tiles (g.withBounds uppers) (x, e) :=
      T'.inside (under_withBounds.mpr hp) (List.mem_of_getElem? hi')
    have hy : (f.withBounds uppers).Inside innermost tiles (g.withBounds uppers) (y, d) :=
      T'.inside (under_withBounds.mpr hq) (List.mem_of_getElem? hj')
    have hagree := eq_of_depend htidy.toNested hlegal hdeclared hplain hp hq hdep
    exact T'.lt_iff_lt hx hy hagree hi hj hi' hj'

/-- A nest that updates a row of memory again and again: the inner loop is parallel, the outer one
carries the updates, and a third loop around both has no known bound. -/
def rowUpdates : Func where
  name := "f"
  arguments := [0]
  body := [0]
  ops := #[
    { id := 0, kind := .node "n", parent := none, body := [1], erased := false },
    { id := 1, kind := .loop (.plain "n" 0 none 1), parent := some 0, body := [2],
      erased := false },
    { id := 2, kind := .loop (.plain "i" 0 (some 4) 1), parent := some 1, body := [3],
      erased := false },
    { id := 3, kind := .loop (.plain "j" 2 (some 10) 2), parent := some 2, body := [4],
      erased := false },
    { id := 4, kind := .compute { name := "p", reads := [{ memref := 0, indices := [.iv 3] }],
                                  writes := [{ memref := 0, indices := [.iv 3] }], lanes := [] },
      parent := some 3, body := [], erased := false }]
  values := #[{ id := 0, name := "A", shape := [16], space := 0, definition := .argument 0 }]

/-- The nest is tiled by two and two.  Of its 32 executions in a run of two turns of the third loop,
those that update the same element stay in order. -/
theorem tileBand_keeps_order_rowUpdates : rowUpdates.verify = .ok () ∧
    rowUpdates.mayTile [2, 3] .structural = .ok true ∧
    ((rowUpdates.withBounds fun _ => 2).timeline.map Prod.fst).count 4 = 32 ∧ ∃ g,
      (rowUpdates.tileBand [2, 3] [2, 2]).Yields none (g, .ok [2, 3, 5, 6]) ∧
      ∀ i j i' j' p q,
        Moves [(2, 5), (3, 6)] (rowUpdates.withBounds fun _ => 2) (g.withBounds fun _ => 2) i i' →
        Moves [(2, 5), (3, 6)] (rowUpdates.withBounds fun _ => 2) (g.withBounds fun _ => 2) j j' →
        (rowUpdates.withBounds fun _ => 2).timeline[i]? = some p →
        (rowUpdates.withBounds fun _ => 2).timeline[j]? = some q →
        p.1 = 4 → q.1 = 4 → p.2 3 = q.2 3 → (i < j ↔ i' < j') := by
  have hf : rowUpdates.verify = .ok () := by decide
  have hlegal : rowUpdates.mayTile [2, 3] .structural = .ok true := by decide
  have h₂ : rowUpdates.Reaches 2 :=
    .nested (.nested (.top List.mem_cons_self) List.mem_cons_self) List.mem_cons_self
  have h₃ : rowUpdates.Reaches 3 := .nested h₂ List.mem_cons_self
  have h₄ : rowUpdates.Under [2, 3] 4 := by
    refine ⟨.nested h₃ List.mem_cons_self, List.forall_mem_cons.mpr
      ⟨⟨⟨_, rfl⟩, ?_, by decide⟩, List.forall_mem_singleton.mpr ⟨⟨_, rfl⟩, ?_, by decide⟩⟩⟩
    · exact .tail (.single (show rowUpdates.parentOf 3 = some 2 from rfl)) rfl
    · exact .single rfl
  have hdeclared : ∀ id ∈ [2, 3], ∀ l, rowUpdates.kindOf id = some (.loop l) →
      l.parallel = false := by
    intro id _ l hk
    simpa [Kind.loop?] using kindOf_of_all (f := rowUpdates)
      (q := fun k => k.loop?.all fun l => !l.parallel) (by decide) hk
  have hplain : ∀ x c, rowUpdates.Under [2, 3] x → rowUpdates.kindOf x = some (.compute c) →
      c.lanes = [] ∧ ∀ a ∈ c.accesses, ∀ t p, Index.tiled t p ∉ a.indices := by
    intro x c _ hk
    have hall := kindOf_of_all (f := rowUpdates) (q := fun k => k.compute?.all fun c =>
      c.lanes.isEmpty && c.accesses.all fun a => a.indices.all fun i => i.loops.length == 1)
      (by decide) hk
    simp only [Kind.compute?, Option.all_some, Bool.and_eq_true, List.isEmpty_iff,
      List.all_eq_true] at hall
    refine ⟨hall.1, fun a ha t p hi => ?_⟩
    cases hall.2 a ha _ hi
  obtain ⟨g, hy⟩ : ∃ g, (rowUpdates.tileBand [2, 3] [2, 2]).Yields none (g, .ok [2, 3, 5, 6]) :=
    Traced.exists_yields rfl
  refine ⟨hf, hlegal, by decide +kernel, g, hy, ?_⟩
  intro i j i' j' p q hi hj hip hjq hp hq heq
  refine (tileBand_keeps_order none rowUpdates g [2, 3] [2, 3, 5, 6] [2, 2] (fun _ => 2) hf
    (List.forall_mem_cons.mpr ⟨h₂, List.forall_mem_singleton.mpr h₃⟩) hlegal hdeclared hplain
    hy).2.2 i j i' j' p q hi hj hip hjq (hp ▸ h₄) (hq ▸ h₄) ?_
  refine ⟨_, _, _, _, 0, by rw [hp]; rfl, by rw [hq]; rfl, List.mem_cons_self, List.mem_cons_self,
    .inl List.mem_cons_self, by decide, by decide, ?_⟩
  rintro ⟨-, k, v, w, hv, hw, hne⟩
  simp only [Access.eval, List.map_cons, List.map_nil, Index.eval, shift_nil, heq] at hv hw
  exact hne (Option.some.inj (Option.some.inj (hv.symm.trans hw)))

end Func
end Dataflow
