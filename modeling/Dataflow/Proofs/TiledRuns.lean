/-
# Runs of a tiled function

In a run of a tiled function the loops of the band have the sums of their tile and point loops.
`Redirection.rejoin` takes an environment of the tiled function back to one of the function before:
what a redirected compute sees in the one, the compute saw in the other
(`Redirection.Apart.instanceAt_compute`).

Every operation outside the band is executed as often as before, and the environments correspond
one to one (`Func.Tiled.mem_timeline_rejoin`, `Func.Tiled.rejoin_inj`, `Func.Tiled.exists_rejoin`).
So tiling keeps the instances of a run.
-/
import Mathlib.Data.List.Perm.Basic
import Dataflow.Proofs.Acceptance
import Dataflow.Proofs.Interleaving
import Dataflow.Proofs.TiledNests

namespace Dataflow

/-! ## 1. Environments before and after -/

namespace Redirection

variable {r : Redirection}

/-- No loop stands twice in the pairs of a tile and a point loop. -/
structure Apart (r : Redirection) : Prop where
  tiles : (r.map Prod.fst).Nodup
  points : (r.map Prod.snd).Nodup
  disjoint : ∀ l ∈ r.map Prod.fst, l ∉ r.map Prod.snd

theorem Apart.point?_eq (h : r.Apart) {t p : OpId} (htp : (t, p) ∈ r) : r.point? t = some p := by
  rw [point?, find?_fst_of_mem h.tiles htp]
  rfl

theorem point?_eq_none {l : OpId} (hl : l ∉ r.map Prod.fst) : r.point? l = none := by
  unfold point?
  rw [Option.map_eq_none_iff, List.find?_eq_none]
  intro e he heq
  exact hl (List.mem_map.mpr ⟨e, he, beq_iff_eq.mp heq⟩)

/-- **The environment before tiling**: a loop of the band has the sum of its tile and its point
loop, and there are no point loops. -/
def rejoin (r : Redirection) (env : Env) : Env := fun l =>
  if l ∈ r.map Prod.snd then 0 else env l + ((r.point? l).map env).getD 0

theorem rejoin_point {t p : OpId} (htp : (t, p) ∈ r) (env : Env) : r.rejoin env p = 0 :=
  if_pos (List.mem_map_of_mem htp)

theorem Apart.rejoin_tile (h : r.Apart) {t p : OpId} (htp : (t, p) ∈ r) (env : Env) :
    r.rejoin env t = env t + env p := by
  have ht : t ∉ r.map Prod.snd := h.disjoint t (List.mem_map_of_mem htp)
  simp [rejoin, ht, h.point?_eq htp]

theorem rejoin_other {l : OpId} (hfst : l ∉ r.map Prod.fst) (hsnd : l ∉ r.map Prod.snd)
    (env : Env) : r.rejoin env l = env l := by
  simp [rejoin, hsnd, point?_eq_none hfst]

end Redirection

/-! ## 2. What a redirected compute sees -/

/-- Offsets of renamed loops. -/
theorem offsetIn_map {s : OpId → OpId} {offsets : List (OpId × Int)} {l l' : OpId}
    (h : ∀ o ∈ offsets, s o.1 = l ↔ o.1 = l') :
    offsetIn (offsets.map fun o => (s o.1, o.2)) l = offsetIn offsets l' := by
  have hfilter : offsets.filter ((fun o => o.1 == l) ∘ fun o => (s o.1, o.2)) =
      offsets.filter fun o => o.1 == l' := by
    refine List.filter_congr fun o ho => ?_
    rw [Bool.eq_iff_iff]
    simpa using h o ho
  rw [offsetIn, List.filter_map, hfilter, List.map_map]
  rfl

namespace Redirection

variable {r : Redirection}

theorem shift_other {lanes : List (OpId × Int)} {l : OpId}
    (hfst : l ∉ r.map Prod.fst) (hsnd : l ∉ r.map Prod.snd) (env : Env) :
    shift (lanes.map fun o => ((r.point? o.1).getD o.1, o.2)) env l
      = shift lanes (r.rejoin env) l := by
  have hoffset : offsetIn (lanes.map fun o => ((r.point? o.1).getD o.1, o.2)) l
      = offsetIn lanes l := by
    refine offsetIn_map (s := fun l => (r.point? l).getD l) fun o ho => ?_
    cases hpoint : r.point? o.1 with
    | none => rfl
    | some q =>
      have hmem := Func.mem_of_point? hpoint
      constructor
      · rintro rfl
        exact absurd (List.mem_map_of_mem hmem) hsnd
      · rintro rfl
        exact absurd (List.mem_map_of_mem hmem) hfst
  simp only [shift, hoffset, rejoin_other hfst hsnd]

namespace Apart

/-- No loop is redirected to a tile loop. -/
theorem redirected_ne_tile (h : r.Apart) {t p : OpId} (htp : (t, p) ∈ r) (l : OpId) :
    (r.point? l).getD l ≠ t := by
  cases hpoint : r.point? l with
  | none =>
    intro heq
    rw [show l = t from heq, h.point?_eq htp] at hpoint
    cases hpoint
  | some q =>
    rintro rfl
    exact h.disjoint _ (List.mem_map_of_mem htp) (List.mem_map_of_mem (Func.mem_of_point? hpoint))

/-- Only its tile loop is redirected to a point loop. -/
theorem redirected_eq_point_iff (h : r.Apart) {t p l : OpId} (htp : (t, p) ∈ r)
    (hl : l ∉ r.map Prod.snd) : (r.point? l).getD l = p ↔ l = t := by
  constructor
  · intro heq
    cases hpoint : r.point? l with
    | none =>
      rw [hpoint, Option.getD_none] at heq
      exact absurd (List.mem_map_of_mem htp) (heq ▸ hl)
    | some q =>
      rw [hpoint, Option.getD_some] at heq
      have hmem := Func.mem_of_point? hpoint
      rw [heq] at hmem
      exact congrArg Prod.fst (List.inj_on_of_nodup_map h.points hmem htp rfl)
  · intro heq
    rw [heq, h.point?_eq htp]
    rfl

/-- The tile loop runs no longer ahead, the point loop does in its place. -/
theorem shift_pair (h : r.Apart) {lanes : List (OpId × Int)}
    (hlanes : ∀ o ∈ lanes, o.1 ∉ r.map Prod.snd) {t p : OpId} (htp : (t, p) ∈ r) (env : Env) :
    shift (lanes.map fun o => ((r.point? o.1).getD o.1, o.2)) env t
        + shift (lanes.map fun o => ((r.point? o.1).getD o.1, o.2)) env p
      = shift lanes (r.rejoin env) t := by
  have htile : offsetIn (lanes.map fun o => ((r.point? o.1).getD o.1, o.2)) t = 0 := by
    refine offsetIn_eq_zero fun o ho => ?_
    obtain ⟨lane, -, rfl⟩ := List.mem_map.mp ho
    exact h.redirected_ne_tile htp lane.1
  have hpoint : offsetIn (lanes.map fun o => ((r.point? o.1).getD o.1, o.2)) p
      = offsetIn lanes t :=
    offsetIn_map (s := fun l => (r.point? l).getD l) fun o ho =>
      h.redirected_eq_point_iff htp (hlanes o ho)
  simp only [shift, htile, hpoint, h.rejoin_tile htp]
  omega

/-- A redirected subscript has the value that the subscript had. -/
theorem eval_index (h : r.Apart) {lanes : List (OpId × Int)}
    (hlanes : ∀ o ∈ lanes, o.1 ∉ r.map Prod.snd) {i : Index}
    (hi : ∀ l ∈ i.loops, l ∉ r.map Prod.snd)
    (hplain : ∀ t p, i = .tiled t p → t ∉ r.map Prod.fst ∧ p ∉ r.map Prod.fst) (env : Env) :
    (r.index i).eval (shift (lanes.map fun o => ((r.point? o.1).getD o.1, o.2)) env)
      = i.eval (shift lanes (r.rejoin env)) := by
  cases i with
  | iv l =>
    have hl : l ∉ r.map Prod.snd := hi l List.mem_cons_self
    cases hpoint : r.point? l with
    | none =>
      have hfst : l ∉ r.map Prod.fst := by
        intro hmem
        obtain ⟨e, he, rfl⟩ := List.mem_map.mp hmem
        rw [h.point?_eq he] at hpoint
        cases hpoint
      simp only [index, hpoint, Index.eval, shift_other hfst hl]
    | some p =>
      simp only [index, hpoint, Index.eval, h.shift_pair hlanes (Func.mem_of_point? hpoint)]
  | tiled t p =>
    obtain ⟨ht, hp⟩ := hplain t p rfl
    have ht' : t ∉ r.map Prod.snd := hi t List.mem_cons_self
    have hp' : p ∉ r.map Prod.snd := hi p (List.mem_cons_of_mem _ List.mem_cons_self)
    simp only [index, Index.eval, shift_other ht ht', shift_other hp hp']
  | const value => rfl
  | unknown => rfl

/-- **A redirected compute is the instance that the compute was.** -/
theorem instanceAt_compute (h : r.Apart) {c : Compute} (hloops : ∀ l ∈ c.loops, l ∉ r.map Prod.snd)
    (hplain : ∀ a ∈ c.accesses, ∀ t p, Index.tiled t p ∈ a.indices →
      t ∉ r.map Prod.fst ∧ p ∉ r.map Prod.fst) (env : Env) :
    (r.compute c).instanceAt env = c.instanceAt (r.rejoin env) := by
  have hlanes : ∀ o ∈ c.lanes, o.1 ∉ r.map Prod.snd := fun o ho =>
    hloops o.1 (List.mem_append_right _ (List.mem_map_of_mem ho))
  have haccess : ∀ a ∈ c.accesses,
      ({ a with indices := a.indices.map r.index } : Access).eval (shift (r.compute c).lanes env)
        = a.eval (shift c.lanes (r.rejoin env)) := by
    intro a ha
    simp only [Access.eval, List.map_map]
    refine congrArg _ (List.map_congr_left fun i hi => ?_)
    refine h.eval_index hlanes (fun l hl => hloops l (List.mem_append_left _ ?_))
      (fun t p heq => hplain a ha t p (heq ▸ hi)) env
    exact List.mem_flatMap.mpr ⟨a, ha, List.mem_flatMap.mpr ⟨i, hi, hl⟩⟩
  have hreads : ∀ a ∈ c.reads, a ∈ c.accesses := fun a ha => List.mem_append_left _ ha
  have hwrites : ∀ a ∈ c.writes, a ∈ c.accesses := fun a ha => List.mem_append_right _ ha
  simp only [Compute.instanceAt, Instance.mk.injEq]
  refine ⟨rfl, ?_, ?_⟩
  · simp only [compute, List.map_map]
    exact List.map_congr_left fun a ha => haccess a (hreads a ha)
  · simp only [compute, List.map_map]
    exact List.map_congr_left fun a ha => haccess a (hwrites a ha)

end Apart
end Redirection

namespace Func

variable {f g : Func} {innermost : OpId} {tiles : List (OpId × TileHeader)}

/-! ## 3. Executions before and after -/

namespace Tiled

theorem apart (T : f.Tiled innermost tiles g) : (f.pairing tiles).Apart where
  tiles := by
    rw [map_fst_pairing]
    exact T.nest.nodup T.tidy.toNested
  points := by
    rw [map_snd_pairing]
    exact List.nodup_range'
  disjoint := by
    intro l hl
    rw [map_fst_pairing] at hl
    rw [map_snd_pairing]
    exact not_mem_points (T.lt_size_of_mem hl)

/-- A loop is a tile loop, a point loop or neither. -/
theorem loop_cases (f : Func) (tiles : List (OpId × TileHeader)) (l : OpId) :
    (∃ p, (l, p) ∈ f.pairing tiles) ∨ (∃ t, (t, l) ∈ f.pairing tiles) ∨
      l ∉ tiles.map Prod.fst ∧ l ∉ f.points tiles := by
  by_cases hfst : l ∈ tiles.map Prod.fst
  · rw [← map_fst_pairing (f := f)] at hfst
    obtain ⟨e, he, rfl⟩ := List.mem_map.mp hfst
    exact .inl ⟨e.2, he⟩
  · by_cases hsnd : l ∈ f.points tiles
    · rw [← map_snd_pairing] at hsnd
      obtain ⟨e, he, rfl⟩ := List.mem_map.mp hsnd
      exact .inr (.inl ⟨e.1, he⟩)
    · exact .inr (.inr ⟨hfst, hsnd⟩)

theorem tile_mem {t p : OpId} (htp : (t, p) ∈ f.pairing tiles) : t ∈ tiles.map Prod.fst := by
  rw [← map_fst_pairing (f := f)]
  exact List.mem_map_of_mem htp

theorem point_mem {t p : OpId} (htp : (t, p) ∈ f.pairing tiles) : p ∈ f.points tiles := by
  rw [← map_snd_pairing]
  exact List.mem_map_of_mem htp

theorem not_around_point (T : f.Tiled innermost tiles g) {l x : OpId} (hl : l ∈ f.points tiles)
    (hx : f.Reaches x) : ¬ f.Around l x := by
  intro haround
  have hn := T.tidy.toNested
  exact not_mem_points (hn.lt_size (hn.reaches_of_above haround.2.1 hx)) hl

theorem around_old_iff (T : f.Tiled innermost tiles g) {l x : OpId} (hl : l ∉ f.points tiles)
    (hx : f.Reaches x) : g.Around l x ↔ f.Around l x := by
  simp [T.around_iff hx, hl]

theorem around_point_iff (T : f.Tiled innermost tiles g) {l x : OpId} (hl : l ∈ f.points tiles)
    (hx : f.Reaches x) : g.Around l x ↔ f.Around innermost x := by
  simp [T.around_iff hx, hl, T.not_around_point hl hx]

/-- Below the band each pair of a tile and a point loop is in one of its turns. -/
theorem mem_valuesOf_pair (T : f.Tiled innermost tiles g) {x : OpId} (hx : f.Reaches x)
    (hin : f.Around innermost x) {e : Env} (he : (x, e) ∈ g.timeline) {t p : OpId}
    (htp : (t, p) ∈ f.pairing tiles) (hout : x ∉ tiles.map Prod.fst) :
    e t ∈ g.valuesOf t ∧ e p ∈ g.valuesOf p := by
  obtain ⟨-, henv⟩ := (T.tidy_tiled.toNested.mem_timeline x e).mp he
  have ht := tile_mem htp
  refine ⟨(henv t).1 ?_, (henv p).1 ?_⟩
  · rw [T.around_old_iff (not_mem_points (T.lt_size_of_mem ht)) hx]
    exact (T.around_tile_iff ht hx hout).mpr hin
  · exact (T.around_point_iff (point_mem htp) hx).mpr hin

/-- Outside it both stand still. -/
theorem pair_eq_zero (T : f.Tiled innermost tiles g) {x : OpId} (hx : f.Reaches x)
    (hin : ¬ f.Around innermost x) {e : Env} (he : (x, e) ∈ g.timeline) {t p : OpId}
    (htp : (t, p) ∈ f.pairing tiles) (hout : x ∉ tiles.map Prod.fst) : e t = 0 ∧ e p = 0 := by
  obtain ⟨-, henv⟩ := (T.tidy_tiled.toNested.mem_timeline x e).mp he
  have ht := tile_mem htp
  refine ⟨(henv t).2 ?_, (henv p).2 ?_⟩
  · rw [T.around_old_iff (not_mem_points (T.lt_size_of_mem ht)) hx, T.around_tile_iff ht hx hout]
    exact hin
  · rw [T.around_point_iff (point_mem htp) hx]
    exact hin

theorem rejoin_tile (T : f.Tiled innermost tiles g) {t p : OpId} (htp : (t, p) ∈ f.pairing tiles)
    (e : Env) : (f.pairing tiles).rejoin e t = e t + e p := T.apart.rejoin_tile htp e

theorem rejoin_other {l : OpId} (hfst : l ∉ tiles.map Prod.fst) (hsnd : l ∉ f.points tiles)
    (e : Env) : (f.pairing tiles).rejoin e l = e l := by
  rw [← map_fst_pairing (f := f)] at hfst
  rw [← map_snd_pairing] at hsnd
  exact Redirection.rejoin_other hfst hsnd e

theorem rejoin_outside (T : f.Tiled innermost tiles g) {x : OpId} (hx : f.Reaches x)
    (hin : ¬ f.Around innermost x) {e : Env} (he : (x, e) ∈ g.timeline)
    (hout : x ∉ tiles.map Prod.fst) : (f.pairing tiles).rejoin e = e := by
  funext l
  rcases loop_cases f tiles l with ⟨p, hlp⟩ | ⟨t, htl⟩ | ⟨hfst, hsnd⟩
  · obtain ⟨ht, hp⟩ := T.pair_eq_zero hx hin he hlp hout
    rw [T.rejoin_tile hlp, ht, hp]
    rfl
  · rw [Redirection.rejoin_point htl, (T.pair_eq_zero hx hin he htl hout).2]
  · exact rejoin_other hfst hsnd e

/-- What the tiled function executes, the function executed. -/
theorem mem_timeline_rejoin (T : f.Tiled innermost tiles g) {x : OpId} (hx : f.Reaches x)
    (hout : x ∉ tiles.map Prod.fst) {e : Env} (he : (x, e) ∈ g.timeline) :
    (x, (f.pairing tiles).rejoin e) ∈ f.timeline := by
  obtain ⟨-, henv⟩ := (T.tidy_tiled.toNested.mem_timeline x e).mp he
  refine (T.tidy.toNested.mem_timeline _ _).mpr ⟨hx, fun l => ?_⟩
  rcases loop_cases f tiles l with ⟨p, hlp⟩ | ⟨t, htl⟩ | ⟨hfst, hsnd⟩
  · rw [T.rejoin_tile hlp, T.around_tile_iff (tile_mem hlp) hx hout]
    constructor
    · intro hin
      obtain ⟨hl, hp⟩ := T.mem_valuesOf_pair hx hin he hlp hout
      obtain ⟨header, h, -, -, hs, hvalues, htile, hpoint⟩ := T.exists_splits hlp
      rw [htile] at hl
      rw [hpoint] at hp
      rw [hvalues]
      exact (hs.mem_values_iff l).mpr ⟨_, hl, _, hp, rfl⟩
    · intro hin
      obtain ⟨hl, hp⟩ := T.pair_eq_zero hx hin he hlp hout
      rw [hl, hp]
      rfl
  · rw [Redirection.rejoin_point htl]
    exact ⟨fun haround => absurd haround (T.not_around_point (point_mem htl) hx), fun _ => rfl⟩
  · rw [rejoin_other hfst hsnd, ← T.around_old_iff hsnd hx]
    refine ⟨fun haround => ?_, (henv l).2⟩
    rw [← T.valuesOf_other ((T.around_old_iff hsnd hx).mp haround).1 hfst]
    exact (henv l).1 haround

/-- Two executions of the tiled function are not one before. -/
theorem rejoin_inj (T : f.Tiled innermost tiles g) {x : OpId} (hx : f.Reaches x)
    (hout : x ∉ tiles.map Prod.fst) {e e' : Env} (he : (x, e) ∈ g.timeline)
    (he' : (x, e') ∈ g.timeline)
    (heq : (f.pairing tiles).rejoin e = (f.pairing tiles).rejoin e') : e = e' := by
  have hpair : ∀ t p, (t, p) ∈ f.pairing tiles → e t = e' t ∧ e p = e' p := by
    intro t p htp
    by_cases hin : f.Around innermost x
    · obtain ⟨ht, hp⟩ := T.mem_valuesOf_pair hx hin he htp hout
      obtain ⟨ht', hp'⟩ := T.mem_valuesOf_pair hx hin he' htp hout
      obtain ⟨header, h, -, -, hs, -, htile, hpoint⟩ := T.exists_splits htp
      rw [htile] at ht ht'
      rw [hpoint] at hp hp'
      have hsum := congrFun heq t
      rw [T.rejoin_tile htp, T.rejoin_tile htp] at hsum
      exact hs.add_inj ht ht' hp hp' hsum
    · obtain ⟨ht, hp⟩ := T.pair_eq_zero hx hin he htp hout
      obtain ⟨ht', hp'⟩ := T.pair_eq_zero hx hin he' htp hout
      exact ⟨ht.trans ht'.symm, hp.trans hp'.symm⟩
  funext l
  rcases loop_cases f tiles l with ⟨p, hlp⟩ | ⟨t, htl⟩ | ⟨hfst, hsnd⟩
  · exact (hpair l p hlp).1
  · exact (hpair t l htl).2
  · have hsame := congrFun heq l
    rwa [rejoin_other hfst hsnd, rejoin_other hfst hsnd] at hsame

/-- Below the band, a choice of values for the loops before is one for the loops after. -/
theorem exists_parts (T : f.Tiled innermost tiles g) {x : OpId} (hx : f.Reaches x)
    (hout : x ∉ tiles.map Prod.fst) (hin : f.Around innermost x) {e : Env}
    (he : (x, e) ∈ f.timeline) : ∃ e' : Env, (∀ t p, (t, p) ∈ f.pairing tiles →
      e' t ∈ g.valuesOf t ∧ e' p ∈ g.valuesOf p ∧ e t = e' t + e' p) ∧
      ∀ l, l ∉ tiles.map Prod.fst → l ∉ f.points tiles → e' l = e l := by
  obtain ⟨-, henv⟩ := (T.tidy.toNested.mem_timeline x e).mp he
  have hparts : ∀ pair ∈ f.pairing tiles, ∃ a b : Int, a ∈ g.valuesOf pair.1 ∧
      b ∈ g.valuesOf pair.2 ∧ e pair.1 = a + b := by
    rintro ⟨t, p⟩ htp
    obtain ⟨header, h, -, -, hs, hvalues, htile, hpoint⟩ := T.exists_splits htp
    have ht := (henv t).1 ((T.around_tile_iff (tile_mem htp) hx hout).mpr hin)
    rw [hvalues, hs.mem_values_iff t] at ht
    obtain ⟨a, ha, b, hb, hsum⟩ := ht
    exact ⟨a, b, htile ▸ ha, hpoint ▸ hb, hsum⟩
  choose! a b hab using hparts
  -- A loop stands in one pair at most, and on one side of it.
  have hchoice : ∀ l, ∃ v : Int, (∀ p, (l, p) ∈ f.pairing tiles → v = a (l, p)) ∧
      (∀ t, (t, l) ∈ f.pairing tiles → v = b (t, l)) ∧
      (l ∉ tiles.map Prod.fst → l ∉ f.points tiles → v = e l) := by
    intro l
    have hapart : l ∈ tiles.map Prod.fst → l ∉ f.points tiles := fun hl =>
      not_mem_points (T.lt_size_of_mem hl)
    rcases loop_cases f tiles l with ⟨p, hlp⟩ | ⟨t, htl⟩ | ⟨hfst, hsnd⟩
    · refine ⟨a (l, p), fun p' hlp' => ?_, fun t htl => ?_, fun hl _ => absurd (tile_mem hlp) hl⟩
      · have hpp := (T.apart.point?_eq hlp).symm.trans (T.apart.point?_eq hlp')
        rw [Option.some.inj hpp]
      · exact absurd (point_mem htl) (hapart (tile_mem hlp))
    · refine ⟨b (t, l), fun p hlp => ?_, fun t' htl' => ?_, fun _ hl => absurd (point_mem htl) hl⟩
      · exact absurd (point_mem htl) (hapart (tile_mem hlp))
      · rw [List.inj_on_of_nodup_map T.apart.points htl htl' rfl]
    · exact ⟨e l, fun p hlp => absurd (tile_mem hlp) hfst,
        fun t htl => absurd (point_mem htl) hsnd, fun _ _ => rfl⟩
  choose e' htile hpoint hother using hchoice
  refine ⟨e', fun t p htp => ?_, hother⟩
  rw [htile t p htp, hpoint p t htp]
  exact hab (t, p) htp

/-- What the function executed, the tiled function executes. -/
theorem exists_rejoin (T : f.Tiled innermost tiles g) {x : OpId} (hx : f.Reaches x)
    (hout : x ∉ tiles.map Prod.fst) {e : Env} (he : (x, e) ∈ f.timeline) :
    ∃ e', (x, e') ∈ g.timeline ∧ (f.pairing tiles).rejoin e' = e := by
  have hn := T.tidy_tiled.toNested
  obtain ⟨-, henv⟩ := (T.tidy.toNested.mem_timeline x e).mp he
  by_cases hin : f.Around innermost x
  · obtain ⟨e', hpairs, hother⟩ := T.exists_parts hx hout hin he
    refine ⟨e', (hn.mem_timeline x e').mpr ⟨T.reaches_old hx, fun l => ?_⟩, funext fun l => ?_⟩
    · rcases loop_cases f tiles l with ⟨p, hlp⟩ | ⟨t, htl⟩ | ⟨hfst, hsnd⟩
      · have hl : l ∉ f.points tiles := not_mem_points (T.lt_size_of_mem (tile_mem hlp))
        rw [T.around_old_iff hl hx, T.around_tile_iff (tile_mem hlp) hx hout]
        exact ⟨fun _ => (hpairs l p hlp).1, fun hnot => absurd hin hnot⟩
      · rw [T.around_point_iff (point_mem htl) hx]
        exact ⟨fun _ => (hpairs t l htl).2.1, fun hnot => absurd hin hnot⟩
      · rw [T.around_old_iff hsnd hx, hother l hfst hsnd]
        refine ⟨fun haround => ?_, (henv l).2⟩
        rw [T.valuesOf_other haround.1 hfst]
        exact (henv l).1 haround
    · rcases loop_cases f tiles l with ⟨p, hlp⟩ | ⟨t, htl⟩ | ⟨hfst, hsnd⟩
      · rw [T.rejoin_tile hlp, (hpairs l p hlp).2.2]
      · rw [Redirection.rejoin_point htl]
        exact ((henv l).2 (T.not_around_point (point_mem htl) hx)).symm
      · rw [rejoin_other hfst hsnd, hother l hfst hsnd]
  · have he' : (x, e) ∈ g.timeline := by
      refine (hn.mem_timeline x e).mpr ⟨T.reaches_old hx, fun l => ?_⟩
      have haround : g.Around l x ↔ f.Around l x := by simp [T.around_iff hx, hin]
      rw [haround]
      refine ⟨fun hl => ?_, (henv l).2⟩
      rw [T.valuesOf_other hl.1 fun hmem => hin ((T.around_tile_iff hmem hx hout).mp hl)]
      exact (henv l).1 hl
    exact ⟨e, he', T.rejoin_outside hx hin he' hout⟩

end Tiled

/-- A run executes no operation twice in the same environment. -/
theorem Nested.timeline_nodup (h : f.Nested) (hadv : f.Advances) : f.timeline.Nodup := by
  refine (h.timeline_pairwise hadv).imp_of_mem fun {p q} hp _ hbefore heq => ?_
  subst heq
  have hreach := ((h.mem_timeline p.1 p.2).mp hp).1
  exact h.before_asymm hreach hreach hbefore hbefore

/-- True of an execution of an operation that is no loop of the tiled band. -/
def isOther (f : Func) (tiles : List (OpId × TileHeader)) (p : Visit) : Bool :=
  decide (p.1 ∉ tiles.map Prod.fst ∧ p.1 ∉ f.points tiles)

namespace Tiled

theorem reaches_of_isOther (T : f.Tiled innermost tiles g) {p : Visit} (hp : p ∈ g.timeline)
    (hother : f.isOther tiles p = true) : f.Reaches p.1 ∧ p.1 ∉ tiles.map Prod.fst := by
  obtain ⟨hfst, hsnd⟩ := of_decide_eq_true hother
  have hreach := ((T.tidy_tiled.toNested.mem_timeline p.1 p.2).mp hp).1
  exact ⟨(T.reaches_cases hreach).resolve_right hsnd, hfst⟩

/-- **The executions of all other operations are, up to their order, those before.** -/
theorem timeline_perm (T : f.Tiled innermost tiles g) :
    ((g.timeline.filter (f.isOther tiles)).map fun p => (p.1, (f.pairing tiles).rejoin p.2)).Perm
      (f.timeline.filter (f.isOther tiles)) := by
  have hnodup := T.tidy_tiled.toNested.timeline_nodup T.tidy_tiled.advances
  refine (List.perm_ext_iff_of_nodup ((hnodup.filter _).map_on ?_)
    ((T.tidy.toNested.timeline_nodup T.tidy.advances).filter _)).mpr ?_
  · rintro ⟨x, e⟩ hp ⟨x', e'⟩ hp' heq
    obtain ⟨rfl, heq⟩ := Prod.mk.inj heq
    obtain ⟨hp, hother⟩ := List.mem_filter.mp hp
    obtain ⟨hx, hout⟩ := T.reaches_of_isOther hp hother
    rw [T.rejoin_inj hx hout hp (List.mem_filter.mp hp').1 heq]
  · rintro ⟨x, e⟩
    rw [List.mem_map, List.mem_filter]
    constructor
    · rintro ⟨⟨x', e'⟩, hp, heq⟩
      cases heq
      obtain ⟨hp, hother⟩ := List.mem_filter.mp hp
      obtain ⟨hx, hout⟩ := T.reaches_of_isOther hp hother
      exact ⟨T.mem_timeline_rejoin hx hout hp, hother⟩
    · rintro ⟨hp, hother⟩
      have hx := ((T.tidy.toNested.mem_timeline x e).mp hp).1
      obtain ⟨e', he', rfl⟩ := T.exists_rejoin hx (of_decide_eq_true hother).1 hp
      exact ⟨(x, e'), List.mem_filter.mpr ⟨he', hother⟩, rfl⟩

end Tiled

/-! ## 4. Instances -/

/-- `f.Under band x`: a reached operation that all loops of the band are around. -/
def Under (f : Func) (band : Band) (x : OpId) : Prop := f.Reaches x ∧ ∀ l ∈ band, f.Around l x

/-- No subscript below the band is the sum of two loops of which one is in the band. -/
def Untiled (f : Func) (band : Band) : Prop :=
  ∀ x c, f.Under band x → f.kindOf x = some (.compute c) → ∀ a ∈ c.accesses, ∀ t p,
    Index.tiled t p ∈ a.indices → t ∉ band ∧ p ∉ band

theorem under_withBounds {uppers : OpId → Int} {band : Band} {x : OpId} :
    (f.withBounds uppers).Under band x ↔ f.Under band x := by
  simp only [Under, (sameNesting_withBounds f uppers).reaches_iff, around_withBounds]

theorem Untiled.withBounds {band : Band} (h : f.Untiled band) (uppers : OpId → Int) :
    (f.withBounds uppers).Untiled band := fun x c hx hk =>
  h x c (under_withBounds.mp hx) (kindOf_withBounds_compute_iff.mp hk)

namespace Tiled

theorem under_iff (T : f.Tiled innermost tiles g) {x : OpId} (hx : f.Reaches x)
    (hout : x ∉ tiles.map Prod.fst) :
    f.Under (tiles.map Prod.fst) x ↔ f.Around innermost x := by
  constructor
  · rintro ⟨-, haround⟩
    exact haround innermost T.mem_innermost
  · intro hin
    exact ⟨hx, fun l hl => (T.around_tile_iff hl hx hout).mpr hin⟩

theorem not_mem_of_compute (T : f.Tiled innermost tiles g) {x : OpId} {c : Compute}
    (hk : f.kindOf x = some (.compute c)) : x ∉ tiles.map Prod.fst := by
  intro hmem
  obtain ⟨l, hl⟩ := T.nest.isLoop x hmem
  rw [hk] at hl
  cases hl

/-- An execution is the instance that it was before. -/
theorem instancesOf_eq (T : f.Tiled innermost tiles g) (hplain : f.Untiled (tiles.map Prod.fst))
    {x : OpId} (hx : f.Reaches x) {e : Env} (he : (x, e) ∈ g.timeline) :
    g.instancesOf (x, e) = f.instancesOf (x, (f.pairing tiles).rejoin e) := by
  have hn := T.tidy.toNested
  obtain ⟨op, hop, -⟩ := hn.live x hx
  by_cases hcompute : ∃ c, f.kindOf x = some (.compute c)
  · obtain ⟨c, hc⟩ := hcompute
    have hout := T.not_mem_of_compute hc
    obtain ⟨hunder, houtside⟩ := T.kindOf_compute hx hc
    by_cases hin : f.Around innermost x
    · have hkind : op.kind = .compute c := Option.some.inj ((kindOf_eq hop).symm.trans hc)
      have hloops : ∀ l ∈ c.loops, l ∉ (f.pairing tiles).map Prod.snd := by
        intro l hl
        obtain ⟨-, hup⟩ := (T.tidy.mentions x op hx hop).compute c hkind l hl
        rw [map_snd_pairing]
        exact not_mem_points (hn.lt_size (hn.reaches_of_above hup hx))
      have hindices := hplain x c ((T.under_iff hx hout).mpr hin) hc
      rw [← map_fst_pairing (f := f)] at hindices
      simp [instancesOf, hunder hin, hc, Kind.own, T.apart.instanceAt_compute hloops hindices]
    · simp [instancesOf, houtside hin, hc, T.rejoin_outside hx hin he hout]
  · have hnone : g.instancesOf (x, e) = [] := by
      unfold instancesOf
      cases hk : g.kindOf x with
      | none => rfl
      | some k =>
        cases k with
        | compute c => exact absurd (T.of_kindOf_compute hk) hcompute
        | _ => rfl
    rw [hnone, instancesOf]
    cases hk : f.kindOf x with
    | none => rfl
    | some k =>
      cases k with
      | compute c => exact absurd ⟨c, hk⟩ hcompute
      | _ => rfl

end Tiled

theorem flatMap_filter_of_nil {α β : Type} {k : α → List β} {q : α → Bool} {l : List α}
    (h : ∀ a ∈ l, q a = false → k a = []) : (l.filter q).flatMap k = l.flatMap k := by
  induction l with
  | nil => rfl
  | cons a l ih =>
    obtain ⟨ha, hl⟩ := List.forall_mem_cons.mp h
    cases hq : q a with
    | true => simp [hq, ih hl]
    | false => simp [hq, ih hl, ha hq]

theorem instancesOf_loop {p : Visit} (h : f.IsLoop p.1) : f.instancesOf p = [] := by
  obtain ⟨l, hl⟩ := h
  simp [instancesOf, hl, Kind.own]

namespace Tiled

/-- **Tiling keeps the instances of the executions.** -/
theorem flatMap_instancesOf_perm (T : f.Tiled innermost tiles g)
    (hplain : f.Untiled (tiles.map Prod.fst)) :
    (g.timeline.flatMap g.instancesOf).Perm (f.timeline.flatMap f.instancesOf) := by
  have hold : ∀ p ∈ f.timeline, f.isOther tiles p = false → f.instancesOf p = [] := by
    intro p hp hother
    have hreach := ((T.tidy.toNested.mem_timeline p.1 p.2).mp hp).1
    have hpoint : p.1 ∉ f.points tiles := not_mem_points (T.tidy.toNested.lt_size hreach)
    refine instancesOf_loop (T.nest.isLoop p.1 ?_)
    simpa [isOther, hpoint] using hother
  have hnew : ∀ p ∈ g.timeline, f.isOther tiles p = false → g.instancesOf p = [] := by
    intro p _ hother
    refine instancesOf_loop (T.isLoop_iff.mpr ?_)
    by_cases hfst : p.1 ∈ tiles.map Prod.fst
    · exact .inl (T.nest.isLoop p.1 hfst)
    · have hnot := of_decide_eq_false hother
      exact .inr (Decidable.of_not_not fun hsnd => hnot ⟨hfst, hsnd⟩)
  have hinstances : (g.timeline.filter (f.isOther tiles)).flatMap g.instancesOf =
      ((g.timeline.filter (f.isOther tiles)).map
        fun p => (p.1, (f.pairing tiles).rejoin p.2)).flatMap f.instancesOf := by
    rw [List.flatMap_map]
    refine List.flatMap_congr fun p hp => ?_
    obtain ⟨hp, hother⟩ := List.mem_filter.mp hp
    exact T.instancesOf_eq hplain (T.reaches_of_isOther hp hother).1 hp
  rw [← flatMap_filter_of_nil hnew, ← flatMap_filter_of_nil hold, hinstances]
  exact T.timeline_perm.flatMap_right _

end Tiled

/-! ## 5. Machine words -/

/-- The bounds of every reached loop are machine words. -/
def WordBounds (f : Func) : Prop :=
  ∀ id l, f.Reaches id → f.kindOf id = some (.loop l) → isInt64 l.lower = true ∧
    ∀ upper, l.upper = some upper → isInt64 upper = true

/-- So are then the values between them. -/
theorem WordBounds.isInt64_of_mem (h : f.WordBounds) (hadv : f.Advances) {id : OpId}
    (hid : f.Reaches id) {v : Int} (hv : v ∈ f.valuesOf id) : isInt64 v = true := by
  cases hk : f.kindOf id with
  | none =>
    simp only [valuesOf, hk] at hv
    cases hv
  | some k =>
    cases k with
    | loop l =>
      cases hupper : l.upper with
      | none =>
        simp only [valuesOf, hk, Option.bind_some, Kind.loop?, Loop.values?, hupper] at hv
        cases hv
      | some upper =>
        have hstep := hadv id l hid hk
        obtain ⟨hlower, hbound⟩ := h id l hid hk
        obtain ⟨⟨i, rfl⟩, hlt⟩ := (mem_valuesOf hk hupper hstep).mp hv
        have hnonneg : 0 ≤ (i : Int) * l.step :=
          Int.mul_nonneg (Int.natCast_nonneg i) (Int.le_of_lt hstep)
        have hword := hbound upper hupper
        simp only [isInt64, Bool.and_eq_true, decide_eq_true_eq] at hlower hword ⊢
        omega
    | _ =>
      simp only [valuesOf, hk] at hv
      cases hv

namespace Tiled

/-- Tile loops keep their bounds, and those of a point loop are machine words. -/
theorem wordBounds (T : f.Tiled innermost tiles g) (h : f.WordBounds) : g.WordBounds := by
  intro id l hid hk
  rcases T.reaches_cases hid with hold | hpoint
  · obtain ⟨l', hl'⟩ : f.IsLoop id := (T.isLoop_iff.mp ⟨l, hk⟩).resolve_right
      (not_mem_points (T.tidy.toNested.lt_size hold))
    have hwords := h id l' hold hl'
    rw [T.kindOf_loop hl'] at hk
    cases hk
    unfold tiling
    cases tiles.find? fun e => e.1 == id with
    | none => exact hwords
    | some e => exact hwords
  · obtain ⟨position, hlt, rfl⟩ := mem_points.mp hpoint
    have he := List.getElem?_eq_getElem hlt
    obtain ⟨l', -, hs⟩ := T.splits _ (List.mem_of_getElem? he)
    rw [T.kindOf_point he] at hk
    cases hk
    refine ⟨(by decide : isInt64 0 = true), fun upper hupper => ?_⟩
    cases hupper
    exact hs.fits

/-- The sum of a tile and a point loop stays between the bounds of the loop that was. -/
theorem isInt64_sum (T : f.Tiled innermost tiles g) (h : f.WordBounds) {t p : OpId}
    (htp : (t, p) ∈ f.pairing tiles) {a b : Int} (ha : a ∈ g.valuesOf t) (hb : b ∈ g.valuesOf p) :
    isInt64 (a + b) = true := by
  obtain ⟨l, header, -, -, hs, hvalues, htile, hpoint⟩ := T.exists_splits htp
  rw [htile] at ha
  rw [hpoint] at hb
  refine h.isInt64_of_mem T.tidy.advances (T.nest.reaches t (tile_mem htp)) ?_
  rw [hvalues]
  exact (hs.mem_values_iff t).mpr ⟨a, ha, b, hb, rfl⟩

end Tiled

/-! ## 6. Tiling keeps the instances -/

namespace Tiled

/-- Each loop of the band, with its size and its point loop. -/
theorem trips (T : f.Tiled innermost tiles g) {position : Nat} {e : OpId × TileHeader}
    (he : tiles[position]? = some e) {size : Nat} (hsize : e.2.size = size) :
    ∃ l l' n n', f.kindOf e.1 = some (.loop l) ∧ g.kindOf e.1 = some (.loop l') ∧
      l.tripCount = some n ∧ l'.tripCount = some n' ∧ n' * size = n := by
  have hmem : e ∈ tiles := List.mem_of_getElem? he
  obtain ⟨l, hk, hs⟩ := T.splits e hmem
  obtain ⟨size', blocks, hsize', hpos, htrip⟩ := hs.divides
  have heq : size' = size := Int.ofNat.inj (hsize'.symm.trans hsize)
  subst heq
  exact ⟨l, _, _, blocks, hk, T.kindOf_tile hmem hk, htrip,
    hs.tripCount_tileLoop hsize' hpos htrip, rfl⟩

end Tiled

/-- **Tiling keeps the instances of every run.**  Whatever the bounds that the run decides, the
same instances are executed, each as often.  A tile loop makes its old trip count in tiles of the
given size.  And if the bounds of the loops were machine words, no induction variable and no sum of
a tile and a point loop leaves their range. -/
theorem tileBand_keeps_instances (audience : Audience) (f g : Func) (band newBand : Band)
    (sizes : List Nat) (uppers : OpId → Int) (hf : f.verify = .ok ())
    (hreach : ∀ id ∈ band, f.Reaches id) (hplain : f.Untiled band)
    (hy : (f.tileBand band sizes).Yields audience (g, .ok newBand)) :
    (∃ before after, (f.withBounds uppers).instances = some before ∧
      (g.withBounds uppers).instances = some after ∧ after.Perm before) ∧
    (∀ (i : Nat) (tile : OpId), band[i]? = some tile → ∃ size point p,
      sizes[i]? = some size ∧ newBand[band.length + i]? = some point ∧
      g.kindOf point = some (.loop p) ∧ p.pointOf = some tile ∧
      (∃ l l' n n', f.kindOf tile = some (.loop l) ∧ g.kindOf tile = some (.loop l') ∧
        l.tripCount = some n ∧ l'.tripCount = some n' ∧ n' * size = n) ∧
      ((f.withBounds uppers).WordBounds → ∀ a ∈ (g.withBounds uppers).valuesOf tile,
        ∀ b ∈ (g.withBounds uppers).valuesOf point, isInt64 (a + b) = true)) ∧
    ((f.withBounds uppers).WordBounds → ∀ l, g.Reaches l →
      ∀ v ∈ (g.withBounds uppers).valuesOf l, isInt64 v = true) := by
  have htidy : f.Tidy := verify_eq_ok_iff_tidy.mp hf
  have hrun : ∀ {h : Func}, h.Tidy → (h.withBounds uppers).instances = some
      ((h.withBounds uppers).timeline.flatMap (h.withBounds uppers).instancesOf) := fun hh =>
    (hh.withBounds uppers).toNested.instances_eq_timeline (staticBounds_withBounds _ uppers)
  rcases tileBand_tiled htidy hreach hy with
    ⟨rfl, rfl, rfl⟩ | ⟨innermost, tiles, rfl, T, rfl, hsizes⟩
  · refine ⟨⟨_, _, hrun htidy, hrun htidy, .refl _⟩, fun i tile htile => ?_, fun hw l hl v hv => ?_⟩
    · cases htile
    · exact hw.isInt64_of_mem (htidy.withBounds uppers).advances
        ((sameNesting_withBounds g uppers).reaches hl) hv
  · have T' := T.withBounds uppers
    refine ⟨⟨_, _, hrun htidy, hrun T.tidy_tiled,
      T'.flatMap_instancesOf_perm (hplain.withBounds uppers)⟩, fun i tile htile => ?_,
      fun hw l hl v hv => ?_⟩
    · rw [List.getElem?_map, Option.map_eq_some_iff] at htile
      obtain ⟨e, he, rfl⟩ := htile
      obtain ⟨size, hsize, hheader⟩ := hsizes i e he
      have hlt : i < tiles.length := (List.getElem?_eq_some_iff.mp he).1
      have hpoint : (tiles.map Prod.fst ++ f.points tiles)[(tiles.map Prod.fst).length + i]?
          = some (f.ops.size + i) := by
        simp [points, hlt]
      refine ⟨size, f.ops.size + i, _, hsize, hpoint, T.kindOf_point he, rfl,
        T.trips he hheader, fun hw a ha b hb => ?_⟩
      refine T'.isInt64_sum hw ?_ ha hb
      rw [pairing_withBounds]
      exact mem_pairing.mpr ⟨i, e.2, he, rfl⟩
    · exact (T'.wordBounds hw).isInt64_of_mem T'.tidy_tiled.advances
        ((sameNesting_withBounds g uppers).reaches hl) hv

/-- A nest below a loop whose bound is not known: the loops start above zero and advance by more
than one, and the compute runs ahead in one of them. -/
def lanedNest : Func where
  name := "f"
  arguments := [0]
  body := [0]
  ops := #[
    { id := 0, kind := .node "n", parent := none, body := [1], erased := false },
    { id := 1, kind := .loop (.plain "n" 0 none 1), parent := some 0, body := [2],
      erased := false },
    { id := 2, kind := .loop (.plain "i" 1 (some 12) 2), parent := some 1, body := [3],
      erased := false },
    { id := 3, kind := .loop (.plain "j" (-3) (some 9) 3), parent := some 2, body := [4],
      erased := false },
    { id := 4, kind := .compute { name := "p",
                                  reads := [{ memref := 0, indices := [.iv 1, .iv 2] }],
                                  writes := [{ memref := 0, indices := [.iv 2, .iv 3] }],
                                  lanes := [(2, 1), (3, 2)] },
      parent := some 3, body := [], erased := false }]
  values := #[{ id := 0, name := "A", shape := [16, 16], space := 0, definition := .argument 0 }]

/-- It is enough to look at all entries of the table. -/
theorem kindOf_of_all {q : Kind → Bool} (h : (f.ops.toList.all fun op => q op.kind) = true)
    {x : OpId} {k : Kind} (hk : f.kindOf x = some k) : q k = true := by
  obtain ⟨op, hop, rfl⟩ := Option.map_eq_some_iff.mp hk
  exact List.all_eq_true.mp h op (Array.mem_toList_iff.mpr (Array.mem_of_getElem? hop))

/-- Where no subscript mentions two loops, none is a sum. -/
theorem untiled_of_all {band : Band} (h : (f.ops.toList.all fun op => op.kind.compute?.all fun c =>
    c.accesses.all fun a => a.indices.all fun i => decide (i.loops.length < 2)) = true) :
    f.Untiled band := by
  intro x c _ hk a ha t p hi
  have hall := @kindOf_of_all f (fun k => k.compute?.all fun c =>
    c.accesses.all fun a => a.indices.all fun i => decide (i.loops.length < 2)) h x _ hk
  simp only [Kind.compute?, Option.all_some, List.all_eq_true] at hall
  exact absurd (of_decide_eq_true (hall a ha _ hi)) (Nat.lt_irrefl 2)

/-- Tiled by three and two, the nest executes its 48 instances in a run of two turns of the outer
loop, and no value or sum leaves the range of machine words. -/
theorem tileBand_keeps_instances_lanedNest :
    lanedNest.verify = .ok () ∧ (∀ id ∈ [2, 3], lanedNest.Reaches id) ∧ lanedNest.Untiled [2, 3] ∧
    (lanedNest.withBounds fun _ => 2).WordBounds ∧ ∃ g before after,
      (lanedNest.tileBand [2, 3] [3, 2]).Yields none (g, .ok [2, 3, 5, 6]) ∧
      (lanedNest.withBounds fun _ => 2).instances = some before ∧ before.length = 48 ∧
      (g.withBounds fun _ => 2).instances = some after ∧ after.Perm before ∧
      ∀ a ∈ (g.withBounds fun _ => 2).valuesOf 3, ∀ b ∈ (g.withBounds fun _ => 2).valuesOf 6,
        isInt64 (a + b) = true := by
  have hf : lanedNest.verify = .ok () := by decide
  have hfirst : lanedNest.Reaches 2 :=
    .nested (.nested (.top List.mem_cons_self) List.mem_cons_self) List.mem_cons_self
  have hreach : ∀ id ∈ [2, 3], lanedNest.Reaches id :=
    List.forall_mem_cons.mpr
      ⟨hfirst, List.forall_mem_singleton.mpr (.nested hfirst List.mem_cons_self)⟩
  have hplain : lanedNest.Untiled [2, 3] := untiled_of_all (by decide)
  have hw : (lanedNest.withBounds fun _ => 2).WordBounds := by
    intro id l _ hk
    have hall := kindOf_of_all (f := lanedNest.withBounds fun _ => 2)
      (q := fun k => k.loop?.all fun l => isInt64 l.lower && l.upper.all isInt64) (by decide) hk
    simp only [Kind.loop?, Option.all_some, Bool.and_eq_true, Option.all_eq_true] at hall
    exact hall
  obtain ⟨g, hy⟩ : ∃ g, (lanedNest.tileBand [2, 3] [3, 2]).Yields none (g, .ok [2, 3, 5, 6]) :=
    Traced.exists_yields rfl
  obtain ⟨⟨before, after, hbefore, hafter, hperm⟩, hloops, -⟩ := tileBand_keeps_instances none
    lanedNest g [2, 3] [2, 3, 5, 6] [3, 2] (fun _ => 2) hf hreach hplain hy
  obtain ⟨_, _, _, -, hpoint, -, -, -, hsum⟩ := hloops 1 3 rfl
  cases hpoint
  have hcount : (lanedNest.withBounds fun _ => 2).instances.map List.length = some 48 := by
    decide +kernel
  rw [hbefore] at hcount
  exact ⟨hf, hreach, hplain, hw, g, before, after, hy, hbefore, Option.some.inj hcount, hafter,
    hperm, hsum hw⟩

end Func
end Dataflow
