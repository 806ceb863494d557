/-
# Correlation maps

A correlation matches loops of two bands, and its map is filled in access by access.  A loop is
matched only with a loop that is not matched yet, so the map is one to one
(`BandAccesses.matchBands_sound`), the way back is its inverse, and factors that are carried over
and back again are unchanged where loops are matched (`Correlation.carry_carry`).

What is matched comes from a store and a load of one memory below the two bands
(`Func.exchange_of_shared`).  `Func.correlations_inverse` says it of all correlations of a function.
-/
import Dataflow.Proofs.Matching
import Dataflow.Proofs.Merging
import Dataflow.Proofs.TilingCandidates

namespace Dataflow

/-! ## 1. There and back -/

namespace Correlation

/-- Factors where a place is sent somewhere, ones elsewhere. -/
def kept (targets : List (Option Nat)) (factors : List Nat) : List Nat :=
  List.zipWith (fun target factor => if target.isSome then factor else 1) targets factors

theorem Inverse.lt_length {there back : List (Option Nat)} (h : Inverse there back) {i j : Nat}
    (hij : there[i]? = some (some j)) : j < back.length :=
  (List.getElem?_eq_some_iff.mp ((h i j).mp hij)).1

/-- Factors put in their places by a map, and from there by its inverse. -/
theorem place_there_and_back {there back : List (Option Nat)} (h : Inverse there back)
    {factors : List Nat} (hlen : factors.length = there.length) :
    (back.zip ((there.zip factors).foldl place (List.replicate back.length 1))).foldl place
      (List.replicate there.length 1) = kept there factors := by
  have hcarried : ((there.zip factors).foldl place (List.replicate back.length 1)).length
      = back.length := by simp [length_foldl_place]
  refine List.ext_getElem? fun i => ?_
  by_cases hi : i < there.length
  · cases htarget : there[i] with
    | none =>
      have hnone : there[i]? = some none := by simp [hi, htarget]
      have hnot : some i ∉ back := by
        intro hmem
        obtain ⟨j, hj⟩ := List.mem_iff_getElem?.mp hmem
        rw [← h i j, hnone] at hj
        cases hj
      rw [foldl_place_of_notMem hnot]
      simp [kept, hi, htarget, hlen]
    | some j =>
      have hij : there[i]? = some (some j) := by simp [hi, htarget]
      rw [getElem?_foldl_place h.symm.oneToOne hcarried.symm ((h i j).mp hij) (by simpa using hi),
        getElem?_foldl_place h.oneToOne hlen.symm hij (by simpa using h.lt_length hij)]
      simp [kept, hi, htarget, hlen]
  · rw [List.getElem?_eq_none, List.getElem?_eq_none]
    · simp [kept, hlen, Nat.le_of_not_lt hi]
    · simp [length_foldl_place, Nat.le_of_not_lt hi]

/-- The correlation is between the two nodes. -/
def Between (c : Correlation) (a b : OpId) : Prop :=
  (c.first = a ∧ c.second = b) ∨ (c.first = b ∧ c.second = a)

namespace Between

variable {c : Correlation} {a b : OpId}

theorem symm (h : c.Between a b) : c.Between b a := Or.symm h

theorem other_eq (h : c.Between a b) (hab : a ≠ b) : c.other a = b := by
  rcases h with ⟨rfl, rfl⟩ | ⟨rfl, rfl⟩
  · exact if_pos rfl
  · exact if_neg hab

theorem touches (h : c.Between a b) : c.touches a = true := by
  rcases h with ⟨rfl, rfl⟩ | ⟨rfl, rfl⟩ <;> simp [Correlation.touches]

theorem eq_of_touches (h : c.Between a b) {node : OpId} (ht : c.touches node = true) :
    node = a ∨ node = b := by
  simp only [Correlation.touches, Bool.or_eq_true, beq_iff_eq] at ht
  rcases h with ⟨rfl, rfl⟩ | ⟨rfl, rfl⟩
  · exact ht
  · exact ht.symm

theorem loopsOpposite_eq (h : c.Between a b) (hab : a ≠ b) :
    c.loopsOpposite a = (c.mapFrom b).length := by
  rcases h with ⟨rfl, rfl⟩ | ⟨rfl, rfl⟩ <;> simp [loopsOpposite, mapFrom, hab, hab.symm]

theorem inverse (h : c.Between a b) (hab : a ≠ b) (hc : Inverse c.forward c.backward) :
    Inverse (c.mapFrom a) (c.mapFrom b) := by
  rcases h with ⟨rfl, rfl⟩ | ⟨rfl, rfl⟩
  · simpa [mapFrom, hab.symm] using hc
  · simpa [mapFrom, hab] using hc.symm

end Between

/-- **Carried over and back**, factors are unchanged where loops are matched. -/
theorem carry_carry {c : Correlation} {a b : OpId} (h : c.Between a b) (hab : a ≠ b)
    (hinverse : Inverse (c.mapFrom a) (c.mapFrom b)) {factors : List Nat}
    (hlen : factors.length = (c.mapFrom a).length) :
    c.carry b (c.carry a factors) = kept (c.mapFrom a) factors := by
  rw [carry_eq, carry_eq, h.loopsOpposite_eq hab, h.symm.loopsOpposite_eq hab.symm]
  exact place_there_and_back hinverse hlen

end Correlation

/-! ## 2. Matching two bands -/

/-- Two loops play the same role in two subscripts: both are tile loops, or neither is. -/
def Index.SameRole (index index' : Index) (l l' : OpId) : Prop :=
  (index.hasTile l = true ∧ index'.hasTile l' = true)
    ∨ (index.hasPoint l = true ∧ index'.hasPoint l' = true)

theorem Index.SameRole.symm {index index' : Index} {l l' : OpId} (h : index.SameRole index' l l') :
    index'.SameRole index l' l := h.imp And.symm And.symm

theorem Index.sameRole_of_partner {index other : Index} {l l' : OpId}
    (h : index.partner other l = some l') : other.SameRole index l l' := by
  cases index with
  | iv i =>
    rw [partner, Option.ite_none_right_eq_some, Option.some.injEq] at h
    exact .inr ⟨h.1, by simp [hasPoint, h.2]⟩
  | tiled tile point =>
    rw [partner] at h
    split at h
    · rename_i htile
      exact .inl ⟨htile, by simpa [hasTile] using h⟩
    · rw [Option.ite_none_right_eq_some, Option.some.injEq] at h
      exact .inr ⟨h.1, by simp [hasPoint, h.2]⟩
  | const n => cases h
  | unknown => cases h

/-- The loops play the same role at a dimension that the accesses have in common. -/
def Access.Aligns (own other : Access) (l l' : OpId) : Prop :=
  ∃ (position : Nat) (index index' : Index), own.indices[position]? = some index
    ∧ other.indices[position]? = some index' ∧ index.SameRole index' l l'

theorem Access.Aligns.symm {own other : Access} {l l' : OpId} (h : own.Aligns other l l') :
    other.Aligns own l' l := by
  obtain ⟨position, index, index', hindex, hindex', hrole⟩ := h
  exact ⟨position, index', index, hindex', hindex, hrole.symm⟩

namespace BandAccesses

open Correlation (OneToOne Inverse Between)

variable {a b : BandAccesses} {forward : List (Option Nat)}

/-- Two places of the bands hold loops that shared accesses align. -/
def Aligned (a b : BandAccesses) (i j : Nat) : Prop :=
  ∃ l l', a.band[i]? = some l ∧ b.band[j]? = some l'
    ∧ ∃ pair ∈ sharedAccesses a b, pair.1.Aligns pair.2 l l'

theorem matchLoop_spec {band : Band} {own other : Access} {l : OpId} {j : Nat}
    (h : matchLoop band own other l = some j) :
    ∃ l', band[j]? = some l' ∧ own.Aligns other l l' := by
  obtain ⟨position, -, h⟩ := Option.bind_eq_some_iff.mp h
  obtain ⟨ownIndex, hown, h⟩ := Option.bind_eq_some_iff.mp h
  obtain ⟨index, hindex, h⟩ := Option.bind_eq_some_iff.mp h
  obtain ⟨l', hpartner, h⟩ := Option.bind_eq_some_iff.mp h
  refine ⟨l', ?_, position, ownIndex, index, hown, hindex, Index.sameRole_of_partner hpartner⟩
  obtain ⟨hj, heq, -⟩ := List.findIdx?_eq_some_iff_getElem.mp h
  simpa [hj] using heq

/-- The map while it is filled in: no two loops are sent to the same one, and the accesses align
those that are sent somewhere. -/
structure Sound (a b : BandAccesses) (forward : List (Option Nat)) : Prop where
  oneToOne : OneToOne forward
  aligned : ∀ i j : Nat, forward[i]? = some (some j) → Aligned a b i j

theorem sound_none (a b : BandAccesses) : Sound a b (List.replicate a.band.length none) where
  oneToOne := fun i i' j hi _ => by simp [List.getElem?_replicate] at hi
  aligned := fun i j hij => by simp [List.getElem?_replicate] at hij

/-- **One loop** is matched with a loop that is not matched yet. -/
theorem Sound.set (h : Sound a b forward) {i j : Nat} (hfree : some j ∉ forward)
    (halign : Aligned a b i j) : Sound a b (forward.set i (some j)) := by
  have hcases : ∀ x y : Nat, (forward.set i (some j))[x]? = some (some y) →
      (x = i ∧ y = j) ∨ forward[x]? = some (some y) := by
    intro x y hxy
    rw [List.getElem?_set] at hxy
    split at hxy
    · rename_i heq
      split at hxy
      · simp only [Option.some.injEq] at hxy
        exact .inl ⟨heq.symm, hxy.symm⟩
      · cases hxy
    · exact .inr hxy
  refine ⟨fun x x' y hx hx' => ?_, fun x y hxy => ?_⟩
  · rcases hcases x y hx with ⟨rfl, rfl⟩ | hold
    · rcases hcases x' y hx' with ⟨rfl, -⟩ | hold'
      · rfl
      · exact absurd (List.mem_of_getElem? hold') hfree
    · rcases hcases x' y hx' with ⟨rfl, rfl⟩ | hold'
      · exact absurd (List.mem_of_getElem? hold) hfree
      · exact h.oneToOne x x' y hold hold'
  · rcases hcases x y hxy with ⟨rfl, rfl⟩ | hxy
    · exact halign
    · exact h.aligned x y hxy

/-- **One pair of accesses.** -/
theorem Sound.matchThrough (h : Sound a b forward) {pair : Access × Access}
    (hpair : pair ∈ sharedAccesses a b) : Sound a b (matchThrough a b forward pair) := by
  unfold BandAccesses.matchThrough
  refine List.foldlRecOn _ _ h fun forward h e he => ?_
  obtain ⟨l, i⟩ := e
  have hl : a.band[i]? = some l := List.mem_zipIdx_iff_getElem?.mp he
  simp only
  split
  · exact h
  · split
    · exact h
    · rename_i j hmatch
      split
      · exact h
      · rename_i hfree
        obtain ⟨l', hl', halign⟩ := matchLoop_spec hmatch
        exact h.set (by simpa using hfree) ⟨l, l', hl, hl', pair, hpair, halign⟩

/-- **All pairs.**  The map of two bands is one to one, and the accesses align what it matches. -/
theorem matchBands_sound (h : a.matchBands b = some forward) : Sound a b forward := by
  rw [matchBands, Option.ite_none_right_eq_some, Option.some.injEq] at h
  rw [← h.2]
  exact List.foldlRecOn _ _ (sound_none a b) fun forward h pair hpair => h.matchThrough hpair

end BandAccesses

namespace Func

variable {f : Func} {audience : Audience}

/-! ## 3. Accesses below a band -/

/-- Below the operation a compute that is no replica has the access, of memory with that root. -/
def HasAccess (f : Func) (pick : Compute → List Access) (outer : OpId) (a : Access) (r : ValueId) :
    Prop :=
  ∃ id c, f.Reaches id ∧ f.Above outer id ∧ f.kindOf id = some (.compute c) ∧ c.lanes = []
    ∧ a ∈ pick c ∧ f.root a.memref = .ok (some r)

theorem mem_withRoots {accesses : List Access} {es : List (ValueId × Access)}
    (h : f.withRoots accesses = .ok es) :
    ∀ e ∈ es, e.2 ∈ accesses ∧ f.root e.2.memref = .ok (some e.1) := by
  intro e he
  obtain ⟨os, hos, rfl⟩ := Checked.filterMapM_eq_ok.mp h
  simp only [List.mem_filterMap, id, exists_eq_right] at he
  obtain ⟨a, ha, hroot⟩ := Checked.forall₂_left hos he
  obtain ⟨r?, hr, heq⟩ := Checked.bind_eq_ok.mp hroot
  simp only [Checked.pure_eq_ok, Except.ok.injEq, Option.map_eq_some_iff] at heq
  obtain ⟨r, rfl, rfl⟩ := heq
  exact ⟨ha, hr⟩

/-- Of the computes below an operation, those that are no replicas. -/
theorem Nested.mem_freshComputes (h : f.Nested) {outer : OpId} (houter : f.Reaches outer)
    {es : List (OpId × Op)} (hes : f.entriesOf outer = .ok es) {c : Compute}
    (hc : c ∈ (es.filterMap fun e => e.2.kind.compute?).filter fun c => c.lanes.isEmpty) :
    ∃ id, f.Reaches id ∧ f.Above outer id ∧ f.kindOf id = some (.compute c) ∧ c.lanes = [] := by
  obtain ⟨hc, hlanes⟩ := List.mem_filter.mp hc
  obtain ⟨e, he, hc⟩ := List.mem_filterMap.mp hc
  obtain ⟨hop, hreach, habove⟩ := h.of_mem_nest houter hes e he
  refine ⟨e.1, hreach, habove, ?_, by simpa using hlanes⟩
  rw [kindOf_eq hop, Kind.eq_compute_of_compute? hc]

theorem bandAccesses_hasAccess (hn : f.Nested) {node : OpId} (hnode : f.Participant node)
    {b : BandAccesses} (h : f.bandAccesses node = .ok b) :
    (∀ e ∈ b.reads, ∃ outer, b.band.head? = some outer ∧ f.HasAccess Compute.reads outer e.2 e.1)
      ∧ ∀ e ∈ b.writes, ∃ outer, b.band.head? = some outer
          ∧ f.HasAccess Compute.writes outer e.2 e.1 := by
  obtain ⟨band, hband, h⟩ := Checked.bind_eq_ok.mp h
  cases band with
  | nil =>
    cases h
    exact ⟨fun e he => absurd he List.not_mem_nil, fun e he => absurd he List.not_mem_nil⟩
  | cons outermost rest =>
    obtain ⟨es, hes, h⟩ := Checked.bind_eq_ok.mp h
    obtain ⟨reads, hreads, h⟩ := Checked.bind_eq_ok.mp h
    obtain ⟨writes, hwrites, h⟩ := Checked.bind_eq_ok.mp h
    cases h
    have houter : f.Reaches outermost :=
      (primaryBand_spec hn hnode.1 hnode.2 hband).reaches outermost List.mem_cons_self
    have hfrom : ∀ {pick : Compute → List Access} {roots : List (ValueId × Access)},
        f.withRoots (((es.filterMap fun e => e.2.kind.compute?).filter fun c =>
          c.lanes.isEmpty).flatMap pick) = .ok roots →
        ∀ e ∈ roots, ∃ outer, (outermost :: rest).head? = some outer
          ∧ f.HasAccess pick outer e.2 e.1 := by
      intro pick roots hroots e he
      obtain ⟨hmem, hroot⟩ := mem_withRoots hroots e he
      obtain ⟨c, hc, hmem⟩ := List.mem_flatMap.mp hmem
      obtain ⟨id, hreach, habove, hkind, hlanes⟩ := hn.mem_freshComputes houter hes hc
      exact ⟨outermost, rfl, id, c, hreach, habove, hkind, hlanes, hmem, hroot⟩
    exact ⟨hfrom hreads, hfrom hwrites⟩

/-- Only memory in use whose root cannot be found stops the search for accesses. -/
theorem bandAccesses_stopsBy (hn : f.Nested) {node : OpId} (hnode : f.Participant node) :
    Checked.StopsBy f.Astray (f.bandAccesses node) := by
  obtain ⟨band, hband⟩ := hn.primaryBand_isOk hnode.1
  rw [bandAccesses, hband, Checked.ok_bind]
  cases band with
  | nil => exact Checked.stopsBy_ok _
  | cons outermost rest =>
    have houter : f.Reaches outermost :=
      (primaryBand_spec hn hnode.1 hnode.2 hband).reaches outermost List.mem_cons_self
    obtain ⟨es, hes⟩ := hn.entriesOf_isOk houter
    have hroots : ∀ {pick : Compute → List Access}, (∀ c, pick c ⊆ c.accesses) →
        Checked.StopsBy f.Astray (f.withRoots (((es.filterMap fun e => e.2.kind.compute?).filter
          fun c => c.lanes.isEmpty).flatMap pick)) := by
      intro pick hpick
      refine Checked.stopsBy_filterMapM fun a ha => ?_
      refine Checked.stopsBy_bind (fun fault hfault => ?_) fun r? _ => Checked.stopsBy_ok _
      obtain ⟨c, hc, ha⟩ := List.mem_flatMap.mp ha
      obtain ⟨id, hreach, -, hkind, -⟩ := hn.mem_freshComputes houter hes hc
      exact ⟨a.memref, ⟨id, _, hreach, hkind, List.mem_map_of_mem (hpick c ha)⟩, hfault⟩
    simp only [hes, Checked.ok_bind]
    refine Checked.stopsBy_bind (hroots fun c => ?_) fun reads _ =>
      Checked.stopsBy_bind (hroots fun c => ?_) fun writes _ => Checked.stopsBy_ok _
    · exact List.subset_append_left _ _
    · exact List.subset_append_right _ _

/-! ## 4. The correlations of a function -/

theorem allBandAccesses_stopsBy (hn : f.Nested) :
    Checked.StopsBy f.Astray f.allBandAccesses := by
  obtain ⟨nodes, hnodes, -⟩ := hn.findAll_isOk (·.kind.isNode)
  rw [allBandAccesses, show f.nodes = .ok nodes from hnodes, Checked.ok_bind]
  exact Checked.stopsBy_mapM fun node hnode =>
    bandAccesses_stopsBy hn ((hn.mem_findAll hnodes).mp hnode)

/-- A memref that has no root stops the correlations, and nothing else does. -/
theorem astray_of_correlations (hn : f.Nested) {fault : Fault}
    (h : f.correlations.Faults audience fault) : f.Astray fault := by
  cases hbands : f.allBandAccesses with
  | error e =>
    cases (Traced.faults_lift_bind hbands).unique h
    exact allBandAccesses_stopsBy hn _ hbands
  | ok bands =>
    obtain ⟨nodes, hsurvey⟩ := surveyed_of_allBandAccesses hn hbands
    exact absurd h (hsurvey.correlations_yields audience hbands).not_faults

/-- Below one band a compute stores to memory that a compute below the other reads, and the two
accesses align a loop of the one with a loop of the other. -/
def Exchange (f : Func) (bandA bandB : Band) (l l' : OpId) : Prop :=
  ∃ outer outer' r x y, bandA.head? = some outer ∧ bandB.head? = some outer'
    ∧ ((f.HasAccess Compute.writes outer x r ∧ f.HasAccess Compute.reads outer' y r)
      ∨ (f.HasAccess Compute.reads outer x r ∧ f.HasAccess Compute.writes outer' y r))
    ∧ x.Aligns y l l'

/-- `f.Correlates c a b bandA bandB`: the correlation is between two nodes with these primary bands.
Its maps have a place for each loop of the bands and are inverse to each other, and the accesses
below the bands are the reason for what it matches. -/
structure Correlates (f : Func) (c : Correlation) (a b : OpId) (bandA bandB : Band) : Prop where
  between : c.Between a b
  distinct : a ≠ b
  primary : f.primaryBand a = .ok bandA ∧ f.primaryBand b = .ok bandB
  nonempty : bandA ≠ [] ∧ bandB ≠ []
  length : (c.mapFrom a).length = bandA.length ∧ (c.mapFrom b).length = bandB.length
  inverse : Correlation.Inverse (c.mapFrom a) (c.mapFrom b)
  exchange : ∀ i j : Nat, (c.mapFrom a)[i]? = some (some j) →
    ∃ l l', bandA[i]? = some l ∧ bandB[j]? = some l' ∧ f.Exchange bandA bandB l l'

theorem Correlates.symm {c : Correlation} {a b : OpId} {bandA bandB : Band}
    (h : f.Correlates c a b bandA bandB) : f.Correlates c b a bandB bandA where
  between := h.between.symm
  distinct := h.distinct.symm
  primary := h.primary.symm
  nonempty := h.nonempty.symm
  length := h.length.symm
  inverse := h.inverse.symm
  exchange := fun j i hji => by
    obtain ⟨l, l', hl, hl', outer, outer', r, x, y, houter, houter', haccess, halign⟩ :=
      h.exchange i j ((h.inverse i j).mpr hji)
    exact ⟨l', l, hl', hl, outer', outer, r, y, x, houter', houter,
      haccess.symm.imp And.symm And.symm, halign.symm⟩

theorem Correlates.carry_carry {c : Correlation} {a b : OpId} {bandA bandB : Band}
    (h : f.Correlates c a b bandA bandB) {factors : List Nat}
    (hlen : factors.length = bandA.length) :
    (c.carry a factors).length = bandB.length
      ∧ (c.carry b (c.carry a factors)).length = bandA.length
      ∧ c.carry b (c.carry a factors) = Correlation.kept (c.mapFrom a) factors := by
  refine ⟨?_, ?_, Correlation.carry_carry h.between h.distinct h.inverse ?_⟩
  · rw [Correlation.length_carry, h.between.loopsOpposite_eq h.distinct, h.length.2]
  · rw [Correlation.length_carry, h.between.symm.loopsOpposite_eq h.distinct.symm, h.length.1]
  · rw [hlen, h.length.1]

/-- The pairs that two bands share are a store and a load of one memory, below the two bands. -/
theorem exchange_of_shared (hn : f.Nested) {a b : BandAccesses}
    (ha : f.Participant a.node ∧ f.bandAccesses a.node = .ok a)
    (hb : f.Participant b.node ∧ f.bandAccesses b.node = .ok b) {pair : Access × Access}
    (hpair : pair ∈ a.sharedAccesses b) {l l' : OpId} (halign : pair.1.Aligns pair.2 l l') :
    f.Exchange a.band b.band l l' := by
  obtain ⟨hreadsA, hwritesA⟩ := bandAccesses_hasAccess hn ha.1 ha.2
  obtain ⟨hreadsB, hwritesB⟩ := bandAccesses_hasAccess hn hb.1 hb.2
  obtain ⟨p, hp, rfl⟩ := List.mem_map.mp hpair
  obtain ⟨hp, hroot⟩ := List.mem_filter.mp hp
  have hsame : p.1.1 = p.2.1 := by simpa using hroot
  rcases List.mem_append.mp hp with hp | hp
  · obtain ⟨w, hw, hp⟩ := List.mem_flatMap.mp hp
    obtain ⟨r, hr, rfl⟩ := List.mem_map.mp hp
    obtain ⟨outer, houter, hx⟩ := hwritesA w hw
    obtain ⟨outer', houter', hy⟩ := hreadsB r hr
    exact ⟨outer, outer', w.1, w.2, r.2, houter, houter', .inl ⟨hx, hsame ▸ hy⟩, halign⟩
  · obtain ⟨r, hr, hp⟩ := List.mem_flatMap.mp hp
    obtain ⟨w, hw, rfl⟩ := List.mem_map.mp hp
    obtain ⟨outer, houter, hx⟩ := hreadsA r hr
    obtain ⟨outer', houter', hy⟩ := hwritesB w hw
    exact ⟨outer, outer', r.1, r.2, w.2, houter, houter', .inr ⟨hx, hsame ▸ hy⟩, halign⟩

/-- **The correlation of two bands** of the function. -/
theorem correlates_of_link? (hn : f.Nested) {a b : BandAccesses}
    (ha : f.Participant a.node ∧ f.bandAccesses a.node = .ok a)
    (hb : f.Participant b.node ∧ f.bandAccesses b.node = .ok b) (hne : a.node ≠ b.node)
    {c : Correlation} (hc : a.link? b = some c) : f.Correlates c a.node b.node a.band b.band := by
  obtain ⟨hbands, forward, hforward, rfl⟩ := BandAccesses.link?_eq_some hc
  have hsound := BandAccesses.matchBands_sound hforward
  have hbetween : (Correlation.ofForward a.node b.node forward b.band.length).Between
      a.node b.node := .inl ⟨rfl, rfl⟩
  have hrange : ∀ i j : Nat, forward[i]? = some (some j) → j < b.band.length := by
    intro i j hij
    obtain ⟨_, _, -, hl', -⟩ := hsound.aligned i j hij
    exact (List.getElem?_eq_some_iff.mp hl').1
  exact
    { between := hbetween
      distinct := hne
      primary := ⟨(bandAccesses_eq_ok ha.2).2, (bandAccesses_eq_ok hb.2).2⟩
      nonempty := hbands
      length := by
        simp [Correlation.mapFrom, Correlation.ofForward, hne.symm,
          BandAccesses.length_matchBands hforward]
      inverse := hbetween.inverse hne (Correlation.inverse_ofForward hsound.oneToOne hrange)
      exchange := fun i j hij => by
        rw [show (Correlation.ofForward a.node b.node forward b.band.length).mapFrom a.node =
          forward from if_pos rfl] at hij
        obtain ⟨l, l', hl, hl', pair, hpair, halign⟩ := hsound.aligned i j hij
        exact ⟨l, l', hl, hl', exchange_of_shared hn ha hb hpair halign⟩ }

/-- **Correlations are partial bijections between bands.**  If every operand has a root, the nodes
of the function are the keys, in order.  A correlation is listed at both of its nodes or at neither,
and at most one for each pair.  It is between two different nodes with loops, its maps have a place
for each loop and are inverse to each other, and a store and a load of one memory are the reason for
each match.  Factors that are carried over and back are unchanged on matched loops and one on the
others. -/
theorem correlations_inverse (audience : Audience) {f : Func} (hf : f.verify = .ok ())
    (hroots : f.Resolves) :
    ∃ (m : Correlations) (nodes : List OpId), f.correlations.Yields audience m
      ∧ f.nodes = .ok nodes ∧ m.map Prod.fst = nodes
      ∧ (∀ a b c, c.Between a b → (c ∈ m.linksOf a ↔ c ∈ m.linksOf b))
      ∧ (∀ a, ((m.linksOf a).map (·.other a)).Nodup)
      ∧ ∀ a, ∀ c ∈ m.linksOf a, ∃ bandA bandB, f.Correlates c a (c.other a) bandA bandB
          ∧ ∀ factors, factors.length = bandA.length →
              (c.carry a factors).length = bandB.length
                ∧ (c.carry (c.other a) (c.carry a factors)).length = bandA.length
                ∧ c.carry (c.other a) (c.carry a factors)
                    = Correlation.kept (c.mapFrom a) factors := by
  have hn := (verify_eq_ok_iff_tidy.mp hf).toNested
  obtain ⟨bands, hbands⟩ : ∃ bands, f.allBandAccesses = .ok bands := by
    cases hbands : f.allBandAccesses with
    | ok bands => exact ⟨bands, rfl⟩
    | error fault =>
      obtain ⟨v, ⟨id, k, hid, hk, hv⟩, hfault⟩ := allBandAccesses_stopsBy hn fault hbands
      obtain ⟨r, hr⟩ := hroots id k hid hk v hv
      rw [hr] at hfault
      cases hfault
  obtain ⟨nodes, hsurvey⟩ := surveyed_of_allBandAccesses hn hbands
  have hyields := hsurvey.correlations_yields audience hbands
  refine ⟨_, nodes, hyields, hsurvey.nodes_eq, Correlations.map_fst_listed _ _,
    fun a b c hab => ?_, hsurvey.nodup_others, fun a c hc => ?_⟩
  · rw [hsurvey.mem_linksOf, hsurvey.mem_linksOf, hab.touches, hab.symm.touches]
  · obtain ⟨hc, htouch⟩ := hsurvey.mem_linksOf.mp hc
    obtain ⟨x, hx, y, hy, hlink, hne, -⟩ := hsurvey.of_mem_linksAmong hc
    have hcorr := correlates_of_link? hn (hsurvey.found x hx) (hsurvey.found y hy) hne hlink
    rcases hcorr.between.eq_of_touches htouch with rfl | rfl
    · rw [hcorr.between.other_eq hcorr.distinct]
      exact ⟨x.band, y.band, hcorr, fun factors hlen => hcorr.carry_carry hlen⟩
    · rw [hcorr.symm.between.other_eq hcorr.symm.distinct]
      exact ⟨y.band, x.band, hcorr.symm, fun factors hlen => hcorr.symm.carry_carry hlen⟩

/-- Whether all operands have roots can be read off the table. -/
theorem resolves_of_all (h : f.ops.toList.all fun op => op.kind.operands.all fun v =>
    (f.root v).toOption.join.isSome) : f.Resolves := by
  intro id k _ hk v hv
  obtain ⟨op, hop, rfl⟩ := Option.map_eq_some_iff.mp hk
  have hmem : op ∈ f.ops.toList := Array.mem_toList_iff.mpr (Array.mem_of_getElem? hop)
  have hroot := List.all_eq_true.mp (List.all_eq_true.mp h op hmem) v hv
  cases hv : f.root v with
  | error fault => simp [hv, Except.toOption] at hroot
  | ok r? =>
    obtain ⟨r, rfl⟩ : ∃ r, r? = some r := by
      simpa [hv, Except.toOption, Option.isSome_iff_exists] using hroot
    exact ⟨r, rfl⟩

/-- A node that fills a buffer tile by tile, and one that reads it through a view. -/
def tiledProducer : Func where
  name := "f"
  arguments := []
  body := [0]
  ops := #[
    { fresh none 0 (.schedule { name := "top", increase := none, decrease := none }) with
      body := [1, 2, 3, 7] },
    fresh (some 0) 1 (.buffer 0 none),
    fresh (some 0) 2 (.view 0 1),
    { fresh (some 0) 3 (.node "produce") with body := [4] },
    { fresh (some 3) 4 (.loop (.plain "i" 0 (some 16) 4)) with body := [5] },
    { fresh (some 4) 5 (.loop { Loop.plain "ii" 0 (some 4) 1 with pointOf := some 4 }) with
      body := [6] },
    fresh (some 5) 6 (.compute ⟨"p", [], [⟨0, [.tiled 4 5]⟩], []⟩),
    { fresh (some 0) 7 (.node "consume") with body := [8] },
    { fresh (some 7) 8 (.loop (.plain "x" 0 (some 16) 1)) with body := [9] },
    fresh (some 8) 9 (.compute ⟨"c", [⟨1, [.iv 8]⟩], [], []⟩)]
  values := #[{ id := 0, name := "T", shape := [16], space := 0, definition := .op 1 },
              { id := 1, name := "V", shape := [16], space := 0, definition := .op 2 }]

/-- It matches the point loop of the one node with the loop of the other. -/
def pointMatch : Correlation := .ofForward 3 7 [none, some 0] 1

/-- The tile loop has no partner: its factor is lost on the way, and that of the point loop is
not. -/
theorem correlations_tiledProducer : tiledProducer.verify = .ok () ∧ tiledProducer.Resolves
    ∧ tiledProducer.correlations.Yields none [(3, [pointMatch]), (7, [pointMatch])]
    ∧ tiledProducer.Correlates pointMatch 3 7 [4, 5] [8]
    ∧ pointMatch.carry 7 (pointMatch.carry 3 [2, 3]) = [1, 3] := by
  have hverify : tiledProducer.verify = .ok () := by decide
  have hroots : tiledProducer.Resolves := resolves_of_all (by decide)
  have hfound : tiledProducer.correlations.Yields none [(3, [pointMatch]), (7, [pointMatch])] :=
    ⟨_, rfl⟩
  obtain ⟨m, nodes, hyields, -, -, -, -, hlinks⟩ := correlations_inverse none hverify hroots
  cases hfound.unique hyields
  obtain ⟨bandA, bandB, hcorr, hcarry⟩ := hlinks 3 pointMatch (by decide)
  have hbands : tiledProducer.primaryBand 3 = .ok [4, 5]
      ∧ tiledProducer.primaryBand (pointMatch.other 3) = .ok [8] := ⟨rfl, rfl⟩
  cases hbands.1.symm.trans hcorr.primary.1
  cases hbands.2.symm.trans hcorr.primary.2
  exact ⟨hverify, hroots, hfound, hcorr, (hcarry [2, 3] rfl).2.2⟩

end Func
end Dataflow
