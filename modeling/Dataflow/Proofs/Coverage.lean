/-
# What unrolling covers

The computes of the innermost body of an unrolled band are replicated for every combination of
lanes, and so cover the turns of the band before.  Nothing else in that body is replicated: what is
nested deeper is executed less often than before.

`Func.Unrolled.total_loses` says so exactly: unrolling executes no instance that was not executed
before, and it executes all of them if and only if every compute that runs inside the innermost
loop stands directly in its body.
-/
import Dataflow.Proofs.Replay
import Dataflow.Proofs.Sweeps

namespace Dataflow

/-! ## 1. Losing instances -/

/-- `Loses lost after before`: nothing is added, and something is missing exactly if `lost`. -/
def Loses (lost : Prop) (after before : Multiset Instance) : Prop :=
  after ≤ before ∧ (after = before ↔ ¬ lost)

namespace Loses

variable {lost lost' : Prop} {after after' before before' : Multiset Instance}

theorem refl (s : Multiset Instance) : Loses False s s := ⟨le_refl s, by simp⟩

theorem congr (h : Loses lost after before) (hiff : lost' ↔ lost) : Loses lost' after before := by
  rw [Loses, hiff]
  exact h

theorem of_add {extra : Multiset Instance} (hextra : extra = 0 ↔ ¬ lost) :
    Loses lost after (after + extra) := by
  refine ⟨Multiset.le_add_right after extra, ?_⟩
  rw [← hextra]
  exact left_eq_add

theorem add (h : Loses lost after before) (h' : Loses lost' after' before') :
    Loses (lost ∨ lost') (after + after') (before + before') := by
  refine ⟨add_le_add h.1 h'.1, ?_⟩
  rw [add_eq_add_iff_eq_and_eq h.1 h'.1, h.2, h'.2, not_or]

theorem bind {α : Type} {part part' : α → Multiset Instance} {lostAt : α → Prop} {s : Multiset α}
    (h : ∀ a ∈ s, Loses (lostAt a) (part a) (part' a)) :
    Loses (∃ a ∈ s, lostAt a) (s.bind part) (s.bind part') := by
  induction s using Multiset.induction with
  | empty => exact (refl 0).congr (by simp)
  | cons a s ih =>
    rw [Multiset.cons_bind, Multiset.cons_bind]
    refine ((h a (Multiset.mem_cons_self a s)).add
      (ih fun b hb => h b (Multiset.mem_cons_of_mem hb))).congr ?_
    simp [or_and_right, exists_or]

end Loses

theorem bind_of_forall₂ {α β γ : Type} {R : α → β → Prop} {part : α → Multiset γ}
    {part' : β → Multiset γ} {l : List α} {l' : List β} (h : List.Forall₂ R l l')
    (hpart : ∀ a b, R a b → part a = part' b) :
    (l : Multiset α).bind part = (l' : Multiset β).bind part' := by
  induction h with
  | nil => rfl
  | cons hab _ ih => rw [← Multiset.cons_coe, ← Multiset.cons_coe, Multiset.cons_bind,
      Multiset.cons_bind, hpart _ _ hab, ih]

namespace Func

variable {f g : Func}

/-! ## 2. Stranded computes -/

/-- **A compute is stranded in a loop** if it runs inside the loop, but not in the loop's own body:
when the loop is unrolled, no replica of it is made. -/
structure Stranded (f : Func) (innermost c : OpId) : Prop where
  runs : f.Runs c
  isCompute : f.IsCompute c
  inside : f.Surrounds innermost c
  notDirect : c ∉ f.bodyOf innermost

/-- To execute the operation is to execute a compute that stands deeper in the loop than its
body. -/
def Strands (f : Func) (innermost id : OpId) : Prop :=
  ∃ c, f.Executes id c ∧ f.IsCompute c ∧ f.Surrounds innermost c ∧ c ∉ f.bodyOf innermost

theorem exists_stranded_iff {innermost : OpId} :
    (∃ c, f.Stranded innermost c) ↔ ∃ top ∈ f.body, f.Strands innermost top := by
  constructor
  · rintro ⟨c, ⟨top, htop, hexec⟩, hc, hin, hout⟩
    exact ⟨top, htop, c, hexec, hc, hin, hout⟩
  · rintro ⟨top, htop, c, hexec, hc, hin, hout⟩
    exact ⟨c, ⟨top, htop, hexec⟩, hc, hin, hout⟩

/-- Outside the loop, a stranded compute is executed through the body. -/
theorem strands_iff {innermost id : OpId} (hout : ¬ f.Surrounds innermost id) :
    f.Strands innermost id ↔ ∃ child, f.Enters id child ∧ f.Strands innermost child := by
  constructor
  · rintro ⟨c, hexec, hc, hin, hdirect⟩
    rcases hexec.cases_head with rfl | ⟨child, henter, hexec⟩
    · exact absurd hin hout
    · exact ⟨child, henter, c, hexec, hc, hin, hdirect⟩
  · rintro ⟨child, henter, c, hexec, hc, hin, hdirect⟩
    exact ⟨c, hexec.head henter, hc, hin, hdirect⟩

/-- What is executed is reached. -/
theorem Reaches.executes {a id : OpId} (ha : f.Reaches a) (hexec : f.Executes a id) :
    f.Reaches id := by
  induction hexec with
  | refl => exact ha
  | tail _ henter ih => exact .nested ih henter.1

theorem Reaches.surrounds_of_executes {a child id : OpId} (ha : f.Reaches a)
    (henter : f.Enters a child) (hexec : f.Executes child id) : f.Surrounds a id := by
  induction hexec with
  | refl => exact .single ⟨ha, henter.1⟩
  | tail hexec henter' ih =>
    exact ih.tail ⟨(Reaches.nested ha henter.1).executes hexec, henter'.1⟩

namespace Nested

theorem surrounds_child (h : f.Nested) {a owner id : OpId} (howner : f.Reaches owner)
    (hid : id ∈ f.bodyOf owner) : f.Surrounds a id ↔ a = owner ∨ f.Surrounds a owner := by
  constructor
  · intro hs
    obtain ⟨owner', hup, hholds⟩ := Relation.TransGen.tail'_iff.mp hs
    have heq : some owner' = some owner :=
      (h.isParent_of_holds hholds).symm.trans (h.parentOf_nested owner howner id hid)
    cases heq
    rcases Relation.reflTransGen_iff_eq_or_transGen.mp hup with rfl | hup
    · exact .inl rfl
    · exact .inr hup
  · rintro (rfl | hs)
    · exact .single ⟨howner, hid⟩
    · exact hs.tail ⟨howner, hid⟩

theorem not_surrounds_self (h : f.Nested) {id : OpId} (hid : f.Reaches id) :
    ¬ f.Surrounds id id := fun hs =>
  h.not_transGen_self hid (Relation.TransGen.mono (fun _ _ => h.isParent_of_holds) _ _ hs)

/-- In the body of the loop, everything busy further down is stranded. -/
theorem strands_body_iff (h : f.Nested) {innermost x : OpId} (hinner : f.Reaches innermost)
    (hx : x ∈ f.bodyOf innermost) :
    f.Strands innermost x ↔ ∃ child, f.Enters x child ∧ f.Busy child := by
  have hreach : f.Reaches x := .nested hinner hx
  constructor
  · rintro ⟨c, hexec, hc, -, hdirect⟩
    rcases hexec.cases_head with rfl | ⟨child, henter, hexec⟩
    · exact absurd hx hdirect
    · exact ⟨child, henter, c, hexec, hc⟩
  · rintro ⟨child, henter, c, hexec, hc⟩
    have hin : f.Surrounds x c := hreach.surrounds_of_executes henter hexec
    refine ⟨c, hexec.head henter, hc, hin.head ⟨hinner, hx⟩, fun hdirect => ?_⟩
    rcases (h.surrounds_child hinner hdirect).mp hin with rfl | hin
    · exact h.not_above_owner hinner hx .refl
    · exact h.not_above_owner hinner hx (h.above_of_surrounds hin)

end Nested

/-! ## 3. Work of a band -/

theorem own_of_isLoop {id : OpId} (hloop : f.IsLoop id) (env : Env) : f.own id env = 0 := by
  rw [own_eq_zero_iff]
  rintro ⟨c, hc⟩
  obtain ⟨l, hl⟩ := hloop
  rw [hc] at hl
  cases hl

/-- **The work of a perfect nest** is that of its innermost body, in all its turns. -/
theorem PerfectNest.work_eq (h : f.Nested) {innermost : OpId} : ∀ {first : OpId} {band : Band},
    f.PerfectNest (first :: band) → (first :: band).getLast? = some innermost → ∀ env,
    f.work env first = (f.sweep (first :: band) env).bind fun e =>
      (f.bodyOf innermost : Multiset OpId).bind (f.work e)
  | first, [], hband, hlast, env => by
    obtain rfl : first = innermost := by simpa using hlast
    rw [h.work_eq (hband.reaches first List.mem_cons_self),
      own_of_isLoop (hband.isLoop first List.mem_cons_self), zero_add]
    simp only [sweep, Multiset.bind_assoc, Multiset.singleton_bind]
    rfl
  | first, second :: band, hband, hlast, env => by
    rw [List.getLast?_cons_cons] at hlast
    rw [h.work_eq (hband.reaches first List.mem_cons_self),
      own_of_isLoop (hband.isLoop first List.mem_cons_self), zero_add, inner, hband.bodyOf_head,
      sweep, Multiset.bind_assoc]
    refine Multiset.bind_congr fun e _ => ?_
    rw [Multiset.coe_singleton, Multiset.singleton_bind]
    exact work_eq h hband.tail hlast e

/-- Outside the loop, a stranded compute is executed in a turn of the body. -/
theorem Nested.strands_iff_turns (h : f.Nested) (hs : f.StaticBounds) {innermost id : OpId}
    (hid : f.Reaches id) (hout : ¬ f.Surrounds innermost id) (env : Env) :
    f.Strands innermost id ↔
      ∃ e ∈ f.turns id env, ∃ child ∈ f.bodyOf id, f.Strands innermost child := by
  have hturn : (∃ e, e ∈ f.turns id env) ↔ f.Iterates id := by
    rw [← not_iff_not, ← hs.turns_eq_zero_iff hid (h.live id hid) env,
      Multiset.eq_zero_iff_forall_notMem, not_exists]
  rw [Func.strands_iff hout]
  constructor
  · rintro ⟨child, ⟨hchild, hiter⟩, hstrands⟩
    obtain ⟨e, he⟩ := hturn.mpr hiter
    exact ⟨e, he, child, hchild, hstrands⟩
  · rintro ⟨e, he, child, hchild, hstrands⟩
    exact ⟨child, ⟨hchild, hturn.mp ⟨e, he⟩⟩, hstrands⟩

/-- No loop of a perfect nest is inside the innermost one. -/
theorem PerfectNest.not_surrounds (h : f.Nested) {innermost : OpId} {band : Band}
    (hband : f.PerfectNest band) (hlast : band.getLast? = some innermost) :
    ∀ id ∈ band, ¬ f.Surrounds innermost id := by
  intro id hid hs
  have hinner : f.Reaches innermost := hband.reaches innermost (List.mem_of_getLast? hlast)
  obtain rfl := h.above_antisymm hinner (hband.above_last h hlast id hid) (h.above_of_surrounds hs)
  exact h.not_surrounds_self hinner hs

/-- What the innermost loop holds is not in the nest. -/
theorem PerfectNest.not_mem_body (h : f.Nested) {innermost : OpId} {band : Band}
    (hband : f.PerfectNest band) (hlast : band.getLast? = some innermost) :
    ∀ id ∈ f.bodyOf innermost, id ∉ band := fun id hid hmem =>
  hband.not_surrounds h hlast id hmem
    (.single ⟨hband.reaches innermost (List.mem_of_getLast? hlast), hid⟩)

/-- A perfect nest executes a stranded compute exactly if its body does, and the body has a turn. -/
theorem PerfectNest.strands_iff (h : f.Nested) (hs : f.StaticBounds) {innermost : OpId} :
    ∀ {first : OpId} {band : Band}, f.PerfectNest (first :: band) →
    (first :: band).getLast? = some innermost → ∀ env,
    (f.Strands innermost first ↔
      ∃ e ∈ f.sweep (first :: band) env, ∃ x ∈ f.bodyOf innermost, f.Strands innermost x)
  | first, [], hband, hlast, env => by
    have hout := hband.not_surrounds h hlast first List.mem_cons_self
    obtain rfl : first = innermost := by simpa using hlast
    rw [h.strands_iff_turns hs (hband.reaches first List.mem_cons_self) hout env]
    simp [sweep]
  | first, second :: band, hband, hlast, env => by
    have hout := hband.not_surrounds h hlast first List.mem_cons_self
    rw [List.getLast?_cons_cons] at hlast
    rw [h.strands_iff_turns hs (hband.reaches first List.mem_cons_self) hout env, hband.bodyOf_head]
    have ih := strands_iff h hs hband.tail hlast
    constructor
    · rintro ⟨e, he, child, hchild, hstrands⟩
      rw [List.mem_singleton] at hchild
      subst hchild
      obtain ⟨e', he', hx⟩ := (ih e).mp hstrands
      exact ⟨e', Multiset.mem_bind.mpr ⟨e, he, he'⟩, hx⟩
    · rintro ⟨e', he', hx⟩
      obtain ⟨e, he, he'⟩ := Multiset.mem_bind.mp he'
      exact ⟨e, he, second, List.mem_singleton_self second, (ih e).mpr ⟨e', he', hx⟩⟩

/-! ## 4. The unrolled function -/

/-- Unrolling the band multiplies no step past the largest signed word. -/
def StepsFit (f : Func) (band : Band) (factors : List Nat) : Prop :=
  ∀ p ∈ band.zip factors, ∀ l, f.kindOf p.1 = some (.loop l) →
    l.step * (clampFactor p.2 l.tripCount : Nat) ≤ intMax

theorem StepsFit.lanes {band : Band} {factors : List Nat} (h : f.StepsFit band factors) :
    ∀ lane ∈ f.lanesOf band factors, lane.Fits := by
  intro lane hlane
  obtain ⟨p, hp, hlane⟩ := List.mem_filterMap.mp hlane
  obtain ⟨l, hl, -, rfl⟩ := laneOf_eq_some hlane
  exact h p hp l hl

theorem loop_of_laneOf {id : OpId} {factor : Nat} {lane : Lane}
    (h : f.laneOf id factor = some lane) : lane.loop = id := by
  obtain ⟨l, -, -, rfl⟩ := laneOf_eq_some h
  rfl

/-- The lane that the lanes of a band have for one of its loops. -/
theorem find?_lane (f : Func) {id : OpId} {factor : Nat} : ∀ {places : List (OpId × Nat)},
    (places.map Prod.fst).Nodup → (id, factor) ∈ places →
    (places.filterMap fun e => f.laneOf e.1 e.2).find? (fun lane => lane.loop == id)
      = f.laneOf id factor
  | [], _, hmem => by cases hmem
  | p :: places, hnd, hmem => by
    obtain ⟨hout, hnd⟩ := List.nodup_cons.mp hnd
    rcases List.mem_cons.mp hmem with rfl | hmem
    · have hrest : (places.filterMap fun e => f.laneOf e.1 e.2).find? (fun lane => lane.loop == id)
          = none := by
        rw [List.find?_eq_none]
        intro lane hlane heq
        obtain ⟨e, he, hlane⟩ := List.mem_filterMap.mp hlane
        rw [beq_iff_eq, loop_of_laneOf hlane] at heq
        subst heq
        exact hout (List.mem_map.mpr ⟨e, he, rfl⟩)
      cases hlane : f.laneOf id factor with
      | none => simp only [List.filterMap_cons, hlane, hrest]
      | some lane =>
        simp only [List.filterMap_cons, hlane]
        exact List.find?_cons_of_pos (beq_iff_eq.mpr (loop_of_laneOf hlane))
    · have hne : p.1 ≠ id := fun heq => hout (heq ▸ List.mem_map_of_mem hmem)
      have ih := find?_lane f hnd hmem
      cases hlane : f.laneOf p.1 p.2 with
      | none => simp only [List.filterMap_cons, hlane, ih]
      | some lane =>
        simp only [List.filterMap_cons, hlane]
        rw [List.find?_cons_of_neg, ih]
        simpa [loop_of_laneOf hlane] using hne

namespace Unrolled

variable {innermost : OpId} {lanes : List Lane} {mark : Nat → Mark} {groups : Groups}

/-- An operation without a lane stays what it was. -/
theorem kindOf_same (h : f.Unrolled innermost lanes mark groups g) {id : OpId}
    (hid : id < f.ops.size) (hlane : ∀ lane ∈ lanes, lane.loop ≠ id) :
    g.kindOf id = f.kindOf id := by
  obtain ⟨op, hop⟩ := exists_op_of_lt hid
  rw [h.kindOf_old (kindOf_eq hop), widening_eq_none mark hlane, kindOf_eq hop]
  rfl

/-- A band loop is widened if it has a lane. -/
theorem kindOf_band {band : Band} {factors : List Nat}
    (h : f.Unrolled innermost (f.lanesOf band factors) mark groups g) (hnd : band.Nodup)
    (hlen : band.length = factors.length) {p : OpId × Nat} (hp : p ∈ band.zip factors) {l : Loop}
    (hl : f.kindOf p.1 = some (.loop l)) : g.kindOf p.1 =
      some (.loop (((f.laneOf p.1 p.2).map fun lane => lane.widen mark).getD id l)) := by
  have hfst : ((band.zip factors).map Prod.fst).Nodup := by
    rw [List.map_fst_zip (Nat.le_of_eq hlen)]
    exact hnd
  rw [h.kindOf_old hl, widening, lanesOf, find?_lane f hfst hp, changeLoop_loop]

/-- **A band loop is covered by its widened form.** -/
theorem covers {band : Band} {factors : List Nat}
    (h : f.Unrolled innermost (f.lanesOf band factors) mark groups g) (hf : f.Tidy)
    (hs : f.StaticBounds) (hband : f.PerfectNest band) (hlen : band.length = factors.length)
    (hfit : ∀ lane ∈ f.lanesOf band factors, lane.Fits) {p : OpId × Nat}
    (hp : p ∈ band.zip factors) : f.Covers g p.1 (f.laneOf p.1 p.2).toList := by
  have hmem : p.1 ∈ band := (List.of_mem_zip hp).1
  obtain ⟨l, hl⟩ := hband.isLoop p.1 hmem
  have hreach := hband.reaches p.1 hmem
  obtain ⟨op, hop, hkind⟩ := Option.map_eq_some_iff.mp hl
  have hstep : 0 < l.step := ((hf.mentions p.1 op hreach hop).loop l hkind).1
  obtain ⟨upper, hupper⟩ := Option.isSome_iff_exists.mp (hs p.1 l hreach hl)
  have hg := h.kindOf_band (hband.nodup hf.toNested) hlen hp hl
  cases hlane : f.laneOf p.1 p.2 with
  | none =>
    rw [hlane] at hg
    exact covers_nil (hg.trans hl.symm)
  | some lane =>
    have hfit := hfit lane (List.mem_filterMap.mpr ⟨p, hp, hlane⟩)
    obtain ⟨l', hl', hfactor, rfl⟩ := laneOf_eq_some hlane
    rw [hl] at hl'
    cases hl'
    rw [hlane] at hg
    refine covers_lane ⟨p.1, _, _⟩ hl hg rfl hupper hstep (fun n hn => ?_) hfit
    simp only [hn] at hfactor ⊢
    exact ⟨hfactor, clampFactor_dvd hfactor⟩

/-- Below the innermost loop nothing changes. -/
theorem work_below (h : f.Unrolled innermost lanes mark groups g) (hn : f.Nested)
    (hinner : f.Reaches innermost) (hlanes : ∀ lane ∈ lanes, f.Above lane.loop innermost) :
    ∀ id, f.Reaches id → f.Surrounds innermost id → ∀ env, g.work env id = f.work env id := by
  refine hn.downward fun id hid ih hin env => ?_
  have hlane : ∀ lane ∈ lanes, lane.loop ≠ id := fun lane hmem heq => by
    obtain rfl := hn.above_antisymm hinner (heq ▸ hlanes lane hmem) (hn.above_of_surrounds hin)
    exact hn.not_surrounds_self hinner hin
  have hne : id ≠ innermost := fun heq => hn.not_surrounds_self hinner (heq ▸ hin)
  have hkind : g.kindOf id = f.kindOf id := h.kindOf_same (hn.lt_size hid) hlane
  rw [(h.nested hn hinner).work_eq (h.reaches_old hn hid), hn.work_eq hid, own_congr hkind, inner,
    inner, turns_congr hkind, h.bodyOf_old (hn.lt_size hid) hne]
  refine congrArg _ (Multiset.bind_congr fun e _ => Multiset.bind_congr fun child hchild => ?_)
  rw [Multiset.mem_coe] at hchild
  exact ih child hchild (hin.tail ⟨hid, hchild⟩) e

theorem reaches_replica (h : f.Unrolled innermost lanes mark groups g) (hn : f.Nested)
    (hinner : f.Reaches innermost) {e : OpId × List OpId} (he : e ∈ groups) {r : OpId}
    (hr : r ∈ e.2) : g.Reaches r := by
  refine .nested (h.reaches_old hn hinner) ?_
  rw [h.bodyOf_innermost (hn.lt_size hinner)]
  exact h.mem_block.mpr (.inr ⟨e, he, hr⟩)

/-- The replicas of an operation are the operation in all combinations of lanes but the first. -/
theorem work_replicas (h : f.Unrolled innermost lanes mark groups g) (hn : f.Nested)
    (hinner : f.Reaches innermost) {e : OpId × List OpId} (he : e ∈ groups) (env : Env) :
    (e.2 : Multiset OpId).bind (g.work env) =
      (laneOffsets lanes : Multiset _).bind fun more => f.own e.1 (shift more env) := by
  have hreplica : ∀ r ∈ e.2, g.work env r = g.own r env := fun r hr => by
    rw [(h.nested hn hinner).work_eq (h.reaches_replica hn hinner he hr), inner,
      h.bodyOf_replica he hr]
    simp
  have hkinds : (e.2 : Multiset OpId).bind (g.work env) =
      (f.replicasOf (laneOffsets lanes) e.1 : Multiset Kind).bind
        fun k => (k.own env : List _) := by
    rw [Multiset.bind_congr fun r hr => hreplica r (Multiset.mem_coe.mp hr)]
    exact bind_of_forall₂ (h.replicas e he) fun r kind hr => own_of_kindOf (kindOf_eq hr) env
  rw [hkinds, replicasOf]
  cases hc : (f.kindOf e.1).bind Kind.compute? with
  | none =>
    have hnot : ¬ f.IsCompute e.1 := by
      rintro ⟨c, hk⟩
      rw [hk] at hc
      cases hc
    have hown : ∀ more, f.own e.1 (shift more env) = 0 := fun _ => own_eq_zero_iff.mpr hnot
    simp [hown]
  | some c =>
    obtain ⟨k, hk, hkc⟩ := Option.bind_eq_some_iff.mp hc
    obtain rfl := Kind.eq_compute_of_compute? hkc
    simp only [replicaKinds, ← Multiset.map_coe, Multiset.bind_map, own_of_kindOf hk, Kind.own,
      Compute.instanceAt_append_lanes]

/-- **What the new innermost body executes**: of each operation of the old body its own instance
in all combinations of lanes, but what is nested in it only once. -/
theorem work_block (h : f.Unrolled innermost lanes mark groups g) (hn : f.Nested)
    (hinner : f.Reaches innermost) (hlanes : ∀ lane ∈ lanes, f.Above lane.loop innermost)
    (hfactors : ∀ lane ∈ lanes, 0 < lane.factor) (env : Env) :
    (groups.block : Multiset OpId).bind (g.work env) =
      (f.bodyOf innermost : Multiset OpId).bind fun x =>
        ((combinationsFrom lanes : Multiset _).bind fun more => f.own x (shift more env)) +
          f.inner x env := by
  rw [← h.originals, Groups.block, ← Multiset.coe_bind, ← Multiset.map_coe, Multiset.bind_map,
    Multiset.bind_assoc]
  refine Multiset.bind_congr fun e he => ?_
  rw [Multiset.mem_coe] at he
  have hx : e.1 ∈ f.bodyOf innermost := h.originals ▸ List.mem_map_of_mem he
  rw [← Multiset.cons_coe, Multiset.cons_bind, h.work_replicas hn hinner he,
    h.work_below hn hinner hlanes e.1 (.nested hinner hx) (.single ⟨hinner, hx⟩),
    hn.work_eq (.nested hinner hx), combinationsFrom_eq_cons hfactors, ← Multiset.cons_coe,
    Multiset.cons_bind, shift_nil]
  exact add_right_comm _ _ _

/-- What one operation of the innermost body loses in one turn of the unrolled band. -/
theorem loses_nested (hs : f.StaticBounds) (hn : f.Nested) (hne : lanes ≠ [])
    (hfactors : ∀ lane ∈ lanes, 1 < lane.factor) (hinner : f.Reaches innermost) {x : OpId}
    (hx : x ∈ f.bodyOf innermost) (env : Env) :
    Loses (f.Strands innermost x)
      (((combinationsFrom lanes : Multiset _).bind fun more => f.own x (shift more env)) +
        f.inner x env)
      ((combinationsFrom lanes : Multiset _).bind fun more => f.work (shift more env) x) := by
  have hreach : f.Reaches x := .nested hinner hx
  have hpos : ∀ lane ∈ lanes, 0 < lane.factor := fun lane hlane =>
    Nat.lt_of_succ_lt (hfactors lane hlane)
  have hinnerSum : ((combinationsFrom lanes : Multiset _).bind fun more =>
      f.inner x (shift more env)) = f.inner x env +
        (laneOffsets lanes : Multiset _).bind fun more => f.inner x (shift more env) := by
    rw [combinationsFrom_eq_cons hpos, ← Multiset.cons_coe, Multiset.cons_bind, shift_nil]
  rw [Multiset.bind_congr fun more _ => hn.work_eq hreach (shift more env), Multiset.bind_add,
    hinnerSum, ← add_assoc]
  refine .of_add ?_
  -- What is missing is the nested work in the lanes that run ahead, and there is such a lane.
  obtain ⟨ahead, hahead⟩ := List.exists_mem_of_ne_nil _ (laneOffsets_ne_nil hne hfactors)
  have hzero : ∀ env, f.inner x env = 0 ↔ ¬ f.Strands innermost x := fun env => by
    rw [hs.inner_eq_zero_iff hn hreach fun child hchild =>
      hs.work_eq_zero_iff hn child (.nested hreach hchild), hn.strands_body_iff hinner hx,
      not_exists]
    exact forall_congr' fun child => not_and.symm
  simp only [bind_eq_zero_iff, Multiset.mem_coe, hzero]
  exact ⟨fun h => h ahead hahead, fun h _ _ => h⟩

/-- The band is still a perfect nest. -/
theorem perfectNest (h : f.Unrolled innermost lanes mark groups g) (hn : f.Nested) {band : Band}
    (hband : f.PerfectNest band) (hlast : band.getLast? = some innermost) : g.PerfectNest band where
  reaches := fun id hid => h.reaches_old hn (hband.reaches id hid)
  isLoop := fun id hid => h.isLoop_old (hband.isLoop id hid)
  chain := hband.chain.imp_of_mem_imp fun outer inner houter hinner hbody => by
    have hmem : inner ∈ f.bodyOf outer := by rw [hbody]; exact List.mem_singleton_self inner
    have hne : outer ≠ innermost := fun heq =>
      hband.not_mem_body hn hlast inner (heq ▸ hmem) hinner
    rw [h.bodyOf_old (hn.lt_size (hband.reaches outer houter)) hne]
    exact hbody

end Unrolled

/-! ## 5. One band -/

/-- `f.Widening band factors innermost g`: a function in order with known bounds has become `g` by
unrolling a band, with some loop widened and no step out of range. -/
structure Widening (f : Func) (band : Band) (factors : List Nat) (innermost : OpId) (g : Func) :
    Prop where
  tidy : f.Tidy
  staticBounds : f.StaticBounds
  nest : f.PerfectNest band
  last : band.getLast? = some innermost
  lengths : band.length = factors.length
  lanes : f.lanesOf band factors ≠ []
  fits : ∀ lane ∈ f.lanesOf band factors, lane.Fits
  unrolled : ∃ mark groups, f.Unrolled innermost (f.lanesOf band factors) mark groups g

namespace Widening

variable {band : Band} {factors : List Nat} {innermost : OpId}

theorem reaches_innermost (w : f.Widening band factors innermost g) : f.Reaches innermost :=
  w.nest.reaches innermost (List.mem_of_getLast? w.last)

theorem above_innermost (w : f.Widening band factors innermost g) :
    ∀ lane ∈ f.lanesOf band factors, f.Above lane.loop innermost := fun lane hlane =>
  w.nest.above_last w.tidy.toNested w.last lane.loop
    ((map_loop_lanesOf_sublist f band factors).subset (List.mem_map_of_mem hlane))

/-- The turns of the band are those of the widened band in all combinations of lanes. -/
theorem sweep_eq (w : f.Widening band factors innermost g) (env : Env) :
    f.sweep band env = (g.sweep band env).bind fun e =>
      ((combinationsFrom (f.lanesOf band factors)).map (shift · e) : List Env) := by
  obtain ⟨mark, groups, hu⟩ := w.unrolled
  have hmap : (band.zip factors).map Prod.fst = band := List.map_fst_zip (Nat.le_of_eq w.lengths)
  have hlanes : f.lanesOf band factors =
      (band.zip factors).flatMap fun p => (f.laneOf p.1 p.2).toList := by
    rw [lanesOf, List.filterMap_eq_flatMap_toList]
  have hnd : ((band.zip factors).map Prod.fst).Nodup := by
    rw [hmap]
    exact w.nest.nodup w.tidy.toNested
  have hcovers := sweep_covers (fun p => (f.laneOf p.1 p.2).toList) hnd fun p hp =>
    ⟨hu.covers w.tidy w.staticBounds w.nest w.lengths w.fits hp, fun lane hlane =>
      loop_of_laneOf (Option.mem_toList.mp hlane)⟩
  rw [hmap, ← hlanes] at hcovers
  exact hcovers env

/-- **What a widened band loses**: the nested work of its innermost body, if there is any. -/
theorem band_loses (w : f.Widening band factors innermost g) {first : OpId}
    (hfirst : band.head? = some first) (env : Env) :
    Loses (f.Strands innermost first) (g.work env first) (f.work env first) := by
  obtain ⟨mark, groups, hu⟩ := w.unrolled
  have hn := w.tidy.toNested
  have hinner := w.reaches_innermost
  obtain ⟨rest, rfl⟩ : ∃ rest, band = first :: rest := List.head?_eq_some_iff.mp hfirst
  have hg : g.Nested := hu.nested hn hinner
  have hpos : ∀ lane ∈ f.lanesOf (first :: rest) factors, 0 < lane.factor := fun lane hlane =>
    Nat.lt_of_succ_lt (lanesOf_factor lane hlane)
  rw [(hu.perfectNest hn w.nest w.last).work_eq hg w.last, w.nest.work_eq hn w.last, w.sweep_eq,
    Multiset.bind_assoc, hu.bodyOf_innermost (hn.lt_size hinner)]
  have hturn : ∀ e ∈ g.sweep (first :: rest) env, Loses (∃ x ∈ f.bodyOf innermost,
      f.Strands innermost x) ((groups.block : Multiset OpId).bind (g.work e))
      (((combinationsFrom (f.lanesOf (first :: rest) factors)).map (shift · e) : Multiset Env).bind
        fun e' => (f.bodyOf innermost : Multiset OpId).bind (f.work e')) := fun e _ => by
    rw [hu.work_block hn hinner w.above_innermost hpos, ← Multiset.map_coe, Multiset.bind_map,
      Multiset.bind_bind]
    exact .bind fun x hx =>
      Unrolled.loses_nested w.staticBounds hn w.lanes lanesOf_factor hinner
        (Multiset.mem_coe.mp hx) e
  refine (Loses.bind hturn).congr ?_
  rw [w.nest.strands_iff hn w.staticBounds w.last env, w.sweep_eq]
  constructor
  · rintro ⟨e', he', hx⟩
    obtain ⟨e, he, -⟩ := Multiset.mem_bind.mp he'
    exact ⟨e, he, hx⟩
  · rintro ⟨e, he, hx⟩
    refine ⟨shift [] e, Multiset.mem_bind.mpr ⟨e, he, ?_⟩, hx⟩
    rw [combinationsFrom_eq_cons hpos]
    exact List.mem_cons_self

/-- Outside the band an operation loses what it executes of the band. -/
theorem work_loses (w : f.Widening band factors innermost g) {first : OpId}
    (hfirst : band.head? = some first) : ∀ id, f.Reaches id → ¬ f.Surrounds first id → ∀ env,
    Loses (f.Strands innermost id) (g.work env id) (f.work env id) := by
  obtain ⟨mark, groups, hu⟩ := w.unrolled
  have hn := w.tidy.toNested
  have hinner := w.reaches_innermost
  have hmem : first ∈ band := List.mem_of_head? hfirst
  have hreach : f.Reaches first := w.nest.reaches first hmem
  -- The loops of the band other than the first are inside the first.
  have hinside : ∀ id ∈ band, id ≠ first → f.Surrounds first id := fun id hid hne => by
    obtain ⟨rest, rfl⟩ := List.head?_eq_some_iff.mp hfirst
    exact hn.surrounds_of_above (w.nest.reaches id hid) (Ne.symm hne)
      (w.nest.above_of_head hn id hid)
  refine hn.downward fun id hid ih hout env => ?_
  by_cases heq : id = first
  · subst heq
    exact w.band_loses hfirst env
  have hnot : id ∉ band := fun hband => hout (hinside id hband heq)
  have hne : id ≠ innermost := fun heq => hnot (heq ▸ List.mem_of_getLast? w.last)
  have hkind : g.kindOf id = f.kindOf id := hu.kindOf_same (hn.lt_size hid) fun lane hlane heq =>
    hnot (heq ▸ loop_mem_of_mem_lanesOf hlane)
  rw [(hu.nested hn hinner).work_eq (hu.reaches_old hn hid), hn.work_eq hid, own_congr hkind, inner,
    inner, turns_congr hkind, hu.bodyOf_old (hn.lt_size hid) hne]
  have hchildren : ∀ child ∈ f.bodyOf id, ¬ f.Surrounds first child := fun child hchild hin => by
    rcases (hn.surrounds_child hid hchild).mp hin with rfl | hin
    · exact heq rfl
    · exact hout hin
  refine ((Loses.refl _).add (.bind fun e _ => .bind fun child hchild =>
    ih child (Multiset.mem_coe.mp hchild)
      (hchildren child (Multiset.mem_coe.mp hchild)) e)).congr ?_
  have houter : ¬ f.Surrounds innermost id := fun hin => by
    by_cases hsame : innermost = first
    · exact hout (hsame ▸ hin)
    · exact hout ((hinside innermost (List.mem_of_getLast? w.last) hsame).trans hin)
  rw [hn.strands_iff_turns w.staticBounds hid houter env, false_or]
  rfl

/-- **What unrolling a band loses**: it adds no instance, and keeps all of them if and only if no
compute is stranded in the innermost loop. -/
theorem total_loses (w : f.Widening band factors innermost g) :
    Loses (∃ c, f.Stranded innermost c) g.total f.total := by
  obtain ⟨mark, groups, hu⟩ := w.unrolled
  have hn := w.tidy.toNested
  obtain ⟨first, hfirst⟩ : ∃ first, band.head? = some first := by
    have hlast := w.last
    cases band with
    | nil => cases hlast
    | cons first rest => exact ⟨first, rfl⟩
  have htop : ∀ top ∈ f.body, ¬ f.Surrounds first top := fun top htop hin => by
    obtain ⟨owner, -, hholds⟩ := Relation.TransGen.tail'_iff.mp hin
    have hparent := hn.isParent_of_holds hholds
    rw [IsParent, hn.parentOf_top top htop] at hparent
    cases hparent
  rw [total_eq, total_eq, hu.body]
  refine (Loses.bind fun top hmem => ?_).congr exists_stranded_iff
  rw [Multiset.mem_coe] at hmem
  exact w.work_loses hfirst top (.top hmem) (htop top hmem) _

end Widening

end Func
end Dataflow
