/-
# Steps that outgrow a word

Unrolling multiplies the step of a loop by the number of its lanes, and the offset of a lane is a
multiple of the step.  Both products are held at the largest word.  A loop may run from one end of
the words to the other, so a product can be held although the loop has iterations for every lane:
the widened loop then takes more turns than it should, and several lanes start at one offset.

This file says exactly when that happens.  The trip count is divided by the number of lanes just
if the widened step is a word, or if the turns that are left get past the bound in steps of the
largest word (`Loop.tripCount_held`).  The offsets are the multiples of the step just if the last
of them is a word (`Loop.offsets_exact_iff`).  Both hold if the bounds of the loop are at most the
largest word apart (`Loop.scales_of_span`).
-/
import Dataflow.Proofs.Aftermath
import Dataflow.Proofs.ExactCover

namespace Dataflow

/-! ## 1. Products held at the largest word -/

theorem satMulInt_eq_min {a b : Int} (ha : 0 ≤ a) (hb : 0 ≤ b) :
    satMulInt a b = min (a * b) intMax := by
  have hmul : 0 ≤ a * b := Int.mul_nonneg ha hb
  simp only [satMulInt, clampInt, intMin, intMax]
  omega

namespace Loop

variable {l wide : Loop} {upper : Int} {blocks size T q : Nat}

/-- **When a held step gives the right trip count.**  A loop whose step is multiplied by `size` and
held at the largest word takes one turn in `size`, or more: exactly that many if the product is a
word, or if the turns get past the bound in steps of the largest word. -/
theorem tripCount_held (hupper : l.upper = some upper) (hn : l.tripCount = some (blocks * size))
    (hblocks : 0 < blocks) (hsize : 0 < size) (hlower : wide.lower = l.lower)
    (hwide : wide.upper = l.upper) (hstep : wide.step = min (l.step * size) intMax) :
    ∃ n, wide.tripCount = some n ∧ blocks ≤ n ∧
      (n = blocks ↔ l.step * size ≤ intMax ∨ upper - l.lower ≤ blocks * intMax) := by
  have hpos := step_pos_of_tripCount hn
  have hproduct : 0 < l.step * size := Int.mul_pos hpos (Int.natCast_pos.mpr hsize)
  have hmax : 0 < intMax := by decide
  have hwpos : 0 < wide.step := by omega
  have hwupper := hwide.trans hupper
  obtain ⟨n, hcount⟩ := tripCount_isSome hwupper hwpos
  have hturn := lt_tripCount hwupper hwpos hcount
  have hold := lt_tripCount hupper hpos hn
  -- The widened loop gets no further in a turn than the loop in `size` turns.
  have hreach : ∀ k : Nat, l.lower + ((k * size : Nat) : Int) * l.step =
      wide.lower + k * (l.step * size) := by
    intro k
    rw [hlower, Int.natCast_mul, Int.mul_assoc, Int.mul_comm (size : Int)]
  have hle : blocks ≤ n := by
    obtain ⟨before, rfl⟩ : ∃ before, blocks = before + 1 := ⟨blocks - 1, by omega⟩
    refine (hturn before).mpr ?_
    have hlast := (hold (before * size)).mp (Nat.mul_lt_mul_of_pos_right before.lt_succ_self hsize)
    rw [hreach] at hlast
    have hshort : (before : Int) * wide.step ≤ before * (l.step * size) :=
      Int.mul_le_mul_of_nonneg_left (by omega) (Int.natCast_nonneg before)
    omega
  have hend : n = blocks ↔ upper - l.lower ≤ blocks * wide.step := by
    have hnext := hturn blocks
    rw [hlower] at hnext
    omega
  refine ⟨n, hcount, hle, hend.trans ?_⟩
  by_cases hword : l.step * size ≤ intMax
  · -- The product is a word, so the turns of the two loops line up.
    have hover := mt (hold (blocks * size)).mpr (Nat.lt_irrefl _)
    rw [hreach, hlower] at hover
    rw [hstep, Int.min_eq_left hword]
    exact ⟨fun _ => .inl hword, fun _ => by omega⟩
  · rw [hstep, Int.min_eq_right (by omega)]
    exact ⟨.inr, fun h => h.resolve_left hword⟩

/-! ## 2. A loop with lanes -/

/-- `l.Scales l' T q recorded`: the loop `l` of trip count `T` has become `l'` with `q` lanes, whose
offsets are the recorded ones, and nothing is lost to the range of words. -/
structure Scales (l l' : Loop) (T q : Nat) (recorded : Int → Prop) : Prop where
  trips : l'.tripCount = some (T / q)
  offsets : ∀ d, recorded d ↔ ∃ k : Nat, 0 < k ∧ k < q ∧ d = k * l.step

/-- `l.Held l' T q recorded`: the loop `l` of trip count `T` has become `l'` with `q` lanes, whose
offsets are the recorded ones, with its step and the offsets held at the largest word. -/
structure Held (l l' : Loop) (T q : Nat) (recorded : Int → Prop) : Prop where
  lower : l'.lower = l.lower
  upper : l'.upper = l.upper
  step : l'.step = if q = 1 then l.step else min (l.step * q) intMax
  offsets : ∀ d, recorded d ↔ ∃ k : Nat, 0 < k ∧ k < q ∧ d = min (k * l.step) intMax

/-- Only the offset of a further lane can be too large. -/
theorem lanes_of_not_le {step : Int} (h : ¬ ((q - 1 : Nat) : Int) * step ≤ intMax) : 0 < q - 1 := by
  by_contra hfew
  have hzero : q - 1 = 0 := by omega
  rw [hzero, Int.natCast_zero, Int.zero_mul] at h
  exact h (by decide)

section Held

variable {l' : Loop} {recorded : Int → Prop} (h : l.Held l' T q recorded)
  (hupper : l.upper = some upper) (hn : l.tripCount = some T) (hT : 0 < T) (hq : 0 < q)

include h hupper hn hT hq

theorem trips_exact_iff (hdvd : q ∣ T) : ∃ n, l'.tripCount = some n ∧ T / q ≤ n ∧
    (n = T / q ↔ q = 1 ∨ l.step * q ≤ intMax ∨ upper - l.lower ≤ (T / q : Nat) * intMax) := by
  by_cases hone : q = 1
  · subst hone
    have hsame : l'.tripCount = l.tripCount := by
      simp only [tripCount, h.lower, h.upper, h.step, if_true]
    exact ⟨T, hsame.trans hn, by rw [Nat.div_one], by simp⟩
  · have hstep := h.step
    rw [if_neg hone] at hstep
    rw [← Nat.div_mul_cancel hdvd] at hn
    obtain ⟨n, hcount, hle, hiff⟩ := tripCount_held hupper hn
      (Nat.div_pos (Nat.le_of_dvd hT hdvd) hq) hq h.lower h.upper hstep
    exact ⟨n, hcount, hle, hiff.trans ⟨.inr, fun hor => hor.resolve_left hone⟩⟩

omit hupper hT in
/-- **When every offset is a multiple of the step**: the last multiple is a word, or the largest
word is itself a multiple. -/
theorem offsets_multiples_iff :
    (∀ d, recorded d → ∃ k : Nat, 0 < k ∧ k < q ∧ d = k * l.step) ↔
      (q - 1 : Nat) * l.step ≤ intMax ∨ l.step ∣ intMax := by
  have hpos := step_pos_of_tripCount hn
  constructor
  · intro hall
    by_contra hnot
    obtain ⟨hlast, hdvd⟩ := not_or.mp hnot
    have hmany := lanes_of_not_le hlast
    have hheld : min (((q - 1 : Nat) : Int) * l.step) intMax = intMax :=
      Int.min_eq_right (by omega)
    obtain ⟨k, -, -, hk⟩ := hall intMax ((h.offsets _).mpr ⟨q - 1, hmany, by omega, hheld.symm⟩)
    exact hdvd ⟨k, by rw [hk, Int.mul_comm]⟩
  · rintro hor d hd
    obtain ⟨k, hk, hkq, rfl⟩ := (h.offsets d).mp hd
    by_cases hfits : (k : Int) * l.step ≤ intMax
    · exact ⟨k, hk, hkq, Int.min_eq_left hfits⟩
    · -- The offset is held, so the largest word is a smaller multiple.
      have hheld : min ((k : Int) * l.step) intMax = intMax := Int.min_eq_right (by omega)
      rw [hheld]
      have hbelow : (k : Int) * l.step ≤ (q - 1 : Nat) * l.step :=
        Int.mul_le_mul_of_nonneg_right (by omega) (Int.le_of_lt hpos)
      obtain ⟨j, hj⟩ := hor.resolve_left (by omega)
      have hmax : 0 < intMax := by decide
      have hjpos : 0 < j := by
        by_contra hle
        have hneg :=
          Int.mul_nonneg (Int.le_of_lt hpos) (Int.neg_nonneg_of_nonpos (Int.not_lt.mp hle))
        rw [Int.mul_neg] at hneg
        omega
      have hjk : j < k := by
        refine Int.lt_of_mul_lt_mul_left (a := l.step) ?_ (Int.le_of_lt hpos)
        rw [Int.mul_comm l.step k]
        omega
      obtain ⟨m, rfl⟩ := Int.eq_ofNat_of_zero_le (Int.le_of_lt hjpos)
      exact ⟨m, by omega, by omega, by rw [hj, Int.mul_comm]⟩

omit hupper hT in
/-- **When no offset is held**: the last multiple of the step is a word. -/
theorem offsets_exact_iff :
    (∀ d, recorded d ↔ ∃ k : Nat, 0 < k ∧ k < q ∧ d = k * l.step) ↔
      (q - 1 : Nat) * l.step ≤ intMax := by
  have hpos := step_pos_of_tripCount hn
  constructor
  · intro hall
    by_contra hlast
    have hmany := lanes_of_not_le hlast
    obtain ⟨k, -, -, hk⟩ := (h.offsets _).mp ((hall _).mpr ⟨q - 1, hmany, by omega, rfl⟩)
    omega
  · intro hlast d
    rw [h.offsets]
    have hexact : ∀ k : Nat, k < q → min ((k : Int) * l.step) intMax = k * l.step := by
      intro k hk
      refine Int.min_eq_left (Int.le_trans ?_ hlast)
      exact Int.mul_le_mul_of_nonneg_right (by omega) (Int.le_of_lt hpos)
    constructor
    · rintro ⟨k, hk, hkq, rfl⟩
      exact ⟨k, hk, hkq, hexact k hkq⟩
    · rintro ⟨k, hk, hkq, rfl⟩
      exact ⟨k, hk, hkq, (hexact k hkq).symm⟩

/-- **Bounds that are at most the largest word apart** leave room for every lane. -/
theorem scales_of_span (hdvd : q ∣ T) (hspan : upper - l.lower ≤ intMax) :
    l.Scales l' T q recorded where
  trips := by
    obtain ⟨n, hcount, -, hiff⟩ := trips_exact_iff h hupper hn hT hq hdvd
    have hblocks : (1 : Int) ≤ (T / q : Nat) :=
      Int.ofNat_le.mpr (Nat.div_pos (Nat.le_of_dvd hT hdvd) hq)
    have hfar : intMax ≤ (T / q : Nat) * intMax := by
      have hmul := Int.mul_le_mul_of_nonneg_right hblocks (by decide : 0 ≤ intMax)
      rwa [Int.one_mul] at hmul
    rw [hcount, hiff.mpr (.inr (.inr (Int.le_trans hspan hfar)))]
  offsets := by
    refine (offsets_exact_iff h hn hq).mpr ?_
    -- The last lane of the first turn starts before the bound.
    have hle : q ≤ T := Nat.le_of_dvd hT hdvd
    have hlast := (lt_tripCount hupper (step_pos_of_tripCount hn) hn (q - 1)).mp (by omega)
    omega

end Held

end Loop

/-! ## 3. The offsets of a loop -/

/-- **The offsets of a loop** in the combinations of lanes are those of its own lanes. -/
theorem mem_combinationsFrom_iff {id : OpId} {d : Int} : ∀ {lanes : List Lane},
    (∀ lane ∈ lanes, 0 < lane.factor) →
    ((∃ more ∈ combinationsFrom lanes, (id, d) ∈ more) ↔
      ∃ lane ∈ lanes, lane.loop = id ∧
        ∃ k : Nat, 0 < k ∧ k < lane.factor ∧ d = satMulInt k lane.stride)
  | [], _ => by simp [combinationsFrom]
  | lane :: lanes, hpos => by
    obtain ⟨hfirst, hrest⟩ := List.forall_mem_cons.mp hpos
    have ih := @mem_combinationsFrom_iff id d lanes hrest
    have hoffset : ∀ k, (id, d) ∈ lane.offset k ↔
        lane.loop = id ∧ 0 < k ∧ d = satMulInt k lane.stride := by
      intro k
      by_cases hk : k = 0
      · simp [Lane.offset, hk]
      · simp [Lane.offset, hk, Nat.pos_of_ne_zero hk, eq_comm]
    rw [List.exists_mem_cons_iff, ← ih]
    simp only [combinationsFrom, List.mem_flatMap, List.mem_range, List.mem_map]
    constructor
    · rintro ⟨_, ⟨k, hk, rest, hmem, rfl⟩, hd⟩
      rcases List.mem_append.mp hd with hd | hd
      · obtain ⟨hid, hkpos, hd⟩ := (hoffset k).mp hd
        exact .inl ⟨hid, k, hkpos, hk, hd⟩
      · exact .inr ⟨rest, hmem, hd⟩
    · rintro (⟨hid, k, hkpos, hk, hd⟩ | ⟨rest, hmem, hd⟩)
      · refine ⟨_, ⟨k, hk, [], ?_, rfl⟩, List.mem_append_left _ ((hoffset k).mpr ⟨hid, hkpos, hd⟩)⟩
        rw [combinationsFrom_eq_cons hrest]
        exact List.mem_cons_self
      · exact ⟨_, ⟨0, hfirst, rest, hmem, rfl⟩, List.mem_append_right _ hd⟩

theorem mem_laneOffsets_iff_lane {lanes : List Lane} (hpos : ∀ lane ∈ lanes, 0 < lane.factor)
    {id : OpId} {d : Int} : (∃ more ∈ laneOffsets lanes, (id, d) ∈ more) ↔
      ∃ lane ∈ lanes, lane.loop = id ∧
        ∃ k : Nat, 0 < k ∧ k < lane.factor ∧ d = satMulInt k lane.stride := by
  rw [← mem_combinationsFrom_iff hpos, laneOffsets, laneCombinations_eq]
  constructor
  · rintro ⟨more, hmore, hd⟩
    exact ⟨more, (List.mem_filter.mp hmore).1, hd⟩
  · rintro ⟨more, hmore, hd⟩
    refine ⟨more, List.mem_filter.mpr ⟨hmore, ?_⟩, hd⟩
    cases more with
    | nil => cases hd
    | cons => rfl

namespace Func

variable {f g : Func} {band : Band} {factors : List Nat}

/-! ## 4. Unrolled bands -/

/-- **Unrolling holds the steps and offsets of a loop at the largest word.** -/
theorem Unrolled.held {innermost : OpId} {mark : Nat → Mark} {groups : Groups}
    (h : f.Unrolled innermost (f.lanesOf band factors) mark groups g) (hnd : band.Nodup)
    (hlen : band.length = factors.length) {p : OpId × Nat} (hp : p ∈ band.zip factors) {l : Loop}
    {T : Nat} (hl : f.kindOf p.1 = some (.loop l)) (hn : l.tripCount = some T) (hT : 0 < T) :
    ∃ l', g.kindOf p.1 = some (.loop l') ∧ l.Held l' T (Nat.gcd p.2 T)
      fun d => ∃ more ∈ laneOffsets (f.lanesOf band factors), (p.1, d) ∈ more := by
  have hpos := Loop.step_pos_of_tripCount hn
  have hclamp : clampFactor p.2 (some T) = Nat.gcd p.2 T := by
    cases T with
    | zero => exact absurd hT (Nat.lt_irrefl 0)
    | succ => rfl
  have hoffsets : ∀ d, (∃ more ∈ laneOffsets (f.lanesOf band factors), (p.1, d) ∈ more) ↔
      ∃ lane, f.laneOf p.1 p.2 = some lane ∧
        ∃ k : Nat, 0 < k ∧ k < lane.factor ∧ d = satMulInt k lane.stride := by
    intro d
    rw [mem_laneOffsets_iff_lane fun lane hlane => Nat.lt_of_succ_lt (lanesOf_factor lane hlane)]
    constructor
    · rintro ⟨lane, hlane, hid, hk⟩
      -- The loops of a band are distinct, so the lane is that of the loop.
      obtain ⟨p', hp', hlane⟩ := List.mem_filterMap.mp hlane
      obtain ⟨_, -, -, rfl⟩ := laneOf_eq_some hlane
      have hfst : ((band.zip factors).map Prod.fst).Nodup := by
        rw [List.map_fst_zip (Nat.le_of_eq hlen)]
        exact hnd
      obtain rfl := List.inj_on_of_nodup_map hfst hp' hp hid
      exact ⟨_, hlane, hk⟩
    · rintro ⟨lane, hlane, hk⟩
      obtain ⟨_, -, -, rfl⟩ := laneOf_eq_some hlane
      exact ⟨_, List.mem_filterMap.mpr ⟨p, hp, hlane⟩, rfl, hk⟩
  have hg := h.kindOf_band hnd hlen hp hl
  rcases laneOf_cases p.2 hl hn with ⟨hone, hlane⟩ | ⟨hmany, hlane⟩
  · rw [hclamp] at hone
    rw [hlane] at hg hoffsets
    refine ⟨_, hg, rfl, rfl, by rw [if_pos hone]; rfl, fun d => (hoffsets d).trans ?_⟩
    rw [hone]
    constructor
    · rintro ⟨_, hnone, -⟩
      cases hnone
    · rintro ⟨k, hk, hk', -⟩
      omega
  · rw [hclamp] at hmany hlane
    rw [hlane] at hg hoffsets
    refine ⟨_, hg, rfl, rfl, ?_, fun d => (hoffsets d).trans ?_⟩
    · have hne : Nat.gcd p.2 T ≠ 1 := by omega
      rw [if_neg hne]
      exact congrArg Loop.step (Lane.widen_eq hpos (Nat.lt_of_succ_lt hmany))
    · have hheld : ∀ k : Nat, satMulInt k l.step = min (k * l.step) intMax := fun k =>
        satMulInt_eq_min (Int.natCast_nonneg k) (Int.le_of_lt hpos)
      simp only [Option.some.injEq, exists_eq_left', hheld]

/-- **Step scaling is exact as far as words reach.**  Unrolling and jamming a perfect nest gives a
function in which each compute of the innermost body is followed by one replica for each list of
offsets.  Of a loop with `T` iterations, `T` above zero, and `q` lanes, `q` the greatest common
divisor of `T` and its factor:

* the trip count becomes at least `T / q`, and is exactly that just if the widened step is a word,
  or the remaining turns get past the bound in steps of the largest word;
* every offset is a multiple of the step by a lane just if the last multiple is a word, or the
  largest word is a multiple of the step;
* the offsets are all of these multiples just if the last one is a word;
* all of this holds if the bounds are at most the largest word apart. -/
theorem unrollJam_scales_within_words (audience : Audience) (f : Func) (band : Band)
    (factors : List Nat) (hf : f.verify = .ok ()) (hband : f.PerfectNest band)
    (hlen : band.length = factors.length) :
    ∃ g changed, (f.unrollJam band factors).Yields audience (g, changed) ∧
      ∀ innermost, band.getLast? = some innermost →
      ∃ offsets, f.Followed innermost offsets g ∧
      ∀ p ∈ band.zip factors, ∀ l T upper, f.kindOf p.1 = some (.loop l) →
      l.tripCount = some T → 0 < T → l.upper = some upper →
      let q := Nat.gcd p.2 T
      let recorded := fun d => ∃ more ∈ offsets, (p.1, d) ∈ more
      ∃ l' T', g.kindOf p.1 = some (.loop l') ∧ l'.tripCount = some T' ∧ T / q ≤ T' ∧
        (T' = T / q ↔
          q = 1 ∨ l.step * q ≤ intMax ∨ upper - l.lower ≤ (T / q : Nat) * intMax) ∧
        ((∀ d, recorded d → ∃ k : Nat, 0 < k ∧ k < q ∧ d = k * l.step) ↔
          (q - 1 : Nat) * l.step ≤ intMax ∨ l.step ∣ intMax) ∧
        ((∀ d, recorded d ↔ ∃ k : Nat, 0 < k ∧ k < q ∧ d = k * l.step) ↔
          (q - 1 : Nat) * l.step ≤ intMax) ∧
        (upper - l.lower ≤ intMax → l.Scales l' T q recorded) := by
  have htidy : f.Tidy := verify_eq_ok_iff_tidy.mp hf
  have hn := htidy.toNested
  have hnd := hband.nodup hn
  obtain ⟨⟨g, changed⟩, hrep⟩ := replicateBand_isOk factors .unrollJam hnd
    (fun id hid => hn.lt_size (hband.reaches id hid)) (hband.lt_size_body hn)
  refine ⟨g, changed, ?_, fun innermost hlast => ?_⟩
  · refine Traced.yields_bind.mpr ⟨(g, changed), Traced.yields_lift.mpr hrep, ?_⟩
    cases changed <;> simp
  obtain ⟨mark, groups, hu⟩ :=
    (unrolls_of_replicateBand hnd (hband.lt_size_body hn) hlen hrep).unrolled hlast
  refine ⟨_, hu.followed (hn.lt_size (hband.reaches innermost (List.mem_of_getLast? hlast)))
    (hband.lt_size_body hn innermost hlast) (hband.not_mem_body hn hlast), ?_⟩
  intro p hp l T upper hl hcount hT hupper q recorded
  have hq : 0 < q := Nat.gcd_pos_of_pos_right p.2 hT
  have hdvd : q ∣ T := Nat.gcd_dvd_right p.2 T
  obtain ⟨l', hl', hheld⟩ := hu.held hnd hlen hp hl hcount hT
  obtain ⟨T', hT', hle, hiff⟩ := Loop.trips_exact_iff hheld hupper hcount hT hq hdvd
  exact ⟨l', T', hl', hT', hle, hiff, Loop.offsets_multiples_iff hheld hcount hq,
    Loop.offsets_exact_iff hheld hcount hq, Loop.scales_of_span hheld hupper hcount hT hq hdvd⟩

/-- A loop from one end of the words to the other in three steps, around a short one. -/
def wordSweep : Func where
  name := "f"
  arguments := [0]
  body := [0]
  ops := #[
    { id := 0, kind := .node "n", parent := none, body := [1], erased := false },
    { id := 1, kind := .loop (.plain "i" intMin (some intMax) intMax), parent := some 0,
      body := [2], erased := false },
    { id := 2, kind := .loop (.plain "j" (-4) (some 8) 2), parent := some 1, body := [3],
      erased := false },
    { id := 3, kind := .compute { name := "s", reads := [],
                                  writes := [{ memref := 0, indices := [.iv 1, .iv 2] }],
                                  lanes := [] },
      parent := some 2, body := [], erased := false }]
  values := #[{ id := 0, name := "A", shape := [4, 16], space := 0, definition := .argument 0 }]

/-- Unrolled by three and four, the outer loop does not come down to its one turn, and some
multiple of its step is no offset; the inner loop is scaled exactly. -/
theorem unrollJam_scales_within_words_wordSweep :
    wordSweep.verify = .ok () ∧ wordSweep.PerfectNest [1, 2] ∧
    ∃ g changed offsets, (wordSweep.unrollJam [1, 2] [3, 4]).Yields none (g, changed) ∧
      wordSweep.Followed 2 offsets g ∧
      (∃ l' T', g.kindOf 1 = some (.loop l') ∧ l'.tripCount = some T' ∧ 1 < T') ∧
      (¬ ∀ d, (∃ more ∈ offsets, (1, d) ∈ more) ↔ ∃ k : Nat, 0 < k ∧ k < 3 ∧ d = k * intMax) ∧
      ∃ l', g.kindOf 2 = some (.loop l') ∧ (Loop.plain "j" (-4) (some 8) 2).Scales l' 6 2
        fun d => ∃ more ∈ offsets, (2, d) ∈ more := by
  have hf : wordSweep.verify = .ok () := by decide
  have hfirst : wordSweep.Reaches 1 := .nested (.top List.mem_cons_self) List.mem_cons_self
  have hsecond : wordSweep.Reaches 2 := .nested hfirst List.mem_cons_self
  have hi : wordSweep.kindOf 1 = some (.loop (.plain "i" intMin (some intMax) intMax)) := rfl
  have hj : wordSweep.kindOf 2 = some (.loop (.plain "j" (-4) (some 8) 2)) := rfl
  have hband : wordSweep.PerfectNest [1, 2] :=
    .cons (.singleton hsecond ⟨_, hj⟩) hfirst ⟨_, hi⟩ rfl
  obtain ⟨g, changed, hg, hloops⟩ :=
    unrollJam_scales_within_words none wordSweep [1, 2] [3, 4] hf hband rfl
  obtain ⟨offsets, hfollowed, hloops⟩ := hloops 2 rfl
  obtain ⟨l₁, T₁, hl₁, hT₁, hle, htrips, -, hoffsets, -⟩ :=
    hloops (1, 3) List.mem_cons_self _ 3 intMax hi (by decide) (by decide) rfl
  obtain ⟨l₂, -, hl₂, -, -, -, -, -, hscales⟩ :=
    hloops (2, 4) (List.mem_cons_of_mem _ List.mem_cons_self) _ 6 8 hj (by decide) (by decide) rfl
  refine ⟨hf, hband, g, changed, offsets, hg, hfollowed, ⟨l₁, T₁, hl₁, hT₁, ?_⟩, ?_, l₂, hl₂,
    hscales (by decide)⟩
  · have hne : ¬ T₁ = 1 := fun hone => absurd (htrips.mp hone) (by decide)
    have hone : 1 ≤ T₁ := hle
    omega
  · exact fun hall => absurd (hoffsets.mp hall) (by decide)

end Func
end Dataflow
