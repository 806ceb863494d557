/-
# Unrolling a clean band is an exact cover

A band is clean if it is a chain of loops with known trip counts, each but the last around the next
and nothing else, and the last around operations that hold nothing.  Unrolling one has no other
effect than to regroup its turns: the function executes the same instances equally often, each loop
takes one turn where it took as many as it has lanes, and each compute of the innermost body is
followed by one replica for each combination of lanes but the first (`Func.ExactCover`).

The turns are counted in `Func.Widening`; here nothing is stranded in the innermost loop, so
nothing is lost (`Func.Widening.exact`).  A chain need not be reached from its first loop on.  What
is left of it where a run enters is a perfect nest (`Func.exists_first_reached`), and the instances
are kept if the loops before have no lanes (`Func.LanesReached`); else they are executed once for
each lane of those (`Func.unrolling_repeats_instances_strayHull`).  The combinations of lanes are
the choices of one lane for each loop (`Func.combinationsFrom_lanesOf`), and the offsets of a loop
add up to the lane that it is in, so no two choices have the same offsets (`Func.offsetsIn_inj`).
-/
import Dataflow.Proofs.Acceptance
import Dataflow.Proofs.Coverage
import Dataflow.Proofs.Replay
import Dataflow.Proofs.RunTimeBounds

namespace Dataflow

theorem clampFactor_pos (factor n : Nat) : 0 < clampFactor factor (some n) := by
  cases n with
  | zero => exact Nat.one_pos
  | succ n => exact Nat.gcd_pos_of_pos_right factor n.succ_pos

theorem clampFactor_one (n : Nat) : clampFactor 1 (some n) = 1 := by
  cases n with
  | zero => rfl
  | succ n => exact Nat.gcd_one_left (n + 1)

/-- A clamped factor above one is the greatest common divisor with the trip count. -/
theorem clampFactor_eq_gcd {factor n : Nat} (h : 1 < clampFactor factor (some n)) :
    clampFactor factor (some n) = Nat.gcd factor n := by
  cases n with
  | zero => exact absurd h (Nat.lt_irrefl 1)
  | succ n => rfl

/-! ## 1. One lane for each loop -/

/-- The choices of one lane for each loop, given how many lanes each has; later loops vary
faster. -/
def laneChoices : List Nat → List (List Nat)
  | [] => [[]]
  | width :: widths => (List.range width).flatMap fun k => (laneChoices widths).map (k :: ·)

theorem mem_laneChoices {widths ks : List Nat} :
    ks ∈ laneChoices widths ↔ List.Forall₂ (· < ·) ks widths := by
  induction widths generalizing ks with
  | nil => simp [laneChoices]
  | cons width widths ih =>
    simp only [laneChoices, List.mem_flatMap, List.mem_range, List.mem_map, ih]
    rw [List.forall₂_cons_right_iff]
    constructor
    · rintro ⟨k, hk, rest, hrest, rfl⟩
      exact ⟨k, rest, hk, hrest, rfl⟩
    · rintro ⟨k, rest, hk, hrest, rfl⟩
      exact ⟨k, hk, rest, hrest, rfl⟩

theorem length_laneChoices (widths : List Nat) : (laneChoices widths).length = widths.prod := by
  induction widths with
  | nil => rfl
  | cons width widths ih => simp [laneChoices, List.length_flatMap, ih]

theorem nodup_laneChoices (widths : List Nat) : (laneChoices widths).Nodup := by
  induction widths with
  | nil => exact List.nodup_singleton []
  | cons width widths ih =>
    refine List.nodup_flatMap.mpr ⟨fun k _ => ih.map (List.cons_injective), ?_⟩
    refine List.nodup_range.pairwise_of_forall_ne fun k _ k' _ hne => ?_
    intro ks hks hks'
    obtain ⟨_, -, rfl⟩ := List.mem_map.mp hks
    obtain ⟨_, -, heq⟩ := List.mem_map.mp hks'
    exact hne (List.cons.inj heq).1.symm

namespace Func

variable {f g : Func} {band : Band} {factors : List Nat}

/-! ## 2. Clean bands -/

/-- Loops with known trip counts. -/
def KnownTrips (f : Func) (band : Band) : Prop :=
  ∀ id ∈ band, ∃ l n, f.kindOf id = some (.loop l) ∧ l.tripCount = some n

/-- `f.CleanBand band`: a chain of loops with known trip counts, each but the last with the next as
its whole body, and what the last one holds holds nothing itself.  The loops may stand in no
block. -/
structure CleanBand (f : Func) (band : Band) : Prop where
  chain : band.IsChain fun outer inner => f.bodyOf outer = [inner]
  trips : f.KnownTrips band
  leaves : ∀ innermost, band.getLast? = some innermost →
    ∀ id ∈ f.bodyOf innermost, ∃ op, f.ops[id]? = some op ∧ op.body = []

/-- No loop of the band can be widened past the range of machine words. -/
def FactorsFit (f : Func) (band : Band) (factors : List Nat) : Prop :=
  ∀ p ∈ band.zip factors, ∀ l n, f.kindOf p.1 = some (.loop l) → l.tripCount = some n →
    isInt64 (l.step * (Nat.gcd p.2 n : Nat)) = true

/-- If the innermost loop is reached, then so is every loop that has a lane. -/
def LanesReached (f : Func) (band : Band) (factors : List Nat) : Prop :=
  ∀ innermost, band.getLast? = some innermost → f.Reaches innermost →
    ∀ lane ∈ f.lanesOf band factors, f.Reaches lane.loop

theorem KnownTrips.lt_size (h : f.KnownTrips band) : ∀ id ∈ band, id < f.ops.size := by
  intro id hid
  obtain ⟨l, n, hl, -⟩ := h id hid
  obtain ⟨op, hop, -⟩ := Option.map_eq_some_iff.mp hl
  exact lt_size_of_some hop

/-- In a chain a loop is the last one, or it is followed by what it holds. -/
theorem mem_chain_cases : ∀ {band : Band} {innermost : OpId},
    band.IsChain (fun outer inner => f.bodyOf outer = [inner]) → band.getLast? = some innermost →
      ∀ id ∈ band, id = innermost ∨ ∃ next ∈ band.tail, f.bodyOf id = [next]
  | [], _, _, hlast, _, _ => by cases hlast
  | [first], innermost, _, hlast, id, hid => by
    cases hlast
    exact .inl (List.mem_singleton.mp hid)
  | first :: second :: band, innermost, hchain, hlast, id, hid => by
    rw [List.isChain_cons_cons] at hchain
    rw [List.getLast?_cons_cons] at hlast
    rcases List.mem_cons.mp hid with rfl | hid
    · exact .inr ⟨second, List.mem_cons_self, hchain.1⟩
    · exact (mem_chain_cases hchain.2 hlast id hid).imp_right fun ⟨next, hnext, hbody⟩ =>
        ⟨next, List.mem_cons_of_mem second hnext, hbody⟩

namespace CleanBand

theorem of_append {outer inner : Band} (h : f.CleanBand (outer ++ inner)) (hne : inner ≠ []) :
    f.CleanBand inner where
  chain := h.chain.right_of_append
  trips := fun id hid => h.trips id (List.mem_append_right outer hid)
  leaves := fun innermost hlast => by
    refine h.leaves innermost ?_
    rw [List.getLast?_append_of_ne_nil outer hne, hlast]

theorem tail {first second : OpId} {band : Band} (h : f.CleanBand (first :: second :: band)) :
    f.CleanBand (second :: band) := @of_append f [first] _ h (List.cons_ne_nil second band)

theorem lt_size_body (h : f.CleanBand band) : ∀ innermost, band.getLast? = some innermost →
    ∀ id ∈ f.bodyOf innermost, id < f.ops.size := by
  intro innermost hlast id hid
  obtain ⟨op, hop, -⟩ := h.leaves innermost hlast id hid
  exact lt_size_of_some hop

theorem bodyOf_leaf (h : f.CleanBand band) {innermost : OpId}
    (hlast : band.getLast? = some innermost) :
    ∀ id ∈ f.bodyOf innermost, f.bodyOf id = [] := by
  intro id hid
  obtain ⟨op, hop, hbody⟩ := h.leaves innermost hlast id hid
  rw [bodyOf_eq hop, hbody]

/-- What the innermost loop holds is not in the band. -/
theorem not_mem (h : f.CleanBand band) {innermost id : OpId}
    (hlast : band.getLast? = some innermost) (hid : id ∈ f.bodyOf innermost) : id ∉ band := by
  intro hmem
  have hleaf := h.bodyOf_leaf hlast id hid
  rcases mem_chain_cases h.chain hlast id hmem with rfl | ⟨next, -, hnext⟩
  · rw [hleaf] at hid
    cases hid
  · rw [hleaf] at hnext
    cases hnext

theorem nodup : ∀ {band : Band}, f.CleanBand band → band.Nodup
  | [], _ => List.nodup_nil
  | [_], _ => List.nodup_singleton _
  | first :: second :: band, h => by
    refine List.nodup_cons.mpr ⟨fun hmem => ?_, nodup h.tail⟩
    have hsecond : f.bodyOf first = [second] := (List.isChain_cons_cons.mp h.chain).1
    have hlast := List.getLast?_eq_some_getLast (List.cons_ne_nil second band)
    -- A second occurrence of the first loop would hold the second loop again.
    rcases mem_chain_cases h.tail.chain hlast first hmem with heq | ⟨next, hnext, hbody⟩
    · refine h.tail.not_mem hlast ?_ List.mem_cons_self
      rw [← heq, hsecond]
      exact List.mem_singleton_self second
    · rw [hsecond, List.singleton_inj] at hbody
      exact (List.nodup_cons.mp (nodup h.tail)).1 (hbody ▸ hnext)

/-- A chain that is reached at its first loop is a perfect nest. -/
theorem perfectNest : ∀ {first : OpId} {band : Band}, f.CleanBand (first :: band) →
    f.Reaches first → f.PerfectNest (first :: band)
  | first, [], h, hreach => by
    obtain ⟨l, n, hl, -⟩ := h.trips first List.mem_cons_self
    exact .singleton hreach ⟨l, hl⟩
  | first, second :: band, h, hreach => by
    obtain ⟨l, n, hl, -⟩ := h.trips first List.mem_cons_self
    have hbody : f.bodyOf first = [second] := (List.isChain_cons_cons.mp h.chain).1
    have hsecond : f.Reaches second := .nested hreach (by rw [hbody]; exact List.mem_cons_self)
    exact (perfectNest h.tail hsecond).cons hreach ⟨l, hl⟩ hbody

end CleanBand

/-- A loop with a known trip count has one lane, or is chosen for unrolling. -/
theorem laneOf_cases {id : OpId} {l : Loop} {n : Nat} (factor : Nat)
    (hl : f.kindOf id = some (.loop l)) (hn : l.tripCount = some n) :
    (clampFactor factor (some n) = 1 ∧ f.laneOf id factor = none) ∨
      (1 < clampFactor factor (some n) ∧
        f.laneOf id factor = some ⟨id, clampFactor factor (some n), l.step⟩) := by
  have hpos := clampFactor_pos factor n
  by_cases hfactor : 1 < clampFactor factor (some n)
  · exact .inr ⟨hfactor, by simp [laneOf, hl, Kind.loop?, hn, hfactor]⟩
  · exact .inl ⟨by omega, by simp [laneOf, hl, Kind.loop?, hn, hfactor]⟩

theorem KnownTrips.lanesOf_eq_nil (h : f.KnownTrips band) (hones : factors.all (· == 1) = true) :
    f.lanesOf band factors = [] := by
  refine List.filterMap_eq_nil_iff.mpr fun p hp => ?_
  obtain ⟨hmem, hfactor⟩ := List.of_mem_zip hp
  obtain ⟨l, n, hl, hn⟩ := h p.1 hmem
  have hone : p.2 = 1 := beq_iff_eq.mp (List.all_eq_true.mp hones p.2 hfactor)
  rcases laneOf_cases p.2 hl hn with ⟨-, hnone⟩ | ⟨hfactor, -⟩
  · exact hnone
  · rw [hone, clampFactor_one] at hfactor
    exact absurd hfactor (Nat.lt_irrefl 1)

theorem FactorsFit.lanes (h : f.FactorsFit band factors) (hknown : f.KnownTrips band) :
    ∀ lane ∈ f.lanesOf band factors, lane.Fits := by
  intro lane hlane
  obtain ⟨p, hp, hlane⟩ := List.mem_filterMap.mp hlane
  obtain ⟨l, hl, hfactor, rfl⟩ := laneOf_eq_some hlane
  obtain ⟨l', n, hl', hn⟩ := hknown p.1 (List.of_mem_zip hp).1
  rw [hl] at hl'
  cases hl'
  have hfit := h p hp l n hl hn
  simp only [isInt64, Bool.and_eq_true, decide_eq_true_eq] at hfit
  rw [hn] at hfactor ⊢
  rw [Lane.Fits, clampFactor_eq_gcd hfactor]
  exact hfit.2

/-! ## 3. Combinations of lanes -/

/-- The numbers of lanes of the loops of a band: the factors, clamped. -/
def widths (f : Func) (band : Band) (factors : List Nat) : List Nat :=
  List.zipWith clampFactor factors (f.tripsOf band)

/-- The step of the loop in a slot. -/
def stepOf (f : Func) (id : OpId) : Int := (((f.kindOf id).bind Kind.loop?).map Loop.step).getD 0

/-- The offsets of a loop in one of its lanes: none in the first. -/
def ahead (f : Func) (id : OpId) (k : Nat) : List (OpId × Int) :=
  if k = 0 then [] else [(id, k * f.stepOf id)]

/-- The offsets of a band with each loop in one of its lanes. -/
def offsetsIn (f : Func) (band : Band) (ks : List Nat) : List (OpId × Int) :=
  (List.zipWith f.ahead band ks).flatten

theorem stepOf_eq {id : OpId} {l : Loop} (hl : f.kindOf id = some (.loop l)) :
    f.stepOf id = l.step := by
  simp [stepOf, hl, Kind.loop?]

theorem KnownTrips.stepOf_pos (h : f.KnownTrips band) : ∀ id ∈ band, 0 < f.stepOf id := by
  intro id hid
  obtain ⟨l, n, hl, hn⟩ := h id hid
  rw [stepOf_eq hl]
  exact Loop.step_pos_of_tripCount hn

theorem lanesOf_cons (f : Func) (id : OpId) (factor : Nat) (band : Band) (factors : List Nat) :
    f.lanesOf (id :: band) (factor :: factors) =
      (f.laneOf id factor).toList ++ f.lanesOf band factors := by
  simp only [lanesOf, List.zip_cons_cons, List.filterMap_cons]
  cases f.laneOf id factor <;> rfl

/-- The lanes of one loop. -/
theorem combinationsFrom_laneOf {id : OpId} {l : Loop} {n factor : Nat}
    (hl : f.kindOf id = some (.loop l)) (hn : l.tripCount = some n)
    (hfit : ∀ lane ∈ (f.laneOf id factor).toList, lane.Fits) :
    combinationsFrom (f.laneOf id factor).toList =
      (List.range (clampFactor factor (some n))).map (f.ahead id) := by
  have hstep := Loop.step_pos_of_tripCount hn
  rcases laneOf_cases factor hl hn with ⟨hone, hlane⟩ | ⟨-, hlane⟩
  · simp [hlane, hone, combinationsFrom, ahead]
  · rw [hlane, Option.toList_some] at hfit ⊢
    rw [combinationsFrom_singleton]
    refine List.map_congr_left fun k hk => ?_
    have hmul : satMulInt k l.step = k * l.step := by
      refine satMulInt_of_le (Int.natCast_nonneg k) (Int.le_of_lt hstep) ?_
      have hle : (k : Int) ≤ clampFactor factor (some n) :=
        Int.ofNat_le.mpr (Nat.le_of_lt (List.mem_range.mp hk))
      rw [Int.mul_comm]
      exact Int.le_trans (Int.mul_le_mul_of_nonneg_left hle (Int.le_of_lt hstep))
        (hfit _ (List.mem_singleton_self _))
    simp only [Lane.offset, ahead, hmul, stepOf_eq hl]

/-- **The combinations of lanes of a band** are those of one lane for each loop. -/
theorem combinationsFrom_lanesOf : ∀ {band : Band} {factors : List Nat},
    band.length = factors.length → f.KnownTrips band →
    (∀ lane ∈ f.lanesOf band factors, lane.Fits) →
    combinationsFrom (f.lanesOf band factors) =
      (laneChoices (f.widths band factors)).map (f.offsetsIn band)
  | [], [], _, _, _ => rfl
  | id :: band, factor :: factors, hlen, hknown, hfit => by
    obtain ⟨l, n, hl, hn⟩ := hknown id List.mem_cons_self
    rw [lanesOf_cons, List.forall_mem_append] at hfit
    have hwidths : f.widths (id :: band) (factor :: factors) =
        clampFactor factor (some n) :: f.widths band factors := by
      simp [widths, tripsOf, hl, Kind.loop?, hn]
    have ih := combinationsFrom_lanesOf (Nat.succ.inj hlen)
      (fun x hx => hknown x (List.mem_cons_of_mem id hx)) hfit.2
    rw [lanesOf_cons, combinationsFrom_append, combinationsFrom_laneOf hl hn hfit.1, ih, hwidths,
      laneChoices, List.flatMap_map, List.map_flatMap]
    refine List.flatMap_congr fun k _ => ?_
    simp [offsetsIn, Function.comp_def]

theorem offsetsIn_cons (f : Func) (id : OpId) (band : Band) (k : Nat) (ks : List Nat) :
    f.offsetsIn (id :: band) (k :: ks) = f.ahead id k ++ f.offsetsIn band ks := rfl

/-- Only loops of the band run ahead. -/
theorem mem_offsetsIn : ∀ {band : Band} {ks : List Nat} {o : OpId × Int},
    o ∈ f.offsetsIn band ks → o.1 ∈ band
  | [], _, _, ho => by cases ho
  | _ :: _, [], _, ho => by cases ho
  | id :: band, k :: ks, o, ho => by
    rw [offsetsIn_cons, List.mem_append] at ho
    rcases ho with ho | ho
    · unfold ahead at ho
      split at ho
      · cases ho
      · rw [List.mem_singleton] at ho
        rw [ho]
        exact List.mem_cons_self
    · exact List.mem_cons_of_mem id (mem_offsetsIn ho)

theorem offsetsIn_eq_nil_iff : ∀ {band : Band} {ks : List Nat}, ks.length = band.length →
    (f.offsetsIn band ks = [] ↔ ∀ k ∈ ks, k = 0)
  | [], [], _ => by simp [offsetsIn]
  | id :: band, k :: ks, hlen => by
    rw [offsetsIn_cons, List.append_eq_nil_iff, offsetsIn_eq_nil_iff (Nat.succ.inj hlen),
      List.forall_mem_cons]
    by_cases hk : k = 0 <;> simp [ahead, hk]

/-- **The offsets tell the lanes**: those of a loop add up to the lane that it is in. -/
theorem offsetsIn_inj : ∀ {band : Band} {ks ks' : List Nat}, band.Nodup →
    (∀ id ∈ band, 0 < f.stepOf id) → ks.length = band.length → ks'.length = band.length →
    f.offsetsIn band ks = f.offsetsIn band ks' → ks = ks'
  | [], [], [], _, _, _, _, _ => rfl
  | id :: band, k :: ks, k' :: ks', hnd, hstep, hlen, hlen', heq => by
    obtain ⟨hout, hnd⟩ := List.nodup_cons.mp hnd
    obtain ⟨hpos, hstep⟩ := List.forall_mem_cons.mp hstep
    rw [offsetsIn_cons, offsetsIn_cons] at heq
    have hsum : ∀ (j : Nat) (js : List Nat),
        offsetIn (f.ahead id j ++ f.offsetsIn band js) id = j * f.stepOf id := by
      intro j js
      have hrest : offsetIn (f.offsetsIn band js) id = 0 :=
        offsetIn_eq_zero fun o ho hid => hout (hid ▸ mem_offsetsIn ho)
      rw [offsetIn_append, hrest, Int.add_zero]
      by_cases hj : j = 0 <;> simp [ahead, hj, offsetIn]
    have hk : k = k' := by
      have hmul : (k : Int) * f.stepOf id = k' * f.stepOf id := by
        rw [← hsum k ks, ← hsum k' ks', heq]
      exact Int.ofNat_inj.mp (Int.eq_of_mul_eq_mul_right (Int.ne_of_gt hpos) hmul)
    subst hk
    rw [offsetsIn_inj hnd hstep (Nat.succ.inj hlen) (Nat.succ.inj hlen')
      (List.append_cancel_left heq)]

theorem length_of_mem_choices (hlen : band.length = factors.length) {ks : List Nat}
    (h : List.Forall₂ (· < ·) ks (f.widths band factors)) : ks.length = band.length := by
  rw [h.length_eq]
  simp [widths, hlen]

section Offsets

variable (hlen : band.length = factors.length) (hknown : f.KnownTrips band)
  (hfit : ∀ lane ∈ f.lanesOf band factors, lane.Fits)

include hlen hknown hfit

/-- The offsets of the replicas are those of the choices in which some loop runs ahead. -/
theorem mem_laneOffsets_iff {more : List (OpId × Int)} :
    more ∈ laneOffsets (f.lanesOf band factors) ↔ ∃ ks,
      List.Forall₂ (· < ·) ks (f.widths band factors) ∧ (∃ k ∈ ks, k ≠ 0) ∧
        more = f.offsetsIn band ks := by
  rw [laneOffsets, laneCombinations_eq, combinationsFrom_lanesOf hlen hknown hfit, List.mem_filter,
    List.mem_map]
  simp only [mem_laneChoices]
  constructor
  · rintro ⟨⟨ks, hks, rfl⟩, hne⟩
    have hne : ¬ ∀ k ∈ ks, k = 0 := by
      rw [← offsetsIn_eq_nil_iff (length_of_mem_choices hlen hks)]
      simpa using hne
    exact ⟨ks, hks, by simpa using hne, rfl⟩
  · rintro ⟨ks, hks, hahead, rfl⟩
    have hne : ¬ f.offsetsIn band ks = [] := by
      rw [offsetsIn_eq_nil_iff (length_of_mem_choices hlen hks)]
      simpa using hahead
    exact ⟨⟨ks, hks, rfl⟩, by simpa using hne⟩

theorem nodup_laneOffsets (hnd : band.Nodup) : (laneOffsets (f.lanesOf band factors)).Nodup := by
  rw [laneOffsets, laneCombinations_eq, combinationsFrom_lanesOf hlen hknown hfit]
  refine List.Nodup.filter _ ((nodup_laneChoices _).map_on fun ks hks ks' hks' heq => ?_)
  exact offsetsIn_inj hnd hknown.stepOf_pos (length_of_mem_choices hlen (mem_laneChoices.mp hks))
    (length_of_mem_choices hlen (mem_laneChoices.mp hks')) heq

theorem length_laneOffsets :
    (laneOffsets (f.lanesOf band factors)).length + 1 = (f.widths band factors).prod := by
  have hpos : ∀ lane ∈ f.lanesOf band factors, 0 < lane.factor := fun lane hlane =>
    Nat.lt_of_succ_lt (lanesOf_factor lane hlane)
  have hcombinations := congrArg List.length (combinationsFrom_lanesOf hlen hknown hfit)
  rwa [combinationsFrom_eq_cons hpos, List.length_cons, List.length_map,
    length_laneChoices] at hcombinations

end Offsets

/-! ## 4. Runs of the unrolled function -/

theorem changeLoop_mapLoop_comm {mark : Nat → Mark} {lanes : List Lane} (id : OpId) (upper : Int)
    (k : Kind) : (changeLoop (widening mark lanes id) k).mapLoop (Loop.bounded upper) =
      changeLoop (widening mark lanes id) (k.mapLoop (Loop.bounded upper)) := by
  unfold widening
  cases lanes.find? fun lane => lane.loop == id with
  | none => rfl
  | some lane => cases k <;> rfl

theorem lanesOf_withBounds (hknown : f.KnownTrips band) (uppers : OpId → Int) :
    (f.withBounds uppers).lanesOf band factors = f.lanesOf band factors := by
  refine List.filterMap_congr fun p hp => ?_
  obtain ⟨l, n, hl, hn⟩ := hknown p.1 (List.of_mem_zip hp).1
  rw [laneOf, laneOf, kindOf_withBounds_loop hl, hl, Loop.bounded_of_tripCount hn]

namespace Unrolled

variable {innermost : OpId} {lanes : List Lane} {mark : Nat → Mark} {groups : Groups}

/-- **Bounds that only a run decides play no part in unrolling.** -/
theorem withBounds (h : f.Unrolled innermost lanes mark groups g) (uppers : OpId → Int) :
    (f.withBounds uppers).Unrolled innermost lanes mark groups (g.withBounds uppers) where
  name := h.name
  arguments := h.arguments
  body := h.body
  values := h.values
  size_le := by simpa using h.size_le
  old := by
    intro id op hop
    rw [getElem?_ops_withBounds, Option.map_eq_some_iff] at hop
    obtain ⟨op, hop, rfl⟩ := hop
    rw [getElem?_ops_withBounds, h.old id op hop, Option.map_some]
    simp only [unrolledEntry, boundedEntry, changeLoop_mapLoop_comm]
  originals := by
    rw [(sameNesting_withBounds f uppers).bodyOf]
    exact h.originals
  replicas := by
    intro e he
    have hsame : ∀ r ∈ e.2, (g.withBounds uppers).ops[r]? = g.ops[r]? := by
      intro r hr
      obtain ⟨c, more, -, -, hentry⟩ := h.replica he hr
      rw [getElem?_ops_withBounds, hentry]
      rfl
    have hkinds : (f.withBounds uppers).replicasOf (laneOffsets lanes) e.1 =
        f.replicasOf (laneOffsets lanes) e.1 := by
      simp only [replicasOf, kindOf_withBounds]
      cases f.kindOf e.1 with
      | none => rfl
      | some k => cases k <;> rfl
    rw [hkinds]
    refine ((List.forall₂_and_left _ _).mpr ⟨hsame, h.replicas e he⟩).imp fun r kind hr => ?_
    rw [hr.1, hr.2]
  slots := by simpa using h.slots

/-- Nothing has been unrolled. -/
theorem refl (f : Func) (innermost : OpId) (mark : Nat → Mark) :
    f.Unrolled innermost [] mark ((f.bodyOf innermost).map fun id => (id, [])) f where
  name := rfl
  arguments := rfl
  body := rfl
  values := rfl
  size_le := Nat.le_refl _
  old := by
    intro id op hop
    have hbody : (if id = innermost then Groups.block ((f.bodyOf innermost).map fun id => (id, []))
        else op.body) = op.body := by
      split
      · rename_i hid
        subst hid
        simp [Groups.block, List.flatMap_map, bodyOf_eq hop]
      · rfl
    rw [hop, unrolledEntry, hbody]
    rfl
  originals := by simp [Function.comp_def]
  replicas := by
    intro e he
    obtain ⟨id, -, rfl⟩ := List.mem_map.mp he
    have hnone : f.replicasOf (laneOffsets []) id = [] := by
      rw [replicasOf]
      split <;> rfl
    rw [hnone]
    exact .nil
  slots := by simp [List.flatMap_map]

/-- **A widened loop takes one turn for as many as it has lanes.** -/
theorem tripCount_band (h : f.Unrolled innermost (f.lanesOf band factors) mark groups g)
    (hnd : band.Nodup) (hlen : band.length = factors.length)
    (hfit : ∀ lane ∈ f.lanesOf band factors, lane.Fits) {p : OpId × Nat}
    (hp : p ∈ band.zip factors) {l : Loop} {n : Nat} (hl : f.kindOf p.1 = some (.loop l))
    (hn : l.tripCount = some n) : ∃ l' n', g.kindOf p.1 = some (.loop l') ∧
      l'.tripCount = some n' ∧ n' * clampFactor p.2 (some n) = n := by
  have hg := h.kindOf_band hnd hlen hp hl
  rcases laneOf_cases p.2 hl hn with ⟨hone, hlane⟩ | ⟨hfactor, hlane⟩
  · rw [hlane] at hg
    exact ⟨l, n, hg, hn, by rw [hone, Nat.mul_one]⟩
  · have hfits := hfit _ (List.mem_filterMap.mpr ⟨p, hp, hlane⟩)
    obtain ⟨blocks, hblocks⟩ := clampFactor_dvd hfactor
    rw [Nat.mul_comm] at hblocks
    rw [hlane] at hg
    refine ⟨_, blocks, hg, ?_, hblocks.symm⟩
    have hstep := Lane.step_widen mark (Loop.step_pos_of_tripCount hn) hfits
    exact Loop.tripCount_blocks hstep (clampFactor_pos p.2 n)
      (hn.trans (congrArg some hblocks)) rfl rfl

end Unrolled

/-! ## 5. The exact cover -/

/-- In the body of `innermost` each compute is followed by one replica for each list of offsets,
which the lanes of the replica end in, and no other operation is followed by any. -/
def Followed (f : Func) (innermost : OpId) (offsets : List (List (OpId × Int))) (g : Func) : Prop :=
  ∃ groups : Groups, groups.map Prod.fst = f.bodyOf innermost ∧
    g.bodyOf innermost = groups.block ∧ ∀ e ∈ groups, g.kindOf e.1 = f.kindOf e.1 ∧
      (∀ c, f.kindOf e.1 = some (.compute c) → List.Forall₂ (fun r more =>
        g.kindOf r = some (.compute { c with lanes := c.lanes ++ more })) e.2 offsets) ∧
      (¬ f.IsCompute e.1 → e.2 = [])

/-- `f.ExactCover band factors g`: `g` is `f` with the turns of a band regrouped. -/
structure ExactCover (f : Func) (band : Band) (factors : List Nat) (g : Func) : Prop where
  /-- A run executes the same instances equally often. -/
  instances : ∀ uppers, ∃ before after, (f.withBounds uppers).instances = some before ∧
    (g.withBounds uppers).instances = some after ∧ after.Perm before
  /-- So does each execution of the band, from the first loop on that is reached. -/
  work : ∀ uppers outer first inner env, band = outer ++ first :: inner →
    (∀ id ∈ outer, ¬ f.Reaches id) → f.Reaches first →
      (g.withBounds uppers).work env first = (f.withBounds uppers).work env first
  /-- A loop takes one turn for as many as it has lanes. -/
  trips : ∀ p ∈ band.zip factors, ∃ l n l' n', f.kindOf p.1 = some (.loop l) ∧
    l.tripCount = some n ∧ g.kindOf p.1 = some (.loop l') ∧ l'.tripCount = some n' ∧
      n' * clampFactor p.2 (some n) = n
  /-- There is one replica for each choice of lanes but the first, and no two have the same
  offsets. -/
  replicas : ∀ innermost, band.getLast? = some innermost → ∃ offsets,
    f.Followed innermost offsets g ∧ offsets.Nodup ∧
      offsets.length + 1 = (f.widths band factors).prod ∧
      ∀ more, more ∈ offsets ↔ ∃ ks, List.Forall₂ (· < ·) ks (f.widths band factors) ∧
        (∃ k ∈ ks, k ≠ 0) ∧ more = f.offsetsIn band ks

/-- `f.Unrolls band factors g`: `g` is `f` with the band unrolled, or `f` if no loop has a lane. -/
def Unrolls (f : Func) (band : Band) (factors : List Nat) (g : Func) : Prop :=
  (f.lanesOf band factors = [] ∧ g = f) ∨
    (f.lanesOf band factors ≠ [] ∧ ∃ innermost mark groups, band.getLast? = some innermost ∧
      f.Unrolled innermost (f.lanesOf band factors) mark groups g)

theorem Unrolls.unrolled (h : f.Unrolls band factors g) {innermost : OpId}
    (hlast : band.getLast? = some innermost) :
    ∃ mark groups, f.Unrolled innermost (f.lanesOf band factors) mark groups g := by
  rcases h with ⟨hnone, rfl⟩ | ⟨-, innermost', mark, groups, hlast', hu⟩
  · rw [hnone]
    exact ⟨.unrollJam, _, .refl g innermost .unrollJam⟩
  · rw [hlast] at hlast'
    cases hlast'
    exact ⟨mark, groups, hu⟩

/-- A band is unrolled, or left as it is if no loop has a lane. -/
theorem unrolls_of_replicateBand (hnd : band.Nodup)
    (hbody : ∀ innermost, band.getLast? = some innermost →
      ∀ id ∈ f.bodyOf innermost, id < f.ops.size)
    (hlen : band.length = factors.length) {mark : Nat → Mark} {changed : Bool}
    (h : f.replicateBand band factors mark = .ok (g, changed)) : f.Unrolls band factors g := by
  cases changed with
  | false =>
    obtain ⟨hsame, hnone⟩ := replicateBand_unchanged h
    refine .inl ⟨?_, hsame⟩
    rcases hnone with rfl | hne | hnone
    · rfl
    · exact absurd hlen hne
    · exact hnone
  | true =>
    obtain ⟨-, hne, innermost, groups, hlast, hu⟩ := replicateBand_spec hnd hbody h
    exact .inr ⟨hne, innermost, mark, groups, hlast, hu⟩

/-- What a loop surrounds is in its body, if what it holds holds nothing. -/
theorem mem_bodyOf_of_surrounds {innermost id : OpId}
    (hleaves : ∀ child ∈ f.bodyOf innermost, f.bodyOf child = []) (h : f.Surrounds innermost id) :
    id ∈ f.bodyOf innermost := by
  obtain ⟨child, hchild, hbelow⟩ := Relation.TransGen.head'_iff.mp h
  rcases Relation.ReflTransGen.cases_head hbelow with rfl | ⟨next, hnext, -⟩
  · exact hchild.2
  · have hmem := hnext.2
    rw [hleaves child hchild.2] at hmem
    cases hmem

/-- **A band around leaves loses nothing.** -/
theorem Widening.exact {innermost : OpId} (w : f.Widening band factors innermost g)
    (hleaves : ∀ child ∈ f.bodyOf innermost, f.bodyOf child = []) :
    g.total = f.total ∧
      ∀ first env, band.head? = some first → g.work env first = f.work env first := by
  refine ⟨w.total_loses.2.mpr ?_, fun first env hfirst => (w.band_loses hfirst env).2.mpr ?_⟩
  · rintro ⟨c, -, -, hin, hout⟩
    exact hout (mem_bodyOf_of_surrounds hleaves hin)
  · rintro ⟨c, -, -, hin, hout⟩
    exact hout (mem_bodyOf_of_surrounds hleaves hin)

/-- A run of the function and one of the unrolled function execute the same instances, if the band
is reached. -/
theorem Unrolls.run_reached {first : OpId} {inner : Band}
    (h : f.Unrolls (first :: inner) factors g) (hf : f.Tidy)
    (hband : f.CleanBand (first :: inner)) (hreach : f.Reaches first)
    (hlen : (first :: inner).length = factors.length) (hfit : f.FactorsFit (first :: inner) factors)
    (uppers : OpId → Int) : (g.withBounds uppers).Nested ∧
      (g.withBounds uppers).total = (f.withBounds uppers).total ∧
      ∀ env, (g.withBounds uppers).work env first = (f.withBounds uppers).work env first := by
  have hn := (hf.withBounds uppers).toNested
  rcases h with ⟨-, rfl⟩ | ⟨hne, innermost, mark, groups, hlast, hu⟩
  · exact ⟨hn, rfl, fun _ => rfl⟩
  have hlanes : (f.withBounds uppers).lanesOf (first :: inner) factors =
      f.lanesOf (first :: inner) factors := lanesOf_withBounds hband.trips uppers
  have hu' := hu.withBounds uppers
  have w : (f.withBounds uppers).Widening (first :: inner) factors innermost
      (g.withBounds uppers) :=
    { tidy := hf.withBounds uppers
      staticBounds := staticBounds_withBounds f uppers
      nest := (hband.perfectNest hreach).withBounds uppers
      last := hlast
      lengths := hlen
      lanes := hlanes ▸ hne
      fits := hlanes ▸ hfit.lanes hband.trips
      unrolled := ⟨mark, groups, hlanes ▸ hu'⟩ }
  obtain ⟨htotal, hwork⟩ := w.exact fun child hchild => by
    rw [(sameNesting_withBounds f uppers).bodyOf] at hchild ⊢
    exact hband.bodyOf_leaf hlast child hchild
  exact ⟨hu'.nested hn w.reaches_innermost, htotal, fun env => hwork first env rfl⟩

/-- What is not reached can be unrolled as one likes. -/
theorem Unrolled.sameReached {innermost : OpId} {lanes : List Lane} {mark : Nat → Mark}
    {groups : Groups} (h : f.Unrolled innermost lanes mark groups g) (hn : f.Nested)
    (hinner : ¬ f.Reaches innermost) (hlanes : ∀ lane ∈ lanes, ¬ f.Reaches lane.loop) :
    f.SameReached g where
  body := h.body
  size_le := h.size_le
  entry := fun id hid => by
    obtain ⟨op, hop, -⟩ := hn.live id hid
    rw [hop]
    exact h.entry_same hop (fun lane hlane heq => hlanes lane hlane (heq ▸ hid))
      fun heq => hinner (heq ▸ hid)

theorem SameReached.withBounds (h : f.SameReached g) (uppers : OpId → Int) :
    (f.withBounds uppers).SameReached (g.withBounds uppers) where
  body := h.body
  size_le := by simpa using h.size_le
  entry := fun id hid => by
    rw [(sameNesting_withBounds f uppers).reaches_iff] at hid
    rw [getElem?_ops_withBounds, getElem?_ops_withBounds, h.entry id hid]

/-- Where a band is entered: at its first loop that is reached. -/
theorem exists_first_reached : ∀ {band : Band}, (∃ id ∈ band, f.Reaches id) →
    ∃ outer first inner, band = outer ++ first :: inner ∧ (∀ id ∈ outer, ¬ f.Reaches id) ∧
      f.Reaches first
  | [], h => by
    obtain ⟨id, hid, -⟩ := h
    cases hid
  | id :: band, h => by
    by_cases hid : f.Reaches id
    · exact ⟨[], id, band, rfl, fun x hx => absurd hx List.not_mem_nil, hid⟩
    · have hrest : ∃ x ∈ band, f.Reaches x := by
        obtain ⟨x, hx, hreach⟩ := h
        rcases List.mem_cons.mp hx with rfl | hx
        · exact absurd hreach hid
        · exact ⟨x, hx, hreach⟩
      obtain ⟨outer, first, inner, rfl, houter, hfirst⟩ := exists_first_reached hrest
      exact ⟨id :: outer, first, inner, rfl, List.forall_mem_cons.mpr ⟨hid, houter⟩, hfirst⟩

/-- Loops without a lane can be left out of a band. -/
theorem lanesOf_append {outer inner : Band} (hnone : ∀ lane ∈ f.lanesOf (outer ++ inner) factors,
    lane.loop ∉ outer) :
    f.lanesOf (outer ++ inner) factors = f.lanesOf inner (factors.drop outer.length) := by
  induction outer generalizing factors with
  | nil => rfl
  | cons id outer ih =>
    cases factors with
    | nil => simp [lanesOf]
    | cons factor factors =>
      rw [List.cons_append, lanesOf_cons, List.forall_mem_append] at hnone
      rw [List.cons_append, lanesOf_cons, List.length_cons, List.drop_succ_cons,
        ih fun lane hlane hmem => hnone.2 lane hlane (List.mem_cons_of_mem id hmem)]
      cases hlane : f.laneOf id factor with
      | none => rfl
      | some lane =>
        refine absurd ?_ (hnone.1 lane (by rw [hlane]; exact List.mem_singleton_self lane))
        rw [loop_of_laneOf hlane]
        exact List.mem_cons_self

/-- The part of a band from some loop on is unrolled as the band is, if no loop before it has a
lane. -/
theorem Unrolls.of_append {outer inner : Band} (h : f.Unrolls (outer ++ inner) factors g)
    (hne : inner ≠ []) (hnone : ∀ lane ∈ f.lanesOf (outer ++ inner) factors, lane.loop ∉ outer) :
    f.Unrolls inner (factors.drop outer.length) g := by
  rw [Unrolls, lanesOf_append hnone, List.getLast?_append_of_ne_nil outer hne] at h
  exact h

theorem FactorsFit.of_append {outer inner : Band} (h : f.FactorsFit (outer ++ inner) factors)
    (hlen : outer.length ≤ factors.length) :
    f.FactorsFit inner (factors.drop outer.length) := by
  intro p hp
  refine h p ?_
  rw [← List.take_append_drop outer.length factors,
    List.zip_append (by rw [List.length_take, Nat.min_eq_left hlen])]
  exact List.mem_append_right _ hp

/-- **A run of the function and one of the unrolled function execute the same instances.** -/
theorem Unrolls.run (h : f.Unrolls band factors g) (hf : f.Tidy) (hband : f.CleanBand band)
    (hlen : band.length = factors.length) (hfit : f.FactorsFit band factors)
    (hlanes : f.LanesReached band factors) (uppers : OpId → Int) : (g.withBounds uppers).Nested ∧
      (g.withBounds uppers).total = (f.withBounds uppers).total ∧
      ∀ outer first inner env, band = outer ++ first :: inner → (∀ id ∈ outer, ¬ f.Reaches id) →
        f.Reaches first →
          (g.withBounds uppers).work env first = (f.withBounds uppers).work env first := by
  have hn := (hf.withBounds uppers).toNested
  -- The loops before the first that is reached have no lane, and the rest is a perfect nest.
  have hentered : ∀ outer first inner, band = outer ++ first :: inner →
      (∀ id ∈ outer, ¬ f.Reaches id) → f.Reaches first → (g.withBounds uppers).Nested ∧
        (g.withBounds uppers).total = (f.withBounds uppers).total ∧
        ∀ env, (g.withBounds uppers).work env first = (f.withBounds uppers).work env first := by
    rintro outer first inner rfl houter hfirst
    have hne : first :: inner ≠ [] := List.cons_ne_nil first inner
    have hclean := hband.of_append hne
    have hinner : f.Reaches ((first :: inner).getLast hne) :=
      (hclean.perfectNest hfirst).reaches _ (List.getLast_mem hne)
    have hlast : (outer ++ first :: inner).getLast? = some ((first :: inner).getLast hne) := by
      rw [List.getLast?_append_of_ne_nil outer hne, List.getLast?_eq_some_getLast hne]
    have hnone : ∀ lane ∈ f.lanesOf (outer ++ first :: inner) factors, lane.loop ∉ outer :=
      fun lane hlane hmem => houter _ hmem (hlanes _ hlast hinner lane hlane)
    rw [List.length_append] at hlen
    refine (h.of_append hne hnone).run_reached hf hclean hfirst ?_ (hfit.of_append ?_) uppers
    · rw [List.length_drop, ← hlen, Nat.add_sub_cancel_left]
    · rw [← hlen]
      exact Nat.le_add_right _ _
  by_cases hreach : ∃ id ∈ band, f.Reaches id
  · obtain ⟨outer, first, inner, hsplit, houter, hfirst⟩ := exists_first_reached hreach
    obtain ⟨hnested, htotal, -⟩ := hentered outer first inner hsplit houter hfirst
    exact ⟨hnested, htotal, fun outer first inner env hsplit houter hfirst =>
      (hentered outer first inner hsplit houter hfirst).2.2 env⟩
  · have hnone : ∀ id ∈ band, ¬ f.Reaches id := fun id hid hr => hreach ⟨id, hid, hr⟩
    have hsame : f.SameReached g := by
      rcases h with ⟨-, rfl⟩ | ⟨-, innermost, mark, groups, hlast, hu⟩
      · exact ⟨rfl, Nat.le_refl _, fun _ _ => rfl⟩
      · exact hu.sameReached hf.toNested (hnone innermost (List.mem_of_getLast? hlast))
          fun lane hlane => hnone lane.loop (loop_mem_of_mem_lanesOf hlane)
    have hsame' := hsame.withBounds uppers
    refine ⟨hsame'.nested hn, hsame'.total_eq hn, ?_⟩
    rintro outer first inner env rfl - hfirst
    exact absurd hfirst (hnone first (List.mem_append_right outer List.mem_cons_self))

theorem replicasOf_eq_nil {offsets : List (List (OpId × Int))} {id : OpId}
    (h : ¬ f.IsCompute id) : f.replicasOf offsets id = [] := by
  unfold replicasOf
  split
  · rename_i c hc
    obtain ⟨k, hk, hkc⟩ := Option.bind_eq_some_iff.mp hc
    obtain rfl := Kind.eq_compute_of_compute? hkc
    exact absurd ⟨c, hk⟩ h
  · rfl

/-- The replicas follow the computes of the innermost body. -/
theorem Unrolled.followed {innermost : OpId} {mark : Nat → Mark} {groups : Groups}
    (h : f.Unrolled innermost (f.lanesOf band factors) mark groups g)
    (hinner : innermost < f.ops.size) (hbody : ∀ id ∈ f.bodyOf innermost, id < f.ops.size)
    (hout : ∀ id ∈ f.bodyOf innermost, id ∉ band) :
    f.Followed innermost (laneOffsets (f.lanesOf band factors)) g := by
  refine ⟨groups, h.originals, h.bodyOf_innermost hinner, fun e he => ⟨?_, ?_, ?_⟩⟩
  · have hmem : e.1 ∈ f.bodyOf innermost := h.originals ▸ List.mem_map_of_mem he
    exact h.kindOf_same (hbody e.1 hmem) fun lane hlane heq =>
      hout e.1 hmem (heq ▸ loop_mem_of_mem_lanesOf hlane)
  · intro c hc
    have hreplicas := h.replicas e he
    rw [replicasOf, hc] at hreplicas
    exact (List.forall₂_map_right_iff.mp hreplicas).imp fun r more hr => kindOf_eq hr
  · intro hnot
    have hreplicas := h.replicas e he
    rw [replicasOf_eq_nil hnot] at hreplicas
    exact List.forall₂_nil_right_iff.mp hreplicas

theorem Unrolls.exactCover (h : f.Unrolls band factors g) (hf : f.Tidy) (hband : f.CleanBand band)
    (hlen : band.length = factors.length) (hfit : f.FactorsFit band factors)
    (hlanes : f.LanesReached band factors) : f.ExactCover band factors g where
  instances := by
    intro uppers
    obtain ⟨hnested, htotal, -⟩ := h.run hf hband hlen hfit hlanes uppers
    obtain ⟨before, hbefore, hsum⟩ :=
      (hf.withBounds uppers).toNested.instances_eq (staticBounds_withBounds f uppers)
    obtain ⟨after, hafter, hsum'⟩ := hnested.instances_eq (staticBounds_withBounds g uppers)
    refine ⟨before, after, hbefore, hafter, Multiset.coe_eq_coe.mp ?_⟩
    rw [hsum, hsum', htotal]
  work := fun uppers => (h.run hf hband hlen hfit hlanes uppers).2.2
  trips := by
    intro p hp
    obtain ⟨l, n, hl, hn⟩ := hband.trips p.1 (List.of_mem_zip hp).1
    have hne : band ≠ [] := List.ne_nil_of_mem (List.of_mem_zip hp).1
    obtain ⟨mark, groups, hu⟩ := h.unrolled (List.getLast?_eq_some_getLast hne)
    obtain ⟨l', n', hl', hn', hmul⟩ :=
      hu.tripCount_band hband.nodup hlen (hfit.lanes hband.trips) hp hl hn
    exact ⟨l, n, l', n', hl, hn, hl', hn', hmul⟩
  replicas := by
    intro innermost hlast
    obtain ⟨mark, groups, hu⟩ := h.unrolled hlast
    have hfits := hfit.lanes hband.trips
    exact ⟨_, hu.followed (hband.trips.lt_size innermost (List.mem_of_getLast? hlast))
        (hband.lt_size_body innermost hlast) fun id => hband.not_mem hlast,
      nodup_laneOffsets hlen hband.trips hfits hband.nodup,
      length_laneOffsets hlen hband.trips hfits,
      fun more => mem_laneOffsets_iff hlen hband.trips hfits⟩

/-- **Unrolling a clean band is an exact cover**, unless the band is entered below a loop that is
widened.  Unrolling and jamming gives a function, and vectorizing may refuse.  The function that
either gives executes the same instances equally often; the trip count of a loop is divided by its
clamped factor; and in the innermost body each compute is followed by one replica for each
combination of lanes but the first, no two with the same offsets. -/
theorem unrolling_is_exact_cover (audience : Audience) (f : Func) (band : Band)
    (factors : List Nat) (hf : f.verify = .ok ()) (hband : f.CleanBand band)
    (hlen : band.length = factors.length) (hfit : f.FactorsFit band factors)
    (hlanes : f.LanesReached band factors) :
    (∃ g changed, (f.unrollJam band factors).Yields audience (g, changed) ∧
      f.ExactCover band factors g) ∧
    ∀ rules g, (f.vectorize band factors rules).Yields audience (g, true) →
      f.ExactCover band factors g := by
  have htidy : f.Tidy := verify_eq_ok_iff_tidy.mp hf
  have hunrolls : ∀ {mark : Nat → Mark} {g : Func} {changed : Bool},
      f.replicateBand band factors mark = .ok (g, changed) → f.ExactCover band factors g :=
    fun hrep => (unrolls_of_replicateBand hband.nodup hband.lt_size_body hlen hrep).exactCover htidy
      hband hlen hfit hlanes
  constructor
  · obtain ⟨⟨g, changed⟩, hrep⟩ := replicateBand_isOk factors .unrollJam hband.nodup
      hband.trips.lt_size hband.lt_size_body
    refine ⟨g, changed, ?_, hunrolls hrep⟩
    refine Traced.yields_bind.mpr ⟨(g, changed), Traced.yields_lift.mpr hrep, ?_⟩
    cases changed <;> simp
  · intro rules g hg
    rcases vectorize_yields hg with ⟨rfl, hones⟩ | ⟨-, -, changed, hrep⟩
    · have hnone := hband.trips.lanesOf_eq_nil (hones rfl)
      exact Unrolls.exactCover (.inl ⟨hnone, rfl⟩) htidy hband hlen hfit hlanes
    · exact hunrolls hrep

/-- A nest that was unrolled before, below a loop whose bound is not known: the loops start away
from zero and advance by two, and the second compute runs one turn ahead in the inner one. -/
def unrolledNest : Func where
  name := "f"
  arguments := [0]
  body := [0]
  ops := #[
    { id := 0, kind := .node "n", parent := none, body := [1], erased := false },
    { id := 1, kind := .loop (.plain "n" 0 none 1), parent := some 0, body := [2],
      erased := false },
    { id := 2, kind := .loop (.plain "i" 1 (some 12) 2), parent := some 1, body := [3],
      erased := false },
    { id := 3, kind := .loop (.plain "j" (-4) (some 8) 2), parent := some 2, body := [4, 5],
      erased := false },
    { id := 4, kind := .compute { name := "p", reads := [],
                                  writes := [{ memref := 0, indices := [.iv 2, .iv 3] }],
                                  lanes := [] },
      parent := some 3, body := [], erased := false },
    { id := 5, kind := .compute { name := "p", reads := [],
                                  writes := [{ memref := 0, indices := [.iv 2, .iv 3] }],
                                  lanes := [(3, 1)] },
      parent := some 3, body := [], erased := false }]
  values := #[{ id := 0, name := "A", shape := [16, 16], space := 0, definition := .argument 0 }]

/-- By factors that are clamped to two and three, the nest is unrolled exactly, and vectorized. -/
theorem unrolling_is_exact_cover_unrolledNest :
    unrolledNest.verify = .ok () ∧ unrolledNest.CleanBand [2, 3] ∧
    unrolledNest.FactorsFit [2, 3] [4, 9] ∧ unrolledNest.LanesReached [2, 3] [4, 9] ∧
    unrolledNest.widths [2, 3] [4, 9] = [2, 3] ∧
    (∃ g, (unrolledNest.unrollJam [2, 3] [4, 9]).Yields none (g, true) ∧
      unrolledNest.ExactCover [2, 3] [4, 9] g) ∧
    ∃ g, (unrolledNest.vectorize [2, 3] [4, 9] .structural).Yields none (g, true) ∧
      unrolledNest.ExactCover [2, 3] [4, 9] g := by
  have hf : unrolledNest.verify = .ok () := by decide
  have hfirst : unrolledNest.Reaches 2 :=
    .nested (.nested (.top List.mem_cons_self) List.mem_cons_self) List.mem_cons_self
  have hsecond : unrolledNest.Reaches 3 := .nested hfirst List.mem_cons_self
  have hi : unrolledNest.kindOf 2 = some (.loop (.plain "i" 1 (some 12) 2)) := rfl
  have hj : unrolledNest.kindOf 3 = some (.loop (.plain "j" (-4) (some 8) 2)) := rfl
  have hband : unrolledNest.CleanBand [2, 3] :=
    { chain := .cons_cons rfl (.singleton 3)
      trips := List.forall_mem_cons.mpr
        ⟨⟨_, 6, hi, rfl⟩, List.forall_mem_singleton.mpr ⟨_, 6, hj, rfl⟩⟩
      leaves := by
        intro innermost hlast
        cases hlast
        exact List.forall_mem_cons.mpr
          ⟨⟨_, rfl, rfl⟩, List.forall_mem_singleton.mpr ⟨_, rfl, rfl⟩⟩ }
  have hfit : unrolledNest.FactorsFit [2, 3] [4, 9] := by
    refine List.forall_mem_cons.mpr
      ⟨fun l n hl hn => ?_, List.forall_mem_singleton.mpr fun l n hl hn => ?_⟩
    · rw [hi] at hl
      cases hl
      cases hn
      decide
    · rw [hj] at hl
      cases hl
      cases hn
      decide
  have hlanes : unrolledNest.LanesReached [2, 3] [4, 9] := by
    intro innermost _ _ lane hlane
    have hloop := loop_mem_of_mem_lanesOf hlane
    exact List.forall_mem_cons.mpr ⟨hfirst, List.forall_mem_singleton.mpr hsecond⟩ lane.loop hloop
  obtain ⟨⟨g, changed, hg, hcover⟩, hvectorized⟩ :=
    unrolling_is_exact_cover none unrolledNest [2, 3] [4, 9] hf hband rfl hfit hlanes
  obtain ⟨g', hg'⟩ : ∃ g', (unrolledNest.unrollJam [2, 3] [4, 9]).Yields none (g', true) :=
    Traced.exists_yields rfl
  obtain ⟨v, hv⟩ : ∃ v, (unrolledNest.vectorize [2, 3] [4, 9] .structural).Yields none (v, true) :=
    Traced.exists_yields rfl
  cases hg.unique hg'
  exact ⟨hf, hband, hfit, hlanes, rfl, ⟨g, hg, hcover⟩, v, hv, hvectorized _ v hv⟩

/-- A loop in a node, and a loop in no block that has the first one as its body. -/
def strayHull : Func where
  name := "f"
  arguments := [0]
  body := [0]
  ops := #[
    { id := 0, kind := .node "n", parent := none, body := [1], erased := false },
    { id := 1, kind := .loop (.plain "j" 0 (some 4) 1), parent := some 0, body := [2],
      erased := false },
    { id := 2, kind := .compute { name := "s", reads := [],
                                  writes := [{ memref := 0, indices := [.iv 1] }], lanes := [] },
      parent := some 1, body := [], erased := false },
    { id := 3, kind := .loop (.plain "i" 0 (some 4) 1), parent := none, body := [1],
      erased := false }]
  values := #[{ id := 0, name := "A", shape := [4], space := 0, definition := .argument 0 }]

/-- The run enters the chain at its second loop, and the lanes of the first one are executed all
the same: unrolled by two and two, a loop of four instances executes eight. -/
theorem unrolling_repeats_instances_strayHull :
    strayHull.verify = .ok () ∧ strayHull.CleanBand [3, 1] ∧ strayHull.FactorsFit [3, 1] [2, 2] ∧
    ∃ g before after, (strayHull.unrollJam [3, 1] [2, 2]).Yields none (g, true) ∧
      strayHull.instances = some before ∧ g.instances = some after ∧
      before.length = 4 ∧ after.length = 8 ∧ ¬ after.Perm before := by
  have hi : strayHull.kindOf 3 = some (.loop (.plain "i" 0 (some 4) 1)) := rfl
  have hj : strayHull.kindOf 1 = some (.loop (.plain "j" 0 (some 4) 1)) := rfl
  have hband : strayHull.CleanBand [3, 1] :=
    { chain := .cons_cons rfl (.singleton 1)
      trips := List.forall_mem_cons.mpr
        ⟨⟨_, 4, hi, rfl⟩, List.forall_mem_singleton.mpr ⟨_, 4, hj, rfl⟩⟩
      leaves := by
        intro innermost hlast
        cases hlast
        exact List.forall_mem_singleton.mpr ⟨_, rfl, rfl⟩ }
  have hfit : strayHull.FactorsFit [3, 1] [2, 2] := by
    refine List.forall_mem_cons.mpr
      ⟨fun l n hl hn => ?_, List.forall_mem_singleton.mpr fun l n hl hn => ?_⟩
    · rw [hi] at hl
      cases hl
      cases hn
      decide
    · rw [hj] at hl
      cases hl
      cases hn
      decide
  obtain ⟨⟨g, changed⟩, hg, hrun⟩ := @Traced.exists_yields_and _ none
    (strayHull.unrollJam [3, 1] [2, 2])
    (fun r => r.2 && decide (r.1.instances.map List.length = some 8)) (by decide +kernel)
  obtain ⟨hchanged, hafter⟩ := Bool.and_eq_true_iff.mp hrun
  obtain ⟨after, hafter, height⟩ := Option.map_eq_some_iff.mp (of_decide_eq_true hafter)
  obtain ⟨before, hbefore, hfour⟩ := Option.map_eq_some_iff.mp
    (show strayHull.instances.map List.length = some 4 by decide +kernel)
  subst hchanged
  refine ⟨by decide, hband, hfit, g, before, after, hg, hbefore, hafter, hfour, height, ?_⟩
  intro hperm
  have hlength := hperm.length_eq
  rw [hfour, height] at hlength
  cases hlength

end Func
end Dataflow
