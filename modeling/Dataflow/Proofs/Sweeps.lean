/-
# Turns of a widened band

A widened loop takes every `F`-th value of the loop it was, and its `F` lanes the values between
(`Lane.values?_widen`).  So the turns of a widened band, each in every combination of its lanes,
are the turns of the band before (`Func.sweep_covers`).
-/
import Mathlib.Tactic.Ring
import Dataflow.Proofs.Execution
import Dataflow.Proofs.Unrolling

namespace Dataflow

/-! ## 1. Values of a widened loop -/

namespace Loop

/-- The trip count bounds exactly the iterations that start below the upper bound. -/
theorem lt_tripCount {l : Loop} {upper : Int} {n : Nat} (hupper : l.upper = some upper)
    (hstep : 0 < l.step) (hn : l.tripCount = some n) (k : Nat) :
    k < n ↔ l.lower + k * l.step < upper := by
  simp only [tripCount, hupper, Int.not_le.mpr hstep, if_false] at hn
  obtain ⟨s, hs⟩ := Int.eq_ofNat_of_zero_le (Int.le_of_lt hstep)
  have hspos : 0 < s := by omega
  rw [hs] at hn ⊢
  split at hn
  · cases hn
    have hnonneg : (0 : Int) ≤ k * s := Int.mul_nonneg (Int.natCast_nonneg k) (Int.natCast_nonneg s)
    omega
  · obtain ⟨d, hd⟩ := Int.eq_ofNat_of_zero_le (by omega : 0 ≤ upper - l.lower)
    rw [hd] at hn
    simp only [Int.toNat_natCast, Option.some.injEq] at hn
    have hmul : ((k * s : Nat) : Int) = k * s := Int.natCast_mul k s
    rw [← hn, Nat.lt_div_iff_mul_lt hspos]
    omega

/-- Iterations below a bound are the first ones. -/
theorem filter_range {n d : Nat} {p : Nat → Bool} (hp : ∀ k, p k = true ↔ k < n) (hle : n ≤ d) :
    (List.range d).filter p = List.range n := by
  obtain ⟨extra, rfl⟩ := Nat.exists_eq_add_of_le hle
  rw [List.range_add, List.filter_append, List.filter_eq_self.mpr, List.filter_eq_nil_iff.mpr,
    List.append_nil]
  · intro x hx
    obtain ⟨k, -, rfl⟩ := List.mem_map.mp hx
    rw [hp]
    omega
  · exact fun k hk => (hp k).mpr (List.mem_range.mp hk)

/-- **A loop takes the values of its first iterations.** -/
theorem values?_eq {l : Loop} {upper : Int} {n : Nat} (hupper : l.upper = some upper)
    (hstep : 0 < l.step) (hn : ∀ k : Nat, k < n ↔ l.lower + k * l.step < upper) :
    l.values? = some ((List.range n).map fun (k : Nat) => l.lower + k * l.step) := by
  have hle : n ≤ (upper - l.lower).toNat := by
    cases n with
    | zero => exact Nat.zero_le _
    | succ n =>
      have hlast := (hn n).mp (Nat.lt_succ_self n)
      have hmul : (n : Int) ≤ n * l.step := by
        have := Int.mul_le_mul_of_nonneg_left (Int.add_one_le_of_lt hstep) (Int.natCast_nonneg n)
        omega
      omega
  rw [values?, hupper, Option.map_some, List.filter_map]
  congr 2
  refine filter_range (fun k => ?_) hle
  simp [hn k]

theorem tripCount_isSome {l : Loop} {upper : Int} (hupper : l.upper = some upper)
    (hstep : 0 < l.step) : ∃ n, l.tripCount = some n := by
  simp only [tripCount, hupper, Int.not_le.mpr hstep, if_false]
  split
  · exact ⟨0, rfl⟩
  · exact ⟨_, rfl⟩

theorem upper_of_tripCount {l : Loop} {n : Nat} (h : l.tripCount = some n) :
    ∃ upper, l.upper = some upper := by
  unfold tripCount at h
  split at h
  · cases h
  · rename_i upper hupper
    exact ⟨upper, hupper⟩

theorem step_pos_of_tripCount {l : Loop} {n : Nat} (h : l.tripCount = some n) : 0 < l.step := by
  obtain ⟨upper, hupper⟩ := upper_of_tripCount h
  simp only [tripCount, hupper] at h
  split at h
  · cases h
  · omega

/-- A loop has the trip count that tells which iterations start below its bound. -/
theorem tripCount_eq {l : Loop} {upper : Int} {n : Nat} (hupper : l.upper = some upper)
    (hstep : 0 < l.step) (h : ∀ k : Nat, k < n ↔ l.lower + k * l.step < upper) :
    l.tripCount = some n := by
  obtain ⟨m, hm⟩ := tripCount_isSome hupper hstep
  have hiff := lt_tripCount hupper hstep hm
  have hle : m ≤ n := by
    by_contra hlt
    exact Nat.lt_irrefl n ((h n).mpr ((hiff n).mp (Nat.lt_of_not_le hlt)))
  have hge : n ≤ m := by
    by_contra hlt
    exact Nat.lt_irrefl m ((hiff m).mpr ((h m).mp (Nat.lt_of_not_le hlt)))
  rw [hm, Nat.le_antisymm hle hge]

variable {wide l : Loop} {size blocks : Nat}

theorem step_mul_pos (hstep : wide.step = l.step * size) (hpos : 0 < size)
    (hn : l.tripCount = some (blocks * size)) : 0 < wide.step := by
  rw [hstep]
  exact Int.mul_pos (step_pos_of_tripCount hn) (Int.natCast_pos.mpr hpos)

/-- Iteration `j` of a loop with `size` times the step is iteration `j * size` of the loop. -/
theorem lt_blocks_iff (hstep : wide.step = l.step * size) (hpos : 0 < size)
    (hn : l.tripCount = some (blocks * size)) (hlower : wide.lower = l.lower) {upper : Int}
    (hupper : l.upper = some upper) (j : Nat) :
    j < blocks ↔ wide.lower + j * wide.step < upper := by
  have hcount := lt_tripCount hupper (step_pos_of_tripCount hn) hn (j * size)
  rw [Nat.mul_lt_mul_right hpos] at hcount
  rw [hcount, hlower, hstep, Int.natCast_mul, Int.mul_comm l.step, ← Int.mul_assoc]

/-- **A loop with `size` times the step takes one turn in `size`.** -/
theorem tripCount_blocks (hstep : wide.step = l.step * size) (hpos : 0 < size)
    (hn : l.tripCount = some (blocks * size)) (hlower : wide.lower = l.lower)
    (hupper : wide.upper = l.upper) : wide.tripCount = some blocks := by
  obtain ⟨upper, hknown⟩ := upper_of_tripCount hn
  exact tripCount_eq (hupper.trans hknown) (step_mul_pos hstep hpos hn)
    (lt_blocks_iff hstep hpos hn hlower hknown)

end Loop

/-- A clamped factor above one divides the trip count. -/
theorem clampFactor_dvd {factor n : Nat} (h : 1 < clampFactor factor (some n)) :
    clampFactor factor (some n) ∣ n := by
  cases n with
  | zero => exact absurd h (Nat.lt_irrefl 1)
  | succ n => exact Nat.gcd_dvd_right factor (n + 1)

theorem satMulInt_of_le {a b : Int} (ha : 0 ≤ a) (hb : 0 ≤ b) (h : a * b ≤ intMax) :
    satMulInt a b = a * b := by
  have hnonneg : 0 ≤ a * b := Int.mul_nonneg ha hb
  simp only [satMulInt, clampInt, intMin]
  simp only [intMax] at h ⊢
  omega

/-- Counting by blocks. -/
theorem range_mul_eq (blocks size : Nat) : List.range (blocks * size) =
    (List.range blocks).flatMap fun j => (List.range size).map fun k => j * size + k := by
  induction blocks with
  | zero => simp
  | succ blocks ih =>
    rw [Nat.succ_mul, List.range_add, ih, List.range_succ, List.flatMap_append]
    simp

/-- The loop of the lane is not widened past the largest signed word. -/
def Lane.Fits (lane : Lane) : Prop := lane.stride * lane.factor ≤ intMax

/-- The step of a loop that is widened without leaving the range. -/
theorem Lane.step_widen {lane : Lane} (mark : Nat → Mark) {l : Loop} (hstep : 0 < l.step)
    (hfit : l.step * lane.factor ≤ intMax) :
    (lane.widen mark l).step = l.step * lane.factor := by
  have hle : (lane.factor : Int) ≤ l.step * lane.factor := by
    have := Int.mul_le_mul_of_nonneg_right (Int.add_one_le_of_lt hstep)
      (Int.natCast_nonneg lane.factor)
    omega
  simp only [widen, Int.min_eq_left (Int.le_trans hle hfit)]
  exact satMulInt_of_le (Int.le_of_lt hstep) (Int.natCast_nonneg _) hfit

/-- **A widened loop and its lanes take the values of the loop.** -/
theorem Lane.values?_widen {lane : Lane} (mark : Nat → Mark) {l : Loop} {upper : Int} {n : Nat}
    (hupper : l.upper = some upper) (hstep : 0 < l.step) (hn : l.tripCount = some n)
    (hpos : 0 < lane.factor) (hdvd : lane.factor ∣ n) (hfit : l.step * lane.factor ≤ intMax) :
    ∃ wide, (lane.widen mark l).values? = some wide ∧
      l.values? = some (wide.flatMap fun iv =>
        (List.range lane.factor).map fun (k : Nat) => iv + k * l.step) := by
  obtain ⟨blocks, rfl⟩ := hdvd
  rw [Nat.mul_comm] at hn
  have hwide := Lane.step_widen mark hstep hfit
  have hwideUpper : (lane.widen mark l).upper = some upper := hupper
  refine ⟨_, Loop.values?_eq hwideUpper (Loop.step_mul_pos hwide hpos hn)
    (Loop.lt_blocks_iff hwide hpos hn rfl hupper), ?_⟩
  rw [Loop.values?_eq hupper hstep (Loop.lt_tripCount hupper hstep hn), range_mul_eq,
    List.map_flatMap, List.flatMap_map]
  refine congrArg some (List.flatMap_congr fun j _ => ?_)
  rw [List.map_map]
  refine List.map_congr_left fun k _ => ?_
  rw [hwide]
  simp only [Function.comp_apply, widen]
  push_cast
  ring

/-! ## 2. Turns of a band -/

theorem combinationsFrom_append (outer : List Lane) : ∀ inner : List Lane,
    combinationsFrom (outer ++ inner) =
      (combinationsFrom outer).flatMap fun a => (combinationsFrom inner).map (a ++ ·) := by
  intro inner
  induction outer with
  | nil => simp [combinationsFrom]
  | cons lane outer ih =>
    simp only [List.cons_append, combinationsFrom, ih, List.flatMap_assoc, List.map_flatMap,
      List.flatMap_map, List.map_map]
    simp [Function.comp_def]

theorem combinationsFrom_singleton (lane : Lane) :
    combinationsFrom [lane] = (List.range lane.factor).map lane.offset := by
  simp [combinationsFrom, List.map_eq_flatMap]

/-- All combinations but the first have a loop that runs ahead. -/
theorem combinationsFrom_eq_cons {lanes : List Lane} (hpos : ∀ lane ∈ lanes, 0 < lane.factor) :
    combinationsFrom lanes = [] :: laneOffsets lanes := by
  have hsplit : ∃ ahead, combinationsFrom lanes = [] :: ahead ∧ ∀ more ∈ ahead, more ≠ [] := by
    induction lanes with
    | nil => exact ⟨[], rfl, fun _ h => by cases h⟩
    | cons lane lanes ih =>
      obtain ⟨hlane, hpos⟩ := List.forall_mem_cons.mp hpos
      obtain ⟨ahead, hahead, hne⟩ := ih hpos
      obtain ⟨m, hm⟩ := Nat.exists_eq_succ_of_ne_zero (Nat.ne_of_gt hlane)
      refine ⟨ahead ++ (List.range m).flatMap fun k =>
        (combinationsFrom lanes).map (lane.offset (k + 1) ++ ·), ?_, fun more hmore => ?_⟩
      · rw [combinationsFrom, hm, List.range_succ_eq_map, List.flatMap_cons, List.flatMap_map]
        simp [hahead, Lane.offset]
      · rcases List.mem_append.mp hmore with hmore | hmore
        · exact hne more hmore
        · obtain ⟨k, -, hmore⟩ := List.mem_flatMap.mp hmore
          obtain ⟨rest, -, rfl⟩ := List.mem_map.mp hmore
          simp [Lane.offset]
  obtain ⟨ahead, hahead, hne⟩ := hsplit
  have hkept : ahead.filter (fun offsets => !offsets.isEmpty) = ahead :=
    List.filter_eq_self.mpr fun more hmore => by simpa using hne more hmore
  rw [laneOffsets, laneCombinations_eq, hahead, List.filter_cons_of_neg (by simp), hkept]

theorem laneOffsets_ne_nil {lanes : List Lane} (hne : lanes ≠ [])
    (hfactors : ∀ lane ∈ lanes, 1 < lane.factor) : laneOffsets lanes ≠ [] := by
  have hpos : ∀ lane ∈ lanes, 0 < lane.factor := fun lane hlane =>
    Nat.lt_of_succ_lt (hfactors lane hlane)
  obtain ⟨lane, rest, rfl⟩ := List.exists_cons_of_ne_nil hne
  obtain ⟨hlane, -⟩ := List.forall_mem_cons.mp hfactors
  obtain ⟨-, hrest⟩ := List.forall_mem_cons.mp hpos
  -- The first loop in its second lane, the others in their first.
  have hmem : lane.offset 1 ++ [] ∈ combinationsFrom (lane :: rest) := by
    refine List.mem_flatMap.mpr ⟨1, List.mem_range.mpr hlane, List.mem_map_of_mem ?_⟩
    rw [combinationsFrom_eq_cons hrest]
    exact List.mem_cons_self
  rw [combinationsFrom_eq_cons hpos, List.mem_cons] at hmem
  rcases hmem with hnil | hmem
  · simp [Lane.offset] at hnil
  · exact List.ne_nil_of_mem hmem

/-- A loop in one of its lanes. -/
theorem Lane.shift_offset {lane : Lane} {k : Nat} (hfit : lane.stride * k ≤ intMax)
    (hstride : 0 < lane.stride) (env : Env) (iv : Int) :
    shift (lane.offset k) (Function.update env lane.loop iv) =
      Function.update env lane.loop (iv + k * lane.stride) := by
  have hmul : satMulInt k lane.stride = k * lane.stride :=
    satMulInt_of_le (Int.natCast_nonneg k) (Int.le_of_lt hstride) (by rwa [Int.mul_comm])
  funext l
  by_cases hk : k = 0
  · simp [Lane.offset, hk, shift_nil]
  · by_cases hl : l = lane.loop
    · subst hl
      simp [Lane.offset, hk, shift, offsetIn, hmul]
    · have hne : (lane.loop == l) = false := by simpa using fun h => hl h.symm
      simp [Lane.offset, hk, shift, offsetIn, hne, Function.update_of_ne hl]

namespace Func

variable {f g : Func}

theorem turns_loop {id : OpId} {l : Loop} {values : List Int} (hk : f.kindOf id = some (.loop l))
    (hvalues : l.values? = some values) (env : Env) :
    f.turns id env = (values.map (Function.update env id) : List Env) :=
  turns_of_turns? hk (by simp [Kind.turns?, hvalues])

/-- `g` covers the turns of an operation in `f`, by its own turns in all combinations of lanes. -/
def Covers (f g : Func) (id : OpId) (lanes : List Lane) : Prop := ∀ env,
  f.turns id env =
    (g.turns id env).bind fun e => ((combinationsFrom lanes).map (shift · e) : List Env)

theorem covers_nil {id : OpId} (h : g.kindOf id = f.kindOf id) : f.Covers g id [] := by
  intro env
  rw [turns_congr h]
  simp only [combinationsFrom, List.map_cons, List.map_nil, shift_nil, Multiset.coe_singleton]
  exact ((Multiset.bind_singleton _ fun e => e).trans (Multiset.map_id' _)).symm

/-- A widened loop covers the loop it was. -/
theorem covers_lane (lane : Lane) {mark : Nat → Mark} {l : Loop} {upper : Int}
    (hf : f.kindOf lane.loop = some (.loop l))
    (hg : g.kindOf lane.loop = some (.loop (lane.widen mark l)))
    (hstride : lane.stride = l.step) (hupper : l.upper = some upper) (hstep : 0 < l.step)
    (hfactor : ∀ n, l.tripCount = some n → 1 < lane.factor ∧ lane.factor ∣ n)
    (hfit : l.step * lane.factor ≤ intMax) : f.Covers g lane.loop [lane] := by
  intro env
  obtain ⟨n, hn⟩ := Loop.tripCount_isSome hupper hstep
  obtain ⟨hone, hdvd⟩ := hfactor n hn
  obtain ⟨wide, hwide, hvalues⟩ :=
    Lane.values?_widen mark hupper hstep hn (Nat.lt_of_succ_lt hone) hdvd hfit
  rw [turns_loop hf hvalues, turns_loop hg hwide, Multiset.coe_bind, List.map_flatMap,
    List.flatMap_map, combinationsFrom_singleton]
  refine congrArg _ (List.flatMap_congr fun iv _ => ?_)
  rw [List.map_map, List.map_map]
  refine List.map_congr_left fun k hk => ?_
  have hk : lane.stride * k ≤ intMax := by
    have hle : (k : Int) ≤ lane.factor := Int.ofNat_le.mpr (Nat.le_of_lt (List.mem_range.mp hk))
    rw [hstride]
    exact Int.le_trans (Int.mul_le_mul_of_nonneg_left hle (Int.le_of_lt hstep)) hfit
  rw [Function.comp_apply, Function.comp_apply, Lane.shift_offset hk (hstride ▸ hstep), hstride]

/-- The environments in which the innermost body of a band is executed. -/
def sweep (f : Func) : Band → Env → Multiset Env
  | [], env => {env}
  | id :: band, env => (f.turns id env).bind (f.sweep band)

/-- Loops that run ahead have no say in the turns of others. -/
theorem turns_shift {offsets : List (OpId × Int)} {id : OpId} (hid : ∀ o ∈ offsets, o.1 ≠ id)
    (env : Env) : f.turns id (shift offsets env) = (f.turns id env).map (shift offsets) := by
  unfold turns turnList
  cases f.kindOf id with
  | none => rfl
  | some k =>
    cases k with
    | loop l =>
      cases hvalues : l.values? with
      | none => simp [Kind.turns?, hvalues]
      | some values =>
        simp only [Option.bind_some, Kind.turns?, hvalues, Option.map_some, Option.getD_some,
          Multiset.map_coe, List.map_map]
        exact congrArg _ (List.map_congr_left fun iv _ => update_shift hid env iv)
    | _ => rfl

theorem sweep_shift {offsets : List (OpId × Int)} : ∀ {band : Band} (env : Env),
    (∀ o ∈ offsets, o.1 ∉ band) →
      f.sweep band (shift offsets env) = (f.sweep band env).map (shift offsets)
  | [], env, _ => by simp [sweep]
  | id :: band, env, hout => by
    have hid : ∀ o ∈ offsets, o.1 ≠ id := fun o ho heq => hout o ho (heq ▸ List.mem_cons_self)
    have hband : ∀ o ∈ offsets, o.1 ∉ band := fun o ho hmem =>
      hout o ho (List.mem_cons_of_mem id hmem)
    rw [sweep, sweep, turns_shift hid, Multiset.bind_map, Multiset.map_bind]
    exact Multiset.bind_congr fun e _ => sweep_shift e hband

/-- **The turns of a widened band, in all combinations of its lanes, are the turns of the band.** -/
theorem sweep_covers (lanesAt : OpId × Nat → List Lane) : ∀ {places : List (OpId × Nat)},
    (places.map Prod.fst).Nodup →
    (∀ p ∈ places, f.Covers g p.1 (lanesAt p) ∧ ∀ lane ∈ lanesAt p, lane.loop = p.1) → ∀ env,
    f.sweep (places.map Prod.fst) env = (g.sweep (places.map Prod.fst) env).bind fun e =>
      ((combinationsFrom (places.flatMap lanesAt)).map (shift · e) : List Env)
  | [], _, _, env => by simp [sweep, combinationsFrom, shift_nil]
  | p :: places, hnd, hcov, env => by
    obtain ⟨hid, hnd⟩ := List.nodup_cons.mp hnd
    obtain ⟨⟨hhead, hlane⟩, htail⟩ := List.forall_mem_cons.mp hcov
    have ih := sweep_covers lanesAt hnd htail
    have hout : ∀ a ∈ combinationsFrom (lanesAt p), ∀ o ∈ a, o.1 ∉ places.map Prod.fst :=
      fun a ha o ho => by
        obtain ⟨lane, hmem, heq⟩ := mem_combinationsFrom ha o ho
        rw [heq, hlane lane hmem]
        exact hid
    simp only [List.map_cons, sweep, List.flatMap_cons, combinationsFrom_append]
    rw [hhead env, Multiset.bind_assoc, Multiset.bind_assoc]
    refine Multiset.bind_congr fun e _ => ?_
    -- In one turn of the first loop: the combinations of its lanes and the turns of the rest
    -- change places, since the rest does not look at the first loop.
    calc
      ((combinationsFrom (lanesAt p)).map (shift · e) : Multiset Env).bind
            (f.sweep (places.map Prod.fst))
          = (combinationsFrom (lanesAt p) : Multiset _).bind fun a =>
              f.sweep (places.map Prod.fst) (shift a e) := by
            rw [← Multiset.map_coe, Multiset.bind_map]
      _ = (combinationsFrom (lanesAt p) : Multiset _).bind fun a =>
            (g.sweep (places.map Prod.fst) e).bind fun e' =>
              ((combinationsFrom (places.flatMap lanesAt)).map
                (shift · (shift a e')) : List Env) := by
            refine Multiset.bind_congr fun a ha => ?_
            rw [ih, sweep_shift e (hout a (Multiset.mem_coe.mp ha)), Multiset.bind_map]
      _ = (g.sweep (places.map Prod.fst) e).bind fun e' =>
            (combinationsFrom (lanesAt p) : Multiset _).bind fun a =>
              ((combinationsFrom (places.flatMap lanesAt)).map (shift · (shift a e')) : List Env) :=
            Multiset.bind_bind _ _
      _ = _ := by
            refine Multiset.bind_congr fun e' _ => ?_
            rw [Multiset.coe_bind, List.map_flatMap]
            refine congrArg _ (List.flatMap_congr fun a _ => ?_)
            rw [List.map_map]
            exact List.map_congr_left fun more _ => (shift_append a more e').symm

end Func

end Dataflow
