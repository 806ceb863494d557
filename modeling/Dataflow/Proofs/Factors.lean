/-
# Shares of a factor

A factor is *valid* for a loop (`ValidFactor`) when it divides the trip count; any positive factor
is valid when the count is unknown, and only one is when the loop never runs.

* Growing is exact and misses nothing.  A growth makes one factor larger and leaves the product a
  divisor of the goal (`Shares.Grows`).  Where no factor can grow, what is missing from the goal
  has no divisor in common with what the loops have left, so no choice of valid factors has the
  goal as its product (`Shares.not_hasShare_of_stuck`).
* Greedy shares are valid and stay within the goal (`greedyFrom_spec`).

So a share of a goal never exceeds it (`prod_shareFactor_le`), and from a valid base its factors
are all valid (`shareFactor_valid`).

The loops grow in an order that `sortBy` gives, the stable sort (`sortBy_eq_mergeSort`).
-/
import Mathlib.Algebra.BigOperators.Group.List.Basic
import Mathlib.Algebra.Order.BigOperators.Group.List
import Mathlib.Algebra.Order.BigOperators.GroupWithZero.List
import Mathlib.Algebra.Order.Ring.Nat
import Mathlib.Data.List.TakeWhile
import Mathlib.Data.Nat.Sqrt
import Mathlib.Logic.Relation
import Dataflow.Band.Factor

namespace Dataflow

/-! ## 1. Divisors -/

/-- Bisection finds the square root, if the halvings suffice for the interval. -/
theorem sqrtBetween_eq {n : Nat} : ∀ {halvings low high : Nat}, low * low ≤ n → n < high * high →
    high ≤ low + 2 ^ halvings → sqrtBetween n halvings low high = n.sqrt
  | 0, low, high, hlow, hhigh, hgap => by
    have hle : high ≤ low + 1 := by simpa using hgap
    exact Nat.eq_sqrt.mpr ⟨hlow, Nat.lt_of_lt_of_le hhigh (Nat.mul_le_mul hle hle)⟩
  | halvings + 1, low, high, hlow, hhigh, hgap => by
    rw [Nat.pow_succ] at hgap
    simp only [sqrtBetween]
    split
    · rename_i hle
      exact Nat.eq_sqrt.mpr ⟨hlow, Nat.lt_of_lt_of_le hhigh (Nat.mul_le_mul hle hle)⟩
    · split
      · rename_i hmid
        exact sqrtBetween_eq hmid hhigh (by omega)
      · rename_i hmid
        exact sqrtBetween_eq hlow (Nat.lt_of_not_le hmid) (by omega)

theorem isqrt_eq (n : Nat) : isqrt n = n.sqrt := by
  rw [isqrt, Nat.pow_eq]
  refine sqrtBetween_eq (Nat.zero_le n) ?_ ?_
  · have hlog : n < 2 ^ (n.log2 + 1) := Nat.lt_log2_self
    have hpow : 2 ^ (n.log2 + 1) ≤ 2 ^ ((n.log2 / 2 + 1) + (n.log2 / 2 + 1)) :=
      Nat.pow_le_pow_right (by omega) (by omega)
    rw [← Nat.pow_add]
    omega
  · have hpow : 2 ^ (n.log2 / 2 + 1) ≤ 2 ^ (n.log2 + 2) :=
      Nat.pow_le_pow_right (by omega) (by omega)
    omega

theorem mem_divisorsUpTo {n d : Nat} : ∀ {bound : Nat} {ds : List Nat},
    d ∈ divisorsUpTo n bound ds ↔ (0 < d ∧ d ≤ bound ∧ d ∣ n) ∨ d ∈ ds
  | 0, ds => by
    simp only [divisorsUpTo]
    constructor
    · exact .inr
    · rintro (⟨hpos, hle, -⟩ | hd)
      · omega
      · exact hd
  | bound + 1, ds => by
    rw [divisorsUpTo, mem_divisorsUpTo]
    by_cases hdvd : n % (bound + 1) = 0
    · have hdvd' : bound + 1 ∣ n := Nat.dvd_of_mod_eq_zero hdvd
      simp only [hdvd, if_true, List.mem_cons]
      constructor
      · rintro (⟨hpos, hle, hd⟩ | rfl | hd)
        · exact .inl ⟨hpos, by omega, hd⟩
        · exact .inl ⟨by omega, le_refl _, hdvd'⟩
        · exact .inr hd
      · rintro (⟨hpos, hle, hd⟩ | hd)
        · by_cases heq : d = bound + 1
          · exact .inr (.inl heq)
          · exact .inl ⟨hpos, by omega, hd⟩
        · exact .inr (.inr hd)
    · simp only [hdvd, if_false]
      refine or_congr_left (and_congr_right fun _ => ?_)
      constructor
      · rintro ⟨hle, hd⟩
        exact ⟨by omega, hd⟩
      · rintro ⟨hle, hd⟩
        refine ⟨?_, hd⟩
        have hne : d ≠ bound + 1 := fun heq => hdvd (Nat.mod_eq_zero_of_dvd (heq ▸ hd))
        omega

/-- **The list of divisors is complete**: those above the square root are the cofactors of those
below it. -/
theorem mem_divisors {n d : Nat} : d ∈ divisors n ↔ d ∣ n ∧ n ≠ 0 := by
  simp only [divisors, isqrt_eq, List.mem_append, List.mem_map, List.mem_filter, List.mem_reverse,
    mem_divisorsUpTo, List.not_mem_nil, or_false, decide_eq_true_eq]
  constructor
  · rintro (⟨hpos, hle, hd⟩ | ⟨c, ⟨⟨hpos, hle, hc⟩, -⟩, rfl⟩)
    · refine ⟨hd, ?_⟩
      rintro rfl
      simp at hle
      omega
    · refine ⟨Nat.div_dvd_of_dvd hc, ?_⟩
      rintro rfl
      simp at hle
      omega
  · rintro ⟨hd, hn⟩
    have hpos : 0 < d := Nat.pos_of_dvd_of_pos hd (Nat.pos_of_ne_zero hn)
    by_cases hle : d ≤ n.sqrt
    · exact .inl ⟨hpos, hle, hd⟩
    · have hmul : n / d * d = n := Nat.div_mul_cancel hd
      have hbig : n < d * d := Nat.sqrt_lt.mp (Nat.lt_of_not_le hle)
      have hlt : n / d < d := (Nat.div_lt_iff_lt_mul hpos).mpr hbig
      have hcpos : 0 < n / d := Nat.div_pos (Nat.le_of_dvd (Nat.pos_of_ne_zero hn) hd) hpos
      have hsq : n / d * (n / d) < n :=
        calc n / d * (n / d) < n / d * d := Nat.mul_lt_mul_of_pos_left hlt hcpos
          _ = n := hmul
      refine .inr ⟨n / d, ⟨⟨hcpos, Nat.le_sqrt.mpr hsq.le, Nat.div_dvd_of_dvd hd⟩, hsq.ne⟩, ?_⟩
      exact Nat.div_div_self hd hn

/-! ## 2. Valid factors -/

/-- The factor is valid for a loop of the given trip count. -/
def ValidFactor : Option Nat → Nat → Prop
  | some 0, n => n = 1
  | some t, n => n ∣ t
  | none, n => 0 < n

instance : ∀ trip n, Decidable (ValidFactor trip n)
  | some 0, n => inferInstanceAs (Decidable (n = 1))
  | some (t + 1), n => inferInstanceAs (Decidable (n ∣ t + 1))
  | none, n => inferInstanceAs (Decidable (0 < n))

theorem validFactor_some {t n : Nat} : ValidFactor (some t) n ↔ n ∣ max t 1 := by
  cases t with
  | zero => simp [ValidFactor]
  | succ t => simp [ValidFactor]

theorem ValidFactor.pos {trip : Option Nat} {n : Nat} (h : ValidFactor trip n) : 0 < n := by
  cases trip with
  | none => exact h
  | some t => exact Nat.pos_of_dvd_of_pos (validFactor_some.mp h) (by omega)

theorem validFactor_one (trip : Option Nat) : ValidFactor trip 1 := by
  cases trip with
  | none => exact Nat.one_pos
  | some t => exact validFactor_some.mpr (Nat.one_dvd _)

/-- `HasShare goal shape`: valid factors for loops of these trip counts can have the goal as their
product. -/
def HasShare (goal : Nat) (shape : List (Option Nat)) : Prop :=
  ∃ factors, List.Forall₂ ValidFactor shape factors ∧ factors.prod = goal

theorem mem_candidates {trip : Option Nat} {limit d : Nat} (hlimit : limit ≠ 0) :
    d ∈ candidates trip limit ↔ ValidFactor trip d ∧ d ∣ limit := by
  cases trip with
  | none =>
    simp only [candidates, mem_divisors, ValidFactor]
    constructor
    · rintro ⟨hd, -⟩
      exact ⟨Nat.pos_of_dvd_of_pos hd (Nat.pos_of_ne_zero hlimit), hd⟩
    · rintro ⟨-, hd⟩
      exact ⟨hd, hlimit⟩
  | some t =>
    cases t with
    | zero =>
      simp only [candidates, List.mem_singleton, ValidFactor]
      constructor
      · rintro rfl
        exact ⟨rfl, Nat.one_dvd limit⟩
      · exact fun h => h.1
    | succ t =>
      simp only [candidates, mem_divisors, ValidFactor, Nat.dvd_gcd_iff]
      exact and_iff_left (Nat.gcd_ne_zero_left (Nat.succ_ne_zero t))

/-! ## 3. Growing -/

/-- An element is inserted behind those it may not precede. -/
theorem insertBy_append {α : Type} {le : α → α → Bool} {a : α} {back : List α}
    (hback : ∀ b ∈ back, le a b) : ∀ {front : List α}, (∀ b ∈ front, !le a b) →
    insertBy le a (front ++ back) = front ++ a :: back
  | [], _ => by
    cases back with
    | nil => rfl
    | cons b back => exact if_pos (hback b List.mem_cons_self)
  | b :: front, hfront => by
    have hb : le a b = false := by simpa using hfront b List.mem_cons_self
    rw [List.cons_append, insertBy, hb, if_neg Bool.false_ne_true,
      insertBy_append hback fun c hc => hfront c (List.mem_cons_of_mem b hc), List.cons_append]

/-- Sorting by insertion is the stable sort. -/
theorem sortBy_eq_mergeSort {α : Type} {le : α → α → Bool}
    (trans : ∀ a b c, le a b → le b c → le a c) (total : ∀ a b, le a b || le b a) :
    ∀ l, sortBy le l = l.mergeSort le
  | [] => by simp [sortBy]
  | a :: l => by
    obtain ⟨front, back, hcons, hl, hfront⟩ := List.mergeSort_cons trans total a l
    have hsorted := List.pairwise_mergeSort trans total (a :: l)
    rw [hcons, List.pairwise_append, List.pairwise_cons] at hsorted
    calc sortBy le (a :: l) = insertBy le a (sortBy le l) := rfl
      _ = insertBy le a (front ++ back) := by rw [sortBy_eq_mergeSort trans total l, hl]
      _ = (a :: l).mergeSort le := by rw [insertBy_append hsorted.2.1.1 hfront, hcons]

namespace Shares

variable {goal : Nat} {s s' : Shares}

theorem product_eq (s : Shares) : s.product = (s.map Prod.fst).prod := by
  rw [product, List.prod_eq_foldl]

theorem mem_growthOrder {dim : Nat} : dim ∈ s.growthOrder ↔ dim < s.length := by
  have hkeys : s.growthOrder.Perm (s.zipIdx.reverse.map Prod.snd) := by
    rw [growthOrder, sortBy_eq_mergeSort (by grind) (by grind)]
    refine ((List.mergeSort_perm _ _).map Prod.snd).trans ?_
    rw [List.map_map]
    exact .refl _
  rw [hkeys.mem_iff, List.map_reverse, List.mem_reverse, List.zipIdx_map_snd]
  simp

/-- The share of one loop is replaced. -/
def Replaces (s : Shares) (share share' : Nat × Option Nat) (s' : Shares) : Prop :=
  ∃ outer inner, s = outer ++ share :: inner ∧ s' = outer ++ share' :: inner

/-- The other factors make up the rest of both products. -/
theorem Replaces.product {share share' : Nat × Option Nat} (h : s.Replaces share share' s') :
    ∃ rest, s.product = rest * share.1 ∧ s'.product = rest * share'.1 := by
  obtain ⟨outer, inner, rfl, rfl⟩ := h
  refine ⟨Shares.product outer * Shares.product inner, ?_, ?_⟩ <;>
  · simp only [product_eq, List.map_append, List.map_cons, List.prod_append, List.prod_cons]
    ac_rfl

/-- A growth picks a loop that has a next factor. -/
theorem of_grow?_eq_some (h : s.grow? goal = some s') : ∃ share next,
    s.Replaces share (next, share.2) s' ∧ nextFactor? goal s.product share = some next := by
  obtain ⟨dim, -, h⟩ := List.exists_of_findSome?_eq_some h
  obtain ⟨share, hshare, h⟩ := Option.bind_eq_some_iff.mp h
  obtain ⟨next, hnext, h⟩ := Option.bind_eq_some_iff.mp h
  cases h
  obtain ⟨hlt, rfl⟩ := List.getElem?_eq_some_iff.mp hshare
  refine ⟨s[dim], next, ?_, hnext⟩
  obtain ⟨outer, inner, hs, -, hset⟩ := List.exists_of_set hlt
  exact ⟨outer, inner, hs, hset⟩

/-- Where nothing grows, no loop has a next factor. -/
theorem of_grow?_eq_none (h : s.grow? goal = none) :
    ∀ share ∈ s, nextFactor? goal s.product share = none := by
  intro share hshare
  obtain ⟨dim, hdim⟩ := List.mem_iff_getElem?.mp hshare
  have hlt : dim < s.length := (List.getElem?_eq_some_iff.mp hdim).1
  have hnone := List.findSome?_eq_none_iff.mp h dim (mem_growthOrder.mpr hlt)
  cases hnext : nextFactor? goal s.product share with
  | none => rfl
  | some next => simp [hdim, hnext] at hnone

/-- The factors are on their way to the goal: their product divides it, and is not zero. -/
structure Toward (goal : Nat) (s : Shares) : Prop where
  pos : ∀ share ∈ s, 0 < share.1
  dvd : s.product ∣ goal

/-- `s.Grows goal s'`: one factor grows to a valid one, and the product still divides the goal. -/
structure Grows (goal : Nat) (s s' : Shares) : Prop where
  step : ∃ n trip next, s.Replaces (n, trip) (next, trip) s' ∧ n < next ∧ ValidFactor trip next
  dvd : s'.product ∣ goal

theorem Toward.product_pos (h : s.Toward goal) : 0 < s.product := by
  rw [product_eq]
  refine List.prod_pos fun n hn => ?_
  obtain ⟨share, hshare, rfl⟩ := List.mem_map.mp hn
  exact h.pos share hshare

/-- The room of a loop: its factor, and what the product is missing. -/
theorem Toward.room (h : s.Toward goal) {rest n : Nat} (hproduct : s.product = rest * n) :
    goal / (s.product / n) = n * (goal / s.product) := by
  have hpos : 0 < rest * n := hproduct ▸ h.product_pos
  obtain ⟨missing, rfl⟩ := h.dvd
  rw [hproduct, Nat.mul_div_cancel _ (Nat.pos_of_mul_pos_left hpos),
    Nat.mul_div_cancel_left _ hpos, Nat.mul_assoc,
    Nat.mul_div_cancel_left _ (Nat.pos_of_mul_pos_right hpos)]

/-- The next factor of a loop is valid and divides its room. -/
theorem Toward.nextFactor?_eq_some (hgoal : goal ≠ 0) (h : s.Toward goal) {rest n : Nat}
    {trip : Option Nat} {next : Nat} (hproduct : s.product = rest * n)
    (hnext : nextFactor? goal s.product (n, trip) = some next) :
    n < next ∧ ValidFactor trip next ∧ next ∣ n * (goal / s.product) := by
  have hroom : n * (goal / s.product) ≠ 0 := by
    have hpos : 0 < rest * n := hproduct ▸ h.product_pos
    have hmissing : 0 < goal / s.product :=
      Nat.div_pos (Nat.le_of_dvd (Nat.pos_of_ne_zero hgoal) h.dvd) h.product_pos
    exact (Nat.mul_pos (Nat.pos_of_mul_pos_left hpos) hmissing).ne'
  rw [nextFactor?, h.room hproduct] at hnext
  exact ⟨by simpa using List.find?_some hnext,
    (mem_candidates hroom).mp (List.mem_of_find?_eq_some hnext)⟩

/-- A factor within the room of a loop leaves the product a divisor of the goal. -/
theorem Toward.mul_dvd (h : s.Toward goal) {rest n next : Nat} (hproduct : s.product = rest * n)
    (hdvd : next ∣ n * (goal / s.product)) : rest * next ∣ goal :=
  calc rest * next ∣ rest * (n * (goal / s.product)) := Nat.mul_dvd_mul_left rest hdvd
    _ = s.product * (goal / s.product) := by rw [← Nat.mul_assoc, ← hproduct]
    _ = goal := Nat.mul_div_cancel' h.dvd

theorem Toward.grows (hgoal : goal ≠ 0) (h : s.Toward goal) (hgrow : s.grow? goal = some s') :
    s.Grows goal s' := by
  obtain ⟨⟨n, trip⟩, next, hrep, hnext⟩ := of_grow?_eq_some hgrow
  obtain ⟨rest, hproduct, hproduct'⟩ := hrep.product
  obtain ⟨hlt, hvalid, hdvd⟩ := h.nextFactor?_eq_some hgoal hproduct hnext
  exact ⟨⟨n, trip, next, hrep, hlt, hvalid⟩, hproduct' ▸ h.mul_dvd hproduct hdvd⟩

theorem Grows.toward (h : s.Toward goal) (hgrows : s.Grows goal s') : s'.Toward goal := by
  obtain ⟨⟨n, trip, next, ⟨outer, inner, rfl, rfl⟩, hlt, hvalid⟩, hdvd⟩ := hgrows
  refine ⟨fun share hshare => ?_, hdvd⟩
  simp only [List.mem_append, List.mem_cons] at hshare
  rcases hshare with hmem | rfl | hmem
  · exact h.pos share (by simp [hmem])
  · exact hvalid.pos
  · exact h.pos share (by simp [hmem])

theorem Grows.product_lt (h : s.Toward goal) (hgrows : s.Grows goal s') :
    s.product < s'.product := by
  obtain ⟨n, trip, next, hrep, hlt, -⟩ := hgrows.step
  obtain ⟨rest, hproduct, hproduct'⟩ := hrep.product
  have hpos : 0 < rest * n := hproduct ▸ h.product_pos
  rw [hproduct, hproduct']
  exact Nat.mul_lt_mul_of_pos_left hlt (Nat.pos_of_mul_pos_right hpos)

/-- **Growing goes step by step.** -/
theorem Toward.growAll (hgoal : goal ≠ 0) : ∀ {steps : Nat} {s : Shares}, s.Toward goal →
    Relation.ReflTransGen (Grows goal) s (growAll goal steps s)
  | 0, s, _ => .refl
  | steps + 1, s, h => by
    rw [Shares.growAll]
    split
    · exact .refl
    · split
      · exact .refl
      · rename_i s' hgrow
        have hgrows := h.grows hgoal hgrow
        exact .head hgrows ((hgrows.toward h).growAll hgoal)

/-- Each growth raises the product, so as many steps as the goal is large suffice: in the end the
product is the goal, or nothing grows. -/
theorem Toward.growAll_ends (hgoal : goal ≠ 0) : ∀ {steps : Nat} {s : Shares}, s.Toward goal →
    goal ≤ s.product + steps →
      (Shares.growAll goal steps s).product = goal ∨ (Shares.growAll goal steps s).grow? goal = none
  | steps, s, h, hsteps => by
    have hle : s.product ≤ goal := Nat.le_of_dvd (Nat.pos_of_ne_zero hgoal) h.dvd
    cases steps with
    | zero => exact .inl (Nat.le_antisymm hle hsteps)
    | succ steps =>
      rw [Shares.growAll]
      split
      · rename_i hdone
        exact .inl (Nat.le_antisymm hle hdone)
      · split
        · rename_i hnone
          exact .inr hnone
        · rename_i s' hgrow
          have hgrows := h.grows hgoal hgrow
          have hlt := hgrows.product_lt h
          exact (hgrows.toward h).growAll_ends hgoal (by omega)

theorem toward_of_run (h : s.Toward goal) (hrun : Relation.ReflTransGen (Grows goal) s s') :
    s'.Toward goal := by
  induction hrun with
  | refl => exact h
  | tail _ hgrows ih => exact hgrows.toward ih

theorem Grows.map_snd (h : s.Grows goal s') : s'.map Prod.snd = s.map Prod.snd := by
  obtain ⟨n, trip, next, ⟨outer, inner, rfl, rfl⟩, -⟩ := h.step
  simp

theorem map_snd_of_run (hrun : Relation.ReflTransGen (Grows goal) s s') :
    s'.map Prod.snd = s.map Prod.snd := by
  induction hrun with
  | refl => rfl
  | tail _ hgrows ih => exact hgrows.map_snd.trans ih

theorem Grows.valid (h : s.Grows goal s') (hs : ∀ share ∈ s, ValidFactor share.2 share.1) :
    ∀ share ∈ s', ValidFactor share.2 share.1 := by
  obtain ⟨n, trip, next, ⟨outer, inner, rfl, rfl⟩, -, hvalid⟩ := h.step
  intro share hshare
  simp only [List.mem_append, List.mem_cons] at hshare
  rcases hshare with hmem | rfl | hmem
  · exact hs share (by simp [hmem])
  · exact hvalid
  · exact hs share (by simp [hmem])

/-- Growing keeps factors valid. -/
theorem valid_of_run (hrun : Relation.ReflTransGen (Grows goal) s s')
    (hs : ∀ share ∈ s, ValidFactor share.2 share.1) :
    ∀ share ∈ s', ValidFactor share.2 share.1 := by
  induction hrun with
  | refl => exact hs
  | tail _ hgrows ih => exact hgrows.valid ih

/-! ## 4. Where nothing grows -/

/-- A loop that cannot grow has nothing left that what is missing from the goal could use. -/
theorem exists_coprime_of_stuck {missing n : Nat} {trip : Option Nat} (hmissing : 1 < missing)
    (hn : ValidFactor trip n)
    (hstuck : ∀ d, ValidFactor trip d → d ∣ n * missing → d ≤ n) :
    ∃ left, missing.Coprime left ∧ ∀ d, ValidFactor trip d → d ∣ n * left := by
  have hpos : 0 < n := hn.pos
  cases trip with
  | none =>
    -- Any multiple is valid, so the loop could grow.
    have hle : n * missing ≤ n :=
      hstuck (n * missing) (Nat.mul_pos hpos (by omega)) (Nat.dvd_refl _)
    have hlt : n * 1 < n * missing := Nat.mul_lt_mul_of_pos_left hmissing hpos
    omega
  | some t =>
    obtain ⟨left, hleft⟩ := validFactor_some.mp hn
    refine ⟨left, ?_, fun d hd => hleft ▸ validFactor_some.mp hd⟩
    -- The common divisor could be taken up as well.
    have hvalid : ValidFactor (some t) (n * missing.gcd left) := by
      rw [validFactor_some, hleft]
      exact Nat.mul_dvd_mul_left n (Nat.gcd_dvd_right missing left)
    have hle := hstuck _ hvalid (Nat.mul_dvd_mul_left n (Nat.gcd_dvd_left missing left))
    have hgcd : 0 < missing.gcd left := Nat.gcd_pos_of_pos_left left (by omega)
    have hle' : missing.gcd left ≤ 1 := Nat.le_of_mul_le_mul_left (by omega) hpos
    exact Nat.coprime_iff_gcd_eq_one.mpr (by omega)

/-- Valid factors have a product that divides the present one but for a part coprime to what is
missing. -/
theorem exists_coprime_of_all_stuck {missing : Nat} (hmissing : 1 < missing) :
    ∀ {s : Shares} {factors : List Nat}, (∀ share ∈ s, ValidFactor share.2 share.1 ∧
        ∀ d, ValidFactor share.2 d → d ∣ share.1 * missing → d ≤ share.1) →
      List.Forall₂ ValidFactor (s.map Prod.snd) factors →
      ∃ left, missing.Coprime left ∧ factors.prod ∣ s.product * left
  | [], factors, _, hvalid => by
    cases hvalid
    exact ⟨1, Nat.coprime_one_right missing, by simp [product_eq]⟩
  | (n, trip) :: s, factors, hstuck, hvalid => by
    cases hvalid with
    | @cons _ d _ factors hd hvalid =>
      obtain ⟨⟨hn, hhere⟩, hstuck⟩ := List.forall_mem_cons.mp hstuck
      obtain ⟨left, hco, hleft⟩ := exists_coprime_of_stuck hmissing hn hhere
      obtain ⟨left', hco', hleft'⟩ := exists_coprime_of_all_stuck hmissing hstuck hvalid
      refine ⟨left * left', hco.mul_right hco', ?_⟩
      have hmul := Nat.mul_dvd_mul (hleft d hd) hleft'
      simp only [product_eq, List.map_cons, List.prod_cons] at hmul ⊢
      rwa [Nat.mul_mul_mul_comm] at hmul

/-- **Growing misses nothing.**  If the factors are valid, divide the goal, and none can grow, then
they make the goal or no valid factors do. -/
theorem not_hasShare_of_stuck (hgoal : goal ≠ 0) (h : s.Toward goal)
    (hvalid : ∀ share ∈ s, ValidFactor share.2 share.1) (hne : s.product ≠ goal)
    (hstuck : s.grow? goal = none) : ¬ HasShare goal (s.map Prod.snd) := by
  rintro ⟨factors, hfactors, hprod⟩
  have hpos := h.product_pos
  obtain ⟨missing, rfl⟩ := h.dvd
  have hmissing : 1 < missing := by
    have hone : missing ≠ 1 := fun heq => hne (by rw [heq, Nat.mul_one])
    have hzero : missing ≠ 0 := fun heq => hgoal (by rw [heq, Nat.mul_zero])
    omega
  have hall : ∀ share ∈ s, ValidFactor share.2 share.1 ∧
      ∀ d, ValidFactor share.2 d → d ∣ share.1 * missing → d ≤ share.1 := by
    intro share hshare
    refine ⟨hvalid share hshare, fun d hd hdvd => ?_⟩
    obtain ⟨outer, inner, hs⟩ := List.append_of_mem hshare
    have hself : s.Replaces share share s := ⟨outer, inner, hs, hs⟩
    obtain ⟨rest, hproduct, -⟩ := hself.product
    have hnone := of_grow?_eq_none hstuck share hshare
    rw [nextFactor?, h.room hproduct, Nat.mul_div_cancel_left _ hpos, List.find?_eq_none] at hnone
    have hroom : share.1 * missing ≠ 0 :=
      (Nat.mul_pos (hvalid share hshare).pos (by omega)).ne'
    simpa using hnone d ((mem_candidates hroom).mpr ⟨hd, hdvd⟩)
  obtain ⟨left, hco, hleft⟩ := exists_coprime_of_all_stuck hmissing hall hfactors
  rw [hprod] at hleft
  have hdvd : missing ∣ left := Nat.dvd_of_mul_dvd_mul_left hpos hleft
  have hone : missing = 1 := hco.eq_one_of_dvd hdvd
  omega

end Shares

/-! ## 5. Even shares -/

theorem product?_go : ∀ {ns : List Nat} {acc p : Nat}, ns.foldlM mul? acc = some p →
    p = acc * ns.prod
  | [], acc, p, h => by
    cases h
    simp
  | n :: ns, acc, p, h => by
    rw [List.foldlM_cons] at h
    obtain ⟨q, hq, h⟩ := Option.bind_eq_some_iff.mp h
    rw [mul?, Option.ite_none_right_eq_some] at hq
    cases hq.2
    rw [product?_go h, List.prod_cons, Nat.mul_assoc]

theorem product?_eq_some {ns : List Nat} {p : Nat} (h : product? ns = some p) : p = ns.prod := by
  rw [product?_go h, Nat.one_mul]

/-- A product of positive numbers that is a word has only words on the way. -/
theorem foldlM_mul?_of_le : ∀ {ns : List Nat} {acc : Nat}, (∀ n ∈ ns, 0 < n) →
    acc * ns.prod ≤ wordMax → ns.foldlM mul? acc = some (acc * ns.prod)
  | [], acc, _, _ => by simp
  | n :: ns, acc, hpos, hle => by
    obtain ⟨hn, hpos⟩ := List.forall_mem_cons.mp hpos
    rw [List.prod_cons, ← Nat.mul_assoc] at hle ⊢
    have hfit : acc * n ≤ wordMax :=
      (Nat.le_mul_of_pos_right _ (List.prod_pos hpos)).trans hle
    rw [List.foldlM_cons, mul?, if_pos hfit]
    exact foldlM_mul?_of_le hpos hle

theorem product?_of_le {ns : List Nat} (hpos : ∀ n ∈ ns, 0 < n) (hle : ns.prod ≤ wordMax) :
    product? ns = some ns.prod := by
  have hgo : ns.foldlM mul? 1 = some (1 * ns.prod) :=
    foldlM_mul?_of_le hpos (by rwa [Nat.one_mul])
  rwa [Nat.one_mul] at hgo

/-- The factors that a share starts from: those of the base, and at least one. -/
def raisedBase (base : List Nat) : List Nat := base.map (Nat.max · 1)

variable {goal : Nat} {base factors : List Nat} {shape : List (Option Nat)}

theorem raisedBase_pos : ∀ n ∈ raisedBase base, 0 < n := by
  intro n hn
  obtain ⟨b, -, rfl⟩ := List.mem_map.mp hn
  exact Nat.lt_of_lt_of_le Nat.one_pos (Nat.le_max_right b 1)

@[simp] theorem raisedBase_length : (raisedBase base).length = base.length := by simp [raisedBase]

theorem raisedBase_of_pos (h : ∀ n ∈ base, 0 < n) : raisedBase base = base := by
  rw [raisedBase]
  conv_rhs => rw [← List.map_id base]
  refine List.map_congr_left fun n hn => ?_
  exact Nat.max_eq_left (h n hn)

/-- A base is on its way to the goal as soon as its product divides it. -/
theorem toward_zip (hlen : base.length = shape.length) (hdvd : (raisedBase base).prod ∣ goal) :
    Shares.Toward goal ((raisedBase base).zip shape) where
  pos := fun share hshare => raisedBase_pos share.1 (List.of_mem_zip hshare).1
  dvd := by rwa [Shares.product_eq, List.map_fst_zip (by simp [hlen])]

/-- Growing from the base to the end. -/
def grown (goal : Nat) (base : List Nat) (shape : List (Option Nat)) : Shares :=
  Shares.growAll goal goal ((raisedBase base).zip shape)

/-- When there is an even share: the product of the base divides the goal, and growing from the base
reaches it. -/
theorem evenFactors_eq_some_iff : evenFactors goal base shape = some factors ↔
    goal ≠ 0 ∧ base.length = shape.length ∧ (raisedBase base).prod ∣ goal ∧
      product? (raisedBase base) = some (raisedBase base).prod ∧
      (grown goal base shape).product = goal ∧ factors = (grown goal base shape).map Prod.fst := by
  have hunfold : evenFactors goal base shape =
      if base.length ≠ shape.length || goal = 0 then none
      else (product? (raisedBase base)).bind fun product =>
        if goal < product || goal % product ≠ 0 then none
        else if (grown goal base shape).product = goal then
          some ((grown goal base shape).map Prod.fst)
        else none := by
    simp only [evenFactors, raisedBase]
    split
    · rfl
    · cases product? (base.map (Nat.max · 1)) <;> rfl
  rw [hunfold]
  constructor
  · intro h
    split at h
    · cases h
    · rename_i hguard
      simp only [Bool.or_eq_true, decide_eq_true_eq, not_or, not_not] at hguard
      obtain ⟨p, hp, h⟩ := Option.bind_eq_some_iff.mp h
      obtain rfl := product?_eq_some hp
      split at h
      · cases h
      · rename_i hdvd
        simp only [Bool.or_eq_true, decide_eq_true_eq, not_or, not_not] at hdvd
        rw [Option.ite_none_right_eq_some, Option.some.injEq] at h
        exact ⟨hguard.2, hguard.1, Nat.dvd_of_mod_eq_zero hdvd.2, hp, h.1, h.2.symm⟩
  · rintro ⟨hgoal, hlen, hdvd, hp, hprod, rfl⟩
    have hle : (raisedBase base).prod ≤ goal := Nat.le_of_dvd (Nat.pos_of_ne_zero hgoal) hdvd
    simp [hgoal, hlen, hp, hprod, Nat.not_lt.mpr hle, Nat.mod_eq_zero_of_dvd hdvd]

/-- The shares that growing ends with belong to the same loops. -/
theorem grown_run (hgoal : goal ≠ 0) (hlen : base.length = shape.length)
    (hdvd : (raisedBase base).prod ∣ goal) :
    Relation.ReflTransGen (Shares.Grows goal) ((raisedBase base).zip shape)
      (grown goal base shape) ∧ (grown goal base shape).map Prod.snd = shape := by
  have hrun : Relation.ReflTransGen (Shares.Grows goal) ((raisedBase base).zip shape)
      (grown goal base shape) := (toward_zip hlen hdvd).growAll hgoal
  refine ⟨hrun, ?_⟩
  rw [Shares.map_snd_of_run hrun, List.map_snd_zip (by simp [hlen])]

theorem prod_evenFactors (h : evenFactors goal base shape = some factors) :
    factors.prod = goal := by
  obtain ⟨-, -, -, -, hprod, rfl⟩ := evenFactors_eq_some_iff.mp h
  rw [← Shares.product_eq, hprod]

theorem length_evenFactors (h : evenFactors goal base shape = some factors) :
    factors.length = shape.length := by
  obtain ⟨hgoal, hlen, hdvd, -, -, rfl⟩ := evenFactors_eq_some_iff.mp h
  have hshape := congrArg List.length (grown_run hgoal hlen hdvd).2
  simpa using hshape

theorem evenFactors_pos (h : evenFactors goal base shape = some factors) :
    ∀ n ∈ factors, 0 < n := by
  obtain ⟨hgoal, hlen, hdvd, -, -, rfl⟩ := evenFactors_eq_some_iff.mp h
  have htoward := Shares.toward_of_run (toward_zip hlen hdvd) (grown_run hgoal hlen hdvd).1
  intro n hn
  obtain ⟨share, hshare, rfl⟩ := List.mem_map.mp hn
  exact htoward.pos share hshare

theorem valid_zip (hbase : List.Forall₂ ValidFactor shape factors) :
    ∀ share ∈ factors.zip shape, ValidFactor share.2 share.1 := by
  intro share hshare
  exact (List.forall₂_iff_zip.mp hbase.flip).2 hshare

/-- From a valid base, growing gives valid factors. -/
theorem grown_valid (hgoal : goal ≠ 0) (hdvd : (raisedBase base).prod ∣ goal)
    (hbase : List.Forall₂ ValidFactor shape (raisedBase base)) :
    ∀ share ∈ grown goal base shape, ValidFactor share.2 share.1 := by
  have hlen : base.length = shape.length := by simpa using hbase.length_eq.symm
  exact Shares.valid_of_run (grown_run hgoal hlen hdvd).1 (valid_zip hbase)

theorem evenFactors_valid (hbase : List.Forall₂ ValidFactor shape (raisedBase base))
    (h : evenFactors goal base shape = some factors) : List.Forall₂ ValidFactor shape factors := by
  obtain ⟨hgoal, hlen, hdvd, -, -, rfl⟩ := evenFactors_eq_some_iff.mp h
  have hvalid : List.Forall₂ ValidFactor ((grown goal base shape).map Prod.snd)
      ((grown goal base shape).map Prod.fst) := by
    rw [List.forall₂_map_left_iff, List.forall₂_map_right_iff, List.forall₂_same]
    exact grown_valid hgoal hdvd hbase
  rwa [(grown_run hgoal hlen hdvd).2] at hvalid

/-- **From a valid base there is an even share exactly when valid factors can make the goal.** -/
theorem exists_evenFactors_iff (hgoal : goal ≠ 0)
    (hbase : List.Forall₂ ValidFactor shape (raisedBase base))
    (hdvd : (raisedBase base).prod ∣ goal) (hword : (raisedBase base).prod ≤ wordMax) :
    (∃ factors, evenFactors goal base shape = some factors) ↔ HasShare goal shape := by
  constructor
  · rintro ⟨factors, h⟩
    exact ⟨factors, evenFactors_valid hbase h, prod_evenFactors h⟩
  · intro hshare
    have hlen : base.length = shape.length := by simpa using hbase.length_eq.symm
    have htoward := toward_zip hlen hdvd
    obtain ⟨hrun, hshape⟩ := grown_run hgoal hlen hdvd
    suffices hprod : (grown goal base shape).product = goal from
      ⟨_, evenFactors_eq_some_iff.mpr
        ⟨hgoal, hlen, hdvd, product?_of_le raisedBase_pos hword, hprod, rfl⟩⟩
    by_contra hne
    have hstuck := (htoward.growAll_ends hgoal (Nat.le_add_left goal _)).resolve_left hne
    refine Shares.not_hasShare_of_stuck hgoal (Shares.toward_of_run htoward hrun)
      (grown_valid hgoal hdvd hbase) hne hstuck ?_
    rwa [hshape]

/-! ## 6. Greedy shares -/

/-- The largest factor of a loop is valid and within the limit. -/
theorem largestFactor_spec (trip : Option Nat) {limit : Nat} (hlimit : 0 < limit) :
    ValidFactor trip (largestFactor trip limit) ∧ largestFactor trip limit ≤ limit := by
  cases trip with
  | none => exact ⟨hlimit, Nat.le_refl limit⟩
  | some t =>
    cases t with
    | zero => exact ⟨rfl, hlimit⟩
    | succ t =>
      simp only [largestFactor]
      split
      · rename_i hle
        exact ⟨Nat.dvd_refl _, hle⟩
      · cases hlast : ((divisors (t + 1)).takeWhile (· ≤ limit)).getLast? with
        | none => exact ⟨Nat.one_dvd _, hlimit⟩
        | some d =>
          have hmem := List.mem_of_getLast? hlast
          have hdvd := (mem_divisors.mp (List.takeWhile_subset _ hmem)).1
          exact ⟨hdvd, by simpa using List.mem_takeWhile_imp hmem⟩

/-- **Greedy factors are valid, and with what is left they stay within the total.** -/
theorem greedyFrom_spec {total : Nat} (htotal : 0 < total) : ∀ shape : List (Option Nat),
    List.Forall₂ ValidFactor shape (greedyFrom total shape).1 ∧ 0 < (greedyFrom total shape).2 ∧
      (greedyFrom total shape).1.prod * (greedyFrom total shape).2 ≤ total
  | [] => ⟨.nil, htotal, by simp [greedyFrom]⟩
  | trip :: shape => by
    obtain ⟨hvalid, hleft, hle⟩ := greedyFrom_spec htotal shape
    obtain ⟨hfactor, hlimit⟩ := largestFactor_spec trip hleft
    refine ⟨.cons hfactor hvalid, Nat.div_pos hlimit hfactor.pos, ?_⟩
    simp only [greedyFrom, List.prod_cons]
    generalize largestFactor trip (greedyFrom total shape).2 = factor
    calc factor * (greedyFrom total shape).1.prod * ((greedyFrom total shape).2 / factor)
        = (greedyFrom total shape).1.prod * (factor * ((greedyFrom total shape).2 / factor)) := by
          ac_rfl
      _ ≤ (greedyFrom total shape).1.prod * (greedyFrom total shape).2 :=
          Nat.mul_le_mul_left _ (Nat.mul_div_le _ _)
      _ ≤ total := hle

theorem greedyFactors_valid (goal : Nat) (shape : List (Option Nat)) :
    List.Forall₂ ValidFactor shape (greedyFactors goal shape) :=
  (greedyFrom_spec (Nat.lt_of_lt_of_le Nat.one_pos (Nat.le_max_right goal 1)) shape).1

theorem prod_greedyFactors_le (goal : Nat) (shape : List (Option Nat)) :
    (greedyFactors goal shape).prod ≤ max goal 1 := by
  obtain ⟨-, hleft, hle⟩ :=
    greedyFrom_spec (Nat.lt_of_lt_of_le Nat.one_pos (Nat.le_max_right goal 1)) shape
  exact (Nat.le_mul_of_pos_right _ hleft).trans hle

theorem pos_of_valid (h : List.Forall₂ ValidFactor shape factors) : ∀ n ∈ factors, 0 < n := by
  intro n hn
  induction h with
  | nil => cases hn
  | cons hvalid _ ih =>
    rcases List.mem_cons.mp hn with rfl | hn
    · exact hvalid.pos
    · exact ih hn

/-! ## 7. Shares -/

theorem shareFactor_of_some (h : evenFactors goal base shape = some factors) :
    shareFactor goal base shape = factors := by rw [shareFactor, h, Option.getD_some]

theorem shareFactor_of_none (h : evenFactors goal base shape = none) :
    shareFactor goal base shape = greedyFactors goal shape := by
  rw [shareFactor, h, Option.getD_none]

/-- **A share stays within the goal.** -/
theorem prod_shareFactor_le (goal : Nat) (base : List Nat) (shape : List (Option Nat)) :
    (shareFactor goal base shape).prod ≤ max goal 1 := by
  cases h : evenFactors goal base shape with
  | some factors =>
    rw [shareFactor_of_some h, prod_evenFactors h]
    exact Nat.le_max_left goal 1
  | none =>
    rw [shareFactor_of_none h]
    exact prod_greedyFactors_le goal shape

theorem shareFactor_pos (goal : Nat) (base : List Nat) (shape : List (Option Nat)) :
    ∀ n ∈ shareFactor goal base shape, 0 < n := by
  cases h : evenFactors goal base shape with
  | some factors =>
    rw [shareFactor_of_some h]
    exact evenFactors_pos h
  | none =>
    rw [shareFactor_of_none h]
    exact pos_of_valid (greedyFactors_valid goal shape)

@[simp] theorem length_shareFactor (goal : Nat) (base : List Nat) (shape : List (Option Nat)) :
    (shareFactor goal base shape).length = shape.length := by
  cases h : evenFactors goal base shape with
  | some factors => rw [shareFactor_of_some h, length_evenFactors h]
  | none =>
    rw [shareFactor_of_none h]
    exact (greedyFactors_valid goal shape).length_eq.symm

/-- **A share over a valid base is valid.** -/
theorem shareFactor_valid (hbase : List.Forall₂ ValidFactor shape (raisedBase base)) :
    List.Forall₂ ValidFactor shape (shareFactor goal base shape) := by
  cases h : evenFactors goal base shape with
  | some factors =>
    rw [shareFactor_of_some h]
    exact evenFactors_valid hbase h
  | none =>
    rw [shareFactor_of_none h]
    exact greedyFactors_valid goal shape

theorem raisedBase_ones (shape : List (Option Nat)) :
    List.Forall₂ ValidFactor shape (raisedBase (List.replicate shape.length 1)) := by
  induction shape with
  | nil => exact .nil
  | cons trip shape ih => exact .cons (validFactor_one trip) ih

end Dataflow
