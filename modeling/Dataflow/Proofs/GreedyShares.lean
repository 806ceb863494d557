/-
# Usable shares within the goal

Whatever base a share starts from, it has one factor for each loop, all at least one, with a product
within the goal.  The base may come from another band: it may have another length, and its factors
need not be valid.

The greedy share, which is the answer where there is no even one, is served from the innermost loop
outwards.  Each loop takes the largest valid factor within what the loops inside it left of the goal
(`greedyFrom_isGreatest`).  That it is the largest rests on the order of the divisors: those within
a limit come first (`pairwise_divisors`).
-/
import Mathlib.Order.Bounds.Basic
import Dataflow.Proofs.Factors

namespace Dataflow

/-! ## 1. Divisors in order -/

theorem pairwise_divisorsUpTo {n : Nat} : ∀ {bound : Nat} {ds : List Nat},
    ds.Pairwise (· < ·) → (∀ d ∈ ds, bound < d) → (divisorsUpTo n bound ds).Pairwise (· < ·)
  | 0, ds, h, _ => h
  | bound + 1, ds, h, hds => by
    rw [divisorsUpTo]
    split
    · refine pairwise_divisorsUpTo (List.pairwise_cons.mpr ⟨hds, h⟩) ?_
      intro d hd
      rcases List.mem_cons.mp hd with rfl | hd
      · exact Nat.lt_succ_self bound
      · exact (Nat.lt_succ_self bound).trans (hds d hd)
    · exact pairwise_divisorsUpTo h fun d hd => (Nat.lt_succ_self bound).trans (hds d hd)

/-- A divisor up to the square root lies below the cofactor of any other, unless that one is the
root. -/
theorem lt_div_of_le_sqrt {n d c : Nat} (hd : d ≤ n.sqrt) (hc : c ≤ n.sqrt) (hdvd : c ∣ n)
    (hne : c * c ≠ n) : d < n / c := by
  have hmul : c * (n / c) = n := Nat.mul_div_cancel' hdvd
  have hsq : n.sqrt * n.sqrt ≤ n := Nat.sqrt_le n
  refine hd.trans_lt (Nat.lt_of_not_le fun hle => ?_)
  -- Both cofactors are within the root, so both are the root.
  have hle' : c * (n / c) ≤ c * n.sqrt := Nat.mul_le_mul_left c hle
  have hroot : n.sqrt ≤ c := by
    by_contra hlt
    have hpos : 0 < n.sqrt := by omega
    have hless : c * n.sqrt < n.sqrt * n.sqrt := Nat.mul_lt_mul_of_pos_right (by omega) hpos
    omega
  have heq : c = n.sqrt := Nat.le_antisymm hc hroot
  rw [← heq] at hsq hle'
  omega

/-- **Divisors are listed in ascending order.** -/
theorem pairwise_divisors (n : Nat) : (divisors n).Pairwise (· < ·) := by
  have hsmall : (divisorsUpTo n n.sqrt []).Pairwise (· < ·) :=
    pairwise_divisorsUpTo .nil fun d hd => by cases hd
  have hmem : ∀ {d}, d ∈ divisorsUpTo n n.sqrt [] → 0 < d ∧ d ≤ n.sqrt ∧ d ∣ n := by
    intro d hd
    simpa using mem_divisorsUpTo.mp hd
  simp only [divisors, isqrt_eq]
  refine List.pairwise_append.mpr ⟨hsmall, List.pairwise_map.mpr ?_, ?_⟩
  · refine List.Pairwise.imp_of_mem ?_ ((List.pairwise_reverse.mpr hsmall).filter _)
    intro c d hc hd hlt
    obtain ⟨-, -, hcdvd⟩ := hmem (List.mem_reverse.mp (List.mem_filter.mp hc).1)
    obtain ⟨hdpos, hdle, hddvd⟩ := hmem (List.mem_reverse.mp (List.mem_filter.mp hd).1)
    have hn : n ≠ 0 := by
      rintro rfl
      simp at hdle
      omega
    exact (Nat.div_lt_div_left hn hcdvd hddvd).mpr hlt
  · intro d hd e he
    obtain ⟨c, hc, rfl⟩ := List.mem_map.mp he
    obtain ⟨hc, hne⟩ := List.mem_filter.mp hc
    obtain ⟨-, hcle, hcdvd⟩ := hmem (List.mem_reverse.mp hc)
    exact lt_div_of_le_sqrt (hmem hd).2.1 hcle hcdvd (by simpa using hne)

/-- In an ascending list, the members within a limit come first. -/
theorem mem_takeWhile_of_le {limit d : Nat} : ∀ {l : List Nat}, l.Pairwise (· < ·) → d ∈ l →
    d ≤ limit → d ∈ l.takeWhile (· ≤ limit)
  | first :: l, h, hd, hle => by
    obtain ⟨hfirst, h⟩ := List.pairwise_cons.mp h
    have hwithin : first ≤ limit := by
      rcases List.mem_cons.mp hd with rfl | hd
      · exact hle
      · exact (hfirst d hd).le.trans hle
    rw [List.takeWhile_cons_of_pos (by simpa using hwithin)]
    rcases List.mem_cons.mp hd with rfl | hd
    · exact List.mem_cons_self
    · exact List.mem_cons_of_mem first (mem_takeWhile_of_le h hd hle)

theorem le_getLast {last d : Nat} {l : List Nat} (h : l.Pairwise (· < ·))
    (hlast : l.getLast? = some last) (hd : d ∈ l) : d ≤ last := by
  obtain ⟨init, rfl⟩ := List.getLast?_eq_some_iff.mp hlast
  rcases List.mem_append.mp hd with hd | hd
  · exact ((List.pairwise_append.mp h).2.2 d hd last (by simp)).le
  · exact (List.mem_singleton.mp hd).le

/-! ## 2. The largest factor of a loop -/

/-- **The largest factor of a loop is the largest.** -/
theorem largestFactor_isGreatest (trip : Option Nat) {limit : Nat} (hlimit : 0 < limit) :
    IsGreatest {d | ValidFactor trip d ∧ d ≤ limit} (largestFactor trip limit) := by
  refine ⟨largestFactor_spec trip hlimit, ?_⟩
  rintro d ⟨hvalid, hle⟩
  cases trip with
  | none => exact hle
  | some t =>
    cases t with
    | zero => exact Nat.le_of_eq hvalid
    | succ t =>
      simp only [largestFactor]
      split
      · exact Nat.le_of_dvd (Nat.succ_pos t) hvalid
      · have hmem : d ∈ (divisors (t + 1)).takeWhile (· ≤ limit) :=
          mem_takeWhile_of_le (pairwise_divisors _)
            (mem_divisors.mpr ⟨hvalid, Nat.succ_ne_zero t⟩) hle
        cases hlast : ((divisors (t + 1)).takeWhile (· ≤ limit)).getLast? with
        | none =>
          rw [List.getLast?_eq_none_iff.mp hlast] at hmem
          cases hmem
        | some last =>
          have hsorted := (pairwise_divisors (t + 1)).sublist
            (List.takeWhile_sublist (· ≤ limit))
          exact le_getLast hsorted hlast hmem

/-! ## 3. The greedy share -/

/-- What is left of a total when it is divided by factors, the innermost first. -/
def leftAfter (total : Nat) (inner : List Nat) : Nat := inner.foldr (fun n left => left / n) total

variable {goal total : Nat} {base : List Nat} {shape : List (Option Nat)}

theorem leftAfter_greedyFrom (total : Nat) : ∀ shape : List (Option Nat),
    leftAfter total (greedyFrom total shape).1 = (greedyFrom total shape).2
  | [] => rfl
  | trip :: shape => by
    have ih : leftAfter total (greedyFrom total shape).1 = (greedyFrom total shape).2 :=
      leftAfter_greedyFrom total shape
    simp only [leftAfter, greedyFrom, List.foldr_cons] at ih ⊢
    rw [ih]

/-- **Each loop takes the largest valid factor within what the loops inside it left.** -/
theorem greedyFrom_isGreatest (htotal : 0 < total) : ∀ {shape : List (Option Nat)} {dim : Nat}
    {trip : Option Nat}, shape[dim]? = some trip →
      ∃ n, (greedyFrom total shape).1[dim]? = some n ∧
        IsGreatest {d | ValidFactor trip d ∧
          d ≤ leftAfter total ((greedyFrom total shape).1.drop (dim + 1))} n
  | [], _, _, h => by simp at h
  | trip :: shape, 0, trip', h => by
    cases h
    refine ⟨largestFactor trip (greedyFrom total shape).2, rfl, ?_⟩
    simp only [greedyFrom, List.drop_succ_cons, List.drop_zero, leftAfter_greedyFrom]
    exact largestFactor_isGreatest trip (greedyFrom_spec htotal shape).2.1
  | _ :: shape, dim + 1, trip', h => by
    rw [List.getElem?_cons_succ] at h
    simpa [greedyFrom] using greedyFrom_isGreatest htotal h

/-! ## 4. The contract of a share -/

/-- A base of another length than the band has no even share. -/
theorem evenFactors_of_length_ne (h : base.length ≠ shape.length) :
    evenFactors goal base shape = none := by
  simp [evenFactors, h]

/-- It is enough that the base is valid where it meets the band. -/
theorem shareFactor_valid_of_zip
    (hbase : ∀ share ∈ (raisedBase base).zip shape, ValidFactor share.2 share.1) :
    List.Forall₂ ValidFactor shape (shareFactor goal base shape) := by
  by_cases hlen : base.length = shape.length
  · refine shareFactor_valid (List.Forall₂.flip (List.forall₂_iff_zip.mpr ⟨?_, ?_⟩))
    · simpa using hlen
    · intro n trip hmem
      exact hbase (n, trip) hmem
  · rw [shareFactor_of_none (evenFactors_of_length_ne hlen)]
    exact greedyFactors_valid goal shape

/-- **A share is usable, and stays within the goal.**  From any base, a share of a goal has one
factor for each loop.  Each factor is at least one, and their product is at most the goal, or one if
the goal is zero.  If the factors of the base, raised to one, are valid for the loops they belong
to, so are those of the share.  A share is even, or it is the greedy one; and in that one each loop,
innermost first, holds the largest valid factor within what is left of the goal after division by
the factors of the loops inside it. -/
theorem shareFactor_usable (goal : Nat) (base : List Nat) (shape : List (Option Nat)) :
    (shareFactor goal base shape).length = shape.length
    ∧ (∀ n ∈ shareFactor goal base shape, 1 ≤ n)
    ∧ (shareFactor goal base shape).prod ≤ max goal 1
    ∧ ((∀ share ∈ (raisedBase base).zip shape, ValidFactor share.2 share.1) →
        List.Forall₂ ValidFactor shape (shareFactor goal base shape))
    ∧ (evenFactors goal base shape = some (shareFactor goal base shape)
        ∨ shareFactor goal base shape = greedyFactors goal shape)
    ∧ ∀ dim trip, shape[dim]? = some trip →
        ∃ n, (greedyFactors goal shape)[dim]? = some n ∧
          IsGreatest {d | ValidFactor trip d ∧
            d ≤ leftAfter (max goal 1) ((greedyFactors goal shape).drop (dim + 1))} n := by
  refine ⟨length_shareFactor goal base shape, shareFactor_pos goal base shape,
    prod_shareFactor_le goal base shape, shareFactor_valid_of_zip, ?_, ?_⟩
  · cases h : evenFactors goal base shape with
    | some factors => exact .inl (by rw [shareFactor_of_some h])
    | none => exact .inr (shareFactor_of_none h)
  · intro dim trip htrip
    have htotal : 0 < Nat.max goal 1 := Nat.lt_of_lt_of_le Nat.one_pos (Nat.le_max_right goal 1)
    exact greedyFrom_isGreatest htotal htrip

/-- Four over loops of three and five iterations, from a base that is one factor short: the inner
loop can take only one, and the outer one then takes all of its three. -/
theorem shareFactor_usable_threeFive :
    (∀ share ∈ (raisedBase [0]).zip [some 3, some 5], ValidFactor share.2 share.1)
    ∧ List.Forall₂ ValidFactor [some 3, some 5] (shareFactor 4 [0] [some 3, some 5])
    ∧ (shareFactor 4 [0] [some 3, some 5]).prod ≤ 4
    ∧ ∃ n, (greedyFactors 4 [some 3, some 5])[0]? = some n ∧
        IsGreatest {d | ValidFactor (some 3) d ∧
          d ≤ leftAfter 4 ((greedyFactors 4 [some 3, some 5]).drop 1)} n := by
  obtain ⟨-, -, hprod, hvalid, -, hgreedy⟩ := shareFactor_usable 4 [0] [some 3, some 5]
  have hbase : ∀ share ∈ (raisedBase [0]).zip [some 3, some 5], ValidFactor share.2 share.1 := by
    intro share hshare
    obtain rfl : share = (1, some 3) := by simpa [raisedBase] using hshare
    exact validFactor_one (some 3)
  exact ⟨hbase, hvalid hbase, hprod, hgreedy 0 (some 3) rfl⟩

end Dataflow
