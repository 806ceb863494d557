/-
# Trial division

The divisors of a word can be found without its square root.  Candidates are tried from one upwards
while they are at most their quotient; a divisor is listed with the small ones and its cofactor with
the large ones, unless the two are the same, and in the end the large ones are appended from the
last to the first.

After `k` rounds the small divisors are those up to `k` (`Trial.next?_after`), and the quotient
falls below the candidate right after the root (`le_div_self_iff`).  So the rounds end there, with
the list that `divisors` gives (`divisors_eq_trial`), and no number on the way is too large for a
word.
-/
import Mathlib.Data.List.Nodup
import Dataflow.Proofs.GreedyShares

namespace Dataflow

/-! ## 1. Rounds -/

/-- Trial division under way: the next candidate, the divisors below it that were found, ascending,
and their cofactors, descending. -/
structure Trial where
  candidate : Nat
  small : List Nat
  large : List Nat

namespace Trial

/-- Nothing is tried yet. -/
def start : Trial := ⟨1, [], []⟩

/-- Try the candidate, unless it is larger than its quotient, and go on to the next one. -/
def next? (n : Nat) (t : Trial) : Option Trial :=
  if t.candidate ≤ n / t.candidate then
    if n % t.candidate = 0 then
      some {
        candidate := t.candidate + 1
        small := t.small ++ [t.candidate]
        large := if t.candidate ≠ n / t.candidate then t.large ++ [n / t.candidate] else t.large }
    else some { t with candidate := t.candidate + 1 }
  else none

/-- One round. -/
def Round (n : Nat) (t t' : Trial) : Prop := t.next? n = some t'

/-- What a round computes with and what it computes are words: it divides by no zero, and the
candidate after one that is tried, as well as all that is listed, fits a word. -/
structure InWords (n : Nat) (t : Trial) : Prop where
  pos : 0 < t.candidate
  candidate : t.candidate ≤ wordMax
  next : t.candidate ≤ n / t.candidate → t.candidate + 1 ≤ wordMax
  found : ∀ d ∈ t.small ++ t.large, d ≤ wordMax

/-- The state after `k` rounds. -/
def after (n k : Nat) : Trial where
  candidate := k + 1
  small := divisorsUpTo n k []
  large := ((divisorsUpTo n k []).filter fun d => d * d ≠ n).map (n / ·)

end Trial

/-! ## 2. What a round adds -/

theorem divisorsUpTo_append (n : Nat) : ∀ (bound : Nat) (ds : List Nat),
    divisorsUpTo n bound ds = divisorsUpTo n bound [] ++ ds
  | 0, ds => rfl
  | bound + 1, ds => by
    rw [divisorsUpTo, divisorsUpTo, divisorsUpTo_append n bound (ite _ _ _),
      divisorsUpTo_append n bound (ite _ _ [])]
    split <;> simp

theorem divisorsUpTo_succ (n k : Nat) :
    divisorsUpTo n (k + 1) [] =
      divisorsUpTo n k [] ++ if n % (k + 1) = 0 then [k + 1] else [] := by
  rw [divisorsUpTo, divisorsUpTo_append]

/-- **A number is at most its quotient exactly up to the square root.** -/
theorem le_div_self_iff {n d : Nat} (hd : 0 < d) : d ≤ n / d ↔ d ≤ n.sqrt := by
  rw [Nat.le_div_iff_mul_le hd, Nat.le_sqrt]

/-- The square root of a word takes half of its bits. -/
theorem sqrt_le_wordMax32 {n : Nat} (hn : n ≤ wordMax) : n.sqrt ≤ wordMax32 := by
  have hlt : n < (wordMax32 + 1) * (wordMax32 + 1) := by
    simp only [wordMax, wordMax32] at hn ⊢
    omega
  exact Nat.le_of_lt_succ (Nat.sqrt_lt.mpr hlt)

/-- A divisor is its own cofactor exactly if it is the root. -/
theorem eq_div_self_iff {n d : Nat} (hd : 0 < d) (hdvd : d ∣ n) : d = n / d ↔ d * d = n := by
  obtain ⟨c, rfl⟩ := hdvd
  rw [Nat.mul_div_cancel_left c hd, Nat.mul_right_inj hd.ne']

namespace Trial

variable {n : Nat} {t : Trial}

/-- **One round**: up to the square root, the state after `k` rounds is followed by the next. -/
theorem next?_after (n k : Nat) :
    (after n k).next? n = if k < n.sqrt then some (after n (k + 1)) else none := by
  have hguard : k + 1 ≤ n / (k + 1) ↔ k < n.sqrt := le_div_self_iff (Nat.succ_pos k)
  simp only [next?, after, hguard, divisorsUpTo_succ]
  split
  · split
    · rename_i hdvd
      -- The cofactor joins the large divisors unless the candidate is the root.
      have hroot : k + 1 = n / (k + 1) ↔ (k + 1) * (k + 1) = n :=
        eq_div_self_iff (Nat.succ_pos k) (Nat.dvd_of_mod_eq_zero hdvd)
      by_cases hsq : (k + 1) * (k + 1) = n
      · simp [hdvd, hroot, hsq]
      · simp [hdvd, hroot, hsq]
    · rename_i hdvd
      simp [hdvd]
  · rfl

/-- **What is reached** are the states after as many rounds as there are candidates up to the
root. -/
theorem eq_after_of_run (hrun : Relation.ReflTransGen (Round n) start t) :
    ∃ k, k ≤ n.sqrt ∧ t = after n k := by
  induction hrun with
  | refl => exact ⟨0, Nat.zero_le _, rfl⟩
  | tail _ hround ih =>
    obtain ⟨k, -, rfl⟩ := ih
    rw [Round, next?_after, Option.ite_none_right_eq_some, Option.some.injEq] at hround
    exact ⟨k + 1, hround.1, hround.2.symm⟩

/-- From there the rounds go on to the root. -/
theorem run_to_root {k : Nat} (hk : k ≤ n.sqrt) :
    Relation.ReflTransGen (Round n) (after n k) (after n n.sqrt) := by
  induction hk using Nat.decreasingInduction with
  | self => exact .refl
  | of_succ k hk ih =>
    refine .head ?_ ih
    rw [Round, next?_after, if_pos hk]

theorem inWords_after {k : Nat} (hn : n ≤ wordMax) (hk : k ≤ n.sqrt) : (after n k).InWords n := by
  have hnext : k + 1 + 1 ≤ wordMax := by
    have hroot : k ≤ wordMax32 := hk.trans (sqrt_le_wordMax32 hn)
    simp only [wordMax, wordMax32] at hroot ⊢
    omega
  refine ⟨Nat.succ_pos k, (Nat.le_succ _).trans hnext, fun _ => hnext, fun d hd => ?_⟩
  refine le_trans ?_ hn
  rcases List.mem_append.mp hd with hd | hd
  · obtain ⟨-, hle, -⟩ : 0 < d ∧ d ≤ k ∧ d ∣ n := by simpa [after, mem_divisorsUpTo] using hd
    exact hle.trans (hk.trans n.sqrt_le_self)
  · obtain ⟨c, -, rfl⟩ := List.mem_map.mp hd
    exact Nat.div_le_self n c

end Trial

theorem divisors_eq_trial (n : Nat) :
    divisors n = (Trial.after n n.sqrt).small ++ (Trial.after n n.sqrt).large.reverse := by
  simp only [divisors, isqrt_eq, Trial.after, List.filter_reverse, List.map_reverse]

/-! ## 3. The list of divisors -/

/-- **Trial division gives exactly the divisors.**  For each word the rounds come to an end,
whatever they have come to, and all numbers on the way are words; the list that they leave is that
of `divisors`.  It ascends strictly, and holds the positive divisors, or nothing for zero.  So the
largest factor of a loop that runs is the largest divisor of its trip count within the limit. -/
theorem divisors_exact (n : Nat) (hn : n ≤ wordMax) :
    (∃ last : Trial, divisors n = last.small ++ last.large.reverse ∧ last.next? n = none
      ∧ ∀ t, Relation.ReflTransGen (Trial.Round n) .start t →
          t.InWords n ∧ Relation.ReflTransGen (Trial.Round n) t last)
    ∧ ((divisors n).Pairwise (· < ·) ∧ (∀ d, d ∈ divisors n ↔ n ≠ 0 ∧ 0 < d ∧ d ∣ n)
      ∧ (divisors n = [] ↔ n = 0))
    ∧ (0 < n → ∀ limit, 1 ≤ limit →
        IsGreatest {d | d ∣ n ∧ d ≤ limit} (largestFactor (some n) limit)) := by
  have hmem : ∀ d, d ∈ divisors n ↔ n ≠ 0 ∧ 0 < d ∧ d ∣ n := by
    intro d
    rw [mem_divisors]
    constructor
    · rintro ⟨hdvd, hpos⟩
      exact ⟨hpos, Nat.pos_of_dvd_of_pos hdvd (Nat.pos_of_ne_zero hpos), hdvd⟩
    · rintro ⟨hpos, -, hdvd⟩
      exact ⟨hdvd, hpos⟩
  refine ⟨⟨Trial.after n n.sqrt, divisors_eq_trial n, ?_, fun t hrun => ?_⟩,
    ⟨pairwise_divisors n, hmem, ?_⟩, fun hpos limit hlimit => ?_⟩
  · rw [Trial.next?_after, if_neg (Nat.lt_irrefl _)]
  · obtain ⟨k, hk, rfl⟩ := Trial.eq_after_of_run hrun
    exact ⟨Trial.inWords_after hn hk, Trial.run_to_root hk⟩
  · rw [List.eq_nil_iff_forall_not_mem]
    constructor
    · intro hnil
      by_contra hne
      exact hnil 1 ((hmem 1).mpr ⟨hne, Nat.one_pos, Nat.one_dvd n⟩)
    · rintro hzero d hd
      exact ((hmem d).mp hd).1 hzero
  · have hgreatest := largestFactor_isGreatest (some n) hlimit
    simpa only [validFactor_some, Nat.max_eq_left hpos] using hgreatest

example : divisors 36 = [1, 2, 3, 4, 6, 9, 12, 18, 36] := by decide

/-- The largest word is the product of the two numbers around `2 ^ 32`, so its largest divisor up to
there is the lower one.  Its square is the largest one that is a word, and has it as a divisor
once. -/
theorem divisors_exact_wordMax : wordMax ≤ wordMax ∧ wordMax32 * wordMax32 ≤ wordMax
    ∧ 2 ^ 32 + 1 ∈ divisors wordMax ∧ largestFactor (some wordMax) (2 ^ 32) = wordMax32
    ∧ (divisors (wordMax32 * wordMax32)).count wordMax32 = 1 := by
  have hsquare : wordMax32 * wordMax32 ≤ wordMax := by decide
  obtain ⟨-, ⟨-, hmem, -⟩, hgreatest⟩ := divisors_exact wordMax le_rfl
  obtain ⟨-, ⟨hasc, hmem', -⟩, -⟩ := divisors_exact (wordMax32 * wordMax32) hsquare
  obtain ⟨⟨hdvd, hle⟩, hupper⟩ := hgreatest (by decide) (2 ^ 32) (by decide)
  refine ⟨le_rfl, hsquare, (hmem _).mpr (by decide), ?_, ?_⟩
  · have hlower : wordMax32 ≤ largestFactor (some wordMax) (2 ^ 32) := hupper (by decide)
    have hne : largestFactor (some wordMax) (2 ^ 32) ≠ 2 ^ 32 := by
      intro heq
      rw [heq] at hdvd
      revert hdvd
      decide
    simp only [wordMax32] at hlower ⊢
    omega
  · refine List.count_eq_one_of_mem (hasc.imp Nat.ne_of_lt) ((hmem' _).mpr ?_)
    exact ⟨by decide, by decide, Nat.dvd_mul_left _ _⟩

end Dataflow
