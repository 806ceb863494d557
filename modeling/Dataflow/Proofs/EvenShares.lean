/-
# The search for even shares

The search starts from the base and lets one factor grow in each round (`Shares.Round`), until the
product is the goal or no factor can grow.

* It ends.  Each round raises the product, which stays a divisor of the goal
  (`Shares.Toward.endsAt`).
* It never forms a product above the goal.  Neither the factors nor a loop's next factor with the
  factors of the others make up more (`Shares.Toward.inWords`).
* A factor never shrinks (`Shares.above_of_run`).

With `exists_evenFactors_iff`, which says that the search gets stuck only where no valid factors
make the goal, this is all there is to say about it (`evenFactors_exact`).
-/
import Dataflow.Proofs.Factors

namespace Dataflow
namespace Shares

variable {goal : Nat} {s s' last : Shares}

/-! ## 1. Rounds -/

/-- One round of the search: the product is below the goal, and the first loop in growth order that
has a next factor takes it. -/
def Round (goal : Nat) (s s' : Shares) : Prop := s.product < goal ∧ s.grow? goal = some s'

/-- `s.EndsAt goal last`: rounds lead from `s` to `last`, and there is no further one. -/
structure EndsAt (goal : Nat) (s last : Shares) : Prop where
  run : Relation.ReflTransGen (Round goal) s last
  stop : ∀ s', ¬ Round goal last s'

theorem Toward.rounds (hgoal : goal ≠ 0) : ∀ {steps : Nat} {s : Shares}, s.Toward goal →
    Relation.ReflTransGen (Round goal) s (Shares.growAll goal steps s)
  | 0, s, _ => .refl
  | steps + 1, s, h => by
    rw [Shares.growAll]
    split
    · exact .refl
    · rename_i hbelow
      split
      · exact .refl
      · rename_i s' hgrow
        have hround : Round goal s s' := ⟨Nat.lt_of_not_le hbelow, hgrow⟩
        exact .head hround (((h.grows hgoal hgrow).toward h).rounds hgoal)

/-- **The search ends.**  The product rises in each round and never passes the goal, so the goal
bounds the number of rounds. -/
theorem Toward.endsAt (hgoal : goal ≠ 0) {steps : Nat} (h : s.Toward goal)
    (hsteps : goal ≤ s.product + steps) : s.EndsAt goal (Shares.growAll goal steps s) where
  run := h.rounds hgoal
  stop := by
    rintro s' ⟨hbelow, hgrow⟩
    rcases h.growAll_ends hgoal hsteps with hdone | hstuck
    · omega
    · rw [hstuck] at hgrow
      cases hgrow

/-- A run of rounds is a run of growths. -/
theorem grows_of_rounds (hgoal : goal ≠ 0) (h : s.Toward goal)
    (hrun : Relation.ReflTransGen (Round goal) s s') : Relation.ReflTransGen (Grows goal) s s' := by
  induction hrun with
  | refl => exact .refl
  | tail _ hround ih => exact .tail ih ((toward_of_run h ih).grows hgoal hround.2)

/-! ## 2. Products on the way -/

/-- The products that a round forms are words: that of all factors, and that of the next factor of a
loop with the factors of the others. -/
structure InWords (goal : Nat) (s : Shares) : Prop where
  factors : product? (s.map Prod.fst) = some s.product
  next : ∀ share ∈ s, ∀ n, nextFactor? goal s.product share = some n →
    mul? (s.product / share.1) n = some (s.product / share.1 * n)

theorem Toward.inWords (hgoal : goal ≠ 0) (hword : goal ≤ wordMax) (h : s.Toward goal) :
    s.InWords goal where
  factors := by
    have hpos : ∀ n ∈ s.map Prod.fst, 0 < n := by
      intro n hn
      obtain ⟨share, hshare, rfl⟩ := List.mem_map.mp hn
      exact h.pos share hshare
    have hle : s.product ≤ goal := Nat.le_of_dvd (Nat.pos_of_ne_zero hgoal) h.dvd
    rw [product_eq] at hle ⊢
    exact product?_of_le hpos (hle.trans hword)
  next := by
    intro share hshare n hnext
    obtain ⟨outer, inner, hs⟩ := List.append_of_mem hshare
    have hself : s.Replaces share share s := ⟨outer, inner, hs, hs⟩
    obtain ⟨rest, hproduct, -⟩ := hself.product
    obtain ⟨-, -, hdvd⟩ := h.nextFactor?_eq_some hgoal hproduct hnext
    have hrest : s.product / share.1 = rest := by
      rw [hproduct, Nat.mul_div_cancel _ (h.pos share hshare)]
    have hle : rest * n ≤ goal :=
      Nat.le_of_dvd (Nat.pos_of_ne_zero hgoal) (h.mul_dvd hproduct hdvd)
    rw [hrest, mul?, if_pos (hle.trans hword)]

/-! ## 3. Factors only grow -/

theorem forall₂_le_of_raise {n next : Nat} (hle : n ≤ next) : ∀ {base outer inner : List Nat},
    List.Forall₂ (· ≤ ·) base (outer ++ n :: inner) →
      List.Forall₂ (· ≤ ·) base (outer ++ next :: inner)
  | _, [], _, .cons hb hrest => .cons (hb.trans hle) hrest
  | _, _ :: _, _, .cons hb hrest => .cons hb (forall₂_le_of_raise hle hrest)

theorem Grows.above {base : List Nat} (h : s.Grows goal s')
    (hbase : List.Forall₂ (· ≤ ·) base (s.map Prod.fst)) :
    List.Forall₂ (· ≤ ·) base (s'.map Prod.fst) := by
  obtain ⟨n, trip, next, ⟨outer, inner, rfl, rfl⟩, hlt, -⟩ := h.step
  simp only [List.map_append, List.map_cons] at hbase ⊢
  exact forall₂_le_of_raise hlt.le hbase

/-- What grows stays above where it started. -/
theorem above_of_run (hrun : Relation.ReflTransGen (Grows goal) s s') :
    List.Forall₂ (· ≤ ·) (s.map Prod.fst) (s'.map Prod.fst) := by
  induction hrun with
  | refl => exact List.forall₂_refl _
  | tail _ hgrows ih => exact hgrows.above ih

end Shares

/-! ## 4. The search as a whole -/

variable {goal : Nat} {base factors : List Nat} {shape : List (Option Nat)}

theorem evenFactors_above (h : evenFactors goal base shape = some factors) :
    List.Forall₂ (· ≤ ·) (raisedBase base) factors := by
  obtain ⟨hgoal, hlen, hdvd, -, -, rfl⟩ := evenFactors_eq_some_iff.mp h
  have habove := Shares.above_of_run (grown_run hgoal hlen hdvd).1
  rwa [List.map_fst_zip (by simp [hlen])] at habove

/-- The answer is read off where the search ends. -/
theorem evenFactors_eq_of_dvd (hgoal : goal ≠ 0) (hword : goal ≤ wordMax)
    (hlen : base.length = shape.length) (hdvd : (raisedBase base).prod ∣ goal) :
    evenFactors goal base shape =
      if (grown goal base shape).product = goal then some ((grown goal base shape).map Prod.fst)
      else none := by
  have hle : (raisedBase base).prod ≤ goal := Nat.le_of_dvd (Nat.pos_of_ne_zero hgoal) hdvd
  have hproduct := product?_of_le raisedBase_pos (hle.trans hword)
  split
  · rename_i hdone
    exact evenFactors_eq_some_iff.mpr ⟨hgoal, hlen, hdvd, hproduct, hdone, rfl⟩
  · rename_i hnot
    cases h : evenFactors goal base shape with
    | none => rfl
    | some factors => exact absurd (evenFactors_eq_some_iff.mp h).2.2.2.2.1 hnot

/-- **The search is exact and complete.**  Let the goal be a positive word, and let the base be
valid once its factors are raised to one.  There is an even share exactly if the product of the base
divides the goal and some valid factors have the goal as their product.  An even share has the goal
as its product, is valid, and is nowhere below the base.  If the product of the base divides the
goal, then the product is found without overflow, the rounds of the search come to an end, the
answer is read off there, and all products on the way are words. -/
theorem evenFactors_exact (goal : Nat) (base : List Nat) (shape : List (Option Nat))
    (hgoal : 1 ≤ goal) (hword : goal ≤ wordMax)
    (hbase : List.Forall₂ ValidFactor shape (raisedBase base)) :
    ((∃ factors, evenFactors goal base shape = some factors) ↔
        (raisedBase base).prod ∣ goal ∧
          ∃ factors, List.Forall₂ ValidFactor shape factors ∧ factors.prod = goal)
    ∧ (∀ factors, evenFactors goal base shape = some factors →
        factors.prod = goal ∧ List.Forall₂ ValidFactor shape factors
          ∧ List.Forall₂ (· ≤ ·) (raisedBase base) factors)
    ∧ ((raisedBase base).prod ∣ goal → product? (raisedBase base) = some (raisedBase base).prod
        ∧ (∃ last, Shares.EndsAt goal ((raisedBase base).zip shape) last
            ∧ evenFactors goal base shape =
                if last.product = goal then some (last.map Prod.fst) else none)
        ∧ ∀ s, Relation.ReflTransGen (Shares.Round goal) ((raisedBase base).zip shape) s →
            s.product ≤ goal ∧ s.InWords goal) := by
  have hgoal' : goal ≠ 0 := by omega
  have hlen : base.length = shape.length := by simpa using hbase.length_eq.symm
  have hfits : (raisedBase base).prod ∣ goal → (raisedBase base).prod ≤ wordMax := fun hdvd =>
    (Nat.le_of_dvd hgoal hdvd).trans hword
  refine ⟨⟨?_, ?_⟩, fun factors h => ?_, fun hdvd => ⟨?_, ?_, fun s hrun => ?_⟩⟩
  · rintro ⟨factors, h⟩
    exact ⟨(evenFactors_eq_some_iff.mp h).2.2.1, factors, evenFactors_valid hbase h,
      prod_evenFactors h⟩
  · rintro ⟨hdvd, hshare⟩
    exact (exists_evenFactors_iff hgoal' hbase hdvd (hfits hdvd)).mpr hshare
  · exact ⟨prod_evenFactors h, evenFactors_valid hbase h, evenFactors_above h⟩
  · exact product?_of_le raisedBase_pos (hfits hdvd)
  · refine ⟨grown goal base shape, ?_, evenFactors_eq_of_dvd hgoal' hword hlen hdvd⟩
    exact (toward_zip hlen hdvd).endsAt hgoal' (Nat.le_add_left goal _)
  · have htoward := Shares.toward_of_run (toward_zip hlen hdvd)
      (Shares.grows_of_rounds hgoal' (toward_zip hlen hdvd) hrun)
    exact ⟨Nat.le_of_dvd hgoal htoward.dvd, htoward.inWords hgoal' hword⟩

/-- From `[2, 2]` towards twelve over loops of six and four iterations: the inner factor is stuck,
so the outer one goes to three, which is no multiple of two, and then the inner one to four. -/
theorem evenFactors_exact_sixFour :
    List.Forall₂ ValidFactor [some 6, some 4] (raisedBase [2, 2])
    ∧ (∃ factors, evenFactors 12 [2, 2] [some 6, some 4] = some factors ∧ factors.prod = 12
        ∧ List.Forall₂ (· ≤ ·) [2, 2] factors)
    ∧ ∃ last, Shares.EndsAt 12 [(2, some 6), (2, some 4)] last := by
  have hbase : List.Forall₂ ValidFactor [some 6, some 4] (raisedBase [2, 2]) :=
    .cons (by decide) (.cons (by decide) .nil)
  obtain ⟨hiff, hexact, hsearch⟩ :=
    evenFactors_exact 12 [2, 2] [some 6, some 4] (by decide) (by decide) hbase
  have hdvd : (raisedBase [2, 2]).prod ∣ 12 := by decide
  obtain ⟨factors, h⟩ :=
    hiff.mpr ⟨hdvd, [3, 4], .cons (by decide) (.cons (by decide) .nil), by decide⟩
  obtain ⟨-, ⟨last, hends, -⟩, -⟩ := hsearch hdvd
  exact ⟨hbase, ⟨factors, h, (hexact factors h).1, (hexact factors h).2.2⟩, last, hends⟩

end Dataflow
