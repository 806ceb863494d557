/-
# The exact cost of a node

Counting without a bound gives an operation one cost at most (`Func.Costs.unique`).  The price of a
node by trip counts is that number, held at the largest word, although numbers are held there at
every step of the count (`Func.nodePrice_is_exact`).

The count goes through the parts of an operation in their order, also where they are in a loop that
never runs.  What it comes to on the way (`Func.Visits`) decides how it ends: a loop without a trip
count leaves the node without a price.
-/
import Dataflow.Proofs.Acceptance
import Dataflow.Proofs.Costs

namespace Dataflow
namespace Func

variable {f : Func}

/-! ## 1. One cost at most -/

/-- **An operation has one exact cost at most.** -/
theorem Costs.unique {id : OpId} {c c' : Nat} (h : f.Costs id c) (h' : f.Costs id c') : c = c' := by
  induction h generalizing c' with
  | loop hk htrips _ ih =>
    cases h' with
    | loop hk' htrips' hparts' =>
      rw [hk] at hk'
      cases hk'
      rw [htrips] at htrips'
      cases htrips'
      rw [List.map_congr_left fun part hpart => ih part hpart (hparts' part hpart)]
    | _ => simp_all
  | node hk _ ih =>
    cases h' with
    | node _ hparts' =>
      rw [List.map_congr_left fun part hpart => ih part hpart (hparts' part hpart)]
    | _ => simp_all
  | schedule hk _ ih =>
    cases h' with
    | schedule _ hparts' =>
      rw [List.map_congr_left fun part hpart => ih part hpart (hparts' part hpart)]
    | _ => simp_all
  | compute hk | copy hk hvalue | buffer hk | view hk => cases h' <;> simp_all

/-! ## 2. What the count comes to -/

/-- `f.Visits id x`: the count for an operation comes to `x`.  It takes the parts of an operation in
their order, as long as there is no obstacle in them. -/
inductive Visits (f : Func) : OpId → OpId → Prop
  | here {id : OpId} : f.Visits id id
  | part {id part x : OpId} {before after : List OpId} : f.parts id = before ++ part :: after →
      (∀ b ∈ before, f.Clear b) → f.Visits part x → f.Visits id x

theorem Visits.counts {id x : OpId} (h : f.Visits id x) : f.Counts id x := by
  induction h with
  | here => exact .refl
  | part hparts _ _ ih => exact ih.head (by simp [hparts])

/-- The count comes to the first obstacle. -/
theorem Halts.exists_visited {id : OpId} {obstacle : Obstacle} (h : f.Halts id obstacle) :
    ∃ x, f.Visits id x ∧ f.HaltsAt x obstacle := by
  induction h with
  | here hat _ => exact ⟨_, .here, hat⟩
  | part hparts hbefore _ ih =>
    obtain ⟨x, hvisits, hat⟩ := ih
    exact ⟨x, .part hparts hbefore hvisits, hat⟩

/-- **The price of a node is its exact cost, held at the largest word.**  Suppose that the elements
of the copies that the count comes to can be counted, product by product from the left.  Then the
count ends.  It gives no price exactly if it comes to a loop without a trip count, which is to say
that there is such a loop among all that goes into the cost; and otherwise the node has an exact
cost, and the price is that, or the largest word if that is less. -/
theorem nodePrice_is_exact {f : Func} {n : OpId} {name : String} (hf : f.verify = .ok ())
    (hn : f.Reaches n) (hk : f.kindOf n = some (.node name))
    (hcopies : ∀ x source target value, f.Visits n x → f.kindOf x = some (.copy source target) →
      f.values[target]? = some value → ∀ k, (value.shape.take k).prod ≤ wordMax) :
    ∃ price, Prices.byTripCount.node f n = .ok price
      ∧ (price = none ↔
          ∃ x l, f.Visits n x ∧ f.kindOf x = some (.loop l) ∧ l.tripCount = none)
      ∧ (price = none ↔
          ∃ x l, f.Counts n x ∧ f.kindOf x = some (.loop l) ∧ l.tripCount = none)
      ∧ ∀ p, price = some p → ∃ c, (∀ c', f.Costs n c' ↔ c' = c) ∧ p = min c wordMax := by
  have h := verify_eq_ok_iff_tidy.mp hf
  rcases h.clear_or_halts n hn with hclear | ⟨obstacle, hhalts⟩
  · obtain ⟨c, hcosts, hprice⟩ := h.nodePrice_of_clear hn hk hclear
    have hbounded : ¬ ∃ x l, f.Counts n x ∧ f.kindOf x = some (.loop l) ∧ l.tripCount = none := by
      rintro ⟨x, l, hcounts, hloop, hcount⟩
      exact hclear x hcounts _ (.loop hloop hcount)
    refine ⟨some (saturate c), hprice, ?_, ?_, ?_⟩
    · refine iff_of_false (by simp) fun ⟨x, l, hvisits, hloop⟩ => ?_
      exact hbounded ⟨x, l, hvisits.counts, hloop⟩
    · exact iff_of_false (by simp) hbounded
    · rintro p hp
      cases hp
      exact ⟨c, fun c' => ⟨fun hcosts' => hcosts'.unique hcosts, fun heq => heq ▸ hcosts⟩, rfl⟩
  · obtain ⟨x, hvisits, hat⟩ := hhalts.exists_visited
    cases hat with
    | @loop l hloop hcount =>
      refine ⟨none, h.nodePrice_of_halts hn hk hhalts, ?_, ?_, fun p hp => by cases hp⟩
      · exact iff_of_true rfl ⟨x, l, hvisits, hloop, hcount⟩
      · exact iff_of_true rfl ⟨x, l, hvisits.counts, hloop, hcount⟩
    | @copy source target hcopy hover =>
      obtain ⟨value, hvalue, k, hlarge⟩ := hover
      exact absurd (hcopies x source target value hvisits hcopy hvalue k) (Nat.not_le.mpr hlarge)

/-- A node with a nest of `2 ^ 65` computes, and a copy in a loop that never runs. -/
def longSweep : Func where
  name := "f"
  arguments := [0, 1]
  body := [0]
  ops := #[
    { id := 0, kind := .node "n", parent := none, body := [1, 4], erased := false },
    { id := 1, kind := .loop (.plain "i" 0 (some (2 ^ 62)) 1), parent := some 0, body := [2],
      erased := false },
    { id := 2, kind := .loop (.plain "j" 0 (some 8) 1), parent := some 1, body := [3],
      erased := false },
    { id := 3, kind := .compute { name := "s", reads := [], writes := [], lanes := [] },
      parent := some 2, body := [], erased := false },
    { id := 4, kind := .loop (.plain "k" 0 (some 0) 1), parent := some 0, body := [5],
      erased := false },
    { id := 5, kind := .copy 0 1, parent := some 4, body := [], erased := false }]
  values := #[{ id := 0, name := "A", shape := [4, 4], space := 0, definition := .argument 0 },
              { id := 1, name := "B", shape := [4, 4], space := 0, definition := .argument 1 }]

theorem longSweep_costs : longSweep.Costs 0 (2 ^ 65) := by
  have hcompute : longSweep.Costs 3 1 := .compute rfl
  have hcopy : longSweep.Costs 5 16 := @Costs.copy longSweep 5 0 1 longSweep.values[1] rfl rfl
  have hinner : longSweep.Costs 2 8 :=
    @Costs.loop longSweep 2 _ 8 (fun _ => 1) rfl rfl fun part hpart => by
      obtain rfl : part = 3 := List.mem_singleton.mp hpart
      exact hcompute
  have houter : longSweep.Costs 1 (2 ^ 65) :=
    @Costs.loop longSweep 1 _ (2 ^ 62) (fun _ => 8) rfl rfl fun part hpart => by
      obtain rfl : part = 2 := List.mem_singleton.mp hpart
      exact hinner
  have hidle : longSweep.Costs 4 0 :=
    @Costs.loop longSweep 4 _ 0 (fun _ => 16) rfl rfl fun part hpart => by
      obtain rfl : part = 5 := List.mem_singleton.mp hpart
      exact hcopy
  refine @Costs.node longSweep 0 _ (fun part => if part = 1 then 2 ^ 65 else 0) rfl ?_
  intro part hpart
  rcases List.mem_pair.mp hpart with rfl | rfl
  · exact houter
  · exact hidle

/-- Its exact cost is `2 ^ 65`, and its price the largest word. -/
theorem nodePrice_longSweep : longSweep.verify = .ok () ∧ longSweep.Costs 0 (2 ^ 65)
    ∧ Prices.byTripCount.node longSweep 0 = .ok (some wordMax) := by
  have hverify : longSweep.verify = .ok () := by decide
  have hcopies : ∀ x source target value, longSweep.Visits 0 x →
      longSweep.kindOf x = some (.copy source target) → longSweep.values[target]? = some value →
      ∀ k, (value.shape.take k).prod ≤ wordMax := by
    intro x source target value _ hk hvalue k
    have htarget : target = 1 := by
      match x, hk with
      | 0, hk | 1, hk | 2, hk | 3, hk | 4, hk => cases hk
      | 5, hk => cases hk; rfl
      | x + 6, hk => simp [kindOf, longSweep] at hk
    subst htarget
    cases hvalue
    rcases k with _ | _ | k
    · decide
    · decide
    · show (4 :: 4 :: List.take k []).prod ≤ wordMax
      rw [List.take_nil]
      decide
  obtain ⟨price, hprice, -, hnone, hexact⟩ :=
    nodePrice_is_exact hverify (.top (by decide)) rfl hcopies
  cases price with
  | none => cases hprice
  | some p =>
    obtain ⟨c, hcosts, hmin⟩ := hexact p rfl
    rw [hprice, hmin, ← (hcosts _).mp longSweep_costs]
    exact ⟨hverify, longSweep_costs, rfl⟩

end Func
end Dataflow
