/-
# Sharing budgets out without a crash

The pass that shares budgets out takes the schedules one by one.  Where nodes are priced by trip
counts, a schedule whose parent has no budget, and one that comes upon a loop of unknown trip count,
end it with a refusal; a schedule without an obstacle gets its budgets, and the pass goes on.

What is left is a schedule that first comes upon a copy of more elements than can be counted
(`Func.Tidy.baffles_iff`): the pass is stopped by a fault there, and by nothing else
(`Func.budgets_faults_iff`).  All other numbers fit where they are kept: trip counts, costs and
budgets are words, and arithmetic that checks for 128 bits and for division by zero gives the same
parts.
-/
import Dataflow.Proofs.Acceptance
import Dataflow.Proofs.BudgetRuns
import Dataflow.Proofs.RoundTrip

namespace Dataflow

/-! ## 1. Checked arithmetic -/

/-- The product of two numbers, when it has 128 bits. -/
def mulWide? (a b : Nat) : Option Nat := if a * b < 2 ^ 128 then some (a * b) else none

/-- The quotient of two numbers, when the second is not zero. -/
def div? (a b : Nat) : Option Nat := if b = 0 then none else some (a / b)

/-- A budget scaled by the annotations of a schedule, with every step checked. -/
def Schedule.scale? (s : Schedule) (budget : Nat) : Option Nat :=
  (s.increase.elim (some budget) fun n => mulWide? budget n.val).bind fun raised =>
    (s.decrease.elim (some raised) fun n => div? raised n.val).map saturate

/-- The part of a schedule's budget that a node gets, with every step checked. -/
def nodeShare? (budget cost total : Nat) : Option Nat :=
  if total = 0 then some 1
  else (mulWide? budget cost).bind fun product =>
    (div? product total).map fun share => Nat.max (saturate share) 1

theorem mulWide?_of_words {a b : Nat} (ha : a ≤ wordMax) (hb : b ≤ wordMax) :
    mulWide? a b = some (a * b) := by
  have hmul : a * b ≤ wordMax * wordMax := Nat.mul_le_mul ha hb
  have hwide : wordMax * wordMax < 2 ^ 128 := by decide
  rw [mulWide?, if_pos (Nat.lt_of_le_of_lt hmul hwide)]

theorem div?_of_pos {a b : Nat} (hb : 0 < b) : div? a b = some (a / b) := if_neg hb.ne'

theorem Schedule.scale?_eq {s : Schedule} (hs : s.fits = true) {budget : Nat}
    (hbudget : budget ≤ wordMax) : s.scale? budget = some (s.scale budget) := by
  rw [fits, Bool.and_eq_true] at hs
  have hlower : ∀ raised, (s.decrease.elim (some raised) fun n => div? raised n.val)
      = some (s.decrease.elim raised fun n => raised / n.val) := by
    intro raised
    cases s.decrease with
    | none => rfl
    | some n => exact div?_of_pos n.pos
  have hraise : (s.increase.elim (some budget) fun n => mulWide? budget n.val)
      = some (s.increase.elim budget fun n => budget * n.val) := by
    cases hincrease : s.increase with
    | none => rfl
    | some n =>
      have hn : n.val ≤ wordMax := by simpa [hincrease, isWord] using hs.1
      exact mulWide?_of_words hbudget hn
  rw [scale?, hraise, Option.bind_some, hlower, Option.map_some, scale]
  cases s.increase <;> cases s.decrease <;> rfl

theorem nodeShare?_eq {budget cost : Nat} (hbudget : budget ≤ wordMax) (hcost : cost ≤ wordMax)
    (total : Nat) : nodeShare? budget cost total = some (nodeShare budget cost total) := by
  by_cases htotal : total = 0
  · simp [nodeShare?, nodeShare, htotal]
  · simp [nodeShare?, nodeShare, htotal, mulWide?_of_words hbudget hcost,
      div?_of_pos (Nat.pos_of_ne_zero htotal)]

/-- A quotient rounded up is no larger than what is divided. -/
theorem div_up_le {n d : Nat} (hd : 0 < d) : (n + (d - 1)) / d ≤ n := by
  cases n with
  | zero => rw [Nat.div_eq_of_lt (by omega)]
  | succ n =>
    obtain ⟨d, rfl⟩ := Nat.exists_eq_add_one_of_ne_zero hd.ne'
    refine Nat.div_le_of_le_mul ?_
    simp only [Nat.add_mul, Nat.mul_add]
    omega

/-- The trip count of a loop between words is a word. -/
theorem Loop.tripCount_le {l : Loop} (hl : l.fits = true) {n : Nat} (hn : l.tripCount = some n) :
    n ≤ wordMax := by
  simp only [fits, Bool.and_eq_true] at hl
  obtain ⟨⟨⟨⟨hlower, hupper⟩, -⟩, -⟩, -⟩ := hl
  rw [tripCount] at hn
  cases hup : l.upper with
  | none => simp [hup] at hn
  | some upper =>
    simp only [hup] at hn
    rw [hup, Option.all_some] at hupper
    simp only [isInt64, Bool.and_eq_true, decide_eq_true_eq] at hlower hupper
    split at hn
    · cases hn
    · split at hn
      · cases hn
        exact Nat.zero_le _
      · cases hn
        have hspan : (upper - l.lower).toNat ≤ wordMax := by
          simp only [intMin, intMax, wordMax] at hlower hupper ⊢
          omega
        exact (div_up_le (by omega)).trans hspan

namespace Func

variable {f : Func} {audience : Audience} {root : Nat}

/-! ## 2. One schedule -/

/-- By trip counts the nodes of a schedule that has a price have prices. -/
theorem Tidy.priced_of_schedulePrice (h : f.Tidy) {id : OpId} (hid : f.Reaches id) {s : Schedule}
    (hk : f.kindOf id = some (.schedule s)) {total : Nat}
    (htotal : Prices.byTripCount.schedule f id = .ok (some total)) :
    ∀ node ∈ f.parts id, f.Priced .byTripCount node := by
  intro node hnode
  have hclear : f.Clear id := by
    refine (h.clear_or_halts id hid).resolve_right ?_
    rintro ⟨obstacle, hhalts⟩
    rw [h.schedulePrice_of_halts hid hk hhalts] at htotal
    exact obstacle.outcome_ne_some total htotal
  obtain ⟨name, hname⟩ := isNode_of_mem_parts hk hnode
  have hreached : f.Reaches node := .nested hid (parts_subset node hnode)
  obtain ⟨cost, -, hcost⟩ := h.nodePrice_of_clear hreached hname (hclear.part hnode)
  exact ⟨_, hcost⟩

/-- **By trip counts a schedule stops the pass exactly if it comes upon too large a copy.** -/
theorem Tidy.baffles_iff (h : f.Tidy) {id : OpId} (hid : f.Reaches id) {s : Schedule}
    (hk : f.kindOf id = some (.schedule s)) {fault : Fault} :
    f.Baffles .byTripCount id fault ↔
      ∃ v, f.Halts id (.uncountable v) ∧ fault = .elementCount v := by
  constructor
  · intro hbaffles
    have hprice : Prices.byTripCount.schedule f id = .error fault := by
      cases hbaffles with
      | schedule hprice => exact hprice
      | @node node hasks hfault =>
        obtain ⟨⟨total, htotal⟩, before, after, hparts, -⟩ := hasks
        obtain ⟨cost, hcost⟩ := h.priced_of_schedulePrice hid hk htotal node (by simp [hparts])
        rw [hfault] at hcost
        cases hcost
    rcases h.clear_or_halts id hid with hclear | ⟨_ | v, hhalts⟩
    · obtain ⟨total, -, htotal⟩ := h.schedulePrice_of_clear hid hk hclear
      rw [htotal] at hprice
      cases hprice
    · rw [h.schedulePrice_of_halts hid hk hhalts] at hprice
      cases hprice
    · rw [h.schedulePrice_of_halts hid hk hhalts] at hprice
      cases hprice
      exact ⟨v, hhalts, rfl⟩
  · rintro ⟨v, hhalts, rfl⟩
    exact .schedule (h.schedulePrice_of_halts hid hk hhalts)

/-! ## 3. The numbers at a schedule -/

/-- The numbers that the pass works out at a schedule fit where they are kept. -/
structure Fitting (f : Func) (root : Nat) (id : OpId) (budgets : Budgets) : Prop where
  /-- Budgets are words, and at least one. -/
  words : ∀ e ∈ budgets, 0 < e.2 ∧ e.2 ≤ wordMax
  /-- They can be scaled by the annotations of the schedule. -/
  scaled : ∀ s, f.kindOf id = some (.schedule s) → ∀ e ∈ budgets, s.scale? e.2 = some (s.scale e.2)
  incoming : ∀ budget, f.incomingBudget id budgets root = .ok (.ok budget) → budget ≤ wordMax
  /-- Costs are words, and the budget can be shared out by them. -/
  shared : ∀ budget total node cost, f.incomingBudget id budgets root = .ok (.ok budget) →
    Prices.byTripCount.schedule f id = .ok (some total) →
    Prices.byTripCount.node f node = .ok (some cost) →
      total ≤ wordMax ∧ cost ≤ wordMax
        ∧ nodeShare? budget cost total = some (nodeShare budget cost total)

theorem kind_fits (h : f.fits = true) {id : OpId} {k : Kind} (hk : f.kindOf id = some k) :
    k.fits = true := by
  simp only [fits, Bool.and_eq_true, List.all_eq_true] at h
  obtain ⟨op, hop, rfl⟩ := Option.map_eq_some_iff.mp hk
  have hop' := h.1.2 op (Array.mem_toList_iff.mpr (Array.mem_of_getElem? hop))
  simp only [Op.fits, Bool.and_eq_true] at hop'
  exact hop'.1.1.2

theorem incomingBudget_le {id : OpId} {budgets : Budgets} {budget : Nat} (hroot : root ≤ wordMax)
    (hbudgets : ∀ e ∈ budgets, e.2 ≤ wordMax)
    (h : f.incomingBudget id budgets root = .ok (.ok budget)) : budget ≤ wordMax := by
  obtain ⟨node?, -, h⟩ := Checked.bind_eq_ok.mp h
  cases node? with
  | none =>
    cases h
    exact hroot
  | some parent =>
    cases hget : budgets.get? parent with
    | none =>
      simp only [hget] at h
      obtain ⟨_, -, h⟩ := Checked.bind_eq_ok.mp h
      cases h
    | some parentBudget =>
      simp only [hget] at h
      obtain ⟨k, -, h⟩ := Checked.bind_eq_ok.mp h
      cases k with
      | schedule s =>
        cases h
        exact saturate_le _
      | _ =>
        cases h
        exact hbudgets _ (OpMap.mem_of_get? hget)

theorem Tidy.fitting (h : f.Tidy) (hfits : f.fits = true) (hroot : root ≤ wordMax) {id : OpId}
    {budgets : Budgets} (hgets : f.GetsTo .byTripCount audience root id budgets) :
    f.Fitting root id budgets := by
  obtain ⟨before, after, hschedules, hbefore⟩ := hgets
  have hwords : ∀ e ∈ budgets, 0 < e.2 ∧ e.2 ≤ wordMax := by
    refine budgetSchedules_preserves (I := fun budgets => ∀ e ∈ budgets, 0 < e.2 ∧ e.2 ≤ wordMax)
      (fun node _ budgets part hpart hwords e he => ?_) (fun s hs => ?_) (fun e he => by cases he)
      hbefore
    · rcases OpMap.mem_put he with he | rfl
      · exact hwords e he
      · exact hpart
    · exact ((h.mem_findAll hschedules).mp (List.mem_append_left _ hs)).1
  have hincoming : ∀ budget, f.incomingBudget id budgets root = .ok (.ok budget) →
      budget ≤ wordMax := fun budget =>
    incomingBudget_le hroot fun e he => (hwords e he).2
  refine ⟨hwords, fun s hk e he => ?_, hincoming,
    fun budget total node cost hbudget htotal hcost => ?_⟩
  · exact Schedule.scale?_eq (kind_fits hfits hk) (hwords e he).2
  · obtain ⟨_, -, htotal⟩ := Checked.bind_eq_ok.mp htotal
    obtain ⟨_, -, hcost⟩ := Checked.bind_eq_ok.mp hcost
    have hword : cost ≤ wordMax := sumCosts_le (Nat.zero_le _) hcost
    exact ⟨sumCosts_le (Nat.zero_le _) htotal, hword,
      nodeShare?_eq (hincoming budget hbudget) hword total⟩

/-! ## 4. The pass -/

theorem Halts.exists_copy {id : OpId} {obstacle : Obstacle} (h : f.Halts id obstacle) :
    ∀ {v : ValueId}, obstacle = .uncountable v → f.Reaches id →
      ∃ copy source, f.Reaches copy ∧ f.kindOf copy = some (.copy source v) ∧ f.Uncountable v := by
  induction h with
  | @here id obstacle hat _ =>
    rintro v rfl hid
    cases hat with
    | copy hk hover => exact ⟨id, _, hid, hk, hover⟩
  | @part id part before after obstacle hparts _ _ ih =>
    intro v hv hid
    have hmem : part ∈ f.parts id := by simp [hparts]
    exact ih hv (.nested hid (parts_subset part hmem))

/-- **Sharing budgets out crashes at copies of too many elements, and nowhere else.**  On a function
in order the pass gives budgets or a refusal, unless it comes to a schedule that gets a budget and
in which a copy whose elements cannot be counted is priced before any loop of unknown trip count;
then that copy's target stops it.  So it never crashes where all copies can be counted.  All other
arithmetic is safe: trip counts, costs and budgets are words, and checked arithmetic gives the same
parts. -/
theorem budgets_faults_iff (audience : Audience) (f : Func) (root : Nat) (hf : f.verify = .ok ()) :
    (∀ fault, (f.budgets .byTripCount root).Faults audience fault ↔
      ∃ id budgets budget v, f.GetsTo .byTripCount audience root id budgets
        ∧ f.incomingBudget id budgets root = .ok (.ok budget)
        ∧ f.Halts id (.uncountable v) ∧ fault = .elementCount v)
    ∧ ((∀ id source v, f.Reaches id → f.kindOf id = some (.copy source v) → ¬ f.Uncountable v) →
        ∃ result, (f.budgets .byTripCount root).Yields audience result)
    ∧ (f.fits = true → root ≤ wordMax →
        (∀ id l n, f.kindOf id = some (.loop l) → l.tripCount = some n → n ≤ wordMax)
        ∧ ∀ id budgets, f.GetsTo .byTripCount audience root id budgets →
            f.Fitting root id budgets) := by
  have h := verify_eq_ok_iff_tidy.mp hf
  have hfaults : ∀ fault, (f.budgets .byTripCount root).Faults audience fault ↔
      ∃ id budgets budget v, f.GetsTo .byTripCount audience root id budgets
        ∧ f.incomingBudget id budgets root = .ok (.ok budget)
        ∧ f.Halts id (.uncountable v) ∧ fault = .elementCount v := by
    intro fault
    rw [h.budgets_stopped_iff]
    constructor
    · rintro ⟨id, budgets, budget, hgets, hincoming, hbaffles⟩
      obtain ⟨hid, s, hk⟩ := hgets.reaches h.toNested
      obtain ⟨v, hhalts, rfl⟩ := (h.baffles_iff hid hk).mp hbaffles
      exact ⟨id, budgets, budget, v, hgets, hincoming, hhalts, rfl⟩
    · rintro ⟨id, budgets, budget, v, hgets, hincoming, hhalts, rfl⟩
      obtain ⟨hid, s, hk⟩ := hgets.reaches h.toNested
      exact ⟨id, budgets, budget, hgets, hincoming, (h.baffles_iff hid hk).mpr ⟨v, hhalts, rfl⟩⟩
  refine ⟨hfaults, fun hcopies => ?_,
    fun hfits hroot => ⟨fun id l n hk hn => ?_, fun id budgets => ?_⟩⟩
  · refine (Traced.yields_or_faults audience _).resolve_right ?_
    rintro ⟨fault, hfault⟩
    obtain ⟨id, budgets, budget, v, hgets, -, hhalts, -⟩ := (hfaults fault).mp hfault
    obtain ⟨copy, source, hcopy, hk, hover⟩ := hhalts.exists_copy rfl (hgets.reaches h.toNested).1
    exact hcopies copy source v hcopy hk hover
  · exact Loop.tripCount_le (kind_fits hfits hk) hn
  · exact h.fitting hfits hroot

/-- A node that copies twice as many elements as can be counted. -/
def largeCopy : Func where
  name := "f"
  arguments := [0, 1]
  body := [0]
  ops := #[
    { id := 0, kind := .schedule { name := "top", increase := none, decrease := none },
      parent := none, body := [1], erased := false },
    { id := 1, kind := .node "n", parent := some 0, body := [2], erased := false },
    { id := 2, kind := .copy 0 1, parent := some 1, body := [], erased := false }]
  values := #[{ id := 0, name := "A", shape := [2 ^ 63, 2], space := 0, definition := .argument 0 },
              { id := 1, name := "B", shape := [2 ^ 63, 2], space := 0, definition := .argument 1 }]

/-- The large copy crashes the pass, though the function is in order and its numbers are words. -/
theorem budgets_fault_largeCopy : largeCopy.verify = .ok () ∧ largeCopy.fits = true
    ∧ (largeCopy.budgets .byTripCount 4).Faults none (.elementCount 1)
    ∧ (∃ id budgets, largeCopy.GetsTo .byTripCount none 4 id budgets
        ∧ largeCopy.Halts id (.uncountable 1) ∧ largeCopy.Fitting 4 id budgets) := by
  have hverify : largeCopy.verify = .ok () := by decide
  have hfits : largeCopy.fits = true := by decide
  have hfault : (largeCopy.budgets .byTripCount 4).Faults none (.elementCount 1) := rfl
  obtain ⟨hfaults, -, hwords⟩ := budgets_faults_iff none largeCopy 4 hverify
  obtain ⟨id, budgets, budget, v, hgets, -, hhalts, heq⟩ := (hfaults _).mp hfault
  cases heq
  exact ⟨hverify, hfits, hfault, id, budgets, hgets, hhalts,
    (hwords hfits (by decide)).2 id budgets hgets⟩

end Func
end Dataflow
