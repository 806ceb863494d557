/-
# What stops a price

The cost of an operation is summed over its parts (`Func.parts`), theirs over their parts, and so
on.  Two things stop the sum: a loop whose trip count is unknown, after its body has been priced,
and a copy whose elements are more than can be counted.  `Func.Halts` names the first obstacle that
is come upon.

An operation without an obstacle below it has a cost (`Func.Clear.opCost_eq`), and any other
comes to the end that its first obstacle makes: no cost for a loop, and a fault for a copy
(`Func.Halts.opCost_eq`).  There is no third case (`Func.Nested.clear_or_halts`).

Sums and products are held at the largest word wherever they are formed.  It comes to the same as
counting without a bound (`Func.Costs`) and holding the result there once.
-/
import Dataflow.Node.Cost
import Dataflow.Proofs.Computations
import Dataflow.Proofs.Factors
import Dataflow.Proofs.Roots

namespace Dataflow

/-! ## 1. Element counts -/

/-- Some partial product of the shape, taken from the left, is no word. -/
def Overflows (shape : List Nat) : Prop := ∃ n, wordMax < (shape.take n).prod

theorem foldlM_mul?_eq_none_iff : ∀ {ns : List Nat} {acc : Nat}, acc ≤ wordMax →
    (ns.foldlM mul? acc = none ↔ ∃ n, wordMax < acc * (ns.take n).prod)
  | [], acc, hacc => by simpa using hacc
  | m :: ns, acc, hacc => by
    rw [List.foldlM_cons, mul?]
    by_cases hfit : acc * m ≤ wordMax
    · have hrest : ns.foldlM mul? (acc * m) = none ↔ ∃ n, wordMax < acc * m * (ns.take n).prod :=
        foldlM_mul?_eq_none_iff hfit
      simp only [if_pos hfit, Option.bind_eq_bind, Option.bind_some, hrest]
      constructor
      · rintro ⟨n, hn⟩
        exact ⟨n + 1, by simpa [Nat.mul_assoc] using hn⟩
      · rintro ⟨n, hn⟩
        cases n with
        | zero => exact absurd hacc (by simpa using hn)
        | succ n => exact ⟨n, by simpa [Nat.mul_assoc] using hn⟩
    · simp only [if_neg hfit, Option.bind_eq_bind, Option.bind_none, true_iff]
      exact ⟨1, by simpa using hfit⟩

theorem product?_eq_none_iff {shape : List Nat} : product? shape = none ↔ Overflows shape := by
  simp only [product?, foldlM_mul?_eq_none_iff (show 1 ≤ wordMax by decide), Nat.one_mul, Overflows]

theorem foldlM_mul?_eq_prod : ∀ {ns : List Nat} {acc p : Nat}, ns.foldlM mul? acc = some p →
    p = acc * ns.prod
  | [], acc, p, h => by
    cases h
    simp
  | n :: ns, acc, p, h => by
    rw [List.foldlM_cons] at h
    obtain ⟨q, hq, h⟩ := Option.bind_eq_some_iff.mp h
    rw [mul?, Option.ite_none_right_eq_some] at hq
    cases hq.2
    rw [foldlM_mul?_eq_prod h, List.prod_cons, Nat.mul_assoc]

theorem foldlM_mul?_le : ∀ {ns : List Nat} {acc p : Nat}, acc ≤ wordMax →
    ns.foldlM mul? acc = some p → p ≤ wordMax
  | [], acc, p, hacc, h => by
    cases h
    exact hacc
  | n :: ns, acc, p, _, h => by
    rw [List.foldlM_cons] at h
    obtain ⟨q, hq, h⟩ := Option.bind_eq_some_iff.mp h
    rw [mul?, Option.ite_none_right_eq_some] at hq
    cases hq.2
    exact foldlM_mul?_le hq.1 h

/-! ## 2. Sums of costs -/

/-- Something holds of every operation of a list, or there is a first of which it does not. -/
theorem all_or_first (p : OpId → Prop) : ∀ ids : List OpId, (∀ id ∈ ids, p id) ∨
    ∃ before id after, ids = before ++ id :: after ∧ (∀ b ∈ before, p b) ∧ ¬ p id
  | [] => .inl fun _ hid => by cases hid
  | id :: ids => by
    by_cases hid : p id
    · rcases all_or_first p ids with hall | ⟨before, first, after, rfl, hbefore, hfirst⟩
      · exact .inl (List.forall_mem_cons.mpr ⟨hid, hall⟩)
      · have hbefore' := List.forall_mem_cons.mpr ⟨hid, hbefore⟩
        exact .inr ⟨id :: before, first, after, rfl, hbefore', hfirst⟩
    · exact .inr ⟨[], id, ids, rfl, List.forall_mem_nil _, hid⟩

theorem satAdd_saturate (a b : Nat) : satAdd (saturate a) (saturate b) = saturate (a + b) := by
  simp only [satAdd, saturate]
  omega

theorem satMul_saturate (n b : Nat) : satMul n (saturate b) = saturate (n * b) := by
  rcases Nat.eq_zero_or_pos n with rfl | hn
  · simp [satMul]
  · rcases Nat.le_total b wordMax with hb | hb
    · rw [saturate_of_le hb, satMul]
    · -- Both products are at least the largest word.
      have hword : wordMax ≤ n * wordMax := Nat.le_mul_of_pos_left _ hn
      have hexact : wordMax ≤ n * b := hb.trans (Nat.le_mul_of_pos_left _ hn)
      rw [satMul, saturate, saturate, saturate, Nat.min_eq_right hb, Nat.min_eq_right hword,
        Nat.min_eq_right hexact]

section Sums

variable {cost : OpId → Checked (Option Nat)}

theorem sumCosts_isSome : ∀ {ids : List OpId} {acc : Nat},
    (∀ id ∈ ids, ∃ c, cost id = .ok (some c)) → ∃ total, sumCosts cost acc ids = .ok (some total)
  | [], acc, _ => ⟨acc, rfl⟩
  | id :: ids, acc, h => by
    obtain ⟨⟨c, hc⟩, h⟩ := List.forall_mem_cons.mp h
    rw [sumCosts, hc, Checked.ok_bind]
    exact sumCosts_isSome h

/-- A sum of costs that are held at the largest word is the whole sum, held there. -/
theorem sumCosts_saturate {amount : OpId → Nat} : ∀ {ids : List OpId} (acc : Nat),
    (∀ id ∈ ids, cost id = .ok (some (saturate (amount id)))) →
      sumCosts cost (saturate acc) ids = .ok (some (saturate (acc + (ids.map amount).sum)))
  | [], acc, _ => by
    simp [sumCosts]
  | id :: ids, acc, h => by
    obtain ⟨hid, h⟩ := List.forall_mem_cons.mp h
    rw [sumCosts, hid, Checked.ok_bind]
    simp only [satAdd_saturate]
    rw [sumCosts_saturate (acc + amount id) h, List.map_cons, List.sum_cons, Nat.add_assoc]

/-- The first operation that does not give a cost ends the sum with what it gives. -/
theorem sumCosts_stop {result : Checked (Option Nat)} (hresult : ∀ c, result ≠ .ok (some c))
    {id : OpId} (hid : cost id = result) {after : List OpId} : ∀ {before : List OpId} {acc : Nat},
      (∀ b ∈ before, ∃ c, cost b = .ok (some c)) →
        sumCosts cost acc (before ++ id :: after) = result
  | [], acc, _ => by
    rw [List.nil_append, sumCosts, hid]
    match result, hresult with
    | .ok none, _ => rfl
    | .ok (some c), hresult => exact absurd rfl (hresult c)
    | .error fault, _ => rfl
  | b :: before, acc, h => by
    obtain ⟨⟨c, hc⟩, h⟩ := List.forall_mem_cons.mp h
    rw [List.cons_append, sumCosts, hc, Checked.ok_bind]
    exact sumCosts_stop hresult hid h

theorem sumCosts_congr {cost' : OpId → Checked (Option Nat)} : ∀ {ids : List OpId} {acc : Nat},
    (∀ id ∈ ids, cost id = cost' id) → sumCosts cost acc ids = sumCosts cost' acc ids
  | [], _, _ => rfl
  | id :: ids, acc, h => by
    obtain ⟨hid, h⟩ := List.forall_mem_cons.mp h
    rw [sumCosts, sumCosts, hid]
    refine congrArg _ (funext fun c? => ?_)
    cases c? with
    | none => rfl
    | some c => exact sumCosts_congr h

theorem sumCosts_le : ∀ {ids : List OpId} {acc total : Nat}, acc ≤ wordMax →
    sumCosts cost acc ids = .ok (some total) → total ≤ wordMax
  | [], acc, total, hacc, h => by
    cases h
    exact hacc
  | id :: ids, acc, total, _, h => by
    obtain ⟨c?, -, h⟩ := Checked.bind_eq_ok.mp h
    cases c? with
    | none => cases h
    | some c => exact sumCosts_le (saturate_le _) h

end Sums

/-- What an operation costs whose parts cost `body` together. -/
def Kind.times : Kind → Nat → Option Nat
  | .loop l, body => l.tripCount.map (satMul · body)
  | _, body => some body

namespace Func

variable {f : Func}

/-! ## 3. Parts and obstacles -/

/-- The operations that the cost of an operation is summed over: the body of a loop or a node, and
the nodes directly in a schedule. -/
def parts (f : Func) (id : OpId) : List OpId :=
  match f.kindOf id with
  | some (.loop _) | some (.node _) => f.bodyOf id
  | some (.schedule _) => (f.bodyOf id).filter fun child => (f.kindOf child).any Kind.isNode
  | _ => []

/-- The elements of the memref are more than can be counted. -/
def Uncountable (f : Func) (v : ValueId) : Prop :=
  ∃ value, f.values[v]? = some value ∧ Overflows value.shape

/-- Why a price cannot be given. -/
inductive Obstacle where
  /-- The trip count of a loop is unknown. -/
  | unbounded
  /-- The elements of a memref cannot be counted. -/
  | uncountable (v : ValueId)

/-- What a price comes to at an obstacle. -/
def Obstacle.outcome : Obstacle → Checked (Option Nat)
  | .unbounded => .ok none
  | .uncountable v => .error (.elementCount v)

/-- `f.HaltsAt id obstacle`: the operation itself is an obstacle. -/
inductive HaltsAt (f : Func) (id : OpId) : Obstacle → Prop
  | loop {l : Loop} : f.kindOf id = some (.loop l) → l.tripCount = none → f.HaltsAt id .unbounded
  | copy {source v : ValueId} : f.kindOf id = some (.copy source v) → f.Uncountable v →
      f.HaltsAt id (.uncountable v)

/-- `f.Counts id x`: the cost of `x` goes into the cost of `id`. -/
def Counts (f : Func) : OpId → OpId → Prop := Relation.ReflTransGen fun id part => part ∈ f.parts id

/-- Nothing that goes into the cost of the operation is an obstacle. -/
def Clear (f : Func) (id : OpId) : Prop := ∀ x, f.Counts id x → ∀ obstacle, ¬ f.HaltsAt x obstacle

/-- `f.Halts id obstacle`: the obstacle is the first that the price of the operation comes upon.
The parts come before the operation, in their order. -/
inductive Halts (f : Func) : OpId → Obstacle → Prop
  | here {id : OpId} {obstacle : Obstacle} : f.HaltsAt id obstacle →
      (∀ part ∈ f.parts id, f.Clear part) → f.Halts id obstacle
  | part {id part : OpId} {before after : List OpId} {obstacle : Obstacle} :
      f.parts id = before ++ part :: after → (∀ b ∈ before, f.Clear b) →
      f.Halts part obstacle → f.Halts id obstacle

theorem parts_subset {id : OpId} : ∀ part ∈ f.parts id, part ∈ f.bodyOf id := by
  intro part hpart
  rw [parts] at hpart
  split at hpart
  · exact hpart
  · exact hpart
  · exact (List.mem_filter.mp hpart).1
  · cases hpart

theorem Clear.part {id part : OpId} (h : f.Clear id) (hpart : part ∈ f.parts id) : f.Clear part :=
  fun x hx => h x (hx.head hpart)

theorem clear_iff {id : OpId} : f.Clear id ↔
    (∀ obstacle, ¬ f.HaltsAt id obstacle) ∧ ∀ part ∈ f.parts id, f.Clear part := by
  constructor
  · exact fun h => ⟨h id .refl, fun part hpart => h.part hpart⟩
  · rintro ⟨hself, hparts⟩ x hx
    rcases Relation.ReflTransGen.cases_head hx with rfl | ⟨part, hpart, hx⟩
    · exact hself
    · exact hparts part hpart x hx

/-- `f.Costs id cost`: what the operation costs, counted without a bound.  A loop costs its parts
once per iteration, a node and a schedule cost their parts, a compute costs one, and a copy one per
element of its target. -/
inductive Costs (f : Func) : OpId → Nat → Prop
  | loop {id : OpId} {l : Loop} {trips : Nat} {cost : OpId → Nat} :
      f.kindOf id = some (.loop l) → l.tripCount = some trips →
      (∀ part ∈ f.parts id, f.Costs part (cost part)) →
      f.Costs id (trips * ((f.parts id).map cost).sum)
  | node {id : OpId} {name : String} {cost : OpId → Nat} : f.kindOf id = some (.node name) →
      (∀ part ∈ f.parts id, f.Costs part (cost part)) → f.Costs id ((f.parts id).map cost).sum
  | schedule {id : OpId} {s : Schedule} {cost : OpId → Nat} : f.kindOf id = some (.schedule s) →
      (∀ part ∈ f.parts id, f.Costs part (cost part)) → f.Costs id ((f.parts id).map cost).sum
  | compute {id : OpId} {c : Compute} : f.kindOf id = some (.compute c) → f.Costs id 1
  | copy {id : OpId} {source target : ValueId} {value : Value} :
      f.kindOf id = some (.copy source target) → f.values[target]? = some value →
      f.Costs id value.shape.prod
  | buffer {id : OpId} {result : ValueId} {init : Option Int} :
      f.kindOf id = some (.buffer result init) → f.Costs id 0
  | view {id : OpId} {source result : ValueId} : f.kindOf id = some (.view source result) →
      f.Costs id 0

/-- **Below an operation there is no obstacle, or a first one.** -/
theorem Nested.clear_or_halts (h : f.Nested) :
    ∀ id, f.Reaches id → f.Clear id ∨ ∃ obstacle, f.Halts id obstacle := by
  refine h.downward fun id _ ih => ?_
  rcases all_or_first f.Clear (f.parts id) with
    hclear | ⟨before, part, after, hparts, hbefore, hnot⟩
  · by_cases hself : ∃ obstacle, f.HaltsAt id obstacle
    · exact .inr (hself.imp fun _ hat => .here hat hclear)
    · exact .inl (clear_iff.mpr ⟨not_exists.mp hself, hclear⟩)
  · have hmem : part ∈ f.parts id := by simp [hparts]
    obtain ⟨obstacle, hhalts⟩ := (ih part (parts_subset part hmem)).resolve_left hnot
    exact .inr ⟨obstacle, .part hparts hbefore hhalts⟩

/-! ## 4. Costs -/

theorem Nested.childNodes_eq (h : f.Nested) {id : OpId} (hid : f.Reaches id) {s : Schedule}
    (hk : f.kindOf id = some (.schedule s)) : f.childNodes id = .ok (f.parts id) := by
  obtain ⟨op, hop, -⟩ := h.live id hid
  rw [childNodes, op_eq_ok_iff.mpr hop, Checked.ok_bind, parts, hk, bodyOf_eq hop]
  refine Checked.filterM_of_ok fun child hchild => ?_
  obtain ⟨cop, hcop, -⟩ := h.live child (.nested hid (bodyOf_eq hop ▸ hchild))
  rw [kind_eq_ok.mpr (kindOf_eq hcop), Checked.ok_bind, kindOf_eq hcop]
  rfl

/-- **An operation that holds others costs what its parts cost, as often as it runs them.** -/
theorem Nested.opCost_eq_sum (h : f.Nested) {id : OpId} (hid : f.Reaches id) {k : Kind}
    (hk : f.kindOf id = some k) (hleaf : k.isLeaf = false) (levels : Nat) :
    f.opCost (levels + 1) id
      = (sumCosts (f.opCost levels) 0 (f.parts id)).map fun body? => body?.bind k.times := by
  obtain ⟨op, hop, rfl⟩ := Option.map_eq_some_iff.mp hk
  rw [opCost, op_eq_ok_iff.mpr hop, Checked.ok_bind]
  cases hkind : op.kind with
  | loop l =>
    have hparts : f.parts id = op.body := by rw [parts, hk, hkind, bodyOf_eq hop]
    simp only [hparts]
    rcases sumCosts (f.opCost levels) 0 op.body with fault | _ | body <;> rfl
  | node name =>
    have hparts : f.parts id = op.body := by rw [parts, hk, hkind, bodyOf_eq hop]
    simp only [hparts]
    rcases sumCosts (f.opCost levels) 0 op.body with fault | _ | body <;> rfl
  | schedule s =>
    simp only [h.childNodes_eq hid (hkind ▸ hk), Checked.ok_bind]
    rcases sumCosts (f.opCost levels) 0 (f.parts id) with fault | _ | body <;> rfl
  | _ =>
    rw [hkind] at hleaf
    cases hleaf

theorem elementCount_of_overflows {v : ValueId} (h : f.Uncountable v) :
    f.elementCount v = .error (.elementCount v) := by
  obtain ⟨value, hvalue, hover⟩ := h
  rw [elementCount, value_eq_ok_iff.mpr hvalue, Checked.ok_bind, product?_eq_none_iff.mpr hover]
  rfl

theorem elementCount_eq_prod {v : ValueId} {value : Value} (hvalue : f.values[v]? = some value)
    (h : ¬ f.Uncountable v) : f.elementCount v = .ok value.shape.prod := by
  rw [elementCount, value_eq_ok_iff.mpr hvalue, Checked.ok_bind]
  cases hproduct : product? value.shape with
  | some n => simp [foldlM_mul?_eq_prod hproduct]
  | none => exact absurd ⟨value, hvalue, product?_eq_none_iff.mp hproduct⟩ h

theorem elementCount_le {v : ValueId} {n : Nat} (h : f.elementCount v = .ok n) : n ≤ wordMax := by
  obtain ⟨value, -, h⟩ := Checked.bind_eq_ok.mp h
  cases hproduct : product? value.shape with
  | none =>
    rw [hproduct] at h
    cases h
  | some p =>
    rw [hproduct] at h
    cases h
    exact foldlM_mul?_le (by decide) hproduct

/-- The parts of a reached operation are reached, and there is room to price them. -/
theorem Nested.part_room (h : f.Nested) {id part : OpId} {path : List OpId} {levels : Nat}
    (hid : f.Reaches id) (ht : f.Trail id path) (hlen : f.ops.size ≤ levels + 1 + path.length)
    (hpart : part ∈ f.parts id) : f.Reaches part ∧ f.Trail part (id :: path)
      ∧ f.ops.size ≤ levels + (id :: path).length := by
  have hmem := parts_subset part hpart
  refine ⟨.nested hid hmem, h.trail_child hid hmem ht, ?_⟩
  rw [List.length_cons]
  omega

/-- An operation that holds no others costs what it is said to cost, if it is no obstacle. -/
theorem Clear.leafCost_eq (h : f.Tidy) {id : OpId} {k : Kind} (hclear : f.Clear id)
    (hid : f.Reaches id) (hk : f.kindOf id = some k) (hleaf : k.isLeaf = true) (levels : Nat) :
    ∃ c, f.Costs id c ∧ f.opCost (levels + 1) id = .ok (some (saturate c)) := by
  obtain ⟨op, hop, rfl⟩ := Option.map_eq_some_iff.mp hk
  rw [opCost, op_eq_ok_iff.mpr hop, Checked.ok_bind]
  cases hkind : op.kind with
  | buffer result init => exact ⟨0, .buffer (hkind ▸ hk), rfl⟩
  | view source result => exact ⟨0, .view (hkind ▸ hk), rfl⟩
  | compute c => exact ⟨1, .compute (hkind ▸ hk), rfl⟩
  | copy source target =>
    obtain ⟨value, hvalue, -⟩ : f.Usable target := (h.mentions id op hid hop).uses target (by
      rw [hkind]
      simp [Kind.operands])
    have hcount : f.elementCount target = .ok value.shape.prod :=
      elementCount_eq_prod hvalue fun hover =>
        (clear_iff.mp hclear).1 _ (.copy (hkind ▸ hk) hover)
    refine ⟨value.shape.prod, .copy (hkind ▸ hk) hvalue, ?_⟩
    simp only [hcount, Checked.ok_bind, saturate_of_le (elementCount_le hcount)]
    rfl
  | _ =>
    rw [hkind] at hleaf
    cases hleaf

/-- **An operation without an obstacle below it has a cost**, the one that counting without a bound
gives, held at the largest word. -/
theorem Clear.opCost_eq (h : f.Tidy) : ∀ {levels : Nat} {id : OpId} {path : List OpId},
    f.Clear id → f.Reaches id → f.Trail id path → f.ops.size ≤ levels + path.length →
      ∃ c, f.Costs id c ∧ f.opCost levels id = .ok (some (saturate c))
  | 0, id, path, _, hid, ht, hlen => by
    have := h.trail_length_lt hid ht
    omega
  | levels + 1, id, path, hclear, hid, ht, hlen => by
    obtain ⟨op, hop, -⟩ := h.live id hid
    have hk := kindOf_eq hop
    cases hleaf : op.kind.isLeaf with
    | true => exact hclear.leafCost_eq h hid hk hleaf levels
    | false =>
      have hparts : ∀ part ∈ f.parts id, ∃ c, f.Costs part c
          ∧ f.opCost levels part = .ok (some (saturate c)) := by
        intro part hpart
        obtain ⟨hreached, htrail, hroom⟩ := h.part_room hid ht hlen hpart
        exact (hclear.part hpart).opCost_eq h hreached htrail hroom
      choose! cost hcosts hcost using hparts
      have hsum : sumCosts (f.opCost levels) 0 (f.parts id)
          = .ok (some (saturate ((f.parts id).map cost).sum)) := by
        simpa [saturate] using sumCosts_saturate 0 hcost
      rw [h.opCost_eq_sum hid hk hleaf, hsum]
      cases hkind : op.kind with
      | loop l =>
        cases hcount : l.tripCount with
        | none => exact absurd (.loop (hkind ▸ hk) hcount) ((clear_iff.mp hclear).1 _)
        | some trips =>
          refine ⟨_, .loop (hkind ▸ hk) hcount hcosts, ?_⟩
          simp [Except.map, Kind.times, hcount, satMul_saturate]
      | node name => exact ⟨_, .node (hkind ▸ hk) hcosts, rfl⟩
      | schedule s => exact ⟨_, .schedule (hkind ▸ hk) hcosts, rfl⟩
      | _ =>
        rw [hkind] at hleaf
        cases hleaf

theorem Clear.opCost_isSome (h : f.Tidy) {levels : Nat} {id : OpId} {path : List OpId}
    (hclear : f.Clear id) (hid : f.Reaches id) (ht : f.Trail id path)
    (hlen : f.ops.size ≤ levels + path.length) : ∃ c, f.opCost levels id = .ok (some c) := by
  obtain ⟨c, -, hc⟩ := hclear.opCost_eq h hid ht hlen
  exact ⟨_, hc⟩

theorem Obstacle.outcome_ne_some (obstacle : Obstacle) (c : Nat) :
    obstacle.outcome ≠ .ok (some c) := by
  cases obstacle <;> simp [outcome]

theorem holder_of_mem_parts {id part : OpId} (h : part ∈ f.parts id) :
    ∃ k, f.kindOf id = some k ∧ k.isLeaf = false := by
  rw [parts] at h
  split at h
  case h_1 l hk => exact ⟨_, hk, rfl⟩
  case h_2 name hk => exact ⟨_, hk, rfl⟩
  case h_3 s hk => exact ⟨_, hk, rfl⟩
  case h_4 => cases h

/-- **Any other comes to the end that its first obstacle makes.** -/
theorem Halts.opCost_eq (h : f.Tidy) {id : OpId} {obstacle : Obstacle}
    (hhalts : f.Halts id obstacle) : ∀ {levels : Nat} {path : List OpId}, f.Reaches id →
      f.Trail id path → f.ops.size ≤ levels + path.length →
        f.opCost levels id = obstacle.outcome := by
  induction hhalts with
  | @here id obstacle hat hclear =>
    intro levels path hid ht hlen
    cases levels with
    | zero =>
      have := h.trail_length_lt hid ht
      omega
    | succ levels =>
      cases hat with
      | @loop l hk hcount =>
        obtain ⟨total, htotal⟩ : ∃ total,
            sumCosts (f.opCost levels) 0 (f.parts id) = .ok (some total) := by
          refine sumCosts_isSome fun part hpart => ?_
          obtain ⟨hreached, htrail, hroom⟩ := h.part_room hid ht hlen hpart
          exact (hclear part hpart).opCost_isSome h hreached htrail hroom
        rw [h.opCost_eq_sum hid hk rfl, htotal]
        simp [Except.map, Kind.times, hcount, Obstacle.outcome]
      | @copy source v hk hover =>
        obtain ⟨op, hop, hkind⟩ := Option.map_eq_some_iff.mp hk
        rw [opCost, op_eq_ok_iff.mpr hop, Checked.ok_bind, hkind]
        simp only [elementCount_of_overflows hover]
        rfl
  | @part id part before after obstacle hparts hbefore _ ih =>
    intro levels path hid ht hlen
    cases levels with
    | zero =>
      have := h.trail_length_lt hid ht
      omega
    | succ levels =>
      have hroom : ∀ x ∈ before ++ part :: after, _ := fun x hx =>
        h.part_room hid ht hlen (hparts ▸ hx)
      have hpart : part ∈ before ++ part :: after := List.mem_append_right _ List.mem_cons_self
      obtain ⟨k, hk, hleaf⟩ := holder_of_mem_parts (hparts ▸ hpart)
      have hsum : sumCosts (f.opCost levels) 0 (f.parts id) = obstacle.outcome := by
        rw [hparts]
        refine sumCosts_stop obstacle.outcome_ne_some ?_ fun b hb => ?_
        · obtain ⟨hreached, htrail, hlen'⟩ := hroom part hpart
          exact ih hreached htrail hlen'
        · obtain ⟨hreached, htrail, hlen'⟩ := hroom b (List.mem_append_left _ hb)
          exact (hbefore b hb).opCost_isSome h hreached htrail hlen'
      rw [h.opCost_eq_sum hid hk hleaf, hsum]
      cases obstacle <;> rfl

/-! ## 5. Prices of nodes and schedules -/

theorem bodyCost_eq {id : OpId} {name : String} (hk : f.kindOf id = some (.node name)) :
    f.bodyCost id = f.opCost (f.depthBound + 1) id := by
  obtain ⟨op, hop, hkind⟩ := Option.map_eq_some_iff.mp hk
  rw [bodyCost, opCost, op_eq_ok_iff.mpr hop, Checked.ok_bind, Checked.ok_bind, hkind]

theorem isNode_of_mem_parts {id part : OpId} {s : Schedule}
    (hk : f.kindOf id = some (.schedule s)) (hpart : part ∈ f.parts id) :
    ∃ name, f.kindOf part = some (.node name) := by
  rw [parts, hk, List.mem_filter] at hpart
  obtain ⟨k, hk', hnode⟩ := (Option.any_eq_true _ _).mp hpart.2
  cases k with
  | node name => exact ⟨name, hk'⟩
  | _ => cases hnode

theorem Nested.schedulePrice_eq (h : f.Nested) {id : OpId} (hid : f.Reaches id) {s : Schedule}
    (hk : f.kindOf id = some (.schedule s)) :
    Prices.byTripCount.schedule f id = f.opCost (f.depthBound + 2) id := by
  rw [h.opCost_eq_sum hid hk rfl]
  show scheduleCost bodyCost f id = _
  rw [scheduleCost, h.childNodes_eq hid hk, Checked.ok_bind]
  have hcongr : sumCosts f.bodyCost 0 (f.parts id)
      = sumCosts (f.opCost (f.depthBound + 1)) 0 (f.parts id) := by
    refine sumCosts_congr fun part hpart => ?_
    obtain ⟨name, hname⟩ := isNode_of_mem_parts hk hpart
    exact bodyCost_eq hname
  rw [hcongr]
  rcases sumCosts (f.opCost (f.depthBound + 1)) 0 (f.parts id) with fault | _ | body <;> rfl

namespace Tidy

theorem opCost_of_clear (h : f.Tidy) {id : OpId} (hid : f.Reaches id) (hclear : f.Clear id)
    (levels : Nat) :
    ∃ c, f.Costs id c ∧ f.opCost (f.depthBound + levels) id = .ok (some (saturate c)) := by
  obtain ⟨path, ht⟩ := h.exists_trail hid
  exact hclear.opCost_eq h hid ht (by rw [depthBound]; omega)

theorem opCost_of_halts (h : f.Tidy) {id : OpId} (hid : f.Reaches id) {obstacle : Obstacle}
    (hhalts : f.Halts id obstacle) (levels : Nat) :
    f.opCost (f.depthBound + levels) id = obstacle.outcome := by
  obtain ⟨path, ht⟩ := h.exists_trail hid
  exact hhalts.opCost_eq h hid ht (by rw [depthBound]; omega)

theorem schedulePrice_of_clear (h : f.Tidy) {id : OpId} (hid : f.Reaches id) {s : Schedule}
    (hk : f.kindOf id = some (.schedule s)) (hclear : f.Clear id) :
    ∃ c, f.Costs id c ∧ Prices.byTripCount.schedule f id = .ok (some (saturate c)) := by
  rw [h.schedulePrice_eq hid hk]
  exact h.opCost_of_clear hid hclear 2

theorem schedulePrice_of_halts (h : f.Tidy) {id : OpId} (hid : f.Reaches id) {s : Schedule}
    (hk : f.kindOf id = some (.schedule s)) {obstacle : Obstacle} (hhalts : f.Halts id obstacle) :
    Prices.byTripCount.schedule f id = obstacle.outcome := by
  rw [h.schedulePrice_eq hid hk]
  exact h.opCost_of_halts hid hhalts 2

theorem nodePrice_of_clear (h : f.Tidy) {id : OpId} (hid : f.Reaches id) {name : String}
    (hk : f.kindOf id = some (.node name)) (hclear : f.Clear id) :
    ∃ c, f.Costs id c ∧ Prices.byTripCount.node f id = .ok (some (saturate c)) := by
  show ∃ c, f.Costs id c ∧ f.bodyCost id = .ok (some (saturate c))
  rw [bodyCost_eq hk]
  exact h.opCost_of_clear hid hclear 1

theorem nodePrice_of_halts (h : f.Tidy) {id : OpId} (hid : f.Reaches id) {name : String}
    (hk : f.kindOf id = some (.node name)) {obstacle : Obstacle} (hhalts : f.Halts id obstacle) :
    Prices.byTripCount.node f id = obstacle.outcome := by
  show f.bodyCost id = obstacle.outcome
  rw [bodyCost_eq hk]
  exact h.opCost_of_halts hid hhalts 1

end Tidy
end Func
end Dataflow
