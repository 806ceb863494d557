/-
# How budgets flow

A schedule has a budget to share out (`Func.Receives`): the root budget if no node is around it, and
otherwise what its annotations make of the budget of the node around it.  A node's share is in
proportion to its cost, rounded down, and at least one (`nodeShare_eq`).

These are equations between budgets, and the pass solves them all at once (`Func.SharesOut`).  It
goes over the schedules once.  Every node stands in one schedule, so that a budget that was put in
is not put in again (`OpMap.Grows`), and the budget that a schedule read on the way is the one that
its node has in the end.

Rounding down gives away no more than there is, and the lower bound of one gives each node at most
one more than its part (`sum_nodeShare_le`).
-/
import Dataflow.Proofs.Pricing

namespace Dataflow

/-! ## 1. Shares -/

theorem nodeShare_eq (budget cost total : Nat) : nodeShare budget cost total =
    if total = 0 then 1 else max 1 (min wordMax (budget * cost / total)) := by
  unfold nodeShare saturate
  split
  · rfl
  · rw [Nat.min_comm]
    exact Nat.max_comm _ 1

/-- A node that costs no more than the schedule gets no more than the schedule has. -/
theorem nodeShare_le {cost total : Nat} (budget : Nat) (hcost : cost ≤ total) :
    nodeShare budget cost total ≤ max 1 budget := by
  have hfloor : budget * cost / total ≤ budget := by
    refine Nat.div_le_of_le_mul ?_
    rw [Nat.mul_comm total]
    exact Nat.mul_le_mul_left budget hcost
  rw [nodeShare_eq]
  split <;> omega

/-- A share is more than the node's part only if it is one. -/
theorem nodeShare_le_add (budget cost total : Nat) : nodeShare budget cost total ≤
    budget * cost / total + if nodeShare budget cost total = 1 then 1 else 0 := by
  by_cases hone : nodeShare budget cost total = 1
  · simp [hone]
  · rw [if_neg hone]
    rw [nodeShare_eq] at hone ⊢
    by_cases htotal : total = 0
    · exact absurd (if_pos htotal) hone
    · rw [if_neg htotal] at hone ⊢
      omega

/-- **Shares come to no more than the parts they are for, and one for each share of one.** -/
theorem sum_nodeShare_le (budget total : Nat) : ∀ costs : List Nat,
    (costs.map (nodeShare budget · total)).sum ≤
      budget * costs.sum / total + (costs.map (nodeShare budget · total)).count 1
  | [] => by simp
  | cost :: costs => by
    have hhead := nodeShare_le_add budget cost total
    have hrest := sum_nodeShare_le budget total costs
    have hfloors : budget * cost / total + budget * costs.sum / total
        ≤ budget * (cost + costs.sum) / total := by
      rw [Nat.mul_add]
      exact Nat.div_add_div_le_add_div
    simp only [List.map_cons, List.sum_cons, List.count_cons, beq_iff_eq]
    omega

/-- What a schedule multiplies a budget by; one if it does not say. -/
def Schedule.multiplier (s : Schedule) : Nat := s.increase.elim 1 Positive.val

/-- What it divides the product by. -/
def Schedule.divisor (s : Schedule) : Nat := s.decrease.elim 1 Positive.val

theorem Schedule.scale_eq (s : Schedule) (budget : Nat) :
    s.scale budget = min wordMax (budget * s.multiplier / s.divisor) := by
  obtain ⟨name, increase, decrease⟩ := s
  cases increase <;> cases decrease <;>
    simp [scale, multiplier, divisor, saturate, Nat.min_comm]

/-! ## 2. Maps that grow -/

namespace OpMap

variable {α : Type} {m m' m'' : OpMap α}

/-- Whatever is in the first map is in the second, with the same value. -/
def Grows (m m' : OpMap α) : Prop := ∀ id a, m.get? id = some a → m'.get? id = some a

theorem Grows.refl (m : OpMap α) : m.Grows m := fun _ _ h => h

theorem Grows.trans (h : m.Grows m') (h' : m'.Grows m'') : m.Grows m'' :=
  fun id a ha => h' id a (h id a ha)

theorem grows_put {id : OpId} (hnew : id ∉ m.map Prod.fst) (a : α) : m.Grows (m.put id a) := by
  intro k b hk
  have hne : k ≠ id := by
    rintro rfl
    exact hnew (List.mem_map_of_mem (mem_of_get? hk))
  rw [get?_put, if_neg hne, hk]

end OpMap

namespace Func

variable {f : Func} {audience : Audience} {prices : Prices} {root : Nat}

/-! ## 3. What a schedule receives and shares out -/

/-- `f.Receives root budgets s budget`: what the schedule has to share out. -/
inductive Receives (f : Func) (root : Nat) (budgets : Budgets) (s : OpId) : Nat → Prop
  | root : (∀ node, ¬ f.InNode node s) → f.Receives root budgets s root
  | node {node : OpId} {budget : Nat} {schedule : Schedule} : f.InNode node s →
      budgets.get? node = some budget → f.kindOf s = some (.schedule schedule) →
      f.Receives root budgets s (min wordMax (budget * schedule.multiplier / schedule.divisor))

theorem Receives.grows {budgets budgets' : Budgets} {s : OpId} {budget : Nat}
    (h : f.Receives root budgets s budget) (hgrows : budgets.Grows budgets') :
    f.Receives root budgets' s budget := by
  cases h with
  | root hnone => exact .root hnone
  | node hin hget hk => exact .node hin (hgrows _ _ hget) hk

theorem Nested.receives_of_incomingBudget (h : f.Nested) {s : OpId} (hs : f.Reaches s)
    {schedule : Schedule} (hk : f.kindOf s = some (.schedule schedule)) {budgets : Budgets}
    {budget : Nat} (hincoming : f.incomingBudget s budgets root = .ok (.ok budget)) :
    f.Receives root budgets s budget := by
  obtain ⟨node?, hnode, hincoming⟩ := Checked.bind_eq_ok.mp hincoming
  cases node? with
  | none =>
    cases hincoming
    refine .root fun node hin => ?_
    rw [(h.nodeAround_eq_some_iff hs).mpr hin] at hnode
    cases hnode
  | some node =>
    cases hget : budgets.get? node with
    | none =>
      simp only [hget] at hincoming
      obtain ⟨_, -, hincoming⟩ := Checked.bind_eq_ok.mp hincoming
      cases hincoming
    | some b =>
      simp only [hget, kind_eq_ok.mpr hk, Checked.ok_bind] at hincoming
      cases hincoming
      rw [Schedule.scale_eq]
      exact .node (inNode_of_nodeAround hnode) hget hk

/-- `f.SharesOut prices root budgets s budget total`: the nodes of the schedule have their shares of
what it receives. -/
structure SharesOut (f : Func) (prices : Prices) (root : Nat) (budgets : Budgets) (s : OpId)
    (budget total : Nat) : Prop where
  receives : f.Receives root budgets s budget
  price : prices.schedule f s = .ok (some total)
  share : ∀ node ∈ f.parts s, ∃ cost, prices.node f node = .ok (some cost)
    ∧ budgets.get? node = some (nodeShare budget cost total)

theorem SharesOut.grows {budgets budgets' : Budgets} {s : OpId} {budget total : Nat}
    (h : f.SharesOut prices root budgets s budget total) (hgrows : budgets.Grows budgets') :
    f.SharesOut prices root budgets' s budget total where
  receives := h.receives.grows hgrows
  price := h.price
  share := fun node hnode => by
    obtain ⟨cost, hcost, hshare⟩ := h.share node hnode
    exact ⟨cost, hcost, hgrows _ _ hshare⟩

/-! ## 4. The nodes of schedules -/

/-- The nodes in a schedule are those whose parent it is. -/
theorem Nested.mem_parts_iff (h : f.Nested) {s : OpId} (hs : f.Reaches s) {schedule : Schedule}
    (hk : f.kindOf s = some (.schedule schedule)) {node : OpId} :
    node ∈ f.parts s ↔ f.Participant node ∧ f.parentOf node = some s := by
  constructor
  · intro hnode
    have hmem : node ∈ f.bodyOf s := parts_subset node hnode
    obtain ⟨-, hisNode⟩ := mem_childNodes (h.childNodes_eq hs hk) node hnode
    exact ⟨⟨.nested hs hmem, hisNode⟩, h.parentOf_nested s hs node hmem⟩
  · rintro ⟨⟨hnode, op, hop, hisNode⟩, hparent⟩
    rw [parts, hk, List.mem_filter, kindOf_eq hop]
    exact ⟨(h.holds_of_isParent hnode hparent).2, hisNode⟩

theorem Nested.nodup_parts (h : f.Nested) {s : OpId} (hs : f.Reaches s) {schedule : Schedule}
    (hk : f.kindOf s = some (.schedule schedule)) : (f.parts s).Nodup := by
  rw [parts, hk]
  exact (h.nodup_bodyOf s hs).filter _

/-- **One schedule**: nodes without a budget get their shares, and come last. -/
theorem budgetNodes_shares {budget total : Nat} :
    ∀ {nodes : List OpId} {budgets budgets' : Budgets}, nodes.Nodup →
    (∀ node ∈ nodes, node ∉ budgets.map Prod.fst) →
    (f.budgetNodes prices budget total nodes budgets).Yields audience (.ok budgets') →
      budgets'.map Prod.fst = budgets.map Prod.fst ++ nodes ∧ budgets.Grows budgets'
      ∧ ∀ node ∈ nodes, ∃ cost, prices.node f node = .ok (some cost)
          ∧ budgets'.get? node = some (nodeShare budget cost total)
  | [], budgets, budgets', _, _, h => by
    cases Traced.yields_pure.mp h
    exact ⟨(List.append_nil _).symm, .refl budgets, fun node hnode => by cases hnode⟩
  | node :: nodes, budgets, budgets', hnd, hnew, h => by
    obtain ⟨hnode, hnd⟩ := List.nodup_cons.mp hnd
    obtain ⟨hnewNode, hnew⟩ := List.forall_mem_cons.mp hnew
    obtain ⟨cost, hcost, h⟩ := budgetNodes_cons_yields h
    have hkeys : (budgets.put node (nodeShare budget cost total)).map Prod.fst
        = budgets.map Prod.fst ++ [node] := by
      rw [OpMap.map_fst_put, if_neg hnewNode]
    obtain ⟨hkeys', hgrows, hshares⟩ := budgetNodes_shares hnd (fun other hother hmem => by
      rw [hkeys, List.mem_append, List.mem_singleton] at hmem
      rcases hmem with hmem | rfl
      · exact hnew other hother hmem
      · exact hnode hother) h
    refine ⟨by simp [hkeys', hkeys], (OpMap.grows_put hnewNode _).trans hgrows, ?_⟩
    intro other hother
    rcases List.mem_cons.mp hother with rfl | hother
    · exact ⟨cost, hcost, hgrows _ _ (by rw [OpMap.get?_put, if_pos rfl])⟩
    · exact hshares other hother

/-- **All schedules**: if none of their nodes has a budget, each shares out what it receives, and
their nodes come last. -/
theorem Nested.budgetSchedules_shares (hn : f.Nested) :
    ∀ {schedules : List OpId} {budgets budgets' : Budgets}, schedules.Nodup →
    (∀ s ∈ schedules, f.Reaches s ∧ ∃ schedule, f.kindOf s = some (.schedule schedule)) →
    (∀ s ∈ schedules, ∀ node ∈ f.parts s, node ∉ budgets.map Prod.fst) →
    (f.budgetSchedules prices root schedules budgets).Yields audience (.ok budgets') →
      budgets'.map Prod.fst = budgets.map Prod.fst ++ schedules.flatMap f.parts
      ∧ budgets.Grows budgets'
      ∧ ∀ s ∈ schedules, ∃ budget total, f.SharesOut prices root budgets' s budget total
  | [], budgets, budgets', _, _, _, h => by
    cases Traced.yields_pure.mp h
    exact ⟨(List.append_nil _).symm, .refl budgets, fun s hs => by cases hs⟩
  | s :: schedules, budgets, budgets', hnd, hall, hnew, h => by
    obtain ⟨hfresh, hnd⟩ := List.nodup_cons.mp hnd
    obtain ⟨⟨hs, schedule, hk⟩, hall⟩ := List.forall_mem_cons.mp hall
    obtain ⟨hnewNodes, hnew⟩ := List.forall_mem_cons.mp hnew
    obtain ⟨budget, total, nodes, budgets₁, hincoming, htotal, hnodes, hshared, h⟩ :=
      budgetSchedules_cons_yields h
    rw [hn.childNodes_eq hs hk] at hnodes
    cases hnodes
    obtain ⟨hkeys₁, hgrows₁, hshares⟩ :=
      budgetNodes_shares (hn.nodup_parts hs hk) hnewNodes hshared
    obtain ⟨hkeys', hgrows', hrest⟩ := hn.budgetSchedules_shares hnd hall
      (fun s' hs' node hnode hmem => by
        rw [hkeys₁, List.mem_append] at hmem
        rcases hmem with hmem | hmem
        · exact hnew s' hs' node hnode hmem
        · -- A node has one parent, so no schedule comes to the nodes of another.
          obtain ⟨hs'Reached, schedule', hk'⟩ := hall s' hs'
          have hparent := ((hn.mem_parts_iff hs hk).mp hmem).2
          rw [((hn.mem_parts_iff hs'Reached hk').mp hnode).2] at hparent
          cases hparent
          exact hfresh hs') h
    have hfirst : f.SharesOut prices root budgets₁ s budget total := {
      receives := (hn.receives_of_incomingBudget hs hk hincoming).grows hgrows₁
      price := htotal
      share := hshares }
    refine ⟨by simp [hkeys', hkeys₁], hgrows₁.trans hgrows', ?_⟩
    intro s' hs'
    rcases List.mem_cons.mp hs' with rfl | hs'
    · exact ⟨budget, total, hfirst.grows hgrows'⟩
    · exact hrest s' hs'

/-- **The budgets are those of the schedules' nodes, and solve the equations of all schedules.** -/
theorem Nested.budgets_shares (h : f.Nested) {budgets : Budgets}
    (hy : (f.budgets prices root).Yields audience (.ok budgets)) :
    ∃ schedules : List OpId, (∀ s, s ∈ schedules ↔
        f.Reaches s ∧ ∃ schedule, f.kindOf s = some (.schedule schedule))
      ∧ budgets.map Prod.fst = schedules.flatMap f.parts
      ∧ ∀ s ∈ schedules, ∃ budget total, f.SharesOut prices root budgets s budget total := by
  obtain ⟨schedules, hschedules, hnd⟩ := h.findAll_isOk (·.kind.isSchedule)
  have hmem : ∀ s, s ∈ schedules ↔
      f.Reaches s ∧ ∃ schedule, f.kindOf s = some (.schedule schedule) :=
    fun s => h.mem_schedules hschedules
  obtain ⟨hkeys, -, hshares⟩ := h.budgetSchedules_shares hnd (fun s hs => (hmem s).mp hs)
    (fun _ _ _ _ hkey => by cases hkey) ((Traced.yields_lift_bind hschedules).mp hy)
  exact ⟨schedules, hmem, hkeys, hshares⟩

/-! ## 5. What comes of a pass -/

/-- **Budgets solve their equations, and are not overcommitted.**  Budgets are those of the nodes
whose parent is a schedule.  Each is the node's share of what its schedule receives.  Where a
schedule costs what its nodes cost together, no share is more than what there is, and all shares
together are more only by the number of those that are one. -/
theorem budgets_solve_and_conserve {f : Func} {prices : Prices} {root : Nat} {audience : Audience}
    {budgets : Budgets} (hf : f.verify = .ok ())
    (hy : (f.budgets prices root).Yields audience (.ok budgets)) :
    (budgets.map Prod.fst).Nodup
    ∧ (∀ node, node ∈ budgets.map Prod.fst ↔ f.Reaches node ∧ f.IsNode node
        ∧ ∃ s schedule, f.parentOf node = some s ∧ f.kindOf s = some (.schedule schedule))
    ∧ ∀ s schedule, f.Reaches s → f.kindOf s = some (.schedule schedule) →
        (f.parts s).Nodup
        ∧ (∀ node, node ∈ f.parts s ↔ f.Reaches node ∧ f.IsNode node ∧ f.parentOf node = some s)
        ∧ ∃ (incoming total : Nat) (cost share : OpId → Nat),
          f.Receives root budgets s incoming ∧ prices.schedule f s = .ok (some total)
          ∧ (∀ node ∈ f.parts s, prices.node f node = .ok (some (cost node))
              ∧ budgets.get? node = some (share node)
              ∧ share node =
                  if total = 0 then 1 else max 1 (min wordMax (incoming * cost node / total)))
          ∧ (total = ((f.parts s).map cost).sum →
              (∀ node ∈ f.parts s, share node ≤ max 1 incoming)
              ∧ ((f.parts s).map share).sum ≤ incoming + ((f.parts s).map share).count 1) := by
  have h := (verify_eq_ok_iff_tidy.mp hf).toNested
  obtain ⟨schedules, hmem, hkeys, hshares⟩ := h.budgets_shares hy
  refine ⟨(budgets_keyed h hy).1, fun node => ?_, fun s schedule hs hk => ?_⟩
  · rw [hkeys, List.mem_flatMap]
    constructor
    · rintro ⟨s, hs, hnode⟩
      obtain ⟨hreached, schedule, hk⟩ := (hmem s).mp hs
      obtain ⟨hparticipant, hparent⟩ := (h.mem_parts_iff hreached hk).mp hnode
      exact ⟨hparticipant.1, hparticipant.2, s, schedule, hparent, hk⟩
    · rintro ⟨hnode, hisNode, s, schedule, hparent, hk⟩
      have hs : f.Reaches s := (h.holds_of_isParent hnode hparent).1
      exact ⟨s, (hmem s).mpr ⟨hs, schedule, hk⟩,
        (h.mem_parts_iff hs hk).mpr ⟨⟨hnode, hisNode⟩, hparent⟩⟩
  · obtain ⟨incoming, total, hsplit⟩ := hshares s ((hmem s).mpr ⟨hs, schedule, hk⟩)
    choose! cost hcost hshare using hsplit.share
    refine ⟨h.nodup_parts hs hk, fun node => ?_, incoming, total, cost,
      fun node => nodeShare incoming (cost node) total, hsplit.receives, hsplit.price,
      fun node hnode => ?_, fun htotal => ⟨fun node hnode => ?_, ?_⟩⟩
    · rw [h.mem_parts_iff hs hk, Participant, and_assoc]
    · exact ⟨hcost node hnode, hshare node hnode, nodeShare_eq incoming (cost node) total⟩
    · refine nodeShare_le incoming ?_
      rw [htotal]
      exact List.single_le_sum (fun _ _ => Nat.zero_le _) _ (List.mem_map_of_mem hnode)
    · have hsum := sum_nodeShare_le incoming total ((f.parts s).map cost)
      rw [List.map_map, ← htotal] at hsum
      refine hsum.trans (Nat.add_le_add_right ?_ _)
      exact Nat.div_le_of_le_mul (Nat.mul_comm incoming total).le

/-- A node that holds two schedules, one of them under a loop, and a node beside it. -/
def layered : Func where
  name := "f"
  arguments := []
  body := [0]
  ops := #[
    { id := 0, kind := .schedule { name := "top", increase := none, decrease := none },
      parent := none, body := [1, 8], erased := false },
    { id := 1, kind := .node "outer", parent := some 0, body := [2, 5], erased := false },
    { id := 2, kind := .schedule { name := "up", increase := some ⟨2, by decide⟩,
                                   decrease := none },
      parent := some 1, body := [3, 4], erased := false },
    { id := 3, kind := .node "inner", parent := some 2, body := [], erased := false },
    { id := 4, kind := .node "idle", parent := some 2, body := [], erased := false },
    { id := 5, kind := .loop (.plain "i" 0 (some 2) 1), parent := some 1, body := [6],
      erased := false },
    { id := 6, kind := .schedule { name := "down", increase := some ⟨3, by decide⟩,
                                   decrease := some ⟨2, by decide⟩ },
      parent := some 5, body := [7], erased := false },
    { id := 7, kind := .node "other", parent := some 6, body := [], erased := false },
    { id := 8, kind := .node "side", parent := some 0, body := [], erased := false }]
  values := #[]

/-- Prices for its nodes. -/
def layeredPrices : Prices :=
  .ofNodes fun _ id => .ok (OpMap.get? [(1, 5), (3, 7), (4, 0), (7, 7), (8, 2)] id)

/-- Of six, the outer node gets four.  The schedule in it makes eight of them, and gives one more
than that, since the idle node gets one for nothing. -/
theorem budgets_solve_layered : layered.verify = .ok ()
    ∧ (layered.budgets layeredPrices 6).Yields none (.ok [(1, 4), (8, 1), (3, 8), (4, 1), (7, 6)])
    ∧ ∃ incoming, layered.Receives 6 [(1, 4), (8, 1), (3, 8), (4, 1), (7, 6)] 2 incoming
        ∧ 8 + 1 ≤ incoming + 1 := by
  have hverify : layered.verify = .ok () := by decide
  have hy : (layered.budgets layeredPrices 6).Yields none
      (.ok [(1, 4), (8, 1), (3, 8), (4, 1), (7, 6)]) := ⟨_, rfl⟩
  refine ⟨hverify, hy, ?_⟩
  obtain ⟨-, -, hshares⟩ := budgets_solve_and_conserve hverify hy
  have htop : layered.Reaches 0 := .top (by decide)
  have houter : layered.Reaches 1 := .nested htop (by decide)
  obtain ⟨-, -, incoming, total, cost, share, hreceives, htotal, hnodes, hconserve⟩ :=
    hshares 2 _ (.nested houter (by decide)) rfl
  obtain ⟨hinner, hinnerShare, -⟩ := hnodes 3 (by decide)
  obtain ⟨hidle, hidleShare, -⟩ := hnodes 4 (by decide)
  have hcosts : total = 7 ∧ cost 3 = 7 ∧ cost 4 = 0 :=
    ⟨Option.some.inj (Except.ok.inj (htotal.symm.trans rfl)),
      Option.some.inj (Except.ok.inj (hinner.symm.trans rfl)),
      Option.some.inj (Except.ok.inj (hidle.symm.trans rfl))⟩
  have hinnerGets : share 3 = 8 := Option.some.inj (hinnerShare.symm.trans rfl)
  have hidleGets : share 4 = 1 := Option.some.inj (hidleShare.symm.trans rfl)
  have hparts : layered.parts 2 = [3, 4] := rfl
  have hsum := (hconserve (by simp [hparts, hcosts])).2
  exact ⟨incoming, hreceives, by simpa [hparts, hinnerGets, hidleGets] using hsum⟩

end Func
end Dataflow
