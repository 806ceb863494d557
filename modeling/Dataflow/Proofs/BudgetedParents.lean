/-
# Parents get their budgets first

Schedules are taken in program order.  The schedule that a node stands in is around all schedules in
the node, so it is taken before them (`Func.Nested.mem_before_of_above`), and the node has its
budget when they ask for it.  A schedule asks in vain only if the node around it stands in no
schedule, and then nobody ever gives the node a budget.

So a missing parent budget is a defect of the nesting that the refusal names, and a function with
such a defect gets no budgets (`Func.budgets_parents_first`).
-/
import Dataflow.Proofs.BudgetFlow
import Dataflow.Proofs.ProgramOrder

namespace Dataflow
namespace Func

variable {f : Func} {audience : Audience} {prices : Prices} {root : Nat}

/-! ## 1. Schedules in order -/

/-- **A schedule around another comes before it.** -/
theorem Nested.mem_before_of_above (h : f.Nested) {before after : List OpId} {s s' : OpId}
    (hschedules : f.schedules = .ok (before ++ s :: after)) {schedule : Schedule}
    (hk : f.kindOf s' = some (.schedule schedule)) (hup : f.Above s' s) (hne : s' ≠ s) :
    s' ∈ before := by
  obtain ⟨hs, -⟩ := (h.mem_schedules hschedules).mp (List.mem_append_right _ List.mem_cons_self)
  have hs' : f.Reaches s' := h.reaches_of_above hup hs
  have hmem := (h.mem_schedules hschedules).mpr ⟨hs', schedule, hk⟩
  rcases List.mem_append.mp hmem with hbefore | hmem
  · exact hbefore
  · rcases List.mem_cons.mp hmem with heq | hafter
    · exact absurd heq hne
    · have hpairs := (List.pairwise_append.mp (h.findAll_pairwise hschedules)).2.1
      have hstands : f.StandsBefore s s' := (List.pairwise_cons.mp hpairs).1 s' hafter
      exact (h.not_standsBefore_both hs hs' (Ne.symm hne) hstands (.inl hup)).elim

/-! ## 2. Nodes with a budget -/

/-- The parent of the operation is a schedule. -/
def InSchedule (f : Func) (id : OpId) : Prop :=
  ∃ s schedule, f.parentOf id = some s ∧ f.kindOf s = some (.schedule schedule)

/-- Where schedules share out budgets, a node with a budget stands in one of them. -/
theorem Nested.inSchedule_of_get? (h : f.Nested) {schedules : List OpId}
    (hall : ∀ s ∈ schedules, f.Reaches s ∧ ∃ schedule, f.kindOf s = some (.schedule schedule))
    {budgets : Budgets} (hkeys : budgets.map Prod.fst = schedules.flatMap f.parts) {node : OpId}
    {budget : Nat} (hget : budgets.get? node = some budget) : f.InSchedule node := by
  have hkey : node ∈ budgets.map Prod.fst := List.mem_map_of_mem (OpMap.mem_of_get? hget)
  rw [hkeys] at hkey
  obtain ⟨s, hs, hmem⟩ := List.mem_flatMap.mp hkey
  obtain ⟨hreached, schedule, hk⟩ := hall s hs
  exact ⟨s, schedule, ((h.mem_parts_iff hreached hk).mp hmem).2, hk⟩

section GetsTo

variable {s node : OpId} {budgets : Budgets}

/-- When the pass gets to a schedule, those before it have shared out what they receive. -/
theorem GetsTo.shares (hgets : f.GetsTo prices audience root s budgets) (h : f.Nested) :
    ∃ before after, f.schedules = .ok (before ++ s :: after)
      ∧ budgets.map Prod.fst = before.flatMap f.parts
      ∧ ∀ s' ∈ before, ∃ budget total, f.SharesOut prices root budgets s' budget total := by
  obtain ⟨before, after, hschedules, hbefore⟩ := hgets
  obtain ⟨ids, hids, hnd⟩ := h.findAll_isOk (·.kind.isSchedule)
  cases hids.symm.trans hschedules
  obtain ⟨hkeys, -, hshares⟩ := h.budgetSchedules_shares (List.nodup_append.mp hnd).1
    (fun s' hs' => (h.mem_schedules hschedules).mp (List.mem_append_left _ hs'))
    (fun _ _ _ _ hkey => by cases hkey) hbefore
  exact ⟨before, after, hschedules, hkeys, hshares⟩

/-- **Then the node around it has a budget exactly if it stands in a schedule.** -/
theorem Nested.budgeted_iff (h : f.Nested) (hgets : f.GetsTo prices audience root s budgets)
    (hin : f.InNode node s) : (∃ budget, budgets.get? node = some budget) ↔ f.InSchedule node := by
  have hs : f.Reaches s := (hgets.reaches h).1
  obtain ⟨before, after, hschedules, hkeys, hshares⟩ := hgets.shares h
  constructor
  · rintro ⟨budget, hget⟩
    exact h.inSchedule_of_get?
      (fun s' hs' => (h.mem_schedules hschedules).mp (List.mem_append_left _ hs')) hkeys hget
  · rintro ⟨p, schedule, hparent, hk⟩
    have hup : f.Above node s := hin.above.1
    have hnode : f.Reaches node := h.reaches_of_above hup hs
    have hp : f.Reaches p := (h.holds_of_isParent hnode hparent).1
    have hmem : node ∈ f.parts p :=
      (h.mem_parts_iff hp hk).mpr ⟨⟨hnode, hin.above.2⟩, hparent⟩
    -- The schedule is in the node, so it cannot be the one that the node stands in.
    have hne : p ≠ s := by
      rintro rfl
      exact h.not_above_owner hs (parts_subset node hmem) hup
    have hup' : f.Above p s := Relation.ReflTransGen.head hparent hup
    obtain ⟨budget, total, hsplit⟩ := hshares p (h.mem_before_of_above hschedules hk hup' hne)
    obtain ⟨cost, -, hget⟩ := hsplit.share node hmem
    exact ⟨_, hget⟩

/-- **A schedule is refused for want of its parent's budget exactly if the node around it stands in
no schedule.** -/
theorem Nested.refuses_missing_iff (h : f.Nested)
    (hgets : f.GetsTo prices audience root s budgets) {name : String} :
    f.Refuses prices root budgets s (.missingParentBudget node name) ↔
      f.InNode node s ∧ ¬ f.InSchedule node ∧ f.label node = .ok name := by
  constructor
  · rintro (hincoming | _ | _)
    obtain ⟨node', name', hnode, hget, hname, heq⟩ := incomingBudget_eq_error hincoming
    cases heq
    have hin := inNode_of_nodeAround hnode
    refine ⟨hin, fun hparent => ?_, hname⟩
    obtain ⟨budget, hget'⟩ := (h.budgeted_iff hgets hin).mpr hparent
    rw [hget] at hget'
    cases hget'
  · rintro ⟨hin, hparent, hname⟩
    have hget : budgets.get? node = none := by
      refine Option.eq_none_iff_forall_ne_some.mpr fun budget hget => hparent ?_
      exact (h.budgeted_iff hgets hin).mp ⟨budget, hget⟩
    refine .incoming ?_
    rw [incomingBudget, (h.nodeAround_eq_some_iff (hgets.reaches h).1).mpr hin, Checked.ok_bind]
    simp only [hget, hname, Checked.ok_bind]
    rfl

end GetsTo

/-- Where budgets are found, the nodes around schedules stand in schedules. -/
theorem Nested.inSchedule_of_budgets (h : f.Nested) {budgets : Budgets}
    (hy : (f.budgets prices root).Yields audience (.ok budgets)) {s node : OpId}
    (hs : f.Reaches s) {schedule : Schedule} (hk : f.kindOf s = some (.schedule schedule))
    (hin : f.InNode node s) : f.InSchedule node := by
  obtain ⟨schedules, hmem, hkeys, hshares⟩ := h.budgets_shares hy
  obtain ⟨budget, total, hsplit⟩ := hshares s ((hmem s).mpr ⟨hs, schedule, hk⟩)
  cases hsplit.receives with
  | root hnone => exact absurd hin (hnone node)
  | node hin' hget =>
    cases hin.unique hin'
    exact h.inSchedule_of_get? (fun s' hs' => (hmem s').mp hs') hkeys hget

/-! ## 3. Missing budgets -/

/-- **A parent has its budget before the schedules in it ask for it, unless it stands in no
schedule.**  A missing budget is that of a node that stands in no schedule and has a schedule in it.
A function with such a node gets no budgets: the pass is refused, unless a price stops it before
that. -/
theorem budgets_parents_first {f : Func} (hf : f.verify = .ok ()) (prices : Prices) (root : Nat)
    (audience : Audience) :
    (∀ n name, (f.budgets prices root).Yields audience (.error (.missingParentBudget n name)) ↔
      ∃ s budgets, f.GetsTo prices audience root s budgets
        ∧ f.InNode n s ∧ ¬ f.InSchedule n ∧ f.label n = .ok name)
    ∧ (∀ n name, (f.budgets prices root).Yields audience (.error (.missingParentBudget n name)) →
        f.Reaches n ∧ f.IsNode n ∧ ¬ f.InSchedule n)
    ∧ (∀ s schedule n, f.Reaches s → f.kindOf s = some (.schedule schedule) → f.InNode n s →
        ¬ f.InSchedule n →
          (∀ budgets, ¬ (f.budgets prices root).Yields audience (.ok budgets))
          ∧ ((∃ reason, (f.budgets prices root).Yields audience (.error reason)) ↔
              ¬ ∃ s fault, f.StopsAt prices audience root s fault))
    ∧ (∀ fault, (f.budgets prices root).Faults audience fault ↔
        ∃ s, f.StopsAt prices audience root s fault)
    ∧ ((∀ n, f.Reaches n → f.IsNode n → f.InSchedule n) → ∀ n name,
        ¬ (f.budgets prices root).Yields audience (.error (.missingParentBudget n name))) := by
  have h := (verify_eq_ok_iff_tidy.mp hf).toNested
  have hmissing : ∀ n name,
      (f.budgets prices root).Yields audience (.error (.missingParentBudget n name)) ↔
        ∃ s budgets, f.GetsTo prices audience root s budgets
          ∧ f.InNode n s ∧ ¬ f.InSchedule n ∧ f.label n = .ok name := fun n name => by
    rw [h.budgets_refused_iff]
    exact exists₂_congr fun s budgets => and_congr_right fun hgets => h.refuses_missing_iff hgets
  have hblames : ∀ n name,
      (f.budgets prices root).Yields audience (.error (.missingParentBudget n name)) →
        f.Reaches n ∧ f.IsNode n ∧ ¬ f.InSchedule n := fun n name hy => by
    obtain ⟨s, budgets, hgets, hin, hparent, -⟩ := (hmissing n name).mp hy
    exact ⟨h.reaches_of_above hin.above.1 (hgets.reaches h).1, hin.above.2, hparent⟩
  refine ⟨hmissing, hblames, fun s schedule n hs hk hin hparent => ?_,
    fun fault => h.budgets_stopped_iff, fun hall n name hy => ?_⟩
  · have hnone : ∀ budgets, ¬ (f.budgets prices root).Yields audience (.ok budgets) :=
      fun budgets hy => hparent (h.inSchedule_of_budgets hy hs hk hin)
    refine ⟨hnone, ?_, fun hstops => ?_⟩
    · rintro ⟨reason, hy⟩ ⟨s', fault, hstops⟩
      exact hy.not_faults (h.budgets_stopped_iff.mpr ⟨s', hstops⟩)
    · rcases h.budgets_cases audience prices root with ⟨budgets, hy⟩ | hrefused | hstops'
      · exact absurd hy (hnone budgets)
      · exact hrefused
      · exact absurd hstops' hstops
  · obtain ⟨hn, hnode, hparent⟩ := hblames n name hy
    exact hparent (hall n hn hnode)

/-- The large copy, and after it a node in no schedule that holds one. -/
def orphaned : Func where
  name := "f"
  arguments := [0, 1]
  body := [0, 3]
  ops := #[
    { id := 0, kind := .schedule { name := "top", increase := none, decrease := none },
      parent := none, body := [1], erased := false },
    { id := 1, kind := .node "n", parent := some 0, body := [2], erased := false },
    { id := 2, kind := .copy 0 1, parent := some 1, body := [], erased := false },
    { id := 3, kind := .node "orphan", parent := none, body := [4], erased := false },
    { id := 4, kind := .schedule { name := "inner", increase := none, decrease := none },
      parent := some 3, body := [], erased := false }]
  values := #[{ id := 0, name := "A", shape := [2 ^ 63, 2], space := 0, definition := .argument 0 },
              { id := 1, name := "B", shape := [2 ^ 63, 2], space := 0, definition := .argument 1 }]

/-- With a price for the first node the orphan is named.  Counting executions, the pass does not
come to it, since the price of the first schedule stops it: there is neither a budget nor a
refusal. -/
theorem budgets_orphaned : orphaned.verify = .ok ()
    ∧ (orphaned.budgets (.ofNodes fun _ id => .ok (OpMap.get? [(1, 5)] id)) 4).Yields none
        (.error (.missingParentBudget 3 "@orphan"))
    ∧ (orphaned.Reaches 3 ∧ orphaned.IsNode 3 ∧ ¬ orphaned.InSchedule 3)
    ∧ (orphaned.budgets .byTripCount 4).Faults none (.elementCount 1)
    ∧ (∃ s, orphaned.StopsAt .byTripCount none 4 s (.elementCount 1))
    ∧ (∀ budgets, ¬ (orphaned.budgets .byTripCount 4).Yields none (.ok budgets))
    ∧ ¬ ∃ reason, (orphaned.budgets .byTripCount 4).Yields none (.error reason) := by
  have hverify : orphaned.verify = .ok () := by decide
  have hyields : (orphaned.budgets (.ofNodes fun _ id => .ok (OpMap.get? [(1, 5)] id)) 4).Yields
      none (.error (.missingParentBudget 3 "@orphan")) := ⟨_, rfl⟩
  have hfaults : (orphaned.budgets .byTripCount 4).Faults none (.elementCount 1) := rfl
  obtain ⟨-, hblames, -⟩ := budgets_parents_first hverify
    (.ofNodes fun _ id => .ok (OpMap.get? [(1, 5)] id)) 4 none
  have horphan := hblames 3 _ hyields
  obtain ⟨-, -, hrefused, hstopped, -⟩ := budgets_parents_first hverify .byTripCount 4 none
  obtain ⟨s, hstops⟩ := (hstopped _).mp hfaults
  have hin : orphaned.InNode 3 4 := .here rfl rfl
  have hinner : orphaned.Reaches 4 := .nested horphan.1 (by decide)
  obtain ⟨hnone, hiff⟩ := hrefused 4 _ 3 hinner rfl hin horphan.2.2
  exact ⟨hverify, hyields, horphan, hfaults, ⟨s, hstops⟩, hnone,
    fun hy => hiff.mp hy ⟨s, _, hstops⟩⟩

end Func
end Dataflow
